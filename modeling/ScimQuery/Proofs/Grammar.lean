import ScimQuery.Filter.Basic
import ScimQuery.Token

/-!
# The grammar of filters

`IsChain tokens connectives filter need` and `IsTerm tokens filter need` say that `tokens` derive
`filter` by the rules

* chain: `term ((and | or) term)*`
* term: `( chain )`, `path [ chain ]` or a condition
* condition: `path pr`, or `path comparator operand` for every other comparator.

Chains group to the left, which the rule `IsChain.link` takes literally: a chain is a term, or a
shorter chain, a connective and a term.

The `need` of a derivation is the depth that it takes to read the tokens. Each pair of brackets
costs one level, and so does each place where a chain changes its connective: the term behind `s`
such places has `s` levels less for itself.
-/

namespace ScimQuery

namespace Grammar

/-! ### Conditions -/

/-- A quoted operand is the text between its marks, and a word is typed by what it looks like. -/
inductive IsOperand : Token → Operand → Prop
  | quoted (content : String) : IsOperand (.quoted content) (.text content)
  | word (word : String) : IsOperand (.word word) (.ofWord word)

/-- The tokens of a condition. Only `present` goes without an operand. -/
inductive IsCondition : List Token → Condition → Prop
  | present {path word : String} (hword : Text.lower word = Comparator.present.keyword) :
      IsCondition [.word path, .word word] ⟨path, .present, none⟩
  | comparison {path word : String} {c : Comparator} {token : Token} {operand : Operand}
      (hword : Text.lower word = c.keyword) (hc : c ≠ .present)
      (hoperand : IsOperand token operand) :
      IsCondition [.word path, .word word, token] ⟨path, c, some operand⟩

/-! ### Terms and chains -/

/-- The number of places in a list of connectives where one differs from the one before it. -/
def switches : List Connective → Nat
  | c :: d :: rest => (if c = d then 0 else 1) + switches (d :: rest)
  | _ => 0

mutual

/-- `tokens` are one term, they stand for `filter` and need so many levels. -/
inductive IsTerm : List Token → Filter → Nat → Prop
  | condition {tokens : List Token} {test : Condition} (htest : IsCondition tokens test) :
      IsTerm tokens (.condition test) 0
  | group {tokens : List Token} {cs : List Connective} {f : Filter} {need : Nat}
      (hinner : IsChain tokens cs f need) :
      IsTerm (.opening .round :: (tokens ++ [.closing .round])) f (need + 1)
  | array {path : String} {tokens : List Token} {cs : List Connective} {f : Filter} {need : Nat}
      (hinner : IsChain tokens cs f need) :
      IsTerm (.word path :: .opening .square :: (tokens ++ [.closing .square])) (.array path f)
        (need + 1)

/-- `tokens` are terms joined by the connectives `cs`, they stand for `filter` and need so many
levels. -/
inductive IsChain : List Token → List Connective → Filter → Nat → Prop
  | term {tokens : List Token} {f : Filter} {need : Nat} (hterm : IsTerm tokens f need) :
      IsChain tokens [] f need
  | link {left right : List Token} {cs : List Connective} {f g : Filter} {m n : Nat}
      {word : String} {c : Connective} (hleft : IsChain left cs f m)
      (hword : Text.lower word = c.keyword) (hright : IsTerm right g n) :
      IsChain (left ++ .word word :: right) (cs ++ [c]) (.logical c f g)
        (max m (switches (cs ++ [c]) + n))

end

/-- Induction on the derivations of terms and of chains at once. -/
theorem derivation_induction {P : List Token → Filter → Nat → Prop}
    {Q : List Token → List Connective → Filter → Nat → Prop}
    (condition : ∀ {tokens : List Token} {test : Condition}, IsCondition tokens test →
      P tokens (.condition test) 0)
    (group : ∀ {tokens : List Token} {cs : List Connective} {f : Filter} {need : Nat},
      Q tokens cs f need → P (.opening .round :: (tokens ++ [.closing .round])) f (need + 1))
    (array : ∀ {path : String} {tokens : List Token} {cs : List Connective} {f : Filter}
      {need : Nat}, Q tokens cs f need →
      P (.word path :: .opening .square :: (tokens ++ [.closing .square])) (.array path f)
        (need + 1))
    (term : ∀ {tokens : List Token} {f : Filter} {need : Nat}, P tokens f need →
      Q tokens [] f need)
    (link : ∀ {left right : List Token} {cs : List Connective} {f g : Filter} {m n : Nat}
      {word : String} {c : Connective}, Q left cs f m → Text.lower word = c.keyword →
      P right g n →
      Q (left ++ .word word :: right) (cs ++ [c]) (.logical c f g)
        (max m (switches (cs ++ [c]) + n))) :
    (∀ {tokens : List Token} {f : Filter} {need : Nat}, IsTerm tokens f need → P tokens f need) ∧
    ∀ {tokens : List Token} {cs : List Connective} {f : Filter} {need : Nat},
      IsChain tokens cs f need → Q tokens cs f need := by
  constructor
  · intro tokens f need h
    exact @IsTerm.rec (fun tokens f need _ => P tokens f need)
      (fun tokens cs f need _ => Q tokens cs f need) condition (fun _ ih => group ih)
      (fun _ ih => array ih) (fun _ ih => term ih) (fun _ hword _ ihl ihr => link ihl hword ihr)
      tokens f need h
  · intro tokens cs f need h
    exact @IsChain.rec (fun tokens f need _ => P tokens f need)
      (fun tokens cs f need _ => Q tokens cs f need) condition (fun _ ih => group ih)
      (fun _ ih => array ih) (fun _ ih => term ih) (fun _ hword _ ihl ihr => link ihl hword ihr)
      tokens cs f need h

/-- `tokens` are an expression, they stand for `filter` and need so many levels. -/
def IsExpression (tokens : List Token) (f : Filter) (need : Nat) : Prop :=
  ∃ cs, IsChain tokens cs f need

theorem IsExpression.ne_nil {tokens : List Token} {f : Filter} {need : Nat}
    (h : IsExpression tokens f need) : tokens ≠ [] := by
  obtain ⟨cs, hchain⟩ := h
  cases hchain with
  | link _ _ _ => simp
  | term hterm =>
    cases hterm with
    | condition htest => cases htest <;> simp
    | group _ => simp
    | array _ => simp

/-! ### Switches -/

/-- One more connective is a switch if it differs from the last one. -/
theorem switches_concat (cs : List Connective) (c : Connective) :
    switches (cs ++ [c]) = switches cs + if cs.getLast?.any (· != c) then 1 else 0 := by
  induction cs with
  | nil => rfl
  | cons d cs ih =>
    cases cs with
    | nil => by_cases h : d = c <;> simp [switches, h]
    | cons e rest =>
      simp only [List.cons_append, switches, List.getLast?_cons_cons] at ih ⊢
      omega

/-- A chain needs a level for each of its switches. -/
theorem IsChain.switches_le {tokens : List Token} {cs : List Connective} {f : Filter} {need : Nat}
    (h : IsChain tokens cs f need) : switches cs ≤ need := by
  cases h with
  | term _ => exact Nat.zero_le _
  | link _ _ _ => exact Nat.le_trans (Nat.le_add_right _ _) (Nat.le_max_right _ _)

end Grammar

end ScimQuery
