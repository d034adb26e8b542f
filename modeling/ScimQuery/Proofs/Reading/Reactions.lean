import Mathlib.Algebra.GroupWithZero.Nat
import ScimQuery.Proofs.Parsing

/-!
# What a token does to a reading

Whether a token can be read, and what is known behind it, depends on the phase, the chain and the
open groups of a reading. The depth, the limit and the place of the token come in at few points: a
token may take a level, which the limit can refuse, and it may give back levels that have been
taken. `reaction` says so for all depths, limits and places at once, and `ending` says it of the end
of the tokens. What is known of errors, of larger limits and of parsing again follows from these two
by induction on the tokens.
-/

namespace ScimQuery

namespace ParseError

/-- The same error about another place. -/
def atPlace (place : Nat) : ParseError → ParseError
  | .unsupportedComparator found _ => .unsupportedComparator found place
  | .invalidCondition _ => .invalidCondition place
  | .missingClosing b _ => .missingClosing b place
  | .nestingTooDeep limit _ => .nestingTooDeep limit place
  | .unexpectedToken token _ => .unexpectedToken token place

@[simp] theorem position_atPlace (place : Nat) (e : ParseError) :
    (e.atPlace place).position = place := by
  cases e <;> rfl

/-- Whether an error is about the depth. -/
def IsTooDeep (e : ParseError) : Prop := ∃ limit place, e = .nestingTooDeep limit place

@[simp] theorem isTooDeep_nestingTooDeep (limit place : Nat) :
    (nestingTooDeep limit place).IsTooDeep :=
  ⟨limit, place, rfl⟩

/-- Behind an error at most the token that it is about has been read. -/
theorem resumeAt_le (e : ParseError) : e.resumeAt ≤ e.position + 1 := by
  cases e <;> simp [resumeAt, position]

theorem position_le_resumeAt (e : ParseError) : e.position ≤ e.resumeAt := by
  cases e <;> simp [resumeAt, position]

@[simp] theorem isTooDeep_atPlace {place : Nat} {e : ParseError} :
    (e.atPlace place).IsTooDeep ↔ e.IsTooDeep := by
  cases e <;> simp [atPlace, IsTooDeep]

end ParseError

/-- Tokens that end the term of a phase. -/
def Phase.completion : Phase → List Token
  | .term => [.word "a", .word Comparator.present.keyword]
  | .comparator _ => [.word Comparator.present.keyword]
  | .operand _ _ => [.word "a"]
  | .joint _ => []

namespace Reading

/-! ### What a reading owes -/

/-- The same reading at another depth. -/
def atDepth (depth : Nat) (r : Reading) : Reading := { r with depth := depth }

/-- The levels that the open groups have taken and the switches of the chains that have been
begun. -/
def taken (r : Reading) : Nat :=
  r.chain.switches + (r.frames.map fun frame => frame.outer.switches + 1).sum

/-- How many tokens before the next one stands the token that an error about the depth is about. A
path is refused when the bracket behind it is read. -/
def lookback (r : Reading) : Nat :=
  match r.phase with
  | .comparator _ => 1
  | _ => 0

/-- Tokens that make a filter of what has been read: the rest of the term and a closing bracket for
each open group. -/
def completion (r : Reading) : List Token :=
  r.phase.completion ++ r.frames.map fun frame => .closing frame.group.bracket

@[simp] theorem depth_atDepth (depth : Nat) (r : Reading) : (r.atDepth depth).depth = depth := rfl

@[simp] theorem taken_atDepth (depth : Nat) (r : Reading) : (r.atDepth depth).taken = r.taken := rfl

@[simp] theorem lookback_atDepth (depth : Nat) (r : Reading) :
    (r.atDepth depth).lookback = r.lookback := rfl

theorem lookback_le_one (r : Reading) : r.lookback ≤ 1 := by
  unfold lookback
  split <;> omega

section Fields

variable (phase : Phase) (chain : Chain) (frames : List Frame) (depth : Nat)

theorem taken_eq : taken ⟨phase, chain, frames, depth⟩ =
    chain.switches + (frames.map fun frame => frame.outer.switches + 1).sum := rfl

theorem completion_eq : completion ⟨phase, chain, frames, depth⟩ =
    phase.completion ++ frames.map fun frame => .closing frame.group.bracket := rfl

end Fields

/-! ### One token -/

/-- An error that a reading can end with, and how many levels are given back before it. -/
structure Refusal (r : Reading) (e : ParseError) (levels : Nat) : Prop where
  levels_le : levels ≤ r.taken
  not_isTooDeep : ¬ e.IsTooDeep
  /-- The bracket that is missing is the one that would go on. -/
  of_missingClosing : ∀ b place, e = .missingClosing b place →
    ∃ rest, r.completion = .closing b :: rest
  /-- Nothing is missing in front of a token that follows a complete filter. -/
  of_unexpectedToken : ∀ token place, e = .unexpectedToken token place →
    r.completion = [] ∧ levels = r.taken

theorem refusal_invalidCondition (r : Reading) : r.Refusal (.invalidCondition 0) 0 :=
  ⟨Nat.zero_le _, by simp [ParseError.IsTooDeep], by simp, by simp⟩

theorem refusal_unsupportedComparator (r : Reading) (found : String) :
    r.Refusal (.unsupportedComparator found 0) 0 :=
  ⟨Nat.zero_le _, by simp [ParseError.IsTooDeep], by simp, by simp⟩

theorem Refusal.atPlace {r : Reading} {e : ParseError} {levels : Nat} (h : r.Refusal e levels)
    (place : Nat) : r.Refusal (e.atPlace place) levels := by
  refine ⟨h.levels_le, by simpa using h.not_isTooDeep, ?_, ?_⟩
  · intro b p heq
    cases e with
    | missingClosing bracket _ =>
      cases heq
      exact h.of_missingClosing b _ rfl
    | _ => simp [ParseError.atPlace] at heq
  · intro token p heq
    cases e with
    | unexpectedToken found _ =>
      cases heq
      exact h.of_unexpectedToken token _ rfl
    | _ => simp [ParseError.atPlace] at heq

/-- What a token does to a reading, at all depths, limits and places. -/
inductive Reaction (r : Reading) (token : Token) : Prop
  /-- The token is read, and some levels are given back. -/
  | passes (next : Reading) (levels : Nat)
      (hstep : ∀ limit position depth, (r.atDepth depth).step limit position token =
        .ok (next.atDepth (depth - levels)))
      (htaken : next.taken + levels = r.taken)
  /-- The token is read if there is room for one more level. -/
  | deepens (next : Reading)
      (hstep : ∀ limit position depth, (r.atDepth depth).step limit position token =
        if limit ≤ depth then .error ⟨.nestingTooDeep limit (position - r.lookback), depth⟩
        else .ok (next.atDepth (depth + 1)))
      (htaken : next.taken = r.taken + 1) (hlookback : next.lookback = 0)
  /-- The token cannot be read. -/
  | fails (e : ParseError) (levels : Nat)
      (hstep : ∀ limit position depth, (r.atDepth depth).step limit position token =
        .error ⟨e.atPlace position, depth - levels⟩)
      (hrefusal : r.Refusal e levels)

section Reactions

variable {phase : Phase} {chain : Chain} {frames : List Frame} {level : Nat} {token : Token}

/-- A token that only changes the phase. -/
theorem Reaction.of_phase (next : Phase)
    (h : ∀ limit position depth, step limit position ⟨phase, chain, frames, depth⟩ token =
      .ok ⟨next, chain, frames, depth⟩) :
    Reaction ⟨phase, chain, frames, level⟩ token :=
  .passes ⟨next, chain, frames, level⟩ 0 h rfl

/-- A token that opens a group. -/
theorem Reaction.of_group (group : Group) {back : Nat}
    (hback : lookback ⟨phase, chain, frames, level⟩ = back)
    (h : ∀ limit position depth, step limit position ⟨phase, chain, frames, depth⟩ token =
      (deepen limit (position - back) ⟨phase, chain, frames, depth⟩).map (enter group)) :
    Reaction ⟨phase, chain, frames, level⟩ token := by
  apply Reaction.deepens ⟨.term, .empty, ⟨group, chain⟩ :: frames, level⟩
  · intro limit position depth
    rw [hback]
    refine (h limit position depth).trans ?_
    unfold deepen
    by_cases hroom : limit ≤ depth
    · simp only [hroom, if_true, Except.map]
    · simp only [hroom, if_false, Except.map]
      rfl
  · simp only [taken_eq, Chain.empty, List.map_cons, List.sum_cons]
    omega
  · rfl

theorem reaction_term (token : Token) : Reaction ⟨.term, chain, frames, level⟩ token := by
  have hinvalid : ∀ token : Token,
      (∀ limit position depth, step limit position ⟨.term, chain, frames, depth⟩ token =
        .error ⟨.invalidCondition position, depth⟩) →
      Reaction ⟨.term, chain, frames, level⟩ token := fun token h =>
    .fails (.invalidCondition 0) 0 h (refusal_invalidCondition _)
  cases token with
  | opening b =>
    cases b with
    | round => exact .of_group .parentheses rfl fun _ _ _ => rfl
    | square => exact hinvalid _ fun _ _ _ => rfl
  | closing b => exact hinvalid _ fun _ _ _ => rfl
  | word path => exact .of_phase (.comparator path) fun _ _ _ => rfl
  | quoted content => exact hinvalid _ fun _ _ _ => rfl

theorem reaction_comparator (path : String) (token : Token) :
    Reaction ⟨.comparator path, chain, frames, level⟩ token := by
  have hunsupported : ∀ (token : Token) (found : String),
      (∀ limit position depth, step limit position ⟨.comparator path, chain, frames, depth⟩ token =
        .error ⟨.unsupportedComparator found position, depth⟩) →
      Reaction ⟨.comparator path, chain, frames, level⟩ token := fun token found h =>
    .fails (.unsupportedComparator found 0) 0 h (refusal_unsupportedComparator _ found)
  cases token with
  | opening b =>
    cases b with
    | round => exact hunsupported _ _ fun _ _ _ => rfl
    | square => exact .of_group (.array path) rfl fun _ _ _ => rfl
  | closing b => exact hunsupported _ _ fun _ _ _ => rfl
  | quoted content => exact hunsupported _ _ fun _ _ _ => rfl
  | word w =>
    cases hc : Comparator.ofWord? w with
    | none => exact hunsupported _ (Text.lower w) fun _ _ _ => by simp [step, hc]
    | some c =>
      by_cases hoperand : c.takesOperand
      · exact .of_phase (.operand path c) fun _ _ _ => by simp [step, hc, hoperand]
      · exact .of_phase (.joint (.condition ⟨path, c, none⟩)) fun _ _ _ => by
          simp [step, hc, hoperand]

theorem reaction_operand (path : String) (c : Comparator) (token : Token) :
    Reaction ⟨.operand path c, chain, frames, level⟩ token := by
  have hinvalid : ∀ token : Token,
      (∀ limit position depth, step limit position ⟨.operand path c, chain, frames, depth⟩ token =
        .error ⟨.invalidCondition position, depth⟩) →
      Reaction ⟨.operand path c, chain, frames, level⟩ token := fun token h =>
    .fails (.invalidCondition 0) 0 h (refusal_invalidCondition _)
  cases token with
  | opening b => exact hinvalid _ fun _ _ _ => rfl
  | closing b => exact hinvalid _ fun _ _ _ => rfl
  | word w => exact .of_phase (.joint _) fun _ _ _ => rfl
  | quoted content => exact .of_phase (.joint _) fun _ _ _ => rfl

/-- A connective takes a level if it is a switch. -/
theorem reaction_connective {c : Connective} (term : Filter) (h : connective? token = some c) :
    Reaction ⟨.joint term, chain, frames, level⟩ token := by
  by_cases hs : chain.switchesTo c
  · apply Reaction.deepens
      ⟨.term, ⟨some (chain.join term, c), chain.switches + 1⟩, frames, level⟩
    · intro limit position depth
      by_cases hroom : limit ≤ depth
      · simp [step, atDepth, h, connect, hs, deepen, hroom, Except.map, lookback]
      · simp [step, atDepth, h, connect, hs, deepen, hroom, Except.map]
    · simp only [taken_eq]
      omega
    · rfl
  · apply Reaction.passes ⟨.term, ⟨some (chain.join term, c), chain.switches⟩, frames, level⟩ 0
    · intro limit position depth
      simp [step, atDepth, h, connect, hs]
    · rfl

/-- Any other token ends the chain, and the levels of its switches are given back. -/
theorem reaction_end (term : Filter) (h : connective? token = none) :
    Reaction ⟨.joint term, chain, frames, level⟩ token := by
  cases frames with
  | nil =>
    apply Reaction.fails (.unexpectedToken token 0) chain.switches
    · intro limit position depth
      simp [step, atDepth, h, close, chainDepth, ParseError.atPlace]
    · exact ⟨Nat.le_refl _, by simp [ParseError.IsTooDeep], by simp, fun _ _ _ => ⟨rfl, rfl⟩⟩
  | cons frame frames =>
    obtain ⟨group, outer⟩ := frame
    by_cases hclose : token = .closing group.bracket
    · apply Reaction.passes ⟨.joint (group.term (chain.join term)), outer, frames, level⟩
        (chain.switches + 1)
      · intro limit position depth
        simp [step, atDepth, connective?, close, chainDepth, hclose, Nat.sub_sub]
      · simp only [taken_eq, List.map_cons, List.sum_cons]
        omega
    · apply Reaction.fails (.missingClosing group.bracket 0) chain.switches
      · intro limit position depth
        simp [step, atDepth, h, close, chainDepth, hclose, ParseError.atPlace]
      · exact ⟨by simp [taken_eq], by simp [ParseError.IsTooDeep],
          by simp [completion_eq, Phase.completion], by simp⟩

theorem reaction (r : Reading) (token : Token) : Reaction r token := by
  obtain ⟨phase, chain, frames, level⟩ := r
  cases phase with
  | term => exact reaction_term token
  | comparator path => exact reaction_comparator path token
  | operand path c => exact reaction_operand path c token
  | joint term =>
    cases h : connective? token with
    | some c => exact reaction_connective term h
    | none => exact reaction_end term h

end Reactions

/-! ### The end of the tokens -/

/-- What the end of the tokens does to a reading, at all depths and places. -/
inductive Ending (r : Reading) : Prop
  /-- A filter has been read, and all levels are given back. -/
  | complete (f : Filter)
      (hfinish : ∀ position depth, (r.atDepth depth).finish position = .ok (f, depth - r.taken))
  /-- Something is missing. -/
  | fails (e : ParseError) (levels : Nat)
      (hfinish : ∀ position depth, (r.atDepth depth).finish position =
        .error ⟨e.atPlace position, depth - levels⟩)
      (hrefusal : r.Refusal e levels) (hresume : ∀ place, (e.atPlace place).resumeAt = place)

theorem ending (r : Reading) : Ending r := by
  obtain ⟨phase, chain, frames, level⟩ := r
  have hinvalid : (∀ position depth, finish position ⟨phase, chain, frames, depth⟩ =
      .error ⟨.invalidCondition position, depth⟩) → Ending ⟨phase, chain, frames, level⟩ := fun h =>
    .fails (.invalidCondition 0) 0 h (refusal_invalidCondition _) fun _ => rfl
  cases phase with
  | term => exact hinvalid fun _ _ => rfl
  | comparator path => exact hinvalid fun _ _ => rfl
  | operand path c => exact hinvalid fun _ _ => rfl
  | joint term =>
    cases frames with
    | nil => exact .complete (chain.join term) fun _ _ => rfl
    | cons frame frames =>
      apply Ending.fails (.missingClosing frame.group.bracket 0) chain.switches
      · exact fun _ _ => rfl
      · exact ⟨by simp [taken_eq], by simp [ParseError.IsTooDeep],
          by simp [completion_eq, Phase.completion], by simp⟩
      · exact fun _ => rfl

/-! ### All tokens -/

/-- How a reading of tokens comes to its outcome under a limit. -/
inductive RunsTo (limit : Nat) :
    (position : Nat) → Reading → List Token → Except Failure (Filter × Nat) → Prop
  | complete {position : Nat} {r : Reading} (f : Filter) :
      RunsTo limit position r [] (.ok (f, r.depth - r.taken))
  | missing {position levels : Nat} {r : Reading} {e : ParseError} (hrefusal : r.Refusal e levels)
      (hresume : (e.atPlace position).resumeAt = position) :
      RunsTo limit position r [] (.error ⟨e.atPlace position, r.depth - levels⟩)
  | passes {position levels : Nat} {r next : Reading} {token : Token} {tokens : List Token}
      {outcome : Except Failure (Filter × Nat)} (htaken : next.taken + levels = r.taken)
      (h : RunsTo limit (position + 1) (next.atDepth (r.depth - levels)) tokens outcome) :
      RunsTo limit position r (token :: tokens) outcome
  | deepens {position : Nat} {r next : Reading} {token : Token} {tokens : List Token}
      {outcome : Except Failure (Filter × Nat)} (hroom : r.depth < limit)
      (htaken : next.taken = r.taken + 1) (hlookback : next.lookback = 0)
      (h : RunsTo limit (position + 1) (next.atDepth (r.depth + 1)) tokens outcome) :
      RunsTo limit position r (token :: tokens) outcome
  | tooDeep {position : Nat} {r : Reading} {token : Token} {tokens : List Token}
      (hroom : limit ≤ r.depth) :
      RunsTo limit position r (token :: tokens)
        (.error ⟨.nestingTooDeep limit (position - r.lookback), r.depth⟩)
  | fails {position levels : Nat} {r : Reading} {e : ParseError} {token : Token}
      {tokens : List Token} (hrefusal : r.Refusal e levels) :
      RunsTo limit position r (token :: tokens) (.error ⟨e.atPlace position, r.depth - levels⟩)

theorem runsTo_run (limit position : Nat) (r : Reading) (tokens : List Token) :
    RunsTo limit position r tokens (r.run limit position tokens) := by
  induction tokens generalizing r position with
  | nil =>
    have hrun : r.run limit position [] = (r.atDepth r.depth).finish position := rfl
    rw [hrun]
    cases ending r with
    | complete f hfinish =>
      rw [hfinish]
      exact .complete f
    | fails e levels hfinish hrefusal hresume =>
      rw [hfinish]
      exact .missing hrefusal (hresume position)
  | cons token tokens ih =>
    cases reaction r token with
    | passes next levels hstep htaken =>
      rw [run_cons (r := r) (hstep limit position r.depth)]
      exact .passes htaken (ih ..)
    | deepens next hstep htaken hlookback =>
      have hstep := hstep limit position r.depth
      by_cases hroom : limit ≤ r.depth
      · rw [if_pos hroom] at hstep
        rw [run_cons_error (r := r) hstep]
        exact .tooDeep hroom
      · rw [if_neg hroom] at hstep
        rw [run_cons (r := r) hstep]
        exact .deepens (Nat.not_le.mp hroom) htaken hlookback (ih ..)
    | fails e levels hstep hrefusal =>
      rw [run_cons_error (r := r) (hstep limit position r.depth)]
      exact .fails hrefusal

section RunsTo

variable {limit position : Nat} {r : Reading} {tokens : List Token}
  {outcome : Except Failure (Filter × Nat)}

/-- No error is about a token that was read before, save for a path in front of a bracket. -/
theorem RunsTo.le_position (h : RunsTo limit position r tokens outcome) {failure : Failure}
    (hfailure : outcome = .error failure) : position ≤ failure.error.position + r.lookback := by
  induction h with
  | complete f => simp at hfailure
  | missing hrefusal hresume =>
    obtain rfl := Except.error.inj hfailure
    simp
  | @passes position levels r next _ _ _ _ _ ih =>
    have hnext := next.lookback_le_one
    have hlater := ih hfailure
    rw [lookback_atDepth] at hlater
    omega
  | deepens hroom htaken hlookback h ih =>
    have hlater := ih hfailure
    rw [lookback_atDepth, hlookback] at hlater
    omega
  | tooDeep hroom =>
    obtain rfl := Except.error.inj hfailure
    simp only [ParseError.position]
    omega
  | fails hrefusal =>
    obtain rfl := Except.error.inj hfailure
    simp

/-- What is left after an error is a part of the tokens. -/
theorem RunsTo.resumeAt_le (h : RunsTo limit position r tokens outcome) {failure : Failure}
    (hfailure : outcome = .error failure) :
    failure.error.resumeAt ≤ position + tokens.length := by
  induction h with
  | complete f => simp at hfailure
  | missing hrefusal hresume =>
    obtain rfl := Except.error.inj hfailure
    exact Nat.le_of_eq hresume
  | passes htaken h ih =>
    rw [List.length_cons]
    have := ih hfailure
    omega
  | deepens hroom htaken hlookback h ih =>
    rw [List.length_cons]
    have := ih hfailure
    omega
  | tooDeep hroom =>
    obtain rfl := Except.error.inj hfailure
    simp only [ParseError.resumeAt, ParseError.position]
    omega
  | @fails position _ _ e _ tokens hrefusal =>
    obtain rfl := Except.error.inj hfailure
    have hresume := (e.atPlace position).resumeAt_le
    rw [ParseError.position_atPlace] at hresume
    refine Nat.le_trans hresume ?_
    rw [List.length_cons]
    omega

end RunsTo

/-! ### Several tokens -/

/-- Reads tokens without coming to their end. -/
def advance (limit position : Nat) (r : Reading) : List Token → Except Failure Reading
  | [] => .ok r
  | token :: tokens =>
    match r.step limit position token with
    | .ok r => advance limit (position + 1) r tokens
    | .error failure => .error failure

theorem advance_cons {limit position : Nat} {r r' : Reading} {token : Token}
    (h : r.step limit position token = .ok r') (tokens : List Token) :
    r.advance limit position (token :: tokens) = r'.advance limit (position + 1) tokens := by
  rw [advance, h]

theorem advance_cons_error {limit position : Nat} {r : Reading} {token : Token} {failure : Failure}
    (h : r.step limit position token = .error failure) (tokens : List Token) :
    r.advance limit position (token :: tokens) = .error failure := by
  rw [advance, h]

/-- What follows some tokens is read from the state behind them. -/
theorem run_append {limit position : Nat} {r r' : Reading} {front : List Token}
    (h : r.advance limit position front = .ok r') (back : List Token) :
    r.run limit position (front ++ back) = r'.run limit (position + front.length) back := by
  induction front generalizing r position with
  | nil =>
    rw [advance, Except.ok.injEq] at h
    rw [h]
    rfl
  | cons token front ih =>
    rw [advance] at h
    cases hstep : r.step limit position token with
    | error failure => simp [hstep] at h
    | ok next =>
      rw [hstep] at h
      rw [List.cons_append, run_cons hstep, ih h, List.length_cons]
      congr 1
      omega

end Reading

namespace Parser

variable {p : Parser}

theorem parse_of_run_ok {f : Filter} {depth : Nat}
    (h : (Reading.start p.depth).run p.limit p.position (p.tokens.drop p.position) =
      .ok (f, depth)) :
    p.parse = (.ok f, { p with position := p.tokens.length, depth := depth }) := by
  unfold parse
  simp only [h]

theorem parse_of_run_error {failure : Failure}
    (h : (Reading.start p.depth).run p.limit p.position (p.tokens.drop p.position) =
      .error failure) :
    p.parse = (.error failure.error,
      { p with position := failure.error.resumeAt, depth := failure.depth }) := by
  unfold parse
  simp only [h]

end Parser

namespace Filter

variable {tokens : List Token} {limit : Nat}

theorem ofTokens_of_run_ok {f : Filter} {depth : Nat}
    (h : (Reading.start 0).run limit 0 tokens = .ok (f, depth)) : ofTokens tokens limit = .ok f :=
  congrArg Prod.fst (Parser.parse_of_run_ok (p := .start tokens limit) h)

theorem ofTokens_eq_error_iff {e : ParseError} :
    ofTokens tokens limit = .error e ↔
      ∃ depth, (Reading.start 0).run limit 0 tokens = .error ⟨e, depth⟩ := by
  cases hrun : (Reading.start 0).run limit 0 tokens with
  | ok outcome =>
    obtain ⟨f, depth⟩ := outcome
    simp [ofTokens_of_run_ok hrun]
  | error failure =>
    have hparse := congrArg Prod.fst (Parser.parse_of_run_error (p := .start tokens limit) hrun)
    have herror : ofTokens tokens limit = .error failure.error := hparse
    obtain ⟨e', depth⟩ := failure
    simp [herror]

theorem ofTokens_congr {limit' : Nat}
    (h : (Reading.start 0).run limit' 0 tokens = (Reading.start 0).run limit 0 tokens) :
    ofTokens tokens limit' = ofTokens tokens limit := by
  cases hrun : (Reading.start 0).run limit 0 tokens with
  | ok outcome => rw [ofTokens_of_run_ok (h.trans hrun), ofTokens_of_run_ok hrun]
  | error failure =>
    rw [ofTokens_eq_error_iff.mpr ⟨failure.depth, h.trans hrun⟩,
      ofTokens_eq_error_iff.mpr ⟨failure.depth, hrun⟩]

end Filter

end ScimQuery
