import Mathlib.Data.EReal.Basic
import ScimQuery.Proofs.Folding
import ScimQuery.Proofs.Nearest

/-!
# Equality of filters

Two filters correspond if they have the same shape, with the same connectives, paths and comparators
at the same places and with operands that are related there (`Filter.Corresponds`). This is stated
for any relation between operands. The one that counts for equality is `Operand.SameValue`, by which
the two zeros are the same and what is no number is not even the same as itself.

`Filter.equal` gets there without recursion, and stops at the first difference. A `Comparison` is
what it holds at one moment, and `Round` says how any of the pairs that are left is compared, not
only the first one. Whichever is taken, the pairs that are left all correspond after a round if and
only if they did before it (`Round.holds_iff`). So all orders come to the same end, and equality,
which is one of these orders (`reaches_verdict_equalPairs`), decides whether two filters correspond
(`equal_by_rounds`).
-/

namespace ScimQuery

/-! ### Values of operands -/

namespace Magnitude

/-- A number is the opposite of another one only if both are zero. -/
theorem value_eq_neg_iff {m n : Magnitude} : m.value = -n.value ↔ m = zero ∧ m = n := by
  constructor
  · intro h
    have hm : m.value = 0 := by linarith [m.value_nonneg, n.value_nonneg]
    have hn : n.value = 0 := by linarith
    rw [← value_zero, value_inj] at hm hn
    exact ⟨hm, hm.trans hn.symm⟩
  · rintro ⟨rfl, rfl⟩
    rw [value_zero, neg_zero]

end Magnitude

namespace Binary64

/-- The value of a finite number. -/
def signed (negative : Bool) (m : Magnitude) : ℚ := if negative then -m.value else m.value

/-- What a value of the format denotes, unless it is no number. -/
noncomputable def value? : Binary64 → Option EReal
  | .finite negative m => some (signed negative m : ℝ)
  | .infinite negative => some (if negative then ⊥ else ⊤)
  | .nan => none

theorem signed_inj {s t : Bool} {m n : Magnitude} :
    signed s m = signed t n ↔ (s = t ∨ m = .zero) ∧ m = n := by
  unfold signed
  cases s <;> cases t
  · simp [Magnitude.value_inj]
  · simp [Magnitude.value_eq_neg_iff]
  · simp [neg_eq_iff_eq_neg, Magnitude.value_eq_neg_iff]
  · simp [Magnitude.value_inj]

/-- Two values are equal if they denote one and the same number. -/
theorem equal_iff_value? {x y : Binary64} :
    x.equal y = true ↔ ∃ v, x.value? = some v ∧ y.value? = some v := by
  cases x with
  | nan => simp [equal, value?]
  | finite s m =>
    cases y with
    | nan => simp [equal, value?]
    | finite t n =>
      simp only [equal, value?, Bool.and_eq_true, Bool.or_eq_true, beq_iff_eq, ← signed_inj,
        Option.some.injEq, exists_eq_left', EReal.coe_eq_coe_iff, Rat.cast_inj]
      exact eq_comm
    | infinite t => cases t <;> simp [equal, value?]
  | infinite s =>
    cases y with
    | nan => simp [equal, value?]
    | finite t n => cases s <;> simp [equal, value?]
    | infinite t => cases s <;> cases t <;> simp [equal, value?]

end Binary64

namespace Operand

/-- Whether two operands are of one kind and have the same value. -/
inductive SameValue : Operand → Operand → Prop
  | text (s : String) : SameValue (.text s) (.text s)
  | integer (n : Int64) : SameValue (.integer n) (.integer n)
  | real {x y : Binary64} {v : EReal} (hx : x.value? = some v) (hy : y.value? = some v) :
      SameValue (.real x) (.real y)
  | boolean (b : Bool) : SameValue (.boolean b) (.boolean b)

theorem sameValue_real_iff {x y : Binary64} :
    SameValue (.real x) (.real y) ↔ ∃ v, x.value? = some v ∧ y.value? = some v :=
  ⟨fun | .real hx hy => ⟨_, hx, hy⟩, fun ⟨_, hx, hy⟩ => .real hx hy⟩

theorem equal_iff_sameValue {x y : Operand} : x.equal y = true ↔ x.SameValue y := by
  constructor
  · intro h
    cases x <;> cases y <;> simp only [equal, beq_iff_eq, Bool.false_eq_true] at h
    case text.text s t => exact h ▸ .text s
    case integer.integer m n => exact h ▸ .integer m
    case real.real a b => exact sameValue_real_iff.mpr (Binary64.equal_iff_value?.mp h)
    case boolean.boolean b c => exact h ▸ .boolean b
  · intro h
    cases h with
    | text s => exact beq_self_eq_true s
    | integer n => exact beq_self_eq_true n
    | real hx hy => exact Binary64.equal_iff_value?.mpr ⟨_, hx, hy⟩
    | boolean b => exact beq_self_eq_true b

instance symm_sameValue : Std.Symm SameValue where
  symm x y h := by
    cases h with
    | text s => exact .text s
    | integer n => exact .integer n
    | real hx hy => exact .real hy hx
    | boolean b => exact .boolean b

instance isTrans_sameValue : IsTrans Operand SameValue where
  trans x y z hxy hyz := by
    cases hxy with
    | text s => exact hyz
    | integer n => exact hyz
    | boolean b => exact hyz
    | real hx hy =>
      cases hyz with
      | real hy' hz =>
        obtain rfl := Option.some.inj (hy.symm.trans hy')
        exact .real hx hz

/-- Only what is no number is not the same as itself. -/
theorem sameValue_self_iff {x : Operand} : x.SameValue x ↔ x ≠ .real .nan := by
  cases x with
  | text s => exact iff_of_true (.text s) nofun
  | integer n => exact iff_of_true (.integer n) nofun
  | boolean b => exact iff_of_true (.boolean b) nofun
  | real a => cases a <;> simp [sameValue_real_iff, Binary64.value?]

end Operand

/-! ### Corresponding filters -/

/-- Whether two conditions test the same attribute in the same way, against operands that are
related. -/
@[mk_iff]
structure Condition.Corresponds (R : Operand → Operand → Prop) (a b : Condition) : Prop where
  path : a.path = b.path
  comparator : a.comparator = b.comparator
  operand : Option.Rel R a.operand b.operand

theorem Condition.equal_iff_corresponds {a b : Condition} :
    a.equal b = true ↔ a.Corresponds Operand.SameValue b := by
  rw [corresponds_iff]
  obtain ⟨path, comparator, operand⟩ := a
  obtain ⟨path', comparator', operand'⟩ := b
  cases operand <;> cases operand' <;> simp [equal, Operand.equal_iff_sameValue, and_assoc]

/-- Whether two filters have the same shape, with the same connectives and paths and with conditions
that correspond at the same places. -/
inductive Filter.Corresponds (R : Operand → Operand → Prop) : Filter → Filter → Prop
  | condition {a b : Condition} (h : a.Corresponds R b) :
      Corresponds R (.condition a) (.condition b)
  | logical (c : Connective) {l r m s : Filter} (hl : Corresponds R l m) (hr : Corresponds R r s) :
      Corresponds R (.logical c l r) (.logical c m s)
  | array (path : String) {f g : Filter} (h : Corresponds R f g) :
      Corresponds R (.array path f) (.array path g)

section Relation

variable {R : Operand → Operand → Prop}

instance Condition.symm_corresponds [Std.Symm R] : Std.Symm (Condition.Corresponds R) where
  symm a b h := by
    obtain ⟨path, comparator, operand⟩ := a
    obtain ⟨path', comparator', operand'⟩ := b
    obtain ⟨hpath, hcomparator, hoperand⟩ := h
    refine ⟨hpath.symm, hcomparator.symm, ?_⟩
    cases hoperand with
    | some h => exact .some (Std.Symm.symm _ _ h)
    | none => exact .none

instance Condition.isTrans_corresponds [IsTrans Operand R] :
    IsTrans Condition (Condition.Corresponds R) where
  trans a b c hab hbc := by
    obtain ⟨path, comparator, operand⟩ := a
    obtain ⟨path', comparator', operand'⟩ := b
    obtain ⟨path'', comparator'', operand''⟩ := c
    obtain ⟨hpath, hcomparator, hoperand⟩ := hab
    obtain ⟨hpath', hcomparator', hoperand'⟩ := hbc
    refine ⟨hpath.trans hpath', hcomparator.trans hcomparator', ?_⟩
    cases hoperand with
    | none => exact hoperand'
    | some hxy =>
      cases hoperand' with
      | some hyz => exact .some (IsTrans.trans _ _ _ hxy hyz)

theorem Condition.corresponds_self_iff {a : Condition} :
    a.Corresponds R a ↔ ∀ x ∈ a.operand.toList, R x x := by
  rw [corresponds_iff]
  obtain ⟨path, comparator, operand⟩ := a
  cases operand <;> simp

namespace Filter

instance symm_corresponds [Std.Symm R] : Std.Symm (Corresponds R) where
  symm f g h := by
    induction h with
    | condition h => exact .condition (Std.Symm.symm _ _ h)
    | logical c _ _ ihl ihr => exact .logical c ihl ihr
    | array path _ ih => exact .array path ih

instance isTrans_corresponds [IsTrans Operand R] : IsTrans Filter (Corresponds R) where
  trans f g h hfg hgh := by
    -- the first correspondence gives the shape of all three filters
    induction hfg generalizing h with
    | condition hab =>
      cases hgh with
      | condition hbc => exact .condition (IsTrans.trans _ _ _ hab hbc)
    | logical c _ _ ihl ihr =>
      cases hgh with
      | logical _ hl hr => exact .logical c (ihl _ hl) (ihr _ hr)
    | array path _ ih =>
      cases hgh with
      | array _ h => exact .array path (ih _ h)

/-- The values that the conditions of a filter compare with, from left to right. -/
def values : Filter → List Operand
  | .condition test => test.operand.toList
  | .logical _ l r => l.values ++ r.values
  | .array _ f => f.values

/-- A filter corresponds to itself if each of its values is related to itself. -/
theorem corresponds_self_iff {f : Filter} :
    f.Corresponds R f ↔ ∀ x ∈ f.values, R x x := by
  induction f with
  | condition test =>
    rw [values, ← Condition.corresponds_self_iff]
    exact ⟨fun | .condition h => h, .condition⟩
  | logical c l r ihl ihr =>
    rw [values, List.forall_mem_append, ← ihl, ← ihr]
    exact ⟨fun | .logical _ hl hr => ⟨hl, hr⟩, fun ⟨hl, hr⟩ => .logical c hl hr⟩
  | array path f ih =>
    rw [values, ← ih]
    exact ⟨fun | .array _ h => h, .array path⟩

/-! ### One pair at a time -/

/-- The pairs that are left to compare below two nodes that agree. -/
inductive Descends (R : Operand → Operand → Prop) :
    Filter → Filter → List (Filter × Filter) → Prop
  | condition {a b : Condition} (h : a.Corresponds R b) :
      Descends R (.condition a) (.condition b) []
  | logical (c : Connective) (l r m s : Filter) :
      Descends R (.logical c l r) (.logical c m s) [(l, m), (r, s)]
  | array (path : String) (f g : Filter) : Descends R (.array path f) (.array path g) [(f, g)]

theorem descends_condition_iff {a b : Condition} {below : List (Filter × Filter)} :
    Descends R (.condition a) (.condition b) below ↔ a.Corresponds R b ∧ below = [] := by
  constructor
  · rintro ⟨h⟩
    exact ⟨h, rfl⟩
  · rintro ⟨h, rfl⟩
    exact .condition h

theorem descends_logical_iff {c d : Connective} {l r m s : Filter}
    {below : List (Filter × Filter)} :
    Descends R (.logical c l r) (.logical d m s) below ↔ c = d ∧ below = [(l, m), (r, s)] := by
  constructor
  · rintro ⟨⟩
    exact ⟨rfl, rfl⟩
  · rintro ⟨rfl, rfl⟩
    exact .logical ..

theorem descends_array_iff {p q : String} {f g : Filter} {below : List (Filter × Filter)} :
    Descends R (.array p f) (.array q g) below ↔ p = q ∧ below = [(f, g)] := by
  constructor
  · rintro ⟨⟩
    exact ⟨rfl, rfl⟩
  · rintro ⟨rfl, rfl⟩
    exact .array ..

theorem Descends.unique {f g : Filter} {below below' : List (Filter × Filter)}
    (h : Descends R f g below) (h' : Descends R f g below') : below = below' := by
  cases h <;> cases h' <;> rfl

theorem corresponds_iff_descends {f g : Filter} : f.Corresponds R g ↔
    ∃ below, Descends R f g below ∧ ∀ pair ∈ below, pair.1.Corresponds R pair.2 := by
  constructor
  · rintro (h | ⟨c, hl, hr⟩ | ⟨path, h⟩)
    · exact ⟨_, .condition h, by simp⟩
    · exact ⟨_, .logical .., by simp [hl, hr]⟩
    · exact ⟨_, .array .., by simp [h]⟩
  · rintro ⟨below, hdescends, hbelow⟩
    cases hdescends with
    | condition h => exact .condition h
    | logical c l r m s => exact .logical c (hbelow (l, m) (by simp)) (hbelow (r, s) (by simp))
    | array path f g => exact .array path (hbelow (f, g) (by simp))

theorem Descends.corresponds_iff {f g : Filter} {below : List (Filter × Filter)}
    (h : Descends R f g below) :
    f.Corresponds R g ↔ ∀ pair ∈ below, pair.1.Corresponds R pair.2 := by
  rw [corresponds_iff_descends]
  constructor
  · rintro ⟨below', h', hbelow⟩
    exact h.unique h' ▸ hbelow
  · exact fun hbelow => ⟨below, h, hbelow⟩

/-- What is left to compare gets less. -/
theorem Descends.workload_lt {f g : Filter} {below : List (Filter × Filter)}
    (h : Descends R f g below) : workload (fun pair => pair.1.nodes) below < f.nodes := by
  cases h with
  | condition h => exact nodes_pos _
  | logical c l r m s => simp [nodes]
  | array path f g => simp [nodes]

/-! ### Rounds -/

/-- What a comparison holds between two rounds. -/
inductive Comparison
  /-- The pairs that are left to compare. -/
  | pending (pairs : List (Filter × Filter))
  /-- Two nodes have been found that do not agree. -/
  | differ

namespace Comparison

/-- The comparison of two filters before its first round. -/
def start (f g : Filter) : Comparison := .pending [(f, g)]

/-- A comparison after its last round, with its answer. -/
def verdict : Bool → Comparison
  | true => .pending []
  | false => .differ

/-- One round takes any of the pairs that are left. If the nodes agree, then the pairs below them
take its place. -/
inductive Round (R : Operand → Operand → Prop) : Comparison → Comparison → Prop
  | agree {f g : Filter} {below : List (Filter × Filter)} (front back : List (Filter × Filter))
      (h : Descends R f g below) :
      Round R (.pending (front ++ (f, g) :: back)) (.pending (front ++ below ++ back))
  | differ {f g : Filter} (front back : List (Filter × Filter))
      (h : ∀ below, ¬ Descends R f g below) :
      Round R (.pending (front ++ (f, g) :: back)) .differ

/-- Some number of rounds leads from one comparison to another. -/
def Reaches (R : Operand → Operand → Prop) : Comparison → Comparison → Prop :=
  Relation.ReflTransGen (Round R)

/-- Whether no pair that is left tells the filters apart. -/
def Holds (R : Operand → Operand → Prop) : Comparison → Prop
  | .pending pairs => ∀ pair ∈ pairs, pair.1.Corresponds R pair.2
  | .differ => False

variable {s s' : Comparison}

theorem holds_start_iff {f g : Filter} : (start f g).Holds R ↔ f.Corresponds R g := by
  simp [start, Holds]

/-- No round changes what the answer is. -/
theorem Round.holds_iff (h : Round R s s') : s.Holds R ↔ s'.Holds R := by
  cases h with
  | agree front back h =>
    simp only [Holds, List.forall_mem_append, List.forall_mem_cons, h.corresponds_iff, and_assoc]
  | @differ f g front back h =>
    refine iff_of_false (fun hall => ?_) id
    obtain ⟨below, hbelow, -⟩ := corresponds_iff_descends.mp (hall (f, g) (by simp))
    exact h below hbelow

theorem Reaches.holds_iff (hrun : s.Reaches R s') : s.Holds R ↔ s'.Holds R :=
  holds_of_reaches (P := fun t => s.Holds R ↔ t.Holds R)
    (fun _ _ hround h => h.trans hround.holds_iff) hrun Iff.rfl

/-- The pairs that are left. -/
def pairs : Comparison → List (Filter × Filter)
  | .pending pairs => pairs
  | .differ => []

/-- What is left to compare gets less with every round. -/
theorem Round.workload_lt (h : Round R s s') :
    workload (fun pair => pair.1.nodes) s'.pairs < workload (fun pair => pair.1.nodes) s.pairs := by
  cases h with
  | agree front back h =>
    have hbelow := h.workload_lt
    simp only [pairs, workload_append, workload_cons]
    omega
  | @differ f g front back h =>
    have hpos := f.nodes_pos
    simp only [pairs, workload_append, workload_cons, workload_nil]
    omega

/-- No comparison goes on for ever. -/
theorem wellFounded_round (R : Operand → Operand → Prop) :
    WellFounded fun s' s => Round R s s' :=
  wellFounded_of_workload_lt fun _ _ => Round.workload_lt

/-- A comparison that has no answer yet goes on. -/
theorem eq_verdict_or_exists_round (R : Operand → Operand → Prop) (s : Comparison) :
    (∃ answer, s = verdict answer) ∨ ∃ s', Round R s s' := by
  match s with
  | .differ => exact .inl ⟨false, rfl⟩
  | .pending [] => exact .inl ⟨true, rfl⟩
  | .pending ((f, g) :: back) =>
    by_cases h : ∃ below, Descends R f g below
    · obtain ⟨below, hbelow⟩ := h
      exact .inr ⟨_, .agree [] back hbelow⟩
    · exact .inr ⟨_, .differ [] back (not_exists.mp h)⟩

theorem holds_verdict_iff {answer : Bool} : (verdict answer).Holds R ↔ answer = true := by
  cases answer <;> simp [verdict, Holds]

/-- Every comparison comes to its answer. -/
theorem reaches_verdict_iff {answer : Bool} :
    s.Reaches R (.verdict answer) ↔ (s.Holds R ↔ answer = true) := by
  constructor
  · intro hrun
    rw [hrun.holds_iff, holds_verdict_iff]
  · intro h
    -- a round keeps that the answer is the right one, so that the end cannot be the other one
    refine reaches_of_progress (P := fun s => s.Holds R ↔ answer = true) (wellFounded_round R)
      (fun _ _ hround => hround.holds_iff.symm.trans) (fun s h => ?_) h
    rcases eq_verdict_or_exists_round R s with ⟨answer', rfl⟩ | hround
    · rw [holds_verdict_iff, Bool.coe_iff_coe] at h
      exact .inl (h ▸ rfl)
    · exact .inr hround

/-- If a test finds out whether the first pair agrees, then the answer is that of the test and of
what is left after it. -/
theorem reaches_verdict_cons {f g : Filter} (below : List (Filter × Filter))
    {back : List (Filter × Filter)} {test answer : Bool}
    (h : (pending (below ++ back)).Reaches R (.verdict answer))
    (htest : ∀ below', Descends R f g below' ↔ test = true ∧ below' = below) :
    (pending ((f, g) :: back)).Reaches R (.verdict (test && answer)) := by
  cases test with
  | true => exact .head (.agree [] back ((htest below).mpr ⟨rfl, rfl⟩)) h
  | false =>
    refine .single (.differ [] back fun below' hbelow => ?_)
    exact Bool.false_ne_true ((htest below').mp hbelow).1

end Comparison

end Filter

end Relation

namespace Filter

/-- Equality is the comparison that takes the first pair in each round. -/
theorem reaches_verdict_equalPairs (pairs : List (Filter × Filter)) :
    (Comparison.pending pairs).Reaches Operand.SameValue (.verdict (equalPairs pairs)) := by
  fun_induction equalPairs pairs with
  | case1 => exact .refl
  | case2 a b rest ih =>
    refine Comparison.reaches_verdict_cons [] ih fun below => ?_
    rw [descends_condition_iff, Condition.equal_iff_corresponds]
  | case3 c l r d m s rest ih =>
    refine Comparison.reaches_verdict_cons [(l, m), (r, s)] ih fun below => ?_
    rw [descends_logical_iff, beq_iff_eq]
  | case4 p f q g rest ih =>
    refine Comparison.reaches_verdict_cons [(f, g)] ih fun below => ?_
    rw [descends_array_iff, beq_iff_eq]
  | case5 pair rest hcondition hlogical harray =>
    -- the nodes of this pair are of different kinds
    obtain ⟨f, g⟩ := pair
    refine .single (.differ [] rest fun below h => ?_)
    cases h with
    | condition h => exact hcondition _ _ rfl
    | logical c l r m s => exact hlogical _ _ _ _ _ _ rfl
    | array path f g => exact harray _ _ _ _ rfl

theorem equal_iff_corresponds {f g : Filter} :
    f.equal g = true ↔ f.Corresponds Operand.SameValue g := by
  rw [← Comparison.holds_start_iff]
  exact (Comparison.reaches_verdict_iff.mp (reaches_verdict_equalPairs [(f, g)])).symm

theorem equal_comm (f g : Filter) : f.equal g = g.equal f := by
  rw [Bool.eq_iff_iff, equal_iff_corresponds, equal_iff_corresponds]
  exact ⟨Std.Symm.symm f g, Std.Symm.symm g f⟩

theorem equal_trans {f g h : Filter} (hfg : f.equal g = true) (hgh : g.equal h = true) :
    f.equal h = true := by
  rw [equal_iff_corresponds] at hfg hgh ⊢
  exact IsTrans.trans f g h hfg hgh

/-- A filter equals its copy if each of its values equals itself. -/
theorem equal_copy_iff {f : Filter} :
    f.equal f.copy = true ↔ ∀ x ∈ f.values, x.equal x = true := by
  rw [copy_eq, equal_iff_corresponds, corresponds_self_iff]
  simp only [Operand.equal_iff_sameValue]

theorem forall_equal_self_iff {f : Filter} :
    (∀ x ∈ f.values, x.equal x = true) ↔ .real .nan ∉ f.values := by
  simp only [Operand.equal_iff_sameValue, Operand.sameValue_self_iff]
  exact ⟨fun h hnan => h _ hnan rfl, fun hnan x hx h => hnan (h ▸ hx)⟩

/-- Equality decides whether two filters correspond, with the same values at the same places, and
gets there by rounds. Whatever is taken for the same value, a comparison that takes any of the pairs
first comes to an end, and all of them come to the same one, which says whether the filters
correspond; this is symmetric and transitive if what is taken for the same value is. So equality is
both, and a filter equals its copy if and only if each of its values equals itself, that is, if none
of them is no number. -/
theorem equal_by_rounds :
    (∀ f g : Filter, f.equal g = true ↔ f.Corresponds Operand.SameValue g) ∧
      (∀ x y : Operand, x.equal y = true ↔ x.SameValue y) ∧
      (∀ pairs : List (Filter × Filter),
        (Comparison.pending pairs).Reaches Operand.SameValue (.verdict (equalPairs pairs))) ∧
      (∀ R : Operand → Operand → Prop,
        (WellFounded fun s' s => Comparison.Round R s s') ∧
        (∀ f g s answer, (Comparison.start f g).Reaches R s →
          (s.Reaches R (.verdict answer) ↔ (f.Corresponds R g ↔ answer = true))) ∧
        (Std.Symm R → Std.Symm (Corresponds R)) ∧
        (IsTrans Operand R → IsTrans Filter (Corresponds R))) ∧
      (∀ f g : Filter, f.equal g = g.equal f) ∧
      (∀ f g h : Filter, f.equal g = true → g.equal h = true → f.equal h = true) ∧
      ∀ f : Filter, (f.equal f.copy = true ↔ ∀ x ∈ f.values, x.equal x = true) ∧
        ((∀ x ∈ f.values, x.equal x = true) ↔ .real .nan ∉ f.values) := by
  refine ⟨fun f g => equal_iff_corresponds, fun x y => Operand.equal_iff_sameValue,
    reaches_verdict_equalPairs, fun R => ?_, equal_comm, fun f g h => equal_trans,
    fun f => ⟨equal_copy_iff, forall_equal_self_iff⟩⟩
  refine ⟨Comparison.wellFounded_round R, fun f g s answer hrun => ?_, fun _ => inferInstance,
    fun _ => inferInstance⟩
  rw [Comparison.reaches_verdict_iff, ← hrun.holds_iff, Comparison.holds_start_iff]

end Filter

end ScimQuery
