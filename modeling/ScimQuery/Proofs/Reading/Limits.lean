import Mathlib.Data.Nat.Find
import Mathlib.Order.Basic
import ScimQuery.Proofs.Reading.Reactions

/-!
# Larger limits

A limit has one effect: some token is refused for its depth. A larger limit either does not come to
matter, and then the outcome is the same, or it lets that token pass, and then whatever is wrong is
found behind it (`Filter.ofTokens_raise_limit`). No token takes more than one level, so that a limit
as large as the number of tokens refuses none for its depth, and for all tokens there is a least
limit that refuses none of them.

The two readings, one for each limit, are in the same state until the smaller limit is reached,
which is an induction on the tokens (`run_relaxes`).
-/

namespace ScimQuery

open Grammar

namespace Reading

/-- The outcome `large` under a larger limit compared with the outcome under `limit`. -/
inductive Relaxes (limit : Nat) : (small large : Except Failure (Filter × Nat)) → Prop
  /-- The smaller limit has not been reached. -/
  | same {outcome : Except Failure (Filter × Nat)}
      (h : ∀ failure, outcome = .error failure → ¬ failure.error.IsTooDeep) :
      Relaxes limit outcome outcome
  /-- The smaller limit is reached, in front of all errors under the larger one. -/
  | later {place depth : Nat} {large : Except Failure (Filter × Nat)}
      (h : ∀ failure, large = .error failure → place < failure.error.position) :
      Relaxes limit (.error ⟨.nestingTooDeep limit place, depth⟩) large

/-- Each token takes one level at most. -/
theorem RunsTo.not_isTooDeep (h : RunsTo limit position r tokens outcome)
    (hroom : r.depth + tokens.length ≤ limit) {failure : Failure}
    (hfailure : outcome = .error failure) : ¬ failure.error.IsTooDeep := by
  induction h with
  | complete f => simp at hfailure
  | missing hrefusal hresume =>
    obtain rfl := Except.error.inj hfailure
    simpa using hrefusal.not_isTooDeep
  | passes htaken h ih =>
    rw [List.length_cons] at hroom
    exact ih (by rw [depth_atDepth]; omega) hfailure
  | deepens _ htaken hlookback h ih =>
    rw [List.length_cons] at hroom
    exact ih (by rw [depth_atDepth]; omega) hfailure
  | tooDeep hreached =>
    rw [List.length_cons] at hroom
    omega
  | fails hrefusal =>
    obtain rfl := Except.error.inj hfailure
    simpa using hrefusal.not_isTooDeep

theorem run_relaxes {limit limit' position : Nat} {r : Reading} (hlt : limit < limit')
    (hdepth : r.depth ≤ limit) (tokens : List Token) :
    Relaxes limit (r.run limit position tokens) (r.run limit' position tokens) := by
  induction tokens generalizing r position with
  | nil =>
    apply Relaxes.same
    intro failure hfinish
    cases ending r with
    | complete f hcomplete =>
      exact absurd ((hcomplete position r.depth).symm.trans hfinish) (by simp)
    | fails e levels hfails hrefusal _ =>
      obtain rfl := Except.error.inj ((hfails position r.depth).symm.trans hfinish)
      simpa using hrefusal.not_isTooDeep
  | cons token tokens ih =>
    cases reaction r token with
    | passes next levels hstep _ =>
      have hless : r.depth - levels ≤ limit := by omega
      rw [run_cons (r := r) (hstep limit position r.depth),
        run_cons (r := r) (hstep limit' position r.depth)]
      exact ih hless
    | deepens next hstep _ hlookback =>
      have hsmall := hstep limit position r.depth
      have hlarge := hstep limit' position r.depth
      rw [if_neg (by omega)] at hlarge
      rw [run_cons (r := r) hlarge]
      by_cases hroom : limit ≤ r.depth
      · -- the smaller limit is reached here, and the larger one lets the token pass
        rw [if_pos hroom] at hsmall
        rw [run_cons_error (r := r) hsmall]
        apply Relaxes.later
        intro failure hfailure
        have hlater := (runsTo_run ..).le_position hfailure
        rw [lookback_atDepth, hlookback] at hlater
        omega
      · rw [if_neg hroom] at hsmall
        rw [run_cons (r := r) hsmall]
        exact ih (Nat.not_le.mp hroom)
    | fails e levels hstep hrefusal =>
      rw [run_cons_error (r := r) (hstep limit position r.depth),
        run_cons_error (r := r) (hstep limit' position r.depth)]
      apply Relaxes.same
      intro failure hfailure
      obtain rfl := Except.error.inj hfailure
      simpa using hrefusal.not_isTooDeep

end Reading

namespace Filter

/-- Whether tokens are refused for their depth. -/
def GoesTooDeep (tokens : List Token) (limit : Nat) : Prop :=
  ∃ e, ofTokens tokens limit = .error e ∧ e.IsTooDeep

theorem not_goesTooDeep_of_length_le {tokens : List Token} {limit : Nat}
    (h : tokens.length ≤ limit) : ¬ GoesTooDeep tokens limit := by
  rintro ⟨e, herror, he⟩
  obtain ⟨depth, hrun⟩ := ofTokens_eq_error_iff.mp herror
  have hroom : (Reading.start 0).depth + tokens.length ≤ limit := by simpa [Reading.start] using h
  exact (Reading.runsTo_run ..).not_isTooDeep hroom hrun he

/-- No expression needs more levels than it has tokens. -/
theorem need_le_length {tokens : List Token} {f : Filter} {need : Nat}
    (h : IsExpression tokens f need) : need ≤ tokens.length := by
  by_contra hlt
  obtain ⟨position, herror⟩ := ofTokens_tooDeep h (Nat.not_le.mp hlt)
  exact not_goesTooDeep_of_length_le (Nat.le_refl _)
    ⟨_, herror, ParseError.isTooDeep_nestingTooDeep ..⟩

/-- An outcome does not depend on a limit that is not reached. What it is refused for under a limit
that is reached stands in front of all that is wrong under a larger one. -/
theorem ofTokens_relaxes {limit limit' : Nat} (hlt : limit < limit') (tokens : List Token) :
    (¬ GoesTooDeep tokens limit → ofTokens tokens limit' = ofTokens tokens limit) ∧
    ∀ l place, ofTokens tokens limit = .error (.nestingTooDeep l place) →
      l = limit ∧ ∀ e, ofTokens tokens limit' = .error e → place < e.position := by
  have hrelaxes : Reading.Relaxes limit ((Reading.start 0).run limit 0 tokens)
      ((Reading.start 0).run limit' 0 tokens) :=
    Reading.run_relaxes hlt (Nat.zero_le limit) tokens
  generalize hsmall : (Reading.start 0).run limit 0 tokens = small at hrelaxes
  generalize hlarge : (Reading.start 0).run limit' 0 tokens = large at hrelaxes
  cases hrelaxes with
  | same h =>
    constructor
    · intro _
      exact ofTokens_congr (hlarge.trans hsmall.symm)
    · intro l place herror
      obtain ⟨depth, hrun⟩ := ofTokens_eq_error_iff.mp herror
      exact absurd (ParseError.isTooDeep_nestingTooDeep l place) (h _ (hsmall.symm.trans hrun))
  | later h =>
    constructor
    · intro hfits
      have herror := ofTokens_eq_error_iff.mpr ⟨_, hsmall⟩
      exact absurd ⟨_, herror, ParseError.isTooDeep_nestingTooDeep ..⟩ hfits
    · intro l place herror
      obtain ⟨depth, hrun⟩ := ofTokens_eq_error_iff.mp herror
      have hfailure := Except.error.inj (hsmall.symm.trans hrun)
      simp only [Failure.mk.injEq, ParseError.nestingTooDeep.injEq] at hfailure
      obtain ⟨⟨rfl, rfl⟩, -⟩ := hfailure
      refine ⟨rfl, fun e he => ?_⟩
      obtain ⟨depth', hrun'⟩ := ofTokens_eq_error_iff.mp he
      exact h _ (hlarge.symm.trans hrun')

theorem not_goesTooDeep_of_le {tokens : List Token} {limit limit' : Nat} (hle : limit ≤ limit')
    (h : ¬ GoesTooDeep tokens limit) : ¬ GoesTooDeep tokens limit' := by
  rcases Nat.eq_or_lt_of_le hle with rfl | hlt
  · exact h
  · unfold GoesTooDeep at h ⊢
    rwa [(ofTokens_relaxes hlt tokens).1 h]

/-- There is a least limit that refuses nothing for its depth. -/
theorem exists_unique_threshold (tokens : List Token) :
    ∃! threshold, ∀ limit, GoesTooDeep tokens limit ↔ limit < threshold := by
  classical
  have hfits : ∃ limit, ¬ GoesTooDeep tokens limit :=
    ⟨tokens.length, not_goesTooDeep_of_length_le (Nat.le_refl _)⟩
  have hthreshold : ∀ limit, GoesTooDeep tokens limit ↔ limit < Nat.find hfits := by
    intro limit
    constructor
    · intro hdeep
      by_contra hle
      exact not_goesTooDeep_of_le (Nat.not_lt.mp hle) (Nat.find_spec hfits) hdeep
    · intro hlt
      exact not_not.mp (Nat.find_min hfits hlt)
  refine ⟨Nat.find hfits, hthreshold, fun threshold h => ?_⟩
  apply eq_of_forall_lt_iff
  intro limit
  rw [← h limit, hthreshold limit]

/-- A larger limit changes no outcome but a refusal for the depth, and then only what stands behind
the refused token can be wrong. No limit from the number of tokens on refuses any of them for its
depth, so that there is one least limit that does not. -/
theorem ofTokens_raise_limit (tokens : List Token) :
    (∀ limit limit', limit < limit' →
      (¬ GoesTooDeep tokens limit → ofTokens tokens limit' = ofTokens tokens limit) ∧
      ∀ l place, ofTokens tokens limit = .error (.nestingTooDeep l place) →
        l = limit ∧ ∀ e, ofTokens tokens limit' = .error e → place < e.position) ∧
    (∀ limit, tokens.length ≤ limit → ¬ GoesTooDeep tokens limit) ∧
    ∃! threshold, ∀ limit, GoesTooDeep tokens limit ↔ limit < threshold :=
  ⟨fun _ _ hlt => ofTokens_relaxes hlt tokens, fun _ => not_goesTooDeep_of_length_le,
    exists_unique_threshold tokens⟩

end Filter

end ScimQuery
