import ScimQuery.Proofs.Reading.Reactions

/-!
# Where errors stand

All tokens in front of the place of an error are the beginning of some filter, and the token at that
place goes with no beginning like this, whatever may follow it (`Filter.viable_before_error`). Only
errors about the depth are left out: a limit can refuse tokens that are a filter.

The first half holds of every reading, for every reading has a completion (`exists_run_completion`).
For the second half a failed run is cut at the token that decides it (`exists_stopsAt`).
-/

namespace ScimQuery

open Grammar

namespace Reading

/-! ### Every reading can be completed -/

section Completion

variable (limit position depth : Nat) (chain : Chain) (frames : List Frame)

/-- Behind a term, closing the open groups ends the filter. -/
theorem exists_run_closings (term : Filter) :
    ∃ outcome, run limit position ⟨.joint term, chain, frames, depth⟩
      (frames.map fun frame => .closing frame.group.bracket) = .ok outcome := by
  induction frames generalizing position depth chain term with
  | nil => exact ⟨_, rfl⟩
  | cons frame frames ih =>
    have hclose : step limit position ⟨.joint term, chain, frame :: frames, depth⟩
        (.closing frame.group.bracket) =
          .ok ⟨.joint (frame.group.term (chain.join term)), frame.outer, frames,
            depth - chain.switches - 1⟩ := by
      simp [step, connective?, close, chainDepth]
    obtain ⟨outcome, houtcome⟩ := ih (position + 1) (depth - chain.switches - 1) frame.outer
      (frame.group.term (chain.join term))
    exact ⟨outcome, by rw [List.map_cons, run_cons hclose, houtcome]⟩

theorem exists_run_completion (r : Reading) :
    ∃ outcome, r.run limit position r.completion = .ok outcome := by
  obtain ⟨phase, chain, frames, depth⟩ := r
  have hpresent : Comparator.ofWord? Comparator.present.keyword = some .present := by decide
  rw [completion_eq]
  cases phase with
  | term =>
    have hcondition : IsCondition (Phase.completion .term) ⟨"a", .present, none⟩ :=
      .present (by decide)
    rw [run_condition hcondition]
    exact exists_run_closings ..
  | comparator path =>
    have hstep : step limit position ⟨.comparator path, chain, frames, depth⟩
        (.word Comparator.present.keyword) =
          .ok ⟨.joint (.condition ⟨path, .present, none⟩), chain, frames, depth⟩ := by
      simp [step, hpresent, Comparator.takesOperand]
    rw [Phase.completion, List.singleton_append, run_cons hstep]
    exact exists_run_closings ..
  | operand path c =>
    rw [Phase.completion, List.singleton_append, run_cons (by rfl)]
    exact exists_run_closings ..
  | joint term => exact exists_run_closings ..

end Completion

/-! ### The token that decides -/

/-- A reading of tokens is cut into those that are read and those that are left when an error is
found in the state `last`. The first token that is left decides, or that there is none. -/
structure StopsAt (limit position : Nat) (r : Reading) (tokens : List Token) (failure : Failure)
    (front back : List Token) (last : Reading) : Prop where
  split : tokens = front ++ back
  advance_eq : r.advance limit position front = .ok last
  position_eq : failure.error.position = position + front.length
  refusal : ∃ levels, last.Refusal failure.error levels
  run_eq : ∀ others : List Token, others.head? = back.head? →
    last.run limit (position + front.length) others = .error failure

section Stops

variable {limit position : Nat} {r : Reading} {token : Token} {tokens : List Token}
  {failure : Failure}

/-- A token that is read belongs to the first part. -/
theorem StopsAt.cons {next last : Reading} {front back : List Token}
    (h : StopsAt limit (position + 1) next tokens failure front back last)
    (hstep : r.step limit position token = .ok next) :
    StopsAt limit position r (token :: tokens) failure (token :: front) back last := by
  have hlength : position + 1 + front.length = position + (token :: front).length := by
    rw [List.length_cons]
    omega
  constructor
  · rw [h.split, List.cons_append]
  · rw [advance_cons hstep, h.advance_eq]
  · rw [h.position_eq, hlength]
  · exact h.refusal
  · rw [← hlength]
    exact h.run_eq

theorem exists_stopsAt (h : r.run limit position tokens = .error failure)
    (he : ¬ failure.error.IsTooDeep) :
    ∃ front back last, StopsAt limit position r tokens failure front back last := by
  induction tokens generalizing r position with
  | nil =>
    have hfinish : r.finish position = .error failure := h
    cases ending r with
    | complete f hcomplete =>
      exact absurd ((hcomplete position r.depth).symm.trans hfinish) (by simp)
    | fails e levels hfails hrefusal _ =>
      obtain rfl := Except.error.inj ((hfails position r.depth).symm.trans hfinish)
      refine ⟨[], [], r, rfl, rfl, by simp, ⟨levels, hrefusal.atPlace position⟩, ?_⟩
      intro others hothers
      rw [List.head?_nil, List.head?_eq_none_iff] at hothers
      rw [hothers]
      exact hfinish
  | cons token tokens ih =>
    have hread : ∀ next, r.step limit position token = .ok next →
        ∃ front back last, StopsAt limit position r (token :: tokens) failure front back last := by
      intro next hstep
      rw [run_cons hstep] at h
      obtain ⟨front, back, last, hstops⟩ := ih h
      exact ⟨token :: front, back, last, hstops.cons hstep⟩
    cases reaction r token with
    | passes next levels hstep _ => exact hread _ (hstep limit position r.depth)
    | deepens next hstep _ _ =>
      have hdeeper := hstep limit position r.depth
      by_cases hroom : limit ≤ r.depth
      · -- the error would be about the depth
        rw [if_pos hroom] at hdeeper
        obtain rfl := Except.error.inj ((run_cons_error hdeeper).symm.trans h)
        exact absurd (ParseError.isTooDeep_nestingTooDeep _ _) he
      · rw [if_neg hroom] at hdeeper
        exact hread _ hdeeper
    | fails e levels hstep hrefusal =>
      have herror := hstep limit position r.depth
      obtain rfl := Except.error.inj ((run_cons_error herror).symm.trans h)
      refine ⟨[], token :: tokens, r, rfl, rfl, by simp, ⟨levels, hrefusal.atPlace position⟩, ?_⟩
      intro others hothers
      rw [List.head?_cons, List.head?_eq_some_iff] at hothers
      obtain ⟨rest, rfl⟩ := hothers
      exact run_cons_error herror

end Stops

end Reading

namespace Filter

/-- An error that is not about the depth stands at the first token that cannot go on. The tokens in
front of it begin a filter that is admitted by the same limit: they are one already if a token is
unexpected, and the bracket that is missing can follow them. All sequences that begin like this up
to the token at that place fail with the same error. -/
theorem viable_before_error {tokens : List Token} {limit : Nat} {e : ParseError}
    (h : ofTokens tokens limit = .error e) (he : ¬ e.IsTooDeep) :
    e.position ≤ tokens.length ∧
    (∃ rest f, ofTokens (tokens.take e.position ++ rest) limit = .ok f ∧
      (∀ token place, e = .unexpectedToken token place → rest = []) ∧
      ∀ b place, e = .missingClosing b place → ∃ more, rest = .closing b :: more) ∧
    (e.position < tokens.length → ∀ others : List Token,
      others.take (e.position + 1) = tokens.take (e.position + 1) →
      ofTokens others limit = .error e) := by
  obtain ⟨depth, hrun⟩ := ofTokens_eq_error_iff.mp h
  obtain ⟨front, back, last, hstops⟩ := Reading.exists_stopsAt hrun he
  obtain ⟨rfl, hadvance, hplace, ⟨levels, hrefusal⟩, hagain⟩ := hstops
  simp only [Nat.zero_add] at hplace hagain hrefusal
  rw [hplace]
  refine ⟨by simp, ?viable, ?offending⟩
  case viable =>
    obtain ⟨⟨f, level⟩, hcompletion⟩ := last.exists_run_completion limit front.length
    have hok := Reading.run_append hadvance last.completion
    rw [Nat.zero_add, hcompletion] at hok
    refine ⟨last.completion, f, ?_, ?_, hrefusal.of_missingClosing⟩
    · rw [List.take_left]
      exact ofTokens_of_run_ok hok
    · exact fun token place heq => (hrefusal.of_unexpectedToken token place heq).1
  case offending =>
    intro hlt others hothers
    cases back with
    | nil => simp at hlt
    | cons token back =>
      -- the other sequence has the same tokens up to the one that decides
      obtain ⟨rest, rfl⟩ : ∃ rest, others = front ++ token :: rest := by
        refine ⟨others.drop (front.length + 1), ?_⟩
        have hbegin : others.take (front.length + 1) = front ++ [token] := by
          rw [hothers, List.take_length_add_append, List.take_succ_cons, List.take_zero]
        conv => lhs; rw [← List.take_append_drop (front.length + 1) others, hbegin]
        simp
      have herror := Reading.run_append hadvance (token :: rest)
      rw [Nat.zero_add, hagain (token :: rest) rfl] at herror
      exact ofTokens_eq_error_iff.mpr ⟨depth, herror⟩

/-- In the innermost of two groups only its own bracket can close it, whatever follows. -/
theorem viable_before_wrong_bracket :
    let front : List Token := [.word "a", .word "pr", .word "or", .opening .round, .word "b",
      .opening .square, .word "c", .word "pr"]
    (∃ more f, ofTokens (front ++ .closing .square :: more) 2 = .ok f) ∧
      ∀ rest, ofTokens (front ++ .closing .round :: rest) 2 =
        .error (.missingClosing .square 8) := by
  intro front
  have herror : ofTokens (front ++ [.closing .round]) 2 = .error (.missingClosing .square 8) := rfl
  obtain ⟨-, ⟨rest, f, hok, -, hmissing⟩, hoffending⟩ :=
    viable_before_error herror (by simp [ParseError.IsTooDeep])
  constructor
  · obtain ⟨more, rfl⟩ := hmissing .square 8 rfl
    exact ⟨more, f, hok⟩
  · intro rest
    exact hoffending (by decide) (front ++ .closing .round :: rest) rfl

end Filter

end ScimQuery
