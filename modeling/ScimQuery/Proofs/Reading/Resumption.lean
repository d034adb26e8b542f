import ScimQuery.Proofs.Reading.Reactions

/-!
# Parsing again

A parser that has given an answer can be asked again. Whatever it has met, it then reads what is
left of its tokens as a new parser would that has these tokens only and the levels that are left
(`Parser.resumable_calls`).

Two things carry this. The depth of a reading is the depth that it began with and one level for each
open group and each switch of a chain that has not ended, so that no more levels are given back than
have been taken (`Balanced`). And a reading at a greater depth, under a limit that is as much
greater, goes through the same states at another depth (`run_moved`).
-/

namespace ScimQuery

namespace ParseError

/-- An error about tokens that are a part of others: the place is counted in those, and the limit is
theirs. -/
def moved (offset limit : Nat) : ParseError → ParseError
  | .nestingTooDeep _ place => .nestingTooDeep limit (place + offset)
  | e => e.atPlace (e.position + offset)

theorem moved_atPlace {e : ParseError} (h : ¬ e.IsTooDeep) (offset limit place : Nat) :
    (e.atPlace place).moved offset limit = e.atPlace (place + offset) := by
  cases e with
  | nestingTooDeep l p => exact absurd (isTooDeep_nestingTooDeep l p) h
  | _ => rfl

end ParseError

namespace Reading

/-! ### Levels that are taken -/

/-- The depth is the one at the beginning, `base`, and the levels that have been taken since. -/
structure Balanced (limit base : Nat) (r : Reading) : Prop where
  depth_eq : r.depth = base + r.taken
  depth_le : r.depth ≤ limit

section Balance

variable {limit base position : Nat} {r next : Reading} {tokens : List Token}

theorem balanced_start (h : base ≤ limit) : Balanced limit base (start base) := ⟨rfl, h⟩

theorem Balanced.passes (h : Balanced limit base r) {levels : Nat}
    (htaken : next.taken + levels = r.taken) :
    Balanced limit base (next.atDepth (r.depth - levels)) := by
  obtain ⟨hdepth, hlimit⟩ := h
  constructor <;> simp only [depth_atDepth, taken_atDepth] <;> omega

theorem Balanced.deepens (h : Balanced limit base r) (hroom : r.depth < limit)
    (htaken : next.taken = r.taken + 1) : Balanced limit base (next.atDepth (r.depth + 1)) := by
  obtain ⟨hdepth, hlimit⟩ := h
  constructor <;> simp only [depth_atDepth, taken_atDepth] <;> omega

/-- No more levels are given back than have been taken, neither for the switches of a chain nor for
the group around it. -/
theorem Balanced.chain_le (h : Balanced limit base r) :
    r.chain.switches ≤ r.depth ∧ (r.frames ≠ [] → 1 ≤ r.chainDepth) := by
  obtain ⟨phase, chain, frames, depth⟩ := r
  have hdepth : depth = base + taken ⟨phase, chain, frames, depth⟩ := h.depth_eq
  show chain.switches ≤ depth ∧ (frames ≠ [] → 1 ≤ depth - chain.switches)
  rw [taken_eq] at hdepth
  cases frames with
  | nil => exact ⟨by omega, fun hne => absurd rfl hne⟩
  | cons frame frames =>
    rw [List.map_cons, List.sum_cons] at hdepth
    exact ⟨by omega, fun _ => by omega⟩

theorem Balanced.advance (h : Balanced limit base r)
    (hadvance : r.advance limit position tokens = .ok next) : Balanced limit base next := by
  induction tokens generalizing r position with
  | nil =>
    obtain rfl := Except.ok.inj hadvance
    exact h
  | cons token tokens ih =>
    have hread : ∀ failure, r.step limit position token ≠ .error failure := by
      intro failure hstep
      rw [advance_cons_error hstep] at hadvance
      exact absurd hadvance (by simp)
    cases reaction r token with
    | passes next' levels hstep htaken =>
      rw [advance_cons (r := r) (hstep limit position r.depth)] at hadvance
      exact ih (h.passes htaken) hadvance
    | deepens next' hstep htaken _ =>
      have hdeeper := hstep limit position r.depth
      by_cases hroom : limit ≤ r.depth
      · rw [if_pos hroom] at hdeeper
        exact absurd hdeeper (hread _)
      · rw [if_neg hroom] at hdeeper
        rw [advance_cons (r := r) hdeeper] at hadvance
        exact ih (h.deepens (Nat.not_le.mp hroom) htaken) hadvance
    | fails e levels hstep _ => exact absurd (hstep limit position r.depth) (hread _)

variable {outcome : Except Failure (Filter × Nat)}

/-- With a filter, all levels have been given back. -/
theorem RunsTo.depth_of_ok (h : RunsTo limit position r tokens outcome)
    (hbalanced : Balanced limit base r) {f : Filter} {depth : Nat}
    (hok : outcome = .ok (f, depth)) : depth = base := by
  induction h with
  | complete _ =>
    have hdepth := hbalanced.depth_eq
    simp only [Except.ok.injEq, Prod.mk.injEq] at hok
    omega
  | passes htaken _ ih => exact ih (hbalanced.passes htaken) hok
  | deepens hroom htaken _ _ ih => exact ih (hbalanced.deepens hroom htaken) hok
  | _ => exact absurd hok (by simp)

theorem Refusal.depth {e : ParseError} {levels : Nat} (h : r.Refusal e levels)
    (hbalanced : Balanced limit base r) :
    base ≤ r.depth - levels ∧ r.depth - levels ≤ limit ∧
      ∀ token place, e = .unexpectedToken token place → r.depth - levels = base := by
  have hdepth := hbalanced.depth_eq
  have hlimit := hbalanced.depth_le
  have hlevels := h.levels_le
  refine ⟨by omega, by omega, fun token place heq => ?_⟩
  have hall := (h.of_unexpectedToken token place heq).2
  omega

/-- With an error, some of the levels can stay taken, but not behind a complete filter. -/
theorem RunsTo.depth_of_error (h : RunsTo limit position r tokens outcome)
    (hbalanced : Balanced limit base r) {failure : Failure} (herror : outcome = .error failure) :
    base ≤ failure.depth ∧ failure.depth ≤ limit ∧
      ∀ token place, failure.error = .unexpectedToken token place → failure.depth = base := by
  induction h with
  | complete _ => exact absurd herror (by simp)
  | missing hrefusal _ =>
    obtain rfl := Except.error.inj herror
    exact (hrefusal.atPlace _).depth hbalanced
  | passes htaken _ ih => exact ih (hbalanced.passes htaken) herror
  | deepens hroom htaken _ _ ih => exact ih (hbalanced.deepens hroom htaken) herror
  | tooDeep _ =>
    obtain rfl := Except.error.inj herror
    refine ⟨?_, hbalanced.depth_le, by simp⟩
    rw [hbalanced.depth_eq]
    exact Nat.le_add_right ..
  | fails hrefusal =>
    obtain rfl := Except.error.inj herror
    exact (hrefusal.atPlace _).depth hbalanced

end Balance

/-! ### Reading at another depth and place -/

/-- The outcome for tokens that are a part of others, counted in those. -/
def moveOutcome (offset limit levels : Nat) :
    Except Failure (Filter × Nat) → Except Failure (Filter × Nat)
  | .ok (f, depth) => .ok (f, depth + levels)
  | .error failure => .error ⟨failure.error.moved offset limit, failure.depth + levels⟩

/-- With more levels that are taken at the beginning, and a limit that is as much greater, a reading
goes through the same states. -/
theorem run_moved (limit levels offset : Nat) {position : Nat} {r : Reading}
    (htaken : r.taken ≤ r.depth) (hlookback : r.lookback ≤ position) (tokens : List Token) :
    (r.atDepth (r.depth + levels)).run (limit + levels) (position + offset) tokens =
      moveOutcome offset (limit + levels) levels (r.run limit position tokens) := by
  induction tokens generalizing r position with
  | nil =>
    have hrun : r.run limit position [] = (r.atDepth r.depth).finish position := rfl
    rw [hrun, run]
    cases ending r with
    | complete f hfinish =>
      rw [hfinish, hfinish, moveOutcome, Nat.sub_add_comm htaken]
    | fails e given hfinish hrefusal _ =>
      have hgiven := hrefusal.levels_le
      rw [hfinish, hfinish, moveOutcome, ParseError.moved_atPlace hrefusal.not_isTooDeep,
        Nat.sub_add_comm (by omega)]
  | cons token tokens ih =>
    cases reaction r token with
    | passes next given hstep hnext =>
      have hlater := next.lookback_le_one
      have hdepth : r.depth + levels - given = r.depth - given + levels := by omega
      rw [run_cons (hstep (limit + levels) (position + offset) (r.depth + levels)),
        run_cons (r := r) (hstep limit position r.depth), hdepth, Nat.add_right_comm]
      refine ih (r := next.atDepth (r.depth - given)) ?_ ?_
      · rw [taken_atDepth, depth_atDepth]
        omega
      · rw [lookback_atDepth]
        omega
    | deepens next hstep hnext hlater =>
      have hmoved := hstep (limit + levels) (position + offset) (r.depth + levels)
      have hself := hstep limit position r.depth
      by_cases hroom : limit ≤ r.depth
      · rw [if_pos (by omega)] at hmoved
        rw [if_pos hroom] at hself
        rw [run_cons_error hmoved, run_cons_error (r := r) hself, moveOutcome, ParseError.moved,
          Nat.sub_add_comm hlookback]
      · rw [if_neg (by omega)] at hmoved
        rw [if_neg hroom] at hself
        rw [run_cons hmoved, run_cons (r := r) hself, Nat.add_right_comm r.depth,
          Nat.add_right_comm position]
        refine ih (r := next.atDepth (r.depth + 1)) ?_ ?_
        · rw [taken_atDepth, depth_atDepth]
          omega
        · rw [lookback_atDepth]
          omega
    | fails e given hstep hrefusal =>
      have hgiven := hrefusal.levels_le
      rw [run_cons_error (hstep (limit + levels) (position + offset) (r.depth + levels)),
        run_cons_error (r := r) (hstep limit position r.depth), moveOutcome,
        ParseError.moved_atPlace hrefusal.not_isTooDeep, Nat.sub_add_comm (by omega)]

end Reading

namespace Parser

/-! ### Calls of a parser -/

/-- A parser that has been asked for a filter so many times. -/
def calls (p : Parser) : Nat → Parser
  | 0 => p
  | count + 1 => (p.calls count).parse.2

/-- What holds of a parser of some tokens when it is asked for a filter. -/
structure Resumable (tokens : List Token) (limit : Nat) (p : Parser) : Prop where
  tokens_eq : p.tokens = tokens
  limit_eq : p.limit = limit
  position_le : p.position ≤ p.parse.2.position
  position_le_length : p.parse.2.position ≤ tokens.length
  depth_le : p.depth ≤ p.parse.2.depth
  depth_le_limit : p.parse.2.depth ≤ limit
  /-- A filter leaves the depth as it was. -/
  depth_of_ok : ∀ f, p.parse.1 = .ok f → p.parse.2.depth = p.depth
  /-- So does a token behind a filter. -/
  depth_of_unexpectedToken : ∀ token place,
    p.parse.1 = .error (.unexpectedToken token place) → p.parse.2.depth = p.depth
  /-- Whatever has been read, the levels that are given back next have been taken. -/
  levels_le : ∀ front back r, tokens.drop p.position = front ++ back →
    (Reading.start p.depth).advance limit p.position front = .ok r →
    r.chain.switches ≤ r.depth ∧ (r.frames ≠ [] → 1 ≤ r.chainDepth)
  /-- The answer is that of a new parser of the tokens that are left, with the levels that are left,
  but for the places and the limit in errors. -/
  parse_eq : p.parse.1 = (Filter.ofTokens (tokens.drop p.position) (limit - p.depth)).mapError
    (ParseError.moved p.position limit)

theorem tokens_parse (p : Parser) : p.parse.2.tokens = p.tokens := by
  simp only [parse]
  split <;> rfl

theorem limit_parse (p : Parser) : p.parse.2.limit = p.limit := by
  simp only [parse]
  split <;> rfl

section Call

variable {tokens : List Token} {limit position depth : Nat}

/-- The run behind a call, by that of a new parser for the rest of the tokens. -/
theorem run_eq_moveOutcome (tokens : List Token) (position : Nat) (hdepth : depth ≤ limit) :
    (Reading.start depth).run limit position (tokens.drop position) =
      Reading.moveOutcome position limit depth
        ((Reading.start 0).run (limit - depth) 0 (tokens.drop position)) := by
  have hmoved := Reading.run_moved (limit - depth) depth position (r := Reading.start 0)
    (Nat.le_refl 0) (Nat.le_refl 0) (tokens.drop position)
  rw [Nat.sub_add_cancel hdepth, Nat.zero_add] at hmoved
  rw [← hmoved]
  show _ = ((Reading.start 0).atDepth (0 + depth)).run _ _ _
  rw [Nat.zero_add]
  rfl

theorem levels_le_of_advance (hdepth : depth ≤ limit) (front back : List Token) (r : Reading)
    (_ : tokens.drop position = front ++ back)
    (hadvance : (Reading.start depth).advance limit position front = .ok r) :
    r.chain.switches ≤ r.depth ∧ (r.frames ≠ [] → 1 ≤ r.chainDepth) :=
  ((Reading.balanced_start hdepth).advance hadvance).chain_le

/-- A call that gives a filter. -/
theorem resumable_of_ok (hposition : position ≤ tokens.length) (hdepth : depth ≤ limit)
    {f : Filter} {level : Nat}
    (hrun : (Reading.start 0).run (limit - depth) 0 (tokens.drop position) = .ok (f, level)) :
    Resumable tokens limit ⟨tokens, limit, position, depth⟩ := by
  have hmoved := run_eq_moveOutcome tokens position hdepth
  rw [hrun, Reading.moveOutcome] at hmoved
  have hparse := parse_of_run_ok (p := ⟨tokens, limit, position, depth⟩) hmoved
  have hlevel : level + depth = depth :=
    (Reading.runsTo_run ..).depth_of_ok (Reading.balanced_start hdepth) hmoved
  rw [hlevel] at hparse
  exact
    { tokens_eq := rfl
      limit_eq := rfl
      position_le := by rw [hparse]; exact hposition
      position_le_length := Nat.le_of_eq (by rw [hparse])
      depth_le := Nat.le_of_eq (by rw [hparse])
      depth_le_limit := by rw [hparse]; exact hdepth
      depth_of_ok := fun _ _ => by rw [hparse]
      depth_of_unexpectedToken := fun _ _ _ => by rw [hparse]
      levels_le := levels_le_of_advance hdepth
      parse_eq := by rw [hparse, Filter.ofTokens_of_run_ok hrun]; rfl }

/-- A call that gives an error. -/
theorem resumable_of_error (hposition : position ≤ tokens.length) (hdepth : depth ≤ limit)
    {failure : Failure}
    (hrun : (Reading.start 0).run (limit - depth) 0 (tokens.drop position) = .error failure) :
    Resumable tokens limit ⟨tokens, limit, position, depth⟩ := by
  have hmoved := run_eq_moveOutcome tokens position hdepth
  rw [hrun, Reading.moveOutcome] at hmoved
  generalize hfailure : (⟨failure.error.moved position limit, failure.depth + depth⟩ : Failure) =
    failure' at hmoved
  have hparse := parse_of_run_error (p := ⟨tokens, limit, position, depth⟩) hmoved
  have hruns := Reading.runsTo_run limit position (Reading.start depth) (tokens.drop position)
  obtain ⟨hlow, hhigh, hunexpected⟩ := hruns.depth_of_error (Reading.balanced_start hdepth) hmoved
  have hfirst : position ≤ failure'.error.position := hruns.le_position hmoved
  have hlast := hruns.resumeAt_le hmoved
  rw [List.length_drop] at hlast
  exact
    { tokens_eq := rfl
      limit_eq := rfl
      position_le := by
        rw [hparse]
        exact Nat.le_trans hfirst (ParseError.position_le_resumeAt _)
      position_le_length := by
        rw [hparse]
        show failure'.error.resumeAt ≤ tokens.length
        omega
      depth_le := by rw [hparse]; exact hlow
      depth_le_limit := by rw [hparse]; exact hhigh
      depth_of_ok := fun _ hok => by simp [hparse] at hok
      depth_of_unexpectedToken := fun token place herror => by
        rw [hparse] at herror ⊢
        exact hunexpected token place (Except.error.inj herror)
      levels_le := levels_le_of_advance hdepth
      parse_eq := by
        rw [hparse, Filter.ofTokens_eq_error_iff.mpr ⟨failure.depth, hrun⟩, ← hfailure]
        rfl }

theorem resumable (hposition : position ≤ tokens.length) (hdepth : depth ≤ limit) :
    Resumable tokens limit ⟨tokens, limit, position, depth⟩ := by
  cases hrun : (Reading.start 0).run (limit - depth) 0 (tokens.drop position) with
  | ok outcome => exact resumable_of_ok hposition hdepth hrun
  | error failure => exact resumable_of_error hposition hdepth hrun

end Call

/-- Whenever a parser is asked for a filter, it answers as a new parser does for what is left,
neither its place nor its depth goes back, and both stay within the tokens and the limit. -/
theorem resumable_calls (tokens : List Token) (limit count : Nat) :
    Resumable tokens limit ((start tokens limit).calls count) := by
  induction count with
  | zero => exact resumable (Nat.zero_le _) (Nat.zero_le _)
  | succ count ih =>
    rw [calls]
    generalize (start tokens limit).calls count = p at ih
    have hnext : p.parse.2 = ⟨tokens, limit, p.parse.2.position, p.parse.2.depth⟩ := by
      rw [← ih.tokens_eq, ← ih.limit_eq, ← tokens_parse p, ← limit_parse p]
    rw [hnext]
    exact resumable ih.position_le_length ih.depth_le_limit

end Parser

end ScimQuery
