import ScimQuery.Filter.Parser
import ScimQuery.Proofs.Grammar

/-!
# Parsing and the grammar

The parser accepts exactly what the grammar derives within the limit, and reads it as the filter
that the grammar says (`ofTokens_eq_ok_iff`). Hence no sequence of tokens stands for two filters.

One direction follows a derivation: from every state in which a term may begin, the tokens of a term
lead to the state behind that term, and those of a chain to the state behind its last term, if there
is room for them (`leadsBehind`). Without that room they are refused (`refuses`).

The other direction follows the tokens. `Reads` relates the tokens that have been read to the state
after them: every open group and every chain in it is the beginning of a derivation which stays
within the limit. Each step keeps it (`Reads.step`).
-/

namespace ScimQuery

open Grammar

/-- The tokens that open a group. -/
def Group.tokens : Group → List Token
  | .parentheses => [.opening .round]
  | .array path => [.word path, .opening .square]

/-- A chain between the brackets of a group is a term. -/
theorem Grammar.IsChain.enclosed {tokens : List Token} {cs : List Connective} {f : Filter}
    {need : Nat} (h : IsChain tokens cs f need) (group : Group) :
    IsTerm (group.tokens ++ (tokens ++ [.closing group.bracket])) (group.term f) (need + 1) := by
  cases group with
  | parentheses => exact .group h
  | array path => exact .array h

namespace Reading

/-! ### What the grammar derives is read -/

section Runs

variable {limit : Nat}

theorem run_cons {position : Nat} {token : Token} {tokens : List Token} {r r' : Reading}
    (h : r.step limit position token = .ok r') :
    r.run limit position (token :: tokens) = r'.run limit (position + 1) tokens := by
  rw [run, h]

/-- A connective of a chain takes the reading to the next term, if its switches fit. -/
theorem run_connective {position depth : Nat} {rest : List Token} {word : String} {c : Connective}
    {term : Filter} {chain : Chain} {frames : List Frame} (hword : Text.lower word = c.keyword)
    (hdepth : chain.switchesTo c → depth < limit) :
    run limit position ⟨.joint term, chain, frames, depth⟩ (.word word :: rest) =
      run limit (position + 1)
        ⟨.term, ⟨some (chain.join term, c), chain.switches + if chain.switchesTo c then 1 else 0⟩,
          frames, depth + if chain.switchesTo c then 1 else 0⟩ rest := by
  apply run_cons
  have hc : Connective.ofWord? word = some c := Connective.ofWord?_eq_some_iff.mpr hword
  simp only [step, connective?, hc, connect]
  by_cases hs : chain.switchesTo c
  · have hroom : ¬ limit ≤ depth := by
      have := hdepth hs
      omega
    simp [hs, deepen, hroom, Except.map]
  · simp [hs]

/-- The tokens of a condition take the reading behind it. -/
theorem run_condition {position depth : Nat} {rest tokens : List Token} {test : Condition}
    {chain : Chain} {frames : List Frame} (h : IsCondition tokens test) :
    run limit position ⟨.term, chain, frames, depth⟩ (tokens ++ rest) =
      run limit (position + tokens.length) ⟨.joint (.condition test), chain, frames, depth⟩
        rest := by
  cases h with
  | present hword =>
    have hc := Comparator.ofWord?_eq_some_iff.mpr hword
    rw [List.cons_append, run_cons (by rfl), List.cons_append]
    exact run_cons (by simp [step, hc, Comparator.takesOperand])
  | comparison hword hpresent hoperand =>
    have hc := Comparator.ofWord?_eq_some_iff.mpr hword
    rw [List.cons_append, run_cons (by rfl), List.cons_append,
      run_cons (by simp [step, hc, hpresent]; rfl), List.cons_append]
    cases hoperand with
    | quoted content => exact run_cons (by rfl)
    | word word => exact run_cons (by rfl)

/-- The tokens that open a group take the reading to the start of its chain, if they fit. -/
theorem run_opening {position depth : Nat} {chain : Chain} {frames : List Frame} (group : Group)
    (hroom : depth < limit) (rest : List Token) :
    run limit position ⟨.term, chain, frames, depth⟩ (group.tokens ++ rest) =
      run limit (position + group.tokens.length)
        ⟨.term, .empty, ⟨group, chain⟩ :: frames, depth + 1⟩ rest := by
  have hdeepen : ∀ (phase : Phase) (position : Nat),
      deepen limit position ⟨phase, chain, frames, depth⟩ =
        .ok ⟨phase, chain, frames, depth + 1⟩ := by
    intro phase position
    rw [deepen, if_neg (Nat.not_le.mpr hroom)]
  cases group with
  | parentheses => exact run_cons (congrArg (Except.map (enter .parentheses)) (hdeepen ..))
  | array path =>
    rw [Group.tokens, List.cons_append, run_cons (by rfl)]
    exact run_cons (congrArg (Except.map (enter (.array path))) (hdeepen ..))

/-- From every state in which a term may begin and that has room for it, the tokens lead to the
state behind the term. -/
def LeadsBehindTerm (limit : Nat) (tokens : List Token) (f : Filter) (need : Nat) : Prop :=
  ∀ (chain : Chain) (frames : List Frame) (depth position : Nat) (rest : List Token),
    depth + need ≤ limit →
    run limit position ⟨.term, chain, frames, depth⟩ (tokens ++ rest) =
      run limit (position + tokens.length) ⟨.joint f, chain, frames, depth⟩ rest

/-- From every state in which a chain may begin and that has room for it, the tokens lead to the
state behind the last term of the chain. -/
def LeadsBehindChain (limit : Nat) (tokens : List Token) (cs : List Connective) (f : Filter)
    (need : Nat) : Prop :=
  ∀ (frames : List Frame) (depth position : Nat) (rest : List Token), depth + need ≤ limit →
    ∃ chain term,
      run limit position ⟨.term, .empty, frames, depth⟩ (tokens ++ rest) =
        run limit (position + tokens.length) ⟨.joint term, chain, frames, depth + switches cs⟩
          rest ∧
      chain.join term = f ∧ chain.switches = switches cs ∧
      ∀ c, chain.switchesTo c = cs.getLast?.any (· != c)

/-- A chain in brackets leads behind its group. -/
theorem LeadsBehindChain.enclosed {tokens : List Token} {cs : List Connective} {f : Filter}
    {need : Nat} (h : LeadsBehindChain limit tokens cs f need) (group : Group) :
    LeadsBehindTerm limit (group.tokens ++ (tokens ++ [.closing group.bracket])) (group.term f)
      (need + 1) := by
  intro chain frames depth position rest hdepth
  obtain ⟨inner, term, hrun, hjoin, hswitches, -⟩ := h (⟨group, chain⟩ :: frames) (depth + 1)
    (position + group.tokens.length) (.closing group.bracket :: rest) (by omega)
  -- closing gives back the level of the group and those of the switches in its chain
  have hclose : step limit (position + group.tokens.length + tokens.length)
      ⟨.joint term, inner, ⟨group, chain⟩ :: frames, depth + 1 + switches cs⟩
      (.closing group.bracket) = .ok ⟨.joint (group.term f), chain, frames, depth⟩ := by
    simp [step, connective?, close, chainDepth, hjoin, hswitches]
  rw [List.append_assoc, List.append_assoc, List.singleton_append, run_opening group (by omega),
    hrun, run_cons hclose]
  simp only [List.length_append, List.length_singleton, Nat.add_assoc]

/-- What the grammar derives is read wherever there is room for its need. -/
theorem leadsBehind (limit : Nat) :
    (∀ {tokens : List Token} {f : Filter} {need : Nat}, IsTerm tokens f need →
      LeadsBehindTerm limit tokens f need) ∧
    ∀ {tokens : List Token} {cs : List Connective} {f : Filter} {need : Nat},
      IsChain tokens cs f need → LeadsBehindChain limit tokens cs f need := by
  refine derivation_induction ?condition ?group ?array ?term ?link
  case condition =>
    intro tokens test htest chain frames depth position rest _
    exact run_condition htest
  case group =>
    intro tokens cs f need ih
    exact ih.enclosed .parentheses
  case array =>
    intro path tokens cs f need ih
    exact ih.enclosed (.array path)
  case term =>
    intro tokens f need ih frames depth position rest hdepth
    exact ⟨.empty, f, ih .empty frames depth position rest hdepth, rfl, rfl, fun c => rfl⟩
  case link =>
    intro left right cs f g m n word c ihl hword ihr frames depth position rest hdepth
    obtain ⟨chain, term, hrun, hjoin, hswitches, hlast⟩ :=
      ihl frames depth position (.word word :: (right ++ rest)) (by omega)
    -- the reading takes a level for the connective where `switches` counts one
    have hconcat := switches_concat cs c
    rw [← hlast] at hconcat
    have hroom : chain.switchesTo c → depth + switches cs < limit := by
      intro hs
      rw [if_pos hs] at hconcat
      omega
    refine ⟨⟨some (f, c), switches (cs ++ [c])⟩, g, ?_, rfl, rfl, fun d => ?_⟩
    · rw [List.append_assoc, List.cons_append, hrun, run_connective hword hroom, hjoin, hswitches,
        Nat.add_assoc depth, ← hconcat, ihr _ _ _ _ _ (by omega)]
      simp only [List.length_append, List.length_cons]
      congr 1
      omega
    · simp [Chain.switchesTo]

/-! ### What needs too much is refused -/

theorem run_cons_error {position : Nat} {token : Token} {tokens : List Token} {r : Reading}
    {failure : Failure} (h : r.step limit position token = .error failure) :
    r.run limit position (token :: tokens) = .error failure := by
  rw [run, h]

/-- The outcome of a reading that has gone too deep. -/
def TooDeep (limit : Nat) (outcome : Except Failure (Filter × Nat)) : Prop :=
  ∃ place level, outcome = .error ⟨.nestingTooDeep limit place, level⟩

/-- No state in which a term may begin and that has too little room for it leads behind the
tokens. -/
def RefusesTerm (limit : Nat) (tokens : List Token) (need : Nat) : Prop :=
  ∀ (chain : Chain) (frames : List Frame) (depth position : Nat) (rest : List Token),
    depth ≤ limit → limit < depth + need →
    TooDeep limit (run limit position ⟨.term, chain, frames, depth⟩ (tokens ++ rest))

/-- No state in which a chain may begin and that has too little room for it leads behind the
tokens. -/
def RefusesChain (limit : Nat) (tokens : List Token) (need : Nat) : Prop :=
  ∀ (frames : List Frame) (depth position : Nat) (rest : List Token),
    depth ≤ limit → limit < depth + need →
    TooDeep limit (run limit position ⟨.term, .empty, frames, depth⟩ (tokens ++ rest))

theorem deepen_eq_error {position : Nat} {r : Reading} (h : limit ≤ r.depth) :
    r.deepen limit position = .error ⟨.nestingTooDeep limit position, r.depth⟩ := by
  simp [deepen, h]

/-- The tokens of a group are refused where it has too little room, which may show at its opening
bracket or in its chain. -/
theorem RefusesChain.enclosed {tokens : List Token} {need : Nat}
    (h : RefusesChain limit tokens need) (group : Group) :
    RefusesTerm limit (group.tokens ++ (tokens ++ [.closing group.bracket])) (need + 1) := by
  intro chain frames depth position rest hdepth hneed
  rw [List.append_assoc, List.append_assoc]
  by_cases hroom : limit ≤ depth
  · have hdeepen : ∀ (phase : Phase) (position : Nat),
        deepen limit position ⟨phase, chain, frames, depth⟩ =
          .error ⟨.nestingTooDeep limit position, depth⟩ := fun _ _ => deepen_eq_error hroom
    cases group with
    | parentheses =>
      have hstep := congrArg (Except.map (enter .parentheses)) (hdeepen .term position)
      exact ⟨position, depth, run_cons_error hstep⟩
    | array path =>
      have hstep := congrArg (Except.map (enter (.array path)))
        (hdeepen (.comparator path) position)
      rw [Group.tokens, List.cons_append, run_cons (by rfl)]
      exact ⟨position, depth, run_cons_error hstep⟩
  · rw [run_opening group (by omega)]
    exact h _ _ _ _ (by omega) (by omega)

/-- What the grammar derives is refused wherever there is no room for its need. -/
theorem refuses (limit : Nat) :
    (∀ {tokens : List Token} {f : Filter} {need : Nat}, IsTerm tokens f need →
      RefusesTerm limit tokens need) ∧
    ∀ {tokens : List Token} {cs : List Connective} {f : Filter} {need : Nat},
      IsChain tokens cs f need → RefusesChain limit tokens need := by
  -- the derivation is kept, since a chain is refused behind a left part that fits
  have hboth := derivation_induction
    (P := fun tokens f need => IsTerm tokens f need ∧ RefusesTerm limit tokens need)
    (Q := fun tokens cs f need => IsChain tokens cs f need ∧ RefusesChain limit tokens need)
    ?condition ?group ?array ?term ?link
  · exact ⟨fun h => (hboth.1 h).2, fun h => (hboth.2 h).2⟩
  case condition =>
    intro tokens test htest
    refine ⟨.condition htest, fun chain frames depth position rest hdepth hneed => ?_⟩
    omega
  case group =>
    rintro tokens cs f need ⟨hinner, ih⟩
    exact ⟨.group hinner, ih.enclosed .parentheses⟩
  case array =>
    rintro path tokens cs f need ⟨hinner, ih⟩
    exact ⟨.array hinner, ih.enclosed (.array path)⟩
  case term =>
    rintro tokens f need ⟨hterm, ih⟩
    exact ⟨.term hterm, ih .empty⟩
  case link =>
    rintro left right cs f g m n word c ⟨hleft, ihl⟩ hword ⟨hright, ihr⟩
    refine ⟨.link hleft hword hright, fun frames depth position rest hdepth hneed => ?_⟩
    rw [List.append_assoc, List.cons_append]
    -- what does not fit is the left part, the switch of the connective or the term behind it
    by_cases hm : limit < depth + m
    · exact ihl frames depth position _ hdepth hm
    · obtain ⟨chain, term, hrun, -, -, hlast⟩ :=
        (leadsBehind limit).2 hleft frames depth position (.word word :: (right ++ rest)) (by omega)
      have hswitches := hleft.switches_le
      have hconcat := switches_concat cs c
      rw [← hlast] at hconcat
      rw [hrun]
      by_cases hroom : chain.switchesTo c → depth + switches cs < limit
      · rw [run_connective hword hroom]
        refine ihr _ _ _ _ _ ?_ ?_
        · by_cases hs : chain.switchesTo c
          · have := hroom hs
            rw [if_pos hs]
            omega
          · rw [if_neg hs]
            omega
        · omega
      · rw [Classical.not_imp] at hroom
        have hc : Connective.ofWord? word = some c := Connective.ofWord?_eq_some_iff.mpr hword
        refine ⟨position + left.length, depth + switches cs, run_cons_error ?_⟩
        simp only [step, connective?, hc, connect, hroom.1, if_true]
        rw [deepen_eq_error (by simpa using hroom.2)]
        rfl

end Runs

/-! ### What is read is derived by the grammar -/

/-- `tokens` are the part of a chain before the term that is being read. -/
inductive ReadsChain : List Token → Chain → Nat → Prop
  | empty : ReadsChain [] .empty 0
  | connective {tokens : List Token} {cs : List Connective} {f : Filter} {need : Nat}
      {word : String} {c : Connective} (hchain : IsChain tokens cs f need)
      (hword : Text.lower word = c.keyword) :
      ReadsChain (tokens ++ [.word word]) ⟨some (f, c), switches (cs ++ [c])⟩ need

/-- `tokens` are the part of a term that has been read, where the term has `room` levels left. -/
inductive ReadsPhase (room : Nat) : List Token → Phase → Prop
  | term : ReadsPhase room [] .term
  | comparator (path : String) : ReadsPhase room [.word path] (.comparator path)
  | operand {path word : String} {c : Comparator} (hword : Text.lower word = c.keyword)
      (hc : c ≠ .present) : ReadsPhase room [.word path, .word word] (.operand path c)
  | joint {tokens : List Token} {f : Filter} {need : Nat} (hterm : IsTerm tokens f need)
      (hroom : need ≤ room) : ReadsPhase room tokens (.joint f)

/-- `tokens` open the groups of some frames, with the chains before each of them. The innermost
chain begins at the depth `base`. -/
inductive ReadsFrames (limit start : Nat) : List Token → List Frame → Nat → Prop
  | nil : ReadsFrames limit start [] [] start
  | cons {before tokens : List Token} {group : Group} {outer : Chain} {frames : List Frame}
      {base need : Nat} (hframes : ReadsFrames limit start before frames base)
      (hchain : ReadsChain tokens outer need) (hneed : base + need ≤ limit)
      (hroom : base + outer.switches < limit) :
      ReadsFrames limit start (before ++ tokens ++ group.tokens) (⟨group, outer⟩ :: frames)
        (base + outer.switches + 1)

/-- `past` are the tokens that lead from the depth `start` to a state. -/
inductive Reads (limit start : Nat) (past : List Token) (r : Reading) : Prop
  | intro {before tokens current : List Token} {base need : Nat}
      (hpast : past = before ++ tokens ++ current)
      (hframes : ReadsFrames limit start before r.frames base)
      (hchain : ReadsChain tokens r.chain need) (hneed : base + need ≤ limit)
      (hdepth : r.depth = base + r.chain.switches) (hlimit : r.depth ≤ limit)
      (hphase : ReadsPhase (limit - r.depth) current r.phase)

theorem reads_start {limit start : Nat} (h : start ≤ limit) :
    Reads limit start [] (Reading.start start) :=
  .intro rfl .nil .empty h rfl h .term

/-- A chain and the term behind it are a chain. -/
theorem ReadsChain.join {tokens current : List Token} {chain : Chain} {f : Filter} {m n : Nat}
    (hchain : ReadsChain tokens chain m) (hterm : IsTerm current f n) :
    ∃ cs, IsChain (tokens ++ current) cs (chain.join f) (max m (chain.switches + n)) ∧
      ∀ c, switches (cs ++ [c]) = chain.switches + if chain.switchesTo c then 1 else 0 := by
  cases hchain with
  | empty =>
    -- the term is the whole chain
    refine ⟨[], ?_, fun c => rfl⟩
    have hneed : max 0 (Chain.empty.switches + n) = n := by simp [Chain.empty]
    rw [hneed]
    exact .term hterm
  | @connective tokens cs g m word c hchain hword =>
    refine ⟨cs ++ [c], ?_, fun d => ?_⟩
    · rw [List.append_assoc]
      exact .link hchain hword hterm
    · rw [switches_concat (cs ++ [c]) d]
      simp [Chain.switchesTo]

section Steps

variable {limit start position : Nat} {past : List Token} {r r' : Reading}

theorem deepen_eq_ok (h : r.deepen limit position = .ok r') :
    r.depth < limit ∧ r' = { r with depth := r.depth + 1 } := by
  unfold deepen at h
  by_cases hroom : limit ≤ r.depth
  · simp [hroom] at h
  · rw [if_neg hroom, Except.ok.injEq] at h
    exact ⟨by omega, h.symm⟩

/-- Opening a group where a term begins. -/
theorem Reads.enter {before tokens : List Token} {base need : Nat} (group : Group)
    (hframes : ReadsFrames limit start before r.frames base)
    (hchain : ReadsChain tokens r.chain need) (hneed : base + need ≤ limit)
    (hdepth : r.depth = base + r.chain.switches)
    (h : (r.deepen limit position).map (Reading.enter group) = .ok r') :
    Reads limit start (before ++ tokens ++ group.tokens) r' := by
  cases hd : r.deepen limit position with
  | error failure => simp [hd, Except.map] at h
  | ok deeper =>
    obtain ⟨hroom, rfl⟩ := deepen_eq_ok hd
    simp only [hd, Except.map, Except.ok.injEq] at h
    subst h
    have hgroup : ReadsFrames limit start (before ++ tokens ++ group.tokens)
        (⟨group, r.chain⟩ :: r.frames) (base + r.chain.switches + 1) :=
      .cons hframes hchain hneed (by omega)
    exact .intro (by simp) hgroup .empty (by omega) (by simp [Reading.enter, Chain.empty, hdepth])
      hroom .term

/-- Reading a connective behind a term. -/
theorem Reads.connect {before tokens current : List Token} {base m n : Nat} {word : String}
    {c : Connective} {term : Filter} (hframes : ReadsFrames limit start before r.frames base)
    (hchain : ReadsChain tokens r.chain m) (hneed : base + m ≤ limit)
    (hdepth : r.depth = base + r.chain.switches) (hlimit : r.depth ≤ limit)
    (hterm : IsTerm current term n) (hroom : n ≤ limit - r.depth)
    (hword : Text.lower word = c.keyword) (h : r.connect limit position c term = .ok r') :
    Reads limit start (before ++ tokens ++ current ++ [.word word]) r' := by
  obtain ⟨cs, hjoin, hswitches⟩ := hchain.join hterm
  have hpast : before ++ tokens ++ current ++ [.word word] =
      before ++ (tokens ++ current ++ [.word word]) ++ [] := by simp
  have hneed' : base + max m (r.chain.switches + n) ≤ limit := by omega
  have hchain' := ReadsChain.connective hjoin hword
  rw [hswitches] at hchain'
  unfold Reading.connect at h
  -- only a switch takes a level, and only then can the connective be refused
  by_cases hs : r.chain.switchesTo c
  · rw [if_pos hs] at h
    rw [if_pos hs] at hchain'
    cases hd : r.deepen limit position with
    | error failure => simp [hd, Except.map] at h
    | ok deeper =>
      obtain ⟨hlt, rfl⟩ := deepen_eq_ok hd
      simp only [hd, Except.map, Except.ok.injEq] at h
      subst h
      exact .intro hpast hframes hchain' hneed' (by simp only [hdepth, Nat.add_assoc]) hlt .term
  · rw [if_neg hs, Except.ok.injEq] at h
    rw [if_neg hs] at hchain'
    subst h
    exact .intro hpast hframes hchain' hneed' hdepth hlimit .term

/-- Closing the innermost group behind a term. -/
theorem Reads.close {before tokens current : List Token} {base m n : Nat} {token : Token}
    {term : Filter} (hframes : ReadsFrames limit start before r.frames base)
    (hchain : ReadsChain tokens r.chain m) (hneed : base + m ≤ limit)
    (hdepth : r.depth = base + r.chain.switches) (hterm : IsTerm current term n)
    (hroom : n ≤ limit - r.depth) (hlimit : r.depth ≤ limit)
    (h : r.close position token term = .ok r') :
    Reads limit start (before ++ tokens ++ current ++ [token]) r' := by
  obtain ⟨phase, chain, frames, depth⟩ := r
  obtain ⟨cs, hjoin, -⟩ := hchain.join hterm
  simp only at hdepth hroom hlimit
  cases hframes with
  | nil => simp [Reading.close] at h
  | @cons before outerTokens group outer frames base need hframes houter houterNeed houterRoom =>
    simp only [Reading.close] at h
    by_cases hclosing : token = .closing group.bracket
    · have hdepth' : chainDepth ⟨phase, chain, ⟨group, outer⟩ :: frames, depth⟩ - 1 =
          base + outer.switches := by
        simp only [chainDepth]
        omega
      rw [if_pos hclosing, Except.ok.injEq, hdepth'] at h
      subst h hclosing
      refine .intro ?_ hframes houter houterNeed rfl (Nat.le_of_lt houterRoom)
        (.joint (hjoin.enclosed group) ?_)
      · simp
      · show max m (chain.switches + n) + 1 ≤ limit - (base + outer.switches)
        omega
    · simp [if_neg hclosing] at h

/-- Each step keeps what is known of the tokens that have been read. -/
theorem Reads.step {token : Token} (hreads : Reads limit start past r)
    (h : r.step limit position token = .ok r') : Reads limit start (past ++ [token]) r' := by
  obtain @⟨before, tokens, current, base, need, hpast, hframes, hchain, hneed, hdepth, hlimit,
    hphase⟩ := hreads
  obtain ⟨phase, chain, frames, depth⟩ := r
  subst hpast
  cases hphase with
  | term =>
    unfold Reading.step at h
    cases token with
    | opening bracket =>
      cases bracket with
      | round =>
        have := Reads.enter .parentheses hframes hchain hneed hdepth h
        simpa [Group.tokens] using this
      | square => simp at h
    | word path =>
      simp only [Except.ok.injEq] at h
      subst h
      exact .intro (by simp) hframes hchain hneed hdepth hlimit (.comparator path)
    | _ => simp at h
  | comparator path =>
    unfold Reading.step at h
    cases token with
    | opening bracket =>
      cases bracket with
      | round => simp at h
      | square =>
        have := Reads.enter (.array path) hframes hchain hneed hdepth h
        simpa [Group.tokens] using this
    | word word =>
      simp only at h
      cases hc : Comparator.ofWord? word with
      | none => simp [hc] at h
      | some c =>
        have hword := Comparator.ofWord?_eq_some_iff.mp hc
        simp only [hc] at h
        by_cases hpresent : c = .present
        · subst hpresent
          simp only [Comparator.takesOperand, bne_self_eq_false, Bool.false_eq_true, if_false,
            Except.ok.injEq] at h
          subst h
          exact .intro (by simp) hframes hchain hneed hdepth hlimit
            (.joint (.condition (.present hword)) (Nat.zero_le _))
        · rw [if_pos (Comparator.takesOperand_iff.mpr hpresent), Except.ok.injEq] at h
          subst h
          exact .intro (by simp) hframes hchain hneed hdepth hlimit (.operand hword hpresent)
    | _ => simp at h
  | operand hword hc =>
    unfold Reading.step at h
    cases token with
    | word operand =>
      simp only [Except.ok.injEq] at h
      subst h
      exact .intro (by simp) hframes hchain hneed hdepth hlimit
        (.joint (.condition (.comparison hword hc (.word operand))) (Nat.zero_le _))
    | quoted content =>
      simp only [Except.ok.injEq] at h
      subst h
      exact .intro (by simp) hframes hchain hneed hdepth hlimit
        (.joint (.condition (.comparison hword hc (.quoted content))) (Nat.zero_le _))
    | _ => simp at h
  | joint hterm hroom =>
    unfold Reading.step at h
    simp only at h
    -- what is no connective has to close the innermost group
    cases hc : connective? token with
    | none =>
      simp only [hc] at h
      exact Reads.close hframes hchain hneed hdepth hterm hroom hlimit h
    | some c =>
      simp only [hc] at h
      cases token with
      | word word =>
        have hword := Connective.ofWord?_eq_some_iff.mp hc
        exact Reads.connect hframes hchain hneed hdepth hlimit hterm hroom hword h
      | _ => simp [connective?] at hc

/-- What has been read at the end is an expression, and the depth is what it was. -/
theorem Reads.finish {f : Filter} {depth : Nat} (hreads : Reads limit start past r)
    (h : r.finish position = .ok (f, depth)) :
    depth = start ∧ ∃ need, IsExpression past f need ∧ start + need ≤ limit := by
  obtain @⟨before, tokens, current, base, m, hpast, hframes, hchain, hneed, hdepth, hlimit,
    hphase⟩ := hreads
  obtain ⟨phase, chain, frames, depth⟩ := r
  simp only at hdepth hlimit
  cases hphase with
  | @joint current term n hterm hroom =>
    cases hframes with
    | nil =>
      -- no group is open, so that all of the past is one chain
      simp only [Reading.finish, chainDepth, Except.ok.injEq, Prod.mk.injEq] at h
      obtain ⟨rfl, rfl⟩ := h
      obtain ⟨cs, hjoin, -⟩ := hchain.join hterm
      refine ⟨by omega, max m (chain.switches + n), ⟨cs, hpast ▸ hjoin⟩, ?_⟩
      simp only at hroom
      omega
    | cons => simp [Reading.finish] at h
  | _ => simp [Reading.finish] at h

/-- A reading that succeeds has read an expression. -/
theorem Reads.run {tokens : List Token} {f : Filter} {depth : Nat}
    (hreads : Reads limit start past r) (h : r.run limit position tokens = .ok (f, depth)) :
    depth = start ∧ ∃ need, IsExpression (past ++ tokens) f need ∧ start + need ≤ limit := by
  induction tokens generalizing past r position with
  | nil =>
    rw [List.append_nil]
    exact hreads.finish h
  | cons token tokens ih =>
    rw [Reading.run] at h
    cases hstep : r.step limit position token with
    | error failure => simp [hstep] at h
    | ok r' =>
      rw [hstep] at h
      have := ih (hreads.step hstep) h
      rwa [List.append_assoc, List.singleton_append] at this

end Steps

/-- Reading tokens to their end at a depth within the limit gives a filter if and only if they are
an expression of it whose need fits into the levels that are left. -/
theorem run_eq_ok_iff {limit start position depth : Nat} {tokens : List Token} {f : Filter}
    (hstart : start ≤ limit) :
    (Reading.start start).run limit position tokens = .ok (f, depth) ↔
      depth = start ∧ ∃ need, IsExpression tokens f need ∧ start + need ≤ limit := by
  constructor
  · exact (reads_start hstart).run
  · rintro ⟨rfl, need, ⟨cs, hchain⟩, hneed⟩
    obtain ⟨chain, term, hrun, hjoin, hswitches, -⟩ :=
      (leadsBehind limit).2 hchain [] depth position [] hneed
    rw [List.append_nil] at hrun
    refine hrun.trans ?_
    simp [Reading.run, Reading.finish, hjoin, chainDepth, hswitches]

end Reading

namespace Filter

/-- A sequence of tokens is parsed as a filter if and only if it is an expression of that filter
whose need is within the limit. -/
theorem ofTokens_eq_ok_iff {tokens : List Token} {limit : Nat} {f : Filter} :
    ofTokens tokens limit = .ok f ↔ ∃ need, IsExpression tokens f need ∧ need ≤ limit := by
  have hrun : ∀ depth, (Reading.start 0).run limit 0 tokens = .ok (f, depth) ↔
      depth = 0 ∧ ∃ need, IsExpression tokens f need ∧ 0 + need ≤ limit :=
    fun depth => Reading.run_eq_ok_iff (Nat.zero_le limit)
  simp only [Nat.zero_add] at hrun
  unfold ofTokens Parser.parse Parser.start
  simp only [List.drop_zero]
  constructor
  · intro h
    split at h
    · rename_i f' depth hok
      rw [Except.ok.injEq] at h
      subst h
      exact ((hrun depth).mp hok).2
    · simp at h
  · intro h
    rw [(hrun 0).mpr ⟨rfl, h⟩]

theorem run_tooDeep {limit start position need : Nat} {tokens : List Token} {f : Filter}
    (h : IsExpression tokens f need) (hstart : start ≤ limit) (hneed : limit < start + need) :
    Reading.TooDeep limit ((Reading.start start).run limit position tokens) := by
  obtain ⟨cs, hchain⟩ := h
  have hrefuses := (Reading.refuses limit).2 hchain [] start position [] hstart hneed
  rwa [List.append_nil] at hrefuses

/-- What needs more than the limit is refused for its depth. -/
theorem ofTokens_tooDeep {tokens : List Token} {limit need : Nat} {f : Filter}
    (h : IsExpression tokens f need) (hneed : limit < need) :
    ∃ position, ofTokens tokens limit = .error (.nestingTooDeep limit position) := by
  have hrun : Reading.TooDeep limit ((Reading.start 0).run limit 0 tokens) :=
    run_tooDeep h (Nat.zero_le limit) (by omega)
  obtain ⟨position, level, herror⟩ := hrun
  refine ⟨position, ?_⟩
  unfold ofTokens Parser.parse Parser.start
  simp only [List.drop_zero, herror]

/-- All derivations of an expression need the same depth. -/
theorem need_unique {tokens : List Token} {f g : Filter} {m n : Nat} (hf : IsExpression tokens f m)
    (hg : IsExpression tokens g n) : m = n := by
  -- at the smaller one as the limit, the tokens would be both read and refused
  have hnot : ∀ {f g : Filter} {m n : Nat}, IsExpression tokens f m → IsExpression tokens g n →
      ¬ m < n := by
    intro f g m n hf hg hlt
    have hread : ofTokens tokens m = .ok f := ofTokens_eq_ok_iff.mpr ⟨m, hf, Nat.le_refl m⟩
    obtain ⟨position, hrefused⟩ := ofTokens_tooDeep hg hlt
    rw [hread] at hrefused
    exact absurd hrefused (by simp)
  have hm := hnot hf hg
  have hn := hnot hg hf
  omega

/-- The parser accepts exactly what the grammar derives within the limit, as the filter that the
grammar says, and the grammar derives at most one filter from a sequence of tokens. -/
theorem parser_accepts_grammar (tokens : List Token) :
    (∀ limit f, ofTokens tokens limit = .ok f ↔ ∃ need, IsExpression tokens f need ∧ need ≤ limit) ∧
      ∀ f g m n, IsExpression tokens f m → IsExpression tokens g n → f = g ∧ m = n := by
  refine ⟨fun limit f => ofTokens_eq_ok_iff, fun f g m n hf hg => ⟨?_, need_unique hf hg⟩⟩
  have hf' : ofTokens tokens (max m n) = .ok f :=
    ofTokens_eq_ok_iff.mpr ⟨m, hf, Nat.le_max_left m n⟩
  have hg' : ofTokens tokens (max m n) = .ok g :=
    ofTokens_eq_ok_iff.mpr ⟨n, hg, Nat.le_max_right m n⟩
  exact Except.ok.inj (hf'.symm.trans hg')

end Filter

end ScimQuery
