import StackCalc.Proofs.NormalForm
import StackCalc.Proofs.Transparency

/-!
Rounds come to an end early. In a program in which no operation lacks operands, the first round reaches the normal form,
and a second one finds nothing to do. Otherwise only merging applies: it has nothing left to do once the program is free
of `nop`, so that a second round reaches a program that no round changes, and a third one may be needed to notice that.
Optimizing an optimized program therefore changes nothing, and what is left of a program can be read off its operations.
-/

namespace StackCalc

variable {α : Type}

/-! ### Programs in which every operation finds what it should -/

/-- A program without `nop` in which no operation lacks operands, and the producers of the operands satisfy `Q`. -/
structure Program.Obeys (Q : Operation → List (Instr α) → Prop) (p : Program α) : Prop where
  nopFree : p.NopFree
  supplied : p.producers?.isSome = true
  finds : p.Finds Q []

section Obeys

variable {P : Operator → Prop} {Q R : Operation → List (Instr α) → Prop} {p : Program α}

theorem Program.exists_forest? (h : p.producers?.isSome = true) :
    ∃ ts, p.forest? = some ts ∧ Forest.code ts = p ∧ Forest.Sound (fun _ => True) ts := by
  rw [← isSome_forest?] at h
  obtain ⟨ts, hts⟩ := Option.isSome_iff_exists.mp h
  exact ⟨ts, hts, Forest.code_forest? (fun _ _ => trivial) hts⟩

theorem Forest.Sound.obeys {ts : Forest α} (h : Sound P ts) (hmeets : Meets Q ts) :
    Program.Obeys Q ((code ts).filter fun i => !i.isNop) where
  nopFree := Program.nopFree_filter _
  supplied := by
    rw [Program.producers?, Program.foldlM_filter_isNop fun _ => rfl]
    simpa [Program.producers?] using congrArg Option.isSome h.producers?_code
  finds := Program.finds_filter_isNop.mpr ((h.finds_code []).mpr hmeets)

theorem Program.Finds.mono (hQ : ∀ o operands, Q o operands → R o operands) {stack : List (Instr α)}
    (h : Finds Q stack p) : Finds R stack p := by
  induction p generalizing stack with
  | nil => trivial
  | cons i p ih =>
    obtain ⟨hi, hp⟩ := h
    refine ⟨fun o ho => ?_, fun next hnext => ih (hp next hnext)⟩
    obtain ⟨operands, rest, hpop, hfound⟩ := hi o ho
    exact ⟨operands, rest, hpop, hQ o operands hfound⟩

theorem Program.Obeys.mono (hQ : ∀ o operands, Q o operands → R o operands) (h : p.Obeys Q) : p.Obeys R :=
  ⟨h.nopFree, h.supplied, h.finds.mono hQ⟩

/-- What an operation right before another one produced is among the operands of the latter. -/
theorem Program.mem_operands? {before : Program α} {o other : Operation} {operands : List (Instr α)}
    (h : operands? (before ++ [.apply other]) o = some operands) : .apply other ∈ operands := by
  rw [operands?] at h
  obtain ⟨stack, hstack, h⟩ := Option.bind_eq_some_iff.mp h
  obtain ⟨⟨popped, rest⟩, hpop, h⟩ := Option.bind_eq_some_iff.mp h
  obtain rfl : popped = operands := Option.some.inj h
  rw [producers?, List.foldlM_append] at hstack
  obtain ⟨middle, -, hstack⟩ := Option.bind_eq_some_iff.mp hstack
  obtain ⟨below, rfl⟩ : ∃ below, stack = .apply other :: below := by
    cases hother : pop? other.arity middle with
    | none => simp [Instr.settle?, hother] at hstack
    | some taken => exact ⟨taken.2, by simpa [Instr.settle?, hother] using hstack.symm⟩
  unfold pop? at hpop
  split at hpop
  · obtain ⟨rfl, -⟩ := Prod.mk.inj (Option.some.inj hpop)
    simp [Operation.arity]
  · cases hpop

/-- Where no operand is left to fuse, no neighbours are left to merge. -/
theorem Program.Obeys.isMerged (h : p.Obeys Operation.IsFused) : p.IsMerged := by
  refine List.isChain_iff_forall_rel_of_append_cons_cons.mpr fun {i j before after} hp => ?_
  cases hmerge : i.mergeable j with
  | false => rfl
  | true =>
    match i, j with
    | .apply other, .apply o =>
      obtain ⟨hf, ho⟩ := Bool.and_eq_true_iff.mp hmerge
      have hsplit : p = before ++ [.apply other] ++ .apply o :: after := by simpa using hp
      obtain ⟨operands, hoperands, hfused⟩ := (hsplit ▸ h.finds).exists_operands? (hsplit ▸ h.supplied)
      rw [Operation.isFusible_eq_isAssociative] at hf
      exact absurd (beq_iff_eq.mp ho) (hfused hf other (mem_operands? hoperands))

theorem Program.Obeys.merge_eq_self (h : p.Obeys Operation.IsFused) : p.merge = p :=
  Program.merge_eq_self h.nopFree h.isMerged

end Obeys

/-! ### One round -/

section Follows

variable {keep : Instr α → Bool} {step : Draft α → Instr α → Option (Draft α)} {transform : Forest α → Forest α}
  {Q : Operation → List (Instr α) → Prop} {p : Program α}

/-- A pass over a program in which no operation lacks operands leaves the program of the transformed forest. -/
theorem Follows.obeys_redraft (h : Follows keep step transform) (hp : p.producers?.isSome = true)
    (htransform : ∀ ts, Forest.Sound (fun _ => True) ts → Forest.code ts = p →
      Forest.Sound (fun _ => True) (transform ts) ∧ Forest.Meets Q (transform ts)) : (redraft step p).Obeys Q := by
  obtain ⟨ts, hts, hcode, hsound⟩ := Program.exists_forest? hp
  obtain ⟨hsound, hmeets⟩ := htransform ts hsound hcode
  rw [h.redraft_eq, hts]
  exact hsound.obeys hmeets

theorem Follows.redraft_eq_self (h : Follows keep step transform) (hp : p.NopFree)
    (htransform : ∀ ts, Forest.Sound (fun _ => True) ts → Forest.code ts = p → transform ts = ts) :
    redraft step p = p := by
  rw [h.redraft_eq]
  cases hts : p.forest? with
  | none => rfl
  | some ts =>
    obtain ⟨hcode, hsound⟩ := Forest.code_forest? (P := fun _ => True) (fun _ _ => trivial) hts
    simp only [htransform ts hsound hcode, hcode, hp.filter_eq]

theorem Follows.redraft_of_lacking (h : Follows keep step transform) (hp : p.producers?.isSome = false) :
    redraft step p = p := by
  rw [← Program.isSome_forest?, Option.isSome_eq_false_iff, Option.isNone_iff_eq_none] at hp
  rw [h.redraft_eq, hp]

end Follows

namespace Program

variable (arithmetic : Arithmetic α) (representable : α → Bool) {p : Program α}

theorem obeys_fuse (h : p.producers?.isSome = true) : p.fuse.Obeys Operation.IsFused :=
  Draft.follows_fuseStep.obeys_redraft h fun _ hts _ => ⟨hts.fuse, hts.meets_fuse⟩

theorem Obeys.fuse_eq_self (h : p.Obeys Operation.IsFused) : p.fuse = p := by
  refine Draft.follows_fuseStep.redraft_eq_self h.nopFree fun ts hts hcode => ?_
  have hmeets : ts.Meets Operation.IsFused := (hts.finds_code []).mp (hcode ▸ h.finds)
  exact Forest.fuse_eq_self fun t ht => (hts t ht).fuse_eq_self (hmeets t ht)

theorem Obeys.fold (h : p.Obeys Operation.IsFused) :
    (p.fold arithmetic representable).Obeys (Operation.IsNormal arithmetic representable) := by
  refine Draft.follows_foldStep.obeys_redraft h.supplied fun ts hts hcode => ⟨hts.fold, hts.meets_fold ?_⟩
  exact (hts.finds_code []).mp (hcode ▸ h.finds)

variable {arithmetic representable}

theorem Obeys.fold_eq_self (h : p.Obeys (Operation.IsNormal arithmetic representable)) :
    p.fold arithmetic representable = p := by
  refine Draft.follows_foldStep.redraft_eq_self h.nopFree fun ts hts hcode => ?_
  have hmeets := (hts.finds_code []).mp (hcode ▸ h.finds)
  exact Forest.fold_eq_self fun t ht => (hts t ht).fold_eq_self (hmeets t ht)

theorem Obeys.isFused (h : p.Obeys (Operation.IsNormal arithmetic representable)) : p.Obeys Operation.IsFused :=
  h.mono fun _ _ hnormal => hnormal.fused

/-- In a program in which no operation lacks operands, fusing leaves nothing to merge. -/
theorem folded_round (h : p.producers?.isSome = true) :
    (p.round arithmetic representable).folded = p.fuse.fold arithmetic representable := by
  simp only [round, (obeys_fuse h).merge_eq_self]

theorem obeys_round (h : p.producers?.isSome = true) :
    (p.round arithmetic representable).folded.Obeys (Operation.IsNormal arithmetic representable) := by
  rw [folded_round h]
  exact (obeys_fuse h).fold arithmetic representable

/-- If an operation lacks operands, only merging applies, and operands are still lacking. -/
theorem folded_round_of_lacking (arithmetic : Arithmetic α) (representable : α → Bool)
    (h : p.producers?.isSome = false) : (p.round arithmetic representable).folded = p.merge := by
  have hfuse : p.fuse = p := Draft.follows_fuseStep.redraft_of_lacking h
  have hmerge : p.merge.producers?.isSome = false := by rw [isSome_producers?_merge, h]
  have hfold : p.merge.fold arithmetic representable = p.merge := Draft.follows_foldStep.redraft_of_lacking hmerge
  simp only [round, hfuse, hfold]

/-- A round neither makes up for operands that are lacking nor uses up operands. -/
theorem isSome_producers?_round :
    (p.round arithmetic representable).folded.producers?.isSome = p.producers?.isSome := by
  cases h : p.producers?.isSome with
  | true => exact (obeys_round h).supplied
  | false => rw [folded_round_of_lacking arithmetic representable h, isSome_producers?_merge, h]

/-! ### Programs that no round changes -/

/-- A round leaves the program as it is. -/
def IsStable (arithmetic : Arithmetic α) (representable : α → Bool) (p : Program α) : Prop :=
  (p.round arithmetic representable).folded = p

theorem Obeys.isStable (h : p.Obeys (Operation.IsNormal arithmetic representable)) :
    p.IsStable arithmetic representable := by
  rw [IsStable, folded_round h.supplied, h.isFused.fuse_eq_self, h.fold_eq_self]

theorem isStable_iff (h : p.producers?.isSome = true) :
    p.IsStable arithmetic representable ↔ p.Obeys (Operation.IsNormal arithmetic representable) :=
  ⟨fun hstable => hstable ▸ obeys_round h, Obeys.isStable⟩

theorem isStable_iff_of_lacking (h : p.producers?.isSome = false) :
    p.IsStable arithmetic representable ↔ p.NopFree ∧ p.IsMerged := by
  rw [IsStable, folded_round_of_lacking arithmetic representable h]
  constructor
  · intro hmerge
    have hnop : p.NopFree := hmerge ▸ nopFree_merge p
    exact ⟨hnop, hmerge ▸ hnop.isMerged_merge⟩
  · rintro ⟨hnop, hmerged⟩
    exact merge_eq_self hnop hmerged

theorem IsStable.nopFree (h : p.IsStable arithmetic representable) : p.NopFree := by
  cases hp : p.producers?.isSome with
  | true => exact ((isStable_iff hp).mp h).nopFree
  | false => exact ((isStable_iff_of_lacking hp).mp h).1

/-- A round leaves a program that no round changes, if it has all operands or no `nop` to drop. -/
theorem isStable_round (arithmetic : Arithmetic α) (representable : α → Bool)
    (h : p.producers?.isSome = true ∨ p.NopFree) :
    (p.round arithmetic representable).folded.IsStable arithmetic representable := by
  cases hp : p.producers?.isSome with
  | true => exact (obeys_round hp).isStable
  | false =>
    have hnop : p.NopFree := h.resolve_left (by simp [hp])
    rw [folded_round_of_lacking arithmetic representable hp,
      isStable_iff_of_lacking (by rw [isSome_producers?_merge, hp])]
    exact ⟨nopFree_merge p, hnop.isMerged_merge⟩

/-! ### Rounds until one of them does not shorten the program -/

/-- The rounds on a program until one of them leaves it as long as it was, without a limit to their number. -/
inductive Rounds (arithmetic : Arithmetic α) (representable : α → Bool) : Program α → List (Round α) → Prop
  | last {p : Program α} (h : p.length ≤ (p.round arithmetic representable).folded.length) :
    Rounds arithmetic representable p [p.round arithmetic representable]
  | cons {p : Program α} {rs : List (Round α)} (h : (p.round arithmetic representable).folded.length < p.length)
    (rest : Rounds arithmetic representable (p.round arithmetic representable).folded rs) :
    Rounds arithmetic representable p (p.round arithmetic representable :: rs)

theorem Rounds.rounds_eq {rs : List (Round α)} (h : Rounds arithmetic representable p rs) {limit : Nat}
    (hlimit : rs.length ≤ limit) : p.rounds arithmetic representable limit = rs := by
  induction h generalizing limit with
  | last h =>
    cases limit with
    | zero => cases hlimit
    | succ limit => rw [rounds, if_neg (Nat.not_lt.mpr h)]
  | cons h _ ih =>
    cases limit with
    | zero => cases hlimit
    | succ limit => rw [rounds, if_pos h, ih (Nat.le_of_succ_le_succ hlimit)]

theorem Rounds.unique {rs rs' : List (Round α)} (h : Rounds arithmetic representable p rs)
    (h' : Rounds arithmetic representable p rs') : rs = rs' := by
  have hlimit := h.rounds_eq (Nat.le_add_right rs.length rs'.length)
  rw [← hlimit, h'.rounds_eq (Nat.le_add_left rs'.length rs.length)]

/-- Only the first round reads the program. -/
theorem Rounds.congr {q : Program α} {rs : List (Round α)} (h : Rounds arithmetic representable p rs)
    (hround : p.round arithmetic representable = q.round arithmetic representable) (hlength : p.length = q.length) :
    Rounds arithmetic representable q rs := by
  cases h with
  | last h =>
    rw [hround, hlength] at *
    exact .last h
  | cons h rest =>
    rw [hround] at *
    exact .cons (hlength ▸ h) rest

/-- The rounds end: all but the last shorten the program. -/
theorem rounds_rounds {limit : Nat} (h : p.length < limit) :
    Rounds arithmetic representable p (p.rounds arithmetic representable limit) := by
  induction limit generalizing p with
  | zero => cases h
  | succ limit ih =>
    rw [rounds]
    split
    next hshorter => exact .cons hshorter (ih (by omega))
    next hlonger => exact .last (Nat.le_of_not_lt hlonger)

theorem Rounds.of_isStable (h : p.IsStable arithmetic representable) :
    Rounds arithmetic representable p [p.round arithmetic representable] :=
  .last (by rw [h])

/-- If a round leaves a stable program, there are at most two rounds, and the last one leaves that program as well. -/
theorem Rounds.of_isStable_round (h : (p.round arithmetic representable).folded.IsStable arithmetic representable) :
    ∃ rs r, Rounds arithmetic representable p (rs ++ [r]) ∧ rs.length ≤ 1 ∧
      r.folded = (p.round arithmetic representable).folded := by
  by_cases hshorter : (p.round arithmetic representable).folded.length < p.length
  · exact ⟨[_], _, .cons hshorter (.of_isStable h), Nat.le_refl 1, h⟩
  · exact ⟨[], _, .last (Nat.le_of_not_lt hshorter), Nat.zero_le 1, rfl⟩

/-- There are at most three rounds, at most two if no operation lacks operands, and the last one leaves a stable
    program. -/
theorem exists_rounds (arithmetic : Arithmetic α) (representable : α → Bool) (p : Program α) :
    ∃ rs r, Rounds arithmetic representable p (rs ++ [r]) ∧ rs.length ≤ 2 ∧
      (p.producers?.isSome = true → rs.length ≤ 1) ∧ r.folded.IsStable arithmetic representable := by
  by_cases h : p.producers?.isSome = true ∨ p.NopFree
  · have hstable := isStable_round arithmetic representable h
    obtain ⟨rs, r, hrounds, hlength, hlast⟩ := Rounds.of_isStable_round hstable
    exact ⟨rs, r, hrounds, by omega, fun _ => hlength, hlast ▸ hstable⟩
  · -- A `nop` is dropped by the first round, so the second one leaves a stable program.
    obtain ⟨hlacking, hnop⟩ := not_or.mp h
    have hround := folded_round_of_lacking arithmetic representable (Bool.eq_false_iff.mpr hlacking)
    have hshorter : (p.round arithmetic representable).folded.length < p.length := by
      rw [hround]
      exact Nat.lt_of_not_le fun hle => hnop (nopFree_of_length_le_merge hle)
    have hnext : (p.round arithmetic representable).folded.NopFree := hround ▸ nopFree_merge p
    have hstable := isStable_round arithmetic representable (.inr hnext)
    obtain ⟨rs, r, hrounds, hlength, hlast⟩ := Rounds.of_isStable_round hstable
    exact ⟨_ :: rs, r, .cons hshorter hrounds, Nat.succ_le_succ hlength, fun hp => absurd hp hlacking,
      hlast ▸ hstable⟩

/-! ### Optimizing -/

theorem optimize_of_rounds {level : Level} (hlevel : level ≠ .number 0) {rs : List (Round α)} {r : Round α}
    (h : Rounds arithmetic representable p (rs ++ [r])) :
    p.optimize arithmetic representable level = ⟨r.folded, rs ++ [r]⟩ := by
  simp [optimize, hlevel, (rounds_rounds (Nat.lt_succ_self p.length)).unique h]

theorem optimize_of_isStable {level : Level} (hlevel : level ≠ .number 0) (h : p.IsStable arithmetic representable) :
    p.optimize arithmetic representable level = ⟨p, [p.round arithmetic representable]⟩ := by
  have hrounds : Rounds arithmetic representable p ([] ++ [p.round arithmetic representable]) := .of_isStable h
  rw [optimize_of_rounds hlevel hrounds, h, List.nil_append]

theorem program_optimize {level : Level} (hlevel : level ≠ .number 0) (h : p.producers?.isSome = true) :
    (p.optimize arithmetic representable level).program = p.fuse.fold arithmetic representable := by
  obtain ⟨rs, r, hrounds, -, hlast⟩ := Rounds.of_isStable_round (isStable_round arithmetic representable (.inl h))
  rw [optimize_of_rounds hlevel hrounds, hlast, folded_round h]

theorem isStable_optimize {level : Level} (hlevel : level ≠ .number 0) (p : Program α) :
    (p.optimize arithmetic representable level).program.IsStable arithmetic representable := by
  obtain ⟨rs, r, hrounds, -, -, hstable⟩ := exists_rounds arithmetic representable p
  rwa [optimize_of_rounds hlevel hrounds]

theorem isSome_producers?_optimize (level : Level) (p : Program α) :
    (p.optimize arithmetic representable level).program.producers?.isSome = p.producers?.isSome :=
  optimize_induction (R := fun q => q.producers?.isSome = p.producers?.isSome)
    (fun _ hq => isSome_producers?_round.trans hq) rfl level

/-- Optimizing takes at most three rounds, at most two if no operation lacks operands, and an optimized program is left
    as it is in a single round. -/
theorem optimize_converges (arithmetic : Arithmetic α) (representable : α → Bool) {level : Level}
    (hlevel : level ≠ .number 0) (p : Program α) :
    let optimized := p.optimize arithmetic representable level
    let again := optimized.program.optimize arithmetic representable level
    Rounds arithmetic representable p optimized.rounds ∧ optimized.rounds.length ≤ 3 ∧
      (p.producers?.isSome = true → optimized.rounds.length ≤ 2) ∧ again.program = optimized.program ∧
      again.rounds.length = 1 := by
  intro optimized again
  obtain ⟨rs, r, hrounds, hthree, htwo, hstable⟩ := exists_rounds arithmetic representable p
  have hoptimized : optimized = ⟨r.folded, rs ++ [r]⟩ := optimize_of_rounds hlevel hrounds
  have hagain : again = ⟨r.folded, [r.folded.round arithmetic representable]⟩ := by
    simpa only [again, hoptimized] using optimize_of_isStable hlevel hstable
  have hlength : (rs ++ [r]).length = rs.length + 1 := List.length_append
  rw [hagain, hoptimized]
  exact ⟨hrounds, hlength.trans_le (Nat.succ_le_succ hthree), fun hp => hlength.trans_le (Nat.succ_le_succ (htwo hp)),
    rfl, rfl⟩

/-- A program that needs all three rounds: the operations meet only after the `nop` between them has been dropped. -/
theorem optimize_converges_in_three :
    let p : Program Int := [.push 1, .push 2, .apply (.binary .add), .nop, .apply (.binary .add)]
    let optimized := p.optimize Integer.arithmetic (fun _ => true) (.number 1)
    let again := optimized.program.optimize Integer.arithmetic (fun _ => true) (.number 1)
    Level.number 1 ≠ .number 0 ∧ optimized.rounds.length = 3 ∧
      optimized.program = [.push 1, .push 2, .apply ⟨.add, 2, by decide⟩] ∧
      Rounds Integer.arithmetic (fun _ => true) p optimized.rounds ∧ again.program = optimized.program ∧
      again.rounds.length = 1 := by
  intro p optimized again
  have hlevel : Level.number 1 ≠ .number 0 := by decide
  obtain ⟨hrounds, -, -, hprogram, hlength⟩ := optimize_converges Integer.arithmetic (fun _ => true) hlevel p
  exact ⟨hlevel, by decide +kernel, by decide +kernel, hrounds, hprogram, hlength⟩

/-- What is left of a program. If no operation lacked operands, nothing is left to do for any operation. If one did, no
    two neighbours are the same associative operator. Either way there is no `nop`. -/
theorem optimize_normal_form (arithmetic : Arithmetic α) (representable : α → Bool) {level : Level}
    (hlevel : level ≠ .number 0) (p : Program α) :
    let q := (p.optimize arithmetic representable level).program
    .nop ∉ q ∧
      (p.producers?.isSome = true → ∀ (before : Program α) o after, q = before ++ .apply o :: after →
        ∃ operands, before.operands? o = some operands ∧ o.IsNormal arithmetic representable operands) ∧
      (p.producers? = none → ∀ before other o after, q = before ++ .apply other :: .apply o :: after →
        o.operator.isAssociative = true → other.operator ≠ o.operator) := by
  intro q
  have hstable : q.IsStable arithmetic representable := isStable_optimize hlevel p
  have hsupplied : q.producers?.isSome = p.producers?.isSome := isSome_producers?_optimize level p
  refine ⟨fun hnop => ?_, fun hp before o after hq => ?_, fun hp before other o after hq hassoc hsame => ?_⟩
  · cases hstable.nopFree _ hnop
  · have hobeys := (isStable_iff (hsupplied.trans hp)).mp hstable
    exact (hq ▸ hobeys.finds).exists_operands? (hq ▸ hobeys.supplied)
  · have hlacking : q.producers?.isSome = false := by rw [hsupplied, hp, Option.isSome_none]
    obtain ⟨-, hmerged⟩ := (isStable_iff_of_lacking hlacking).mp hstable
    have hneighbours := List.isChain_iff_forall_rel_of_append_cons_cons.mp hmerged hq
    rw [← Operator.isFusible_eq_isAssociative] at hassoc
    simp [Instr.mergeable, Operation.isFusible, hassoc, hsame] at hneighbours

/-- Two literals are left to the sum because `7` may not take their place; its other operands and the difference are
    folded. -/
theorem optimize_normal_form_of_stuck_run :
    let p : Program Int := [.declare "x", .fetch "x", .push 3, .push 4, .apply (.binary .add), .apply (.binary .add),
      .nop, .push 2, .push 5, .apply (.binary .sub), .apply (.binary .mul)]
    let before : Program Int := [.declare "x", .fetch "x", .push 3, .push 4]
    let sum : Operation := ⟨.add, 2, by decide⟩
    let q := (p.optimize Integer.arithmetic (fun x => x != 7) (.number 1)).program
    Level.number 1 ≠ .number 0 ∧ p.producers?.isSome = true ∧
      q = before ++ .apply sum :: [.push (-3), .apply (.binary .mul)] ∧ .nop ∉ q ∧
      ∃ operands, before.operands? sum = some operands ∧
        sum.IsNormal Integer.arithmetic (fun x => x != 7) operands := by
  intro p before sum q
  have hlevel : Level.number 1 ≠ .number 0 := by decide
  have hp : p.producers?.isSome = true := by decide +kernel
  have hq : q = before ++ .apply sum :: [.push (-3), .apply (.binary .mul)] := by decide +kernel
  obtain ⟨hnop, hnormal, -⟩ := optimize_normal_form Integer.arithmetic (fun x => x != 7) hlevel p
  exact ⟨hlevel, hp, hq, hnop, hnormal hp _ _ _ hq⟩

end Program

end StackCalc
