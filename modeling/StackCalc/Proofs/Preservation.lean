import StackCalc.Proofs.Transparency

/-!
What the optimizer keeps of the instructions of a program. It only writes instructions of the program, `nop`, literals
that are representable, and operations of the program with another number of operands, but at least two if all
operations of the program have two. So every property of instructions that these changes keep holds of an optimized
program if it holds of the program.
-/

namespace StackCalc

variable {α : Type}

/-- A property of instructions that the changes of the optimizer keep. Operations have two operands at least. -/
structure Instr.Stable (representable : α → Bool) (I : Instr α → Prop) : Prop where
  nop : I .nop
  push : ∀ x, representable x = true → I (.push x)
  arity : ∀ o, I (.apply o) → 1 ≤ o.extra
  withExtra : ∀ o extra, I (.apply o) → 1 ≤ extra → I (.apply (o.withExtra extra))

variable {arithmetic : Arithmetic α} {representable : α → Bool} {I : Instr α → Prop}

/-! ### Fusing -/

section Fuse

variable (hI : Instr.Stable representable I)
include hI

theorem Tree.forall_opened {t : Tree α} (h : ∀ i ∈ t.code, I i) (op : Operator) :
    ∀ i ∈ Forest.code (t.opened op), I i := by
  intro i hi
  cases t with
  | leaf j => exact h i (by simpa [opened] using hi)
  | node o ts =>
    by_cases ho : o.operator = op
    · rw [opened_of_eq ho, Forest.code_append, List.mem_append] at hi
      rcases hi with hi | hi
      · exact h i (by simp [code, hi])
      · obtain rfl : i = .nop := by simpa [code] using hi
        exact hI.nop
    · exact h i (by simpa [opened_of_ne ho] using hi)

theorem Forest.forall_flatMap_opened {ts : Forest α} (h : ∀ i ∈ code ts, I i) (op : Operator) :
    ∀ i ∈ code (ts.flatMap (Tree.opened op)), I i := by
  induction ts with
  | nil => exact h
  | cons t ts ih =>
    intro i hi
    rw [List.flatMap_cons, code_append, List.mem_append] at hi
    rcases hi with hi | hi
    · exact Tree.forall_opened hI (fun i hi => h i (by simp [hi])) op i hi
    · exact ih (fun i hi => h i (by simp [hi])) i hi

theorem Tree.Sound.forall_fusing {P : Operator → Prop} {o : Operation} {ts : Forest α} (hts : Forest.Sound P ts)
    (harity : Forest.count ts = o.arity) (ho : I (.apply o)) (h : ∀ i ∈ Forest.code ts, I i) :
    ∀ i ∈ (Tree.fusing o ts).code, I i := by
  have hextra := hI.arity o ho
  have hle := hts.count_le_count_flatMap_opened o.operator
  rw [harity, Operation.arity] at hle
  intro i hi
  unfold Tree.fusing at hi
  split at hi
  · rw [code, List.mem_append, List.mem_singleton] at hi
    rcases hi with hi | rfl
    · exact Forest.forall_flatMap_opened hI h _ i hi
    · exact hI.withExtra o _ ho (by omega)
  · rw [code, List.mem_append, List.mem_singleton] at hi
    rcases hi with hi | rfl
    · exact h i hi
    · exact ho

theorem Tree.Sound.forall_fuse {P : Operator → Prop} {t : Tree α} (ht : t.Sound P) (h : ∀ i ∈ t.code, I i) :
    ∀ i ∈ t.fuse.code, I i := by
  induction ht with
  | leaf hleaf =>
    rw [fuse_leaf]
    exact h
  | @node o ts hop harity hts ih =>
    rw [fuse_node]
    have hsound : Forest.Sound P ts := hts
    refine Sound.forall_fusing hI hsound.fuse (by rw [Forest.count_fuse, harity]) (h _ (by simp [code])) ?_
    intro i hi
    rw [Forest.fuse_eq_map] at hi
    obtain ⟨_, hu, hi⟩ := Forest.mem_code.mp hi
    obtain ⟨t, ht, rfl⟩ := List.mem_map.mp hu
    refine ih t ht (fun i hi => h i ?_) i hi
    rw [code]
    exact List.mem_append_left _ (Forest.mem_code.mpr ⟨t, ht, hi⟩)

theorem Program.forall_fuse {p : Program α} (hp : ∀ i ∈ p, I i) : ∀ i ∈ p.fuse, I i := by
  refine Draft.follows_fuseStep.forall_redraft ?_ hp
  intro ts hts h i hi
  rw [Forest.fuse_eq_map] at hi
  obtain ⟨_, hu, hi⟩ := Forest.mem_code.mp hi
  obtain ⟨t, ht, rfl⟩ := List.mem_map.mp hu
  exact (hts t ht).forall_fuse hI (fun i hi => h i (Forest.mem_code.mpr ⟨t, ht, hi⟩)) i hi

/-! ### Merging -/

theorem Draft.forall_mergeStep {d : Draft α} {i : Instr α} (h : ∀ j ∈ d.code.toList ++ [i], I j) :
    ∀ j ∈ (d.mergeStep i).code.toList, I j := by
  rcases d.mergeStep_eq i with heq | ⟨code, before, o, hcode, rfl, hf, ho, heq⟩
  · rwa [heq]
  · rw [heq]
    intro j hj
    have hlast : I (.apply o) := h _ (by simp)
    have hextra := hI.arity o hlast
    simp only [List.mem_append, List.mem_cons, List.not_mem_nil, or_false] at hj
    rcases hj with hj | rfl | rfl
    · exact h j (by simp [hcode, hj])
    · exact hI.nop
    · exact hI.withExtra o _ hlast (by omega)

theorem Program.forall_merge {p : Program α} (hp : ∀ i ∈ p, I i) : ∀ i ∈ p.merge, I i := by
  have h : ∀ i ∈ ({} : Draft α).code.toList ++ p, I i := hp
  have hmerged : ∀ i ∈ (p.foldl Draft.mergeStep {}).code.toList, I i :=
    Draft.foldl_mergeStep_induction (R := fun p => ∀ i ∈ p, I i) List.forall_mem_append (Draft.forall_mergeStep hI) h
  intro i hi
  exact hmerged i (List.mem_filter.mp hi).1

end Fuse

/-! ### Folding -/

namespace Forest

/-- Folding runs among operands that are not all literals leaves two operands at least, if there were two. -/
theorem two_le_count_foldedRuns {op : Operator} {run ts : Forest α} (hrun : isPlain run = true)
    (hts : isPlain ts = false) (h : 2 ≤ count (run ++ ts)) :
    2 ≤ count (foldedRuns arithmetic representable op run ts) := by
  induction ts generalizing run with
  | nil => cases hts
  | cons t ts ih =>
    rw [foldedRuns]
    split
    next ht =>
      have hrest : isPlain ts = false := by
        rw [isPlain, List.all_cons, ht, Bool.true_and] at hts
        exact hts
      refine ih (isPlain_append.mpr ⟨hrun, isPlain_cons.mpr ⟨ht, rfl⟩⟩) hrest ?_
      rwa [List.append_assoc]
    next ht =>
      have hvalue := (Tree.literal?_of_not_isPlain (Bool.eq_false_iff.mpr ht)).2
      rw [count_append, count_cons, hvalue, if_pos rfl] at h ⊢
      by_cases hpos : 0 < count run
      · have hfolded : 0 < count (foldedRun arithmetic representable op run) := count_foldedRun_pos hrun hpos
        omega
      · have hfolded : 0 < count (foldedRuns arithmetic representable op [] ts) :=
          count_foldedRuns_pos rfl (by simp; omega)
        omega

section

variable (hI : Instr.Stable representable I)
include hI

theorem forall_map_retired {ts : Forest α} (h : ∀ i ∈ code ts, I i) : ∀ i ∈ code (ts.map Tree.retired), I i := by
  intro i hi
  obtain ⟨_, hu, hi⟩ := mem_code.mp hi
  obtain ⟨t, ht, rfl⟩ := List.mem_map.mp hu
  cases hl : t.literal? with
  | none =>
    rw [Tree.retired_of_none hl] at hi
    exact h i (mem_code.mpr ⟨t, ht, hi⟩)
  | some x =>
    obtain rfl := Tree.literal?_eq_some.mp hl
    obtain rfl : i = .nop := by simpa [Tree.retired, Tree.code] using hi
    exact hI.nop

theorem forall_collapse {ts : Forest α} (h : ∀ i ∈ code ts, I i) {x : α} (hx : representable x = true) :
    ∀ i ∈ code (collapse x ts), I i := by
  induction ts with
  | nil => exact h
  | cons t ts ih =>
    have hrest : ∀ i ∈ code ts, I i := fun i hi => h i (by simp [hi])
    cases hl : t.literal? with
    | none =>
      rw [collapse_cons_of_none hl]
      intro i hi
      rcases List.mem_append.mp (code_cons t _ ▸ hi) with hi | hi
      · exact h i (by simp [hi])
      · exact ih hrest i hi
    | some y =>
      obtain rfl := Tree.literal?_eq_some.mp hl
      rw [collapse_cons_push]
      intro i hi
      rcases List.mem_append.mp (code_cons _ _ ▸ hi) with hi | hi
      · obtain rfl : i = .push x := by simpa [Tree.code] using hi
        exact hI.push x hx
      · exact forall_map_retired hI hrest i hi

theorem forall_foldedRun {op : Operator} {run : Forest α} (h : ∀ i ∈ code run, I i) :
    ∀ i ∈ code (foldedRun arithmetic representable op run), I i := by
  unfold foldedRun
  split
  next x hx =>
    split
    · exact forall_collapse hI h (folded?_eq_some.mp hx).2
    · exact h
  next => exact h

theorem forall_foldedRuns {op : Operator} {run ts : Forest α} (hrun : ∀ i ∈ code run, I i)
    (hts : ∀ i ∈ code ts, I i) : ∀ i ∈ code (foldedRuns arithmetic representable op run ts), I i := by
  induction ts generalizing run with
  | nil => exact forall_foldedRun hI hrun
  | cons t ts ih =>
    have hrest : ∀ i ∈ code ts, I i := fun i hi => hts i (by simp [hi])
    have ht : ∀ i ∈ t.code, I i := fun i hi => hts i (by simp [hi])
    rw [foldedRuns]
    split
    · refine ih ?_ hrest
      intro i hi
      rw [code_append, List.mem_append] at hi
      rcases hi with hi | hi
      · exact hrun i hi
      · exact ht i (by simpa using hi)
    · intro i hi
      rw [code_append, code_cons, List.mem_append, List.mem_append] at hi
      rcases hi with hi | hi | hi
      · exact forall_foldedRun hI hrun i hi
      · exact ht i hi
      · exact ih (by simp) hrest i hi

theorem forall_folding {o : Operation} {ts : Forest α} (harity : count ts = o.arity) (ho : I (.apply o))
    (h : ∀ i ∈ code ts, I i) : ∀ i ∈ code (folding arithmetic representable o ts), I i := by
  intro i hi
  rcases folding_cases arithmetic representable o ts with ⟨-, x, -, hx, heq⟩ | ⟨hplain, hf, heq⟩ | heq
  · rw [heq, code_append, List.mem_append] at hi
    rcases hi with hi | hi
    · exact forall_map_retired hI h i hi
    · obtain rfl : i = .push x := by simpa [Tree.code] using hi
      exact hI.push x hx
  · rw [heq, code_cons, code_nil, List.append_nil, Tree.code, List.mem_append, List.mem_singleton] at hi
    rcases hi with hi | rfl
    · exact forall_foldedRuns hI (by simp) h i hi
    · have hextra := hI.arity o ho
      have hcount : 2 ≤ count (foldedRuns arithmetic representable o.operator [] ts) :=
        two_le_count_foldedRuns rfl hplain (by rw [List.nil_append, harity, Operation.arity]; omega)
      exact hI.withExtra o _ ho (by omega)
  · rw [heq, code_cons, code_nil, List.append_nil, Tree.code, List.mem_append, List.mem_singleton] at hi
    rcases hi with hi | rfl
    · exact h i hi
    · exact ho

end

end Forest

section Optimize

variable (hI : Instr.Stable representable I)
include hI

theorem Tree.Sound.forall_fold {P : Operator → Prop} {t : Tree α} (ht : t.Sound P) (h : ∀ i ∈ t.code, I i) :
    ∀ i ∈ Forest.code (t.fold arithmetic representable), I i := by
  induction ht with
  | leaf hleaf =>
    rw [fold_leaf]
    simpa using h
  | @node o ts hop harity hts ih =>
    rw [fold_node]
    refine Forest.forall_folding hI (by rw [Forest.count_fold, harity]) (h _ (by simp [code])) ?_
    intro i hi
    rw [Forest.fold_eq_flatMap] at hi
    obtain ⟨u, hu, hi⟩ := Forest.mem_code.mp hi
    obtain ⟨t, ht, hu⟩ := List.mem_flatMap.mp hu
    refine ih t ht (fun i hi => h i ?_) i (Forest.mem_code.mpr ⟨u, hu, hi⟩)
    rw [code]
    exact List.mem_append_left _ (Forest.mem_code.mpr ⟨t, ht, hi⟩)

theorem Program.forall_fold {p : Program α} (hp : ∀ i ∈ p, I i) : ∀ i ∈ p.fold arithmetic representable, I i := by
  refine Draft.follows_foldStep.forall_redraft ?_ hp
  intro ts hts h i hi
  rw [Forest.fold_eq_flatMap] at hi
  obtain ⟨u, hu, hi⟩ := Forest.mem_code.mp hi
  obtain ⟨t, ht, hu⟩ := List.mem_flatMap.mp hu
  refine (hts t ht).forall_fold hI (fun i hi => h i ?_) i (Forest.mem_code.mpr ⟨u, hu, hi⟩)
  exact Forest.mem_code.mpr ⟨t, ht, hi⟩

/-- A property of instructions that the changes of the optimizer keep holds of the optimized program. -/
theorem Program.forall_optimize {p : Program α} (hp : ∀ i ∈ p, I i) (level : Level) :
    ∀ i ∈ (p.optimize arithmetic representable level).program, I i := by
  have hround : ∀ q : Program α, (∀ i ∈ q, I i) → ∀ i ∈ (q.round arithmetic representable).folded, I i := by
    intro q hq
    exact forall_fold hI (forall_merge hI (forall_fuse hI hq))
  exact optimize_induction hround hp level

end Optimize

end StackCalc
