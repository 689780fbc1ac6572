import StackCalc.Optimize.Rounds
import StackCalc.Proofs.FoldingDraft
import StackCalc.Proofs.Merging
import StackCalc.Proofs.Runs

/-!
The normal form of a program in which no operation lacks operands. No associative operation has an operand that the same
operator produced, no operation on literals only has a representable result, and no maximal run of literals among the
operands of an associative operation has one. One round brings every such program into this form: fusing leaves no
operand to fuse, folding produces literals only, so that it never makes up for an operand that was fused, and the runs
that it leaves are those that do not fold or consist of one literal. A program in normal form is left as it is by every
pass.
-/

namespace StackCalc

variable {α : Type}

/-! ### Operations in normal form -/

theorem Operator.isFusible_eq_isAssociative (op : Operator) : op.isFusible = op.isAssociative := by
  cases op <;> rfl

theorem Operation.isFusible_eq_isAssociative (o : Operation) : o.isFusible = o.operator.isAssociative :=
  o.operator.isFusible_eq_isAssociative

/-- The literal that an instruction pushes. -/
def Instr.literal? : Instr α → Option α
  | .push x => some x
  | _ => none

/-- The operator has a result on these literals, but not one that may take their place. -/
def Sticks (arithmetic : Arithmetic α) (representable : α → Bool) (op : Operator) (xs : List α) : Prop :=
  ∃ x, combine? (arithmetic op) xs = some x ∧ representable x = false

namespace Operation

/-- No operand of an associative operation was produced by the same operator. -/
def IsFused (o : Operation) (operands : List (Instr α)) : Prop :=
  o.operator.isAssociative = true → ∀ other, .apply other ∈ operands → other.operator ≠ o.operator

/-- Nothing is left to do for an operation whose operands were produced by these instructions. -/
structure IsNormal (arithmetic : Arithmetic α) (representable : α → Bool) (o : Operation)
    (operands : List (Instr α)) : Prop where
  fused : o.IsFused operands
  /-- An operation on literals only cannot be folded. -/
  whole : ∀ xs, operands = xs.map .push → Sticks arithmetic representable o.operator xs
  /-- Nor can a maximal run of literals, if an associative operation has other operands as well. -/
  runs : o.operator.isAssociative = true → (∃ i ∈ operands, i.literal? = none) →
    ForallRuns (Sticks arithmetic representable o.operator) (operands.map Instr.literal?)

theorem isFused_of_not_isFusible {o : Operation} (h : ¬ o.isFusible = true) (operands : List (Instr α)) :
    o.IsFused operands := by
  intro hassoc
  rw [isFusible_eq_isAssociative] at h
  exact absurd hassoc h

end Operation

theorem Forest.folded?_eq_none_iff {arithmetic : Arithmetic α} {representable : α → Bool} {op : Operator} {xs : List α}
    (h : xs ≠ []) : folded? arithmetic representable op xs = none ↔ Sticks arithmetic representable op xs := by
  obtain ⟨x, rest, rfl⟩ := List.exists_cons_of_ne_nil h
  simp [folded?, Sticks, combine?]

/-! ### Fusing -/

section Fuse

variable {P : Operator → Prop}

theorem Forest.meets_flatMap {Q : Operation → List (Instr α) → Prop} {f : Tree α → Forest α} {ts : Forest α}
    (h : ∀ t ∈ ts, Meets Q (f t)) : Meets Q (ts.flatMap f) := by
  intro u hu
  obtain ⟨t, ht, hu⟩ := List.mem_flatMap.mp hu
  exact h t ht u hu

theorem Tree.Meets.opened {Q : Operation → List (Instr α) → Prop} {t : Tree α} (h : t.Meets Q) (op : Operator) :
    Forest.Meets Q (t.opened op) := by
  intro u hu
  cases t with
  | leaf i =>
    obtain rfl : u = .leaf i := by simpa [Tree.opened] using hu
    exact h
  | node o ts =>
    by_cases ho : o.operator = op
    · rw [opened_of_eq ho, List.mem_append, List.mem_singleton] at hu
      rcases hu with hu | rfl
      · exact (meets_node.mp h).2 u hu
      · exact .leaf _
    · obtain rfl : u = .node o ts := by simpa [opened_of_ne ho] using hu
      exact h

theorem Forest.apply_not_mem_producers_leaf (i : Instr α) (o : Operation) : .apply o ∉ producers [.leaf i] := by
  cases i <;> simp [producers, Tree.isValue, Tree.root]

/-- After equal operators have been opened, no operand is left to fuse, if that was so below them. -/
theorem Forest.Meets.isFused_flatMap_opened {ts : Forest α} (h : Meets Operation.IsFused ts) (o : Operation) :
    o.IsFused (producers (ts.flatMap (Tree.opened o.operator))) := by
  intro hassoc other hother
  obtain ⟨t, ht, hmem⟩ := mem_producers_flatMap.mp hother
  cases t with
  | leaf i => exact absurd hmem (apply_not_mem_producers_leaf i other)
  | node o' us =>
    by_cases ho : o'.operator = o.operator
    · rw [Tree.opened_of_eq ho, producers_append, List.mem_append] at hmem
      have hfused := (Tree.meets_node.mp (h _ ht)).1
      rw [← ho]
      exact hfused (ho ▸ hassoc) other (hmem.resolve_right (apply_not_mem_producers_leaf .nop other))
    · obtain rfl : other = o' := by simpa [Tree.opened_of_ne ho] using hmem
      exact ho

theorem Tree.Meets.fusing {ts : Forest α} (h : Forest.Meets Operation.IsFused ts) (o : Operation) :
    (Tree.fusing o ts).Meets Operation.IsFused := by
  unfold Tree.fusing
  split
  next hf =>
    refine meets_node.mpr ⟨?_, Forest.meets_flatMap fun t ht => (h t ht).opened o.operator⟩
    simpa [Operation.IsFused] using h.isFused_flatMap_opened o
  next hf => exact meets_node.mpr ⟨Operation.isFused_of_not_isFusible hf _, h⟩

theorem Tree.Sound.meets_fuse {t : Tree α} (h : t.Sound P) : t.fuse.Meets Operation.IsFused := by
  induction h with
  | leaf => rw [fuse_leaf]; exact .leaf _
  | @node o ts _ _ _ ih =>
    rw [fuse_node, Forest.fuse_eq_map]
    refine .fusing (fun u hu => ?_) o
    obtain ⟨t, ht, rfl⟩ := List.mem_map.mp hu
    exact ih t ht

theorem Forest.Sound.meets_fuse {ts : Forest α} (h : Sound P ts) : Meets Operation.IsFused ts.fuse := by
  rw [fuse_eq_map]
  intro u hu
  obtain ⟨t, ht, rfl⟩ := List.mem_map.mp hu
  exact (h t ht).meets_fuse

theorem Forest.flatMap_opened_eq_self {o : Operation} {ts : Forest α} (hassoc : o.operator.isAssociative = true)
    (h : o.IsFused (producers ts)) : ts.flatMap (Tree.opened o.operator) = ts := by
  have hopened : ∀ t ∈ ts, t.opened o.operator = [t] := by
    intro t ht
    cases t with
    | leaf i => rfl
    | node other us => exact Tree.opened_of_ne (h hassoc other (mem_producers.mpr ⟨_, ht, rfl, rfl⟩)) us
  rw [List.flatMap_congr hopened, List.flatMap_singleton']

theorem Forest.fuse_eq_self {ts : Forest α} (h : ∀ t ∈ ts, t.fuse = t) : fuse ts = ts := by
  rw [fuse_eq_map, List.map_congr_left h, List.map_id']

theorem Tree.Sound.fuse_eq_self {t : Tree α} (h : t.Sound P) (hfused : t.Meets Operation.IsFused) : t.fuse = t := by
  induction h with
  | leaf => exact fuse_leaf _
  | @node o ts _ harity _ ih =>
    obtain ⟨hfound, hoperands⟩ := meets_node.mp hfused
    have hts : Forest.fuse ts = ts := Forest.fuse_eq_self fun t ht => ih t ht (hoperands t ht)
    rw [fuse_node, hts, Tree.fusing]
    split
    next hf =>
      rw [Operation.isFusible_eq_isAssociative] at hf
      rw [Forest.flatMap_opened_eq_self hf hfound, harity, Operation.arity, Nat.add_sub_cancel,
        Operation.withExtra_extra]
    next => rfl

end Fuse

/-! ### Literals among the producers -/

theorem Tree.literal?_root (t : Tree α) : t.root.literal? = t.literal? := by
  match t with
  | .leaf (.push _) | .leaf (.declare _) | .leaf (.fetch _) | .leaf (.apply _) | .leaf .nop | .node .. => rfl

namespace Forest

theorem producers_of_isPlain {ts : Forest α} (h : isPlain ts = true) : producers ts = (literals ts).map .push := by
  induction ts with
  | nil => rfl
  | cons t ts ih =>
    obtain ⟨ht, hts⟩ := isPlain_cons.mp h
    rw [producers_cons, ih hts]
    rcases Tree.plain_cases ht with ⟨x, rfl⟩ | ⟨hl, hv, -⟩
    · rfl
    · simp [literals_cons_of_none hl, producers, hv]

theorem producers_of_not_isPlain {t : Tree α} (h : t.isPlain = false) :
    producers [t] = [t.root] ∧ t.root.literal? = none := by
  obtain ⟨hl, hv⟩ := Tree.literal?_of_not_isPlain h
  exact ⟨by simp [producers, hv], by rw [Tree.literal?_root, hl]⟩

theorem isPlain_iff_producers {ts : Forest α} : isPlain ts = true ↔ ∀ i ∈ producers ts, i.literal? ≠ none := by
  constructor
  · intro h i hi
    rw [producers_of_isPlain h] at hi
    obtain ⟨x, -, rfl⟩ := List.mem_map.mp hi
    exact Option.some_ne_none x
  · intro h
    refine List.all_eq_true.mpr fun t ht => ?_
    cases hplain : t.isPlain with
    | true => rfl
    | false =>
      obtain ⟨hproducers, hl⟩ := producers_of_not_isPlain hplain
      have hvalue := (Tree.literal?_of_not_isPlain hplain).2
      exact absurd hl (h _ (mem_producers.mpr ⟨t, ht, hvalue, rfl⟩))

theorem exists_literal?_eq_none {ts : Forest α} (h : isPlain ts = false) : ∃ i ∈ producers ts, i.literal? = none := by
  by_contra hall
  push Not at hall
  rw [isPlain_iff_producers.mpr hall] at h
  cases h

theorem entries_of_isPlain {ts : Forest α} (h : isPlain ts = true) :
    (producers ts).map Instr.literal? = (literals ts).map some := by
  rw [producers_of_isPlain h, List.map_map]
  rfl

/-! ### Folding -/

variable {P : Operator → Prop} {arithmetic : Arithmetic α} {representable : α → Bool} {op : Operator}

theorem isPlain_foldedRun {run : Forest α} (h : isPlain run = true) :
    isPlain (foldedRun arithmetic representable op run) = true := by
  rcases foldedRun_cases arithmetic representable op run with heq | ⟨x, -, -, heq⟩
  · rwa [heq]
  · rw [heq]
    exact isPlain_collapse h x

/-- A run that has been folded has one literal, or it does not fold. -/
theorem sticks_foldedRun {run : Forest α}
    (h : 2 ≤ (literals (foldedRun arithmetic representable op run)).length) :
    Sticks arithmetic representable op (literals (foldedRun arithmetic representable op run)) := by
  unfold foldedRun at h ⊢
  split at h
  next x hx =>
    split at h
    next hlength =>
      rw [literals_collapse (List.ne_nil_of_length_pos (Nat.zero_lt_of_lt hlength))] at h
      simp at h
    next hlength => exact absurd h hlength
  next hx => exact (folded?_eq_none_iff (List.ne_nil_of_length_pos (Nat.zero_lt_of_lt h))).mp hx

theorem foldedRun_eq_self {run : Forest α}
    (h : 2 ≤ (literals run).length → Sticks arithmetic representable op (literals run)) :
    foldedRun arithmetic representable op run = run := by
  unfold foldedRun
  split
  next x hx =>
    split
    next hlength =>
      have hnone := (folded?_eq_none_iff (List.ne_nil_of_length_pos (Nat.zero_lt_of_lt hlength))).mpr (h hlength)
      rw [hx] at hnone
      cases hnone
    next => rfl
  next => rfl

theorem entries_foldedRuns_cons {run ts : Forest α} (hrun : isPlain run = true) {t : Tree α} (ht : t.isPlain = false) :
    (producers (foldedRuns arithmetic representable op run (t :: ts))).map Instr.literal? =
      (literals (foldedRun arithmetic representable op run)).map some ++
        none :: (producers (foldedRuns arithmetic representable op [] ts)).map Instr.literal? := by
  obtain ⟨hproducers, hl⟩ := producers_of_not_isPlain ht
  rw [foldedRuns, if_neg (by simp [ht]), producers_append, producers_cons t, hproducers, List.map_append,
    entries_of_isPlain (isPlain_foldedRun hrun)]
  simp [hl]

/-- No run is left to fold. -/
theorem forallRuns_foldedRuns {run ts : Forest α} (hrun : isPlain run = true) :
    ForallRuns (Sticks arithmetic representable op)
      ((producers (foldedRuns arithmetic representable op run ts)).map Instr.literal?) := by
  induction ts generalizing run with
  | nil =>
    rw [foldedRuns, entries_of_isPlain (isPlain_foldedRun hrun)]
    exact forallRuns_present.mpr sticks_foldedRun
  | cons t ts ih =>
    cases ht : t.isPlain with
    | true =>
      rw [foldedRuns, if_pos ht]
      exact ih (isPlain_append.mpr ⟨hrun, isPlain_cons.mpr ⟨ht, rfl⟩⟩)
    | false =>
      rw [entries_foldedRuns_cons hrun ht]
      exact forallRuns_append_none.mpr ⟨sticks_foldedRun, ih rfl⟩

/-- Runs that do not fold are left as they are. -/
theorem foldedRuns_eq_self {run ts : Forest α} (hrun : isPlain run = true)
    (h : ForallRuns (Sticks arithmetic representable op) ((producers (run ++ ts)).map Instr.literal?)) :
    foldedRuns arithmetic representable op run ts = run ++ ts := by
  induction ts generalizing run with
  | nil =>
    rw [List.append_nil, entries_of_isPlain hrun] at h
    rw [foldedRuns, foldedRun_eq_self (forallRuns_present.mp h), List.append_nil]
  | cons t ts ih =>
    cases ht : t.isPlain with
    | true =>
      rw [foldedRuns, if_pos ht, ih (isPlain_append.mpr ⟨hrun, isPlain_cons.mpr ⟨ht, rfl⟩⟩) (by simpa using h)]
      simp
    | false =>
      obtain ⟨hproducers, hl⟩ := producers_of_not_isPlain ht
      have hentries : (producers (run ++ t :: ts)).map Instr.literal? =
          (literals run).map some ++ none :: (producers ts).map Instr.literal? := by
        rw [producers_append, producers_cons t, hproducers, List.map_append, entries_of_isPlain hrun]
        simp [hl]
      rw [hentries] at h
      obtain ⟨hfirst, hrest⟩ := forallRuns_append_none.mp h
      have hnext : foldedRuns arithmetic representable op [] ts = [] ++ ts := ih rfl hrest
      rw [foldedRuns, if_neg (by simp [ht]), foldedRun_eq_self hfirst, hnext, List.nil_append]

theorem foldedRuns_nil_eq_self {ts : Forest α}
    (h : ForallRuns (Sticks arithmetic representable op) ((producers ts).map Instr.literal?)) :
    foldedRuns arithmetic representable op [] ts = ts :=
  foldedRuns_eq_self rfl h

theorem isPlain_foldedRuns {run ts : Forest α} (h : isPlain ts = false) :
    isPlain (foldedRuns arithmetic representable op run ts) = false := by
  induction ts generalizing run with
  | nil => cases h
  | cons t ts ih =>
    cases ht : t.isPlain with
    | true =>
      rw [foldedRuns, if_pos ht]
      exact ih (by simpa [isPlain, ht] using h)
    | false =>
      rw [foldedRuns, if_neg (by simp [ht])]
      simp [isPlain, ht]

/-- Folding runs produces literals only. -/
theorem apply_mem_producers_foldedRuns {run ts : Forest α} (hrun : isPlain run = true) {o : Operation}
    (h : .apply o ∈ producers (foldedRuns arithmetic representable op run ts)) : .apply o ∈ producers ts := by
  induction ts generalizing run with
  | nil =>
    rw [foldedRuns, producers_of_isPlain (isPlain_foldedRun hrun)] at h
    simp at h
  | cons t ts ih =>
    rw [producers_cons, List.mem_append]
    cases ht : t.isPlain with
    | true =>
      rw [foldedRuns, if_pos ht] at h
      exact .inr (ih (isPlain_append.mpr ⟨hrun, isPlain_cons.mpr ⟨ht, rfl⟩⟩) h)
    | false =>
      rw [foldedRuns, if_neg (by simp [ht]), producers_append, producers_cons t, List.mem_append, List.mem_append,
        producers_of_isPlain (isPlain_foldedRun hrun)] at h
      rcases h with h | h | h
      · simp at h
      · exact .inl h
      · exact .inr (ih rfl h)

section Meets

variable {Q : Operation → List (Instr α) → Prop}

theorem Meets.map_retired {ts : Forest α} (h : Meets Q ts) : Meets Q (ts.map Tree.retired) := by
  intro u hu
  obtain ⟨t, ht, rfl⟩ := List.mem_map.mp hu
  cases hl : t.literal? with
  | none =>
    rw [Tree.retired_of_none hl]
    exact h t ht
  | some x =>
    obtain rfl := Tree.literal?_eq_some.mp hl
    exact .leaf _

theorem meets_append {ts us : Forest α} : Meets Q (ts ++ us) ↔ Meets Q ts ∧ Meets Q us := by
  simp [Meets, or_imp, forall_and]

theorem meets_cons {t : Tree α} {ts : Forest α} : Meets Q (t :: ts) ↔ t.Meets Q ∧ Meets Q ts := by
  simp [Meets]

theorem meets_singleton {t : Tree α} : Meets Q [t] ↔ t.Meets Q := by
  simp [Meets]

theorem Meets.collapse {ts : Forest α} (h : Meets Q ts) (x : α) : Meets Q (collapse x ts) := by
  induction ts with
  | nil => exact h
  | cons t ts ih =>
    obtain ⟨ht, hts⟩ := meets_cons.mp h
    unfold Forest.collapse
    split
    · exact meets_cons.mpr ⟨.leaf _, hts.map_retired⟩
    · exact meets_cons.mpr ⟨ht, ih hts⟩

theorem Meets.foldedRun {run : Forest α} (h : Meets Q run) : Meets Q (foldedRun arithmetic representable op run) := by
  rcases foldedRun_cases arithmetic representable op run with heq | ⟨x, -, -, heq⟩
  · rwa [heq]
  · rw [heq]
    exact h.collapse x

theorem Meets.foldedRuns {run ts : Forest α} (hrun : Meets Q run) (hts : Meets Q ts) :
    Meets Q (foldedRuns arithmetic representable op run ts) := by
  induction ts generalizing run with
  | nil => exact hrun.foldedRun
  | cons t ts ih =>
    obtain ⟨ht, hts⟩ := meets_cons.mp hts
    unfold Forest.foldedRuns
    split
    · exact ih (meets_append.mpr ⟨hrun, meets_singleton.mpr ht⟩) hts
    · exact meets_append.mpr ⟨hrun.foldedRun, meets_cons.mpr ⟨ht, ih (by simp [Meets]) hts⟩⟩

end Meets

theorem literals_ne_nil {o : Operation} {ts : Forest α} (hplain : isPlain ts = true) (harity : count ts = o.arity) :
    literals ts ≠ [] := by
  intro hnil
  rw [count_of_isPlain hplain, hnil, Operation.arity] at harity
  cases harity

/-- An operation with folded operands is in normal form after it has been folded, if no operand is left to fuse. -/
theorem Meets.folding {o : Operation} {ts : Forest α} (h : Meets (Operation.IsNormal arithmetic representable) ts)
    (harity : count ts = o.arity) (hfused : o.IsFused (producers ts)) :
    Meets (Operation.IsNormal arithmetic representable) (folding arithmetic representable o ts) := by
  unfold Forest.folding
  split
  next hplain =>
    have hproducers := producers_of_isPlain hplain
    split
    next x hx => exact meets_append.mpr ⟨h.map_retired, meets_singleton.mpr (.leaf _)⟩
    next hx =>
      refine meets_singleton.mpr (.node ⟨hfused, fun xs hxs => ?_, fun _ hother => ?_⟩ h)
      · rw [hproducers] at hxs
        obtain rfl : literals ts = xs := List.map_injective_iff.mpr (fun _ _ => Instr.push.inj) hxs
        exact (folded?_eq_none_iff (literals_ne_nil hplain harity)).mp hx
      · obtain ⟨i, hi, hl⟩ := hother
        exact absurd hl (isPlain_iff_producers.mp hplain i hi)
  next hplain =>
    have hplain := Bool.eq_false_iff.mpr hplain
    -- An operand that is no literal remains, so the operation as a whole does not fold.
    have hwhole : ∀ {us : Forest α}, isPlain us = false → ∀ xs : List α, producers us ≠ xs.map .push := by
      intro us hus xs hxs
      obtain ⟨i, hi, hl⟩ := exists_literal?_eq_none hus
      rw [hxs] at hi
      obtain ⟨x, -, rfl⟩ := List.mem_map.mp hi
      cases hl
    split
    next hf =>
      refine meets_singleton.mpr (.node ⟨?_, fun xs hxs => ?_, fun _ _ => ?_⟩ (Meets.foldedRuns (by simp [Meets]) h))
      · intro hassoc other hother
        rw [Operation.operator_withExtra] at hassoc ⊢
        exact hfused hassoc other (apply_mem_producers_foldedRuns rfl hother)
      · exact absurd hxs (hwhole (isPlain_foldedRuns hplain) xs)
      · rw [Operation.operator_withExtra]
        exact forallRuns_foldedRuns rfl
    next hf =>
      refine meets_singleton.mpr (.node ⟨hfused, fun xs hxs => absurd hxs (hwhole hplain xs), fun hassoc => ?_⟩ h)
      rw [Operation.isFusible_eq_isAssociative] at hf
      exact absurd hassoc hf

/-- Folding only keeps operations that were there. -/
theorem apply_mem_producers_folding {o other : Operation} {ts : Forest α}
    (h : .apply other ∈ producers (folding arithmetic representable o ts)) : other.operator = o.operator := by
  rcases folding_cases arithmetic representable o ts with ⟨hplain, x, -, -, heq⟩ | ⟨-, -, heq⟩ | heq
  · rw [heq, producers_append, producers_of_isPlain (isPlain_map_retired hplain), literals_map_retired] at h
    simp [producers, Tree.isValue, Tree.root] at h
  · obtain rfl : other = _ := by simpa [heq] using h
    simp
  · obtain rfl : other = o := by simpa [heq] using h
    rfl

end Forest

section Fold

variable {P : Operator → Prop} {arithmetic : Arithmetic α} {representable : α → Bool}

theorem Forest.isFused_fold {o : Operation} {ts : Forest α} (h : o.IsFused (producers ts)) :
    o.IsFused (producers (fold arithmetic representable ts)) := by
  intro hassoc other hother
  rw [fold_eq_flatMap] at hother
  obtain ⟨t, ht, hmem⟩ := mem_producers_flatMap.mp hother
  cases t with
  | leaf i =>
    rw [Tree.fold_leaf] at hmem
    exact absurd hmem (apply_not_mem_producers_leaf i other)
  | node inner us =>
    rw [Tree.fold_node] at hmem
    rw [apply_mem_producers_folding hmem]
    exact h hassoc inner (mem_producers.mpr ⟨_, ht, rfl, rfl⟩)

/-- Folding brings trees without operands to fuse into normal form. -/
theorem Tree.Sound.meets_fold {t : Tree α} (h : t.Sound P) (hfused : t.Meets Operation.IsFused) :
    Forest.Meets (Operation.IsNormal arithmetic representable) (t.fold arithmetic representable) := by
  induction h with
  | leaf =>
    rw [fold_leaf]
    exact Forest.meets_singleton.mpr (.leaf _)
  | @node o ts _ harity _ ih =>
    obtain ⟨hfound, hoperands⟩ := meets_node.mp hfused
    rw [fold_node]
    refine .folding ?_ (by rw [Forest.count_fold, harity]) (Forest.isFused_fold hfound)
    rw [Forest.fold_eq_flatMap]
    exact Forest.meets_flatMap fun t ht => ih t ht (hoperands t ht)

theorem Forest.Sound.meets_fold {ts : Forest α} (h : Sound P ts) (hfused : Meets Operation.IsFused ts) :
    Meets (Operation.IsNormal arithmetic representable) (ts.fold arithmetic representable) := by
  rw [fold_eq_flatMap]
  exact meets_flatMap fun t ht => (h t ht).meets_fold (hfused t ht)

theorem Forest.folding_eq_self {o : Operation} {ts : Forest α} (harity : count ts = o.arity)
    (h : o.IsNormal arithmetic representable (producers ts)) :
    folding arithmetic representable o ts = [.node o ts] := by
  unfold folding
  split
  next hplain =>
    have hsticks := h.whole _ (producers_of_isPlain hplain)
    rw [(folded?_eq_none_iff (literals_ne_nil hplain harity)).mpr hsticks]
  next hplain =>
    split
    next hf =>
      rw [Operation.isFusible_eq_isAssociative] at hf
      have hruns := h.runs hf (exists_literal?_eq_none (Bool.eq_false_iff.mpr hplain))
      simp only [foldedRuns_nil_eq_self hruns, harity, Operation.arity, Nat.add_sub_cancel, Operation.withExtra_extra]
    next => rfl

theorem Forest.fold_eq_self {ts : Forest α} (h : ∀ t ∈ ts, t.fold arithmetic representable = [t]) :
    fold arithmetic representable ts = ts := by
  rw [fold_eq_flatMap, List.flatMap_congr h, List.flatMap_singleton']

theorem Tree.Sound.fold_eq_self {t : Tree α} (h : t.Sound P)
    (hnormal : t.Meets (Operation.IsNormal arithmetic representable)) : t.fold arithmetic representable = [t] := by
  induction h with
  | leaf => exact fold_leaf _
  | @node o ts _ harity _ ih =>
    obtain ⟨hfound, hoperands⟩ := meets_node.mp hnormal
    have hts : Forest.fold arithmetic representable ts = ts := Forest.fold_eq_self fun t ht => ih t ht (hoperands t ht)
    rw [fold_node, hts, Forest.folding_eq_self harity hfound]

end Fold

end StackCalc
