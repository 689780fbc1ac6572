import StackCalc.Optimize.Fold
import StackCalc.Proofs.Tracing

/-!
Folding literals. On trees, an operation on literals only is replaced by the literal of its result, and `nop` remains
in the place of its operands. An associative operation with other operands as well folds each run of literals among its
operands into the first of them; declarations between the literals do not end a run. Folding a run regroups operands,
and folding a whole operation computes its value beforehand.
-/

namespace StackCalc

variable {α : Type}

/-- Folding remembers literals. -/
def Instr.isPush : Instr α → Bool
  | .push _ => true
  | _ => false

namespace Tree

/-- The literal that a tree is. -/
def literal? : Tree α → Option α
  | .leaf (.push x) => some x
  | _ => none

/-- A tree that leaves a literal or nothing. -/
def isPlain (t : Tree α) : Bool :=
  t.literal?.isSome || !t.isValue

/-- `nop` in the place of a literal; any other tree as it is. -/
def retired : Tree α → Tree α
  | .leaf (.push _) => .leaf .nop
  | t => t

theorem literal?_eq_some {t : Tree α} {x : α} : t.literal? = some x ↔ t = .leaf (.push x) := by
  constructor
  · intro h
    match t, h with
    | .leaf (.push y), h => rw [Option.some.inj h]
  · rintro rfl
    rfl

/-- A plain tree is a literal, or it leaves nothing and is retired already. -/
theorem plain_cases {t : Tree α} (h : t.isPlain = true) :
    (∃ x, t = .leaf (.push x)) ∨ (t.literal? = none ∧ t.isValue = false ∧ t.retired = t) := by
  match t with
  | .leaf (.push x) => exact .inl ⟨x, rfl⟩
  | .leaf (.declare _) | .leaf (.apply _) | .leaf .nop => exact .inr ⟨rfl, rfl, rfl⟩

theorem literal?_of_not_isPlain {t : Tree α} (h : t.isPlain = false) : t.literal? = none ∧ t.isValue = true := by
  simpa [isPlain] using h

@[simp]
theorem isPlain_retired {t : Tree α} (h : t.isPlain = true) : t.retired.isPlain = true := by
  rcases plain_cases h with ⟨x, rfl⟩ | ⟨-, -, hr⟩
  · rfl
  · rw [hr, h]

theorem retired_of_none {t : Tree α} (h : t.literal? = none) : t.retired = t := by
  match t with
  | .leaf (.declare _) | .leaf (.fetch _) | .leaf (.apply _) | .leaf .nop | .node .. => rfl

theorem skeleton_retired (t : Tree α) : t.retired.code.skeleton = t.code.skeleton := by
  cases hl : t.literal? with
  | none => rw [retired_of_none hl]
  | some x =>
    obtain rfl := literal?_eq_some.mp hl
    simp [retired, code, Instr.named?]

theorem literal?_retired (t : Tree α) : t.retired.literal? = none := by
  cases hl : t.literal? with
  | none => rw [retired_of_none hl, hl]
  | some x =>
    obtain rfl := literal?_eq_some.mp hl
    rfl

theorem Sound.retired {P : Operator → Prop} {t : Tree α} (h : t.Sound P) : t.retired.Sound P := by
  cases hl : t.literal? with
  | none => rwa [retired_of_none hl]
  | some x =>
    obtain rfl := literal?_eq_some.mp hl
    exact sound_nop

end Tree

namespace Forest

def literals (ts : Forest α) : List α :=
  ts.filterMap Tree.literal?

def isPlain (ts : Forest α) : Bool :=
  ts.all Tree.isPlain

/-- `x` in the place of the first literal, `nop` in the place of the others. -/
def collapse (x : α) : Forest α → Forest α
  | [] => []
  | t :: ts => if t.literal?.isSome then .leaf (.push x) :: ts.map Tree.retired else t :: collapse x ts

section Fold

variable (arithmetic : Arithmetic α) (representable : α → Bool)

/-- The result of an operator on literals, if it is representable. -/
def folded? (op : Operator) (xs : List α) : Option α := do
  let x ← combine? (arithmetic op) xs
  if representable x then some x else none

/-- Folds a run of literals, if there are two or more and their result is representable. -/
def foldedRun (op : Operator) (run : Forest α) : Forest α :=
  match folded? arithmetic representable op (literals run) with
  | some x => if 2 ≤ (literals run).length then collapse x run else run
  | none => run

/-- Folds the runs of literals of a forest, after a run that is under way. -/
def foldedRuns (op : Operator) (run : Forest α) : Forest α → Forest α
  | [] => foldedRun arithmetic representable op run
  | t :: ts =>
    if t.isPlain then foldedRuns op (run ++ [t]) ts
    else foldedRun arithmetic representable op run ++ t :: foldedRuns op [] ts

/-- An operation with its literals folded: all of it, or the runs among its operands. -/
def folding (o : Operation) (ts : Forest α) : Forest α :=
  if isPlain ts then
    match folded? arithmetic representable o.operator (literals ts) with
    | some x => ts.map Tree.retired ++ [.leaf (.push x)]
    | none => [.node o ts]
  else if o.isFusible then
    let us := foldedRuns arithmetic representable o.operator [] ts
    [.node (o.withExtra (count us - 1)) us]
  else [.node o ts]

end Fold

end Forest

mutual

/-- Folds all operations of a tree. -/
def Tree.fold (arithmetic : Arithmetic α) (representable : α → Bool) : Tree α → Forest α
  | .leaf i => [.leaf i]
  | .node o ts => Forest.folding arithmetic representable o (Forest.fold arithmetic representable ts)

def Forest.fold (arithmetic : Arithmetic α) (representable : α → Bool) : Forest α → Forest α
  | [] => []
  | t :: ts => t.fold arithmetic representable ++ Forest.fold arithmetic representable ts

end

namespace Forest

variable {P : Operator → Prop} {arithmetic : Arithmetic α} {representable : α → Bool}

theorem fold_eq_flatMap (ts : Forest α) :
    fold arithmetic representable ts = ts.flatMap (Tree.fold arithmetic representable) := by
  induction ts with
  | nil => rw [fold]; rfl
  | cons t ts ih => rw [fold, ih]; rfl

@[simp]
theorem fold_append (ts us : Forest α) :
    fold arithmetic representable (ts ++ us) =
      fold arithmetic representable ts ++ fold arithmetic representable us := by
  simp [fold_eq_flatMap]

@[simp]
theorem fold_singleton (t : Tree α) : fold arithmetic representable [t] = t.fold arithmetic representable := by
  simp [fold_eq_flatMap]

theorem literals_cons_push (x : α) (ts : Forest α) : literals (.leaf (.push x) :: ts) = x :: literals ts := rfl

theorem literals_cons_of_none {t : Tree α} (h : t.literal? = none) (ts : Forest α) :
    literals (t :: ts) = literals ts := by
  simp [literals, h]

theorem isPlain_cons {t : Tree α} {ts : Forest α} :
    isPlain (t :: ts) = true ↔ t.isPlain = true ∧ isPlain ts = true := by
  simp [isPlain]

theorem isPlain_append {ts us : Forest α} : isPlain (ts ++ us) = true ↔ isPlain ts = true ∧ isPlain us = true := by
  simp [isPlain]

theorem isPlain_map_retired {ts : Forest α} (h : isPlain ts = true) : isPlain (ts.map Tree.retired) = true := by
  simp only [isPlain, List.all_map, List.all_eq_true] at h ⊢
  intro t ht
  exact Tree.isPlain_retired (h t ht)

theorem literals_map_retired (ts : Forest α) : literals (ts.map Tree.retired) = [] := by
  rw [literals, List.filterMap_eq_nil_iff]
  intro u hu
  obtain ⟨t, -, rfl⟩ := List.mem_map.mp hu
  exact t.literal?_retired

theorem map_retired_map_retired (ts : Forest α) : (ts.map Tree.retired).map Tree.retired = ts.map Tree.retired := by
  rw [List.map_map]
  refine List.map_congr_left fun t _ => ?_
  exact Tree.retired_of_none t.literal?_retired

theorem count_of_isPlain {ts : Forest α} (h : isPlain ts = true) : count ts = (literals ts).length := by
  induction ts with
  | nil => rfl
  | cons t ts ih =>
    obtain ⟨ht, hts⟩ := isPlain_cons.mp h
    rcases Tree.plain_cases ht with ⟨x, rfl⟩ | ⟨hl, hv, -⟩
    · rw [count_cons, literals_cons_push, List.length_cons, ih hts, Nat.add_comm]
      rfl
    · simp [hv, literals_cons_of_none hl, ih hts]

theorem skeleton_map_retired (ts : Forest α) : (code (ts.map Tree.retired)).skeleton = (code ts).skeleton := by
  rw [List.map_eq_flatMap]
  exact skeleton_flatMap fun t _ => by simpa using t.skeleton_retired

theorem Sound.map_retired {ts : Forest α} (h : Sound P ts) : Sound P (ts.map Tree.retired) := by
  intro u hu
  obtain ⟨t, ht, rfl⟩ := List.mem_map.mp hu
  exact (h t ht).retired

theorem folded?_eq_some {op : Operator} {xs : List α} {x : α} :
    folded? arithmetic representable op xs = some x ↔
      combine? (arithmetic op) xs = some x ∧ representable x = true := by
  simp only [folded?, Option.bind_eq_bind, Option.bind_eq_some_iff, Option.ite_none_right_eq_some, Option.some.injEq]
  constructor
  · rintro ⟨y, hy, hr, rfl⟩
    exact ⟨hy, hr⟩
  · rintro ⟨hx, hr⟩
    exact ⟨x, hx, hr, rfl⟩

/-! ### Collapsing a run -/

theorem collapse_cons_push (x y : α) (ts : Forest α) :
    collapse x (.leaf (.push y) :: ts) = .leaf (.push x) :: ts.map Tree.retired := rfl

theorem collapse_cons_of_none {t : Tree α} (h : t.literal? = none) (x : α) (ts : Forest α) :
    collapse x (t :: ts) = t :: collapse x ts := by
  simp [collapse, h]

theorem isPlain_collapse {ts : Forest α} (h : isPlain ts = true) (x : α) : isPlain (collapse x ts) = true := by
  induction ts with
  | nil => rfl
  | cons t ts ih =>
    obtain ⟨ht, hts⟩ := isPlain_cons.mp h
    rcases Tree.plain_cases ht with ⟨y, rfl⟩ | ⟨hl, -, -⟩
    · rw [collapse_cons_push]
      exact isPlain_cons.mpr ⟨rfl, isPlain_map_retired hts⟩
    · rw [collapse_cons_of_none hl]
      exact isPlain_cons.mpr ⟨ht, ih hts⟩

theorem literals_collapse {ts : Forest α} (h : literals ts ≠ []) (x : α) : literals (collapse x ts) = [x] := by
  induction ts with
  | nil => exact absurd rfl h
  | cons t ts ih =>
    cases hl : t.literal? with
    | some y =>
      obtain rfl := Tree.literal?_eq_some.mp hl
      rw [collapse_cons_push, literals_cons_push, literals_map_retired]
    | none =>
      rw [literals_cons_of_none hl] at h
      rw [collapse_cons_of_none hl, literals_cons_of_none hl, ih h]

theorem map_retired_collapse (x : α) (ts : Forest α) : (collapse x ts).map Tree.retired = ts.map Tree.retired := by
  induction ts with
  | nil => rfl
  | cons t ts ih =>
    cases hl : t.literal? with
    | some y =>
      obtain rfl := Tree.literal?_eq_some.mp hl
      rw [collapse_cons_push, List.map_cons, map_retired_map_retired]
      rfl
    | none => rw [collapse_cons_of_none hl, List.map_cons, List.map_cons, ih]

theorem Sound.collapse {ts : Forest α} (h : Sound P ts) (x : α) : Sound P (collapse x ts) := by
  induction ts with
  | nil => exact sound_nil
  | cons t ts ih =>
    obtain ⟨ht, hts⟩ := sound_cons.mp h
    unfold Forest.collapse
    split
    · exact sound_cons.mpr ⟨Tree.sound_push x, hts.map_retired⟩
    · exact sound_cons.mpr ⟨ht, ih hts⟩

theorem skeleton_collapse (x : α) (ts : Forest α) : (code (collapse x ts)).skeleton = (code ts).skeleton := by
  rw [← skeleton_map_retired, map_retired_collapse, skeleton_map_retired]

/-- What folding a run does: it stays as it is, or it collapses to the result of its literals. -/
theorem foldedRun_cases (arithmetic : Arithmetic α) (representable : α → Bool) (op : Operator) (run : Forest α) :
    foldedRun arithmetic representable op run = run ∨
      ∃ x, combine? (arithmetic op) (literals run) = some x ∧ literals run ≠ [] ∧
        foldedRun arithmetic representable op run = collapse x run := by
  unfold foldedRun
  split
  next x hx =>
    split
    next hlength =>
      exact .inr ⟨x, (folded?_eq_some.mp hx).1, fun h => by simp [h] at hlength, rfl⟩
    next => exact .inl rfl
  next => exact .inl rfl

theorem Sound.foldedRun {run : Forest α} (h : Sound P run) (op : Operator) :
    Sound P (foldedRun arithmetic representable op run) := by
  rcases foldedRun_cases arithmetic representable op run with heq | ⟨x, -, -, heq⟩
  · rwa [heq]
  · rw [heq]
    exact h.collapse x

theorem count_foldedRun_pos {op : Operator} {run : Forest α} (h : isPlain run = true) (hpos : 0 < count run) :
    0 < count (foldedRun arithmetic representable op run) := by
  rcases foldedRun_cases arithmetic representable op run with heq | ⟨x, -, hne, heq⟩
  · rwa [heq]
  · rw [heq, count_of_isPlain (isPlain_collapse h x), literals_collapse hne]
    exact Nat.zero_lt_one

theorem skeleton_foldedRun (op : Operator) (run : Forest α) :
    (code (foldedRun arithmetic representable op run)).skeleton = (code run).skeleton := by
  rcases foldedRun_cases arithmetic representable op run with heq | ⟨x, -, -, heq⟩
  · rw [heq]
  · rw [heq, skeleton_collapse]

theorem length_code_foldedRun (op : Operator) (run : Forest α) :
    (code (foldedRun arithmetic representable op run)).length = (code run).length := by
  simpa using congrArg List.length (skeleton_foldedRun op run)

theorem skeleton_foldedRuns (op : Operator) (run ts : Forest α) :
    (code (foldedRuns arithmetic representable op run ts)).skeleton = (code (run ++ ts)).skeleton := by
  induction ts generalizing run with
  | nil => rw [foldedRuns, skeleton_foldedRun, List.append_nil]
  | cons t ts ih =>
    unfold foldedRuns
    split
    · rw [ih, List.append_assoc, List.singleton_append]
    · simp [skeleton_foldedRun, ih]

theorem Sound.foldedRuns {run ts : Forest α} (hrun : Sound P run) (hts : Sound P ts) (op : Operator) :
    Sound P (foldedRuns arithmetic representable op run ts) := by
  induction ts generalizing run with
  | nil => exact hrun.foldedRun op
  | cons t ts ih =>
    obtain ⟨ht, hts⟩ := sound_cons.mp hts
    unfold Forest.foldedRuns
    split
    · exact ih (sound_append.mpr ⟨hrun, sound_singleton.mpr ht⟩) hts
    · exact sound_append.mpr ⟨hrun.foldedRun op, sound_cons.mpr ⟨ht, ih sound_nil hts⟩⟩

theorem count_foldedRuns_pos {op : Operator} {run ts : Forest α} (hrun : isPlain run = true)
    (hpos : 0 < count (run ++ ts)) : 0 < count (foldedRuns arithmetic representable op run ts) := by
  induction ts generalizing run with
  | nil => exact count_foldedRun_pos hrun (by simpa using hpos)
  | cons t ts ih =>
    unfold foldedRuns
    split
    next ht =>
      refine ih (isPlain_append.mpr ⟨hrun, isPlain_cons.mpr ⟨ht, rfl⟩⟩) ?_
      rwa [List.append_assoc]
    next ht =>
      rw [count_append, count_cons, (Tree.literal?_of_not_isPlain (Bool.eq_false_iff.mpr ht)).2, if_pos rfl]
      omega

/-- What folding an operation does: it becomes a literal, or one operation remains. -/
theorem folding_cases (arithmetic : Arithmetic α) (representable : α → Bool) (o : Operation) (ts : Forest α) :
    (isPlain ts = true ∧ ∃ x, combine? (arithmetic o.operator) (literals ts) = some x ∧ representable x = true ∧
        folding arithmetic representable o ts = ts.map Tree.retired ++ [.leaf (.push x)]) ∨
      (isPlain ts = false ∧ o.isFusible = true ∧
        folding arithmetic representable o ts =
          [.node (o.withExtra (count (foldedRuns arithmetic representable o.operator [] ts) - 1))
            (foldedRuns arithmetic representable o.operator [] ts)]) ∨
      folding arithmetic representable o ts = [.node o ts] := by
  unfold folding
  split
  next hplain =>
    split
    next x hx =>
      obtain ⟨hcombine, hr⟩ := folded?_eq_some.mp hx
      exact .inl ⟨hplain, x, hcombine, hr, rfl⟩
    next => exact .inr (.inr rfl)
  next hplain =>
    split
    next hf => exact .inr (.inl ⟨Bool.eq_false_iff.mpr hplain, hf, rfl⟩)
    next => exact .inr (.inr rfl)

theorem count_folding (o : Operation) (ts : Forest α) : count (folding arithmetic representable o ts) = 1 := by
  rcases folding_cases arithmetic representable o ts with ⟨hplain, x, -, -, heq⟩ | ⟨-, -, heq⟩ | heq
  · rw [heq, count_append, count_of_isPlain (isPlain_map_retired hplain), literals_map_retired]
    rfl
  · rw [heq]; rfl
  · rw [heq]; rfl

theorem skeleton_folding (o : Operation) (ts : Forest α) :
    (code (folding arithmetic representable o ts)).skeleton = (Tree.node o ts).code.skeleton := by
  rcases folding_cases arithmetic representable o ts with ⟨-, x, -, -, heq⟩ | ⟨-, -, heq⟩ | heq
  · simp [heq, skeleton_map_retired, Tree.code, Instr.named?]
  · simp [heq, skeleton_foldedRuns, Tree.code, Instr.named?]
  · simp [heq]

theorem Sound.folding {o : Operation} {ts : Forest α} (ho : P o.operator) (harity : count ts = o.arity)
    (h : Sound P ts) : Sound P (folding arithmetic representable o ts) := by
  rcases folding_cases arithmetic representable o ts with ⟨-, x, -, -, heq⟩ | ⟨-, hf, heq⟩ | heq
  · rw [heq]
    exact sound_append.mpr ⟨h.map_retired, sound_singleton.mpr (Tree.sound_push x)⟩
  · have hpos : 0 < count (Forest.foldedRuns arithmetic representable o.operator [] ts) :=
      count_foldedRuns_pos rfl (by simp [harity, Operation.arity])
    rw [heq]
    refine sound_singleton.mpr (.node (by simpa using ho) ?_ (sound_nil.foldedRuns h o.operator))
    rw [Operation.arity, Operation.extra_withExtra (Operation.isVariadic_of_isFusible hf)]
    omega
  · rw [heq]
    exact sound_singleton.mpr (.node ho harity h)

end Forest

section Fold

variable {P : Operator → Prop} {arithmetic : Arithmetic α} {representable : α → Bool}

@[simp]
theorem Tree.fold_leaf (i : Instr α) : (Tree.leaf i).fold arithmetic representable = [.leaf i] := by rw [fold]

theorem Tree.fold_node (o : Operation) (ts : Forest α) :
    (Tree.node o ts).fold arithmetic representable =
      Forest.folding arithmetic representable o (Forest.fold arithmetic representable ts) := by
  rw [fold]

theorem Tree.count_fold (t : Tree α) :
    Forest.count (t.fold arithmetic representable) = if t.isValue then 1 else 0 := by
  cases t with
  | leaf i => simp
  | node o ts => rw [fold_node, Forest.count_folding]; rfl

@[simp]
theorem Forest.count_fold (ts : Forest α) : count (fold arithmetic representable ts) = count ts := by
  rw [fold_eq_flatMap]
  induction ts with
  | nil => rfl
  | cons t ts ih => rw [List.flatMap_cons, count_append, Tree.count_fold, ih, count_cons]

theorem Forest.sound_flatMap {f : Tree α → Forest α} {ts : Forest α} (h : ∀ t ∈ ts, Sound P (f t)) :
    Sound P (ts.flatMap f) := by
  intro u hu
  obtain ⟨t, ht, hu⟩ := List.mem_flatMap.mp hu
  exact h t ht u hu

theorem Tree.Sound.fold {t : Tree α} (h : t.Sound P) : Forest.Sound P (t.fold arithmetic representable) := by
  induction h with
  | leaf h => rw [fold_leaf]; exact Forest.sound_singleton.mpr (.leaf h)
  | @node o ts ho harity _ ih =>
    rw [fold_node]
    refine .folding ho (by rw [Forest.count_fold, harity]) ?_
    rw [Forest.fold_eq_flatMap]
    exact Forest.sound_flatMap ih

theorem Forest.Sound.fold {ts : Forest α} (h : Sound P ts) : Sound P (ts.fold arithmetic representable) := by
  rw [fold_eq_flatMap]
  exact sound_flatMap fun t ht => (h t ht).fold

theorem Tree.Sound.skeleton_fold {t : Tree α} (h : t.Sound P) :
    (Forest.code (t.fold arithmetic representable)).skeleton = t.code.skeleton := by
  induction h with
  | leaf => simp
  | @node o ts _ _ _ ih =>
    have hts : (Forest.code (Forest.fold arithmetic representable ts)).skeleton = (Forest.code ts).skeleton := by
      rw [Forest.fold_eq_flatMap]
      exact Forest.skeleton_flatMap ih
    rw [fold_node, Forest.skeleton_folding, code, code, Program.skeleton_append, Program.skeleton_append, hts]

theorem Forest.Sound.skeleton_fold {ts : Forest α} (h : Sound P ts) :
    (code (ts.fold arithmetic representable)).skeleton = (code ts).skeleton := by
  rw [fold_eq_flatMap]
  exact skeleton_flatMap fun t ht => (h t ht).skeleton_fold

end Fold

/-! ### Folding keeps the values -/

section Eval

variable {P : Operator → Prop} {arithmetic : Arithmetic α} {representable : α → Bool} {resolve : Resolver α}

namespace Forest

/-- A forest that leaves literals only yields them, after the declarations among them. -/
theorem Sound.eval_plain {ts : Forest α} (h : Sound P ts) (hplain : isPlain ts = true) (bound : List (String × α)) :
    eval arithmetic resolve bound ts =
      (eval arithmetic resolve bound (ts.map Tree.retired)).bind fun y => .done ⟨literals ts, y.bound⟩ := by
  induction ts generalizing bound with
  | nil => rfl
  | cons t ts ih =>
    obtain ⟨ht, hts⟩ := sound_cons.mp h
    obtain ⟨htplain, htsplain⟩ := isPlain_cons.mp hplain
    rcases Tree.plain_cases htplain with ⟨x, rfl⟩ | ⟨hl, hv, hretired⟩
    · rw [literals_cons_push, List.map_cons, Tree.retired, eval_cons, eval_cons, Tree.eval_leaf, Tree.eval_leaf,
        Machine.perform_push, Machine.perform_nop]
      simp only [Run.done_bind, ih hts htsplain, Run.bind_assoc]
      rfl
    · rw [List.map_cons, hretired, literals_cons_of_none hl, eval_cons, eval_cons, Run.bind_assoc]
      refine Run.bind_congr fun y hy => ?_
      have hempty : y.values = [] := by
        have hlength := ht.runs.length hy
        rw [hv] at hlength
        exact List.eq_nil_of_length_eq_zero hlength
      simp only [ih hts htsplain, Run.bind_assoc, Run.done_bind, hempty, List.nil_append]

theorem Sound.values_map_retired {ts : Forest α} (h : Sound P ts) (hplain : isPlain ts = true)
    {bound : List (String × α)} {y : Yield α}
    (hy : (eval arithmetic resolve bound (ts.map Tree.retired)).result = .ok y) : y.values = [] := by
  have hlength := length_values (fun t ht => (h.map_retired t ht).runs) hy
  rw [count_of_isPlain (isPlain_map_retired hplain), literals_map_retired] at hlength
  exact List.eq_nil_of_length_eq_zero hlength

section Assoc

variable {op : Operator} (hop : Std.Associative (arithmetic op))
include hop

theorem regroups_collapse {run : Forest α} (h : Sound P run) (hplain : isPlain run = true) {x : α}
    (hx : combine? (arithmetic op) (literals run) = some x) (hne : literals run ≠ []) :
    Regroups arithmetic resolve (arithmetic op) (collapse x run) run := by
  intro bound
  rw [(h.collapse x).eval_plain (isPlain_collapse hplain x), h.eval_plain hplain, map_retired_collapse,
    literals_collapse hne]
  refine (Run.Similar.rfl' (R := Eq) (fun _ => rfl) (fun _ => rfl) _).bind ?_
  rintro y _ rfl
  refine .done ⟨?_, rfl⟩
  have hcombine := Regroups.combine hop (literals run)
  rw [hx] at hcombine
  exact hcombine.symm

theorem regroups_foldedRun {run : Forest α} (h : Sound P run) (hplain : isPlain run = true) :
    Regroups arithmetic resolve (arithmetic op) (foldedRun arithmetic representable op run) run := by
  rcases foldedRun_cases arithmetic representable op run with heq | ⟨x, hx, hne, heq⟩
  · rw [heq]
    exact .refl _
  · rw [heq]
    exact regroups_collapse hop h hplain hx hne

theorem regroups_foldedRuns {run ts : Forest α} (hrun : Sound P run) (hplain : isPlain run = true)
    (hts : Sound P ts) :
    Regroups arithmetic resolve (arithmetic op) (foldedRuns arithmetic representable op run ts) (run ++ ts) := by
  induction ts generalizing run with
  | nil =>
    rw [foldedRuns, List.append_nil]
    exact regroups_foldedRun hop hrun hplain
  | cons t ts ih =>
    obtain ⟨ht, hts⟩ := sound_cons.mp hts
    unfold foldedRuns
    split
    next htplain =>
      have hnext := ih (sound_append.mpr ⟨hrun, sound_singleton.mpr ht⟩)
        (isPlain_append.mpr ⟨hplain, isPlain_cons.mpr ⟨htplain, rfl⟩⟩) hts
      rwa [List.append_assoc] at hnext
    next =>
      have hrest : Regroups arithmetic resolve (arithmetic op)
          ([t] ++ foldedRuns arithmetic representable op [] ts) ([t] ++ ts) :=
        (Regroups.refl [t]).append (ih sound_nil rfl hts)
      exact (regroups_foldedRun hop hrun hplain).append hrest

end Assoc

/-- A folded operation yields what the operation yields, if folding the runs among its operands does not change that. -/
theorem eval_folding_of_runs {o : Operation} {ts : Forest α} (h : Sound P ts) (bound : List (String × α))
    (hruns : o.isFusible = true →
      (Tree.node o (foldedRuns arithmetic representable o.operator [] ts)).eval arithmetic resolve bound =
        (Tree.node o ts).eval arithmetic resolve bound) :
    eval arithmetic resolve bound (folding arithmetic representable o ts) =
      (Tree.node o ts).eval arithmetic resolve bound := by
  rcases folding_cases arithmetic representable o ts with ⟨hplain, x, hx, -, heq⟩ | ⟨-, hf, heq⟩ | heq
  · rw [heq, eval_append, Tree.eval_node, h.eval_plain hplain, Run.bind_assoc]
    refine Run.bind_congr fun y hy => ?_
    rw [h.values_map_retired hplain hy, eval_singleton, Tree.eval_leaf, Machine.perform_push]
    simp only [Run.done_bind, hx]
    rfl
  · rw [heq, eval_singleton, ← hruns hf, Tree.eval_node, Tree.eval_node, Operation.operator_withExtra]
  · rw [heq, eval_singleton]

/-- Only the folding of runs needs the operator to be associative. -/
theorem eval_folding {o : Operation} (ho : o.isFusible = true → Std.Associative (arithmetic o.operator))
    {ts : Forest α} (h : Sound P ts) (bound : List (String × α)) :
    eval arithmetic resolve bound (folding arithmetic representable o ts) =
      (Tree.node o ts).eval arithmetic resolve bound :=
  eval_folding_of_runs h bound fun hf => (regroups_foldedRuns (ho hf) sound_nil rfl h).eval_node rfl bound

end Forest

variable (hassoc : ∀ op, P op → op.isFusible = true → Std.Associative (arithmetic op))
include hassoc

theorem Tree.Sound.eval_fold {t : Tree α} (h : t.Sound P) (bound : List (String × α)) :
    Forest.eval arithmetic resolve bound (t.fold arithmetic representable) = t.eval arithmetic resolve bound := by
  induction h generalizing bound with
  | leaf h => rw [fold_leaf, Forest.eval_singleton]
  | @node o ts hop _ hts ih =>
    have hts : Forest.Sound P ts := hts
    rw [fold_node, Forest.eval_folding (hassoc o.operator hop) hts.fold, eval_node, eval_node, Forest.fold_eq_flatMap,
      Forest.eval_flatMap arithmetic resolve ih]

theorem Forest.Sound.eval_fold {ts : Forest α} (h : Sound P ts) (bound : List (String × α)) :
    eval arithmetic resolve bound (ts.fold arithmetic representable) = eval arithmetic resolve bound ts := by
  rw [fold_eq_flatMap]
  exact eval_flatMap arithmetic resolve (fun t ht bound => (h t ht).eval_fold hassoc bound) bound

end Eval

end StackCalc
