import StackCalc.Optimize.Fuse
import StackCalc.Proofs.Tracing

/-!
Fusing equal operators. On trees, an associative operator takes the operands of every equal operator among its own
operands in the place of that operator; a `nop` remains where the operator stood. If the operator's function is
associative, this only regroups its operands. Merging neighbours does the same to two operations that follow each other
directly, and since it does not look at the stack, it also applies to programs that lack operands; then both programs
lack operands at the same place, but not by the same number.
-/

namespace StackCalc

variable {α : Type}

namespace Tree

/-- The operands of a tree that is the operator `op`, in its place; any other tree as it is. -/
def opened (op : Operator) : Tree α → Forest α
  | .node o ts => if o.operator = op then ts ++ [.leaf .nop] else [.node o ts]
  | .leaf i => [.leaf i]

/-- An operation that takes over the operands of equal operations among its operands, if it is associative. -/
def fusing (o : Operation) (ts : Forest α) : Tree α :=
  if o.isFusible then
    .node (o.withExtra (Forest.count (ts.flatMap (opened o.operator)) - 1)) (ts.flatMap (opened o.operator))
  else .node o ts

end Tree

mutual

/-- Fuses all operations of a tree. -/
def Tree.fuse : Tree α → Tree α
  | .leaf i => .leaf i
  | .node o ts => .fusing o (Forest.fuse ts)

def Forest.fuse : Forest α → Forest α
  | [] => []
  | t :: ts => t.fuse :: Forest.fuse ts

end

/-- Fusing remembers associative operators. -/
def Instr.isFusible : Instr α → Bool
  | .apply o => o.isFusible
  | _ => false

namespace Tree

variable {P : Operator → Prop}

@[simp]
theorem fuse_leaf (i : Instr α) : (Tree.leaf i).fuse = .leaf i := by rw [fuse]

@[simp]
theorem fuse_node (o : Operation) (ts : Forest α) : (Tree.node o ts).fuse = .fusing o (Forest.fuse ts) := by rw [fuse]

theorem opened_of_ne {op : Operator} {o : Operation} (h : o.operator ≠ op) (ts : Forest α) :
    (Tree.node o ts).opened op = [.node o ts] :=
  if_neg h

theorem opened_of_eq {op : Operator} {o : Operation} (h : o.operator = op) (ts : Forest α) :
    (Tree.node o ts).opened op = ts ++ [.leaf .nop] :=
  if_pos h

theorem skeleton_opened (op : Operator) (t : Tree α) : (Forest.code (t.opened op)).skeleton = t.code.skeleton := by
  cases t with
  | leaf i => simp [opened]
  | node o ts =>
    by_cases h : o.operator = op
    · simp [opened_of_eq h, code, Instr.named?]
    · simp [opened_of_ne h]

theorem length_code_opened (op : Operator) (t : Tree α) : (Forest.code (t.opened op)).length = t.code.length := by
  simpa using congrArg List.length (t.skeleton_opened op)

theorem skeleton_fusing (o : Operation) (ts : Forest α) :
    (fusing o ts).code.skeleton = (Tree.node o ts).code.skeleton := by
  unfold fusing
  split
  · simp [code, Forest.skeleton_flatMap fun t _ => t.skeleton_opened o.operator, Instr.named?]
  · rfl

@[simp]
theorem isValue_fusing (o : Operation) (ts : Forest α) : (fusing o ts).isValue = true := by
  unfold fusing
  split <;> rfl

@[simp]
theorem isValue_fuse (t : Tree α) : t.fuse.isValue = t.isValue := by
  cases t <;> simp

theorem Sound.opened {t : Tree α} (h : t.Sound P) (op : Operator) : Forest.Sound P (t.opened op) := by
  cases h with
  | leaf h => exact Forest.sound_singleton.mpr (.leaf h)
  | @node o ts hop harity hts =>
    by_cases ho : o.operator = op
    · rw [opened_of_eq ho]
      exact Forest.sound_append.mpr ⟨hts, Forest.sound_singleton.mpr sound_nop⟩
    · rw [opened_of_ne ho]
      exact Forest.sound_singleton.mpr (.node hop harity hts)

/-- A tree in whose place its operands stand leaves at least one value, if it left one. -/
theorem Sound.isValue_le_count_opened {t : Tree α} (h : t.Sound P) (op : Operator) :
    (if t.isValue then 1 else 0) ≤ Forest.count (t.opened op) := by
  cases h with
  | leaf h => simp [Tree.opened]
  | @node o ts _ harity _ =>
    by_cases ho : o.operator = op
    · simp [opened_of_eq ho, harity, Operation.arity, isValue]
    · simp [opened_of_ne ho]

end Tree

namespace Forest

variable {P : Operator → Prop}

theorem fuse_eq_map (ts : Forest α) : fuse ts = ts.map Tree.fuse := by
  induction ts with
  | nil => rw [fuse]; rfl
  | cons t ts ih => rw [fuse, ih]; rfl

@[simp]
theorem fuse_append (ts us : Forest α) : fuse (ts ++ us) = fuse ts ++ fuse us := by
  simp [fuse_eq_map]

@[simp]
theorem fuse_singleton (t : Tree α) : fuse [t] = [t.fuse] := by
  simp [fuse_eq_map]

@[simp]
theorem count_fuse (ts : Forest α) : count (fuse ts) = count ts := by
  rw [fuse_eq_map, count, count, List.countP_map]
  congr 1
  funext t
  exact t.isValue_fuse

theorem Sound.flatMap_opened {ts : Forest α} (h : Sound P ts) (op : Operator) :
    Sound P (ts.flatMap (Tree.opened op)) := by
  intro u hu
  obtain ⟨t, ht, hu⟩ := List.mem_flatMap.mp hu
  exact (h t ht).opened op u hu

theorem Sound.count_le_count_flatMap_opened {ts : Forest α} (h : Sound P ts) (op : Operator) :
    count ts ≤ count (ts.flatMap (Tree.opened op)) := by
  induction ts with
  | nil => simp
  | cons t ts ih =>
    obtain ⟨ht, hts⟩ := sound_cons.mp h
    rw [List.flatMap_cons, count_append, count_cons]
    exact Nat.add_le_add (ht.isValue_le_count_opened op) (ih hts)

end Forest

theorem Tree.Sound.fusing {P : Operator → Prop} {o : Operation} {ts : Forest α} (ho : P o.operator)
    (harity : Forest.count ts = o.arity) (h : Forest.Sound P ts) : (Tree.fusing o ts).Sound P := by
  unfold Tree.fusing
  split
  next hf =>
    have hle := h.count_le_count_flatMap_opened o.operator
    refine .node (by simpa using ho) ?_ (h.flatMap_opened o.operator)
    rw [Operation.arity, Operation.extra_withExtra (Operation.isVariadic_of_isFusible hf)]
    rw [harity, Operation.arity] at hle
    omega
  next => exact .node ho harity h

theorem Tree.Sound.fuse {P : Operator → Prop} {t : Tree α} (h : t.Sound P) : t.fuse.Sound P := by
  induction h with
  | leaf h => rw [fuse_leaf]; exact .leaf h
  | @node o ts ho harity _ ih =>
    rw [fuse_node]
    refine .fusing ho (by rw [Forest.count_fuse, harity]) ?_
    rw [Forest.fuse_eq_map]
    rintro u hu
    obtain ⟨t, ht, rfl⟩ := List.mem_map.mp hu
    exact ih t ht

theorem Tree.Sound.skeleton_fuse {P : Operator → Prop} {t : Tree α} (h : t.Sound P) :
    t.fuse.code.skeleton = t.code.skeleton := by
  induction h with
  | leaf => rw [fuse_leaf]
  | @node o ts _ _ _ ih =>
    have hts : (Forest.code (Forest.fuse ts)).skeleton = (Forest.code ts).skeleton := by
      rw [Forest.fuse_eq_map, List.map_eq_flatMap]
      exact Forest.skeleton_flatMap fun t ht => by simpa using ih t ht
    rw [fuse_node, skeleton_fusing, code, code, Program.skeleton_append, Program.skeleton_append, hts]

theorem Forest.Sound.skeleton_fuse {P : Operator → Prop} {ts : Forest α} (h : Sound P ts) :
    (code ts.fuse).skeleton = (code ts).skeleton := by
  rw [fuse_eq_map, List.map_eq_flatMap]
  exact skeleton_flatMap fun t ht => by simpa using (h t ht).skeleton_fuse

theorem Forest.Sound.fuse {P : Operator → Prop} {ts : Forest α} (h : Sound P ts) : Sound P ts.fuse := by
  rw [fuse_eq_map]
  intro u hu
  obtain ⟨t, ht, rfl⟩ := List.mem_map.mp hu
  exact (h t ht).fuse

/-! ### The pass follows the trees -/

namespace Draft

open Forest

variable {P : Operator → Prop} {op : Operator}

/-- Taking over the entry of a tree opens it, and adds the operands that are gained. -/
theorem foldl_absorb_slot (hop : op.isFusible = true) {t : Tree α} (ht : t.Sound P) {d : Draft α}
    (before after : Program α) (hd : d.code.toList = before ++ t.code ++ after) (extra : Nat) :
    ∃ d' extra', (t.slot Instr.isFusible before.length).foldl (absorb op) (d, extra) = (d', extra') ∧
      d'.code.toList = before ++ Forest.code (t.opened op) ++ after ∧
      extra' + (if t.isValue then 1 else 0) = extra + count (t.opened op) := by
  cases ht with
  | @leaf i h =>
    have hkeep : (Tree.leaf i).root.isFusible = false := by cases i <;> simp_all [Tree.root, Instr.isFusible]
    refine ⟨d, extra, ?_, by simpa [Tree.opened] using hd, by simp [Tree.opened]⟩
    simp only [Tree.slot, hkeep]
    split <;> rfl
  | @node o ts _ harity _ =>
    by_cases hkeep : o.isFusible = true
    · have hget := getElem?_root hd
      by_cases ho : o.operator = op
      · refine ⟨d.revise (before.length + (Tree.node o ts).front.length) .nop, extra + o.extra, ?_, ?_, ?_⟩
        · simp [Tree.slot, Tree.root, Instr.isFusible, hkeep, absorb, hget, ho]
        · rw [code_revise_root hd]
          simp [Tree.opened_of_eq ho, Tree.front, Tree.code]
        · simp [Tree.opened_of_eq ho, harity, Operation.arity, Tree.isValue]
          omega
      · refine ⟨d, extra, ?_, by simpa [Tree.opened_of_ne ho] using hd, by simp [Tree.opened_of_ne ho]⟩
        simp [Tree.slot, Tree.root, Instr.isFusible, hkeep, absorb, hget, ho]
    · have ho : o.operator ≠ op := by
        rintro rfl
        exact hkeep hop
      refine ⟨d, extra, ?_, by simpa [Tree.opened_of_ne ho] using hd, by simp [Tree.opened_of_ne ho]⟩
      simp [Tree.slot, Tree.root, Instr.isFusible, hkeep, absorb]

theorem foldl_absorb_slots (hop : op.isFusible = true) {ts : Forest α} (hts : Sound P ts) {d : Draft α}
    (before after : Program α) (hd : d.code.toList = before ++ Forest.code ts ++ after) (extra : Nat) :
    ∃ d' extra', (slots Instr.isFusible before.length ts).foldl (absorb op) (d, extra) = (d', extra') ∧
      d'.code.toList = before ++ Forest.code (ts.flatMap (Tree.opened op)) ++ after ∧
      extra' + count ts = extra + count (ts.flatMap (Tree.opened op)) := by
  induction ts generalizing d before extra with
  | nil => exact ⟨d, extra, rfl, by simpa using hd, by simp⟩
  | cons t ts ih =>
    obtain ⟨ht, hts⟩ := sound_cons.mp hts
    obtain ⟨d₁, extra₁, hfold₁, hcode₁, hextra₁⟩ :=
      foldl_absorb_slot hop ht before (Forest.code ts ++ after) (by simpa using hd) extra
    -- Opening a tree keeps the length of its code, so the entries after it still tell the right positions.
    have hlength : (before ++ Forest.code (t.opened op)).length = before.length + t.code.length := by
      rw [List.length_append, Tree.length_code_opened]
    obtain ⟨d₂, extra₂, hfold₂, hcode₂, hextra₂⟩ :=
      ih hts (before ++ Forest.code (t.opened op)) (by simpa using hcode₁) extra₁
    refine ⟨d₂, extra₂, ?_, by simpa using hcode₂, ?_⟩
    · rw [slots_cons, List.foldl_append, hfold₁, ← hlength, hfold₂]
    · rw [List.flatMap_cons, count_append, count_cons]
      omega

theorem follows_fuseStep : Follows Instr.isFusible (fuseStep (α := α)) Forest.fuse where
  nil := by simp [fuse_eq_map]
  some := by
    intro d ts us i hts hd hi
    cases i with
    | apply o =>
      obtain ⟨below, operands, rfl, harity, rfl⟩ := extend?_apply hi
      rw [fuse_append] at hd
      have hpop := hd.pop
      rw [count_fuse, harity] at hpop
      by_cases hf : o.isFusible = true
      · have hcode : d.code.toList = Forest.code (fuse below) ++ Forest.code (fuse operands) ++ [] := by
          simpa using hd.code
        obtain ⟨d', extra, hfold, hcode', hextra⟩ :=
          foldl_absorb_slots hf (sound_append.mp hts).2.fuse _ _ hcode o.extra
        have hextra' : extra = count ((fuse operands).flatMap (Tree.opened o.operator)) - 1 := by
          rw [count_fuse, harity, Operation.arity] at hextra
          omega
        have htree : Tree.fusing o (fuse operands) =
            .node (o.withExtra extra) ((fuse operands).flatMap (Tree.opened o.operator)) := by
          rw [Tree.fusing, if_pos hf, hextra']
        refine ⟨d'.remember (.apply (o.withExtra extra)) (slots Instr.isFusible 0 (fuse below)).reverse, ?_, ?_⟩
        · simp [fuseStep, hpop, hf, hfold]
        · rw [fuse_append, fuse_singleton, Tree.fuse_node, htree]
          exact .remember (t := .node _ _) (by simpa [Tree.front] using hcode') rfl
            (by simpa [Tree.root, Instr.isFusible] using hf)
      · have htree : Tree.fusing o (fuse operands) = .node o (fuse operands) := by rw [Tree.fusing, if_neg hf]
        refine ⟨d.produce (.apply o) (slots Instr.isFusible 0 (fuse below)).reverse, ?_, ?_⟩
        · simp [fuseStep, hpop, hf]
        · rw [fuse_append, fuse_singleton, Tree.fuse_node, htree]
          exact .produce (t := .node _ _) (by simpa [Tree.front] using hd.code) rfl
            (by simpa [Tree.root, Instr.isFusible] using hf)
    | push value =>
      obtain rfl := Option.some.inj hi
      refine ⟨_, rfl, ?_⟩
      rw [fuse_append, fuse_singleton, Tree.fuse_leaf, hd.stack]
      exact .produce (t := .leaf _) (by simpa [Tree.front] using hd.code) rfl rfl
    | fetch name =>
      obtain rfl := Option.some.inj hi
      refine ⟨_, rfl, ?_⟩
      rw [fuse_append, fuse_singleton, Tree.fuse_leaf, hd.stack]
      exact .produce (t := .leaf _) (by simpa [Tree.front] using hd.code) rfl rfl
    | declare name =>
      obtain rfl := Option.some.inj hi
      refine ⟨_, rfl, ?_⟩
      rw [fuse_append, fuse_singleton, Tree.fuse_leaf]
      exact hd.write (t := .leaf _) rfl rfl
    | nop =>
      obtain rfl := Option.some.inj hi
      refine ⟨_, rfl, ?_⟩
      rw [fuse_append, fuse_singleton, Tree.fuse_leaf]
      exact hd.write (t := .leaf _) rfl rfl
  none := by
    intro d ts i hd hi
    cases i with
    | apply o =>
      have hpop := hd.pop_eq_none ((count_fuse ts).symm ▸ extend?_apply_eq_none hi)
      simp [fuseStep, hpop]
    | _ => cases hi

end Draft

/-! ### Fusing keeps the values -/

section Eval

variable {P : Operator → Prop} {arithmetic : Arithmetic α} {resolve : Resolver α}

theorem Tree.regroups_opened {op : Operator} (hop : Std.Associative (arithmetic op)) (t : Tree α) :
    Forest.Regroups arithmetic resolve (arithmetic op) (t.opened op) [t] := by
  cases t with
  | leaf i => exact .refl _
  | node o ts =>
    by_cases ho : o.operator = op
    · intro bound
      rw [opened_of_eq ho, Forest.eval_append, Forest.eval_singleton, eval_node, ho]
      refine (Run.Similar.rfl' (R := Eq) (fun _ => rfl) (fun _ => rfl) _).bind ?_
      rintro y _ rfl
      rw [Forest.eval_singleton, eval_leaf, Machine.perform_nop, Run.done_bind, Run.done_bind]
      exact .done ⟨by simpa using Regroups.combine hop y.values, rfl⟩
    · rw [opened_of_ne ho]
      exact .refl _

theorem Forest.regroups_flatMap_opened {op : Operator} (hop : Std.Associative (arithmetic op)) (ts : Forest α) :
    Regroups arithmetic resolve (arithmetic op) (ts.flatMap (Tree.opened op)) ts := by
  induction ts with
  | nil => exact .refl _
  | cons t ts ih => exact (t.regroups_opened hop).append ih

theorem Tree.eval_fusing {o : Operation} (ho : o.isFusible = true → Std.Associative (arithmetic o.operator))
    (ts : Forest α) (bound : List (String × α)) :
    (Tree.fusing o ts).eval arithmetic resolve bound = (Tree.node o ts).eval arithmetic resolve bound := by
  unfold fusing
  split
  next hf => exact (Forest.regroups_flatMap_opened (ho hf) ts).eval_node (by simp) bound
  next => rfl

variable (hassoc : ∀ op, P op → op.isFusible = true → Std.Associative (arithmetic op))
include hassoc

theorem Tree.Sound.eval_fuse {t : Tree α} (h : t.Sound P) (bound : List (String × α)) :
    t.fuse.eval arithmetic resolve bound = t.eval arithmetic resolve bound := by
  induction h generalizing bound with
  | leaf h => rw [fuse_leaf]
  | @node o ts hop _ _ ih =>
    rw [fuse_node, eval_fusing (hassoc o.operator hop), eval_node, eval_node, Forest.fuse_eq_map,
      List.map_eq_flatMap, Forest.eval_flatMap arithmetic resolve fun t ht bound => ?_]
    rw [Forest.eval_singleton, ih t ht bound]

theorem Forest.Sound.eval_fuse {ts : Forest α} (h : Sound P ts) (bound : List (String × α)) :
    eval arithmetic resolve bound ts.fuse = eval arithmetic resolve bound ts := by
  rw [fuse_eq_map, List.map_eq_flatMap]
  refine eval_flatMap arithmetic resolve (fun t ht bound => ?_) bound
  rw [eval_singleton, (h t ht).eval_fuse hassoc]

theorem Program.exec_fuse {p : Program α} (hp : p.Uses P) (m : Machine α) :
    m.exec arithmetic resolve p.fuse = m.exec arithmetic resolve p :=
  Draft.follows_fuseStep.exec_redraft (fun _ h => h.fuse) hp (fun _ h => h.eval_fuse hassoc) m

end Eval

theorem Program.Uses.fuse {P : Operator → Prop} {p : Program α} (hp : p.Uses P) : p.fuse.Uses P :=
  Draft.follows_fuseStep.uses_redraft (fun _ h => h.fuse) hp

/-! ### Merging neighbours -/

section Merge

variable {P : Operator → Prop} {arithmetic : Arithmetic α} {resolve : Resolver α}

/-- An operation that takes over the operands of another takes one operand less than both, which is the result of the
    other. -/
theorem Operation.arity_merged {o : Operation} (hf : o.isFusible = true) (before : Operation) :
    (o.withExtra (o.extra + before.extra)).arity = o.extra + before.arity := by
  rw [arity, extra_withExtra (isVariadic_of_isFusible hf), arity, Nat.add_assoc]

/-- Two equal associative operations, one right after the other, do the same as one that takes the operands of both. -/
theorem Program.alike_merged {o before : Operation} (hf : o.isFusible = true) (ho : before.operator = o.operator)
    (hassoc : Std.Associative (arithmetic o.operator)) :
    Alike arithmetic resolve [.nop, .apply (o.withExtra (o.extra + before.extra))] [.apply before, .apply o] := by
  intro m
  have harity := Operation.arity_merged hf before
  rw [Machine.exec_cons, Machine.perform_nop, Run.done_bind, Machine.exec_singleton, Machine.exec_cons]
  simp only [Machine.exec_singleton]
  by_cases hlt : m.stack.length < o.extra + before.arity
  · -- The merged operation lacks operands, so the second of the two does, or already the first.
    rw [Machine.perform_apply_of_lt _ _ (harity ▸ hlt)]
    by_cases hfirst : m.stack.length < before.arity
    · rw [Machine.perform_apply_of_lt _ _ hfirst]
      exact .error trivial
    · obtain ⟨values, rest, hstack, hvalues⟩ := Machine.exists_operands (Nat.le_of_not_lt hfirst)
      obtain ⟨x, hx⟩ := Machine.exists_combine? (arithmetic before.operator) hvalues
      rw [Machine.perform_apply_append _ _ hstack hvalues hx, Run.done_bind, Machine.perform_apply_of_lt]
      · exact .error trivial
      · rw [hstack, List.length_append, List.length_reverse, hvalues] at hlt
        rw [List.length_cons, Operation.arity]
        omega
  · obtain ⟨values, rest, hstack, hvalues⟩ := Machine.exists_operands (harity ▸ Nat.le_of_not_lt hlt)
    obtain ⟨x, hx⟩ := Machine.exists_combine? (arithmetic o.operator) hvalues
    have hmerged : combine? (arithmetic (o.withExtra (o.extra + before.extra)).operator) values = some x := by
      rw [Operation.operator_withExtra, hx]
    rw [Machine.perform_apply_append _ _ hstack hvalues hmerged]
    -- The first operation combines the last of the operands, the second one the others with its result.
    rw [harity] at hvalues
    obtain ⟨others, last, rfl, hothers, hlast⟩ :
        ∃ others last, values = others ++ last ∧ others.length = o.extra ∧ last.length = before.arity :=
      ⟨values.take o.extra, values.drop o.extra, by simp, by simp [hvalues], by simp [hvalues]⟩
    obtain ⟨y, hy⟩ := Machine.exists_combine? (arithmetic before.operator) hlast
    have hfirst : m.stack = last.reverse ++ (others.reverse ++ rest) := by simp [hstack]
    have hsecond : combine? (arithmetic o.operator) (others ++ [y]) = some x := by
      have h := Regroups.combine hassoc last others []
      rw [← ho, hy, ho] at h
      simpa [hx] using h.symm
    rw [Machine.perform_apply_append _ _ hfirst hlast hy, Run.done_bind]
    have hthen : ({ m with stack := y :: (others.reverse ++ rest) } : Machine α).stack =
        (others ++ [y]).reverse ++ rest := by simp
    rw [Machine.perform_apply_append _ _ hthen (by simp [hothers, Operation.arity]) hsecond]
    exact .done rfl

/-- The same associative operator twice. -/
def Instr.mergeable : Instr α → Instr α → Bool
  | .apply before, .apply o => o.isFusible && before.operator == o.operator
  | _, _ => false

/-- What a step of merging does: the instruction is added, because it cannot be merged with the last one, or it takes
    over the operands of the last one. -/
theorem Draft.mergeStep_cases (d : Draft α) (i : Instr α) :
    ((d.mergeStep i).code.toList = d.code.toList ++ [i] ∧ ∀ last ∈ d.code.back?, last.mergeable i = false) ∨
      ∃ code before o, d.code.toList = code ++ [.apply before] ∧ i = .apply o ∧ o.isFusible = true ∧
        before.operator = o.operator ∧
        (d.mergeStep i).code.toList = code ++ [.nop, .apply (o.withExtra (o.extra + before.extra))] := by
  cases i with
  | apply o =>
    cases hback : d.code.back? with
    | none => exact .inl (by simp [mergeStep, hback, write])
    | some last =>
      obtain ⟨code, hcode⟩ := List.getLast?_eq_some_iff.mp ((Array.getLast?_toList d.code).trans hback)
      cases last with
      | apply before =>
        by_cases hmerge : (o.isFusible && before.operator == o.operator) = true
        · obtain ⟨hf, ho⟩ := Bool.and_eq_true_iff.mp hmerge
          refine .inr ⟨code, before, o, hcode, rfl, hf, beq_iff_eq.mp ho, ?_⟩
          have hsize : d.code.size - 1 = code.length := by
            rw [← Array.length_toList, hcode]
            simp
          simp [mergeStep, hback, hmerge, write, revise, hsize, hcode, List.set_append_right]
        · exact .inl (by simp [mergeStep, hback, hmerge, write, Instr.mergeable])
      | _ => exact .inl (by simp [mergeStep, hback, write, Instr.mergeable])
  | _ => exact .inl (by simp [mergeStep, write, Instr.mergeable])

theorem Draft.mergeStep_eq (d : Draft α) (i : Instr α) :
    (d.mergeStep i).code.toList = d.code.toList ++ [i] ∨
      ∃ code before o, d.code.toList = code ++ [.apply before] ∧ i = .apply o ∧ o.isFusible = true ∧
        before.operator = o.operator ∧
        (d.mergeStep i).code.toList = code ++ [.nop, .apply (o.withExtra (o.extra + before.extra))] :=
  (d.mergeStep_cases i).imp_left And.left

/-- What every step of merging keeps of the instructions written and to come, merging keeps. -/
theorem Draft.foldl_mergeStep_induction {R : Program α → Prop} (happend : ∀ {p q}, R (p ++ q) ↔ R p ∧ R q)
    (hstep : ∀ {d : Draft α} {i}, R (d.code.toList ++ [i]) → R (d.mergeStep i).code.toList) {d : Draft α}
    {p : Program α} (h : R (d.code.toList ++ p)) : R (p.foldl mergeStep d).code.toList := by
  induction p generalizing d with
  | nil => rwa [List.append_nil] at h
  | cons i p ih =>
    rw [List.append_cons] at h
    obtain ⟨hi, hp⟩ := happend.mp h
    exact ih (happend.mpr ⟨hstep hi, hp⟩)

theorem Program.uses_append {p q : Program α} : (p ++ q).Uses P ↔ p.Uses P ∧ q.Uses P := by
  simp [Uses, or_imp, forall_and]

theorem Draft.uses_mergeStep {d : Draft α} {i : Instr α} (h : Program.Uses P (d.code.toList ++ [i])) :
    Program.Uses P (d.mergeStep i).code.toList := by
  rcases d.mergeStep_eq i with heq | ⟨code, before, o, hcode, rfl, hf, ho, heq⟩
  · rwa [heq]
  · rw [heq]
    intro o' ho'
    simp only [List.mem_append, List.mem_cons, reduceCtorEq, Instr.apply.injEq, List.not_mem_nil, false_or,
      or_false] at ho'
    rcases ho' with ho' | rfl
    · exact h o' (by simp [hcode, ho'])
    · simpa using h o (by simp)

theorem Program.Uses.merge {p : Program α} (hp : p.Uses P) : p.merge.Uses P := by
  have h : Program.Uses P (({} : Draft α).code.toList ++ p) := hp
  intro o ho
  exact Draft.foldl_mergeStep_induction uses_append Draft.uses_mergeStep h o (List.mem_filter.mp ho).1

variable (hassoc : ∀ op, P op → op.isFusible = true → Std.Associative (arithmetic op))
include hassoc

theorem Draft.alike_mergeStep {d : Draft α} {i : Instr α} (h : Program.Uses P (d.code.toList ++ [i])) :
    Program.Alike arithmetic resolve (d.mergeStep i).code.toList (d.code.toList ++ [i]) := by
  rcases d.mergeStep_eq i with heq | ⟨code, before, o, hcode, rfl, hf, ho, heq⟩
  · rw [heq]
    exact .refl _
  · rw [heq, hcode, List.append_assoc]
    exact (Program.Alike.refl code).append (Program.alike_merged hf ho (hassoc o.operator (h o (by simp)) hf))

/-- What has been merged and what is still to come do the same as before, after every step. -/
theorem Draft.alike_foldl_mergeStep {d : Draft α} {p : Program α} (h : Program.Uses P (d.code.toList ++ p)) :
    Program.Alike arithmetic resolve (p.foldl mergeStep d).code.toList (d.code.toList ++ p) := by
  induction p generalizing d with
  | nil =>
    rw [List.append_nil]
    exact .refl _
  | cons i p ih =>
    rw [List.append_cons] at h ⊢
    obtain ⟨hi, hp⟩ := Program.uses_append.mp h
    have hnext := ih (Program.uses_append.mpr ⟨uses_mergeStep hi, hp⟩)
    exact hnext.trans ((alike_mergeStep hassoc hi).append (.refl p))

theorem Program.alike_merge {p : Program α} (hp : p.Uses P) : Alike arithmetic resolve p.merge p := by
  have h : Program.Uses P (({} : Draft α).code.toList ++ p) := hp
  refine Alike.trans (.of_exec fun m => ?_) (Draft.alike_foldl_mergeStep hassoc h)
  exact Machine.exec_filter_isNop arithmetic resolve m _

end Merge

end StackCalc
