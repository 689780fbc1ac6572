import StackCalc.Proofs.Flattening

/-!
Optimizing is exact where nothing has to be regrouped. In a left-nested expression no right operand of an associative
operator is the same operator, and each of them has a name in it. Then fusing only ever joins the first operand, so that
operands are still combined from left to right, and in a chain of operands only the first one can be a literal, so that
an operation is folded as a whole or not at all. So the value is the same for any arithmetic, whether or not its
operators are associative, and whatever results may take the place of their operands.
-/

namespace StackCalc

variable {α : Type}

namespace Expr

/-- The operator of an expression that is not a name or a number. -/
def operator? : Expr α → Option Operator
  | symbol _ | number _ => none
  | binary op _ _ => some op

/-- The right operand of every associative operator has a name in it, and it is not the same operator. -/
def LeftNested : Expr α → Prop
  | symbol _ | number _ => True
  | binary op left right =>
    left.LeftNested ∧ right.LeftNested ∧
      (op.isAssociative = true → right.occurrences ≠ [] ∧ right.operator? ≠ some op)

end Expr

/-! ### Folding operations as a whole -/

/-- A name is fetched somewhere in the tree. -/
def Tree.Fetches (t : Tree α) : Prop :=
  ∃ name, .fetch name ∈ t.code

/-- No operand of an associative operation but the first can be a literal, or become one. -/
inductive Tree.Steady : Tree α → Prop
  | leaf (i : Instr α) : Steady (.leaf i)
  | node {o : Operation} {ts : Forest α} (later : o.isFusible = true → ∀ t ∈ ts.tail, t.Fetches)
    (operands : ∀ t ∈ ts, Steady t) : Steady (.node o ts)

theorem Program.fetch_mem_of_skeleton_eq {p q : Program α} (h : p.skeleton = q.skeleton) {name : String}
    (hp : .fetch name ∈ p) : .fetch name ∈ q := by
  have hmem : some (.fetch name) ∈ q.skeleton := h ▸ List.mem_map.mpr ⟨_, hp, rfl⟩
  obtain ⟨i, hi, hnamed⟩ := List.mem_map.mp hmem
  cases i with
  | fetch other =>
    obtain rfl : other = name := by simpa [Instr.named?] using hnamed
    exact hi
  | _ => cases hnamed

section Fold

variable {P : Operator → Prop} {arithmetic : Arithmetic α} {representable : α → Bool} {resolve : Resolver α}

theorem Forest.fetch_not_mem_of_isPlain {ts : Forest α} (h : isPlain ts = true) (name : String) :
    .fetch name ∉ code ts := by
  intro hmem
  obtain ⟨t, ht, hmem⟩ := mem_code.mp hmem
  have hplain : t.isPlain = true := List.all_eq_true.mp h t ht
  cases t with
  | leaf i =>
    obtain rfl : .fetch name = i := by simpa [Tree.code] using hmem
    cases hplain
  | node o us => cases hplain

/-- A tree that fetches a name does not become a literal. -/
theorem Tree.Sound.literal?_fold {t : Tree α} (h : t.Sound P) (hfetches : t.Fetches) :
    ∀ i ∈ Forest.producers (t.fold arithmetic representable), i.literal? = none := by
  obtain ⟨name, hname⟩ := hfetches
  have hfetch : .fetch name ∈ Forest.code (t.fold arithmetic representable) :=
    Program.fetch_mem_of_skeleton_eq h.skeleton_fold.symm hname
  cases t with
  | leaf i =>
    obtain rfl : .fetch name = i := by simpa [Tree.code] using hname
    simp [Forest.producers, Tree.isValue, Tree.root, Instr.literal?]
  | node o ts =>
    rw [fold_node] at hfetch ⊢
    rcases Forest.folding_cases arithmetic representable o (Forest.fold arithmetic representable ts) with
      ⟨hplain, x, -, -, heq⟩ | ⟨-, -, heq⟩ | heq
    · -- Folding keeps every name in its place, and a literal has taken the place of all operands.
      rw [heq] at hfetch
      refine absurd hfetch (Forest.fetch_not_mem_of_isPlain ?_ name)
      exact Forest.isPlain_append.mpr ⟨Forest.isPlain_map_retired hplain, rfl⟩
    · simp [heq, Instr.literal?]
    · simp [heq, Instr.literal?]

/-- There is no run of literals to fold if all operands but the first fetch a name. -/
theorem Forest.foldedRuns_fold_eq_self {ts : Forest α} (h : ∀ t ∈ ts, t.Solid) (hlater : ∀ t ∈ ts.tail, t.Fetches)
    (op : Operator) :
    foldedRuns arithmetic representable op [] (fold arithmetic representable ts) =
      fold arithmetic representable ts := by
  refine foldedRuns_nil_eq_self (forallRuns_of_tail ?_)
  cases ts with
  | nil => simp [fold]
  | cons t ts =>
    obtain ⟨i, hi⟩ : ∃ i, producers (t.fold arithmetic representable) = [i] := by
      rw [← List.length_eq_one_iff, length_producers, Tree.count_fold, if_pos (h t (by simp)).isValue]
    have hproducers : producers (fold arithmetic representable (t :: ts)) =
        i :: producers (fold arithmetic representable ts) := by
      rw [fold, producers_append, hi, List.singleton_append]
    rw [hproducers, List.map_cons, List.tail_cons]
    intro entry hentry
    obtain ⟨j, hj, rfl⟩ := List.mem_map.mp hentry
    rw [fold_eq_flatMap] at hj
    obtain ⟨u, hu, hj⟩ := mem_producers_flatMap.mp hj
    exact (h u (by simp [hu])).sound.literal?_fold (hlater u hu) j hj

/-- Folding a steady tree does not regroup anything. -/
theorem Tree.Solid.eval_fold {t : Tree α} (h : t.Solid) (hsteady : t.Steady) (bound : List (String × α)) :
    Forest.eval arithmetic resolve bound (t.fold arithmetic representable) = t.eval arithmetic resolve bound := by
  induction h generalizing bound with
  | leaf => rw [fold_leaf, Forest.eval_singleton]
  | @node o ts _ hts ih =>
    obtain _ | ⟨later, operands⟩ := hsteady
    have hsound : Forest.Sound (fun _ => True) ts := fun t ht => (hts t ht).sound
    have hoperands : ∀ t ∈ ts, ∀ bound, Forest.eval arithmetic resolve bound (t.fold arithmetic representable) =
        t.eval arithmetic resolve bound := fun t ht => ih t ht (operands t ht)
    rw [fold_node, Forest.eval_folding_of_runs hsound.fold bound fun hf => by
      rw [Forest.foldedRuns_fold_eq_self hts (later hf)]]
    rw [eval_node, eval_node, Forest.fold_eq_flatMap, Forest.eval_flatMap arithmetic resolve hoperands]

end Fold

/-! ### Joining the first operand -/

/-- Values at the beginning may be combined beforehand, whatever the function is. -/
theorem combine?_combine?_append (f : α → α → α) (xs ys : List α) :
    combine? f ((combine? f xs).toList ++ ys) = combine? f (xs ++ ys) := by
  cases xs with
  | nil => rfl
  | cons x xs => simp [combine?]

section Join

variable {arithmetic : Arithmetic α} {resolve : Resolver α} {op : Operator}

theorem Tree.Solid.parts {t : Tree α} (h : t.Solid) (op : Operator) :
    (∀ u ∈ t.parts op, u.Solid) ∧ t.parts op ≠ [] := by
  rcases t.parts_cases op with hparts | ⟨o, ts, rfl, -, hparts⟩
  · simpa [hparts] using h
  · obtain _ | ⟨arity, operands⟩ := h
    rw [hparts]
    exact ⟨operands, List.ne_nil_of_length_pos (by simp [arity, Operation.arity])⟩

theorem Tree.Solid.join {o : Operation} {ts : Forest α} (harity : ts.length = o.arity) (h : ∀ t ∈ ts, t.Solid) :
    (Tree.join o ts).Solid := by
  unfold Tree.join
  split
  next hf =>
    have hparts : ∀ u ∈ ts.flatMap (Tree.parts o.operator), u.Solid := by
      intro u hu
      obtain ⟨t, ht, hu⟩ := List.mem_flatMap.mp hu
      exact ((h t ht).parts o.operator).1 u hu
    have hpos : 0 < (ts.flatMap (Tree.parts o.operator)).length := by
      obtain ⟨t, rest, rfl⟩ := List.exists_cons_of_length_eq_add_one harity
      have hne := ((h t (by simp)).parts o.operator).2
      exact List.length_pos_iff.mpr (by simp [hne])
    refine .node ?_ hparts
    rw [Operation.arity, Operation.extra_withExtra (Operation.isVariadic_of_isFusible hf), count_eq_length hparts]
    omega
  next => exact .node harity h

/-- Joining the first operand only keeps the order in which values are combined. -/
theorem Tree.eval_join_first {left right : Tree α} (h : op.isFusible = true → right.parts op = [right])
    (bound : List (String × α)) :
    (Tree.join (.binary op) [left, right]).eval arithmetic resolve bound =
      (Tree.node (.binary op) [left, right]).eval arithmetic resolve bound := by
  unfold Tree.join
  split
  next hf =>
    simp only [Operation.operator_binary, List.flatMap_cons, List.flatMap_nil, List.append_nil, h hf, eval_node,
      Operation.operator_withExtra]
    rcases left.parts_cases op with hleft | ⟨o, ts, rfl, ho, hleft⟩
    · rw [hleft, List.singleton_append]
    · -- The operands of `left` come first, so they were combined first before they were joined.
      simp only [hleft, ho, Forest.eval_append, Forest.eval_cons, eval_node, Forest.eval_nil, Run.bind_assoc,
        Run.done_bind, List.append_nil, combine?_combine?_append]
  next => rfl

theorem Tree.Steady.parts {t : Tree α} (h : t.Steady) (op : Operator) (hop : op.isFusible = true) :
    (∀ u ∈ t.parts op, u.Steady) ∧ ∀ u ∈ (t.parts op).tail, u.Fetches := by
  rcases t.parts_cases op with hparts | ⟨o, ts, rfl, ho, hparts⟩
  · simpa [hparts] using h
  · obtain _ | ⟨later, operands⟩ := h
    rw [hparts]
    exact ⟨operands, later (by rwa [Operation.isFusible, ho])⟩

theorem Tree.Steady.join {left right : Tree α} (hleft : left.Steady) (hright : right.Steady) (hsolid : left.Solid)
    (h : op.isFusible = true → right.Fetches ∧ right.parts op = [right]) :
    (Tree.join (.binary op) [left, right]).Steady := by
  unfold Tree.join
  split
  next hf =>
    obtain ⟨hfetches, hparts⟩ := h hf
    obtain ⟨hsteady, hlater⟩ := hleft.parts op hf
    obtain ⟨first, rest, hfirst⟩ := List.exists_cons_of_ne_nil (hsolid.parts op).2
    simp only [Operation.operator_binary, List.flatMap_cons, List.flatMap_nil, List.append_nil, hparts]
    refine .node (fun _ t ht => ?_) fun t ht => ?_
    · rw [hfirst, List.tail_cons] at hlater
      rw [hfirst, List.cons_append, List.tail_cons, List.mem_append, List.mem_singleton] at ht
      rcases ht with ht | rfl
      · exact hlater t ht
      · exact hfetches
    · rw [List.mem_append, List.mem_singleton] at ht
      rcases ht with ht | rfl
      · exact hsteady t ht
      · exact hright
  next hf => exact .node (fun hf' => absurd hf' hf) (by simp [hleft, hright])

end Join

/-! ### Left-nested expressions -/

namespace Expr

variable {e : Expr α}

theorem solid_flat (e : Expr α) : e.flat.Solid := by
  induction e with
  | symbol | number => exact .leaf rfl
  | binary op left right ihl ihr => exact .join rfl (by simp [ihl, ihr])

theorem fetch_mem_body {name : String} (h : name ∈ e.occurrences) : .fetch name ∈ e.body := by
  induction e with
  | symbol other => simpa [occurrences, body] using h
  | number value => cases h
  | binary op left right ihl ihr =>
    rcases List.mem_append.mp h with h | h
    · simp [body, ihl h]
    · simp [body, ihr h]

theorem fetches_flat (h : e.occurrences ≠ []) : e.flat.Fetches := by
  obtain ⟨name, hname⟩ := List.exists_mem_of_ne_nil _ h
  have hfuse : .fetch name ∈ e.tree.fuse.code :=
    Program.fetch_mem_of_skeleton_eq e.solid_tree.sound.skeleton_fuse.symm (e.code_tree ▸ fetch_mem_body hname)
  exact ⟨name, by simpa [code_flat, Instr.isNop] using hfuse⟩

theorem parts_flat_of_ne {op : Operator} (h : e.operator? ≠ some op) : e.flat.parts op = [e.flat] := by
  cases e with
  | symbol | number => rfl
  | binary other left right =>
    have hne : other ≠ op := fun heq => h (congrArg some heq)
    unfold flat Tree.join
    split <;> exact Tree.parts_of_ne (by simpa using hne) _

namespace LeftNested

theorem steady_flat (h : e.LeftNested) : e.flat.Steady := by
  induction e with
  | symbol | number => exact .leaf _
  | binary op left right ihl ihr =>
    obtain ⟨hleft, hright, hassoc⟩ := h
    refine (ihl hleft).join (ihr hright) left.solid_flat fun hop => ?_
    rw [Operator.isFusible_eq_isAssociative] at hop
    obtain ⟨hoccurs, hne⟩ := hassoc hop
    exact ⟨fetches_flat hoccurs, parts_flat_of_ne hne⟩

variable (arithmetic : Arithmetic α) (representable : α → Bool) (resolve : Resolver α)

/-- Flattening a left-nested expression keeps the order in which values are combined. -/
theorem eval_flat (h : e.LeftNested) (bound : List (String × α)) :
    e.flat.eval arithmetic resolve bound = e.tree.eval arithmetic resolve bound := by
  induction e generalizing bound with
  | symbol | number => rfl
  | binary op left right ihl ihr =>
    obtain ⟨hleft, hright, hassoc⟩ := h
    have hright' : op.isFusible = true → right.flat.parts op = [right.flat] := by
      rw [Operator.isFusible_eq_isAssociative]
      exact fun hop => parts_flat_of_ne (hassoc hop).2
    rw [flat, Tree.eval_join_first hright', tree, Tree.eval_node, Tree.eval_node]
    simp only [Forest.eval_cons, ihl hleft, ihr hright]

/-- Optimizing the program of a left-nested expression does not change what it does. -/
theorem exec_optimize (h : e.LeftNested) (level : Level) (m : Machine α) :
    m.exec arithmetic resolve (e.program.optimize arithmetic representable level).program =
      m.exec arithmetic resolve e.program := by
  by_cases hlevel : level = .number 0
  · rw [Program.optimize, if_pos hlevel]
  have hsupplied : e.program.producers?.isSome = true := by
    rw [← Program.isSome_forest?, forest?_program, Option.isSome_some]
  have hdeclarations : e.declarations.fold arithmetic representable = e.declarations := by
    refine Forest.fold_eq_self fun t ht => ?_
    obtain ⟨name, rfl⟩ := eq_leaf_of_mem_declarations ht
    exact Tree.fold_leaf _
  have hbody : ∀ m : Machine α, m.exec arithmetic resolve (Forest.code (e.flat.fold arithmetic representable)) =
      m.exec arithmetic resolve e.body := by
    intro m
    rw [Forest.exec_code e.solid_flat.sound.fold, e.solid_flat.eval_fold h.steady_flat, h.eval_flat, ← e.code_tree,
      e.solid_tree.sound.runs.exec]
  rw [Program.program_optimize hlevel hsupplied, fuse_program, Program.fold, Draft.follows_foldStep.redraft_eq,
    forest?_declarations_append e e.solid_flat]
  simp only [Machine.exec_filter_isNop, Forest.fold_append, Forest.fold_singleton, hdeclarations, Forest.code_append,
    code_declarations, Machine.exec_append, hbody, program]

/-- The optimized program of a left-nested expression has exactly the value of the program, if all names are bound. The
    operators may be any functions, and any results may take the place of their operands. -/
theorem run_optimize_generate {e : Expr α} (h : e.LeftNested) {resolve : Resolver α}
    (hbound : ∀ name ∈ e.names, (resolve name).isSome = true) (level : Level) (g : Generator α) :
    ∃ x, (g.generate e).1.run arithmetic resolve = ⟨e.names, .ok x⟩ ∧
      ((g.generate e).1.optimize arithmetic representable level).program.run arithmetic resolve =
        ⟨e.names, .ok x⟩ := by
  rw [Generator.generate_eq_program]
  obtain ⟨x, -, hrun⟩ := run_program_of_bound arithmetic hbound
  refine ⟨x, hrun, ?_⟩
  rw [← hrun, Program.run, Program.run, Machine.run_eq_exec, Machine.run_eq_exec, h.exec_optimize]

/-- Differences in the place of sums, so that brackets matter: in `((2 - 1) + x) + 3 * y / z` the chain has three
    operands, and the first one is folded. -/
theorem run_optimize_generate_not_associative :
    let arithmetic : Arithmetic Int := fun op => if op = .add then Int.sub else Integer.arithmetic op
    let e : Expr Int := .binary .add (.binary .add (.binary .sub (.number 2) (.number 1)) (.symbol "x"))
      (.binary .div (.binary .mul (.number 3) (.symbol "y")) (.symbol "z"))
    let resolve : Resolver Int := fun name => if name = "x" then some 7 else some 5
    let q := (e.program.optimize arithmetic (fun _ => true) (.number 1)).program
    ¬ Std.Associative (arithmetic .add) ∧ e.LeftNested ∧ (∀ name ∈ e.names, (resolve name).isSome = true) ∧
      q = [.declare "x", .declare "y", .declare "z", .push 1, .fetch "x", .push 3, .fetch "y", .apply (.binary .mul),
        .fetch "z", .apply (.binary .div), .apply ⟨.add, 2, by decide⟩] ∧
      ∃ x, (({} : Generator Int).generate e).1.run arithmetic resolve = ⟨e.names, .ok x⟩ ∧
        ((({} : Generator Int).generate e).1.optimize arithmetic (fun _ => true) (.number 1)).program.run arithmetic
          resolve = ⟨e.names, .ok x⟩ := by
  intro arithmetic e resolve q
  have hassoc : ¬ Std.Associative (arithmetic .add) := fun h => absurd (h.assoc 0 0 1) (by decide)
  have h : e.LeftNested := by simp [e, LeftNested, operator?, occurrences, Operator.isAssociative]
  have hbound : ∀ name ∈ e.names, (resolve name).isSome = true := fun name _ => by
    simp only [resolve]
    split <;> rfl
  exact ⟨hassoc, h, hbound, by decide +kernel, run_optimize_generate arithmetic _ h hbound _ _⟩

end LeftNested

end Expr

end StackCalc
