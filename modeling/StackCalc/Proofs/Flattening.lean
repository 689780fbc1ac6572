import StackCalc.Proofs.Compilation
import StackCalc.Proofs.Convergence

/-!
Fusing the program of an expression flattens the expression. All operands of a chain of equal associative operators,
however they are bracketed, become the operands of a single operation; the operations that gave them up are gone. So
expressions that differ in such brackets only have the same fused program, and everything that the optimizer makes of
them is the same.
-/

namespace StackCalc

variable {α : Type}

/-! ### Leaving out what has no effect -/

mutual

/-- A tree without the `nop` in it. -/
def Tree.pruned : Tree α → Forest α
  | .leaf i => if i.isNop then [] else [.leaf i]
  | .node o ts => [.node o (Forest.pruned ts)]

def Forest.pruned : Forest α → Forest α
  | [] => []
  | t :: ts => t.pruned ++ Forest.pruned ts

end

theorem Tree.pruned_leaf {i : Instr α} (h : i.isNop = false) : (Tree.leaf i).pruned = [.leaf i] := by simp [pruned, h]

theorem Tree.pruned_nop : (Tree.leaf (.nop : Instr α)).pruned = [] := by simp [pruned, Instr.isNop]

theorem Tree.pruned_node (o : Operation) (ts : Forest α) : (Tree.node o ts).pruned = [.node o (Forest.pruned ts)] := by
  rw [pruned]

namespace Forest

theorem pruned_eq_flatMap (ts : Forest α) : pruned ts = ts.flatMap Tree.pruned := by
  induction ts with
  | nil => simp [pruned]
  | cons t ts ih => simp [pruned, ih]

@[simp]
theorem pruned_append (ts us : Forest α) : pruned (ts ++ us) = pruned ts ++ pruned us := by
  simp [pruned_eq_flatMap]

@[simp]
theorem pruned_singleton (t : Tree α) : pruned [t] = t.pruned := by
  simp [pruned_eq_flatMap]

@[simp]
theorem count_pruned (ts : Forest α) : count (pruned ts) = count ts := by
  induction ts with
  | nil => simp [pruned]
  | cons t ts ih =>
    rw [pruned, count_append, ih, count_cons]
    congr 1
    cases t with
    | leaf i => cases i <;> rfl
    | node o ts => simp [Tree.pruned_node]

theorem code_pruned_of_forall {ts : Forest α} (h : ∀ t ∈ ts, code t.pruned = t.code.filter fun i => !i.isNop) :
    code (pruned ts) = (code ts).filter fun i => !i.isNop := by
  induction ts with
  | nil => simp [pruned]
  | cons t ts ih =>
    rw [pruned, code_append, h t (by simp), ih fun t ht => h t (by simp [ht]), code_cons, List.filter_append]

end Forest

theorem Tree.Sound.code_pruned {P : Operator → Prop} {t : Tree α} (h : t.Sound P) :
    Forest.code t.pruned = t.code.filter fun i => !i.isNop := by
  induction h with
  | @leaf i _ => cases hi : i.isNop <;> simp [pruned, code, hi]
  | @node o ts _ _ _ ih => simp [pruned_node, code, Forest.code_pruned_of_forall ih, Instr.isNop]

theorem Forest.Sound.code_pruned {P : Operator → Prop} {ts : Forest α} (h : Sound P ts) :
    code (pruned ts) = (code ts).filter fun i => !i.isNop :=
  code_pruned_of_forall fun t ht => (h t ht).code_pruned

/-! ### Joining operands -/

@[simp]
theorem Operation.operator_binary (op : Operator) : (binary op).operator = op := rfl

theorem Operation.isFusible_binary (op : Operator) : (binary op).isFusible = op.isAssociative :=
  (binary op).isFusible_eq_isAssociative

namespace Tree

/-- What a tree adds to the operands of an operator: the operands of the same operator, or the tree itself. -/
def parts (op : Operator) : Tree α → Forest α
  | .leaf i => [.leaf i]
  | .node o ts => if o.operator = op then ts else [.node o ts]

/-- An operation above trees, whose operands are joined if they belong to the same associative operator. -/
def join (o : Operation) (ts : Forest α) : Tree α :=
  if o.isFusible then
    let us := ts.flatMap (parts o.operator)
    .node (o.withExtra (Forest.count us - 1)) us
  else .node o ts

theorem parts_of_ne {op : Operator} {o : Operation} (h : o.operator ≠ op) (ts : Forest α) :
    (Tree.node o ts).parts op = [.node o ts] :=
  if_neg h

theorem parts_cases (op : Operator) (t : Tree α) :
    t.parts op = [t] ∨ ∃ o ts, t = .node o ts ∧ o.operator = op ∧ t.parts op = ts := by
  cases t with
  | leaf i => exact .inl rfl
  | node o ts =>
    by_cases ho : o.operator = op
    · exact .inr ⟨o, ts, rfl, ho, if_pos ho⟩
    · exact .inl (parts_of_ne ho ts)

theorem parts_join {o : Operation} (h : o.isFusible = true) (ts : Forest α) :
    (join o ts).parts o.operator = ts.flatMap (parts o.operator) := by
  simp [join, h, parts]

theorem join_congr {o : Operation} (h : o.isFusible = true) {ts us : Forest α}
    (hparts : ts.flatMap (parts o.operator) = us.flatMap (parts o.operator)) : join o ts = join o us := by
  simp only [join, h, if_true, hparts]

/-- Opening a tree leaves its parts, and the `nop` in the place of its operation. -/
theorem pruned_opened (op : Operator) (t : Tree α) : Forest.pruned (t.opened op) = t.pruned.flatMap (parts op) := by
  cases t with
  | leaf i =>
    rw [opened, Forest.pruned_singleton]
    cases hi : i.isNop <;> simp [pruned, hi, parts]
  | node o ts =>
    by_cases ho : o.operator = op
    · simp [opened_of_eq ho, pruned_nop, pruned_node, parts, ho]
    · simp [opened_of_ne ho, pruned_node, parts, ho]

theorem pruned_fusing (o : Operation) (ts : Forest α) : (fusing o ts).pruned = [join o (Forest.pruned ts)] := by
  by_cases hf : o.isFusible = true
  · have hparts : Forest.pruned (ts.flatMap (opened o.operator)) = (Forest.pruned ts).flatMap (parts o.operator) := by
      rw [Forest.pruned_eq_flatMap, Forest.pruned_eq_flatMap, List.flatMap_assoc, List.flatMap_assoc]
      refine List.flatMap_congr fun t _ => ?_
      rw [← Forest.pruned_eq_flatMap, pruned_opened]
    have hcount := Forest.count_pruned (ts.flatMap (opened o.operator))
    rw [hparts] at hcount
    simp only [fusing, hf, if_true, pruned_node, hparts, join, hcount]
  · rw [fusing, if_neg hf, pruned_node, join, if_neg hf]

end Tree

/-! ### The forest of the program of an expression -/

namespace Forest

/-- A cut before trees that begin with a value, and before `n` values more. -/
theorem cut_append_cons {u : Tree α} (h : u.isValue = true) (n : Nat) (ts us : Forest α) :
    cut (n + count (u :: us)) (ts ++ u :: us) = ((cut n ts).1, (cut n ts).2 ++ u :: us) := by
  induction ts with
  | nil =>
    have hlt : ¬n + count (u :: us) ≤ count us := by
      rw [count_cons, if_pos h]
      omega
    exact if_neg hlt
  | cons t ts ih =>
    rw [List.cons_append, cut, cut, count_append, ih]
    by_cases hle : n ≤ count ts
    · rw [if_pos (Nat.add_le_add_right hle _), if_pos hle]
    · rw [if_neg (by omega), if_neg hle]
      rfl

theorem cut_zero (ts : Forest α) : cut 0 ts = (ts, []) := by
  induction ts with
  | nil => rfl
  | cons t ts ih => rw [cut, if_pos (Nat.zero_le _), ih]

/-- An operation takes up operands that begin with a value. -/
theorem extend?_append_cons {o : Operation} {u : Tree α} {us : Forest α} (hu : u.isValue = true)
    (harity : count (u :: us) = o.arity) (ts : Forest α) :
    extend? (ts ++ u :: us) (.apply o) = some (ts ++ [.node o (u :: us)]) := by
  have hle : o.arity ≤ count (ts ++ u :: us) := by
    rw [count_append, harity]
    exact Nat.le_add_left _ _
  rw [extend?, if_pos hle, ← harity, ← Nat.zero_add (count (u :: us)), cut_append_cons hu, cut_zero]
  rfl

theorem foldlM_extend?_of_forall {ts : Forest α}
    (h : ∀ t ∈ ts, ∀ below, t.code.foldlM extend? below = some (below ++ [t])) (below : Forest α) :
    (code ts).foldlM extend? below = some (below ++ ts) := by
  induction ts generalizing below with
  | nil => simp
  | cons t ts ih =>
    have hts := ih fun t ht => h t (by simp [ht])
    simp [h t, hts]

end Forest

/-- A tree that consists of values only, with as many operands as its operations take. -/
inductive Tree.Solid : Tree α → Prop
  | leaf {i : Instr α} (value : (Tree.leaf i).isValue = true) : Solid (.leaf i)
  | node {o : Operation} {ts : Forest α} (arity : ts.length = o.arity) (operands : ∀ t ∈ ts, Solid t) :
    Solid (.node o ts)

namespace Tree.Solid

theorem isValue {t : Tree α} (h : t.Solid) : t.isValue = true := by
  cases h with
  | leaf value => exact value
  | node => rfl

theorem count_eq_length {ts : Forest α} (h : ∀ t ∈ ts, t.Solid) : Forest.count ts = ts.length :=
  List.countP_eq_length.mpr fun t ht => (h t ht).isValue

theorem sound {t : Tree α} (h : t.Solid) : t.Sound fun _ => True := by
  induction h with
  | leaf value => exact .leaf fun o ho => by simp [ho, Tree.isValue] at value
  | node arity operands ih => exact .node trivial ((count_eq_length operands).trans arity) ih

/-- Reading the instructions of a solid tree gives the tree back. -/
theorem foldlM_extend? {t : Tree α} (h : t.Solid) (below : Forest α) :
    t.code.foldlM Forest.extend? below = some (below ++ [t]) := by
  induction h generalizing below with
  | @leaf i value =>
    cases i with
    | apply o => cases value
    | _ => rfl
  | @node o ts arity operands ih =>
    rw [code, List.foldlM_append, Forest.foldlM_extend?_of_forall ih]
    cases ts with
    | nil => cases arity
    | cons u us =>
      -- The first operand is a value, so no instruction before it is taken up as well.
      have hcount := (count_eq_length operands).trans arity
      have hextend := Forest.extend?_append_cons (operands u (by simp)).isValue hcount below
      simp [hextend]

end Tree.Solid

namespace Expr

/-- The tree of an expression: the tree of its program's instructions after the declarations. -/
def tree : Expr α → Tree α
  | symbol name => .leaf (.fetch name)
  | number x => .leaf (.push x)
  | binary op left right => .node (.binary op) [left.tree, right.tree]

/-- The tree of an expression in which chains of an associative operator are a single operation. -/
def flat : Expr α → Tree α
  | symbol name => .leaf (.fetch name)
  | number x => .leaf (.push x)
  | binary op left right => .join (.binary op) [left.flat, right.flat]

theorem parts_flat_binary {op : Operator} (h : op.isAssociative = true) (left right : Expr α) :
    (binary op left right).flat.parts op = left.flat.parts op ++ right.flat.parts op := by
  have hparts := Tree.parts_join (o := .binary op) (by rwa [Operation.isFusible_binary]) [left.flat, right.flat]
  simpa [flat] using hparts

theorem code_tree (e : Expr α) : e.tree.code = e.body := by
  induction e with
  | symbol | number => rfl
  | binary op left right ihl ihr => simp [tree, body, Tree.code, ihl, ihr]

theorem solid_tree (e : Expr α) : e.tree.Solid := by
  induction e with
  | symbol | number => exact .leaf rfl
  | binary op left right ihl ihr => exact .node rfl (by simp [ihl, ihr])

/-- The declarations of the program of an expression, as a forest. -/
def declarations (e : Expr α) : Forest α :=
  e.names.map fun name => .leaf (.declare name)

theorem eq_leaf_of_mem_declarations {e : Expr α} {t : Tree α} (h : t ∈ e.declarations) :
    ∃ name, t = .leaf (.declare name) := by
  obtain ⟨name, -, rfl⟩ := List.mem_map.mp h
  exact ⟨name, rfl⟩

theorem code_declarations (e : Expr α) : Forest.code e.declarations = e.names.map .declare := by
  unfold declarations
  induction e.names with
  | nil => simp
  | cons name names ih => simp [Tree.code, ih]

/-- The forest of declarations and the instructions of a solid tree after them. -/
theorem forest?_declarations_append (e : Expr α) {t : Tree α} (h : t.Solid) :
    Program.forest? (e.names.map .declare ++ t.code) = some (e.declarations ++ [t]) := by
  have hread : ∀ u ∈ e.declarations ++ [t], ∀ below, u.code.foldlM Forest.extend? below = some (below ++ [u]) := by
    intro u hu below
    rcases List.mem_append.mp hu with hu | hu
    · obtain ⟨name, rfl⟩ := eq_leaf_of_mem_declarations hu
      rfl
    · obtain rfl := List.mem_singleton.mp hu
      exact h.foldlM_extend? below
  have hforest := Forest.foldlM_extend?_of_forall hread []
  rwa [Forest.code_append, code_declarations, Forest.code_cons, Forest.code_nil, List.append_nil] at hforest

theorem forest?_program (e : Expr α) : e.program.forest? = some (e.declarations ++ [e.tree]) := by
  rw [program, ← code_tree]
  exact forest?_declarations_append e e.solid_tree

theorem pruned_fuse_tree (e : Expr α) : e.tree.fuse.pruned = [e.flat] := by
  induction e with
  | symbol name => rw [tree, Tree.fuse_leaf, Tree.pruned_leaf rfl, flat]
  | number x => rw [tree, Tree.fuse_leaf, Tree.pruned_leaf rfl, flat]
  | binary op left right ihl ihr =>
    rw [tree, Tree.fuse_node, Tree.pruned_fusing, Forest.fuse_eq_map, Forest.pruned_eq_flatMap]
    simp [ihl, ihr, flat]

theorem code_flat (e : Expr α) : e.flat.code = e.tree.fuse.code.filter fun i => !i.isNop := by
  rw [← e.solid_tree.sound.fuse.code_pruned, pruned_fuse_tree, Forest.code_cons, Forest.code_nil, List.append_nil]

/-- Fusing the program of an expression gives the instructions of the flat tree. -/
theorem fuse_program (e : Expr α) : e.program.fuse = e.names.map .declare ++ e.flat.code := by
  have hdeclarations : e.declarations.fuse = e.declarations := by
    refine Forest.fuse_eq_self fun t ht => ?_
    obtain ⟨name, rfl⟩ := eq_leaf_of_mem_declarations ht
    exact Tree.fuse_leaf _
  have hnop : Program.NopFree (e.names.map .declare : Program α) := by
    intro i hi
    obtain ⟨name, -, rfl⟩ := List.mem_map.mp hi
    rfl
  rw [Program.fuse, Draft.follows_fuseStep.redraft_eq, forest?_program]
  simp only [Forest.fuse_append, Forest.fuse_singleton, hdeclarations, Forest.code_append, code_declarations,
    List.filter_append, hnop.filter_eq, Forest.code_cons, Forest.code_nil, List.append_nil, code_flat]

/-! ### Brackets -/

/-- Equal but for brackets among the operands of an associative operator, anywhere in the expressions. -/
inductive Rebracketed : Expr α → Expr α → Prop
  | refl (e : Expr α) : Rebracketed e e
  | symm {a b : Expr α} (h : Rebracketed a b) : Rebracketed b a
  | trans {a b c : Expr α} (h : Rebracketed a b) (h' : Rebracketed b c) : Rebracketed a c
  | binary (op : Operator) {left left' right right' : Expr α} (hleft : Rebracketed left left')
    (hright : Rebracketed right right') : Rebracketed (.binary op left right) (.binary op left' right')
  | assoc {op : Operator} (h : op.isAssociative = true) (x y z : Expr α) :
    Rebracketed (.binary op (.binary op x y) z) (.binary op x (.binary op y z))

namespace Rebracketed

variable {a b : Expr α}

theorem occurrences_eq (h : a.Rebracketed b) : a.occurrences = b.occurrences := by
  induction h with
  | refl => rfl
  | symm _ ih => exact ih.symm
  | trans _ _ ih ih' => exact ih.trans ih'
  | binary op _ _ ihl ihr => rw [occurrences, occurrences, ihl, ihr]
  | assoc _ x y z => simp [occurrences]

theorem length_body_eq (h : a.Rebracketed b) : a.body.length = b.body.length := by
  induction h with
  | refl => rfl
  | symm _ ih => exact ih.symm
  | trans _ _ ih ih' => exact ih.trans ih'
  | binary op _ _ ihl ihr => simp [body, ihl, ihr]
  | assoc _ x y z => simp [body]

theorem flat_eq (h : a.Rebracketed b) : a.flat = b.flat := by
  induction h with
  | refl => rfl
  | symm _ ih => exact ih.symm
  | trans _ _ ih ih' => exact ih.trans ih'
  | binary op _ _ ihl ihr => rw [flat, flat, ihl, ihr]
  | @assoc op hassoc x y z =>
    -- The inner chain is opened by the outer one, on either side, and the parts come in the same order.
    refine Tree.join_congr (by rwa [Operation.isFusible_binary]) ?_
    have hparts : (Expr.binary op x y).flat.parts op ++ z.flat.parts op =
        x.flat.parts op ++ (Expr.binary op y z).flat.parts op := by
      rw [parts_flat_binary hassoc, parts_flat_binary hassoc, List.append_assoc]
    simpa using hparts

end Rebracketed

end Expr

/-! ### Optimizing -/

/-- What the optimizer makes of a program depends on the fused program and on the length of the program only. -/
theorem Program.optimize_congr (arithmetic : Arithmetic α) (representable : α → Bool) {level : Level}
    (hlevel : level ≠ .number 0) {p q : Program α} (hfuse : p.fuse = q.fuse) (hlength : p.length = q.length) :
    p.optimize arithmetic representable level = q.optimize arithmetic representable level := by
  have hround : p.round arithmetic representable = q.round arithmetic representable := by simp only [round, hfuse]
  obtain ⟨rs, r, hrounds, -⟩ := exists_rounds arithmetic representable p
  rw [optimize_of_rounds hlevel hrounds, optimize_of_rounds hlevel (hrounds.congr hround hlength)]

/-- The optimized program of an expression does not depend on the brackets among the operands of associative operators,
    nor do the rounds that lead to it. -/
theorem Generator.optimize_generate_rebracketed (arithmetic : Arithmetic α) (representable : α → Bool) {level : Level}
    (hlevel : level ≠ .number 0) {a b : Expr α} (h : a.Rebracketed b) (g g' : Generator α) :
    (g.generate a).1.optimize arithmetic representable level =
      (g'.generate b).1.optimize arithmetic representable level := by
  have hnames : a.names = b.names := by rw [Expr.names, Expr.names, h.occurrences_eq]
  have hfuse : a.program.fuse = b.program.fuse := by rw [Expr.fuse_program, Expr.fuse_program, hnames, h.flat_eq]
  have hlength : a.program.length = b.program.length := by simp [Expr.program, hnames, h.length_body_eq]
  rw [generate_eq_program, generate_eq_program]
  exact Program.optimize_congr arithmetic representable hlevel hfuse hlength

/-- Left and right brackets, inside an operator that is not associative: `(x + 1) + (2 + (y + 3))` and
    `((x + 1) + 2) + (y + 3)` on the left of a power, with the same program and the same two rounds. -/
theorem Generator.optimize_generate_rebracketed_sum :
    let x : Expr Int := .symbol "x"
    let y : Expr Int := .symbol "y"
    let sum := Expr.binary (α := Int) .add
    let a := Expr.binary .pow (sum (sum x (.number 1)) (sum (.number 2) (sum y (.number 3)))) (.number 2)
    let b := Expr.binary .pow (sum (sum (sum x (.number 1)) (.number 2)) (sum y (.number 3))) (.number 2)
    Level.number 1 ≠ .number 0 ∧ a.Rebracketed b ∧
      (a.program.optimize Integer.arithmetic (fun _ => true) (.number 1)).program =
        [.declare "x", .declare "y", .fetch "x", .push 3, .fetch "y", .push 3, .apply ⟨.add, 3, by decide⟩, .push 2,
          .apply (.binary .pow)] ∧
      (({} : Generator Int).generate a).1.optimize Integer.arithmetic (fun _ => true) (.number 1) =
        (({} : Generator Int).generate b).1.optimize Integer.arithmetic (fun _ => true) (.number 1) := by
  intro x y sum a b
  have hlevel : Level.number 1 ≠ .number 0 := by decide
  have h : a.Rebracketed b := .binary .pow (.symm (.assoc rfl _ _ _)) (.refl _)
  exact ⟨hlevel, h, by decide +kernel, optimize_generate_rebracketed _ _ hlevel h _ _⟩

end StackCalc
