import StackCalc.Proofs.Execution

/-!
Programs as forests. A program none of whose operations lacks operands is a row of trees: an operation is a node above
the trees that leave its operands, every other instruction is a leaf. Declarations and `nop` leave no value; they stand
between the operands wherever they stand in the program. The passes of the optimizer that follow the stack work on these
trees, and what a forest computes does not depend on the stack below it.
-/

namespace StackCalc

/-- A part of a program that runs on any stack: an instruction without operands, or an operation after the parts that
    leave its operands. -/
inductive Tree (α : Type) where
  | leaf (i : Instr α)
  | node (o : Operation) (trees : List (Tree α))

abbrev Forest (α : Type) := List (Tree α)

variable {α : Type}

/-- Whether a tree leaves a value on the stack. -/
def Tree.isValue : Tree α → Bool
  | .leaf (.push _) | .leaf (.fetch _) | .node .. => true
  | .leaf _ => false

mutual

/-- The instructions of a tree. -/
def Tree.code : Tree α → Program α
  | .leaf i => [i]
  | .node o trees => Forest.code trees ++ [.apply o]

/-- The instructions of a forest. -/
def Forest.code : Forest α → Program α
  | [] => []
  | t :: ts => t.code ++ Forest.code ts

end

namespace Forest

/-- How many values a forest leaves on the stack. -/
def count (ts : Forest α) : Nat :=
  ts.countP Tree.isValue

@[simp]
theorem code_nil : code ([] : Forest α) = [] := by rw [code]

@[simp]
theorem code_cons (t : Tree α) (ts : Forest α) : code (t :: ts) = t.code ++ code ts := by rw [code]

@[simp]
theorem code_append (ts us : Forest α) : code (ts ++ us) = code ts ++ code us := by
  induction ts with
  | nil => simp
  | cons t ts ih => simp [ih]

theorem mem_code {i : Instr α} {ts : Forest α} : i ∈ code ts ↔ ∃ t ∈ ts, i ∈ t.code := by
  induction ts with
  | nil => simp
  | cons t ts ih => simp [ih]

@[simp]
theorem count_nil : count ([] : Forest α) = 0 := rfl

@[simp]
theorem count_cons (t : Tree α) (ts : Forest α) : count (t :: ts) = (if t.isValue then 1 else 0) + count ts := by
  rw [count, List.countP_cons, Nat.add_comm]
  rfl

@[simp]
theorem count_append (ts us : Forest α) : count (ts ++ us) = count ts + count us :=
  List.countP_append

/-- Cuts a forest before the trees that leave its last `n` values. -/
def cut (n : Nat) : Forest α → Forest α × Forest α
  | [] => ([], [])
  | t :: ts => if n ≤ count ts then (t :: (cut n ts).1, (cut n ts).2) else ([], t :: ts)

theorem cut_append (n : Nat) (ts : Forest α) : (cut n ts).1 ++ (cut n ts).2 = ts := by
  induction ts with
  | nil => rfl
  | cons t ts ih =>
    unfold cut
    split
    · rw [List.cons_append, ih]
    · rfl

theorem count_cut {n : Nat} {ts : Forest α} (h : n ≤ count ts) : count (cut n ts).2 = n := by
  induction ts with
  | nil => simp_all [cut]
  | cons t ts ih =>
    unfold cut
    split
    next hn => exact ih hn
    next hn =>
      rw [count_cons] at h ⊢
      split at h <;> simp_all <;> omega

/-- Adds an instruction to a forest, an operation together with its operands. Without enough operands there is none. -/
def extend? (ts : Forest α) : Instr α → Option (Forest α)
  | .apply o =>
    if o.arity ≤ count ts then some ((cut o.arity ts).1 ++ [.node o (cut o.arity ts).2]) else none
  | i => some (ts ++ [.leaf i])

theorem extend?_apply {ts us : Forest α} {o : Operation} (h : extend? ts (.apply o) = some us) :
    ∃ below operands, ts = below ++ operands ∧ count operands = o.arity ∧ us = below ++ [.node o operands] := by
  rw [extend?] at h
  split at h
  next hle => exact ⟨_, _, (cut_append _ _).symm, count_cut hle, (Option.some.inj h).symm⟩
  next => cases h

theorem extend?_apply_eq_none {ts : Forest α} {o : Operation} (h : extend? ts (.apply o) = none) :
    count ts < o.arity := by
  rw [extend?] at h
  split at h
  next => cases h
  next hle => exact Nat.lt_of_not_le hle

end Forest

/-- The forest of a program, if no operation lacks operands. -/
def Program.forest? (p : Program α) : Option (Forest α) :=
  p.foldlM Forest.extend? []

/-! ### Sound trees -/

/-- Every operation has as many operands as it takes, operations stand above their operands only, and all operators
    satisfy `P`. -/
inductive Tree.Sound (P : Operator → Prop) : Tree α → Prop
  | leaf {i : Instr α} (h : ∀ o, i ≠ .apply o) : Sound P (.leaf i)
  | node {o : Operation} {ts : Forest α} (op : P o.operator) (arity : Forest.count ts = o.arity)
    (operands : ∀ t ∈ ts, Sound P t) : Sound P (.node o ts)

theorem Tree.sound_nop {P : Operator → Prop} : (Tree.leaf (.nop : Instr α)).Sound P :=
  .leaf fun _ h => by cases h

theorem Tree.sound_push {P : Operator → Prop} (x : α) : (Tree.leaf (.push x)).Sound P :=
  .leaf fun _ h => by cases h

def Forest.Sound (P : Operator → Prop) (ts : Forest α) : Prop :=
  ∀ t ∈ ts, t.Sound P

/-- All operators of a program satisfy `P`. -/
def Program.Uses (P : Operator → Prop) (p : Program α) : Prop :=
  ∀ o, .apply o ∈ p → P o.operator

namespace Forest

variable {P : Operator → Prop}

theorem sound_nil : Sound P ([] : Forest α) := by
  simp [Sound]

theorem sound_cons {t : Tree α} {ts : Forest α} : Sound P (t :: ts) ↔ t.Sound P ∧ Sound P ts := by
  simp [Sound]

theorem sound_append {ts us : Forest α} : Sound P (ts ++ us) ↔ Sound P ts ∧ Sound P us := by
  simp [Sound, or_imp, forall_and]

theorem sound_singleton {t : Tree α} : Sound P [t] ↔ t.Sound P := by
  simp [Sound]

theorem code_extend? {ts us : Forest α} {i : Instr α} (h : extend? ts i = some us) :
    code us = code ts ++ [i] := by
  cases i with
  | apply o =>
    obtain ⟨below, operands, rfl, -, rfl⟩ := extend?_apply h
    simp [Tree.code]
  | _ =>
    obtain rfl := Option.some.inj h
    simp [Tree.code]

theorem sound_extend? {ts us : Forest α} {i : Instr α} (hts : Sound P ts) (hi : ∀ o, i = .apply o → P o.operator)
    (h : extend? ts i = some us) : Sound P us := by
  cases i with
  | apply o =>
    obtain ⟨below, operands, rfl, harity, rfl⟩ := extend?_apply h
    obtain ⟨hbelow, hoperands⟩ := sound_append.mp hts
    exact sound_append.mpr ⟨hbelow, sound_singleton.mpr (.node (hi o rfl) harity hoperands)⟩
  | _ =>
    obtain rfl := Option.some.inj h
    exact sound_append.mpr ⟨hts, sound_singleton.mpr (.leaf fun o ho => by cases ho)⟩

/-- Reading on from a sound forest adds the instructions read. -/
theorem foldlM_extend? {ts us : Forest α} {p : Program α} (hts : Sound P ts) (hp : p.Uses P)
    (h : p.foldlM extend? ts = some us) : code us = code ts ++ p ∧ Sound P us := by
  induction p generalizing ts with
  | nil =>
    obtain rfl : ts = us := Option.some.inj h
    exact ⟨(List.append_nil _).symm, hts⟩
  | cons i p ih =>
    obtain ⟨vs, hi, h⟩ := Option.bind_eq_some_iff.mp h
    have hvs := sound_extend? hts (fun o ho => hp o (by simp [ho])) hi
    obtain ⟨hcode, hus⟩ := ih hvs (fun o ho => hp o (by simp [ho])) h
    rw [hcode, code_extend? hi]
    exact ⟨by simp, hus⟩

theorem code_forest? {p : Program α} {ts : Forest α} (hp : p.Uses P) (h : p.forest? = some ts) :
    code ts = p ∧ Sound P ts := by
  simpa using foldlM_extend? sound_nil hp h

end Forest

theorem Tree.Sound.uses {P : Operator → Prop} {t : Tree α} (h : t.Sound P) : Program.Uses P t.code := by
  induction h with
  | leaf h =>
    intro o ho
    rw [code, List.mem_singleton] at ho
    exact absurd ho.symm (h o)
  | @node o ts hop _ _ ih =>
    intro o' ho'
    rw [code, List.mem_append, List.mem_singleton] at ho'
    rcases ho' with ho' | ho'
    · obtain ⟨t, ht, ho'⟩ := Forest.mem_code.mp ho'
      exact ih t ht o' ho'
    · cases ho'
      exact hop

theorem Forest.Sound.uses {P : Operator → Prop} {ts : Forest α} (h : Sound P ts) : Program.Uses P (code ts) := by
  intro o ho
  obtain ⟨t, ht, ho⟩ := mem_code.mp ho
  exact (h t ht).uses o ho

/-! ### What a forest computes -/

/-- What a part of a program adds to the machine: the values that it leaves, in the order in which they were pushed,
    and the names that are known after it. -/
structure Yield (α : Type) where
  values : List α
  bound : List (String × α)

section Eval

variable (arithmetic : Arithmetic α) (resolve : Resolver α)

mutual

/-- What a tree yields, whatever the stack is below it. -/
def Tree.eval (bound : List (String × α)) : Tree α → Run RunError (Yield α)
  | .leaf i => (Machine.perform arithmetic resolve ⟨[], bound⟩ i).bind fun m => .done ⟨m.stack, m.bound⟩
  | .node o trees =>
    (Forest.eval bound trees).bind fun y => .done ⟨(combine? (arithmetic o.operator) y.values).toList, y.bound⟩

def Forest.eval (bound : List (String × α)) : Forest α → Run RunError (Yield α)
  | [] => .done ⟨[], bound⟩
  | t :: ts => (t.eval bound).bind fun y => (Forest.eval y.bound ts).bind fun z => .done ⟨y.values ++ z.values, z.bound⟩

end

theorem Tree.eval_leaf (bound : List (String × α)) (i : Instr α) :
    (Tree.leaf i).eval arithmetic resolve bound =
      (Machine.perform arithmetic resolve ⟨[], bound⟩ i).bind fun m => .done ⟨m.stack, m.bound⟩ := by
  rw [Tree.eval]

theorem Tree.eval_node (bound : List (String × α)) (o : Operation) (ts : Forest α) :
    (Tree.node o ts).eval arithmetic resolve bound = (Forest.eval arithmetic resolve bound ts).bind fun y =>
      .done ⟨(combine? (arithmetic o.operator) y.values).toList, y.bound⟩ := by
  rw [Tree.eval]

namespace Forest

@[simp]
theorem eval_nil (bound : List (String × α)) : eval arithmetic resolve bound [] = .done ⟨[], bound⟩ := by
  rw [eval]

theorem eval_cons (bound : List (String × α)) (t : Tree α) (ts : Forest α) :
    eval arithmetic resolve bound (t :: ts) = (t.eval arithmetic resolve bound).bind fun y =>
      (eval arithmetic resolve y.bound ts).bind fun z => .done ⟨y.values ++ z.values, z.bound⟩ := by
  rw [eval]

@[simp]
theorem eval_singleton (bound : List (String × α)) (t : Tree α) :
    eval arithmetic resolve bound [t] = t.eval arithmetic resolve bound := by
  simp only [eval_cons, eval_nil, Run.done_bind, List.append_nil]
  exact Run.bind_done _

theorem eval_append (bound : List (String × α)) (ts us : Forest α) :
    eval arithmetic resolve bound (ts ++ us) = (eval arithmetic resolve bound ts).bind fun y =>
      (eval arithmetic resolve y.bound us).bind fun z => .done ⟨y.values ++ z.values, z.bound⟩ := by
  induction ts generalizing bound with
  | nil =>
    rw [List.nil_append, eval_nil, Run.done_bind]
    exact (Run.bind_done _).symm
  | cons t ts ih => simp only [List.cons_append, eval_cons, ih, Run.bind_assoc, Run.done_bind, List.append_assoc]

/-- Trees may be replaced by forests that yield the same. -/
theorem eval_flatMap {f : Tree α → Forest α} {ts : Forest α}
    (h : ∀ t ∈ ts, ∀ bound, eval arithmetic resolve bound (f t) = t.eval arithmetic resolve bound)
    (bound : List (String × α)) :
    eval arithmetic resolve bound (ts.flatMap f) = eval arithmetic resolve bound ts := by
  induction ts generalizing bound with
  | nil => rfl
  | cons t ts ih =>
    rw [List.flatMap_cons, eval_append, eval_cons, h t (by simp)]
    simp only [ih fun t ht => h t (by simp [ht])]

end Forest

end Eval

/-! ### Running a forest -/

section Exec

variable {P : Operator → Prop} {arithmetic : Arithmetic α} {resolve : Resolver α}

/-- The machine after a part of a program that has yielded `y`. -/
def Machine.receive (m : Machine α) (y : Yield α) : Machine α :=
  { stack := y.values.reverse ++ m.stack, bound := y.bound }

/-- An instruction without operands does not look at the stack. -/
theorem Machine.perform_leaf {i : Instr α} (h : ∀ o, i ≠ .apply o) (m : Machine α) :
    m.perform arithmetic resolve i =
      ((Tree.leaf i).eval arithmetic resolve m.bound).bind fun y => .done (m.receive y) := by
  rw [Tree.eval_leaf]
  cases i with
  | declare name => cases hr : resolve name <;> simp [perform, asks, step, hr, Run.done, receive]
  | fetch name => cases hb : m.bound.lookup name <;> simp [perform, asks, step, hb, Run.done, receive]
  | push value => rfl
  | apply o => exact absurd rfl (h o)
  | nop => rfl

theorem Tree.length_values_leaf {i : Instr α} (h : ∀ o, i ≠ .apply o) {bound : List (String × α)} {y : Yield α}
    (hy : ((Tree.leaf i).eval arithmetic resolve bound).result = .ok y) :
    y.values.length = if (Tree.leaf i).isValue then 1 else 0 := by
  obtain ⟨m, hm, hy⟩ := Run.bind_eq_ok (Tree.eval_leaf arithmetic resolve bound i ▸ hy)
  obtain rfl := Except.ok.inj hy
  cases i with
  | declare name => cases hr : resolve name <;> simp [Machine.perform, Machine.step, hr] at hm; simp [← hm, isValue]
  | fetch name => cases hb : bound.lookup name <;> simp [Machine.perform, Machine.step, hb] at hm; simp [← hm, isValue]
  | push value => obtain rfl := Except.ok.inj hm; rfl
  | apply o => exact absurd rfl (h o)
  | nop => obtain rfl := Except.ok.inj hm; rfl

/-- A tree leaves one value or none, and what it leaves is what its instructions push. -/
structure Tree.Runs (arithmetic : Arithmetic α) (resolve : Resolver α) (t : Tree α) : Prop where
  length : ∀ {bound : List (String × α)} {y : Yield α}, (t.eval arithmetic resolve bound).result = .ok y →
    y.values.length = if t.isValue then 1 else 0
  exec : ∀ m : Machine α, m.exec arithmetic resolve t.code =
    (t.eval arithmetic resolve m.bound).bind fun y => .done (m.receive y)

theorem Forest.length_values {ts : Forest α} (h : ∀ t ∈ ts, t.Runs arithmetic resolve) {bound : List (String × α)}
    {y : Yield α} (hy : (eval arithmetic resolve bound ts).result = .ok y) : y.values.length = count ts := by
  induction ts generalizing bound y with
  | nil =>
    rw [eval_nil] at hy
    obtain rfl := Except.ok.inj hy
    rfl
  | cons t ts ih =>
    rw [eval_cons] at hy
    obtain ⟨x, hx, hy⟩ := Run.bind_eq_ok hy
    obtain ⟨z, hz, hy⟩ := Run.bind_eq_ok hy
    obtain rfl := Except.ok.inj hy
    rw [List.length_append, count_cons, (h t (by simp)).length hx, ih (fun t ht => h t (by simp [ht])) hz]

theorem Forest.exec_code_of_runs {ts : Forest α} (h : ∀ t ∈ ts, t.Runs arithmetic resolve) (m : Machine α) :
    m.exec arithmetic resolve (code ts) =
      (eval arithmetic resolve m.bound ts).bind fun y => .done (m.receive y) := by
  induction ts generalizing m with
  | nil => simp [Machine.receive]
  | cons t ts ih =>
    rw [code_cons, Machine.exec_append, (h t (by simp)).exec m, eval_cons]
    simp only [Run.bind_assoc, Run.done_bind, ih fun t ht => h t (by simp [ht])]
    congr 1
    funext y
    congr 1
    funext z
    simp [Machine.receive]

theorem Machine.perform_apply_receive {o : Operation} {y : Yield α} (h : y.values.length = o.arity) (m : Machine α) :
    (m.receive y).perform arithmetic resolve (.apply o) =
      .done (m.receive ⟨(combine? (arithmetic o.operator) y.values).toList, y.bound⟩) := by
  obtain ⟨x, hx⟩ := exists_combine? (arithmetic o.operator) h
  rw [perform_apply_append arithmetic resolve rfl h hx, hx]
  rfl

theorem Tree.Sound.runs {t : Tree α} (h : t.Sound P) : t.Runs arithmetic resolve := by
  induction h with
  | leaf h => exact ⟨length_values_leaf h, fun m => by rw [code, Machine.exec_singleton, Machine.perform_leaf h]⟩
  | @node o ts _ arity _ ih =>
    constructor
    · intro bound y hy
      rw [eval_node] at hy
      obtain ⟨z, hz, hy⟩ := Run.bind_eq_ok hy
      obtain rfl := Except.ok.inj hy
      have hlength := Forest.length_values ih hz
      cases hv : z.values with
      | nil => simp [hv, arity, Operation.arity] at hlength
      | cons x rest => simp [combine?, isValue]
    · intro m
      rw [code, Machine.exec_append, Forest.exec_code_of_runs ih, eval_node]
      simp only [Run.bind_assoc, Run.done_bind, Machine.exec_singleton]
      refine Run.bind_congr fun y hy => ?_
      exact Machine.perform_apply_receive ((Forest.length_values ih hy).trans arity) m

theorem Forest.exec_code {ts : Forest α} (h : Sound P ts) (m : Machine α) :
    m.exec arithmetic resolve (code ts) =
      (eval arithmetic resolve m.bound ts).bind fun y => .done (m.receive y) :=
  exec_code_of_runs (fun t ht => (h t ht).runs) m

end Exec

/-! ### Regrouping operands -/

/-- The lists give the same result among any other operands. -/
def Regroups (f : α → α → α) (xs ys : List α) : Prop :=
  ∀ before after, combine? f (before ++ xs ++ after) = combine? f (before ++ ys ++ after)

namespace Regroups

variable {f : α → α → α}

theorem refl (xs : List α) : Regroups f xs xs := fun _ _ => rfl

theorem symm {xs ys : List α} (h : Regroups f xs ys) : Regroups f ys xs := fun before after => (h before after).symm

theorem append {xs ys xs' ys' : List α} (h : Regroups f xs ys) (h' : Regroups f xs' ys') :
    Regroups f (xs ++ xs') (ys ++ ys') := fun before after => by
  have h₁ := h before (xs' ++ after)
  have h₂ := h' (before ++ ys) after
  simp only [List.append_assoc] at h₁ h₂ ⊢
  exact h₁.trans h₂

theorem combine (hf : Std.Associative f) (xs : List α) : Regroups f xs (combine? f xs).toList := by
  intro before after
  cases xs with
  | nil => rfl
  | cons x rest =>
    cases before with
    | nil => simp [combine?, List.foldl_append]
    | cons y before => simp [combine?, List.foldl_append, List.foldl_assoc]

end Regroups

/-- The same names are known, and the values differ in their grouping only. -/
def Yield.Regroups (f : α → α → α) (y z : Yield α) : Prop :=
  StackCalc.Regroups f y.values z.values ∧ y.bound = z.bound

namespace Forest

variable (arithmetic : Arithmetic α) (resolve : Resolver α)

/-- The forests yield the same values up to grouping by `f`. -/
def Regroups (f : α → α → α) (ts us : Forest α) : Prop :=
  ∀ bound, Run.Similar Eq (Yield.Regroups f) (eval arithmetic resolve bound ts) (eval arithmetic resolve bound us)

namespace Regroups

variable {arithmetic : Arithmetic α} {resolve : Resolver α} {f : α → α → α}

theorem refl (ts : Forest α) : Regroups arithmetic resolve f ts ts := fun _ =>
  Run.Similar.rfl' (fun _ => rfl) (fun _ => ⟨.refl _, rfl⟩) _

theorem append {ts us ts' us' : Forest α} (h : Regroups arithmetic resolve f ts us)
    (h' : Regroups arithmetic resolve f ts' us') : Regroups arithmetic resolve f (ts ++ ts') (us ++ us') := by
  intro bound
  rw [eval_append, eval_append]
  refine (h bound).bind ?_
  rintro y ⟨ys, known⟩ ⟨hy, rfl⟩
  refine (h' y.bound).bind ?_
  rintro z ⟨zs, known⟩ ⟨hz, rfl⟩
  exact .done ⟨hy.append hz, rfl⟩

theorem eval_node {ts us : Forest α} {o o' : Operation} (ho : o'.operator = o.operator)
    (h : Regroups arithmetic resolve (arithmetic o.operator) us ts) (bound : List (String × α)) :
    (Tree.node o' us).eval arithmetic resolve bound = (Tree.node o ts).eval arithmetic resolve bound := by
  rw [Tree.eval_node, Tree.eval_node, ho]
  refine ((h bound).bind ?_).eq
  rintro y ⟨zs, known⟩ ⟨hy, rfl⟩
  have hcombine := hy [] []
  simp only [List.nil_append, List.append_nil] at hcombine
  rw [hcombine]
  exact .done rfl

end Regroups

end Forest

end StackCalc
