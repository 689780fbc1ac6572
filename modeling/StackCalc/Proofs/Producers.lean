import StackCalc.Proofs.Tracing

/-!
Which instructions produced the operands of an operation. Running a program on a stack that remembers, in the place of
every value, the instruction that pushed it, gives every operation the producers of its operands. In a forest these are
the roots of the trees that leave the operands, however the instructions that leave nothing are spread among the trees.
So what all operations of a program find on the stack is what all nodes of a forest with the same instructions have
below them.
-/

namespace StackCalc

variable {α : Type}

/-! ### The simulated stack -/

/-- The simulated stack after one more instruction. -/
def Instr.settle? (stack : List (Instr α)) : Instr α → Option (List (Instr α))
  | .apply o => (pop? o.arity stack).map fun (_, rest) => .apply o :: rest
  | .push x => some (.push x :: stack)
  | .fetch name => some (.fetch name :: stack)
  | .declare _ | .nop => some stack

theorem Instr.eq_nop_of_isNop {i : Instr α} (h : i.isNop = true) : i = .nop := by
  cases i <;> simp_all [isNop]

namespace Program

/-- The simulated stack after a program, top first: for every value the instruction that produced it. There is none if
    an operation lacks operands. -/
def producers? (p : Program α) : Option (List (Instr α)) :=
  p.foldlM Instr.settle? []

/-- The instructions that produced the operands of an operation that comes after the program `before`. -/
def operands? (before : Program α) (o : Operation) : Option (List (Instr α)) := do
  let (operands, _) ← pop? o.arity (← before.producers?)
  return operands

/-- From the simulated stack `stack` on, every operation finds operands whose producers satisfy `Q`. -/
def Finds (Q : Operation → List (Instr α) → Prop) : List (Instr α) → Program α → Prop
  | _, [] => True
  | stack, i :: p =>
    (∀ o, i = .apply o → ∃ operands rest, pop? o.arity stack = some (operands, rest) ∧ Q o operands) ∧
      ∀ next, i.settle? stack = some next → Finds Q next p

variable {Q : Operation → List (Instr α) → Prop}

theorem finds_append {p q : Program α} {stack next : List (Instr α)} (h : p.foldlM Instr.settle? stack = some next) :
    Finds Q stack (p ++ q) ↔ Finds Q stack p ∧ Finds Q next q := by
  induction p generalizing stack with
  | nil =>
    obtain rfl : stack = next := Option.some.inj h
    simp [Finds]
  | cons i p ih =>
    obtain ⟨middle, hi, h⟩ := Option.bind_eq_some_iff.mp h
    simp only [List.cons_append, Finds, hi, Option.some.injEq, forall_eq', ih h, and_assoc]

/-- Instructions without effect can be left out of a fold that does not look at them. -/
theorem foldlM_filter_isNop {β : Type} {f : β → Instr α → Option β} (hnop : ∀ state, f state .nop = some state)
    (p : Program α) (state : β) : (p.filter fun i => !i.isNop).foldlM f state = p.foldlM f state := by
  induction p generalizing state with
  | nil => rfl
  | cons i p ih =>
    by_cases h : i.isNop = true
    · obtain rfl := Instr.eq_nop_of_isNop h
      rw [List.filter_cons_of_neg (by simp [Instr.isNop]), ih, List.foldlM_cons, hnop]
      rfl
    · rw [List.filter_cons_of_pos (by simpa using h)]
      simp only [List.foldlM_cons, ih]

theorem finds_filter_isNop {p : Program α} {stack : List (Instr α)} :
    Finds Q stack (p.filter fun i => !i.isNop) ↔ Finds Q stack p := by
  induction p generalizing stack with
  | nil => rfl
  | cons i p ih =>
    by_cases h : i.isNop = true
    · obtain rfl := Instr.eq_nop_of_isNop h
      rw [List.filter_cons_of_neg (by simp [Instr.isNop]), ih]
      simp [Finds, Instr.settle?]
    · rw [List.filter_cons_of_pos (by simpa using h)]
      simp only [Finds, ih]

/-- What an operation of a program finds. -/
theorem Finds.exists_operands? {before after : Program α} {o : Operation} (h : Finds Q [] (before ++ .apply o :: after))
    (hp : (before ++ .apply o :: after).producers?.isSome = true) :
    ∃ operands, before.operands? o = some operands ∧ Q o operands := by
  obtain ⟨stack, hstack⟩ := Option.isSome_iff_exists.mp hp
  rw [producers?, List.foldlM_append] at hstack
  obtain ⟨middle, hbefore, -⟩ := Option.bind_eq_some_iff.mp hstack
  obtain ⟨operands, rest, hpop, hQ⟩ := ((finds_append hbefore).mp h).2.1 o rfl
  exact ⟨operands, by simp [operands?, producers?, hbefore, hpop], hQ⟩

end Program

/-! ### The height of the stack -/

/-- The height of the stack after one more instruction. -/
def Instr.rise? (height : Nat) : Instr α → Option Nat
  | .apply o => if o.arity ≤ height then some (height - o.extra) else none
  | .push _ | .fetch _ => some (height + 1)
  | .declare _ | .nop => some height

theorem Instr.map_length_settle? (stack : List (Instr α)) (i : Instr α) :
    (i.settle? stack).map List.length = i.rise? stack.length := by
  cases i with
  | apply o =>
    by_cases h : o.arity ≤ stack.length
    · have hheight : stack.length - o.arity + 1 = stack.length - o.extra := by
        rw [Operation.arity] at h ⊢
        omega
      simp [settle?, pop?, rise?, h, hheight]
    · simp [settle?, pop?, rise?, h]
  | _ => rfl

namespace Program

theorem map_length_foldlM_settle? (stack : List (Instr α)) (p : Program α) :
    (p.foldlM Instr.settle? stack).map List.length = p.foldlM Instr.rise? stack.length := by
  induction p generalizing stack with
  | nil => rfl
  | cons i p ih =>
    rw [List.foldlM_cons, List.foldlM_cons, ← Instr.map_length_settle?]
    cases i.settle? stack with
    | none => rfl
    | some next => exact ih next

/-- Only the heights of the stack decide whether operands are lacking. -/
theorem isSome_producers? (p : Program α) : p.producers?.isSome = (p.foldlM Instr.rise? 0).isSome := by
  have h := map_length_foldlM_settle? [] p
  rw [List.length_nil] at h
  rw [← h, Option.isSome_map]
  rfl

end Program

/-! ### Producers in a forest -/

namespace Forest

/-- The instructions that produce the values of a forest, in order. -/
def producers (ts : Forest α) : List (Instr α) :=
  (ts.filter Tree.isValue).map Tree.root

@[simp]
theorem producers_nil : producers ([] : Forest α) = [] := rfl

@[simp]
theorem producers_append (ts us : Forest α) : producers (ts ++ us) = producers ts ++ producers us := by
  simp [producers]

theorem producers_cons (t : Tree α) (ts : Forest α) : producers (t :: ts) = producers [t] ++ producers ts :=
  producers_append [t] ts

theorem mem_producers {i : Instr α} {ts : Forest α} : i ∈ producers ts ↔ ∃ t ∈ ts, t.isValue = true ∧ t.root = i := by
  simp [producers, and_assoc]

theorem mem_producers_flatMap {f : Tree α → Forest α} {i : Instr α} {ts : Forest α} :
    i ∈ producers (ts.flatMap f) ↔ ∃ t ∈ ts, i ∈ producers (f t) := by
  simp only [mem_producers, List.mem_flatMap]
  constructor
  · rintro ⟨u, ⟨t, ht, hu⟩, hroot⟩
    exact ⟨t, ht, u, hu, hroot⟩
  · rintro ⟨t, ht, u, hu, hroot⟩
    exact ⟨u, ⟨t, ht, hu⟩, hroot⟩

@[simp]
theorem producers_node (o : Operation) (ts : Forest α) : producers [.node o ts] = [.apply o] := rfl

theorem length_producers (ts : Forest α) : (producers ts).length = count ts := by
  rw [producers, List.length_map, count, List.countP_eq_length_filter]

theorem pop?_producers {o : Operation} {ts : Forest α} (h : count ts = o.arity) (stack : List (Instr α)) :
    pop? o.arity ((producers ts).reverse ++ stack) = some (producers ts, stack) := by
  rw [← h, ← length_producers]
  exact pop?_reverse_append _ _

theorem settle?_producers {ts : Forest α} (i : Instr α) :
    i.settle? (producers ts).reverse = (extend? ts i).map fun us => (producers us).reverse := by
  cases i with
  | apply o =>
    cases h : extend? ts (.apply o) with
    | none =>
      have hpop : pop? o.arity (producers ts).reverse = none :=
        pop?_eq_none_iff.mpr (by simpa [length_producers] using extend?_apply_eq_none h)
      simp [Instr.settle?, hpop]
    | some us =>
      obtain ⟨below, operands, rfl, harity, rfl⟩ := extend?_apply h
      have hpop := pop?_producers harity (producers below).reverse
      simp [Instr.settle?, hpop]
  | _ =>
    simp only [extend?, Option.map_some, producers_append, List.reverse_append]
    rfl

end Forest

/-- The simulated stack remembers the roots of the forest of a program. -/
theorem Program.producers?_eq_map_forest? (p : Program α) :
    p.producers? = p.forest?.map fun ts => (Forest.producers ts).reverse := by
  suffices h : ∀ ts : Forest α, p.foldlM Instr.settle? (Forest.producers ts).reverse =
      (p.foldlM Forest.extend? ts).map fun us => (Forest.producers us).reverse from h []
  induction p with
  | nil => exact fun ts => rfl
  | cons i p ih =>
    intro ts
    rw [List.foldlM_cons, List.foldlM_cons, Forest.settle?_producers]
    cases Forest.extend? ts i with
    | none => rfl
    | some us => exact ih us

theorem Program.isSome_forest? (p : Program α) : p.forest?.isSome = p.producers?.isSome := by
  rw [producers?_eq_map_forest?, Option.isSome_map]

/-! ### Nodes and what they have below them -/

/-- Every node of a tree has operands whose producers satisfy `Q`. -/
inductive Tree.Meets (Q : Operation → List (Instr α) → Prop) : Tree α → Prop
  | leaf (i : Instr α) : Meets Q (.leaf i)
  | node {o : Operation} {ts : Forest α} (found : Q o (Forest.producers ts)) (operands : ∀ t ∈ ts, Meets Q t) :
    Meets Q (.node o ts)

def Forest.Meets (Q : Operation → List (Instr α) → Prop) (ts : Forest α) : Prop :=
  ∀ t ∈ ts, t.Meets Q

section Meets

variable {P : Operator → Prop} {Q : Operation → List (Instr α) → Prop}

theorem Tree.meets_node {o : Operation} {ts : Forest α} :
    (Tree.node o ts).Meets Q ↔ Q o (Forest.producers ts) ∧ Forest.Meets Q ts := by
  constructor
  · rintro (_ | ⟨found, operands⟩)
    exact ⟨found, operands⟩
  · rintro ⟨found, operands⟩
    exact .node found operands

/-- The code of a tree leaves its root on the stack, if it leaves a value, and its operations find what its nodes have
    below them. -/
structure Tree.Settles (Q : Operation → List (Instr α) → Prop) (t : Tree α) : Prop where
  stack : ∀ stack, t.code.foldlM Instr.settle? stack = some ((Forest.producers [t]).reverse ++ stack)
  finds : ∀ stack, Program.Finds Q stack t.code ↔ t.Meets Q

theorem Forest.foldlM_code_of_settles {ts : Forest α} (h : ∀ t ∈ ts, t.Settles Q) (stack : List (Instr α)) :
    (code ts).foldlM Instr.settle? stack = some ((producers ts).reverse ++ stack) := by
  induction ts generalizing stack with
  | nil => rfl
  | cons t ts ih =>
    have hts := ih fun t ht => h t (by simp [ht])
    rw [code_cons, List.foldlM_append, (h t (by simp)).stack, producers_cons t ts, List.reverse_append,
      List.append_assoc]
    exact hts _

theorem Forest.finds_code_of_settles {ts : Forest α} (h : ∀ t ∈ ts, t.Settles Q) (stack : List (Instr α)) :
    Program.Finds Q stack (code ts) ↔ Meets Q ts := by
  induction ts generalizing stack with
  | nil => simp [Program.Finds, Meets]
  | cons t ts ih =>
    have ht := h t (by simp)
    rw [code_cons, Program.finds_append (ht.stack stack), ht.finds, ih fun t ht => h t (by simp [ht])]
    simp [Meets]

theorem Tree.Sound.settles {t : Tree α} (h : t.Sound P) : t.Settles Q := by
  induction h with
  | @leaf i h =>
    constructor
    · intro stack
      cases i with
      | apply o => exact absurd rfl (h o)
      | _ => rfl
    · intro stack
      refine iff_of_true ?_ (.leaf i)
      rw [code, Program.Finds]
      exact ⟨fun o ho => absurd ho (h o), fun _ _ => trivial⟩
  | @node o ts _ harity _ ih =>
    have hpop := fun stack => Forest.pop?_producers harity stack
    constructor
    · intro stack
      rw [code, List.foldlM_append, Forest.foldlM_code_of_settles ih]
      simp [Instr.settle?, hpop]
    · intro stack
      rw [code, Program.finds_append (Forest.foldlM_code_of_settles ih stack), Forest.finds_code_of_settles ih,
        meets_node, and_comm]
      simp [Program.Finds, hpop]

theorem Forest.Sound.producers?_code {ts : Forest α} (h : Sound P ts) :
    (code ts).producers? = some (producers ts).reverse := by
  have hts : ∀ t ∈ ts, t.Settles fun _ _ => True := fun t ht => (h t ht).settles
  simpa [Program.producers?] using foldlM_code_of_settles hts []

theorem Forest.Sound.finds_code {ts : Forest α} (h : Sound P ts) (stack : List (Instr α)) :
    Program.Finds Q stack (code ts) ↔ Meets Q ts :=
  finds_code_of_settles (fun t ht => (h t ht).settles) stack

end Meets

end StackCalc
