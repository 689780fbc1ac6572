import Mathlib.Algebra.BigOperators.Group.List.Basic
import Mathlib.Algebra.Ring.Int.Defs
import Mathlib.Order.Nat
import StackCalc.Proofs.Execution

/-!
What decides whether a program has a value. The depth of the stack before an instruction is the sum of the effects of
the instructions before it, as the listing shows it, as long as nothing has failed. A program fails at the first
instruction that declares a name without a value, fetches a name that has not been declared, or takes more operands than
the depth; if there is none, the depth at the end says whether one value is left. No value of a name matters to any of
this.
-/

namespace StackCalc

/-! ### Depths and faults -/

namespace Program

variable {α : Type}

/-- The sum of the effects. -/
def depth (p : Program α) : Int :=
  (p.map Instr.effect).sum

@[simp]
theorem depth_append_singleton (p : Program α) (i : Instr α) : (p ++ [i]).depth = p.depth + i.effect := by
  simp [depth]

@[simp]
theorem symbols_append (p q : Program α) : (p ++ q).symbols = p.symbols ++ q.symbols :=
  List.filterMap_append ..

@[simp]
theorem symbols_singleton (i : Instr α) : symbols [i] = Machine.asks i := by
  cases i <;> rfl

/-- The instructions before a position. -/
def before (p : Program α) (position : Nat) : Program α :=
  p.take position

theorem before_succ {p : Program α} {position : Nat} {i : Instr α} (h : p[position]? = some i) :
    p.before (position + 1) = p.before position ++ [i] := by
  simp [before, List.take_add_one, h]

theorem before_append_cons_drop {p : Program α} {position : Nat} {i : Instr α} (h : p[position]? = some i) :
    p.before position ++ i :: p.drop (position + 1) = p := by
  obtain ⟨hlt, rfl⟩ := List.getElem?_eq_some_iff.mp h
  rw [before, List.getElem_cons_drop, List.take_append_drop]

theorem before_of_none {p : Program α} {position : Nat} (h : p[position]? = none) : p.before position = p :=
  List.take_of_length_le (List.getElem?_eq_none_iff.mp h)

end Program

variable {α : Type}

/-- The error that an instruction meets after the program `before`. -/
def Instr.fault? (resolve : Resolver α) (before : Program α) : Instr α → Option RunError
  | .declare name => if (resolve name).isSome then none else some (.unbound name)
  | .fetch name => if name ∈ before.symbols then none else some (.unbound name)
  | .apply o => if before.depth < o.arity then some (.underflow o before.depth.toNat) else none
  | .push _ | .nop => none

/-- The error that the instruction at a position meets, if nothing has failed before it. -/
def Program.faultAt? (resolve : Resolver α) (p : Program α) (position : Nat) : Option RunError :=
  p[position]?.bind (Instr.fault? resolve (p.before position))

/-- There is no fault, or a first one. -/
theorem Program.no_fault_or_first (resolve : Resolver α) (p : Program α) :
    (∀ position, p.faultAt? resolve position = none) ∨
      ∃ position error, (∀ j < position, p.faultAt? resolve j = none) ∧
        p.faultAt? resolve position = some error := by
  by_cases h : ∃ position, (p.faultAt? resolve position).isSome = true
  · obtain ⟨error, herror⟩ := Option.isSome_iff_exists.mp (Nat.find_spec h)
    refine .inr ⟨Nat.find h, error, fun j hj => ?_, herror⟩
    simpa using Nat.find_min h hj
  · exact .inl (by simpa using h)

/-! ### The machine and what has been read -/

namespace Machine

variable (arithmetic : Arithmetic α) {resolve : Resolver α} {m : Machine α} {before : Program α} {i : Instr α}

/-- The stack is as deep as the instructions before say, and exactly the names that they declare are bound. -/
structure Mirrors (m : Machine α) (before : Program α) : Prop where
  depth_eq : (m.stack.length : Int) = before.depth
  names_eq : m.bound.map Prod.fst = before.symbols.reverse

theorem mirrors_nil : Mirrors ({} : Machine α) [] :=
  ⟨rfl, rfl⟩

theorem Mirrors.exists_lookup_iff (h : m.Mirrors before) {name : String} :
    (∃ x, m.bound.lookup name = some x) ↔ name ∈ before.symbols := by
  rw [← Option.isSome_iff_exists, ← List.mem_reverse, ← h.names_eq]
  simp

theorem Mirrors.step_eq_error (h : m.Mirrors before) {error : RunError} (hi : i.fault? resolve before = some error) :
    m.step arithmetic resolve i = .error error := by
  cases i with
  | declare name =>
    rcases hname : resolve name with _ | x <;> simp [Instr.fault?, hname] at hi
    simp [step, hname, hi]
  | fetch name =>
    obtain ⟨hnew, rfl⟩ : name ∉ before.symbols ∧ RunError.unbound name = error := by simpa [Instr.fault?] using hi
    have hnone : m.bound.lookup name = none := Option.eq_none_iff_forall_ne_some.mpr fun x hx =>
      hnew (h.exists_lookup_iff.mp ⟨x, hx⟩)
    simp only [step, hnone]
  | apply o =>
    obtain ⟨hlt, rfl⟩ : before.depth < o.arity ∧ RunError.underflow o before.depth.toNat = error := by
      simpa [Instr.fault?] using hi
    have hdepth := h.depth_eq
    have hshort : m.stack.length < o.arity := by omega
    have hsize : before.depth.toNat = m.stack.length := by omega
    simp [step, reduce?, pop?_eq_none_iff.mpr hshort, hsize]
  | push value => cases hi
  | nop => cases hi

theorem Mirrors.of_push (h : m.Mirrors before) (heffect : i.effect = 1) (hasks : asks i = []) (x : α) :
    Mirrors { m with stack := x :: m.stack } (before ++ [i]) where
  depth_eq := by simp [heffect, ← h.depth_eq]
  names_eq := by simp [hasks, h.names_eq]

theorem Mirrors.step_eq_ok (h : m.Mirrors before) (hi : i.fault? resolve before = none) :
    ∃ next, m.step arithmetic resolve i = .ok next ∧ next.Mirrors (before ++ [i]) := by
  cases i with
  | declare name =>
    obtain ⟨x, hx⟩ : ∃ x, resolve name = some x := by simpa [Instr.fault?, Option.isSome_iff_exists] using hi
    refine ⟨{ m with bound := (name, x) :: m.bound }, by simp [step, hx], ?_, ?_⟩
    · simp [Instr.effect, h.depth_eq]
    · simp [asks, h.names_eq]
  | fetch name =>
    have hold : name ∈ before.symbols := by simpa [Instr.fault?] using hi
    obtain ⟨x, hx⟩ := h.exists_lookup_iff.mpr hold
    exact ⟨{ m with stack := x :: m.stack }, by simp only [step, hx], h.of_push rfl rfl x⟩
  | push x => exact ⟨{ m with stack := x :: m.stack }, rfl, h.of_push rfl rfl x⟩
  | apply o =>
    have henough : ¬ before.depth < o.arity := by simpa [Instr.fault?] using hi
    have hdepth := h.depth_eq
    have hlong : o.arity ≤ m.stack.length := by omega
    obtain ⟨values, rest, hstack, hlength⟩ := exists_operands hlong
    obtain ⟨x, hx⟩ := exists_combine? (arithmetic o.operator) hlength
    refine ⟨{ m with stack := x :: rest }, ?_, ?_, ?_⟩
    · exact congrArg Run.result (perform_apply_append arithmetic resolve hstack hlength hx)
    · have hsize : m.stack.length = o.arity + rest.length := by simp [hstack, hlength]
      simp only [Program.depth_append_singleton, Instr.effect, List.length_cons]
      omega
    · simp [asks, h.names_eq]
  | nop =>
    refine ⟨m, rfl, ?_, ?_⟩
    · simp [Instr.effect, h.depth_eq]
    · simp [asks, h.names_eq]

/-- The run up to a position, if nothing fails before it. -/
theorem exists_exec_before {p : Program α} {position : Nat} (h : ∀ j < position, p.faultAt? resolve j = none) :
    ∃ m : Machine α, exec arithmetic resolve {} (p.before position) = ⟨(p.before position).symbols, .ok m⟩ ∧
      m.Mirrors (p.before position) := by
  induction position with
  | zero => exact ⟨{}, rfl, mirrors_nil⟩
  | succ position ih =>
    obtain ⟨m, hexec, hm⟩ := ih fun j hj => h j (Nat.lt_succ_of_lt hj)
    rcases hi : p[position]? with _ | i
    · -- the program has ended before
      have hnext : p[position + 1]? = none := by simp at hi ⊢; omega
      rw [Program.before_of_none hi] at hexec hm
      rw [Program.before_of_none hnext]
      exact ⟨m, hexec, hm⟩
    · have hfault : i.fault? resolve (p.before position) = none := by
        simpa [Program.faultAt?, hi] using h position (Nat.lt_succ_self _)
      obtain ⟨next, hstep, hnext⟩ := hm.step_eq_ok arithmetic hfault
      rw [Program.before_succ hi, exec_append, hexec, Run.bind_ok, exec_singleton, perform, hstep,
        Program.symbols_append, Program.symbols_singleton]
      exact ⟨next, rfl, hnext⟩

end Machine

/-! ### The outcome of a run -/

namespace Program

variable (arithmetic : Arithmetic α) {resolve : Resolver α} {p : Program α}

theorem run_eq_of_exec_error {before : Program α} {i : Instr α} {asked : List String} {m : Machine α}
    {error : RunError} (rest : Program α) (hexec : Machine.exec arithmetic resolve {} before = ⟨asked, .ok m⟩)
    (hstep : m.step arithmetic resolve i = .error error) :
    (before ++ i :: rest).run arithmetic resolve = ⟨asked ++ Machine.asks i, .error error⟩ := by
  rw [run, Machine.run_eq_exec, Machine.exec_append, hexec, Run.bind_ok, Machine.exec_cons, Machine.perform, hstep]
  rfl

theorem run_of_fault {position : Nat} {error : RunError} (hfirst : ∀ j < position, p.faultAt? resolve j = none)
    (hfault : p.faultAt? resolve position = some error) :
    ∃ m i, Machine.exec arithmetic resolve {} (p.before position) = ⟨(p.before position).symbols, .ok m⟩ ∧
      m.Mirrors (p.before position) ∧ p[position]? = some i ∧ m.step arithmetic resolve i = .error error ∧
      p.run arithmetic resolve = ⟨(p.before (position + 1)).symbols, .error error⟩ := by
  obtain ⟨m, hexec, hm⟩ := Machine.exists_exec_before arithmetic hfirst
  obtain ⟨i, hi, hfault⟩ := Option.bind_eq_some_iff.mp hfault
  have hstep := hm.step_eq_error arithmetic hfault
  have hrun := run_eq_of_exec_error arithmetic (p.drop (position + 1)) hexec hstep
  rw [before_append_cons_drop hi, ← symbols_singleton, ← symbols_append, ← before_succ hi] at hrun
  exact ⟨m, i, hexec, hm, hi, hstep, hrun⟩

theorem depth_le_length (p : Program α) : p.depth ≤ p.length := by
  have heffect : ∀ i : Instr α, i.effect ≤ 1 := by
    intro i
    cases i with
    | apply o =>
      rw [Instr.effect]
      omega
    | _ => simp [Instr.effect]
  induction p with
  | nil => exact Int.le_refl 0
  | cons i p ih =>
    have hi := heffect i
    simp only [depth, List.map_cons, List.sum_cons, List.length_cons] at ih ⊢
    omega

/-- In a program that has a value, no operation has more operands than the program has instructions. -/
theorem arity_le_length {x : α} (h : (p.run arithmetic resolve).result = .ok x) {o : Operation}
    (ho : .apply o ∈ p) : o.arity ≤ p.length := by
  rcases p.no_fault_or_first resolve with hnone | ⟨position, error, hfirst, hfault⟩
  · obtain ⟨position, hposition⟩ := List.getElem?_of_mem ho
    have henough : ¬(p.before position).depth < o.arity := by
      simpa [faultAt?, hposition, Instr.fault?] using hnone position
    have hdepth := (p.before position).depth_le_length
    have hlength : (p.before position).length ≤ p.length := List.length_take_le' _ _
    omega
  · obtain ⟨-, -, -, -, -, -, hrun⟩ := run_of_fault arithmetic hfirst hfault
    rw [hrun] at h
    cases h

end Program

end StackCalc
