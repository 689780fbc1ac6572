import StackCalc.Machine

/-!
Executing pieces of a program. A run is a result together with the names that were asked for on the way, so runs can
be continued one after the other. The execution of a program is the machine that it leaves, and executions compose
along `++`; a run of the whole program is an execution and a look at the stack at the end.

Two runs are compared by a relation on their errors and one on their results. They have asked for the same names
whatever these relations are.
-/

namespace StackCalc

attribute [ext] Run

theorem eq_ok_of_toOption {ε β : Type} {r : Except ε β} {x : β} (h : r.toOption = some x) : r = .ok x := by
  cases r with
  | error error => cases h
  | ok y => exact congrArg Except.ok (Option.some.inj h)

namespace Run

variable {ε α β γ δ : Type}

/-- A run that asks for nothing and has a result. -/
def done (x : α) : Run ε α := ⟨[], .ok x⟩

/-- Goes on with the result of a run, if it has one. -/
def bind (r : Run ε α) (f : α → Run ε β) : Run ε β :=
  match r.result with
  | .ok x => ⟨r.asked ++ (f x).asked, (f x).result⟩
  | .error error => ⟨r.asked, .error error⟩

@[simp]
theorem bind_ok (asked : List String) (x : α) (f : α → Run ε β) :
    bind ⟨asked, .ok x⟩ f = ⟨asked ++ (f x).asked, (f x).result⟩ := rfl

@[simp]
theorem bind_error (asked : List String) (error : ε) (f : α → Run ε β) :
    bind ⟨asked, .error error⟩ f = ⟨asked, .error error⟩ := rfl

@[simp]
theorem done_bind (x : α) (f : α → Run ε β) : (done x).bind f = f x := rfl

@[simp]
theorem bind_done (r : Run ε α) : r.bind done = r := by
  obtain ⟨asked, error | x⟩ := r
  · rfl
  · simp [done]

theorem bind_assoc (r : Run ε α) (f : α → Run ε β) (g : β → Run ε γ) :
    (r.bind f).bind g = r.bind fun x => (f x).bind g := by
  obtain ⟨asked, error | x⟩ := r
  · rfl
  · rw [bind_ok, bind_ok]
    obtain ⟨asked', error | y⟩ := f x
    · rfl
    · simp

theorem bind_congr {r : Run ε α} {f g : α → Run ε β} (h : ∀ x, r.result = .ok x → f x = g x) :
    r.bind f = r.bind g := by
  obtain ⟨asked, error | x⟩ := r
  · rfl
  · rw [bind_ok, bind_ok, h x rfl]

theorem bind_eq_ok {r : Run ε α} {f : α → Run ε β} {y : β} (h : (r.bind f).result = .ok y) :
    ∃ x, r.result = .ok x ∧ (f x).result = .ok y := by
  obtain ⟨asked, error | x⟩ := r
  · cases h
  · exact ⟨x, rfl, h⟩

/-! ### Comparing runs -/

/-- Both runs asked for the same names, and both failed with errors related by `E` or both have results related
    by `R`. -/
def Similar (E : ε → ε → Prop) (R : α → β → Prop) (r : Run ε α) (s : Run ε β) : Prop :=
  r.asked = s.asked ∧
    match r.result, s.result with
    | .ok x, .ok y => R x y
    | .error e, .error f => E e f
    | _, _ => False

namespace Similar

variable {E : ε → ε → Prop} {R : α → β → Prop}

theorem ok {asked : List String} {x : α} {y : β} (h : R x y) : Similar E R ⟨asked, .ok x⟩ ⟨asked, .ok y⟩ :=
  ⟨rfl, h⟩

theorem error {asked : List String} {e f : ε} (h : E e f) :
    Similar E R ⟨asked, .error e⟩ ⟨asked, .error f⟩ :=
  ⟨rfl, h⟩

theorem done {x : α} {y : β} (h : R x y) : Similar E R (Run.done x) (Run.done y) :=
  ok h

theorem rfl' {E : ε → ε → Prop} {R : α → α → Prop} (hE : ∀ e, E e e) (hR : ∀ x, R x x) (r : Run ε α) :
    Similar E R r r := by
  obtain ⟨asked, e | x⟩ := r
  · exact error (hE e)
  · exact ok (hR x)

theorem trans {r s t : Run ε α} (hE : ∀ e f g, E e f → E f g → E e g) (h₁ : Similar E Eq r s)
    (h₂ : Similar E Eq s t) : Similar E Eq r t := by
  obtain ⟨asked, e | x⟩ := r <;> obtain ⟨asked', f | y⟩ := s <;> obtain ⟨asked'', g | z⟩ := t <;>
    obtain ⟨ha, h₁⟩ := h₁ <;> obtain ⟨hb, h₂⟩ := h₂ <;> cases ha <;> cases hb
  · exact error (hE e f g h₁ h₂)
  · exact h₂.elim
  · exact h₁.elim
  · exact h₁.elim
  · exact h₁.elim
  · exact h₁.elim
  · exact h₂.elim
  · exact ok (Eq.trans h₁ h₂)

theorem bind {S : γ → δ → Prop} {r : Run ε α} {s : Run ε β} {f : α → Run ε γ} {g : β → Run ε δ}
    (h : Similar E R r s) (hfg : ∀ x y, R x y → Similar E S (f x) (g y)) :
    Similar E S (r.bind f) (s.bind g) := by
  obtain ⟨asked, e | x⟩ := r <;> obtain ⟨asked', e' | y⟩ := s <;> obtain ⟨ha, h⟩ := h <;> cases ha
  · exact error h
  · exact h.elim
  · exact h.elim
  · obtain ⟨hasked, hresult⟩ := hfg x y h
    exact ⟨congrArg (asked ++ ·) hasked, hresult⟩

theorem map {r s : Run ε α} (h : Similar E Eq r s) (f : α → β) :
    Similar E Eq (⟨r.asked, r.result.map f⟩ : Run ε β) ⟨s.asked, s.result.map f⟩ := by
  obtain ⟨asked, e | x⟩ := r <;> obtain ⟨asked', e' | y⟩ := s <;> obtain ⟨ha, h⟩ := h <;> cases ha
  · exact error h
  · exact h.elim
  · exact h.elim
  · exact ok (congrArg f h)

theorem eq {r s : Run ε α} (h : Similar Eq Eq r s) : r = s := by
  obtain ⟨asked, e | x⟩ := r <;> obtain ⟨asked', f | y⟩ := s <;> obtain ⟨ha, h⟩ := h <;> cases ha
  · cases h; rfl
  · exact h.elim
  · exact h.elim
  · cases h; rfl

end Similar

end Run

namespace RunError

/-- Errors of the same kind, for the same name or the same number of values left. How many operands an operation
    lacks is not compared. -/
def Alike : RunError → RunError → Prop
  | unbound name, unbound name' => name = name'
  | underflow .., underflow .. => True
  | leftover size, leftover size' => size = size'
  | _, _ => False

theorem Alike.refl (e : RunError) : Alike e e := by
  cases e <;> simp [Alike]

theorem Alike.trans (e f g : RunError) (h₁ : Alike e f) (h₂ : Alike f g) : Alike e g := by
  cases e <;> cases f <;> cases g <;> simp_all [Alike]

end RunError

/-! ### The machine -/

namespace Machine

variable {α : Type} (arithmetic : Arithmetic α) (resolve : Resolver α)

/-- One instruction as a run. -/
def perform (m : Machine α) (i : Instr α) : Run RunError (Machine α) :=
  ⟨asks i, m.step arithmetic resolve i⟩

/-- The machine after a program. -/
def exec (m : Machine α) : Program α → Run RunError (Machine α)
  | [] => .done m
  | i :: rest => (m.perform arithmetic resolve i).bind fun next => exec next rest

@[simp]
theorem exec_nil (m : Machine α) : m.exec arithmetic resolve [] = .done m := rfl

theorem exec_cons (m : Machine α) (i : Instr α) (p : Program α) :
    m.exec arithmetic resolve (i :: p) =
      (m.perform arithmetic resolve i).bind fun next => next.exec arithmetic resolve p := rfl

@[simp]
theorem exec_singleton (m : Machine α) (i : Instr α) :
    m.exec arithmetic resolve [i] = m.perform arithmetic resolve i :=
  Run.bind_done _

theorem exec_append (m : Machine α) (p q : Program α) :
    m.exec arithmetic resolve (p ++ q) =
      (m.exec arithmetic resolve p).bind fun next => next.exec arithmetic resolve q := by
  induction p generalizing m with
  | nil => rfl
  | cons i p ih =>
    rw [List.cons_append, exec_cons, exec_cons, Run.bind_assoc]
    congr 1
    funext next
    exact ih next

theorem run_eq_exec (m : Machine α) (p : Program α) :
    m.run arithmetic resolve p = (m.exec arithmetic resolve p).bind fun last => ⟨[], last.value⟩ := by
  induction p generalizing m with
  | nil => rfl
  | cons i p ih =>
    rw [exec_cons, Run.bind_assoc, run, perform]
    cases m.step arithmetic resolve i with
    | error error => rfl
    | ok next => rw [Run.bind_ok, ← ih]

@[simp]
theorem perform_nop (m : Machine α) : m.perform arithmetic resolve .nop = .done m := rfl

@[simp]
theorem perform_push (m : Machine α) (value : α) :
    m.perform arithmetic resolve (.push value) = .done { m with stack := value :: m.stack } := rfl

theorem perform_apply_of_lt {m : Machine α} {o : Operation} (h : m.stack.length < o.arity) :
    m.perform arithmetic resolve (.apply o) = ⟨[], .error (.underflow o m.stack.length)⟩ := by
  simp [perform, asks, step, reduce?, pop?_eq_none_iff.mpr h]

theorem perform_apply_append {m : Machine α} {o : Operation} {values rest : List α} {x : α}
    (hstack : m.stack = values.reverse ++ rest) (hlength : values.length = o.arity)
    (hx : combine? (arithmetic o.operator) values = some x) :
    m.perform arithmetic resolve (.apply o) = .done { m with stack := x :: rest } := by
  simp [perform, asks, step, reduce?, hstack, ← hlength, pop?_reverse_append, hx, Run.done]

theorem exists_combine? (f : α → α → α) {o : Operation} {values : List α} (h : values.length = o.arity) :
    ∃ x, combine? f values = some x := by
  cases values with
  | nil => cases h
  | cons x rest => exact ⟨_, rfl⟩

theorem exists_operands {o : Operation} {stack : List α} (h : o.arity ≤ stack.length) :
    ∃ values rest : List α, stack = values.reverse ++ rest ∧ values.length = o.arity :=
  ⟨(stack.take o.arity).reverse, stack.drop o.arity, by simp, by simp [Nat.min_eq_left h]⟩

/-- Instructions without effect can be left out. -/
theorem exec_filter_isNop (m : Machine α) (p : Program α) :
    m.exec arithmetic resolve (p.filter fun i => !i.isNop) = m.exec arithmetic resolve p := by
  induction p generalizing m with
  | nil => rfl
  | cons i p ih =>
    by_cases h : i.isNop = true
    · obtain rfl : i = .nop := by cases i <;> simp_all [Instr.isNop]
      rw [List.filter_cons_of_neg (by simp [Instr.isNop]), exec_cons, perform_nop, Run.done_bind, ih]
    · rw [List.filter_cons_of_pos (by simpa using h), exec_cons, exec_cons]
      congr 1
      funext next
      exact ih next

end Machine

/-! ### Programs that do the same -/

namespace Program

variable {α : Type} (arithmetic : Arithmetic α) (resolve : Resolver α)

/-- The programs leave the same machine or fail alike, from every state of the machine, and ask for the same names. -/
def Alike (p q : Program α) : Prop :=
  ∀ m : Machine α, Run.Similar RunError.Alike Eq (m.exec arithmetic resolve p) (m.exec arithmetic resolve q)

namespace Alike

variable {arithmetic resolve} {p q p' q' : Program α}

theorem of_exec (h : ∀ m : Machine α, m.exec arithmetic resolve p = m.exec arithmetic resolve q) :
    Alike arithmetic resolve p q := fun m =>
  h m ▸ Run.Similar.rfl' RunError.Alike.refl (fun _ => rfl) _

theorem refl (p : Program α) : Alike arithmetic resolve p p := of_exec fun _ => rfl

theorem trans (h₁ : Alike arithmetic resolve p q) (h₂ : Alike arithmetic resolve q q') :
    Alike arithmetic resolve p q' := fun m =>
  .trans RunError.Alike.trans (h₁ m) (h₂ m)

theorem append (h : Alike arithmetic resolve p q) (h' : Alike arithmetic resolve p' q') :
    Alike arithmetic resolve (p ++ p') (q ++ q') := fun m => by
  rw [Machine.exec_append, Machine.exec_append]
  refine (h m).bind ?_
  rintro next _ rfl
  exact h' next

theorem run (h : Alike arithmetic resolve p q) :
    Run.Similar RunError.Alike Eq (p.run arithmetic resolve) (q.run arithmetic resolve) := by
  rw [Program.run, Program.run, Machine.run_eq_exec, Machine.run_eq_exec]
  refine (h {}).bind ?_
  rintro last _ rfl
  exact Run.Similar.rfl' RunError.Alike.refl (fun _ => rfl) _

end Alike

end Program

end StackCalc
