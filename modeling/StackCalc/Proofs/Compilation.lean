import Mathlib.Data.List.Sort
import Mathlib.Data.String.Basic
import StackCalc.Expr.Compile
import StackCalc.Proofs.Execution

/-!
Programs of expressions compute what the expressions stand for. The value of an expression is defined on its tree,
given the values of its names. Its program first asks for every name once, in order, and fails at the first one that
is not bound; after that nothing can fail, and the instructions of a subexpression push its value on whatever stack
they find.
-/

namespace StackCalc

namespace Expr

variable {α : Type}

/-- The value of an expression, if all its names have one: of an operator, its function on the values of the left
    and of the right operand. -/
def value? (arithmetic : Arithmetic α) (resolve : Resolver α) : Expr α → Option α
  | symbol name => resolve name
  | number value => some value
  | binary op left right => do
    let x ← left.value? arithmetic resolve
    let y ← right.value? arithmetic resolve
    return arithmetic op x y

theorem value?_congr {arithmetic : Arithmetic α} {resolve resolve' : Resolver α} {e : Expr α}
    (h : ∀ name ∈ e.occurrences, resolve name = resolve' name) :
    e.value? arithmetic resolve = e.value? arithmetic resolve' := by
  induction e with
  | symbol name => exact h name (by simp [occurrences])
  | number value => rfl
  | binary op left right ihl ihr =>
    rw [value?, value?, ihl fun name hn => h name (by simp [occurrences, hn]),
      ihr fun name hn => h name (by simp [occurrences, hn])]

theorem exists_value? (arithmetic : Arithmetic α) {resolve : Resolver α} {e : Expr α}
    (h : ∀ name ∈ e.occurrences, (resolve name).isSome) : ∃ x, e.value? arithmetic resolve = some x := by
  induction e with
  | symbol name => exact Option.isSome_iff_exists.mp (h name (by simp [occurrences]))
  | number value => exact ⟨value, rfl⟩
  | binary op left right ihl ihr =>
    obtain ⟨x, hx⟩ := ihl fun name hn => h name (by simp [occurrences, hn])
    obtain ⟨y, hy⟩ := ihr fun name hn => h name (by simp [occurrences, hn])
    exact ⟨arithmetic op x y, by simp [value?, hx, hy]⟩

/-! ### Names -/

theorem mem_insertName {x name : String} {names : List String} :
    x ∈ insertName name names ↔ x = name ∨ x ∈ names := by
  induction names with
  | nil => simp [insertName]
  | cons other rest ih =>
    unfold insertName
    split
    · simp
    · split
      · simp_all
      · simp only [List.mem_cons, ih]
        exact or_left_comm

theorem pairwise_insertName {name : String} {names : List String} (h : names.Pairwise (· < ·)) :
    (insertName name names).Pairwise (· < ·) := by
  induction names with
  | nil => simp [insertName]
  | cons other rest ih =>
    obtain ⟨hother, hrest⟩ := List.pairwise_cons.mp h
    unfold insertName
    split
    next hlt =>
      refine List.pairwise_cons.mpr ⟨fun x hx => ?_, h⟩
      rcases List.mem_cons.mp hx with rfl | hx
      · exact hlt
      · exact lt_trans hlt (hother x hx)
    next hlt =>
      split
      · exact h
      next hne =>
        refine List.pairwise_cons.mpr ⟨fun x hx => ?_, ih hrest⟩
        rcases mem_insertName.mp hx with rfl | hx
        · exact lt_of_le_of_ne (not_lt.mp hlt) (Ne.symm hne)
        · exact hother x hx

theorem mem_names {e : Expr α} {name : String} : name ∈ e.names ↔ name ∈ e.occurrences := by
  unfold names
  induction e.occurrences with
  | nil => simp
  | cons x rest ih => rw [List.foldr_cons, mem_insertName, ih, List.mem_cons]

theorem pairwise_names (e : Expr α) : e.names.Pairwise (· < ·) := by
  unfold names
  induction e.occurrences with
  | nil => exact List.Pairwise.nil
  | cons x rest ih => exact pairwise_insertName ih

end Expr

/-! ### The generator -/

namespace Generator

variable {α : Type}

theorem code_emit (g : Generator α) (e : Expr α) : (g.emit e).code.toList = g.code.toList ++ e.body := by
  induction e generalizing g with
  | symbol name => simp [emit, Expr.body]
  | number value => simp [emit, Expr.body]
  | binary op left right ihl ihr => simp [emit, Expr.body, ihl, ihr]

theorem mem_names_emit {g : Generator α} {e : Expr α} {name : String} :
    name ∈ (g.emit e).names ↔ name ∈ g.names ∨ name ∈ e.occurrences := by
  induction e generalizing g with
  | symbol other => simp [emit, Expr.occurrences, Expr.mem_insertName, or_comm]
  | number value => simp [emit, Expr.occurrences]
  | binary op left right ihl ihr => simp [emit, Expr.occurrences, ihl, ihr, or_assoc]

theorem pairwise_names_emit {g : Generator α} (h : g.names.Pairwise (· < ·)) (e : Expr α) :
    (g.emit e).names.Pairwise (· < ·) := by
  induction e generalizing g with
  | symbol name => exact Expr.pairwise_insertName h
  | number value => exact h
  | binary op left right ihl ihr => exact ihr (ihl h)

/-- Whatever a generator has generated before, it generates the program of the expression. -/
theorem generate_eq_program (g : Generator α) (e : Expr α) : (g.generate e).1 = e.program := by
  have hnames : (({ g with code := #[], names := [] } : Generator α).emit e).names = e.names :=
    (pairwise_names_emit List.Pairwise.nil e).eq_of_mem_iff e.pairwise_names fun name => by
      simp [mem_names_emit, Expr.mem_names]
  simp only [generate, hnames, code_emit, Expr.program, List.nil_append]

end Generator

/-! ### Declarations and operators -/

namespace Machine

variable {α : Type} {arithmetic : Arithmetic α} {resolve : Resolver α}

theorem perform_declare_of_some {m : Machine α} {name : String} {x : α} (h : resolve name = some x) :
    m.perform arithmetic resolve (.declare name) = ⟨[name], .ok { m with bound := (name, x) :: m.bound }⟩ := by
  simp [perform, asks, step, h]

theorem perform_declare_of_none {m : Machine α} {name : String} (h : resolve name = none) :
    m.perform arithmetic resolve (.declare name) = ⟨[name], .error (.unbound name)⟩ := by
  simp [perform, asks, step, h]

theorem perform_fetch_of_some {m : Machine α} {name : String} {x : α} (h : m.bound.lookup name = some x) :
    m.perform arithmetic resolve (.fetch name) = .done { m with stack := x :: m.stack } := by
  simp [perform, asks, step, h, Run.done]

theorem perform_binary (m : Machine α) (op : Operator) (x y : α) (rest : List α) :
    ({ m with stack := y :: x :: rest }).perform arithmetic resolve (.apply (.binary op)) =
      .done { m with stack := arithmetic op x y :: rest } := by
  simp [perform, asks, step, reduce?, Operation.binary, Operation.arity, pop?, combine?, Run.done]

/-- Declaring names that are all bound asks for each of them, in order, and makes their values known. -/
theorem exec_declare_all (arithmetic : Arithmetic α) {names : List String}
    (h : ∀ name ∈ names, (resolve name).isSome) (m : Machine α) :
    ∃ bound, m.exec arithmetic resolve (names.map .declare) = ⟨names, .ok { m with bound }⟩ ∧
      (∀ name ∈ names, bound.lookup name = resolve name) ∧
      ∀ name ∉ names, bound.lookup name = m.bound.lookup name := by
  induction names generalizing m with
  | nil => exact ⟨m.bound, rfl, by simp, fun _ _ => rfl⟩
  | cons first rest ih =>
    obtain ⟨x, hx⟩ := Option.isSome_iff_exists.mp (h first (by simp))
    obtain ⟨bound, hexec, hmem, hnot⟩ :=
      ih (fun name hn => h name (by simp [hn])) { m with bound := (first, x) :: m.bound }
    refine ⟨bound, ?_, fun name hn => ?_, fun name hn => ?_⟩
    · rw [List.map_cons, exec_cons, perform_declare_of_some hx, Run.bind_ok, hexec]
      rfl
    · by_cases hr : name ∈ rest
      · exact hmem name hr
      · obtain rfl : name = first := by simpa [hr] using hn
        rw [hnot name hr, hx]
        simp
    · rw [List.mem_cons, not_or] at hn
      rw [hnot name hn.2]
      rw [List.lookup_cons, beq_false_of_ne hn.1]

/-- Where the names of an expression are known, its instructions push its value. -/
theorem exec_body (resolve : Resolver α) {e : Expr α} {m : Machine α} {x : α}
    (h : e.value? arithmetic (m.bound.lookup ·) = some x) :
    m.exec arithmetic resolve e.body = .done { m with stack := x :: m.stack } := by
  induction e generalizing m x with
  | symbol name => rw [Expr.body, exec_singleton, perform_fetch_of_some h]
  | number value =>
    obtain rfl : value = x := by simpa [Expr.value?] using h
    rw [Expr.body, exec_singleton, perform_push]
  | binary op left right ihl ihr =>
    obtain ⟨y, hy, h⟩ := Option.bind_eq_some_iff.mp h
    obtain ⟨z, hz, h⟩ := Option.bind_eq_some_iff.mp h
    obtain rfl : arithmetic op y z = x := by simpa using h
    rw [Expr.body, exec_append, exec_append, ihl hy, Run.done_bind]
    rw [ihr (m := { m with stack := y :: m.stack }) hz, Run.done_bind, exec_singleton]
    exact perform_binary m op y z m.stack

end Machine

namespace Expr

variable {α : Type}

theorem all_bound_or_first_unbound (resolve : Resolver α) (names : List String) :
    (∀ name ∈ names, (resolve name).isSome) ∨
      ∃ before name after, names = before ++ name :: after ∧ (∀ other ∈ before, (resolve other).isSome) ∧
        resolve name = none := by
  cases h : names.find? fun name => (resolve name).isNone with
  | none => exact .inl fun name hn => by simpa [Option.isSome_iff_ne_none] using List.find?_eq_none.mp h name hn
  | some name =>
    obtain ⟨hname, before, after, rfl, hbefore⟩ := List.find?_eq_some_iff_append.mp h
    exact .inr ⟨before, name, after, rfl, fun other ho => by simpa using hbefore other ho, by simpa using hname⟩

theorem run_program_of_bound (arithmetic : Arithmetic α) {resolve : Resolver α} {e : Expr α}
    (h : ∀ name ∈ e.names, (resolve name).isSome) :
    ∃ x, e.value? arithmetic resolve = some x ∧ e.program.run arithmetic resolve = ⟨e.names, .ok x⟩ := by
  obtain ⟨x, hx⟩ := exists_value? arithmetic fun name hn => h name (mem_names.mpr hn)
  obtain ⟨bound, hdeclare, hbound, -⟩ := Machine.exec_declare_all arithmetic h {}
  have hvalue : e.value? arithmetic (bound.lookup ·) = some x := by
    rw [← hx]
    exact value?_congr fun name hn => hbound name (mem_names.mpr hn)
  have hbody := Machine.exec_body resolve (m := { stack := [], bound }) hvalue
  refine ⟨x, hx, ?_⟩
  rw [Program.run, Machine.run_eq_exec, program, Machine.exec_append, hdeclare, Run.bind_ok, hbody]
  simp [Run.done, Machine.value]

theorem run_program_of_unbound (arithmetic : Arithmetic α) {resolve : Resolver α} {e : Expr α}
    {before after : List String} {name : String} (hnames : e.names = before ++ name :: after)
    (hbefore : ∀ other ∈ before, (resolve other).isSome) (hname : resolve name = none) :
    e.program.run arithmetic resolve = ⟨before ++ [name], .error (.unbound name)⟩ := by
  obtain ⟨bound, hdeclare, -, -⟩ := Machine.exec_declare_all arithmetic hbefore {}
  rw [Program.run, Machine.run_eq_exec, program, hnames, List.map_append, List.map_cons, List.append_assoc,
    Machine.exec_append, hdeclare, Run.bind_ok, List.cons_append, Machine.exec_cons,
    Machine.perform_declare_of_none hname]
  rfl

end Expr

/-- A generated program computes the value of its expression. The names of the expression, sorted and each once, are
    asked for in order. If all are bound, the run asks for all of them and gives the value of the expression.
    Otherwise it asks for the names up to the first one that is not bound, and fails because of that one; it never
    lacks operands and never leaves a wrong number of values. This holds whatever the generator generated before. -/
theorem Generator.run_generate {α : Type} (arithmetic : Arithmetic α) (resolve : Resolver α) (g : Generator α)
    (e : Expr α) :
    (e.names.Pairwise (· < ·) ∧ ∀ name, name ∈ e.names ↔ name ∈ e.occurrences) ∧
      ((∃ x, (∀ name ∈ e.names, (resolve name).isSome) ∧ e.value? arithmetic resolve = some x ∧
          (g.generate e).1.run arithmetic resolve = ⟨e.names, .ok x⟩) ∨
        ∃ before name after, e.names = before ++ name :: after ∧ (∀ other ∈ before, (resolve other).isSome) ∧
          resolve name = none ∧
          (g.generate e).1.run arithmetic resolve = ⟨before ++ [name], .error (.unbound name)⟩) := by
  refine ⟨⟨e.pairwise_names, fun name => Expr.mem_names⟩, ?_⟩
  rw [Generator.generate_eq_program]
  rcases Expr.all_bound_or_first_unbound resolve e.names with hbound | ⟨before, name, after, hnames, hbefore, hname⟩
  · obtain ⟨x, hx, hrun⟩ := Expr.run_program_of_bound arithmetic hbound
    exact .inl ⟨x, hbound, hx, hrun⟩
  · exact .inr ⟨before, name, after, hnames, hbefore, hname,
      Expr.run_program_of_unbound arithmetic hnames hbefore hname⟩

end StackCalc
