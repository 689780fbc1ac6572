import StackCalc.Number.Integer

/-!
The eight binary operators, their spellings, and operations: an operator with the number of operands that it
takes off the stack.
-/

namespace StackCalc

inductive Operator where
  | add
  | sub
  | mul
  | div
  | mod
  | pow
  | min
  | max
deriving DecidableEq, Repr

namespace Operator

/-- The word that names the operator in instruction text. -/
def keyword : Operator → String
  | add => "add"
  | sub => "sub"
  | mul => "mul"
  | div => "div"
  | mod => "mod"
  | pow => "pow"
  | min => "min"
  | max => "max"

/-- The operator that a keyword names. -/
def ofKeyword? : String → Option Operator
  | "add" => some add
  | "sub" => some sub
  | "mul" => some mul
  | "div" => some div
  | "mod" => some mod
  | "pow" => some pow
  | "min" => some min
  | "max" => some max
  | _ => none

@[simp]
theorem ofKeyword?_keyword (op : Operator) : ofKeyword? op.keyword = some op := by
  cases op <;> rfl

/-- The sign that stands between two operands in source text. -/
def sign : Operator → String
  | add => "+"
  | sub => "-"
  | mul => "*"
  | div => "/"
  | mod => "%"
  | pow => "^"
  | min => "min"
  | max => "max"

/-- The heading of the operator's node in an outline. -/
def heading : Operator → String
  | add => "Add"
  | sub => "Subtract"
  | mul => "Multiply"
  | div => "Divide"
  | mod => "Modulo"
  | pow => "Power"
  | min => "Min"
  | max => "Max"

/-- Operators that may take any number of operands; the others take two. -/
def isVariadic : Operator → Bool
  | mod | pow => false
  | _ => true

/-- Operators whose operands may be bracketed in any way. -/
def isAssociative : Operator → Bool
  | add | mul | min | max => true
  | _ => false

/-- Operators whose operands may be exchanged. -/
def isCommutative : Operator → Bool
  | add | mul | min | max => true
  | _ => false

/-- Operators that may take over the operands of an equal operator among their operands. -/
def isFusible (op : Operator) : Bool :=
  op.isVariadic && op.isAssociative

end Operator

/-- An operator with the number of operands that it combines: one and `extra` more. Operators that are not
    variadic combine two. -/
structure Operation where
  operator : Operator
  extra : Nat
  fits : operator.isVariadic = true ∨ extra = 1 := by decide
deriving DecidableEq, Repr

namespace Operation

/-- How many operands the operation takes. -/
def arity (o : Operation) : Nat :=
  o.extra + 1

/-- The operation on two operands. -/
def binary (op : Operator) : Operation :=
  ⟨op, 1, .inr rfl⟩

/-- The same operator with another number of extra operands, if it is variadic. -/
def withExtra (o : Operation) (extra : Nat) : Operation :=
  if h : o.operator.isVariadic = true then ⟨o.operator, extra, .inl h⟩ else o

@[simp]
theorem operator_withExtra (o : Operation) (extra : Nat) : (o.withExtra extra).operator = o.operator := by
  unfold withExtra
  split <;> rfl

theorem extra_withExtra {o : Operation} (h : o.operator.isVariadic = true) (extra : Nat) :
    (o.withExtra extra).extra = extra := by
  simp [withExtra, h]

@[simp]
theorem withExtra_extra (o : Operation) : o.withExtra o.extra = o := by
  unfold withExtra
  split <;> rfl

@[simp]
theorem withExtra_withExtra (o : Operation) (extra other : Nat) :
    (o.withExtra extra).withExtra other = o.withExtra other := by
  by_cases h : o.operator.isVariadic = true <;> simp [withExtra, h]

def isFusible (o : Operation) : Bool :=
  o.operator.isFusible

theorem isVariadic_of_isFusible {o : Operation} (h : o.isFusible = true) : o.operator.isVariadic = true := by
  rw [isFusible, Operator.isFusible, Bool.and_eq_true] at h
  exact h.1

@[simp]
theorem isFusible_withExtra (o : Operation) (extra : Nat) : (o.withExtra extra).isFusible = o.isFusible := by
  simp [isFusible]

/-- The operation as instruction text: the arity is written for variadic operators only. -/
def text (o : Operation) : Except DigitError String :=
  if o.operator.isVariadic then (Number.write o.arity).map (o.operator.keyword ++ " " ++ ·)
  else .ok o.operator.keyword

end Operation

end StackCalc
