import StackCalc.Expr
import StackCalc.Token

/-!
Reading an expression from a stream of tokens by recursive descent. Sums and differences bind loosest, then products,
quotients, remainders and powers, then minimum and maximum; every tier groups from the left. A chain of one tier has
chains of the next tier for operands, and those of the last tier are names, numbers and sums between brackets.
-/

namespace StackCalc

/-- Why a stream of tokens is no expression. -/
inductive ParseError where
  | scan (error : ScanError)
  | operandExpected (found : Found)
  | closingExpected (found : Found)
  /-- A whole expression has been read and a token follows. -/
  | endExpected (found : Found)
deriving DecidableEq, Repr

namespace ParseError

def line : ParseError → Nat
  | scan error => error.line
  | operandExpected found | closingExpected found | endExpected found => found.line

/-- The message about what is found instead of what is expected. -/
def misplaced (found : Found) (complaint : String) : String :=
  "[ParseError] Line " ++ toString found.line ++ ": " ++ Text.quoted found.text ++ ": " ++ complaint

def message : ParseError → String
  | scan error => error.message
  | operandExpected found => misplaced found "expected '(', symbol or number"
  | closingExpected found => misplaced found "expected ')'"
  | endExpected found => misplaced found "unexpected token after expression"

end ParseError

/-- How tightly an operator binds. -/
inductive Tier where
  | sum
  | product
  | choice
deriving DecidableEq, Repr

def Operator.tier : Operator → Tier
  | .add | .sub => .sum
  | .mul | .div | .mod | .pow => .product
  | .min | .max => .choice

/-- The tier of the operands of a tier, if they are chains. -/
def Tier.operands? : Tier → Option Tier
  | sum => some product
  | product => some choice
  | choice => none

/-- How many tiers bind tighter. -/
def Tier.rank : Tier → Nat
  | sum => 2
  | product => 1
  | choice => 0

theorem Tier.rank_lt (t : Tier) : t.rank < 3 := by
  cases t <;> decide

theorem Tier.rank_of_operands? {t tighter : Tier} (h : t.operands? = some tighter) : tighter.rank < t.rank := by
  cases t <;> cases h <;> decide

/-- An expression and the line of its outermost operator or of its only token. -/
structure Located where
  expr : Expr Float
  line : Nat
deriving Repr

/-- The number of tokens of a stream. -/
def Tokens.length : Tokens → Nat
  | cons _ _ rest => rest.length + 1
  | fault _ _ | done _ => 0

/-- A parser between two looks at its tokens. -/
inductive Parser where
  /-- Tokens at which it has not looked yet. The last one before them stood on `line`, or that is 1. -/
  | unseen (line : Nat) (tokens : Tokens)
  /-- The token at which it has looked, told by so many characters, and the tokens behind it. -/
  | current (token : Token) (read : Nat) (rest : Tokens)
  /-- The end of the source, at which it has looked. -/
  | atEnd (line read : Nat)
deriving DecidableEq, Repr

namespace Parser

/-- The number of tokens that are not passed over yet. -/
def length : Parser → Nat
  | unseen _ tokens => tokens.length
  | current _ _ rest => rest.length + 1
  | atEnd _ _ => 0

/-- Looks at the next token or at the end, without passing over it. -/
def peek : Parser → Except ScanError Found × Parser
  | unseen _ (.cons t read rest) => (.ok (.token t), current t read rest)
  | unseen line (.fault error read) => (.error error, unseen line (.done read))
  | unseen line (.done read) => (.ok (.endOfSource line), atEnd line read)
  | current t read rest => (.ok (.token t), current t read rest)
  | atEnd line read => (.ok (.endOfSource line), atEnd line read)

/-- Passes over the token at which the parser has looked. The end stays. -/
def advance : Parser → Parser
  | current t _ rest => unseen t.line rest
  | p => p

theorem length_peek_le {p q : Parser} {r : Except ScanError Found} (h : p.peek = (r, q)) : q.length ≤ p.length := by
  unfold peek at h
  split at h <;> cases h <;> simp [length, Tokens.length]

theorem length_advance_lt {p q : Parser} {t : Token} (h : p.peek = (.ok (.token t), q)) :
    q.advance.length < p.length := by
  unfold peek at h
  split at h <;> cases h <;> simp [length, Tokens.length, advance]

/-- What reading a phrase comes to: an expression, with fewer tokens ahead than `bound`, or an error. -/
inductive Parsed (bound : Nat) where
  | tree (x : Located) (p : Parser) (fewer : p.length < bound)
  | error (error : ParseError) (p : Parser)

namespace Parsed

/-- The same with a bound that is not lower. -/
def mono {bound bound' : Nat} (h : bound ≤ bound') : Parsed bound → Parsed bound'
  | tree x p fewer => tree x p (Nat.lt_of_lt_of_le fewer h)
  | error e p => error e p

/-- The result and the parser after it. -/
def answer {bound : Nat} : Parsed bound → Except ParseError Located × Parser
  | tree x p _ => (.ok x, p)
  | error e p => (.error e, p)

end Parsed

mutual

/-- Reads a chain: an operand of its tier, and as many operators of the tier with operands as follow. -/
def chain (t : Tier) (p : Parser) : Parsed p.length :=
  match operand t p with
  | .error e q => .error e q
  | .tree left q fewer => (links t left q).mono fewer
termination_by 7 * p.length + (2 * t.rank + 2)

/-- Goes on with a chain of which `left` has been read. -/
def links (t : Tier) (left : Located) (p : Parser) : Parsed (p.length + 1) :=
  match h : p.peek with
  | (.error error, q) => .error (.scan error) q
  | (.ok (.token ⟨.operator op, line⟩), q) =>
    if op.tier = t then
      have hq := length_advance_lt h
      match operand t q.advance with
      | .error e r => .error e r
      | .tree right r fewer =>
        (links t ⟨.binary op left.expr right.expr, line⟩ r).mono (by omega)
    else .tree left q (Nat.lt_succ_of_le (length_peek_le h))
  | (.ok _, q) => .tree left q (Nat.lt_succ_of_le (length_peek_le h))
termination_by 7 * p.length
decreasing_by
  · have := t.rank_lt
    omega
  · omega

/-- Reads an operand of a chain. -/
def operand (t : Tier) (p : Parser) : Parsed p.length :=
  match _h : t.operands? with
  | some tighter => chain tighter p
  | none => primary p
termination_by 7 * p.length + (2 * t.rank + 1)
decreasing_by
  · have := Tier.rank_of_operands? _h
    omega
  · omega

/-- Reads a name, a number or a sum between brackets. -/
def primary (p : Parser) : Parsed p.length :=
  match h : p.peek with
  | (.error error, q) => .error (.scan error) q
  | (.ok (.token ⟨.opening, _⟩), q) =>
    have hq := length_advance_lt h
    match chain .sum q.advance with
    | .error e r => .error e r
    | .tree x r fewer =>
      match hr : r.peek with
      | (.error error, s) => .error (.scan error) s
      | (.ok (.token ⟨.closing, _⟩), s) =>
        have hs := length_advance_lt hr
        .tree x s.advance (by omega)
      | (.ok found, s) => .error (.closingExpected found) s
  | (.ok (.token ⟨.symbol name, line⟩), q) => .tree ⟨.symbol name, line⟩ q.advance (length_advance_lt h)
  | (.ok (.token ⟨.number n, line⟩), q) => .tree ⟨.number n.decimal.toFloat, line⟩ q.advance (length_advance_lt h)
  | (.ok found, q) => .error (.operandExpected found) q
termination_by 7 * p.length
decreasing_by
  have := Tier.sum.rank_lt
  omega

end

/-- Reads one expression, which has to take up all tokens. -/
def parse (p : Parser) : Except ParseError Located × Parser :=
  match chain .sum p with
  | .error e q => (.error e, q)
  | .tree x q _ =>
    match q.peek with
    | (.error error, r) => (.error (.scan error), r)
    | (.ok (.endOfSource _), r) => (.ok x, r)
    | (.ok found, r) => (.error (.endExpected found), r)

end Parser

/-- Reads one expression from a stream that no parser has looked at. -/
def Tokens.parse (tokens : Tokens) : Except ParseError Located × Parser :=
  (Parser.unseen 1 tokens).parse

end StackCalc
