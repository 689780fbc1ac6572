import StackCalc.Proofs.Grammar
import StackCalc.Token.Scan

/-!
Where a stream of tokens is refused. Which lexeme may come next depends on two things only: whether an operand or an
operator has to come, and how many brackets are open. A pass over the stream that keeps no more than this comes to its
end at the same token as the parser and for the same reason.

The calls of the parser that are under way tell both: an operator has to come in the rest of a chain and an operand in
all other calls, and one bracket is open for each primary that is under way. This holds at every call, and so at the one
that fails. The parser stays at the token at fault, so it may be asked again, and the same then holds of what it has
left.
-/

namespace StackCalc

/-! ### The pass -/

inductive Expected where
  | operand
  | operator
deriving DecidableEq, Repr

/-- What has to come next, and how many brackets are open. -/
structure Nesting where
  expected : Expected := .operand
  depth : Nat := 0
deriving DecidableEq, Repr

namespace Nesting

/-- The nesting after a lexeme that may come. -/
def next? : Nesting → Lexeme → Option Nesting
  | ⟨.operand, depth⟩, .opening => some ⟨.operand, depth + 1⟩
  | ⟨.operand, depth⟩, .symbol _ => some ⟨.operator, depth⟩
  | ⟨.operand, depth⟩, .number _ => some ⟨.operator, depth⟩
  | ⟨.operator, depth⟩, .operator _ => some ⟨.operand, depth⟩
  | ⟨.operator, depth + 1⟩, .closing => some ⟨.operator, depth⟩
  | _, _ => none

/-- The nesting after lexemes that may all come. -/
def pass? (n : Nesting) (w : List Lexeme) : Option Nesting :=
  w.foldlM next? n

/-- Why what is found may not come. -/
def refusal (found : Found) : Nesting → ParseError
  | ⟨.operand, _⟩ => .operandExpected found
  | ⟨.operator, 0⟩ => .endExpected found
  | ⟨.operator, _ + 1⟩ => .closingExpected found

/-- The end of a pass that has come to the nesting `n` and to the rest of a stream, and the answer: at a token that may
    not come the parser stays, and after a fault of the scan it is before the end. The end of the source counts as
    standing on line `last`. -/
inductive Halts (last : Nat) (n : Nesting) : Tokens → Except ParseError Located × Parser → Prop
  | refused {t : Token} {read : Nat} {rest : Tokens} (h : n.next? t.lexeme = none) :
    Halts last n (.cons t read rest) (.error (n.refusal (.token t)), .current t read rest)
  | fault {error : ScanError} {read : Nat} :
    Halts last n (.fault error read) (.error (.scan error), .unseen last (.done read))
  | incomplete {read : Nat} (h : n ≠ ⟨.operator, 0⟩) :
    Halts last n (.done read) (.error (n.refusal (.endOfSource last)), .atEnd last read)
  | complete {read : Nat} {x : Located} (h : n = ⟨.operator, 0⟩) : Halts last n (.done read) (.ok x, .atEnd last read)

/-- A pass from the nesting `n` over a stream comes to an answer. -/
def Concludes (last : Nat) (n : Nesting) (tokens : Tokens) (answer : Except ParseError Located × Parser) : Prop :=
  ∃ passed n' rest, tokens = .after passed rest ∧ n.pass? (passed.map (·.1.lexeme)) = some n' ∧
    Halts last n' rest answer

section Concludes

variable {last : Nat} {n : Nesting} {answer : Except ParseError Located × Parser}

theorem Concludes.of_cons {t : Token} {read : Nat} {rest : Tokens} (h : Concludes last n (.cons t read rest) answer) :
    (∃ next, n.next? t.lexeme = some next ∧ Concludes last next rest answer) ∨
      (n.next? t.lexeme = none ∧ answer = (.error (n.refusal (.token t)), .current t read rest)) := by
  obtain ⟨passed, n', rest', htokens, hpass, hhalts⟩ := h
  rcases passed with _ | ⟨entry, passed⟩
  · obtain rfl : n = n' := Option.some.inj hpass
    subst htokens
    cases hhalts with
    | refused ht => exact .inr ⟨ht, rfl⟩
  · obtain ⟨rfl, rfl, rfl⟩ := Tokens.cons.inj htokens
    rw [List.map_cons, pass?, List.foldlM_cons] at hpass
    obtain ⟨next, ht, hpass⟩ := Option.bind_eq_some_iff.mp hpass
    exact .inl ⟨next, ht, passed, n', rest', rfl, hpass, hhalts⟩

theorem Concludes.halts {tokens : Tokens} (h : Concludes last n tokens answer)
    (hend : ∀ t read rest, tokens ≠ .cons t read rest) : Halts last n tokens answer := by
  obtain ⟨passed, n', rest', rfl, hpass, hhalts⟩ := h
  rcases passed with _ | ⟨entry, passed⟩
  · obtain rfl : n = n' := Option.some.inj hpass
    exact hhalts
  · exact absurd rfl (hend _ _ _)

/-- A pass comes to one answer only, apart from the expression that is read. -/
theorem Concludes.unique {tokens : Tokens} {answer' : Except ParseError Located × Parser}
    (h : Concludes last n tokens answer) (h' : Concludes last n tokens answer') :
    answer.1.map (fun _ => ()) = answer'.1.map (fun _ => ()) ∧ answer.2 = answer'.2 := by
  induction tokens generalizing n with
  | cons t read rest ih =>
    rcases h.of_cons with ⟨next, ht, h⟩ | ⟨ht, rfl⟩ <;> rcases h'.of_cons with ⟨next', ht', h'⟩ | ⟨ht', rfl⟩
    · obtain rfl : next = next' := Option.some.inj (ht.symm.trans ht')
      exact ih h h'
    · rw [ht] at ht'
      cases ht'
    · rw [ht] at ht'
      cases ht'
    · exact ⟨rfl, rfl⟩
  | fault error read =>
    cases h.halts nofun
    cases h'.halts nofun
    exact ⟨rfl, rfl⟩
  | done read =>
    cases h.halts nofun with
    | incomplete hn =>
      cases h'.halts nofun with
      | incomplete => exact ⟨rfl, rfl⟩
      | complete hn' => exact absurd hn' hn
    | complete hn =>
      cases h'.halts nofun with
      | incomplete hn' => exact absurd hn hn'
      | complete => exact ⟨rfl, rfl⟩

end Concludes

theorem pass?_append (n : Nesting) (u v : List Lexeme) : n.pass? (u ++ v) = (n.pass? u).bind (·.pass? v) :=
  List.foldlM_append

end Nesting

/-! ### The line of the end -/

/-- The line of the last token of a stream, or `last` if it has no token. -/
def Tokens.endLine (last : Nat) : Tokens → Nat
  | cons t _ rest => rest.endLine t.line
  | fault _ _ | done _ => last

theorem Tokens.endLine_eq (last : Nat) (tokens : Tokens) :
    tokens.endLine last = (tokens.outcome.1.getLast?.map Token.line).getD last := by
  induction tokens generalizing last with
  | cons t read rest ih =>
    rw [endLine, ih, outcome, List.getLast?_cons]
    cases rest.outcome.1.getLast? <;> rfl
  | fault | done => rfl

namespace Parser

/-- The line on which the end of the source stands for a parser. -/
def endLine (p : Parser) : Nat :=
  p.stream.endLine p.lastLine

theorem endLine_of_peek {p q : Parser} {found : Except ScanError Found} (look : p.peek = (found, q)) :
    q.endLine = p.endLine := by
  rw [peek_eq] at look
  cases hp : p.stream with
  | cons | fault | done =>
    rw [hp] at look
    cases look
    rw [endLine, endLine, hp]
    rfl

theorem endLine_advance {p q : Parser} {t : Token} (look : p.peek = (.ok (.token t), q)) :
    q.advance.endLine = p.endLine := by
  obtain ⟨read, rest, hp, rfl⟩ := of_peek_token look
  rw [endLine, endLine, hp]
  rfl

theorem Reads.endLine_eq {task : Task} {p : Parser} {a : Except ParseError Located × Parser} (h : Reads task p a) :
    a.2.endLine = p.endLine := by
  induction h with
  | chain first rest ihFirst ihRest => exact ihRest.trans ihFirst
  | chainFails first ih => exact ih
  | link look operand rest ihOperand ihRest => exact ihRest.trans (ihOperand.trans (endLine_advance look))
  | linkFails look operand ih => exact ih.trans (endLine_advance look)
  | linksEnd look | linksFault look | primaryFault look | refused look => exact endLine_of_peek look
  | tighter h inner ih | tightest h inner ih => exact ih
  | symbol look | number look => exact endLine_advance look
  | brackets look inner closing ih => exact (endLine_advance closing).trans (ih.trans (endLine_advance look))
  | bracketsFail look inner ih => exact ih.trans (endLine_advance look)
  | bracketsFault look inner next ih | bracketsOpen look inner next other ih =>
    exact (endLine_of_peek next).trans (ih.trans (endLine_advance look))

end Parser

/-! ### The calls under way -/

namespace Parser

/-- `Calls start stack task p`: a parse that began with the parser `start` calls a task with the parser `p`, and the
    tasks in `stack`, the innermost first, are under way. -/
inductive Calls (start : Parser) : List Task → Task → Parser → Prop
  | parse : Calls start [] (.chain .sum) start
  | first {stack : List Task} {t : Tier} {p : Parser} (h : Calls start stack (.chain t) p) :
    Calls start (.chain t :: stack) (.operand t) p
  | rest {stack : List Task} {t : Tier} {left : Located} {p q : Parser} (h : Calls start stack (.chain t) p)
    (first : Reads (.operand t) p (.ok left, q)) : Calls start (.chain t :: stack) (.links t left) q
  | right {stack : List Task} {op : Operator} {line : Nat} {left : Located} {p q : Parser}
    (h : Calls start stack (.links op.tier left) p) (look : p.peek = (.ok (.token ⟨.operator op, line⟩), q)) :
    Calls start (.links op.tier left :: stack) (.operand op.tier) q.advance
  | again {stack : List Task} {op : Operator} {line : Nat} {left right : Located} {p q r : Parser}
    (h : Calls start stack (.links op.tier left) p) (look : p.peek = (.ok (.token ⟨.operator op, line⟩), q))
    (operand : Reads (.operand op.tier) q.advance (.ok right, r)) :
    Calls start (.links op.tier left :: stack) (.links op.tier ⟨.binary op left.expr right.expr, line⟩) r
  | tighter {stack : List Task} {t tighter : Tier} {p : Parser} (h : Calls start stack (.operand t) p)
    (operands : t.operands? = some tighter) : Calls start (.operand t :: stack) (.chain tighter) p
  | tightest {stack : List Task} {t : Tier} {p : Parser} (h : Calls start stack (.operand t) p)
    (operands : t.operands? = none) : Calls start (.operand t :: stack) .primary p
  | brackets {stack : List Task} {line : Nat} {p q : Parser} (h : Calls start stack .primary p)
    (look : p.peek = (.ok (.token ⟨.opening, line⟩), q)) : Calls start (.primary :: stack) (.chain .sum) q.advance

/-- What has to come where a task is called. -/
def Task.expected : Task → Expected
  | links _ _ => .operator
  | chain _ | operand _ | primary => .operand

/-- One bracket is open for each primary that is under way. -/
def openBrackets : List Task → Nat
  | [] => 0
  | .primary :: stack => openBrackets stack + 1
  | _ :: stack => openBrackets stack

end Parser

namespace Nesting

open StackCalc.Parser

/-- A pass from the nesting `n` goes from one parser to another and comes to the nesting `n'` there. -/
structure Leads (n : Nesting) (p : Parser) (n' : Nesting) (q : Parser) : Prop where
  passes : ∃ w, p.Passes w q ∧ n.pass? w = some n'
  endLine : q.endLine = p.endLine

section Leads

variable {n n' n'' : Nesting} {p q r : Parser}

theorem Leads.refl (n : Nesting) (p : Parser) : Leads n p n p :=
  ⟨⟨[], .of_stream_eq rfl, rfl⟩, rfl⟩

theorem Leads.trans (h : Leads n p n' q) (h' : Leads n' q n'' r) : Leads n p n'' r := by
  obtain ⟨⟨u, hu, hn⟩, hline⟩ := h
  obtain ⟨⟨v, hv, hn'⟩, hline'⟩ := h'
  refine ⟨⟨u ++ v, hu.trans hv, ?_⟩, hline'.trans hline⟩
  rw [pass?_append, hn]
  exact hn'

theorem leads_advance {t : Token} (look : p.peek = (.ok (.token t), q)) (ht : n.next? t.lexeme = some n') :
    Leads n p n' q.advance := by
  refine ⟨⟨_, passes_advance look, ?_⟩, endLine_advance look⟩
  rw [pass?, List.foldlM_cons, ht]
  rfl

end Leads

/-! ### What is read leaves the brackets as they are -/

open Grammar

theorem pass?_links {links : List Link} {depth : Nat}
    (h : ∀ l ∈ links, pass? ⟨.operand, depth⟩ l.word = some ⟨.operator, depth⟩) :
    pass? ⟨.operator, depth⟩ (links.flatMap Link.lexemes) = some ⟨.operator, depth⟩ := by
  induction links with
  | nil => rfl
  | cons l links ih =>
    have hword : pass? ⟨.operator, depth⟩ l.lexemes = some ⟨.operator, depth⟩ := h l List.mem_cons_self
    rw [List.flatMap_cons, pass?_append, hword]
    exact ih fun l hl => h l (List.mem_cons_of_mem _ hl)

/-- Behind a phrase an operator has to come, and as many brackets are open as before it. -/
theorem pass?_of_derives {phrase : Phrase} {w : List Lexeme} {e : Expr Float} (h : Derives phrase w e) (depth : Nat) :
    pass? ⟨.operand, depth⟩ w = some ⟨.operator, depth⟩ := by
  induction h generalizing depth with
  | symbol | number => rfl
  | @brackets w _ inner ih =>
    have hinner : pass? ⟨.operand, depth⟩ (.opening :: w) = some ⟨.operator, depth + 1⟩ := ih (depth + 1)
    rw [← List.cons_append, pass?_append, hinner]
    rfl
  | chain first links operators operands ihFirst ihOperands =>
    rw [pass?_append, ihFirst depth]
    exact pass?_links fun l hl => ihOperands l hl depth

theorem leads_of_reads {task : Task} {phrase : Phrase} {p q : Parser} {x : Located} (h : Reads task p (.ok x, q))
    (hdue : IsDue task p) (hphrase : Yields task = Derives phrase) (depth : Nat) :
    Leads ⟨.operand, depth⟩ p ⟨.operator, depth⟩ q := by
  obtain ⟨w, hw, hyields, -⟩ := reads_yields h hdue
  exact ⟨⟨w, hw, pass?_of_derives (hphrase ▸ hyields) depth⟩, h.endLine_eq⟩

/-! ### The calls tell what may come -/

/-- Wherever a task is called, the pass has come to what the task expects, and to one open bracket for each primary that
    is under way. -/
theorem leads_of_calls {start p : Parser} {stack : List Task} {task : Task} (h : Calls start stack task p) :
    Leads {} start ⟨task.expected, openBrackets stack⟩ p := by
  induction h with
  | parse => exact .refl _ _
  | first h ih | tighter h operands ih | tightest h operands ih => exact ih
  | rest h first ih => exact ih.trans (leads_of_reads first trivial rfl _)
  | right h look ih => exact ih.trans (leads_advance look rfl)
  | again h look operand ih =>
    exact (ih.trans (leads_advance look rfl)).trans (leads_of_reads operand trivial rfl _)
  | brackets h look ih => exact ih.trans (leads_advance look rfl)

/-! ### The parser -/

/-- What is found may not come. -/
def Refuses (n : Nesting) : Found → Prop
  | .token t => n.next? t.lexeme = none
  | .endOfSource _ => n ≠ ⟨.operator, 0⟩

section Refuses

variable {depth : Nat} {found : Found}

theorem refuses_operand (noOpening : ∀ line, found ≠ .token ⟨.opening, line⟩)
    (noSymbol : ∀ name line, found ≠ .token ⟨.symbol name, line⟩)
    (noNumber : ∀ n line, found ≠ .token ⟨.number n, line⟩) : Refuses ⟨.operand, depth⟩ found := by
  match found with
  | .token ⟨.opening, line⟩ => exact absurd rfl (noOpening line)
  | .token ⟨.symbol name, line⟩ => exact absurd rfl (noSymbol name line)
  | .token ⟨.number n, line⟩ => exact absurd rfl (noNumber n line)
  | .token ⟨.operator op, line⟩ | .token ⟨.closing, line⟩ => rfl
  | .endOfSource line => exact nofun

/-- Within brackets, an operator or the closing bracket has to come. -/
theorem refuses_inside (noOperator : ∀ op line, found ≠ .token ⟨.operator op, line⟩)
    (noClosing : ∀ line, found ≠ .token ⟨.closing, line⟩) : Refuses ⟨.operator, depth + 1⟩ found := by
  match found with
  | .token ⟨.operator op, line⟩ => exact absurd rfl (noOperator op line)
  | .token ⟨.closing, line⟩ => exact absurd rfl (noClosing line)
  | .token ⟨.opening, line⟩ | .token ⟨.symbol _, line⟩ | .token ⟨.number _, line⟩ => rfl
  | .endOfSource line => exact nofun

/-- Outside brackets, an operator or the end has to come. -/
theorem refuses_outside (noOperator : ∀ op line, found ≠ .token ⟨.operator op, line⟩)
    (noEnd : ∀ line, found ≠ .endOfSource line) : Refuses ⟨.operator, 0⟩ found := by
  match found with
  | .token ⟨.operator op, line⟩ => exact absurd rfl (noOperator op line)
  | .token ⟨.closing, line⟩ | .token ⟨.opening, line⟩ | .token ⟨.symbol _, line⟩ | .token ⟨.number _, line⟩ => rfl
  | .endOfSource line => exact absurd rfl (noEnd line)

end Refuses

section Ends

variable {start p q : Parser} {n : Nesting} {answer : Except ParseError Located × Parser}

theorem Leads.concludes (h : Leads {} start n p) (hhalts : Halts p.endLine n p.stream answer) :
    Concludes start.endLine {} start.stream answer := by
  obtain ⟨⟨_, ⟨entries, hstart, rfl⟩, hpass⟩, hline⟩ := h
  exact ⟨entries, n, p.stream, hstart, hpass, hline ▸ hhalts⟩

theorem halts_of_fault {error : ScanError} (look : p.peek = (.error error, q)) :
    Halts p.endLine n p.stream (.error (.scan error), q) := by
  obtain ⟨read, hp, rfl⟩ := of_peek_error look
  rw [endLine, hp]
  exact .fault

theorem halts_of_refuses {found : Found} (look : p.peek = (.ok found, q)) (h : n.Refuses found) :
    Halts p.endLine n p.stream (.error (n.refusal found), q) := by
  cases found with
  | token t =>
    obtain ⟨read, rest, hp, rfl⟩ := of_peek_token look
    rw [hp]
    exact .refused h
  | endOfSource line =>
    obtain ⟨read, hp, rfl, rfl⟩ := of_peek_end look
    rw [endLine, hp]
    exact .incomplete h

/-- Behind a sum no operator comes. -/
theorem not_operator_of_reads {x : Located} {r : Parser} {found : Found} (h : Reads (.chain .sum) p (.ok x, q))
    (look : q.peek = (.ok found, r)) (op : Operator) (line : Nat) : found ≠ .token ⟨.operator op, line⟩ := by
  intro hfound
  obtain ⟨-, -, -, hstops⟩ := reads_yields h trivial
  have hrank : 3 ≤ op.tier.rank := (stops_iff_of_look look).mp hstops op line hfound
  exact absurd op.tier.rank_lt hrank.not_gt

end Ends

/-- Whichever call fails, the pass halts where it fails and for the reason that it gives. -/
theorem concludes_of_fails {start p q : Parser} {stack : List Task} {task : Task} {e : ParseError}
    (h : Reads task p (.error e, q)) (hcalls : Calls start stack task p) :
    Concludes start.endLine {} start.stream (.error e, q) := by
  generalize ha : (Except.error e, q) = a at h
  induction h generalizing stack e q with
  | chain first rest ihFirst ihRest => exact ihRest (.rest hcalls first) ha
  | chainFails first ih => exact ih (.first hcalls) ha
  | link look operand rest ihOperand ihRest => exact ihRest (.again hcalls look operand) ha
  | linkFails look operand ih => exact ih (.right hcalls look) ha
  | linksFault look | primaryFault look =>
    cases ha
    exact (leads_of_calls hcalls).concludes (halts_of_fault look)
  | tighter h inner ih => exact ih (.tighter hcalls h) ha
  | tightest h inner ih => exact ih (.tightest hcalls h) ha
  | bracketsFail look inner ih => exact ih (.brackets hcalls look) ha
  | bracketsFault look inner next =>
    cases ha
    have hsum := (leads_of_calls (.brackets hcalls look)).trans (leads_of_reads inner trivial rfl _)
    exact hsum.concludes (halts_of_fault next)
  | bracketsOpen look inner next other =>
    cases ha
    have hsum := (leads_of_calls (.brackets hcalls look)).trans (leads_of_reads inner trivial rfl _)
    exact hsum.concludes (halts_of_refuses next (refuses_inside (not_operator_of_reads inner next) other))
  | refused look noOpening noSymbol noNumber =>
    cases ha
    exact (leads_of_calls hcalls).concludes (halts_of_refuses look (refuses_operand noOpening noSymbol noNumber))
  | linksEnd | symbol | number | brackets => cases ha

theorem concludes_parse (p : Parser) : Concludes p.endLine {} p.stream p.parse := by
  rw [parse_eq]
  have hreads := reads_answer (.chain .sum) p
  split
  next e q hanswer => exact concludes_of_fails (hanswer ▸ hreads) .parse
  next x q hanswer =>
    rw [hanswer] at hreads
    have hsum := leads_of_reads hreads trivial rfl 0
    split
    next look => exact hsum.concludes (halts_of_fault look)
    next line r look =>
      obtain ⟨read, hq, rfl, rfl⟩ := of_peek_end look
      refine hsum.concludes ?_
      rw [endLine, hq]
      exact .complete rfl
    next found r hend look =>
      exact hsum.concludes (halts_of_refuses look (refuses_outside (not_operator_of_reads hreads look) hend))

theorem endLine_parse (p : Parser) : p.parse.2.endLine = p.endLine := by
  rw [parse_eq]
  have hline := (reads_answer (.chain .sum) p).endLine_eq
  split
  next hanswer =>
    rw [hanswer] at hline
    exact hline
  next hanswer =>
    rw [hanswer] at hline
    split
    all_goals
      next look => exact (endLine_of_peek look).trans hline

end Nesting

/-- The parser after so many expressions have been read with it or refused. -/
def Parser.left (p : Parser) : Nat → Parser
  | 0 => p
  | calls + 1 => (p.left calls).parse.2

theorem Parser.endLine_left (p : Parser) (calls : Nat) : (p.left calls).endLine = p.endLine := by
  induction calls with
  | zero => rfl
  | succ calls ih => rw [left, Nesting.endLine_parse, ih]

/-- However often expressions are read from the tokens of a source with one parser, each answer is that of a pass over
    what is left of them, and the pass has no other answer. It goes on as long as the next lexeme may come where it has
    come to, and ends at the first one that may not, at a fault of the scan, or at the end of the source, which stands
    on the line of the last token or on line 1. -/
theorem Tokens.parse_concludes (source : List Char) (calls : Nat) :
    let tokens := Tokens.scan source
    let last := (tokens.outcome.1.getLast?.map Token.line).getD 1
    let p := (Parser.unseen 1 tokens).left calls
    Nesting.Concludes last {} p.stream p.parse ∧
      ∀ answer, Nesting.Concludes last {} p.stream answer →
        answer.1.map (fun _ => ()) = p.parse.1.map (fun _ => ()) ∧ answer.2 = p.parse.2 := by
  intro tokens last p
  have hline : p.endLine = last := (Parser.endLine_left _ calls).trans (tokens.endLine_eq 1)
  have hparse : Nesting.Concludes last {} p.stream p.parse := hline ▸ Nesting.concludes_parse p
  exact ⟨hparse, fun answer hanswer => hanswer.unique hparse⟩

-- The second name may not come where an operator has to come, and the parser stays at it.
example : (Parser.unseen 1 (Tokens.scan "(a b)".toList)).left 1 =
    .current ⟨.symbol "b", 1⟩ 5 (.cons ⟨.closing, 1⟩ 5 (.done 5)) := by
  decide +kernel

end StackCalc
