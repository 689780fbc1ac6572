import StackCalc.Expr.Parse
import StackCalc.Proofs.Streams

/-!
The functions of the parser as a relation between what is to be read, the parser before it, and the result with the
parser after it. Every rule is one way through one of the functions. The functions come to what the relation says and to
nothing else, so that what is shown of reading is shown by induction over the rules.
-/

namespace StackCalc

namespace Parser

/-! ### Looking ahead -/

/-- The tokens that are not passed over yet. -/
def stream : Parser → Tokens
  | unseen _ tokens => tokens
  | current t read rest => .cons t read rest
  | atEnd _ read => .done read

/-- The line of the last token at which the parser has looked, or 1. -/
def lastLine : Parser → Nat
  | unseen line _ => line
  | current t _ _ => t.line
  | atEnd line _ => line

/-- A look depends on the stream and on the last line only. -/
theorem peek_eq (p : Parser) :
    p.peek = match p.stream with
      | .cons t read rest => (.ok (.token t), current t read rest)
      | .fault error read => (.error error, unseen p.lastLine (.done read))
      | .done read => (.ok (.endOfSource p.lastLine), atEnd p.lastLine read) := by
  cases p with
  | unseen line tokens => cases tokens <;> rfl
  | current => rfl
  | atEnd => rfl

section

variable {p q : Parser}

theorem peek_of_cons {t : Token} {read : Nat} {rest : Tokens} (h : p.stream = .cons t read rest) :
    p.peek = (.ok (.token t), current t read rest) := by
  rw [peek_eq, h]

theorem of_peek_token {t : Token} (h : p.peek = (.ok (.token t), q)) :
    ∃ read rest, p.stream = .cons t read rest ∧ q = current t read rest := by
  rw [peek_eq] at h
  split at h <;> cases h
  exact ⟨_, _, ‹_›, rfl⟩

theorem of_peek_end {line : Nat} (h : p.peek = (.ok (.endOfSource line), q)) :
    ∃ read, p.stream = .done read ∧ line = p.lastLine ∧ q = atEnd p.lastLine read := by
  rw [peek_eq] at h
  split at h <;> cases h
  exact ⟨_, ‹_›, rfl, rfl⟩

theorem of_peek_error {error : ScanError} (h : p.peek = (.error error, q)) :
    ∃ read, p.stream = .fault error read ∧ q = unseen p.lastLine (.done read) := by
  rw [peek_eq] at h
  split at h <;> cases h
  exact ⟨_, ‹_›, rfl⟩

theorem exists_look (h : ∀ error read, p.stream ≠ .fault error read) : ∃ found q, p.peek = (.ok found, q) := by
  rw [peek_eq]
  split
  · exact ⟨_, _, rfl⟩
  next error read hp => exact absurd hp (h error read)
  · exact ⟨_, _, rfl⟩

theorem stream_of_peek {found : Found} (h : p.peek = (.ok found, q)) : q.stream = p.stream := by
  cases found with
  | token t =>
    obtain ⟨read, rest, hp, rfl⟩ := of_peek_token h
    exact hp.symm
  | endOfSource line =>
    obtain ⟨read, hp, -, rfl⟩ := of_peek_end h
    exact hp.symm

end

/-! ### Passing over tokens -/

/-- Between two parsers lie tokens with these lexemes. -/
def Passes (p : Parser) (w : List Lexeme) (q : Parser) : Prop :=
  ∃ entries, p.stream = .after entries q.stream ∧ entries.map (·.1.lexeme) = w

section Passes

variable {p q r : Parser} {u v : List Lexeme}

theorem Passes.of_stream_eq (h : q.stream = p.stream) : p.Passes [] q :=
  ⟨[], h.symm, rfl⟩

theorem Passes.trans (h : p.Passes u q) (h' : q.Passes v r) : p.Passes (u ++ v) r := by
  obtain ⟨entries, hp, rfl⟩ := h
  obtain ⟨entries', hq, rfl⟩ := h'
  exact ⟨entries ++ entries', by rw [hp, hq, Tokens.after_append], List.map_append⟩

theorem passes_advance {t : Token} (look : p.peek = (.ok (.token t), q)) : p.Passes [t.lexeme] q.advance := by
  obtain ⟨read, rest, hp, rfl⟩ := of_peek_token look
  exact ⟨[(t, read)], hp, rfl⟩

theorem Passes.stream_eq (h : p.Passes [] q) : q.stream = p.stream := by
  obtain ⟨entries, hp, hentries⟩ := h
  obtain rfl := List.map_eq_nil_iff.mp hentries
  exact hp.symm

theorem Passes.of_cons {a : Lexeme} (h : p.Passes (a :: u) r) :
    ∃ line q, p.peek = (.ok (.token ⟨a, line⟩), q) ∧ q.advance.Passes u r := by
  obtain ⟨entries, hp, hentries⟩ := h
  obtain ⟨⟨⟨a, line⟩, read⟩, entries, rfl, rfl, rfl⟩ := List.map_eq_cons_iff.mp hentries
  exact ⟨line, _, peek_of_cons hp, entries, rfl, rfl⟩

theorem Passes.of_append (h : p.Passes (u ++ v) r) : ∃ q, p.Passes u q ∧ q.Passes v r := by
  obtain ⟨_, hp, hentries⟩ := h
  obtain ⟨entries, entries', rfl, rfl, rfl⟩ := List.map_eq_append_iff.mp hentries
  exact ⟨unseen 1 (.after entries' r.stream), ⟨entries, hp.trans (Tokens.after_append ..), rfl⟩, entries', rfl, rfl⟩

end Passes

/-! ### Reading -/

/-- What is to be read: a chain, the rest of a chain of which `left` has been read, an operand of a chain, or a
    primary. -/
inductive Task where
  | chain (t : Tier)
  | links (t : Tier) (left : Located)
  | operand (t : Tier)
  | primary

/-- What the function for a task comes to. -/
def Task.answer : Task → Parser → Except ParseError Located × Parser
  | chain t, p => (Parser.chain t p).answer
  | links t left, p => (Parser.links t left p).answer
  | operand t, p => (Parser.operand t p).answer
  | primary, p => (Parser.primary p).answer

/-- What reading comes to. -/
inductive Reads : Task → Parser → Except ParseError Located × Parser → Prop
  | chain {t : Tier} {p q : Parser} {left : Located} {a : Except ParseError Located × Parser}
      (first : Reads (.operand t) p (.ok left, q)) (rest : Reads (.links t left) q a) : Reads (.chain t) p a
  | chainFails {t : Tier} {p q : Parser} {e : ParseError} (first : Reads (.operand t) p (.error e, q)) :
      Reads (.chain t) p (.error e, q)
  | link {p q r : Parser} {op : Operator} {line : Nat} {left right : Located}
      {a : Except ParseError Located × Parser} (look : p.peek = (.ok (.token ⟨.operator op, line⟩), q))
      (operand : Reads (.operand op.tier) q.advance (.ok right, r))
      (rest : Reads (.links op.tier ⟨.binary op left.expr right.expr, line⟩) r a) : Reads (.links op.tier left) p a
  | linkFails {p q r : Parser} {op : Operator} {line : Nat} {left : Located} {e : ParseError}
      (look : p.peek = (.ok (.token ⟨.operator op, line⟩), q))
      (operand : Reads (.operand op.tier) q.advance (.error e, r)) : Reads (.links op.tier left) p (.error e, r)
  | linksEnd {t : Tier} {p q : Parser} {left : Located} {found : Found} (look : p.peek = (.ok found, q))
      (other : ∀ op line, found = .token ⟨.operator op, line⟩ → op.tier ≠ t) : Reads (.links t left) p (.ok left, q)
  | linksFault {t : Tier} {p q : Parser} {left : Located} {error : ScanError} (look : p.peek = (.error error, q)) :
      Reads (.links t left) p (.error (.scan error), q)
  | tighter {t tighter : Tier} {p : Parser} {a : Except ParseError Located × Parser}
      (h : t.operands? = some tighter) (inner : Reads (.chain tighter) p a) : Reads (.operand t) p a
  | tightest {t : Tier} {p : Parser} {a : Except ParseError Located × Parser} (h : t.operands? = none)
      (inner : Reads .primary p a) : Reads (.operand t) p a
  | symbol {p q : Parser} {name : String} {line : Nat} (look : p.peek = (.ok (.token ⟨.symbol name, line⟩), q)) :
      Reads .primary p (.ok ⟨.symbol name, line⟩, q.advance)
  | number {p q : Parser} {n : Numeral} {line : Nat} (look : p.peek = (.ok (.token ⟨.number n, line⟩), q)) :
      Reads .primary p (.ok ⟨.number n.decimal.toFloat, line⟩, q.advance)
  | brackets {p q r s : Parser} {x : Located} {line line' : Nat}
      (look : p.peek = (.ok (.token ⟨.opening, line⟩), q)) (inner : Reads (.chain .sum) q.advance (.ok x, r))
      (closing : r.peek = (.ok (.token ⟨.closing, line'⟩), s)) : Reads .primary p (.ok x, s.advance)
  | bracketsFail {p q r : Parser} {e : ParseError} {line : Nat}
      (look : p.peek = (.ok (.token ⟨.opening, line⟩), q)) (inner : Reads (.chain .sum) q.advance (.error e, r)) :
      Reads .primary p (.error e, r)
  | bracketsFault {p q r s : Parser} {x : Located} {line : Nat} {error : ScanError}
      (look : p.peek = (.ok (.token ⟨.opening, line⟩), q)) (inner : Reads (.chain .sum) q.advance (.ok x, r))
      (next : r.peek = (.error error, s)) : Reads .primary p (.error (.scan error), s)
  | bracketsOpen {p q r s : Parser} {x : Located} {line : Nat} {found : Found}
      (look : p.peek = (.ok (.token ⟨.opening, line⟩), q)) (inner : Reads (.chain .sum) q.advance (.ok x, r))
      (next : r.peek = (.ok found, s)) (other : ∀ line, found ≠ .token ⟨.closing, line⟩) :
      Reads .primary p (.error (.closingExpected found), s)
  | primaryFault {p q : Parser} {error : ScanError} (look : p.peek = (.error error, q)) :
      Reads .primary p (.error (.scan error), q)
  | refused {p q : Parser} {found : Found} (look : p.peek = (.ok found, q))
      (noOpening : ∀ line, found ≠ .token ⟨.opening, line⟩)
      (noSymbol : ∀ name line, found ≠ .token ⟨.symbol name, line⟩)
      (noNumber : ∀ n line, found ≠ .token ⟨.number n, line⟩) : Reads .primary p (.error (.operandExpected found), q)

section Answers

@[simp]
theorem Parsed.answer_tree {b : Nat} (x : Located) (p : Parser) (fewer : p.length < b) :
    (tree x p fewer : Parsed b).answer = (.ok x, p) := rfl

@[simp]
theorem Parsed.answer_error {b : Nat} (e : ParseError) (p : Parser) :
    (error e p : Parsed b).answer = (.error e, p) := rfl

@[simp]
theorem Parsed.answer_mono {b b' : Nat} (h : b ≤ b') (r : Parsed b) : (r.mono h).answer = r.answer := by
  cases r <;> rfl

theorem Task.answer_chain (t : Tier) (p : Parser) :
    (Task.chain t).answer p = match (Task.operand t).answer p with
      | (.ok left, q) => (Task.links t left).answer q
      | (.error e, q) => (.error e, q) := by
  simp only [Task.answer]
  rw [Parser.chain]
  cases Parser.operand t p <;> simp

theorem Task.answer_links (t : Tier) (left : Located) (p : Parser) :
    (Task.links t left).answer p = match p.peek with
      | (.error error, q) => (.error (.scan error), q)
      | (.ok (.token ⟨.operator op, line⟩), q) =>
        if op.tier = t then
          match (Task.operand t).answer q.advance with
          | (.ok right, r) => (Task.links t ⟨.binary op left.expr right.expr, line⟩).answer r
          | (.error e, r) => (.error e, r)
        else (.ok left, q)
      | (.ok _, q) => (.ok left, q) := by
  simp only [Task.answer]
  rw [Parser.links]
  split
  · simp [*]
  · split
    · simp only [*]
      cases Parser.operand t _ <;> simp
    · simp [*]
  · simp [*]

theorem Task.answer_operand (t : Tier) (p : Parser) :
    (Task.operand t).answer p = match t.operands? with
      | some tighter => (Task.chain tighter).answer p
      | none => Task.primary.answer p := by
  simp only [Task.answer]
  rw [Parser.operand]
  cases t <;> rfl

theorem Task.answer_primary (p : Parser) :
    Task.primary.answer p = match p.peek with
      | (.error error, q) => (.error (.scan error), q)
      | (.ok (.token ⟨.opening, _⟩), q) =>
        match (Task.chain .sum).answer q.advance with
        | (.error e, r) => (.error e, r)
        | (.ok x, r) =>
          match r.peek with
          | (.error error, s) => (.error (.scan error), s)
          | (.ok (.token ⟨.closing, _⟩), s) => (.ok x, s.advance)
          | (.ok found, s) => (.error (.closingExpected found), s)
      | (.ok (.token ⟨.symbol name, line⟩), q) => (.ok ⟨.symbol name, line⟩, q.advance)
      | (.ok (.token ⟨.number n, line⟩), q) => (.ok ⟨.number n.decimal.toFloat, line⟩, q.advance)
      | (.ok found, q) => (.error (.operandExpected found), q) := by
  simp only [Task.answer]
  rw [Parser.primary]
  split
  · simp [*]
  · simp only [*]
    cases Parser.chain .sum _ with
    | error e r => simp
    | tree x r fewer =>
      simp only [Parsed.answer_tree]
      split <;> simp [*]
  all_goals simp [*]

end Answers

theorem Reads.answer_eq {task : Task} {p : Parser} {a : Except ParseError Located × Parser} (h : Reads task p a) :
    task.answer p = a := by
  induction h with
  | chain first rest ihFirst ihRest =>
    rw [Task.answer_chain, ihFirst]
    exact ihRest
  | chainFails first ih => rw [Task.answer_chain, ih]
  | link look operand rest ihOperand ihRest =>
    rw [Task.answer_links, look]
    simp only [if_true, ihOperand, ihRest]
  | linkFails look operand ih =>
    rw [Task.answer_links, look]
    simp only [if_true, ih]
  | linksEnd look other =>
    rw [Task.answer_links, look]
    split <;> simp_all
  | linksFault look => rw [Task.answer_links, look]
  | tighter h inner ih | tightest h inner ih =>
    rw [Task.answer_operand, h]
    exact ih
  | symbol look | number look => rw [Task.answer_primary, look]
  | brackets look inner closing ih =>
    rw [Task.answer_primary, look]
    simp only [ih, closing]
  | bracketsFail look inner ih =>
    rw [Task.answer_primary, look]
    simp only [ih]
  | bracketsFault look inner next ih =>
    rw [Task.answer_primary, look]
    simp only [ih, next]
  | bracketsOpen look inner next other ih =>
    rw [Task.answer_primary, look]
    simp only [ih, next]
  | primaryFault look => rw [Task.answer_primary, look]
  | refused look noOpening noSymbol noNumber =>
    rw [Task.answer_primary, look]
    split <;> simp_all

theorem reads_answer (task : Task) (p : Parser) : Reads task p (task.answer p) := by
  have hall : (∀ t p, Reads (.chain t) p ((Task.chain t).answer p)) ∧
      (∀ t left p, Reads (.links t left) p ((Task.links t left).answer p)) ∧
      (∀ t p, Reads (.operand t) p ((Task.operand t).answer p)) ∧
      ∀ p, Reads .primary p (Task.primary.answer p) := by
    apply Parser.chain.mutual_induct
    case case1 =>
      intro t p e q hoperand ih
      simp only [Task.answer, hoperand, Parsed.answer_error] at ih
      rw [Task.answer_chain, Task.answer, hoperand, Parsed.answer_error]
      exact .chainFails ih
    case case2 =>
      intro t p left q fewer hoperand ihFirst ihRest
      simp only [Task.answer, hoperand, Parsed.answer_tree] at ihFirst
      rw [Task.answer_chain, Task.answer, hoperand, Parsed.answer_tree]
      exact .chain ihFirst ihRest
    case case3 =>
      intro t left p error q look
      rw [Task.answer_links, look]
      exact .linksFault look
    case case4 =>
      intro left p op line q look _ e r hoperand ih
      simp only [Task.answer, hoperand, Parsed.answer_error] at ih
      rw [Task.answer_links, look]
      simp only [if_true, Task.answer, hoperand, Parsed.answer_error]
      exact .linkFails look ih
    case case5 =>
      intro left p op line q look _ right r fewer hoperand ihOperand ihRest
      simp only [Task.answer, hoperand, Parsed.answer_tree] at ihOperand
      rw [Task.answer_links, look]
      simp only [if_true, Task.answer, hoperand, Parsed.answer_tree]
      exact .link look ihOperand ihRest
    case case6 =>
      intro t left p op line q look hop
      rw [Task.answer_links, look]
      simp only [if_neg hop]
      exact .linksEnd look (by rintro _ _ ⟨⟩; exact hop)
    case case7 =>
      intro t left p found q hother look
      have hlinks : (Task.links t left).answer p = (.ok left, q) := by
        rw [Task.answer_links, look]
        split <;> simp_all
      rw [hlinks]
      exact .linksEnd look fun op line hfound => absurd hfound (hother op line)
    case case8 =>
      intro t p tighter h ih
      rw [Task.answer_operand, h]
      exact .tighter h ih
    case case9 =>
      intro t p h ih
      rw [Task.answer_operand, h]
      exact .tightest h ih
    case case10 =>
      intro p error q look
      rw [Task.answer_primary, look]
      exact .primaryFault look
    case case11 =>
      intro p line q look _ e r hchain ih
      simp only [Task.answer, hchain, Parsed.answer_error] at ih
      rw [Task.answer_primary, look]
      simp only [Task.answer, hchain, Parsed.answer_error]
      exact .bracketsFail look ih
    case case12 =>
      intro p line q look _ x r fewer hchain error s next ih
      simp only [Task.answer, hchain, Parsed.answer_tree] at ih
      rw [Task.answer_primary, look]
      simp only [Task.answer, hchain, Parsed.answer_tree, next]
      exact .bracketsFault look ih next
    case case13 =>
      intro p line q look _ x r fewer hchain line' s closing _ ih
      simp only [Task.answer, hchain, Parsed.answer_tree] at ih
      rw [Task.answer_primary, look]
      simp only [Task.answer, hchain, Parsed.answer_tree, closing]
      exact .brackets look ih closing
    case case14 =>
      intro p line q look _ x r fewer hchain found s other next ih
      simp only [Task.answer, hchain, Parsed.answer_tree] at ih
      have hprimary : Task.primary.answer p = (.error (.closingExpected found), s) := by
        rw [Task.answer_primary, look]
        simp only [Task.answer, hchain, Parsed.answer_tree, next]
      rw [hprimary]
      exact .bracketsOpen look ih next other
    case case15 =>
      intro p name line q look
      rw [Task.answer_primary, look]
      exact .symbol look
    case case16 =>
      intro p n line q look
      rw [Task.answer_primary, look]
      exact .number look
    case case17 =>
      intro p found q noOpening noSymbol noNumber look
      have hprimary : Task.primary.answer p = (.error (.operandExpected found), q) := by
        rw [Task.answer_primary, look]
        split <;> simp_all
      rw [hprimary]
      exact .refused look noOpening noSymbol noNumber
  cases task with
  | chain t => exact hall.1 t p
  | links t left => exact hall.2.1 t left p
  | operand t => exact hall.2.2.1 t p
  | primary => exact hall.2.2.2 p

theorem Reads.unique {task : Task} {p : Parser} {a a' : Except ParseError Located × Parser} (h : Reads task p a)
    (h' : Reads task p a') : a = a' :=
  h.answer_eq.symm.trans h'.answer_eq

/-! ### A whole expression -/

theorem parse_eq (p : Parser) :
    p.parse = match (Task.chain .sum).answer p with
      | (.error e, q) => (.error e, q)
      | (.ok x, q) =>
        match q.peek with
        | (.error error, r) => (.error (.scan error), r)
        | (.ok (.endOfSource _), r) => (.ok x, r)
        | (.ok found, r) => (.error (.endExpected found), r) := by
  rw [parse, Task.answer]
  cases chain .sum p <;> rfl

/-- An expression is read if a sum is read and the end follows. -/
theorem parse_eq_ok_iff {p r : Parser} {x : Located} :
    p.parse = (.ok x, r) ↔
      ∃ q line, Reads (.chain .sum) p (.ok x, q) ∧ q.peek = (.ok (.endOfSource line), r) := by
  constructor
  · intro h
    have hreads := reads_answer (.chain .sum) p
    rw [parse_eq] at h
    split at h
    · cases h
    next y q hanswer =>
      rw [hanswer] at hreads
      split at h
      · cases h
      next line _ hend =>
        cases h
        exact ⟨q, line, hreads, hend⟩
      · cases h
  · rintro ⟨q, line, hreads, hend⟩
    rw [parse_eq, hreads.answer_eq]
    simp only [hend]

end Parser

end StackCalc
