import StackCalc.Proofs.Parsing
import StackCalc.Proofs.Rounded

/-!
The grammar of expressions. A sum is a chain of products, a product a chain of choices, a choice a chain of primaries,
and a primary is a name, a numeral or a sum between brackets; the tree of a chain groups from the left, and the leaf of
a numeral is the double that its value is rounded to.

The parser decides this grammar. What a function of the parser passes over is a phrase with the tree that it gives, and
behind it stands no operator of that tier or of a tighter one. A phrase with nothing behind it that it could go on with
is what that function passes over. So an expression is read exactly if the lexemes are a sum of the grammar, and there
is one tree at most since the parser is a function.
-/

namespace StackCalc

/-- The operators between the operands of a chain. -/
def Tier.operators : Tier → List Operator
  | sum => [.add, .sub]
  | product => [.mul, .div, .mod, .pow]
  | choice => [.min, .max]

theorem Operator.mem_operators {op : Operator} {t : Tier} : op ∈ t.operators ↔ op.tier = t := by
  cases t <;> cases op <;> decide

theorem Tier.rank_inj {t t' : Tier} : t.rank = t'.rank ↔ t = t' := by
  cases t <;> cases t' <;> decide

namespace Grammar

/-- What the grammar derives: chains of the three tiers, and primaries. -/
inductive Phrase where
  | chain (t : Tier)
  | primary

/-- The operands of the chains of a tier. -/
def operandOf : Tier → Phrase
  | .sum => .chain .product
  | .product => .chain .choice
  | .choice => .primary

/-- An operator of a chain and the operand after it, with its lexemes. -/
structure Link where
  op : Operator
  word : List Lexeme
  right : Expr Float

namespace Link

def lexemes (l : Link) : List Lexeme :=
  .operator l.op :: l.word

def attach (left : Expr Float) (l : Link) : Expr Float :=
  .binary l.op left l.right

end Link

/-- The lexemes of a phrase and its tree. -/
inductive Derives : Phrase → List Lexeme → Expr Float → Prop
  | symbol (name : String) : Derives .primary [.symbol name] (.symbol name)
  | number (n : Numeral) {x : Float} (nearest : Double.IsNearest n.value (Double.ofFloat x)) :
    Derives .primary [.number n] (.number x)
  | brackets {w : List Lexeme} {e : Expr Float} (inner : Derives (.chain .sum) w e) :
    Derives .primary (.opening :: (w ++ [.closing])) e
  | chain {t : Tier} {w : List Lexeme} {e : Expr Float} (first : Derives (operandOf t) w e) (links : List Link)
    (operators : ∀ l ∈ links, l.op ∈ t.operators) (operands : ∀ l ∈ links, Derives (operandOf t) l.word l.right) :
    Derives (.chain t) (w ++ links.flatMap Link.lexemes) (links.foldl Link.attach e)

/-! ### Chains, link by link -/

/-- The links after a first operand `left` lead to the tree `e`. -/
inductive Continues (t : Tier) : Expr Float → List Lexeme → Expr Float → Prop
  | nil (left : Expr Float) : Continues t left [] left
  | cons {op : Operator} {left right e : Expr Float} {u v : List Lexeme} (hop : op.tier = t)
    (first : Derives (operandOf t) u right) (rest : Continues t (.binary op left right) v e) :
    Continues t left (.operator op :: (u ++ v)) e

theorem continues_links {t : Tier} {links : List Link} (hops : ∀ l ∈ links, l.op ∈ t.operators)
    (hrights : ∀ l ∈ links, Derives (operandOf t) l.word l.right) (left : Expr Float) :
    Continues t left (links.flatMap Link.lexemes) (links.foldl Link.attach left) := by
  induction links generalizing left with
  | nil => exact .nil left
  | cons l links ih =>
    have hop := Operator.mem_operators.mp (hops l (by simp))
    have hright := hrights l (by simp)
    exact .cons hop hright (ih (fun l hl => hops l (by simp [hl])) (fun l hl => hrights l (by simp [hl])) _)

theorem Continues.exists_links {t : Tier} {left e : Expr Float} {w : List Lexeme} (h : Continues t left w e) :
    ∃ links : List Link, (∀ l ∈ links, l.op ∈ t.operators) ∧ (∀ l ∈ links, Derives (operandOf t) l.word l.right) ∧
      w = links.flatMap Link.lexemes ∧ e = links.foldl Link.attach left := by
  induction h with
  | nil left => exact ⟨[], by simp⟩
  | @cons op left right e u v hop hright _ ih =>
    obtain ⟨links, hops, hrights, rfl, rfl⟩ := ih
    refine ⟨⟨op, u, right⟩ :: links, ?_, ?_, by simp [Link.lexemes], rfl⟩
    · intro l hl
      rcases List.mem_cons.mp hl with rfl | hl
      · exact Operator.mem_operators.mpr hop
      · exact hops l hl
    · intro l hl
      rcases List.mem_cons.mp hl with rfl | hl
      · exact hright
      · exact hrights l hl

theorem derives_chain_iff {t : Tier} {w : List Lexeme} {e : Expr Float} :
    Derives (.chain t) w e ↔ ∃ u v left, w = u ++ v ∧ Derives (operandOf t) u left ∧ Continues t left v e := by
  constructor
  · intro h
    cases h with
    | chain first links hops hrights => exact ⟨_, _, _, rfl, first, continues_links hops hrights _⟩
  · rintro ⟨u, v, left, rfl, hfirst, hrest⟩
    obtain ⟨links, hops, hrights, rfl, rfl⟩ := hrest.exists_links
    exact .chain hfirst links hops hrights

/-- An operand is a chain without links. -/
theorem Derives.single {t : Tier} {w : List Lexeme} {e : Expr Float} (h : Derives (operandOf t) w e) :
    Derives (.chain t) w e :=
  derives_chain_iff.mpr ⟨w, [], e, by simp, h, .nil e⟩

/-- Every phrase is a sum, with the same tree. -/
theorem Derives.sum {phrase : Phrase} {w : List Lexeme} {e : Expr Float} (h : Derives phrase w e) :
    Derives (.chain .sum) w e := by
  match phrase with
  | .primary => exact single (t := .sum) (single (t := .product) (single (t := .choice) h))
  | .chain .choice => exact single (t := .sum) (single (t := .product) h)
  | .chain .product => exact single (t := .sum) h
  | .chain .sum => exact h

/-- A primary is an operand of every chain. -/
theorem Derives.operand {w : List Lexeme} {e : Expr Float} (h : Derives .primary w e) (t : Tier) :
    Derives (operandOf t) w e := by
  match t with
  | .choice => exact h
  | .product => exact single (t := .choice) h
  | .sum => exact single (t := .product) (single (t := .choice) h)

/-- Two primaries with an operator between them, in brackets. -/
theorem Derives.binary {op : Operator} {u v : List Lexeme} {left right : Expr Float} (hleft : Derives .primary u left)
    (hright : Derives .primary v right) :
    Derives .primary (.opening :: (u ++ .operator op :: v ++ [.closing])) (.binary op left right) := by
  have hlink : Continues op.tier left (.operator op :: (v ++ [])) (.binary op left right) :=
    .cons rfl (hright.operand op.tier) (.nil _)
  rw [List.append_nil] at hlink
  exact .brackets (derives_chain_iff.mpr ⟨u, _, left, rfl, hleft.operand op.tier, hlink⟩).sum

/-! ### What may stand behind a phrase -/

open StackCalc.Parser

/-- An operator that comes next binds no tighter than the tier of rank `k`. -/
def Stops (k : Nat) : Tokens → Prop
  | .cons ⟨.operator op, _⟩ _ _ => k ≤ op.tier.rank
  | _ => True

theorem stops_zero (tokens : Tokens) : Stops 0 tokens := by
  unfold Stops
  split
  · exact Nat.zero_le _
  · trivial

theorem Stops.mono {k k' : Nat} {tokens : Tokens} (h : Stops k tokens) (hk : k' ≤ k) : Stops k' tokens := by
  unfold Stops at h ⊢
  split
  · exact hk.trans h
  · trivial

section Looks

variable {p q : Parser} {found : Found} {k : Nat} {t : Tier}

theorem stops_iff_of_look (look : p.peek = (.ok found, q)) :
    Stops k p.stream ↔ ∀ op line, found = .token ⟨.operator op, line⟩ → k ≤ op.tier.rank := by
  cases found with
  | token token =>
    obtain ⟨read, rest, hp, -⟩ := of_peek_token look
    obtain ⟨lexeme, line⟩ := token
    rw [hp]
    cases lexeme <;> simp [Stops]
  | endOfSource line =>
    obtain ⟨read, hp, -⟩ := of_peek_end look
    rw [hp]
    simp [Stops]

/-- Where an operator of a tier might come but does not, only those that bind looser may come. -/
theorem stops_succ_of_look (look : p.peek = (.ok found, q)) (h : Stops t.rank p.stream)
    (other : ∀ op line, found = .token ⟨.operator op, line⟩ → op.tier ≠ t) : Stops (t.rank + 1) q.stream := by
  rw [stream_of_peek look, stops_iff_of_look look]
  intro op line hfound
  have hle := (stops_iff_of_look look).mp h op line hfound
  have hne : t.rank ≠ op.tier.rank := fun hrank => other op line hfound (Tier.rank_inj.mp hrank.symm)
  exact Nat.lt_of_le_of_ne hle hne

end Looks

/-! ### What is read is a phrase -/

/-- The lexemes that a task passes over, with the tree that it comes to. -/
def Yields : Task → List Lexeme → Expr Float → Prop
  | .chain t => Derives (.chain t)
  | .links t left => Continues t left.expr
  | .operand t => Derives (operandOf t)
  | .primary => Derives .primary

/-- The lowest rank of an operator that may stand behind what a task passes over. -/
def rankBehind : Task → Nat
  | .chain t | .links t _ => t.rank + 1
  | .operand t => t.rank
  | .primary => 0

/-- The rest of a chain is read where one of its operands has ended. -/
def IsDue : Task → Parser → Prop
  | .links t _, p => Stops t.rank p.stream
  | _, _ => True

theorem reads_yields {task : Task} {p q : Parser} {x : Located} (h : Reads task p (.ok x, q)) (hdue : IsDue task p) :
    ∃ w, p.Passes w q ∧ Yields task w x.expr ∧ Stops (rankBehind task) q.stream := by
  generalize ha : (Except.ok x, q) = a at h
  induction h generalizing x q with
  | chain first rest ihFirst ihRest =>
    obtain ⟨u, hu, hfirst, hstops⟩ := ihFirst trivial rfl
    obtain ⟨v, hv, hrest, hbehind⟩ := ihRest hstops ha
    exact ⟨u ++ v, hu.trans hv, derives_chain_iff.mpr ⟨u, v, _, rfl, hfirst, hrest⟩, hbehind⟩
  | link look operand rest ihOperand ihRest =>
    obtain ⟨u, hu, hright, hstops⟩ := ihOperand trivial rfl
    obtain ⟨v, hv, hrest, hbehind⟩ := ihRest hstops ha
    exact ⟨_ :: (u ++ v), (passes_advance look).trans (hu.trans hv), .cons rfl hright hrest, hbehind⟩
  | linksEnd look other =>
    cases ha
    exact ⟨[], .of_stream_eq (stream_of_peek look), .nil _, stops_succ_of_look look hdue other⟩
  | @tighter t tighter _ _ h inner ih =>
    obtain ⟨w, hw, hinner, hstops⟩ := ih trivial ha
    cases t <;> cases h <;> exact ⟨w, hw, hinner, hstops⟩
  | @tightest t _ _ h inner ih =>
    obtain ⟨w, hw, hinner, hstops⟩ := ih trivial ha
    cases t <;> cases h
    exact ⟨w, hw, hinner, hstops⟩
  | symbol look =>
    cases ha
    exact ⟨_, passes_advance look, .symbol _, stops_zero _⟩
  | number look =>
    cases ha
    exact ⟨_, passes_advance look, .number _ (Numeral.isNearest_value_iff.mpr rfl), stops_zero _⟩
  | brackets look inner closing ih =>
    cases ha
    obtain ⟨w, hw, hinner, -⟩ := ih trivial rfl
    exact ⟨_, (passes_advance look).trans (hw.trans (passes_advance closing)), .brackets hinner, stops_zero _⟩
  | chainFails | linkFails | linksFault => cases ha
  | bracketsFail | bracketsFault | bracketsOpen | primaryFault | refused => cases ha

/-! ### A phrase is read -/

def Phrase.task : Phrase → Task
  | chain t => .chain t
  | primary => .primary

/-- What may stand behind a phrase: the end or a token, and no operator that the phrase could go on with. -/
structure Ends (phrase : Phrase) (rest : Tokens) : Prop where
  no_fault : ∀ error read, rest ≠ .fault error read
  stops : Stops (rankBehind phrase.task) rest

theorem ends_of_look {phrase : Phrase} {p q : Parser} {found : Found} (look : p.peek = (.ok found, q))
    (h : ∀ op line, found = .token ⟨.operator op, line⟩ → rankBehind phrase.task ≤ op.tier.rank) :
    Ends phrase p.stream where
  no_fault error read hp := by
    rw [peek_eq, hp] at look
    cases look
  stops := (stops_iff_of_look look).mpr h

/-- Wherever a phrase stands and may end, it is read up to its end and gives the tree `e`. -/
def IsRead (phrase : Phrase) (w : List Lexeme) (e : Expr Float) : Prop :=
  ∀ p r, p.Passes w r → Ends phrase r.stream → ∃ line q, Reads phrase.task p (.ok ⟨e, line⟩, q) ∧ q.stream = r.stream

theorem reads_operand {t : Tier} {p : Parser} {a : Except ParseError Located × Parser}
    (h : Reads (operandOf t).task p a) : Reads (.operand t) p a := by
  cases t with
  | sum | product => exact .tighter rfl h
  | choice => exact .tightest rfl h

theorem rankBehind_operandOf (t : Tier) : rankBehind (operandOf t).task = t.rank := by
  cases t <;> rfl

section Links

variable {t : Tier} {links : List Link} {p r : Parser}

/-- An operand may end before more links of its chain and where the chain may end. -/
theorem ends_operand (hops : ∀ l ∈ links, l.op ∈ t.operators) (hpass : p.Passes (links.flatMap Link.lexemes) r)
    (hend : Ends (.chain t) r.stream) : Ends (operandOf t) p.stream := by
  cases links with
  | nil =>
    rw [← Passes.stream_eq hpass]
    exact ⟨hend.no_fault, hend.stops.mono (rankBehind_operandOf t ▸ Nat.le_succ t.rank)⟩
  | cons l links =>
    obtain ⟨line, q, look, -⟩ := hpass.of_cons
    refine ends_of_look look ?_
    rintro op _ ⟨⟩
    rw [rankBehind_operandOf, Operator.mem_operators.mp (hops l List.mem_cons_self)]

theorem reads_links (hops : ∀ l ∈ links, l.op ∈ t.operators)
    (hrights : ∀ l ∈ links, IsRead (operandOf t) l.word l.right) (left : Located)
    (hpass : p.Passes (links.flatMap Link.lexemes) r) (hend : Ends (.chain t) r.stream) :
    ∃ line q, Reads (.links t left) p (.ok ⟨links.foldl Link.attach left.expr, line⟩, q) ∧ q.stream = r.stream := by
  induction links generalizing left p with
  | nil =>
    have hstream : r.stream = p.stream := Passes.stream_eq hpass
    rw [hstream] at hend ⊢
    obtain ⟨found, q, look⟩ := exists_look hend.no_fault
    refine ⟨left.line, q, .linksEnd look fun op line hfound htier => ?_, stream_of_peek look⟩
    have hrank : t.rank + 1 ≤ op.tier.rank := (stops_iff_of_look look).mp hend.stops op line hfound
    rw [htier] at hrank
    exact absurd hrank (Nat.not_succ_le_self _)
  | cons l links ih =>
    have hlinks : ∀ l ∈ links, l.op ∈ t.operators := fun l hl => hops l (List.mem_cons_of_mem _ hl)
    obtain ⟨line, q, look, hpass⟩ := hpass.of_cons
    obtain ⟨m, hword, hrest⟩ := hpass.of_append
    obtain ⟨line', q', hright, hq'⟩ := hrights l List.mem_cons_self _ _ hword (ends_operand hlinks hrest hend)
    have hrest : q'.Passes (links.flatMap Link.lexemes) r := (Passes.of_stream_eq hq'.symm).trans hrest
    obtain ⟨line'', s, hlinks, hs⟩ :=
      ih hlinks (fun l hl => hrights l (List.mem_cons_of_mem _ hl)) ⟨.binary l.op left.expr l.right, line⟩ hrest
    obtain rfl := Operator.mem_operators.mp (hops l List.mem_cons_self)
    exact ⟨line'', s, .link look (reads_operand hright) hlinks, hs⟩

end Links

theorem Derives.isRead {phrase : Phrase} {w : List Lexeme} {e : Expr Float} (h : Derives phrase w e) :
    IsRead phrase w e := by
  induction h with
  | symbol name =>
    intro p r hpass hend
    obtain ⟨line, q, look, hpass⟩ := hpass.of_cons
    exact ⟨line, _, .symbol look, hpass.stream_eq.symm⟩
  | number n nearest =>
    intro p r hpass hend
    obtain ⟨line, q, look, hpass⟩ := hpass.of_cons
    obtain rfl := Numeral.isNearest_value_iff.mp nearest
    exact ⟨line, _, .number look, hpass.stream_eq.symm⟩
  | brackets inner ih =>
    intro p r hpass hend
    obtain ⟨line, q, look, hpass⟩ := hpass.of_cons
    obtain ⟨m, hinner, hclosing⟩ := hpass.of_append
    obtain ⟨_, _, look', -⟩ := hclosing.of_cons
    obtain ⟨line', q', hsum, hq'⟩ := ih _ _ hinner (ends_of_look look' nofun)
    obtain ⟨_, s, closing, hpass⟩ := ((Passes.of_stream_eq hq'.symm).trans hclosing).of_cons
    exact ⟨line', _, .brackets look hsum closing, hpass.stream_eq.symm⟩
  | chain first links operators operands ihFirst ihOperands =>
    intro p r hpass hend
    obtain ⟨m, hfirst, hlinks⟩ := hpass.of_append
    obtain ⟨line, q, hleft, hq⟩ := ihFirst p m hfirst (ends_operand operators hlinks hend)
    obtain ⟨line', s, hrest, hs⟩ :=
      reads_links operators ihOperands ⟨_, line⟩ ((Passes.of_stream_eq hq.symm).trans hlinks) hend
    exact ⟨line', s, .chain (reads_operand hleft) hrest, hs⟩

/-- A phrase of the grammar has one tree. -/
theorem Derives.unique {phrase : Phrase} {w : List Lexeme} {e e' : Expr Float} (h : Derives phrase w e)
    (h' : Derives phrase w e') : e = e' := by
  -- The lexemes are read as a stream of their own, to both trees at once.
  let last := unseen 1 (.done 0)
  let stream := Tokens.after (w.map fun a => (⟨a, 1⟩, 0)) last.stream
  have hpass : (unseen 1 stream).Passes w last := ⟨_, rfl, by rw [List.map_map]; exact List.map_id w⟩
  have hend : Ends phrase last.stream := ⟨nofun, trivial⟩
  obtain ⟨line, q, hreads, -⟩ := h.isRead _ _ hpass hend
  obtain ⟨line', q', hreads', -⟩ := h'.isRead _ _ hpass hend
  cases hreads.unique hreads'
  rfl

theorem parse_iff {tokens : Tokens} {e : Expr Float} :
    (∃ line, tokens.parse.1 = .ok ⟨e, line⟩) ↔
      ∃ w, tokens.toList = .ok w ∧ Derives (.chain .sum) (w.map Token.lexeme) e := by
  constructor
  · rintro ⟨line, hline⟩
    have hparse : (unseen 1 tokens).parse = (.ok ⟨e, line⟩, tokens.parse.2) := Prod.ext hline rfl
    obtain ⟨q, line', hreads, hend⟩ := parse_eq_ok_iff.mp hparse
    obtain ⟨read, hq, -, -⟩ := of_peek_end hend
    obtain ⟨_, ⟨entries, hp, rfl⟩, hderives, -⟩ := reads_yields hreads trivial
    refine ⟨entries.map Prod.fst, Tokens.toList_eq_ok_iff.mpr ⟨entries, read, hq ▸ hp, rfl⟩, ?_⟩
    rw [List.map_map]
    exact hderives
  · rintro ⟨w, hw, hderives⟩
    obtain ⟨entries, read, rfl, rfl⟩ := Tokens.toList_eq_ok_iff.mp hw
    rw [List.map_map] at hderives
    have hpass : (unseen 1 (.after entries (.done read))).Passes _ (unseen 1 (.done read)) := ⟨entries, rfl, rfl⟩
    obtain ⟨line, q, hreads, hq⟩ := hderives.isRead _ _ hpass ⟨nofun, trivial⟩
    have hend : q.peek = (.ok (.endOfSource q.lastLine), atEnd q.lastLine read) := by
      rw [peek_eq, hq]
      rfl
    exact ⟨line, congrArg Prod.fst (parse_eq_ok_iff.mpr ⟨q, _, hreads, hend⟩)⟩

end Grammar

/-- The parser gives an expression exactly if the stream has no fault and its lexemes are a sum of the grammar with that
    expression as its tree. It then has come to the end of the stream. No phrase of the grammar has two trees. -/
theorem Tokens.parse_eq_ok_iff_derives (tokens : Tokens) (e : Expr Float) :
    ((∃ line, tokens.parse.1 = .ok ⟨e, line⟩) ↔
      ∃ w, tokens.toList = .ok w ∧ Grammar.Derives (.chain .sum) (w.map Token.lexeme) e) ∧
    (∀ x, tokens.parse.1 = .ok x → ∃ line read, tokens.parse.2 = .atEnd line read) ∧
    ∀ phrase w e', Grammar.Derives phrase w e → Grammar.Derives phrase w e' → e = e' := by
  refine ⟨Grammar.parse_iff, ?_, fun phrase w e' h h' => h.unique h'⟩
  intro x hx
  obtain ⟨q, line, -, hend⟩ := Parser.parse_eq_ok_iff.mp (Prod.ext hx rfl : tokens.parse = (.ok x, tokens.parse.2))
  obtain ⟨read, -, -, hlast⟩ := Parser.of_peek_end hend
  exact ⟨_, read, hlast⟩

end StackCalc
