import StackCalc.Pipeline
import StackCalc.Proofs.Grammar
import StackCalc.Proofs.Values

/-!
The source text of an expression reads back as the expression. A piece of text tells its lexemes whatever comes after
it, if what comes after it cannot belong to its last word or numeral. In the source text of an expression a blank or a
bracket comes after every operand, so the pieces put together tell the lexemes of the expression. Brackets around every
operator make these lexemes a primary of the grammar with the expression as its tree.
-/

namespace StackCalc

/-! ### What a text tells -/

namespace Scan

/-- The tokens of a text that is read in a state. -/
def tokens (s : State) (text : List Char) : Except ScanError (List Token) :=
  (run s 0 text).toList

/-- The count that a scan keeps does not matter to its tokens. -/
theorem toList_run (s : State) (read : Nat) (text : List Char) : (run s read text).toList = tokens s text := by
  unfold tokens
  generalize 0 = read'
  induction text generalizing s read read' with
  | nil =>
    rw [run, run, State.finish, State.finish]
    cases s.underway <;> rfl
  | cons c text ih =>
    rw [run, run, Tokens.toList_prepend, Tokens.toList_prepend]
    cases (s.step c).2 with
    | error error => rfl
    | ok next => rw [ih _ _ (read' + 1)]

theorem tokens_cons {s next : State} {c : Char} {told : List Token} (h : s.step c = (told, .ok next))
    (text : List Char) : tokens s (c :: text) = (tokens next text).map (told ++ ·) := by
  rw [tokens, run, h, Tokens.toList_prepend, toList_run]

theorem tokens_of_silent {s next : State} {c : Char} (h : s.step c = ([], .ok next)) (text : List Char) :
    tokens s (c :: text) = tokens next text := by
  rw [tokens_cons h]
  cases tokens next text <;> rfl

/-- A character that no word or numeral goes on with. -/
def isCut (c : Char) : Bool :=
  !c.isAlpha && !c.isDigit && c != '.'

theorem isCut_iff {c : Char} : isCut c = true ↔ c.isAlpha = false ∧ c.isDigit = false ∧ c ≠ '.' := by
  simp [isCut, and_assoc]

def Cut (text : List Char) : Prop :=
  text.head?.all isCut = true

theorem Cut.ends {rest : List Char} (h : Cut rest) (value : List Char) : Ends value rest := by
  cases rest with
  | nil => exact ⟨nofun, nofun⟩
  | cons c rest =>
    obtain ⟨hletter, hdigit, hpoint⟩ := isCut_iff.mp h
    constructor
    · rintro - _ ⟨⟩
      exact hletter
    · rintro - _ ⟨⟩
      exact ⟨hdigit, hpoint⟩

/-- A text tells lexemes: it is read into their tokens from where no token is under way, before any cut. -/
def Tells (text : List Char) (w : List Lexeme) : Prop :=
  ∀ line rest, Cut rest →
    tokens ⟨.nothing, line⟩ (text ++ rest) = (tokens ⟨.nothing, line⟩ rest).map (w.map (⟨·, line⟩) ++ ·)

namespace Tells

theorem nil : Tells [] [] := by
  intro line rest _
  rw [List.nil_append]
  cases tokens ⟨.nothing, line⟩ rest <;> rfl

theorem append {u v : List Char} {a b : List Lexeme} (hu : Tells u a) (hv : Tells v b) (hcut : Cut v) :
    Tells (u ++ v) (a ++ b) := by
  intro line rest hrest
  have hboth : Cut (v ++ rest) := by
    cases v with
    | nil => exact hrest
    | cons c v => exact hcut
  rw [List.append_assoc, hu line _ hboth, hv line rest hrest, List.map_append]
  cases tokens ⟨.nothing, line⟩ rest with
  | error error => rfl
  | ok w => simp [Except.map]

theorem single {c : Char} {lexeme : Lexeme} (hc : isBlank c = false) (hlexeme : single? c = some lexeme)
    {text : List Char} {w : List Lexeme} (h : Tells text w) : Tells (c :: text) (lexeme :: w) := by
  intro line rest hrest
  rw [List.cons_append, tokens, run_single hc hlexeme, Tokens.toList, toList_run, h line rest hrest]
  cases tokens ⟨.nothing, line⟩ rest <;> rfl

theorem space {text : List Char} {w : List Lexeme} (h : Tells text w) : Tells (' ' :: text) w := by
  intro line rest hrest
  have hstep : State.step ⟨.nothing, line⟩ ' ' = ([], .ok ⟨.nothing, line⟩) := rfl
  rw [List.cons_append, tokens_of_silent hstep, h line rest hrest]

end Tells

theorem Denotes.tells {value : List Char} {a : Lexeme} (h : Denotes value a) : Tells value [a] := by
  intro line rest hrest
  rw [tokens, h.run (hrest.ends value), Tokens.toList, toList_run]
  cases tokens ⟨.nothing, line⟩ rest <;> rfl

end Scan

/-! ### The lexemes of an expression -/

/-- A text as a row of digits. -/
def DigitRow.ofText? (text : List Char) : Option DigitRow :=
  if h : Literal.isDigitRow text = true then some ⟨text, h⟩ else none

@[simp]
theorem DigitRow.ofText?_chars (row : DigitRow) : ofText? row.chars = some row :=
  dif_pos row.isRow

/-- A text as a numeral. -/
def Numeral.ofText? (text : List Char) : Option Numeral := do
  let whole ← DigitRow.ofText? (text.takeWhile (· ≠ '.'))
  match text.dropWhile (· ≠ '.') with
  | [] => return { whole }
  | _ :: fraction => return { whole, fraction := some (← DigitRow.ofText? fraction) }

theorem Numeral.ofText?_text (n : Numeral) : ofText? n.text.toList = some n := by
  obtain ⟨whole, fraction⟩ := n
  cases fraction with
  | none =>
    obtain ⟨htake, hdrop⟩ := Literal.cut_at_point whole.isRow []
    rw [List.isEmpty_nil, if_pos rfl] at htake hdrop
    rw [text, String.toList_ofList, ofText?, htake, hdrop, DigitRow.ofText?_chars]
    rfl
  | some fraction =>
    have hne : fraction.chars.isEmpty = false := by
      obtain ⟨c, more, hfraction, -⟩ := fraction.exists_cons
      rw [hfraction, List.isEmpty_cons]
    obtain ⟨htake, hdrop⟩ := Literal.cut_at_point whole.isRow fraction.chars
    rw [hne, if_neg Bool.false_ne_true] at htake hdrop
    rw [text, String.toList_ofList, ofText?, htake, hdrop, DigitRow.ofText?_chars]
    simp

namespace Expr

/-- An expression that can be written: its names are letters and no operators, its numbers are finite and have no minus
    sign. -/
def IsWritable : Expr Float → Prop
  | symbol name => IsName name ∧ name ≠ "min" ∧ name ≠ "max"
  | number value => Number.isUnsigned value = true
  | binary _ left right => left.IsWritable ∧ right.IsWritable

instance decidableIsWritable : (e : Expr Float) → Decidable e.IsWritable
  | symbol name => inferInstanceAs (Decidable (IsName name ∧ name ≠ "min" ∧ name ≠ "max"))
  | number value => inferInstanceAs (Decidable (Number.isUnsigned value = true))
  | binary _ left right => @instDecidableAnd _ _ (decidableIsWritable left) (decidableIsWritable right)

/-- The lexemes of the source text of an expression, if its numbers can be written. -/
def lexemes? : Expr Float → Option (List Lexeme)
  | symbol name => some [.symbol name]
  | number value => (Numeral.ofText? (Number.source value).toList).map fun n => [.number n]
  | binary op left right => do
    let u ← left.lexemes?
    let v ← right.lexemes?
    return .opening :: (u ++ .operator op :: v ++ [.closing])

/-- The source text of an expression tells lexemes, and they are a primary of the grammar with the expression as its
    tree. -/
theorem exists_lexemes {e : Expr Float} (h : e.IsWritable) :
    ∃ w, e.lexemes? = some w ∧ Scan.Tells e.source.toList w ∧ Grammar.Derives .primary w e := by
  induction e with
  | symbol name =>
    obtain ⟨hname, hmin, hmax⟩ := h
    have hsymbol := Scan.Denotes.symbol hname (mt String.toList_inj.mp hmin) (mt String.toList_inj.mp hmax)
    rw [String.ofList_toList] at hsymbol
    exact ⟨_, rfl, hsymbol.tells, .symbol name⟩
  | number value =>
    obtain ⟨n, htext, hread⟩ := Number.exists_source h
    refine ⟨[.number n], ?_, ?_, .number n (Numeral.isNearest_value_iff.mpr hread)⟩
    · rw [lexemes?, ← htext, Numeral.ofText?_text]
      rfl
    · rw [source, ← htext]
      exact (Scan.Denotes.number n).tells
  | binary op left right ihl ihr =>
    obtain ⟨u, hu, htells, hleft⟩ := ihl h.1
    obtain ⟨v, hv, htells', hright⟩ := ihr h.2
    refine ⟨.opening :: (u ++ .operator op :: v ++ [.closing]), ?_, ?_, hleft.binary hright⟩
    · rw [lexemes?, hu, hv]
      rfl
    · have hclosed := (htells'.append (Scan.Tells.nil.single (c := ')') rfl rfl)) rfl
      have hoperator := (Scan.Denotes.operator op).tells.append hclosed.space rfl
      have hsource := (htells.append hoperator.space rfl).single (c := '(') rfl rfl
      simpa [source] using hsource

/-- The source text of an expression is cut into the lexemes of the expression and reads back as the same expression,
    bit by bit, if its names are letters and no operators and its numbers are finite and have no minus sign. -/
theorem parse_source {e : Expr Float} (h : e.IsWritable) :
    ∃ w, e.lexemes? = some w ∧ (Tokens.scan e.source.toList).toList = .ok (w.map (⟨·, 1⟩)) ∧
      ∃ line, Source.parse e.source.toList = .ok ⟨e, line⟩ := by
  obtain ⟨w, hw, htells, hderives⟩ := exists_lexemes h
  have hscan : (Tokens.scan e.source.toList).toList = .ok (w.map (⟨·, 1⟩)) := by
    have htokens := htells 1 [] rfl
    rw [List.append_nil] at htokens
    exact htokens.trans (congrArg Except.ok (List.append_nil _))
  refine ⟨w, hw, hscan, Grammar.parse_iff.mpr ⟨_, hscan, ?_⟩⟩
  rw [Token.map_lexeme]
  exact hderives.sum

/-- Powers of ten are written out, and a name may begin with the letters of an operator. -/
theorem parse_source_powers :
    let large := Double.nearest false (Nat.pow 10 23) 1
    let small := Double.nearest false 3 (Nat.pow 10 7)
    let e : Expr Float := .binary .sub (.symbol "minus") (.binary .min (.binary .pow (.number 0) (.number large))
      (.number small))
    e.source = "(minus - ((0.0 ^ 100000000000000000000000) min 0.0000003))" ∧
      ∃ line, Source.parse "(minus - ((0.0 ^ 100000000000000000000000) min 0.0000003))".toList = .ok ⟨e, line⟩ := by
  intro large small e
  have hsource : e.source = "(minus - ((0.0 ^ 100000000000000000000000) min 0.0000003))" := by decide +kernel
  have he : e.IsWritable := by decide +kernel
  refine ⟨hsource, ?_⟩
  rw [← hsource]
  obtain ⟨w, -, -, hparse⟩ := parse_source he
  exact hparse

end Expr

end StackCalc
