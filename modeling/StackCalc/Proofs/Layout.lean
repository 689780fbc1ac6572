import StackCalc.Proofs.Streams
import StackCalc.Proofs.Values

/-!
The language of the scan. A layout of a source says which blanks and values the source is made of, in such a way that no
two rows of letters and no two numbers touch. The scan of a source that has a layout tells the values of the layout and
has no fault. Every other source begins with a layout and goes on with something that begins no value; there the scan
stops. In both cases there is one layout only, since blanks end where values begin.
-/

namespace StackCalc

namespace Scan

/-! ### Layouts -/

/-- A value, the lexeme that it stands for, and the blanks before it. -/
@[ext]
structure Piece where
  gap : List Char
  value : List Char
  lexeme : Lexeme
  blank : ∀ c ∈ gap, isBlank c = true
  denotes : Denotes value lexeme

namespace Piece

def text (p : Piece) : List Char :=
  p.gap ++ p.value

/-- Two rows of letters and two numbers have a blank between them. -/
def Apart (p q : Piece) : Prop :=
  q.gap = [] → ¬(IsLetterRow p.value ∧ IsLetterRow q.value) ∧ ¬(IsNumber p.value ∧ IsNumber q.value)

/-- The tokens of pieces that stand after the text `before`: each is on the line of its value. -/
def tokens (before : List Char) : List Piece → List Token
  | [] => []
  | p :: pieces =>
    ⟨p.lexeme, 1 + (before ++ p.gap).count '\n'⟩ :: tokens (before ++ p.text) pieces

/-- The same tokens, each with the number of characters read to tell it. After the pieces the source goes on with
    `tail`. -/
def entries (tail before : List Char) : List Piece → List (Token × Nat)
  | [] => []
  | p :: pieces =>
    (⟨p.lexeme, 1 + (before ++ p.gap).count '\n'⟩,
      (before ++ p.text).length + lookahead p.value (pieces.flatMap text ++ tail)) ::
        entries tail (before ++ p.text) pieces

theorem map_fst_entries (tail before : List Char) (pieces : List Piece) :
    (entries tail before pieces).map Prod.fst = tokens before pieces := by
  induction pieces generalizing before with
  | nil => rfl
  | cons p pieces ih => rw [entries, List.map_cons, ih, tokens]

end Piece

/-- The blanks and values of a source: pieces, and blanks at the end. -/
@[ext]
structure Layout where
  pieces : List Piece
  trail : List Char
  apart : pieces.IsChain Piece.Apart
  blank : ∀ c ∈ trail, isBlank c = true

namespace Layout

def text (l : Layout) : List Char :=
  l.pieces.flatMap Piece.text ++ l.trail

def tokens (l : Layout) : List Token :=
  Piece.tokens [] l.pieces

def EndsInNumber (l : Layout) : Prop :=
  l.trail = [] ∧ ∃ p ∈ l.pieces.getLast?, IsNumber p.value

/-- After the layout the source goes on with something that begins no value. -/
def StopsAt (l : Layout) (rest : List Char) (error : ScanError) : Prop :=
  Faulty (1 + l.text.count '\n') l.EndsInNumber rest error

end Layout

/-! ### Where values end -/

theorem Piece.Apart.ends {p q : Piece} (h : p.Apart q) (rest : List Char) : Ends p.value (q.text ++ rest) := by
  rcases hgap : q.gap with _ | ⟨b, gap⟩
  · obtain ⟨hrows, hnumbers⟩ := h hgap
    obtain ⟨c, more, hvalue, -, hpoint, hletter, hdigit⟩ := q.denotes.exists_cons
    rw [text, hgap, List.nil_append, hvalue, List.cons_append]
    constructor
    · rintro hrow _ ⟨⟩
      exact Bool.eq_false_iff.mpr fun hc => hrows ⟨hrow, hletter hc⟩
    · rintro hnumber _ ⟨⟩
      exact ⟨Bool.eq_false_iff.mpr fun hc => hnumbers ⟨hnumber, hdigit hc⟩, hpoint⟩
  · rw [text, hgap]
    exact .of_blank (q.blank b (by simp [hgap])) _ _

/-- If a value ends before another piece, they are apart. -/
theorem Piece.apart_of_ends {p q : Piece} {rest : List Char} (h : Ends p.value (q.text ++ rest)) : p.Apart q := by
  intro hgap
  obtain ⟨c, more, hvalue, -⟩ := q.denotes.exists_cons
  rw [text, hgap, List.nil_append, hvalue, List.cons_append] at h
  constructor
  · rintro ⟨hrow, hrow'⟩
    have hc := hrow'.2 c (by simp [hvalue])
    rw [h.1 hrow c rfl] at hc
    cases hc
  · rintro ⟨hnumber, hnumber'⟩
    obtain ⟨d, _, hcons, hd⟩ := hnumber'.exists_cons
    obtain ⟨rfl, -⟩ := List.cons.inj (hvalue.symm.trans hcons)
    rw [(h.2 hnumber c rfl).1] at hd
    cases hd

theorem Faulty.exists_cons {line : Nat} {afterNumber : Prop} {rest : List Char} {error : ScanError}
    (h : Faulty line afterNumber rest error) :
    ∃ c more, rest = c :: more ∧ isBlank c = false ∧ c.isAlpha = false ∧
      (c.isDigit = true ∨ c = '.' → ¬afterNumber) := by
  cases h with
  | @unrecognized c rest hblank _ hletter hdigit hpoint =>
    refine ⟨c, rest, rfl, hblank, hletter, ?_⟩
    rintro (hc | hc)
    · rw [hdigit] at hc
      cases hc
    · exact hpoint hc
  | lonePoint hafter hwhole | secondPoint hafter hwhole =>
    obtain ⟨c, more, rfl, hc⟩ := exists_cons_of_isDigitRow hwhole
    exact ⟨c, _, rfl, (start_of_isDigit hc).1, isAlpha_of_isDigit hc, fun _ => hafter⟩

theorem Faulty.ends {line : Nat} {afterNumber : Prop} {value rest : List Char} {error : ScanError}
    (h : Faulty line afterNumber rest error) (hvalue : IsNumber value → afterNumber) : Ends value rest := by
  obtain ⟨c, more, rfl, -, hletter, hnumber⟩ := h.exists_cons
  constructor
  · rintro - _ ⟨⟩
    exact hletter
  · rintro hvalue' _ ⟨⟩
    have hafter := hvalue hvalue'
    exact ⟨Bool.eq_false_iff.mpr fun hc => hnumber (.inl hc) hafter, fun hc => hnumber (.inr hc) hafter⟩

/-- What is a fault after a number or not is one also elsewhere, unless it belongs to a number there. -/
theorem Faulty.mono {line : Nat} {afterNumber afterNumber' : Prop} {rest : List Char} {error : ScanError}
    (h : Faulty line afterNumber rest error)
    (hafter : ∀ c ∈ rest.head?, c.isDigit = true ∨ c = '.' → ¬afterNumber → ¬afterNumber') (line' : Nat) :
    ∃ error', Faulty line' afterNumber' rest error' := by
  cases h with
  | unrecognized hblank hsign hletter hdigit hpoint =>
    exact ⟨_, .unrecognized hblank hsign hletter hdigit fun hc => hafter _ rfl (.inr hc) (hpoint hc)⟩
  | lonePoint hnot hwhole hends =>
    obtain ⟨c, more, rfl, hc⟩ := exists_cons_of_isDigitRow hwhole
    exact ⟨_, .lonePoint (hafter c rfl (.inl hc) hnot) hwhole hends⟩
  | secondPoint hnot hwhole hfraction =>
    obtain ⟨c, more, rfl, hc⟩ := exists_cons_of_isDigitRow hwhole
    exact ⟨_, .secondPoint (hafter c rfl (.inl hc) hnot) hwhole hfraction⟩

theorem Layout.ends_trail (l : Layout) {value rest : List Char} (hrest : l.trail = [] → Ends value rest) :
    Ends value (l.trail ++ rest) := by
  rcases htrail : l.trail with _ | ⟨b, trail⟩
  · exact hrest htrail
  · exact .of_blank (l.blank b (by simp [htrail])) _ _

/-! ### The scan of a layout -/

theorem Denotes.newline_not_mem {value : List Char} {a : Lexeme} (h : Denotes value a) : '\n' ∉ value := by
  rcases exists_denotes_iff.mp ⟨a, h⟩ with ⟨c, hc, rfl⟩ | hrow | ⟨whole, fraction, hnumeral⟩
  · intro hmem
    obtain rfl := List.mem_singleton.mp hmem
    cases (of_mem_signs hc).1
  · intro hmem
    cases hrow.2 _ hmem
  · exact hnumeral.newline_not_mem

/-- A piece ends before the pieces that it is apart from, if the last of them ends before what comes after them. -/
theorem ends_of_isChain {p : Piece} {pieces : List Piece} (h : (p :: pieces).IsChain Piece.Apart) {tail : List Char}
    (htail : ∀ q ∈ (p :: pieces).getLast?, Ends q.value tail) : Ends p.value (pieces.flatMap Piece.text ++ tail) := by
  cases pieces with
  | nil => exact htail p rfl
  | cons q pieces =>
    rw [List.flatMap_cons, List.append_assoc]
    exact (List.isChain_cons_cons.mp h).1.ends _

/-- Pieces that are apart are read one by one, if their last value ends before what comes after them. -/
theorem run_pieces {pieces : List Piece} (h : pieces.IsChain Piece.Apart) {tail : List Char}
    (htail : ∀ p ∈ pieces.getLast?, Ends p.value tail) (before : List Char) :
    run ⟨.nothing, 1 + before.count '\n'⟩ before.length (pieces.flatMap Piece.text ++ tail) =
      .after (Piece.entries tail before pieces)
        (run ⟨.nothing, 1 + (before ++ pieces.flatMap Piece.text).count '\n'⟩
          (before ++ pieces.flatMap Piece.text).length tail) := by
  induction pieces generalizing before with
  | nil => simp [Piece.entries, Tokens.after]
  | cons p pieces ih =>
    have hends : Ends p.value (pieces.flatMap Piece.text ++ tail) := ends_of_isChain h htail
    have hvalue : p.value.count '\n' = 0 := List.count_eq_zero_of_not_mem p.denotes.newline_not_mem
    have hih := ih h.tail (fun q hq => htail q (List.mem_getLast?_cons hq)) (before ++ p.text)
    have hline : 1 + (before ++ p.text).count '\n' = 1 + (before ++ p.gap).count '\n' := by
      simp [Piece.text, hvalue]
    have hgap : 1 + before.count '\n' + p.gap.count '\n' = 1 + (before ++ p.gap).count '\n' := by
      rw [List.count_append, Nat.add_assoc]
    have hread : before.length + p.gap.length + p.value.length = (before ++ p.text).length := by
      simp [Piece.text, Nat.add_assoc]
    rw [hline] at hih
    rw [List.flatMap_cons, List.append_assoc, Piece.text, List.append_assoc, run_gap p.blank, p.denotes.run hends, hgap,
      hread, hih, ← List.append_assoc before]
    rfl

/-- The stream of a source that begins with a layout. -/
theorem Layout.scan_append (l : Layout) {rest : List Char}
    (hrest : l.trail = [] → ∀ p ∈ l.pieces.getLast?, Ends p.value rest) :
    Tokens.scan (l.text ++ rest) =
      .after (Piece.entries (l.trail ++ rest) [] l.pieces)
        (run ⟨.nothing, 1 + l.text.count '\n'⟩ l.text.length rest) := by
  have htail : ∀ p ∈ l.pieces.getLast?, Ends p.value (l.trail ++ rest) :=
    fun p hp => l.ends_trail fun htrail => hrest htrail p hp
  have hpieces := run_pieces l.apart htail []
  rw [List.nil_append, run_gap l.blank, ← List.append_assoc, Nat.add_assoc, ← List.count_append, ← List.length_append]
    at hpieces
  exact hpieces

theorem Layout.outcome_scan (l : Layout) : (Tokens.scan l.text).outcome = (l.tokens, none) := by
  have hends : ∀ value, Ends value [] := fun value => ⟨nofun, nofun⟩
  have hscan := l.scan_append fun _ p _ => hends p.value
  rw [List.append_nil, run, State.finish] at hscan
  rw [hscan, Tokens.outcome_after, Piece.map_fst_entries, Tokens.outcome, List.append_nil]
  rfl

theorem Layout.StopsAt.outcome_scan {l : Layout} {rest : List Char} {error : ScanError} (h : l.StopsAt rest error) :
    (Tokens.scan (l.text ++ rest)).outcome = (l.tokens, some error) := by
  have hscan := l.scan_append fun htrail p hp => h.ends fun hnumber => ⟨htrail, p, hp, hnumber⟩
  obtain ⟨read, hfault⟩ := h.run l.text.length
  rw [hscan, hfault, Tokens.outcome_after, Piece.map_fst_entries, Tokens.outcome, List.append_nil]
  rfl

/-! ### Every source has a layout or stops after one -/

namespace Layout

/-- Blanks alone. -/
def blanks {gap : List Char} (h : ∀ c ∈ gap, isBlank c = true) : Layout :=
  ⟨[], gap, .nil, h⟩

/-- A piece before a layout. -/
def cons (p : Piece) (l : Layout) (h : ∀ q ∈ l.pieces.head?, p.Apart q) : Layout :=
  ⟨p :: l.pieces, l.trail, List.isChain_cons.mpr ⟨h, l.apart⟩, l.blank⟩

theorem text_cons (p : Piece) (l : Layout) (h : ∀ q ∈ l.pieces.head?, p.Apart q) :
    (cons p l h).text = p.text ++ l.text :=
  List.append_assoc ..

theorem apart_head {p : Piece} {l : Layout} {rest : List Char} (h : Ends p.value (l.text ++ rest)) :
    ∀ q ∈ l.pieces.head?, p.Apart q := by
  intro q hq
  rw [text, List.eq_cons_of_mem_head? hq, List.flatMap_cons, List.append_assoc, List.append_assoc] at h
  exact Piece.apart_of_ends h

theorem StopsAt.cons {p : Piece} {l : Layout} {rest : List Char} {error : ScanError} (h : l.StopsAt rest error)
    (hends : Ends p.value (l.text ++ rest)) : ∃ error', (cons p l (apart_head hends)).StopsAt rest error' := by
  refine h.mono ?_ _
  rintro c hc hcontinues hnot ⟨htrail, q, hq, hnumber⟩
  rcases hpieces : l.pieces with _ | ⟨first, pieces⟩
  · obtain rfl : p = q := by simpa [Layout.cons, hpieces] using hq
    have htext : l.text = [] := by simpa [text, hpieces] using show l.trail = [] from htrail
    rw [htext] at hends
    obtain ⟨hdigit, hpoint⟩ := hends.2 hnumber c hc
    exact hcontinues.elim (Bool.eq_false_iff.mp hdigit) hpoint
  · refine hnot ⟨htrail, q, ?_, hnumber⟩
    simpa [Layout.cons, hpieces] using hq

theorem exists_layout (source : List Char) :
    (∃ l : Layout, l.text = source) ∨ ∃ (l : Layout) (rest : List Char) (error : ScanError),
      source = l.text ++ rest ∧ l.StopsAt rest error := by
  induction hlength : source.length using Nat.strong_induction_on generalizing source with
  | _ n ih =>
    obtain ⟨gap, rest, rfl, hgap, hrest⟩ := exists_row isBlank source
    rcases rest with _ | ⟨c, rest⟩
    · exact .inl ⟨blanks hgap, by simp [blanks, text]⟩
    rcases exists_value_or_faulty (hrest c rfl) rest 1 with
      ⟨value, a, tail, heq, hvalue, hends⟩ | ⟨error, hfaulty⟩
    · -- The rest after the value is shorter, and what is said of it is said of the source with one more piece.
      let p : Piece := ⟨gap, value, a, hgap, hvalue⟩
      have hsource : gap ++ c :: rest = p.text ++ tail := by rw [heq, Piece.text, List.append_assoc]
      have hshorter : tail.length < n := by
        obtain ⟨d, more, hcons, -⟩ := hvalue.exists_cons
        rw [← hlength, heq, hcons]
        simp
        omega
      rw [hsource]
      rcases ih tail.length hshorter tail rfl with ⟨l, rfl⟩ | ⟨l, rest', error, rfl, hstop⟩
      · have hends' : Ends p.value (l.text ++ []) := by rwa [List.append_nil]
        exact .inl ⟨cons p l (apart_head hends'), text_cons p l _⟩
      · obtain ⟨error', hstop'⟩ := hstop.cons (p := p) hends
        exact .inr ⟨_, rest', error', by rw [text_cons, List.append_assoc], hstop'⟩
    · obtain ⟨error', hstop⟩ : ∃ error', (blanks hgap).StopsAt (c :: rest) error' := by
        refine hfaulty.mono ?_ _
        rintro - - - - ⟨-, p, hp, -⟩
        cases hp
      exact .inr ⟨blanks hgap, c :: rest, error', by simp [blanks, text], hstop⟩

end Layout

/-! ### No source has two layouts -/

theorem Faulty.head_not_blank {line : Nat} {afterNumber : Prop} {rest : List Char} {error : ScanError}
    (h : Faulty line afterNumber rest error) : ∀ c ∈ rest.head?, isBlank c = false := by
  obtain ⟨c, more, rfl, hblank, -⟩ := h.exists_cons
  rintro _ ⟨⟩
  exact hblank

theorem takeWhile_isBlank {gap rest : List Char} (hgap : ∀ c ∈ gap, isBlank c = true)
    (hrest : ∀ c ∈ rest.head?, isBlank c = false) : (gap ++ rest).takeWhile isBlank = gap := by
  rw [List.takeWhile_append_of_pos hgap]
  cases rest with
  | nil => exact List.append_nil gap
  | cons c rest => simp [hrest c rfl]

theorem gap_unique {gap gap' rest rest' : List Char} (hgap : ∀ c ∈ gap, isBlank c = true)
    (hgap' : ∀ c ∈ gap', isBlank c = true) (hrest : ∀ c ∈ rest.head?, isBlank c = false)
    (hrest' : ∀ c ∈ rest'.head?, isBlank c = false) (h : gap ++ rest = gap' ++ rest') : gap = gap' ∧ rest = rest' := by
  obtain rfl : gap = gap' := by rw [← takeWhile_isBlank hgap hrest, h, takeWhile_isBlank hgap' hrest']
  exact ⟨rfl, List.append_cancel_left h⟩

theorem Piece.map_lexeme_tokens (before : List Char) (pieces : List Piece) :
    (tokens before pieces).map Token.lexeme = pieces.map lexeme := by
  induction pieces generalizing before with
  | nil => rfl
  | cons p pieces ih => rw [tokens, List.map_cons, ih, List.map_cons]

/-- A piece ends the blanks before it, and its lexeme tells its value. -/
theorem pieces_unique {pieces pieces' : List Piece} {tail tail' : List Char}
    (hlexemes : pieces.map Piece.lexeme = pieces'.map Piece.lexeme)
    (h : pieces.flatMap Piece.text ++ tail = pieces'.flatMap Piece.text ++ tail') :
    pieces = pieces' ∧ tail = tail' := by
  induction pieces generalizing pieces' with
  | nil =>
    cases pieces' with
    | nil => exact ⟨rfl, h⟩
    | cons q pieces' => cases hlexemes
  | cons p pieces ih =>
    cases pieces' with
    | nil => cases hlexemes
    | cons q pieces' =>
      obtain ⟨hlexeme, hlexemes⟩ := List.cons.inj hlexemes
      have hvalue : p.value = q.value := by rw [← p.denotes.text_eq, ← q.denotes.text_eq, hlexeme]
      have hfirst : ∀ (r : Piece) (rest : List Char), ∀ c ∈ (r.value ++ rest).head?, isBlank c = false := by
        intro r rest c hc
        obtain ⟨d, more, hcons, hblank, -⟩ := r.denotes.exists_cons
        rw [hcons] at hc
        cases hc
        exact hblank
      rw [List.flatMap_cons, List.flatMap_cons, Piece.text, Piece.text] at h
      simp only [List.append_assoc] at h
      obtain ⟨hgap, hrest⟩ := gap_unique p.blank q.blank (hfirst p _) (hfirst q _) h
      rw [hvalue] at hrest
      obtain ⟨rfl, rfl⟩ := ih hlexemes (List.append_cancel_left hrest)
      exact ⟨congrArg (· :: pieces) (Piece.ext hgap hvalue hlexeme), rfl⟩

theorem Layout.unique {l l' : Layout} {rest rest' : List Char} (htokens : l.tokens = l'.tokens)
    (hrest : ∀ c ∈ rest.head?, isBlank c = false) (hrest' : ∀ c ∈ rest'.head?, isBlank c = false)
    (h : l.text ++ rest = l'.text ++ rest') : l = l' ∧ rest = rest' := by
  have hlexemes : l.pieces.map Piece.lexeme = l'.pieces.map Piece.lexeme := by
    rw [← Piece.map_lexeme_tokens [], ← Piece.map_lexeme_tokens []]
    exact congrArg _ htokens
  rw [text, text, List.append_assoc, List.append_assoc] at h
  obtain ⟨hpieces, htail⟩ := pieces_unique hlexemes h
  obtain ⟨htrail, rfl⟩ := gap_unique l.blank l'.blank hrest hrest' htail
  exact ⟨Layout.ext hpieces htrail, rfl⟩

end Scan

/-- The language of the scan. A value is a sign, a row of letters or a number. The scan of a source ends without a fault
    exactly if the source has a layout, and then it tells the tokens of that layout; no source has two. A source without
    a layout begins with exactly one after which something comes that begins no value, and the scan tells the tokens of
    that layout and ends with that fault. -/
theorem Tokens.outcome_scan_iff (source : List Char) :
    (∀ value, (∃ a, Scan.Denotes value a) ↔
      (∃ c ∈ Scan.signs, value = [c]) ∨ Scan.IsLetterRow value ∨ Scan.IsNumber value) ∧
    (∀ w, (Tokens.scan source).outcome = (w, none) ↔ ∃ l : Scan.Layout, l.text = source ∧ l.tokens = w) ∧
    (∀ l l' : Scan.Layout, l.text = source → l'.text = source → l = l') ∧
    ((¬∃ l : Scan.Layout, l.text = source) →
      ∃ (l : Scan.Layout) (rest : List Char) (error : ScanError), source = l.text ++ rest ∧ l.StopsAt rest error ∧
        (Tokens.scan source).outcome = (l.tokens, some error) ∧
        ∀ (l' : Scan.Layout) (rest' : List Char) (error' : ScanError), source = l'.text ++ rest' →
          l'.StopsAt rest' error' → l' = l ∧ rest' = rest ∧ error' = error) := by
  refine ⟨fun value => Scan.exists_denotes_iff, ?_, ?_, ?_⟩
  · intro w
    constructor
    · intro h
      rcases Scan.Layout.exists_layout source with ⟨l, rfl⟩ | ⟨l, rest, error, rfl, hstop⟩
      · rw [l.outcome_scan] at h
        exact ⟨l, rfl, (Prod.mk.inj h).1⟩
      · rw [hstop.outcome_scan] at h
        cases (Prod.mk.inj h).2
    · rintro ⟨l, rfl, rfl⟩
      exact l.outcome_scan
  · intro l l' h h'
    have htokens : (l.tokens, none) = (l'.tokens, (none : Option ScanError)) := by
      rw [← l.outcome_scan, ← l'.outcome_scan, h, h']
    have htext : l.text ++ [] = l'.text ++ [] := by rw [h, h']
    exact (Scan.Layout.unique (Prod.mk.inj htokens).1 (by simp) (by simp) htext).1
  · intro hnone
    rcases Scan.Layout.exists_layout source with hsome | ⟨l, rest, error, rfl, hstop⟩
    · exact absurd hsome hnone
    refine ⟨l, rest, error, rfl, hstop, hstop.outcome_scan, ?_⟩
    intro l' rest' error' heq hstop'
    have houtcome : (l'.tokens, some error') = (l.tokens, some error) := by
      rw [← hstop'.outcome_scan, ← hstop.outcome_scan, heq]
    obtain ⟨htokens, herror⟩ := Prod.mk.inj houtcome
    obtain ⟨hl, hrest⟩ := Scan.Layout.unique htokens hstop'.head_not_blank hstop.head_not_blank heq.symm
    exact ⟨hl, hrest, Option.some.inj herror⟩

end StackCalc
