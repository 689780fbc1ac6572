import StackCalc.Machine
import StackCalc.Proofs.Numerals

/-!
The text of a program, loaded again. An instruction has a text unless its number of operands has too many digits. The
line of an instruction splits into a keyword and an argument, whatever blanks stand around and between them. If the
instruction has letters for a name, a finite literal or at least two operands, the line reads as the instruction with
its literal rounded. So a program of such instructions is loaded with its literals rounded, also from a text with more
blanks and blank lines, and running its text is running that program.
-/

namespace StackCalc

/-! ### Fields of a line -/

namespace Text

theorem isBlank_eq_false {c : Char} (h : 33 ≤ c.toNat) (h' : c.toNat ≤ 126) : isBlank c = false := by
  simp only [isBlank, blankRanges, List.any_cons, List.any_nil, Bool.or_false, Bool.or_eq_false_iff,
    Bool.and_eq_false_iff, decide_eq_false_iff_not]
  omega

/-- A row of characters without a blank. -/
def IsWord (word : List Char) : Prop :=
  word ≠ [] ∧ ∀ c ∈ word, isBlank c = false

instance (word : List Char) : Decidable (IsWord word) :=
  decidable_of_iff (word ≠ [] ∧ word.all (fun c => !isBlank c) = true) (by simp [IsWord])

theorem isWord_cons_iff {c d : Char} {word : List Char} :
    IsWord (c :: d :: word) ↔ isBlank c = false ∧ IsWord (d :: word) := by
  simp [IsWord]

theorem fields_blank {b : Char} (hb : isBlank b = true) (rest : List Char) : fields (b :: rest) = fields rest := by
  simp [fields, hb]

theorem fields_blanks {text : List Char} (h : ∀ c ∈ text, isBlank c = true) : fields text = [] := by
  induction text with
  | nil => rfl
  | cons c text ih => rw [fields_blank (h c (by simp)), ih fun c hc => h c (by simp [hc])]

theorem fields_cons_blank {c b : Char} (hc : isBlank c = false) (hb : isBlank b = true) (rest : List Char) :
    fields (c :: b :: rest) = [c] :: fields rest := by
  rw [fields.eq_def]
  simp only [hc, fields_blank hb]
  cases fields rest <;> simp [hb]

theorem fields_cons_cons {c d : Char} {rest field : List Char} {more : List (List Char)} (hc : isBlank c = false)
    (hd : isBlank d = false) (h : fields (d :: rest) = field :: more) :
    fields (c :: d :: rest) = (c :: field) :: more := by
  rw [fields.eq_def]
  simp [hc, hd, h]

theorem fields_word {word : List Char} (h : IsWord word) : fields word = [word] := by
  induction word with
  | nil => exact absurd rfl h.1
  | cons c word ih =>
    have hc : isBlank c = false := h.2 c (by simp)
    cases word with
    | nil => simp [fields, hc]
    | cons d word =>
      obtain ⟨-, hword⟩ := isWord_cons_iff.mp h
      exact fields_cons_cons hc (hword.2 d (by simp)) (ih hword)

theorem fields_word_append {word : List Char} (h : IsWord word) {b : Char} (hb : isBlank b = true) (rest : List Char) :
    fields (word ++ b :: rest) = word :: fields rest := by
  induction word with
  | nil => exact absurd rfl h.1
  | cons c word ih =>
    have hc : isBlank c = false := h.2 c (by simp)
    cases word with
    | nil => exact fields_cons_blank hc hb rest
    | cons d word =>
      obtain ⟨-, hword⟩ := isWord_cons_iff.mp h
      exact fields_cons_cons hc (hword.2 d (by simp)) (ih hword)

theorem fields_word_cut {word line : List Char} (h : IsWord word) (hcut : line.head?.all isBlank = true) :
    fields (word ++ line) = word :: fields line := by
  cases line with
  | nil => rw [List.append_nil, fields_word h]; rfl
  | cons b line =>
    have hb : isBlank b = true := hcut
    rw [fields_word_append h hb, fields_blank hb]

/-- Blanks that do not end a line. -/
def IsGap (gap : List Char) : Prop :=
  ∀ c ∈ gap, isBlank c = true ∧ c ≠ '\n'

instance (gap : List Char) : Decidable (IsGap gap) :=
  decidable_of_iff (gap.all (fun c => isBlank c && c != '\n') = true) (by simp [IsGap])

theorem fields_gap_append {gap : List Char} (h : IsGap gap) (line : List Char) :
    fields (gap ++ line) = fields line := by
  induction gap with
  | nil => rfl
  | cons b gap ih => rw [List.cons_append, fields_blank (h b (by simp)).1, ih fun c hc => h c (by simp [hc])]

/-- A line of words, with any blanks around them and one blank at least between two of them: what comes after a word is
    empty or begins with a blank. -/
inductive Spaced : List (List Char) → List Char → Prop
  | nil {gap : List Char} (hgap : IsGap gap) : Spaced [] gap
  | cons {gap word line : List Char} {words : List (List Char)} (hgap : IsGap gap) (hword : IsWord word)
    (hcut : line.head?.all isBlank = true) (hline : Spaced words line) : Spaced (word :: words) (gap ++ word ++ line)

namespace Spaced

variable {words : List (List Char)} {line : List Char}

/-- The words of a line are its fields. -/
theorem fields_eq (h : Spaced words line) : fields line = words := by
  induction h with
  | nil hgap => exact fields_blanks fun c hc => (hgap c hc).1
  | cons hgap hword hcut _ ih => rw [List.append_assoc, fields_gap_append hgap, fields_word_cut hword hcut, ih]

theorem newline_not_mem (h : Spaced words line) : '\n' ∉ line := by
  induction h with
  | nil hgap => exact fun hmem => (hgap _ hmem).2 rfl
  | cons hgap hword _ _ ih =>
    intro hmem
    rcases List.mem_append.mp hmem with hmem | hmem
    · rcases List.mem_append.mp hmem with hmem | hmem
      · exact (hgap _ hmem).2 rfl
      · cases hword.2 _ hmem
    · exact ih hmem

theorem blank {b : Char} (hb : IsGap [b]) (h : Spaced words line) : Spaced words (b :: line) := by
  have hgap : ∀ {gap : List Char}, IsGap gap → IsGap (b :: gap) := by
    intro gap hgap c hc
    rcases List.mem_cons.mp hc with rfl | hc
    · exact hb c (by simp)
    · exact hgap c hc
  cases h with
  | nil h => exact .nil (hgap h)
  | cons h hword hcut hline => exact .cons (hgap h) hword hcut hline

/-- Words with one space between them. -/
theorem intercalate (h : ∀ word ∈ words, IsWord word) : Spaced words ([' '].intercalate words) := by
  have hempty : IsGap [] := by decide
  have hspace : IsGap [' '] := by decide
  induction words with
  | nil => exact .nil hempty
  | cons word words ih =>
    have hword := h word (by simp)
    have hwords := ih fun word hw => h word (by simp [hw])
    cases words with
    | nil => simpa using Spaced.cons hempty hword rfl (.nil hempty)
    | cons next words =>
      rw [List.intercalate_cons_cons, List.append_assoc]
      exact .cons hempty hword rfl (hwords.blank hspace)

end Spaced

theorem toNat_of_isAlpha {c : Char} (h : c.isAlpha = true) : 65 ≤ c.toNat ∧ c.toNat ≤ 122 := by
  simp only [Char.isAlpha, Char.isUpper, Char.isLower, Bool.or_eq_true, Bool.and_eq_true, decide_eq_true_eq] at h
  simp only [UInt32.le_iff_toNat_le, ge_iff_le] at h
  change (65 ≤ c.toNat ∧ c.toNat ≤ 90) ∨ 97 ≤ c.toNat ∧ c.toNat ≤ 122 at h
  omega

theorem toNat_of_isDigit {c : Char} (h : c.isDigit = true) : 48 ≤ c.toNat ∧ c.toNat ≤ 57 := by
  simp only [Char.isDigit, Bool.and_eq_true, decide_eq_true_eq] at h
  simp only [UInt32.le_iff_toNat_le, ge_iff_le] at h
  exact h

theorem isBlank_of_isAlpha {c : Char} (h : c.isAlpha = true) : isBlank c = false := by
  have hrange := toNat_of_isAlpha h
  exact isBlank_eq_false (by omega) (by omega)

theorem isBlank_of_isDigit {c : Char} (h : c.isDigit = true) : isBlank c = false := by
  have hrange := toNat_of_isDigit h
  exact isBlank_eq_false (by omega) (by omega)

end Text

/-! ### The line of an instruction -/

theorem Literal.text_of_not_isFinite {x : Float} (h : isFinite x = false) : text x ∈ ["nan", "inf", "-inf"] := by
  unfold isFinite at h
  cases hx : Double.ofFloat x with
  | nan => simp [text, hx]
  | infinite negative => cases negative <;> simp [text, hx]
  | finite negative mantissa scale => simp [hx] at h

theorem Literal.isWord_text (x : Float) : Text.IsWord (text x).toList := by
  cases h : isFinite x with
  | false =>
    have hwords : ∀ word ∈ ["nan", "inf", "-inf"], Text.IsWord word.toList := by decide
    exact hwords _ (text_of_not_isFinite h)
  | true =>
    obtain ⟨negative, whole, fraction, hwhole, hfraction, htext, -⟩ := exists_text h
    obtain ⟨hne, hdigits⟩ := isDigitRow_iff.mp hwhole
    rw [htext]
    constructor
    · simp only [ne_eq, List.append_eq_nil_iff, not_and]
      intro _
      split <;> simp [hne]
    · intro c hc
      have hcases : c = '-' ∨ c ∈ whole ∨ c = '.' ∨ c ∈ fraction := by
        rcases List.mem_append.mp hc with hc | hc
        · split at hc
          · exact .inl (List.mem_singleton.mp hc)
          · cases hc
        · split at hc
          · exact .inr (.inl hc)
          · rw [List.mem_append, List.mem_cons] at hc
            exact .inr hc
      rcases hcases with rfl | hc | rfl | hc
      · decide
      · exact Text.isBlank_of_isDigit (hdigits c hc)
      · decide
      · exact Text.isBlank_of_isDigit (hfraction c hc)

/-- Infinities and no number are written as words, which are no literals. -/
theorem Literal.read?_of_not_isFinite {x : Float} (h : isFinite x = false) : read? (text x).toList = none := by
  have hwords : ∀ word ∈ ["nan", "inf", "-inf"], read? word.toList = none := by decide
  exact hwords _ (text_of_not_isFinite h)

theorem isWord_toDigits (n : Nat) : Text.IsWord (Nat.toDigits 10 n) :=
  ⟨Nat.toDigits_ne_nil, fun c hc => Text.isBlank_of_isDigit (isDigit_toDigits c hc)⟩

/-- A name that can be written: letters, at least one. -/
def IsName (name : String) : Prop :=
  name.toList ≠ [] ∧ ∀ c ∈ name.toList, c.isAlpha = true

instance (name : String) : Decidable (IsName name) :=
  decidable_of_iff (name.toList ≠ [] ∧ name.toList.all Char.isAlpha = true) (by simp [IsName])

theorem IsName.isWord {name : String} (h : IsName name) : Text.IsWord name.toList :=
  ⟨h.1, fun c hc => Text.isBlank_of_isAlpha (h.2 c hc)⟩

theorem IsName.readName? {name : String} (h : IsName name) : Instr.readName? name.toList = some name := by
  have hletters : name.toList.all Char.isAlpha = true := List.all_eq_true.mpr h.2
  have hne : name.toList.isEmpty = false := List.isEmpty_eq_false_iff.mpr h.1
  simp only [Instr.readName?, hne, hletters, Bool.not_false, Bool.and_self, if_true, String.ofList_toList]

namespace Instr

/-- An instruction with letters for a name and two operands at least. -/
def IsWellFormed : Instr Float → Prop
  | declare name | fetch name => IsName name
  | apply o => 1 ≤ o.extra
  | push _ | nop => True

/-- An instruction whose number of operands, if it is an operation, has not too many digits. -/
def IsBounded {α : Type} : Instr α → Prop
  | apply o => o.arity < 10 ^ Number.mostDigits
  | _ => True

/-- An instruction whose text, if it has one, can be read. -/
def IsWritable : Instr Float → Prop
  | declare name | fetch name => IsName name
  | push value => Literal.isFinite value = true
  | apply o => 1 ≤ o.extra
  | nop => True

/-- The instruction that the text of an instruction reads as. -/
def reread : Instr Float → Instr Float
  | push value => push (Literal.reread value)
  | i => i

/-- The words of the text of an instruction. -/
def words : Instr Float → List (List Char)
  | declare name => ["sym".toList, name.toList]
  | fetch name => ["pushsym".toList, name.toList]
  | push value => ["push".toList, (Literal.text value).toList]
  | apply o =>
    if o.operator.isVariadic then [o.operator.keyword.toList, Nat.toDigits 10 o.arity] else [o.operator.keyword.toList]
  | nop => ["nop".toList]

theorem IsWritable.isWellFormed {i : Instr Float} (h : i.IsWritable) : i.IsWellFormed := by
  cases i with
  | push value => trivial
  | _ => exact h

theorem isVariadic_of_not_isBounded {o : Operation} (h : ¬IsBounded (α := Float) (.apply o)) :
    o.operator.isVariadic = true := by
  refine o.fits.resolve_right fun hextra => h ?_
  rw [IsBounded, Operation.arity, hextra]
  exact Number.two_lt_pow_mostDigits

theorem exists_text {i : Instr Float} (h : i.IsBounded) :
    ∃ text, i.text = .ok text ∧ text.toList = [' '].intercalate i.words := by
  cases i with
  | apply o =>
    have hwrite : Number.write o.arity = .ok (String.ofList (Nat.toDigits 10 o.arity)) := by
      rw [Number.write_natCast]
      exact if_pos h
    rw [text, Operation.text, words, hwrite]
    split <;> exact ⟨_, rfl, by simp [List.intercalate]⟩
  | _ => exact ⟨_, rfl, by simp [words, List.intercalate]⟩

theorem text_of_not_isBounded {i : Instr Float} (h : ¬i.IsBounded) : i.text = .error .writing := by
  cases i with
  | apply o =>
    have hwrite : Number.write o.arity = .error .writing := by
      rw [Number.write_natCast]
      exact if_neg h
    rw [text, Operation.text, if_pos (isVariadic_of_not_isBounded h), hwrite]
    rfl
  | _ => exact absurd trivial h

theorem text_eq_ok_iff {i : Instr Float} {text : String} :
    i.text = .ok text ↔ i.IsBounded ∧ text.toList = [' '].intercalate i.words := by
  by_cases h : i.IsBounded
  · obtain ⟨own, hown, hwords⟩ := exists_text h
    rw [hown, ← hwords]
    simp [h, String.toList_inj, eq_comm]
  · simp [text_of_not_isBounded h, h]

theorem isWord_keyword (op : Operator) : Text.IsWord op.keyword.toList := by
  cases op <;> decide

theorem IsWellFormed.isWord {i : Instr Float} (h : i.IsWellFormed) : ∀ word ∈ i.words, Text.IsWord word := by
  have single : ∀ {word keyword : List Char}, Text.IsWord keyword → word ∈ [keyword] → Text.IsWord word := by
    rintro word keyword hkeyword hword
    rwa [List.mem_singleton.mp hword]
  have pair : ∀ {word keyword argument : List Char}, Text.IsWord keyword → Text.IsWord argument →
      word ∈ [keyword, argument] → Text.IsWord word := by
    rintro word keyword argument hkeyword hargument hword
    rcases List.mem_cons.mp hword with rfl | hword
    · exact hkeyword
    · exact single hargument hword
  intro word hword
  cases i with
  | declare name | fetch name => exact pair (by decide) (IsName.isWord h) hword
  | push value => exact pair (by decide) (Literal.isWord_text value) hword
  | apply o =>
    rw [words] at hword
    split at hword
    · exact pair (isWord_keyword _) (isWord_toDigits _) hword
    · exact single (isWord_keyword _) hword
  | nop => exact single (by decide) hword

theorem readExtra_toDigits {o : Operation} (h : 1 ≤ o.extra) (hbounded : o.arity < 10 ^ Number.mostDigits) :
    readExtra (Nat.toDigits 10 o.arity) = .ok (some o.extra) := by
  obtain ⟨n, hn⟩ : ∃ n, o.extra = n + 1 := ⟨o.extra - 1, by omega⟩
  have harity : o.arity = n + 2 := by rw [Operation.arity, hn]
  rw [readExtra, if_pos (isDigitRow_toDigits _), Number.readRow_toDigits hbounded, harity, hn]
  rfl

theorem ofFields_keyword (op : Operator) (arguments : List (List Char)) :
    ofFields (op.keyword.toList :: arguments) = (readOperation op.keyword arguments).map (Option.map apply) := by
  cases op <;> simp [ofFields, Operator.keyword]

theorem ofFields_operation {o : Operation} (h : 1 ≤ o.extra) (hbounded : o.arity < 10 ^ Number.mostDigits) :
    ofFields (words (.apply o)) = .ok (some (.apply o)) := by
  rw [words]
  by_cases hv : o.operator.isVariadic = true
  · have hbinary : (Operation.binary o.operator).withExtra o.extra = o := by
      obtain ⟨op, extra, fits⟩ := o
      have hv : op.isVariadic = true := hv
      simp [Operation.withExtra, Operation.binary, hv]
    rw [if_pos hv, ofFields_keyword]
    simp [readOperation, hv, readExtra_toDigits h hbounded, hbinary, Except.map]
  · have hbinary : Operation.binary o.operator = o := by
      obtain ⟨op, extra, fits⟩ := o
      obtain rfl := fits.resolve_left hv
      rfl
    rw [if_neg hv, ofFields_keyword]
    simp [readOperation, hv, hbinary, Except.map]

theorem ofFields_words {i : Instr Float} (h : i.IsWritable) (hbounded : i.IsBounded) :
    ofFields i.words = .ok (some i.reread) := by
  cases i with
  | declare name | fetch name => simp [words, ofFields, reread, IsName.readName? h]
  | push value => simp [words, ofFields, reread, Literal.read?_text h]
  | apply o => exact ofFields_operation h hbounded
  | nop => simp [words, ofFields, reread]

theorem eq_keyword_of_ofKeyword? {word : String} {op : Operator} (h : Operator.ofKeyword? word = some op) :
    word = op.keyword := by
  unfold Operator.ofKeyword? at h
  split at h
  case h_9 => cases h
  all_goals
    cases h
    rfl

theorem readExtra_eq_error_iff {field : List Char} {e : DigitError} :
    readExtra field = .error e ↔
      Literal.isDigitRow field = true ∧ Number.mostDigits < field.length ∧ e = .reading field.length := by
  rw [readExtra]
  split
  next h =>
    rw [← Number.readRow_eq_error_iff]
    cases Number.readRow field <;> simp [Except.map, h]
  next h => simp [h]

theorem readOperation_eq_error {keyword : String} {arguments : List (List Char)} {e : DigitError}
    (h : readOperation keyword arguments = .error e) :
    ∃ op row, Operator.isVariadic op = true ∧ keyword = op.keyword ∧ arguments = [row] ∧ readExtra row = .error e := by
  unfold readOperation at h
  split at h
  next => cases h
  next op hop =>
    split at h
    next => cases h
    next row =>
      split at h
      next hv =>
        cases hextra : readExtra row with
        | error e' =>
          rw [hextra] at h
          cases h
          exact ⟨op, row, hv, eq_keyword_of_ofKeyword? hop, rfl, hextra⟩
        | ok extra =>
          rw [hextra] at h
          cases h
      next => cases h
    next => cases h

/-- A line cannot be read at all only if it is a variadic operator with too many digits. -/
theorem ofFields_eq_error_iff {fields : List (List Char)} {e : DigitError} :
    ofFields fields = .error e ↔
      ∃ op row, Operator.isVariadic op = true ∧ fields = [op.keyword.toList, row] ∧ Literal.isDigitRow row = true ∧
        Number.mostDigits < row.length ∧ e = .reading row.length := by
  constructor
  · intro h
    unfold ofFields at h
    split at h
    · cases h
    next keyword _ =>
      split at h
      case h_5 arguments _ _ _ _ _ _ =>
        cases hoperation : readOperation (String.ofList keyword) arguments with
        | error e' =>
          rw [hoperation] at h
          cases h
          obtain ⟨op, row, hv, hkeyword, rfl, hextra⟩ := readOperation_eq_error hoperation
          obtain ⟨hrow, hlong, rfl⟩ := readExtra_eq_error_iff.mp hextra
          exact ⟨op, row, hv, by rw [← hkeyword, String.toList_ofList], hrow, hlong, rfl⟩
        | ok operation =>
          rw [hoperation] at h
          cases h
      all_goals cases h
  · rintro ⟨op, row, hv, rfl, hrow, hlong, rfl⟩
    have hextra := readExtra_eq_error_iff.mpr ⟨hrow, hlong, rfl⟩
    rw [ofFields_keyword]
    simp [readOperation, hv, hextra, Except.map]

theorem words_ne_nil (i : Instr Float) : i.words ≠ [] := by
  unfold words
  split
  case h_4 => split <;> simp
  all_goals simp

theorem IsWellFormed.spaced {i : Instr Float} (h : i.IsWellFormed) {text : String} (htext : i.text = .ok text) :
    Text.Spaced i.words text.toList := by
  rw [(text_eq_ok_iff.mp htext).2]
  exact .intercalate h.isWord

/-- A line of an instruction: the words of its text, with any blanks around and between them. -/
def IsLine (i : Instr Float) (line : List Char) : Prop :=
  ∃ text words, i.text = .ok text ∧ Text.Spaced words text.toList ∧ Text.Spaced words line

theorem IsWellFormed.isLine {i : Instr Float} (h : i.IsWellFormed) {text : String} (htext : i.text = .ok text) :
    i.IsLine text.toList :=
  ⟨text, i.words, htext, h.spaced htext, h.spaced htext⟩

theorem IsLine.isBounded {i : Instr Float} {line : List Char} (h : i.IsLine line) : i.IsBounded := by
  obtain ⟨text, words, htext, -⟩ := h
  exact (text_eq_ok_iff.mp htext).1

theorem IsLine.spaced {i : Instr Float} {line : List Char} (h : i.IsLine line) (hi : i.IsWellFormed) :
    Text.Spaced i.words line := by
  obtain ⟨text, words, htext, hwords, hline⟩ := h
  obtain rfl : words = i.words := hwords.fields_eq.symm.trans (hi.spaced htext).fields_eq
  exact hline

end Instr

/-! ### Loading the lines -/

namespace Loaded

theorem loadFrom_line {line : List Char} (h : '\n' ∉ line) (number : Nat) (latest : List Char) (read : Nat)
    (rest : List Char) :
    loadFrom number latest read (line ++ '\n' :: rest) =
      entry number (latest.reverse ++ line) (read + line.length + 1)
        (loadFrom (number + 1) [] (read + line.length + 1) rest) := by
  induction line generalizing latest read with
  | nil => simp [loadFrom]
  | cons c line ih =>
    obtain ⟨hc, hline⟩ := List.ne_and_not_mem_of_not_mem_cons h
    rw [List.cons_append, loadFrom, if_neg (Ne.symm hc), ih hline]
    simp [Nat.add_comm, Nat.add_left_comm]

/-- A line that is not ended by a line feed, at the end of the text. -/
theorem loadFrom_last {line : List Char} (h : '\n' ∉ line) (number : Nat) (latest : List Char) (read : Nat) :
    loadFrom number latest read line =
      if (latest.reverse ++ line).isEmpty then .done (read + line.length)
      else entry number (latest.reverse ++ line) (read + line.length) (.done (read + line.length)) := by
  induction line generalizing latest read with
  | nil => simp [loadFrom]
  | cons c line ih =>
    obtain ⟨hc, hline⟩ := List.ne_and_not_mem_of_not_mem_cons h
    rw [loadFrom, if_neg (Ne.symm hc), ih hline]
    simp [Nat.add_comm, Nat.add_left_comm]

theorem entry_gap {gap : List Char} (h : Text.IsGap gap) (number read : Nat) (rest : Loaded Float) :
    entry number gap read rest = rest := by
  rw [entry, if_pos (List.all_eq_true.mpr fun c hc => (h c hc).1)]

theorem loadFrom_gap {gap : List Char} (h : Text.IsGap gap) (number read : Nat) :
    loadFrom number [] read gap = .done (read + gap.length) := by
  rw [loadFrom_last (Text.Spaced.nil h).newline_not_mem]
  split
  · rfl
  · exact entry_gap h _ _ _

/-- The words of a line tell the instruction that it is, if it is one. -/
theorem entry_spaced {words : List (List Char)} {line : List Char} (h : Text.Spaced words line) (hne : words ≠ [])
    (number read : Nat) (rest : Loaded Float) :
    entry number line read rest =
      match Instr.ofFields words with
      | .ok (some i) => .cons i read rest
      | .ok none => .fault (.malformed (String.ofList line) number) read
      | .error error => .fault (.digits error) read := by
  -- A line of blanks has no fields.
  have hblank : ¬line.all Text.isBlank = true := by
    intro hall
    have hfields := Text.fields_blanks (List.all_eq_true.mp hall)
    rw [h.fields_eq] at hfields
    exact hne hfields
  have hparse : Instr.parse line = Instr.ofFields words := by rw [Instr.parse, h.fields_eq]
  rcases hfields : Instr.ofFields words with error | (_ | i) <;>
    simp only [entry, if_neg hblank, hparse, hfields]

/-- Instructions, each with the characters read up to the end of its line, before a stream. -/
def prepend {α : Type} (entries : List (Instr α × Nat)) (rest : Loaded α) : Loaded α :=
  entries.foldr (fun entry stream => .cons entry.1 entry.2 stream) rest

theorem instrs_prepend {α : Type} (entries : List (Instr α × Nat)) (rest : Loaded α) :
    (prepend entries rest).instrs = entries.map Prod.fst ++ rest.instrs := by
  induction entries with
  | nil => rfl
  | cons entry entries ih => simpa [prepend, instrs] using ih

theorem toProgram_prepend {α : Type} (entries : List (Instr α × Nat)) (rest : Loaded α) :
    (prepend entries rest).toProgram = rest.toProgram.map (entries.map Prod.fst ++ ·) := by
  induction entries with
  | nil => cases h : rest.toProgram <;> simp [prepend, Except.map, h]
  | cons entry entries ih =>
    rw [prepend] at ih
    rw [prepend, List.foldr_cons, toProgram, ih]
    cases rest.toProgram <;> rfl

end Loaded

namespace Program

def literals {α : Type} (p : Program α) : List α :=
  p.filterMap fun
    | .push value => some value
    | _ => none

theorem mem_literals {α : Type} {p : Program α} {x : α} : x ∈ p.literals ↔ .push x ∈ p := by
  rw [literals, List.mem_filterMap]
  constructor
  · rintro ⟨i, hi, hx⟩
    cases i with
    | push y =>
      obtain rfl := Option.some.inj hx
      exact hi
    | _ => cases hx
  · intro h
    exact ⟨.push x, h, rfl⟩

def IsWritable (p : Program Float) : Prop :=
  ∀ i ∈ p, i.IsWritable

def reread (p : Program Float) : Program Float :=
  p.map Instr.reread

theorem text_cons (i : Instr Float) (p : Program Float) :
    text (i :: p) = i.text.bind fun first => (text p).map (first ++ "\n" ++ ·) := by
  rw [text, List.mapM_cons, text]
  cases i.text with
  | error e => rfl
  | ok first =>
    cases List.mapM (fun i : Instr Float => i.text.map (· ++ "\n")) p <;>
      simp [Except.map, Except.bind, bind, pure, Except.pure]

/-- The text of a program is the text of its first instruction, a line feed, and the text of the rest. -/
theorem text_cons_eq_ok {i : Instr Float} {p : Program Float} {text : String} (h : Program.text (i :: p) = .ok text) :
    ∃ first rest, i.text = .ok first ∧ Program.text p = .ok rest ∧
      text.toList = first.toList ++ '\n' :: rest.toList := by
  rw [text_cons] at h
  cases hfirst : i.text with
  | error e =>
    rw [hfirst] at h
    cases h
  | ok first =>
    cases hrest : Program.text p with
    | error e =>
      rw [hfirst, hrest] at h
      cases h
    | ok rest =>
      rw [hfirst, hrest] at h
      cases h
      exact ⟨first, rest, rfl, rfl, by simp⟩

theorem exists_text {p : Program Float} (h : ∀ i ∈ p, i.IsBounded) : ∃ text, p.text = .ok text := by
  induction p with
  | nil => exact ⟨"", rfl⟩
  | cons i p ih =>
    obtain ⟨first, hfirst, -⟩ := Instr.exists_text (h i (by simp))
    obtain ⟨rest, hrest⟩ := ih fun i hi => h i (by simp [hi])
    exact ⟨first ++ "\n" ++ rest, by rw [text_cons, hfirst, hrest]; rfl⟩

/-- No number of operands has too many digits. -/
theorem forall_isBounded_iff {p : Program Float} :
    (∀ i ∈ p, i.IsBounded) ↔ ∀ o, .apply o ∈ p → o.arity < 10 ^ Number.mostDigits := by
  constructor
  · exact fun h o ho => h _ ho
  · intro h i hi
    cases i with
    | apply o => exact h o hi
    | _ => trivial

/-- A program has no text if a number of operands has too many digits. -/
theorem text_of_not_isBounded {p : Program Float} (h : ∃ i ∈ p, ¬i.IsBounded) : p.text = .error .writing := by
  induction p with
  | nil =>
    obtain ⟨i, hi, -⟩ := h
    cases hi
  | cons i p ih =>
    rw [text_cons]
    by_cases hi : i.IsBounded
    · obtain ⟨first, hfirst, -⟩ := Instr.exists_text hi
      obtain ⟨j, hj, hbounded⟩ := h
      have hrest := ih ⟨j, (List.mem_cons.mp hj).resolve_left fun heq => hbounded (heq ▸ hi), hbounded⟩
      rw [hfirst, hrest]
      rfl
    · rw [Instr.text_of_not_isBounded hi]
      rfl

/-- A text of a program: lines of its instructions in order, and blank lines anywhere. -/
inductive Spread : Program Float → List Char → Prop
  | nil : Spread [] []
  | blank {p : Program Float} {gap text : List Char} (hgap : Text.IsGap gap) (h : Spread p text) :
    Spread p (gap ++ '\n' :: text)
  | cons {i : Instr Float} {p : Program Float} {line text : List Char} (hline : i.IsLine line) (h : Spread p text) :
    Spread (i :: p) (line ++ '\n' :: text)

theorem spread_text {p : Program Float} (h : ∀ i ∈ p, i.IsWellFormed) {text : String} (htext : p.text = .ok text) :
    Spread p text.toList := by
  induction p generalizing text with
  | nil =>
    obtain rfl : "" = text := Except.ok.inj htext
    exact .nil
  | cons i p ih =>
    obtain ⟨first, rest, hfirst, hrest, hcons⟩ := text_cons_eq_ok htext
    rw [hcons]
    exact .cons ((h i (by simp)).isLine hfirst) (ih (fun i hi => h i (by simp [hi])) hrest)

/-- A text of a program that can be written loads as the program with its literals rounded, and the rest of the text
    after it. -/
theorem Spread.loadFrom {p : Program Float} {text : List Char} (h : p.Spread text) (hp : p.IsWritable)
    (number read : Nat) (rest : List Char) :
    ∃ entries : List (Instr Float × Nat), entries.map Prod.fst = p.reread ∧
      Loaded.loadFrom number [] read (text ++ rest) =
        .prepend entries (Loaded.loadFrom (number + text.count '\n') [] (read + text.length) rest) := by
  induction h generalizing number read with
  | nil => exact ⟨[], rfl, rfl⟩
  | @blank p gap text hgap _ ih =>
    have hline := (Text.Spaced.nil hgap).newline_not_mem
    obtain ⟨entries, hentries, heq⟩ := ih hp (number + 1) (read + gap.length + 1)
    refine ⟨entries, hentries, ?_⟩
    rw [List.append_assoc, List.cons_append, Loaded.loadFrom_line hline, List.reverse_nil, List.nil_append,
      Loaded.entry_gap hgap, heq]
    simp [List.count_eq_zero_of_not_mem hline, Nat.add_assoc, Nat.add_comm, Nat.add_left_comm]
  | @cons i p line text hi' _ ih =>
    have hi := hp i (by simp)
    have hspaced := hi'.spaced hi.isWellFormed
    have hline := hspaced.newline_not_mem
    obtain ⟨entries, hentries, heq⟩ := ih (fun i hi => hp i (by simp [hi])) (number + 1) (read + line.length + 1)
    refine ⟨(i.reread, read + line.length + 1) :: entries, by simp [reread, hentries], ?_⟩
    rw [List.append_assoc, List.cons_append, Loaded.loadFrom_line hline, List.reverse_nil, List.nil_append,
      Loaded.entry_spaced hspaced i.words_ne_nil, Instr.ofFields_words hi hi'.isBounded, heq]
    simp [Loaded.prepend, List.count_eq_zero_of_not_mem hline, Nat.add_assoc, Nat.add_comm, Nat.add_left_comm]

theorem toProgram_load_text {p : Program Float} (h : p.IsWritable) {text : String} (htext : p.text = .ok text) :
    (Loaded.load text.toList).toProgram = .ok p.reread := by
  have hspread := spread_text (fun i hi => (h i hi).isWellFormed) htext
  obtain ⟨entries, hentries, heq⟩ := hspread.loadFrom h 1 0 []
  rw [List.append_nil] at heq
  rw [Loaded.load, heq, Loaded.toProgram_prepend, hentries]
  simp [Loaded.loadFrom, Loaded.toProgram, Except.map]

end Program

/-! ### Running what is loaded -/

namespace Loaded

variable {α : Type} (arithmetic : Arithmetic α) (resolve : Resolver α)

theorem toProgram_cons {i : Instr α} {read : Nat} {rest : Loaded α} {p : Program α}
    (h : (cons i read rest).toProgram = .ok p) : ∃ q, rest.toProgram = .ok q ∧ p = i :: q := by
  rw [toProgram] at h
  cases hrest : rest.toProgram with
  | error error =>
    rw [hrest] at h
    cases h
  | ok q =>
    rw [hrest] at h
    exact ⟨q, rfl, (Except.ok.inj h).symm⟩

/-- Running a stream that has no fault is running its program. -/
theorem runFrom_of_toProgram {l : Loaded α} {p : Program α} (h : l.toProgram = .ok p) (m : Machine α) :
    (l.runFrom arithmetic resolve m).1 =
      ⟨(m.run arithmetic resolve p).asked, (m.run arithmetic resolve p).result.mapError .run⟩ := by
  induction l generalizing p m with
  | cons i read rest ih =>
    obtain ⟨q, hq, rfl⟩ := toProgram_cons h
    rw [runFrom, Machine.run]
    cases m.step arithmetic resolve i with
    | error error => rfl
    | ok next => simp only [ih hq]
  | fault error read => cases h
  | done read =>
    obtain rfl := Except.ok.inj h
    rfl

end Loaded

end StackCalc
