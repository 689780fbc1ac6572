import StackCalc.Proofs.Figures
import StackCalc.Proofs.ProgramText
import StackCalc.Token.Scan

/-!
How the scan reads the pieces of a source. Blanks are passed over, and line feeds among them count. A value is a sign, a
row of letters or a number; it tells its lexeme if what comes after it cannot belong to it, and the scan goes on there
as if no token had been under way. The end of a row of letters or of a number is known only with the character after it.
A character that begins no value is a fault, and so is a numeral with two points or with nothing after its point.
-/

namespace StackCalc

namespace Scan

/-! ### Characters -/

theorem isAlpha_of_isDigit {c : Char} (h : c.isDigit = true) : c.isAlpha = false := by
  rw [Bool.eq_false_iff]
  intro hletter
  have hdigit := Text.toNat_of_isDigit h
  have hletter := Text.toNat_of_isAlpha hletter
  omega

theorem start_of_isAlphanum {c : Char} (h : c.isAlphanum = true) : isBlank c = false ∧ single? c = none := by
  constructor
  · rw [Bool.eq_false_iff]
    intro hblank
    simp only [isBlank, Bool.or_eq_true, beq_iff_eq] at hblank
    rcases hblank with (((rfl | rfl) | rfl) | rfl) | rfl <;> cases h
  · unfold single?
    split
    case h_9 => rfl
    all_goals cases h

theorem start_of_isAlpha {c : Char} (h : c.isAlpha = true) : isBlank c = false ∧ single? c = none :=
  start_of_isAlphanum (by simp [Char.isAlphanum, h])

theorem start_of_isDigit {c : Char} (h : c.isDigit = true) : isBlank c = false ∧ single? c = none :=
  start_of_isAlphanum (by simp [Char.isAlphanum, h])

theorem ne_of_isBlank {c : Char} (h : isBlank c = true) : c.isAlpha = false ∧ c.isDigit = false ∧ c ≠ '.' := by
  refine ⟨?_, ?_, ?_⟩
  · rw [Bool.eq_false_iff]
    intro hc
    rw [(start_of_isAlpha hc).1] at h
    cases h
  · rw [Bool.eq_false_iff]
    intro hc
    rw [(start_of_isDigit hc).1] at h
    cases h
  · rintro rfl
    cases h

/-! ### Values -/

/-- The characters that are tokens by themselves. -/
def signs : List Char :=
  ['+', '-', '*', '/', '%', '^', '(', ')']

def IsLetterRow (value : List Char) : Prop :=
  value ≠ [] ∧ ∀ c ∈ value, c.isAlpha = true

def IsNumber (value : List Char) : Prop :=
  ∃ whole fraction, IsNumeral whole fraction value

/-- The lexeme that a value stands for. -/
inductive Denotes : List Char → Lexeme → Prop
  | operator (op : Operator) : Denotes op.sign.toList (.operator op)
  | opening : Denotes ['('] .opening
  | closing : Denotes [')'] .closing
  | symbol {value : List Char} (h : IsLetterRow value) (hmin : value ≠ "min".toList) (hmax : value ≠ "max".toList) :
    Denotes value (.symbol (String.ofList value))
  | number (n : Numeral) : Denotes n.text.toList (.number n)

theorem isLetterRow_min : IsLetterRow "min".toList := by
  simp [IsLetterRow]

theorem isLetterRow_max : IsLetterRow "max".toList := by
  simp [IsLetterRow]

theorem Denotes.text_eq {value : List Char} {a : Lexeme} (h : Denotes value a) : a.text.toList = value := by
  cases h with
  | symbol => exact String.toList_ofList
  | _ => rfl

theorem exists_denotes_sign {c : Char} (h : c ∈ signs) : ∃ a, Denotes [c] a := by
  simp only [signs, List.mem_cons, List.not_mem_nil, or_false] at h
  rcases h with rfl | rfl | rfl | rfl | rfl | rfl | rfl | rfl
  · exact ⟨_, .operator .add⟩
  · exact ⟨_, .operator .sub⟩
  · exact ⟨_, .operator .mul⟩
  · exact ⟨_, .operator .div⟩
  · exact ⟨_, .operator .mod⟩
  · exact ⟨_, .operator .pow⟩
  · exact ⟨_, .opening⟩
  · exact ⟨_, .closing⟩

theorem IsLetterRow.exists_denotes {value : List Char} (h : IsLetterRow value) : ∃ a, Denotes value a := by
  by_cases hmin : value = "min".toList
  · subst hmin
    exact ⟨_, .operator .min⟩
  · by_cases hmax : value = "max".toList
    · subst hmax
      exact ⟨_, .operator .max⟩
    · exact ⟨_, .symbol h hmin hmax⟩

theorem isNumber_text (n : Numeral) : IsNumber n.text.toList :=
  ⟨_, _, n.isNumeral⟩

theorem IsNumber.exists_denotes {value : List Char} (h : IsNumber value) : ∃ a, Denotes value a := by
  obtain ⟨whole, fraction, hnumeral⟩ := h
  obtain ⟨n, -, -, rfl⟩ := hnumeral.exists_numeral
  exact ⟨_, .number n⟩

/-- The values are the signs, the rows of letters and the numbers. -/
theorem exists_denotes_iff {value : List Char} :
    (∃ a, Denotes value a) ↔ (∃ c ∈ signs, value = [c]) ∨ IsLetterRow value ∨ IsNumber value := by
  constructor
  · rintro ⟨a, h⟩
    cases h with
    | operator op =>
      cases op with
      | add => exact .inl ⟨'+', by simp [signs], rfl⟩
      | sub => exact .inl ⟨'-', by simp [signs], rfl⟩
      | mul => exact .inl ⟨'*', by simp [signs], rfl⟩
      | div => exact .inl ⟨'/', by simp [signs], rfl⟩
      | mod => exact .inl ⟨'%', by simp [signs], rfl⟩
      | pow => exact .inl ⟨'^', by simp [signs], rfl⟩
      | min => exact .inr (.inl isLetterRow_min)
      | max => exact .inr (.inl isLetterRow_max)
    | opening => exact .inl ⟨'(', by simp [signs], rfl⟩
    | closing => exact .inl ⟨')', by simp [signs], rfl⟩
    | symbol h => exact .inr (.inl h)
    | number n => exact .inr (.inr ⟨_, _, n.isNumeral⟩)
  · rintro (⟨c, hc, rfl⟩ | h | h)
    · exact exists_denotes_sign hc
    · exact h.exists_denotes
    · exact h.exists_denotes

theorem IsNumber.exists_cons {value : List Char} (h : IsNumber value) :
    ∃ c more, value = c :: more ∧ c.isDigit = true := by
  obtain ⟨whole, fraction, hnumeral⟩ := h
  exact hnumeral.exists_cons

theorem of_mem_signs {c : Char} (h : c ∈ signs) :
    isBlank c = false ∧ c ≠ '.' ∧ c.isAlpha = false ∧ c.isDigit = false := by
  have hsigns : ∀ c ∈ signs, isBlank c = false ∧ c ≠ '.' ∧ c.isAlpha = false ∧ c.isDigit = false := by
    simp [signs, isBlank]
  exact hsigns c h

theorem IsLetterRow.not_isNumber {value : List Char} (h : IsLetterRow value) : ¬IsNumber value := by
  intro hnumber
  obtain ⟨c, more, rfl, hc⟩ := hnumber.exists_cons
  have hletter := h.2 c (by simp)
  rw [isAlpha_of_isDigit hc] at hletter
  cases hletter

/-- The first character of a value tells its class. -/
theorem Denotes.exists_cons {value : List Char} {a : Lexeme} (h : Denotes value a) :
    ∃ c more, value = c :: more ∧ isBlank c = false ∧ c ≠ '.' ∧ (c.isAlpha = true → IsLetterRow value) ∧
      (c.isDigit = true → IsNumber value) := by
  rcases exists_denotes_iff.mp ⟨a, h⟩ with ⟨c, hc, rfl⟩ | hrow | hnumber
  · obtain ⟨hblank, hpoint, hletter, hdigit⟩ := of_mem_signs hc
    exact ⟨c, [], rfl, hblank, hpoint, by simp [hletter], by simp [hdigit]⟩
  · obtain ⟨c, more, rfl⟩ := List.exists_cons_of_ne_nil hrow.1
    have hc := hrow.2 c (by simp)
    refine ⟨c, more, rfl, (start_of_isAlpha hc).1, ?_, fun _ => hrow, fun hdigit => ?_⟩
    · rintro rfl
      cases hc
    · rw [isAlpha_of_isDigit hdigit] at hc
      cases hc
  · obtain ⟨c, more, rfl, hc⟩ := hnumber.exists_cons
    refine ⟨c, more, rfl, (start_of_isDigit hc).1, ?_, fun hletter => ?_, fun _ => hnumber⟩
    · rintro rfl
      cases hc
    · rw [isAlpha_of_isDigit hc] at hletter
      cases hletter

/-- What comes after a value cannot belong to it. -/
def Ends (value rest : List Char) : Prop :=
  (IsLetterRow value → ∀ c ∈ rest.head?, c.isAlpha = false) ∧
    (IsNumber value → ∀ c ∈ rest.head?, c.isDigit = false ∧ c ≠ '.')

theorem Ends.of_blank {c : Char} (hc : isBlank c = true) (value rest : List Char) : Ends value (c :: rest) := by
  obtain ⟨hletter, hdigit, hpoint⟩ := ne_of_isBlank hc
  constructor
  · rintro - _ ⟨⟩
    exact hletter
  · rintro - _ ⟨⟩
    exact ⟨hdigit, hpoint⟩

theorem Ends.of_sign {c : Char} (hc : c ∈ signs) (rest : List Char) : Ends [c] rest := by
  obtain ⟨-, -, hletter, hdigit⟩ := of_mem_signs hc
  constructor
  · intro hrow
    rw [hrow.2 c (by simp)] at hletter
    cases hletter
  · intro hnumber
    obtain ⟨_, _, heq, hc⟩ := hnumber.exists_cons
    obtain ⟨rfl, -⟩ := List.cons.inj heq
    rw [hdigit] at hc
    cases hc

theorem IsLetterRow.ends {value rest : List Char} (h : IsLetterRow value)
    (hrest : ∀ c ∈ rest.head?, c.isAlpha = false) : Ends value rest :=
  ⟨fun _ => hrest, fun hnumber => absurd hnumber h.not_isNumber⟩

theorem IsNumber.ends {value rest : List Char} (h : IsNumber value)
    (hrest : ∀ c ∈ rest.head?, c.isDigit = false ∧ c ≠ '.') : Ends value rest :=
  ⟨fun hrow => absurd h hrow.not_isNumber, fun _ => hrest⟩

/-! ### Reading a value -/

/-- How many characters after a value are read to tell it: none after a sign, and otherwise one if there is one. -/
def lookahead (value rest : List Char) : Nat :=
  if value.head?.any Char.isAlphanum then min 1 rest.length else 0

theorem run_silent {s next : State} {c : Char} (h : s.step c = ([], .ok next)) (read : Nat) (text : List Char) :
    run s read (c :: text) = run next (read + 1) text := by
  rw [run, h]
  rfl

theorem run_gap {gap : List Char} (h : ∀ c ∈ gap, isBlank c = true) (line read : Nat) (rest : List Char) :
    run ⟨.nothing, line⟩ read (gap ++ rest) =
      run ⟨.nothing, line + gap.count '\n'⟩ (read + gap.length) rest := by
  induction gap generalizing line read with
  | nil => rfl
  | cons c gap ih =>
    have hstep : State.step ⟨.nothing, line⟩ c = ([], .ok ⟨.nothing, line + [c].count '\n'⟩) := by
      simp only [State.step, State.start, h c (by simp), if_true]
      by_cases hc : c = '\n' <;> simp [hc]
    have hcount : (c :: gap).count '\n' = [c].count '\n' + gap.count '\n' := by
      rw [← List.count_append]
      rfl
    rw [List.cons_append, run_silent hstep, ih fun c hc => h c (by simp [hc]), hcount, List.length_cons]
    congr 1
    · rw [Nat.add_assoc]
    · omega

theorem run_gather {kind : List Char → Underway} {line : Nat} {more : List Char}
    (hstep : ∀ c ∈ more, ∀ latest, State.step ⟨kind latest, line⟩ c = ([], .ok ⟨kind (c :: latest), line⟩))
    (latest : List Char) (read : Nat) (rest : List Char) :
    run ⟨kind latest, line⟩ read (more ++ rest) =
      run ⟨kind (more.reverse ++ latest), line⟩ (read + more.length) rest := by
  induction more generalizing latest read with
  | nil => rfl
  | cons c more ih =>
    rw [List.cons_append, run_silent (hstep c (by simp) latest), ih fun c hc => hstep c (by simp [hc])]
    simp [Nat.add_comm, Nat.add_left_comm]

/-- A token that is under way and that neither the next character nor the end of the source belongs to. -/
theorem run_told {s : State} {a : Lexeme} {rest : List Char} (hstep : ∀ c ∈ rest.head?, s.step c = s.startAfter a c)
    (hfinish : ∀ read, s.finish read = .cons ⟨a, s.line⟩ read (.done read)) (read : Nat) :
    run s read rest =
      .cons ⟨a, s.line⟩ (read + min 1 rest.length) (run ⟨.nothing, s.line⟩ read rest) := by
  cases rest with
  | nil => rw [run, hfinish, run, State.finish, List.length_nil, Nat.min_zero, Nat.add_zero]
  | cons c rest =>
    -- The character after the token is read as if no token had been under way.
    have hstart : State.step ⟨.nothing, s.line⟩ c = s.start c := rfl
    have hmin : min 1 (c :: rest).length = 1 := by simp
    rw [run, run, hstep c rfl, hstart, State.startAfter, hmin]
    rfl

theorem run_single {c : Char} {a : Lexeme} (hc : isBlank c = false) (ha : single? c = some a) (line read : Nat)
    (rest : List Char) :
    run ⟨.nothing, line⟩ read (c :: rest) =
      .cons ⟨a, line⟩ (read + 1) (run ⟨.nothing, line⟩ (read + 1) rest) := by
  have hstep : State.step ⟨.nothing, line⟩ c = ([⟨a, line⟩], .ok ⟨.nothing, line⟩) := by
    simp [State.step, State.start, hc, ha]
  rw [run, hstep]
  rfl

theorem run_word {word rest : List Char} (h : IsLetterRow word) (hrest : ∀ c ∈ rest.head?, c.isAlpha = false)
    (line read : Nat) :
    run ⟨.nothing, line⟩ read (word ++ rest) =
      .cons ⟨ofWord (String.ofList word), line⟩ (read + word.length + min 1 rest.length)
        (run ⟨.nothing, line⟩ (read + word.length) rest) := by
  obtain ⟨hne, hletters⟩ := h
  obtain ⟨c, more, rfl⟩ := List.exists_cons_of_ne_nil hne
  have hc := hletters c (by simp)
  have hstart : State.step ⟨.nothing, line⟩ c = ([], .ok ⟨.word [c], line⟩) := by
    obtain ⟨hblank, hsingle⟩ := start_of_isAlpha hc
    simp [State.step, State.start, hblank, hsingle, hc]
  have hstep : ∀ d ∈ more, ∀ latest, State.step ⟨.word latest, line⟩ d = ([], .ok ⟨.word (d :: latest), line⟩) := by
    intro d hd latest
    simp [State.step, hletters d (by simp [hd])]
  have htold : ∀ latest, ∀ d ∈ rest.head?,
      State.step ⟨.word latest, line⟩ d = State.startAfter ⟨.word latest, line⟩ (ofWord (gathered latest)) d := by
    intro latest d hd
    simp [State.step, hrest d hd]
  rw [List.cons_append, run_silent hstart, run_gather hstep, run_told (htold _) fun _ => rfl]
  simp [gathered, Nat.add_assoc, Nat.add_comm 1]

/-! ### Reading a numeral -/

section Numerals

variable (line read : Nat) (rest : List Char)

/-- A row of digits under way takes every digit that follows. -/
theorem run_digits {kind : DigitRow → Underway}
    (hstep : ∀ c (h : c.isDigit = true) row, State.step ⟨kind row, line⟩ c = ([], .ok ⟨kind (row.push c h), line⟩))
    {more : List Char} (hmore : ∀ c ∈ more, c.isDigit = true) {latest row : DigitRow}
    (hrow : row.chars = more.reverse ++ latest.chars) :
    run ⟨kind latest, line⟩ read (more ++ rest) = run ⟨kind row, line⟩ (read + more.length) rest := by
  induction more generalizing latest read with
  | nil =>
    obtain rfl : row = latest := by
      cases row
      cases latest
      simpa using hrow
    rfl
  | cons c more ih =>
    have hc := hmore c (by simp)
    have hpush : row.chars = more.reverse ++ (latest.push c hc).chars := by simpa [DigitRow.push] using hrow
    rw [List.cons_append, run_silent (hstep c hc latest), ih _ (fun d hd => hmore d (by simp [hd])) hpush]
    simp [Nat.add_comm, Nat.add_left_comm]

theorem run_whole (whole : DigitRow) :
    run ⟨.nothing, line⟩ read (whole.chars ++ rest) =
      run ⟨.whole whole.reverse, line⟩ (read + whole.chars.length) rest := by
  obtain ⟨c, more, hchars, hc⟩ := whole.exists_cons
  have hstart : State.step ⟨.nothing, line⟩ c = ([], .ok ⟨.whole (.single c hc), line⟩) := by
    obtain ⟨hblank, hsingle⟩ := start_of_isDigit hc
    simp [State.step, State.start, hblank, hsingle, isAlpha_of_isDigit hc, hc]
  have hstep : ∀ d (h : d.isDigit = true) row,
      State.step ⟨.whole row, line⟩ d = ([], .ok ⟨.whole (row.push d h), line⟩) := by
    intro d h row
    simp [State.step, h]
  have hmore : ∀ d ∈ more, d.isDigit = true := fun d hd => whole.digits d (by simp [hchars, hd])
  have hrow : whole.reverse.chars = more.reverse ++ (DigitRow.single c hc).chars := by
    simp [DigitRow.reverse, DigitRow.single, hchars]
  rw [hchars, List.cons_append, run_silent hstart, run_digits line _ rest hstep hmore hrow]
  simp [Nat.add_comm, Nat.add_left_comm]

/-- A numeral takes one point. -/
theorem run_point (whole : DigitRow) :
    run ⟨.nothing, line⟩ read (whole.chars ++ '.' :: rest) =
      run ⟨.point whole, line⟩ (read + whole.chars.length + 1) rest := by
  have hpoint : State.step ⟨.whole whole.reverse, line⟩ '.' = ([], .ok ⟨.point whole, line⟩) := by
    simp [State.step, whole.reverse_reverse]
  rw [run_whole, run_silent hpoint]

theorem run_fraction (whole fraction : DigitRow) :
    run ⟨.nothing, line⟩ read (whole.chars ++ '.' :: (fraction.chars ++ rest)) =
      run ⟨.fraction whole fraction.reverse, line⟩ (read + whole.chars.length + 1 + fraction.chars.length) rest := by
  obtain ⟨c, more, hchars, hc⟩ := fraction.exists_cons
  have hstart : State.step ⟨.point whole, line⟩ c = ([], .ok ⟨.fraction whole (.single c hc), line⟩) := by
    simp [State.step, hc]
  have hstep : ∀ d (h : d.isDigit = true) row,
      State.step ⟨.fraction whole row, line⟩ d = ([], .ok ⟨.fraction whole (row.push d h), line⟩) := by
    intro d h row
    simp [State.step, h]
  have hmore : ∀ d ∈ more, d.isDigit = true := fun d hd => fraction.digits d (by simp [hchars, hd])
  have hrow : fraction.reverse.chars = more.reverse ++ (DigitRow.single c hc).chars := by
    simp [DigitRow.reverse, DigitRow.single, hchars]
  rw [run_point, hchars, List.cons_append, run_silent hstart, run_digits line _ rest hstep hmore hrow]
  simp [Nat.add_comm, Nat.add_left_comm]

end Numerals

theorem run_numeral (n : Numeral) {rest : List Char} (hrest : ∀ c ∈ rest.head?, c.isDigit = false ∧ c ≠ '.')
    (line read : Nat) :
    run ⟨.nothing, line⟩ read (n.text.toList ++ rest) =
      .cons ⟨.number n, line⟩ (read + n.text.toList.length + min 1 rest.length)
        (run ⟨.nothing, line⟩ (read + n.text.toList.length) rest) := by
  obtain ⟨whole, fraction⟩ := n
  cases fraction with
  | none =>
    have hstep : ∀ c ∈ rest.head?, State.step ⟨.whole whole.reverse, line⟩ c =
        State.startAfter ⟨.whole whole.reverse, line⟩ (.number { whole }) c := by
      intro c hc
      obtain ⟨hdigit, hpoint⟩ := hrest c hc
      simp [State.step, hdigit, hpoint, whole.reverse_reverse]
    have hfinish : ∀ read, State.finish ⟨.whole whole.reverse, line⟩ read =
        .cons ⟨.number { whole }, line⟩ read (.done read) := by
      intro read
      simp only [State.finish, whole.reverse_reverse]
    rw [Numeral.text, String.toList_ofList, run_whole, run_told hstep hfinish]
  | some fraction =>
    have hstep : ∀ c ∈ rest.head?, State.step ⟨.fraction whole fraction.reverse, line⟩ c =
        State.startAfter ⟨.fraction whole fraction.reverse, line⟩ (.number { whole, fraction }) c := by
      intro c hc
      obtain ⟨hdigit, hpoint⟩ := hrest c hc
      simp [State.step, hdigit, hpoint, fraction.reverse_reverse]
    have hfinish : ∀ read, State.finish ⟨.fraction whole fraction.reverse, line⟩ read =
        .cons ⟨.number { whole, fraction }, line⟩ read (.done read) := by
      intro read
      simp only [State.finish, fraction.reverse_reverse]
    rw [Numeral.text, String.toList_ofList, List.append_assoc, List.cons_append, run_fraction,
      run_told hstep hfinish]
    simp [Nat.add_assoc, Nat.add_comm 1]

/-- A value is read as the lexeme that it stands for. -/
theorem Denotes.run {value rest : List Char} {a : Lexeme} (h : Denotes value a) (hrest : Ends value rest)
    (line read : Nat) :
    Scan.run ⟨.nothing, line⟩ read (value ++ rest) =
      .cons ⟨a, line⟩ (read + value.length + lookahead value rest)
        (Scan.run ⟨.nothing, line⟩ (read + value.length) rest) := by
  cases h with
  | operator op =>
    cases op with
    | min => exact run_word isLetterRow_min (hrest.1 isLetterRow_min) line read
    | max => exact run_word isLetterRow_max (hrest.1 isLetterRow_max) line read
    | _ => exact run_single rfl rfl line read rest
  | opening | closing => exact run_single rfl rfl line read rest
  | symbol hrow hmin hmax =>
    obtain ⟨c, more, rfl⟩ := List.exists_cons_of_ne_nil hrow.1
    have hahead : lookahead (c :: more) rest = min 1 rest.length := by
      simp [lookahead, Char.isAlphanum, hrow.2 c (by simp)]
    have hword : ofWord (String.ofList (c :: more)) = .symbol (String.ofList (c :: more)) := by
      rw [ofWord, if_neg, if_neg]
      · exact fun heq => hmax (by rw [← heq, String.toList_ofList])
      · exact fun heq => hmin (by rw [← heq, String.toList_ofList])
    rw [run_word hrow (hrest.1 hrow), hword, hahead]
  | number n =>
    obtain ⟨c, more, hcons, hc⟩ := (isNumber_text n).exists_cons
    have hahead : lookahead n.text.toList rest = min 1 rest.length := by
      simp [hcons, lookahead, Char.isAlphanum, hc]
    rw [run_numeral n (hrest.2 (isNumber_text n)), hahead]

/-! ### Reading a fault -/

/-- What begins no value, and the fault that it is on the line that the scan has come to. Directly after a number a
    point or a digit belongs to that number. -/
inductive Faulty (line : Nat) (afterNumber : Prop) : List Char → ScanError → Prop
  | unrecognized {c : Char} {rest : List Char} (hblank : isBlank c = false) (hsign : c ∉ signs)
    (hletter : c.isAlpha = false) (hdigit : c.isDigit = false) (hpoint : c = '.' → ¬afterNumber) :
    Faulty line afterNumber (c :: rest) (.unrecognized c line)
  | lonePoint {whole rest : List Char} (hafter : ¬afterNumber) (hwhole : Literal.isDigitRow whole = true)
    (hrest : ∀ c ∈ rest.head?, c.isDigit = false ∧ c ≠ '.') :
    Faulty line afterNumber (whole ++ '.' :: rest) (.malformedNumber (String.ofList (whole ++ ['.'])) line)
  | secondPoint {whole fraction rest : List Char} (hafter : ¬afterNumber) (hwhole : Literal.isDigitRow whole = true)
    (hfraction : ∀ c ∈ fraction, c.isDigit = true) :
    Faulty line afterNumber (whole ++ '.' :: (fraction ++ '.' :: rest))
      (.malformedNumber (String.ofList (whole ++ '.' :: (fraction ++ ['.']))) line)

theorem single?_eq_none {c : Char} (h : c ∉ signs) : single? c = none := by
  unfold single?
  split
  case h_9 => rfl
  all_goals simp [signs] at h

theorem run_unrecognized {c : Char} (hblank : isBlank c = false) (hsign : c ∉ signs) (hletter : c.isAlpha = false)
    (hdigit : c.isDigit = false) (line read : Nat) (rest : List Char) :
    run ⟨.nothing, line⟩ read (c :: rest) = .fault (.unrecognized c line) (read + 1) := by
  have hstep : State.step ⟨.nothing, line⟩ c = ([], .error (.unrecognized c line)) := by
    simp [State.step, State.start, hblank, single?_eq_none hsign, hletter, hdigit]
  rw [run, hstep]
  rfl

theorem run_lonePoint {whole rest : List Char} (hwhole : Literal.isDigitRow whole = true)
    (hrest : ∀ c ∈ rest.head?, c.isDigit = false ∧ c ≠ '.') (line read : Nat) :
    run ⟨.nothing, line⟩ read (whole ++ '.' :: rest) =
      .fault (.malformedNumber (String.ofList (whole ++ ['.'])) line)
        (read + whole.length + 1 + min 1 rest.length) := by
  rw [run_point line read rest ⟨whole, hwhole⟩]
  cases rest with
  | nil => rfl
  | cons c rest =>
    obtain ⟨hdigit, hpoint⟩ := hrest c rfl
    have hstep : State.step ⟨.point ⟨whole, hwhole⟩, line⟩ c =
        ([], .error (.malformedNumber (String.ofList (whole ++ ['.'])) line)) := by
      simp [State.step, hdigit, hpoint]
    rw [run, hstep]
    simp [Tokens.prepend]

theorem run_secondPoint {whole fraction : List Char} (hwhole : Literal.isDigitRow whole = true)
    (hfraction : ∀ c ∈ fraction, c.isDigit = true) (line read : Nat) (rest : List Char) :
    run ⟨.nothing, line⟩ read (whole ++ '.' :: (fraction ++ '.' :: rest)) =
      .fault (.malformedNumber (String.ofList (whole ++ '.' :: (fraction ++ ['.']))) line)
        (read + whole.length + 1 + fraction.length + 1) := by
  by_cases hempty : fraction = []
  · subst hempty
    have hstep : State.step ⟨.point ⟨whole, hwhole⟩, line⟩ '.' =
        ([], .error (.malformedNumber (String.ofList (whole ++ ['.', '.'])) line)) := by
      simp [State.step]
    rw [run_point line read _ ⟨whole, hwhole⟩, List.nil_append, run, hstep]
    rfl
  · let row : DigitRow := ⟨fraction, isDigitRow_iff.mpr ⟨hempty, hfraction⟩⟩
    have hstep : State.step ⟨.fraction ⟨whole, hwhole⟩ row.reverse, line⟩ '.' =
        ([], .error (.malformedNumber (String.ofList (whole ++ '.' :: (fraction ++ ['.']))) line)) := by
      simp [State.step, row, DigitRow.reverse_reverse]
    rw [run_fraction line read _ ⟨whole, hwhole⟩ row, run, hstep]
    rfl

/-- The scan ends at a fault. -/
theorem Faulty.run {line : Nat} {afterNumber : Prop} {rest : List Char} {error : ScanError}
    (h : Faulty line afterNumber rest error) (read : Nat) :
    ∃ read', Scan.run ⟨.nothing, line⟩ read rest = .fault error read' := by
  cases h with
  | unrecognized hblank hsign hletter hdigit => exact ⟨_, run_unrecognized hblank hsign hletter hdigit line read _⟩
  | lonePoint _ hwhole hrest => exact ⟨_, run_lonePoint hwhole hrest line read⟩
  | secondPoint _ hwhole hfraction => exact ⟨_, run_secondPoint hwhole hfraction line read _⟩

theorem exists_row (p : Char → Bool) (text : List Char) :
    ∃ row rest, text = row ++ rest ∧ (∀ c ∈ row, p c = true) ∧ ∀ c ∈ rest.head?, p c = false := by
  refine ⟨text.takeWhile p, text.dropWhile p, (List.takeWhile_append_dropWhile).symm, ?_, ?_⟩
  · exact List.all_eq_true.mp List.all_takeWhile
  · intro c hc
    have hhead := List.head?_dropWhile_not p text
    rw [hc] at hhead
    simpa using hhead

/-- Where a numeral begins, there is a number or a fault. -/
theorem exists_number_or_faulty {whole rest : List Char} (hwhole : Literal.isDigitRow whole = true)
    (hrest : ∀ c ∈ rest.head?, c.isDigit = false) (line : Nat) :
    (∃ value tail, whole ++ rest = value ++ tail ∧ IsNumber value ∧ ∀ c ∈ tail.head?, c.isDigit = false ∧ c ≠ '.') ∨
      ∃ error, Faulty line False (whole ++ rest) error := by
  by_cases hpoint : rest.head? = some '.'
  · obtain ⟨rest, rfl⟩ : ∃ more, rest = '.' :: more := ⟨rest.tail, List.eq_cons_of_mem_head? hpoint⟩
    obtain ⟨fraction, tail, rfl, hfraction, htail⟩ := exists_row Char.isDigit rest
    by_cases hagain : tail.head? = some '.'
    · obtain ⟨tail, rfl⟩ : ∃ more, tail = '.' :: more := ⟨tail.tail, List.eq_cons_of_mem_head? hagain⟩
      exact .inr ⟨_, .secondPoint id hwhole hfraction⟩
    · have hends : ∀ c ∈ tail.head?, c.isDigit = false ∧ c ≠ '.' :=
        fun c hc => ⟨htail c hc, fun heq => hagain (heq ▸ hc)⟩
      by_cases hempty : fraction = []
      · subst hempty
        exact .inr ⟨_, .lonePoint id hwhole hends⟩
      · have hrow := isDigitRow_iff.mpr ⟨hempty, hfraction⟩
        exact .inl ⟨whole ++ '.' :: fraction, tail, by simp, ⟨whole, fraction, .of_point hwhole hrow⟩, hends⟩
  · exact .inl ⟨whole, rest, rfl, ⟨whole, [], .of_whole hwhole⟩,
      fun c hc => ⟨hrest c hc, fun heq => hpoint (heq ▸ hc)⟩⟩

/-- Where no blank is, there is a value or a fault. -/
theorem exists_value_or_faulty {c : Char} (hc : isBlank c = false) (rest : List Char) (line : Nat) :
    (∃ value a tail, c :: rest = value ++ tail ∧ Denotes value a ∧ Ends value tail) ∨
      ∃ error, Faulty line False (c :: rest) error := by
  by_cases hsign : c ∈ signs
  · obtain ⟨a, ha⟩ := exists_denotes_sign hsign
    exact .inl ⟨[c], a, rest, rfl, ha, .of_sign hsign rest⟩
  · by_cases hletter : c.isAlpha = true
    · obtain ⟨more, tail, rfl, hmore, htail⟩ := exists_row Char.isAlpha rest
      have hrow : IsLetterRow (c :: more) := ⟨List.cons_ne_nil c more, List.forall_mem_cons.mpr ⟨hletter, hmore⟩⟩
      obtain ⟨a, ha⟩ := hrow.exists_denotes
      exact .inl ⟨c :: more, a, tail, rfl, ha, hrow.ends htail⟩
    · by_cases hdigit : c.isDigit = true
      · obtain ⟨more, rest, rfl, hmore, hrest⟩ := exists_row Char.isDigit rest
        have hwhole : Literal.isDigitRow (c :: more) = true :=
          isDigitRow_iff.mpr ⟨List.cons_ne_nil c more, List.forall_mem_cons.mpr ⟨hdigit, hmore⟩⟩
        rcases exists_number_or_faulty hwhole hrest line with ⟨value, tail, heq, hnumber, htail⟩ | hfaulty
        · obtain ⟨a, ha⟩ := hnumber.exists_denotes
          exact .inl ⟨value, a, tail, heq, ha, hnumber.ends htail⟩
        · exact .inr hfaulty
      · rw [Bool.not_eq_true] at hletter hdigit
        exact .inr ⟨_, .unrecognized hc hsign hletter hdigit fun _ => id⟩

end Scan
end StackCalc
