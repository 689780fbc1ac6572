import StackCalc.Pipeline
import StackCalc.Proofs.Execution
import StackCalc.Proofs.ProgramText

/-!
The text of a program, line by line. Loading and running are interleaved, but what comes of them is what comes of
carrying out the lines in order: the first line that is no instruction, whose number of operands has too many digits, or
whose instruction fails decides the outcome, and nothing behind the end of this line is read.
-/

namespace StackCalc

namespace Text

/-- Lines, each ended by a line feed. -/
def ended (lines : List (List Char)) : List Char :=
  lines.flatMap (· ++ ['\n'])

theorem ended_cons (line : List Char) (lines : List (List Char)) :
    ended (line :: lines) = line ++ '\n' :: ended lines := by
  simp [ended]

theorem ended_cons_append (line : List Char) (lines : List (List Char)) (rest : List Char) :
    ended (line :: lines) ++ rest = line ++ '\n' :: (ended lines ++ rest) := by
  simp [ended_cons]

theorem ended_append (lines more : List (List Char)) : ended (lines ++ more) = ended lines ++ ended more :=
  List.flatMap_append

theorem count_ended {lines : List (List Char)} (h : ∀ line ∈ lines, '\n' ∉ line) :
    (ended lines).count '\n' = lines.length := by
  induction lines with
  | nil => rfl
  | cons line lines ih =>
    obtain ⟨hline, hlines⟩ := List.forall_mem_cons.mp h
    rw [ended_cons, List.count_append, List.count_eq_zero_of_not_mem hline, List.count_cons_self, ih hlines,
      List.length_cons, Nat.zero_add]

/-- Every text is some lines that are ended and one that is not. -/
theorem exists_lines (text : List Char) :
    ∃ lines last, text = ended lines ++ last ∧ ∀ line ∈ lines ++ [last], '\n' ∉ line := by
  induction text with
  | nil => exact ⟨[], [], rfl, by simp⟩
  | cons c text ih =>
    obtain ⟨lines, last, rfl, hlines⟩ := ih
    by_cases hc : c = '\n'
    · exact ⟨[] :: lines, last, by simp [ended_cons_append, hc], by simpa using hlines⟩
    · -- the character belongs to the first line
      cases lines with
      | nil => exact ⟨[], c :: last, rfl, by simpa [Ne.symm hc] using hlines⟩
      | cons line lines =>
        refine ⟨(c :: line) :: lines, last, by simp [ended_cons_append], ?_⟩
        simpa [Ne.symm hc] using hlines

end Text

/-! ### Lines as instructions -/

namespace Machine

variable (arithmetic : Arithmetic Float) (resolve : Resolver Float)

/-- Carries out the instruction of a line with a number. Blank lines are skipped. -/
def stepLine (m : Machine Float) (number : Nat) (line : List Char) : Except TextError (Machine Float) :=
  if line.all Text.isBlank then .ok m
  else match Instr.parse line with
    | .ok (some i) => (m.step arithmetic resolve i).mapError .run
    | .ok none => .error (.load (.malformed (String.ofList line) number))
    | .error error => .error (.load (.digits error))

/-- Carries out lines in order, the first of which has a number. -/
def stepLines (m : Machine Float) (number : Nat) : List (List Char) → Except TextError (Machine Float)
  | [] => .ok m
  | line :: lines =>
    match m.stepLine arithmetic resolve number line with
    | .ok next => stepLines next (number + 1) lines
    | .error error => .error error

/-- The errors at which a line with a number can fail. -/
inductive LineFault (m : Machine Float) (number : Nat) (line : List Char) : TextError → Prop
  | malformed (hblank : line.all Text.isBlank = false) (h : Instr.parse line = .ok none) :
      LineFault m number line (.load (.malformed (String.ofList line) number))
  /-- A variadic operator with too many digits. -/
  | digits {op : Operator} {row : List Char} (hv : op.isVariadic = true)
      (hfields : Text.fields line = [op.keyword.toList, row]) (hrow : Literal.isDigitRow row = true)
      (hlong : Number.mostDigits < row.length) : LineFault m number line (.load (.digits (.reading row.length)))
  | unbound {i : Instr Float} {name : String} (hi : Instr.parse line = .ok (some i))
      (h : m.step arithmetic resolve i = .error (.unbound name)) : LineFault m number line (.run (.unbound name))
  | underflow {i : Instr Float} {o : Operation} {size : Nat} (hi : Instr.parse line = .ok (some i))
      (h : m.step arithmetic resolve i = .error (.underflow o size)) :
      LineFault m number line (.run (.underflow o size))

variable {arithmetic resolve} {m : Machine Float} {number : Nat}

theorem step_ne_leftover (i : Instr Float) (size : Nat) : m.step arithmetic resolve i ≠ .error (.leftover size) := by
  cases i with
  | declare name => rw [step]; split <;> simp
  | fetch name => rw [step]; split <;> simp
  | apply o => rw [step]; split <;> simp
  | push value => simp [step]
  | nop => simp [step]

/-- How many values are left is no matter of a line. -/
theorem lineFault_of_stepLine {line : List Char} {error : TextError}
    (h : m.stepLine arithmetic resolve number line = .error error) :
    LineFault arithmetic resolve m number line error := by
  unfold stepLine at h
  split at h
  next => cases h
  next hblank =>
    rcases hi : Instr.parse line with e | (_ | i) <;> simp only [hi] at h
    · obtain ⟨op, row, hv, hfields, hrow, hlong, rfl⟩ := Instr.ofFields_eq_error_iff.mp hi
      cases h
      exact .digits hv hfields hrow hlong
    · cases h
      exact .malformed (Bool.eq_false_iff.mpr hblank) hi
    · rcases hstep : m.step arithmetic resolve i with (name | ⟨o, size⟩ | size) | next <;> rw [hstep] at h <;> cases h
      · exact .unbound hi hstep
      · exact .underflow hi hstep
      · exact absurd hstep (step_ne_leftover i size)

theorem stepLines_concat_eq_ok {lines : List (List Char)} {line : List Char} {last : Machine Float} :
    m.stepLines arithmetic resolve number (lines ++ [line]) = .ok last ↔
      ∃ next, m.stepLines arithmetic resolve number lines = .ok next ∧
        next.stepLine arithmetic resolve (number + lines.length) line = .ok last := by
  induction lines generalizing m number with
  | nil =>
    simp only [List.nil_append, stepLines, List.length_nil, Nat.add_zero]
    cases hline : m.stepLine arithmetic resolve number line <;> simp [hline]
  | cons other lines ih =>
    rw [List.cons_append, stepLines, stepLines]
    cases m.stepLine arithmetic resolve number other with
    | error error => simp
    | ok next => simp only [ih, List.length_cons, Nat.add_assoc, Nat.add_comm 1]

/-- All lines can be carried out, or there is a first one that cannot. -/
theorem stepLines_ok_or_first (lines : List (List Char)) :
    (∃ next, m.stepLines arithmetic resolve number lines = .ok next) ∨
      ∃ before line after next error, lines = before ++ line :: after ∧
        m.stepLines arithmetic resolve number before = .ok next ∧
        next.stepLine arithmetic resolve (number + before.length) line = .error error := by
  induction lines generalizing m number with
  | nil => exact .inl ⟨m, rfl⟩
  | cons line lines ih =>
    rcases hline : m.stepLine arithmetic resolve number line with error | next
    · exact .inr ⟨[], line, lines, m, error, rfl, rfl, hline⟩
    · have hcons (more : List (List Char)) : m.stepLines arithmetic resolve number (line :: more) =
          next.stepLines arithmetic resolve (number + 1) more := by rw [stepLines, hline]
      rcases @ih next (number + 1) with ⟨last, hlast⟩ | ⟨before, other, after, last, error, rfl, hlast, herror⟩
      · exact .inl ⟨last, (hcons lines).trans hlast⟩
      · rw [Nat.add_assoc, Nat.add_comm 1] at herror
        exact .inr ⟨line :: before, other, after, last, error, rfl, (hcons before).trans hlast, herror⟩

end Machine

/-! ### Loading and running in turn -/

/-- An error as it is behind some lines. -/
def LoadError.shift (lines : Nat) : LoadError → LoadError
  | malformed text line => malformed text (lines + line)
  | digits error => digits error

namespace Loaded

variable (arithmetic : Arithmetic Float) (resolve : Resolver Float)

/-- What comes of a stream, and how many characters of its text have been read by then. -/
def outcome {α : Type} (arithmetic : Arithmetic α) (resolve : Resolver α) (m : Machine α) (l : Loaded α) :
    Except TextError α × Nat :=
  ((l.runFrom arithmetic resolve m).1.result, (l.runFrom arithmetic resolve m).2)

theorem outcome_entry (m : Machine Float) (number : Nat) (line : List Char) (read : Nat) (rest : Loaded Float) :
    (entry number line read rest).outcome arithmetic resolve m =
      match m.stepLine arithmetic resolve number line with
      | .ok next => rest.outcome arithmetic resolve next
      | .error error => (.error error, read) := by
  unfold entry Machine.stepLine
  split
  · rfl
  · rcases Instr.parse line with e | (_ | i)
    · rfl
    · rfl
    · simp only [outcome, runFrom]
      cases m.step arithmetic resolve i <;> rfl

theorem outcome_line {line : List Char} (h : '\n' ∉ line) (m : Machine Float) (number read : Nat) (rest : List Char) :
    (loadFrom number [] read (line ++ '\n' :: rest)).outcome arithmetic resolve m =
      match m.stepLine arithmetic resolve number line with
      | .ok next => (loadFrom (number + 1) [] (read + line.length + 1) rest).outcome arithmetic resolve next
      | .error error => (.error error, read + line.length + 1) := by
  rw [loadFrom_line h, List.reverse_nil, List.nil_append, outcome_entry]

theorem outcome_last {line : List Char} (h : '\n' ∉ line) (m : Machine Float) (number read : Nat) :
    (loadFrom number [] read line).outcome arithmetic resolve m =
      match m.stepLine arithmetic resolve number line with
      | .ok next => (next.value.mapError .run, read + line.length)
      | .error error => (.error error, read + line.length) := by
  rw [loadFrom_last h, List.reverse_nil, List.nil_append]
  split
  · obtain rfl : line = [] := by simpa using ‹line.isEmpty = true›
    rfl
  · rw [outcome_entry]
    rfl

/-- Lines that can be carried out lead to the rest of the text. -/
theorem outcome_ended {lines : List (List Char)} (h : ∀ line ∈ lines, '\n' ∉ line) {m next : Machine Float}
    {number : Nat} (hok : m.stepLines arithmetic resolve number lines = .ok next) (read : Nat) (rest : List Char) :
    (loadFrom number [] read (Text.ended lines ++ rest)).outcome arithmetic resolve m =
      (loadFrom (number + lines.length) [] (read + (Text.ended lines).length) rest).outcome arithmetic resolve
        next := by
  induction lines generalizing m number read with
  | nil =>
    obtain rfl : m = next := Except.ok.inj hok
    rfl
  | cons line lines ih =>
    obtain ⟨hline, hlines⟩ := List.forall_mem_cons.mp h
    rw [Machine.stepLines] at hok
    rw [Text.ended_cons_append, outcome_line arithmetic resolve hline]
    rcases hstep : m.stepLine arithmetic resolve number line with error | m'
    · rw [hstep] at hok
      cases hok
    · rw [hstep] at hok
      simp only [ih hlines hok]
      congr 2 <;> simp [Text.ended_cons] <;> omega

/-! ### Texts one after the other -/

/-- A stream that goes on with another one where it is done. -/
def append {α : Type} (l next : Loaded α) : Loaded α :=
  match l with
  | cons i read rest => cons i read (rest.append next)
  | fault error read => fault error read
  | done _ => next

/-- A stream as it is behind some lines and characters. -/
def shift {α : Type} (lines chars : Nat) : Loaded α → Loaded α
  | cons i read rest => cons i (chars + read) (rest.shift lines chars)
  | fault error read => fault (error.shift lines) (chars + read)
  | done read => done (chars + read)

theorem entry_append (number : Nat) (line : List Char) (read : Nat) (rest next : Loaded Float) :
    (entry number line read rest).append next = entry number line read (rest.append next) := by
  unfold entry
  split
  · rfl
  · rcases Instr.parse line with e | (_ | i) <;> rfl

theorem entry_shift (lines chars number : Nat) (line : List Char) (read : Nat) (rest : Loaded Float) :
    (entry number line read rest).shift lines chars =
      entry (lines + number) line (chars + read) (rest.shift lines chars) := by
  unfold entry
  split
  · rfl
  · rcases Instr.parse line with e | (_ | i) <;> rfl

theorem loadFrom_shift (lines chars number : Nat) (latest : List Char) (read : Nat) (text : List Char) :
    (loadFrom number latest read text).shift lines chars = loadFrom (lines + number) latest (chars + read) text := by
  induction text generalizing number latest read with
  | nil =>
    unfold loadFrom
    split
    · rfl
    · exact entry_shift ..
  | cons c text ih =>
    unfold loadFrom
    split
    · rw [entry_shift, ih]
      rfl
    · exact ih ..

theorem loadFrom_ended_append {lines : List (List Char)} (h : ∀ line ∈ lines, '\n' ∉ line) (number read : Nat)
    (rest : List Char) :
    loadFrom number [] read (Text.ended lines ++ rest) =
      (loadFrom number [] read (Text.ended lines)).append
        (loadFrom (number + lines.length) [] (read + (Text.ended lines).length) rest) := by
  induction lines generalizing number read with
  | nil => rfl
  | cons line lines ih =>
    obtain ⟨hline, hlines⟩ := List.forall_mem_cons.mp h
    rw [Text.ended_cons_append, Text.ended_cons, loadFrom_line hline, loadFrom_line hline, entry_append, ih hlines]
    congr 3 <;> simp <;> omega

theorem load_append {text : List Char} (h : text.getLast? = some '\n') (rest : List Char) :
    load (text ++ rest) = (load text).append ((load rest).shift (text.count '\n') text.length) := by
  obtain ⟨lines, last, rfl, hlines⟩ := Text.exists_lines text
  simp only [List.forall_mem_append, List.forall_mem_singleton] at hlines
  -- the line behind the last line feed is empty
  obtain rfl : last = [] := by
    rcases List.eq_nil_or_concat last with rfl | ⟨last, c, rfl⟩
    · rfl
    · simp_all
  rw [List.append_nil, load, load, load, loadFrom_ended_append hlines.1, loadFrom_shift, Text.count_ended hlines.1,
    Nat.add_comm 1, Nat.add_comm 0]

end Loaded

/-! ### The first line that fails -/

namespace ProgramText

variable (resolve : Resolver Float)

/-- The value of a text, and how many of its characters have been read by then. -/
def outcome (text : List Char) : Except TextError Float × Nat :=
  ((evaluate resolve text).result, ((Loaded.load text).run Double.arithmetic resolve).2)

theorem outcome_eq (text : List Char) :
    outcome resolve text = (Loaded.load text).outcome Double.arithmetic resolve {} := by
  simp only [outcome, evaluate, Loaded.outcome, Loaded.run]
  cases ((Loaded.load text).runFrom Double.arithmetic resolve {}).1.result <;> rfl

/-- In the text `ended lines ++ (line ++ rest)`, the first line that fails is `line`. -/
structure FailsAt (lines : List (List Char)) (line rest : List Char) (error : TextError) : Prop where
  newline_not_mem : ∀ l ∈ lines ++ [line], '\n' ∉ l
  line_ends : rest = [] ∨ ∃ more, rest = '\n' :: more
  fails : ∃ m, Machine.stepLines Double.arithmetic resolve {} 1 lines = .ok m ∧
    m.stepLine Double.arithmetic resolve (1 + lines.length) line = .error error

/-- In the text `ended lines ++ last`, no line fails; `m` is the machine at the end. -/
structure Passes (lines : List (List Char)) (last : List Char) (m : Machine Float) : Prop where
  newline_not_mem : ∀ l ∈ lines ++ [last], '\n' ∉ l
  passes : Machine.stepLines Double.arithmetic resolve {} 1 (lines ++ [last]) = .ok m

variable {resolve} {lines : List (List Char)} {line rest last : List Char} {error : TextError} {m : Machine Float}

theorem FailsAt.outcome_eq (h : FailsAt resolve lines line rest error) :
    outcome resolve (Text.ended lines ++ (line ++ rest)) =
      (.error error, (Text.ended lines ++ (line ++ rest.take 1)).length) := by
  obtain ⟨hlines, hrest, m, hok, herror⟩ := h
  simp only [List.forall_mem_append, List.forall_mem_singleton] at hlines
  rw [ProgramText.outcome_eq, Loaded.load, Loaded.outcome_ended _ _ hlines.1 hok]
  rcases hrest with rfl | ⟨more, rfl⟩
  · rw [List.append_nil, Loaded.outcome_last _ _ hlines.2, herror]
    simp
  · rw [Loaded.outcome_line _ _ hlines.2, herror]
    simp [Nat.add_assoc]

theorem Passes.outcome_eq (h : Passes resolve lines last m) :
    outcome resolve (Text.ended lines ++ last) = (m.value.mapError .run, (Text.ended lines ++ last).length) := by
  obtain ⟨hlines, hpasses⟩ := h
  simp only [List.forall_mem_append, List.forall_mem_singleton] at hlines
  obtain ⟨next, hok, hlast⟩ := Machine.stepLines_concat_eq_ok.mp hpasses
  rw [ProgramText.outcome_eq, Loaded.load, Loaded.outcome_ended _ _ hlines.1 hok, Loaded.outcome_last _ _ hlines.2,
    hlast]
  simp

/-- A line of every text fails first, or none does. -/
theorem exists_failsAt_or_passes (resolve : Resolver Float) (text : List Char) :
    (∃ lines line rest error, text = Text.ended lines ++ (line ++ rest) ∧ FailsAt resolve lines line rest error) ∨
      ∃ lines last m, text = Text.ended lines ++ last ∧ Passes resolve lines last m := by
  obtain ⟨lines, last, rfl, hlines⟩ := Text.exists_lines text
  rcases Machine.stepLines_ok_or_first lines with ⟨m, hok⟩ | ⟨before, line, after, m, error, rfl, hok, herror⟩
  · rcases hlast : m.stepLine Double.arithmetic resolve (1 + lines.length) last with error | m'
    · exact .inl ⟨lines, last, [], error, by simp, hlines, .inl rfl, m, hok, hlast⟩
    · exact .inr ⟨lines, last, m', rfl, hlines, Machine.stepLines_concat_eq_ok.mpr ⟨m, hok, hlast⟩⟩
  · refine .inl ⟨before, line, '\n' :: (Text.ended after ++ last), error, ?_, ?_, .inr ⟨_, rfl⟩, m, hok, herror⟩
    · simp [Text.ended_append, Text.ended_cons]
    · intro l hl
      exact hlines l (by simp at hl ⊢; tauto)

/-- The first line that fails decides the outcome of a text, and nothing behind its end is read. A line fails if it is
    no instruction, if its number of operands has too many digits, or if its instruction meets a name without a value or
    too few operands. A text without such a line has the value that is left at its end. A text behind lines that are
    ended is loaded as it is alone, but for the numbers of its lines. -/
theorem outcome_decided_by_lines (resolve : Resolver Float) (text : List Char) :
    ((∃ lines line rest error, text = Text.ended lines ++ (line ++ rest) ∧ FailsAt resolve lines line rest error) ∨
        ∃ lines last m, text = Text.ended lines ++ last ∧ Passes resolve lines last m) ∧
      (∀ lines line rest error, text = Text.ended lines ++ (line ++ rest) → FailsAt resolve lines line rest error →
        outcome resolve text = (.error error, (Text.ended lines ++ (line ++ rest.take 1)).length) ∧
          (∃ m, Machine.stepLines Double.arithmetic resolve {} 1 lines = .ok m ∧
            m.LineFault Double.arithmetic resolve (1 + lines.length) line error) ∧
          (rest ≠ [] → ∀ other, outcome resolve (Text.ended lines ++ (line ++ '\n' :: other)) = outcome resolve text)) ∧
      (∀ lines last m, text = Text.ended lines ++ last → Passes resolve lines last m →
        outcome resolve text = (m.value.mapError .run, text.length)) ∧
      ∀ rest, text.getLast? = some '\n' →
        Loaded.load (text ++ rest) =
          (Loaded.load text).append ((Loaded.load rest).shift (text.count '\n') text.length) := by
  refine ⟨exists_failsAt_or_passes resolve text, ?_, ?_, fun rest h => Loaded.load_append h rest⟩
  · rintro lines line rest error rfl h
    refine ⟨h.outcome_eq, ?_, fun hrest other => ?_⟩
    · obtain ⟨m, hok, herror⟩ := h.fails
      exact ⟨m, hok, Machine.lineFault_of_stepLine herror⟩
    · obtain ⟨more, rfl⟩ := h.line_ends.resolve_left hrest
      have hother : FailsAt resolve lines line ('\n' :: other) error := ⟨h.newline_not_mem, .inr ⟨other, rfl⟩, h.fails⟩
      rw [hother.outcome_eq, h.outcome_eq]
      rfl
  · rintro lines last m rfl h
    exact h.outcome_eq

/-- A sum of two operands whose number has one leading zero too many fails with neither of the reports that a line may
    fail with. Without these zeros, the program has a value. -/
theorem outcome_beyond_digits :
    let resolve : Resolver Float := fun _ => none
    let lines := ["push 1".toList, "push 2".toList]
    let row := List.replicate Number.mostDigits '0' ++ ['2']
    let line := "add".toList ++ [' '] ++ row
    let error : TextError := .load (.digits (.reading (Number.mostDigits + 1)))
    Literal.isDigitRow row = true ∧ natOfDigits row = 2 ∧
      outcome resolve (Text.ended (lines ++ [line])) = (.error error, (Text.ended (lines ++ [line])).length) ∧
      (∀ text line, error ≠ .load (.malformed text line)) ∧ (∀ e, error ≠ .run e) ∧
      (outcome resolve (Text.ended (lines ++ ["add 2".toList]))).1 = .ok 3 := by
  intro resolve lines row line error
  have htwo : ∀ c ∈ ['2'], c.isDigit = true := by simp [Char.isDigit]
  have hdigits : ∀ c ∈ row, c.isDigit = true := List.forall_mem_append.mpr ⟨isDigit_replicate_zero, htwo⟩
  have hrow : Literal.isDigitRow row = true := isDigitRow_iff.mpr ⟨by simp [row], hdigits⟩
  have hline : Text.Spaced [Operator.add.keyword.toList, row] line := by
    have hwords : ∀ word ∈ [Operator.add.keyword.toList, row], Text.IsWord word := by
      simpa using ⟨Instr.isWord_keyword .add, by simp [row], fun c hc => Text.isBlank_of_isDigit (hdigits c hc)⟩
    have hintercalate := Text.Spaced.intercalate hwords
    rwa [List.intercalate_cons_cons, List.intercalate_singleton] at hintercalate
  have hfault : Instr.parse line = .error (.reading (Number.mostDigits + 1)) := by
    rw [Instr.parse, hline.fields_eq]
    exact Instr.ofFields_eq_error_iff.mpr ⟨.add, row, rfl, rfl, hrow, by simp [row], by simp [row]⟩
  obtain ⟨m, hm⟩ : ∃ m, (Machine.stepLines Double.arithmetic resolve {} 1 lines).toOption = some m :=
    Option.isSome_iff_exists.mp (by decide +kernel)
  have hfails : FailsAt resolve lines line ['\n'] error := by
    refine ⟨?_, .inr ⟨[], rfl⟩, m, eq_ok_of_toOption hm, ?_⟩
    · rw [List.forall_mem_append]
      exact ⟨by decide, by simpa using hline.newline_not_mem⟩
    · rw [Machine.stepLine, if_neg (by simp [line, Text.isBlank, Text.blankRanges]), hfault]
  have hended : Text.ended (lines ++ [line]) = Text.ended lines ++ (line ++ ['\n']) := by
    have hnil : Text.ended [] = [] := rfl
    rw [Text.ended_append, Text.ended_cons line, hnil]
  refine ⟨hrow, ?_, ?_, by simp [error], by simp [error], ?_⟩
  · calc natOfDigits row = natOfDigits ['2'] := natOfDigits_zeros_append htwo _
      _ = 2 := rfl
  · rw [hended, hfails.outcome_eq, List.take_of_length_le (Nat.le_refl 1)]
  · exact eq_ok_of_toOption (by decide +kernel)

end ProgramText

end StackCalc
