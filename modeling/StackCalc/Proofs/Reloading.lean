import StackCalc.Proofs.ProgramText

/-!
The text of a program as a form that survives. A program whose names are letters and whose operations have two operands
at least is read back from its text, and from any text that differs in blanks and blank lines only, with each literal as
its digits read. It is the same program exactly if all its literals are representable. An infinite literal or one that
is no number has no digits: the loader gives the instructions before it and stops at its line. What does not survive are
operations on so many operands that the number of operands has too many digits: it is neither written nor read.
-/

namespace StackCalc

namespace Program

variable {p : Program Float} {text : List Char}

theorem isWritable_of_isFinite (hp : ∀ i ∈ p, i.IsWellFormed) (hfinite : ∀ x ∈ p.literals, Literal.isFinite x = true) :
    p.IsWritable := by
  intro i hi
  cases i with
  | push x => exact hfinite x (mem_literals.mpr hi)
  | _ => exact hp _ hi

/-! ### Literals that read as themselves -/

theorem reread_eq_self_iff (hfinite : ∀ x ∈ p.literals, Literal.isFinite x = true) :
    p.reread = p ↔ ∀ x ∈ p.literals, Literal.isRepresentable x = true := by
  have hself : p.reread = p ↔ ∀ i ∈ p, i.reread = i := by
    simpa [reread] using List.map_inj_left (l := p) (f := Instr.reread) (g := id)
  rw [hself]
  constructor
  · intro h x hx
    exact (Literal.isRepresentable_iff (hfinite x hx)).mpr (Instr.push.inj (h _ (mem_literals.mp hx)))
  · intro h i hi
    cases i with
    | push x => exact congrArg Instr.push (Literal.reread_of_isRepresentable (h x (mem_literals.mpr hi)))
    | _ => rfl

/-- The same with literals compared as numbers. -/
theorem reread_beq_self_iff (hfinite : ∀ x ∈ p.literals, Literal.isFinite x = true) :
    (p.reread == p) = true ↔ ∀ x ∈ p.literals, Literal.isRepresentable x = true := by
  have hself : (p.reread == p) = true ↔ ∀ i ∈ p, (i.reread == i) = true := by
    clear hfinite
    induction p with
    | nil => simp [reread]
    | cons i p ih => simpa [reread] using fun _ => ih
  rw [hself]
  constructor
  · intro h x hx
    rw [Literal.isRepresentable_eq (hfinite x hx)]
    exact h _ (mem_literals.mp hx)
  · intro h i hi
    cases i with
    | push x =>
      have hx := mem_literals.mpr hi
      rw [← h x hx, Literal.isRepresentable_eq (hfinite x hx)]
      rfl
    | _ => simp [Instr.reread, BEq.beq, instBEqInstr.beq]

/-! ### The first literal without digits -/

theorem exists_first_not_isFinite (h : ∃ x ∈ p.literals, Literal.isFinite x = false) :
    ∃ before x after, p = before ++ .push x :: after ∧ (∀ y ∈ literals before, Literal.isFinite y = true) ∧
      Literal.isFinite x = false := by
  induction p with
  | nil =>
    obtain ⟨x, hx, -⟩ := h
    cases hx
  | cons i p ih =>
    by_cases hi : ∃ x, i = .push x ∧ Literal.isFinite x = false
    · obtain ⟨x, rfl, hx⟩ := hi
      exact ⟨[], x, p, rfl, by simp [literals], hx⟩
    · obtain ⟨x, hx, hfinite⟩ := h
      have hrest : ∃ x ∈ literals p, Literal.isFinite x = false := by
        refine ⟨x, mem_literals.mpr ((List.mem_cons.mp (mem_literals.mp hx)).resolve_left ?_), hfinite⟩
        exact fun heq => hi ⟨x, heq.symm, hfinite⟩
      obtain ⟨before, y, after, rfl, hbefore, hy⟩ := ih hrest
      refine ⟨i :: before, y, after, rfl, ?_, hy⟩
      intro z hz
      rcases List.mem_cons.mp (mem_literals.mp hz) with heq | hz
      · exact Bool.eq_true_of_not_eq_false fun hfalse => hi ⟨z, heq.symm, hfalse⟩
      · exact hbefore z (mem_literals.mpr hz)

/-- A text of a program is cut at every instruction. -/
theorem Spread.exists_cut {before after : Program Float} {i : Instr Float} (h : Spread (before ++ i :: after) text) :
    ∃ text₁ line text₂, text = text₁ ++ line ++ '\n' :: text₂ ∧ Spread before text₁ ∧ i.IsLine line := by
  generalize hp : before ++ i :: after = p at h
  induction h generalizing before with
  | nil => cases before <;> cases hp
  | @blank p gap text hgap _ ih =>
    obtain ⟨text₁, line, text₂, rfl, hbefore, hline⟩ := ih hp
    exact ⟨gap ++ '\n' :: text₁, line, text₂, by simp, .blank hgap hbefore, hline⟩
  | @cons j p first text hfirst _ ih =>
    cases before with
    | nil =>
      obtain ⟨rfl, rfl⟩ := List.cons.inj hp
      exact ⟨[], first, text, rfl, .nil, hfirst⟩
    | cons k before =>
      obtain ⟨rfl, hrest⟩ := List.cons.inj hp
      obtain ⟨text₁, line, text₂, rfl, hbefore, hline⟩ := ih hrest
      exact ⟨first ++ '\n' :: text₁, line, text₂, by simp, .cons hfirst hbefore, hline⟩

/-! ### Texts of a program, loaded -/

theorem Spread.toProgram_load {gap : List Char} (h : p.Spread text) (hp : ∀ i ∈ p, i.IsWellFormed)
    (hgap : Text.IsGap gap) (hfinite : ∀ x ∈ p.literals, Literal.isFinite x = true) :
    (Loaded.load (text ++ gap)).toProgram = .ok p.reread := by
  obtain ⟨entries, hentries, hload⟩ := h.loadFrom (isWritable_of_isFinite hp hfinite) 1 0 gap
  rw [Loaded.load, hload, Loaded.toProgram_prepend, hentries, Loaded.loadFrom_gap hgap]
  simp [Loaded.toProgram, Except.map]

/-- A literal without digits ends the loading at its line. -/
theorem Spread.load_append_push {before : Program Float} {x : Float} {text₁ line : List Char}
    (h : Spread before text₁) (hbefore : before.IsWritable) (hx : Literal.isFinite x = false)
    (hline : (Instr.push x).IsLine line) (rest : List Char) :
    (Loaded.load (text₁ ++ line ++ '\n' :: rest)).instrs = reread before ∧
      (Loaded.load (text₁ ++ line ++ '\n' :: rest)).toProgram =
        .error (.malformed (String.ofList line) (1 + text₁.count '\n')) := by
  obtain ⟨entries, hentries, hload⟩ := h.loadFrom hbefore 1 0 (line ++ '\n' :: rest)
  have hspaced := hline.spaced trivial
  have hfault : Instr.ofFields (Instr.words (.push x)) = .ok none := by
    simp [Instr.words, Instr.ofFields, Literal.read?_of_not_isFinite hx]
  have hloaded : Loaded.load (text₁ ++ line ++ '\n' :: rest) =
      .prepend entries (.fault (.malformed (String.ofList line) (1 + text₁.count '\n'))
        (0 + text₁.length + line.length + 1)) := by
    rw [Loaded.load, List.append_assoc, hload, Loaded.loadFrom_line hspaced.newline_not_mem, List.reverse_nil,
      List.nil_append, Loaded.entry_spaced hspaced (Instr.words_ne_nil _), hfault]
  rw [hloaded, Loaded.instrs_prepend, hentries, Loaded.toProgram_prepend]
  exact ⟨by simp [Loaded.instrs], rfl⟩

/-- A program whose names are letters and whose operations have two operands at least. It has a text, which is one of
    its texts, if no number of operands has too many digits, and no text otherwise. Loaded from a text with any blanks
    and blank lines, it is read as follows. If all its literals are finite, every literal is read as its digits say, and
    the program is the same, literal by literal or compared as numbers, exactly if its literals are representable.
    Otherwise the loader gives the instructions before the first literal that is infinite or no number, and stops at the
    line of that literal. -/
theorem load_spread (hp : ∀ i ∈ p, i.IsWellFormed) :
    ((∀ o, .apply o ∈ p → o.arity < 10 ^ Number.mostDigits) → ∃ own, p.text = .ok own ∧ p.Spread own.toList) ∧
      ((∃ o, .apply o ∈ p ∧ 10 ^ Number.mostDigits ≤ o.arity) → p.text = .error .writing) ∧
      ∀ {text gap : List Char}, p.Spread text → Text.IsGap gap →
        ((∀ x ∈ p.literals, Literal.isFinite x = true) →
          (Loaded.load (text ++ gap)).toProgram = .ok p.reread ∧
          (∀ x ∈ p.literals, Literal.read? (Literal.text x).toList = some (Literal.reread x)) ∧
          (p.reread = p ↔ ∀ x ∈ p.literals, Literal.isRepresentable x = true) ∧
          ((p.reread == p) = true ↔ ∀ x ∈ p.literals, Literal.isRepresentable x = true)) ∧
        ((∃ x ∈ p.literals, Literal.isFinite x = false) →
          ∃ before x after text₁ line text₂, p = before ++ .push x :: after ∧
            (∀ y ∈ literals before, Literal.isFinite y = true) ∧ Literal.isFinite x = false ∧
            text = text₁ ++ line ++ '\n' :: text₂ ∧ Spread before text₁ ∧ (Instr.push x).IsLine line ∧
            (Loaded.load (text ++ gap)).instrs = reread before ∧
            (Loaded.load (text ++ gap)).toProgram =
              .error (.malformed (String.ofList line) (1 + text₁.count '\n'))) := by
  refine ⟨fun hbounded => ?_, fun ⟨o, ho, harity⟩ => ?_,
    fun {text gap} h hgap => ⟨fun hfinite => ?_, fun hinfinite => ?_⟩⟩
  · obtain ⟨own, hown⟩ := exists_text (forall_isBounded_iff.mpr hbounded)
    exact ⟨own, hown, spread_text hp hown⟩
  · exact text_of_not_isBounded ⟨_, ho, Nat.not_lt.mpr harity⟩
  · exact ⟨h.toProgram_load hp hgap hfinite, fun x hx => Literal.read?_text (hfinite x hx),
      reread_eq_self_iff hfinite, reread_beq_self_iff hfinite⟩
  · obtain ⟨before, x, after, rfl, hbefore, hx⟩ := exists_first_not_isFinite hinfinite
    obtain ⟨text₁, line, text₂, rfl, htext₁, hline⟩ := h.exists_cut
    have hwritable := isWritable_of_isFinite (fun i hi => hp i (by simp [hi])) hbefore
    obtain ⟨hinstrs, herror⟩ := htext₁.load_append_push hwritable hx hline (text₂ ++ gap)
    rw [← List.cons_append, ← List.append_assoc] at hinstrs herror
    exact ⟨before, x, after, text₁, line, text₂, rfl, hbefore, hx, rfl, htext₁, hline, hinstrs, herror⟩

/-- A sum of so many operands that their number has one digit too many has no text, and the line that would be its text
    is not read. -/
theorem load_spread_beyond_digits :
    let o : Operation := ⟨.add, 10 ^ Number.mostDigits - 1, .inl rfl⟩
    let p : Program Float := [.apply o]
    let line := "add".toList ++ [' '] ++ '1' :: List.replicate Number.mostDigits '0'
    (∀ i ∈ p, i.IsWellFormed) ∧ (∀ x ∈ p.literals, Literal.isFinite x = true) ∧ Text.Spaced (Instr.apply o).words line ∧
      p.text = .error .writing ∧
      (Loaded.load (line ++ ['\n'])).toProgram = .error (.digits (.reading (Number.mostDigits + 1))) := by
  intro o p line
  have hlimit := Number.two_lt_pow_mostDigits
  have harity : o.arity = 10 ^ Number.mostDigits := Nat.sub_add_cancel (Nat.le_of_lt (Nat.lt_of_succ_lt hlimit))
  have hp : ∀ i ∈ p, i.IsWellFormed := by
    intro i hi
    obtain rfl := List.mem_singleton.mp hi
    exact Nat.le_sub_of_add_le (Nat.le_of_lt hlimit)
  have hwords : (Instr.apply o : Instr Float).words =
      ["add".toList, '1' :: List.replicate Number.mostDigits '0'] := by
    have hv : o.operator.isVariadic = true := rfl
    rw [Instr.words, if_pos hv, harity, toDigits_ten_pow]
    rfl
  have hline : Text.Spaced (Instr.apply o).words line := by
    have hintercalate := Text.Spaced.intercalate (hp _ (List.mem_singleton_self _)).isWord
    rwa [hwords, List.intercalate_cons_cons, List.intercalate_singleton, ← hwords] at hintercalate
  refine ⟨hp, by simp [p, literals], hline, text_of_not_isBounded ⟨_, List.mem_singleton_self _, ?_⟩, ?_⟩
  · exact Nat.not_lt.mpr harity.ge
  · have hrow : Literal.isDigitRow ('1' :: List.replicate Number.mostDigits '0') = true :=
      toDigits_ten_pow Number.mostDigits ▸ isDigitRow_toDigits _
    have hfault : Instr.ofFields (Instr.words (.apply o)) = .error (.reading (Number.mostDigits + 1)) :=
      Instr.ofFields_eq_error_iff.mpr ⟨.add, _, rfl, hwords, hrow, by simp, by simp⟩
    rw [Loaded.load, Loaded.loadFrom_line hline.newline_not_mem, List.reverse_nil, List.nil_append,
      Loaded.entry_spaced hline (Instr.words_ne_nil _), hfault]
    rfl

/-- A third is read with ten digits. Negative infinity ends the loading at its line. -/
theorem load_spread_third :
    let p (x : Float) : Program Float := [.declare "x", .push x, .fetch "x", .apply (.binary .add)]
    let own (x : Float) := ((Program.text ((p x).drop 1)).toOption.getD "").toList
    let text (x : Float) := "\n\tsym  x\r\n".toList ++ own x ++ " \x0c".toList
    let third := Double.nearest false 1 3
    let infinity := Double.infinity true
    (Loaded.load (text third)).toProgram = .ok (p (Double.nearest false 3333333333 (Nat.pow 10 10))) ∧
      reread (p third) ≠ p third ∧
      ∃ text₁ line text₂ : List Char, text infinity = text₁ ++ line ++ '\n' :: text₂ ∧
        (Instr.push infinity).IsLine line ∧ (Loaded.load (text infinity)).instrs = [.declare "x"] ∧
        (Loaded.load (text infinity)).toProgram = .error (.malformed (String.ofList line) (1 + text₁.count '\n')) := by
  intro p own text third infinity
  have hp : ∀ x, ∀ i ∈ p x, i.IsWellFormed := by
    have hx : IsName "x" := by decide
    intro x
    simpa [p] using ⟨hx, trivial, hx, Nat.le_refl 1⟩
  have hsym : (Instr.declare "x").IsLine ("\t".toList ++ "sym".toList ++ ("  ".toList ++ "x".toList ++ "\r".toList)) :=
    ⟨"sym x", _, rfl, (hp third (.declare "x") (by simp [p])).spaced rfl,
      .cons (by decide) (by decide) rfl (.cons (by decide) (by decide) rfl (.nil (by decide)))⟩
  have hempty : Text.IsGap [] := by decide
  have hgap : Text.IsGap " \x0c".toList := by decide
  have hspread : ∀ x, (p x).Spread ("\n\tsym  x\r\n".toList ++ own x) := by
    intro x
    have hbounded : ∀ i ∈ (p x).drop 1, i.IsBounded := by
      simpa [p, Instr.IsBounded, Operation.arity, Operation.binary] using Number.two_lt_pow_mostDigits
    obtain ⟨rest, hrest⟩ := exists_text hbounded
    have hown : own x = rest.toList := by simp only [own, hrest, Except.toOption, Option.getD_some]
    rw [hown]
    exact .blank hempty (.cons hsym (spread_text (fun i hi => hp x i (List.mem_cons_of_mem _ hi)) hrest))
  obtain ⟨-, -, hload⟩ := load_spread (hp third)
  obtain ⟨hfinite, -⟩ := hload (hspread third) hgap
  obtain ⟨-, -, hload⟩ := load_spread (hp infinity)
  obtain ⟨-, hinfinite⟩ := hload (hspread infinity) hgap
  obtain ⟨hload, -, hself, -⟩ := hfinite (by decide +kernel)
  obtain ⟨before, x, after, text₁, line, text₂, hcut, -, -, htext, -, hline, hinstrs, herror⟩ :=
    hinfinite (by decide +kernel)
  have hthird : reread (p third) = p (Double.nearest false 3333333333 (Nat.pow 10 10)) := by decide +kernel
  obtain ⟨rfl, rfl, -⟩ : before = [.declare "x"] ∧ x = infinity ∧ after = (p infinity).drop 2 := by
    simpa [p, List.cons_eq_append_iff, List.nil_eq_append_iff] using hcut
  refine ⟨hthird ▸ hload, fun h => absurd (hself.mp h) (by decide +kernel), text₁, line, text₂ ++ " \x0c".toList, ?_,
    hline, hinstrs, herror⟩
  rw [← List.cons_append, ← List.append_assoc, ← htext]

end Program

end StackCalc
