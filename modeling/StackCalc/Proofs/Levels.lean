import StackCalc.Pipeline
import StackCalc.Proofs.Depth
import StackCalc.Proofs.Extremes
import StackCalc.Proofs.Homomorphism
import StackCalc.Proofs.Scanning
import StackCalc.Proofs.WellFormed

/-!
Levels of optimization, seen through the text of programs. The text of a program rounds its literals, so the text that
is not optimized computes with rounded literals, while the optimizer folds the literals as they are. Without sums and
products, which are rounded differently when they are regrouped, this is the only difference between the levels: they
agree if every literal that is left, rounded, is what the rounded literals fold to. This is so if every numeral is
representable. It is not so if two numerals are lost in rounding and their quotient is not.
-/

namespace StackCalc

/-! ### The program of an expression -/

namespace Expr

/-- The expression with its numbers as their literals read. -/
def reread : Expr Float → Expr Float
  | symbol name => symbol name
  | number value => number (Literal.reread value)
  | binary op left right => binary op left.reread right.reread

theorem occurrences_reread (e : Expr Float) : e.reread.occurrences = e.occurrences := by
  induction e with
  | symbol name => rfl
  | number value => rfl
  | binary op left right ihl ihr => rw [reread, occurrences, ihl, ihr, occurrences]

theorem body_reread (e : Expr Float) : e.reread.body = e.body.map Instr.reread := by
  induction e with
  | symbol name => rfl
  | number value => rfl
  | binary op left right ihl ihr =>
    rw [reread, body, ihl, ihr, body, List.map_append, List.map_append]
    rfl

theorem program_reread (e : Expr Float) : e.reread.program = e.program.reread := by
  rw [program, names, occurrences_reread, body_reread, program, Program.reread, List.map_append, List.map_map]
  rfl

/-- A property of instructions holds of the program if it holds of all instructions on the lexemes. -/
theorem Over.forall_program {e : Expr Float} {L : Lexeme → Prop} (h : e.Over L) {I : Instr Float → Prop}
    (hnames : ∀ name, L (.symbol name) → I (.declare name) ∧ I (.fetch name))
    (hnumbers : ∀ n, L (.number n) → I (.push n.decimal.toFloat))
    (hops : ∀ op, L (.operator op) → I (.apply (.binary op))) : ∀ i ∈ e.program, I i := by
  intro i hi
  rcases List.mem_append.mp hi with hi | hi
  · obtain ⟨name, hname, rfl⟩ := List.mem_map.mp hi
    exact (hnames name (h.of_mem_occurrences (mem_names.mp hname))).1
  · rcases h.mem_body hi with ⟨name, rfl, hname⟩ | ⟨n, rfl, hn⟩ | ⟨op, rfl, hop⟩
    · exact (hnames name hname).2
    · exact hnumbers n hn
    · exact hops op hop

theorem Over.uses {e : Expr Float} {L : Lexeme → Prop} (h : e.Over L) {P : Operator → Prop}
    (hops : ∀ op, L (.operator op) → P op) : e.program.Uses P := by
  intro o ho
  refine h.forall_program (I := fun i => ∀ o, i = .apply o → P o.operator) ?_ ?_ ?_ _ ho o rfl
  · exact fun name _ => ⟨nofun, nofun⟩
  · exact fun n _ => nofun
  · rintro op hop _ ⟨⟩
    exact hops op hop

theorem error_of_run_program {arithmetic : Arithmetic Float} {resolve : Resolver Float} {e : Expr Float}
    {error : RunError} (h : (e.program.run arithmetic resolve).result = .error error) :
    ∃ name, error = .unbound name := by
  rcases all_bound_or_first_unbound resolve e.names with hbound | ⟨before, name, after, hnames, hbefore, hname⟩
  · obtain ⟨x, -, hrun⟩ := run_program_of_bound arithmetic hbound
    rw [hrun] at h
    cases h
  · rw [run_program_of_unbound arithmetic hnames hbefore hname] at h
    exact ⟨name, (Except.error.inj h).symm⟩

end Expr

/-! ### Runs that fail alike -/

/-- Runs that fail alike have the same result, if one of them fails for names only. -/
theorem Run.Similar.result_eq {β : Type} {r s : Run RunError β} (h : Similar RunError.Alike Eq r s)
    (hs : ∀ error, s.result = .error error → ∃ name, error = .unbound name) : r.result = s.result := by
  obtain ⟨asked, e | x⟩ := r <;> obtain ⟨asked', f | y⟩ := s <;> obtain ⟨-, h⟩ := h
  · obtain ⟨name, rfl⟩ := hs f rfl
    cases e with
    | unbound other =>
      obtain rfl : other = name := h
      rfl
    | underflow operation size => exact h.elim
    | leftover size => exact h.elim
  · exact h.elim
  · exact h.elim
  · exact congrArg Except.ok h

/-! ### Rounding before optimizing and after it -/

namespace Program

/-- The program, each literal with what it reads as. -/
def both (p : Program Float) : Program (Float × Float) :=
  p.map (Instr.map fun x => (x, Literal.reread x))

theorem map_fst_both (p : Program Float) : p.both.map (Instr.map Prod.fst) = p := by
  rw [both, List.map_map]
  refine (List.map_congr_left fun i _ => ?_).trans (List.map_id p)
  cases i <;> rfl

theorem map_snd_both (p : Program Float) : p.both.map (Instr.map Prod.snd) = p.reread := by
  rw [both, List.map_map]
  refine List.map_congr_left fun i _ => ?_
  cases i <;> rfl

/-- The optimized program, each literal with what takes its place if the literals of the program are rounded first and
    the same literals are folded. -/
def optimizeBoth (level : Level) (p : Program Float) : Program (Float × Float) :=
  (p.both.optimize (Double.arithmetic.prod Double.arithmetic) (fun v => Literal.isRepresentable v.1) level).program

theorem map_fst_optimizeBoth (level : Level) (p : Program Float) :
    (p.optimizeBoth level).map (Instr.map Prod.fst) =
      (p.optimize Double.arithmetic Literal.isRepresentable level).program := by
  rw [optimizeBoth, ← optimize_map (Arithmetic.hom_fst _ _) fun _ => rfl, map_fst_both]

theorem Uses.map {α β : Type} {P : Operator → Prop} {p : Program α} (hp : p.Uses P) (f : α → β) :
    Program.Uses P (p.map (Instr.map f)) := by
  intro o ho
  obtain ⟨i, hi, heq⟩ := List.mem_map.mp ho
  cases i with
  | apply o' =>
    cases heq
    exact hp _ hi
  | _ => cases heq

/-- Folding rounded literals where the optimizer folds the literals themselves does what the rounded program does. -/
theorem run_map_snd_optimizeBoth (level : Level) {p : Program Float} (hp : p.Uses fun op => op ≠ .add ∧ op ≠ .mul)
    (resolve : Resolver Float) :
    Run.Similar RunError.Alike Eq
      (Program.run Double.arithmetic resolve ((p.optimizeBoth level).map (Instr.map Prod.snd)))
      (p.reread.run Double.arithmetic resolve) := by
  have hassoc : ∀ op : Operator, op ≠ .add ∧ op ≠ .mul → op.isFusible = true →
      Std.Associative (Double.arithmetic.prod Double.arithmetic op) := by
    intro op hop hf
    have hdouble : Std.Associative (Double.arithmetic op) := Double.associative_of_ne rfl rfl hop hf
    exact Arithmetic.associative_prod hdouble hdouble
  -- The values of names are the same on both sides.
  let resolveBoth : Resolver (Float × Float) := fun name => (resolve name).map fun x => (x, x)
  have hresolve : (fun name => (resolveBoth name).map Prod.snd) = resolve := by
    funext name
    cases h : resolve name <;> simp [resolveBoth, h]
  have halike : Run.Similar RunError.Alike Eq
      ((p.optimizeBoth level).run (Double.arithmetic.prod Double.arithmetic) resolveBoth)
      (p.both.run (Double.arithmetic.prod Double.arithmetic) resolveBoth) :=
    (alike_optimize hassoc (hp.map _) level).run
  have hsnd := halike.map Prod.snd
  rwa [← run_map (Arithmetic.hom_snd _ _), ← run_map (Arithmetic.hom_snd _ _), hresolve, map_snd_both] at hsnd

/-- Rounding before optimizing or after it makes no difference to the literals of the optimized program. -/
def FoldsAlike (level : Level) (p : Program Float) : Prop :=
  ∀ v ∈ (p.optimizeBoth level).literals, v.2 = Literal.reread v.1

instance (level : Level) (p : Program Float) : Decidable (p.FoldsAlike level) :=
  inferInstanceAs (Decidable (∀ v ∈ (p.optimizeBoth level).literals, v.2 = Literal.reread v.1))

theorem FoldsAlike.reread_optimize {level : Level} {p : Program Float} (h : p.FoldsAlike level) :
    (p.optimize Double.arithmetic Literal.isRepresentable level).program.reread =
      (p.optimizeBoth level).map (Instr.map Prod.snd) := by
  rw [← map_fst_optimizeBoth, reread, List.map_map]
  refine List.map_congr_left fun i hi => ?_
  cases i with
  | push v => exact congrArg Instr.push (h v (mem_literals.mpr hi)).symm
  | _ => rfl

/-- If all literals read as themselves, so do those of the optimized program, and there is nothing to round. -/
theorem foldsAlike_of_reread {p : Program Float} (hp : ∀ i ∈ p, i.IsWritable ∧ i.reread = i) (level : Level) :
    p.FoldsAlike level := by
  have hboth : p.both = p.map (Instr.map fun x => (x, x)) := by
    refine List.map_congr_left fun i hi => ?_
    cases i with
    | push x => exact congrArg (fun y => Instr.push (x, y)) (Instr.push.inj (hp _ hi).2)
    | _ => rfl
  have hhom : Arithmetic.Hom (fun x => (x, x)) Double.arithmetic (Double.arithmetic.prod Double.arithmetic) :=
    fun _ _ _ => rfl
  have hoptimized : p.optimizeBoth level =
      (p.optimize Double.arithmetic Literal.isRepresentable level).program.map (Instr.map fun x => (x, x)) := by
    rw [optimizeBoth, hboth]
    exact optimize_map hhom (fun _ => rfl) level p
  intro v hv
  have hpush := mem_literals.mp hv
  rw [hoptimized] at hpush
  obtain ⟨i, hi, heq⟩ := List.mem_map.mp hpush
  cases i with
  | push x =>
    obtain rfl : (x, x) = v := Instr.push.inj heq
    exact (Instr.push.inj (forall_optimize Instr.stable_reread hp level _ hi).2).symm
  | _ => cases heq

end Program

/-! ### Texts of both levels -/

/-- The value of the text of a program, or the report on why it has none. -/
def ProgramText.answer (b : Bindings) (text : String) : Except Report Float :=
  (evaluate b.resolver text.toList).result.mapError TextError.message

theorem ProgramText.answer_text (b : Bindings) {p : Program Float} (h : p.IsWritable) {text : String}
    (htext : p.text = .ok text) :
    answer b text = (p.reread.run Double.arithmetic b.resolver).result.mapError RunError.message := by
  have hrun := Loaded.runFrom_of_toProgram Double.arithmetic b.resolver (Program.toProgram_load_text h htext) {}
  have hresult : (evaluate b.resolver text.toList).result =
      (p.reread.run Double.arithmetic b.resolver).result.mapError .run := by
    unfold evaluate Loaded.run
    rw [hrun, Program.run]
    cases (Machine.run Double.arithmetic b.resolver {} p.reread).result <;> rfl
  rw [answer, hresult]
  cases (p.reread.run Double.arithmetic b.resolver).result <;> rfl

namespace Source

theorem parse_of_compile {level : Level} {source : List Char} {p : Program Float}
    (h : (compile level source).result = .ok p) :
    ∃ located, parse source = .ok located ∧
      p = (located.expr.program.optimize Double.arithmetic Literal.isRepresentable level).program := by
  unfold compile at h
  cases hparse : parse source with
  | error error =>
    rw [hparse] at h
    cases h
  | ok located =>
    rw [hparse] at h
    exact ⟨located, rfl, (Except.ok.inj h).symm⟩

theorem compileText_of_parse (level : Level) {source : List Char} {located : Located}
    (h : parse source = .ok located) :
    (compileText level .text source).result =
      (located.expr.program.optimize Double.arithmetic Literal.isRepresentable level).program.text.mapError
        .digits := by
  simp only [compileText, compile, h]

/-- The expression of a source is made of the lexemes of its tokens. -/
theorem over_of_parse {source : List Char} {w : List Token} {located : Located}
    (hscan : (Tokens.scan source).toList = .ok w) (hparse : parse source = .ok located) :
    located.expr.Over fun a => ∃ t ∈ w, t.lexeme = a := by
  obtain ⟨v, hv, hderives⟩ := Grammar.parse_iff.mp ⟨located.line, hparse⟩
  rw [hscan] at hv
  cases hv
  exact hderives.over fun a ha => List.mem_map.mp ha

end Source

/-- The text of an expression's program has the value of the optimized program with what takes the place of its
    literals. -/
theorem Expr.answer_text_program (b : Bindings) (level : Level) {e : Expr Float} (hwritable : e.program.IsWritable)
    (huses : e.program.Uses fun op => op ≠ .add ∧ op ≠ .mul) {text : String} (htext : e.program.text = .ok text) :
    ProgramText.answer b text =
      (Program.run Double.arithmetic b.resolver
        ((e.program.optimizeBoth level).map (Instr.map Prod.snd))).result.mapError RunError.message := by
  have hsimilar := Program.run_map_snd_optimizeBoth level huses b.resolver
  rw [ProgramText.answer_text b hwritable htext, ← hsimilar.result_eq]
  rw [← program_reread]
  intro error herror
  exact error_of_run_program herror

/-- An operation of an optimized program has at most as many operands as the program of the expression has
    instructions. -/
theorem Expr.arity_le_length_program {e : Expr Float} (level : Level)
    (huses : e.program.Uses fun op => op ≠ .add ∧ op ≠ .mul) {o : Operation}
    (ho : .apply o ∈ (e.program.optimize Double.arithmetic Literal.isRepresentable level).program) :
    o.arity ≤ e.program.length := by
  let resolve : Resolver Float := fun _ => some 0
  have hbound : ∀ name ∈ e.names, (resolve name).isSome := fun _ _ => rfl
  obtain ⟨x, -, hrun⟩ := run_program_of_bound Double.arithmetic hbound
  have hassoc : ∀ op : Operator, op ≠ .add ∧ op ≠ .mul → op.isFusible = true →
      Std.Associative (Double.arithmetic op) := fun op hop hf => Double.associative_of_ne rfl rfl hop hf
  have halike : Program.Alike Double.arithmetic resolve
      (e.program.optimize Double.arithmetic Literal.isRepresentable level).program e.program :=
    Program.alike_optimize hassoc huses level
  have hsimilar := halike.run
  rw [hrun] at hsimilar
  -- The program has a value when all names have one, so the optimized program has.
  obtain ⟨y, hy⟩ : ∃ y, (Program.run Double.arithmetic resolve
      (e.program.optimize Double.arithmetic Literal.isRepresentable level).program).result = .ok y := by
    obtain ⟨-, hresult⟩ := hsimilar
    cases hoptimized : (Program.run Double.arithmetic resolve
        (e.program.optimize Double.arithmetic Literal.isRepresentable level).program).result with
    | ok y => exact ⟨y, rfl⟩
    | error error =>
      rw [hoptimized] at hresult
      exact hresult.elim
  exact (Program.arity_le_length Double.arithmetic hy ho).trans (Program.thins_optimize level _).length_le

def Lexeme.value? : Lexeme → Option Float
  | number n => some n.decimal.toFloat
  | _ => none

namespace Source

section Program

variable {source : List Char} {w : List Token} {located : Located} (hscan : (Tokens.scan source).toList = .ok w)
  (hparse : parse source = .ok located)
include hscan hparse

theorem isWritable_program (hfinite : ∀ t ∈ w, t.lexeme.value?.all Literal.isFinite = true) :
    located.expr.program.IsWritable := by
  refine (over_of_parse hscan hparse).forall_program ?_ ?_ fun _ _ => Nat.le_refl 1
  · rintro name ⟨t, ht, hname⟩
    have hproper := Scan.isProper_scan hscan t ht
    rw [hname] at hproper
    exact ⟨hproper, hproper⟩
  · rintro n ⟨t, ht, hn⟩
    have hvalue := hfinite t ht
    rwa [hn] at hvalue

theorem isBounded_program : ∀ i ∈ located.expr.program, i.IsBounded :=
  (over_of_parse hscan hparse).forall_program (fun _ _ => ⟨trivial, trivial⟩) (fun _ _ => trivial)
    fun _ _ => Number.two_lt_pow_mostDigits

theorem uses_program (hops : ∀ t ∈ w, t.lexeme ≠ .operator .add ∧ t.lexeme ≠ .operator .mul) :
    located.expr.program.Uses fun op => op ≠ .add ∧ op ≠ .mul := by
  refine (over_of_parse hscan hparse).uses ?_
  rintro op ⟨t, ht, hop⟩
  exact ⟨fun h => (hops t ht).1 (h ▸ hop), fun h => (hops t ht).2 (h ▸ hop)⟩

theorem foldsAlike_program (hrepresentable : ∀ t ∈ w, t.lexeme.value?.all Literal.isRepresentable = true)
    (level : Level) : located.expr.program.FoldsAlike level := by
  have hwritable : located.expr.program.IsWritable := by
    refine isWritable_program hscan hparse fun t ht => ?_
    have hvalue := hrepresentable t ht
    rw [Option.all_eq_true] at hvalue ⊢
    exact fun x hx => Literal.isFinite_of_isRepresentable (hvalue x hx)
  have hreread : ∀ i ∈ located.expr.program, i.reread = i := by
    refine (over_of_parse hscan hparse).forall_program (fun _ _ => ⟨rfl, rfl⟩) ?_ fun _ _ => rfl
    rintro n ⟨t, ht, hn⟩
    have hvalue := hrepresentable t ht
    rw [hn] at hvalue
    exact congrArg Instr.push (Literal.reread_of_isRepresentable hvalue)
  exact Program.foldsAlike_of_reread (fun i hi => ⟨hwritable i hi, hreread i hi⟩) level

end Program

/-- A source without sums and products whose numerals are finite has the same value at every level, if rounding its
    numerals first makes no difference to the literals of its optimized program. This is so if its numerals are
    representable. If the optimized program is a single literal, the values agree in no other case. Only a program of
    more instructions than an integer can count may have no text when it is optimized. -/
theorem answer_compileText {source : List Char} {w : List Token} {p : Program Float} (level : Level)
    (hscan : (Tokens.scan source).toList = .ok w) (hcompile : (compile (.number 0) source).result = .ok p)
    (hops : ∀ t ∈ w, t.lexeme ≠ .operator .add ∧ t.lexeme ≠ .operator .mul)
    (hfinite : ∀ t ∈ w, t.lexeme.value?.all Literal.isFinite = true) :
    ((∀ t ∈ w, t.lexeme.value?.all Literal.isRepresentable = true) → p.FoldsAlike level) ∧
      ∃ text₀, (compileText (.number 0) .text source).result = .ok text₀ ∧
        (p.length < 10 ^ Number.mostDigits →
          ∃ text, (compileText level .text source).result = .ok text ∧
            (p.FoldsAlike level → ∀ b, ProgramText.answer b text = ProgramText.answer b text₀) ∧
            ∀ v, p.optimizeBoth level = [.push v] →
              ∀ b, ProgramText.answer b text = ProgramText.answer b text₀ → p.FoldsAlike level) := by
  obtain ⟨located, hparse, rfl⟩ := parse_of_compile hcompile
  rw [Program.optimize, if_pos rfl]
  have hwritable := isWritable_program hscan hparse hfinite
  have huses := uses_program hscan hparse hops
  obtain ⟨text₀, htext₀⟩ := Program.exists_text (isBounded_program hscan hparse)
  refine ⟨fun h => foldsAlike_program hscan hparse h level, text₀, ?_, fun hlength => ?_⟩
  · rw [compileText_of_parse _ hparse, Program.optimize, if_pos rfl, htext₀]
    rfl
  have hbounded : ∀ o, .apply o ∈
      (located.expr.program.optimize Double.arithmetic Literal.isRepresentable level).program →
      o.arity < 10 ^ Number.mostDigits :=
    fun o ho => (Expr.arity_le_length_program level huses ho).trans_lt hlength
  obtain ⟨text, htext⟩ := Program.exists_text (Program.forall_isBounded_iff.mpr hbounded)
  have hoptimized :
      (located.expr.program.optimize Double.arithmetic Literal.isRepresentable level).program.IsWritable :=
    Program.forall_optimize Instr.stable_isWritable hwritable level
  refine ⟨text, by rw [compileText_of_parse level hparse, htext]; rfl, ?_, ?_⟩
  · intro hfolds b
    rw [ProgramText.answer_text b hoptimized htext, hfolds.reread_optimize,
      Expr.answer_text_program b level hwritable huses htext₀]
  · intro v hv b hanswer
    rw [ProgramText.answer_text b hoptimized htext, Expr.answer_text_program b level hwritable huses htext₀,
      ← Program.map_fst_optimizeBoth, hv] at hanswer
    have hvalue : Literal.reread v.1 = v.2 := Except.ok.inj hanswer
    intro u hu
    rw [hv] at hu
    obtain rfl : u = v := List.mem_singleton.mp hu
    exact hvalue.symm

end Source

/-- A quotient and a run of two literals are folded. The divisor that is lost in rounding is not, so it is lost at both
    levels. -/
theorem Source.answer_compileText_lost_divisor :
    let source := "x max (6 / 3) max 1 / 0.00000000001".toList
    let text₀ := "sym x\npushsym x\npush 6\npush 3\ndiv 2\nmax 2\npush 1\nmax 2\npush 0\ndiv 2\n"
    let text₁ := "sym x\npushsym x\npush 2\nmax 2\npush 0\ndiv 2\n"
    (compileText (.number 0) .text source).result = .ok text₀ ∧
      (compileText (.number 1) .text source).result = .ok text₁ ∧
      ∀ b, ProgramText.answer b text₁ = ProgramText.answer b text₀ := by
  intro source text₀ text₁
  have h₀ : (compileText (.number 0) .text source).result = .ok text₀ := eq_ok_of_toOption (by decide +kernel)
  have h₁ : (compileText (.number 1) .text source).result = .ok text₁ := eq_ok_of_toOption (by decide +kernel)
  refine ⟨h₀, h₁, ?_⟩
  let w := (Tokens.scan source).toList.toOption.getD []
  let p := (compile (.number 0) source).result.toOption.getD []
  have hscan : (Tokens.scan source).toList = .ok w := eq_ok_of_toOption (by decide +kernel)
  have hcompile : (compile (.number 0) source).result = .ok p := eq_ok_of_toOption (by decide +kernel)
  have hfolds : p.FoldsAlike (.number 1) := by decide +kernel
  obtain ⟨-, _, h₀', hlevel⟩ :=
    answer_compileText (.number 1) hscan hcompile (by decide +kernel) (by decide +kernel)
  have hlength : p.length < Number.mostDigits := by decide +kernel
  obtain ⟨_, h₁', hanswer, -⟩ := hlevel (hlength.trans (Nat.lt_pow_self (by decide)))
  cases h₀.symm.trans h₀'
  cases h₁.symm.trans h₁'
  exact hanswer hfolds

/-- A quotient of two numerals that are lost in rounding is one if it is folded, and no number if it is not. -/
theorem Source.answer_compileText_lost_quotient :
    let source := "0.00000000001/0.00000000001".toList
    let text₀ := "push 0\npush 0\ndiv 2\n"
    let text₁ := "push 1\n"
    (∃ w, (Tokens.scan source).toList = .ok w ∧
        ∀ t ∈ w, t.lexeme ≠ .operator .add ∧ t.lexeme ≠ .operator .mul) ∧
      (compileText (.number 0) .text source).result = .ok text₀ ∧
      (compileText (.number 1) .text source).result = .ok text₁ ∧
      ProgramText.answer [] text₀ = .ok Double.notANumber ∧ ProgramText.answer [] text₁ = .ok 1 ∧
      (1 : Float).isNaN = false := by
  intro source text₀ text₁
  refine ⟨⟨(Tokens.scan source).toList.toOption.getD [], ?_, ?_⟩, ?_, ?_, ?_, ?_, ?_⟩
  · exact eq_ok_of_toOption (by decide +kernel)
  · decide +kernel
  · exact eq_ok_of_toOption (by decide +kernel)
  · exact eq_ok_of_toOption (by decide +kernel)
  · exact eq_ok_of_toOption (by decide +kernel)
  · exact eq_ok_of_toOption (by decide +kernel)
  · decide +kernel

end StackCalc
