import StackCalc.Command.Compile
import StackCalc.Command.Directory
import StackCalc.Command.Evaluate
import StackCalc.Proofs.Omission

/-!
What commands leave behind. A command that fails has said nothing on standard output and has changed no file, since it
says and writes what it has made only after all went well. Output to a file is what the same command without the output
path says, and no other file is touched.
-/

namespace StackCalc.Command

variable {κ : Type} [DecidableEq κ] {custom : Custom}

/-! ### Files -/

namespace Files

variable {f f' : Files κ} {path text : String}

theorem lookup_put (place : κ) (text : String) (texts : List (κ × String)) (other : κ) :
    (put place text texts).lookup other = if other = place then some text else texts.lookup other := by
  induction texts with
  | nil =>
    by_cases h : other = place
    · simp [put, h]
    · simp [put, List.lookup_cons, beq_eq_false_iff_ne.mpr h, h]
  | cons file rest ih =>
    obtain ⟨first, old⟩ := file
    simp only [put]
    by_cases hfirst : first = place
    · subst hfirst
      rw [if_pos rfl]
      by_cases h : other = first
      · simp [h]
      · simp [List.lookup_cons, beq_eq_false_iff_ne.mpr h, h]
    · rw [if_neg hfirst]
      by_cases h : other = first
      · subst h
        simp [hfirst]
      · simp [List.lookup_cons, beq_eq_false_iff_ne.mpr h, ih]

theorem write_eq_ok_iff : f.write path text = .ok f' ↔
    ∃ place, f.lead path = .ok place ∧ f.fault? .writing path place = none ∧
      f' = { f with texts := put place text f.texts } := by
  constructor
  · intro h
    obtain ⟨place, hlead, h⟩ := bind_eq_ok h
    split at h
    · cases h
    · rename_i hfault
      cases h
      exact ⟨place, hlead, hfault, rfl⟩
  · rintro ⟨place, hlead, hfault, rfl⟩
    simp [write, hlead, hfault, ok_bind]

theorem read_eq_ok {place : κ} (hlead : f.lead path = .ok place) (hfault : f.fault? .reading path place = none)
    (hlookup : f.texts.lookup place = some text) : f.read path = .ok text := by
  simp [read, hlead, hfault, hlookup, ok_bind]

end Files

/-- Files `f'` that are `f` but for a text at one place, to which a path leads. -/
structure Written (f f' : Files κ) (path : String) (place : κ) (text : String) : Prop where
  leads : f.lead path = .ok place
  holds : f'.texts.lookup place = some text
  others : ∀ other, other ≠ place → f'.texts.lookup other = f.texts.lookup other
  lead : f'.lead = f.lead
  fault : f'.fault? = f.fault?
  /-- Whoever may read the file finds the text in it. -/
  reads : f.fault? .reading path place = none → f'.read path = .ok text

theorem Files.written_of_write {f f' : Files κ} {path text : String}
    (h : f.write path text = .ok f') : ∃ place, Written f f' path place text := by
  obtain ⟨place, hlead, -, rfl⟩ := write_eq_ok_iff.mp h
  have holds : (put place text f.texts).lookup place = some text := by rw [lookup_put, if_pos rfl]
  refine ⟨place, hlead, holds, fun other hother => ?_, rfl, rfl, fun hfault => read_eq_ok hlead hfault holds⟩
  rw [lookup_put, if_neg hother]

/-! ### Outcomes -/

namespace Outcome

/-- A failing outcome has nothing on standard output and no file to be written, and one with a file to be written has
    nothing on standard output. -/
structure IsTidy (o : Outcome) : Prop where
  failing : o.ending ≠ .exit 0 → o.stdout = "" ∧ o.write = none
  writing : o.write ≠ none → o.stdout = ""

theorem isTidy_of_silent {o : Outcome} (hstdout : o.stdout = "") (hwrite : o.write = none) : o.IsTidy :=
  ⟨fun _ => ⟨hstdout, hwrite⟩, fun _ => hstdout⟩

theorem isTidy_failure (log : String) (report : Report) : (failure log report).IsTidy := by
  cases report <;> exact isTidy_of_silent rfl rfl

theorem write_failure (log : String) (report : Report) : (failure log report).write = none := by
  cases report <;> rfl

theorem ending_failure (log : String) (report : Report) : (failure log report).ending ≠ .exit 0 := by
  cases report <;> simp [failure]

theorem isTidy_misuse (command usage message : String) : (misuse command usage message).IsTidy :=
  isTidy_of_silent rfl rfl

theorem isTidy_unreadable (command : String) (error : PathError) : (unreadable command error).IsTidy := by
  cases error <;> exact isTidy_of_silent rfl rfl

theorem write_unreadable (command : String) (error : PathError) : (unreadable command error).write = none := by
  cases error <;> rfl

/-- What succeeds may either say something or write a file. -/
theorem isTidy_said (text log : String) : IsTidy { stdout := text, stderr := log } :=
  ⟨fun h => absurd rfl h, fun h => absurd rfl h⟩

theorem commit_of_none {o : Outcome} (h : o.write = none) (f : Files κ) :
    o.commit f = { ending := o.ending, stdout := o.stdout, stderr := o.stderr, files := f } := by
  simp only [commit, h]

@[simp]
theorem stdout_commit (o : Outcome) (f : Files κ) : (o.commit f).stdout = o.stdout := by
  unfold commit
  split
  · rfl
  · split <;> rfl

/-- A tidy outcome that fails, or that cannot be carried out, leaves nothing behind. -/
theorem IsTidy.commit {o : Outcome} (h : o.IsTidy) {f : Files κ} (hfails : (o.commit f).ending ≠ .exit 0) :
    (o.commit f).stdout = "" ∧ (o.commit f).files = f := by
  cases hwrite : o.write with
  | none =>
    rw [commit_of_none hwrite] at hfails ⊢
    exact ⟨(h.failing hfails).1, rfl⟩
  | some file =>
    obtain ⟨path, text⟩ := file
    have hending : o.ending = .exit 0 := by
      refine Decidable.byContradiction fun hne => ?_
      rw [(h.failing hne).2] at hwrite
      cases hwrite
    refine ⟨by rw [stdout_commit]; exact h.writing (by simp [hwrite]), ?_⟩
    simp only [Outcome.commit, hwrite] at hfails ⊢
    split
    · rename_i hwritten
      simp only [hwritten, hending] at hfails
      exact absurd rfl hfails
    · rfl

theorem exists_written_of_commit {o : Outcome} {f : Files κ} {path text : String} (hwrite : o.write = some (path, text))
    (hends : (o.commit f).ending = .exit 0) : ∃ place, Written f (o.commit f).files path place text := by
  simp only [commit, hwrite] at hends ⊢
  split at hends
  · rename_i f' hf'
    exact Files.written_of_write hf'
  · cases hends

end Outcome

/-! ### The command `rpnc` -/

namespace Compile

/-- Whether a switch is the one that gives the output path. -/
def isOutput (s : Switch Choice) : Bool :=
  s.id == .output

/-- Words without the output switch, and without its value. -/
def withoutOutput (custom : Custom) (words : List String) : List String :=
  omitting custom switches isOutput words

/-- No switch but the output switch looks at the output path. -/
theorem take_withoutOutput {s s' : Settings} {switch : Switch Choice} {value : Option String}
    (hkept : switch.id ≠ .output) (h : take s switch value = .ok s') :
    take { s with output := none } switch value = .ok { s' with output := none } := by
  unfold take at h ⊢
  cases hid : switch.id with
  | output => exact absurd hid hkept
  | help => simp [hid] at h
  | level =>
    simp only [hid] at h ⊢
    split at h
    · cases h
      rfl
    · split at h
      · cases h
      · split at h
        · rename_i hn
          cases h
          rw [if_pos hn]
        · cases h
  | optimize =>
    simp only [hid] at h
    cases h
    rfl
  | mode mode =>
    simp only [hid] at h ⊢
    split at h
    · rename_i other hother
      split at h
      · rename_i heq
        cases h
        simp [hother, heq]
      · cases h
    · cases h
      rfl
  | debug =>
    simp only [hid] at h
    cases h
    rfl

theorem omissible_output (custom : Custom) :
    Omissible custom switches take isOutput fun s => { s with output := none } where
  takesValue := by decide
  spelled := by
    simp only [switches, List.forall_mem_cons]
    exact ⟨fun _ => ⟨by decide, rfl⟩, by simp, by simp, fun _ => ⟨by decide, rfl⟩, fun _ => ⟨by decide, rfl⟩,
      fun _ => ⟨by decide, rfl⟩, fun _ => ⟨by decide, rfl⟩, fun _ => ⟨by decide, rfl⟩, by simp⟩
  forgets := by
    intro s s' switch value hdrop h
    simp only [take, beq_iff_eq.mp hdrop, Except.ok.injEq] at h
    rw [← h]
  keeps := fun hkept => take_withoutOutput (beq_eq_false_iff_ne.mp hkept)

/-- Without the output switch, arguments that are accepted give the same settings but for the output path. -/
theorem settings_withoutOutput {words : List String} {s : Settings} (h : settings custom words = .ok s) :
    settings custom (withoutOutput custom words) = .ok { s with output := none } := by
  obtain ⟨⟨s₀, operands⟩, hread, h⟩ := bind_eq_ok h
  cases h
  have hread' := readArguments_omitting (omissible_output custom) hread
  simp only [settings, withoutOutput]
  exact congrArg (· >>= _) hread'

example : withoutOutput .present ["in", "-Oto", "x", "--out=y", "-o--", "--", "-o"] =
    ["in", "-O", "-t", "--", "-o"] := by
  decide +kernel

theorem take_error {s : Settings} {switch : Switch Choice} {value : Option String} {o : Outcome}
    (h : take s switch value = .error o) : o = { stdout := help } ∨ ∃ error, o = misuse error := by
  unfold take at h
  split at h
  · cases h
    exact .inl rfl
  · cases h
  · split at h
    · cases h
    · split at h
      · cases h
        exact .inr ⟨_, rfl⟩
      · split at h <;> cases h
        exact .inr ⟨_, rfl⟩
  · cases h
  · split at h
    · split at h <;> cases h
      exact .inr ⟨_, rfl⟩
    · cases h
  · cases h

/-- Arguments that are not accepted end the command with its help or with a complaint about them. -/
theorem settings_error {words : List String} {o : Outcome} (h : settings custom words = .error o) :
    o = { stdout := help } ∨ ∃ error, o = misuse error := by
  rcases bind_eq_error h with h | ⟨_, -, h⟩
  · rcases readArguments_error h with hmisuse | ⟨s, switch, value, htake⟩
    · exact .inr hmisuse
    · exact take_error htake
  · cases h

theorem Settings.isTidy_outcome (s : Settings) (input : Except PathError String) : (s.outcome input).IsTidy := by
  unfold Settings.outcome
  split
  · exact Outcome.isTidy_unreadable _ _
  · simp only
    split
    · exact Outcome.isTidy_failure _ _
    · split
      · exact Outcome.isTidy_said _ _
      · exact Outcome.isTidy_said _ _
      · exact ⟨fun h => absurd rfl h, fun _ => rfl⟩

theorem Settings.write_outcome {s : Settings} (hs : s.output = none) (input : Except PathError String) :
    (s.outcome input).write = none := by
  unfold Settings.outcome
  split
  · exact Outcome.write_unreadable _ _
  · simp only [hs]
    split
    · exact Outcome.write_failure _ _
    · rfl

/-- An output path changes nothing about a failure, and about a success only where the text goes. -/
theorem Settings.outcome_of_output {s : Settings} {path : String} (hs : s.output = some path) (hpath : path ≠ "")
    (input : Except PathError String) :
    s.outcome input =
      let plain := Settings.outcome { s with output := none } input
      if plain.ending = .exit 0 then { plain with stdout := "", write := some (path, plain.stdout) } else plain := by
  unfold Settings.outcome
  cases input with
  | error error => cases error <;> rfl
  | ok text =>
    have hproduct : Settings.product { s with output := none } text.toList = s.product text.toList := rfl
    simp only [hproduct, hs]
    cases (s.product text.toList).result with
    | error report => exact (if_neg (Outcome.ending_failure _ report)).symm
    | ok product => rfl

/-- What the command does is to carry out a tidy outcome. -/
theorem run_eq_commit (words : List String) (stdin : String) (f : Files κ) :
    ∃ o : Outcome, o.IsTidy ∧ run custom words stdin f = o.commit f := by
  unfold run
  split
  · rename_i o hsettings
    refine ⟨o, ?_, rfl⟩
    rcases settings_error hsettings with rfl | ⟨error, rfl⟩
    · exact Outcome.isTidy_said _ _
    · exact Outcome.isTidy_misuse _ _ _
  · exact ⟨_, Settings.isTidy_outcome _ _, rfl⟩

theorem run_of_settings {words : List String} {s : Settings} (h : settings custom words = .ok s) (stdin : String)
    (f : Files κ) : run custom words stdin f = (s.outcome (s.input.read stdin f)).commit f := by
  simp only [run, h]

/-- A success that is no help comes from settings. -/
theorem exists_settings {words : List String} {stdin : String} {f : Files κ}
    (hends : (run custom words stdin f).ending = .exit 0) (hhelp : (run custom words stdin f).stdout ≠ help) :
    ∃ s, settings custom words = .ok s := by
  cases hsettings : settings custom words with
  | ok s => exact ⟨s, rfl⟩
  | error o =>
    simp only [run, hsettings] at hends hhelp
    rcases settings_error hsettings with rfl | ⟨error, rfl⟩
    · exact absurd rfl hhelp
    · cases hends

/-- A success with an output path writes there what it says without one. -/
theorem written_of_output {words : List String} {stdin : String} {f : Files κ} {s : Settings} {path : String}
    (hsettings : settings custom words = .ok s) (houtput : s.output = some path) (hpath : path ≠ "")
    (hends : (run custom words stdin f).ending = .exit 0) :
    (run custom words stdin f).stdout = "" ∧ (run custom (withoutOutput custom words) stdin f).ending = .exit 0 ∧
      ∃ place, Written f (run custom words stdin f).files path place
        (run custom (withoutOutput custom words) stdin f).stdout := by
  rw [run_of_settings hsettings] at hends ⊢
  rw [run_of_settings (settings_withoutOutput hsettings)]
  have houtcome := Settings.outcome_of_output houtput hpath (s.input.read stdin f)
  have hplain : (Settings.outcome { s with output := none } (s.input.read stdin f)).write = none :=
    Settings.write_outcome rfl _
  simp only at houtcome
  split at houtcome
  · rename_i hending
    rw [houtcome] at hends ⊢
    rw [Outcome.commit_of_none hplain]
    exact ⟨Outcome.stdout_commit _ _, hending, Outcome.exists_written_of_commit rfl hends⟩
  · -- A failure without the path is one with it.
    rename_i hending
    rw [houtcome, Outcome.commit_of_none hplain] at hends
    exact absurd hends hending

end Compile

/-! ### The command `rpn` -/

namespace Evaluate

theorem settings_error {words : List String} {o : Outcome} (h : settings custom words = .error o) :
    o = { stdout := help } ∨ ∃ error, o = misuse error := by
  rcases bind_eq_error h with h | ⟨_, -, h⟩
  · rcases readArguments_error h with hmisuse | ⟨s, switch, value, htake⟩
    · exact .inr hmisuse
    · unfold take at htake
      split at htake <;> cases htake
      exact .inl rfl
  · cases h

theorem Settings.isTidy_outcome (s : Settings) (input : Except PathError String) : (s.outcome input).IsTidy := by
  unfold Settings.outcome
  split
  · exact Outcome.isTidy_unreadable _ _
  · split
    · split
      · exact Outcome.isTidy_failure _ _
      · exact Outcome.isTidy_said _ _
    · simp only
      split
      · exact Outcome.isTidy_failure _ _
      · exact Outcome.isTidy_said _ _

theorem Settings.write_outcome (s : Settings) (input : Except PathError String) : (s.outcome input).write = none := by
  unfold Settings.outcome
  split
  · exact Outcome.write_unreadable _ _
  · split
    · split
      · exact Outcome.write_failure _ _
      · rfl
    · simp only
      split
      · exact Outcome.write_failure _ _
      · rfl

/-- What the command does is to carry out a tidy outcome without a file to be written. -/
theorem run_eq_commit (words : List String) (stdin : String) (f : Files κ) :
    ∃ o : Outcome, o.IsTidy ∧ o.write = none ∧ run custom words stdin f = o.commit f := by
  unfold run
  split
  · rename_i o hsettings
    refine ⟨o, ?_, ?_, rfl⟩ <;> rcases settings_error hsettings with rfl | ⟨error, rfl⟩
    · exact Outcome.isTidy_said _ _
    · exact Outcome.isTidy_misuse _ _ _
    · rfl
    · rfl
  · exact ⟨_, Settings.isTidy_outcome _ _, Settings.write_outcome _ _, rfl⟩

end Evaluate

/-! ### Both commands -/

/-- A failing command leaves nothing behind but its messages, `rpn` changes no file, and `rpnc` changes the file of its
    output path alone: it then holds what the same command without that path says. -/
theorem runs_leave_only_results (words : List String) (stdin : String) (f : Files κ) :
    ((Compile.run custom words stdin f).ending ≠ .exit 0 →
      (Compile.run custom words stdin f).stdout = "" ∧ (Compile.run custom words stdin f).files = f) ∧
    ((Evaluate.run custom words stdin f).ending ≠ .exit 0 → (Evaluate.run custom words stdin f).stdout = "") ∧
    (Evaluate.run custom words stdin f).files = f ∧
    ((Compile.run custom words stdin f).ending = .exit 0 → (Compile.run custom words stdin f).stdout ≠ Compile.help →
      ∃ s, Compile.settings custom words = .ok s ∧ ∀ path, s.output = some path → path ≠ "" →
        IsWithout custom Compile.switches Compile.isOutput (Compile.withoutOutput custom words) ∧
        Compile.settings custom (Compile.withoutOutput custom words) = .ok { s with output := none } ∧
        (Compile.run custom words stdin f).stdout = "" ∧
        (Compile.run custom (Compile.withoutOutput custom words) stdin f).ending = .exit 0 ∧
        ∃ place, Written f (Compile.run custom words stdin f).files path place
          (Compile.run custom (Compile.withoutOutput custom words) stdin f).stdout) := by
  refine ⟨?_, ?_, ?_, ?_⟩
  · obtain ⟨o, tidy, hrun⟩ := Compile.run_eq_commit words stdin f
    rw [hrun]
    exact tidy.commit
  · obtain ⟨o, tidy, -, hrun⟩ := Evaluate.run_eq_commit words stdin f
    rw [hrun]
    exact fun hfails => (tidy.commit hfails).1
  · obtain ⟨o, -, hwrite, hrun⟩ := Evaluate.run_eq_commit words stdin f
    rw [hrun, Outcome.commit_of_none hwrite]
  · intro hends hhelp
    obtain ⟨s, hsettings⟩ := Compile.exists_settings hends hhelp
    refine ⟨s, hsettings, fun path houtput hpath => ?_⟩
    exact ⟨(Compile.omissible_output custom).isWithout_omitting words, Compile.settings_withoutOutput hsettings,
      Compile.written_of_output hsettings houtput hpath hends⟩

-- The file that is read is the one that is written.
example :
    (Compile.run .present ["-to", "./in", "in"] "" (Directory.files [("in", "x"), ("on", "y")])).files.texts =
      [((.here, "in"), "Token(SYMBOL, 'x', line=1)\n"), ((.here, "on"), "y")] := by
  decide +kernel

-- A path may lead through directories, and a file may have the name of the marker.
example :
    let f : Files String := { lead := .ok, fault? := fun _ _ _ => none, texts := [("/src/in", "x")] }
    (Compile.run .present ["/src/in", "-to--"] "" f).files.texts =
      [("/src/in", "x"), ("--", "Token(SYMBOL, 'x', line=1)\n")] := by
  decide +kernel

end StackCalc.Command
