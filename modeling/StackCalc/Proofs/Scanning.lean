import StackCalc.Proofs.Compilation
import StackCalc.Proofs.Grammar
import StackCalc.Proofs.ProgramText
import StackCalc.Token.Scan

/-!
What comes of the tokens of a source. The scan gathers letters for names, so every name that it tells can be written in
a program. The tree of a phrase is made of the lexemes of the phrase, and the program of an expression of its names, its
numbers and its operators.
-/

namespace StackCalc

theorem map_eq_ok {ε β γ : Type} {r : Except ε β} {f : β → γ} {y : γ} (h : r.map f = .ok y) :
    ∃ x, r = .ok x ∧ f x = y := by
  cases r with
  | error error => cases h
  | ok x => exact ⟨x, rfl, Except.ok.inj h⟩

/-! ### Names of a source -/

namespace Scan

/-- A name consists of letters. -/
def IsProper : Lexeme → Prop
  | .symbol name => IsName name
  | _ => True

/-- A word under way consists of letters. -/
def State.IsProper (s : State) : Prop :=
  ∀ latest, s.underway = .word latest → latest ≠ [] ∧ ∀ c ∈ latest, c.isAlpha = true

theorem isProper_single {c : Char} {lexeme : Lexeme} (h : single? c = some lexeme) : IsProper lexeme := by
  unfold single? at h
  split at h <;> cases h <;> trivial

theorem isProper_ofWord {latest : List Char} (hne : latest ≠ []) (hletters : ∀ c ∈ latest, c.isAlpha = true) :
    IsProper (ofWord (gathered latest)) := by
  have hname : IsName (gathered latest) := by
    constructor
    · simpa [gathered] using hne
    · intro c hc
      exact hletters c (by simpa [gathered] using hc)
  unfold ofWord
  split
  · trivial
  · split
    · trivial
    · exact hname

/-- What a character tells is proper, and so is the state after it. -/
def Steps (r : List Token × Except ScanError State) : Prop :=
  (∀ t ∈ r.1, IsProper t.lexeme) ∧ ∀ s, r.2 = .ok s → s.IsProper

theorem steps_start (s : State) (c : Char) : Steps (s.start c) := by
  unfold State.start
  split
  · refine ⟨by simp, ?_⟩
    rintro _ ⟨⟩ latest ⟨⟩
  · split
    next lexeme hsingle =>
      refine ⟨?_, ?_⟩
      · intro t ht
        obtain rfl := List.mem_singleton.mp ht
        exact isProper_single hsingle
      · rintro _ ⟨⟩ latest ⟨⟩
    next =>
      split
      next hletter =>
        refine ⟨by simp, ?_⟩
        rintro _ ⟨⟩ latest ⟨⟩
        exact ⟨List.cons_ne_nil _ _, by simpa using hletter⟩
      next =>
        split
        · refine ⟨by simp, ?_⟩
          rintro _ ⟨⟩ latest ⟨⟩
        · exact ⟨by simp, nofun⟩

theorem steps_startAfter (s : State) {lexeme : Lexeme} (h : IsProper lexeme) (c : Char) :
    Steps (s.startAfter lexeme c) := by
  obtain ⟨htokens, hstate⟩ := steps_start s c
  refine ⟨?_, hstate⟩
  intro t ht
  rcases List.mem_cons.mp ht with rfl | ht
  · exact h
  · exact htokens t ht

theorem State.IsProper.steps {s : State} (hs : s.IsProper) (c : Char) : Steps (s.step c) := by
  unfold State.step
  split
  next => exact steps_start s c
  next latest hword =>
    obtain ⟨hne, hletters⟩ := hs latest hword
    split
    next hletter =>
      refine ⟨by simp, ?_⟩
      rintro _ ⟨⟩ latest ⟨⟩
      refine ⟨List.cons_ne_nil _ _, ?_⟩
      intro d hd
      rcases List.mem_cons.mp hd with rfl | hd
      · exact hletter
      · exact hletters d hd
    next => exact steps_startAfter s (isProper_ofWord hne hletters) c
  next latest _ =>
    split
    · refine ⟨by simp, ?_⟩
      rintro _ ⟨⟩ latest ⟨⟩
    · split
      · refine ⟨by simp, ?_⟩
        rintro _ ⟨⟩ latest ⟨⟩
      · have hproper : Scan.IsProper (.number { whole := latest.reverse }) := trivial
        exact steps_startAfter s hproper c
  next whole _ =>
    split
    · refine ⟨by simp, ?_⟩
      rintro _ ⟨⟩ latest ⟨⟩
    · split
      · exact ⟨by simp, nofun⟩
      · exact ⟨by simp, nofun⟩
  next whole latest _ =>
    split
    · refine ⟨by simp, ?_⟩
      rintro _ ⟨⟩ latest ⟨⟩
    · split
      · exact ⟨by simp, nofun⟩
      · have hproper : Scan.IsProper (.number { whole, fraction := some latest.reverse }) := trivial
        exact steps_startAfter s hproper c

theorem State.IsProper.finish {s : State} (hs : s.IsProper) {read : Nat} {w : List Token}
    (h : (s.finish read).toList = .ok w) : ∀ t ∈ w, Scan.IsProper t.lexeme := by
  unfold State.finish at h
  split at h
  next =>
    cases h
    simp
  next latest hword =>
    obtain ⟨hne, hletters⟩ := hs latest hword
    cases h
    intro t ht
    obtain rfl := List.mem_singleton.mp ht
    exact isProper_ofWord hne hletters
  next => cases h; simp [Scan.IsProper]
  next => cases h
  next => cases h; simp [Scan.IsProper]

theorem State.IsProper.run {source : List Char} {s : State} (hs : s.IsProper) {read : Nat} {w : List Token}
    (h : (Scan.run s read source).toList = .ok w) : ∀ t ∈ w, Scan.IsProper t.lexeme := by
  induction source generalizing s read w with
  | nil => exact hs.finish h
  | cons c source ih =>
    obtain ⟨htokens, hstate⟩ := hs.steps c
    rw [Scan.run, Tokens.toList_prepend] at h
    cases hnext : (s.step c).2 with
    | error error =>
      rw [hnext] at h
      cases h
    | ok next =>
      rw [hnext] at h
      obtain ⟨v, hv, rfl⟩ := map_eq_ok h
      intro t ht
      rcases List.mem_append.mp ht with ht | ht
      · exact htokens t ht
      · exact ih (hstate next hnext) hv t ht

theorem isProper_scan {source : List Char} {w : List Token} (h : (Tokens.scan source).toList = .ok w) :
    ∀ t ∈ w, IsProper t.lexeme := by
  have hs : ({} : State).IsProper := by
    rintro latest ⟨⟩
  exact hs.run h

end Scan

/-! ### Lexemes of an expression -/

namespace Expr

/-- The expression is made of lexemes that satisfy `L`. -/
def Over (L : Lexeme → Prop) : Expr Float → Prop
  | symbol name => L (.symbol name)
  | number value => ∃ n, L (.number n) ∧ value = n.decimal.toFloat
  | binary op left right => L (.operator op) ∧ left.Over L ∧ right.Over L

theorem Over.foldl_attach {L : Lexeme → Prop} {links : List Grammar.Link} {e : Expr Float} (he : e.Over L)
    (hops : ∀ l ∈ links, L (.operator l.op)) (hrights : ∀ l ∈ links, l.right.Over L) :
    (links.foldl Grammar.Link.attach e).Over L := by
  induction links generalizing e with
  | nil => exact he
  | cons l links ih =>
    have hnext : (Grammar.Link.attach e l).Over L := ⟨hops l (by simp), he, hrights l (by simp)⟩
    exact ih hnext (fun l hl => hops l (by simp [hl])) fun l hl => hrights l (by simp [hl])

end Expr

theorem Grammar.Derives.over {L : Lexeme → Prop} {phrase : Phrase} {w : List Lexeme} {e : Expr Float}
    (h : Derives phrase w e) (hw : ∀ a ∈ w, L a) : e.Over L := by
  induction h with
  | symbol name => exact hw _ (by simp)
  | number n nearest => exact ⟨n, hw _ (by simp), (Numeral.isNearest_value_iff.mp nearest).symm⟩
  | brackets _ ih => exact ih fun a ha => hw a (by simp [ha])
  | @chain t w e _ links _ _ ihFirst ihRest =>
    have hlinks : ∀ l ∈ links, ∀ a ∈ l.lexemes, L a := by
      intro l hl a ha
      exact hw a (List.mem_append_right _ (List.mem_flatMap.mpr ⟨l, hl, ha⟩))
    refine (ihFirst fun a ha => hw a (List.mem_append_left _ ha)).foldl_attach ?_ ?_
    · intro l hl
      exact hlinks l hl _ (by simp [Link.lexemes])
    · intro l hl
      exact ihRest l hl fun a ha => hlinks l hl a (by simp [Link.lexemes, ha])

namespace Expr

theorem Over.of_mem_occurrences {L : Lexeme → Prop} {e : Expr Float} (h : e.Over L) {name : String}
    (hname : name ∈ e.occurrences) : L (.symbol name) := by
  induction e with
  | symbol other =>
    obtain rfl := List.mem_singleton.mp hname
    exact h
  | number value => cases hname
  | binary op left right ihl ihr =>
    obtain ⟨-, hl, hr⟩ := h
    rcases List.mem_append.mp hname with hname | hname
    · exact ihl hl hname
    · exact ihr hr hname

/-- What the instructions of an expression are made of. -/
theorem Over.mem_body {L : Lexeme → Prop} {e : Expr Float} (h : e.Over L) {i : Instr Float} (hi : i ∈ e.body) :
    (∃ name, i = .fetch name ∧ L (.symbol name)) ∨
      (∃ n, i = .push n.decimal.toFloat ∧ L (.number n)) ∨
      ∃ op, i = .apply (.binary op) ∧ L (.operator op) := by
  induction e with
  | symbol name =>
    obtain rfl := List.mem_singleton.mp hi
    exact .inl ⟨name, rfl, h⟩
  | number value =>
    obtain rfl := List.mem_singleton.mp hi
    obtain ⟨n, hn, rfl⟩ := h
    exact .inr (.inl ⟨n, rfl, hn⟩)
  | binary op left right ihl ihr =>
    obtain ⟨hop, hl, hr⟩ := h
    rw [body, List.mem_append, List.mem_append, List.mem_singleton] at hi
    rcases hi with (hi | hi) | rfl
    · exact ihl hl hi
    · exact ihr hr hi
    · exact .inr (.inr ⟨op, rfl, hop⟩)

end Expr

end StackCalc
