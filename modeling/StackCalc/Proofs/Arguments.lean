import StackCalc.Command.Arguments

/-!
The reading of arguments as a relation between words and what has been read. A word is taken by one of its rules,
and only a switch that needs a value takes two. What is shown of a successful reading is shown by induction over it.
-/

namespace StackCalc.Command

variable {ι σ ε : Type}

/-! ### Results that may be errors -/

theorem ok_bind {α β : Type} (a : α) (f : α → Except ε β) : (Except.ok a >>= f) = f a := rfl

theorem bind_eq_ok {α β : Type} {x : Except ε α} {f : α → Except ε β} {b : β} (h : x >>= f = .ok b) :
    ∃ a, x = .ok a ∧ f a = .ok b := by
  cases x with
  | error => cases h
  | ok a => exact ⟨a, rfl, h⟩

theorem bind_eq_error {α β : Type} {x : Except ε α} {f : α → Except ε β} {e : ε} (h : x >>= f = .error e) :
    x = .error e ∨ ∃ a, x = .ok a ∧ f a = .error e := by
  cases x with
  | error =>
    cases h
    exact .inl rfl
  | ok a => exact .inr ⟨a, rfl, h⟩

/-! ### What a word gives -/

section Words

variable (custom : Custom) (switches : List (Switch ι))

/-- What a word gives, if it is a switch. -/
def givenBy? (word : String) : Option (Given ι) :=
  match classify switches word with
  | .ok (.switch s isLong attached) => (given custom switches s isLong attached).toOption
  | _ => none

/-- Switches that take no value, of which the last may be followed by one that has a value or still needs one. -/
inductive IsBundle : List (Switch ι × Option String) → Option (Switch ι) → Prop
  | nil : IsBundle [] none
  | valued {s : Switch ι} (value : String) (hs : s ∈ switches) (takes : s.takesValue = true) :
      IsBundle [(s, some value)] none
  | needy {s : Switch ι} (hs : s ∈ switches) (takes : s.takesValue = true) : IsBundle [] (some s)
  | cons {s : Switch ι} {given : List (Switch ι × Option String)} {needy : Option (Switch ι)} (hs : s ∈ switches)
      (plain : s.takesValue = false) (bundle : IsBundle given needy) : IsBundle ((s, none) :: given) needy

variable {custom switches}

theorem mem_of_mem_spellingsOf {entry : Switch ι × String} (h : entry ∈ spellingsOf switches) :
    entry.1 ∈ switches := by
  simp only [spellingsOf, List.mem_flatMap, List.mem_map] at h
  obtain ⟨s, hs, t, -, rfl⟩ := h
  exact hs

theorem mem_of_find? {chars : List Char} {s : Switch ι} (h : find? switches chars = some s) : s ∈ switches := by
  simp only [find?, Option.map_eq_some_iff] at h
  obtain ⟨entry, hentry, rfl⟩ := h
  exact mem_of_mem_spellingsOf (List.mem_of_find?_eq_some hentry)

theorem mem_of_mem_candidates {chars : List Char} {entry : Switch ι × String}
    (h : entry ∈ (candidates switches chars).1) : entry.1 ∈ switches := by
  unfold candidates at h
  split at h <;> exact mem_of_mem_spellingsOf (List.mem_filter.mp h).1

theorem mem_of_classify {word : String} {s : Switch ι} {isLong : Bool} {attached : Option Attached}
    (h : classify switches word = .ok (.switch s isLong attached)) : s ∈ switches := by
  simp only [classify] at h
  split at h
  · split at h
    · rename_i found
      cases h
      exact mem_of_find? found
    · split at h
      · rename_i found
        cases h
        exact mem_of_find? found
      · split at h
        · split at h <;> cases h
        · rename_i only
          cases h
          exact mem_of_mem_candidates (only ▸ List.mem_singleton_self _)
        · cases h
  · cases h

/-- Before the marker no word is one. -/
theorem classify_ne_marker {word : String} : classify switches word ≠ .ok .marker := by
  intro h
  simp only [classify] at h
  repeat' split at h
  all_goals cases h

theorem IsBundle.behind {s : Switch ι} {r : Except UsageError (Given ι)} {g : Given ι} (hs : s ∈ switches)
    (plain : ¬ s.takesValue = true) (hr : ∀ {g'}, r = .ok g' → IsBundle switches g'.switches g'.needy)
    (h : r.map (Given.behind s) = .ok g) : IsBundle switches g.switches g.needy := by
  cases r with
  | error => cases h
  | ok g' =>
    cases h
    exact .cons hs (by simpa using plain) (hr rfl)

/-- However the custom cuts a word, the switches before the last one take no value. -/
theorem isBundle_unbundle {s : Switch ι} {isLong byEquals : Bool} {chars : List Char} {g : Given ι}
    (hs : s ∈ switches) (h : unbundle custom switches s isLong byEquals chars = .ok g) :
    IsBundle switches g.switches g.needy := by
  fun_induction unbundle custom switches s isLong byEquals chars generalizing g with
  | case1 s _ _ takes | case3 s _ _ c rest takes =>
    cases h
    exact .valued _ hs takes
  | case2 | case4 | case5 => cases h
  | case6 s _ _ c rest plain =>
    cases h
    exact .cons hs (by simpa using plain) .nil
  | case7 s _ _ c plain _ next found takesNext =>
    cases h
    exact .cons hs (by simpa using plain) (.needy (mem_of_find? found) takesNext)
  | case8 s _ _ c plain _ next found plainNext =>
    cases h
    exact .cons hs (by simpa using plain) (.cons (mem_of_find? found) (by simpa using plainNext) .nil)
  | case9 s _ _ c plain _ next found _ _ _ ih | case10 s _ _ c plain _ next found _ _ _ ih =>
    exact .behind hs plain (ih (mem_of_find? found)) h

theorem isBundle_given {s : Switch ι} {isLong : Bool} {attached : Option Attached} {g : Given ι} (hs : s ∈ switches)
    (h : given custom switches s isLong attached = .ok g) : IsBundle switches g.switches g.needy := by
  cases attached with
  | none =>
    simp only [given] at h
    split at h <;> rename_i takes <;> cases h
    · exact .needy hs takes
    · exact .cons hs (by simpa using takes) .nil
  | some attached => exact isBundle_unbundle hs h

theorem givenBy?_eq_some_iff {word : String} {g : Given ι} :
    givenBy? custom switches word = some g ↔ ∃ s isLong attached,
      classify switches word = .ok (.switch s isLong attached) ∧ given custom switches s isLong attached = .ok g := by
  constructor
  · intro h
    simp only [givenBy?] at h
    split at h
    · rename_i s isLong attached hclass
      cases hgiven : given custom switches s isLong attached with
      | error => simp [hgiven, Except.toOption] at h
      | ok g' =>
        simp only [hgiven, Except.toOption, Option.some.injEq] at h
        exact ⟨s, isLong, attached, hclass, by rw [hgiven, h]⟩
    · cases h
  · rintro ⟨s, isLong, attached, hclass, hgiven⟩
    simp [givenBy?, hclass, hgiven, Except.toOption]

theorem isBundle_givenBy? {word : String} {g : Given ι} (h : givenBy? custom switches word = some g) :
    IsBundle switches g.switches g.needy := by
  obtain ⟨s, isLong, attached, hclass, hgiven⟩ := givenBy?_eq_some_iff.mp h
  exact isBundle_given (mem_of_classify hclass) hgiven

theorem classifyAll_eq_cons {words : List String} {word : String} {kind : Word ι} {kinds : List (String × Word ι)}
    (h : classifyAll switches words = .ok ((word, kind) :: kinds)) :
    ∃ rest, words = word :: rest ∧
      ((word = "--" ∧ kind = .marker ∧ kinds = rest.map (·, .operand)) ∨
       (word ≠ "--" ∧ classify switches word = .ok kind ∧ classifyAll switches rest = .ok kinds)) := by
  cases words with
  | nil => simp [classifyAll] at h
  | cons first rest =>
    simp only [classifyAll] at h
    split at h <;> rename_i hfirst
    · cases h
      exact ⟨rest, rfl, .inl ⟨hfirst, rfl, rfl⟩⟩
    · obtain ⟨_, hkind, h⟩ := bind_eq_ok h
      obtain ⟨_, hkinds, h⟩ := bind_eq_ok h
      cases h
      exact ⟨rest, rfl, .inr ⟨hfirst, hkind, hkinds⟩⟩

theorem classifyAll_cons {word : String} {rest : List String} {kind : Word ι} {kinds : List (String × Word ι)}
    (hword : word ≠ "--") (hkind : classify switches word = .ok kind) (hkinds : classifyAll switches rest = .ok kinds) :
    classifyAll switches (word :: rest) = .ok ((word, kind) :: kinds) := by
  simp [classifyAll, hword, hkind, hkinds, ok_bind, pure, Except.pure]

end Words

/-! ### Readings -/

section Readings

variable (custom : Custom) (switches : List (Switch ι)) (single : Bool) (refuse : UsageError → ε)
  (take : σ → Switch ι → Option String → Except ε σ)

/-- A group of operands that has begun ends with a word of another kind. -/
def Group.leave (g : Group) : Group :=
  if g = .begun then .closed else g

theorem Group.leave_eq (g : Group) : g.leave = g ∨ g.leave = .closed := by
  cases g
  · exact .inl rfl
  · exact .inr rfl
  · exact .inl rfl

theorem Group.leave_leave (g : Group) : g.leave.leave = g.leave := by
  cases g <;> rfl

/-- Sets a word aside. -/
def Reading.setAside (r : Reading σ) (word : String) : Reading σ :=
  { r with extras := r.extras ++ [word], group := r.group.leave }

/-- Carries out switches in order. -/
def carryOut (s : σ) (gs : List (Switch ι × Option String)) : Except ε σ :=
  gs.foldlM (fun s entry => take s entry.1 (custom.value? entry.2)) s

/-- How words are read, from what has been read before them to what has been read after them. -/
inductive Reads : Reading σ → List String → Reading σ → Prop
  | nil {r : Reading σ} : Reads r [] r
  | marker {r : Reading σ} (rest : List String) :
      Reads r ("--" :: rest) (rest.foldl (Reading.operand single) (r.marker single "--"))
  | operand {r f : Reading σ} {word : String} {rest : List String} (hword : word ≠ "--")
      (kind : classify switches word = .ok .operand) (next : Reads (r.operand single word) rest f) :
      Reads r (word :: rest) f
  | unknown {r f : Reading σ} {word : String} {rest : List String} (hword : word ≠ "--")
      (kind : classify switches word = .ok .unknown) (next : Reads (r.setAside word) rest f) : Reads r (word :: rest) f
  | given {r m f : Reading σ} {word : String} {rest : List String} {gs : List (Switch ι × Option String)}
      {aside : Option String} (hword : word ≠ "--") (gives : givenBy? custom switches word = some ⟨gs, none, aside⟩)
      (taken : takeAll custom take r gs aside = .ok m) (next : Reads m rest f) : Reads r (word :: rest) f
  /-- The next word is the value of the last switch. -/
  | valued {r m f : Reading σ} {word value : String} {rest : List String} {gs : List (Switch ι × Option String)}
      {needy : Switch ι} {aside : Option String} (hword : word ≠ "--")
      (gives : givenBy? custom switches word = some ⟨gs, some needy, aside⟩) (hvalue : value ≠ "--")
      (kind : classify switches value = .ok .operand)
      (taken : takeAll custom take r (gs ++ [(needy, some value)]) aside = .ok m) (next : Reads m rest f) :
      Reads r (word :: value :: rest) f

variable {custom switches single refuse take}

theorem takeAll_eq_ok_iff {r m : Reading σ} {gs : List (Switch ι × Option String)} {aside : Option String} :
    takeAll custom take r gs aside = .ok m ↔
      carryOut custom take r.settings gs = .ok m.settings ∧ m.operands = r.operands ∧
        m.extras = r.extras ++ aside.toList ∧ m.group = r.group.leave := by
  constructor
  · intro h
    obtain ⟨s, hs, h⟩ := bind_eq_ok h
    cases h
    exact ⟨hs, rfl, rfl, rfl⟩
  · rintro ⟨hs, hops, hext, hgroup⟩
    cases m
    cases hops
    cases hext
    cases hgroup
    unfold carryOut at hs
    simp only [takeAll, hs, ok_bind]
    rfl

theorem readWords_operands (r : Reading σ) (words : List String) :
    readWords custom switches single refuse take r (words.map (·, .operand)) =
      .ok (words.foldl (Reading.operand single) r) := by
  induction words generalizing r with
  | nil => rfl
  | cons word rest ih => exact ih _

theorem reads_of_readWords {r f : Reading σ} {kinds : List (String × Word ι)} {words : List String}
    (hkinds : classifyAll switches words = .ok kinds)
    (h : readWords custom switches single refuse take r kinds = .ok f) :
    Reads custom switches single take r words f := by
  fun_induction readWords custom switches single refuse take r kinds generalizing words with
  | case1 r =>
    cases h
    cases words with
    | nil => exact .nil
    | cons word rest =>
      simp only [classifyAll] at hkinds
      split at hkinds
      · cases hkinds
      · obtain ⟨_, -, hkinds⟩ := bind_eq_ok hkinds
        obtain ⟨_, -, hkinds⟩ := bind_eq_ok hkinds
        cases hkinds
  | case2 r word kinds ih =>
    obtain ⟨rest, rfl, ⟨-, hkind, -⟩ | ⟨hword, hkind, hrest⟩⟩ := classifyAll_eq_cons hkinds
    · cases hkind
    · exact .operand hword hkind (ih hrest h)
  | case3 r word kinds ih =>
    obtain ⟨rest, rfl, ⟨rfl, -, rfl⟩ | ⟨-, hkind, -⟩⟩ := classifyAll_eq_cons hkinds
    · rw [readWords_operands] at h
      cases h
      exact .marker rest
    · exact absurd hkind classify_ne_marker
  | case4 r word kinds ih =>
    obtain ⟨rest, rfl, ⟨-, hkind, -⟩ | ⟨hword, hkind, hrest⟩⟩ := classifyAll_eq_cons hkinds
    · cases hkind
    · exact .unknown hword hkind (ih hrest h)
  | case5 => cases h
  | case6 r word s isLong attached kinds gs aside hgiven ih =>
    obtain ⟨rest, rfl, ⟨-, hkind, -⟩ | ⟨hword, hkind, hrest⟩⟩ := classifyAll_eq_cons hkinds
    · cases hkind
    · obtain ⟨m, taken, h⟩ := bind_eq_ok h
      exact .given hword (givenBy?_eq_some_iff.mpr ⟨s, isLong, attached, hkind, hgiven⟩) taken (ih m hrest h)
  | case7 r word s isLong attached gs needy aside hgiven value kinds ih =>
    obtain ⟨rest, rfl, ⟨-, hkind, -⟩ | ⟨hword, hkind, hrest⟩⟩ := classifyAll_eq_cons hkinds
    · cases hkind
    · obtain ⟨rest, rfl, ⟨-, hkind', -⟩ | ⟨hvalue, hkind', hrest⟩⟩ := classifyAll_eq_cons hrest
      · cases hkind'
      · obtain ⟨m, taken, h⟩ := bind_eq_ok h
        exact .valued hword (givenBy?_eq_some_iff.mpr ⟨s, isLong, attached, hkind, hgiven⟩) hvalue hkind' taken
          (ih m hrest h)
  | case8 => cases h

theorem Reads.readWords_eq {r f : Reading σ} {words : List String} (h : Reads custom switches single take r words f)
    (refuse : UsageError → ε) :
    ∃ kinds, classifyAll switches words = .ok kinds ∧ readWords custom switches single refuse take r kinds = .ok f := by
  induction h with
  | nil => exact ⟨[], rfl, rfl⟩
  | @marker r rest =>
    refine ⟨("--", .marker) :: rest.map (·, .operand), by simp [classifyAll], ?_⟩
    simp only [readWords, readWords_operands]
  | operand hword kind _ ih =>
    obtain ⟨kinds, hkinds, h⟩ := ih
    exact ⟨_, classifyAll_cons hword kind hkinds, h⟩
  | unknown hword kind _ ih =>
    obtain ⟨kinds, hkinds, h⟩ := ih
    exact ⟨_, classifyAll_cons hword kind hkinds, h⟩
  | given hword gives taken _ ih =>
    obtain ⟨kinds, hkinds, h⟩ := ih
    obtain ⟨s, isLong, attached, hclass, hgiven⟩ := givenBy?_eq_some_iff.mp gives
    refine ⟨_, classifyAll_cons hword hclass hkinds, ?_⟩
    simp only [readWords, hgiven, taken, ok_bind, h]
  | valued hword gives hvalue kind taken _ ih =>
    obtain ⟨kinds, hkinds, h⟩ := ih
    obtain ⟨s, isLong, attached, hclass, hgiven⟩ := givenBy?_eq_some_iff.mp gives
    refine ⟨_, classifyAll_cons hword hclass (classifyAll_cons hvalue kind hkinds), ?_⟩
    simp only [readWords, hgiven, taken, ok_bind, h]

/-- Arguments are accepted if they can be read and nothing is set aside. -/
theorem readArguments_eq_ok_iff {start s : σ} {words operands : List String} :
    readArguments custom switches single refuse take start words = .ok (s, operands) ↔
      ∃ f, Reads custom switches single take { settings := start } words f ∧ f.extras = [] ∧ f.settings = s ∧
        f.operands = operands := by
  constructor
  · intro h
    simp only [readArguments] at h
    split at h
    · cases h
    · rename_i kinds hkinds
      obtain ⟨f, hread, h⟩ := bind_eq_ok h
      split at h
      · rename_i hextras
        cases h
        exact ⟨f, reads_of_readWords hkinds hread, hextras, rfl, rfl⟩
      · cases h
  · rintro ⟨f, hreads, hextras, rfl, rfl⟩
    obtain ⟨kinds, hkinds, hread⟩ := hreads.readWords_eq refuse
    simp [readArguments, hkinds, hread, hextras, ok_bind, pure, Except.pure]

/-! ### Words set aside -/

theorem Reading.extras_operand (r : Reading σ) (single : Bool) (word : String) :
    r.extras <+: (r.operand single word).extras := by
  unfold Reading.operand
  split
  · exact List.prefix_refl _
  · split
    · exact List.prefix_append _ _
    · exact List.prefix_refl _
  · exact List.prefix_append _ _

theorem Reading.extras_marker (r : Reading σ) (single : Bool) (word : String) :
    r.extras <+: (r.marker single word).extras := by
  unfold Reading.marker
  split
  · exact List.prefix_refl _
  · split <;> exact List.prefix_refl _
  · exact List.prefix_append _ _

theorem Reading.extras_foldl_operand (r : Reading σ) (single : Bool) (words : List String) :
    r.extras <+: (words.foldl (Reading.operand single) r).extras := by
  induction words generalizing r with
  | nil => exact List.prefix_refl _
  | cons word rest ih => exact (r.extras_operand single word).trans (ih _)

theorem Reading.extras_eq_nil_of_foldl {r : Reading σ} {words : List String}
    (h : (words.foldl (Reading.operand single) r).extras = []) : r.extras = [] :=
  List.prefix_nil.mp (h ▸ r.extras_foldl_operand single words)

/-- What has been set aside stays so. -/
theorem Reads.extras {r f : Reading σ} {words : List String} (h : Reads custom switches single take r words f) :
    r.extras <+: f.extras := by
  induction h with
  | nil => exact List.prefix_refl _
  | @marker r rest => exact (r.extras_marker single "--").trans (Reading.extras_foldl_operand _ single rest)
  | @operand r _ word _ _ _ _ ih => exact (r.extras_operand single word).trans ih
  | @unknown r _ word _ _ _ _ ih => exact (List.prefix_append r.extras [word]).trans ih
  | given _ _ taken _ ih => exact ((takeAll_eq_ok_iff.mp taken).2.2.1 ▸ List.prefix_append _ _).trans ih
  | valued _ _ _ _ taken _ ih => exact ((takeAll_eq_ok_iff.mp taken).2.2.1 ▸ List.prefix_append _ _).trans ih

theorem Reads.extras_eq_nil {r f : Reading σ} {words : List String} (h : Reads custom switches single take r words f)
    (hf : f.extras = []) : r.extras = [] :=
  List.prefix_nil.mp (hf ▸ h.extras)

/-! ### Refusals -/

theorem carryOut_error {gs : List (Switch ι × Option String)} {s : σ} {e : ε}
    (h : carryOut custom take s gs = .error e) :
    ∃ s switch value, take s switch value = .error e := by
  induction gs generalizing s with
  | nil => cases h
  | cons entry gs ih =>
    rw [carryOut, List.foldlM_cons] at h
    rcases bind_eq_error h with h | ⟨s', -, h⟩
    · exact ⟨_, _, _, h⟩
    · exact ih h

theorem takeAll_error {r : Reading σ} {gs : List (Switch ι × Option String)} {aside : Option String} {e : ε}
    (h : takeAll custom take r gs aside = .error e) : ∃ s switch value, take s switch value = .error e := by
  rcases bind_eq_error h with h | ⟨s, -, h⟩
  · exact carryOut_error h
  · cases h

theorem readWords_error {r : Reading σ} {kinds : List (String × Word ι)} {e : ε}
    (h : readWords custom switches single refuse take r kinds = .error e) :
    (∃ error, e = refuse error) ∨ ∃ s switch value, take s switch value = .error e := by
  fun_induction readWords custom switches single refuse take r kinds with
  | case1 => cases h
  | case2 r word kinds ih => exact ih h
  | case3 r word kinds ih => exact ih h
  | case4 r word kinds ih => exact ih h
  | case5 =>
    cases h
    exact .inl ⟨_, rfl⟩
  | case6 r word s isLong attached kinds gs aside hgiven ih =>
    rcases bind_eq_error h with h | ⟨m, -, h⟩
    · exact .inr (takeAll_error h)
    · exact ih m h
  | case7 r word s isLong attached gs needy aside hgiven value kinds ih =>
    rcases bind_eq_error h with h | ⟨m, -, h⟩
    · exact .inr (takeAll_error h)
    · exact ih m h
  | case8 =>
    cases h
    exact .inl ⟨_, rfl⟩

/-- What ends the reading is a refusal or comes from a switch that is carried out. -/
theorem readArguments_error {start : σ} {words : List String} {e : ε}
    (h : readArguments custom switches single refuse take start words = .error e) :
    (∃ error, e = refuse error) ∨ ∃ s switch value, take s switch value = .error e := by
  simp only [readArguments] at h
  split at h
  · cases h
    exact .inl ⟨_, rfl⟩
  · rcases bind_eq_error h with h | ⟨f, -, h⟩
    · exact readWords_error h
    · split at h <;> cases h
      exact .inl ⟨_, rfl⟩

end Readings
end StackCalc.Command
