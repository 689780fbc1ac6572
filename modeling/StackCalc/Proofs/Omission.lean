import StackCalc.Proofs.Arguments

/-!
Leaving switches out of the arguments of a command. A switch may be written together with others and has its value in
the same word or in the next one, so that words are not just deleted. If the arguments with the switch are accepted,
those without it are, and the settings differ in nothing but what the switch sets.
-/

namespace StackCalc.Command

variable {ι σ ε : Type}

/-- The first spelling of a switch. -/
def Switch.spelling (s : Switch ι) : String :=
  s.spellings.headD ""

section

variable (custom : Custom) (switches : List (Switch ι)) (drops : Switch ι → Bool)

/-- Whether a word that gives some switches gives one that is to be dropped. -/
def Given.gives (g : Given ι) : Bool :=
  g.switches.any (drops ·.1) || g.needy.any drops

/-- Words without the switches that are to be dropped, and without their values. Switches that stand in one word with
    such a switch are given by words of their own. Behind the marker there are no switches. -/
def omitting : List String → List String
  | [] => []
  | word :: rest =>
    if word = "--" then word :: rest
    else
      match givenBy? custom switches word with
      | some given =>
        if given.gives drops then
          let kept := (given.switches.filter fun entry => !drops entry.1).map (·.1.spelling)
          match given.needy, rest with
          | some _, _ :: rest => kept ++ omitting rest
          | _, rest => kept ++ omitting rest
        else word :: omitting rest
      | none => word :: omitting rest

/-- Whether a word gives a switch that is to be dropped. -/
def givesDropped (word : String) : Bool :=
  (givenBy? custom switches word).any (Given.gives drops)

/-- No word before the marker gives a switch that is to be dropped. -/
def IsWithout (words : List String) : Prop :=
  ∀ word ∈ words.takeWhile (· ≠ "--"), givesDropped custom switches drops word = false

variable {custom switches drops}

theorem omitting_marker (rest : List String) : omitting custom switches drops ("--" :: rest) = "--" :: rest := by
  simp [omitting]

theorem omitting_of_none {word : String} {rest : List String} (hword : word ≠ "--")
    (h : givenBy? custom switches word = none) :
    omitting custom switches drops (word :: rest) = word :: omitting custom switches drops rest := by
  simp [omitting, hword, h]

theorem omitting_of_kept {word : String} {rest : List String} {g : Given ι} (hword : word ≠ "--")
    (h : givenBy? custom switches word = some g) (hkept : g.gives drops = false) :
    omitting custom switches drops (word :: rest) = word :: omitting custom switches drops rest := by
  simp only [omitting, hword, h, hkept]
  rfl

theorem omitting_of_dropped {word : String} {rest : List String} {gs : List (Switch ι × Option String)}
    {aside : Option String} (hword : word ≠ "--") (h : givenBy? custom switches word = some ⟨gs, none, aside⟩)
    (hdrop : gs.any (drops ·.1) = true) :
    omitting custom switches drops (word :: rest) =
      (gs.filter fun entry => !drops entry.1).map (·.1.spelling) ++ omitting custom switches drops rest := by
  simp [omitting, Given.gives, hword, h, hdrop]

theorem omitting_of_dropped_value {word value : String} {rest : List String} {gs : List (Switch ι × Option String)}
    {needy : Switch ι} {aside : Option String} (hword : word ≠ "--")
    (h : givenBy? custom switches word = some ⟨gs, some needy, aside⟩)
    (hdrop : (gs.any (drops ·.1) || drops needy) = true) :
    omitting custom switches drops (word :: value :: rest) =
      (gs.filter fun entry => !drops entry.1).map (·.1.spelling) ++ omitting custom switches drops rest := by
  simp only [omitting, Given.gives, hword, h, Option.any_some, hdrop]
  rfl

/-! ### Bundles with a dropped switch -/

/-- A switch that takes no value and stands without one. -/
structure IsFlag (switches : List (Switch ι)) (entry : Switch ι × Option String) : Prop where
  mem : entry.1 ∈ switches
  plain : entry.1.takesValue = false
  unvalued : entry.2 = none

theorem IsFlag.not_dropped {entry : Switch ι × Option String} (h : IsFlag switches entry)
    (takes : ∀ s ∈ switches, drops s = true → s.takesValue = true) : drops entry.1 = false := by
  refine Bool.eq_false_iff.mpr fun hdrop => ?_
  have plain := h.plain
  rw [takes _ h.mem hdrop] at plain
  cases plain

theorem IsBundle.isFlag_of_needy {gs : List (Switch ι × Option String)} {s : Switch ι}
    (h : IsBundle switches gs (some s)) : ∀ entry ∈ gs, IsFlag switches entry := by
  generalize hn : some s = needy at h
  induction h with
  | nil => cases hn
  | valued => cases hn
  | needy => simp
  | cons hs plain _ ih =>
    intro entry hentry
    rcases List.mem_cons.mp hentry with rfl | hentry
    · exact ⟨hs, plain, rfl⟩
    · exact ih hn entry hentry

/-- Only the last switch of a word takes a value: where that one is dropped, the others take none. -/
theorem IsBundle.isFlag_of_dropped {gs : List (Switch ι × Option String)} {needy : Option (Switch ι)}
    (h : IsBundle switches gs needy) (takes : ∀ s ∈ switches, drops s = true → s.takesValue = true)
    (hdrop : (gs.any (drops ·.1) || needy.any drops) = true) :
    ∀ entry ∈ gs.filter (fun entry => !drops entry.1), IsFlag switches entry := by
  induction h with
  | nil => simp
  | valued value hs takesValue =>
    simp only [List.any_cons, List.any_nil, Bool.or_false, Option.any_none] at hdrop
    simp [hdrop]
  | needy => simp
  | @cons s gs needy hs plain _ ih =>
    have flag : IsFlag switches (s, none) := ⟨hs, plain, rfl⟩
    have hkept : drops s = false := flag.not_dropped takes
    simp only [List.any_cons, hkept, Bool.false_or] at hdrop
    intro entry hentry
    simp only [List.filter_cons, hkept, Bool.not_false, if_true] at hentry
    rcases List.mem_cons.mp hentry with rfl | hentry
    · exact flag
    · exact ih hdrop entry hentry

end

/-! ### Readings that differ in what is dropped -/

/-- Switches that can be left out: each takes a value, and carrying it out changes only settings that `forget` makes
    the same for all and that no other switch reads. The others are given again by their spellings. -/
structure Omissible (custom : Custom) (switches : List (Switch ι)) (take : σ → Switch ι → Option String → Except ε σ)
    (drops : Switch ι → Bool) (forget : σ → σ) : Prop where
  takesValue : ∀ s ∈ switches, drops s = true → s.takesValue = true
  spelled : ∀ s ∈ switches, s.takesValue = false →
    s.spelling ≠ "--" ∧ givenBy? custom switches s.spelling = some { switches := [(s, none)] }
  forgets : ∀ {s s' : σ} {switch : Switch ι} {value : Option String}, drops switch = true →
    take s switch value = .ok s' → forget s' = forget s
  keeps : ∀ {s s' : σ} {switch : Switch ι} {value : Option String}, drops switch = false →
    take s switch value = .ok s' → take (forget s) switch value = .ok (forget s')

/-- A reading `r'` without the dropped switches beside one with them. A dropped switch may have ended the group of
    operands; then no operand comes any more. -/
structure Follows (forget : σ → σ) (r r' : Reading σ) : Prop where
  settings : r'.settings = forget r.settings
  operands : r'.operands = r.operands
  extras : r'.extras = r.extras
  group : r.group = .closed ∨ r'.group = r.group

section

variable {custom : Custom} {switches : List (Switch ι)} {single : Bool} {refuse : UsageError → ε}
  {take : σ → Switch ι → Option String → Except ε σ} {drops : Switch ι → Bool} {forget : σ → σ}

theorem Omissible.carryOut_filter (om : Omissible custom switches take drops forget) {s s' : σ}
    {gs : List (Switch ι × Option String)} (h : carryOut custom take s gs = .ok s') :
    carryOut custom take (forget s) (gs.filter fun entry => !drops entry.1) = .ok (forget s') := by
  induction gs generalizing s with
  | nil =>
    cases h
    rfl
  | cons entry gs ih =>
    rw [carryOut, List.foldlM_cons] at h
    obtain ⟨m, hm, h⟩ := bind_eq_ok h
    cases hd : drops entry.1 with
    | true =>
      simp only [List.filter_cons, hd, Bool.not_true, Bool.false_eq_true, if_false]
      exact om.forgets hd hm ▸ ih h
    | false =>
      simp only [List.filter_cons, hd, Bool.not_false, if_true]
      rw [carryOut, List.foldlM_cons, om.keeps hd hm]
      exact ih h

/-- Words that give one switch each are read one after the other. -/
theorem Omissible.reads_flags (om : Omissible custom switches take drops forget) (single : Bool)
    {fs : List (Switch ι × Option String)} (hfs : ∀ entry ∈ fs, IsFlag switches entry) {r : Reading σ} {s : σ}
    (h : carryOut custom take r.settings fs = .ok s) :
    ∃ m : Reading σ, m.settings = s ∧ m.operands = r.operands ∧ m.extras = r.extras ∧
      (m.group = r.group ∨ m.group = r.group.leave) ∧
      ∀ rest f, Reads custom switches single take m rest f →
        Reads custom switches single take r (fs.map (·.1.spelling) ++ rest) f := by
  induction fs generalizing r with
  | nil =>
    cases h
    exact ⟨r, rfl, rfl, rfl, .inl rfl, fun _ _ h => h⟩
  | cons entry fs ih =>
    obtain ⟨switch, value⟩ := entry
    obtain ⟨hmem, plain, unvalued⟩ := hfs _ List.mem_cons_self
    cases unvalued
    rw [carryOut, List.foldlM_cons] at h
    obtain ⟨s₁, hs₁, h⟩ := bind_eq_ok h
    let r₁ : Reading σ := { r with settings := s₁, group := r.group.leave }
    have taken : takeAll custom take r [(switch, none)] none = .ok r₁ := by
      refine takeAll_eq_ok_iff.mpr ⟨?_, rfl, (List.append_nil _).symm, rfl⟩
      rw [carryOut, List.foldlM_cons, hs₁]
      rfl
    obtain ⟨m, hset, hops, hext, hgroup, hreads⟩ := @ih (fun e he => hfs e (List.mem_cons_of_mem _ he)) r₁ h
    obtain ⟨hword, gives⟩ := om.spelled _ hmem plain
    refine ⟨m, hset, hops, hext, .inr ?_, fun rest f hrest => .given hword gives taken (hreads rest f hrest)⟩
    rcases hgroup with hgroup | hgroup
    · exact hgroup
    · exact hgroup.trans r.group.leave_leave

theorem Follows.of_carryOut {r r' m m' : Reading σ} (h : Follows forget r r')
    (om : Omissible custom switches take drops forget)
    {gs : List (Switch ι × Option String)} (taken : takeAll custom take r gs none = .ok m)
    (hset : carryOut custom take r'.settings (gs.filter fun entry => !drops entry.1) = .ok m'.settings)
    (hops : m'.operands = r'.operands) (hext : m'.extras = r'.extras)
    (hgroup : m'.group = r'.group ∨ m'.group = r'.group.leave) : Follows forget m m' := by
  obtain ⟨hcarry, hops', hext', hgroup'⟩ := takeAll_eq_ok_iff.mp taken
  have hforget := om.carryOut_filter hcarry
  rw [← h.settings, hset] at hforget
  refine ⟨Except.ok.inj hforget, by rw [hops, hops', h.operands], ?_, ?_⟩
  · rw [hext, hext', h.extras, Option.toList_none, List.append_nil]
  rw [hgroup']
  rcases h.group with hclosed | heq
  · exact .inl (by rw [hclosed]; rfl)
  · -- Leaving a group that has begun closes it, and leaving any other changes nothing.
    rw [heq] at hgroup
    rcases r.group.leave_eq with hleave | hleave
    · rw [hleave, or_self] at hgroup
      exact .inr (hgroup.trans hleave.symm)
    · exact .inl hleave

/-- A word that gives dropped switches is followed by the words of the others. -/
theorem Follows.reads_flags {r r' m : Reading σ} (h : Follows forget r r')
    (om : Omissible custom switches take drops forget)
    {gs : List (Switch ι × Option String)} (taken : Command.takeAll custom take r gs none = .ok m)
    (flags : ∀ entry ∈ gs.filter (fun entry => !drops entry.1), IsFlag switches entry) :
    ∃ m', Follows forget m m' ∧ ∀ rest f, Reads custom switches single take m' rest f →
      Reads custom switches single take r' ((gs.filter fun entry => !drops entry.1).map (·.1.spelling) ++ rest) f := by
  have hfilter := om.carryOut_filter (takeAll_eq_ok_iff.mp taken).1
  rw [← h.settings] at hfilter
  obtain ⟨m', hset, hops, hext, hgroup, hreads⟩ := om.reads_flags single flags hfilter
  exact ⟨m', h.of_carryOut om taken (hset ▸ hfilter) hops hext hgroup, hreads⟩

/-- A word that gives no dropped switch is followed by itself. -/
theorem Follows.takeAll {r r' m : Reading σ} (h : Follows forget r r')
    (om : Omissible custom switches take drops forget)
    {gs : List (Switch ι × Option String)} (taken : Command.takeAll custom take r gs none = .ok m)
    (hkept : gs.any (drops ·.1) = false) :
    ∃ m', Follows forget m m' ∧ Command.takeAll custom take r' gs none = .ok m' := by
  have hself : (gs.filter fun entry => !drops entry.1) = gs := by
    refine List.filter_eq_self.mpr fun entry hentry => ?_
    simpa using List.any_eq_false.mp hkept entry hentry
  have hfilter := om.carryOut_filter (takeAll_eq_ok_iff.mp taken).1
  rw [← h.settings] at hfilter
  let m' : Reading σ := { r' with settings := forget m.settings, group := r'.group.leave }
  exact ⟨m', h.of_carryOut om taken hfilter rfl rfl (.inr rfl),
    takeAll_eq_ok_iff.mpr ⟨hself ▸ hfilter, rfl, (List.append_nil _).symm, rfl⟩⟩

/-! ### Words without the dropped switches -/

theorem isWithout_marker (rest : List String) : IsWithout custom switches drops ("--" :: rest) := by
  simp [IsWithout]

theorem isWithout_cons_iff {word : String} {rest : List String} (hword : word ≠ "--") :
    IsWithout custom switches drops (word :: rest) ↔
      givesDropped custom switches drops word = false ∧ IsWithout custom switches drops rest := by
  simp [IsWithout, hword]

theorem Omissible.isWithout_flags (om : Omissible custom switches take drops forget)
    {fs : List (Switch ι × Option String)} {rest : List String} (hfs : ∀ entry ∈ fs, IsFlag switches entry)
    (h : IsWithout custom switches drops rest) :
    IsWithout custom switches drops (fs.map (·.1.spelling) ++ rest) := by
  induction fs with
  | nil => exact h
  | cons entry fs ih =>
    have flag := hfs entry List.mem_cons_self
    obtain ⟨hword, gives⟩ := om.spelled _ flag.mem flag.plain
    refine (isWithout_cons_iff hword).mpr ⟨?_, ih fun e he => hfs e (List.mem_cons_of_mem _ he)⟩
    simp [givesDropped, Given.gives, gives, flag.not_dropped om.takesValue]

/-- What is to be dropped is dropped. -/
theorem Omissible.isWithout_omitting (om : Omissible custom switches take drops forget) (words : List String) :
    IsWithout custom switches drops (omitting custom switches drops words) := by
  fun_induction omitting custom switches drops words with
  | case1 => simp [IsWithout]
  | case2 rest => exact isWithout_marker rest
  | case3 word hword given gives hdrop kept needy value rest hneedy ih =>
    exact om.isWithout_flags ((isBundle_givenBy? gives).isFlag_of_dropped om.takesValue hdrop) ih
  | case4 word hword given gives hdrop kept rest _ ih =>
    exact om.isWithout_flags ((isBundle_givenBy? gives).isFlag_of_dropped om.takesValue hdrop) ih
  | case5 word rest hword given gives hkept ih =>
    refine (isWithout_cons_iff hword).mpr ⟨?_, ih⟩
    simpa [givesDropped, gives] using hkept
  | case6 word rest hword gives ih =>
    refine (isWithout_cons_iff hword).mpr ⟨?_, ih⟩
    simp [givesDropped, gives]

/-! ### One word -/

theorem Follows.group_eq {r r' : Reading σ} (h : Follows forget r r') (hopen : r.group ≠ .closed) :
    r'.group = r.group :=
  h.group.resolve_left hopen

theorem Follows.operand {r r' : Reading σ} {word : String} (h : Follows forget r r')
    (hextras : (r.operand single word).extras = []) :
    Follows forget (r.operand single word) (r'.operand single word) := by
  cases hg : r.group with
  | awaited =>
    have hg' : r'.group = .awaited := hg ▸ h.group_eq (by simp [hg])
    simp only [Reading.operand, hg, hg']
    exact ⟨h.settings, by rw [h.operands], h.extras, .inr rfl⟩
  | begun =>
    have hg' : r'.group = .begun := hg ▸ h.group_eq (by simp [hg])
    cases single with
    | true => simp [Reading.operand, hg] at hextras
    | false =>
      simp only [Reading.operand, hg, hg']
      exact ⟨h.settings, by simp [h.operands], h.extras, .inr rfl⟩
  | closed => simp [Reading.operand, hg] at hextras

theorem Follows.marker {r r' : Reading σ} {word : String} (h : Follows forget r r')
    (hextras : (r.marker single word).extras = []) : Follows forget (r.marker single word) (r'.marker single word) := by
  cases hg : r.group with
  | awaited =>
    have hg' : r'.group = .awaited := hg ▸ h.group_eq (by simp [hg])
    simpa only [Reading.marker, hg, hg'] using h
  | begun =>
    have hg' : r'.group = .begun := hg ▸ h.group_eq (by simp [hg])
    cases single with
    | true =>
      simp only [Reading.marker, hg, hg']
      exact ⟨h.settings, h.operands, h.extras, .inl rfl⟩
    | false => simpa [Reading.marker, hg, hg'] using h
  | closed => simp [Reading.marker, hg] at hextras

theorem Follows.foldl_operand {r r' : Reading σ} {words : List String} (h : Follows forget r r')
    (hextras : (words.foldl (Reading.operand single) r).extras = []) :
    Follows forget (words.foldl (Reading.operand single) r) (words.foldl (Reading.operand single) r') := by
  induction words generalizing r r' with
  | nil => exact h
  | cons word rest ih =>
    rw [List.foldl_cons] at hextras
    exact ih (h.operand (Reading.extras_eq_nil_of_foldl hextras)) hextras

/-! ### All words -/

theorem givenBy?_eq_none_of_classify {word : String} {kind : Word ι} (h : classify switches word = .ok kind)
    (hkind : ∀ s isLong attached, kind ≠ .switch s isLong attached) : givenBy? custom switches word = none := by
  unfold givenBy?
  rw [h]
  cases kind with
  | switch s isLong attached => exact absurd rfl (hkind s isLong attached)
  | operand => rfl
  | marker => rfl
  | unknown => rfl

theorem aside_eq_none {r m : Reading σ} {gs : List (Switch ι × Option String)} {aside : Option String}
    (taken : takeAll custom take r gs aside = .ok m) (h : m.extras = []) : aside = none := by
  have haside := (List.append_eq_nil_iff.mp ((takeAll_eq_ok_iff.mp taken).2.2.1.symm.trans h)).2
  exact Option.toList_eq_nil_iff.mp haside

/-- Words that are read with nothing set aside are read without the dropped switches too. -/
theorem Reads.omitting (om : Omissible custom switches take drops forget) {r f r' : Reading σ} {words : List String}
    (h : Reads custom switches single take r words f) (hextras : f.extras = []) (hr : Follows forget r r') :
    ∃ f', Reads custom switches single take r' (omitting custom switches drops words) f' ∧ Follows forget f f' := by
  induction h generalizing r' with
  | nil => exact ⟨r', .nil, hr⟩
  | @marker r rest =>
    rw [omitting_marker]
    exact ⟨_, .marker rest, (hr.marker (Reading.extras_eq_nil_of_foldl hextras)).foldl_operand hextras⟩
  | operand hword kind next ih =>
    rw [omitting_of_none hword (givenBy?_eq_none_of_classify kind (by intros; simp))]
    obtain ⟨f', hf', hfollows⟩ := ih hextras (hr.operand (next.extras_eq_nil hextras))
    exact ⟨f', .operand hword kind hf', hfollows⟩
  | unknown hword kind next ih =>
    have haside := next.extras_eq_nil hextras
    simp [Reading.setAside] at haside
  | @given r m f word rest gs aside hword gives taken next ih =>
    obtain rfl := aside_eq_none taken (next.extras_eq_nil hextras)
    cases hdrop : gs.any (drops ·.1) with
    | true =>
      rw [omitting_of_dropped hword gives hdrop]
      have flags := (isBundle_givenBy? gives).isFlag_of_dropped om.takesValue (by simp [hdrop])
      obtain ⟨m', hm', hreads⟩ := hr.reads_flags om taken flags
      obtain ⟨f', hf', hfollows⟩ := ih hextras hm'
      exact ⟨f', hreads _ _ hf', hfollows⟩
    | false =>
      rw [omitting_of_kept hword gives (by simp [Given.gives, hdrop])]
      obtain ⟨m', hm', taken'⟩ := hr.takeAll om taken hdrop
      obtain ⟨f', hf', hfollows⟩ := ih hextras hm'
      exact ⟨f', .given hword gives taken' hf', hfollows⟩
  | @valued r m f word value rest gs needy aside hword gives hvalue kind taken next ih =>
    obtain rfl := aside_eq_none taken (next.extras_eq_nil hextras)
    have flags := (isBundle_givenBy? gives).isFlag_of_needy
    have hgs : gs.any (drops ·.1) = false :=
      List.any_eq_false.mpr fun entry hentry => by simp [(flags entry hentry).not_dropped om.takesValue]
    cases hdrop : drops needy with
    | true =>
      rw [omitting_of_dropped_value hword gives (by simp [hdrop])]
      have hfilter : ((gs ++ [(needy, some value)]).filter fun entry => !drops entry.1) =
          gs.filter fun entry => !drops entry.1 := by
        simp [List.filter_append, hdrop]
      have flags' : ∀ entry ∈ gs.filter (fun entry => !drops entry.1), IsFlag switches entry :=
        fun entry hentry => flags entry (List.mem_filter.mp hentry).1
      rw [← hfilter] at flags' ⊢
      obtain ⟨m', hm', hreads⟩ := hr.reads_flags om taken flags'
      obtain ⟨f', hf', hfollows⟩ := ih hextras hm'
      exact ⟨f', hreads _ _ hf', hfollows⟩
    | false =>
      rw [omitting_of_kept hword gives (by simp [Given.gives, hgs, hdrop]),
        omitting_of_none hvalue (givenBy?_eq_none_of_classify kind (by intros; simp))]
      obtain ⟨m', hm', taken'⟩ := hr.takeAll om taken (by simp [hgs, hdrop])
      obtain ⟨f', hf', hfollows⟩ := ih hextras hm'
      exact ⟨f', .valued hword gives hvalue kind taken' hf', hfollows⟩

/-- Arguments that are accepted are accepted without the dropped switches, with the same operands. -/
theorem readArguments_omitting (om : Omissible custom switches take drops forget) {start s : σ}
    {words operands : List String}
    (h : readArguments custom switches single refuse take start words = .ok (s, operands)) :
    readArguments custom switches single refuse take (forget start) (omitting custom switches drops words) =
      .ok (forget s, operands) := by
  obtain ⟨f, hreads, hextras, rfl, rfl⟩ := readArguments_eq_ok_iff.mp h
  have hstart : Follows forget { settings := start } { settings := forget start } := ⟨rfl, rfl, rfl, .inr rfl⟩
  obtain ⟨f', hreads', hfollows⟩ := hreads.omitting om hextras hstart
  have hextras' : f'.extras = [] := hfollows.extras.trans hextras
  exact readArguments_eq_ok_iff.mpr ⟨f', hreads', hextras', hfollows.settings, hfollows.operands⟩

end

end StackCalc.Command
