import Mathlib.Data.List.ReduceOption
import Mathlib.Data.List.Sort
import StackCalc.Optimize.Fold

/-!
Maximal runs in a list of entries that are present or absent. What is present at the beginning is a maximal run if it is
long enough, and every other maximal run comes after the first entry that is absent. So a list can be searched for
maximal runs from the left, and the search that folding makes finds each of them once, in order.
-/

namespace StackCalc

variable {β : Type} {P : List β → Prop}

/-- A maximal run of two or more entries that are present: the entries next to it are absent, or there are none. -/
structure IsRun (before : List (Option β)) (run : List β) (after : List (Option β)) : Prop where
  two_le_length : 2 ≤ run.length
  before_last : ∀ x, before.getLast? ≠ some (some x)
  after_head : ∀ x, after.head? ≠ some (some x)

/-- The entries hold the maximal run `run` from the index `start` on. -/
def RunAt (entries : List (Option β)) (start : Nat) (run : List β) : Prop :=
  ∃ before after, entries = before ++ run.map some ++ after ∧ before.length = start ∧ IsRun before run after

/-- Every maximal run satisfies `P`. -/
def ForallRuns (P : List β → Prop) (entries : List (Option β)) : Prop :=
  ∀ before run after, entries = before ++ run.map some ++ after → IsRun before run after → P run

/-- The entries that are present at the beginning end at the first one that is absent. -/
theorem present_unique {xs ys : List β} {rest rest' : List (Option β)} (hrest : ∀ x, rest.head? ≠ some (some x))
    (hrest' : ∀ x, rest'.head? ≠ some (some x)) (h : xs.map some ++ rest = ys.map some ++ rest') :
    xs = ys ∧ rest = rest' := by
  induction xs generalizing ys with
  | nil =>
    cases ys with
    | nil => exact ⟨rfl, h⟩
    | cons y ys => exact absurd (by simpa using congrArg List.head? h) (hrest y)
  | cons x xs ih =>
    cases ys with
    | nil => exact absurd (by simpa using congrArg List.head? h.symm) (hrest' x)
    | cons y ys =>
      obtain ⟨hxy, h⟩ := List.cons.inj h
      obtain ⟨rfl, hrest⟩ := ih h
      exact ⟨by rw [Option.some.inj hxy], hrest⟩

/-- A maximal run is what is present at the beginning, or it comes after that. -/
theorem IsRun.eq_or_after {xs run : List β} {rest before after : List (Option β)}
    (hrest : ∀ x, rest.head? ≠ some (some x)) (hrun : IsRun before run after)
    (h : xs.map some ++ rest = before ++ run.map some ++ after) :
    (before = [] ∧ run = xs) ∨
      ∃ between, before = xs.map some ++ between ∧ rest = between ++ run.map some ++ after := by
  rw [List.append_assoc] at h
  rcases List.append_eq_append_iff.mp h with ⟨between, rfl, hrest⟩ | ⟨present, hxs, hafter⟩
  · exact .inr ⟨between, rfl, by rw [hrest, List.append_assoc]⟩
  · rcases List.eq_nil_or_concat before with rfl | ⟨before, last, rfl⟩
    · rw [List.nil_append] at hxs
      rw [← hxs] at hafter
      exact .inl ⟨rfl, (present_unique hrun.after_head hrest hafter).1⟩
    · obtain ⟨x, -, hx⟩ : ∃ x ∈ xs, some x = last := List.mem_map.mp (hxs ▸ by simp)
      exact absurd (by simp [hx]) (hrun.before_last x)

theorem runAt_present {xs run : List β} {start : Nat} :
    RunAt (xs.map some) start run ↔ start = 0 ∧ run = xs ∧ 2 ≤ xs.length := by
  constructor
  · rintro ⟨before, after, hentries, rfl, hrun⟩
    have hlength := hrun.two_le_length
    have hsplit : xs.map some ++ [] = before ++ run.map some ++ after := by simpa using hentries
    rcases hrun.eq_or_after (by simp) hsplit with ⟨rfl, rfl⟩ | ⟨between, -, hnil⟩
    · exact ⟨rfl, rfl, hlength⟩
    · simp only [List.nil_eq, List.append_eq_nil_iff, List.map_eq_nil_iff] at hnil
      rw [hnil.1.2] at hlength
      cases hlength
  · rintro ⟨rfl, rfl, hlength⟩
    exact ⟨[], [], by simp, rfl, hlength, by simp, by simp⟩

theorem runAt_append_none {xs run : List β} {rest : List (Option β)} {start : Nat} :
    RunAt (xs.map some ++ none :: rest) start run ↔
      (start = 0 ∧ run = xs ∧ 2 ≤ xs.length) ∨ ∃ start', start = xs.length + 1 + start' ∧ RunAt rest start' run := by
  constructor
  · rintro ⟨before, after, hentries, rfl, hrun⟩
    rcases hrun.eq_or_after (by simp) hentries with ⟨rfl, rfl⟩ | ⟨between, rfl, hbetween⟩
    · exact .inl ⟨rfl, rfl, hrun.two_le_length⟩
    · cases between with
      | nil =>
        have hlength := hrun.two_le_length
        cases run with
        | nil => cases hlength
        | cons x run => cases hbetween
      | cons entry between =>
        simp only [List.cons_append, List.cons.injEq] at hbetween
        obtain ⟨rfl, hbetween⟩ := hbetween
        refine .inr ⟨between.length, by simp; omega, between, after, hbetween, rfl, hrun.two_le_length, ?_,
          hrun.after_head⟩
        intro x hx
        exact hrun.before_last x (by simp [List.getLast?_append, List.getLast?_cons, hx])
  · rintro (⟨rfl, rfl, hlength⟩ | ⟨_, rfl, before, after, rfl, rfl, hrun⟩)
    · exact ⟨[], none :: rest, by simp, rfl, hlength, by simp, by simp⟩
    · refine ⟨xs.map some ++ none :: before, after, by simp, by simp; omega, hrun.two_le_length, ?_, hrun.after_head⟩
      intro x
      have hlast := hrun.before_last x
      rw [List.getLast?_append, List.getLast?_cons]
      cases hbefore : before.getLast? <;> simp_all

/-! ### Properties of all maximal runs -/

theorem forallRuns_iff_runAt {entries : List (Option β)} :
    ForallRuns P entries ↔ ∀ start run, RunAt entries start run → P run := by
  constructor
  · rintro h start run ⟨before, after, hentries, -, hrun⟩
    exact h before run after hentries hrun
  · intro h before run after hentries hrun
    exact h before.length run ⟨before, after, hentries, rfl, hrun⟩

/-- Two entries that are present do not both come first. -/
theorem forallRuns_of_tail {entries : List (Option β)} (h : ∀ entry ∈ entries.tail, entry = none) :
    ForallRuns P entries := by
  rintro before run after rfl hrun
  match run, hrun.two_le_length with
  | x :: y :: run, _ =>
    have hy : some y ∈ (before ++ (x :: y :: run).map some ++ after).tail := by
      cases before <;> simp
    cases h _ hy

theorem forallRuns_present {xs : List β} : ForallRuns P (xs.map some) ↔ (2 ≤ xs.length → P xs) := by
  simp [forallRuns_iff_runAt, runAt_present]

theorem forallRuns_append_none {xs : List β} {rest : List (Option β)} :
    ForallRuns P (xs.map some ++ none :: rest) ↔ (2 ≤ xs.length → P xs) ∧ ForallRuns P rest := by
  rw [forallRuns_iff_runAt, forallRuns_iff_runAt]
  constructor
  · intro h
    exact ⟨fun hlength => h 0 xs (runAt_append_none.mpr (.inl ⟨rfl, rfl, hlength⟩)),
      fun start run hrun => h _ run (runAt_append_none.mpr (.inr ⟨start, rfl, hrun⟩))⟩
  · rintro ⟨hxs, hrest⟩ start run hrun
    rcases runAt_append_none.mp hrun with ⟨-, rfl, hlength⟩ | ⟨start', -, hrun⟩
    · exact hxs hlength
    · exact hrest start' run hrun

/-! ### The search from the left -/

/-- The maximal runs with the indices at which they begin; each ends before the next one begins. -/
structure IsPlacement (entries : List (Option β)) (placed : List (Nat × List β)) : Prop where
  mem_iff : ∀ start run, (start, run) ∈ placed ↔ RunAt entries start run
  apart : placed.Pairwise fun earlier later => earlier.1 + earlier.2.length < later.1

theorem isPlacement_present (xs : List β) :
    IsPlacement (xs.map some) (if 2 ≤ xs.length then [(0, xs)] else []) where
  mem_iff start run := by
    rw [runAt_present]
    split <;> simp_all
  apart := by split <;> simp

/-- The runs after the first entry that is absent are those of the rest, moved up. -/
theorem IsPlacement.append_none {rest : List (Option β)} {placed : List (Nat × List β)} (h : IsPlacement rest placed)
    (xs : List β) : IsPlacement (xs.map some ++ none :: rest)
      ((if 2 ≤ xs.length then [(0, xs)] else []) ++ placed.map (Prod.map (xs.length + 1 + ·) id)) where
  mem_iff start run := by
    have hmoved : (start, run) ∈ placed.map (Prod.map (xs.length + 1 + ·) id) ↔
        ∃ start', start = xs.length + 1 + start' ∧ RunAt rest start' run := by
      simp [h.mem_iff, eq_comm, and_comm]
    rw [runAt_append_none, List.mem_append, hmoved]
    refine or_congr_left ?_
    split <;> simp_all
  apart := by
    refine List.pairwise_append.mpr ⟨by split <;> simp, ?_, ?_⟩
    · rw [List.pairwise_map]
      refine h.apart.imp fun hlt => ?_
      simp only [Prod.map_fst, Prod.map_snd, id_eq]
      omega
    · intro earlier hearlier later hlater
      obtain ⟨_, -, rfl⟩ := List.mem_map.mp hlater
      split at hearlier
      · obtain rfl := List.mem_singleton.mp hearlier
        simp only [Prod.map_fst]
        omega
      · cases hearlier

theorem exists_isPlacement_runsFrom (current : List β) (entries : List (Option β)) :
    ∃ placed, placed.map Prod.snd = runsFrom current entries ∧ IsPlacement (current.map some ++ entries) placed := by
  induction entries generalizing current with
  | nil =>
    refine ⟨_, ?_, by simpa using isPlacement_present current⟩
    rw [runsFrom]
    split <;> rfl
  | cons entry entries ih =>
    cases entry with
    | some x =>
      obtain ⟨placed, hruns, hplaced⟩ := ih (current ++ [x])
      exact ⟨placed, by rw [hruns, runsFrom], by simpa using hplaced⟩
    | none =>
      obtain ⟨placed, hruns, hplaced⟩ := ih []
      refine ⟨_, ?_, hplaced.append_none current⟩
      rw [List.map_append, List.map_map, runsFrom, ← hruns]
      congr 1
      split <;> rfl

theorem two_le_length_of_mem_literalRuns {entries : List (Option β)} {run : List β} (h : run ∈ literalRuns entries) :
    2 ≤ run.length := by
  obtain ⟨placed, hruns, hplaced⟩ := exists_isPlacement_runsFrom [] entries
  rw [literalRuns, ← hruns] at h
  obtain ⟨⟨start, _⟩, hmem, rfl⟩ := List.mem_map.mp h
  obtain ⟨_, _, _, _, hrun⟩ := (hplaced.mem_iff start _).mp hmem
  exact hrun.two_le_length

theorem flatten_runsFrom_sublist (current : List β) (entries : List (Option β)) :
    (runsFrom current entries).flatten.Sublist (current ++ entries.reduceOption) := by
  have hcurrent : ∀ current : List β, (if 2 ≤ current.length then [current] else []).flatten.Sublist current := by
    intro current
    split <;> simp
  induction entries generalizing current with
  | nil => simpa [runsFrom] using hcurrent current
  | cons entry entries ih =>
    cases entry with
    | some x =>
      rw [runsFrom, List.reduceOption_cons_of_some]
      simpa using ih (current ++ [x])
    | none =>
      rw [runsFrom, List.reduceOption_cons_of_none, List.flatten_append]
      exact (hcurrent current).append (ih [])

/-- Where the maximal runs begin tells their order. -/
theorem IsPlacement.unique {entries : List (Option β)} {placed placed' : List (Nat × List β)}
    (h : IsPlacement entries placed) (h' : IsPlacement entries placed') : placed = placed' := by
  have hasymm : Std.Asymm fun earlier later : Nat × List β => earlier.1 + earlier.2.length < later.1 :=
    ⟨fun _ _ _ => by omega⟩
  exact h.apart.eq_of_mem_iff h'.apart fun ⟨start, run⟩ => by rw [h.mem_iff, h'.mem_iff]

/-- The runs that are found are the maximal runs in the order of the indices at which they begin, each of them once, and
    no entry belongs to two of them. -/
theorem literalRuns_placed (entries : List (Option β)) :
    ∃! placed : List (Nat × List β), placed.map Prod.snd = literalRuns entries ∧
      (∀ start run, (start, run) ∈ placed ↔ RunAt entries start run) ∧
      placed.Pairwise fun earlier later => earlier.1 + earlier.2.length < later.1 := by
  obtain ⟨placed, hruns, hplaced⟩ := exists_isPlacement_runsFrom [] entries
  refine ⟨placed, ⟨hruns, hplaced.mem_iff, hplaced.apart⟩, ?_⟩
  rintro placed' ⟨-, hmem, hapart⟩
  exact IsPlacement.unique ⟨hmem, hapart⟩ hplaced

example : literalRuns [some 1, some 2, none, some 3, none, some 4, some 5] = [[1, 2], [4, 5]] := by decide

end StackCalc
