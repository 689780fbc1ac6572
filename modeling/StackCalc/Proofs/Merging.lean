import Mathlib.Data.List.Chain
import StackCalc.Proofs.Fusion
import StackCalc.Proofs.Producers

/-!
Merging neighbours until none are left to merge. Merging drops every `nop`, and one pass over a program without `nop`
leaves no two neighbours that could still be merged: an operation that has taken over the operands of its neighbour is
the same operator, so it stands next to what its neighbour stood next to. A `nop` keeps operations apart until it has
been dropped, and then the program is shorter. Whether operands are lacking does not change.
-/

namespace StackCalc

variable {α : Type}

namespace Program

def NopFree (p : Program α) : Prop :=
  ∀ i ∈ p, i.isNop = false

/-- No two neighbours can be merged. -/
def IsMerged (p : Program α) : Prop :=
  p.IsChain fun i j => i.mergeable j = false

theorem nopFree_filter (p : Program α) : NopFree (p.filter fun i => !i.isNop) := by
  intro i hi
  simpa using (List.mem_filter.mp hi).2

theorem NopFree.filter_eq {p : Program α} (h : p.NopFree) : (p.filter fun i => !i.isNop) = p :=
  List.filter_eq_self.mpr fun i hi => by simp [h i hi]

theorem nopFree_merge (p : Program α) : p.merge.NopFree :=
  nopFree_filter _

end Program

/-- Whether an operation can be merged with the instruction before it depends on its operator only. -/
theorem Instr.mergeable_congr {o other : Operation} (h : o.operator = other.operator) (i : Instr α) :
    i.mergeable (.apply o) = i.mergeable (.apply other) := by
  cases i <;> simp [mergeable, Operation.isFusible, h]

/-! ### Programs without neighbours to merge -/

theorem Draft.code_foldl_mergeStep {d : Draft α} {p : Program α} (h : Program.IsMerged (d.code.toList ++ p)) :
    (p.foldl mergeStep d).code.toList = d.code.toList ++ p := by
  induction p generalizing d with
  | nil => simp
  | cons i p ih =>
    rcases d.mergeStep_cases i with ⟨heq, -⟩ | ⟨code, before, o, hcode, rfl, hf, ho, -⟩
    · have hnext : Program.IsMerged ((d.mergeStep i).code.toList ++ p) := by simpa [heq] using h
      simp [ih hnext, heq]
    · obtain ⟨-, -, hneighbours⟩ := List.isChain_append.mp h
      have hfalse := hneighbours (.apply before) (by simp [hcode]) (.apply o) (by simp)
      simp [Instr.mergeable, hf, ho] at hfalse

theorem Program.merge_eq_self {p : Program α} (hnop : p.NopFree) (h : p.IsMerged) : p.merge = p := by
  have hcode : (p.foldl Draft.mergeStep {}).code.toList = p := Draft.code_foldl_mergeStep (d := {}) (by simpa using h)
  rw [merge, Draft.program, hcode, hnop.filter_eq]

/-! ### One pass merges all neighbours -/

/-- What merging keeps while it reads a program without `nop`: no `nop` has been written last, and the draft stands for
    a program without neighbours to merge. -/
structure Draft.KeepsApart (d : Draft α) : Prop where
  last : ∀ last ∈ d.code.back?, last.isNop = false
  merged : d.program.IsMerged

namespace Draft.KeepsApart

variable {d : Draft α}

theorem getLast?_program (h : d.KeepsApart) : d.program.getLast? = d.code.back? := by
  have hlast := h.last
  rw [← Array.getLast?_toList] at hlast ⊢
  rw [program]
  rcases List.eq_nil_or_concat d.code.toList with hnil | ⟨code, last, hcode⟩
  · rw [hnil]
    rfl
  · have hnop : last.isNop = false := hlast last (by simp [hcode])
    simp [hcode, hnop]

theorem mergeStep (h : d.KeepsApart) {i : Instr α} (hi : i.isNop = false) : (d.mergeStep i).KeepsApart := by
  rcases d.mergeStep_cases i with ⟨heq, hlast⟩ | ⟨code, before, o, hcode, rfl, hf, ho, heq⟩
  · constructor
    · rw [← Array.getLast?_toList, heq]
      simp [hi]
    · have hprogram : (d.mergeStep i).program = d.program ++ [i] := by simp [program, heq, hi]
      rw [hprogram]
      refine List.isChain_append.mpr ⟨h.merged, .singleton i, ?_⟩
      simpa [h.getLast?_program] using hlast
  · constructor
    · rw [← Array.getLast?_toList, heq]
      simp [Instr.isNop]
    · -- The merged operation stands where the one before it stood.
      have hprogram : d.program = (code.filter fun i => !i.isNop) ++ [.apply before] := by
        simp [program, hcode, Instr.isNop]
      have hmerged : (d.mergeStep (.apply o)).program =
          (code.filter fun i => !i.isNop) ++ [.apply (o.withExtra (o.extra + before.extra))] := by
        simp [program, heq, Instr.isNop]
      have hbefore := h.merged
      rw [hprogram] at hbefore
      obtain ⟨hcode, -, hneighbours⟩ := List.isChain_append.mp hbefore
      rw [hmerged]
      refine List.isChain_append.mpr ⟨hcode, .singleton _, fun x hx y hy => ?_⟩
      obtain rfl : .apply (o.withExtra (o.extra + before.extra)) = y := by simpa using hy
      have hsame : (o.withExtra (o.extra + before.extra)).operator = before.operator := by simp [ho]
      rw [Instr.mergeable_congr hsame]
      exact hneighbours x hx _ (by simp)

theorem foldl_mergeStep (h : d.KeepsApart) {p : Program α} (hp : p.NopFree) :
    (p.foldl Draft.mergeStep d).KeepsApart := by
  induction p generalizing d with
  | nil => exact h
  | cons i p ih => exact ih (h.mergeStep (hp i (by simp))) fun j hj => hp j (by simp [hj])

end Draft.KeepsApart

theorem Program.NopFree.isMerged_merge {p : Program α} (h : p.NopFree) : p.merge.IsMerged :=
  (Draft.KeepsApart.foldl_mergeStep (d := {}) ⟨by simp, .nil⟩ h).merged

/-! ### Dropping `nop` -/

theorem Draft.length_program_mergeStep_le (d : Draft α) (i : Instr α) :
    (d.mergeStep i).program.length ≤ d.program.length + ([i].filter fun i => !i.isNop).length := by
  rcases d.mergeStep_cases i with ⟨heq, -⟩ | ⟨code, before, o, hcode, rfl, hf, ho, heq⟩
  · simp [program, heq]
  · simp [program, heq, hcode, Instr.isNop]

theorem Draft.length_program_foldl_mergeStep_le (d : Draft α) (p : Program α) :
    (p.foldl mergeStep d).program.length ≤ d.program.length + (p.filter fun i => !i.isNop).length := by
  induction p generalizing d with
  | nil => simp
  | cons i p ih =>
    have hnext := ih (d.mergeStep i)
    have hstep := d.length_program_mergeStep_le i
    rw [List.foldl_cons, ← List.singleton_append, List.filter_append, List.length_append]
    omega

/-- A program that merging does not shorten has no `nop`. -/
theorem Program.nopFree_of_length_le_merge {p : Program α} (h : p.length ≤ p.merge.length) : p.NopFree := by
  have hle : p.merge.length ≤ (p.filter fun i => !i.isNop).length := by
    simpa [merge, Draft.program] using Draft.length_program_foldl_mergeStep_le {} p
  have hlength := List.length_filter_le (fun i : Instr α => !i.isNop) p
  have hall := List.length_filter_eq_length_iff.mp (Nat.le_antisymm hlength (h.trans hle))
  intro i hi
  simpa using hall i hi

/-! ### Folds over a merged program -/

section Fold

variable {β : Type} {f : β → Instr α → Option β}
  (hmerged : ∀ {o before : Operation}, o.isFusible = true → before.operator = o.operator → ∀ state,
    [.nop, .apply (o.withExtra (o.extra + before.extra))].foldlM f state = [.apply before, .apply o].foldlM f state)
include hmerged

theorem Draft.foldlM_mergeStep (d : Draft α) (i : Instr α) (state : β) :
    (d.mergeStep i).code.toList.foldlM f state = (d.code.toList ++ [i]).foldlM f state := by
  rcases d.mergeStep_cases i with ⟨heq, -⟩ | ⟨code, before, o, hcode, rfl, hf, ho, heq⟩
  · rw [heq]
  · rw [heq, hcode, List.append_assoc, List.foldlM_append, List.foldlM_append]
    simp only [hmerged hf ho, List.singleton_append]

theorem Draft.foldlM_foldl_mergeStep (d : Draft α) (p : Program α) (state : β) :
    (p.foldl mergeStep d).code.toList.foldlM f state = (d.code.toList ++ p).foldlM f state := by
  induction p generalizing d with
  | nil => simp
  | cons i p ih =>
    rw [List.foldl_cons, ih, List.foldlM_append, foldlM_mergeStep hmerged, ← List.foldlM_append, ← List.append_cons]

/-- Merging does not change a fold to which a merged operation is the two operations that it was made of. -/
theorem Program.foldlM_merge (hnop : ∀ state, f state .nop = some state) (p : Program α) (state : β) :
    p.merge.foldlM f state = p.foldlM f state := by
  rw [merge, Draft.program, foldlM_filter_isNop hnop, Draft.foldlM_foldl_mergeStep hmerged]
  rfl

end Fold

/-! ### Lacking operands -/

theorem Instr.foldlM_rise?_merged {o before : Operation} (hf : o.isFusible = true) (height : Nat) :
    ([.nop, .apply (o.withExtra (o.extra + before.extra))] : Program α).foldlM Instr.rise? height =
      ([.apply before, .apply o] : Program α).foldlM Instr.rise? height := by
  have hextra := Operation.extra_withExtra (Operation.isVariadic_of_isFusible hf) (o.extra + before.extra)
  simp only [List.foldlM_cons, List.foldlM_nil, rise?, Operation.arity, hextra, Option.bind_eq_bind, Option.bind_some,
    Option.pure_def, Option.bind_fun_some]
  by_cases henough : o.extra + before.extra + 1 ≤ height
  · have hbefore : before.extra + 1 ≤ height := by omega
    have hsecond : o.extra + 1 ≤ height - before.extra := by omega
    have hleft : height - (o.extra + before.extra) = height - before.extra - o.extra := by omega
    simp only [henough, hbefore, hsecond, hleft, if_true, Option.bind_some]
  · by_cases hbefore : before.extra + 1 ≤ height
    · have hsecond : ¬ o.extra + 1 ≤ height - before.extra := by omega
      simp only [henough, hbefore, hsecond, if_true, if_false, Option.bind_some]
    · simp only [henough, hbefore, if_false, Option.bind_none]

/-- Merging neither makes up for operands that are lacking nor uses up operands. -/
theorem Program.isSome_producers?_merge (p : Program α) : p.merge.producers?.isSome = p.producers?.isSome := by
  have hfold := foldlM_merge (fun hf _ => Instr.foldlM_rise?_merged hf) (fun _ => rfl) p 0
  rw [isSome_producers?, isSome_producers?, hfold]

end StackCalc
