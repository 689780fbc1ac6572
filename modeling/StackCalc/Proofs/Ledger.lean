import Mathlib.Data.List.ReduceOption
import StackCalc.Proofs.FoldingDraft

/-!
The passes of the optimizer with a record of their revisions. A draft shows an instruction as it stands and not what it
was before; a ledger keeps every revision that a pass makes, and the pass reads the program through it: whether an
operation may be taken over is decided by the program as it was, how many operands it has by its last revision. A
position that was retired and is read as an operation or a literal is a fault here. The passes on drafts cannot show it.
-/

namespace StackCalc

variable {α : Type}

/-- Why a pass on a ledger stops: an operation lacks operands, or an instruction is not of the kind as which it is
    read. -/
inductive Halt where
  | lacking
  | misread
deriving DecidableEq, Repr

@[simp]
theorem Halt.ok_bind {β γ : Type} (b : β) (f : β → Except Halt γ) : (Except.ok b >>= f) = f b := rfl

@[simp]
theorem Halt.pure_eq {β : Type} (b : β) : (pure b : Except Halt β) = .ok b := rfl

/-- The revisions that a pass has made, the latest first, and its simulated stack. -/
structure Ledger (α : Type) where
  revisions : List (Nat × Instr α) := []
  stack : List (Option Nat) := []

namespace Ledger

section Steps

variable (p : Program α)

/-- The instruction at a position as it was revised last, or else as the program has it. -/
def current? (l : Ledger α) (position : Nat) : Option (Instr α) :=
  (l.revisions.lookup position).or p[position]?

def revise (l : Ledger α) (position : Nat) (i : Instr α) : Ledger α :=
  { l with revisions := (position, i) :: l.revisions }

/-- Retires the instructions at some positions. -/
def retire (l : Ledger α) (positions : List Nat) : Ledger α :=
  positions.foldl (fun l position => l.revise position .nop) l

/-- Revises how many operands the operation at a position takes, if that has changed. -/
def resize (l : Ledger α) (position : Nat) (o : Operation) (extra : Nat) : Ledger α :=
  if extra = o.extra then l else l.revise position (.apply (o.withExtra extra))

/-- The operation at a position. -/
def operationAt (l : Ledger α) (position : Nat) : Except Halt Operation :=
  match l.current? p position with
  | some (.apply o) => .ok o
  | _ => .error .misread

/-- The literal that the instruction at a position pushes. -/
def literalAt (l : Ledger α) (position : Nat) : Except Halt α :=
  match l.current? p position with
  | some (.push value) => .ok value
  | _ => .error .misread

/-- The operands of an operation and the stack below them. -/
def operands (l : Ledger α) (o : Operation) : Except Halt (List (Option Nat) × List (Option Nat)) :=
  match pop? o.arity l.stack with
  | some split => .ok split
  | none => .error .lacking

/-- Takes over the operands of the producer at a position, if it was written as the operator `op`. -/
def absorb (op : Operator) : Ledger α × Nat → Option Nat → Except Halt (Ledger α × Nat)
  | (l, extra), none => .ok (l, extra)
  | (l, extra), some position =>
    match p[position]? with
    | some (.apply o) =>
      if o.operator = op then do
        let absorbed ← l.operationAt p position
        return (l.revise position .nop, extra + absorbed.extra)
      else .ok (l, extra)
    | some _ => .ok (l, extra)
    | none => .error .misread

/-- One step of fusing, on the instruction at a position. -/
def fuseStep (l : Ledger α) (position : Nat) : Instr α → Except Halt (Ledger α)
  | .apply o => do
    let (operands, rest) ← l.operands o
    if o.isFusible then
      let (l, extra) ← operands.foldlM (absorb p o.operator) (l, o.extra)
      return { l.resize position o extra with stack := some position :: rest }
    else return { l with stack := none :: rest }
  | .push _ | .fetch _ => .ok { l with stack := none :: l.stack }
  | _ => .ok l

/-- One step of merging, on the instruction at a position. -/
def mergeStep (l : Ledger α) (position : Nat) : Instr α → Except Halt (Ledger α)
  | .apply o =>
    match position with
    | 0 => .ok l
    | previous + 1 =>
      match p[previous]? with
      | some (.apply before) =>
        if o.isFusible && before.operator == o.operator then do
          let before ← l.operationAt p previous
          return (l.revise previous .nop).revise position (.apply (o.withExtra (o.extra + before.extra)))
        else .ok l
      | _ => .ok l
  | _ => .ok l

variable (arithmetic : Arithmetic α) (representable : α → Bool)

/-- The result of an operator on the literals at some positions. -/
def result (l : Ledger α) (op : Operator) (positions : List Nat) : Except Halt α := do
  match combine? (arithmetic op) (← positions.mapM (l.literalAt p)) with
  | some value => .ok value
  | none => .error .misread

/-- Folds a run of literals into its first position; `extra` counts the operands that are left. -/
def foldRun (op : Operator) : Ledger α × Nat → List Nat → Except Halt (Ledger α × Nat)
  | (_, _), [] => .error .misread
  | (l, extra), first :: others => do
    let value ← l.result p arithmetic op (first :: others)
    if representable value then return ((l.revise first (.push value)).retire others, extra - others.length)
    else return (l, extra)

/-- One step of folding, on the instruction at a position. -/
def foldStep (l : Ledger α) (position : Nat) : Instr α → Except Halt (Ledger α)
  | .apply o => do
    let (operands, rest) ← l.operands o
    match allPresent? operands with
    | some positions =>
      let value ← l.result p arithmetic o.operator positions
      if representable value then
        return { (l.retire positions).revise position (.push value) with stack := some position :: rest }
      else return { l with stack := none :: rest }
    | none =>
      if o.isFusible then
        let (l, extra) ← (literalRuns operands).foldlM (foldRun p arithmetic representable o.operator) (l, o.extra)
        return { l.resize position o extra with stack := none :: rest }
      else return { l with stack := none :: rest }
  | .push _ => .ok { l with stack := some position :: l.stack }
  | .fetch _ => .ok { l with stack := none :: l.stack }
  | _ => .ok l

end Steps

section Passes

variable (p : Program α) (step : Ledger α → Nat → Instr α → Except Halt (Ledger α))

/-- The ledger of a pass after the first `count` instructions. -/
def after : Nat → Except Halt (Ledger α)
  | 0 => .ok {}
  | count + 1 => do
    let l ← after count
    match p[count]? with
    | some i => step l count i
    | none => return l

/-- The program as a ledger revises it. -/
def program (l : Ledger α) : Program α :=
  (p.zipIdx.map fun (i, position) => (l.revisions.lookup position).getD i).filter fun i => !i.isNop

/-- The program after a pass. If an operation lacks operands, it stays as it is. -/
def revised : Except Halt (Program α) :=
  match after p step p.length with
  | .ok l => .ok (l.program p)
  | .error .lacking => .ok p
  | .error .misread => .error .misread

end Passes

variable {p : Program α} {l : Ledger α} {d : Draft α} {count : Nat}

theorem current?_revise (l : Ledger α) (position other : Nat) (i : Instr α) :
    (l.revise position i).current? p other = if other = position then some i else l.current? p other := by
  rw [current?, revise, List.lookup_cons]
  by_cases h : other = position
  · simp [h]
  · simp [beq_false_of_ne h, h, current?]

/-- No position is revised after it was retired. -/
def RetiresOnce (l : Ledger α) : Prop :=
  l.revisions.Pairwise fun later earlier => earlier.2.isNop = true → later.1 ≠ earlier.1

/-- What was retired reads as `nop` from then on. -/
theorem RetiresOnce.current? (h : l.RetiresOnce) {position : Nat} {i : Instr α} (hi : (position, i) ∈ l.revisions)
    (hnop : i.isNop = true) : l.current? p position = some i := by
  obtain ⟨later, earlier, hrevisions⟩ := List.append_of_mem hi
  rw [RetiresOnce, hrevisions, List.pairwise_append] at h
  have hlookup : l.revisions.lookup position = some i := by
    refine List.lookup_eq_some_iff.mpr ⟨later, earlier, hrevisions, fun revision hrevision => bne_iff_ne.mpr ?_⟩
    exact (h.2.2 revision hrevision (position, i) (by simp) hnop).symm
  rw [Ledger.current?, hlookup, Option.some_or]

theorem RetiresOnce.revise (h : l.RetiresOnce) {position : Nat}
    (hlive : ∀ i, (position, i) ∈ l.revisions → i.isNop = false) (i : Instr α) : (l.revise position i).RetiresOnce := by
  refine List.pairwise_cons.mpr ⟨?_, h⟩
  rintro ⟨_, i'⟩ hi' hnop rfl
  exact absurd hnop (by simp [hlive i' hi'])

/-! ### A ledger and a draft of the same pass -/

/-- The ledger after `count` instructions tells the instructions of the draft. -/
structure Tells (p : Program α) (count : Nat) (l : Ledger α) (d : Draft α) : Prop where
  size : d.code.size = count
  code : ∀ position < count, d.code[position]? = l.current? p position
  lt : ∀ revision ∈ l.revisions, revision.1 < count
  retiresOnce : l.RetiresOnce

namespace Tells

theorem empty (p : Program α) : Tells p 0 {} {} where
  size := rfl
  code _ h := absurd h (Nat.not_lt_zero _)
  lt _ h := by cases h
  retiresOnce := .nil

/-- What a ledger has not revised stands as the program has it. -/
theorem current?_of_le (h : Tells p count l d) {position : Nat} (hle : count ≤ position) :
    l.current? p position = p[position]? := by
  have hlookup : l.revisions.lookup position = none := by
    refine List.lookup_eq_none_iff.mpr fun revision hrevision => ?_
    have := h.lt revision hrevision
    simp only [bne_iff_ne, ne_eq]
    omega
  rw [current?, hlookup, Option.none_or]

/-- The last instruction of the draft. -/
theorem back? {previous : Nat} (h : Tells p (previous + 1) l d) : d.code.back? = l.current? p previous := by
  rw [Array.back?_eq_getElem?, h.size, Nat.add_sub_cancel, h.code previous (Nat.lt_succ_self previous)]

/-- An instruction that was not retired may be revised. -/
theorem revise (h : Tells p count l d) {position : Nat} {i' : Instr α} (hlt : position < count)
    (hcurrent : l.current? p position = some i') (hlive : i'.isNop = false) (i : Instr α) :
    Tells p count (l.revise position i) (d.revise position i) where
  size := by simp [Draft.revise, h.size]
  code other hother := by
    rw [current?_revise, ← h.code other hother]
    by_cases heq : other = position
    · simp [Draft.revise, heq, h.size, hlt]
    · simp [Draft.revise, heq, Ne.symm heq]
  lt := by
    rintro revision (_ | ⟨_, hrevision⟩)
    · exact hlt
    · exact h.lt revision hrevision
  retiresOnce := by
    refine h.retiresOnce.revise (fun i hi => ?_) i
    refine Bool.eq_false_iff.mpr fun hnop => ?_
    have hretired : l.current? p position = some i := h.retiresOnce.current? hi hnop
    rw [hcurrent, Option.some.injEq] at hretired
    rw [← hretired, hlive] at hnop
    cases hnop

/-- The next instruction is written as the program has it. -/
theorem write (h : Tells p count l d) {i : Instr α} (hi : p[count]? = some i) (stack stack' : List (Option Nat)) :
    Tells p (count + 1) { l with stack } { code := d.code.push i, stack := stack' } where
  size := by simp [h.size]
  code position hposition := by
    rw [Array.getElem?_push, h.size]
    split
    next heq => rw [heq, ← hi]; exact (h.current?_of_le (Nat.le_refl count)).symm
    next hne => exact h.code position (by omega)
  lt revision hrevision := Nat.lt_succ_of_lt (h.lt revision hrevision)
  retiresOnce := h.retiresOnce

/-- The next instruction is revised at once. -/
theorem write_revised (h : Tells p count l d) (i : Instr α) (stack stack' : List (Option Nat)) :
    Tells p (count + 1) { l.revise count i with stack } { code := d.code.push i, stack := stack' } where
  size := by simp [h.size]
  code position hposition := by
    rw [Array.getElem?_push, h.size]
    have hcurrent : (l.revise count i).current? p position = _ := current?_revise l count position i
    refine Eq.trans ?_ hcurrent.symm
    split
    next => rfl
    next hne => exact h.code position (by omega)
  lt := by
    rintro revision (_ | ⟨_, hrevision⟩)
    · exact Nat.lt_succ_self count
    · exact Nat.lt_succ_of_lt (h.lt revision hrevision)
  retiresOnce := by
    refine h.retiresOnce.revise (fun i hi => absurd (h.lt _ hi) ?_) i
    exact Nat.lt_irrefl count

theorem current?_resize (h : Tells p count l d) {o : Operation} (hi : p[count]? = some (.apply o)) (extra : Nat) :
    (l.resize count o extra).current? p count = some (.apply (o.withExtra extra)) := by
  unfold resize
  split
  next heq => rw [h.current?_of_le (Nat.le_refl count), hi, heq, Operation.withExtra_extra]
  next => rw [current?_revise, if_pos rfl]

theorem write_resized (h : Tells p count l d) {o : Operation} (hi : p[count]? = some (.apply o)) (extra : Nat)
    (stack stack' : List (Option Nat)) :
    Tells p (count + 1) { l.resize count o extra with stack }
      { code := d.code.push (.apply (o.withExtra extra)), stack := stack' } := by
  unfold resize
  split
  next heq => simpa [heq] using h.write hi stack stack'
  next => exact h.write_revised _ stack stack'

/-- A ledger and a draft that have read the whole program stand for the same program. -/
theorem program_eq (h : Tells p p.length l d) : l.program p = d.program := by
  have hcode : (p.zipIdx.map fun (i, position) => (l.revisions.lookup position).getD i) = d.code.toList := by
    refine List.ext_getElem? fun position => ?_
    have hget : d.code.toList[position]? = d.code[position]? := Array.getElem?_toList
    rw [List.getElem?_map, List.getElem?_zipIdx, Nat.zero_add, hget]
    by_cases hlt : position < p.length
    · rw [h.code position hlt, current?, List.getElem?_eq_getElem hlt, Option.or_some]
      rfl
    · have hsize : d.code[position]? = none := Array.getElem?_eq_none (h.size ▸ Nat.le_of_not_lt hlt)
      rw [hsize, List.getElem?_eq_none (Nat.le_of_not_lt hlt)]
      rfl
  rw [program, hcode, Draft.program]

end Tells

/-! ### Positions on the stack -/

/-- Every one of some positions occurs once, and its instruction as it was revised last satisfies `I`. -/
structure Owns (p : Program α) (count : Nat) (l : Ledger α) (I : Nat → Instr α → Prop) (owned : List Nat) : Prop where
  once : owned.Nodup
  lt : ∀ position ∈ owned, position < count
  current : ∀ position ∈ owned, ∃ i, l.current? p position = some i ∧ I position i

namespace Owns

variable {I : Nat → Instr α → Prop} {owned owned' : List Nat}

theorem of_sublist (h : Owns p count l I owned) (hsub : owned'.Sublist owned) : Owns p count l I owned' where
  once := h.once.sublist hsub
  lt position hposition := h.lt position (hsub.subset hposition)
  current position hposition := h.current position (hsub.subset hposition)

theorem perm (h : Owns p count l I owned) (hperm : owned'.Perm owned) : Owns p count l I owned' where
  once := hperm.nodup_iff.mpr h.once
  lt position hposition := h.lt position (hperm.subset hposition)
  current position hposition := h.current position (hperm.subset hposition)

theorem with_stack (h : Owns p count l I owned) (stack : List (Option Nat)) :
    Owns p count { l with stack } I owned where
  once := h.once
  lt := h.lt
  current := h.current

theorem tail {position : Nat} (h : Owns p count l I (position :: owned)) : Owns p count l I owned :=
  h.of_sublist (List.sublist_cons_self ..)

/-- Other positions do not see a revision. -/
theorem revise_of_not_mem (h : Owns p count l I owned) {position : Nat} (hposition : position ∉ owned) (i : Instr α) :
    Owns p count (l.revise position i) I owned where
  once := h.once
  lt := h.lt
  current other hother := by
    have hne : other ≠ position := fun heq => hposition (heq ▸ hother)
    rw [current?_revise, if_neg hne]
    exact h.current other hother

theorem revise {position : Nat} (h : Owns p count l I (position :: owned)) (i : Instr α) :
    Owns p count (l.revise position i) I owned :=
  h.tail.revise_of_not_mem (List.nodup_cons.mp h.once).1 i

theorem succ (h : Owns p count l I owned) : Owns p (count + 1) l I owned where
  once := h.once
  lt position hposition := Nat.lt_succ_of_lt (h.lt position hposition)
  current := h.current

theorem count_not_mem (h : Owns p count l I owned) : count ∉ owned :=
  fun hmem => Nat.lt_irrefl count (h.lt count hmem)

theorem push (h : Owns p count l I owned) {i : Instr α} (hcurrent : l.current? p count = some i) (hi : I count i) :
    Owns p (count + 1) l I (count :: owned) where
  once := List.nodup_cons.mpr ⟨h.count_not_mem, h.once⟩
  lt := by
    rintro position (_ | ⟨_, hposition⟩)
    · exact Nat.lt_succ_self count
    · exact h.succ.lt position hposition
  current := by
    rintro position (_ | ⟨_, hposition⟩)
    · exact ⟨i, hcurrent, hi⟩
    · exact h.current position hposition

theorem resize (h : Owns p count l I owned) (o : Operation) (extra : Nat) :
    Owns p count (l.resize count o extra) I owned := by
  unfold Ledger.resize
  split
  · exact h
  · exact h.revise_of_not_mem h.count_not_mem _

/-- The operands of an operation and the stack below them share no position. -/
theorem pop (h : Owns p count l I l.stack.reduceOption) {n : Nat} {operands rest : List (Option Nat)}
    (hpop : pop? n l.stack = some (operands, rest)) :
    Owns p count l I (operands.reduceOption ++ rest.reduceOption) := by
  obtain ⟨hstack, -⟩ := pop?_eq_some_iff.mp hpop
  rw [hstack, List.reduceOption_append] at h
  have hreverse : operands.reverse.reduceOption = operands.reduceOption.reverse := List.filterMap_reverse
  exact h.perm ((hreverse ▸ (List.reverse_perm _).symm).append_right _)

end Owns

end Ledger

end StackCalc
