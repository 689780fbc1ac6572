import StackCalc.Optimize.Draft
import StackCalc.Proofs.Forest

/-!
Drafts that follow a forest. The code of a draft is that of a forest, and its stack holds one entry for each value that
the forest leaves: the position of the instruction that pushes the value, if the pass remembers such instructions. A
pass whose steps follow a transformation of forests replaces the forest of a program by the transformed one, and gives
up exactly the programs that have no forest. The transformations never move or change an instruction that declares or
fetches a name.
-/

namespace StackCalc

variable {α : Type}

/-! ### Names in their places -/

/-- The instruction itself, if it declares or fetches a name. -/
def Instr.named? : Instr α → Option (Instr α)
  | .declare name => some (.declare name)
  | .fetch name => some (.fetch name)
  | _ => none

namespace Program

/-- The skeleton of a program: the instructions that declare or fetch a name, each in its place. -/
def skeleton (p : Program α) : List (Option (Instr α)) :=
  p.map Instr.named?

@[simp]
theorem skeleton_nil : skeleton ([] : Program α) = [] := rfl

@[simp]
theorem skeleton_cons (i : Instr α) (p : Program α) : skeleton (i :: p) = i.named? :: p.skeleton := rfl

@[simp]
theorem skeleton_append (p q : Program α) : skeleton (p ++ q) = p.skeleton ++ q.skeleton :=
  List.map_append

@[simp]
theorem length_skeleton (p : Program α) : p.skeleton.length = p.length :=
  List.length_map _

end Program

/-- Trees may be replaced by forests with the same skeleton. -/
theorem Forest.skeleton_flatMap {f : Tree α → Forest α} {ts : Forest α}
    (h : ∀ t ∈ ts, (code (f t)).skeleton = t.code.skeleton) : (code (ts.flatMap f)).skeleton = (code ts).skeleton := by
  induction ts with
  | nil => rfl
  | cons t ts ih =>
    rw [List.flatMap_cons, code_append, code_cons, Program.skeleton_append, Program.skeleton_append, h t (by simp),
      ih fun t ht => h t (by simp [ht])]

/-! ### Positions of values -/

namespace Tree

/-- The instructions of a tree before its last one. -/
def front : Tree α → Program α
  | .leaf _ => []
  | .node _ ts => Forest.code ts

/-- The last instruction of a tree, which pushes its value if it has one. -/
def root : Tree α → Instr α
  | .leaf i => i
  | .node o _ => .apply o

theorem code_eq_front_append_root (t : Tree α) : t.code = t.front ++ [t.root] := by
  cases t with
  | leaf i => rw [code]; rfl
  | node o ts => rw [code]; rfl

@[simp]
theorem isValue_node (o : Operation) (ts : Forest α) : (Tree.node o ts).isValue = true := rfl

/-- The entry for the value of a tree that begins at position `start`. -/
def slot (keep : Instr α → Bool) (start : Nat) (t : Tree α) : List (Option Nat) :=
  if t.isValue then [if keep t.root then some (start + t.front.length) else none] else []

theorem length_slot (keep : Instr α → Bool) (start : Nat) (t : Tree α) :
    (t.slot keep start).length = if t.isValue then 1 else 0 := by
  unfold slot
  split <;> rfl

end Tree

namespace Forest

variable (keep : Instr α → Bool)

/-- The entries for the values of a forest that begins at position `start`, in the order in which they are pushed. -/
def slots : Nat → Forest α → List (Option Nat)
  | _, [] => []
  | start, t :: ts => t.slot keep start ++ slots (start + t.code.length) ts

@[simp]
theorem slots_nil (start : Nat) : slots keep start ([] : Forest α) = [] := rfl

theorem slots_cons (start : Nat) (t : Tree α) (ts : Forest α) :
    slots keep start (t :: ts) = t.slot keep start ++ slots keep (start + t.code.length) ts := rfl

theorem slots_append (start : Nat) (ts us : Forest α) :
    slots keep start (ts ++ us) = slots keep start ts ++ slots keep (start + (code ts).length) us := by
  induction ts generalizing start with
  | nil => simp
  | cons t ts ih => simp [slots_cons, ih, Nat.add_assoc]

theorem length_slots (start : Nat) (ts : Forest α) : (slots keep start ts).length = count ts := by
  induction ts generalizing start with
  | nil => rfl
  | cons t ts ih => rw [slots_cons, List.length_append, Tree.length_slot, ih, count_cons]

end Forest

namespace Draft

open Forest

/-- A draft follows a forest: it has the same instructions, and its stack remembers where the values of the forest are
    pushed, for the instructions that `keep` tells. -/
structure Traces (keep : Instr α → Bool) (d : Draft α) (ts : Forest α) : Prop where
  code : d.code.toList = Forest.code ts
  stack : d.stack = (slots keep 0 ts).reverse

namespace Traces

variable {keep : Instr α → Bool} {d : Draft α} {ts below operands : Forest α}

theorem empty : Traces keep ({} : Draft α) [] := ⟨by simp, rfl⟩

theorem length_stack (h : Traces keep d ts) : d.stack.length = count ts := by
  rw [h.stack, List.length_reverse, length_slots]

/-- Popping as many entries as the last trees leave values gives their entries. -/
theorem pop (h : Traces keep d (below ++ operands)) :
    pop? (count operands) d.stack =
      some (slots keep (Forest.code below).length operands, (slots keep 0 below).reverse) := by
  rw [h.stack, slots_append, List.reverse_append, ← length_slots keep (Forest.code below).length operands, Nat.zero_add]
  exact pop?_reverse_append _ _

theorem pop_eq_none (h : Traces keep d ts) {n : Nat} (hn : count ts < n) : pop? n d.stack = none :=
  pop?_eq_none_iff.mpr (h.length_stack ▸ hn)

/-- Adds the last instruction of a tree whose other instructions are written, and which leaves no value. -/
theorem write {t : Tree α} (h : Traces keep d below) (ht : t.isValue = false) (hfront : t.front = []) :
    Traces keep (d.write t.root) (below ++ [t]) where
  code := by simp [Draft.write, h.code, Tree.code_eq_front_append_root, hfront]
  stack := by simp [Draft.write, h.stack, slots_append, slots_cons, Tree.slot, ht]

section Value

variable {t : Tree α} (hcode : d.code.toList = Forest.code below ++ t.front) (ht : t.isValue = true)
include hcode ht

/-- Adds the last instruction of a tree whose other instructions are written, and remembers where it stands. -/
theorem remember (hkeep : keep t.root = true) :
    Traces keep (d.remember t.root (slots keep 0 below).reverse) (below ++ [t]) where
  code := by simp [Draft.remember, hcode, Tree.code_eq_front_append_root]
  stack := by
    have hsize : d.code.size = (Forest.code below).length + t.front.length := by
      rw [← Array.length_toList, hcode, List.length_append]
    simp [Draft.remember, slots_append, slots_cons, Tree.slot, ht, hkeep, hsize]

/-- Adds the last instruction of a tree whose other instructions are written, without remembering it. -/
theorem produce (hkeep : keep t.root = false) :
    Traces keep (d.produce t.root (slots keep 0 below).reverse) (below ++ [t]) where
  code := by simp [Draft.produce, hcode, Tree.code_eq_front_append_root]
  stack := by simp [Draft.produce, slots_append, slots_cons, Tree.slot, ht, hkeep]

end Value

end Traces

/-! ### Looking up and revising the root of a tree -/

section Root

variable {d : Draft α} {t : Tree α} {before after : Program α}

theorem getElem?_root (h : d.code.toList = before ++ t.code ++ after) :
    d.code[before.length + t.front.length]? = some t.root := by
  rw [← Array.getElem?_toList, h, Tree.code_eq_front_append_root]
  simp

theorem code_revise_root (h : d.code.toList = before ++ t.code ++ after) (i : Instr α) :
    (d.revise (before.length + t.front.length) i).code.toList = before ++ (t.front ++ [i]) ++ after := by
  rw [revise, Array.toList_setIfInBounds, h, Tree.code_eq_front_append_root]
  simp [List.set_append_right]

end Root

end Draft

/-! ### Passes along the stack -/

/-- The steps of a pass follow a transformation of forests: a step takes the transformed forest of the instructions
    read to that of one more instruction, and fails if there is no such forest. -/
structure Follows (keep : Instr α → Bool) (step : Draft α → Instr α → Option (Draft α))
    (transform : Forest α → Forest α) : Prop where
  nil : transform [] = []
  some : ∀ {d ts us i}, Forest.Sound (fun _ => True) ts → d.Traces keep (transform ts) →
    Forest.extend? ts i = some us → ∃ d', step d i = some d' ∧ d'.Traces keep (transform us)
  none : ∀ {d ts i}, d.Traces keep (transform ts) → Forest.extend? ts i = none → step d i = none

namespace Follows

variable {keep : Instr α → Bool} {step : Draft α → Instr α → Option (Draft α)} {transform : Forest α → Forest α}

theorem foldlM_some (h : Follows keep step transform) {d : Draft α} {ts us : Forest α} {p : Program α}
    (hts : Forest.Sound (fun _ => True) ts) (hd : d.Traces keep (transform ts))
    (hp : p.foldlM Forest.extend? ts = .some us) :
    ∃ d', p.foldlM step d = .some d' ∧ d'.Traces keep (transform us) := by
  induction p generalizing d ts with
  | nil =>
    obtain rfl := Option.some.inj hp
    exact ⟨d, rfl, hd⟩
  | cons i p ih =>
    obtain ⟨vs, hi, hp⟩ := Option.bind_eq_some_iff.mp hp
    obtain ⟨d', hstep, hd'⟩ := h.some hts hd hi
    obtain ⟨d'', hsteps, hd''⟩ := ih (Forest.sound_extend? hts (fun _ _ => trivial) hi) hd' hp
    exact ⟨d'', by rw [List.foldlM_cons, hstep]; exact hsteps, hd''⟩

theorem foldlM_none (h : Follows keep step transform) {d : Draft α} {ts : Forest α} {p : Program α}
    (hts : Forest.Sound (fun _ => True) ts) (hd : d.Traces keep (transform ts))
    (hp : p.foldlM Forest.extend? ts = .none) : p.foldlM step d = .none := by
  induction p generalizing d ts with
  | nil => cases hp
  | cons i p ih =>
    rw [List.foldlM_cons] at hp ⊢
    cases hi : Forest.extend? ts i with
    | none => rw [h.none hd hi]; rfl
    | some vs =>
      obtain ⟨d', hstep, hd'⟩ := h.some hts hd hi
      rw [hi] at hp
      rw [hstep]
      exact ih (Forest.sound_extend? hts (fun _ _ => trivial) hi) hd' hp

/-- A pass replaces the forest of a program by the transformed one, and leaves a program without a forest as it is. -/
theorem redraft_eq (h : Follows keep step transform) (p : Program α) :
    redraft step p = match p.forest? with
      | .some ts => (Forest.code (transform ts)).filter fun i => !i.isNop
      | .none => p := by
  have hnil : ({} : Draft α).Traces keep (transform []) := h.nil.symm ▸ Draft.Traces.empty
  unfold redraft Program.forest?
  cases hp : p.foldlM Forest.extend? [] with
  | none => rw [h.foldlM_none Forest.sound_nil hnil hp]
  | some ts =>
    obtain ⟨d, hd, htraces⟩ := h.foldlM_some Forest.sound_nil hnil hp
    simp only [hd, Draft.program, htraces.code]

/-- A pass keeps what the transformation keeps of the instructions of a sound forest. -/
theorem forall_redraft (h : Follows keep step transform) {I : Instr α → Prop}
    (hI : ∀ ts, Forest.Sound (fun _ => True) ts → (∀ i ∈ Forest.code ts, I i) → ∀ i ∈ Forest.code (transform ts), I i)
    {p : Program α} (hp : ∀ i ∈ p, I i) : ∀ i ∈ redraft step p, I i := by
  rw [h.redraft_eq]
  cases hts : p.forest? with
  | none => exact hp
  | some ts =>
    have huses : p.Uses fun _ => True := fun _ _ => trivial
    obtain ⟨hcode, hsound⟩ := Forest.code_forest? huses hts
    intro i hi
    exact hI ts hsound (hcode ▸ hp) i (List.mem_filter.mp hi).1

section Sound

variable {P : Operator → Prop} (h : Follows keep step transform)
  (hsound : ∀ ts, Forest.Sound P ts → Forest.Sound P (transform ts)) {p : Program α} (hp : p.Uses P)
include h hsound hp

theorem uses_redraft : (redraft step p).Uses P := by
  rw [h.redraft_eq]
  cases hts : p.forest? with
  | none => exact hp
  | some ts =>
    intro o ho
    exact (hsound ts (Forest.code_forest? hp hts).2).uses o (List.mem_filter.mp ho).1

/-- A pass that keeps what sound forests yield keeps what programs do. -/
theorem exec_redraft {arithmetic : Arithmetic α} {resolve : Resolver α}
    (heval : ∀ ts, Forest.Sound P ts → ∀ bound,
      Forest.eval arithmetic resolve bound (transform ts) = Forest.eval arithmetic resolve bound ts)
    (m : Machine α) : m.exec arithmetic resolve (redraft step p) = m.exec arithmetic resolve p := by
  rw [h.redraft_eq]
  cases hts : p.forest? with
  | none => rfl
  | some ts =>
    obtain ⟨hcode, hts⟩ := Forest.code_forest? hp hts
    rw [← hcode, Machine.exec_filter_isNop, Forest.exec_code (hsound ts hts), Forest.exec_code hts, heval ts hts]

end Sound

end Follows

end StackCalc
