import StackCalc.Proofs.Preservation
import StackCalc.Proofs.ProgramText

/-!
Optimized programs are well-formed. Every pass leaves the instructions that declare or fetch a name where they are and
as they are; it revises the others in their places and drops those that became `nop`. So the names of a program stay in
their order, declarations before everything else stay before everything else, and no program gets longer. Together with
what the passes keep of single instructions, the text of an optimized program can be read back as that program.
-/

namespace StackCalc

variable {α : Type}

namespace Program

/-- The instructions that declare or fetch a name, in order. -/
def named (p : Program α) : Program α :=
  p.filterMap Instr.named?

theorem named_eq_skeleton (p : Program α) : p.named = p.skeleton.filterMap id := by
  rw [named, skeleton, List.filterMap_map, Function.id_comp]

/-- A program with the named instructions of another in their order, and with all or some of the places around them. -/
structure Thins (q p : Program α) : Prop where
  named : q.named = p.named
  sublist : q.skeleton.Sublist p.skeleton

namespace Thins

variable {p q r : Program α}

theorem refl (p : Program α) : Thins p p :=
  ⟨rfl, .refl _⟩

theorem trans (hrq : Thins r q) (hqp : Thins q p) : Thins r p :=
  ⟨hrq.named.trans hqp.named, hrq.sublist.trans hqp.sublist⟩

theorem of_skeleton (h : q.skeleton = p.skeleton) : Thins (q.filter fun i => !i.isNop) p where
  named := by
    rw [named_eq_skeleton p, ← h, ← named_eq_skeleton, Program.named, List.filterMap_filter]
    refine List.filterMap_congr fun i _ => ?_
    cases i <;> rfl
  sublist := h ▸ List.filter_sublist.map _

theorem length_le (h : Thins q p) : q.length ≤ p.length := by
  simpa using h.sublist.length_le

end Thins

end Program

/-- A pass thins programs if its transformation keeps the skeletons of sound forests. -/
theorem Follows.thins_redraft {keep : Instr α → Bool} {step : Draft α → Instr α → Option (Draft α)}
    {transform : Forest α → Forest α} (h : Follows keep step transform)
    (hskeleton : ∀ ts, Forest.Sound (fun _ => True) ts →
      (Forest.code (transform ts)).skeleton = (Forest.code ts).skeleton)
    (p : Program α) : Program.Thins (redraft step p) p := by
  rw [h.redraft_eq]
  cases hts : p.forest? with
  | none => exact .refl p
  | some ts =>
    have huses : p.Uses fun _ => True := fun _ _ => trivial
    obtain ⟨hcode, hsound⟩ := Forest.code_forest? huses hts
    exact .of_skeleton (by rw [hskeleton ts hsound, hcode])

theorem Draft.skeleton_mergeStep (d : Draft α) (i : Instr α) :
    Program.skeleton (d.mergeStep i).code.toList = Program.skeleton (d.code.toList ++ [i]) := by
  rcases d.mergeStep_eq i with heq | ⟨code, before, o, hcode, rfl, hf, ho, heq⟩
  · rw [heq]
  · simp [heq, hcode, Instr.named?]

theorem Draft.skeleton_foldl_mergeStep (d : Draft α) (p : Program α) :
    Program.skeleton (p.foldl mergeStep d).code.toList = Program.skeleton (d.code.toList ++ p) := by
  induction p generalizing d with
  | nil => simp
  | cons i p ih => simp [ih, skeleton_mergeStep]

namespace Program

variable {arithmetic : Arithmetic α} {representable : α → Bool}

theorem thins_fuse (p : Program α) : p.fuse.Thins p :=
  Draft.follows_fuseStep.thins_redraft (fun _ h => h.skeleton_fuse) p

theorem thins_merge (p : Program α) : p.merge.Thins p :=
  .of_skeleton (Draft.skeleton_foldl_mergeStep {} p)

theorem thins_fold (p : Program α) : (p.fold arithmetic representable).Thins p :=
  Draft.follows_foldStep.thins_redraft (fun _ h => h.skeleton_fold) p

/-- The optimizer keeps the names of a program in their order, and drops or revises what is between them. -/
theorem thins_optimize (level : Level) (p : Program α) :
    (p.optimize arithmetic representable level).program.Thins p := by
  refine optimize_induction (R := fun q => q.Thins p) (fun q hq => ?_) (.refl p) level
  exact ((q.fuse.merge.thins_fold.trans q.fuse.thins_merge).trans q.thins_fuse).trans hq

end Program

/-! ### Single instructions -/

theorem Operation.one_le_extra_withExtra {o : Operation} {extra : Nat} (ho : 1 ≤ o.extra) (hextra : 1 ≤ extra) :
    1 ≤ (o.withExtra extra).extra := by
  by_cases hv : o.operator.isVariadic = true
  · rwa [extra_withExtra hv]
  · rwa [withExtra, dif_neg hv]

namespace Instr

theorem stable_isWritable : Stable Literal.isRepresentable IsWritable where
  nop := trivial
  push _ hx := Literal.isFinite_of_isRepresentable hx
  arity _ ho := ho
  withExtra _ _ := Operation.one_le_extra_withExtra

theorem stable_reread : Stable Literal.isRepresentable fun i => IsWritable i ∧ i.reread = i where
  nop := ⟨trivial, rfl⟩
  push x hx := ⟨stable_isWritable.push x hx, congrArg Instr.push (Literal.reread_of_isRepresentable hx)⟩
  arity o ho := stable_isWritable.arity o ho.1
  withExtra o extra ho hextra := ⟨stable_isWritable.withExtra o extra ho.1 hextra, rfl⟩

end Instr

namespace Program

variable {arithmetic : Arithmetic Float}

end Program

end StackCalc
