import StackCalc.Proofs.Flattening

/-!
Fusing makes merging superfluous. What fusing leaves of a program is a forest that can be built instruction by
instruction: an operation that is added joins the operands of equal operations among its own at once, and a `nop` adds
nothing. To such a forest it is all the same whether two equal associative operations follow each other or one operation
takes the operands of both, because the result of the first is the last operand of the second. So merging before fusing
changes nothing, and after fusing there is nothing left to merge or to fuse.
-/

namespace StackCalc

variable {α : Type}

/-! ### What fusing leaves of a forest -/

theorem Tree.isValue_join (o : Operation) (ts : Forest α) : (join o ts).isValue = true := by
  unfold join
  split <;> rfl

theorem Tree.join_withExtra {o : Operation} (h : o.isFusible = true) (extra : Nat) (ts : Forest α) :
    join (o.withExtra extra) ts = join o ts := by
  simp [join, h]

/-- The joined operands of an operation are opened by an equal operation after it. -/
theorem Tree.join_merged {o before : Operation} (hf : o.isFusible = true) (ho : before.operator = o.operator)
    (others operands : Forest α) :
    join (o.withExtra (o.extra + before.extra)) (others ++ operands) = join o (others ++ [join before operands]) := by
  have hbefore : before.isFusible = true := by rwa [Operation.isFusible, ho]
  have hparts := parts_join hbefore operands
  rw [ho] at hparts
  rw [join_withExtra hf]
  refine join_congr hf ?_
  rw [List.flatMap_append, List.flatMap_append, List.flatMap_singleton, hparts]

namespace Forest

/-- A forest after fusing, without the `nop` that fusing leaves behind. -/
def joined (ts : Forest α) : Forest α :=
  pruned (fuse ts)

@[simp]
theorem joined_nil : joined ([] : Forest α) = [] := by
  simp [joined, fuse_eq_map, pruned_eq_flatMap]

theorem joined_cons (t : Tree α) (ts : Forest α) : joined (t :: ts) = t.fuse.pruned ++ joined ts := by
  simp [joined, fuse_eq_map, pruned_eq_flatMap]

@[simp]
theorem joined_append (ts us : Forest α) : joined (ts ++ us) = joined ts ++ joined us := by
  simp [joined]

@[simp]
theorem count_joined (ts : Forest α) : count (joined ts) = count ts := by
  simp [joined]

/-- A tree that leaves a value is one tree that leaves a value after fusing. -/
theorem exists_pruned_fuse {t : Tree α} (h : t.isValue = true) : ∃ u, t.fuse.pruned = [u] ∧ u.isValue = true := by
  cases t with
  | leaf i =>
    cases i with
    | push | fetch => exact ⟨_, by rw [Tree.fuse_leaf, Tree.pruned_leaf rfl], rfl⟩
    | _ => cases h
  | node o ts =>
    exact ⟨_, by rw [Tree.fuse_node, Tree.pruned_fusing], Tree.isValue_join o _⟩

/-! ### Cuts -/

/-- The cut before the last values is right before a tree that leaves one. -/
theorem exists_cut {n : Nat} {ts : Forest α} (hn : 0 < n) (h : n ≤ count ts) :
    ∃ below u us, ts = below ++ u :: us ∧ u.isValue = true ∧ count (u :: us) = n ∧ cut n ts = (below, u :: us) := by
  induction ts with
  | nil => exact absurd h (Nat.not_le.mpr hn)
  | cons t ts ih =>
    by_cases hle : n ≤ count ts
    · obtain ⟨below, u, us, hts, hu, hcount, hcut⟩ := ih hle
      exact ⟨t :: below, u, us, by rw [hts, List.cons_append], hu, hcount, by rw [cut, if_pos hle, hcut]⟩
    · have hcut : cut n (t :: ts) = ([], t :: ts) := by rw [cut, if_neg hle]
      have hcount := count_cut h
      rw [hcut] at hcount
      refine ⟨[], t, ts, rfl, ?_, hcount, hcut⟩
      by_contra hvalue
      rw [count_cons, if_neg hvalue, Nat.zero_add] at hcount
      exact hle (Nat.le_of_eq hcount.symm)

/-- Values stay where they are, so a forest can be cut before fusing or after it. -/
theorem cut_joined {n : Nat} {ts : Forest α} (hn : 0 < n) (h : n ≤ count ts) :
    cut n (joined ts) = (joined (cut n ts).1, joined (cut n ts).2) := by
  obtain ⟨below, u, us, rfl, hu, rfl, hcut⟩ := exists_cut hn h
  obtain ⟨v, hv, hvalue⟩ := exists_pruned_fuse hu
  have hjoined : joined (u :: us) = v :: joined us := by rw [joined_cons, hv, List.singleton_append]
  have hcount : count (u :: us) = 0 + count (v :: joined us) := by rw [Nat.zero_add, ← hjoined, count_joined]
  rw [hcut, joined_append, hjoined, hcount, cut_append_cons hvalue, cut_zero]
  rfl

/-! ### Building the forest -/

/-- Adds an instruction to a forest without operands to fuse. An operation joins the operands of equal operations among
    its own, if it is associative, and a `nop` leaves nothing behind. -/
def attach? (ts : Forest α) : Instr α → Option (Forest α)
  | .apply o =>
    if o.arity ≤ count ts then some ((cut o.arity ts).1 ++ [.join o (cut o.arity ts).2]) else none
  | .nop => some ts
  | i => some (ts ++ [.leaf i])

theorem attach?_joined (ts : Forest α) (i : Instr α) : attach? (joined ts) i = (extend? ts i).map joined := by
  cases i with
  | apply o =>
    have harity : 0 < o.arity := Nat.succ_pos o.extra
    rw [attach?, extend?, count_joined]
    split
    next hle =>
      have hnode (us : Forest α) : joined [.node o us] = [.join o (joined us)] := by
        rw [joined_cons, Tree.fuse_node, Tree.pruned_fusing, joined_nil, List.append_nil, joined]
      rw [cut_joined harity hle, Option.map_some, joined_append, hnode]
    next => rfl
  | nop => simp [attach?, extend?, joined_cons, Tree.pruned_nop]
  | declare | fetch | push =>
    rw [extend?, Option.map_some, joined_append, joined_cons, Tree.fuse_leaf, Tree.pruned_leaf rfl, joined_nil]
    · rfl
    · simp

/-- An operation takes the values of some trees that begin with one, and `n` values more. -/
theorem attach?_append_cons {o : Operation} {n : Nat} {u : Tree α} {us : Forest α} (hu : u.isValue = true)
    (harity : o.arity = n + count (u :: us)) (ts : Forest α) :
    attach? (ts ++ u :: us) (.apply o) =
      if n ≤ count ts then some ((cut n ts).1 ++ [.join o ((cut n ts).2 ++ u :: us)]) else none := by
  rw [attach?, harity, cut_append_cons hu, count_append]
  simp only [Nat.add_le_add_iff_right]

/-- Two equal associative operations, one right after the other, join the same operands as one that takes the operands
    of both. -/
theorem foldlM_attach?_merged {o before : Operation} (hf : o.isFusible = true) (ho : before.operator = o.operator)
    (ts : Forest α) :
    [.nop, .apply (o.withExtra (o.extra + before.extra))].foldlM attach? ts =
      [.apply before, .apply o].foldlM attach? ts := by
  have harity := Operation.arity_merged hf before
  have hnop : attach? ts .nop = some ts := rfl
  simp only [List.foldlM_cons, List.foldlM_nil, hnop, Option.bind_eq_bind, Option.bind_some, Option.pure_def,
    Option.bind_fun_some]
  by_cases hle : before.arity ≤ count ts
  · obtain ⟨below, u, us, rfl, hu, hcount, -⟩ := exists_cut (Nat.succ_pos before.extra) hle
    have hfirst : attach? (below ++ u :: us) (.apply before) = some (below ++ [.join before (u :: us)]) := by
      rw [attach?_append_cons (n := 0) hu (by rw [Nat.zero_add, hcount]; rfl), if_pos (Nat.zero_le _), cut_zero]
      rfl
    have hvalue : (Tree.join before (u :: us)).isValue = true := Tree.isValue_join before _
    rw [attach?_append_cons hu (by rw [harity, hcount]; rfl), hfirst, Option.bind_some,
      attach?_append_cons (n := o.extra) hvalue (by simp [hvalue, Operation.arity])]
    simp only [Tree.join_merged hf ho]
  · have hlack : ¬(o.withExtra (o.extra + before.extra)).arity ≤ count ts := by
      rw [harity]
      omega
    rw [attach?, attach?, if_neg hle, if_neg hlack]
    rfl

end Forest

/-! ### Fusing programs -/

namespace Program

variable {p : Program α}

/-- The forest that fusing leaves of a program, if no operation lacks operands. -/
def joined? (p : Program α) : Option (Forest α) :=
  p.foldlM Forest.attach? []

theorem joined?_eq_map_forest? (p : Program α) : p.joined? = p.forest?.map Forest.joined := by
  suffices h : ∀ ts : Forest α, p.foldlM Forest.attach? ts.joined = (p.foldlM Forest.extend? ts).map Forest.joined by
    simpa [joined?, forest?] using h []
  induction p with
  | nil => exact fun ts => rfl
  | cons i p ih =>
    intro ts
    rw [List.foldlM_cons, List.foldlM_cons, Forest.attach?_joined]
    cases Forest.extend? ts i with
    | none => rfl
    | some us => exact ih us

theorem fuse_of_joined? {ts : Forest α} (h : p.joined? = some ts) : p.fuse = Forest.code ts := by
  rw [joined?_eq_map_forest?] at h
  obtain ⟨us, hus, rfl⟩ := Option.map_eq_some_iff.mp h
  have hsound := (Forest.code_forest? (P := fun _ => True) (fun _ _ => trivial) hus).2
  rw [fuse, Draft.follows_fuseStep.redraft_eq, hus, Forest.joined, hsound.fuse.code_pruned]

theorem joined?_merge (p : Program α) : p.merge.joined? = p.joined? :=
  foldlM_merge Forest.foldlM_attach?_merged (fun _ => rfl) p []

/-- In a program in which no operation lacks operands, fusing does all that merging does: nothing is left to merge or to
    fuse after it, and merging before it makes no difference. -/
theorem fuse_subsumes_merge (h : p.producers?.isSome = true) :
    p.fuse.merge = p.fuse ∧ p.fuse.fuse = p.fuse ∧ p.merge.fuse = p.fuse := by
  have hfused := obeys_fuse h
  refine ⟨hfused.merge_eq_self, hfused.fuse_eq_self, ?_⟩
  have hjoined : p.joined?.isSome = true := by rwa [joined?_eq_map_forest?, Option.isSome_map, isSome_forest?]
  obtain ⟨ts, hts⟩ := Option.isSome_iff_exists.mp hjoined
  rw [fuse_of_joined? hts, fuse_of_joined? ((joined?_merge p).trans hts)]

/-- A chain of sums that a declaration and a name keep apart, one of them with a single operand: each takes over the
    operands of the one before it, and the last those of its neighbour as well. The sum inside the product is left. -/
theorem fuse_subsumes_merge_chain :
    let sum : Operation := .binary .add
    let p : Program Int := [.push 1, .push 2, .push 3, .apply sum, .nop, .push 4, .apply (.binary .mul), .apply sum,
      .declare "x", .apply ⟨.add, 0, by decide⟩, .fetch "x", .apply sum, .push 5, .push 6, .apply sum, .apply sum]
    let fused : Program Int := [.push 1, .push 2, .push 3, .apply sum, .push 4, .apply (.binary .mul), .declare "x",
      .fetch "x", .push 5, .push 6, .apply ⟨.add, 4, by decide⟩]
    p.producers?.isSome = true ∧ p.fuse = fused ∧ p.merge ≠ fused ∧ p.fuse.merge = p.fuse ∧ p.fuse.fuse = p.fuse ∧
      p.merge.fuse = p.fuse := by
  intro sum p fused
  have h : p.producers?.isSome = true := by decide +kernel
  exact ⟨h, by decide +kernel, by decide +kernel, fuse_subsumes_merge h⟩

end Program

end StackCalc
