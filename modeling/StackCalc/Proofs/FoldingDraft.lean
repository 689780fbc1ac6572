import StackCalc.Proofs.Folding

/-!
The pass that folds literals follows the folded forest. Its stack tells the positions of the literals, so the entries of
a forest that leaves literals only are the spots of its literals, and runs of entries are the spots of runs of literals.
Revising the code at the spots of a run collapses it, and does not move any other instruction.
-/

namespace StackCalc

variable {α : Type}

namespace Forest

/-- The positions of the literals of a forest that begins at position `start`. -/
def spots : Nat → Forest α → List Nat
  | _, [] => []
  | start, t :: ts => (if t.literal?.isSome then [start] else []) ++ spots (start + t.code.length) ts

theorem spots_cons_push (start : Nat) (x : α) (ts : Forest α) :
    spots start (.leaf (.push x) :: ts) = start :: spots (start + 1) ts := by
  simp [spots, Tree.literal?, Tree.code]

theorem spots_cons_of_none {t : Tree α} (h : t.literal? = none) (start : Nat) (ts : Forest α) :
    spots start (t :: ts) = spots (start + t.code.length) ts := by
  simp [spots, h]

theorem spots_append (start : Nat) (ts us : Forest α) :
    spots start (ts ++ us) = spots start ts ++ spots (start + (code ts).length) us := by
  induction ts generalizing start with
  | nil => simp [spots]
  | cons t ts ih => simp [spots, ih, Nat.add_assoc]

theorem length_spots (start : Nat) (ts : Forest α) : (spots start ts).length = (literals ts).length := by
  induction ts generalizing start with
  | nil => rfl
  | cons t ts ih =>
    cases hl : t.literal? with
    | some x =>
      obtain rfl := Tree.literal?_eq_some.mp hl
      rw [spots_cons_push, literals_cons_push, List.length_cons, List.length_cons, ih]
    | none => rw [spots_cons_of_none hl, literals_cons_of_none hl, ih]

theorem slot_push (start : Nat) (x : α) : (Tree.leaf (.push x)).slot Instr.isPush start = [some start] := rfl

theorem slot_of_not_isPlain {t : Tree α} (h : t.isPlain = false) (start : Nat) :
    t.slot Instr.isPush start = [none] := by
  match t with
  | .leaf (.push _) | .leaf (.declare _) | .leaf (.apply _) | .leaf .nop => cases h
  | .leaf (.fetch _) | .node .. => rfl

theorem slot_of_not_isValue {t : Tree α} (h : t.isValue = false) (start : Nat) : t.slot Instr.isPush start = [] := by
  simp [Tree.slot, h]

theorem allPresent?_slots (start : Nat) (ts : Forest α) :
    allPresent? (slots Instr.isPush start ts) = if isPlain ts then some (spots start ts) else none := by
  induction ts generalizing start with
  | nil => rfl
  | cons t ts ih =>
    cases ht : t.isPlain with
    | true =>
      rcases Tree.plain_cases ht with ⟨x, rfl⟩ | ⟨hl, hv, -⟩
      · rw [slots_cons, slot_push, List.singleton_append, allPresent?, ih, spots_cons_push]
        cases hts : isPlain ts <;> simp_all [isPlain, Tree.code]
      · rw [slots_cons, slot_of_not_isValue hv, List.nil_append, ih, spots_cons_of_none hl]
        simp [isPlain, ht]
    | false =>
      rw [slots_cons, slot_of_not_isPlain ht, List.singleton_append, allPresent?]
      simp [isPlain, ht]

end Forest

theorem allPresent?_map_some {β : Type} (xs : List β) : allPresent? (xs.map some) = some xs := by
  induction xs with
  | nil => rfl
  | cons x xs ih => simp [allPresent?, ih]

namespace Draft

open Forest

variable {arithmetic : Arithmetic α} {representable : α → Bool} {d : Draft α}

/-! ### Revising the spots of a forest -/

theorem code_revise_push {x : α} {before after : Program α} (h : d.code.toList = before ++ (.push x :: after))
    (i : Instr α) : (d.revise before.length i).code.toList = before ++ i :: after := by
  have h' : d.code.toList = before ++ (Tree.leaf (.push x)).code ++ after := by simpa [Tree.code] using h
  simpa [Tree.front] using code_revise_root h' i

theorem literalAt?_push {x : α} {before after : Program α} (h : d.code.toList = before ++ (.push x :: after)) :
    d.literalAt? before.length = some x := by
  have h' : d.code.toList = before ++ (Tree.leaf (.push x)).code ++ after := by simpa [Tree.code] using h
  have hget : d.code[before.length]? = some (.push x) := getElem?_root h'
  simp [literalAt?, hget]

theorem map_literalAt?_spots {ts : Forest α} (before : Program α) {after : Program α}
    (h : d.code.toList = before ++ Forest.code ts ++ after) :
    (spots before.length ts).map d.literalAt? = (literals ts).map some := by
  induction ts generalizing before with
  | nil => rfl
  | cons t ts ih =>
    cases hl : t.literal? with
    | some x =>
      obtain rfl := Tree.literal?_eq_some.mp hl
      have hhead : d.code.toList = before ++ .push x :: (Forest.code ts ++ after) := by simpa [Tree.code] using h
      have htail := ih (before ++ [.push x]) (by simpa using hhead)
      rw [List.length_append, List.length_singleton] at htail
      rw [spots_cons_push, literals_cons_push, List.map_cons, List.map_cons, literalAt?_push hhead, htail]
    | none =>
      have htail := ih (before ++ t.code) (by simpa using h)
      rw [List.length_append] at htail
      rw [spots_cons_of_none hl, literals_cons_of_none hl, htail]

theorem folded?_spots (arithmetic : Arithmetic α) (representable : α → Bool) {ts : Forest α} {before after : Program α}
    (h : d.code.toList = before ++ Forest.code ts ++ after) (op : Operator) :
    d.folded? arithmetic representable op (spots before.length ts) =
      Forest.folded? arithmetic representable op (literals ts) := by
  rw [Draft.folded?, map_literalAt?_spots before h, allPresent?_map_some]
  rfl

theorem retire_cons (position : Nat) (positions : List Nat) :
    d.retire (position :: positions) = (d.revise position .nop).retire positions := rfl

theorem code_retire_spots {ts : Forest α} (before : Program α) {after : Program α}
    (h : d.code.toList = before ++ Forest.code ts ++ after) :
    (d.retire (spots before.length ts)).code.toList = before ++ Forest.code (ts.map Tree.retired) ++ after := by
  induction ts generalizing before d with
  | nil => exact h
  | cons t ts ih =>
    cases hl : t.literal? with
    | some x =>
      obtain rfl := Tree.literal?_eq_some.mp hl
      have hhead : d.code.toList = before ++ .push x :: (Forest.code ts ++ after) := by simpa [Tree.code] using h
      have hrevised := code_revise_push hhead .nop
      have htail := ih (d := d.revise before.length .nop) (before ++ [.nop]) (by simpa using hrevised)
      rw [List.length_append, List.length_singleton] at htail
      rw [spots_cons_push, retire_cons, htail]
      simp [Tree.retired, Tree.code]
    | none =>
      have htail := ih (before ++ t.code) (by simpa using h)
      rw [List.length_append] at htail
      rw [spots_cons_of_none hl, htail]
      simp [Tree.retired_of_none hl]

theorem code_collapse_spots {ts : Forest α} (before : Program α) {after : Program α} {first : Nat} {others : List Nat}
    (h : d.code.toList = before ++ Forest.code ts ++ after) (hspots : spots before.length ts = first :: others)
    (x : α) : ((d.revise first (.push x)).retire others).code.toList = before ++ Forest.code (collapse x ts) ++ after := by
  induction ts generalizing before with
  | nil => cases hspots
  | cons t ts ih =>
    cases hl : t.literal? with
    | some y =>
      obtain rfl := Tree.literal?_eq_some.mp hl
      rw [spots_cons_push] at hspots
      obtain ⟨rfl, rfl⟩ := List.cons.inj hspots
      have hhead : d.code.toList = before ++ .push y :: (Forest.code ts ++ after) := by simpa [Tree.code] using h
      have hrevised : (d.revise before.length (.push x)).code.toList =
          before ++ [.push x] ++ Forest.code ts ++ after := by simpa using code_revise_push hhead (.push x)
      have htail := code_retire_spots _ hrevised
      rw [List.length_append, List.length_singleton] at htail
      rw [htail, collapse_cons_push]
      simp [Tree.code]
    | none =>
      rw [spots_cons_of_none hl, ← List.length_append] at hspots
      have htail := ih (before ++ t.code) (by simpa using h) hspots
      rw [htail, collapse_cons_of_none hl]
      simp

/-! ### Folding runs -/

/-- The run under way as the only run, if it has two entries or more. -/
theorem foldl_foldRun_run (arithmetic : Arithmetic α) (representable : α → Bool) (op : Operator) {run : Forest α}
    (hrun : isPlain run = true) (before : Program α) {after : Program α}
    (h : d.code.toList = before ++ Forest.code run ++ after) {extra : Nat}
    (hextra : count run ≤ extra + 1) :
    ∃ d' extra', (if 2 ≤ (spots before.length run).length then [spots before.length run] else []).foldl
        (foldRun arithmetic representable op) (d, extra) = (d', extra') ∧
      d'.code.toList = before ++ Forest.code (foldedRun arithmetic representable op run) ++ after ∧
      extra' + count run = extra + count (foldedRun arithmetic representable op run) := by
  have hfolded := folded?_spots arithmetic representable h op
  rw [count_of_isPlain hrun] at hextra ⊢
  unfold Forest.foldedRun
  rw [length_spots]
  by_cases hlength : 2 ≤ (literals run).length
  · obtain ⟨first, others, hspots⟩ : ∃ first others, spots before.length run = first :: others := by
      cases hspots : spots before.length run with
      | nil =>
        rw [← length_spots before.length, hspots] at hlength
        cases hlength
      | cons first others => exact ⟨first, others, rfl⟩
    have hothers : others.length + 1 = (literals run).length := by
      rw [← length_spots before.length, hspots, List.length_cons]
    rw [if_pos hlength, List.foldl_cons, List.foldl_nil, hspots]
    rw [hspots] at hfolded
    cases hx : Forest.folded? arithmetic representable op (literals run) with
    | none =>
      refine ⟨d, extra, by simp [foldRun, hfolded, hx], h, ?_⟩
      rw [count_of_isPlain hrun]
    | some x =>
      refine ⟨(d.revise first (.push x)).retire others, extra - others.length, ?_, ?_, ?_⟩
      · simp only [foldRun, hfolded, hx]
      · simpa [hlength] using code_collapse_spots before h hspots x
      · have hne : literals run ≠ [] := fun hnil => by simp [hnil] at hlength
        simp only [hlength, if_true]
        rw [count_of_isPlain (isPlain_collapse hrun x), literals_collapse hne, List.length_singleton]
        omega
  · refine ⟨d, extra, by simp [hlength], ?_, ?_⟩
    · simp only [hlength, if_false]
      split <;> exact h
    · simp only [hlength, if_false]
      split <;> rw [count_of_isPlain hrun]

theorem foldl_foldRun_runs (arithmetic : Arithmetic α) (representable : α → Bool) (op : Operator) {run ts : Forest α}
    (hrun : isPlain run = true) (before : Program α) {after : Program α}
    (h : d.code.toList = before ++ Forest.code run ++ Forest.code ts ++ after) {extra : Nat}
    (hextra : count run + count ts ≤ extra + 1) :
    ∃ d' extra',
      (runsFrom (spots before.length run) (slots Instr.isPush (before.length + (Forest.code run).length) ts)).foldl
        (foldRun arithmetic representable op) (d, extra) = (d', extra') ∧
      d'.code.toList = before ++ Forest.code (foldedRuns arithmetic representable op run ts) ++ after ∧
      extra' + (count run + count ts) = extra + count (foldedRuns arithmetic representable op run ts) := by
  induction ts generalizing run before d extra with
  | nil =>
    simpa [runsFrom, foldedRuns] using
      foldl_foldRun_run arithmetic representable op hrun before (by simpa using h) hextra
  | cons t ts ih =>
    cases ht : t.isPlain with
    | true =>
      -- The run goes on, with one literal more or with an instruction that leaves nothing.
      have hruns : runsFrom (spots before.length run)
            (slots Instr.isPush (before.length + (Forest.code run).length) (t :: ts)) =
          runsFrom (spots before.length (run ++ [t]))
            (slots Instr.isPush (before.length + (Forest.code (run ++ [t])).length) ts) := by
        rw [spots_append, slots_cons, code_append, List.length_append, ← Nat.add_assoc]
        rcases Tree.plain_cases ht with ⟨x, rfl⟩ | ⟨hl, hv, -⟩
        · rw [slot_push, spots_cons_push]
          simp [runsFrom, spots]
        · rw [slot_of_not_isValue hv, spots_cons_of_none hl]
          simp [spots]
      have hcount : count (run ++ [t]) + count ts = count run + count (t :: ts) := by
        simp [Nat.add_assoc]
      rw [hruns, foldedRuns, if_pos ht, ← hcount]
      exact ih (isPlain_append.mpr ⟨hrun, isPlain_cons.mpr ⟨ht, rfl⟩⟩) before (by simpa using h) (hcount ▸ hextra)
    | false =>
      -- The run ends before this tree, and another one may begin after it.
      have hvalue := (Tree.literal?_of_not_isPlain ht).2
      rw [count_cons, if_pos hvalue] at hextra
      have hrest : d.code.toList = before ++ Forest.code run ++ (t.code ++ (Forest.code ts ++ after)) := by
        simpa using h
      have hrunExtra : count run ≤ extra + 1 := by omega
      obtain ⟨d₁, extra₁, hfold₁, hcode₁, hextra₁⟩ :=
        foldl_foldRun_run arithmetic representable op hrun before hrest hrunExtra
      have hbefore : (before ++ Forest.code (foldedRun arithmetic representable op run) ++ t.code).length =
          before.length + (Forest.code run).length + t.code.length := by
        simp [length_code_foldedRun, Nat.add_assoc]
      have hcode : d₁.code.toList = before ++ Forest.code (foldedRun arithmetic representable op run) ++ t.code ++
          Forest.code [] ++ Forest.code ts ++ after := by simpa using hcode₁
      have hnextExtra : count ([] : Forest α) + count ts ≤ extra₁ + 1 := by
        rw [count_nil]
        omega
      obtain ⟨d₂, extra₂, hfold₂, hcode₂, hextra₂⟩ := ih rfl _ hcode hnextExtra
      refine ⟨d₂, extra₂, ?_, ?_, ?_⟩
      · rw [slots_cons, slot_of_not_isPlain ht, List.singleton_append, runsFrom, List.foldl_append, hfold₁]
        rw [hbefore] at hfold₂
        simpa [spots] using hfold₂
      · rw [foldedRuns, ht]
        simpa using hcode₂
      · rw [foldedRuns, ht, count_cons, if_pos hvalue]
        simp only [Bool.false_eq_true, if_false, count_append, count_cons, hvalue, if_true]
        simp only [count_nil] at hextra₂
        omega

theorem slots_map_retired {ts : Forest α} (h : isPlain ts = true) (start : Nat) :
    slots Instr.isPush start (ts.map Tree.retired) = [] := by
  have hcount := count_of_isPlain (isPlain_map_retired h)
  rw [literals_map_retired, ← length_slots Instr.isPush start] at hcount
  exact List.eq_nil_of_length_eq_zero hcount

/-- A folded operation leaves its literal in the place of the operation, and retires the operands. -/
theorem traces_retire {below operands : Forest α} (hd : d.Traces Instr.isPush (below ++ operands))
    (hplain : isPlain operands = true) (x : α) :
    ((d.retire (spots (Forest.code below).length operands)).remember (.push x)
      (slots Instr.isPush 0 below).reverse).Traces Instr.isPush
        (below ++ (operands.map Tree.retired ++ [.leaf (.push x)])) := by
  have hcode : d.code.toList = Forest.code below ++ Forest.code operands ++ [] := by simpa using hd.code
  have hretired := code_retire_spots _ hcode
  have hstack : slots Instr.isPush 0 (below ++ operands.map Tree.retired) = slots Instr.isPush 0 below := by
    rw [slots_append, slots_map_retired hplain, List.append_nil]
  rw [← List.append_assoc, ← hstack]
  exact .remember (t := .leaf (.push x)) (by simpa [Tree.front] using hretired) rfl rfl

/-- A step of folding on an operation follows the folded operation. -/
theorem foldStep_apply {below operands : Forest α} {o : Operation} (harity : count operands = o.arity)
    (hd : d.Traces Instr.isPush (below ++ operands)) :
    ∃ d', d.foldStep arithmetic representable (.apply o) = some d' ∧
      d'.Traces Instr.isPush (below ++ folding arithmetic representable o operands) := by
  have hpop := hd.pop
  rw [harity] at hpop
  have hcode : d.code.toList = Forest.code below ++ Forest.code operands ++ [] := by simpa using hd.code
  have hpresent := allPresent?_slots (Forest.code below).length operands
  have hkept : (d.produce (.apply o) (slots Instr.isPush 0 below).reverse).Traces Instr.isPush
      (below ++ [.node o operands]) :=
    .produce (t := .node _ _) (by simpa [Tree.front] using hd.code) rfl rfl
  cases hplain : isPlain operands with
  | true =>
    rw [hplain, if_pos rfl] at hpresent
    have hfolded := folded?_spots arithmetic representable hcode o.operator
    cases hx : Forest.folded? arithmetic representable o.operator (literals operands) with
    | none =>
      refine ⟨_, ?_, by simpa [folding, hplain, hx] using hkept⟩
      simp [foldStep, hpop, hpresent, hfolded, hx]
    | some x =>
      refine ⟨_, ?_, by simpa [folding, hplain, hx] using traces_retire hd hplain x⟩
      simp [foldStep, hpop, hpresent, hfolded, hx]
  | false =>
    rw [hplain] at hpresent
    by_cases hf : o.isFusible = true
    · have hruns : d.code.toList = Forest.code below ++ Forest.code [] ++ Forest.code operands ++ [] := by
        simpa using hcode
      have hextra : count ([] : Forest α) + count operands ≤ o.extra + 1 := by
        simp [harity, Operation.arity]
      obtain ⟨d', extra, hfold, hcode', hextra'⟩ :=
        foldl_foldRun_runs arithmetic representable o.operator rfl _ hruns hextra
      have hextra'' : extra = count (foldedRuns arithmetic representable o.operator [] operands) - 1 := by
        rw [count_nil, harity, Operation.arity] at hextra'
        omega
      refine ⟨d'.produce (.apply (o.withExtra extra)) (slots Instr.isPush 0 below).reverse, ?_, ?_⟩
      · simp only [spots, code_nil, List.length_nil, Nat.add_zero] at hfold
        simp [foldStep, hpop, hpresent, hf, literalRuns, hfold]
      · have htree : folding arithmetic representable o operands =
            [.node (o.withExtra extra) (foldedRuns arithmetic representable o.operator [] operands)] := by
          simp [folding, hplain, hf, hextra'']
        rw [htree]
        exact .produce (t := .node _ _) (by simpa [Tree.front] using hcode') rfl rfl
    · refine ⟨_, ?_, by simpa [folding, hplain, hf] using hkept⟩
      simp [foldStep, hpop, hpresent, hf]

/-- The steps of folding follow the folded forest. -/
theorem follows_foldStep :
    Follows Instr.isPush (foldStep arithmetic representable) (Forest.fold (α := α) arithmetic representable) where
  nil := by simp [fold_eq_flatMap]
  some := by
    intro d ts us i _ hd hi
    cases i with
    | apply o =>
      obtain ⟨below, operands, rfl, harity, rfl⟩ := extend?_apply hi
      rw [fold_append] at hd
      rw [fold_append, fold_singleton, Tree.fold_node]
      exact foldStep_apply (by rw [count_fold, harity]) hd
    | push value =>
      obtain rfl := Option.some.inj hi
      refine ⟨_, rfl, ?_⟩
      rw [fold_append, fold_singleton, Tree.fold_leaf, hd.stack]
      exact .remember (t := .leaf _) (by simpa [Tree.front] using hd.code) rfl rfl
    | fetch name =>
      obtain rfl := Option.some.inj hi
      refine ⟨_, rfl, ?_⟩
      rw [fold_append, fold_singleton, Tree.fold_leaf, hd.stack]
      exact .produce (t := .leaf _) (by simpa [Tree.front] using hd.code) rfl rfl
    | declare name =>
      obtain rfl := Option.some.inj hi
      refine ⟨_, rfl, ?_⟩
      rw [fold_append, fold_singleton, Tree.fold_leaf]
      exact hd.write (t := .leaf _) rfl rfl
    | nop =>
      obtain rfl := Option.some.inj hi
      refine ⟨_, rfl, ?_⟩
      rw [fold_append, fold_singleton, Tree.fold_leaf]
      exact hd.write (t := .leaf _) rfl rfl
  none := by
    intro d ts i hd hi
    cases i with
    | apply o =>
      have hpop := hd.pop_eq_none ((count_fold ts).symm ▸ extend?_apply_eq_none hi)
      simp [foldStep, hpop]
    | _ => cases hi

end Draft

section Program

variable {P : Operator → Prop} {arithmetic : Arithmetic α} {representable : α → Bool} {resolve : Resolver α}

theorem Program.Uses.fold {p : Program α} (hp : p.Uses P) : (p.fold arithmetic representable).Uses P :=
  Draft.follows_foldStep.uses_redraft (fun _ h => h.fold) hp

theorem Program.exec_fold (hassoc : ∀ op, P op → op.isFusible = true → Std.Associative (arithmetic op))
    {p : Program α} (hp : p.Uses P) (m : Machine α) :
    m.exec arithmetic resolve (p.fold arithmetic representable) = m.exec arithmetic resolve p :=
  Draft.follows_foldStep.exec_redraft (fun _ h => h.fold) hp (fun _ h => h.eval_fold hassoc) m

end Program

end StackCalc
