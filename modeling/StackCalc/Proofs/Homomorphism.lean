import StackCalc.Machine
import StackCalc.Optimize.Rounds

/-!
Programs with other literals. A map of values that respects two arithmetics maps the run of a program to the run of the
program with its literals mapped. The optimizer looks at literals only to combine them and to ask whether a result is
representable, so mapping the literals commutes with optimizing too.
-/

namespace StackCalc

variable {α β : Type}

/-- A map of values that respects the operators. -/
def Arithmetic.Hom (f : α → β) (arithmetic : Arithmetic α) (arithmetic' : Arithmetic β) : Prop :=
  ∀ op x y, f (arithmetic op x y) = arithmetic' op (f x) (f y)

/-- Two arithmetics side by side. -/
def Arithmetic.prod (arithmetic : Arithmetic α) (arithmetic' : Arithmetic β) : Arithmetic (α × β) :=
  fun op x y => (arithmetic op x.1 y.1, arithmetic' op x.2 y.2)

theorem Arithmetic.hom_fst (arithmetic : Arithmetic α) (arithmetic' : Arithmetic β) :
    Hom Prod.fst (arithmetic.prod arithmetic') arithmetic := fun _ _ _ => rfl

theorem Arithmetic.hom_snd (arithmetic : Arithmetic α) (arithmetic' : Arithmetic β) :
    Hom Prod.snd (arithmetic.prod arithmetic') arithmetic' := fun _ _ _ => rfl

theorem Arithmetic.associative_prod {arithmetic : Arithmetic α} {arithmetic' : Arithmetic β} {op : Operator}
    (h : Std.Associative (arithmetic op)) (h' : Std.Associative (arithmetic' op)) :
    Std.Associative (arithmetic.prod arithmetic' op) := by
  constructor
  intro x y z
  exact Prod.ext (h.assoc x.1 y.1 z.1) (h'.assoc x.2 y.2 z.2)

/-- The instruction with its literal mapped. -/
def Instr.map (f : α → β) : Instr α → Instr β
  | declare name => declare name
  | fetch name => fetch name
  | push value => push (f value)
  | apply o => apply o
  | nop => nop

theorem Instr.isNop_map (f : α → β) (i : Instr α) : (i.map f).isNop = i.isNop := by
  cases i <;> rfl

theorem pop?_map (f : α → β) (n : Nat) (stack : List α) :
    pop? n (stack.map f) = (pop? n stack).map fun r => (r.1.map f, r.2.map f) := by
  unfold pop?
  by_cases h : n ≤ stack.length
  · rw [if_pos h, if_pos (by rwa [List.length_map]), Option.map_some, List.map_reverse, List.map_take, List.map_drop]
  · rw [if_neg h, if_neg (by rwa [List.length_map]), Option.map_none]

theorem combine?_map {f : α → β} {g : α → α → α} {g' : β → β → β} (h : ∀ x y, f (g x y) = g' (f x) (f y))
    (values : List α) : combine? g' (values.map f) = (combine? g values).map f := by
  cases values with
  | nil => rfl
  | cons first rest =>
    rw [List.map_cons, combine?, combine?, Option.map_some]
    induction rest generalizing first with
    | nil => rfl
    | cons x rest ih => rw [List.map_cons, List.foldl_cons, List.foldl_cons, ← h, ih]

/-! ### Running -/

namespace Machine

def map (f : α → β) (m : Machine α) : Machine β :=
  { stack := m.stack.map f, bound := m.bound.map fun entry => (entry.1, f entry.2) }

theorem lookup_map (f : α → β) (name : String) (bound : List (String × α)) :
    (bound.map fun entry => (entry.1, f entry.2)).lookup name = (bound.lookup name).map f := by
  induction bound with
  | nil => rfl
  | cons entry bound ih =>
    rw [List.map_cons, List.lookup_cons, List.lookup_cons, ih]
    split <;> rfl

variable {f : α → β} {arithmetic : Arithmetic α} {arithmetic' : Arithmetic β}

theorem value_map (m : Machine α) : (m.map f).value = m.value.map f := by
  obtain ⟨_ | ⟨x, _ | ⟨y, rest⟩⟩, bound⟩ := m
  · rfl
  · rfl
  · simp [map, value, Except.map]

variable (hf : Arithmetic.Hom f arithmetic arithmetic')
include hf

theorem reduce?_map (o : Operation) (stack : List α) :
    reduce? arithmetic' o (stack.map f) = (reduce? arithmetic o stack).map (List.map f) := by
  unfold reduce?
  rw [pop?_map]
  cases pop? o.arity stack with
  | none => rfl
  | some r =>
    simp only [Option.map_some, Option.bind_eq_bind, Option.bind_some, combine?_map (hf o.operator)]
    cases combine? (arithmetic o.operator) r.1 <;> rfl

theorem step_map (resolve : Resolver α) (m : Machine α) (i : Instr α) :
    (m.map f).step arithmetic' (fun name => (resolve name).map f) (i.map f) =
      (m.step arithmetic resolve i).map (Machine.map f) := by
  cases i with
  | declare name =>
    simp only [Instr.map, step]
    cases resolve name <;> rfl
  | fetch name =>
    simp only [Instr.map, step, map, lookup_map]
    cases m.bound.lookup name <;> rfl
  | push value => rfl
  | apply o =>
    simp only [Instr.map, step, map, reduce?_map hf]
    cases reduce? arithmetic o m.stack with
    | none => simp [Except.map]
    | some stack => rfl
  | nop => rfl

theorem run_map (resolve : Resolver α) (p : Program α) (m : Machine α) :
    (m.map f).run arithmetic' (fun name => (resolve name).map f) (p.map (Instr.map f)) =
      ⟨(m.run arithmetic resolve p).asked, (m.run arithmetic resolve p).result.map f⟩ := by
  induction p generalizing m with
  | nil =>
    rw [List.map_nil, run, run, value_map]
  | cons i p ih =>
    rw [List.map_cons, run, run, step_map hf]
    have hasks : asks (i.map f) = asks i := by cases i <;> rfl
    cases m.step arithmetic resolve i with
    | error error => simp [Except.map, hasks]
    | ok next => simp [Except.map, hasks, ih next]

end Machine

/-- Mapping the literals and the values of names maps the value of a program. -/
theorem Program.run_map {f : α → β} {arithmetic : Arithmetic α} {arithmetic' : Arithmetic β}
    (hf : Arithmetic.Hom f arithmetic arithmetic') (resolve : Resolver α) (p : Program α) :
    Program.run arithmetic' (fun name => (resolve name).map f) (p.map (Instr.map f)) =
      ⟨(p.run arithmetic resolve).asked, (p.run arithmetic resolve).result.map f⟩ :=
  Machine.run_map hf resolve p {}

/-! ### Optimizing -/

namespace Draft

def map (f : α → β) (d : Draft α) : Draft β :=
  { code := d.code.map (Instr.map f), stack := d.stack }

theorem map_empty (f : α → β) : Draft.map f {} = {} := by
  simp [map]

theorem getElem?_code_map (f : α → β) (d : Draft α) (position : Nat) :
    (d.map f).code[position]? = d.code[position]?.map (Instr.map f) :=
  Array.getElem?_map

theorem write_map (f : α → β) (d : Draft α) (i : Instr α) : (d.map f).write (i.map f) = (d.write i).map f := by
  simp [map, write]

theorem produce_map (f : α → β) (d : Draft α) (i : Instr α) (stack : List (Option Nat)) :
    (d.map f).produce (i.map f) stack = (d.produce i stack).map f := by
  simp [map, produce]

theorem remember_map (f : α → β) (d : Draft α) (i : Instr α) (stack : List (Option Nat)) :
    (d.map f).remember (i.map f) stack = (d.remember i stack).map f := by
  simp [map, remember]

theorem revise_map (f : α → β) (d : Draft α) (position : Nat) (i : Instr α) :
    (d.map f).revise position (i.map f) = (d.revise position i).map f := by
  simp [map, revise]

theorem retire_map (f : α → β) (d : Draft α) (positions : List Nat) :
    (d.map f).retire positions = (d.retire positions).map f := by
  induction positions generalizing d with
  | nil => rfl
  | cons position positions ih =>
    have hrevise : (d.map f).revise position .nop = (d.revise position .nop).map f := revise_map f d position .nop
    rw [retire, List.foldl_cons, hrevise]
    exact ih (d.revise position .nop)

theorem program_map (f : α → β) (d : Draft α) : (d.map f).program = d.program.map (Instr.map f) := by
  unfold program map
  rw [Array.toList_map, List.filter_map]
  congr 2
  funext i
  exact congrArg not (Instr.isNop_map f i)

/-! #### Fusing and merging -/

theorem absorb_map (f : α → β) (op : Operator) (r : Draft α × Nat) (entry : Option Nat) :
    absorb op (r.1.map f, r.2) entry = ((absorb op r entry).1.map f, (absorb op r entry).2) := by
  obtain ⟨d, extra⟩ := r
  cases entry with
  | none => rfl
  | some position =>
    simp only [absorb, getElem?_code_map]
    cases d.code[position]? with
    | none => rfl
    | some i =>
      cases i with
      | apply o =>
        simp only [Option.map_some, Instr.map]
        split
        · exact congrArg (·, extra + o.extra) (revise_map f d position .nop)
        · rfl
      | _ => rfl

theorem foldl_absorb_map (f : α → β) (op : Operator) (r : Draft α × Nat) (entries : List (Option Nat)) :
    entries.foldl (absorb op) (r.1.map f, r.2) =
      ((entries.foldl (absorb op) r).1.map f, (entries.foldl (absorb op) r).2) := by
  induction entries generalizing r with
  | nil => rfl
  | cons entry entries ih => rw [List.foldl_cons, List.foldl_cons, absorb_map, ih]

theorem fuseStep_map (f : α → β) (d : Draft α) (i : Instr α) :
    (d.map f).fuseStep (i.map f) = (d.fuseStep i).map (Draft.map f) := by
  cases i with
  | apply o =>
    have hstack : (d.map f).stack = d.stack := rfl
    simp only [Instr.map, fuseStep, hstack]
    cases pop? o.arity d.stack with
    | none => rfl
    | some r =>
      by_cases hfusible : o.isFusible = true
      · simp only [Option.bind_eq_bind, Option.bind_some, hfusible, if_true]
        rw [foldl_absorb_map f o.operator (d, o.extra)]
        exact congrArg some (remember_map f _ (.apply _) r.2)
      · simp only [Option.bind_eq_bind, Option.bind_some, hfusible]
        exact congrArg some (produce_map f d (.apply o) r.2)
  | declare name => exact congrArg some (write_map f d (.declare name))
  | fetch name => exact congrArg some (produce_map f d (.fetch name) d.stack)
  | push value => exact congrArg some (produce_map f d (.push value) d.stack)
  | nop => exact congrArg some (write_map f d .nop)

theorem mergeStep_map (f : α → β) (d : Draft α) (i : Instr α) :
    (d.map f).mergeStep (i.map f) = (d.mergeStep i).map f := by
  cases i with
  | apply o =>
    have hback : (d.map f).code.back? = d.code.back?.map (Instr.map f) := Array.back?_map
    have hsize : (d.map f).code.size = d.code.size := Array.size_map
    simp only [Instr.map, mergeStep, hback, hsize]
    cases d.code.back? with
    | none => exact write_map f d (.apply o)
    | some j =>
      cases j with
      | apply before =>
        simp only [Option.map_some, Instr.map]
        split
        · have hrevise : (d.map f).revise (d.code.size - 1) .nop = (d.revise (d.code.size - 1) .nop).map f :=
            revise_map f d _ .nop
          rw [hrevise]
          exact write_map f _ (.apply _)
        · exact write_map f d (.apply o)
      | _ => exact write_map f d (.apply o)
  | declare name => exact write_map f d (.declare name)
  | fetch name => exact write_map f d (.fetch name)
  | push value => exact write_map f d (.push value)
  | nop => exact write_map f d .nop

/-! #### Folding -/

theorem literalAt?_map (f : α → β) (d : Draft α) (position : Nat) :
    (d.map f).literalAt? position = (d.literalAt? position).map f := by
  unfold literalAt?
  rw [getElem?_code_map]
  cases d.code[position]? with
  | none => rfl
  | some i => cases i <;> rfl

end Draft

theorem allPresent?_map (f : α → β) (entries : List (Option α)) :
    allPresent? (entries.map (Option.map f)) = (allPresent? entries).map (List.map f) := by
  induction entries with
  | nil => rfl
  | cons entry entries ih =>
    cases entry with
    | none => rfl
    | some x =>
      rw [List.map_cons, Option.map_some, allPresent?, ih, allPresent?]
      cases allPresent? entries <;> rfl

section Fold

variable {f : α → β} {arithmetic : Arithmetic α} {arithmetic' : Arithmetic β} {representable : α → Bool}
  {representable' : β → Bool} (hf : Arithmetic.Hom f arithmetic arithmetic')
  (hr : ∀ x, representable' (f x) = representable x)
include hf hr

namespace Draft

theorem folded?_map (d : Draft α) (op : Operator) (positions : List Nat) :
    (d.map f).folded? arithmetic' representable' op positions =
      (d.folded? arithmetic representable op positions).map f := by
  have hliterals : positions.map (d.map f).literalAt? = (positions.map d.literalAt?).map (Option.map f) := by
    rw [List.map_map]
    exact List.map_congr_left fun position _ => literalAt?_map f d position
  unfold folded?
  rw [hliterals, allPresent?_map]
  cases allPresent? (positions.map d.literalAt?) with
  | none => rfl
  | some values =>
    simp only [Option.map_some, Option.bind_eq_bind, Option.bind_some, combine?_map (hf op)]
    cases combine? (arithmetic op) values with
    | none => rfl
    | some value =>
      simp only [Option.map_some, Option.bind_some, hr]
      split <;> rfl

theorem foldRun_map (op : Operator) (r : Draft α × Nat) (run : List Nat) :
    foldRun arithmetic' representable' op (r.1.map f, r.2) run =
      ((foldRun arithmetic representable op r run).1.map f, (foldRun arithmetic representable op r run).2) := by
  obtain ⟨d, extra⟩ := r
  cases run with
  | nil => rfl
  | cons first others =>
    simp only [foldRun, folded?_map hf hr]
    cases d.folded? arithmetic representable op (first :: others) with
    | none => rfl
    | some value =>
      have hrevise : (d.map f).revise first (.push (f value)) = (d.revise first (.push value)).map f :=
        revise_map f d first (.push value)
      simp only [Option.map_some, hrevise, retire_map]

theorem foldl_foldRun_map (op : Operator) (r : Draft α × Nat) (runs : List (List Nat)) :
    runs.foldl (foldRun arithmetic' representable' op) (r.1.map f, r.2) =
      ((runs.foldl (foldRun arithmetic representable op) r).1.map f,
        (runs.foldl (foldRun arithmetic representable op) r).2) := by
  induction runs generalizing r with
  | nil => rfl
  | cons run runs ih => rw [List.foldl_cons, List.foldl_cons, foldRun_map hf hr, ih]

theorem foldStep_map (d : Draft α) (i : Instr α) :
    (d.map f).foldStep arithmetic' representable' (i.map f) =
      (d.foldStep arithmetic representable i).map (Draft.map f) := by
  cases i with
  | apply o =>
    have hstack : (d.map f).stack = d.stack := rfl
    simp only [Instr.map, foldStep, hstack]
    cases pop? o.arity d.stack with
    | none => rfl
    | some r =>
      simp only [Option.bind_eq_bind, Option.bind_some]
      cases allPresent? r.1 with
      | some positions =>
        simp only [folded?_map hf hr, retire_map]
        cases d.folded? arithmetic representable o.operator positions with
        | none => exact congrArg some (produce_map f d (.apply o) r.2)
        | some value => exact congrArg some (remember_map f _ (.push value) r.2)
      | none =>
        by_cases hfusible : o.isFusible = true
        · simp only [hfusible, if_true]
          rw [foldl_foldRun_map hf hr o.operator (d, o.extra)]
          exact congrArg some (produce_map f _ (.apply _) r.2)
        · simp only [hfusible]
          exact congrArg some (produce_map f d (.apply o) r.2)
  | declare name => exact congrArg some (write_map f d (.declare name))
  | fetch name => exact congrArg some (produce_map f d (.fetch name) d.stack)
  | push value => exact congrArg some (remember_map f d (.push value) d.stack)
  | nop => exact congrArg some (write_map f d .nop)

end Draft

end Fold

/-- Redrafting commutes with a map of literals if each of its steps does. -/
theorem redraft_map {f : α → β} {step : Draft α → Instr α → Option (Draft α)}
    {step' : Draft β → Instr β → Option (Draft β)}
    (hstep : ∀ d i, step' (d.map f) (i.map f) = (step d i).map (Draft.map f)) (p : Program α) :
    redraft step' (p.map (Instr.map f)) = (redraft step p).map (Instr.map f) := by
  have hfold : ∀ (q : Program α) (d : Draft α),
      (q.map (Instr.map f)).foldlM step' (d.map f) = (q.foldlM step d).map (Draft.map f) := by
    intro q
    induction q with
    | nil => intro d; rfl
    | cons i q ih =>
      intro d
      rw [List.map_cons, List.foldlM_cons, List.foldlM_cons, hstep]
      cases step d i with
      | none => rfl
      | some next => exact ih next
  unfold redraft
  rw [← Draft.map_empty f, hfold p {}]
  cases p.foldlM step {} with
  | none => rfl
  | some d => exact d.program_map f

namespace Program

theorem fuse_map (f : α → β) (p : Program α) : fuse (p.map (Instr.map f)) = p.fuse.map (Instr.map f) :=
  redraft_map (Draft.fuseStep_map f) p

theorem merge_map (f : α → β) (p : Program α) : merge (p.map (Instr.map f)) = p.merge.map (Instr.map f) := by
  have hfold : ∀ (q : Program α) (d : Draft α),
      (q.map (Instr.map f)).foldl Draft.mergeStep (d.map f) = (q.foldl Draft.mergeStep d).map f := by
    intro q
    induction q with
    | nil => intro d; rfl
    | cons i q ih =>
      intro d
      rw [List.map_cons, List.foldl_cons, List.foldl_cons, Draft.mergeStep_map, ih]
  rw [merge, ← Draft.map_empty f, hfold p {}, Draft.program_map, merge]

section

variable {f : α → β} {arithmetic : Arithmetic α} {arithmetic' : Arithmetic β} {representable : α → Bool}
  {representable' : β → Bool} (hf : Arithmetic.Hom f arithmetic arithmetic')
  (hr : ∀ x, representable' (f x) = representable x)
include hf hr

theorem round_map (p : Program α) :
    (round arithmetic' representable' (p.map (Instr.map f))).folded =
      (p.round arithmetic representable).folded.map (Instr.map f) := by
  simp only [round, fuse_map, merge_map]
  exact redraft_map (Draft.foldStep_map hf hr) _

theorem rounds_map (p : Program α) (limit : Nat) :
    (rounds arithmetic' representable' (p.map (Instr.map f)) limit).map Round.folded =
      (p.rounds arithmetic representable limit).map fun r => r.folded.map (Instr.map f) := by
  induction limit generalizing p with
  | zero => rfl
  | succ limit ih =>
    simp only [rounds, round_map hf hr, List.length_map]
    split
    · rw [List.map_cons, List.map_cons, round_map hf hr, ih]
    · rw [List.map_singleton, List.map_singleton, round_map hf hr]

/-- Mapping the literals commutes with optimizing. -/
theorem optimize_map (level : Level) (p : Program α) :
    (optimize arithmetic' representable' level (p.map (Instr.map f))).program =
      (p.optimize arithmetic representable level).program.map (Instr.map f) := by
  unfold optimize
  by_cases hlevel : level = .number 0
  · rw [if_pos hlevel, if_pos hlevel]
  · rw [if_neg hlevel, if_neg hlevel, List.length_map]
    have hlast := congrArg List.getLast? (rounds_map hf hr p (p.length + 1))
    rw [List.getLast?_map, List.getLast?_map] at hlast
    simp only [hlast]
    cases (p.rounds arithmetic representable (p.length + 1)).getLast? <;> rfl

end

end Program

end StackCalc
