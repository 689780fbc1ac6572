import StackCalc.Optimize.Fuse
import StackCalc.Proofs.Ledger
import StackCalc.Proofs.Runs

/-!
No pass of the optimizer misreads its own revisions. A pass owns the positions on its simulated stack: each of them
stands there once, and its instruction is still what the pass took it for, a literal for folding and an associative
operator for fusing. A step gives up the operands that it takes off the stack before it revises them, so what it retires
is owned by nobody and is neither read nor revised again. With a ledger every pass therefore ends as it does on a draft.
-/

namespace StackCalc

namespace Ledger

variable {α : Type} {p : Program α} {l : Ledger α} {d : Draft α} {count : Nat}

/-! ### Ledgers and drafts side by side -/

/-- Both sides go on with related results, or both lack operands. Nothing is misread. -/
inductive Agree {β γ : Type} (R : β → γ → Prop) : Except Halt β → Option γ → Prop
  | ok {b : β} {c : γ} (h : R b c) : Agree R (.ok b) (some c)
  | lacking : Agree R (.error .lacking) none

theorem Agree.bind {β γ β' γ' : Type} {R : β → γ → Prop} {S : β' → γ' → Prop} {x : Except Halt β} {y : Option γ}
    {f : β → Except Halt β'} {g : γ → Option γ'} (h : Agree R x y) (hnext : ∀ b c, R b c → Agree S (f b) (g c)) :
    Agree S (x >>= f) (y >>= g) := by
  cases h with
  | ok h => exact hnext _ _ h
  | lacking => exact .lacking

/-- What every step keeps holds after any number of instructions. -/
theorem agree_after {step : Ledger α → Nat → Instr α → Except Halt (Ledger α)}
    {draftStep : Draft α → Instr α → Option (Draft α)} {R : Nat → Ledger α → Draft α → Prop} (hempty : R 0 {} {})
    (hstep : ∀ {count i l d}, p[count]? = some i → R count l d → Agree (R (count + 1)) (step l count i) (draftStep d i))
    (count : Nat) (hcount : count ≤ p.length) :
    Agree (R count) (after p step count) ((p.take count).foldlM draftStep {}) := by
  induction count with
  | zero => exact .ok hempty
  | succ count ih =>
    have hi : p[count]? = some p[count] := List.getElem?_eq_getElem hcount
    rw [List.take_add_one, List.foldlM_append, after]
    refine (ih (by omega)).bind fun l d h => ?_
    simpa [hi] using hstep hi h

theorem revised_eq {step : Ledger α → Nat → Instr α → Except Halt (Ledger α)}
    {draftStep : Draft α → Instr α → Option (Draft α)} {R : Ledger α → Draft α → Prop}
    (hR : ∀ {l d}, R l d → Tells p p.length l d)
    (h : Agree R (after p step p.length) ((p.take p.length).foldlM draftStep {})) :
    revised p step = .ok (redraft draftStep p) := by
  rw [List.take_length] at h
  rw [revised, redraft]
  generalize after p step p.length = x at h ⊢
  generalize p.foldlM draftStep {} = y at h ⊢
  cases h with
  | ok h => simp only [(hR h).program_eq]
  | lacking => rfl

/-- The ledger tells the draft, and the pass owns the positions on the stack. -/
structure Keeps (p : Program α) (I : Nat → Instr α → Prop) (count : Nat) (l : Ledger α) (d : Draft α) : Prop where
  tells : Tells p count l d
  stack : d.stack = l.stack
  owns : Owns p count l I l.stack.reduceOption

theorem Keeps.empty (p : Program α) (I : Nat → Instr α → Prop) : Keeps p I 0 {} {} where
  tells := .empty p
  stack := rfl
  owns := ⟨.nil, by simp, by simp⟩

/-- The next instruction is written as it is, over a stack that is owned. -/
theorem Tells.keeps_write {I : Nat → Instr α → Prop} (h : Tells p count l d) {i : Instr α} (hi : p[count]? = some i)
    {stack : List (Option Nat)} (howns : Owns p count l I stack.reduceOption) :
    Keeps p I (count + 1) { l with stack } { code := d.code.push i, stack } where
  tells := h.write hi stack stack
  stack := rfl
  owns := howns.succ.with_stack stack

theorem Keeps.write {I : Nat → Instr α → Prop} (h : Keeps p I count l d) {i : Instr α} (hi : p[count]? = some i) :
    Keeps p I (count + 1) l (d.write i) := by
  rw [Draft.write, h.stack]
  exact h.tells.keeps_write hi h.owns

theorem Keeps.produce {I : Nat → Instr α → Prop} (h : Keeps p I count l d) {i : Instr α} (hi : p[count]? = some i) :
    Keeps p I (count + 1) { l with stack := none :: l.stack } (d.produce i d.stack) := by
  rw [Draft.produce, h.stack]
  exact h.tells.keeps_write hi h.owns

/-! ### Fusing -/

/-- An associative operation of the program, with any number of operands. -/
def IsResized (p : Program α) (position : Nat) (i : Instr α) : Prop :=
  ∃ o extra, p[position]? = some (.apply o) ∧ o.isFusible = true ∧ i = .apply (o.withExtra extra)

/-- Every producer that is taken over is read before it is retired. -/
theorem foldlM_absorb (op : Operator) {operands : List (Option Nat)} {below : List Nat} (htells : Tells p count l d)
    (howns : Owns p count l (IsResized p) (operands.reduceOption ++ below)) (extra : Nat) :
    ∃ l' d' extra', operands.foldlM (absorb p op) (l, extra) = .ok (l', extra') ∧
      operands.foldl (Draft.absorb op) (d, extra) = (d', extra') ∧
      Tells p count l' d' ∧ Owns p count l' (IsResized p) below := by
  induction operands generalizing l d extra with
  | nil => exact ⟨l, d, extra, rfl, rfl, htells, howns⟩
  | cons operand operands ih =>
    cases operand with
    | none => exact ih htells howns extra
    | some position =>
      rw [List.reduceOption_cons_of_some, List.cons_append] at howns
      have hlt := howns.lt position (by simp)
      obtain ⟨_, hcurrent, o, extra', hp, -, rfl⟩ := howns.current position (by simp)
      have hcode := (htells.code position hlt).trans hcurrent
      rw [List.foldlM_cons, List.foldl_cons]
      by_cases hop : o.operator = op
      · have hnext := ih (htells.revise hlt hcurrent rfl .nop) (howns.revise .nop) (extra + (o.withExtra extra').extra)
        simpa [absorb, Draft.absorb, hp, hop, operationAt, hcurrent, hcode] using hnext
      · have hnext := ih htells howns.tail extra
        simpa [absorb, Draft.absorb, hp, hop, hcode] using hnext

theorem agree_fuseStep {i : Instr α} (hi : p[count]? = some i) (h : Keeps p (IsResized p) count l d) :
    Agree (Keeps p (IsResized p) (count + 1)) (fuseStep p l count i) (d.fuseStep i) := by
  cases i with
  | apply o =>
    rw [fuseStep, Draft.fuseStep, operands, h.stack]
    cases hpop : pop? o.arity l.stack with
    | none => exact .lacking
    | some split =>
      obtain ⟨operands, rest⟩ := split
      have howns := h.owns.pop hpop
      by_cases hf : o.isFusible = true
      · obtain ⟨l', d', extra, hfold, hdraft, htells, hrest⟩ := foldlM_absorb o.operator h.tells howns o.extra
        have hkeeps : Keeps p (IsResized p) (count + 1) { l'.resize count o extra with stack := some count :: rest }
            (d'.remember (.apply (o.withExtra extra)) rest) := by
          rw [Draft.remember, htells.size]
          have hnext := (hrest.resize o extra).push (htells.current?_resize hi extra) ⟨o, extra, hi, hf, rfl⟩
          exact ⟨htells.write_resized hi extra _ _, rfl, hnext.with_stack _⟩
        simpa [hf, hfold, hdraft] using Agree.ok hkeeps
      · have hkeeps : Keeps p (IsResized p) (count + 1) { l with stack := none :: rest } (d.produce (.apply o) rest) :=
          h.tells.keeps_write hi (howns.of_sublist (List.sublist_append_right ..))
        simpa [hf] using Agree.ok hkeeps
  | push value => exact .ok (h.produce hi)
  | fetch name => exact .ok (h.produce hi)
  | declare name => exact .ok (h.write hi)
  | nop => exact .ok (h.write hi)

/-! ### Merging -/

/-- The same instruction, or operations with the same operator. -/
inductive Resembles : Instr α → Instr α → Prop
  | refl (i : Instr α) : Resembles i i
  | apply {o o' : Operation} (h : o'.operator = o.operator) : Resembles (.apply o) (.apply o')

/-- The ledger tells the draft, and the last instruction is still what it was but for the number of its operands. -/
structure KeepsLast (p : Program α) (count : Nat) (l : Ledger α) (d : Draft α) : Prop where
  tells : Tells p count l d
  last : ∀ previous, count = previous + 1 →
    ∃ i j, p[previous]? = some i ∧ l.current? p previous = some j ∧ Resembles i j

theorem KeepsLast.empty (p : Program α) : KeepsLast p 0 {} {} where
  tells := .empty p
  last _ h := by cases h

/-- What stands before an operation is the operator that the program has there. -/
theorem KeepsLast.exists_operation (h : KeepsLast p count l d) {previous : Nat} {before : Operation}
    (hprevious : count = previous + 1) (hbefore : p[previous]? = some (.apply before)) :
    ∃ o, l.current? p previous = some (.apply o) ∧ o.operator = before.operator := by
  obtain ⟨i, j, hi, hcurrent, hsame⟩ := h.last previous hprevious
  obtain rfl := Option.some.inj (hbefore.symm.trans hi)
  cases hsame with
  | refl => exact ⟨before, hcurrent, rfl⟩
  | apply hop => exact ⟨_, hcurrent, hop⟩

theorem KeepsLast.write (h : KeepsLast p count l d) {i : Instr α} (hi : p[count]? = some i) :
    KeepsLast p (count + 1) l (d.write i) where
  tells := h.tells.write hi l.stack d.stack
  last previous hprevious := by
    obtain rfl := Nat.succ.inj hprevious
    exact ⟨i, i, hi, (h.tells.current?_of_le (Nat.le_refl count)).trans hi, .refl i⟩

theorem agree_merge {previous : Nat} {o before before' : Operation} (hi : p[previous + 1]? = some (.apply o))
    (h : KeepsLast p (previous + 1) l d) (hbefore : p[previous]? = some (.apply before))
    (hcurrent : l.current? p previous = some (.apply before')) (hop : before'.operator = before.operator) :
    Agree (KeepsLast p (previous + 2)) (mergeStep p l (previous + 1) (.apply o)) (some (d.mergeStep (.apply o))) := by
  have hback := h.tells.back?.trans hcurrent
  by_cases hmerge : (o.isFusible && before.operator == o.operator) = true
  · have hretired := h.tells.revise (Nat.lt_succ_self previous) hcurrent rfl .nop
    have hkeeps : KeepsLast p (previous + 2)
        ((l.revise previous .nop).revise (previous + 1) (.apply (o.withExtra (o.extra + before'.extra))))
        ((d.revise previous .nop).write (.apply (o.withExtra (o.extra + before'.extra)))) := by
      refine ⟨hretired.write_revised _ l.stack d.stack, ?_⟩
      rintro _ ⟨⟩
      exact ⟨_, _, hi, by rw [current?_revise, if_pos rfl], .apply (Operation.operator_withExtra ..)⟩
    simpa [mergeStep, Draft.mergeStep, hbefore, hback, hop, hmerge, operationAt, hcurrent, h.tells.size]
      using Agree.ok hkeeps
  · simpa [mergeStep, Draft.mergeStep, hbefore, hback, hop, hmerge] using Agree.ok (h.write hi)

theorem agree_mergeStep {i : Instr α} (hi : p[count]? = some i) (h : KeepsLast p count l d) :
    Agree (KeepsLast p (count + 1)) (mergeStep p l count i) (some (d.mergeStep i)) := by
  cases i with
  | apply o =>
    cases count with
    | zero =>
      have hback : d.code.back? = none := Array.back?_eq_none_iff.mpr (Array.size_eq_zero_iff.mp h.tells.size)
      simpa [mergeStep, Draft.mergeStep, hback] using Agree.ok (h.write hi)
    | succ previous =>
      obtain ⟨i, j, hbefore, hcurrent, hsame⟩ := h.last previous rfl
      cases hsame with
      | apply hop => exact agree_merge hi h hbefore hcurrent hop
      | refl =>
        cases i with
        | apply before => exact agree_merge hi h hbefore hcurrent rfl
        | _ =>
          have hback := h.tells.back?.trans hcurrent
          simpa [mergeStep, Draft.mergeStep, hbefore, hback] using Agree.ok (h.write hi)
  | _ => exact .ok (h.write hi)

/-! ### Folding -/

def IsLiteral (_ : Nat) (i : Instr α) : Prop :=
  ∃ x, i = .push x

theorem allPresent?_eq_some {β : Type} {entries : List (Option β)} {xs : List β} :
    allPresent? entries = some xs ↔ entries = xs.map some := by
  induction entries generalizing xs with
  | nil => cases xs <;> simp [allPresent?]
  | cons entry entries ih =>
    cases entry with
    | none => cases xs <;> simp [allPresent?]
    | some x => cases xs <;> simp [allPresent?, ih, and_comm]

section Fold

variable (arithmetic : Arithmetic α) (representable : α → Bool)

/-- Literals that are owned can be read, and the draft shows the same ones. -/
theorem mapM_literalAt {positions : List Nat} (htells : Tells p count l d)
    (howns : Owns p count l IsLiteral positions) :
    ∃ values, positions.mapM (l.literalAt p) = .ok values ∧ positions.map d.literalAt? = values.map some := by
  induction positions with
  | nil => exact ⟨[], rfl, rfl⟩
  | cons position positions ih =>
    obtain ⟨values, hread, hdraft⟩ := ih howns.tail
    obtain ⟨_, hcurrent, x, rfl⟩ := howns.current position (by simp)
    have hcode := (htells.code position (howns.lt position (by simp))).trans hcurrent
    refine ⟨x :: values, ?_, ?_⟩
    · simp [literalAt, hcurrent, hread]
    · simp [Draft.literalAt?, hcode, hdraft]

theorem result_eq {positions : List Nat} (htells : Tells p count l d) (howns : Owns p count l IsLiteral positions)
    (hne : positions ≠ []) (op : Operator) :
    ∃ x, l.result p arithmetic op positions = .ok x ∧
      d.folded? arithmetic representable op positions = if representable x then some x else none := by
  obtain ⟨values, hread, hdraft⟩ := mapM_literalAt htells howns
  have hvalues : values ≠ [] := by
    rintro rfl
    exact hne (by simpa using hdraft)
  obtain ⟨first, others, rfl⟩ := List.exists_cons_of_ne_nil hvalues
  refine ⟨_, by rw [result, hread]; rfl, ?_⟩
  rw [Draft.folded?, hdraft, allPresent?_map_some]
  rfl

theorem retire_owned {positions below : List Nat} (htells : Tells p count l d)
    (howns : Owns p count l IsLiteral (positions ++ below)) :
    Tells p count (l.retire positions) (d.retire positions) ∧ Owns p count (l.retire positions) IsLiteral below := by
  induction positions generalizing l d with
  | nil => exact ⟨htells, howns⟩
  | cons position positions ih =>
    obtain ⟨_, hcurrent, x, rfl⟩ := howns.current position (by simp)
    exact ih (htells.revise (howns.lt position (by simp)) hcurrent rfl .nop) (howns.revise .nop)

theorem foldRun_owned (op : Operator) {run below : List Nat} (htells : Tells p count l d)
    (howns : Owns p count l IsLiteral (run ++ below)) (hne : run ≠ []) (extra : Nat) :
    ∃ l' d' extra', foldRun p arithmetic representable op (l, extra) run = .ok (l', extra') ∧
      Draft.foldRun arithmetic representable op (d, extra) run = (d', extra') ∧
      Tells p count l' d' ∧ Owns p count l' IsLiteral below := by
  obtain ⟨x, hresult, hfolded⟩ :=
    result_eq arithmetic representable htells (howns.of_sublist (List.sublist_append_left ..)) hne op
  obtain ⟨first, others, rfl⟩ := List.exists_cons_of_ne_nil hne
  by_cases hx : representable x = true
  · obtain ⟨_, hcurrent, y, rfl⟩ := howns.current first (by simp)
    have hfirst := htells.revise (howns.lt first (by simp)) hcurrent rfl (.push x)
    obtain ⟨hretired, hbelow⟩ := retire_owned hfirst (howns.revise (.push x))
    exact ⟨_, _, extra - others.length, by simp [foldRun, hresult, hx], by simp [Draft.foldRun, hfolded, hx],
      hretired, hbelow⟩
  · exact ⟨l, d, extra, by simp [foldRun, hresult, hx], by simp [Draft.foldRun, hfolded, hx], htells,
      howns.of_sublist (List.sublist_append_right ..)⟩

theorem foldlM_foldRun (op : Operator) {runs : List (List Nat)} {below : List Nat} (htells : Tells p count l d)
    (howns : Owns p count l IsLiteral (runs.flatten ++ below)) (hne : ∀ run ∈ runs, run ≠ []) (extra : Nat) :
    ∃ l' d' extra', runs.foldlM (foldRun p arithmetic representable op) (l, extra) = .ok (l', extra') ∧
      runs.foldl (Draft.foldRun arithmetic representable op) (d, extra) = (d', extra') ∧
      Tells p count l' d' ∧ Owns p count l' IsLiteral below := by
  induction runs generalizing l d extra with
  | nil => exact ⟨l, d, extra, rfl, rfl, htells, howns⟩
  | cons run runs ih =>
    rw [List.flatten_cons, List.append_assoc] at howns
    obtain ⟨l₁, d₁, extra₁, hrun, hdraft, htells₁, howns₁⟩ :=
      foldRun_owned arithmetic representable op htells howns (hne run (by simp)) extra
    have hnext := ih htells₁ howns₁ (fun run hrun => hne run (by simp [hrun])) extra₁
    simpa [hrun, hdraft] using hnext

theorem agree_foldStep_apply {o : Operation} (hi : p[count]? = some (.apply o)) (h : Keeps p IsLiteral count l d) :
    Agree (Keeps p IsLiteral (count + 1)) (foldStep p arithmetic representable l count (.apply o))
      (d.foldStep arithmetic representable (.apply o)) := by
  rw [foldStep, Draft.foldStep, operands, h.stack]
  cases hpop : pop? o.arity l.stack with
  | none => exact .lacking
  | some split =>
    obtain ⟨operands, rest⟩ := split
    have howns := h.owns.pop hpop
    have hrest := howns.of_sublist (List.sublist_append_right ..)
    -- The operation stays if it is not folded at all.
    have hkept : Keeps p IsLiteral (count + 1) { l with stack := none :: rest } (d.produce (.apply o) rest) :=
      h.tells.keeps_write hi hrest
    cases hpresent : allPresent? operands with
    | some positions =>
      obtain rfl := allPresent?_eq_some.mp hpresent
      have hpositions : (positions.map some).reduceOption = positions := by simp [List.reduceOption]
      rw [hpositions] at howns
      have hne : positions ≠ [] := by
        rintro rfl
        cases (pop?_eq_some_iff.mp hpop).2
      obtain ⟨x, hresult, hfolded⟩ :=
        result_eq arithmetic representable h.tells (howns.of_sublist (List.sublist_append_left ..)) hne o.operator
      by_cases hx : representable x = true
      · obtain ⟨hretired, hbelow⟩ := retire_owned h.tells howns
        have hkeeps : Keeps p IsLiteral (count + 1)
            { (l.retire positions).revise count (.push x) with stack := some count :: rest }
            ((d.retire positions).remember (.push x) rest) := by
          rw [Draft.remember, hretired.size]
          have hcurrent : ((l.retire positions).revise count (.push x)).current? p count = some (.push x) := by
            rw [current?_revise, if_pos rfl]
          have hnext := (hbelow.revise_of_not_mem hbelow.count_not_mem (.push x)).push hcurrent ⟨x, rfl⟩
          exact ⟨hretired.write_revised _ _ _, rfl, hnext.with_stack _⟩
        simpa [hpresent, hresult, hfolded, hx] using Agree.ok hkeeps
      · simpa [hpresent, hresult, hfolded, hx] using Agree.ok hkept
    | none =>
      by_cases hf : o.isFusible = true
      · have hruns : Owns p count l IsLiteral ((literalRuns operands).flatten ++ rest.reduceOption) :=
          howns.of_sublist ((flatten_runsFrom_sublist [] operands).append (List.Sublist.refl _))
        have hne : ∀ run ∈ literalRuns operands, run ≠ [] := by
          rintro run hrun rfl
          cases two_le_length_of_mem_literalRuns hrun
        obtain ⟨l', d', extra, hfold, hdraft, htells, hbelow⟩ :=
          foldlM_foldRun arithmetic representable o.operator h.tells hruns hne o.extra
        have hkeeps : Keeps p IsLiteral (count + 1) { l'.resize count o extra with stack := none :: rest }
            (d'.produce (.apply (o.withExtra extra)) rest) :=
          ⟨htells.write_resized hi extra _ _, rfl, ((hbelow.resize o extra).succ).with_stack _⟩
        simpa [hpresent, hf, hfold, hdraft] using Agree.ok hkeeps
      · simpa [hpresent, hf] using Agree.ok hkept

theorem agree_foldStep {i : Instr α} (hi : p[count]? = some i) (h : Keeps p IsLiteral count l d) :
    Agree (Keeps p IsLiteral (count + 1)) (foldStep p arithmetic representable l count i)
      (d.foldStep arithmetic representable i) := by
  cases i with
  | apply o => exact agree_foldStep_apply arithmetic representable hi h
  | push value =>
    have hkeeps : Keeps p IsLiteral (count + 1) { l with stack := some count :: l.stack }
        (d.remember (.push value) d.stack) := by
      rw [Draft.remember, h.tells.size, h.stack]
      have hcurrent := (h.tells.current?_of_le (Nat.le_refl count)).trans hi
      exact ⟨h.tells.write hi _ _, rfl, (h.owns.push hcurrent ⟨value, rfl⟩).with_stack _⟩
    exact .ok hkeeps
  | fetch name => exact .ok (h.produce hi)
  | declare name => exact .ok (h.write hi)
  | nop => exact .ok (h.write hi)

end Fold

/-! ### All passes -/

theorem foldlM_some {β γ : Type} (f : β → γ → β) (start : β) (entries : List γ) :
    entries.foldlM (fun b c => some (f b c)) start = some (entries.foldl f start) :=
  List.foldlM_pure

theorem Agree.exists_of_eq_ok {β γ : Type} {R : β → γ → Prop} {x : Except Halt β} {y : Option γ} {b : β}
    (h : Agree R x y) (hx : x = .ok b) : ∃ c, y = some c ∧ R b c := by
  cases h with
  | ok h =>
    obtain rfl := Except.ok.inj hx
    exact ⟨_, rfl, h⟩
  | lacking => cases hx

/-- No pass misreads an instruction, so every pass gives the program that it gives on a draft. After any number of
    instructions the draft shows the stack and the instructions of the ledger; the positions on the stack of fusing are
    those of associative operations of the program, the positions on the stack of folding are those of literals, each of
    them once; what merging reads before an operation is the operator that the program has there; and no position has
    been revised after it was retired. -/
theorem passes_never_misread (arithmetic : Arithmetic α) (representable : α → Bool) (p : Program α) :
    (revised p (fuseStep p) = .ok p.fuse ∧
      ∀ count ≤ p.length, ∀ l, after p (fuseStep p) count = .ok l →
        Owns p count l (IsResized p) l.stack.reduceOption ∧ l.RetiresOnce ∧
          ∃ d, (p.take count).foldlM Draft.fuseStep {} = some d ∧ d.stack = l.stack ∧ Tells p count l d) ∧
    (revised p (mergeStep p) = .ok p.merge ∧
      ∀ count ≤ p.length, ∀ l, after p (mergeStep p) count = .ok l →
        (∀ previous before, count = previous + 1 → p[previous]? = some (.apply before) →
          ∃ o, l.current? p previous = some (.apply o) ∧ o.operator = before.operator) ∧ l.RetiresOnce ∧
          Tells p count l ((p.take count).foldl Draft.mergeStep {})) ∧
    (revised p (foldStep p arithmetic representable) = .ok (p.fold arithmetic representable) ∧
      ∀ count ≤ p.length, ∀ l, after p (foldStep p arithmetic representable) count = .ok l →
        Owns p count l IsLiteral l.stack.reduceOption ∧ l.RetiresOnce ∧
          ∃ d, (p.take count).foldlM (Draft.foldStep arithmetic representable) {} = some d ∧ d.stack = l.stack ∧
            Tells p count l d) := by
  have hfuse : ∀ count ≤ p.length, Agree (Keeps p (IsResized p) count) (after p (fuseStep p) count)
      ((p.take count).foldlM Draft.fuseStep {}) := agree_after (.empty p _) agree_fuseStep
  have hmerge : ∀ count ≤ p.length, Agree (KeepsLast p count) (after p (mergeStep p) count)
      ((p.take count).foldlM (fun d i => some (Draft.mergeStep d i)) {}) :=
    agree_after (.empty p) agree_mergeStep
  have hfold : ∀ count ≤ p.length, Agree (Keeps p IsLiteral count) (after p (foldStep p arithmetic representable) count)
      ((p.take count).foldlM (Draft.foldStep arithmetic representable) {}) :=
    agree_after (.empty p _) (agree_foldStep arithmetic representable)
  refine ⟨⟨revised_eq Keeps.tells (hfuse _ (Nat.le_refl _)), ?_⟩, ⟨?_, ?_⟩,
    ⟨revised_eq Keeps.tells (hfold _ (Nat.le_refl _)), ?_⟩⟩
  · intro count hcount l hl
    obtain ⟨d, hd, hkeeps⟩ := (hfuse count hcount).exists_of_eq_ok hl
    exact ⟨hkeeps.owns, hkeeps.tells.retiresOnce, d, hd, hkeeps.stack, hkeeps.tells⟩
  · rw [revised_eq KeepsLast.tells (hmerge _ (Nat.le_refl _)), redraft, foldlM_some]
    rfl
  · intro count hcount l hl
    obtain ⟨d, hd, hkeeps⟩ := (hmerge count hcount).exists_of_eq_ok hl
    rw [foldlM_some, Option.some.injEq] at hd
    exact ⟨fun previous before => hkeeps.exists_operation, hkeeps.tells.retiresOnce, hd ▸ hkeeps.tells⟩
  · intro count hcount l hl
    obtain ⟨d, hd, hkeeps⟩ := (hfold count hcount).exists_of_eq_ok hl
    exact ⟨hkeeps.owns, hkeeps.tells.retiresOnce, d, hd, hkeeps.stack, hkeeps.tells⟩

end Ledger

end StackCalc
