import StackCalc.Expr
import StackCalc.Proofs.DisplayText

/-!
The outline of an expression. The outline is drawn from a list of expressions that are pending, and it is the pre-order
of the expression: the line of a node, the lines of its left operand and those of its right operand. A line tells what
kind of node it is of, and thereby how many operands follow, so the lines of an expression are read in one way only, and
two expressions with the same outline are the same.
-/

namespace StackCalc

theorem Operator.isAlpha_heading (op : Operator) : ∀ c ∈ op.heading.toList, c.isAlpha = true := by
  rw [← List.all_eq_true]
  cases op <;> rfl

theorem Operator.heading_inj {op op' : Operator} (h : op.heading = op'.heading) : op = op' := by
  cases op <;> cases op' <;> first | rfl | exact absurd h (by decide)

namespace Expr

/-! ### Pre-order -/

/-- What the line of a node says. -/
def label : Expr Float → String
  | symbol name => "Symbol(" ++ name ++ ")"
  | number value => "Number(" ++ Number.display value ++ ")"
  | binary op _ _ => op.heading

/-- The line of a node at a depth, the indent repeated as often as the depth says. -/
def line (indent : String) (depth : Nat) (e : Expr Float) : String :=
  String.join (List.replicate depth indent) ++ e.label

/-- The lines of an expression at a depth: its own, those of the left operand and those of the right one. -/
def preorder (indent : String) (depth : Nat) : Expr Float → List String
  | symbol name => [line indent depth (symbol name)]
  | number value => [line indent depth (number value)]
  | binary op left right =>
    line indent depth (binary op left right) ::
      (left.preorder indent (depth + 1) ++ right.preorder indent (depth + 1))

/-- Pending expressions are drawn one after the other, each in pre-order. -/
theorem outlineLines_eq (indent : String) (pending : List (Nat × Expr Float)) :
    outlineLines indent pending = pending.flatMap fun (depth, e) => e.preorder indent depth := by
  fun_induction outlineLines indent pending with
  | case1 => rfl
  | case2 depth rest margin name ih => simp [ih, preorder, line, label, margin, String.append_assoc]
  | case3 depth rest margin value ih => simp [ih, preorder, line, label, margin, String.append_assoc]
  | case4 depth rest margin op left right ih => simp [ih, preorder, line, label, margin]

theorem outline_eq (e : Expr Float) (indent : String) : e.outline indent = "\n".intercalate (e.preorder indent 0) := by
  rw [outline, outlineLines_eq, List.flatMap_singleton]

theorem length_preorder (indent : String) (depth : Nat) (e : Expr Float) :
    (e.preorder indent depth).length = e.size := by
  induction e generalizing depth with
  | symbol name => rfl
  | number value => rfl
  | binary op left right ihl ihr => simp [preorder, size, ihl, ihr]

/-! ### Reading the lines -/

/-- An expression whose names are letters and whose literals are numbers. -/
def IsLegible : Expr Float → Prop
  | symbol name => ∀ c ∈ name.toList, c.isAlpha = true
  | number value => value.isNaN = false
  | binary _ left right => left.IsLegible ∧ right.IsLegible

theorem newline_not_mem_label {e : Expr Float} (h : e.IsLegible) : '\n' ∉ e.label.toList := by
  cases e with
  | symbol name =>
    have hname : '\n' ∉ name.toList := fun hmem => by cases h _ hmem
    simp [label, hname]
  | number value =>
    have hvalue := Number.newline_not_mem_display h
    simp [label, hvalue]
  | binary op left right =>
    intro hmem
    cases op.isAlpha_heading _ hmem

theorem newline_not_mem_line {indent : String} (hindent : '\n' ∉ indent.toList) {e : Expr Float} (h : e.IsLegible)
    (depth : Nat) : '\n' ∉ (line indent depth e).toList := by
  have hmargin : '\n' ∉ (String.join (List.replicate depth indent)).toList := by
    rw [String.toList_join, List.mem_flatMap]
    rintro ⟨l, hl, hmem⟩
    rw [List.eq_of_mem_replicate hl] at hmem
    exact hindent hmem
  rw [line, String.toList_append, List.mem_append, not_or]
  exact ⟨hmargin, newline_not_mem_label h⟩

theorem newline_not_mem_preorder {indent : String} (hindent : '\n' ∉ indent.toList) {e : Expr Float} (h : e.IsLegible)
    (depth : Nat) : ∀ l ∈ e.preorder indent depth, '\n' ∉ l.toList := by
  induction e generalizing depth with
  | symbol name => exact List.forall_mem_singleton.mpr (newline_not_mem_line hindent h depth)
  | number value => exact List.forall_mem_singleton.mpr (newline_not_mem_line hindent h depth)
  | binary op left right ihl ihr =>
    refine List.forall_mem_cons.mpr ⟨newline_not_mem_line hindent h depth, ?_⟩
    exact List.forall_mem_append.mpr ⟨ihl h.1 _, ihr h.2 _⟩

/-- Nodes of the same kind, with the same name, number or operator. -/
inductive SameNode : Expr Float → Expr Float → Prop
  | symbol (name : String) : SameNode (symbol name) (symbol name)
  | number (value : Float) : SameNode (number value) (number value)
  | binary (op : Operator) (left right left' right' : Expr Float) :
    SameNode (binary op left right) (binary op left' right')

theorem label_inj {a b : Expr Float} (ha : a.IsLegible) (hb : b.IsLegible) (h : a.label = b.label) : SameNode a b := by
  -- Only the lines of leaves have brackets, and those of names and numbers begin with different letters.
  have hbracket : ∀ {op : Operator} {text : String}, '(' ∈ text.toList → op.heading ≠ text := by
    rintro op _ hmem rfl
    cases op.isAlpha_heading _ hmem
  have hleaf : ∀ {name value : String}, "Symbol(" ++ name ++ ")" ≠ "Number(" ++ value ++ ")" := by
    intro name value heq
    simpa using congrArg (·.toList.head?) heq
  cases a with
  | symbol name =>
    cases b with
    | symbol name' =>
      obtain rfl : name = name' := by simpa [label] using h
      exact .symbol name
    | number value' => exact absurd h hleaf
    | binary op' left' right' => exact absurd h.symm (hbracket (by simp [label]))
  | number value =>
    cases b with
    | symbol name' => exact absurd h.symm hleaf
    | number value' =>
      obtain rfl : value = value' := Number.display_inj ha hb (by simpa [label] using h)
      exact .number value
    | binary op' left' right' => exact absurd h.symm (hbracket (by simp [label]))
  | binary op left right =>
    cases b with
    | symbol name' => exact absurd h (hbracket (by simp [label]))
    | number value' => exact absurd h (hbracket (by simp [label]))
    | binary op' left' right' =>
      obtain rfl := Operator.heading_inj h
      exact .binary op left right left' right'

theorem exists_preorder (indent : String) (depth : Nat) (e : Expr Float) :
    ∃ lines, e.preorder indent depth = line indent depth e :: lines := by
  cases e <;> exact ⟨_, rfl⟩

/-- The first line of an expression tells its node. -/
theorem sameNode_of_preorder {indent : String} {depth : Nat} {a b : Expr Float} (ha : a.IsLegible) (hb : b.IsLegible)
    {rest rest' : List String} (h : a.preorder indent depth ++ rest = b.preorder indent depth ++ rest') :
    SameNode a b := by
  obtain ⟨lines, ha'⟩ := a.exists_preorder indent depth
  obtain ⟨lines', hb'⟩ := b.exists_preorder indent depth
  rw [ha', hb'] at h
  exact label_inj ha hb ((String.append_right_inj _).mp (List.cons.inj h).1)

/-- The lines of an expression are read in one way only, whatever lines come after them. -/
theorem preorder_inj {indent : String} {depth : Nat} {a b : Expr Float} (ha : a.IsLegible) (hb : b.IsLegible)
    {rest rest' : List String} (h : a.preorder indent depth ++ rest = b.preorder indent depth ++ rest') :
    a = b ∧ rest = rest' := by
  induction a generalizing b depth rest rest' with
  | symbol name | number value =>
    cases sameNode_of_preorder ha hb h
    exact ⟨rfl, (List.cons.inj h).2⟩
  | binary op left right ihl ihr =>
    cases sameNode_of_preorder ha hb h with
    | binary _ _ _ left' right' =>
      simp only [preorder, List.cons_append, List.append_assoc] at h
      obtain ⟨rfl, hright⟩ := ihl ha.1 hb.1 (List.cons.inj h).2
      obtain ⟨rfl, hrest⟩ := ihr ha.2 hb.2 hright
      exact ⟨rfl, hrest⟩

/-- Lines without line feeds are told apart by the line feeds between them. -/
theorem preorder_of_outline {indent : String} (hindent : '\n' ∉ indent.toList) {e : Expr Float} (h : e.IsLegible) :
    (e.outline indent).toList.splitOn '\n' = (e.preorder indent 0).map String.toList := by
  rw [outline_eq, String.toList_intercalate]
  refine List.splitOn_intercalate '\n' ?_ ?_
  · exact List.forall_mem_map.mpr (newline_not_mem_preorder hindent h 0)
  · obtain ⟨lines, hlines⟩ := e.exists_preorder indent 0
    simp [hlines]

theorem outline_inj {indent : String} (hindent : '\n' ∉ indent.toList) {a b : Expr Float} (ha : a.IsLegible)
    (hb : b.IsLegible) (h : a.outline indent = b.outline indent) : a = b := by
  have hlines : (a.preorder indent 0).map String.toList = (b.preorder indent 0).map String.toList := by
    rw [← preorder_of_outline hindent ha, h, preorder_of_outline hindent hb]
  have hpreorder : a.preorder indent 0 = b.preorder indent 0 :=
    List.map_injective_iff.mpr (fun _ _ => String.toList_inj.mp) hlines
  exact (preorder_inj ha hb (congrArg (· ++ []) hpreorder)).1

/-- The outline of an expression has one line for each node, in pre-order, indented by the depth of the node. With the
    default indent the outline tells the expression, if names are letters and literals are numbers. -/
theorem outline_faithful :
    (∀ (e : Expr Float) (indent : String),
      e.outline indent = "\n".intercalate (e.preorder indent 0) ∧ (e.preorder indent 0).length = e.size) ∧
    ∀ a b : Expr Float, a.IsLegible → b.IsLegible → a.outline = b.outline → a = b := by
  refine ⟨fun e indent => ⟨outline_eq e indent, length_preorder indent 0 e⟩, fun a b ha hb h => ?_⟩
  exact outline_inj (by decide) ha hb h

/-- The outlines of both zeros differ. -/
theorem outline_faithful_zeros :
    let e (x : Float) : Expr Float :=
      .binary .pow (.symbol "x") (.binary .min (.number x) (.number (Double.infinity true)))
    (∀ x : Float, x.isNaN = false → (e x).IsLegible) ∧ (e 0).outline ≠ (e (-0)).outline := by
  intro e
  have hlegible : ∀ x : Float, x.isNaN = false → (e x).IsLegible := by
    intro x hx
    have hinfinity : (Double.infinity true).isNaN = false := by decide +kernel
    exact ⟨by simp [IsLegible], hx, hinfinity⟩
  refine ⟨hlegible, fun h => ?_⟩
  have hequal := outline_faithful.2 (e 0) (e (-0)) (hlegible 0 (by decide +kernel))
    (hlegible (-0) (by decide +kernel)) h
  exact absurd hequal (by decide +kernel)

end Expr

end StackCalc
