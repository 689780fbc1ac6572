/-!
Taking operands off a stack. Stacks are lists with the top first; operands come in the order in which they were
pushed.
-/

namespace StackCalc

/-- The top `n` entries in the order in which they were pushed, and the stack below them. -/
def pop? {β : Type} (n : Nat) (stack : List β) : Option (List β × List β) :=
  if n ≤ stack.length then some ((stack.take n).reverse, stack.drop n) else none

theorem pop?_reverse_append {β : Type} (entries rest : List β) :
    pop? entries.length (entries.reverse ++ rest) = some (entries, rest) := by
  have h : entries.length = entries.reverse.length := by simp
  simp [pop?, h, -List.length_reverse]

theorem pop?_eq_none_iff {β : Type} {n : Nat} {stack : List β} : pop? n stack = none ↔ stack.length < n := by
  simp [pop?]

theorem pop?_eq_some_iff {β : Type} {n : Nat} {stack entries rest : List β} :
    pop? n stack = some (entries, rest) ↔ stack = entries.reverse ++ rest ∧ entries.length = n := by
  constructor
  · intro h
    rw [pop?] at h
    split at h
    next hle =>
      simp only [Option.some.injEq, Prod.mk.injEq] at h
      obtain ⟨rfl, rfl⟩ := h
      simp [hle]
    next => cases h
  · rintro ⟨rfl, rfl⟩
    exact pop?_reverse_append entries rest

end StackCalc
