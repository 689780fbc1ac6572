import StackCalc.Token

/-!
Streams of tokens as lists. A stream is its tokens before an end or a fault.
-/

namespace StackCalc

namespace Tokens

/-- The tokens before the end or the fault, and the fault. -/
def outcome : Tokens → List Token × Option ScanError
  | cons t _ rest => (t :: rest.outcome.1, rest.outcome.2)
  | fault error _ => ([], some error)
  | done _ => ([], none)

/-- Tokens, each with the number of characters read to tell it, before a stream. -/
def after (entries : List (Token × Nat)) (rest : Tokens) : Tokens :=
  entries.foldr (fun entry stream => .cons entry.1 entry.2 stream) rest

theorem prepend_eq_after (w : List Token) (read : Nat) (rest : Tokens) :
    prepend w read rest = after (w.map (·, read)) rest := by
  rw [prepend, after, List.foldr_map]

theorem outcome_after (entries : List (Token × Nat)) (rest : Tokens) :
    (after entries rest).outcome = (entries.map Prod.fst ++ rest.outcome.1, rest.outcome.2) := by
  induction entries with
  | nil => rfl
  | cons entry entries ih =>
    rw [after] at ih
    rw [after, List.foldr_cons, outcome, ih]
    rfl

theorem after_append (entries entries' : List (Token × Nat)) (rest : Tokens) :
    after (entries ++ entries') rest = after entries (after entries' rest) :=
  List.foldr_append

theorem toList_after (entries : List (Token × Nat)) (rest : Tokens) :
    (after entries rest).toList = rest.toList.map (entries.map Prod.fst ++ ·) := by
  induction entries with
  | nil => cases h : rest.toList <;> simp [after, Except.map, h]
  | cons entry entries ih =>
    rw [after] at ih
    rw [after, List.foldr_cons, toList, ih]
    cases rest.toList <;> rfl

/-- A stream has all its tokens if it is those tokens before its end. -/
theorem toList_eq_ok_iff {tokens : Tokens} {w : List Token} :
    tokens.toList = .ok w ↔ ∃ entries read, tokens = after entries (.done read) ∧ entries.map Prod.fst = w := by
  constructor
  · intro h
    induction tokens generalizing w with
    | cons t read rest ih =>
      rw [toList] at h
      cases hrest : rest.toList with
      | error error =>
        rw [hrest] at h
        cases h
      | ok v =>
        rw [hrest] at h
        obtain ⟨entries, last, rfl, rfl⟩ := ih hrest
        cases h
        exact ⟨(t, read) :: entries, last, rfl, rfl⟩
    | fault error read => cases h
    | done read =>
      cases h
      exact ⟨[], read, rfl, rfl⟩
  · rintro ⟨entries, read, rfl, rfl⟩
    rw [toList_after, toList, Except.map, List.append_nil]

theorem toList_prepend (w : List Token) (read : Nat) (rest : Tokens) :
    (prepend w read rest).toList = rest.toList.map (w ++ ·) := by
  rw [prepend_eq_after, toList_after, List.map_map]
  exact congrArg (fun v => rest.toList.map (v ++ ·)) (List.map_id w)

end Tokens

theorem Token.map_lexeme (w : List Lexeme) (line : Nat) : (w.map fun a => (⟨a, line⟩ : Token)).map lexeme = w := by
  rw [List.map_map]
  exact List.map_id w

end StackCalc
