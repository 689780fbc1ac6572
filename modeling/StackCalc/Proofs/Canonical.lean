import StackCalc.Proofs.Execution
import StackCalc.Proofs.Nearest
import StackCalc.Proofs.Reloading

/-!
Literals are canonical. The number that a literal reads as lies at least as near to the literal as the number that was
written, since both are doubles and reading picks the nearest one. So it rounds to the same ten places, half-way cases
included, and is written as the same literal. A program that was loaded is therefore written as a text that loads and is
written again as it is.
-/

namespace StackCalc

/-! ### Rounding the nearest double again -/

namespace Literal

variable {x : Float} {negative : Bool} {mantissa scale : Nat}

theorem coefficient_rounded (negative : Bool) (mantissa scale : Nat) :
    (rounded negative mantissa scale).coefficient =
      roundHalfEven (mantissa * 2 ^ scale * 10 ^ places) Double.unitsPerOne := by
  simp only [rounded, Nat.pow_eq]

/-- Rounding to ten places does not leave the range of doubles, as the largest of them is a whole number. -/
theorem nearestBits_rounded_lt (h : Double.Fits mantissa scale) (negative : Bool) :
    Double.nearestBits (rounded negative mantissa scale).coefficient (10 ^ places) < Double.infinityBits := by
  obtain ⟨top, topScale, htop, ⟨whole, hwhole⟩, hlargest⟩ := Double.exists_largest
  have hunits : top * 2 ^ topScale * 10 ^ places = whole * 10 ^ places * Double.unitsPerOne := by
    rw [hwhole, Nat.mul_comm _ whole, Nat.mul_right_comm]
  have hcoefficient : (rounded negative mantissa scale).coefficient ≤ whole * 10 ^ places := by
    rw [coefficient_rounded]
    exact roundHalfEven_le Double.unitsPerOne_pos ((Nat.mul_le_mul_right _ (hlargest h)).trans_eq hunits)
  have hle : Double.nearestBits (rounded negative mantissa scale).coefficient (10 ^ places) ≤
      topScale * 2 ^ 52 + top :=
    Double.nearestBits_le htop (by positivity) ((Nat.mul_le_mul_right _ hcoefficient).trans_eq hunits.symm)
  obtain ⟨hlt, -, hscale⟩ := htop
  refine hle.trans_lt ?_
  simp only [Double.infinityBits, Nat.pow_eq]
  omega

/-- The number that a literal reads as is finite, has the same sign and is rounded to the same ten places. -/
theorem ofFloat_reread (hx : Double.ofFloat x = .finite negative mantissa scale) :
    ∃ mantissa' scale', Double.ofFloat (reread x) = .finite negative mantissa' scale' ∧
      rounded negative mantissa' scale' = rounded negative mantissa scale := by
  obtain ⟨hfits, -⟩ := Double.ofFloat_eq_finite hx
  obtain ⟨mantissa', scale', hfits', hbits, hnearest⟩ :=
    Double.exists_fits_nearestBits (by positivity) (nearestBits_rounded_lt hfits negative)
  have hreread : reread x = Double.ofMagnitudeBits negative (scale' * 2 ^ 52 + mantissa') := by
    simp only [reread, hx]
    rw [Decimal.toFloat_eq_nearest rfl, Double.nearest, Nat.pow_eq, hbits]
    rfl
  refine ⟨mantissa', scale', hreread ▸ hfits'.ofFloat_eq negative, ?_⟩
  have hcoefficient :
      (rounded negative mantissa' scale').coefficient = (rounded negative mantissa scale).coefficient := by
    have hdist := (hnearest hfits).1
    rw [coefficient_rounded, Nat.dist_comm, Nat.dist_comm (mantissa * _ * _)] at hdist
    rw [coefficient_rounded, coefficient_rounded]
    exact roundHalfEven_of_dist_le Double.unitsPerOne_pos hdist
  rw [rounded_eq, hcoefficient, ← rounded_eq]

theorem isFinite_iff :
    isFinite x = true ↔ ∃ negative mantissa scale, Double.ofFloat x = .finite negative mantissa scale := by
  unfold isFinite
  cases Double.ofFloat x <;> simp

theorem isFinite_reread (h : isFinite x = true) : isFinite (reread x) = true := by
  obtain ⟨negative, mantissa, scale, hx⟩ := isFinite_iff.mp h
  obtain ⟨mantissa', scale', hreread, -⟩ := ofFloat_reread hx
  exact isFinite_iff.mpr ⟨negative, mantissa', scale', hreread⟩

theorem text_reread (h : isFinite x = true) : text (reread x) = text x := by
  obtain ⟨negative, mantissa, scale, hx⟩ := isFinite_iff.mp h
  obtain ⟨mantissa', scale', hreread, hrounded⟩ := ofFloat_reread hx
  rw [← String.toList_inj, toList_text hreread, toList_text hx, hrounded]

/-- The canonical text of a decimal: a minus sign if it is negative, digits, and after a point at most ten digits of
    which the last is not zero. -/
def IsCanonical (d : Decimal) (text : List Char) : Prop :=
  ∃ whole fraction magnitude : List Char, IsNumeral whole fraction magnitude ∧ fraction.length ≤ places ∧
    fraction.getLast? ≠ some '0' ∧ (Decimal.ofDigits d.negative whole fraction).magnitude = d.magnitude ∧
    text = (if d.negative then ['-'] else []) ++ magnitude

theorem isCanonical_text (hx : Double.ofFloat x = .finite negative mantissa scale) :
    IsCanonical (rounded negative mantissa scale) (text x).toList := by
  obtain ⟨whole, fraction, hwhole, hfraction, htext, hlength, hlast, hvalue⟩ :=
    exists_magnitudeText (rounded negative mantissa scale).coefficient
  refine ⟨whole, fraction, _, ⟨hwhole, hfraction, htext⟩, hlength, hlast, ?_, toList_text hx⟩
  have hexponent : -(fraction.length : Int) = ((places - fraction.length : Nat) : Int) + -(places : Int) := by omega
  rw [rounded_eq, ← hvalue, Decimal.magnitude, Decimal.magnitude, Decimal.ofDigits]
  simp only
  rw [hexponent, zpow_add₀ (by norm_num), zpow_natCast]
  push_cast [Nat.pow_eq]
  ring

end Literal

/-! ### Programs that were loaded -/

namespace Instr

theorem isName_of_readName? {field : List Char} {name : String} (h : readName? field = some name) : IsName name := by
  unfold readName? at h
  split at h
  next hfield =>
    obtain rfl := Option.some.inj h
    simpa [IsName] using hfield
  next => cases h

/-- A number of operands that is read is two at least and has not too many digits. -/
theorem bounds_of_readExtra {field : List Char} {extra : Nat} (h : readExtra field = .ok (some extra)) :
    1 ≤ extra ∧ extra + 1 < 10 ^ Number.mostDigits := by
  unfold readExtra Number.readRow at h
  split at h
  next hrow =>
    split at h
    next hlength =>
      have hlt : natOfDigits field < 10 ^ Number.mostDigits :=
        (natOfDigits_lt (isDigitRow_iff.mp hrow).2).trans_le (Nat.pow_le_pow_right (by decide) hlength)
      rcases hvalue : natOfDigits field with _ | _ | n <;> rw [hvalue] at h hlt <;> cases h
      exact ⟨Nat.succ_le_succ (Nat.zero_le n), hlt⟩
    next => cases h
  next => cases h

theorem map_eq_ok_some {ε β γ : Type} {x : Except ε (Option β)} {f : β → γ} {c : γ}
    (h : x.map (Option.map f) = .ok (some c)) : ∃ b, x = .ok (some b) ∧ f b = c := by
  rcases x with e | (_ | b)
  · cases h
  · cases h
  · exact ⟨b, rfl, Option.some.inj (Except.ok.inj h)⟩

theorem bounds_of_readOperation {keyword : String} {arguments : List (List Char)} {o : Operation}
    (h : readOperation keyword arguments = .ok (some o)) : 1 ≤ o.extra ∧ o.arity < 10 ^ Number.mostDigits := by
  unfold readOperation at h
  split at h
  next => cases h
  next op hop =>
    split at h
    next =>
      split at h
      · cases h
      · cases h
        exact ⟨Nat.le_refl 1, Number.two_lt_pow_mostDigits⟩
    next =>
      split at h
      next hvariadic =>
        obtain ⟨extra, hextra, rfl⟩ := map_eq_ok_some h
        rw [Operation.arity, Operation.extra_withExtra hvariadic]
        exact bounds_of_readExtra hextra
      next => cases h
    next => cases h

/-- What a line reads as has letters for a name and two operands at least, whose number can be written. -/
theorem isWellFormed_of_parse {line : List Char} {i : Instr Float} (h : parse line = .ok (some i)) :
    i.IsWellFormed ∧ i.IsBounded := by
  unfold parse ofFields at h
  split at h
  · cases h
  · split at h
    · obtain ⟨name, hname, rfl⟩ := Option.map_eq_some_iff.mp (Except.ok.inj h)
      exact ⟨isName_of_readName? hname, trivial⟩
    · obtain ⟨name, hname, rfl⟩ := Option.map_eq_some_iff.mp (Except.ok.inj h)
      exact ⟨isName_of_readName? hname, trivial⟩
    · obtain ⟨value, -, rfl⟩ := Option.map_eq_some_iff.mp (Except.ok.inj h)
      exact ⟨trivial, trivial⟩
    · cases h
      exact ⟨trivial, trivial⟩
    · obtain ⟨o, ho, rfl⟩ := map_eq_ok_some h
      exact bounds_of_readOperation ho

theorem text_reread {i : Instr Float} (h : i.IsWritable) : i.reread.text = i.text := by
  cases i with
  | push value => rw [reread, text, text, Literal.text_reread h]
  | _ => rfl

end Instr

namespace Loaded

theorem isWellFormed_entry {line : Nat} {text : List Char} {read : Nat} {rest : Loaded Float}
    (hrest : ∀ i ∈ rest.instrs, i.IsWellFormed ∧ i.IsBounded) :
    ∀ i ∈ (entry line text read rest).instrs, i.IsWellFormed ∧ i.IsBounded := by
  unfold entry
  split
  · exact hrest
  · split
    next i hi => exact List.forall_mem_cons.mpr ⟨Instr.isWellFormed_of_parse hi, hrest⟩
    next => simp [instrs]
    next => simp [instrs]

theorem isWellFormed_loadFrom (line : Nat) (latest : List Char) (read : Nat) (text : List Char) :
    ∀ i ∈ (loadFrom line latest read text).instrs, i.IsWellFormed ∧ i.IsBounded := by
  induction text generalizing line latest read with
  | nil =>
    rw [loadFrom]
    split
    · simp [instrs]
    · exact isWellFormed_entry (by simp [instrs])
  | cons c text ih =>
    rw [loadFrom]
    split
    · exact isWellFormed_entry (ih _ _ _)
    · exact ih _ _ _

theorem instrs_of_toProgram {α : Type} {l : Loaded α} {p : Program α} (h : l.toProgram = .ok p) : l.instrs = p := by
  induction l generalizing p with
  | cons i read rest ih =>
    obtain ⟨q, hq, rfl⟩ := toProgram_cons h
    rw [instrs, ih hq]
  | fault error read => cases h
  | done read => exact Except.ok.inj h

end Loaded

namespace Program

variable {p : Program Float}

theorem text_reread (h : p.IsWritable) : p.reread.text = p.text := by
  induction p with
  | nil => rfl
  | cons i p ih =>
    obtain ⟨hi, hp⟩ := List.forall_mem_cons.mp h
    have hrest : Program.text (p.map Instr.reread) = Program.text p := ih hp
    rw [reread, List.map_cons, text_cons, text_cons, Instr.text_reread hi, hrest]

/-- The literal of a finite number is canonical, and it reads as a finite number with the same literal. So the text of a
    program that was loaded with finite literals exists and loads again, and the program that it loads as has the same
    text. -/
theorem canonical_text :
    (∀ {x : Float} {negative : Bool} {mantissa scale : Nat}, Double.ofFloat x = .finite negative mantissa scale →
      Literal.IsCanonical (Literal.rounded negative mantissa scale) (Literal.text x).toList ∧
      ∃ y, Literal.read? (Literal.text x).toList = some y ∧ Literal.isFinite y = true ∧
        Literal.text y = Literal.text x) ∧
    ∀ {source : List Char} {p : Program Float}, (Loaded.load source).toProgram = .ok p →
      (∀ x ∈ p.literals, Literal.isFinite x = true) →
      ∃ text q, p.text = .ok text ∧ (Loaded.load text.toList).toProgram = .ok q ∧ q.text = .ok text := by
  constructor
  · intro x negative mantissa scale hx
    have hfinite : Literal.isFinite x = true := Literal.isFinite_iff.mpr ⟨negative, mantissa, scale, hx⟩
    exact ⟨Literal.isCanonical_text hx, Literal.reread x, Literal.read?_text hfinite, Literal.isFinite_reread hfinite,
      Literal.text_reread hfinite⟩
  · intro source p hload hliterals
    have hformed : ∀ i ∈ p, i.IsWellFormed ∧ i.IsBounded :=
      Loaded.instrs_of_toProgram hload ▸ Loaded.isWellFormed_loadFrom 1 [] 0 source
    have hwritable := isWritable_of_isFinite (fun i hi => (hformed i hi).1) hliterals
    obtain ⟨text, htext⟩ := exists_text fun i hi => (hformed i hi).2
    exact ⟨text, p.reread, htext, toProgram_load_text hwritable htext, (text_reread hwritable).trans htext⟩

/-- A small negative number is written as a zero that keeps its sign, and a program with it is written as a text that
    stays. -/
theorem canonical_text_negative_zero :
    let x := Double.nearest true 1 (Nat.pow 10 11)
    let p : Program Float := [.push x, .push (Double.nearest false 1 3), .apply (.binary .add)]
    (∃ y, Literal.read? "-0".toList = some y ∧ Literal.isFinite y = true ∧ Literal.text y = "-0") ∧
      ∃ q, p.text = .ok "push -0\npush 0.3333333333\nadd 2\n" ∧
        (Loaded.load "push -0\npush 0.3333333333\nadd 2\n".toList).toProgram = .ok q ∧
        q.text = .ok "push -0\npush 0.3333333333\nadd 2\n" := by
  intro x p
  obtain ⟨hliteral, hprogram⟩ := canonical_text
  have hx : Literal.text x = "-0" := by decide +kernel
  have hfinite : Literal.isFinite x = true := by decide +kernel
  obtain ⟨negative, mantissa, scale, hparts⟩ := Literal.isFinite_iff.mp hfinite
  obtain ⟨-, y, hy⟩ := hliteral hparts
  rw [hx] at hy
  have hload : (Loaded.load "push -0.00000000001\n\npush 0.33333333333333331\nadd 2".toList).toProgram = .ok p :=
    eq_ok_of_toOption (by decide +kernel)
  have htext : p.text = .ok "push -0\npush 0.3333333333\nadd 2\n" := eq_ok_of_toOption (by decide +kernel)
  obtain ⟨text, q, hp, hq, hagain⟩ := hprogram hload (by decide +kernel)
  obtain rfl := Except.ok.inj (hp.symm.trans htext)
  exact ⟨⟨y, hy⟩, q, htext, hq, hagain⟩

end Program

end StackCalc
