import Mathlib.Data.Int.Notation
import Mathlib.Tactic.Linarith
import Mathlib.Tactic.Ring

/-! # The error term of a digital line

A line that goes `long` steps along one axis and `short ≤ long` along the other, with so many steps left on each.
The error term decides whether a step along the long axis goes along the short one too. -/
namespace SifarOS

/-- The error term with `p` steps left along the long axis and `q` along the short one. -/
structure ErrorTerm (long short p q e : ℤ) : Prop where
  eq : e = long - short + p * short - q * long
  low : -short < 2 * e
  high : 2 * e < 3 * long - 2 * short

namespace ErrorTerm
variable {long short p q e : ℤ}

theorem start (hle : short ≤ long) (hlong : 0 < long) :
    ErrorTerm long short long short (long - short) :=
  ⟨by ring, by omega, by omega⟩

/-- A step along the long axis alone. -/
theorem straight (h : ErrorTerm long short p q e) (hshort : 0 ≤ short) (hle : short ≤ long) (he : ¬2 * e < long) :
    ErrorTerm long short (p - 1) q (e - short) := by
  obtain ⟨heq, hlow, hhigh⟩ := h
  exact ⟨by rw [heq]; ring, by omega, by omega⟩

/-- A step along both axes. -/
theorem diagonal (h : ErrorTerm long short p q e) (hle : short ≤ long) (he : 2 * e < long) :
    ErrorTerm long short (p - 1) (q - 1) (e - short + long) := by
  obtain ⟨heq, hlow, hhigh⟩ := h
  exact ⟨by rw [heq]; ring, by omega, by omega⟩

/-- The short axis is not passed. -/
theorem short_nonneg (h : ErrorTerm long short p q e) (hshort : 0 ≤ short) (hlong : 0 < long) (hp : 0 ≤ p) : 0 ≤ q := by
  obtain ⟨heq, hlow, hhigh⟩ := h
  by_contra hneg
  have hq : long ≤ -q * long := le_mul_of_one_le_left (by omega) (by omega)
  have hp' : 0 ≤ p * short := Int.mul_nonneg hp hshort
  have hneg' : -q * long = -(q * long) := by ring
  omega

/-- Both axes come to their ends together. -/
theorem finish (h : ErrorTerm long short 0 q e) (hshort : 0 ≤ short) (hlong : 0 < long) : q = 0 := by
  have hq := h.short_nonneg hshort hlong (Int.le_refl 0)
  obtain ⟨heq, hlow, hhigh⟩ := h
  by_contra hne
  have hlong' : long ≤ q * long := le_mul_of_one_le_left (by omega) (by omega)
  omega

end ErrorTerm

end SifarOS
