import Mathlib.Algebra.GroupWithZero.Nat
import Mathlib.Data.Int.Notation
import Mathlib.Tactic.Ring

/-! # 64-bit division

The helpers of `kernel/lib/div64.c`: division of unsigned numbers by shifting and subtracting, and the
signed functions over it. -/
namespace SifarOS.Div64

structure Division where
  quotient : UInt64
  remainder : UInt64

/-- The remainder with the next bit of the number behind it. -/
def shifted (num : UInt64) (bit : ℕ) (remainder : UInt64) : UInt64 :=
  (remainder <<< 1) ||| ((num >>> UInt64.ofNat bit) &&& 1)

def turn (num den : UInt64) (bit : ℕ) (d : Division) : Division :=
  let remainder := shifted num bit d.remainder
  if remainder ≥ den then ⟨d.quotient ||| (1 <<< UInt64.ofNat bit), remainder - den⟩ else ⟨d.quotient, remainder⟩

/-- The loop after so many turns, the first one for bit 63. -/
def turns (num den : UInt64) : ℕ → Division
  | 0 => ⟨0, 0⟩
  | n + 1 => turn num den (63 - n) (turns num den n)

/-- `__udivmoddi4`: the result and `*rem`. -/
def udivmoddi4 (num den : UInt64) : Division := if den = 0 then ⟨~~~0, 0⟩ else turns num den 64

def udivdi3 (num den : UInt64) : UInt64 := (udivmoddi4 num den).quotient

def umoddi3 (num den : UInt64) : UInt64 := (udivmoddi4 num den).remainder

def divdi3 (num den : Int64) : Int64 :=
  let negative : Bool := num < 0
  let num := if num < 0 then -num else num
  let negative := if den < 0 then !negative else negative
  let den := if den < 0 then -den else den
  let q := (udivmoddi4 num.toUInt64 den.toUInt64).quotient
  if negative then -q.toInt64 else q.toInt64

def moddi3 (num den : Int64) : Int64 :=
  let negative : Bool := num < 0
  let num := if num < 0 then -num else num
  let den := if den < 0 then -den else den
  let r := (udivmoddi4 num.toUInt64 den.toUInt64).remainder
  if negative then -r.toInt64 else r.toInt64

/-! ## The loop -/

/-- With so many bits to come, the bits before them are divided. -/
structure Divided (num den : UInt64) (bits : ℕ) (d : Division) : Prop where
  divides : ∃ q, d.quotient.toNat = q * 2 ^ bits ∧ num.toNat / 2 ^ bits = q * den.toNat + d.remainder.toNat
  remainder_lt : d.remainder.toNat < den.toNat

section Loop
variable {num den : UInt64} {bit : ℕ}

/-- The bit that is read next. -/
theorem nextBit (num : UInt64) (hbit : bit < 64) : ((num >>> UInt64.ofNat bit) &&& 1).toNat = num.toNat / 2 ^ bit % 2 := by
  have hmod : bit % 2 ^ 64 % 64 = bit := by omega
  rw [UInt64.toNat_and, UInt64.toNat_shiftRight, UInt64.toNat_ofNat', hmod, Nat.shiftRight_eq_div_pow, UInt64.toNat_one,
    Nat.and_one_is_mod]

theorem bits_succ (n bit : ℕ) : n / 2 ^ bit = 2 * (n / 2 ^ (bit + 1)) + n / 2 ^ bit % 2 := by
  have hdiv : n / 2 ^ (bit + 1) = n / 2 ^ bit / 2 := by rw [Nat.div_div_eq_div_mul, pow_succ]
  omega

variable {d : Division}

/-- The remainder is no greater than what has been read of the number: its highest bit is clear. -/
theorem Divided.remainder_small (h : Divided num den (bit + 1) d) : d.remainder.toNat < 9223372036854775808 := by
  obtain ⟨q, -, hnum⟩ := h.divides
  have hlt : num.toNat / 2 ^ (bit + 1) < 9223372036854775808 := by
    have hpow : 2 ^ 1 ≤ 2 ^ (bit + 1) := Nat.pow_le_pow_right (by omega) (by omega)
    have hdiv : num.toNat / 2 ^ (bit + 1) ≤ num.toNat / 2 ^ 1 := Nat.div_le_div_left hpow (by omega)
    have hword := num.toNat_lt
    omega
  omega

/-- Nothing is lost when the remainder is shifted. -/
theorem Divided.shift (h : Divided num den (bit + 1) d) : (d.remainder <<< 1).toNat = 2 * d.remainder.toNat := by
  have hsmall := h.remainder_small
  have hmod : 1 % 64 = 1 := rfl
  rw [UInt64.toNat_shiftLeft, UInt64.toNat_one, hmod, Nat.shiftLeft_eq]
  omega

theorem Divided.shifted (h : Divided num den (bit + 1) d) (hbit : bit < 64) :
    (shifted num bit d.remainder).toNat = 2 * d.remainder.toNat + num.toNat / 2 ^ bit % 2 := by
  have hshift : (d.remainder <<< 1).toNat = d.remainder.toNat <<< 1 := by
    rw [h.shift, Nat.shiftLeft_eq, Nat.mul_comm]
  have hlt : num.toNat / 2 ^ bit % 2 < 2 ^ 1 := by omega
  rw [Div64.shifted, UInt64.toNat_or, nextBit num hbit, hshift, ← Nat.shiftLeft_add_eq_or_of_lt hlt, Nat.shiftLeft_eq]
  omega

/-- One turn. -/
theorem Divided.turn (h : Divided num den (bit + 1) d) (hbit : bit < 64) : Divided num den bit (turn num den bit d) := by
  have hshifted := h.shifted hbit
  have hnext := bits_succ num.toNat bit
  obtain ⟨⟨q, hq, hnum⟩, hlt⟩ := h
  rw [Div64.turn]
  generalize Div64.shifted num bit d.remainder = remainder at hshifted
  split
  · next hge =>
    have hle : den.toNat ≤ remainder.toNat := UInt64.le_iff_toNat_le.mp hge
    have hsub : (remainder - den).toNat = remainder.toNat - den.toNat := UInt64.toNat_sub_of_le _ _ hge
    have hone : ((1 : UInt64) <<< UInt64.ofNat bit).toNat = 2 ^ bit := by
      have hmod : bit % 2 ^ 64 % 64 = bit := by omega
      have hpow : 2 ^ bit < 2 ^ 64 := Nat.pow_lt_pow_right (by omega) hbit
      rw [UInt64.toNat_shiftLeft, UInt64.toNat_ofNat', hmod, UInt64.toNat_one, Nat.one_shiftLeft, Nat.mod_eq_of_lt hpow]
    have hset : (d.quotient ||| (1 : UInt64) <<< UInt64.ofNat bit).toNat = (2 * q + 1) * 2 ^ bit := by
      have hlow : 2 ^ bit < 2 ^ (bit + 1) := Nat.pow_lt_pow_right (by omega) (by omega)
      rw [UInt64.toNat_or, hone, hq, ← Nat.shiftLeft_eq, ← Nat.shiftLeft_add_eq_or_of_lt hlow, Nat.shiftLeft_eq, pow_succ]
      ring
    refine ⟨⟨2 * q + 1, hset, ?_⟩, ?_⟩
    · rw [hnext, hnum, hsub, hshifted]
      have hsum : 2 * (q * den.toNat + d.remainder.toNat) = 2 * q * den.toNat + 2 * d.remainder.toNat := by ring
      rw [hsum, Nat.add_mul]
      omega
    · rw [hsub]
      omega
  · next hlt' =>
    have hless : remainder.toNat < den.toNat := Nat.lt_of_not_le fun hle => hlt' (UInt64.le_iff_toNat_le.mpr hle)
    refine ⟨⟨2 * q, ?_, ?_⟩, hless⟩
    · rw [hq, pow_succ]
      ring
    · rw [hnext, hnum, hshifted]
      ring

theorem turns_divided (hden : den ≠ 0) {n : ℕ} (hn : n ≤ 64) : Divided num den (64 - n) (turns num den n) := by
  induction n with
  | zero =>
    have hpos : 0 < den.toNat := Nat.pos_of_ne_zero fun hzero => hden (UInt64.toNat_inj.mp hzero)
    have hword : num.toNat / 2 ^ 64 = 0 := Nat.div_eq_of_lt num.toNat_lt
    exact ⟨⟨0, by simp [turns], by simpa [turns] using hword⟩, hpos⟩
  | succ n ih =>
    have hbits : 64 - n = 63 - n + 1 := by omega
    have hprev := ih (by omega)
    rw [hbits] at hprev
    have hnext := hprev.turn (by omega)
    rwa [show 64 - (n + 1) = 63 - n by omega]

theorem udivmoddi4_eq (num : UInt64) (hden : den ≠ 0) :
    (udivmoddi4 num den).quotient.toNat = num.toNat / den.toNat ∧
      (udivmoddi4 num den).remainder.toNat = num.toNat % den.toNat := by
  have hdivided : Divided num den (64 - 64) (turns num den 64) := turns_divided hden (Nat.le_refl 64)
  obtain ⟨⟨q, hq, hnum⟩, hlt⟩ := hdivided
  rw [Nat.sub_self, pow_zero, Nat.mul_one] at hq
  rw [Nat.sub_self, pow_zero, Nat.div_one] at hnum
  rw [udivmoddi4, if_neg hden, hq]
  rw [Nat.add_comm, Nat.mul_comm] at hnum
  obtain ⟨hquotient, hremainder⟩ := (Nat.div_mod_unique (Nat.zero_lt_of_lt hlt)).mpr ⟨hnum.symm, hlt⟩
  exact ⟨hquotient.symm, hremainder.symm⟩

end Loop

/-! ## Signed numbers -/

section Signed

theorem toInt64_cases (x : UInt64) :
    (x.toNat < 9223372036854775808 ∧ x.toInt64.toInt = x.toNat) ∨
      (9223372036854775808 ≤ x.toNat ∧ x.toInt64.toInt = x.toNat - 18446744073709551616) := by
  have hbits : x.toInt64.toInt = x.toBitVec.toInt := rfl
  have hnat : x.toBitVec.toNat = x.toNat := rfl
  rw [hbits, BitVec.toInt_eq_toNat_cond, hnat]
  split
  · exact .inl ⟨by omega, rfl⟩
  · exact .inr ⟨by omega, by omega⟩

theorem lt_zero_iff (x : Int64) : x < 0 ↔ x.toInt < 0 := Int64.lt_iff_toInt_lt

/-- The absolute value, also of the least number. -/
theorem magnitude (x : Int64) : (if x < 0 then -x else x).toUInt64.toNat = x.toInt.natAbs := by
  obtain ⟨word, rfl⟩ : ∃ word : UInt64, x = word.toInt64 := ⟨x.toUInt64, rfl⟩
  have hcases := toInt64_cases word
  have hword := word.toNat_lt
  have hsize : UInt64.size = 18446744073709551616 := rfl
  by_cases hneg : word.toInt64 < 0
  · have hlt := (lt_zero_iff _).mp hneg
    rw [if_pos hneg, Int64.toUInt64_neg, UInt64.toUInt64_toInt64, UInt64.toNat_neg, hsize]
    omega
  · have hge := mt (lt_zero_iff _).mpr hneg
    rw [if_neg hneg, UInt64.toUInt64_toInt64]
    omega

/-- A result with its sign. -/
theorem signed_toInt {x : UInt64} {negative : Bool}
    (h : x.toNat < 9223372036854775808 ∨ x.toNat = 9223372036854775808 ∧ negative = true) :
    (if negative then -x.toInt64 else x.toInt64).toInt = if negative then -(x.toNat : ℤ) else x.toNat := by
  have hcases := toInt64_cases x
  have hneg := toInt64_cases (-x)
  have hword := x.toNat_lt
  have hsize : UInt64.size = 18446744073709551616 := rfl
  rw [UInt64.toNat_neg, hsize] at hneg
  cases negative with
  | true =>
    have hminus : (-x.toInt64).toInt = (-x).toInt64.toInt := rfl
    simp only [if_true, hminus]
    omega
  | false =>
    simp only [Bool.false_eq_true, and_false, or_false, if_false] at h ⊢
    omega

theorem natAbs_cases (a : ℤ) : (a < 0 ∧ a = -(a.natAbs : ℤ)) ∨ (¬a < 0 ∧ a = a.natAbs) := by omega

theorem tdiv_natAbs (a b : ℤ) : a.tdiv b =
    if (if b < 0 then !decide (a < 0) else decide (a < 0)) then -((a.natAbs / b.natAbs : ℕ) : ℤ)
    else ((a.natAbs / b.natAbs : ℕ) : ℤ) := by
  rcases natAbs_cases a with ⟨ha, heqa⟩ | ⟨ha, heqa⟩ <;> rcases natAbs_cases b with ⟨hb, heqb⟩ | ⟨hb, heqb⟩
  all_goals
    simp only [ha, hb, if_true, if_false, decide_true, decide_false, Bool.not_true, Bool.not_false, Bool.false_eq_true]
    rw [heqa, heqb]
    simp only [Int.natAbs_neg, Int.natAbs_natCast, Int.neg_tdiv, Int.tdiv_neg, Int.neg_neg]
    rfl

theorem tmod_natAbs (a b : ℤ) : a.tmod b =
    if a < 0 then -((a.natAbs % b.natAbs : ℕ) : ℤ) else ((a.natAbs % b.natAbs : ℕ) : ℤ) := by
  rcases natAbs_cases a with ⟨ha, heqa⟩ | ⟨ha, heqa⟩ <;> rcases natAbs_cases b with ⟨hb, heqb⟩ | ⟨hb, heqb⟩
  all_goals
    simp only [ha, if_true, if_false]
    rw [heqa, heqb]
    simp only [Int.natAbs_neg, Int.natAbs_natCast, Int.neg_tmod, Int.tmod_neg]
    rfl

variable {num den : Int64}

theorem toUInt64_ne_zero (hden : den ≠ 0) : (if den < 0 then -den else den).toUInt64 ≠ 0 := by
  intro hzero
  have hmagnitude := magnitude den
  rw [hzero, UInt64.toNat_zero] at hmagnitude
  exact hden (Int64.toInt_inj.mp (Int.natAbs_eq_zero.mp hmagnitude.symm))

theorem natAbs_le (x : Int64) : x.toInt.natAbs ≤ 9223372036854775808 := by
  have hlow := Int64.le_toInt x
  have hhigh := Int64.toInt_lt x
  omega

/-- The quotient fits, unless the least number is divided by -1. -/
theorem quotient_fits (hden : den ≠ 0) (hfits : ¬(num = Int64.minValue ∧ den = -1)) :
    num.toInt.natAbs / den.toInt.natAbs < 9223372036854775808 ∨
      num.toInt.natAbs / den.toInt.natAbs = 9223372036854775808 ∧
        (if den < 0 then !decide (num < 0) else decide (num < 0)) = true := by
  have hnum := natAbs_le num
  have hmin : Int64.minValue.toInt = -9223372036854775808 := by decide
  have hminus : (-1 : Int64).toInt = -1 := by decide
  have hzero : (0 : Int64).toInt = 0 := by decide
  rw [← Int64.toInt_inj, ← Int64.toInt_inj, hmin, hminus] at hfits
  rw [Ne, ← Int64.toInt_inj, hzero] at hden
  have hhigh := Int64.toInt_lt num
  rcases Nat.lt_or_ge 1 den.toInt.natAbs with hgt | hle
  · have hhalf : num.toInt.natAbs / den.toInt.natAbs ≤ num.toInt.natAbs / 2 := Nat.div_le_div_left hgt (by omega)
    left
    omega
  · have hone : den.toInt.natAbs = 1 := by omega
    rw [hone, Nat.div_one]
    simp only [lt_zero_iff]
    by_cases hneg : den.toInt < 0
    · left
      omega
    · rw [if_neg hneg, decide_eq_true_eq]
      omega

theorem divdi3_eq (hden : den ≠ 0) (hfits : ¬(num = Int64.minValue ∧ den = -1)) :
    (divdi3 num den).toInt = num.toInt.tdiv den.toInt := by
  obtain ⟨hquotient, -⟩ := udivmoddi4_eq (if num < 0 then -num else num).toUInt64 (toUInt64_ne_zero hden)
  rw [magnitude, magnitude] at hquotient
  have hsigned := quotient_fits hden hfits
  rw [← hquotient] at hsigned
  rw [divdi3, signed_toInt hsigned, hquotient, tdiv_natAbs]
  simp only [lt_zero_iff]

theorem moddi3_eq (hden : den ≠ 0) : (moddi3 num den).toInt = num.toInt.tmod den.toInt := by
  obtain ⟨-, hremainder⟩ := udivmoddi4_eq (if num < 0 then -num else num).toUInt64 (toUInt64_ne_zero hden)
  rw [magnitude, magnitude] at hremainder
  have hlt : num.toInt.natAbs % den.toInt.natAbs < 9223372036854775808 := by
    have hden' := natAbs_le den
    have hpos : den.toInt.natAbs ≠ 0 := fun hzero => hden (Int64.toInt_inj.mp (Int.natAbs_eq_zero.mp hzero))
    exact Nat.lt_of_lt_of_le (Nat.mod_lt _ (Nat.pos_of_ne_zero hpos)) hden'
  rw [← hremainder] at hlt
  rw [moddi3, signed_toInt (.inl hlt), hremainder, tmod_natAbs]
  simp only [lt_zero_iff, decide_eq_true_eq]

end Signed

/-- The unsigned functions are the operations on words. -/
theorem unsigned_eq {num den : UInt64} (hden : den ≠ 0) : udivdi3 num den = num / den ∧ umoddi3 num den = num % den := by
  obtain ⟨hquotient, hremainder⟩ := udivmoddi4_eq num hden
  rw [← UInt64.toNat_inj, ← UInt64.toNat_inj, UInt64.toNat_div, UInt64.toNat_mod]
  exact ⟨hquotient, hremainder⟩

/-- Unsigned division leaves quotient and remainder, and no bit of the remainder is lost in the loop. Signed
division rounds toward zero, and the remainder has the sign of the number. -/
theorem division_correct :
    (∀ num den : UInt64, den ≠ 0 →
      num.toNat = (udivmoddi4 num den).quotient.toNat * den.toNat + (udivmoddi4 num den).remainder.toNat ∧
        (udivmoddi4 num den).remainder < den ∧
        ∀ n < 64, ((turns num den n).remainder <<< 1).toNat = 2 * (turns num den n).remainder.toNat) ∧
      ∀ num den : Int64, den ≠ 0 → ¬(num = Int64.minValue ∧ den = -1) →
        (divdi3 num den).toInt = num.toInt.tdiv den.toInt ∧ (moddi3 num den).toInt = num.toInt.tmod den.toInt := by
  refine ⟨fun num den hden => ?_, fun num den hden hfits => ⟨divdi3_eq hden hfits, moddi3_eq hden⟩⟩
  obtain ⟨hquotient, hremainder⟩ := udivmoddi4_eq num hden
  have hpos : 0 < den.toNat := Nat.pos_of_ne_zero fun hzero => hden (UInt64.toNat_inj.mp hzero)
  refine ⟨?_, ?_, fun n hn => ?_⟩
  · rw [hquotient, hremainder]
    exact (Nat.div_add_mod' _ _).symm
  · rw [UInt64.lt_iff_toNat_lt, hremainder]
    exact Nat.mod_lt _ hpos
  · have hdivided : Divided num den (64 - n) (turns num den n) := turns_divided hden (Nat.le_of_lt hn)
    rw [show 64 - n = 63 - n + 1 by omega] at hdivided
    exact hdivided.shift

/-- The least number by 3, and a divisor above `2 ^ 63`. -/
theorem division_correct_least :
    (18446744073709551615 : UInt64).toNat = (udivmoddi4 18446744073709551615 9223372036854775809).quotient.toNat *
        (9223372036854775809 : UInt64).toNat + (udivmoddi4 18446744073709551615 9223372036854775809).remainder.toNat ∧
      (divdi3 Int64.minValue 3).toInt = -3074457345618258602 ∧ (moddi3 Int64.minValue 3).toInt = -2 := by
  obtain ⟨hunsigned, hsigned⟩ := division_correct
  obtain ⟨hdiv, hmod⟩ := hsigned Int64.minValue 3 (by decide) (by decide)
  exact ⟨(hunsigned _ _ (by decide)).1, hdiv, hmod⟩

end SifarOS.Div64
