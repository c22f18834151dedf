import Mathlib.Algebra.GroupWithZero.Nat
import Mathlib.Data.Int.Notation
import Mathlib.Data.Nat.Notation

/-! # 32-bit machine integers

Sums and differences of `Int32` as integers: either the exact value, or the exact value moved by
`2 ^ 32` once. The bounds let a chain of sums of small values be read as sums of integers. -/
namespace SifarOS.MachineInt

/-- The kernel's tables have 32 entries. Named here once, the instance is the same term in every definition that
counts through one of them. -/
instance instNeZero32 : NeZero 32 := ⟨by decide⟩

theorem range (x : Int32) : -2147483648 ≤ x.toInt ∧ x.toInt < 2147483648 :=
  ⟨Int32.le_toInt x, Int32.toInt_lt x⟩

private theorem bmod_cases (n : ℤ) (h₁ : -4294967296 ≤ n) (h₂ : n < 4294967296) :
    (-2147483648 ≤ n ∧ n < 2147483648 ∧ n.bmod (2 ^ 32) = n) ∨
    (2147483648 ≤ n ∧ n.bmod (2 ^ 32) = n - 4294967296) ∨
    (n < -2147483648 ∧ n.bmod (2 ^ 32) = n + 4294967296) := by
  rw [Int.bmod_def]
  split <;> omega

theorem add_cases (a b : Int32) :
    (-2147483648 ≤ a.toInt + b.toInt ∧ a.toInt + b.toInt < 2147483648 ∧ (a + b).toInt = a.toInt + b.toInt) ∨
    (2147483648 ≤ a.toInt + b.toInt ∧ (a + b).toInt = a.toInt + b.toInt - 4294967296) ∨
    (a.toInt + b.toInt < -2147483648 ∧ (a + b).toInt = a.toInt + b.toInt + 4294967296) := by
  have ha := range a
  have hb := range b
  rw [Int32.toInt_add]
  exact bmod_cases _ (by omega) (by omega)

theorem sub_cases (a b : Int32) :
    (-2147483648 ≤ a.toInt - b.toInt ∧ a.toInt - b.toInt < 2147483648 ∧ (a - b).toInt = a.toInt - b.toInt) ∨
    (2147483648 ≤ a.toInt - b.toInt ∧ (a - b).toInt = a.toInt - b.toInt - 4294967296) ∨
    (a.toInt - b.toInt < -2147483648 ∧ (a - b).toInt = a.toInt - b.toInt + 4294967296) := by
  have ha := range a
  have hb := range b
  rw [Int32.toInt_sub]
  exact bmod_cases _ (by omega) (by omega)

/-- A sum that does not overflow. -/
theorem add_exact {a b : Int32} (hlow : -2147483648 ≤ a.toInt + b.toInt) (hhigh : a.toInt + b.toInt < 2147483648) :
    (a + b).toInt = a.toInt + b.toInt := by
  have h := add_cases a b
  omega

theorem sub_exact {a b : Int32} (hlow : -2147483648 ≤ a.toInt - b.toInt) (hhigh : a.toInt - b.toInt < 2147483648) :
    (a - b).toInt = a.toInt - b.toInt := by
  have h := sub_cases a b
  omega

/-- At most `b` away from zero. -/
structure Within (b : ℤ) (x : Int32) : Prop where
  low : -b ≤ x.toInt
  high : x.toInt ≤ b

namespace Within
variable {x y : Int32} {b c : ℤ}

theorem add (hx : Within b x) (hy : Within c y) : Within (b + c) (x + y) := by
  have h := add_cases x y
  have hr := range (x + y)
  obtain ⟨hx₁, hx₂⟩ := hx
  obtain ⟨hy₁, hy₂⟩ := hy
  exact ⟨by omega, by omega⟩

theorem sub (hx : Within b x) (hy : Within c y) : Within (b + c) (x - y) := by
  have h := sub_cases x y
  have hr := range (x - y)
  obtain ⟨hx₁, hx₂⟩ := hx
  obtain ⟨hy₁, hy₂⟩ := hy
  exact ⟨by omega, by omega⟩

theorem toInt_add (hx : Within b x) (hy : Within c y) (h : b + c < 2147483648) :
    (x + y).toInt = x.toInt + y.toInt := by
  have hs := add_cases x y
  obtain ⟨hx₁, hx₂⟩ := hx
  obtain ⟨hy₁, hy₂⟩ := hy
  omega

theorem toInt_sub (hx : Within b x) (hy : Within c y) (h : b + c < 2147483648) :
    (x - y).toInt = x.toInt - y.toInt := by
  have hs := sub_cases x y
  obtain ⟨hx₁, hx₂⟩ := hx
  obtain ⟨hy₁, hy₂⟩ := hy
  omega

theorem mono (hx : Within b x) (hbc : b ≤ c) : Within c x := by
  obtain ⟨hx₁, hx₂⟩ := hx
  exact ⟨by omega, by omega⟩

end Within

theorem toInt_ofNat_small {n : ℕ} (h : n < 2147483648) : (Int32.ofNat n).toInt = n :=
  Int32.toInt_ofNat_of_lt h

/-- An unsigned word below `2 ^ 31` keeps its value as an `int`. -/
theorem toInt32_le {x : UInt32} {n : ℕ} (h : x.toNat ≤ n) (hn : n < 2147483648) : x.toInt32.toInt ≤ n := by
  have hx : x.toInt32 = Int32.ofNat x.toNat := by
    rw [← UInt32.toInt32_ofNat', UInt32.ofNat_toNat]
  rw [hx, toInt_ofNat_small (by omega)]
  omega

/-- A word as an `int`: its own value, or that value moved by `2 ^ 32`. -/
theorem toInt32_cases (x : UInt32) :
    (x.toNat < 2147483648 ∧ x.toInt32.toInt = x.toNat) ∨
      (2147483648 ≤ x.toNat ∧ x.toInt32.toInt = x.toNat - 4294967296) := by
  have hbits : x.toInt32.toInt = x.toBitVec.toInt := rfl
  have hnat : x.toBitVec.toNat = x.toNat := rfl
  rw [hbits, BitVec.toInt_eq_toNat_cond, hnat]
  split
  · exact .inl ⟨by omega, rfl⟩
  · exact .inr ⟨by omega, by omega⟩

theorem low_half_le (x : UInt32) : (x &&& 0xFFFF).toInt32 ≤ 65535 := by
  rw [Int32.le_iff_toInt_le]
  refine toInt32_le (n := 65535) ?_ (by omega)
  rw [UInt32.toNat_and]
  exact Nat.and_le_right

theorem high_half_le (x : UInt32) : (x >>> 16).toInt32 ≤ 65535 := by
  rw [Int32.le_iff_toInt_le]
  refine toInt32_le (n := 65535) ?_ (by omega)
  have hx := x.toNat_lt
  rw [UInt32.toNat_shiftRight, Nat.shiftRight_eq_div_pow]
  have hshift : 2 ^ ((16 : UInt32).toNat % 32) = 65536 := rfl
  rw [hshift]
  omega

end SifarOS.MachineInt
