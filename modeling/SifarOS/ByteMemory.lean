import Mathlib.Algebra.Group.Nat.Defs
import Mathlib.Data.Nat.Notation

/-! # Memory as bytes

A memory is a function from addresses to bytes. Words of 32 bits are stored low byte first. What
a write leaves alone is said with `SameOn`, so that a reader of some range can be carried over
every write outside it. Words are natural numbers below `2 ^ 32`. -/
namespace SifarOS.ByteMemory

/-- Arithmetic of 32-bit words. -/
def u32 (n : ℕ) : ℕ := n % 4294967296

def sub32 (x y : ℕ) : ℕ := (x + 4294967296 - y) % 4294967296

/-- Rounding up to a multiple of a power of two. -/
def alignUp (x a : ℕ) : ℕ := u32 (x + (a - 1)) / a * a

theorem u32_of_lt {n : ℕ} (h : n < 4294967296) : u32 n = n := Nat.mod_eq_of_lt h

abbrev Memory := ℕ → UInt8

/-- The little-endian word at `a`. -/
def load32 (m : Memory) (a : ℕ) : ℕ :=
  (m a).toNat + 256 * (m (a + 1)).toNat + 65536 * (m (a + 2)).toNat + 16777216 * (m (a + 3)).toNat

/-- Store the low 32 bits of `v` at `a`. -/
def store32 (m : Memory) (a v : ℕ) : Memory := fun x =>
  if x = a then UInt8.ofNat v
  else if x = a + 1 then UInt8.ofNat (v / 256)
  else if x = a + 2 then UInt8.ofNat (v / 65536)
  else if x = a + 3 then UInt8.ofNat (v / 16777216)
  else m x

/-- Replace the `n` bytes from `a` on. -/
def fill (m : Memory) (a n : ℕ) (content : ℕ → UInt8) : Memory := fun x =>
  if a ≤ x ∧ x < a + n then content (x - a) else m x

/-- Byte `j` of a little-endian word. -/
def wordByte (w j : ℕ) : UInt8 := UInt8.ofNat (w / 256 ^ j)

/-- Write `n` words from `a` on. -/
def writeWords (m : Memory) (a n : ℕ) (w : ℕ → ℕ) : Memory :=
  fill m a (4 * n) (fun i => wordByte (w (i / 4)) (i % 4))

/-- The two memories hold the same bytes in `[a, a + n)`. -/
def SameOn (m m' : Memory) (a n : ℕ) : Prop := ∀ x, a ≤ x → x < a + n → m' x = m x

variable {m m' m'' : Memory} {a b n k v : ℕ}

theorem SameOn.refl (m : Memory) (a n : ℕ) : SameOn m m a n := fun _ _ _ => rfl

theorem SameOn.trans (h : SameOn m m' a n) (h' : SameOn m' m'' a n) : SameOn m m'' a n :=
  fun x h₁ h₂ => (h' x h₁ h₂).trans (h x h₁ h₂)

theorem SameOn.mono (h : SameOn m m' a n) (hlo : a ≤ b) (hhi : b + k ≤ a + n) : SameOn m m' b k :=
  fun x h₁ h₂ => h x (by omega) (by omega)

theorem load32_lt (m : Memory) (a : ℕ) : load32 m a < 4294967296 := by
  have h₀ := (m a).toNat_lt
  have h₁ := (m (a + 1)).toNat_lt
  have h₂ := (m (a + 2)).toNat_lt
  have h₃ := (m (a + 3)).toNat_lt
  unfold load32
  omega

theorem load32_of_zero (h : ∀ j, j < 4 → m (a + j) = 0) : load32 m a = 0 := by
  unfold load32
  rw [h 1 (by omega), h 2 (by omega), h 3 (by omega), show m a = 0 from h 0 (by omega)]
  rfl

theorem load32_congr (h : SameOn m m' a 4) : load32 m' a = load32 m a := by
  unfold load32
  rw [h a (by omega) (by omega), h (a + 1) (by omega) (by omega), h (a + 2) (by omega) (by omega),
    h (a + 3) (by omega) (by omega)]

theorem store32_sameOn (m : Memory) (v : ℕ) (h : b + n ≤ a ∨ a + 4 ≤ b) : SameOn m (store32 m a v) b n := by
  intro x h₁ h₂
  unfold store32
  rw [if_neg (by omega), if_neg (by omega), if_neg (by omega), if_neg (by omega)]

theorem fill_of_disjoint (m : Memory) (content : ℕ → UInt8) {x : ℕ} (h : x < a ∨ a + n ≤ x) :
    fill m a n content x = m x :=
  if_neg (by omega)

theorem fill_sameOn (m : Memory) (content : ℕ → UInt8) (h : b + k ≤ a ∨ a + n ≤ b) :
    SameOn m (fill m a n content) b k := by
  intro x h₁ h₂
  exact fill_of_disjoint m content (by omega)

@[simp] theorem load32_store32 (m : Memory) (a v : ℕ) : load32 (store32 m a v) a = v % 4294967296 := by
  have h₀ : store32 m a v a = UInt8.ofNat v := if_pos rfl
  have h₁ : store32 m a v (a + 1) = UInt8.ofNat (v / 256) := by simp [store32]
  have h₂ : store32 m a v (a + 2) = UInt8.ofNat (v / 65536) := by simp [store32]
  have h₃ : store32 m a v (a + 3) = UInt8.ofNat (v / 16777216) := by simp [store32]
  unfold load32
  rw [h₀, h₁, h₂, h₃]
  simp only [UInt8.toNat_ofNat']
  omega

theorem load32_store32_of_disjoint (m : Memory) (v : ℕ) (h : b + 4 ≤ a ∨ a + 4 ≤ b) :
    load32 (store32 m a v) b = load32 m b :=
  load32_congr (store32_sameOn m v h)

theorem fill_at (m : Memory) (content : ℕ → UInt8) {i : ℕ} (h : i < n) : fill m a n content (a + i) = content i := by
  unfold fill
  rw [if_pos (by omega), Nat.add_sub_cancel_left]

/-- A word that is there byte by byte. -/
theorem load32_of_bytes {w : ℕ} (h : ∀ j, j < 4 → m (a + j) = wordByte w j) : load32 m a = w % 4294967296 := by
  have h₀ := h 0 (by omega)
  have h₁ := h 1 (by omega)
  have h₂ := h 2 (by omega)
  have h₃ := h 3 (by omega)
  simp only [Nat.add_zero, wordByte, Nat.pow_zero, Nat.div_one, Nat.reducePow] at h₀ h₁ h₂ h₃
  unfold load32
  rw [h₀, h₁, h₂, h₃]
  simp only [UInt8.toNat_ofNat']
  omega

theorem load32_writeWords (m : Memory) (w : ℕ → ℕ) {k : ℕ} (h : k < n) :
    load32 (writeWords m a n w) (a + 4 * k) = w k % 4294967296 := by
  refine load32_of_bytes (fun j hj => ?_)
  have he : a + 4 * k + j = a + (4 * k + j) := by omega
  have hd : (4 * k + j) / 4 = k := by omega
  have hm : (4 * k + j) % 4 = j := by omega
  rw [he, writeWords, fill_at _ _ (by omega), hd, hm]

theorem writeWords_sameOn (m : Memory) (w : ℕ → ℕ) (h : b + k ≤ a ∨ a + 4 * n ≤ b) :
    SameOn m (writeWords m a n w) b k :=
  fill_sameOn m _ h

end SifarOS.ByteMemory
