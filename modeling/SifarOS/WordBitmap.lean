import Mathlib.Data.Nat.Notation
import Mathlib.Logic.Function.Basic
import Mathlib.Data.List.Basic

/-! # Sets of numbers in machine words

A set of numbers is kept with one bit for each, in words of `w` bits. Two searches over such a set are
compared with what they look for: the first number that is not in it, by skipping full words, and a run
of numbers that are not in it. -/
namespace SifarOS.WordBitmap

variable {w : ℕ} {b : ℕ → BitVec w} {i j : ℕ}

def test (b : ℕ → BitVec w) (i : ℕ) : Bool := (b (i / w)).getLsbD (i % w)

def set (b : ℕ → BitVec w) (i : ℕ) : ℕ → BitVec w := Function.update b (i / w) (b (i / w) ||| 1#w <<< (i % w))

def clear (b : ℕ → BitVec w) (i : ℕ) : ℕ → BitVec w := Function.update b (i / w) (b (i / w) &&& ~~~(1#w <<< (i % w)))

theorem getLsbD_one_shiftLeft {n : ℕ} (k : ℕ) (hn : n < w) : (1#w <<< n).getLsbD k = decide (k = n) := by
  rw [← BitVec.twoPow_eq, BitVec.getLsbD_twoPow]
  simp [hn, eq_comm]

/-- Two numbers are the same when they have the same place in the same word. -/
theorem same_place (hword : j / w = i / w) : j % w = i % w ↔ j = i := by
  constructor
  · intro hplace
    rw [← Nat.div_add_mod j w, ← Nat.div_add_mod i w, hword, hplace]
  · rintro rfl
    rfl

theorem test_set (hw : 0 < w) : test (set b i) j = (test b j || decide (j = i)) := by
  unfold test set
  by_cases hword : j / w = i / w
  · rw [hword, Function.update_self, BitVec.getLsbD_or, getLsbD_one_shiftLeft _ (Nat.mod_lt _ hw)]
    simp only [same_place hword]
  · have hne : j ≠ i := fun he => hword (by rw [he])
    rw [Function.update_of_ne hword]
    simp [hne]

theorem test_clear (hw : 0 < w) : test (clear b i) j = (test b j && decide (j ≠ i)) := by
  unfold test clear
  by_cases hword : j / w = i / w
  · rw [hword, Function.update_self, BitVec.getLsbD_and, BitVec.getLsbD_not,
      getLsbD_one_shiftLeft _ (Nat.mod_lt _ hw)]
    simp [same_place hword, Nat.mod_lt _ hw]
  · have hne : j ≠ i := fun he => hword (by rw [he])
    rw [Function.update_of_ne hword]
    simp [hne]

theorem test_of_full {k : ℕ} (hw : 0 < w) (h : b k = BitVec.allOnes w) (hi : i / w = k) : test b i = true := by
  unfold test
  rw [hi, h, BitVec.getLsbD_allOnes]
  exact decide_eq_true (Nat.mod_lt _ hw)

/-! ## The first number that is not in the set -/

/-- The first of `n` numbers from `i` on that is below `total` and not in the set. -/
def scanWord (b : ℕ → BitVec w) (total : ℕ) : ℕ → ℕ → Option ℕ
  | 0, _ => none
  | n + 1, i => if total ≤ i then none else if test b i then scanWord b total n (i + 1) else some i

/-- The same word by word, from word `k` on; full words are skipped. -/
def scanWords (b : ℕ → BitVec w) (total : ℕ) : ℕ → ℕ → Option ℕ
  | 0, _ => none
  | n + 1, k =>
    if b k = BitVec.allOnes w then scanWords b total n (k + 1)
    else (scanWord b total w (w * k)).or (scanWords b total n (k + 1))

/-- What a scan of the numbers from `lo` to `hi` should give. -/
def FirstClear (used : ℕ → Bool) (lo hi : ℕ) : Option ℕ → Prop
  | none => ∀ i, lo ≤ i → i < hi → used i = true
  | some f => lo ≤ f ∧ f < hi ∧ used f = false ∧ ∀ i, lo ≤ i → i < f → used i = true

section scan

variable {used : ℕ → Bool} {total lo mid hi n k : ℕ} {first : Option ℕ}

theorem FirstClear.unique {second : Option ℕ} (h : FirstClear used lo hi first) (h' : FirstClear used lo hi second) :
    first = second := by
  cases first with
  | none =>
    cases second with
    | none => rfl
    | some f =>
      obtain ⟨h₁, h₂, h₃, -⟩ := h'
      have hused := h f h₁ h₂
      rw [h₃] at hused
      cases hused
  | some f =>
    obtain ⟨h₁, h₂, h₃, h₄⟩ := h
    cases second with
    | none =>
      have hused := h' f h₁ h₂
      rw [h₃] at hused
      cases hused
    | some g =>
      obtain ⟨k₁, k₂, k₃, k₄⟩ := h'
      rcases Nat.lt_trichotomy f g with hlt | rfl | hlt
      · have hused := k₄ f h₁ hlt
        rw [h₃] at hused
        cases hused
      · rfl
      · have hused := h₄ g k₁ hlt
        rw [k₃] at hused
        cases hused

/-- Numbers in the set before the start do not matter. -/
theorem FirstClear.extend (h : FirstClear used mid hi first) (hle : lo ≤ mid) (hused : ∀ i, lo ≤ i → i < mid → i < hi → used i = true) :
    FirstClear used lo hi first := by
  cases first with
  | none =>
    intro i hlo hhi
    by_cases hi' : i < mid
    · exact hused i hlo hi' hhi
    · exact h i (by omega) hhi
  | some f =>
    obtain ⟨h₁, h₂, h₃, h₄⟩ := h
    refine ⟨by omega, h₂, h₃, fun i hlo hif => ?_⟩
    by_cases hi' : i < mid
    · exact hused i hlo hi' (by omega)
    · exact h₄ i (by omega) hif

theorem scanWord_first (b : ℕ → BitVec w) (total n i : ℕ) : FirstClear (test b) i (min total (i + n)) (scanWord b total n i) := by
  induction n generalizing i with
  | zero =>
    intro j hlo hhi
    omega
  | succ n ih =>
    unfold scanWord
    split
    · intro j hlo hhi
      omega
    · split
      · next hlt hused =>
        have h := ih (i + 1)
        rw [show i + 1 + n = i + (n + 1) by omega] at h
        refine h.extend (Nat.le_succ i) fun j hlo hhi _ => ?_
        obtain rfl : j = i := by omega
        exact hused
      · next hlt hfree =>
        exact ⟨Nat.le_refl i, by omega, by simpa using hfree, fun j hlo hhi => by omega⟩

/-- Skipping full words changes nothing. -/
theorem scanWords_first (hw : 0 < w) (b : ℕ → BitVec w) (total n k : ℕ) :
    FirstClear (test b) (w * k) (min total (w * (k + n))) (scanWords b total n k) := by
  induction n generalizing k with
  | zero =>
    intro j hlo hhi
    rw [Nat.add_zero] at hhi
    omega
  | succ n ih =>
    have hrest := ih (k + 1)
    rw [show k + 1 + n = k + (n + 1) by omega] at hrest
    have hnext : w * (k + 1) = w * k + w := Nat.mul_succ w k
    have hle : w * (k + 1) ≤ w * (k + (n + 1)) := Nat.mul_le_mul_left w (by omega)
    unfold scanWords
    split
    · next hfull =>
      refine hrest.extend (by omega) fun j hlo hhi _ => test_of_full hw hfull ?_
      apply Nat.div_eq_of_lt_le
      · rwa [Nat.mul_comm]
      · rwa [Nat.mul_comm]
    · have hword := scanWord_first b total w (w * k)
      cases hscan : scanWord b total w (w * k) with
      | none =>
        rw [hscan] at hword
        rw [Option.none_or]
        exact hrest.extend (by omega) fun j hlo hhi hj => hword j hlo (by omega)
      | some f =>
        rw [hscan] at hword
        obtain ⟨h₁, h₂, h₃, h₄⟩ := hword
        exact ⟨h₁, by omega, h₃, h₄⟩

end scan

/-! ## A run of numbers that are not in the set -/

/-- The scan for `count` numbers in a row, at number `i` with `left` to go: the last `run` numbers were not in
the set, the first of them was `start`. -/
def scanRun (used : ℕ → Bool) (count : ℕ) : ℕ → ℕ → ℕ → ℕ → Option ℕ
  | 0, _, _, _ => none
  | left + 1, i, run, start =>
    if used i then scanRun used count left (i + 1) 0 start
    else
      let start := if run = 0 then i else start
      if run + 1 = count then some start else scanRun used count left (i + 1) (run + 1) start

/-- `count` numbers from `start` on are below `total` and not in the set. -/
def FreeRun (used : ℕ → Bool) (total count start : ℕ) : Prop := start + count ≤ total ∧ ∀ i < count, used (start + i) = false

/-- What a scan for a run should give. -/
def AnyRun (used : ℕ → Bool) (total count : ℕ) : Option ℕ → Prop
  | none => ∀ s, ¬FreeRun used total count s
  | some s => FreeRun used total count s

section runs

variable {used : ℕ → Bool} {total count left run start s : ℕ}

/-- What the scan knows of the numbers it has passed. -/
structure Passed (used : ℕ → Bool) (count i run start : ℕ) : Prop where
  short : run < count
  place : run ≠ 0 → start + run = i
  free : ∀ j, i ≤ j + run → j < i → used j = false
  none : ∀ s, s + count ≤ i → ∃ j < count, used (s + j) = true
  before : run < i → used (i - run - 1) = true

theorem scanRun_spec (hp : Passed used count i run start) (ht : i + left = total) :
    AnyRun used total count (scanRun used count left i run start) := by
  induction left generalizing i run start with
  | zero =>
    rintro s ⟨hle, hfree⟩
    obtain ⟨j, hj, hused⟩ := hp.none s (by omega)
    rw [hfree j hj] at hused
    cases hused
  | succ left ih =>
    unfold scanRun
    have hshort := hp.short
    split
    · next hused =>
      apply ih _ (by omega)
      refine ⟨by omega, by simp, fun j hlo hhi => by omega, fun s hs => ?_, fun _ => by simpa using hused⟩
      by_cases hend : s + count ≤ i
      · exact hp.none s hend
      · exact ⟨i - s, by omega, by rw [show s + (i - s) = i by omega]; exact hused⟩
    · next hused =>
      have hfree : used i = false := by simpa using hused
      have hplace : (if run = 0 then i else start) + run = i := by
        split
        · omega
        · next hrun => exact hp.place hrun
      dsimp only
      split
      · next hcount =>
        refine ⟨by omega, fun j hj => ?_⟩
        by_cases hlast : j = run
        · rw [hlast, hplace]
          exact hfree
        · exact hp.free _ (by omega) (by omega)
      · next hcount =>
        apply ih _ (by omega)
        refine ⟨by omega, fun _ => by omega, fun j hlo hhi => ?_, fun s hs => ?_, fun hlt => ?_⟩
        · by_cases hj : j = i
          · rw [hj]
            exact hfree
          · exact hp.free j (by omega) (by omega)
        · by_cases hend : s + count ≤ i
          · exact hp.none s hend
          · -- the run that ends here is too short
            have hbefore := hp.before (by omega)
            refine ⟨i - run - 1 - s, by omega, ?_⟩
            rw [show s + (i - run - 1 - s) = i - run - 1 by omega]
            exact hbefore
        · have hbefore := hp.before (by omega)
          rw [show i + 1 - (run + 1) - 1 = i - run - 1 by omega]
          exact hbefore

/-- The scan finds a run if there is one. -/
theorem scanRun_iff (hcount : 1 ≤ count) :
    AnyRun used total count (scanRun used count total 0 0 start) := by
  refine scanRun_spec ⟨by omega, by simp, fun j _ hj => by omega, fun s hs => by omega, fun h => by omega⟩ (Nat.zero_add total)

end runs

end SifarOS.WordBitmap
