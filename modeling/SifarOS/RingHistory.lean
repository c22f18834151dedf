import Mathlib.Data.List.Basic
import Mathlib.Logic.Function.Basic

/-! # Ring buffers as histories

Entries are written one after the other into the cells of a ring, the `i`-th of them at `pos i`.
What matters of `pos` is that `n` entries in a row have different cells: then the ring holds the
last `n` of all entries ever written, and nothing else but what its cells held at first. -/
namespace SifarOS.RingHistory

variable {ι α : Type*} {n : ℕ} {pos : ℕ → ι} {cells : ι → α} {text : List α}

/-- Entries less than `n` apart have different cells. -/
def Apart (n : ℕ) (pos : ℕ → ι) : Prop := ∀ i j, i < j → j < i + n → pos i ≠ pos j

/-- Each of the last `n` entries of `text` is in its cell. -/
def Kept (n : ℕ) (pos : ℕ → ι) (cells : ι → α) (text : List α) : Prop :=
  ∀ i, i < text.length → text.length ≤ i + n → text[i]? = some (cells (pos i))

theorem Kept.nil (n : ℕ) (pos : ℕ → ι) (cells : ι → α) : Kept n pos cells [] :=
  fun i hi => absurd hi (Nat.not_lt_zero i)

theorem Kept.push [DecidableEq ι] (h : Kept n pos cells text) (hpos : Apart n pos) (x : α) :
    Kept n pos (Function.update cells (pos text.length) x) (text ++ [x]) := by
  intro i hi hlast
  rw [List.length_append, List.length_singleton] at hi hlast
  rcases Nat.lt_succ_iff_lt_or_eq.mp hi with hold | rfl
  · rw [Function.update_of_ne (hpos i text.length hold (by omega)), List.getElem?_append_left hold]
    exact h i hold (by omega)
  · simp

theorem Kept.mem (h : Kept n pos cells text) {x : α} (hx : x ∈ text.drop (text.length - n)) : ∃ c, cells c = x := by
  obtain ⟨k, hk, rfl⟩ := List.mem_iff_getElem.mp hx
  rw [List.length_drop] at hk
  rw [List.getElem_drop]
  have hlast := h (text.length - n + k) (by omega) (by omega)
  rw [List.getElem?_eq_getElem (by omega)] at hlast
  exact ⟨_, (Option.some.inj hlast).symm⟩

/-- Each cell is still blank or holds one of the last `n` entries of `text`. -/
def Recent (n : ℕ) (pos : ℕ → ι) (cells : ι → α) (blank : α) (text : List α) : Prop :=
  ∀ c, cells c = blank ∨ ∃ i, pos i = c ∧ text.length ≤ i + n ∧ text[i]? = some (cells c)

theorem Recent.blank (n : ℕ) (pos : ℕ → ι) (blank : α) : Recent n pos (fun _ => blank) blank [] :=
  fun _ => .inl rfl

theorem Recent.push [DecidableEq ι] {blank : α} (h : Recent n pos cells blank text) (hn : 0 < n)
    (hpos : ∀ i, pos (i + n) = pos i) (x : α) :
    Recent n pos (Function.update cells (pos text.length) x) blank (text ++ [x]) := by
  intro c
  rw [List.length_append, List.length_singleton]
  by_cases hc : c = pos text.length
  · subst hc
    exact .inr ⟨text.length, rfl, by omega, by simp⟩
  · rw [Function.update_of_ne hc]
    rcases h c with hblank | ⟨i, rfl, hlast, hi⟩
    · exact .inl hblank
    · have hne : text.length ≠ i + n := by
        intro heq
        rw [heq, hpos] at hc
        exact hc rfl
      obtain ⟨hlt, -⟩ := List.getElem?_eq_some_iff.mp hi
      exact .inr ⟨i, rfl, by omega, by rw [List.getElem?_append_left hlt, hi]⟩

theorem Recent.mem {blank : α} (h : Recent n pos cells blank text) (c : ι) :
    cells c = blank ∨ cells c ∈ text.drop (text.length - n) := by
  rcases h c with hblank | ⟨i, -, hlast, hi⟩
  · exact .inl hblank
  · refine .inr (List.mem_of_getElem? (i := i - (text.length - n)) ?_)
    rw [List.getElem?_drop, Nat.add_sub_cancel' (by omega), hi]

theorem apart_mod (n : ℕ) : Apart n fun i => i % n := by
  intro i j hij hn h
  have hzero : (j - i) % n = 0 := Nat.sub_mod_eq_zero_of_mod_eq h.symm
  rw [Nat.mod_eq_of_lt (by omega)] at hzero
  omega

end SifarOS.RingHistory
