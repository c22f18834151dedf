import Mathlib.Algebra.Group.Fin.Basic
import Mathlib.Tactic.Abel

/-! # Queues in a ring

A queue in the cells of a ring: entries are written at `head` and read at `tail`. One cell stays
empty, so that a full ring is not taken for an empty one. -/
namespace SifarOS.RingQueue

variable {α : Type*} {n : ℕ}

/-- The cell that a fresh queue begins in. -/
def first : Fin (n + 1) := 0

/-- The cell behind another one; the first is behind the last. -/
def next (i : Fin (n + 1)) : Fin (n + 1) := i + 1

/-- The entries that wait, the oldest first. -/
def waiting (cells : Fin (n + 1) → α) (head tail : Fin (n + 1)) : List α :=
  (List.range (head - tail).val).map fun i => cells (tail + Fin.ofNat (n + 1) i)

section Slots
variable {head tail : Fin (n + 1)}

theorem val_succ {i : Fin (n + 1)} (h : i + 1 ≠ 0) : (i + 1).val = i.val + 1 := by
  rw [Fin.val_add_one, if_neg]
  rintro rfl
  exact h (Fin.last_add_one n)

theorem sub_succ (h : head + 1 ≠ tail) : (head + 1 - tail).val = (head - tail).val + 1 := by
  have hsub : head + 1 - tail = head - tail + 1 := by abel
  rw [hsub]
  apply val_succ
  rw [← hsub]
  exact fun hzero => h (sub_eq_zero.mp hzero)

theorem sub_pred (h : tail ≠ head) : (head - tail).val = (head - (tail + 1)).val + 1 := by
  have hsub : head - tail = head - (tail + 1) + 1 := by abel
  rw [hsub]
  apply val_succ
  rw [← hsub]
  exact fun hzero => h (sub_eq_zero.mp hzero).symm

theorem slot_last (head tail : Fin (n + 1)) : tail + Fin.ofNat (n + 1) (head - tail).val = head := by
  have hval : Fin.ofNat (n + 1) (head - tail).val = head - tail := by
    ext
    exact Nat.mod_eq_of_lt (head - tail).isLt
  rw [hval]
  abel

theorem slot_ne {i : ℕ} (h : i < (head - tail).val) : tail + Fin.ofNat (n + 1) i ≠ head := by
  intro heq
  have hsub : head - tail = Fin.ofNat (n + 1) i := by
    rw [← heq]
    abel
  rw [hsub, Fin.val_ofNat] at h
  exact absurd (Nat.mod_le i (n + 1)) (not_le.mpr h)

theorem slot_succ (tail : Fin (n + 1)) (i : ℕ) :
    tail + 1 + Fin.ofNat (n + 1) i = tail + Fin.ofNat (n + 1) (i + 1) := by
  have hsucc : Fin.ofNat (n + 1) (i + 1) = Fin.ofNat (n + 1) i + 1 := by
    ext
    simp [Fin.val_add]
  rw [hsucc]
  abel

end Slots

section Queue
variable {cells : Fin (n + 1) → α} {head tail : Fin (n + 1)}

theorem waiting_empty (cells : Fin (n + 1) → α) (head : Fin (n + 1)) : waiting cells head head = [] := by
  simp [waiting]

theorem length_waiting : (waiting cells head tail).length = (head - tail).val := by simp [waiting]

theorem full_iff : next head = tail ↔ (waiting cells head tail).length = n := by
  rw [length_waiting, next]
  constructor
  · rintro rfl
    have hlast : head - (head + 1) = Fin.last n := by
      rw [sub_eq_iff_eq_add, add_comm head, ← add_assoc, Fin.last_add_one, zero_add]
    rw [hlast, Fin.val_last]
  · intro h
    by_contra hne
    have hsub := sub_succ hne
    have hlt := (head + 1 - tail).isLt
    omega

theorem waiting_push (h : next head ≠ tail) (x : α) :
    waiting (Function.update cells head x) (next head) tail = waiting cells head tail ++ [x] := by
  rw [next] at h ⊢
  unfold waiting
  rw [sub_succ h, List.range_succ, List.map_append, List.map_singleton, slot_last, Function.update_self]
  congr 1
  exact List.map_congr_left fun i hi => Function.update_of_ne (slot_ne (List.mem_range.mp hi)) _ _

theorem waiting_pop (h : tail ≠ head) : waiting cells head tail = cells tail :: waiting cells head (next tail) := by
  unfold waiting next
  rw [sub_pred h, List.range_succ_eq_map, List.map_cons, List.map_map]
  congr 1
  · simp
  · exact List.map_congr_left fun i _ => by rw [Function.comp_apply, Nat.succ_eq_add_one, slot_succ]

end Queue

end SifarOS.RingQueue
