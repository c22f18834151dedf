import Mathlib.Data.List.GetD
import Mathlib.Data.Nat.Notation
import Mathlib.Logic.Function.Basic

/-! # A line of a terminal

A line without an end on which characters overwrite and advance and one of them moves left. What the line shows is
a text with only blanks behind it. -/
namespace SifarOS.TerminalLine

structure Terminal (α : Type) where
  cells : ℕ → α
  column : ℕ

variable {α : Type} [DecidableEq α] (blank back : α)

def putc (t : Terminal α) (c : α) : Terminal α :=
  if c = back then { t with column := t.column - 1 }
  else ⟨Function.update t.cells t.column c, t.column + 1⟩

/-- The text on the line and the column of the cursor. -/
def shows (text : List α) (column : ℕ) : Terminal α := ⟨fun i => text.getD i blank, column⟩

omit [DecidableEq α] in
theorem shows_blank (text : List α) (column n : ℕ) :
    shows blank (text ++ List.replicate n blank) column = shows blank text column := by
  have hcells : ∀ i, (text ++ List.replicate n blank).getD i blank = text.getD i blank := by
    intro i
    rcases Nat.lt_or_ge i text.length with hlt | hge
    · exact List.getD_append _ _ _ _ hlt
    · rw [List.getD_append_right _ _ _ _ hge, List.getD_eq_default _ _ hge,
        List.getD_eq_getElem?_getD]
      exact List.getElem?_getD_replicate_default_eq _ _ _
  rw [shows, funext hcells, shows]

variable {blank back}

theorem putc_shows {c : α} (hc : c ≠ back) (left right : List α) :
    putc back (shows blank (left ++ right) left.length) c = shows blank (left ++ c :: right.drop 1) (left.length + 1) := by
  have hcells : Function.update (fun i => (left ++ right).getD i blank) left.length c =
      fun i => (left ++ c :: right.drop 1).getD i blank := by
    funext i
    rcases Nat.lt_trichotomy i left.length with hlt | rfl | hgt
    · rw [Function.update_of_ne (Nat.ne_of_lt hlt), List.getD_append _ _ _ _ hlt, List.getD_append _ _ _ _ hlt]
    · rw [Function.update_self, List.getD_append_right _ _ _ _ (Nat.le_refl _), Nat.sub_self, List.getD_cons_zero]
    · obtain ⟨k, rfl⟩ := Nat.exists_eq_add_of_lt hgt
      have hsub : left.length + k + 1 - left.length = k + 1 := by omega
      rw [Function.update_of_ne (Nat.ne_of_gt hgt), List.getD_append_right _ _ _ _ (by omega),
        List.getD_append_right _ _ _ _ (by omega), hsub, List.getD_cons_succ]
      cases right with
      | nil => rfl
      | cons _ rest => rfl
  rw [putc, if_neg hc, shows, hcells, shows]

/-- What is written stands in the place of as many characters that stood there. -/
theorem write_shows {text : List α} (htext : ∀ c ∈ text, c ≠ back) (left right : List α) :
    text.foldl (putc back) (shows blank (left ++ right) left.length) =
      shows blank (left ++ text ++ right.drop text.length) (left.length + text.length) := by
  induction text generalizing left right with
  | nil => simp
  | cons c rest ih =>
    obtain ⟨hc, hrest⟩ := List.forall_mem_cons.mp htext
    have hnext : left ++ c :: right.drop 1 = (left ++ [c]) ++ right.drop 1 := by simp
    have hlen : left.length + 1 = (left ++ [c]).length := by simp
    rw [List.foldl_cons, putc_shows hc, hnext, hlen, ih hrest]
    simp [Nat.add_comm, Nat.add_left_comm]

theorem back_shows (text : List α) (column n : ℕ) :
    (List.replicate n back).foldl (putc back) (shows blank text column) = shows blank text (column - n) := by
  induction n generalizing column with
  | zero => rfl
  | succ n ih =>
    have hstep : putc back (shows blank text column) back = shows blank text (column - 1) := if_pos rfl
    rw [List.replicate_succ, List.foldl_cons, hstep, ih, Nat.sub_sub, Nat.add_comm]

end SifarOS.TerminalLine
