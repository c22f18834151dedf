import Mathlib.Data.Int.Notation
import Mathlib.Data.List.GetD
import Mathlib.Data.Nat.Notation
import Mathlib.Logic.Function.Basic

/-! # Character buffers and keys

What the line editor of the shell and the text editor have in common: buffers of a fixed size with the functions of
the string library on them, and the codes of the keys. An access outside of a buffer has no value, nor has a
`memmove` of negative length. -/
namespace SifarOS.LineInput

abbrev Buffer := ℕ → UInt8

section Buffer
variable (size : ℕ)

def get (buffer : Buffer) (i : ℤ) : Option UInt8 := if 0 ≤ i ∧ i < size then some (buffer i.toNat) else none

def set (buffer : Buffer) (i : ℤ) (c : UInt8) : Option Buffer :=
  if 0 ≤ i ∧ i < size then some (Function.update buffer i.toNat c) else none

def memmove (buffer : Buffer) (dst src n : ℤ) : Option Buffer :=
  if 0 ≤ n ∧ 0 ≤ dst ∧ dst + n ≤ size ∧ 0 ≤ src ∧ src + n ≤ size then
    some fun j => if dst ≤ j ∧ j < dst + n then buffer (src + (j - dst)).toNat else buffer j
  else none

/-- `strlen`, where the string ends in the buffer. -/
def strlen (buffer : Buffer) : Option ℕ := (List.range size).find? fun j => buffer j = 0

/-- `strlcpy(buffer, line, size)`. -/
def strlcpy (buffer : Buffer) (line : List UInt8) : Buffer :=
  if size = 0 then buffer
  else
    let copy := if line.length ≥ size then size - 1 else line.length
    fun j => if j < copy then line.getD j 0 else if j = copy then 0 else buffer j

end Buffer

section Lemmas
variable {size n : ℕ} {buffer : Buffer} {line : List UInt8}

theorem memmove_eq {dst src n : ℤ} (hn : 0 ≤ n) (hdst : 0 ≤ dst) (hdst' : dst + n ≤ size) (hsrc : 0 ≤ src)
    (hsrc' : src + n ≤ size) : memmove size buffer dst src n =
      some fun j : ℕ => if dst ≤ j ∧ j < dst + n then buffer (src + (j - dst)).toNat else buffer j :=
  if_pos ⟨hn, hdst, hdst', hsrc, hsrc'⟩

theorem strlen_eq_some : strlen size buffer = some n ↔ n < size ∧ buffer n = 0 ∧ ∀ j < n, buffer j ≠ 0 := by
  rw [strlen, List.find?_range_eq_some]
  constructor
  · rintro ⟨hzero, hlt, hne⟩
    exact ⟨List.mem_range.mp hlt, by simpa using hzero, fun j hj => by simpa using hne j hj⟩
  · rintro ⟨hlt, hzero, hne⟩
    exact ⟨by simpa using hzero, List.mem_range.mpr hlt, fun j hj => by simpa using hne j hj⟩

/-- As much of the line is copied as there is room for, and its end marked. -/
theorem strlcpy_apply (hsize : 0 < size) (j : ℕ) : strlcpy size buffer line j =
    if h : j < (line.take (size - 1)).length then (line.take (size - 1))[j]
    else if j = (line.take (size - 1)).length then 0 else buffer j := by
  have hcopy : (if line.length ≥ size then size - 1 else line.length) = (line.take (size - 1)).length := by
    rw [List.length_take]
    split <;> omega
  rw [strlcpy, if_neg (Nat.ne_of_gt hsize), hcopy]
  split
  · next hlt =>
    rw [List.getElem_take]
    exact List.getD_eq_getElem _ _ _
  · rfl

end Lemmas

/-! ## Keys -/

def keyUp : ℕ := 0x100
def keyDown : ℕ := 0x101
def keyLeft : ℕ := 0x102
def keyRight : ℕ := 0x103
def keyHome : ℕ := 0x104
def keyEnd : ℕ := 0x105
def keyDelete : ℕ := 0x106

end SifarOS.LineInput
