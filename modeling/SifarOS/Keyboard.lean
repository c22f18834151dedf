import Mathlib.Data.Fintype.Basic
import Mathlib.Data.List.Basic
import SifarOS.ReachableStates

/-! # The PS/2 keyboard driver

`keyboard_feed_byte` decodes scancode set 1 one byte at a time. The modifiers it keeps are
compared with the keys that are physically down: a run here is a sequence of key events, each of
which sends the make or the break code of one key, mixed with readers of the ring buffer. -/
namespace SifarOS.Keyboard
open ReachableStates

def bufferSize : ℕ := 128

def keyUp : ℕ := 0x100
def keyDown : ℕ := 0x101
def keyLeft : ℕ := 0x102
def keyRight : ℕ := 0x103
def keyHome : ℕ := 0x104
def keyEnd : ℕ := 0x105
def keyDelete : ℕ := 0x106
def keyPgup : ℕ := 0x107
def keyPgdn : ℕ := 0x108

def codes (l : List Char) : List ℕ := l.map Char.toNat

/-- The characters of the unshifted keys; 39, 96 and 92 are the quote, the grave accent and the
backslash, and every entry past the end is 0. -/
def mapLower : List ℕ :=
  [0, 27] ++ codes ['1', '2', '3', '4', '5', '6', '7', '8', '9', '0', '-', '='] ++ [8, 9] ++
  codes ['q', 'w', 'e', 'r', 't', 'y', 'u', 'i', 'o', 'p', '[', ']'] ++ [10, 0] ++
  codes ['a', 's', 'd', 'f', 'g', 'h', 'j', 'k', 'l', ';'] ++ [39, 96, 0, 92] ++
  codes ['z', 'x', 'c', 'v', 'b', 'n', 'm', ',', '.', '/'] ++ [0] ++ codes ['*'] ++ [0] ++ codes [' ']

/-- The characters of the shifted keys; 34 and 126 are the double quote and the tilde. -/
def mapUpper : List ℕ :=
  [0, 27] ++ codes ['!', '@', '#', '$', '%', '^', '&', '*', '(', ')', '_', '+'] ++ [8, 9] ++
  codes ['Q', 'W', 'E', 'R', 'T', 'Y', 'U', 'I', 'O', 'P', '{', '}'] ++ [10, 0] ++
  codes ['A', 'S', 'D', 'F', 'G', 'H', 'J', 'K', 'L', ':'] ++ [34, 126, 0] ++ codes ['|'] ++
  codes ['Z', 'X', 'C', 'V', 'B', 'N', 'M', '<', '>', '?'] ++ [0] ++ codes ['*'] ++ [0] ++ codes [' ']

/-- The driver's variables; `input` lists the keys it has handed to `input_push_key`. -/
structure Driver where
  buffer : ℕ → ℕ
  head : ℕ
  tail : ℕ
  shiftDown : Bool
  ctrlDown : Bool
  capsLock : Bool
  extended : Bool
  input : List ℕ

/-- The driver after `keyboard_init`. -/
def keyboardInit : Driver where
  buffer := fun _ => 0
  head := 0
  tail := 0
  shiftDown := false
  ctrlDown := false
  capsLock := false
  extended := false
  input := []

/-- `push`: a full ring buffer drops the key, the window system gets it in any case. -/
def push (d : Driver) (key : ℕ) : Driver :=
  let next := (d.head + 1) % bufferSize
  let d := { d with input := d.input ++ [key] }
  if next = d.tail then d else { d with buffer := Function.update d.buffer d.head key, head := next }

def isLetter (c : ℕ) : Bool :=
  decide (('a'.toNat ≤ c ∧ c ≤ 'z'.toNat) ∨ ('A'.toNat ≤ c ∧ c ≤ 'Z'.toNat))

/-- The make code of a key behind the 0xE0 byte. -/
def feedExtended (d : Driver) (code : UInt8) : Driver :=
  if code = 0x48 then push d keyUp
  else if code = 0x50 then push d keyDown
  else if code = 0x4B then push d keyLeft
  else if code = 0x4D then push d keyRight
  else if code = 0x47 then push d keyHome
  else if code = 0x4F then push d keyEnd
  else if code = 0x53 then push d keyDelete
  else if code = 0x49 then push d keyPgup
  else if code = 0x51 then push d keyPgdn
  else if code = 0x1D then { d with ctrlDown := true }
  else d

/-- The make code of a key that is no modifier. -/
def feedCharacter (d : Driver) (code : UInt8) : Driver :=
  let c := (if d.shiftDown then mapUpper else mapLower).getD code.toNat 0
  if c = 0 then d else
  let c := if d.capsLock && isLetter c then (if d.shiftDown then c + 32 else c - 32) else c
  let c := if d.ctrlDown && isLetter c then (c ||| 0x20) - 'a'.toNat + 1 else c
  push d c

/-- `keyboard_feed_byte`. -/
def keyboardFeedByte (d : Driver) (code : UInt8) : Driver :=
  if code = 0xE0 then { d with extended := true }
  else if code = 0xFA ∨ code = 0xFE ∨ code = 0xAA then d
  else
    let released := decide (code &&& 0x80 ≠ 0)
    let code := code &&& 0x7F
    if d.extended then
      let d := { d with extended := false }
      if released then d else feedExtended d code
    else if code = 0x2A ∨ code = 0x36 then { d with shiftDown := !released }
    else if code = 0x1D then { d with ctrlDown := !released }
    else if code = 0x3A then (if released then d else { d with capsLock := !d.capsLock })
    else if released then d
    else feedCharacter d code

/-- `keyboard_trygetc`: the key, or −1. -/
def keyboardTrygetc (d : Driver) : Driver × ℤ :=
  if d.tail = d.head then (d, -1)
  else ({ d with tail := (d.tail + 1) % bufferSize }, d.buffer d.tail)

/-! ## Keys and their codes -/

/-- A seven-bit make code. 0x60 is none, since its break code would be the 0xE0 byte. -/
def Code : Type := { c : Fin 128 // c ≠ 0x60 }

instance : DecidableEq Code := inferInstanceAs (DecidableEq { c : Fin 128 // c ≠ 0x60 })
instance : Fintype Code := inferInstanceAs (Fintype { c : Fin 128 // c ≠ 0x60 })

/-- A key of the set-1 keyboard. Print Screen is the pair of extended keys 0x2A and 0x37. -/
inductive Key
  | plain (c : Code)
  | extended (c : Code)
  | pause
  deriving DecidableEq

def leftShift : Key := .plain ⟨0x2A, by decide⟩
def rightShift : Key := .plain ⟨0x36, by decide⟩
def leftCtrl : Key := .plain ⟨0x1D, by decide⟩
def rightCtrl : Key := .extended ⟨0x1D, by decide⟩

def makeByte (c : Code) : UInt8 := UInt8.ofNat c.1.val
def breakByte (c : Code) : UInt8 := UInt8.ofNat c.1.val ||| 0x80

/-- What a key sends when it goes down, and again when it repeats. -/
def Key.makeCode : Key → List UInt8
  | .plain c => [makeByte c]
  | .extended c => [0xE0, makeByte c]
  | .pause => [0xE1, 0x1D, 0x45, 0xE1, 0x9D, 0xC5]

/-- What a key sends when it comes up. Pause has sent everything before. -/
def Key.breakCode : Key → List UInt8
  | .plain c => [breakByte c]
  | .extended c => [0xE0, breakByte c]
  | .pause => []

/-- What happens to the driver: a key goes down or repeats, a key comes up, a reader asks. -/
inductive Event
  | press (key : Key)
  | release (key : Key)
  | read
  deriving DecidableEq

/-- The driver and the keys that are down. -/
structure Typing where
  driver : Driver
  held : List Key

def start : Typing := ⟨keyboardInit, []⟩

/-- Only a key that is down can come up. -/
def next (s : Typing) : Event → Option Typing
  | .press key => some ⟨key.makeCode.foldl keyboardFeedByte s.driver, s.held.insert key⟩
  | .release key =>
    if key ∈ s.held then some ⟨key.breakCode.foldl keyboardFeedByte s.driver, s.held.erase key⟩ else none
  | .read => some { s with driver := (keyboardTrygetc s.driver).1 }

/-- No modifier is recorded and no prefix byte is pending. -/
def Driver.AtRest (d : Driver) : Prop := d.shiftDown = false ∧ d.ctrlDown = false ∧ d.extended = false

instance (d : Driver) : Decidable d.AtRest := inferInstanceAs (Decidable (_ ∧ _))

/-- The keys whose break code ends in a byte that is taken for a controller acknowledgement
behind an 0xE0. -/
def FakeAcknowledge (key : Key) : Prop :=
  key = .extended ⟨0x2A, by decide⟩ ∨ key = .extended ⟨0x7A, by decide⟩ ∨ key = .extended ⟨0x7E, by decide⟩

instance (key : Key) : Decidable (FakeAcknowledge key) := inferInstanceAs (Decidable (_ ∨ _))

/-- A left Shift comes up only while its record is clear or the right one is down, a right Ctrl
likewise, and a key whose break code looks like an acknowledgement never does. -/
def Heard (s : Typing) : Event → Prop
  | .release key =>
    (key = leftShift → s.driver.shiftDown = false ∨ rightShift ∈ s.held) ∧
    (key = rightCtrl → s.driver.ctrlDown = false ∨ leftCtrl ∈ s.held) ∧ ¬FakeAcknowledge key
  | _ => True

instance (s : Typing) (e : Event) : Decidable (Heard s e) := by
  cases e <;> unfold Heard <;> infer_instance

def Step (s s' : Typing) : Prop := ∃ e, next s e = some s'

/-- A step whose break code, if it is one, is heard. -/
def HeardStep (s s' : Typing) : Prop := ∃ e, Heard s e ∧ next s e = some s'

def heardNext (s : Typing) (e : Event) : Option Typing := if Heard s e then next s e else none

/-- The state of the modifiers: Shift, Ctrl, and the prefix 0xE0. -/
def Driver.modifiers (d : Driver) : Bool × Bool × Bool := (d.shiftDown, d.ctrlDown, d.extended)

/-! ## What one byte does to the modifiers -/

section Bytes
variable (d : Driver) (code : UInt8) (c : Code)

@[simp] theorem push_modifiers (key : ℕ) : (push d key).modifiers = d.modifiers := by
  simp only [push]
  split <;> rfl

@[simp] theorem feedCharacter_modifiers : (feedCharacter d code).modifiers = d.modifiers := by
  simp only [feedCharacter]
  split_ifs <;> simp

theorem feedExtended_modifiers : (feedExtended d code).modifiers =
    (d.shiftDown, if code = 0x1D then true else d.ctrlDown, d.extended) := by
  by_cases h : code = 0x1D
  · subst h
    rfl
  · rw [if_neg h]
    simp only [feedExtended, if_neg h, apply_ite Driver.modifiers, push_modifiers, ite_self]
    rfl

@[simp] theorem keyboardTrygetc_modifiers : (keyboardTrygetc d).1.modifiers = d.modifiers := by
  simp only [keyboardTrygetc]
  split <;> rfl

/-- The bytes of every code, looked at once. -/
theorem codeTable : ∀ c : Code,
    (makeByte c ≠ 0xE0 ∧ ¬(makeByte c = 0xFA ∨ makeByte c = 0xFE ∨ makeByte c = 0xAA) ∧
      makeByte c &&& 0x80 = 0 ∧ makeByte c &&& 0x7F = makeByte c) ∧
    (breakByte c ≠ 0xE0 ∧ breakByte c &&& 0x80 ≠ 0 ∧ breakByte c &&& 0x7F = makeByte c) ∧
    ((breakByte c = 0xFA ∨ breakByte c = 0xFE ∨ breakByte c = 0xAA) ↔
      makeByte c = 0x7A ∨ makeByte c = 0x7E ∨ makeByte c = 0x2A) ∧
    ((makeByte c = 0x2A ↔ Key.plain c = leftShift) ∧ (makeByte c = 0x36 ↔ Key.plain c = rightShift) ∧
      (makeByte c = 0x1D ↔ Key.plain c = leftCtrl) ∧ (makeByte c = 0x1D ↔ Key.extended c = rightCtrl)) ∧
    ((makeByte c = 0x7A ∨ makeByte c = 0x7E ∨ makeByte c = 0x2A) ↔ FakeAcknowledge (.extended c)) := by
  decide +kernel

/-- A make code is no special byte and carries its code. -/
theorem makeByte_table : makeByte c ≠ 0xE0 ∧ ¬(makeByte c = 0xFA ∨ makeByte c = 0xFE ∨ makeByte c = 0xAA) ∧
    makeByte c &&& 0x80 = 0 ∧ makeByte c &&& 0x7F = makeByte c :=
  (codeTable c).1

theorem breakByte_table : breakByte c ≠ 0xE0 ∧ breakByte c &&& 0x80 ≠ 0 ∧ breakByte c &&& 0x7F = makeByte c :=
  (codeTable c).2.1

/-- The break codes that are taken for acknowledgements. -/
theorem breakByte_acknowledge : (breakByte c = 0xFA ∨ breakByte c = 0xFE ∨ breakByte c = 0xAA) ↔
    makeByte c = 0x7A ∨ makeByte c = 0x7E ∨ makeByte c = 0x2A :=
  (codeTable c).2.2.1

variable {d}

theorem feed_make (h : d.extended = false) : (keyboardFeedByte d (makeByte c)).modifiers =
    (if makeByte c = 0x2A ∨ makeByte c = 0x36 then true else d.shiftDown,
      if makeByte c = 0x1D then true else d.ctrlDown, false) := by
  obtain ⟨he, ha, hr, hc⟩ := makeByte_table c
  simp only [keyboardFeedByte, if_neg he, if_neg ha, hr, hc, h]
  by_cases hs : makeByte c = 0x2A ∨ makeByte c = 0x36
  · have hctrl : makeByte c ≠ 0x1D := by rcases hs with hs | hs <;> simp [hs]
    simp [hs, hctrl, Driver.modifiers]
  · by_cases hctrl : makeByte c = 0x1D
    · simp [hctrl, Driver.modifiers]
    · by_cases hcaps : makeByte c = 0x3A
      · simp [hcaps, Driver.modifiers]
      · simp only [hs, hctrl, hcaps, if_false]
        simpa [Driver.modifiers, h] using feedCharacter_modifiers d (makeByte c)

theorem feed_break (h : d.extended = false) : (keyboardFeedByte d (breakByte c)).modifiers =
    (if makeByte c = 0x36 then false else d.shiftDown,
      if makeByte c = 0x1D then false else d.ctrlDown, false) := by
  obtain ⟨he, hr, hc⟩ := breakByte_table c
  simp only [keyboardFeedByte, if_neg he, decide_eq_true hr, hc, h, breakByte_acknowledge]
  by_cases ha : makeByte c = 0x7A ∨ makeByte c = 0x7E ∨ makeByte c = 0x2A
  · rw [if_pos ha]
    have hs : makeByte c ≠ 0x36 ∧ makeByte c ≠ 0x1D := by rcases ha with ha | ha | ha <;> simp [ha]
    simp [hs, Driver.modifiers, h]
  · rw [if_neg ha]
    have hl : makeByte c ≠ 0x2A := fun hl => ha (Or.inr (Or.inr hl))
    by_cases hs : makeByte c = 0x36
    · simp [hs, Driver.modifiers]
    · by_cases hctrl : makeByte c = 0x1D <;> simp [hl, hs, hctrl, Driver.modifiers, h]

theorem feed_extended_make : (keyboardFeedByte (keyboardFeedByte d 0xE0) (makeByte c)).modifiers =
    (d.shiftDown, if makeByte c = 0x1D then true else d.ctrlDown, false) := by
  obtain ⟨he, ha, hr, hc⟩ := makeByte_table c
  simp [keyboardFeedByte, if_neg he, if_neg ha, hr, hc, feedExtended_modifiers]

theorem feed_extended_break : (keyboardFeedByte (keyboardFeedByte d 0xE0) (breakByte c)).modifiers =
    (d.shiftDown, d.ctrlDown, decide (makeByte c = 0x7A ∨ makeByte c = 0x7E ∨ makeByte c = 0x2A)) := by
  obtain ⟨he, hr, hc⟩ := breakByte_table c
  simp only [keyboardFeedByte, if_neg he, decide_eq_true hr, hc, breakByte_acknowledge]
  by_cases ha : makeByte c = 0x7A ∨ makeByte c = 0x7E ∨ makeByte c = 0x2A <;> simp [ha, Driver.modifiers]

theorem feed_pause (h : d.extended = false) :
    (Key.pause.makeCode.foldl keyboardFeedByte d).modifiers = (d.shiftDown, false, false) := by
  obtain ⟨buffer, head, tail, shift, ctrl, caps, ext, input⟩ := d
  obtain rfl : ext = false := h
  cases shift <;> rfl

end Bytes

/-! ## What one event does -/

/-- Between two events no prefix byte is pending, and a recorded modifier is a key that is down. -/
structure Typing.Tracked (s : Typing) : Prop where
  extended : s.driver.extended = false
  shift : s.driver.shiftDown = true → leftShift ∈ s.held ∨ rightShift ∈ s.held
  ctrl : s.driver.ctrlDown = true → leftCtrl ∈ s.held ∨ rightCtrl ∈ s.held

theorem Typing.Tracked.atRest {s : Typing} (h : s.Tracked) (hnone : s.held = []) : s.driver.AtRest := by
  refine ⟨?_, ?_, h.extended⟩
  · simpa [hnone] using h.shift
  · simpa [hnone] using h.ctrl

theorem tracked_start : start.Tracked := by
  constructor <;> simp [start, keyboardInit]

/-- The modifier keys by their make codes. -/
theorem makeByte_modifiers (c : Code) :
    (makeByte c = 0x2A ↔ Key.plain c = leftShift) ∧ (makeByte c = 0x36 ↔ Key.plain c = rightShift) ∧
    (makeByte c = 0x1D ↔ Key.plain c = leftCtrl) ∧ (makeByte c = 0x1D ↔ Key.extended c = rightCtrl) :=
  (codeTable c).2.2.2.1

theorem makeByte_fakeAcknowledge (c : Code) :
    (makeByte c = 0x7A ∨ makeByte c = 0x7E ∨ makeByte c = 0x2A) ↔ FakeAcknowledge (.extended c) :=
  (codeTable c).2.2.2.2

section Events
variable {s s' : Typing} {d : Driver}

/-- The make code of a modifier sets it, and Pause looks like a tap of Ctrl. -/
theorem press_modifiers (h : d.extended = false) (key : Key) :
    (key.makeCode.foldl keyboardFeedByte d).modifiers =
      (if key = leftShift ∨ key = rightShift then true else d.shiftDown,
        if key = .pause then false else if key = leftCtrl ∨ key = rightCtrl then true else d.ctrlDown,
        false) := by
  cases key with
  | plain c =>
    obtain ⟨hl, hr, hc, -⟩ := makeByte_modifiers c
    have hp : Key.plain c ≠ rightCtrl := by simp [rightCtrl]
    simpa only [Key.makeCode, List.foldl_cons, List.foldl_nil, hl, hr, hc, hp, or_false, reduceCtorEq, if_false] using feed_make c h
  | extended c =>
    obtain ⟨-, -, -, hc⟩ := makeByte_modifiers c
    have hs : ¬(Key.extended c = leftShift ∨ Key.extended c = rightShift) := by simp [leftShift, rightShift]
    have hp : Key.extended c ≠ leftCtrl := by simp [leftCtrl]
    simpa only [Key.makeCode, List.foldl_cons, List.foldl_nil, hc, hs, hp, false_or, reduceCtorEq, if_false] using feed_extended_make c
  | pause =>
    have hs : ¬(Key.pause = leftShift ∨ Key.pause = rightShift) := by simp [leftShift, rightShift]
    simpa only [hs, if_false, if_true] using feed_pause h

/-- The break codes of the right Shift and the left Ctrl are heard, the other two are not. -/
theorem release_modifiers (h : d.extended = false) (key : Key) :
    (key.breakCode.foldl keyboardFeedByte d).modifiers =
      (if key = rightShift then false else d.shiftDown, if key = leftCtrl then false else d.ctrlDown,
        decide (FakeAcknowledge key)) := by
  cases key with
  | plain c =>
    obtain ⟨-, hr, hc, -⟩ := makeByte_modifiers c
    have hf : ¬FakeAcknowledge (.plain c) := by simp [FakeAcknowledge]
    simpa only [Key.breakCode, List.foldl_cons, List.foldl_nil, hr, hc, hf, decide_false] using feed_break c h
  | extended c =>
    have hs : Key.extended c ≠ rightShift := by simp [rightShift]
    have hc : Key.extended c ≠ leftCtrl := by simp [leftCtrl]
    simpa only [Key.breakCode, List.foldl_cons, List.foldl_nil, makeByte_fakeAcknowledge, hs, hc,
      if_false] using feed_extended_break c
  | pause => simp [Key.breakCode, Driver.modifiers, h, rightShift, leftCtrl, FakeAcknowledge]

theorem Driver.modifiers_eq {a b e : Bool} :
    d.modifiers = (a, b, e) ↔ d.shiftDown = a ∧ d.ctrlDown = b ∧ d.extended = e := by
  simp [Driver.modifiers]

theorem Typing.Tracked.press (h : s.Tracked) (key : Key) :
    Typing.Tracked ⟨key.makeCode.foldl keyboardFeedByte s.driver, s.held.insert key⟩ := by
  obtain ⟨hs, hc, he⟩ := Driver.modifiers_eq.mp (press_modifiers h.extended key)
  constructor
  · exact he
  · intro hd
    dsimp only at hd
    rw [hs] at hd
    by_cases hk : key = leftShift ∨ key = rightShift
    · rcases hk with rfl | rfl <;> simp
    · rw [if_neg hk] at hd
      exact (h.shift hd).imp (List.mem_insert_of_mem) (List.mem_insert_of_mem)
  · intro hd
    dsimp only at hd
    rw [hc] at hd
    by_cases hk : key = leftCtrl ∨ key = rightCtrl
    · rcases hk with rfl | rfl <;> simp
    · rw [if_neg hk] at hd
      have hd' : s.driver.ctrlDown = true := by
        by_cases hp : key = .pause <;> simp_all
      exact (h.ctrl hd').imp (List.mem_insert_of_mem) (List.mem_insert_of_mem)

theorem Typing.Tracked.release (h : s.Tracked) {key : Key} (hh : Heard s (.release key)) :
    Typing.Tracked ⟨key.breakCode.foldl keyboardFeedByte s.driver, s.held.erase key⟩ := by
  obtain ⟨hs, hc, he⟩ := Driver.modifiers_eq.mp (release_modifiers h.extended key)
  obtain ⟨hleft, hright, hfake⟩ := hh
  constructor
  · simpa [hfake] using he
  · intro hd
    dsimp only at hd
    rw [hs] at hd
    by_cases hk : key = rightShift
    · simp [hk] at hd
    · rw [if_neg hk] at hd
      have hr : rightShift ∈ s.held → rightShift ∈ s.held.erase key :=
        (List.mem_erase_of_ne (Ne.symm hk)).mpr
      by_cases hl : key = leftShift
      · have hheld := (hleft hl).resolve_left (by simp [hd])
        exact Or.inr (hr hheld)
      · exact (h.shift hd).imp (List.mem_erase_of_ne (Ne.symm hl)).mpr hr
  · intro hd
    dsimp only at hd
    rw [hc] at hd
    by_cases hk : key = leftCtrl
    · simp [hk] at hd
    · rw [if_neg hk] at hd
      have hl : leftCtrl ∈ s.held → leftCtrl ∈ s.held.erase key :=
        (List.mem_erase_of_ne (Ne.symm hk)).mpr
      by_cases hr : key = rightCtrl
      · have hheld := (hright hr).resolve_left (by simp [hd])
        exact Or.inl (hl hheld)
      · exact (h.ctrl hd).imp hl (List.mem_erase_of_ne (Ne.symm hr)).mpr

theorem Typing.Tracked.next (h : s.Tracked) {e : Event} (hh : Heard s e) (hn : next s e = some s') :
    s'.Tracked := by
  cases e with
  | press key =>
    obtain rfl := Option.some.inj hn
    exact h.press key
  | release key =>
    simp only [Keyboard.next] at hn
    split at hn
    · obtain rfl := Option.some.inj hn
      exact h.release hh
    · cases hn
  | read =>
    obtain rfl := Option.some.inj hn
    obtain ⟨hs, hc, he⟩ := Driver.modifiers_eq.mp (keyboardTrygetc_modifiers s.driver)
    exact ⟨he.trans h.extended, fun hd => h.shift (hs ▸ hd), fun hd => h.ctrl (hc ▸ hd)⟩

end Events

theorem tracked_of_heard {s : Typing} (h : Reachable (· = start) HeardStep s) : s.Tracked := by
  refine h.invariant (P := Typing.Tracked) ?_ ?_
  · rintro s rfl
    exact tracked_start
  · rintro s s' hs ⟨e, hh, hn⟩
    exact hs.next hh hn

/-- A key pressed and released with nothing else down. -/
def tap (key : Key) : List Event := [.press key, .release key]

theorem tap_runs (key : Key) : follow next start (tap key) =
    some ⟨key.breakCode.foldl keyboardFeedByte (key.makeCode.foldl keyboardFeedByte keyboardInit), []⟩ := by
  simp [tap, follow, next, start]

/-- A tap leaves nothing behind exactly when its break code is heard. -/
theorem tap_atRest (key : Key) :
    (key.breakCode.foldl keyboardFeedByte (key.makeCode.foldl keyboardFeedByte keyboardInit)).AtRest ↔
      key ≠ leftShift ∧ key ≠ rightCtrl ∧ ¬FakeAcknowledge key := by
  obtain ⟨hs, hc, he⟩ := Driver.modifiers_eq.mp (press_modifiers (d := keyboardInit) rfl key)
  obtain ⟨hs', hc', he'⟩ := Driver.modifiers_eq.mp (release_modifiers he key)
  rw [Driver.AtRest, hs', hc', he', hs, hc]
  have hls : leftShift ≠ rightShift ∧ leftShift ≠ leftCtrl ∧ leftShift ≠ rightCtrl ∧ leftShift ≠ .pause := by decide
  have hrc : rightCtrl ≠ rightShift ∧ rightCtrl ≠ leftCtrl ∧ rightCtrl ≠ leftShift ∧ rightCtrl ≠ .pause := by decide
  by_cases hl : key = leftShift
  · simp [hl, hls]
  by_cases hr : key = rightCtrl
  · simp [hr, hrc]
  simp +contextual [hl, hr, keyboardInit]

/-- As long as every break code is heard, the driver is at rest whenever no key is down. The
break codes that are not heard are exactly those a tap of which leaves something behind. -/
theorem modifiers_clear_at_rest (s : Typing) (key : Key) :
    (Reachable (· = start) HeardStep s → s.held = [] → s.driver.AtRest) ∧
    ((∃ s, follow next start (tap key) = some s ∧ s.held = [] ∧ s.driver.AtRest) ↔
      key ≠ leftShift ∧ key ≠ rightCtrl ∧ ¬FakeAcknowledge key) := by
  constructor
  · intro h hnone
    exact (tracked_of_heard h).atRest hnone
  · rw [← tap_atRest, tap_runs]
    simp

/-- The right Shift and the left Ctrl overlap, with an `a` typed under both. -/
def chord : List Event :=
  [.press rightShift, .press leftCtrl, .press (.plain ⟨0x1E, by decide⟩), .release rightShift, .read,
   .release (.plain ⟨0x1E, by decide⟩), .release leftCtrl]

theorem heardNext_step (s : Typing) (e : Event) (s' : Typing) (h : heardNext s e = some s') : HeardStep s s' := by
  unfold heardNext at h
  split at h
  · exact ⟨e, ‹_›, h⟩
  · cases h

theorem modifiers_clear_at_rest_chord :
    ∃ s, follow heardNext start chord = some s ∧ s.driver.input = [1] ∧ s.held = [] ∧ s.driver.AtRest := by
  have he : (follow heardNext start chord).map (fun s => (s.driver.input, s.held)) = some ([1], []) := by
    decide
  obtain ⟨s, hf, hs⟩ := Option.map_eq_some_iff.mp he
  obtain ⟨hi, hh⟩ := Prod.mk.inj hs
  have hreach : Reachable (· = start) HeardStep s := Reachable.follow heardNext_step (.start rfl) hf
  exact ⟨s, hf, hi, hh, (modifiers_clear_at_rest s leftCtrl).1 hreach hh⟩

/-- The left Shift is tapped: its break code 0xAA is taken for an acknowledgement. -/
theorem modifiers_stick :
    ¬∀ s, Reachable (· = start) Step s → s.held = [] → s.driver.AtRest := by
  intro hall
  have hreach : Reachable (· = start) Step _ :=
    Reachable.follow (f := next) (l := tap leftShift) (fun s e s' h => ⟨e, h⟩) (.start rfl) (tap_runs leftShift)
  have hrest := (tap_atRest leftShift).mp (hall _ hreach rfl)
  exact hrest.1 rfl

end SifarOS.Keyboard
