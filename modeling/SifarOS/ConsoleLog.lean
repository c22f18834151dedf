import SifarOS.ByteMemory
import SifarOS.RingHistory

/-! # The kernel log

The output half of `kernel/dev/console.c`. Every character goes to the log, a ring of 64 KiB, and
to the devices that are there; what a device was handed is a list. -/
namespace SifarOS.ConsoleLog
open ByteMemory RingHistory

def klogSize : ℕ := 65536

/-- The static variables of the console, and its devices. -/
structure Console where
  klog : ℕ → UInt8
  klogHead : ℕ
  haveSerial : Bool
  haveVgaText : Bool
  screenEnabled : Bool
  fbconReady : Bool
  serial : List UInt8
  vga : List UInt8
  fbcon : List UInt8

/-- Before the first character. -/
def start : Console where
  klog := fun _ => 0
  klogHead := 0
  haveSerial := false
  haveVgaText := false
  screenEnabled := true
  fbconReady := false
  serial := []
  vga := []
  fbcon := []

def klogPutc (con : Console) (c : UInt8) : Console :=
  { con with
    klog := Function.update con.klog (con.klogHead % klogSize) c
    klogHead := u32 (con.klogHead + 1) }

def available (con : Console) : ℕ := if con.klogHead < klogSize then con.klogHead else klogSize

def oldest (con : Console) : ℕ := if con.klogHead < klogSize then 0 else con.klogHead % klogSize

/-- The loop of `console_log_read`, with `count - i` characters to go. -/
def readLoop (con : Console) (skip : ℕ) : ℕ → ℕ → (ℕ → UInt8) → ℕ → UInt8
  | 0, _, buffer => buffer
  | left + 1, i, buffer =>
    readLoop con skip left (i + 1) (Function.update buffer i (con.klog (u32 (oldest con + skip + i) % klogSize)))

/-- The buffer after `console_log_read`, and what it returns. -/
def consoleLogRead (con : Console) (buffer : ℕ → UInt8) (size : ℕ) : (ℕ → UInt8) × ℕ :=
  let count := if available con < size then available con else size
  (readLoop con (available con - count) count 0 buffer, count)

def consolePutc (con : Console) (c : UInt8) : Console :=
  let con := klogPutc con c
  let con := if con.haveSerial then { con with serial := con.serial ++ [c] } else con
  if !con.screenEnabled then con
  else if con.haveVgaText then { con with vga := con.vga ++ [c] }
  else if con.fbconReady then { con with fbcon := con.fbcon ++ [c] }
  else con

/-- The loop of `console_attach_screen`, with `available - i` characters to go. -/
def replayLoop (con : Console) : ℕ → ℕ → List UInt8
  | 0, _ => []
  | left + 1, i => con.klog (u32 (oldest con + i) % klogSize) :: replayLoop con left (i + 1)

def consoleAttachScreen (con : Console) : Console :=
  { con with fbcon := con.fbcon ++ replayLoop con (available con) 0 }

def consoleInit (con : Console) (textMode : Bool) : Console :=
  { con with haveSerial := true, haveVgaText := textMode }

/-- `fbcon_disable` belongs to a disabled screen. -/
def consoleSetScreenOutput (con : Console) (enabled : Bool) : Console :=
  { con with screenEnabled := enabled, fbconReady := con.fbconReady && enabled }

/-- What happens to the console. -/
inductive Use
  | init (textMode : Bool)
  | putc (c : UInt8)
  | attachScreen
  | setScreenOutput (enabled : Bool)
  /-- The framebuffer console comes up. -/
  | fbconInit
  deriving DecidableEq, Repr

def Console.use (con : Console) : Use → Console
  | .init textMode => consoleInit con textMode
  | .putc c => consolePutc con c
  | .attachScreen => consoleAttachScreen con
  | .setScreenOutput enabled => consoleSetScreenOutput con enabled
  | .fbconInit => { con with fbconReady := true }

/-- The character a use writes. -/
def Use.char : Use → Option UInt8
  | .putc c => some c
  | _ => none

/-- The characters written with `console_putc`. -/
def written (uses : List Use) : List UInt8 := uses.filterMap Use.char

/-! ## The ring holds the last characters -/

/-- The console after `text` was written. -/
structure Logged (con : Console) (text : List UInt8) : Prop where
  head : con.klogHead = u32 text.length
  kept : Kept klogSize (· % klogSize) con.klog text

variable {con : Console} {text : List UInt8}

theorem u32_mod_klogSize (n : ℕ) : u32 n % klogSize = n % klogSize := by
  unfold u32 klogSize
  omega

theorem logged_start : Logged start [] := ⟨rfl, Kept.nil _ _ _⟩

theorem Logged.klogPutc (h : Logged con text) (c : UInt8) : Logged (klogPutc con c) (text ++ [c]) where
  head := by
    show u32 (con.klogHead + 1) = _
    rw [h.head, List.length_append, List.length_singleton]
    unfold u32
    omega
  kept := by
    have hk := h.kept.push (apart_mod klogSize) c
    rwa [← u32_mod_klogSize, ← h.head] at hk

/-- The devices see the character too, and the log is not theirs. -/
theorem consolePutc_klog (con : Console) (c : UInt8) :
    (consolePutc con c).klog = (klogPutc con c).klog ∧ (consolePutc con c).klogHead = (klogPutc con c).klogHead := by
  unfold consolePutc
  dsimp only
  (repeat' split) <;> exact ⟨rfl, rfl⟩

theorem Logged.consolePutc (h : Logged con text) (c : UInt8) : Logged (consolePutc con c) (text ++ [c]) := by
  obtain ⟨hklog, hhead⟩ := consolePutc_klog con c
  have hp := h.klogPutc c
  exact ⟨hhead.trans hp.head, hklog ▸ hp.kept⟩

/-- What leaves the log alone writes no character. -/
theorem Logged.of_klog (h : Logged con text) {con' : Console} (hklog : con'.klog = con.klog)
    (hhead : con'.klogHead = con.klogHead) : Logged con' (text ++ []) := by
  rw [List.append_nil]
  exact ⟨hhead.trans h.head, hklog ▸ h.kept⟩

theorem Logged.use (h : Logged con text) (u : Use) : Logged (con.use u) (text ++ u.char.toList) := by
  cases u with
  | putc c => exact h.consolePutc c
  | init textMode => exact h.of_klog rfl rfl
  | attachScreen => exact h.of_klog rfl rfl
  | setScreenOutput enabled => exact h.of_klog rfl rfl
  | fbconInit => exact h.of_klog rfl rfl

theorem Logged.uses (h : Logged con text) (uses : List Use) :
    Logged (uses.foldl Console.use con) (text ++ written uses) := by
  induction uses generalizing con text with
  | nil => simpa [written] using h
  | cons u uses ih =>
    have hu := ih (h.use u)
    cases hc : u.char <;> simpa [written, hc] using hu

theorem logged_uses (uses : List Use) : Logged (uses.foldl Console.use start) (written uses) :=
  logged_start.uses uses

/-! ## Reading it back -/

theorem readLoop_apply (con : Console) (skip left i : ℕ) (buffer : ℕ → UInt8) (j : ℕ) :
    readLoop con skip left i buffer j =
      if i ≤ j ∧ j < i + left then con.klog (u32 (oldest con + skip + j) % klogSize) else buffer j := by
  induction left generalizing i buffer with
  | zero => rw [readLoop, if_neg (by omega)]
  | succ left ih =>
    rw [readLoop, ih]
    rcases Nat.lt_trichotomy j i with hlt | rfl | hgt
    · rw [if_neg (by omega), if_neg (by omega), Function.update_of_ne (by omega)]
    · rw [if_neg (by omega), if_pos (by omega), Function.update_self]
    · rw [Function.update_of_ne (by omega)]
      exact if_congr (by omega) rfl rfl

theorem replayLoop_eq (con : Console) (left i : ℕ) :
    replayLoop con left i = (List.range' i left).map fun j => con.klog (u32 (oldest con + j) % klogSize) := by
  induction left generalizing i with
  | zero => rfl
  | succ left ih => rw [replayLoop, ih, List.range'_succ, List.map_cons]

/-- Where the counter shows `h` characters, index `j` of the log is the character that many before
the last one. -/
theorem Logged.read (h : Logged con text) {j : ℕ} (hj : j < available con) :
    text[text.length - available con + j]? = some (con.klog (u32 (oldest con + j) % klogSize)) := by
  have hn : available con ≤ text.length ∧ available con ≤ klogSize ∧
      (oldest con + j) % klogSize = (text.length - available con + j) % klogSize := by
    unfold available oldest klogSize at *
    rw [h.head]
    unfold u32
    split <;> omega
  have hk := h.kept (text.length - available con + j) (by omega) (by omega)
  rw [hk, u32_mod_klogSize, hn.2.2]

/-- The call with a buffer of `size` bytes returns the last characters of `text`. -/
structure LogTail (text : List UInt8) (size : ℕ) (buffer : ℕ → UInt8) (result : (ℕ → UInt8) × ℕ) : Prop where
  count : result.2 = min size (min text.length klogSize)
  chars : ∀ j < result.2, text[text.length - result.2 + j]? = some (result.1 j)
  rest : ∀ j, result.2 ≤ j → result.1 j = buffer j

theorem Logged.available_eq (h : Logged con text) : available con = min (text.length % 4294967296) klogSize := by
  unfold available
  rw [h.head]
  unfold u32
  split <;> omega

theorem consoleLogRead_count (con : Console) (buffer : ℕ → UInt8) (size : ℕ) :
    (consoleLogRead con buffer size).2 = min (available con) size := by
  unfold consoleLogRead
  dsimp only
  split <;> omega

theorem consoleLogRead_buffer (con : Console) (buffer : ℕ → UInt8) (size j : ℕ) :
    (consoleLogRead con buffer size).1 j =
      if j < min (available con) size then
        con.klog (u32 (oldest con + (available con - min (available con) size + j)) % klogSize)
      else buffer j := by
  have hread : (consoleLogRead con buffer size).1 = readLoop con
      (available con - (consoleLogRead con buffer size).2) (consoleLogRead con buffer size).2 0 buffer := rfl
  rw [hread, readLoop_apply, consoleLogRead_count, Nat.add_assoc]
  exact if_congr (by omega) rfl rfl

theorem Logged.logTail_iff (h : Logged con text) (buffer : ℕ → UInt8) (size : ℕ) :
    LogTail text size buffer (consoleLogRead con buffer size) ↔
      text.length < 4294967296 ∨ min size klogSize ≤ text.length % 4294967296 := by
  have ha := h.available_eq
  constructor
  · intro ht
    have hcount := ht.count
    rw [consoleLogRead_count] at hcount
    omega
  · intro hok
    refine ⟨?_, fun j hj => ?_, fun j hj => ?_⟩
    · rw [consoleLogRead_count]
      omega
    · rw [consoleLogRead_count] at hj ⊢
      rw [consoleLogRead_buffer, if_pos hj,
        ← h.read (j := available con - min (available con) size + j) (by omega)]
      congr 1
      omega
    · rw [consoleLogRead_count] at hj
      rw [consoleLogRead_buffer, if_neg (by omega)]

/-- The screen is shown what the log holds. -/
theorem Logged.attachScreen (h : Logged con text) :
    (consoleAttachScreen con).fbcon = con.fbcon ++ text.drop (text.length - available con) := by
  have ha := h.available_eq
  show con.fbcon ++ replayLoop con (available con) 0 = _
  congr 1
  rw [replayLoop_eq]
  apply List.ext_getElem?
  intro j
  rcases Nat.lt_or_ge j (available con) with hj | hj
  · rw [List.getElem?_drop, h.read hj]
    simp [hj]
  · rw [List.getElem?_eq_none (by simpa using hj), List.getElem?_eq_none]
    rw [List.length_drop]
    omega

/-- The kernel log is the tail of the output, until the counter has wrapped to a number of
characters smaller than the reader could be given. -/
theorem log_is_tail_iff (uses : List Use) (buffer : ℕ → UInt8) (size : ℕ) :
    LogTail (written uses) size buffer (consoleLogRead (uses.foldl Console.use start) buffer size) ↔
      (written uses).length < 4294967296 ∨ min size klogSize ≤ (written uses).length % 4294967296 :=
  (logged_uses uses).logTail_iff buffer size

/-- Four gigabytes of output. -/
def wrapping : List Use := List.replicate 4294967296 (.putc 65)

theorem written_wrapping : written wrapping = List.replicate 4294967296 65 := List.filterMap_replicate_of_some rfl

/-- The character that makes the counter wrap empties the log. -/
theorem log_lost_at_wrap :
    ¬LogTail (written wrapping) 1 (fun _ => 0) (consoleLogRead (wrapping.foldl Console.use start) (fun _ => 0) 1) := by
  intro h
  have hwrapped := ((logged_uses wrapping).logTail_iff (fun _ => 0) 1).mp h
  rw [written_wrapping, List.length_replicate] at hwrapped
  exact absurd hwrapped (by decide)

end SifarOS.ConsoleLog
