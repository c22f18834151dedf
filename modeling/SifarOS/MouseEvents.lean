import SifarOS.MouseButtons
import SifarOS.RingQueue

/-! # The events of the mouse driver

`kernel/dev/mouse.c` from the bytes of the controller to the events that `input_poll` delivers.
`mouse_feed_byte` puts packets together, `handle_packet` compares their buttons with those of the
last one, and a queue of 127 events that the keyboard uses too drops what it has no room for.
`handle_packet` itself is in `MouseButtons`. -/
namespace SifarOS.MouseEvents
open MouseButtons ReachableStates RingQueue

/-- The static data of the driver. -/
structure Driver where
  mouse : Mouse
  packet : Packet
  packetIndex : ℕ
  queue : Fin 128 → InputEvent
  head : Fin 128
  tail : Fin 128

/-- After `mouse_init`, whatever the cells of the queue hold. -/
def mouseInit (wheel : Bool) (queue : Fin 128 → InputEvent) : Driver where
  mouse := { cursorX := 0, cursorY := 0, boundW := 1024, boundH := 768, buttonState := 0,
             packetSize := if wheel then 4 else 3 }
  packet := ⟨0, 0, 0, 0⟩
  packetIndex := 0
  queue := queue
  head := first
  tail := first

namespace Driver

def push (d : Driver) (event : InputEvent) : Driver :=
  if next d.head = d.tail then d
  else { d with queue := Function.update d.queue d.head event, head := next d.head }

/-- The event of `input_push_key`. -/
def keyEvent (d : Driver) (key : UInt32) : InputEvent :=
  { kind := .key, key := key, x := d.mouse.cursorX, y := d.mouse.cursorY, buttons := d.mouse.buttonState }

def inputPushKey (d : Driver) (key : UInt32) : Driver := d.push (d.keyEvent key)

def inputPoll (d : Driver) : Driver × Option InputEvent :=
  if d.tail ≠ d.head then ({ d with tail := next d.tail }, some (d.queue d.tail)) else (d, none)

def mouseSetBounds (d : Driver) (width height : Int32) : Driver :=
  { d with mouse := { d.mouse with boundW := width, boundH := height, cursorX := width / 2, cursorY := height / 2 } }

end Driver

/-- A store to `packet[i]`. -/
def Packet.store (p : Packet) (i : ℕ) (byte : UInt8) : Packet :=
  match i with
  | 0 => { p with flags := byte }
  | 1 => { p with dx := byte }
  | 2 => { p with dy := byte }
  | _ => { p with z := byte }

namespace Driver

/-- The packet that is complete with this byte. -/
def completes (d : Driver) (byte : UInt8) : Option Packet :=
  if d.packetIndex = 0 ∧ byte &&& 0x08 = 0 then none
  else if d.packetIndex + 1 ≥ d.mouse.packetSize then some (Packet.store d.packet d.packetIndex byte)
  else none

def mouseFeedByte (d : Driver) (byte : UInt8) : Driver :=
  if d.packetIndex = 0 ∧ byte &&& 0x08 = 0 then d
  else
    let packet := Packet.store d.packet d.packetIndex byte
    if d.packetIndex + 1 ≥ d.mouse.packetSize then
      (handlePacket d.mouse packet).2.foldl push
        { d with packet := packet, packetIndex := 0, mouse := (handlePacket d.mouse packet).1 }
    else { d with packet := packet, packetIndex := d.packetIndex + 1 }

end Driver

/-- What the driver is asked to do. -/
inductive Act
  | byte (byte : UInt8)
  | key (key : UInt32)
  | poll
  | bounds (width height : Int32)
  deriving DecidableEq, Repr

namespace Driver

def run (d : Driver) : Act → Driver
  | .byte byte => d.mouseFeedByte byte
  | .key key => d.inputPushKey key
  | .poll => d.inputPoll.1
  | .bounds width height => d.mouseSetBounds width height

/-- The events that a step generates. -/
def generates (d : Driver) : Act → List InputEvent
  | .byte byte =>
    match d.completes byte with
    | some p => (handlePacket d.mouse p).2
    | none => []
  | .key key => [d.keyEvent key]
  | _ => []

/-- The events in the queue. -/
def pending (d : Driver) : List InputEvent := waiting d.queue d.head d.tail

/-- The event that a step delivers. -/
def delivers (d : Driver) : Act → List InputEvent
  | .poll => d.inputPoll.2.toList
  | _ => []

end Driver

/-- An event, and the bounds of the screen when it was generated. -/
structure Generated where
  event : InputEvent
  boundW : Int32
  boundH : Int32

/-- The driver, all events generated and all events delivered. -/
structure Session where
  driver : Driver
  generated : List Generated
  delivered : List InputEvent

def Session.next (s : Session) (a : Act) : Session where
  driver := s.driver.run a
  generated := s.generated ++ (s.driver.generates a).map fun e => ⟨e, s.driver.mouse.boundW, s.driver.mouse.boundH⟩
  delivered := s.delivered ++ s.driver.delivers a

/-- A screen has at least one pixel. -/
def Act.Proper : Act → Prop
  | .bounds width height => 0 < width ∧ 0 < height
  | _ => True

instance (a : Act) : Decidable a.Proper := by
  unfold Act.Proper
  split <;> infer_instance

/-- A press or a release of a button. -/
def isButton (e : InputEvent) : Bool := e.kind = .down ∨ e.kind = .up

/-- The presses and releases of one button. -/
def clicks (bit : UInt32) (events : List InputEvent) : List InputKind :=
  (events.filter fun e => isButton e ∧ e.button = bit.toInt32).map InputEvent.kind

/-- Presses and releases take turns, and a press is first. -/
def Alternate (kinds : List InputKind) : Prop := ∀ i k, kinds[i]? = some k → k = if i % 2 = 0 then .down else .up

/-- Every press and release that the step generates finds room in the queue. -/
def Heard (d : Driver) (a : Act) : Prop :=
  ∀ i e, (d.generates a)[i]? = some e → isButton e → d.pending.length + i < 127

def Session.Step (s s' : Session) : Prop := ∃ a, a.Proper ∧ s' = s.next a

def Session.HeardStep (s s' : Session) : Prop := ∃ a, a.Proper ∧ Heard s.driver a ∧ s' = s.next a

/-- After `mouse_init`. -/
def Booted (s : Session) : Prop := ∃ wheel queue, s = ⟨mouseInit wheel queue, [], []⟩

/-! ## The queue -/

section Queue
variable {d : Driver} {a : Act}

theorem length_pending (d : Driver) : d.pending.length ≤ 127 := by
  rw [Driver.pending, length_waiting]
  exact Nat.le_of_lt_succ (d.head - d.tail).isLt

theorem pending_push (d : Driver) (event : InputEvent) :
    (d.push event).pending = d.pending ++ [event].take (127 - d.pending.length) := by
  unfold Driver.push
  split
  · next hfull =>
    have hlen : d.pending.length = 127 := full_iff.mp hfull
    simp [hlen]
  · next hroom =>
    have hlen : d.pending.length ≠ 127 := fun hlen => hroom (full_iff.mpr hlen)
    have htake : [event].take (127 - d.pending.length) = [event] := by
      apply List.take_of_length_le
      have hle := length_pending d
      simp only [List.length_singleton]
      omega
    rw [htake]
    exact waiting_push hroom event

@[simp] theorem push_mouse (event : InputEvent) : (d.push event).mouse = d.mouse := by
  unfold Driver.push
  split <;> rfl

@[simp] theorem push_packetIndex (event : InputEvent) : (d.push event).packetIndex = d.packetIndex := by
  unfold Driver.push
  split <;> rfl

theorem foldl_push_fields (events : List InputEvent) : (events.foldl Driver.push d).mouse = d.mouse ∧
    (events.foldl Driver.push d).packetIndex = d.packetIndex := by
  induction events generalizing d with
  | nil => exact ⟨rfl, rfl⟩
  | cons e rest ih => simpa using ih (d := d.push e)

theorem pending_foldl_push (d : Driver) (events : List InputEvent) :
    (events.foldl Driver.push d).pending = d.pending ++ events.take (127 - d.pending.length) := by
  induction events generalizing d with
  | nil => simp
  | cons e rest ih =>
    rw [List.foldl_cons, ih, pending_push, List.append_assoc]
    congr 1
    cases hroom : 127 - d.pending.length with
    | zero =>
      have hle := length_pending d
      simp [show d.pending.length = 127 by omega]
    | succ k =>
      have hlen : 127 - (d.pending ++ [e].take (k + 1)).length = k := by
        simp only [List.length_append, List.take_succ_cons, List.take_nil, List.length_singleton]
        omega
      rw [hlen]
      simp

/-- A byte completes no packet, or it completes one that is handled at once. -/
theorem feed_cases (d : Driver) (byte : UInt8) :
    (d.completes byte = none ∧ (d.mouseFeedByte byte).mouse = d.mouse ∧ (d.mouseFeedByte byte).pending = d.pending) ∨
      ∃ p, d.completes byte = some p ∧ (d.mouseFeedByte byte).mouse = (handlePacket d.mouse p).1 ∧
        (d.mouseFeedByte byte).packetIndex = 0 ∧
        (d.mouseFeedByte byte).pending = d.pending ++ (handlePacket d.mouse p).2.take (127 - d.pending.length) := by
  unfold Driver.completes Driver.mouseFeedByte
  split
  · exact .inl ⟨rfl, rfl, rfl⟩
  · dsimp only
    split
    · refine .inr ⟨_, rfl, ?_, ?_, ?_⟩
      · exact (foldl_push_fields _).1
      · exact (foldl_push_fields _).2
      · exact pending_foldl_push _ _
    · exact .inl ⟨rfl, rfl, rfl⟩

/-- What is delivered is the head of the queue, and what is generated goes to its end as far as there is
room. -/
theorem delivers_run (d : Driver) (a : Act) :
    d.delivers a ++ (d.run a).pending = d.pending ++ (d.generates a).take (127 - d.pending.length) := by
  cases a with
  | byte byte =>
    rcases feed_cases d byte with ⟨hc, -, hp⟩ | ⟨p, hc, -, -, hp⟩
    · simp [Driver.delivers, Driver.run, Driver.generates, hc, hp]
    · simp [Driver.delivers, Driver.run, Driver.generates, hc, hp]
  | key key => exact pending_push d _
  | poll =>
    simp only [Driver.delivers, Driver.run, Driver.generates, Driver.inputPoll, List.take_nil, List.append_nil]
    split
    · next hne => exact (waiting_pop hne).symm
    · rfl
  | bounds width height => simp [Driver.delivers, Driver.run, Driver.generates, Driver.mouseSetBounds, Driver.pending]

theorem run_poll_mouse (d : Driver) : (d.run .poll).mouse = d.mouse := by
  simp only [Driver.run, Driver.inputPoll]
  split <;> rfl

end Queue

/-! ## Presses and releases -/

theorem alternate_concat {kinds : List InputKind} {k : InputKind} :
    Alternate (kinds ++ [k]) ↔ Alternate kinds ∧ k = if kinds.length % 2 = 0 then .down else .up := by
  constructor
  · intro h
    refine ⟨fun i k' hi => h i k' ?_, h kinds.length k (by simp)⟩
    obtain ⟨hlt, -⟩ := List.getElem?_eq_some_iff.mp hi
    rw [List.getElem?_append_left hlt, hi]
  · rintro ⟨h, hk⟩ i k' hi
    rcases lt_or_ge i kinds.length with hlt | hge
    · rw [List.getElem?_append_left hlt] at hi
      exact h i k' hi
    · rw [List.getElem?_append_right hge, List.getElem?_singleton] at hi
      split at hi
      · next hzero =>
        obtain rfl := Option.some.inj hi
        rw [show i = kinds.length by omega]
        exact hk
      · cases hi

theorem Alternate.left {kinds rest : List InputKind} (h : Alternate (kinds ++ rest)) : Alternate kinds := by
  intro i k hi
  obtain ⟨hlt, -⟩ := List.getElem?_eq_some_iff.mp hi
  exact h i k (by rw [List.getElem?_append_left hlt, hi])

theorem clicks_append (bit : UInt32) (l l' : List InputEvent) : clicks bit (l ++ l') = clicks bit l ++ clicks bit l' := by
  simp [clicks]

/-- The bits of the three buttons. -/
def bits : List UInt32 := [1, 2, 4]

/-- The driver takes the button to be down. -/
def Driver.holds (d : Driver) (bit : UInt32) : Bool := d.mouse.buttonState &&& bit ≠ 0

/-- What happens to a button between two packets. -/
def change (was now : Bool) : List InputKind :=
  if now ∧ ¬was then [.down] else if ¬now ∧ was then [.up] else []

theorem bits_cases {bit : UInt32} (h : bit ∈ bits) : bit = 1 ∨ bit = 2 ∨ bit = 4 := by simpa [bits] using h

theorem clicks_buttonEvent (event : InputEvent) (buttons state : UInt32) {bit bit' : UInt32} (hbit : bit ∈ bits)
    (hbit' : bit' ∈ bits) : clicks bit (buttonEvent event buttons state bit') =
      if bit' = bit then change (state &&& bit ≠ 0) (buttons &&& bit ≠ 0) else [] := by
  have hsame : bit'.toInt32 = bit.toInt32 ↔ bit' = bit := by
    rcases bits_cases hbit with rfl | rfl | rfl <;> rcases bits_cases hbit' with rfl | rfl | rfl <;> decide
  unfold buttonEvent change
  by_cases heq : bit' = bit
  · subst heq
    split_ifs <;> simp_all [clicks, isButton]
  · rw [if_neg heq]
    split_ifs <;> simp [clicks, isButton, hsame, heq]

theorem clicks_optional {P : Prop} [Decidable P] (bit : UInt32) {event : InputEvent} (h : isButton event = false) :
    clicks bit (if P then [event] else []) = [] := by
  split
  · simp [clicks, h]
  · rfl

theorem clicks_handlePacket (m : Mouse) (p : Packet) {bit : UInt32} (hbit : bit ∈ bits) :
    clicks bit (handlePacket m p).2 =
      change (m.buttonState &&& bit ≠ 0) ((handlePacket m p).1.buttonState &&& bit ≠ 0) := by
  have hstill : ∀ was, change was was = [] := by decide
  unfold handlePacket
  split
  · exact (hstill _).symm
  split
  · exact (hstill _).symm
  dsimp only
  have hone := fun event buttons state => clicks_buttonEvent event buttons state hbit (show (1 : UInt32) ∈ bits by decide)
  have htwo := fun event buttons state => clicks_buttonEvent event buttons state hbit (show (2 : UInt32) ∈ bits by decide)
  have hfour := fun event buttons state => clicks_buttonEvent event buttons state hbit (show (4 : UInt32) ∈ bits by decide)
  simp only [clicks_append, hone, htwo, hfour]
  rw [clicks_optional bit rfl, clicks_optional bit rfl]
  -- the three buttons have different bits
  have hcase := bits_cases hbit
  rcases hcase with rfl | rfl | rfl <;> simp

theorem clicks_generates (d : Driver) (a : Act) {bit : UInt32} (hbit : bit ∈ bits) :
    clicks bit (d.generates a) = change (d.holds bit) ((d.run a).holds bit) := by
  have hstill : ∀ was, change was was = [] := by decide
  cases a with
  | byte byte =>
    rcases feed_cases d byte with ⟨hc, hm, -⟩ | ⟨p, hc, hm, -⟩
    · simp only [Driver.generates, Driver.run, Driver.holds, hc, hm]
      exact (hstill _).symm
    · simp only [Driver.generates, Driver.run, Driver.holds, hc, hm]
      exact clicks_handlePacket _ _ hbit
  | key key =>
    simp only [Driver.generates, Driver.run, Driver.inputPushKey, Driver.holds, push_mouse]
    rw [hstill]
    simp [clicks, isButton, Driver.keyEvent]
  | poll =>
    simp only [Driver.generates, Driver.holds, run_poll_mouse]
    exact (hstill _).symm
  | bounds width height => exact (hstill _).symm

theorem alternate_change {kinds : List InputKind} {was : Bool} (h : Alternate kinds)
    (hlast : kinds.length % 2 = 1 ↔ was = true) (now : Bool) :
    Alternate (kinds ++ change was now) ∧ ((kinds ++ change was now).length % 2 = 1 ↔ now = true) := by
  cases was <;> cases now
  · exact ⟨by simpa [change] using h, by simpa [change] using hlast⟩
  · have heven : kinds.length % 2 = 0 := by simpa using hlast
    refine ⟨alternate_concat.mpr ⟨h, by simp [heven]⟩, ?_⟩
    simp [change]
    omega
  · have hodd : kinds.length % 2 = 1 := hlast.mpr rfl
    refine ⟨alternate_concat.mpr ⟨h, by simp [hodd]⟩, ?_⟩
    simp [change]
    omega
  · exact ⟨by simpa [change] using h, by simpa [change] using hlast⟩

/-- The presses and releases delivered and to be delivered take turns, and the last of them is what the
driver knows of the button. -/
structure Agrees (s : Session) (bit : UInt32) : Prop where
  turns : Alternate (clicks bit (s.delivered ++ s.driver.pending))
  last : (clicks bit (s.delivered ++ s.driver.pending)).length % 2 = 1 ↔ s.driver.holds bit = true

/-- What the step adds to the events delivered and to be delivered. -/
theorem clicks_next (s : Session) (a : Act) (bit : UInt32) :
    clicks bit ((s.next a).delivered ++ (s.next a).driver.pending) = clicks bit (s.delivered ++ s.driver.pending) ++
      clicks bit ((s.driver.generates a).take (127 - s.driver.pending.length)) := by
  simp only [Session.next]
  rw [List.append_assoc, delivers_run, ← List.append_assoc, clicks_append]

theorem clicks_take {d : Driver} {a : Act} (h : Heard d a) (bit : UInt32) :
    clicks bit ((d.generates a).take (127 - d.pending.length)) = clicks bit (d.generates a) := by
  have hrest : clicks bit ((d.generates a).drop (127 - d.pending.length)) = [] := by
    simp only [clicks, List.map_eq_nil_iff, List.filter_eq_nil_iff]
    intro e he hbutton
    obtain ⟨i, hi⟩ := List.mem_iff_getElem?.mp he
    rw [List.getElem?_drop] at hi
    have hroom := h _ e hi (of_decide_eq_true hbutton).1
    have hle := length_pending d
    omega
  conv_rhs => rw [← List.take_append_drop (127 - d.pending.length) (d.generates a)]
  rw [clicks_append, hrest, List.append_nil]

theorem Agrees.next {s : Session} {bit : UInt32} (h : Agrees s bit) (hbit : bit ∈ bits) {a : Act}
    (hheard : Heard s.driver a) : Agrees (s.next a) bit := by
  have hclicks := clicks_next s a bit
  rw [clicks_take hheard, clicks_generates s.driver a hbit] at hclicks
  obtain ⟨hturns, hlast⟩ := alternate_change h.turns h.last ((s.driver.run a).holds bit)
  exact ⟨by rw [hclicks]; exact hturns, by rw [hclicks]; exact hlast⟩

/-! ## What every run keeps -/

/-- The cursor is on the screen. -/
def Inside (x y boundW boundH : Int32) : Prop := (0 ≤ x ∧ x < boundW) ∧ 0 ≤ y ∧ y < boundH

theorem clamp_inside {bound : Int32} (h : 0 < bound) (v : Int32) : 0 ≤ clamp bound v ∧ clamp bound v < bound := by
  have hone : (1 : Int32).toInt = 1 := by decide
  have hzero : (0 : Int32).toInt = 0 := by decide
  have hsub := MachineInt.sub_cases bound 1
  have hrange := MachineInt.range bound
  unfold clamp
  simp only [Int32.lt_iff_toInt_lt, Int32.le_iff_toInt_le, gt_iff_lt, hone, hzero] at h hsub ⊢
  split_ifs <;> omega

theorem half_inside {bound : Int32} (h : 0 < bound) : 0 ≤ bound / 2 ∧ bound / 2 < bound := by
  have htwo : (2 : Int32).toInt = 2 := by decide
  have hzero : (0 : Int32).toInt = 0 := by decide
  have hdiv : (bound / 2).toInt = bound.toInt.tdiv 2 := by
    rw [Int32.toInt_div_of_ne_left, htwo]
    rintro rfl
    exact absurd h (by decide)
  simp only [Int32.lt_iff_toInt_lt, Int32.le_iff_toInt_le, hdiv, hzero] at h ⊢
  rw [Int.tdiv_eq_ediv_of_nonneg h.le]
  omega

/-- Events come out in the order in which they went in, and with the cursor on the screen. -/
structure Session.Sound (s : Session) : Prop where
  size : s.driver.mouse.packetSize = 3 ∨ s.driver.mouse.packetSize = 4
  bounds : 0 < s.driver.mouse.boundW ∧ 0 < s.driver.mouse.boundH
  cursor : Inside s.driver.mouse.cursorX s.driver.mouse.cursorY s.driver.mouse.boundW s.driver.mouse.boundH
  inside : ∀ g ∈ s.generated, Inside g.event.x g.event.y g.boundW g.boundH
  order : (s.delivered ++ s.driver.pending).Sublist (s.generated.map Generated.event)

theorem handlePacket_inside {m : Mouse} (p : Packet) (hb : 0 < m.boundW ∧ 0 < m.boundH)
    (hc : Inside m.cursorX m.cursorY m.boundW m.boundH) :
    (handlePacket m p).1.boundW = m.boundW ∧ (handlePacket m p).1.boundH = m.boundH ∧
      (handlePacket m p).1.packetSize = m.packetSize ∧
      Inside (handlePacket m p).1.cursorX (handlePacket m p).1.cursorY m.boundW m.boundH ∧
      ∀ e ∈ (handlePacket m p).2, Inside e.x e.y m.boundW m.boundH := by
  unfold handlePacket
  split
  · exact ⟨rfl, rfl, rfl, hc, by simp⟩
  split
  · exact ⟨rfl, rfl, rfl, hc, by simp⟩
  extract_lets dx dy wheel buttons x y event
  have hinside : Inside x y m.boundW m.boundH := ⟨clamp_inside hb.1 _, clamp_inside hb.2 _⟩
  clear_value dx dy wheel x y
  refine ⟨rfl, rfl, rfl, hinside, fun e he => ?_⟩
  have hbutton : ∀ bit, e ∈ buttonEvent event buttons m.buttonState bit → Inside e.x e.y m.boundW m.boundH := by
    intro bit he
    unfold buttonEvent at he
    split_ifs at he
    · obtain rfl := List.mem_singleton.mp he
      exact hinside
    · obtain rfl := List.mem_singleton.mp he
      exact hinside
    · cases he
  simp only [List.mem_append] at he
  rcases he with (((he | he) | he) | he) | he
  · rw [eq_of_mem_optional he]
    exact hinside
  · exact hbutton 1 he
  · exact hbutton 2 he
  · exact hbutton 4 he
  · rw [eq_of_mem_optional he]
    exact hinside

/-- One step, as far as the cursor is concerned. -/
theorem run_inside {d : Driver} (hb : 0 < d.mouse.boundW ∧ 0 < d.mouse.boundH)
    (hc : Inside d.mouse.cursorX d.mouse.cursorY d.mouse.boundW d.mouse.boundH) {a : Act} (ha : a.Proper) :
    (d.run a).mouse.packetSize = d.mouse.packetSize ∧ (0 < (d.run a).mouse.boundW ∧ 0 < (d.run a).mouse.boundH) ∧
      Inside (d.run a).mouse.cursorX (d.run a).mouse.cursorY (d.run a).mouse.boundW (d.run a).mouse.boundH ∧
      ∀ e ∈ d.generates a, Inside e.x e.y d.mouse.boundW d.mouse.boundH := by
  cases a with
  | byte byte =>
    rcases feed_cases d byte with ⟨hnone, hm, -⟩ | ⟨p, hsome, hm, -⟩
    · simp only [Driver.generates, Driver.run, hnone, hm]
      exact ⟨trivial, hb, hc, by simp⟩
    · simp only [Driver.generates, Driver.run, hsome, hm]
      obtain ⟨hw, hh, hsize, hcursor, hevents⟩ := handlePacket_inside p hb hc
      rw [hw, hh]
      exact ⟨hsize, hb, hcursor, hevents⟩
  | key key =>
    simp only [Driver.generates, Driver.run, Driver.inputPushKey, push_mouse]
    refine ⟨trivial, hb, hc, fun e he => ?_⟩
    obtain rfl := List.mem_singleton.mp he
    exact hc
  | poll =>
    rw [run_poll_mouse]
    exact ⟨rfl, hb, hc, by simp [Driver.generates]⟩
  | bounds width height =>
    exact ⟨rfl, ha, ⟨half_inside ha.1, half_inside ha.2⟩, by simp [Driver.generates]⟩

theorem Session.Sound.next {s : Session} (h : s.Sound) {a : Act} (ha : a.Proper) : (s.next a).Sound := by
  obtain ⟨hsize, hbounds, hcursor, hevents⟩ := run_inside h.bounds h.cursor ha
  refine ⟨?_, hbounds, hcursor, fun g hg => ?_, ?_⟩
  · change (s.driver.run a).mouse.packetSize = 3 ∨ (s.driver.run a).mouse.packetSize = 4
    rw [hsize]
    exact h.size
  · rcases List.mem_append.mp hg with hg | hg
    · exact h.inside g hg
    · obtain ⟨e, he, rfl⟩ := List.mem_map.mp hg
      exact hevents e he
  · simp only [Session.next]
    rw [List.append_assoc, delivers_run, ← List.append_assoc, List.map_append, List.map_map]
    apply h.order.append
    simpa [Function.comp_def] using List.take_sublist (127 - s.driver.pending.length) (s.driver.generates a)

theorem Booted.sound {s : Session} (h : Booted s) : s.Sound := by
  obtain ⟨wheel, queue, rfl⟩ := h
  have hempty : (mouseInit wheel queue).pending = [] := waiting_empty queue first
  refine ⟨?_, (by decide : (0 : Int32) < 1024 ∧ (0 : Int32) < 768),
    (by decide : ((0 : Int32) ≤ 0 ∧ (0 : Int32) < 1024) ∧ (0 : Int32) ≤ 0 ∧ (0 : Int32) < 768), by simp, ?_⟩
  · cases wheel
    · exact .inl rfl
    · exact .inr rfl
  · simp [hempty]

theorem Booted.agrees {s : Session} (h : Booted s) (bit : UInt32) : Agrees s bit := by
  obtain ⟨wheel, queue, rfl⟩ := h
  have hempty : (mouseInit wheel queue).pending = [] := waiting_empty queue first
  have hnone : (mouseInit wheel queue).holds bit = false := by simp [Driver.holds, mouseInit]
  refine ⟨fun i k hi => ?_, ?_⟩
  · simp [hempty, clicks] at hi
  · simp [hempty, hnone, clicks]

/-! ## A lost press or release is never made good -/

theorem mem_buttonEvent {event e : InputEvent} {buttons state bit : UInt32}
    (h : e ∈ buttonEvent event buttons state bit) : e.button = bit.toInt32 := by
  unfold buttonEvent at h
  split_ifs at h
  · rw [List.mem_singleton.mp h]
  · rw [List.mem_singleton.mp h]
  · cases h

theorem generates_button {d : Driver} {a : Act} {e : InputEvent} (he : e ∈ d.generates a) (hb : isButton e = true) :
    (d.run a).packetIndex = 0 ∧ ∃ bit ∈ bits, e.button = bit.toInt32 := by
  cases a with
  | byte byte =>
    rcases feed_cases d byte with ⟨hnone, -⟩ | ⟨p, hsome, -, hindex, -⟩
    · simp [Driver.generates, hnone] at he
    · refine ⟨hindex, ?_⟩
      simp only [Driver.generates, hsome] at he
      unfold handlePacket at he
      split at he
      · cases he
      split at he
      · cases he
      extract_lets dx dy wheel buttons x y event at he
      simp only [List.mem_append] at he
      rcases he with (((he | he) | he) | he) | he
      · rw [eq_of_mem_optional he] at hb
        cases hb
      · exact ⟨1, by decide, mem_buttonEvent he⟩
      · exact ⟨2, by decide, mem_buttonEvent he⟩
      · exact ⟨4, by decide, mem_buttonEvent he⟩
      · rw [eq_of_mem_optional he] at hb
        cases hb
  | key key =>
    obtain rfl := List.mem_singleton.mp he
    cases hb
  | poll => cases he
  | bounds width height => cases he

/-- The driver's idea of a button is not what has been or will be delivered. -/
def Astray (s : Session) (bit : UInt32) : Prop :=
  (clicks bit (s.delivered ++ s.driver.pending)).length % 2 = 1 ↔ s.driver.holds bit = false

/-- A step that loses a press or a release leads the driver astray. -/
theorem astray_of_lost {s : Session} {a : Act} (hagrees : ∀ bit ∈ bits, Agrees s bit) (h : ¬Heard s.driver a) :
    (s.next a).driver.packetIndex = 0 ∧ ∃ bit ∈ bits, Astray (s.next a) bit := by
  simp only [Heard, not_forall, not_lt] at h
  obtain ⟨i, e, hi, hbutton, hfull⟩ := h
  obtain ⟨hindex, bit, hbit, hsame⟩ := generates_button (List.mem_of_getElem? hi) hbutton
  refine ⟨hindex, bit, hbit, ?_⟩
  have hclicks := clicks_next s a bit
  have hsplit := clicks_generates s.driver a hbit
  rw [← List.take_append_drop (127 - s.driver.pending.length) (s.driver.generates a), clicks_append] at hsplit
  -- the event is among those without room
  have hdrop : clicks bit ((s.driver.generates a).drop (127 - s.driver.pending.length)) ≠ [] := by
    have hmem : e ∈ (s.driver.generates a).drop (127 - s.driver.pending.length) := by
      apply List.mem_of_getElem? (i := i - (127 - s.driver.pending.length))
      rw [List.getElem?_drop, Nat.add_sub_cancel' (by omega), hi]
    intro hnil
    simp only [clicks, List.map_eq_nil_iff, List.filter_eq_nil_iff] at hnil
    exact hnil e hmem (decide_eq_true ⟨hbutton, hsame⟩)
  have hlast := (hagrees bit hbit).last
  have hnow : (s.next a).driver.holds bit = (s.driver.run a).holds bit := rfl
  unfold Astray
  rw [hclicks, hnow]
  generalize clicks bit ((s.driver.generates a).take (127 - s.driver.pending.length)) = before at hsplit ⊢
  generalize clicks bit ((s.driver.generates a).drop (127 - s.driver.pending.length)) = after at hsplit hdrop
  have hturned : before = [] ∧ (s.driver.run a).holds bit = !s.driver.holds bit := by
    revert hsplit
    cases s.driver.holds bit <;> cases (s.driver.run a).holds bit <;>
      simp +contextual [change, List.append_eq_singleton_iff, hdrop]
  rw [hturned.1, List.append_nil, hlast, hturned.2]
  simp

section Continue
variable {init : Session → Prop} {s : Session} {bit : UInt32}

theorem heard_quiet {d : Driver} {a : Act} (h : d.generates a = []) : Heard d a := by
  intro i e hi
  simp [h] at hi

/-- The queue can always be emptied. -/
theorem drain (hs : Reachable init Session.HeardStep s) : ∃ t, Reachable init Session.HeardStep t ∧
    t.driver.pending = [] ∧ t.delivered = s.delivered ++ s.driver.pending ∧ t.driver.mouse = s.driver.mouse ∧
    t.driver.packetIndex = s.driver.packetIndex := by
  generalize hn : s.driver.pending = events
  induction events generalizing s with
  | nil => exact ⟨s, hs, hn, by simp, rfl, rfl⟩
  | cons e rest ih =>
    have hne : s.driver.tail ≠ s.driver.head := by
      intro heq
      rw [Driver.pending, heq, waiting_empty] at hn
      cases hn
    have hpoll : s.driver.inputPoll = ({ s.driver with tail := next s.driver.tail }, some (s.driver.queue s.driver.tail)) :=
      if_pos hne
    have hrun := delivers_run s.driver .poll
    simp only [Driver.delivers, hpoll, Option.toList_some, Driver.generates, List.take_nil, List.append_nil, hn,
      List.singleton_append, List.cons.injEq] at hrun
    obtain ⟨t, hreach, hempty, hdelivered, hmouse, hindex⟩ :=
      ih (s := s.next .poll) (.next hs ⟨.poll, trivial, heard_quiet rfl, rfl⟩) hrun.2
    refine ⟨t, hreach, hempty, ?_, ?_, ?_⟩
    · rw [hdelivered]
      simp [Session.next, Driver.delivers, hpoll, hrun.1]
    · rw [hmouse]
      simp [Session.next, Driver.run, hpoll]
    · rw [hindex]
      simp [Session.next, Driver.run, hpoll]

/-- A byte of a packet, but not the last one. -/
theorem feed_more {d : Driver} {byte : UInt8} (hsync : d.packetIndex = 0 → byte &&& 0x08 ≠ 0)
    (hmore : d.packetIndex + 1 < d.mouse.packetSize) : d.generates (.byte byte) = [] ∧
      d.run (.byte byte) = { d with packet := Packet.store d.packet d.packetIndex byte, packetIndex := d.packetIndex + 1 } := by
  have hskip : ¬(d.packetIndex = 0 ∧ byte &&& 0x08 = 0) := fun h => hsync h.1 h.2
  constructor
  · simp [Driver.generates, Driver.completes, hskip, not_le.mpr hmore]
  · simp [Driver.run, Driver.mouseFeedByte, hskip, not_le.mpr hmore]

/-- The last byte of a packet. -/
theorem feed_last {d : Driver} {byte : UInt8} (hindex : d.packetIndex ≠ 0)
    (hlast : d.mouse.packetSize ≤ d.packetIndex + 1) : d.completes byte = some (Packet.store d.packet d.packetIndex byte) := by
  simp [Driver.completes, hindex, hlast]

theorem reach_more (hs : Reachable init Session.HeardStep s) {byte : UInt8}
    (hsync : s.driver.packetIndex = 0 → byte &&& 0x08 ≠ 0) (hmore : s.driver.packetIndex + 1 < s.driver.mouse.packetSize) :
    ∃ t, Reachable init Session.HeardStep t ∧ t.delivered = s.delivered ∧
      t.driver = { s.driver with packet := Packet.store s.driver.packet s.driver.packetIndex byte,
                                 packetIndex := s.driver.packetIndex + 1 } := by
  obtain ⟨hquiet, hrun⟩ := feed_more hsync hmore
  exact ⟨s.next (.byte byte), .next hs ⟨.byte byte, trivial, heard_quiet hquiet, rfl⟩, by simp [Session.next, Driver.delivers], hrun⟩

theorem length_handlePacket (m : Mouse) (p : Packet) : (handlePacket m p).2.length ≤ 5 := by
  have hone : ∀ (event : InputEvent) (buttons state bit : UInt32), (buttonEvent event buttons state bit).length ≤ 1 := by
    intro event buttons state bit
    unfold buttonEvent
    split_ifs <;> simp
  have hoptional : ∀ (P : Prop) [Decidable P] (event : InputEvent), (if P then [event] else []).length ≤ 1 := by
    intro P _ event
    split <;> simp
  unfold handlePacket
  split
  · simp
  split
  · simp
  extract_lets dx dy wheel buttons x y event
  have h₁ := hone event buttons m.buttonState 1
  have h₂ := hone event buttons m.buttonState 2
  have h₃ := hone event buttons m.buttonState 4
  have h₄ := hoptional (dx ≠ 0 ∨ dy ≠ 0) event
  have h₅ := hoptional (wheel ≠ 0) { event with kind := .wheel, wheel := wheel }
  simp only [List.length_append]
  omega

/-- With nothing in its way, a packet arrives whole. -/
theorem feed_packet (hs : Reachable init Session.HeardStep s) (hsize : s.driver.mouse.packetSize = 3 ∨ s.driver.mouse.packetSize = 4)
    (hindex : s.driver.packetIndex = 0) (hempty : s.driver.pending = []) {flags : UInt8} (hsync : flags &&& 0x08 ≠ 0) :
    ∃ t, Reachable init Session.HeardStep t ∧ t.delivered = s.delivered ∧ ∃ p : Packet, p.flags = flags ∧
      t.driver.mouse = (handlePacket s.driver.mouse p).1 ∧ t.driver.pending = (handlePacket s.driver.mouse p).2 := by
  -- all bytes but the last one
  have hbegun : ∃ t, Reachable init Session.HeardStep t ∧ t.delivered = s.delivered ∧ t.driver.packet.flags = flags ∧
      t.driver.mouse = s.driver.mouse ∧ t.driver.pending = [] ∧ t.driver.packetIndex + 1 = s.driver.mouse.packetSize ∧
      t.driver.packetIndex ≠ 0 := by
    obtain ⟨t₁, h₁, hd₁, ht₁⟩ := reach_more hs (fun _ => hsync) (by omega)
    have hsync₁ : t₁.driver.packetIndex = 0 → (0 : UInt8) &&& 0x08 ≠ 0 := by simp [ht₁, hindex]
    obtain ⟨t₂, h₂, hd₂, ht₂⟩ := reach_more h₁ hsync₁ (by simp [ht₁, hindex]; omega)
    rw [ht₁, hindex] at ht₂
    rcases hsize with hsize | hsize
    · refine ⟨t₂, h₂, hd₂.trans hd₁, ?_, ?_, ?_, ?_, ?_⟩ <;> simp [ht₂, Packet.store, hsize]
      exact hempty
    · have hsync₂ : t₂.driver.packetIndex = 0 → (0 : UInt8) &&& 0x08 ≠ 0 := by simp [ht₂]
      obtain ⟨t₃, h₃, hd₃, ht₃⟩ := reach_more h₂ hsync₂ (by simp [ht₂, hsize])
      rw [ht₂] at ht₃
      refine ⟨t₃, h₃, hd₃.trans (hd₂.trans hd₁), ?_, ?_, ?_, ?_, ?_⟩ <;> simp [ht₃, Packet.store, hsize]
      exact hempty
  obtain ⟨t, ht, hdelivered, hflags, hmouse, hnone, hlast, hne⟩ := hbegun
  have hcompletes : t.driver.completes 0 = some (Packet.store t.driver.packet t.driver.packetIndex 0) :=
    feed_last hne (by rw [hmouse]; omega)
  generalize hp : Packet.store t.driver.packet t.driver.packetIndex 0 = p at hcompletes
  have hpflags : p.flags = flags := by
    rw [← hp, ← hflags]
    unfold Packet.store
    split
    · next hzero => exact absurd hzero hne
    · rfl
    · rfl
    · rfl
  rcases feed_cases t.driver 0 with ⟨hnot, -⟩ | ⟨p', hp', hm, -, hpending⟩
  · cases hnot.symm.trans hcompletes
  · obtain rfl := Option.some.inj (hp'.symm.trans hcompletes)
    have hlength := length_handlePacket t.driver.mouse p'
    have hgenerates : t.driver.generates (.byte 0) = (handlePacket t.driver.mouse p').2 := by
      simp [Driver.generates, hp']
    have hheard : Heard t.driver (.byte 0) := by
      intro i e hi _
      obtain ⟨hlt, -⟩ := List.getElem?_eq_some_iff.mp hi
      rw [hgenerates] at hlt
      rw [hnone]
      simp only [List.length_nil]
      omega
    refine ⟨t.next (.byte 0), .next ht ⟨.byte 0, trivial, hheard, rfl⟩, ?_, p', hpflags, ?_, ?_⟩
    · simp [Session.next, Driver.delivers, hdelivered]
    · exact hmouse ▸ hm
    · change (t.driver.mouseFeedByte 0).pending = _
      rw [hpending, hnone, hmouse, List.nil_append, List.take_of_length_le]
      rw [← hmouse]
      simp only [List.length_nil]
      omega

/-- The flags of a packet that turns one button, the first byte of which is as the driver wants it. -/
def turning (bit : UInt32) (down : Bool) : UInt8 := 0x08 ||| if down then bit.toUInt8 else 0

theorem holds_turning (m : Mouse) {p : Packet} {down : Bool} (hbit : bit ∈ bits) (hp : p.flags = turning bit down) :
    decide ((handlePacket m p).1.buttonState &&& bit ≠ 0) = down := by
  have hturned : turning bit down &&& 0x08 ≠ 0 ∧ turning bit down &&& 0xC0 = 0 ∧
      decide (mask (turning bit down &&& 0x01 ≠ 0) (turning bit down &&& 0x02 ≠ 0) (turning bit down &&& 0x04 ≠ 0) &&& bit ≠ 0) = down := by
    clear hp
    rcases bits_cases hbit with rfl | rfl | rfl <;> cases down <;> decide
  obtain ⟨hsync, hoverflow, hdown⟩ := hturned
  rw [← hp] at hsync hoverflow hdown
  unfold handlePacket
  rw [if_neg hsync, if_neg (not_not.mpr hoverflow)]
  exact hdown

/-- Once astray, the driver delivers two presses or two releases in a row. -/
theorem astray_breaks (hs : Reachable init Session.HeardStep s) (hsize : s.driver.mouse.packetSize = 3 ∨ s.driver.mouse.packetSize = 4)
    (hindex : s.driver.packetIndex = 0) (hbit : bit ∈ bits) (hastray : Astray s bit) :
    ∃ t, Reachable init Session.HeardStep t ∧ ¬Alternate (clicks bit t.delivered) := by
  obtain ⟨t₁, h₁, hempty, hdelivered₁, hmouse, hindex₁⟩ := drain hs
  have hsync : turning bit (!s.driver.holds bit) &&& 0x08 ≠ 0 := by
    generalize (!s.driver.holds bit) = down
    clear hastray
    rcases bits_cases hbit with rfl | rfl | rfl <;> cases down <;> decide
  obtain ⟨t₂, h₂, hdelivered₂, p, hp, -, hpending⟩ :=
    feed_packet h₁ (by rw [hmouse]; exact hsize) (hindex₁.trans hindex) hempty hsync
  obtain ⟨t₃, h₃, -, hdelivered₃, -⟩ := drain h₂
  refine ⟨t₃, h₃, fun halternate => ?_⟩
  rw [hdelivered₃, hdelivered₂, hdelivered₁, hpending, clicks_append, clicks_handlePacket _ _ hbit,
    holds_turning _ hbit hp, hmouse] at halternate
  unfold Astray at hastray
  unfold Driver.holds at hastray halternate
  cases hheld : decide (s.driver.mouse.buttonState &&& bit ≠ 0) with
  | false =>
    rw [hheld] at hastray halternate
    have hodd := hastray.mpr rfl
    have hnext := (alternate_concat.mp halternate).2
    simp [hodd] at hnext
  | true =>
    rw [hheld] at hastray halternate
    have heven : (clicks bit (s.delivered ++ s.driver.pending)).length % 2 = 0 := by simpa using hastray
    have hnext := (alternate_concat.mp halternate).2
    simp [heven] at hnext

end Continue

theorem Session.HeardStep.step {s t : Session} (h : s.HeardStep t) : s.Step t := by
  obtain ⟨a, ha, -, rfl⟩ := h
  exact ⟨a, ha, rfl⟩

theorem reachable_sound {s : Session} (h : Reachable Booted Session.Step s) : s.Sound := by
  refine h.invariant (fun _ h => h.sound) ?_
  rintro s _ h ⟨a, ha, rfl⟩
  exact h.next ha

theorem reachable_agrees {init : Session → Prop} (h0 : ∀ s, init s → ∀ bit ∈ bits, Agrees s bit) {s : Session}
    (h : Reachable init Session.HeardStep s) : ∀ bit ∈ bits, Agrees s bit := by
  refine h.invariant h0 ?_
  rintro s _ h ⟨a, -, hheard, rfl⟩ bit hbit
  exact (h bit hbit).next hbit hheard

theorem Agrees.alternate {s : Session} {bit : UInt32} (h : Agrees s bit) : Alternate (clicks bit s.delivered) := by
  have hall := h.turns
  rw [clicks_append] at hall
  exact hall.left

/-- In every run, events come out of the queue in the order in which they were generated, and each was
generated with the cursor on the screen. In every run that finds room for every press and release, those of
each button take turns and a press is first; and the first step that finds no room for one leads to a
state from which they come to be out of turn. -/
theorem button_events_alternate {s : Session} (h : Reachable Booted Session.Step s) :
    (s.delivered.Sublist (s.generated.map Generated.event) ∧
      ∀ g ∈ s.generated, Inside g.event.x g.event.y g.boundW g.boundH) ∧
    (Reachable Booted Session.HeardStep s → (∀ bit ∈ bits, Alternate (clicks bit s.delivered)) ∧
      ∀ a, a.Proper → (Heard s.driver a ↔
        ∀ t, Reachable (· = s.next a) Session.HeardStep t → ∀ bit ∈ bits, Alternate (clicks bit t.delivered))) := by
  obtain ⟨hsize, -, -, hinside, horder⟩ := reachable_sound h
  refine ⟨⟨(List.sublist_append_left _ _).trans horder, hinside⟩, fun hs => ?_⟩
  have hnow := reachable_agrees (fun _ h bit _ => h.agrees bit) hs
  refine ⟨fun bit hbit => (hnow bit hbit).alternate, fun a ha => ⟨fun hheard t ht bit hbit => ?_, fun hall => ?_⟩⟩
  · refine (reachable_agrees (fun s' h bit hbit => ?_) ht bit hbit).alternate
    rw [h]
    exact (hnow bit hbit).next hbit hheard
  · by_contra hnot
    obtain ⟨hindex, bit, hbit, hastray⟩ := astray_of_lost hnow hnot
    have hstart : Reachable (· = s.next a) Session.HeardStep (s.next a) := .start rfl
    obtain ⟨t, ht, hbroken⟩ := astray_breaks hstart ((reachable_sound h).next ha).size hindex hbit hastray
    exact hbroken (hall t ht bit hbit)

theorem reachable_foldl {s : Session} (hs : Reachable Booted Session.Step s) {acts : List Act}
    (h : ∀ a ∈ acts, a.Proper) : Reachable Booted Session.Step (acts.foldl Session.next s) := by
  induction acts generalizing s with
  | nil => exact hs
  | cons a rest ih =>
    exact ih (.next hs ⟨a, h a List.mem_cons_self, rfl⟩) fun b hb => h b (List.mem_cons_of_mem _ hb)

/-- The driver after its initialisation, without a wheel and with nothing in the queue's cells. -/
def fresh : Session := ⟨mouseInit false fun _ => { kind := .key }, [], []⟩

theorem booted_fresh : Booted fresh := ⟨false, _, rfl⟩

/-- The left button is pressed while the mouse moves, and the events are taken. -/
def pressed : List Act := [.byte 0x09, .byte 5, .byte 0, .poll, .poll]

theorem button_events_alternate_pressed : clicks 1 (pressed.foldl Session.next fresh).delivered = [.down] ∧
    ∀ g ∈ (pressed.foldl Session.next fresh).generated, Inside g.event.x g.event.y g.boundW g.boundH :=
  ⟨by decide, (button_events_alternate (reachable_foldl (.start booted_fresh) (by decide))).1.2⟩

/-- The queue is full of keys when the left button goes down; it is emptied before the button comes up. -/
def crowded : List Act :=
  List.replicate 127 (.key 97) ++ [.byte 0x09, .byte 0, .byte 0] ++ List.replicate 127 .poll ++
    [.byte 0x08, .byte 0, .byte 0, .poll]

/-- The first event of the button is a release. -/
theorem release_first : ∃ s, Reachable Booted Session.Step s ∧ clicks 1 s.delivered = [.up] ∧
    ¬Alternate (clicks 1 s.delivered) := by
  have hproper : ∀ a ∈ crowded, a.Proper := by decide +kernel
  have hclicks : clicks 1 (crowded.foldl Session.next fresh).delivered = [.up] := by decide +kernel
  refine ⟨_, reachable_foldl (.start booted_fresh) hproper, hclicks, fun h => ?_⟩
  rw [hclicks] at h
  cases h 0 .up rfl

end SifarOS.MouseEvents
