import SifarOS.ClientFlags

/-! # Mouse buttons, from the packet to the application

`handle_packet` of the mouse driver turns packets into input events, the compositor takes these one
by one out of a queue, and a press or release goes to the window that is under the cursor then, or
to none. An application has seen a button go down until it sees one come up. -/
namespace SifarOS.MouseButtons
open Graphics WindowServer WindowStacking WindowEdits WindowGeometry WindowMessages WindowFocus ClientFlags
open ReachableStates

/-- The bytes of a packet; the fourth is used when the wheel is enabled. -/
structure Packet where
  flags : UInt8
  dx : UInt8
  dy : UInt8
  z : UInt8
  deriving DecidableEq, Repr

inductive InputKind | move | down | up | wheel | key deriving DecidableEq, Repr

/-- `struct input_event`. -/
structure InputEvent where
  kind : InputKind
  x : Int32 := 0
  y : Int32 := 0
  dx : Int32 := 0
  dy : Int32 := 0
  buttons : UInt32 := 0
  button : Int32 := 0
  wheel : Int32 := 0
  key : UInt32 := 0
  deriving DecidableEq, Repr

/-- The driver's variables, its counters for debugging apart. -/
structure Mouse where
  cursorX : Int32
  cursorY : Int32
  boundW : Int32
  boundH : Int32
  buttonState : UInt32
  packetSize : ℕ
  deriving DecidableEq, Repr

/-- `MOUSE_LEFT`, `MOUSE_RIGHT` and `MOUSE_MIDDLE`, as far as they are down. -/
def mask (left right middle : Bool) : UInt32 :=
  (if left then 1 else 0) ||| (if right then 2 else 0) ||| (if middle then 4 else 0)

/-- A movement byte with its sign bit, which is in the first byte of the packet. -/
def movement (negative : Bool) (v : UInt8) : Int32 :=
  (if negative then v.toUInt32 ||| 0xFFFFFF00 else v.toUInt32).toInt32

/-- The four low bits of the last byte, as a signed number. -/
def wheelSteps (z : UInt8) : Int32 :=
  let z := z &&& 0x0F
  let steps := if z &&& 0x08 ≠ 0 then z ||| 0xF0 else z
  Neg.neg steps.toInt8.toInt32

def clamp (bound v : Int32) : Int32 :=
  let v := if v < 0 then 0 else v
  if v > bound - 1 then bound - 1 else v

/-- One turn of the loop over the buttons. -/
def buttonEvent (event : InputEvent) (buttons state bit : UInt32) : List InputEvent :=
  if buttons &&& bit ≠ 0 ∧ state &&& bit = 0 then [{ event with kind := .down, button := bit.toInt32 }]
  else if buttons &&& bit = 0 ∧ state &&& bit ≠ 0 then [{ event with kind := .up, button := bit.toInt32 }]
  else []

/-- `handle_packet`, with the events it pushes. -/
def handlePacket (m : Mouse) (p : Packet) : Mouse × List InputEvent :=
  if p.flags &&& 0x08 = 0 then (m, [])
  else if p.flags &&& 0xC0 ≠ 0 then (m, [])
  else
    let dx := movement (p.flags &&& 0x10 ≠ 0) p.dx
    let dy := movement (p.flags &&& 0x20 ≠ 0) p.dy
    let wheel := if m.packetSize = 4 then wheelSteps p.z else 0
    let buttons := mask (p.flags &&& 0x01 ≠ 0) (p.flags &&& 0x02 ≠ 0) (p.flags &&& 0x04 ≠ 0)
    let x := clamp m.boundW (m.cursorX + dx)
    let y := clamp m.boundH (m.cursorY - dy)
    let event : InputEvent := { kind := .move, x := x, y := y, dx := dx, dy := -dy, buttons := buttons }
    ({ m with cursorX := x, cursorY := y, buttonState := buttons },
      (if dx ≠ 0 ∨ dy ≠ 0 then [event] else []) ++ buttonEvent event buttons m.buttonState 1 ++
        buttonEvent event buttons m.buttonState 2 ++ buttonEvent event buttons m.buttonState 4 ++
        (if wheel ≠ 0 then [{ event with kind := .wheel, wheel := wheel }] else []))

/-- The case of `handle_input` for an event. -/
def InputEvent.call (event : InputEvent) (granted : Bool) : Call :=
  match event.kind with
  | .move => .mouseMove event.x event.y event.buttons granted
  | .down => .mouseDown event.x event.y event.button
  | .up => .mouseUp event.x event.y event.button
  | .wheel => .wheel event.x event.y event.wheel
  | .key => .key event.key

/-- `push` of the input queue, which holds 127 events and drops the rest. -/
def push (pending : List InputEvent) (event : InputEvent) : List InputEvent :=
  if pending.length = 127 then pending else pending ++ [event]

/-- The buttons that are down after an event. -/
def hold (held : UInt32) (event : InputEvent) : UInt32 :=
  match event.kind with
  | .down => held ||| event.button.toUInt32
  | .up => held &&& ~~~event.button.toUInt32
  | _ => held

/-- The machine: server and applications, the mouse, the input events the compositor has not handled
yet, and the buttons that are down as far as it has. -/
structure Desk where
  desktop : Desktop
  mouse : Mouse
  pending : List InputEvent
  held : UInt32

/-- A packet or a key arrives, the compositor handles an event, or an application calls the server. -/
inductive Move
  | packet (p : Packet)
  | key (key : UInt32)
  | handle (granted : Bool)
  | call (c : Call)

/-- The calls that only `handle_input` makes. -/
def isInput : Call → Bool
  | .mouseDown .. | .mouseUp .. | .mouseMove .. | .wheel .. | .key .. => true
  | _ => false

def Desk.next (screen : Screen) (d : Desk) : Move → Option Desk
  | .packet p =>
    some { d with mouse := (handlePacket d.mouse p).1, pending := (handlePacket d.mouse p).2.foldl push d.pending }
  | .key key =>
    let event : InputEvent :=
      { kind := .key, key := key, x := d.mouse.cursorX, y := d.mouse.cursorY, buttons := d.mouse.buttonState }
    some { d with pending := push d.pending event }
  | .handle granted =>
    match d.pending with
    | [] => none
    | event :: rest =>
      some { d with desktop := d.desktop.run screen (event.call granted), pending := rest, held := hold d.held event }
  | .call c => if isInput c then none else some { d with desktop := d.desktop.run screen c }

/-- No queue overflows in the step: neither the input queue nor that of a window. -/
def Fits (screen : Screen) (d : Desk) : Move → Prop
  | .packet p => d.pending.length + (handlePacket d.mouse p).2.length ≤ 127
  | .key _ => d.pending.length < 127
  | .handle granted => ∀ event ∈ d.pending.head?, Roomy screen d.desktop.server (event.call granted)
  | .call c => Roomy screen d.desktop.server c

/-! ## The messages of a window -/

/-- The messages that bear on the button. -/
def mouseNews : EventType → Bool
  | .mouseDown | .mouseUp => true
  | _ => false

/-- The window has been told of a press and not yet of a release. -/
def Waiting (d : Desktop) (i : WindowSlot) : Prop :=
  (d.server.windows i).used = true ∧
    lastNews mouseNews .mouseDown (d.server.windows i) (d.flags (d.server.windows i).id).mouseDown = true

instance (d : Desktop) (i : WindowSlot) : Decidable (Waiting d i) := inferInstanceAs (Decidable (_ ∧ _))

/-- The window a release goes to. -/
def Delivered (s : Server) (x y : Int32) (i : WindowSlot) : Prop :=
  s.dragId = 0 ∧ s.resizeId = 0 ∧ (s.windowAt x y).map Prod.fst = some i

instance (s : Server) (x y : Int32) (i : WindowSlot) : Decidable (Delivered s x y i) :=
  inferInstanceAs (Decidable (_ ∧ _))

/-- When the last button comes up, every window that waits for it is told. -/
def Answered (d : Desk) : Move → Prop
  | .handle _ => ∀ event ∈ d.pending.head?, event.kind = .up → hold d.held event = 0 →
      ∀ i, Waiting d.desktop i → Delivered d.desktop.server event.x event.y i
  | _ => True

instance (screen : Screen) (d : Desk) (m : Move) : Decidable (Fits screen d m) := by
  cases m <;> unfold Fits <;> infer_instance

instance (d : Desk) (m : Move) : Decidable (Answered d m) := by
  cases m <;> unfold Answered <;> infer_instance

/-- A new window gets an id of its own. -/
def Fresh (d : Desk) : Move → Prop
  | .call c => FreshId d.desktop.server c
  | _ => True

instance (d : Desk) (m : Move) : Decidable (Fresh d m) := by
  cases m <;> unfold Fresh <;> infer_instance

theorem see_mouseDown (f : Flags) (event : Event) :
    (f.see event).mouseDown = if mouseNews event.type then decide (event.type = .mouseDown) else f.mouseDown := by
  unfold Flags.see
  cases event.type <;> rfl

/-- One turn of the loop brings one button up to date. -/
def update (buttons state held bit : UInt32) : UInt32 :=
  if buttons &&& bit ≠ 0 ∧ state &&& bit = 0 then held ||| bit
  else if buttons &&& bit = 0 ∧ state &&& bit ≠ 0 then held &&& ~~~bit
  else held

theorem hold_buttonEvent (event : InputEvent) (buttons state held bit : UInt32) :
    (buttonEvent event buttons state bit).foldl hold held = update buttons state held bit := by
  unfold buttonEvent update
  split_ifs <;> simp [hold]

theorem update_buttons (l r c l' r' c' : Bool) :
    [1, 2, 4].foldl (update (mask l r c) (mask l' r' c')) (mask l' r' c') = mask l r c := by
  revert l r c l' r' c'
  decide

theorem buttonEvent_press {event : InputEvent} {buttons state bit : UInt32} (hbit : bit ≠ 0) :
    ∀ e ∈ buttonEvent event buttons state bit, e.kind = .down → e.button.toUInt32 ≠ 0 := by
  unfold buttonEvent
  split_ifs <;> simp [hbit]

/-- Movement and wheel events leave the buttons alone. -/
theorem hold_optional {P : Prop} [Decidable P] (held : UInt32) (event : InputEvent)
    (hk : event.kind = .move ∨ event.kind = .wheel) : (if P then [event] else []).foldl hold held = held := by
  split
  · rcases hk with hk | hk <;> simp [hold, hk]
  · rfl

theorem eq_of_mem_optional {P : Prop} [Decidable P] {e event : InputEvent} (h : e ∈ if P then [event] else []) :
    e = event := by
  split at h
  · exact List.mem_singleton.mp h
  · cases h

/-- The buttons the server will know to be down are those of the last packet. -/
theorem hold_handlePacket {m : Mouse} (p : Packet) (h : ∃ l r c, m.buttonState = mask l r c) :
    (handlePacket m p).2.foldl hold m.buttonState = (handlePacket m p).1.buttonState ∧
    (∃ l r c, (handlePacket m p).1.buttonState = mask l r c) ∧
    ∀ e ∈ (handlePacket m p).2, e.kind = .down → e.button.toUInt32 ≠ 0 := by
  obtain ⟨l, r, c, hstate⟩ := h
  unfold handlePacket
  split
  · exact ⟨rfl, ⟨l, r, c, hstate⟩, by simp⟩
  split
  · exact ⟨rfl, ⟨l, r, c, hstate⟩, by simp⟩
  dsimp only
  refine ⟨?_, ⟨_, _, _, rfl⟩, ?_⟩
  · simp only [List.foldl_append, hold_buttonEvent, hstate]
    rw [hold_optional _ _ (Or.inr rfl), hold_optional _ _ (Or.inl rfl)]
    exact update_buttons _ _ _ _ _ _
  · intro e he
    simp only [List.mem_append] at he
    rcases he with (((he | he) | he) | he) | he
    · simp [eq_of_mem_optional he]
    · exact buttonEvent_press (by decide) e he
    · exact buttonEvent_press (by decide) e he
    · exact buttonEvent_press (by decide) e he
    · simp [eq_of_mem_optional he]

theorem foldl_push {pending events : List InputEvent} (h : pending.length + events.length ≤ 127) :
    events.foldl push pending = pending ++ events := by
  induction events generalizing pending with
  | nil => simp
  | cons e rest ih =>
    have hroom : push pending e = pending ++ [e] := if_neg (by simp only [List.length_cons] at h; omega)
    rw [List.foldl_cons, hroom, ih (by simp only [List.length_cons, List.length_append, List.length_nil] at h ⊢; omega)]
    simp

/-! ## What the calls leave alone -/

/-- Every window that is there was there before, and has been told of no press or release. -/
def Calm (s t : Server) : Prop :=
  ∀ i, (t.windows i).used = true → (s.windows i).used = true ∧ (t.windows i).id = (s.windows i).id ∧
    news mouseNews (t.windows i) = news mouseNews (s.windows i)

section Calls
variable {s t u : Server}

theorem Calm.refl (s : Server) : Calm s s := fun _ hi => ⟨hi, rfl, rfl⟩

theorem Calm.trans (h₁ : Calm s t) (h₂ : Calm t u) : Calm s u := by
  intro i hi
  obtain ⟨hu, hid, hn⟩ := h₂ i hi
  obtain ⟨hu', hid', hn'⟩ := h₁ i hu
  exact ⟨hu', hid.trans hid', hn.trans hn'⟩

theorem Calm.of_quiet (h : Quiet mouseNews s t) : Calm s t := fun i hi => ⟨(h i).used ▸ hi, (h i).id, (h i).news⟩

theorem Calm.of_windows (h : t.windows = s.windows) : Calm s t := Calm.of_quiet (Quiet.of_windows h)

theorem Calm.setState (i : WindowSlot) (state : WindowState) : Calm s (s.setState i state) := by
  intro j hj
  unfold Server.setState at hj ⊢
  by_cases hji : j = i
  · subst hji
    rw [Server.setWindow_windows_self] at hj ⊢
    exact ⟨hj, rfl, rfl⟩
  · rw [Server.setWindow_windows_ne _ _ hji] at hj ⊢
    exact ⟨hj, rfl, rfl⟩

theorem Calm.setFocus (id : UInt32) : Calm s (s.setFocus id) := Calm.of_quiet (Quiet.setFocus id rfl rfl)

theorem Calm.removed (i : WindowSlot) (id : UInt32) : Calm s (removed s i id) := by
  intro j hj
  unfold WindowFocus.removed at hj ⊢
  by_cases hji : j = i
  · subst hji
    rw [Server.setWindow_windows_self] at hj
    cases hj
  · rw [Server.setWindow_windows_ne _ _ hji] at hj ⊢
    exact ⟨hj, rfl, rfl⟩

theorem Calm.wmDestroyWindow (owner : Option ℕ) (id : UInt32) : Calm s (s.wmDestroyWindow owner id).1 := by
  unfold Server.wmDestroyWindow
  split
  · exact Calm.refl s
  · next i _ =>
    dsimp only
    split
    · exact Calm.refl s
    · split
      · have hgone : Calm s ((WindowFocus.removed s i id).focusOn 0) :=
          (Calm.removed i id).trans (Calm.of_windows rfl)
        change Calm s ((WindowFocus.removed s i id).focusOn 0).refocus
        rw [refocus_eq]
        split
        · exact hgone.trans (Calm.setFocus _)
        · exact hgone
      · exact Calm.removed i id

theorem Calm.wmCloseProcessWindows (owner : ℕ) : Calm s (s.wmCloseProcessWindows owner) := by
  unfold Server.wmCloseProcessWindows
  generalize List.finRange 32 = slots
  induction slots generalizing s with
  | nil => exact Calm.refl s
  | cons i rest ih =>
    rw [List.foldl_cons]
    refine Calm.trans ?_ ih
    split
    · exact Calm.wmDestroyWindow _ _
    · exact Calm.refl s

theorem Calm.wmMinimize (id : UInt32) : Calm s (s.wmMinimize id).1 := by
  unfold Server.wmMinimize
  split
  · exact Calm.refl s
  · next i _ =>
    have hset : ∀ state, Calm s ((s.damageWindow i).setState i state) := fun state =>
      Calm.trans (t := s.damageWindow i) (Calm.of_windows rfl) (Calm.setState i state)
    dsimp only
    split
    · exact (hset .normal).trans (Calm.of_windows rfl)
    · split <;> exact (hset .minimized).trans (Calm.of_windows rfl)

theorem Calm.wmActivate (id : UInt32) : Calm s (s.wmActivate id).1 := by
  unfold Server.wmActivate
  split
  · exact Calm.refl s
  · next i _ =>
    have hraised : Calm s ((s.setState i .normal).raiseWindow i) := (Calm.setState i .normal).trans (Calm.of_windows rfl)
    exact hraised.trans (Calm.setFocus id)

/-- A window that a call has opened has no message in its queue that bears on the button. -/
theorem create_calm (screen : Screen) (owner : ℕ) (width height : Int32) (title : List UInt8) (flags : UInt32)
    (granted : Bool) (i : WindowSlot)
    (hi : ((s.wmCreateWindow screen owner width height title flags granted).1.windows i).used = true) :
    ((s.windows i).used = true ∧
      ((s.wmCreateWindow screen owner width height title flags granted).1.windows i).id = (s.windows i).id ∧
      news mouseNews ((s.wmCreateWindow screen owner width height title flags granted).1.windows i) =
        news mouseNews (s.windows i)) ∨
    (((s.wmCreateWindow screen owner width height title flags granted).1.windows i).id = s.nextId ∧
      news mouseNews ((s.wmCreateWindow screen owner width height title flags granted).1.windows i) = []) := by
  have hone : ∀ (slot : WindowSlot) (w : Window) (t : Server), w.id = s.nextId → backlog w = [] →
      Quiet mouseNews ((s.countWindow flags).setWindow slot w) t → (t.windows i).used = true →
      ((s.windows i).used = true ∧ (t.windows i).id = (s.windows i).id ∧
        news mouseNews (t.windows i) = news mouseNews (s.windows i)) ∨
      ((t.windows i).id = s.nextId ∧ news mouseNews (t.windows i) = []) := by
    intro slot w t hid hempty ht hu
    rw [(ht i).used] at hu
    rw [(ht i).id, (ht i).news]
    by_cases his : i = slot
    · subst his
      rw [Server.setWindow_windows_self]
      exact .inr ⟨hid, by simp [news, hempty]⟩
    · rw [Server.setWindow_windows_ne _ _ his] at hu ⊢
      exact .inl ⟨hu, rfl, rfl⟩
  revert hi
  unfold Server.wmCreateWindow
  split
  · exact fun hi => .inl ⟨hi, rfl, rfl⟩
  split
  · exact fun hi => .inl ⟨hi, rfl, rfl⟩
  split
  · exact fun hi => .inl ⟨hi, rfl, rfl⟩
  next slot _ =>
    dsimp only
    split
    · exact hone slot _ _ rfl (backlog_empty rfl) (Quiet.refl _)
    · refine hone slot
        { id := s.nextId, used := true, owner := owner, flags := flags, title := title.take 47,
          x := (s.newPosition screen flags width height).1, y := (s.newPosition screen flags width height).2,
          width := width, height := height } _ rfl (backlog_empty rfl) ?_
      generalize (s.countWindow flags).setWindow slot _ = fresh
      have hstacked : Quiet mouseNews fresh (fresh.zInsert s.nextId flags) := Quiet.of_windows rfl
      split
      · exact hstacked.trans (Quiet.of_windows rfl)
      · exact (hstacked.trans (Quiet.setFocus s.nextId rfl rfl)).trans (Quiet.of_windows rfl)

end Calls

/-- No application waits for a release. -/
def AllUp (d : Desktop) : Prop := ∀ i, ¬Waiting d i

section Applications
variable {d : Desktop} {t : Server}

theorem AllUp.calm (h : AllUp d) (hc : Calm d.server t) : AllUp ⟨t, d.flags⟩ := by
  rintro i ⟨hu, hwait⟩
  obtain ⟨hu', hid, hn⟩ := hc i hu
  refine h i ⟨hu', ?_⟩
  rw [hid, lastNews_congr _ _ hn] at hwait
  exact hwait

theorem AllUp.poll (h : AllUp d) (hids : DistinctIds d.server) (screen : Screen) (owner : ℕ) (id : UInt32) :
    AllUp (d.run screen (.poll owner id)) := by
  rintro i ⟨hu, hwait⟩
  obtain ⟨hu', hid, hkept⟩ := (poll_kept see_mouseDown hids screen owner id).2 i
  rw [hu'] at hu
  rw [hid, hkept hu] at hwait
  exact h i ⟨hu, hwait⟩

theorem AllUp.create (h : AllUp d) (screen : Screen) {owner : ℕ} {width height : Int32} {title : List UInt8}
    {flags : UInt32} {granted : Bool}
    (hfresh : FreshId d.server (.create owner width height title flags granted)) :
    AllUp (d.run screen (.create owner width height title flags granted)) := by
  rintro i ⟨hu, hwait⟩
  rcases create_calm screen owner width height title flags granted i hu with ⟨hu', hid, hn⟩ | ⟨hid, hn⟩
  · refine h i ⟨hu', ?_⟩
    simp only [Desktop.run, Server.run] at hwait
    rw [hid, lastNews_congr _ _ hn, Function.update_of_ne ((hfresh rfl).2 i hu')] at hwait
    exact hwait
  · simp only [Desktop.run, Server.run] at hwait
    rw [hid, Function.update_self] at hwait
    simp [lastNews, hn] at hwait

/-- The two calls that bear on the button. -/
def isButton : Call → Bool
  | .mouseDown .. | .mouseUp .. => true
  | _ => false

/-- No other call tells a window of a press. -/
theorem AllUp.call (h : AllUp d) (hids : DistinctIds d.server) (screen : Screen) {c : Call}
    (hc : isButton c = false) (hfresh : FreshId d.server c) : AllUp (d.run screen c) := by
  by_cases hs : settled c = true
  · have hflags : (d.run screen c).flags = d.flags := by
      revert hs
      cases c <;> simp [settled, Desktop.run]
    have hquiet := settled_quiet (M := mouseNews) screen d.server hs rfl (fun x y button he => by subst he; cases hc) rfl rfl rfl
    have hup := h.calm (Calm.of_quiet hquiet)
    rw [← hflags] at hup
    exact hup
  cases c with
  | create owner width height title flags granted => exact h.create screen hfresh
  | destroy owner id => exact h.calm (Calm.wmDestroyWindow owner id)
  | closeProcess owner => exact h.calm (Calm.wmCloseProcessWindows owner)
  | poll owner id => exact h.poll hids screen owner id
  | activate id => exact h.calm (Calm.wmActivate id)
  | minimize id => exact h.calm (Calm.wmMinimize id)
  | mouseDown x y button => cases hc
  | _ => exact absurd rfl hs

/-- A release that finds room ends the wait of the window it goes to, and no other. -/
theorem waiting_handleMouseUp {s : Server} {flags : UInt32 → Flags} {x y : Int32} (button : Int32)
    (hroom : ∀ w ∈ mouseUpQueues s x y, ¬Full w) (i : WindowSlot) :
    Waiting ⟨s.handleMouseUp x y button, flags⟩ i ↔ Waiting ⟨s, flags⟩ i ∧ ¬Delivered s x y i := by
  have hcongr : ∀ {t : Server}, Quiet mouseNews s t → (Waiting ⟨t, flags⟩ i ↔ Waiting ⟨s, flags⟩ i) := by
    intro t hq
    unfold Waiting
    dsimp only
    rw [(hq i).used, (hq i).id, lastNews_congr _ _ (hq i).news]
  unfold Delivered Server.handleMouseUp
  unfold mouseUpQueues at hroom
  by_cases hdrag : s.dragId = 0
  swap
  · simp only [ne_eq, hdrag, not_false_iff, if_true, false_and, and_true]
    exact hcongr (Quiet.of_windows rfl)
  by_cases hresize : s.resizeId = 0
  swap
  · simp only [ne_eq, hdrag, hresize, not_true, not_false_iff, if_true, if_false, false_and, and_false, and_true]
    split
    · next j _ => exact hcongr (Quiet.queueEvent (s := { s with resizeId := 0 }) j rfl)
    · exact hcongr (Quiet.of_windows rfl)
  simp only [ne_eq, hdrag, hresize, not_true, if_false, true_and] at hroom ⊢
  cases hat : s.windowAt x y with
  | none =>
    simp only [Option.map_none, reduceCtorEq, not_false_iff, and_true]
  | some p =>
    obtain ⟨j, hit⟩ := p
    have hfull : ¬Full (s.windows j) := hroom _ (by simp [hat])
    simp only [Option.map_some, Option.some.injEq]
    by_cases hij : i = j
    · subst hij
      simp only [not_true, and_false, iff_false]
      rintro ⟨-, hwait⟩
      dsimp only at hwait
      rw [Server.setWindow_windows_self, Window.deliverMouse, lastNews_queueEvent _ _ hfull rfl] at hwait
      cases hwait
    · unfold Waiting
      simp only [Server.setWindow_windows_ne s _ hij, Ne.symm hij, not_false_iff, and_true]

theorem waiting_mouseUp (screen : Screen) {x y button : Int32} (hroom : Roomy screen d.server (.mouseUp x y button))
    (i : WindowSlot) : Waiting (d.run screen (.mouseUp x y button)) i ↔ Waiting d i ∧ ¬Delivered d.server x y i :=
  waiting_handleMouseUp (s := { d.server with cursorX := x, cursorY := y }) button hroom i

end Applications

/-! ## Whole runs -/

/-- The compositor's idea of the buttons, brought up to date with the events that wait, is the
mouse's; and while it takes no button to be down, no application waits for a release. -/
structure Tracked (d : Desk) : Prop where
  ids : ProperIds d.desktop.server
  state : ∃ l r c, d.mouse.buttonState = mask l r c
  pending : d.pending.foldl hold d.held = d.mouse.buttonState
  press : ∀ event ∈ d.pending, event.kind = .down → event.button.toUInt32 ≠ 0
  up : d.held = 0 → AllUp d.desktop

section Runs
variable {screen : Screen} {d e : Desk}

theorem Tracked.packet (h : Tracked d) {p : Packet} (hfits : Fits screen d (.packet p)) :
    Tracked { d with mouse := (handlePacket d.mouse p).1, pending := (handlePacket d.mouse p).2.foldl push d.pending } := by
  obtain ⟨hhold, hstate, hpress⟩ := hold_handlePacket p h.state
  refine ⟨h.ids, hstate, ?_, ?_, h.up⟩
  · rw [foldl_push hfits, List.foldl_append, h.pending]
    exact hhold
  · rw [foldl_push hfits]
    intro event hevent
    rcases List.mem_append.mp hevent with hevent | hevent
    · exact h.press event hevent
    · exact hpress event hevent

theorem Tracked.key (h : Tracked d) {event : InputEvent} (hk : event.kind = .key) (hfits : d.pending.length < 127) :
    Tracked { d with pending := push d.pending event } := by
  have hpush : push d.pending event = d.pending ++ [event] := if_neg (Nat.ne_of_lt hfits)
  refine ⟨h.ids, h.state, ?_, ?_, h.up⟩
  · simp [hpush, h.pending, hold, hk]
  · simp only [hpush, List.mem_append, List.mem_singleton]
    rintro e (he | rfl)
    · exact h.press e he
    · simp [hk]

/-- The compositor handles an event; the last release must reach whoever waits for it. -/
theorem Tracked.handle (h : Tracked d) {event : InputEvent} {rest : List InputEvent} (granted : Bool)
    (hpending : d.pending = event :: rest) (hroom : Roomy screen d.desktop.server (event.call granted))
    (hanswered : Answered d (.handle granted)) :
    Tracked { d with desktop := d.desktop.run screen (event.call granted), pending := rest, held := hold d.held event } := by
  have hcreates : creates (event.call granted) = false := by
    unfold InputEvent.call
    cases event.kind <;> rfl
  have hfresh : FreshId d.desktop.server (event.call granted) := fun hc => absurd (hcreates.symm.trans hc) (by simp)
  have hfold := h.pending
  rw [hpending, List.foldl_cons] at hfold
  refine ⟨h.ids.run screen hfresh, h.state, hfold, fun e he => h.press e (hpending ▸ List.mem_cons_of_mem _ he), ?_⟩
  intro hheld
  cases hk : event.kind with
  | down =>
    -- a press leaves a button down
    have hbit := h.press event (hpending ▸ List.mem_cons_self) hk
    simp only [hold, hk] at hheld
    exact absurd (UInt32.or_eq_zero_iff.mp hheld).2 hbit
  | up =>
    have hcall : event.call granted = .mouseUp event.x event.y event.button := by simp [InputEvent.call, hk]
    simp only [hcall] at hroom ⊢
    intro i hwait
    obtain ⟨hwaiting, hlost⟩ := (waiting_mouseUp screen hroom i).mp hwait
    exact hlost (hanswered event (by simp [hpending]) hk hheld i hwaiting)
  | move | wheel | key =>
    have hsame : hold d.held event = d.held := by simp [hold, hk]
    rw [hsame] at hheld
    exact (h.up hheld).call h.ids.distinct screen (by simp [InputEvent.call, hk, isButton]) hfresh

theorem Tracked.next (h : Tracked d) {m : Move} (hfits : Fits screen d m) (hfresh : Fresh d m)
    (hanswered : Answered d m) (hnext : d.next screen m = some e) : Tracked e := by
  cases m with
  | packet p =>
    obtain rfl := Option.some.inj hnext
    exact h.packet hfits
  | key key =>
    obtain rfl := Option.some.inj hnext
    exact h.key rfl hfits
  | handle granted =>
    simp only [Desk.next] at hnext
    split at hnext
    · cases hnext
    · next event rest hpending =>
      obtain rfl := Option.some.inj hnext
      exact h.handle granted hpending (hfits event (by simp [hpending])) hanswered
  | call c =>
    simp only [Desk.next] at hnext
    split at hnext
    · cases hnext
    · next hinput =>
      obtain rfl := Option.some.inj hnext
      have hbutton : isButton c = false := by
        cases c <;> first | rfl | exact absurd rfl hinput
      exact ⟨h.ids.run screen hfresh, h.state, h.pending, h.press,
        fun hheld => (h.up hheld).call h.ids.distinct screen hbutton hfresh⟩

end Runs

/-- The machine after `wm_init`, with no button down. -/
def Booted (screen : Screen) (d : Desk) : Prop :=
  ∃ mouse : Mouse, mouse.buttonState = 0 ∧ d = ⟨boot screen, mouse, [], 0⟩

theorem Booted.tracked {screen : Screen} {d : Desk} (h : Booted screen d) : Tracked d := by
  obtain ⟨mouse, hstate, rfl⟩ := h
  refine ⟨properIds_wmInit screen, ⟨false, false, false, hstate⟩, hstate.symm, by simp, fun _ i hwait => ?_⟩
  cases hwait.1

/-- In every run in which no queue overflows, window ids stay distinct and the last release reaches
every window that waits for it, a window whose queue is drained while no button is down has a clear
flag; and it is exactly the last releases of that kind that leave no window waiting. -/
theorem mouseDown_clear (screen : Screen) :
    (∀ d, Reachable (Booted screen)
        (fun d e => ∃ m, Fits screen d m ∧ Fresh d m ∧ Answered d m ∧ d.next screen m = some e) d →
      d.mouse.buttonState = 0 → d.pending = [] → ∀ i, (d.desktop.server.windows i).used = true →
      (d.desktop.server.windows i).eventTail = (d.desktop.server.windows i).eventHead →
      (d.desktop.flags (d.desktop.server.windows i).id).mouseDown = false) ∧
    ∀ d event rest granted e, d.pending = event :: rest → event.kind = .up → hold d.held event = 0 →
      Fits screen d (.handle granted) → d.next screen (.handle granted) = some e →
      (AllUp e.desktop ↔ Answered d (.handle granted)) := by
  constructor
  · intro d h hstate hpending i hu hdrained
    have htracked : Tracked d := by
      refine h.invariant (fun _ h0 => h0.tracked) ?_
      rintro d e hd ⟨m, hfits, hfresh, hanswered, hnext⟩
      exact hd.next hfits hfresh hanswered hnext
    have hheld : d.held = 0 := by simpa [hpending, hstate] using htracked.pending
    have hup := htracked.up hheld i
    unfold Waiting at hup
    rw [lastNews_empty _ _ (backlog_empty hdrained)] at hup
    simpa [hu] using hup
  · intro d event rest granted e hpending hk hheld hfits hnext
    have hcall : event.call granted = .mouseUp event.x event.y event.button := by simp [InputEvent.call, hk]
    have hroom := hfits event (by simp [hpending])
    simp only [Desk.next, hpending, Option.some.injEq] at hnext
    subst hnext
    rw [hcall] at hroom
    simp only [AllUp, hcall, waiting_mouseUp screen hroom, not_and, not_not, Answered, hpending, List.head?_cons,
      Option.mem_def, Option.some.injEq]
    constructor
    · rintro hup event' rfl _ _ i hwait
      exact hup i hwait
    · intro hanswered i hwait
      exact hanswered event rfl hk hheld i hwait

/-- A step as in `mouseDown_clear`. -/
def answeredNext (screen : Screen) (d : Desk) (m : Move) : Option Desk :=
  if Fits screen d m ∧ Fresh d m ∧ Answered d m then d.next screen m else none

/-- The machine with the cursor at (100, 100), where the first window will be. -/
def atRest : Desk := ⟨boot xga, ⟨100, 100, 1024, 768, 0, 3⟩, [], 0⟩

/-- A window is opened and clicked, and its application drains the queue. -/
def click : List Move :=
  [.call (.create 1 200 100 [] 0 true), .packet ⟨0x09, 0, 0, 0⟩, .handle true, .packet ⟨0x08, 0, 0, 0⟩, .handle true,
   .call (.poll 1 1), .call (.poll 1 1), .call (.poll 1 1)]

theorem mouseDown_clear_click : ∃ d, follow (answeredNext xga) atRest click = some d ∧
    (d.desktop.flags 1).mouseDown = false := by
  have hrun : (follow (answeredNext xga) atRest click).any (fun d => d.mouse.buttonState = 0 ∧ d.pending = [] ∧
      (d.desktop.server.windows 0).used = true ∧ (d.desktop.server.windows 0).id = 1 ∧
      (d.desktop.server.windows 0).eventTail = (d.desktop.server.windows 0).eventHead) = true := by decide
  obtain ⟨d, hd, hfacts⟩ := (Option.any_eq_true _ _).mp hrun
  obtain ⟨hstate, hpending, hu, hid, hdrained⟩ := of_decide_eq_true hfacts
  have hreach : Reachable (Booted xga)
      (fun d e => ∃ m, Fits xga d m ∧ Fresh d m ∧ Answered d m ∧ d.next xga m = some e) d := by
    refine Reachable.follow ?_ (.start ⟨_, rfl, rfl⟩) hd
    intro d m e he
    unfold answeredNext at he
    split at he
    · next hc => exact ⟨m, hc.1, hc.2.1, hc.2.2, he⟩
    · cases he
  exact ⟨d, hd, hid ▸ (mouseDown_clear xga).1 d hreach hstate hpending 0 hu hdrained⟩

/-- The button goes down over the window and comes up 250 pixels to its right, over nothing. -/
def dragOut : List Move :=
  [.call (.create 1 200 100 [] 0 true), .packet ⟨0x09, 0, 0, 0⟩, .handle true, .packet ⟨0x08, 250, 0, 0⟩, .handle true,
   .handle true, .call (.poll 1 1), .call (.poll 1 1)]

theorem mouseDown_sticks : ¬∀ d, Reachable (Booted xga) (fun d e => ∃ m, Fits xga d m ∧ d.next xga m = some e) d →
    d.mouse.buttonState = 0 → d.pending = [] →
    (∀ i, (d.desktop.server.windows i).used = true →
      (d.desktop.server.windows i).eventTail = (d.desktop.server.windows i).eventHead) →
    ∀ i, (d.desktop.server.windows i).used = true →
      (d.desktop.flags (d.desktop.server.windows i).id).mouseDown = false := by
  intro hall
  have hrun : (follow (fun d m => if Fits xga d m then d.next xga m else none) atRest dragOut).any (fun d =>
      d.mouse.buttonState = 0 ∧ d.pending = [] ∧ (∀ i, (d.desktop.server.windows i).used = true →
        (d.desktop.server.windows i).eventTail = (d.desktop.server.windows i).eventHead) ∧
      (d.desktop.server.windows 0).used = true ∧
      (d.desktop.flags (d.desktop.server.windows 0).id).mouseDown = true) = true := by decide
  obtain ⟨d, hd, hfacts⟩ := (Option.any_eq_true _ _).mp hrun
  obtain ⟨hstate, hpending, hdrained, hu, hdown⟩ := of_decide_eq_true hfacts
  have hreach : Reachable (Booted xga) (fun d e => ∃ m, Fits xga d m ∧ d.next xga m = some e) d := by
    refine Reachable.follow ?_ (.start ⟨_, rfl, rfl⟩) hd
    intro d m e he
    split at he
    · next hfits => exact ⟨m, hfits, he⟩
    · cases he
  exact absurd (hdown.symm.trans (hall d hreach hstate hpending hdrained 0 hu)) (by simp)

end SifarOS.MouseButtons
