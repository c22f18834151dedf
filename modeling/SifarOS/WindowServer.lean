import Mathlib.Logic.Function.Basic
import Mathlib.Data.List.FinRange
import SifarOS.Graphics
import SifarOS.MachineInt

/-! # The window server

`kernel/gui/wm.c` without its painting: the window table, the stacking order, the event queues,
the focus, what the mouse does, and the calls of the system-call layer. What a function asks to
have repainted is collected in `damage`, in the order it asks; no function of the server reads the
list of damaged rectangles, so the compositor's module runs these requests afterwards. The frames
behind a window's buffer belong to the address-space modules: whether `allocate_buffer` finds
memory is an argument of the calls that use it. -/
namespace SifarOS.WindowServer
open Graphics

/-- `fb_width` and `fb_height`. Stage 2 reads both from 16-bit fields of the mode block. -/
structure Screen where
  width : Int32
  height : Int32
  width_pos : 0 < width
  width_le : width ≤ 65535
  height_pos : 0 < height
  height_le : height ≤ 65535

def guiNodecor : UInt32 := 0x01
def guiBottom : UInt32 := 0x02
def guiTop : UInt32 := 0x04
def guiFixed : UInt32 := 0x08

/-- The test `flags & mask`. -/
def has (flags mask : UInt32) : Bool := flags &&& mask != 0

def wmTitleHeight : Int32 := 26
def wmBorder : Int32 := 1
def mouseLeft : Int32 := 1

/-- `GUI_STATE_NORMAL` and `GUI_STATE_MINIMIZED`; nothing sets `GUI_STATE_MAXIMIZED`. -/
inductive WindowState | normal | minimized deriving DecidableEq, Repr

inductive EventType
  | none | mouseMove | mouseDown | mouseUp | wheel | key | close | resize | focus | blur
  deriving DecidableEq, Repr

/-- `struct gui_event`. The default value is what `memset` leaves. -/
structure Event where
  type : EventType := .none
  window : UInt32 := 0
  x : Int32 := 0
  y : Int32 := 0
  buttons : UInt32 := 0
  button : Int32 := 0
  wheel : Int32 := 0
  key : UInt32 := 0
  width : UInt32 := 0
  height : UInt32 := 0
  deriving DecidableEq, Repr

/-- An index into `events[WM_EVENT_QUEUE]`. -/
abbrev EventSlot := Fin 32

/-- An index into `windows[MAX_WINDOWS]`. -/
abbrev WindowSlot := Fin 32

/-- `struct window`. The surface has the window's own size, so `pixels` is all of it that is kept;
`owner` is the slot of the owning process. -/
structure Window where
  id : UInt32 := 0
  used : Bool := false
  owner : ℕ := 0
  title : List UInt8 := []
  x : Int32 := 0
  y : Int32 := 0
  width : Int32 := 0
  height : Int32 := 0
  flags : UInt32 := 0
  state : WindowState := .normal
  pixels : ℕ → Color := fun _ => 0
  events : EventSlot → Event := fun _ => {}
  eventHead : EventSlot := 0
  eventTail : EventSlot := 0

/-- A request to repaint: a call of `wm_damage_rect`, or the store `dirty_all = 1`. -/
inductive Damage
  | rect (r : Rect)
  | all
  deriving DecidableEq, Repr

/-- The static data of `wm.c`, the damage list apart. -/
structure Server where
  windows : WindowSlot → Window := fun _ => {}
  zOrder : ℕ → UInt32 := fun _ => 0
  zCount : ℕ := 0
  nextId : UInt32 := 1
  focusId : UInt32 := 0
  cascade : Int32 := 0
  dragId : UInt32 := 0
  dragOffsetX : Int32 := 0
  dragOffsetY : Int32 := 0
  resizeId : UInt32 := 0
  resizeStartW : Int32 := 0
  resizeStartH : Int32 := 0
  resizeStartX : Int32 := 0
  resizeStartY : Int32 := 0
  cursorX : Int32 := 0
  cursorY : Int32 := 0
  lastCursorX : Int32 := 0
  lastCursorY : Int32 := 0
  damage : List Damage := []

/-- `decorated`. -/
def Window.decorated (w : Window) : Bool := !has w.flags guiNodecor

/-- `frame_rect`. -/
def Window.frameRect (w : Window) : Rect :=
  if w.decorated then
    ⟨w.x - wmBorder, w.y - wmTitleHeight, w.width + wmBorder * 2, w.height + wmTitleHeight + wmBorder⟩
  else ⟨w.x, w.y, w.width, w.height⟩

/-- `queue_event`: an event that finds the queue full is dropped. -/
def Window.queueEvent (w : Window) (event : Event) : Window :=
  let next := w.eventHead + 1
  if next = w.eventTail then w
  else { w with
    events := Function.update w.events w.eventHead { event with window := w.id }
    eventHead := next }

/-- `send_simple`. -/
def Window.sendSimple (w : Window) (type : EventType) : Window :=
  w.queueEvent { type := type, width := w.width.toUInt32, height := w.height.toUInt32 }

/-- `deliver_mouse`. -/
def Window.deliverMouse (w : Window) (type : EventType) (x y : Int32) (buttons : UInt32)
    (button wheel : Int32) : Window :=
  w.queueEvent { type := type, x := x - w.x, y := y - w.y, buttons := buttons, button := button, wheel := wheel }

namespace Server

/-- `find`. -/
def find (s : Server) (id : UInt32) : Option WindowSlot :=
  (List.finRange 32).find? fun i => (s.windows i).used && (s.windows i).id == id

def setWindow (s : Server) (i : WindowSlot) (w : Window) : Server :=
  { s with windows := Function.update s.windows i w }

@[simp] theorem setWindow_windows_self (s : Server) (i : WindowSlot) (w : Window) :
    (s.setWindow i w).windows i = w := by simp [setWindow]

theorem setWindow_windows_ne (s : Server) {i j : WindowSlot} (w : Window) (h : j ≠ i) :
    (s.setWindow i w).windows j = s.windows j := by simp [setWindow, h]

/-- A call of `wm_damage_rect`. -/
def damageRect (s : Server) (r : Rect) : Server := { s with damage := s.damage ++ [.rect r] }

/-- The store `dirty_all = 1`. -/
def damageAll (s : Server) : Server := { s with damage := s.damage ++ [.all] }

/-- The rectangle `damage_window` asks for: the frame and four pixels around it. -/
def damageFrame (w : Window) : Rect :=
  let r := w.frameRect
  ⟨r.x - 4, r.y - 4, r.w + 8, r.h + 8⟩

/-- `damage_window`. -/
def damageWindow (s : Server) (i : WindowSlot) : Server := s.damageRect (damageFrame (s.windows i))

/-- `z_remove`: the ids that stay are moved down over the one that goes. -/
def zRemove (s : Server) (id : UInt32) : Server :=
  let (z, out) := (List.range s.zCount).foldl
    (fun (z, out) i => if z i ≠ id then (Function.update z out (z i), out + 1) else (z, out))
    (s.zOrder, 0)
  { s with zOrder := z, zCount := out }

/-- Where `z_insert` puts a window with these flags. -/
def zPosition (s : Server) (flags : UInt32) : ℕ :=
  if has flags guiBottom then 0
  else if has flags guiTop then s.zCount
  else
    ((List.range s.zCount).find? fun i =>
      match s.find (s.zOrder i) with
      | some j => has (s.windows j).flags guiTop
      | none => false).getD s.zCount

/-- `z_insert`: the ids from the position on move up by one, the last one first. -/
def zInsert (s : Server) (id flags : UInt32) : Server :=
  let position := s.zPosition flags
  let z := (List.range (s.zCount - position)).foldl
    (fun z k => Function.update z (s.zCount - k) (z (s.zCount - k - 1))) s.zOrder
  { s with zOrder := Function.update z position id, zCount := s.zCount + 1 }

/-- `raise_window`. -/
def raiseWindow (s : Server) (i : WindowSlot) : Server :=
  let w := s.windows i
  ((s.zRemove w.id).zInsert w.id w.flags).damageWindow i

def sendSimple (s : Server) (i : WindowSlot) (type : EventType) : Server :=
  s.setWindow i ((s.windows i).sendSimple type)

/-- Half of `set_focus`: the window, if it is there, is told and repainted. -/
def notify (s : Server) (id : UInt32) (type : EventType) : Server :=
  match s.find id with
  | some i => (s.sendSimple i type).damageWindow i
  | none => s

/-- The store to `focus_id`. -/
def focusOn (s : Server) (id : UInt32) : Server := { s with focusId := id }

/-- `set_focus`. -/
def setFocus (s : Server) (id : UInt32) : Server :=
  if s.focusId = id then s else ((s.notify s.focusId .blur).focusOn id).notify id .focus

/-- `window_at`: the topmost window whose frame holds the point, and whether its title bar does. -/
def windowAt (s : Server) (x y : Int32) : Option (WindowSlot × Bool) :=
  (List.range s.zCount).reverse.findSome? fun k =>
    match s.find (s.zOrder k) with
    | none => none
    | some i =>
      let w := s.windows i
      let frame := w.frameRect
      if w.state = .minimized then none
      else if x < frame.x ∨ y < frame.y ∨ x ≥ frame.x + frame.w ∨ y ≥ frame.y + frame.h then none
      else some (i, w.decorated && y < w.y)

def setState (s : Server) (i : WindowSlot) (state : WindowState) : Server :=
  s.setWindow i { s.windows i with state := state }

/-- `wm_minimize`. -/
def wmMinimize (s : Server) (id : UInt32) : Server × Int32 :=
  match s.find id with
  | none => (s, -1)
  | some i =>
    if (s.windows i).state = .minimized then (((s.damageWindow i).setState i .normal).damageAll, 0)
    else
      let s := (s.damageWindow i).setState i .minimized
      (if s.focusId = id then (s.focusOn 0).damageAll else s.damageAll, 0)

/-- `wm_resize_window`; `granted` tells whether `allocate_buffer` succeeds. When it fails the old
buffer is put back, so only the damage is left of the call. -/
def wmResizeWindow (screen : Screen) (s : Server) (owner : ℕ) (id : UInt32) (width height : Int32)
    (granted : Bool) : Server × Int32 :=
  match s.find id with
  | none => (s, -1)
  | some i =>
    let w := s.windows i
    if w.owner ≠ owner then (s, -1)
    else if width ≤ 0 ∨ height ≤ 0 ∨ width > screen.width ∨ height > screen.height then (s, -1)
    else if width = w.width ∧ height = w.height then (s, 0)
    else
      let s := s.damageWindow i
      if granted = false then (s, -1)
      else
        let w := { w with width := width, height := height, pixels := fun _ => 0 }
        ((s.setWindow i (w.sendSimple .resize)).damageWindow i, 0)

/-- `handle_mouse_down`. -/
def handleMouseDown (s : Server) (x y button : Int32) : Server :=
  match s.windowAt x y with
  | none => s.setFocus 0
  | some (i, hitTitle) =>
    let s := if has (s.windows i).flags guiBottom then s
      else (s.setFocus (s.windows i).id).raiseWindow i
    let w := s.windows i
    if hitTitle ∧ button = mouseLeft then
      let frame := w.frameRect
      if x ≥ frame.x + frame.w - 24 ∧ x < frame.x + frame.w - 8 then s.sendSimple i .close
      else if x ≥ frame.x + frame.w - 44 ∧ x < frame.x + frame.w - 28 then (s.wmMinimize w.id).1
      else { s with dragId := w.id, dragOffsetX := x - w.x, dragOffsetY := y - w.y }
    else if has w.flags (guiFixed ||| guiNodecor) = false ∧ x ≥ w.x + w.width - 12 ∧ y ≥ w.y + w.height - 12 then
      { s with resizeId := w.id, resizeStartX := x, resizeStartY := y,
               resizeStartW := w.width, resizeStartH := w.height }
    else s.setWindow i (w.deliverMouse .mouseDown x y button.toUInt32 button 0)

/-- `handle_mouse_up`. -/
def handleMouseUp (s : Server) (x y button : Int32) : Server :=
  if s.dragId ≠ 0 then { s with dragId := 0 }
  else if s.resizeId ≠ 0 then
    match s.find s.resizeId with
    | some i => { s with resizeId := 0 }.sendSimple i .resize
    | none => { s with resizeId := 0 }
  else
    match s.windowAt x y with
    | some (i, _) => s.setWindow i ((s.windows i).deliverMouse .mouseUp x y 0 button 0)
    | none => s

/-- The lower limits of `handle_mouse_move`. -/
def atLeast (least v : Int32) : Int32 := if v < least then least else v

def moveTo (s : Server) (i : WindowSlot) (x y : Int32) : Server :=
  s.setWindow i { s.windows i with x := x, y := y }

/-- `handle_mouse_move`. -/
def handleMouseMove (screen : Screen) (s : Server) (x y : Int32) (buttons : UInt32) (granted : Bool) : Server :=
  if s.dragId ≠ 0 then
    match s.find s.dragId with
    | none => s
    | some i =>
      ((s.damageWindow i).moveTo i (x - s.dragOffsetX) (atLeast wmTitleHeight (y - s.dragOffsetY))).damageWindow i
  else if s.resizeId ≠ 0 then
    match s.find s.resizeId with
    | none => s
    | some i =>
      let w := s.windows i
      let width := atLeast 160 (s.resizeStartW + (x - s.resizeStartX))
      let height := atLeast 100 (s.resizeStartH + (y - s.resizeStartY))
      if width ≠ w.width ∨ height ≠ w.height then (s.wmResizeWindow screen w.owner w.id width height granted).1
      else s
  else
    match s.windowAt x y with
    | some (i, _) => s.setWindow i ((s.windows i).deliverMouse .mouseMove x y buttons 0 0)
    | none => s

/-- The `INPUT_MOUSE_WHEEL` case of `handle_input`. -/
def handleWheel (s : Server) (x y wheel : Int32) : Server :=
  match s.windowAt x y with
  | some (i, _) => s.setWindow i ((s.windows i).deliverMouse .wheel x y 0 0 wheel)
  | none => s

/-- The `INPUT_KEY` case of `handle_input`. -/
def handleKey (s : Server) (key : UInt32) : Server :=
  match s.find s.focusId with
  | some i => s.setWindow i ((s.windows i).queueEvent { type := .key, key := key })
  | none => s

/-- Where `wm_create_window` puts a window: the two bands at their edges, the others in a cascade. -/
def newPosition (screen : Screen) (s : Server) (flags : UInt32) (width height : Int32) : Int32 × Int32 :=
  if has flags guiBottom then (0, 0)
  else if has flags guiTop then (0, screen.height - height)
  else
    let x := 60 + (s.cascade % 6) * 28
    let y := 60 + (s.cascade % 6) * 24
    (if x + width > screen.width then 20 else x,
      if y + height > screen.height - 40 then wmTitleHeight + 8 else y)

/-- The counters of `wm_create_window` after one window more: `next_id` and `cascade`. -/
def countWindow (s : Server) (flags : UInt32) : Server :=
  { s with
    nextId := s.nextId + 1
    cascade := if has flags guiBottom ∨ has flags guiTop then s.cascade else s.cascade + 1 }

/-- `wm_create_window`; `granted` tells whether `allocate_buffer` succeeds. -/
def wmCreateWindow (screen : Screen) (s : Server) (owner : ℕ) (width height : Int32) (title : List UInt8)
    (flags : UInt32) (granted : Bool) : Server × Int32 :=
  if width ≤ 0 ∨ height ≤ 0 then (s, -1)
  else if width > screen.width ∨ height > screen.height then (s, -1)
  else
    match (List.finRange 32).find? fun i => !(s.windows i).used with
    | none => (s, -2)
    | some slot =>
      let position := s.newPosition screen flags width height
      let w : Window :=
        { id := s.nextId, used := true, owner := owner, flags := flags, title := title.take 47,
          x := position.1, y := position.2 }
      let s := s.countWindow flags
      if granted = false then (s.setWindow slot { w with used := false }, -3)
      else
        let s := (s.setWindow slot { w with width := width, height := height }).zInsert w.id flags
        ((if has flags (guiBottom ||| guiTop) then s else s.setFocus w.id).damageWindow slot, w.id.toInt32)

/-- The last loop of `wm_destroy_window`: the topmost window of the middle band gets the focus. -/
def refocus (s : Server) : Server :=
  let candidate := (List.range s.zCount).reverse.findSome? fun k =>
    match s.find (s.zOrder k) with
    | some i => if has (s.windows i).flags (guiBottom ||| guiTop) then none else some (s.windows i).id
    | none => none
  match candidate with
  | some id => s.setFocus id
  | none => s

/-- `wm_destroy_window`; without an owner any window may go. -/
def wmDestroyWindow (s : Server) (owner : Option ℕ) (id : UInt32) : Server × Int32 :=
  match s.find id with
  | none => (s, -1)
  | some i =>
    if owner.any (· ≠ (s.windows i).owner) then (s, -1)
    else
      let s := s.damageWindow i
      let s := s.zRemove id
      let s := s.setWindow i { s.windows i with used := false }
      (if s.focusId = id then (s.focusOn 0).refocus else s, 0)

/-- `wm_close_process_windows`. -/
def wmCloseProcessWindows (s : Server) (owner : ℕ) : Server :=
  (List.finRange 32).foldl (fun s i =>
    if (s.windows i).used ∧ (s.windows i).owner = owner then (s.wmDestroyWindow (some owner) (s.windows i).id).1
    else s) s

/-- `wm_invalidate`, on the words of `SYS_GUI_INVALIDATE`: two signed halves for the corner, two
unsigned ones for the size. -/
def wmInvalidate (s : Server) (owner : ℕ) (id corner size : UInt32) : Server × Int32 :=
  let x := (corner &&& 0xFFFF).toUInt16.toInt16.toInt32
  let y := (corner >>> 16).toUInt16.toInt16.toInt32
  let w := (size &&& 0xFFFF).toInt32
  let h := (size >>> 16).toInt32
  match s.find id with
  | none => (s, -1)
  | some i =>
    let window := s.windows i
    if window.owner ≠ owner then (s, -1)
    else if window.state = .minimized then (s, 0)
    else
      let r : Rect := if w ≤ 0 ∨ h ≤ 0 then ⟨0, 0, window.width, window.height⟩ else ⟨x, y, w, h⟩
      (s.damageRect ⟨window.x + r.x, window.y + r.y, r.w, r.h⟩, 0)

/-- `wm_poll_event`: the oldest event, if there is one. -/
def wmPollEvent (s : Server) (owner : ℕ) (id : UInt32) : Server × Int32 × Option Event :=
  match s.find id with
  | none => (s, -1, none)
  | some i =>
    let w := s.windows i
    if w.owner ≠ owner then (s, -1, none)
    else if w.eventTail = w.eventHead then (s, 0, none)
    else (s.setWindow i { w with eventTail := w.eventTail + 1 }, 1, some (w.events w.eventTail))

/-- `wm_set_title`. -/
def wmSetTitle (s : Server) (owner : ℕ) (id : UInt32) (title : List UInt8) : Server × Int32 :=
  match s.find id with
  | none => (s, -1)
  | some i =>
    if (s.windows i).owner ≠ owner then (s, -1)
    else ((s.setWindow i { s.windows i with title := title.take 47 }).damageWindow i, 0)

/-- `wm_move_window`. -/
def wmMoveWindow (s : Server) (owner : ℕ) (id : UInt32) (x y : Int32) : Server × Int32 :=
  match s.find id with
  | none => (s, -1)
  | some i =>
    if (s.windows i).owner ≠ owner then (s, -1)
    else
      (((s.damageWindow i).moveTo i x y).damageWindow i, 0)

/-- `wm_activate`. -/
def wmActivate (s : Server) (id : UInt32) : Server × Int32 :=
  match s.find id with
  | none => (s, -1)
  | some i =>
    (((s.setState i .normal).raiseWindow i).setFocus id, 0)

def setFlags (s : Server) (i : WindowSlot) (flags : UInt32) : Server :=
  s.setWindow i { s.windows i with flags := flags }

/-- `wm_set_flags`. -/
def wmSetFlags (s : Server) (owner : ℕ) (id flags : UInt32) : Server × Int32 :=
  match s.find id with
  | none => (s, -1)
  | some i =>
    if (s.windows i).owner ≠ owner then (s, -1)
    else
      ((((s.setFlags i flags).zRemove id).zInsert id flags).damageAll, 0)

/-- The part of the compositor's loop that follows the cursor. -/
def trackCursor (s : Server) : Server :=
  if s.cursorX ≠ s.lastCursorX ∨ s.cursorY ≠ s.lastCursorY then
    let s := (s.damageRect ⟨s.lastCursorX, s.lastCursorY, 13, 20⟩).damageRect ⟨s.cursorX, s.cursorY, 13, 20⟩
    { s with lastCursorX := s.cursorX, lastCursorY := s.cursorY }
  else s

/-- An application stores into its own buffer, which is mapped into its address space. -/
def draw (s : Server) (i : WindowSlot) (pixels : ℕ → Color) : Server :=
  s.setWindow i { s.windows i with pixels := pixels }

end Server

/-- What can happen to the server: the window calls, the input events, the cursor's own damage and
applications drawing in their buffers. -/
inductive Call
  | create (owner : ℕ) (width height : Int32) (title : List UInt8) (flags : UInt32) (granted : Bool)
  | destroy (owner : Option ℕ) (id : UInt32)
  | closeProcess (owner : ℕ)
  | invalidate (owner : ℕ) (id corner size : UInt32)
  | poll (owner : ℕ) (id : UInt32)
  | setTitle (owner : ℕ) (id : UInt32) (title : List UInt8)
  | move (owner : ℕ) (id : UInt32) (x y : Int32)
  | resize (owner : ℕ) (id : UInt32) (width height : Int32) (granted : Bool)
  | activate (id : UInt32)
  | minimize (id : UInt32)
  | setFlags (owner : ℕ) (id flags : UInt32)
  | mouseDown (x y button : Int32)
  | mouseUp (x y button : Int32)
  | mouseMove (x y : Int32) (buttons : UInt32) (granted : Bool)
  | wheel (x y wheel : Int32)
  | key (key : UInt32)
  | trackCursor
  | draw (i : WindowSlot) (pixels : ℕ → Color)

/-- The server after one of them. Mouse events carry the cursor along, as in `handle_input`. -/
def Server.run (screen : Screen) (s : Server) : Call → Server
  | .create owner width height title flags granted => (s.wmCreateWindow screen owner width height title flags granted).1
  | .destroy owner id => (s.wmDestroyWindow owner id).1
  | .closeProcess owner => s.wmCloseProcessWindows owner
  | .invalidate owner id corner size => (s.wmInvalidate owner id corner size).1
  | .poll owner id => (s.wmPollEvent owner id).1
  | .setTitle owner id title => (s.wmSetTitle owner id title).1
  | .move owner id x y => (s.wmMoveWindow owner id x y).1
  | .resize owner id width height granted => (s.wmResizeWindow screen owner id width height granted).1
  | .activate id => (s.wmActivate id).1
  | .minimize id => (s.wmMinimize id).1
  | .setFlags owner id flags => (s.wmSetFlags owner id flags).1
  | .mouseDown x y button => { s with cursorX := x, cursorY := y }.handleMouseDown x y button
  | .mouseUp x y button => { s with cursorX := x, cursorY := y }.handleMouseUp x y button
  | .mouseMove x y buttons granted => { s with cursorX := x, cursorY := y }.handleMouseMove screen x y buttons granted
  | .wheel x y wheel => s.handleWheel x y wheel
  | .key key => s.handleKey key
  | .trackCursor => s.trackCursor
  | .draw i pixels => s.draw i pixels

/-- The server after `wm_init`, which also sets `dirty_all`. -/
def wmInit (screen : Screen) : Server where
  cursorX := screen.width / 2
  cursorY := screen.height / 2
  lastCursorX := screen.width / 2
  lastCursorY := screen.height / 2
  damage := [.all]

end SifarOS.WindowServer
