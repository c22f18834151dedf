import SifarOS.WindowStacking

/-! # The compositor

Painting in `kernel/gui/wm.c`: the damage list, `compose_rect` and `compose`. A frame is the list of
stores into the back buffer and the list of pixels copied to the card. -/
namespace SifarOS.Compositor
open Graphics WindowServer

def colorDesktopTop : Color := rgb 0x10 0x18 0x28
def colorDesktopBottom : Color := rgb 0x24 0x33 0x52
def colorTitleActive : Color := rgb 0x2C 0x5C 0xA8
def colorTitleInactive : Color := rgb 0x3A 0x42 0x50
def colorTitleText : Color := rgb 0xF0 0xF4 0xF8
def colorBorder : Color := rgb 0x14 0x1A 0x24
def colorShadow : Color := rgba 0 0 0 90

/-- The arrow of `draw_cursor`: 1 is the white fill, 2 the dark outline. -/
def cursorShape : List (List ℕ) :=
  [[2,0,0,0,0,0,0,0,0,0,0,0],
   [2,2,0,0,0,0,0,0,0,0,0,0],
   [2,1,2,0,0,0,0,0,0,0,0,0],
   [2,1,1,2,0,0,0,0,0,0,0,0],
   [2,1,1,1,2,0,0,0,0,0,0,0],
   [2,1,1,1,1,2,0,0,0,0,0,0],
   [2,1,1,1,1,1,2,0,0,0,0,0],
   [2,1,1,1,1,1,1,2,0,0,0,0],
   [2,1,1,1,1,1,1,1,2,0,0,0],
   [2,1,1,1,1,1,1,1,1,2,0,0],
   [2,1,1,1,1,1,1,1,1,1,2,0],
   [2,1,1,1,1,1,2,2,2,2,2,2],
   [2,1,1,2,1,1,2,0,0,0,0,0],
   [2,1,2,0,2,1,1,2,0,0,0,0],
   [2,2,0,0,2,1,1,2,0,0,0,0],
   [2,0,0,0,0,2,1,1,2,0,0,0],
   [0,0,0,0,0,2,1,1,2,0,0,0],
   [0,0,0,0,0,0,2,2,2,0,0,0],
   [0,0,0,0,0,0,0,0,0,0,0,0]]

/-- `draw_cursor`. -/
def drawCursor (clip : Rect) (x y : Int32) : List Store :=
  (upTo 19).flatMap fun row =>
    (upTo 12).flatMap fun col =>
      match (cursorShape.getD row.toInt.toNat []).getD col.toInt.toNat 0 with
      | 1 => pixel clip (x + col) (y + row) (rgb 0xFF 0xFF 0xFF)
      | 2 => pixel clip (x + col) (y + row) (rgb 0x10 0x12 0x18)
      | _ => []

/-- The two shadow bands of `draw_decorations`, below the frame and to its right. -/
def drawShadow (clip : Rect) (frame : Rect) : List Store :=
  blendRect clip (frame.x + 4) (frame.y + frame.h) frame.w 4 colorShadow ++
  blendRect clip (frame.x + frame.w) (frame.y + 4) 4 frame.h colorShadow

/-- The title bar of `draw_decorations`: its text and its two buttons. -/
def drawTitle (font : Font) (clip : Rect) (frame : Rect) (title : List UInt8) (active : Bool) : List Store :=
  let buttonY := frame.y + 6
  textClipped font clip (frame.x + 8) (frame.y + 5) title
    (if active then colorTitleText else rgb 0xB0 0xB8 0xC4) 1 (frame.w - 80) ++
  fillRect clip (frame.x + frame.w - 44) buttonY 14 14 (rgb 0xC8 0xA8 0x40) ++
  hline clip (frame.x + frame.w - 41) (buttonY + 10) 8 (rgb 0x20 0x20 0x20) ++
  fillRect clip (frame.x + frame.w - 24) buttonY 14 14 (rgb 0xC8 0x50 0x48) ++
  (upTo 8).flatMap fun i =>
    pixel clip (frame.x + frame.w - 21 + i) (buttonY + 3 + i) (rgb 0x20 0x20 0x20) ++
    pixel clip (frame.x + frame.w - 21 + i) (buttonY + 10 - i) (rgb 0x20 0x20 0x20)

/-- `draw_decorations`. -/
def drawDecorations (font : Font) (clip : Rect) (w : Window) (active : Bool) : List Store :=
  let frame := w.frameRect
  drawShadow clip frame ++
  fillRect clip frame.x frame.y frame.w wmTitleHeight (if active then colorTitleActive else colorTitleInactive) ++
  hline clip frame.x frame.y frame.w (if active then rgb 0x4E 0x8A 0xD8 else rgb 0x50 0x58 0x66) ++
  frameRect clip frame.x frame.y frame.w frame.h colorBorder ++
  drawTitle font clip frame w.title active

/-- The surface of a window, as `allocate_buffer` sets it up. -/
def surface (w : Window) : Source := ⟨w.pixels, w.width, w.height, w.width⟩

/-- The test by which `compose_rect` skips a window. -/
def missed (w : Window) (rx ry rw rh : Int32) : Prop :=
  w.frameRect.x ≥ rx + rw ∨ w.frameRect.y ≥ ry + rh ∨
    w.frameRect.x + w.frameRect.w ≤ rx ∨ w.frameRect.y + w.frameRect.h ≤ ry

instance (w : Window) (rx ry rw rh : Int32) : Decidable (missed w rx ry rw rh) :=
  inferInstanceAs (Decidable (_ ∨ _ ∨ _ ∨ _))

/-- What `compose_rect` draws for one window that it does not skip. -/
def drawWindow (font : Font) (clip : Rect) (w : Window) (active : Bool) : List Store :=
  (if w.decorated then drawDecorations font clip w active else []) ++
    blit clip w.x w.y (surface w) 0 0 w.width w.height

/-- The window at a place of the stacking order, if `compose_rect` draws it. -/
def drawnAt (s : Server) (rx ry rw rh : Int32) (k : ℕ) : Option Window :=
  match s.find (s.zOrder k) with
  | none => none
  | some i =>
    if (s.windows i).state = .minimized then none
    else if missed (s.windows i) rx ry rw rh then none
    else some (s.windows i)

/-- Everything `compose_rect` stores into the back buffer once its clip is set. -/
def paint (font : Font) (s : Server) (clip : Rect) (rx ry rw rh : Int32) : List Store :=
  gradientV clip rx ry rw rh colorDesktopTop colorDesktopBottom ++
  ((List.range s.zCount).flatMap fun k =>
    match drawnAt s rx ry rw rh k with
    | none => []
    | some w => drawWindow font clip w (w.id == s.focusId)) ++
  drawCursor clip s.cursorX s.cursorY

/-- The pixels `gfx_present_rect` copies to the card. -/
def presentRect (screen : Screen) (x y w h : Int32) : List (ℤ × ℤ) :=
  let (x, w) := trim screen.width x w
  let (y, h) := trim screen.height y h
  if w ≤ 0 ∨ h ≤ 0 then []
  else (upTo h).flatMap fun row => (upTo w).map fun col => (x.toInt + col.toInt, (y + row).toInt)

structure Frame where
  back : List Store
  card : List (ℤ × ℤ)

/-- `compose_rect`. -/
def composeRect (screen : Screen) (font : Font) (s : Server) (r : Rect) : Frame :=
  let (rx, rw) := trim screen.width r.x r.w
  let (ry, rh) := trim screen.height r.y r.h
  if rw ≤ 0 ∨ rh ≤ 0 then ⟨[], []⟩
  else
    ⟨paint font s (clipSet screen.width screen.height rx ry rw rh) rx ry rw rh, presentRect screen rx ry rw rh⟩

/-- `dirty[0..dirty_count)` and `dirty_all`. -/
structure Dirty where
  rects : List Rect := []
  all : Bool := false
  deriving DecidableEq, Repr

/-- `MAX_DIRTY`. -/
def maxDirty : ℕ := 24

/-- The overlap test of `wm_damage_rect`, with sixteen pixels of slack. -/
def near (a r : Rect) : Prop :=
  r.x < a.x + a.w + 16 ∧ a.x < r.x + r.w + 16 ∧ r.y < a.y + a.h + 16 ∧ a.y < r.y + r.h + 16

instance (a r : Rect) : Decidable (near a r) :=
  inferInstanceAs (Decidable (_ ∧ _ ∧ _ ∧ _))

def minInt (a b : Int32) : Int32 := if a < b then a else b

def maxInt (a b : Int32) : Int32 := if a > b then a else b

/-- The rectangle that takes the place of `a` when `r` is merged into it. -/
def union (a r : Rect) : Rect :=
  let nx := minInt a.x r.x
  let ny := minInt a.y r.y
  ⟨nx, ny, maxInt (a.x + a.w) (r.x + r.w) - nx, maxInt (a.y + a.h) (r.y + r.h) - ny⟩

/-- The loop of `wm_damage_rect`: into the first rectangle near by, else a new one at the end. -/
def absorb : List Rect → Rect → List Rect
  | [], r => [r]
  | a :: rest, r => if near a r then union a r :: rest else a :: absorb rest r

/-- `wm_damage_rect`. -/
def Dirty.damageRect (d : Dirty) (r : Rect) : Dirty :=
  if r.w ≤ 0 ∨ r.h ≤ 0 ∨ d.all then d
  else if d.rects.length = maxDirty then { d with all := true }
  else { d with rects := absorb d.rects r }

def Dirty.apply (d : Dirty) : Damage → Dirty
  | .rect r => d.damageRect r
  | .all => { d with all := true }

/-- The whole screen, as `compose` passes it on. -/
def wholeScreen (screen : Screen) : Rect := ⟨0, 0, screen.width, screen.height⟩

/-- The rectangles `compose` hands to `compose_rect`. -/
def Dirty.pending (screen : Screen) (d : Dirty) : List Rect :=
  if d.all then [wholeScreen screen] else d.rects

/-- `compose`, up to the reset of the damage list. -/
def compose (screen : Screen) (font : Font) (s : Server) (d : Dirty) : List Frame :=
  (d.pending screen).map (composeRect screen font s)

end SifarOS.Compositor
