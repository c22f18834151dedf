import Mathlib.Data.Int.Notation
import Mathlib.Data.Nat.Notation
import Mathlib.Data.List.Basic

/-! # Software graphics

The drawing primitives of `kernel/gfx/gfx.c`. A primitive is the list of the stores it makes, in
order: which pixels it writes depends on its arguments and on the clip rectangle only, and the
value written depends on the pixel that was there (a blend) or does not (everything else). An
`int` is an `Int32`, so every sum wraps as compiled. -/
namespace SifarOS.Graphics

/-- `struct gfx_rect`. -/
structure Rect where
  x : Int32
  y : Int32
  w : Int32
  h : Int32
  deriving DecidableEq, Repr

/-- A pixel, `0xAARRGGBB`. -/
abbrev Color := UInt32

def rgb (r g b : UInt32) : Color := (0xFF000000 : UInt32) ||| (r <<< 16) ||| (g <<< 8) ||| b

def rgba (r g b a : UInt32) : Color := (a <<< 24) ||| (r <<< 16) ||| (g <<< 8) ||| b

def colorR (c : Color) : UInt32 := (c >>> 16) &&& 0xFF

def colorG (c : Color) : UInt32 := (c >>> 8) &&& 0xFF

def colorB (c : Color) : UInt32 := c &&& 0xFF

def colorA (c : Color) : UInt32 := (c >>> 24) &&& 0xFF

/-- What becomes of the pixel a primitive stores to. -/
inductive Paint
  | set (color : Color)
  | blend (color : Color)
  deriving DecidableEq, Repr

/-- The new pixel over `dst`; the blend is the inner loop of `gfx_blend_rect`. -/
def Paint.apply : Paint → Color → Color
  | set color, _ => color
  | blend color, dst =>
    let alpha := colorA color
    let r := (colorR color * alpha + colorR dst * (255 - alpha)) / 255
    let g := (colorG color * alpha + colorG dst * (255 - alpha)) / 255
    let b := (colorB color * alpha + colorB dst * (255 - alpha)) / 255
    rgb r g b

/-- One store into a surface. The position is what `pixels + (size_t)row * stride + column` is
computed from, before anything else looks at it. -/
structure Store where
  column : ℤ
  row : ℤ
  paint : Paint
  deriving DecidableEq, Repr

/-- A surface that is drawn from: `struct gfx_surface` without the clip, which only drawing into
it would use. -/
structure Source where
  pixels : ℕ → Color
  width : Int32
  height : Int32
  stride : Int32

/-- One axis of the trimming to `[0, limit)` that `gfx_clip_set`, `gfx_present_rect` and
`compose_rect` all begin with. -/
def trim (limit pos len : Int32) : Int32 × Int32 :=
  let (pos, len) := if pos < 0 then (0, len + pos) else (pos, len)
  (pos, if pos + len > limit then limit - pos else len)

/-- `gfx_clip_set`: the clip rectangle of a surface of the given size. -/
def clipSet (width height x y w h : Int32) : Rect :=
  let (x, w) := trim width x w
  let (y, h) := trim height y h
  ⟨x, y, if w < 0 then 0 else w, if h < 0 then 0 else h⟩

/-- One axis of `clamp`, to the part of the clip rectangle that begins at `low` and is `room` long. -/
def clampAxis (low room pos len : Int32) : Int32 × Int32 :=
  let (pos, len) := if pos < low then (low, len - (low - pos)) else (pos, len)
  (pos, if pos + len > low + room then low + room - pos else len)

/-- `clamp`: the part of a rectangle inside the clip region, `none` when nothing is left. -/
def clamp (clip : Rect) (x y w h : Int32) : Option Rect :=
  let (x, w) := clampAxis clip.x clip.w x w
  let (y, h) := clampAxis clip.y clip.h y h
  if w > 0 ∧ h > 0 then some ⟨x, y, w, h⟩ else none

/-- The values of a counter that runs from 0 while it is below `n`. -/
def upTo (n : Int32) : List Int32 := (List.range n.toInt.toNat).map Int32.ofNat

/-- The rows and columns a loop nest over a clamped rectangle stores to. The row is an `int` sum;
the column is an index from the row's own pointer. -/
def fillStores (r : Rect) (paint : Paint) : List Store :=
  (upTo r.h).flatMap fun row => (upTo r.w).map fun col => ⟨r.x.toInt + col.toInt, (r.y + row).toInt, paint⟩

/-- `gfx_pixel`. -/
def pixel (clip : Rect) (x y : Int32) (color : Color) : List Store :=
  if x < clip.x ∨ y < clip.y ∨ x ≥ clip.x + clip.w ∨ y ≥ clip.y + clip.h then []
  else [⟨x.toInt, y.toInt, .set color⟩]

/-- `gfx_fill_rect`. -/
def fillRect (clip : Rect) (x y w h : Int32) (color : Color) : List Store :=
  match clamp clip x y w h with
  | none => []
  | some r => fillStores r (.set color)

/-- `gfx_blend_rect`. -/
def blendRect (clip : Rect) (x y w h : Int32) (color : Color) : List Store :=
  if colorA color = 255 then fillRect clip x y w h color
  else if colorA color = 0 then []
  else
    match clamp clip x y w h with
    | none => []
    | some r => fillStores r (.blend color)

/-- `gfx_hline`. -/
def hline (clip : Rect) (x y w : Int32) (color : Color) : List Store := fillRect clip x y w 1 color

/-- `gfx_vline`. -/
def vline (clip : Rect) (x y h : Int32) (color : Color) : List Store := fillRect clip x y 1 h color

/-- `gfx_frame_rect`. -/
def frameRect (clip : Rect) (x y w h : Int32) (color : Color) : List Store :=
  if w ≤ 0 ∨ h ≤ 0 then []
  else hline clip x y w color ++ hline clip x (y + h - 1) w color ++
    vline clip x y h color ++ vline clip (x + w - 1) y h color

/-- The colour of one row of a vertical gradient of `h` rows. -/
def gradientColor (h row : Int32) (top bottom : Color) : Color :=
  let upper := (h - 1 - row).toUInt32
  let lower := row.toUInt32
  let span := (if h - 1 ≠ 0 then h - 1 else 1).toUInt32
  let r := (colorR top * upper + colorR bottom * lower) / span
  let g := (colorG top * upper + colorG bottom * lower) / span
  let b := (colorB top * upper + colorB bottom * lower) / span
  rgb r g b

/-- `gfx_gradient_v`. -/
def gradientV (clip : Rect) (x y w h : Int32) (top bottom : Color) : List Store :=
  (upTo h).flatMap fun row => hline clip x (y + row) w (gradientColor h row top bottom)

/-- `gfx_blit`: rows that fall outside the source are skipped. -/
def blit (clip : Rect) (dx dy : Int32) (src : Source) (sx sy w h : Int32) : List Store :=
  match clamp clip dx dy w h with
  | none => []
  | some r =>
    let sx := sx + (r.x - dx)
    let sy := sy + (r.y - dy)
    (upTo r.h).flatMap fun row =>
      if sy + row < 0 ∨ sy + row ≥ src.height then []
      else (upTo r.w).map fun col =>
        ⟨r.x.toInt + col.toInt, (r.y + row).toInt,
          .set (src.pixels ((sy + row).toInt * src.stride.toInt + sx.toInt + col.toInt).toNat)⟩

def glyphW : Int32 := 8

def glyphH : Int32 := 16

/-- `font[4096]`: sixteen rows of eight pixels for each character. -/
abbrev Font := ℕ → UInt8

/-- `gfx_char`. -/
def char (font : Font) (clip : Rect) (x y : Int32) (c : UInt8) (color : Color) (scale : Int32) :
    List Store :=
  let scale := if scale < 1 then 1 else scale
  (upTo glyphH).flatMap fun row =>
    (upTo glyphW).flatMap fun col =>
      if (font (c.toNat * 16 + row.toInt.toNat)).toNat.testBit (7 - col.toInt.toNat) = false then []
      else if scale = 1 then pixel clip (x + col) (y + row) color
      else fillRect clip (x + col * scale) (y + row * scale) scale scale color

/-- `gfx_text`. -/
def text (font : Font) (clip : Rect) (x y : Int32) (string : List UInt8) (color : Color) (scale : Int32) :
    List Store :=
  let scale := if scale < 1 then 1 else scale
  match string with
  | [] => []
  | c :: rest =>
    if c = 10 then text font clip x (y + glyphH * scale) rest color scale
    else char font clip x y c color scale ++ text font clip (x + glyphW * scale) y rest color scale

/-- `gfx_text_clipped`: text that does not fit ends in three dots. -/
def textClipped (font : Font) (clip : Rect) (x y : Int32) (string : List UInt8) (color : Color)
    (scale maxWidth : Int32) : List Store :=
  let advance := glyphW * (if scale < 1 then 1 else scale)
  let room := maxWidth / advance
  let dot : UInt8 := 46
  if Int32.ofNat string.length ≤ room then text font clip x y string color scale
  else if room ≤ 3 then (upTo room).flatMap fun i => char font clip (x + i * advance) y dot color scale
  else
    ((upTo (room - 3)).flatMap fun i =>
      char font clip (x + i * advance) y (string.getD i.toInt.toNat 0) color scale) ++
    ((upTo 3).flatMap fun i => char font clip (x + (room - 3 + i) * advance) y dot color scale)

end SifarOS.Graphics
