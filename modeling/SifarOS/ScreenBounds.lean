import SifarOS.DrawnPixels
import SifarOS.Compositor
import SifarOS.WindowEdits

/-! # The compositor stays on the screen

Every clamp of the drawing code adds two `int`s before it compares, so the argument is about where a
sum can wrap: inside a clip rectangle that lies on the screen, drawing with moderate coordinates
stays in the clip; a window that is not skipped has moderate coordinates; and the rectangle
`compose_rect` clips to lies on the screen exactly when its own two sums do not wrap. -/
namespace SifarOS.ScreenBounds
open Graphics WindowServer Compositor MachineInt DrawnPixels WindowEdits

theorem screen_limits (screen : Screen) : 0 < screen.width.toInt ∧ screen.width.toInt ≤ 65535 ∧
    0 < screen.height.toInt ∧ screen.height.toInt ≤ 65535 :=
  ⟨Int32.lt_iff_toInt_lt.mp screen.width_pos, Int32.le_iff_toInt_le.mp screen.width_le,
    Int32.lt_iff_toInt_lt.mp screen.height_pos, Int32.le_iff_toInt_le.mp screen.height_le⟩

/-- A window near the screen: every coordinate of its decorations is moderate. -/
structure Near (w : Window) : Prop where
  x : Within 70000 w.x
  y : Within 70000 w.y
  width : Within 65535 w.width
  height : Within 65535 w.height

theorem within_const (n : ℕ) (h : n < 2147483648) : Within n (Int32.ofNat n) := by
  have hn := toInt_ofNat_small h
  exact ⟨by omega, by omega⟩

section Drawing
variable {width height : ℤ} {frame : Rect}

/-- A frame whose coordinates are far from wrapping. -/
structure FrameNear (frame : Rect) : Prop where
  x : Within 1000000 frame.x
  y : Within 1000000 frame.y
  w : Within 1000000 frame.w
  h : Within 1000000 frame.h

theorem Near.frameNear {w : Window} (h : Near w) : FrameNear w.frameRect := by
  have hborder : Within 1 wmBorder := within_const 1 (by omega)
  have hborder2 : Within 2 (wmBorder * 2) := within_const 2 (by omega)
  have htitle : Within 26 wmTitleHeight := within_const 26 (by omega)
  unfold Window.frameRect
  split
  · exact ⟨(h.x.sub hborder).mono (by omega), (h.y.sub htitle).mono (by omega),
      (h.width.add hborder2).mono (by omega),
      ((h.height.add htitle).add hborder).mono (by omega)⟩
  · exact ⟨h.x.mono (by omega), h.y.mono (by omega), h.width.mono (by omega), h.height.mono (by omega)⟩

theorem drawShadow_local (hf : FrameNear frame) : Local width height fun clip => drawShadow clip frame := by
  have four : Within 4 4 := within_const 4 (by omega)
  refine Local.append (Local.blendRect ?_ ?_ ?_ ?_ (by decide) (by decide))
    (Local.blendRect ?_ ?_ ?_ ?_ (by decide) (by decide))
  · exact (hf.x.add four).mono (by omega)
  · exact (hf.y.add hf.h).mono (by omega)
  · exact hf.w.mono (by omega)
  · exact four.mono (by omega)
  · exact (hf.x.add hf.w).mono (by omega)
  · exact (hf.y.add four).mono (by omega)
  · exact four.mono (by omega)
  · exact hf.h.mono (by omega)

theorem frameRect_local (hf : FrameNear frame) (color : Color) :
    Local width height fun clip => frameRect clip frame.x frame.y frame.w frame.h color := by
  have one : Within 1 1 := within_const 1 (by omega)
  have hx := hf.x.mono (c := 268435456) (by omega)
  have hy := hf.y.mono (c := 268435456) (by omega)
  have hw := hf.w.mono (c := 268435456) (by omega)
  have hh := hf.h.mono (c := 268435456) (by omega)
  have h1 := one.mono (c := 268435456) (by omega)
  have hbottom := (hf.y.add hf.h).sub one
  have hright := (hf.x.add hf.w).sub one
  unfold frameRect
  split
  · exact .nil
  · exact (((Local.fillRect hx hy hw h1 color).append
      (Local.fillRect hx (hbottom.mono (by omega)) hw h1 color)).append
      (Local.fillRect hx hy h1 hh color)).append (Local.fillRect (hright.mono (by omega)) hy h1 hh color)

theorem drawTitle_local (font : Font) (hf : FrameNear frame) (title : List UInt8) (active : Bool) :
    Local width height fun clip => drawTitle font clip frame title active := by
  have hright := hf.x.add hf.w
  have h44 := (hright.sub (within_const 44 (by omega))).mono (c := 268435456) (by omega)
  have h41 := (hright.sub (within_const 41 (by omega))).mono (c := 268435456) (by omega)
  have h24 := (hright.sub (within_const 24 (by omega))).mono (c := 268435456) (by omega)
  have hbutton := hf.y.add (within_const 6 (by omega))
  have hbar := (hbutton.add (within_const 10 (by omega))).mono (c := 268435456) (by omega)
  have hy := hbutton.mono (c := 268435456) (by omega)
  have h14 := (within_const 14 (by omega)).mono (c := 268435456) (by omega)
  have h8 := (within_const 8 (by omega)).mono (c := 268435456) (by omega)
  have h1 := (within_const 1 (by omega)).mono (c := 268435456) (by omega)
  exact ((((Local.textClipped font _ _ title _ _).append (Local.fillRect h44 hy h14 h14 _)).append
    (Local.fillRect h41 hbar h8 h1 _)).append (Local.fillRect h24 hy h14 h14 _)).append
    (Local.flatMap fun i _ => (Local.pixel _ _ _).append (Local.pixel _ _ _))

theorem drawDecorations_local (font : Font) {w : Window} (h : Near w) (active : Bool) :
    Local width height fun clip => drawDecorations font clip w active := by
  have hf := h.frameNear
  have hx := hf.x.mono (c := 268435456) (by omega)
  have hy := hf.y.mono (c := 268435456) (by omega)
  have hw := hf.w.mono (c := 268435456) (by omega)
  have h26 : Moderate wmTitleHeight := (within_const 26 (by omega)).mono (by omega)
  have h1 : Moderate 1 := (within_const 1 (by omega)).mono (by omega)
  exact ((((drawShadow_local hf).append (Local.fillRect hx hy hw h26 _)).append
    (Local.fillRect hx hy hw h1 _)).append (frameRect_local hf _)).append (drawTitle_local font hf _ _)

theorem drawWindow_local (font : Font) {w : Window} (h : Near w) (active : Bool) :
    Local width height fun clip => drawWindow font clip w active := by
  have hblit : Local width height fun clip => blit clip w.x w.y (surface w) 0 0 w.width w.height :=
    Local.blit (h.x.mono (by omega)) (h.y.mono (by omega)) (h.width.mono (by omega))
      (h.height.mono (by omega))
  unfold drawWindow
  split
  · exact (drawDecorations_local font h active).append hblit
  · exact Local.nil.append hblit

theorem drawCursor_local (x y : Int32) : Local width height fun clip => drawCursor clip x y := by
  unfold drawCursor
  refine Local.flatMap fun row _ => Local.flatMap fun col _ => ?_
  split
  · exact .pixel _ _ _
  · exact .pixel _ _ _
  · exact .nil

end Drawing

/-- A window that `compose_rect` does not skip is near the screen. -/
theorem near_of_drawn {screen : Screen} {w : Window} (hs : Allowed screen w.width w.height) {rx ry rw rh : Int32}
    (hx : AxisFits screen.width.toInt rx rw) (hy : AxisFits screen.height.toInt ry rh)
    (h : ¬missed w rx ry rw rh) : Near w := by
  obtain ⟨hW₀, hW₁, hH₀, hH₁⟩ := screen_limits screen
  have hsx := hx.sum
  have hsy := hy.sum
  obtain ⟨-, hx₁, hx₂, hx₃⟩ := hx
  obtain ⟨-, hy₁, hy₂, hy₃⟩ := hy
  obtain ⟨hw₀, hh₀, hw₁, hh₁⟩ := hs
  simp only [Int32.lt_iff_toInt_lt, Int32.le_iff_toInt_le] at hw₀ hh₀ hw₁ hh₁
  have hzero : (0 : Int32).toInt = 0 := rfl
  have hborder : wmBorder.toInt = 1 := rfl
  have hborder2 : (wmBorder * 2).toInt = 2 := rfl
  have htitle : wmTitleHeight.toInt = 26 := rfl
  have hrx := range w.x
  have hry := range w.y
  unfold missed at h
  simp only [not_or, ge_iff_le, Int32.le_iff_toInt_le, not_le, hsx, hsy] at h
  obtain ⟨h₁, h₂, h₃, h₄⟩ := h
  have hpos : -70000 ≤ w.x.toInt ∧ w.x.toInt ≤ 70000 ∧ -70000 ≤ w.y.toInt ∧ w.y.toInt ≤ 70000 := by
    unfold Window.frameRect at h₁ h₂ h₃ h₄
    split at h₁
    · next hd =>
      simp only [hd, if_true] at h₁ h₂ h₃ h₄
      have a₃ := add_exact (a := w.width) (b := wmBorder * 2) (by omega) (by omega)
      have a₄ := add_exact (a := w.height) (b := wmTitleHeight) (by omega) (by omega)
      have a₅ := add_exact (a := w.height + wmTitleHeight) (b := wmBorder) (by omega) (by omega)
      refine and_assoc.mp ⟨?_, ?_⟩
      · have a₁ := sub_cases w.x wmBorder
        have a₆ := add_cases (w.x - wmBorder) (w.width + wmBorder * 2)
        clear h₂ h₄
        constructor <;> omega
      · have a₂ := sub_cases w.y wmTitleHeight
        have a₇ := add_cases (w.y - wmTitleHeight) (w.height + wmTitleHeight + wmBorder)
        clear h₁ h₃
        constructor <;> omega
    · next hd =>
      simp only [hd] at h₁ h₂ h₃ h₄
      have a₁ := add_cases w.x w.width
      have a₂ := add_cases w.y w.height
      simp only [Bool.false_eq_true, if_false] at h₁ h₂ h₃ h₄
      refine ⟨?_, ?_, ?_, ?_⟩ <;> omega
  exact ⟨⟨hpos.1, hpos.2.1⟩, ⟨hpos.2.2.1, hpos.2.2.2⟩, ⟨by omega, by omega⟩, ⟨by omega, by omega⟩⟩

/-- The sum of a clamp wraps past the largest `int`. -/
def Overflows (pos len : Int32) : Prop := 0 ≤ pos.toInt ∧ 2147483648 ≤ pos.toInt + len.toInt

instance (pos len : Int32) : Decidable (Overflows pos len) := inferInstanceAs (Decidable (_ ∧ _))

section Trim
variable {limit pos len : Int32}

/-- A sum that has wrapped is negative, so nothing is trimmed. -/
theorem trim_of_overflows (hl : 0 < limit.toInt) (h : Overflows pos len) : trim limit pos len = (pos, len) := by
  obtain ⟨h₀, h₁⟩ := h
  have hs := add_cases pos len
  have hp := range pos
  have hn := range len
  have hzero : (0 : Int32).toInt = 0 := rfl
  unfold trim
  rw [if_neg (by rw [Int32.lt_iff_toInt_lt]; omega)]
  dsimp only
  rw [if_neg (by rw [gt_iff_lt, Int32.lt_iff_toInt_lt]; omega)]

/-- Otherwise what is left lies between 0 and the limit. -/
theorem trim_fits (hl : 0 < limit.toInt ∧ limit.toInt ≤ 65535) (h : ¬Overflows pos len)
    (hleft : 0 < (trim limit pos len).2.toInt) :
    AxisFits limit.toInt (trim limit pos len).1 (trim limit pos len).2 := by
  have hp := range pos
  have hn := range len
  have hzero : (0 : Int32).toInt = 0 := rfl
  unfold Overflows at h
  unfold trim at hleft ⊢
  by_cases hneg : pos < 0
  · have hs := add_cases len pos
    have ht := add_cases 0 (len + pos)
    have hd := sub_cases limit 0
    simp only [if_pos hneg] at hleft ⊢
    simp only [gt_iff_lt, Int32.lt_iff_toInt_lt] at hleft hneg ⊢
    split at hleft <;> next hgt =>
      simp only [hgt, if_true, if_false]
      exact ⟨by omega, by omega, by omega, by omega⟩
  · have hs := add_cases pos len
    have hd := sub_cases limit pos
    simp only [if_neg hneg] at hleft ⊢
    simp only [gt_iff_lt, Int32.lt_iff_toInt_lt] at hleft hneg ⊢
    split at hleft <;> next hgt =>
      simp only [hgt, if_true, if_false]
      exact ⟨by omega, by omega, by omega, by omega⟩

theorem trim_of_fits (h : AxisFits limit.toInt pos len) : trim limit pos len = (pos, len) := by
  have hs := h.sum
  obtain ⟨-, h₁, h₂, h₃⟩ := h
  have hzero : (0 : Int32).toInt = 0 := rfl
  unfold trim
  rw [if_neg (by rw [Int32.lt_iff_toInt_lt]; omega)]
  dsimp only
  rw [if_neg (by rw [gt_iff_lt, Int32.lt_iff_toInt_lt]; omega)]

/-- Trimming twice is trimming once. -/
theorem trim_trim (hl : 0 < limit.toInt ∧ limit.toInt ≤ 65535) (hleft : 0 < (trim limit pos len).2.toInt) :
    trim limit (trim limit pos len).1 (trim limit pos len).2 = trim limit pos len := by
  by_cases h : Overflows pos len
  · rw [trim_of_overflows hl.1 h]
    exact trim_of_overflows hl.1 h
  · exact trim_of_fits (trim_fits hl h hleft)

end Trim

/-- The clip rectangle `compose_rect` sets is the one it has trimmed to. -/
theorem clipSet_trim (screen : Screen) {r : Rect} (hx : 0 < (trim screen.width r.x r.w).2.toInt)
    (hy : 0 < (trim screen.height r.y r.h).2.toInt) :
    clipSet screen.width screen.height (trim screen.width r.x r.w).1 (trim screen.height r.y r.h).1
      (trim screen.width r.x r.w).2 (trim screen.height r.y r.h).2 =
    ⟨(trim screen.width r.x r.w).1, (trim screen.height r.y r.h).1, (trim screen.width r.x r.w).2,
      (trim screen.height r.y r.h).2⟩ := by
  obtain ⟨hW₀, hW₁, hH₀, hH₁⟩ := screen_limits screen
  have hzero : (0 : Int32).toInt = 0 := rfl
  unfold clipSet
  rw [trim_trim ⟨hW₀, hW₁⟩ hx, trim_trim ⟨hH₀, hH₁⟩ hy]
  dsimp only
  rw [if_neg (by rw [Int32.lt_iff_toInt_lt]; omega), if_neg (by rw [Int32.lt_iff_toInt_lt]; omega)]

/-- The position is a pixel of the screen. -/
def OnScreen (screen : Screen) (c r : ℤ) : Prop :=
  0 ≤ c ∧ c < screen.width.toInt ∧ 0 ≤ r ∧ r < screen.height.toInt

instance (screen : Screen) (c r : ℤ) : Decidable (OnScreen screen c r) :=
  inferInstanceAs (Decidable (_ ∧ _ ∧ _ ∧ _))

theorem Inside.onScreen {screen : Screen} {clip : Rect}
    (hc : Clipped screen.width.toInt screen.height.toInt clip) {c r : ℤ} (h : Inside clip c r) :
    OnScreen screen c r := by
  obtain ⟨h₁, h₂, h₃, h₄⟩ := h
  obtain ⟨-, hx₁, hx₂, hx₃⟩ := hc.x
  obtain ⟨-, hy₁, hy₂, hy₃⟩ := hc.y
  exact ⟨by omega, by omega, by omega, by omega⟩

theorem Local.inside {width height : ℤ} {op : Rect → List Store} (h : Local width height op) {clip : Rect}
    (hc : Clipped width height clip) {p : Store} (hp : p ∈ op clip) : Inside clip p.column p.row := by
  by_contra hout
  exact hits_ne_nil hp (h.outside hc hout)

/-- The windows `compose_rect` draws are in use and not skipped. -/
theorem drawnAt_some {s : Server} {rx ry rw rh : Int32} {k : ℕ} {w : Window} (h : drawnAt s rx ry rw rh k = some w) :
    ∃ i, (s.windows i).used ∧ s.windows i = w ∧ w.state ≠ .minimized ∧ ¬missed w rx ry rw rh := by
  unfold drawnAt at h
  split at h
  · cases h
  · next i hi =>
    split at h
    · cases h
    · next hm =>
      split at h
      · cases h
      · next hd =>
        obtain rfl := Option.some.inj h
        exact ⟨i, (WindowStacking.find_some hi).1, rfl, hm, hd⟩

/-- Painting with a clip on the screen stays in the clip. -/
theorem paint_inside {screen : Screen} (font : Font) {s : Server} (hs : ∀ i, Sized screen (s.windows i)) {clip : Rect}
    (hc : Clipped screen.width.toInt screen.height.toInt clip) {p : Store}
    (hp : p ∈ paint font s clip clip.x clip.y clip.w clip.h) : Inside clip p.column p.row := by
  obtain ⟨hx₀, hx₁, hx₂, hx₃⟩ := hc.x
  obtain ⟨hy₀, hy₁, hy₂, hy₃⟩ := hc.y
  unfold paint at hp
  rcases List.mem_append.mp hp with hp | hp
  · rcases List.mem_append.mp hp with hp | hp
    · by_contra hout
      refine hits_ne_nil hp ?_
      rw [hits_gradientV hc ⟨by omega, by omega⟩ ⟨hy₁, by omega⟩ ⟨by omega, by omega⟩,
        if_neg (fun h => hout h.1)]
    · obtain ⟨k, -, hp⟩ := List.mem_flatMap.mp hp
      split at hp
      · exact absurd hp List.not_mem_nil
      · next w hw =>
        obtain ⟨i, hu, rfl, -, hm⟩ := drawnAt_some hw
        exact Local.inside (drawWindow_local font (near_of_drawn (hs i hu) hc.x hc.y hm) _) hc hp
  · exact Local.inside (drawCursor_local s.cursorX s.cursorY) hc hp

/-- A rectangle `compose_rect` leaves the screen on: a sum wraps and neither axis is empty. -/
def Strays (screen : Screen) (r : Rect) : Prop :=
  (Overflows r.x r.w ∨ Overflows r.y r.h) ∧
    0 < (trim screen.width r.x r.w).2.toInt ∧ 0 < (trim screen.height r.y r.h).2.toInt

instance (screen : Screen) (r : Rect) : Decidable (Strays screen r) := inferInstanceAs (Decidable (_ ∧ _ ∧ _))

/-- Every pixel a frame stores or copies is on the screen. -/
def Frame.Proper (screen : Screen) (f : Frame) : Prop :=
  (∀ p ∈ f.back, OnScreen screen p.column p.row) ∧ ∀ p ∈ f.card, OnScreen screen p.1 p.2

theorem presentRect_onScreen {screen : Screen} {clip : Rect}
    (hc : Clipped screen.width.toInt screen.height.toInt clip) {p : ℤ × ℤ}
    (hp : p ∈ presentRect screen clip.x clip.y clip.w clip.h) : OnScreen screen p.1 p.2 := by
  unfold presentRect at hp
  rw [trim_of_fits hc.x, trim_of_fits hc.y] at hp
  dsimp only at hp
  split at hp
  · exact absurd hp List.not_mem_nil
  · obtain ⟨row, hrow, hp⟩ := List.mem_flatMap.mp hp
    obtain ⟨col, hcol, rfl⟩ := List.mem_map.mp hp
    have hr := mem_upTo.mp hrow
    have hk := mem_upTo.mp hcol
    obtain ⟨hx₀, hx₁, hx₂, hx₃⟩ := hc.x
    obtain ⟨hy₀, hy₁, hy₂, hy₃⟩ := hc.y
    have hs := add_cases clip.y row
    exact ⟨by dsimp only; omega, by dsimp only; omega, by dsimp only; omega, by dsimp only; omega⟩

theorem composeRect_proper {screen : Screen} (font : Font) {s : Server} (hs : ∀ i, Sized screen (s.windows i))
    {r : Rect} (h : ¬Strays screen r) : Frame.Proper screen (composeRect screen font s r) := by
  obtain ⟨hW₀, hW₁, hH₀, hH₁⟩ := screen_limits screen
  have hzero : (0 : Int32).toInt = 0 := rfl
  unfold composeRect
  dsimp only
  split
  · exact ⟨fun _ hp => absurd hp List.not_mem_nil, fun _ hp => absurd hp List.not_mem_nil⟩
  · next hleft =>
    simp only [not_or, Int32.le_iff_toInt_le, not_le, hzero] at hleft
    have hno : ¬(Overflows r.x r.w ∨ Overflows r.y r.h) := fun ho => h ⟨ho, hleft⟩
    have hx := trim_fits ⟨hW₀, hW₁⟩ (fun ho => hno (.inl ho)) hleft.1
    have hy := trim_fits ⟨hH₀, hH₁⟩ (fun ho => hno (.inr ho)) hleft.2
    rw [clipSet_trim screen hleft.1 hleft.2]
    generalize trim screen.width r.x r.w = a at hx
    generalize trim screen.height r.y r.h = b at hy
    have hc : Clipped screen.width.toInt screen.height.toInt ⟨a.1, b.1, a.2, b.2⟩ := ⟨hx, hy⟩
    exact ⟨fun p hp => Inside.onScreen hc (paint_inside font hs hc hp),
      fun p hp => presentRect_onScreen hc hp⟩

theorem clampAxis_self (low room : Int32) : clampAxis low room low room = (low, room) := by
  have hlow : ¬low < low := Int32.lt_irrefl
  have hsum : ¬low + room > low + room := Int32.lt_irrefl
  unfold clampAxis
  rw [if_neg hlow]
  dsimp only
  rw [if_neg hsum]

/-- A row of the background that `clamp` leaves as wide as the clip. -/
theorem mem_gradientV {top bottom : Color} (clip : Rect) (j col row : Int32) (hj : j ∈ upTo clip.h)
    (hcol : col ∈ upTo clip.w) (hw : 0 < clip.w)
    (hrow : row ∈ upTo (clampAxis clip.y clip.h (clip.y + j) 1).2) :
    ⟨clip.x.toInt + col.toInt, ((clampAxis clip.y clip.h (clip.y + j) 1).1 + row).toInt,
      .set (gradientColor clip.h j top bottom)⟩ ∈ gradientV clip clip.x clip.y clip.w clip.h top bottom := by
  have hzero : (0 : Int32).toInt = 0 := rfl
  have hh : (clampAxis clip.y clip.h (clip.y + j) 1).2 > 0 := by
    have := mem_upTo.mp hrow
    rw [gt_iff_lt, Int32.lt_iff_toInt_lt]
    omega
  refine List.mem_flatMap.mpr ⟨j, hj, ?_⟩
  unfold hline fillRect clamp
  rw [clampAxis_self]
  dsimp only
  rw [if_pos ⟨hw, hh⟩]
  exact List.mem_flatMap.mpr ⟨row, hrow, List.mem_map.mpr ⟨col, hcol, rfl⟩⟩

/-- When the sum over the columns wraps, the first row runs off to the right. -/
theorem gradientV_column (clip : Rect) (top bottom : Color) (hx : Overflows clip.x clip.w) (hw : 0 < clip.w.toInt)
    (hh : 0 < clip.h.toInt) :
    ∃ p ∈ gradientV clip clip.x clip.y clip.w clip.h top bottom, 2147483647 ≤ p.column := by
  have hrw := range clip.w
  have hrh := range clip.h
  have hzero : (0 : Int32).toInt = 0 := rfl
  have hone : (1 : Int32).toInt = 1 := rfl
  have hk : (counter (clip.w.toInt - 1)).toInt = clip.w.toInt - 1 := counter_toInt (by omega) (by omega)
  have hpos : 0 < (clampAxis clip.y clip.h (clip.y + 0) 1).2.toInt := by
    unfold clampAxis
    rw [Int32.add_zero, if_neg Int32.lt_irrefl]
    dsimp only
    split
    · have hs := sub_cases (clip.y + clip.h) clip.y
      have ha := add_cases clip.y clip.h
      omega
    · omega
  refine ⟨_, mem_gradientV clip 0 (counter (clip.w.toInt - 1)) 0 (mem_upTo.mpr ⟨by omega, by omega⟩)
    (mem_upTo.mpr ⟨by omega, by omega⟩) (by rw [Int32.lt_iff_toInt_lt]; omega)
    (mem_upTo.mpr ⟨by omega, by omega⟩), ?_⟩
  unfold Overflows at hx
  dsimp only
  omega

/-- When the sum over the rows wraps, one row is the largest `int`. -/
theorem gradientV_row (clip : Rect) (top bottom : Color) (hy : Overflows clip.y clip.h) (hw : 0 < clip.w.toInt) :
    ∃ p ∈ gradientV clip clip.x clip.y clip.w clip.h top bottom, 2147483647 ≤ p.row := by
  have hrh := range clip.h
  have hry := range clip.y
  have hzero : (0 : Int32).toInt = 0 := rfl
  have hone : (1 : Int32).toInt = 1 := rfl
  obtain ⟨hy₀, hy₁⟩ := hy
  have hk : (counter (2147483647 - clip.y.toInt)).toInt = 2147483647 - clip.y.toInt :=
    counter_toInt (by omega) (by omega)
  have hs := add_cases clip.y (counter (2147483647 - clip.y.toInt))
  have hlast : (clip.y + counter (2147483647 - clip.y.toInt)).toInt = 2147483647 := by omega
  have hclamp : clampAxis clip.y clip.h (clip.y + counter (2147483647 - clip.y.toInt)) 1 =
      (clip.y + counter (2147483647 - clip.y.toInt), 1) := by
    have ha := add_cases clip.y clip.h
    have hb := add_cases (clip.y + counter (2147483647 - clip.y.toInt)) 1
    unfold clampAxis
    rw [if_neg (by rw [Int32.lt_iff_toInt_lt]; omega)]
    dsimp only
    rw [if_neg (by rw [gt_iff_lt, Int32.lt_iff_toInt_lt]; omega)]
  refine ⟨_, mem_gradientV clip (counter (2147483647 - clip.y.toInt)) 0 0
    (mem_upTo.mpr ⟨by omega, by omega⟩) (mem_upTo.mpr ⟨by omega, by omega⟩)
    (by rw [Int32.lt_iff_toInt_lt]; omega) ?_, ?_⟩
  · rw [hclamp]
    exact mem_upTo.mpr ⟨by omega, by dsimp only; omega⟩
  · dsimp only
    rw [hclamp, Int32.add_zero]
    exact hlast.ge

theorem composeRect_strays {screen : Screen} (font : Font) (s : Server) {r : Rect} (h : Strays screen r) :
    ¬Frame.Proper screen (composeRect screen font s r) := by
  obtain ⟨hW₀, hW₁, hH₀, hH₁⟩ := screen_limits screen
  have hzero : (0 : Int32).toInt = 0 := rfl
  obtain ⟨hover, hx, hy⟩ := h
  have hcompose : (composeRect screen font s r).back = paint font s
      ⟨(trim screen.width r.x r.w).1, (trim screen.height r.y r.h).1, (trim screen.width r.x r.w).2,
        (trim screen.height r.y r.h).2⟩ (trim screen.width r.x r.w).1 (trim screen.height r.y r.h).1
      (trim screen.width r.x r.w).2 (trim screen.height r.y r.h).2 := by
    unfold composeRect
    dsimp only
    rw [clipSet_trim screen hx hy, if_neg]
    simp only [not_or, Int32.le_iff_toInt_le, not_le, hzero]
    exact ⟨hx, hy⟩
  have hover' : Overflows (trim screen.width r.x r.w).1 (trim screen.width r.x r.w).2 ∨
      Overflows (trim screen.height r.y r.h).1 (trim screen.height r.y r.h).2 := by
    rcases hover with ho | ho
    · exact .inl (by rw [trim_of_overflows hW₀ ho]; exact ho)
    · exact .inr (by rw [trim_of_overflows hH₀ ho]; exact ho)
  rintro ⟨hback, -⟩
  rw [hcompose] at hback
  generalize hclip : (⟨(trim screen.width r.x r.w).1, (trim screen.height r.y r.h).1, (trim screen.width r.x r.w).2,
    (trim screen.height r.y r.h).2⟩ : Rect) = clip at hback
  have hin : ∀ p ∈ gradientV clip clip.x clip.y clip.w clip.h colorDesktopTop colorDesktopBottom,
      OnScreen screen p.column p.row := by
    intro p hp
    refine hback p (List.mem_append_left _ (List.mem_append_left _ ?_))
    rw [← hclip] at hp ⊢
    exact hp
  subst hclip
  rcases hover' with ho | ho
  · obtain ⟨p, hp, hcol⟩ := gradientV_column ⟨_, _, _, _⟩ colorDesktopTop colorDesktopBottom ho hx hy
    obtain ⟨-, hlt, -, -⟩ := hin p hp
    omega
  · obtain ⟨p, hp, hrow⟩ := gradientV_row ⟨_, _, _, _⟩ colorDesktopTop colorDesktopBottom ho hx
    obtain ⟨-, -, -, hlt⟩ := hin p hp
    omega

/-- The server and the damage list. -/
structure Desktop where
  server : Server
  dirty : Dirty

namespace Desktop

/-- A call, and the damage it asks for. -/
def call (screen : Screen) (d : Desktop) (c : Call) : Desktop :=
  let s := { d.server with damage := [] }.run screen c
  ⟨s, s.damage.foldl Dirty.apply d.dirty⟩

/-- `compose` leaves an empty damage list. -/
def composed (d : Desktop) : Desktop := ⟨d.server, {}⟩

def init (screen : Screen) : Desktop := ⟨wmInit screen, { all := true }⟩

/-- Every run of calls, input and compositor passes. -/
def Step (screen : Screen) (d d' : Desktop) : Prop := (∃ c, d' = d.call screen c) ∨ d' = d.composed

abbrev Reached (screen : Screen) : Desktop → Prop :=
  ReachableStates.Reachable (· = init screen) (Step screen)

end Desktop

/-- Every window in use fits the screen. -/
def Desktop.AllSized (screen : Screen) (d : Desktop) : Prop := ∀ i, Sized screen (d.server.windows i)

theorem Desktop.Reached.sized {screen : Screen} {d : Desktop} (h : Desktop.Reached screen d) : d.AllSized screen := by
  refine ReachableStates.Reachable.invariant h ?_ ?_
  · rintro d rfl i hu
    cases hu
  · rintro d d' hd (⟨c, rfl⟩ | rfl)
    · exact run_keeps Sized.edit (s := { d.server with damage := [] }) hd c
    · exact hd

/-- What `compose` would store and copy in this state is all on the screen. -/
def Desktop.Proper (screen : Screen) (font : Font) (d : Desktop) : Prop :=
  ∀ f ∈ compose screen font d.server d.dirty, Frame.Proper screen f

theorem Desktop.proper_iff {screen : Screen} {d : Desktop} (font : Font) (hs : d.AllSized screen) :
    d.Proper screen font ↔ ∀ r ∈ d.dirty.pending screen, ¬Strays screen r := by
  unfold Desktop.Proper compose
  rw [List.forall_mem_map]
  exact forall₂_congr fun r _ =>
    ⟨fun hp hr => composeRect_strays font d.server hr hp, fun hr => composeRect_proper font hs hr⟩

/-- In every state a run reaches, `compose` stays on the screen if and only if none of the rectangles
it is to repaint strays. -/
theorem compose_on_screen (screen : Screen) (font : Font) {d : Desktop} (h : Desktop.Reached screen d) :
    d.Proper screen font ↔ ∀ r ∈ d.dirty.pending screen, ¬Strays screen r :=
  Desktop.proper_iff font (Desktop.Reached.sized h)

open WindowStacking in
theorem compose_on_screen_created :
    let d := (Desktop.init xga).composed.call xga (.create 1 200 100 [] 0 true)
    d.dirty.pending xga = [⟨55, 30, 210, 135⟩] ∧ d.Proper xga fun _ => 0 := by
  refine ⟨by decide, (compose_on_screen xga _ (.next (.next (.start rfl) (.inr rfl)) (.inl ⟨_, rfl⟩))).mpr ?_⟩
  decide

open WindowStacking in
/-- A window moved to the far right leaves the screen and takes the compositor with it. -/
theorem compose_off_screen : ¬∀ d, Desktop.Reached xga d → d.Proper xga fun _ => 0 := by
  intro h
  have hd := h ((((Desktop.init xga).composed.call xga (.create 1 200 100 [] 0 true)).composed).call xga
    (.move 1 1 2147483600 100)) (.next (.next (.next (.next (.start rfl) (.inr rfl)) (.inl ⟨_, rfl⟩)) (.inr rfl))
      (.inl ⟨_, rfl⟩))
  have hr : (⟨2147483595, 70, 210, 135⟩ : Rect) ∈ ((((Desktop.init xga).composed.call xga
    (.create 1 200 100 [] 0 true)).composed).call xga (.move 1 1 2147483600 100)).dirty.pending xga := by decide
  exact composeRect_strays _ _ (by decide) (hd _ (List.mem_map_of_mem hr))

end SifarOS.ScreenBounds
