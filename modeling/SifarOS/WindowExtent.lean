import SifarOS.ScreenBounds

/-! # How far a window reaches

`damage_window` asks for the frame of a window and four pixels around it, which is where the shadow
ends. The buttons of the title bar are placed from the right edge of the frame, and a line break in the
title starts a new line below, so a window can paint outside of that rectangle: to the left of it when
it is narrow, and below it when its title has lines. -/
namespace SifarOS.WindowExtent
open Graphics WindowServer Compositor MachineInt DrawnPixels WindowEdits ScreenBounds

/-- Every store goes to a position of `P`. -/
def Confined (P : ℤ → ℤ → Prop) (l : List Store) : Prop := ∀ p ∈ l, P p.column p.row

section Confined
variable {P Q : ℤ → ℤ → Prop} {l l' : List Store}

theorem Confined.nil : Confined P [] := fun _ hp => absurd hp List.not_mem_nil

theorem Confined.append (h : Confined P l) (h' : Confined P l') : Confined P (l ++ l') := by
  intro p hp
  rcases List.mem_append.mp hp with hp | hp
  · exact h p hp
  · exact h' p hp

theorem Confined.flatMap {α : Type*} {xs : List α} {f : α → List Store} (h : ∀ a ∈ xs, Confined P (f a)) :
    Confined P (xs.flatMap f) := by
  intro p hp
  obtain ⟨a, ha, hp⟩ := List.mem_flatMap.mp hp
  exact h a ha p hp

theorem Confined.mono (h : Confined P l) (hPQ : ∀ c r, P c r → Q c r) : Confined Q l := fun p hp => hPQ _ _ (h p hp)

theorem Confined.of_hits (h : ∀ c r, ¬P c r → hits l c r = []) : Confined P l := by
  intro p hp
  by_contra hn
  exact hits_ne_nil hp (h _ _ hn)

/-- Where something is hit there is a store. -/
theorem Confined.hit (h : Confined P l) {c r : ℤ} (hne : hits l c r ≠ []) : P c r := by
  obtain ⟨paint, hpaint⟩ := List.exists_mem_of_ne_nil _ hne
  obtain ⟨p, hp, hmatch⟩ := List.mem_filterMap.mp hpaint
  split at hmatch
  · next hpos =>
    rw [← hpos.1, ← hpos.2]
    exact h p hp
  · cases hmatch

end Confined

section Primitives
variable {width height : ℤ} {clip : Rect}

theorem confined_fillRect (hclip : Clipped width height clip) {x y w h : Int32} (hx : Moderate x) (hy : Moderate y)
    (hw : Moderate w) (hh : Moderate h) (color : Color) : Confined (Covers x y w h) (fillRect clip x y w h color) := by
  refine .of_hits fun c r hn => ?_
  rw [hits_fillRect hclip hx hy hw hh, if_neg fun hc => hn hc.2]

theorem confined_blendRect (hclip : Clipped width height clip) {x y w h : Int32} (hx : Moderate x) (hy : Moderate y)
    (hw : Moderate w) (hh : Moderate h) {color : Color} (h₀ : colorA color ≠ 0) (h₁ : colorA color ≠ 255) :
    Confined (Covers x y w h) (blendRect clip x y w h color) := by
  refine .of_hits fun c r hn => ?_
  rw [hits_blendRect hclip hx hy hw hh h₀ h₁, if_neg fun hc => hn hc.2]

theorem confined_blit (hclip : Clipped width height clip) {x y : Int32} (src : Source) (hx : Moderate x)
    (hy : Moderate y) (hw : Moderate src.width) (hh : Moderate src.height) :
    Confined (Covers x y src.width src.height) (blit clip x y src 0 0 src.width src.height) := by
  refine .of_hits fun c r hn => ?_
  rw [hits_blit hclip src hx hy hw hh, if_neg fun hc => hn hc.2]

theorem confined_pixel (clip : Rect) (x y : Int32) (color : Color) :
    Confined (fun c r => x.toInt = c ∧ y.toInt = r) (pixel clip x y color) := by
  unfold pixel
  split
  · exact .nil
  · intro p hp
    obtain rfl := List.mem_singleton.mp hp
    exact ⟨rfl, rfl⟩

/-- A position from which a few thousand pixels to the right and below can be counted. -/
structure Anchor (x y : Int32) : Prop where
  x : Within 4000000 x
  y : Within 4000000 y

/-- The pixels of a box that begins at a position. -/
def Box (x y : Int32) (w h : ℤ) (c r : ℤ) : Prop := x.toInt ≤ c ∧ c < x.toInt + w ∧ y.toInt ≤ r ∧ r < y.toInt + h

theorem confined_char (font : Font) (clip : Rect) {x y : Int32} (h : Anchor x y) (ch : UInt8) (color : Color) :
    Confined (Box x y 8 16) (Graphics.char font clip x y ch color 1) := by
  obtain ⟨⟨hx₁, hx₂⟩, hy₁, hy₂⟩ := h
  have hw : glyphW.toInt = 8 := rfl
  have hh : glyphH.toInt = 16 := rfl
  unfold Graphics.char
  refine .flatMap fun row hrow => .flatMap fun col hcol => ?_
  have hr := mem_upTo.mp hrow
  have hc := mem_upTo.mp hcol
  split
  · exact .nil
  · refine (confined_pixel clip _ _ color).mono fun c r => ?_
    rintro ⟨rfl, rfl⟩
    have hsx := add_cases x col
    have hsy := add_cases y row
    unfold Box
    omega

/-- The lines of a string are as many as its line breaks, and one more. -/
theorem confined_text (font : Font) (clip : Rect) {x y : Int32} (color : Color) {string : List UInt8}
    (hx : -2000000 ≤ x.toInt ∧ x.toInt + 8 * string.length ≤ 4000000)
    (hy : -2000000 ≤ y.toInt ∧ y.toInt + 16 * string.length ≤ 4000000) :
    Confined (Box x y (8 * string.length) (16 * (string.count 10 + 1)))
      (Graphics.text font clip x y string color 1) := by
  have hw : glyphW.toInt = 8 := rfl
  have hh : glyphH.toInt = 16 := rfl
  induction string generalizing x y with
  | nil => exact .nil
  | cons ch rest ih =>
    have hcount : rest.count 10 ≤ rest.length := List.count_le_length
    rw [List.length_cons] at hx hy ⊢
    simp only [Graphics.text, ite_self]
    split
    · next hbreak =>
      have hs : (y + glyphH * 1).toInt = y.toInt + 16 := by
        have := add_cases y (glyphH * 1)
        have h16 : (glyphH * 1).toInt = 16 := rfl
        omega
      refine (ih ⟨hx.1, by omega⟩ ⟨by omega, by omega⟩).mono fun c r => ?_
      unfold Box
      rw [hs, hbreak, List.count_cons_self]
      omega
    · next hchar =>
      have hs : (x + glyphW * 1).toInt = x.toInt + 8 := by
        have := add_cases x (glyphW * 1)
        have h8 : (glyphW * 1).toInt = 8 := rfl
        omega
      rw [List.count_cons_of_ne hchar]
      refine Confined.append ((confined_char font clip ⟨⟨by omega, by omega⟩, ⟨by omega, by omega⟩⟩ ch color).mono ?_)
        ((ih ⟨by omega, by omega⟩ ⟨hy.1, by omega⟩).mono ?_)
      · intro c r
        unfold Box
        omega
      · intro c r
        unfold Box
        rw [hs]
        omega

/-- The characters that have room in a width. -/
def room (maxWidth : Int32) : Int32 := maxWidth / 8

theorem room_bounds {maxWidth : Int32} (h : Within 1100000 maxWidth) :
    -1100000 ≤ (room maxWidth).toInt ∧ 8 * (room maxWidth).toInt ≤ max maxWidth.toInt 0 := by
  obtain ⟨h₁, h₂⟩ := h
  have hmin : maxWidth ≠ Int32.minValue := by
    rintro rfl
    exact absurd h₁ (by decide)
  have height : (8 : Int32).toInt = 8 := rfl
  rw [room, Int32.toInt_div_of_ne_left _ _ hmin, height]
  rcases Int.le_total 0 maxWidth.toInt with hpos | hneg
  · rw [Int.tdiv_eq_ediv_of_nonneg hpos]
    omega
  · have hflip : maxWidth.toInt.tdiv 8 = -(-maxWidth.toInt / 8) := by
      rw [← Int.tdiv_eq_ediv_of_nonneg (by omega), Int.neg_tdiv, Int.neg_neg]
    rw [hflip]
    omega

/-- The lines `gfx_text_clipped` draws: a string that has to be cut is drawn character by character. -/
def lines (string : List UInt8) (maxWidth : Int32) : ℕ :=
  if Int32.ofNat string.length ≤ room maxWidth then string.count 10 + 1 else 1

theorem confined_textClipped (font : Font) (clip : Rect) {x y maxWidth : Int32} (hx : Within 1100000 x)
    (hy : Within 1100000 y) (hw : Within 1100000 maxWidth) {string : List UInt8} (hlen : string.length < 2147483648)
    (color : Color) :
    Confined (Box x y (max maxWidth.toInt 0) (16 * lines string maxWidth))
      (textClipped font clip x y string color 1 maxWidth) := by
  obtain ⟨hx₁, hx₂⟩ := hx
  obtain ⟨hy₁, hy₂⟩ := hy
  obtain ⟨hroom₁, hroom₂⟩ := room_bounds hw
  obtain ⟨hw₁, hw₂⟩ := hw
  have hadvance : glyphW * 1 = 8 := rfl
  have hlength := toInt_ofNat_small hlen
  have hthree : (3 : Int32).toInt = 3 := rfl
  have height : (8 : Int32).toInt = 8 := rfl
  -- a character that has room
  have hchar : ∀ (i : Int32) (ch : UInt8), 0 ≤ i.toInt → i.toInt < (room maxWidth).toInt →
      Confined (Box x y (max maxWidth.toInt 0) 16) (Graphics.char font clip (x + i * 8) y ch color 1) := by
    intro i ch h₀ h₁
    have hmul : (i * 8).toInt = i.toInt * 8 := by
      rw [Int32.toInt_mul, height, Int.bmod_eq_of_le (by omega) (by omega)]
    have hsum := add_cases x (i * 8)
    refine (confined_char font clip ⟨⟨by omega, by omega⟩, ⟨by omega, by omega⟩⟩ ch color).mono fun c r => ?_
    unfold Box
    omega
  unfold textClipped lines
  simp only [ite_self, hadvance]
  change Confined _ (if Int32.ofNat string.length ≤ room maxWidth then _ else _)
  split
  · next hfits =>
    rw [Int32.le_iff_toInt_le, hlength] at hfits
    refine (confined_text font clip color ⟨by omega, by omega⟩ ⟨by omega, by omega⟩).mono fun c r => ?_
    unfold Box
    omega
  · change Confined _ (if room maxWidth ≤ 3 then _ else _)
    split
    · refine .flatMap fun i hi => ?_
      have hb := mem_upTo.mp hi
      exact hchar i _ hb.1 hb.2
    · next hmore =>
      rw [Int32.le_iff_toInt_le, hthree] at hmore
      have hsub : (room maxWidth - 3).toInt = (room maxWidth).toInt - 3 := by
        have := sub_cases (room maxWidth) 3
        omega
      refine Confined.append (.flatMap fun i hi => ?_) (.flatMap fun i hi => ?_)
      · have hb := mem_upTo.mp hi
        change 0 ≤ i.toInt ∧ i.toInt < (room maxWidth - 3).toInt at hb
        exact hchar i _ hb.1 (by omega)
      · have hb := mem_upTo.mp hi
        have hsum := add_cases (room maxWidth - 3) i
        exact hchar (room maxWidth - 3 + i) _ (by omega) (by omega)

end Primitives

/-- The frame and four pixels around it. -/
def Around (frame : Rect) (c r : ℤ) : Prop :=
  frame.x.toInt - 4 ≤ c ∧ c < frame.x.toInt + frame.w.toInt + 4 ∧
    frame.y.toInt - 4 ≤ r ∧ r < frame.y.toInt + frame.h.toInt + 4

section Decorations
variable {width height : ℤ} {clip frame : Rect}

/-- The rectangle `damage_window` asks for. -/
theorem covers_damageFrame {w : Window} (h : FrameNear w.frameRect) {c r : ℤ} (ha : Around w.frameRect c r) :
    Covers (Server.damageFrame w).x (Server.damageFrame w).y (Server.damageFrame w).w (Server.damageFrame w).h c r := by
  obtain ⟨⟨hx₁, hx₂⟩, ⟨hy₁, hy₂⟩, ⟨hw₁, hw₂⟩, hh₁, hh₂⟩ := h
  have four : (4 : Int32).toInt = 4 := rfl
  have eight : (8 : Int32).toInt = 8 := rfl
  have a₁ := sub_cases w.frameRect.x 4
  have a₂ := sub_cases w.frameRect.y 4
  have a₃ := add_cases w.frameRect.w 8
  have a₄ := add_cases w.frameRect.h 8
  unfold Around at ha
  unfold Covers Server.damageFrame
  dsimp only
  omega

theorem confined_shadow (hclip : Clipped width height clip) (hf : FrameNear frame) (hw₀ : 0 ≤ frame.w.toInt)
    (hh₀ : 0 ≤ frame.h.toInt) : Confined (Around frame) (drawShadow clip frame) := by
  obtain ⟨⟨hx₁, hx₂⟩, ⟨hy₁, hy₂⟩, ⟨hw₁, hw₂⟩, hh₁, hh₂⟩ := hf
  have four : (4 : Int32).toInt = 4 := rfl
  have a₁ := add_cases frame.x 4
  have a₂ := add_cases frame.y frame.h
  have a₃ := add_cases frame.x frame.w
  have a₄ := add_cases frame.y 4
  refine Confined.append ((confined_blendRect hclip ?_ ?_ ?_ ?_ (by decide) (by decide)).mono fun c r => ?_)
    ((confined_blendRect hclip ?_ ?_ ?_ ?_ (by decide) (by decide)).mono fun c r => ?_)
  · exact ⟨by omega, by omega⟩
  · exact ⟨by omega, by omega⟩
  · exact ⟨by omega, by omega⟩
  · exact ⟨by omega, by omega⟩
  · unfold Covers Around
    omega
  · exact ⟨by omega, by omega⟩
  · exact ⟨by omega, by omega⟩
  · exact ⟨by omega, by omega⟩
  · exact ⟨by omega, by omega⟩
  · unfold Covers Around
    omega

theorem confined_frameRect (hclip : Clipped width height clip) (hf : FrameNear frame) (color : Color) :
    Confined (Around frame) (frameRect clip frame.x frame.y frame.w frame.h color) := by
  obtain ⟨⟨hx₁, hx₂⟩, ⟨hy₁, hy₂⟩, ⟨hw₁, hw₂⟩, hh₁, hh₂⟩ := hf
  have hone : (1 : Int32).toInt = 1 := rfl
  have hzero : (0 : Int32).toInt = 0 := rfl
  have a₁ := add_cases frame.y frame.h
  have a₂ := sub_cases (frame.y + frame.h) 1
  have a₃ := add_cases frame.x frame.w
  have a₄ := sub_cases (frame.x + frame.w) 1
  have hx : Moderate frame.x := ⟨by omega, by omega⟩
  have hy : Moderate frame.y := ⟨by omega, by omega⟩
  have hw : Moderate frame.w := ⟨by omega, by omega⟩
  have hh : Moderate frame.h := ⟨by omega, by omega⟩
  have h1 : Moderate 1 := ⟨by omega, by omega⟩
  have hbottom : Moderate (frame.y + frame.h - 1) := ⟨by omega, by omega⟩
  have hright : Moderate (frame.x + frame.w - 1) := ⟨by omega, by omega⟩
  unfold frameRect
  split
  · exact .nil
  · next hpos =>
    simp only [not_or, Int32.le_iff_toInt_le, not_le, hzero] at hpos
    refine ((Confined.append ?_ ?_).append ?_).append ?_
    · refine (confined_fillRect hclip hx hy hw h1 color).mono fun c r => ?_
      unfold Covers Around
      omega
    · refine (confined_fillRect hclip hx hbottom hw h1 color).mono fun c r => ?_
      unfold Covers Around
      omega
    · refine (confined_fillRect hclip hx hy h1 hh color).mono fun c r => ?_
      unfold Covers Around
      omega
    · refine (confined_fillRect hclip hright hy h1 hh color).mono fun c r => ?_
      unfold Covers Around
      omega

/-- A rectangle of the title bar, placed from the right edge of the frame and from the top of the buttons. -/
theorem confined_button (hclip : Clipped width height clip) (hf : FrameNear frame) (hw40 : 40 ≤ frame.w.toInt)
    (hh28 : 28 ≤ frame.h.toInt) (right : ℕ) {w h : ℕ} (y : Int32) (hy : frame.y.toInt ≤ y.toInt)
    (hbottom : y.toInt + h ≤ frame.y.toInt + 28) (hright : right ≤ 44) (hw : w ≤ right) (hh : h ≤ 28) (color : Color) :
    Confined (Around frame)
      (fillRect clip (frame.x + frame.w - Int32.ofNat right) y (Int32.ofNat w) (Int32.ofNat h) color) := by
  have hedge := hf.x.add hf.w
  have hplace : (frame.x + frame.w - Int32.ofNat right).toInt = frame.x.toInt + frame.w.toInt - right := by
    rw [hedge.toInt_sub (within_const right (by omega)) (by omega), hf.x.toInt_add hf.w (by omega),
      toInt_ofNat_small (by omega)]
  have hwidth := toInt_ofNat_small (n := w) (by omega)
  have hheight := toInt_ofNat_small (n := h) (by omega)
  obtain ⟨⟨hx₁, hx₂⟩, ⟨hy₁, hy₂⟩, ⟨hw₁, hw₂⟩, hh₁, hh₂⟩ := hf
  refine (confined_fillRect hclip ⟨by omega, by omega⟩ ⟨by omega, by omega⟩ ⟨by omega, by omega⟩
    ⟨by omega, by omega⟩ color).mono fun c r => ?_
  unfold Covers Around
  omega

/-- The cross on the close button. -/
theorem confined_cross (clip : Rect) (hf : FrameNear frame) (hw40 : 40 ≤ frame.w.toInt) (hh28 : 28 ≤ frame.h.toInt)
    (color : Color) {i : Int32} (hi : i ∈ upTo 8) :
    Confined (Around frame)
      (pixel clip (frame.x + frame.w - 21 + i) (frame.y + 6 + 3 + i) color ++
        pixel clip (frame.x + frame.w - 21 + i) (frame.y + 6 + 10 - i) color) := by
  have hib := mem_upTo.mp hi
  have hbound : Within 8 i := ⟨by omega, hib.2.le⟩
  have w₂₁ : Within 21 (21 : Int32) := within_const 21 (by omega)
  have w₆ : Within 6 (6 : Int32) := within_const 6 (by omega)
  have w₃ : Within 3 (3 : Int32) := within_const 3 (by omega)
  have w₁₀ : Within 10 (10 : Int32) := within_const 10 (by omega)
  have hedge := hf.x.add hf.w
  have htop := hf.y.add w₆
  have hx : (frame.x + frame.w - 21 + i).toInt = frame.x.toInt + frame.w.toInt - 21 + i.toInt := by
    rw [(hedge.sub w₂₁).toInt_add hbound (by omega), hedge.toInt_sub w₂₁ (by omega), hf.x.toInt_add hf.w (by omega)]
    rfl
  have hdown : (frame.y + 6 + 3 + i).toInt = frame.y.toInt + 6 + 3 + i.toInt := by
    rw [(htop.add w₃).toInt_add hbound (by omega), htop.toInt_add w₃ (by omega), hf.y.toInt_add w₆ (by omega)]
    rfl
  have hup : (frame.y + 6 + 10 - i).toInt = frame.y.toInt + 6 + 10 - i.toInt := by
    rw [(htop.add w₁₀).toInt_sub hbound (by omega), htop.toInt_add w₁₀ (by omega), hf.y.toInt_add w₆ (by omega)]
    rfl
  have hlast : i.toInt < 8 := hib.2
  refine Confined.append ((confined_pixel clip _ _ color).mono ?_) ((confined_pixel clip _ _ color).mono ?_)
  · rintro c r ⟨rfl, rfl⟩
    rw [hx, hdown]
    unfold Around
    omega
  · rintro c r ⟨rfl, rfl⟩
    rw [hx, hup]
    unfold Around
    omega

/-- The buttons stay inside when the frame is wide enough, and the text when its lines fit. -/
theorem confined_title (font : Font) (hclip : Clipped width height clip) (hf : FrameNear frame)
    (hw40 : 40 ≤ frame.w.toInt) (hh28 : 28 ≤ frame.h.toInt) {title : List UInt8} (hlen : title.length < 2147483648)
    (hlines : 16 * (lines title (frame.w - 80) : ℤ) + 1 ≤ frame.h.toInt) (active : Bool) :
    Confined (Around frame) (drawTitle font clip frame title active) := by
  have hy : (frame.y + 6).toInt = frame.y.toInt + 6 := hf.y.toInt_add (within_const 6 (by omega)) (by omega)
  have hbar : (frame.y + 6 + 10).toInt = (frame.y + 6).toInt + 10 :=
    (hf.y.add (within_const 6 (by omega))).toInt_add (within_const 10 (by omega)) (by omega)
  have hx8 : Within 1100000 (frame.x + 8) := (hf.x.add (within_const 8 (by omega))).mono (by omega)
  have hy5 : Within 1100000 (frame.y + 5) := (hf.y.add (within_const 5 (by omega))).mono (by omega)
  have hw80 : Within 1100000 (frame.w - 80) := (hf.w.sub (within_const 80 (by omega))).mono (by omega)
  have hmax : (frame.w - 80).toInt = frame.w.toInt - 80 := hf.w.toInt_sub (within_const 80 (by omega)) (by omega)
  have htx : (frame.x + 8).toInt = frame.x.toInt + 8 := hf.x.toInt_add (within_const 8 (by omega)) (by omega)
  have hty : (frame.y + 5).toInt = frame.y.toInt + 5 := hf.y.toInt_add (within_const 5 (by omega)) (by omega)
  refine (((Confined.append ?_ ?_).append ?_).append ?_).append (.flatMap fun i hi => ?_)
  · refine (confined_textClipped font clip hx8 hy5 hw80 hlen _).mono fun c r => ?_
    unfold Box Around
    rw [hmax, htx, hty]
    omega
  · exact confined_button hclip hf hw40 hh28 44 (w := 14) (h := 14) _ (by omega) (by omega) (by omega)
      (by omega) (by omega) _
  · exact confined_button hclip hf hw40 hh28 41 (w := 8) (h := 1) _ (by omega) (by omega) (by omega)
      (by omega) (by omega) _
  · exact confined_button hclip hf hw40 hh28 24 (w := 14) (h := 14) _ (by omega) (by omega) (by omega)
      (by omega) (by omega) _
  · exact confined_cross clip hf hw40 hh28 _ hi

/-- The window paints around its frame only: it is not decorated, or it is wide enough for its buttons and
tall enough for the lines of its title. -/
def Neat (w : Window) : Prop :=
  w.decorated = true → 38 ≤ w.width.toInt ∧ 16 * (lines w.title (w.frameRect.w - 80) : ℤ) ≤ w.height.toInt + 26

instance (w : Window) : Decidable (Neat w) := inferInstanceAs (Decidable (_ → _))

/-- How far a window reaches around its frame does not depend on its place. -/
theorem Neat.moved {w : Window} (h : Neat w) (x y : Int32) : Neat { w with x := x, y := y } := by
  intro hd
  have hwidth : ({ w with x := x, y := y } : Window).frameRect.w = w.frameRect.w := by
    unfold Window.frameRect Window.decorated
    dsimp only
    split <;> rfl
  rw [hwidth]
  exact h hd

/-- Where the content and the frame are. -/
theorem frame_toInt {w : Window} (hn : Near w) :
    (w.decorated = true → w.frameRect.x.toInt = w.x.toInt - 1 ∧ w.frameRect.y.toInt = w.y.toInt - 26 ∧
      w.frameRect.w.toInt = w.width.toInt + 2 ∧ w.frameRect.h.toInt = w.height.toInt + 27) ∧
    (w.decorated = false → w.frameRect = ⟨w.x, w.y, w.width, w.height⟩) := by
  have hborder : Within 1 wmBorder := within_const 1 (by omega)
  have hborder2 : Within 2 (wmBorder * 2) := within_const 2 (by omega)
  have htitle : Within 26 wmTitleHeight := within_const 26 (by omega)
  constructor
  · intro hd
    rw [Window.frameRect, if_pos hd]
    refine ⟨hn.x.toInt_sub hborder (by omega), hn.y.toInt_sub htitle (by omega), hn.width.toInt_add hborder2 (by omega),
      ?_⟩
    dsimp only
    rw [(hn.height.add htitle).toInt_add hborder (by omega), hn.height.toInt_add htitle (by omega), Int.add_assoc]
    rfl
  · intro hd
    rw [Window.frameRect, if_neg (by simp [hd])]

/-- A neat window paints around its frame only. -/
theorem confined_window (font : Font) (hclip : Clipped width height clip) {w : Window} (hn : Near w)
    (hh₀ : 0 < w.height.toInt) (hlen : w.title.length < 2147483648) (h : Neat w)
    (active : Bool) : Confined (Around w.frameRect) (drawWindow font clip w active) := by
  have hf := hn.frameNear
  have hblit := confined_blit hclip (surface w) (hn.x.mono (by omega)) (hn.y.mono (by omega))
    (hn.width.mono (by omega)) (hn.height.mono (by omega))
  obtain ⟨hdecorated, hplain⟩ := frame_toInt hn
  unfold drawWindow
  cases hd : w.decorated with
  | false =>
    rw [if_neg (by simp), List.nil_append, hplain hd]
    refine hblit.mono fun c r => ?_
    unfold Covers Around surface
    dsimp only
    omega
  | true =>
    obtain ⟨hfx, hfy, hfw, hfh⟩ := hdecorated hd
    obtain ⟨hwide, hlines⟩ := h hd
    have hx := hf.x.mono (c := 268435456) (by omega)
    have hy := hf.y.mono (c := 268435456) (by omega)
    have hw := hf.w.mono (c := 268435456) (by omega)
    have h26 : Moderate wmTitleHeight := (within_const 26 (by omega)).mono (by omega)
    have h1 : Moderate 1 := (within_const 1 (by omega)).mono (by omega)
    have htitle : wmTitleHeight.toInt = 26 := rfl
    have hone : (1 : Int32).toInt = 1 := rfl
    rw [if_pos rfl]
    refine Confined.append ((((Confined.append ?_ ?_).append ?_).append ?_).append ?_) (hblit.mono fun c r => ?_)
    · exact confined_shadow hclip hf (by omega) (by omega)
    · refine (confined_fillRect hclip hx hy hw h26 _).mono fun c r => ?_
      unfold Covers Around
      omega
    · refine (confined_fillRect hclip hx hy hw h1 _).mono fun c r => ?_
      unfold Covers Around
      omega
    · exact confined_frameRect hclip hf _
    · exact confined_title font hclip hf (by omega) (by omega) hlen (by omega) active
    · unfold Covers Around surface
      dsimp only
      omega

end Decorations

end SifarOS.WindowExtent
