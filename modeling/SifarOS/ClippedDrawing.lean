import SifarOS.DrawnPixels

/-! # Drawing on a surface

The stores of a primitive as they change the pixels of a surface in memory. For a clip rectangle set by
`gfx_clip_set` every primitive changes the pixels of its shape that lie in the clip rectangle and on the surface,
and no other. -/
namespace SifarOS.ClippedDrawing
open Graphics MachineInt DrawnPixels

/-- `struct gfx_surface` in front of memory that holds its rows, one `stride` behind the other. -/
structure Surface where
  pixels : ℕ → Color
  width : Int32
  height : Int32
  stride : Int32
  width_nonneg : 0 ≤ width.toInt
  height_nonneg : 0 ≤ height.toInt
  width_le : width.toInt ≤ stride.toInt
  fits : height.toInt * stride.toInt ≤ 1073741824

namespace Surface

/-- The pixel that a store goes to, behind `pixels + (size_t)row * stride`: an address has 32 bits, and a pixel
four bytes. -/
def index (s : Surface) (p : Store) : ℕ := ((p.row * s.stride.toInt + p.column) % 1073741824).toNat

def store (s : Surface) (p : Store) : Surface :=
  { s with pixels := Function.update s.pixels (s.index p) (p.paint.apply (s.pixels (s.index p))) }

def draw (s : Surface) (stores : List Store) : Surface := stores.foldl store s

/-- The position lies on the surface. -/
def Contains (s : Surface) (c r : ℤ) : Prop := 0 ≤ c ∧ c < s.width.toInt ∧ 0 ≤ r ∧ r < s.height.toInt

instance (s : Surface) (c r : ℤ) : Decidable (s.Contains c r) := inferInstanceAs (Decidable (_ ∧ _ ∧ _ ∧ _))

/-- The pixel at a position. -/
def cell (s : Surface) (c r : ℤ) : ℕ := (r * s.stride.toInt + c).toNat

end Surface

/-- The number in the eight bits of a pixel from `2 ^ k` on. -/
def channel (c : Color) (k : ℕ) : ℕ := c.toNat / 2 ^ k % 256

/-- One channel, mixed in the proportion of `alpha` to `255 - alpha` and rounded down. -/
def mixed (color dst : Color) (k : ℕ) : ℕ :=
  (channel color k * channel color 24 + channel dst k * (255 - channel color 24)) / 255

/-- What `gfx_blend_rect` is for: an opaque colour covers, a transparent one leaves what is there, any other is
mixed with it, and the mixture is opaque. -/
def blended (color dst : Color) : Color :=
  if channel color 24 = 255 then color
  else if channel color 24 = 0 then dst
  else UInt32.ofNat (255 * 2 ^ 24 + mixed color dst 16 * 2 ^ 16 + mixed color dst 8 * 2 ^ 8 + mixed color dst 0)

/-- The outermost pixels of a rectangle. -/
def Border (x y w h : Int32) (c r : ℤ) : Prop :=
  Covers x y w h c r ∧
    (c = x.toInt ∨ c = x.toInt + w.toInt - 1 ∨ r = y.toInt ∨ r = y.toInt + h.toInt - 1)

instance (x y w h : Int32) (c r : ℤ) : Decidable (Border x y w h c r) := inferInstanceAs (Decidable (_ ∧ _))

/-- Coordinates and sizes below `2 ^ 29`. -/
structure Small (x y w h : Int32) : Prop where
  x : Within 536870911 x
  y : Within 536870911 y
  w : Within 536870911 w
  h : Within 536870911 h

/-- The stores change exactly the pixels of the shape that lie in the clip rectangle and on the surface. -/
structure Exact (s : Surface) (clip : Rect) (stores : List Store) (shape : ℤ → ℤ → Prop) (value : ℤ → ℤ → Color → Color) :
    Prop where
  drawn : ∀ c r, s.Contains c r → Covers clip.x clip.y clip.w clip.h c r → shape c r →
    (s.draw stores).pixels (s.cell c r) = value c r (s.pixels (s.cell c r))
  kept : ∀ c r, s.Contains c r → ¬(Covers clip.x clip.y clip.w clip.h c r ∧ shape c r) →
    (s.draw stores).pixels (s.cell c r) = s.pixels (s.cell c r)
  touched : ∀ p ∈ stores, ∃ c r, s.Contains c r ∧ s.index p = s.cell c r
  outside : ∀ j, (∀ c r, s.Contains c r → j ≠ s.cell c r) → (s.draw stores).pixels j = s.pixels j

section Surfaces
variable {s : Surface}

theorem index_eq {p : Store} (h : s.Contains p.column p.row) : s.index p = s.cell p.column p.row := by
  obtain ⟨hc₀, hc₁, hr₀, hr₁⟩ := h
  have hstride := s.width_le
  have hrow : 0 ≤ p.row * s.stride.toInt := Int.mul_nonneg hr₀ (by omega)
  have hnext : (p.row + 1) * s.stride.toInt ≤ s.height.toInt * s.stride.toInt :=
    Int.mul_le_mul_of_nonneg_right (by omega) (by omega)
  have hfits := s.fits
  rw [Int.add_mul, Int.one_mul] at hnext
  rw [Surface.index, Surface.cell, Int.emod_eq_of_lt (by omega) (by omega)]

theorem cell_inj {c r c' r' : ℤ} (h : s.Contains c r) (h' : s.Contains c' r') (heq : s.cell c r = s.cell c' r') :
    c = c' ∧ r = r' := by
  obtain ⟨hc₀, hc₁, hr₀, -⟩ := h
  obtain ⟨hc₀', hc₁', hr₀', -⟩ := h'
  have hstride := s.width_le
  have hrow : 0 ≤ r * s.stride.toInt := Int.mul_nonneg hr₀ (by omega)
  have hrow' : 0 ≤ r' * s.stride.toInt := Int.mul_nonneg hr₀' (by omega)
  have hsum : r * s.stride.toInt + c = r' * s.stride.toInt + c' := by
    unfold Surface.cell at heq
    omega
  have hrows : r = r' := by
    rcases Int.lt_trichotomy r r' with hlt | hr | hgt
    · have hnext : (r + 1) * s.stride.toInt ≤ r' * s.stride.toInt := Int.mul_le_mul_of_nonneg_right (by omega) (by omega)
      rw [Int.add_mul, Int.one_mul] at hnext
      omega
    · exact hr
    · have hnext : (r' + 1) * s.stride.toInt ≤ r * s.stride.toInt := Int.mul_le_mul_of_nonneg_right (by omega) (by omega)
      rw [Int.add_mul, Int.one_mul] at hnext
      omega
  subst hrows
  exact ⟨by omega, rfl⟩

theorem store_pixels (s : Surface) (p : Store) : (s.store p).pixels =
    Function.update s.pixels (s.index p) (p.paint.apply (s.pixels (s.index p))) := rfl

/-- A pixel of the surface after the stores: what hits it, in order. -/
theorem draw_cell {stores : List Store} (hstores : ∀ p ∈ stores, s.Contains p.column p.row) {c r : ℤ}
    (h : s.Contains c r) : (s.draw stores).pixels (s.cell c r) =
      (hits stores c r).foldl (fun dst paint => paint.apply dst) (s.pixels (s.cell c r)) := by
  induction stores generalizing s with
  | nil => rfl
  | cons p stores ih =>
    obtain ⟨hp, hrest⟩ := List.forall_mem_cons.mp hstores
    have hnext : ((s.store p).draw stores).pixels (s.cell c r) =
        (hits stores c r).foldl (fun dst paint => paint.apply dst) ((s.store p).pixels (s.cell c r)) :=
      ih (s := s.store p) hrest h
    refine hnext.trans ?_
    by_cases hpos : p.column = c ∧ p.row = r
    · obtain ⟨rfl, rfl⟩ := hpos
      have hhits : hits (p :: stores) p.column p.row = p.paint :: hits stores p.column p.row := by simp [hits]
      rw [hhits, List.foldl_cons, store_pixels, index_eq hp, Function.update_self]
    · have hhits : hits (p :: stores) c r = hits stores c r := by simp [hits, hpos]
      have hne : s.cell c r ≠ s.index p := by
        rw [index_eq hp]
        exact fun heq => hpos ⟨(cell_inj h hp heq).1.symm, (cell_inj h hp heq).2.symm⟩
      rw [hhits, store_pixels, Function.update_of_ne hne]

theorem draw_outside {stores : List Store} (hstores : ∀ p ∈ stores, s.Contains p.column p.row) {j : ℕ}
    (hj : ∀ c r, s.Contains c r → j ≠ s.cell c r) : (s.draw stores).pixels j = s.pixels j := by
  induction stores generalizing s with
  | nil => rfl
  | cons p stores ih =>
    obtain ⟨hp, hrest⟩ := List.forall_mem_cons.mp hstores
    have hne : j ≠ s.index p := by
      rw [index_eq hp]
      exact hj _ _ hp
    exact (ih (s := s.store p) hrest hj).trans (Function.update_of_ne hne _ _)

/-- Stores that hit the pixels of the shape in the clip rectangle and on the surface alone. -/
theorem exact_of_hits {clip : Rect} {stores : List Store} {shape : ℤ → ℤ → Prop} {value : ℤ → ℤ → Color → Color}
    (hnone : ∀ c r, ¬(s.Contains c r ∧ Covers clip.x clip.y clip.w clip.h c r ∧ shape c r) → hits stores c r = [])
    (hsome : ∀ c r dst, s.Contains c r → Covers clip.x clip.y clip.w clip.h c r → shape c r →
      (hits stores c r).foldl (fun dst paint => paint.apply dst) dst = value c r dst) : Exact s clip stores shape value := by
  have hcontains : ∀ p ∈ stores, s.Contains p.column p.row := by
    intro p hp
    have hhit := mt (hnone p.column p.row) (hits_ne_nil hp)
    exact (not_not.mp hhit).1
  refine ⟨fun c r hin hclip hshape => ?_, fun c r hin hout => ?_, fun p hp => ?_, fun j hj => draw_outside hcontains hj⟩
  · rw [draw_cell hcontains hin, hsome c r _ hin hclip hshape]
  · rw [draw_cell hcontains hin, hnone c r fun hall => hout hall.2]
    rfl
  · exact ⟨_, _, hcontains p hp, index_eq (hcontains p hp)⟩

end Surfaces

/-! ## Mixed colours -/

theorem channel_lt (c : Color) (k : ℕ) : channel c k < 256 := Nat.mod_lt _ (by decide)

theorem mask_toNat (c : Color) : (c &&& 0xFF).toNat = c.toNat % 256 := Nat.and_two_pow_sub_one_eq_mod c.toNat 8

theorem byte_toNat (c : Color) {k : UInt32} {n : ℕ} (hk : k.toNat = n) (hn : n < 32) :
    ((c >>> k) &&& 0xFF).toNat = channel c n := by
  rw [mask_toNat, UInt32.toNat_shiftRight, hk, Nat.mod_eq_of_lt hn, Nat.shiftRight_eq_div_pow]
  rfl

theorem colorA_toNat (c : Color) : (colorA c).toNat = channel c 24 := byte_toNat c rfl (by decide)

theorem colorR_toNat (c : Color) : (colorR c).toNat = channel c 16 := byte_toNat c rfl (by decide)

theorem colorG_toNat (c : Color) : (colorG c).toNat = channel c 8 := byte_toNat c rfl (by decide)

theorem colorB_toNat (c : Color) : (colorB c).toNat = channel c 0 := by
  rw [channel, Nat.pow_zero, Nat.div_one]
  exact mask_toNat c

theorem mixed_lt (color dst : Color) (k : ℕ) : mixed color dst k < 256 := by
  have hcolor := channel_lt color k
  have hdst := channel_lt dst k
  have halpha := channel_lt color 24
  have habove : channel color k * channel color 24 ≤ 255 * channel color 24 := Nat.mul_le_mul_right _ (by omega)
  have hbelow : channel dst k * (255 - channel color 24) ≤ 255 * (255 - channel color 24) :=
    Nat.mul_le_mul_right _ (by omega)
  rw [mixed, Nat.div_lt_iff_lt_mul (by decide)]
  omega

/-- The products and the sum stay below `2 ^ 32`. -/
theorem mix_toNat {u v alpha : UInt32} {color dst : Color} {k : ℕ} (hu : u.toNat = channel color k)
    (hv : v.toNat = channel dst k) (halpha : alpha.toNat = channel color 24) :
    ((u * alpha + v * (255 - alpha)) / 255).toNat = mixed color dst k := by
  have hcolor := channel_lt color k
  have hdst := channel_lt dst k
  have ha := channel_lt color 24
  have hrest : (255 - alpha).toNat = 255 - channel color 24 := by
    have hle : alpha ≤ 255 := UInt32.le_iff_toNat_le.mpr (by rw [halpha]; exact Nat.le_of_lt_succ ha)
    rw [UInt32.toNat_sub_of_le _ _ hle, halpha]
    rfl
  have habove : channel color k * channel color 24 ≤ 255 * 255 := Nat.mul_le_mul (by omega) (by omega)
  have hbelow : channel dst k * (255 - channel color 24) ≤ 255 * 255 := Nat.mul_le_mul (by omega) (by omega)
  rw [UInt32.toNat_div, UInt32.toNat_add, UInt32.toNat_mul, UInt32.toNat_mul, hrest, hu, hv, halpha, mixed]
  simp only [UInt32.reduceToNat]
  rw [Nat.mod_eq_of_lt (Nat.lt_of_le_of_lt habove (by decide)), Nat.mod_eq_of_lt (Nat.lt_of_le_of_lt hbelow (by decide)),
    Nat.mod_eq_of_lt (by omega)]

theorem shift_toNat {v k : UInt32} {n : ℕ} (hk : k.toNat = n) (hn : n < 32) (hv : v.toNat * 2 ^ n < 2 ^ 32) :
    (v <<< k).toNat = v.toNat * 2 ^ n := by
  rw [UInt32.toNat_shiftLeft, hk, Nat.mod_eq_of_lt hn, Nat.shiftLeft_eq, Nat.mod_eq_of_lt hv]

/-- Channels side by side are their weighted sum. -/
theorem rgb_toNat {r g b : UInt32} (hr : r.toNat < 256) (hg : g.toNat < 256) (hb : b.toNat < 256) :
    (rgb r g b).toNat = 255 * 2 ^ 24 + r.toNat * 2 ^ 16 + g.toNat * 2 ^ 8 + b.toNat := by
  have hred : (r <<< 16).toNat = r.toNat * 2 ^ 16 := shift_toNat rfl (by decide) (by omega)
  have hgreen : (g <<< 8).toNat = g.toNat * 2 ^ 8 := shift_toNat rfl (by decide) (by omega)
  have hrow : ∀ {i a m : ℕ}, m < 2 ^ i → a * 2 ^ i ||| m = a * 2 ^ i + m := by
    intro i a m hm
    rw [Nat.mul_comm]
    exact (Nat.two_pow_add_eq_or_of_lt hm a).symm
  have htop : (4278190080 : UInt32).toNat = 255 * 2 ^ 24 := rfl
  rw [rgb, UInt32.toNat_or, UInt32.toNat_or, UInt32.toNat_or, hred, hgreen, htop, hrow (by omega), Nat.or_assoc,
    hrow (by omega)]
  have hhigh : 255 * 2 ^ 24 + r.toNat * 2 ^ 16 = (255 * 2 ^ 8 + r.toNat) * 2 ^ 16 := by omega
  rw [hhigh, hrow (by omega), Nat.add_assoc]

theorem blend_apply (color dst : Color) (hsolid : channel color 24 ≠ 255) (hclear : channel color 24 ≠ 0) :
    (Paint.blend color).apply dst = blended color dst := by
  have hred := mix_toNat (colorR_toNat color) (colorR_toNat dst) (colorA_toNat color)
  have hgreen := mix_toNat (colorG_toNat color) (colorG_toNat dst) (colorA_toNat color)
  have hblue := mix_toNat (colorB_toNat color) (colorB_toNat dst) (colorA_toNat color)
  have hlt := mixed_lt color dst
  have hvalue := rgb_toNat (hred ▸ hlt 16) (hgreen ▸ hlt 8) (hblue ▸ hlt 0)
  rw [hred, hgreen, hblue] at hvalue
  rw [Paint.apply, blended, if_neg hsolid, if_neg hclear, ← hvalue]
  exact (UInt32.ofNat_toNat).symm

/-! ## The clip rectangle -/

section Clip

/-- `trim` computes the intersection with the surface; its length is negative if there is none. -/
theorem trim_eq {limit pos len : Int32} (hlimit : 0 ≤ limit.toInt) (hpos : Within 536870911 pos)
    (hlen : Within 536870911 len) : (trim limit pos len).1.toInt = max 0 pos.toInt ∧
      (trim limit pos len).2.toInt = min limit.toInt (pos.toInt + len.toInt) - max 0 pos.toInt := by
  obtain ⟨hpos₁, hpos₂⟩ := hpos
  obtain ⟨hlen₁, hlen₂⟩ := hlen
  have hzero : (0 : Int32).toInt = 0 := rfl
  have hmax := range limit
  unfold trim
  by_cases hneg : pos < 0
  · have hsum := add_cases len pos
    have hend := add_cases 0 (len + pos)
    have hrest := sub_cases limit 0
    simp only [if_pos hneg]
    simp only [gt_iff_lt, Int32.lt_iff_toInt_lt, hzero] at hneg hend hrest ⊢
    split <;> omega
  · have hend := add_cases pos len
    have hrest := sub_cases limit pos
    simp only [if_neg hneg]
    simp only [gt_iff_lt, Int32.lt_iff_toInt_lt, hzero] at hneg ⊢
    split <;> omega

/-- One axis of `gfx_clip_set`, and `clamp` against it. -/
structure ClipAxis (limit pos len low room : Int32) : Prop where
  low_bounds : 0 ≤ low.toInt ∧ low.toInt ≤ 536870912
  room_bounds : 0 ≤ room.toInt ∧ room.toInt ≤ 536870912
  inside : ∀ c, (low.toInt ≤ c ∧ c < low.toInt + room.toInt) ↔
    (0 ≤ c ∧ c < limit.toInt) ∧ pos.toInt ≤ c ∧ c < pos.toInt + len.toInt

theorem clip_axis {limit pos len : Int32} (hlimit : 0 ≤ limit.toInt) (hpos : Within 536870911 pos)
    (hlen : Within 536870911 len) : ClipAxis limit pos len (trim limit pos len).1
      (if (trim limit pos len).2 < 0 then 0 else (trim limit pos len).2) := by
  obtain ⟨hlow, hroom⟩ := trim_eq hlimit hpos hlen
  obtain ⟨hpos₁, hpos₂⟩ := hpos
  obtain ⟨hlen₁, hlen₂⟩ := hlen
  have hzero : (0 : Int32).toInt = 0 := rfl
  have hroom' : (if (trim limit pos len).2 < 0 then 0 else (trim limit pos len).2).toInt =
      max 0 (min limit.toInt (pos.toInt + len.toInt) - max 0 pos.toInt) := by
    rw [apply_ite Int32.toInt, hroom, hzero]
    simp only [Int32.lt_iff_toInt_lt, hroom, hzero]
    split <;> omega
  exact ⟨by omega, by omega, fun c => by omega⟩

variable {s : Surface} {cx cy cw ch : Int32}

theorem clip_axes (hclip : Small cx cy cw ch) :
    ClipAxis s.width cx cw (clipSet s.width s.height cx cy cw ch).x (clipSet s.width s.height cx cy cw ch).w ∧
      ClipAxis s.height cy ch (clipSet s.width s.height cx cy cw ch).y (clipSet s.width s.height cx cy cw ch).h := by
  rw [clipSet]
  exact ⟨clip_axis s.width_nonneg hclip.x hclip.w, clip_axis s.height_nonneg hclip.y hclip.h⟩

theorem inside_clip (hclip : Small cx cy cw ch) (c r : ℤ) :
    Inside (clipSet s.width s.height cx cy cw ch) c r ↔ s.Contains c r ∧ Covers cx cy cw ch c r := by
  obtain ⟨haxis, haxis'⟩ := clip_axes (s := s) hclip
  have hx := haxis.inside c
  have hy := haxis'.inside r
  generalize clipSet s.width s.height cx cy cw ch = clip at hx hy ⊢
  constructor
  · rintro ⟨hc₀, hc₁, hr₀, hr₁⟩
    obtain ⟨⟨hc₂, hc₃⟩, hc₄, hc₅⟩ := hx.mp ⟨hc₀, hc₁⟩
    obtain ⟨⟨hr₂, hr₃⟩, hr₄, hr₅⟩ := hy.mp ⟨hr₀, hr₁⟩
    exact ⟨⟨hc₂, hc₃, hr₂, hr₃⟩, hc₄, hc₅, hr₄, hr₅⟩
  · rintro ⟨⟨hc₂, hc₃, hr₂, hr₃⟩, hc₄, hc₅, hr₄, hr₅⟩
    obtain ⟨hc₀, hc₁⟩ := hx.mpr ⟨⟨hc₂, hc₃⟩, hc₄, hc₅⟩
    obtain ⟨hr₀, hr₁⟩ := hy.mpr ⟨⟨hr₂, hr₃⟩, hr₄, hr₅⟩
    exact ⟨hc₀, hc₁, hr₀, hr₁⟩

/-- A position may be twice as far on the right, as that of the last column of a frame is. -/
theorem cuts_clip (hclip : Small cx cy cw ch) {x y w h : Int32}
    (hx : -536870912 ≤ x.toInt ∧ x.toInt ≤ 1073741824) (hy : -536870912 ≤ y.toInt ∧ y.toInt ≤ 1073741824)
    (hw : Within 536870912 w) (hh : Within 536870912 h) :
    Cuts (clipSet s.width s.height cx cy cw ch).x (clipSet s.width s.height cx cy cw ch).w x w ∧
      Cuts (clipSet s.width s.height cx cy cw ch).y (clipSet s.width s.height cx cy cw ch).h y h := by
  obtain ⟨haxis, haxis'⟩ := clip_axes (s := s) hclip
  exact ⟨clampAxis_eq haxis.low_bounds haxis.room_bounds hx hw, clampAxis_eq haxis'.low_bounds haxis'.room_bounds hy hh⟩

end Clip

/-! ## The primitives -/

section Primitives
variable {s : Surface} {cx cy cw ch x y w h : Int32}

theorem Small.cuts (hclip : Small cx cy cw ch) (hrect : Small x y w h) :
    Cuts (clipSet s.width s.height cx cy cw ch).x (clipSet s.width s.height cx cy cw ch).w x w ∧
      Cuts (clipSet s.width s.height cx cy cw ch).y (clipSet s.width s.height cx cy cw ch).h y h := by
  have hx := hrect.x
  have hy := hrect.y
  exact cuts_clip hclip ⟨by have := hx.low; omega, by have := hx.high; omega⟩
    ⟨by have := hy.low; omega, by have := hy.high; omega⟩ (hrect.w.mono (by omega)) (hrect.h.mono (by omega))

/-- A shape every pixel of which is hit once. -/
theorem exact_of_paint (hclip : Small cx cy cw ch) {stores : List Store} {shape : ℤ → ℤ → Prop}
    [∀ c r, Decidable (shape c r)] {paint : ℤ → ℤ → Paint} {value : ℤ → ℤ → Color → Color}
    (hhits : ∀ c r, hits stores c r =
      if Inside (clipSet s.width s.height cx cy cw ch) c r ∧ shape c r then [paint c r] else [])
    (hvalue : ∀ c r dst, (paint c r).apply dst = value c r dst) : Exact s ⟨cx, cy, cw, ch⟩ stores shape value := by
  refine exact_of_hits (fun c r hout => ?_) (fun c r dst hin hcovers hshape => ?_)
  · rw [hhits, if_neg]
    rw [inside_clip hclip, and_assoc]
    exact hout
  · rw [hhits, if_pos ⟨(inside_clip hclip c r).mpr ⟨hin, hcovers⟩, hshape⟩]
    exact hvalue c r dst

theorem exact_fillRect (hclip : Small cx cy cw ch) (hrect : Small x y w h) (color : Color) :
    Exact s ⟨cx, cy, cw, ch⟩ (fillRect (clipSet s.width s.height cx cy cw ch) x y w h color) (Covers x y w h)
      fun _ _ _ => color := by
  obtain ⟨hx, hy⟩ := hclip.cuts hrect
  exact exact_of_paint hclip (hits_fillRect_cut hx hy color) fun c r dst => rfl

theorem exact_blendRect (hclip : Small cx cy cw ch) (hrect : Small x y w h) (color : Color) :
    Exact s ⟨cx, cy, cw, ch⟩ (blendRect (clipSet s.width s.height cx cy cw ch) x y w h color) (Covers x y w h)
      fun _ _ dst => blended color dst := by
  obtain ⟨hx, hy⟩ := hclip.cuts hrect
  by_cases h₁ : colorA color = 255
  · have hsolid : channel color 24 = 255 := by rw [← colorA_toNat, h₁]; rfl
    have hfill := hits_fillRect_cut hx hy color
    rw [blendRect, if_pos h₁]
    exact exact_of_paint hclip hfill fun c r dst => (if_pos hsolid).symm
  have hsolid : channel color 24 ≠ 255 := fun heq => h₁ (UInt32.toNat_inj.mp ((colorA_toNat color).trans heq))
  by_cases h₀ : colorA color = 0
  · have hclear : channel color 24 = 0 := by rw [← colorA_toNat, h₀]; rfl
    have hdst : ∀ dst, blended color dst = dst := fun dst => by rw [blended, if_neg hsolid, if_pos hclear]
    rw [blendRect, if_neg h₁, if_pos h₀]
    exact exact_of_hits (fun c r hout => rfl) fun c r dst hin hcovers hshape => (hdst dst).symm
  · have hclear : channel color 24 ≠ 0 := fun heq => h₀ (UInt32.toNat_inj.mp ((colorA_toNat color).trans heq))
    exact exact_of_paint hclip (hits_blendRect_cut hx hy h₀ h₁) fun c r dst => blend_apply color dst hsolid hclear

theorem exact_blit (hclip : Small cx cy cw ch) (hrect : Small x y w h) {src : Source} {sx sy : Int32}
    (hsx : 0 ≤ sx.toInt ∧ sx.toInt + w.toInt ≤ src.width.toInt)
    (hsy : 0 ≤ sy.toInt ∧ sy.toInt + h.toInt ≤ src.height.toInt) :
    Exact s ⟨cx, cy, cw, ch⟩ (blit (clipSet s.width s.height cx cy cw ch) x y src sx sy w h) (Covers x y w h)
      fun c r _ => src.pixels ((sy.toInt + (r - y.toInt)) * src.stride.toInt + (sx.toInt + (c - x.toInt))).toNat := by
  obtain ⟨hx, hy⟩ := hclip.cuts hrect
  exact exact_of_paint hclip (hits_blit_cut hx hy hsx hsy) fun c r dst => rfl

/-- Stores of one colour, however often they hit a pixel. -/
theorem foldl_set {paints : List Paint} {color : Color} (hset : ∀ paint ∈ paints, paint = .set color) (dst : Color) :
    paints.foldl (fun dst paint => paint.apply dst) dst = if paints = [] then dst else color := by
  induction paints generalizing dst with
  | nil => rfl
  | cons paint paints ih =>
    obtain ⟨hpaint, hrest⟩ := List.forall_mem_cons.mp hset
    rw [List.foldl_cons, ih hrest, hpaint, if_neg (List.cons_ne_nil _ _)]
    exact ite_self color

/-- The border is four lines. -/
theorem border_iff {right bottom : Int32} (hw : 0 < w.toInt) (hh : 0 < h.toInt)
    (hright : right.toInt = x.toInt + w.toInt - 1) (hbottom : bottom.toInt = y.toInt + h.toInt - 1) (c r : ℤ) :
    Border x y w h c r ↔
      ((Covers x y w 1 c r ∨ Covers x bottom w 1 c r) ∨ Covers x y 1 h c r) ∨ Covers right y 1 h c r := by
  have hone : (1 : Int32).toInt = 1 := rfl
  unfold Border Covers
  omega

theorem hits_frameRect {clip : Rect} (hcuts : ∀ {x y w h : Int32}, -536870912 ≤ x.toInt ∧ x.toInt ≤ 1073741824 →
      -536870912 ≤ y.toInt ∧ y.toInt ≤ 1073741824 → Within 536870912 w → Within 536870912 h →
      Cuts clip.x clip.w x w ∧ Cuts clip.y clip.h y h) (hrect : Small x y w h) (color : Color) (c r : ℤ) :
    (∀ paint ∈ hits (frameRect clip x y w h color) c r, paint = .set color) ∧
      (hits (frameRect clip x y w h color) c r ≠ [] ↔ Inside clip c r ∧ Border x y w h c r) := by
  have hzero : (0 : Int32).toInt = 0 := rfl
  have hone : (1 : Int32).toInt = 1 := rfl
  obtain ⟨⟨hx₀, hx₁⟩, ⟨hy₀, hy₁⟩, ⟨hw₀, hw₁⟩, hh₀, hh₁⟩ := hrect
  unfold frameRect
  by_cases hempty : w ≤ 0 ∨ h ≤ 0
  · rw [if_pos hempty]
    rw [Int32.le_iff_toInt_le, Int32.le_iff_toInt_le, hzero] at hempty
    refine ⟨fun paint hp => absurd hp List.not_mem_nil, iff_of_false (fun hne => hne rfl) ?_⟩
    rintro ⟨-, ⟨h₁, h₂, h₃, h₄⟩, -⟩
    omega
  · rw [if_neg hempty]
    rw [Int32.le_iff_toInt_le, Int32.le_iff_toInt_le, hzero] at hempty
    have hbottom : (y + h - 1).toInt = y.toInt + h.toInt - 1 := by
      have hsum := add_cases y h
      have hpred := sub_cases (y + h) 1
      omega
    have hright : (x + w - 1).toInt = x.toInt + w.toInt - 1 := by
      have hsum := add_cases x w
      have hpred := sub_cases (x + w) 1
      omega
    have hborder := border_iff (by omega) (by omega) hright hbottom c r
    generalize y + h - 1 = bottom at hbottom hborder ⊢
    generalize x + w - 1 = right at hright hborder ⊢
    have hone' : Within 536870912 (1 : Int32) := ⟨by omega, by omega⟩
    have hw : Within 536870912 w := ⟨by omega, by omega⟩
    have hh : Within 536870912 h := ⟨by omega, by omega⟩
    have hrow : ∀ {v : Int32}, -536870912 ≤ v.toInt ∧ v.toInt ≤ 1073741824 →
        hits (hline clip x v w color) c r =
          if Inside clip c r ∧ Covers x v w 1 c r then [.set color] else [] := by
      intro v hv
      have hv' : -536870912 ≤ x.toInt ∧ x.toInt ≤ 1073741824 := ⟨by omega, by omega⟩
      obtain ⟨hcx, hcy⟩ := @hcuts x v w 1 hv' hv hw hone'
      rw [hline]
      exact @hits_fillRect_cut clip x v w 1 hcx hcy color c r
    have hvline : ∀ {v : Int32}, -536870912 ≤ v.toInt ∧ v.toInt ≤ 1073741824 →
        hits (vline clip v y h color) c r =
          if Inside clip c r ∧ Covers v y 1 h c r then [.set color] else [] := by
      intro v hv
      obtain ⟨hcx, hcy⟩ := hcuts (y := y) hv ⟨by omega, by omega⟩ hone' hh
      exact hits_fillRect_cut hcx hcy color c r
    rw [hits_append, hits_append, hits_append, hrow ⟨by omega, by omega⟩, hrow ⟨by omega, by omega⟩,
      hvline ⟨by omega, by omega⟩, hvline ⟨by omega, by omega⟩, hborder]
    constructor
    · intro paint hp
      simp only [List.mem_append, List.mem_ite_nil_right, List.mem_singleton] at hp
      rcases hp with ((⟨-, hp⟩ | ⟨-, hp⟩) | ⟨-, hp⟩) | ⟨-, hp⟩ <;> exact hp
    · simp only [ne_eq, List.append_eq_nil_iff, ite_eq_right_iff, List.cons_ne_nil, imp_false, ← not_or, not_not,
        ← and_or_left]

theorem exact_frameRect (hclip : Small cx cy cw ch) (hrect : Small x y w h) (color : Color) :
    Exact s ⟨cx, cy, cw, ch⟩ (frameRect (clipSet s.width s.height cx cy cw ch) x y w h color) (Border x y w h)
      fun _ _ _ => color := by
  have hhits := hits_frameRect (cuts_clip (s := s) hclip) hrect color
  refine exact_of_hits (fun c r hout => ?_) (fun c r dst hin hcovers hshape => ?_)
  · by_contra hne
    obtain ⟨hinside, hborder⟩ := (hhits c r).2.mp hne
    obtain ⟨hin, hcovers⟩ := (inside_clip hclip c r).mp hinside
    exact hout ⟨hin, hcovers, hborder⟩
  · have hinside := (inside_clip hclip c r).mpr ⟨hin, hcovers⟩
    rw [foldl_set (hhits c r).1, if_neg ((hhits c r).2.mpr ⟨hinside, hshape⟩)]

end Primitives

/-- Every primitive is exact on every surface, for every clip rectangle. -/
theorem clipped_drawing_exact (s : Surface) {cx cy cw ch x y w h : Int32} (hclip : Small cx cy cw ch)
    (hrect : Small x y w h) (color : Color) :
    Exact s ⟨cx, cy, cw, ch⟩ (fillRect (clipSet s.width s.height cx cy cw ch) x y w h color) (Covers x y w h)
        (fun _ _ _ => color) ∧
      Exact s ⟨cx, cy, cw, ch⟩ (blendRect (clipSet s.width s.height cx cy cw ch) x y w h color) (Covers x y w h)
        (fun _ _ dst => blended color dst) ∧
      Exact s ⟨cx, cy, cw, ch⟩ (frameRect (clipSet s.width s.height cx cy cw ch) x y w h color) (Border x y w h)
        (fun _ _ _ => color) ∧
      ∀ (src : Source) (sx sy : Int32), 0 ≤ sx.toInt ∧ sx.toInt + w.toInt ≤ src.width.toInt →
        0 ≤ sy.toInt ∧ sy.toInt + h.toInt ≤ src.height.toInt →
        Exact s ⟨cx, cy, cw, ch⟩ (blit (clipSet s.width s.height cx cy cw ch) x y src sx sy w h) (Covers x y w h)
          fun c r _ => src.pixels ((sy.toInt + (r - y.toInt)) * src.stride.toInt + (sx.toInt + (c - x.toInt))).toNat :=
  ⟨exact_fillRect hclip hrect color, exact_blendRect hclip hrect color, exact_frameRect hclip hrect color,
    fun _ _ _ hsx hsy => exact_blit hclip hrect hsx hsy⟩

def blank : Surface := ⟨fun _ => 0, 4, 4, 4, by decide, by decide, by decide, by decide⟩

/-- A source of three rows from column -1 on, with the clip rectangle in the middle of the surface: the pixel in
column 1 is the source's in column 2, the one in column 3 is not drawn. -/
theorem clipped_drawing_exact_blank :
    let src : Source := ⟨fun i => UInt32.ofNat i, 3, 3, 3⟩
    (blank.draw (fillRect (clipSet 4 4 1 1 2 2) (-1) 0 3 3 7)).pixels (blank.cell 1 1) = 7 ∧
      (blank.draw (blit (clipSet 4 4 1 1 2 2) (-1) 0 src 0 0 3 3)).pixels (blank.cell 1 1) = 5 ∧
      (blank.draw (blit (clipSet 4 4 1 1 2 2) (-1) 0 src 0 0 3 3)).pixels (blank.cell 3 1) = 0 := by
  have hclip : Small 1 1 2 2 := ⟨⟨by decide, by decide⟩, ⟨by decide, by decide⟩, ⟨by decide, by decide⟩, by decide, by decide⟩
  have hrect : Small (-1) 0 3 3 :=
    ⟨⟨by decide, by decide⟩, ⟨by decide, by decide⟩, ⟨by decide, by decide⟩, by decide, by decide⟩
  obtain ⟨hfill, -, -, hblit⟩ := clipped_drawing_exact blank hclip hrect 7
  have hpart := hblit ⟨fun i => UInt32.ofNat i, 3, 3, 3⟩ 0 0 (by decide) (by decide)
  exact ⟨hfill.drawn 1 1 (by decide) (by decide) (by decide), hpart.drawn 1 1 (by decide) (by decide) (by decide),
    hpart.kept 3 1 (by decide) (by decide)⟩

end SifarOS.ClippedDrawing
