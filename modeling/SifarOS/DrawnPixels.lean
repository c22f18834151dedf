import Mathlib.Data.List.Nodup
import SifarOS.MachineInt
import SifarOS.Graphics

/-! # What a primitive does to one pixel

`hits l c r` is what the stores `l` do to the pixel in column `c` and row `r`, in order. For a clip
rectangle on a screen of at most 65535 pixels a side and coordinates that are moderate, every
primitive has the hits its picture says: a rectangle hits the pixels of its part inside the clip
once each. -/
namespace SifarOS.DrawnPixels
open Graphics MachineInt

/-- What the stores do to one pixel. -/
def hits (l : List Store) (c r : ℤ) : List Paint :=
  l.filterMap fun p => if p.column = c ∧ p.row = r then some p.paint else none

@[simp] theorem hits_nil (c r : ℤ) : hits [] c r = [] := rfl

@[simp] theorem hits_append (l₁ l₂ : List Store) (c r : ℤ) : hits (l₁ ++ l₂) c r = hits l₁ c r ++ hits l₂ c r :=
  List.filterMap_append

theorem hits_flatMap {α : Type*} (l : List α) (f : α → List Store) (c r : ℤ) :
    hits (l.flatMap f) c r = l.flatMap fun a => hits (f a) c r := by
  induction l with
  | nil => rfl
  | cons a l ih => simp [ih]

theorem hits_ne_nil {l : List Store} {p : Store} (h : p ∈ l) : hits l p.column p.row ≠ [] := by
  intro hn
  have hp : p.paint ∈ hits l p.column p.row := List.mem_filterMap.mpr ⟨p, h, by simp⟩
  rw [hn] at hp
  exact absurd hp List.not_mem_nil

theorem mem_upTo {n k : Int32} : k ∈ upTo n ↔ 0 ≤ k.toInt ∧ k.toInt < n.toInt := by
  have hn := range n
  have hk := range k
  unfold upTo
  constructor
  · intro h
    obtain ⟨m, hm, rfl⟩ := List.mem_map.mp h
    have hm' := List.mem_range.mp hm
    rw [toInt_ofNat_small (by omega)]
    omega
  · rintro ⟨h₀, h₁⟩
    refine List.mem_map.mpr ⟨k.toInt.toNat, List.mem_range.mpr (by omega), ?_⟩
    rw [← Int32.toInt_inj, toInt_ofNat_small (by omega)]
    omega

theorem nodup_upTo (n : Int32) : (upTo n).Nodup := by
  have hn := range n
  refine List.Nodup.map_on ?_ List.nodup_range
  intro a ha b hb hab
  have ha' := List.mem_range.mp ha
  have hb' := List.mem_range.mp hb
  have := congrArg Int32.toInt hab
  rw [toInt_ofNat_small (by omega), toInt_ofNat_small (by omega)] at this
  omega

/-- A loop in which one round alone does something. -/
theorem flatMap_single {α β : Type*} [DecidableEq α] {l : List α} (hl : l.Nodup) {f : α → List β} {k : α}
    (h : ∀ j ∈ l, j ≠ k → f j = []) : l.flatMap f = if k ∈ l then f k else [] := by
  induction l with
  | nil => rfl
  | cons a l ih =>
    obtain ⟨ha, hl⟩ := List.nodup_cons.mp hl
    have hrest := ih hl fun j hj => h j (List.mem_cons_of_mem a hj)
    rw [List.flatMap_cons, hrest]
    by_cases hak : a = k
    · subst hak
      rw [if_neg ha, if_pos List.mem_cons_self, List.append_nil]
    · rw [h a List.mem_cons_self hak, List.nil_append]
      exact if_congr (by simp [Ne.symm hak]) rfl rfl

/-- The counter that has a given value. -/
def counter (n : ℤ) : Int32 := Int32.ofInt n

theorem counter_toInt {n : ℤ} (h₀ : 0 ≤ n) (h₁ : n < 2147483648) : (counter n).toInt = n :=
  Int32.toInt_ofInt_of_le (by omega) (by omega)

/-- A loop over rows: the round for row `r` alone reaches it. -/
theorem hits_rows {y h : Int32} (hy : y.toInt + h.toInt < 2147483648) (g : Int32 → List Store) (c r : ℤ)
    (hg : ∀ j ∈ upTo h, (y + j).toInt ≠ r → hits (g j) c r = []) :
    hits ((upTo h).flatMap g) c r =
      if y.toInt ≤ r ∧ r < y.toInt + h.toInt then hits (g (counter (r - y.toInt))) c r else [] := by
  have hry := range y
  have hrh := range h
  rw [hits_flatMap]
  by_cases hr : y.toInt ≤ r ∧ r < y.toInt + h.toInt
  · have hk : (counter (r - y.toInt)).toInt = r - y.toInt := counter_toInt (by omega) (by omega)
    rw [if_pos hr, flatMap_single (nodup_upTo h) (k := counter (r - y.toInt)),
      if_pos (mem_upTo.mpr ⟨by omega, by omega⟩)]
    intro j hj hne
    refine hg j hj fun hjr => hne ?_
    have hjb := mem_upTo.mp hj
    have hs := add_cases y j
    rw [← Int32.toInt_inj]
    omega
  · rw [if_neg hr]
    refine List.flatMap_eq_nil_iff.mpr fun j hj => hg j hj fun hjr => hr ?_
    have hjb := mem_upTo.mp hj
    have hs := add_cases y j
    omega

/-- One row of stores. -/
theorem hits_row (x row : ℤ) (w : Int32) (f : Int32 → Paint) (c r : ℤ) :
    hits ((upTo w).map fun col => ⟨x + col.toInt, row, f col⟩) c r =
      if row = r ∧ x ≤ c ∧ c < x + w.toInt then [f (counter (c - x))] else [] := by
  have hrw := range w
  rw [← List.flatMap_pure_eq_map, hits_flatMap]
  by_cases hc : row = r ∧ x ≤ c ∧ c < x + w.toInt
  · have hk : (counter (c - x)).toInt = c - x := counter_toInt (by omega) (by omega)
    rw [if_pos hc, flatMap_single (nodup_upTo w) (k := counter (c - x)),
      if_pos (mem_upTo.mpr ⟨by omega, by omega⟩)]
    · have hxc : x + (c - x) = c := by omega
      simp [hits, hc.1, hk, hxc, pure]
    · intro j hj hne
      have hjc : x + j.toInt ≠ c := fun hjc => hne (by rw [← Int32.toInt_inj]; omega)
      simp [hits, hjc]
  · rw [if_neg hc]
    refine List.flatMap_eq_nil_iff.mpr fun j hj => ?_
    have hjb := mem_upTo.mp hj
    have : ¬(x + j.toInt = c ∧ row = r) := by omega
    simp [hits, this]

/-- One axis of a clip rectangle that lies on a screen with `limit` pixels along it. -/
structure AxisFits (limit : ℤ) (low room : Int32) : Prop where
  limit_le : limit ≤ 65535
  low_nonneg : 0 ≤ low.toInt
  room_nonneg : 0 ≤ room.toInt
  fits : low.toInt + room.toInt ≤ limit

/-- Where the axis ends. -/
theorem AxisFits.sum {limit : ℤ} {low room : Int32} (h : AxisFits limit low room) :
    (low + room).toInt = low.toInt + room.toInt := by
  have hs := add_cases low room
  obtain ⟨h₀, h₁, h₂, h₃⟩ := h
  omega

/-- A clip rectangle that lies on a screen of this size. -/
structure Clipped (width height : ℤ) (clip : Rect) : Prop where
  x : AxisFits width clip.x clip.w
  y : AxisFits height clip.y clip.h

/-- The position lies in the rectangle. -/
def Inside (clip : Rect) (c r : ℤ) : Prop :=
  clip.x.toInt ≤ c ∧ c < clip.x.toInt + clip.w.toInt ∧ clip.y.toInt ≤ r ∧ r < clip.y.toInt + clip.h.toInt

instance (clip : Rect) (c r : ℤ) : Decidable (Inside clip c r) := inferInstanceAs (Decidable (_ ∧ _ ∧ _ ∧ _))

/-- Coordinates of which a few can be added up without wrapping. -/
abbrev Moderate (v : Int32) : Prop := Within 268435456 v

/-- On this axis `clamp` computes the intersection. -/
structure Cuts (low room pos len : Int32) : Prop where
  start : (clampAxis low room pos len).1.toInt = max low.toInt pos.toInt
  length : (clampAxis low room pos len).2.toInt =
    min (low.toInt + room.toInt) (pos.toInt + len.toInt) - max low.toInt pos.toInt
  low_nonneg : 0 ≤ low.toInt
  fits : low.toInt + room.toInt < 2147483648

/-- No sum of `clamp` wraps for coordinates below `2 ^ 29`, nor for a position twice as far on the right. -/
theorem clampAxis_eq {low room pos len : Int32} (hlow : 0 ≤ low.toInt ∧ low.toInt ≤ 536870912)
    (hroom : 0 ≤ room.toInt ∧ room.toInt ≤ 536870912) (hpos : -536870912 ≤ pos.toInt ∧ pos.toInt ≤ 1073741824)
    (hlen : Within 536870912 len) : Cuts low room pos len := by
  obtain ⟨hlen₁, hlen₂⟩ := hlen
  have hsum : (low + room).toInt = low.toInt + room.toInt := add_exact (by omega) (by omega)
  have heq : (clampAxis low room pos len).1.toInt = max low.toInt pos.toInt ∧
      (clampAxis low room pos len).2.toInt =
        min (low.toInt + room.toInt) (pos.toInt + len.toInt) - max low.toInt pos.toInt := by
    unfold clampAxis
    by_cases hlt : pos < low
    · have hd : (low - pos).toInt = low.toInt - pos.toInt := sub_exact (by omega) (by omega)
      have he : (len - (low - pos)).toInt = len.toInt - (low.toInt - pos.toInt) := by
        rw [← hd]
        exact sub_exact (by omega) (by omega)
      have hs : (low + (len - (low - pos))).toInt = pos.toInt + len.toInt := by
        rw [add_exact (by omega) (by omega), he]
        omega
      have hr : ((low + room) - low).toInt = room.toInt := by
        rw [sub_exact (by omega) (by omega), hsum]
        omega
      simp only [if_pos hlt]
      simp only [gt_iff_lt, Int32.lt_iff_toInt_lt] at hlt ⊢
      split <;> omega
    · have hs : (pos + len).toInt = pos.toInt + len.toInt := add_exact (by omega) (by omega)
      have hr : ((low + room) - pos).toInt = low.toInt + room.toInt - pos.toInt := by
        rw [sub_exact (by omega) (by omega), hsum]
      simp only [if_neg hlt]
      simp only [gt_iff_lt, Int32.lt_iff_toInt_lt] at hlt ⊢
      split <;> omega
  exact ⟨heq.1, heq.2, hlow.1, by omega⟩

/-- On moderate arguments `clamp` computes the intersection. -/
theorem AxisFits.cuts {limit : ℤ} {low room pos len : Int32} (h : AxisFits limit low room) (hpos : Moderate pos)
    (hlen : Moderate len) : Cuts low room pos len := by
  obtain ⟨h₀, h₁, h₂, h₃⟩ := h
  obtain ⟨hpos₁, hpos₂⟩ := hpos
  exact clampAxis_eq ⟨h₁, by omega⟩ ⟨h₂, by omega⟩ ⟨by omega, by omega⟩ (hlen.mono (by omega))

section Primitives
variable {width height : ℤ} {clip : Rect}

theorem hits_fillStores {q : Rect} (hq : q.y.toInt + q.h.toInt < 2147483648) (paint : Paint) (c r : ℤ) :
    hits (fillStores q paint) c r = if Inside q c r then [paint] else [] := by
  unfold fillStores
  have hrow : ∀ j : Int32, hits ((upTo q.w).map fun col => ⟨q.x.toInt + col.toInt, (q.y + j).toInt, paint⟩) c r =
      if (q.y + j).toInt = r ∧ q.x.toInt ≤ c ∧ c < q.x.toInt + q.w.toInt then [paint] else [] :=
    fun j => hits_row _ _ q.w (fun _ => paint) c r
  rw [hits_rows hq]
  · by_cases hr : q.y.toInt ≤ r ∧ r < q.y.toInt + q.h.toInt
    · have hy := range q.y
      have hh := range q.h
      have hk : (counter (r - q.y.toInt)).toInt = r - q.y.toInt := counter_toInt (by omega) (by omega)
      have hs := add_cases q.y (counter (r - q.y.toInt))
      rw [if_pos hr, hrow]
      refine if_congr ?_ rfl rfl
      unfold Inside
      omega
    · rw [if_neg hr, if_neg]
      unfold Inside
      omega
  · intro j _ hj
    rw [hrow, if_neg (fun h => hj h.1)]

/-- The position lies in a rectangle given by its corner and size. -/
def Covers (x y w h : Int32) (c r : ℤ) : Prop :=
  x.toInt ≤ c ∧ c < x.toInt + w.toInt ∧ y.toInt ≤ r ∧ r < y.toInt + h.toInt

instance (x y w h : Int32) (c r : ℤ) : Decidable (Covers x y w h c r) :=
  inferInstanceAs (Decidable (_ ∧ _ ∧ _ ∧ _))

section Cut
variable {x y w h : Int32} (hx : Cuts clip.x clip.w x w) (hy : Cuts clip.y clip.h y h)
include hx hy

/-- What `clamp` leaves, in terms of positions. -/
theorem clamp_inside (c r : ℤ) :
    (clamp clip x y w h = none → ¬(Inside clip c r ∧ Covers x y w h c r)) ∧
    ∀ q, clamp clip x y w h = some q → (Inside q c r ↔ Inside clip c r ∧ Covers x y w h c r) ∧
      q.x.toInt = max clip.x.toInt x.toInt ∧ q.y.toInt = max clip.y.toInt y.toInt ∧
      0 < q.w.toInt ∧ q.x.toInt + q.w.toInt ≤ x.toInt + w.toInt ∧
      0 < q.h.toInt ∧ q.y.toInt + q.h.toInt ≤ y.toInt + h.toInt ∧ q.y.toInt + q.h.toInt < 2147483648 := by
  obtain ⟨hx₁, hx₂, hx₃, hx₄⟩ := hx
  obtain ⟨hy₁, hy₂, hy₃, hy₄⟩ := hy
  unfold clamp Inside Covers
  dsimp only
  generalize clampAxis clip.x clip.w x w = px at hx₁ hx₂ ⊢
  generalize clampAxis clip.y clip.h y h = py at hy₁ hy₂ ⊢
  simp only [gt_iff_lt, Int32.lt_iff_toInt_lt]
  have hzero : (0 : Int32).toInt = 0 := rfl
  rw [hzero]
  constructor
  · intro hnone
    split at hnone
    · cases hnone
    · omega
  · intro q hq
    split at hq
    · obtain rfl := Option.some.inj hq
      dsimp only
      omega
    · cases hq

theorem hits_fillRect_cut (color : Color) (c r : ℤ) : hits (fillRect clip x y w h color) c r =
    if Inside clip c r ∧ Covers x y w h c r then [.set color] else [] := by
  obtain ⟨hnone, hsome⟩ := clamp_inside hx hy c r
  unfold fillRect
  split
  · next hc => rw [if_neg (hnone hc)]; rfl
  · next q hc =>
    obtain ⟨hin, -, -, -, -, -, -, hq⟩ := hsome q hc
    rw [hits_fillStores hq]
    exact if_congr hin rfl rfl

theorem hits_blendRect_cut {color : Color} (h₀ : colorA color ≠ 0) (h₁ : colorA color ≠ 255) (c r : ℤ) :
    hits (blendRect clip x y w h color) c r =
      if Inside clip c r ∧ Covers x y w h c r then [.blend color] else [] := by
  obtain ⟨hnone, hsome⟩ := clamp_inside hx hy c r
  unfold blendRect
  rw [if_neg h₁, if_neg h₀]
  split
  · next hc => rw [if_neg (hnone hc)]; rfl
  · next q hc =>
    obtain ⟨hin, -, -, -, -, -, -, hq⟩ := hsome q hc
    rw [hits_fillStores hq]
    exact if_congr hin rfl rfl

/-- A part of the source: the pixel at the same offset from where the part was to go. -/
theorem hits_blit_cut {sx sy : Int32} {src : Source} (hsx : 0 ≤ sx.toInt ∧ sx.toInt + w.toInt ≤ src.width.toInt)
    (hsy : 0 ≤ sy.toInt ∧ sy.toInt + h.toInt ≤ src.height.toInt) (c r : ℤ) :
    hits (blit clip x y src sx sy w h) c r =
      if Inside clip c r ∧ Covers x y w h c r then
        [.set (src.pixels ((sy.toInt + (r - y.toInt)) * src.stride.toInt + (sx.toInt + (c - x.toInt))).toNat)]
      else [] := by
  obtain ⟨hnone, hsome⟩ := clamp_inside hx hy c r
  unfold blit
  split
  · next hc => rw [if_neg (hnone hc)]; rfl
  · next q hc =>
    obtain ⟨hin, hqx, hqy, hqw₀, hqw₁, hqh₀, hqh₁, hq⟩ := hsome q hc
    have hwidth := range src.width
    have hheight := range src.height
    have hdx : (q.x - x).toInt = q.x.toInt - x.toInt := sub_exact (by omega) (by omega)
    have hdy : (q.y - y).toInt = q.y.toInt - y.toInt := sub_exact (by omega) (by omega)
    have hsx' : (sx + (q.x - x)).toInt = sx.toInt + (q.x.toInt - x.toInt) := by
      rw [add_exact (by omega) (by omega), hdx]
    have hsy' : (sy + (q.y - y)).toInt = sy.toInt + (q.y.toInt - y.toInt) := by
      rw [add_exact (by omega) (by omega), hdy]
    dsimp only
    generalize sx + (q.x - x) = column at hsx' ⊢
    generalize sy + (q.y - y) = row at hsy' ⊢
    -- the round that reaches a row of the part is never skipped
    have hround : ∀ j ∈ upTo q.h, hits
        (if row + j < 0 ∨ row + j ≥ src.height then []
        else (upTo q.w).map fun col => ⟨q.x.toInt + col.toInt, (q.y + j).toInt,
          .set (src.pixels ((row + j).toInt * src.stride.toInt + column.toInt + col.toInt).toNat)⟩) c r =
        if (q.y + j).toInt = r ∧ q.x.toInt ≤ c ∧ c < q.x.toInt + q.w.toInt then
          [.set (src.pixels ((row + j).toInt * src.stride.toInt + column.toInt +
            (counter (c - q.x.toInt)).toInt).toNat)] else [] := by
      intro j hj
      have hjb := mem_upTo.mp hj
      have hsum : (row + j).toInt = row.toInt + j.toInt := add_exact (by omega) (by omega)
      have hzero : (0 : Int32).toInt = 0 := rfl
      rw [if_neg]
      · exact hits_row _ _ q.w (fun col => .set (src.pixels ((row + j).toInt * src.stride.toInt + column.toInt +
          col.toInt).toNat)) c r
      · rw [Int32.lt_iff_toInt_lt, ge_iff_le, Int32.le_iff_toInt_le, hzero]
        omega
    rw [hits_rows hq]
    · by_cases hr : q.y.toInt ≤ r ∧ r < q.y.toInt + q.h.toInt
      · have hqh := range q.h
        have hk : (counter (r - q.y.toInt)).toInt = r - q.y.toInt := counter_toInt (by omega) (by omega)
        have hlow := hy.low_nonneg
        have hline : (q.y + counter (r - q.y.toInt)).toInt = r := by
          rw [add_exact (by omega) (by omega), hk]
          omega
        rw [if_pos hr, hround _ (mem_upTo.mpr ⟨by omega, by omega⟩), hline]
        by_cases hc' : Inside clip c r ∧ Covers x y w h c r
        · have hq' := hin.mpr hc'
          unfold Inside at hq'
          have hqw := range q.w
          have hkc : (counter (c - q.x.toInt)).toInt = c - q.x.toInt := counter_toInt (by omega) (by omega)
          have hsum : row.toInt + (counter (r - q.y.toInt)).toInt = sy.toInt + (r - y.toInt) := by omega
          have hrow : (row + counter (r - q.y.toInt)).toInt = sy.toInt + (r - y.toInt) := by
            rw [← hsum]
            exact add_exact (by omega) (by omega)
          have hcolumn : column.toInt + (c - q.x.toInt) = sx.toInt + (c - x.toInt) := by omega
          rw [if_pos hc', if_pos ⟨rfl, hq'.1, hq'.2.1⟩, hkc, hrow, Int.add_assoc, hcolumn]
        · rw [if_neg hc', if_neg]
          intro hcon
          refine hc' (hin.mp ?_)
          unfold Inside
          omega
      · rw [if_neg hr, if_neg]
        intro hcon
        have hq' := hin.mpr hcon
        unfold Inside at hq'
        omega
    · intro j hj hne
      rw [hround j hj, if_neg (fun h => hne h.1)]

end Cut

theorem hits_fillRect (hclip : Clipped width height clip) {x y w h : Int32} (hx : Moderate x) (hy : Moderate y)
    (hw : Moderate w) (hh : Moderate h) (color : Color) (c r : ℤ) :
    hits (fillRect clip x y w h color) c r =
      if Inside clip c r ∧ Covers x y w h c r then [.set color] else [] :=
  hits_fillRect_cut (hclip.x.cuts hx hw) (hclip.y.cuts hy hh) color c r

theorem hits_blendRect (hclip : Clipped width height clip) {x y w h : Int32} (hx : Moderate x) (hy : Moderate y)
    (hw : Moderate w) (hh : Moderate h) {color : Color} (h₀ : colorA color ≠ 0) (h₁ : colorA color ≠ 255) (c r : ℤ) :
    hits (blendRect clip x y w h color) c r =
      if Inside clip c r ∧ Covers x y w h c r then [.blend color] else [] :=
  hits_blendRect_cut (hclip.x.cuts hx hw) (hclip.y.cuts hy hh) h₀ h₁ c r

/-- One pixel is safe wherever it is meant to go. -/
theorem hits_pixel (hclip : Clipped width height clip) (x y : Int32) (color : Color) (c r : ℤ) :
    hits (pixel clip x y color) c r = if Inside clip c r ∧ x.toInt = c ∧ y.toInt = r then [.set color] else [] := by
  have hx := hclip.x.sum
  have hy := hclip.y.sum
  unfold pixel
  simp only [Int32.lt_iff_toInt_lt, ge_iff_le, Int32.le_iff_toInt_le, hx, hy]
  split
  · rw [if_neg]
    · rfl
    · unfold Inside
      omega
  · by_cases hp : x.toInt = c ∧ y.toInt = r
    · rw [if_pos]
      · simp [hits, hp]
      · unfold Inside
        omega
    · rw [if_neg (fun h => hp h.2)]
      simp [hits, hp]

theorem hits_blit (hclip : Clipped width height clip) {x y : Int32} (src : Source) (hx : Moderate x) (hy : Moderate y)
    (hw : Moderate src.width) (hh : Moderate src.height) (c r : ℤ) :
    hits (blit clip x y src 0 0 src.width src.height) c r =
      if Inside clip c r ∧ Covers x y src.width src.height c r then
        [.set (src.pixels ((r - y.toInt) * src.stride.toInt + (c - x.toInt)).toNat)]
      else [] := by
  have hzero : (0 : Int32).toInt = 0 := rfl
  have hwide : 0 ≤ (0 : Int32).toInt ∧ (0 : Int32).toInt + src.width.toInt ≤ src.width.toInt := by omega
  have hhigh : 0 ≤ (0 : Int32).toInt ∧ (0 : Int32).toInt + src.height.toInt ≤ src.height.toInt := by omega
  have hcut := hits_blit_cut (hclip.x.cuts hx hw) (hclip.y.cuts hy hh) hwide hhigh c r
  simpa only [hzero, Int.zero_add] using hcut

theorem hits_gradientV (hclip : Clipped width height clip) {x y w h : Int32} (hx : Moderate x)
    (hy : 0 ≤ y.toInt ∧ y.toInt + h.toInt ≤ 65535) (hw : Moderate w) (top bottom : Color) (c r : ℤ) :
    hits (gradientV clip x y w h top bottom) c r =
      if Inside clip c r ∧ Covers x y w h c r then [.set (gradientColor h (counter (r - y.toInt)) top bottom)]
      else [] := by
  have hone : (1 : Int32).toInt = 1 := rfl
  have hrow : ∀ j ∈ upTo h, hits (hline clip x (y + j) w (gradientColor h j top bottom)) c r =
      if Inside clip c r ∧ Covers x (y + j) w 1 c r then [.set (gradientColor h j top bottom)] else [] := by
    intro j hj
    have hjb := mem_upTo.mp hj
    have hs := add_cases y j
    exact hits_fillRect hclip hx ⟨by omega, by omega⟩ hw ⟨by omega, by omega⟩ _ c r
  unfold gradientV
  rw [hits_rows (y := y) (h := h) (by omega)]
  · by_cases hr : y.toInt ≤ r ∧ r < y.toInt + h.toInt
    · have hk : (counter (r - y.toInt)).toInt = r - y.toInt := counter_toInt (by omega) (by omega)
      have hs := add_cases y (counter (r - y.toInt))
      rw [if_pos hr, hrow _ (mem_upTo.mpr ⟨by omega, by omega⟩)]
      refine if_congr (and_congr_right fun _ => ?_) rfl rfl
      unfold Covers
      omega
    · rw [if_neg hr, if_neg]
      unfold Covers
      omega
  · intro j hj hne
    rw [hrow j hj, if_neg]
    unfold Covers
    omega

end Primitives

/-- A drawing that depends on the clip rectangle only by being cut to it. -/
structure Local (width height : ℤ) (op : Rect → List Store) : Prop where
  agree : ∀ {clip clip' : Rect}, Clipped width height clip → Clipped width height clip' → ∀ {c r : ℤ},
    Inside clip c r → Inside clip' c r → hits (op clip) c r = hits (op clip') c r
  outside : ∀ {clip : Rect}, Clipped width height clip → ∀ {c r : ℤ}, ¬Inside clip c r → hits (op clip) c r = []

namespace Local
variable {width height : ℤ} {op₁ op₂ : Rect → List Store}

theorem nil : Local width height fun _ => [] := ⟨fun _ _ _ _ _ _ => rfl, fun _ _ _ _ => rfl⟩

theorem append (h₁ : Local width height op₁) (h₂ : Local width height op₂) :
    Local width height fun clip => op₁ clip ++ op₂ clip := by
  refine ⟨fun hc hc' _ _ hin hin' => ?_, fun hc _ _ hout => ?_⟩
  · rw [hits_append, hits_append, h₁.agree hc hc' hin hin', h₂.agree hc hc' hin hin']
  · rw [hits_append, h₁.outside hc hout, h₂.outside hc hout]
    rfl

theorem flatMap {α : Type*} {l : List α} {op : α → Rect → List Store} (h : ∀ a ∈ l, Local width height (op a)) :
    Local width height fun clip => l.flatMap fun a => op a clip := by
  induction l with
  | nil => exact nil
  | cons a l ih =>
    simp only [List.flatMap_cons]
    exact (h a List.mem_cons_self).append (ih fun b hb => h b (List.mem_cons_of_mem a hb))

/-- What hits a pixel when it is inside the clip and not otherwise. -/
theorem of_hits {op : Rect → List Store} (P : ℤ → ℤ → Prop) [∀ c r, Decidable (P c r)] (f : ℤ → ℤ → Paint)
    (h : ∀ {clip : Rect}, Clipped width height clip → ∀ c r,
      hits (op clip) c r = if Inside clip c r ∧ P c r then [f c r] else []) : Local width height op := by
  refine ⟨fun hc hc' c r hin hin' => ?_, fun hc c r hout => ?_⟩
  · rw [h hc, h hc']
    exact if_congr (by simp [hin, hin']) rfl rfl
  · rw [h hc, if_neg (fun hcon => hout hcon.1)]

theorem pixel (x y : Int32) (color : Color) : Local width height fun clip => Graphics.pixel clip x y color :=
  of_hits (fun c r => x.toInt = c ∧ y.toInt = r) (fun _ _ => .set color) fun hc c r => hits_pixel hc x y color c r

theorem fillRect {x y w h : Int32} (hx : Moderate x) (hy : Moderate y) (hw : Moderate w) (hh : Moderate h)
    (color : Color) : Local width height fun clip => Graphics.fillRect clip x y w h color :=
  of_hits (Covers x y w h) (fun _ _ => .set color) fun hc c r => hits_fillRect hc hx hy hw hh color c r

theorem blendRect {x y w h : Int32} (hx : Moderate x) (hy : Moderate y) (hw : Moderate w) (hh : Moderate h)
    {color : Color} (h₀ : colorA color ≠ 0) (h₁ : colorA color ≠ 255) :
    Local width height fun clip => Graphics.blendRect clip x y w h color :=
  of_hits (Covers x y w h) (fun _ _ => .blend color) fun hc c r => hits_blendRect hc hx hy hw hh h₀ h₁ c r

theorem blit {x y : Int32} {src : Source} (hx : Moderate x) (hy : Moderate y) (hw : Moderate src.width)
    (hh : Moderate src.height) :
    Local width height fun clip => Graphics.blit clip x y src 0 0 src.width src.height :=
  of_hits (Covers x y src.width src.height)
    (fun c r => .set (src.pixels ((r - y.toInt) * src.stride.toInt + (c - x.toInt)).toNat))
    fun hc c r => hits_blit hc _ hx hy hw hh c r

/-- Characters are drawn pixel by pixel, so they may go anywhere. -/
theorem char (font : Font) (x y : Int32) (ch : UInt8) (color : Color) :
    Local width height fun clip => Graphics.char font clip x y ch color 1 := by
  unfold Graphics.char
  refine flatMap fun row _ => flatMap fun col _ => ?_
  split
  · exact nil
  · exact pixel _ _ color

theorem text (font : Font) (x y : Int32) (string : List UInt8) (color : Color) :
    Local width height fun clip => Graphics.text font clip x y string color 1 := by
  induction string generalizing x y with
  | nil => exact nil
  | cons ch rest ih =>
    simp only [Graphics.text]
    split
    · exact ih _ _
    · exact (char font x y ch color).append (ih _ _)

theorem textClipped (font : Font) (x y : Int32) (string : List UInt8) (color : Color) (maxWidth : Int32) :
    Local width height fun clip => Graphics.textClipped font clip x y string color 1 maxWidth := by
  unfold Graphics.textClipped
  simp only [ite_self]
  split
  · exact text font x y string color
  · split
    · exact flatMap fun i _ => char font _ y _ color
    · exact (flatMap fun i _ => char font _ y _ color).append (flatMap fun i _ => char font _ y _ color)

end Local

end SifarOS.DrawnPixels
