import SifarOS.ScreenBounds

/-! # Repainting a part of the screen

`compose_rect` on a rectangle against `compose_rect` on the whole screen, pixel by pixel. The two draw
the same layers over a pixel, from the background up, but for two of them: the background, whose
gradient runs over the rectangle and not over the screen, and the windows whose frame misses the
rectangle, which are skipped although their decorations reach outside the frame. -/
namespace SifarOS.PartialRepaint
open Graphics WindowServer Compositor MachineInt DrawnPixels WindowEdits ScreenBounds

/-- The colour of a pixel after these paints. -/
def paintOver (l : List Paint) (before : Color) : Color := l.foldl (fun color p => p.apply color) before

theorem paintOver_append (l₁ l₂ : List Paint) (before : Color) :
    paintOver (l₁ ++ l₂) before = paintOver l₂ (paintOver l₁ before) := List.foldl_append

theorem paintOver_cons (p : Paint) (l : List Paint) (before : Color) :
    paintOver (p :: l) before = paintOver l (p.apply before) := rfl

/-- One of the paints is not a blend, so nothing below shines through. -/
def Opaque (l : List Paint) : Prop := ∃ color, .set color ∈ l

theorem Opaque.paintOver {l : List Paint} (h : Opaque l) (before before' : Color) :
    paintOver l before = paintOver l before' := by
  obtain ⟨color, hmem⟩ := h
  obtain ⟨below, above, rfl⟩ := List.append_of_mem hmem
  rw [paintOver_append, paintOver_append]
  rfl

/-- Two stacks of layers that agree from an opaque one on. -/
theorem paintOver_layers {f g : ℕ → List Paint} {n k : ℕ} (hk : k < n) (ho : Opaque (g k))
    (h : ∀ j, k ≤ j → j < n → f j = g j) (before before' : Color) :
    paintOver ((List.range n).flatMap f) before = paintOver ((List.range n).flatMap g) before' := by
  induction n with
  | zero => exact absurd hk (Nat.not_lt_zero k)
  | succ n ih =>
    rw [List.range_succ, List.flatMap_append, List.flatMap_append, paintOver_append, paintOver_append]
    simp only [List.flatMap_singleton]
    rcases Nat.lt_succ_iff_lt_or_eq.mp hk with hlt | rfl
    · rw [ih hlt fun j hj hjn => h j hj (Nat.lt_succ_of_lt hjn), h n (Nat.le_of_lt hlt) (Nat.lt_succ_self n)]
    · rw [h k (Nat.le_refl k) (Nat.lt_succ_self k)]
      exact ho.paintOver _ _

section Layers
variable {screen : Screen} {font : Font} {s : Server} {r : Rect}

theorem wholeScreen_clipped (screen : Screen) : Clipped screen.width.toInt screen.height.toInt (wholeScreen screen) := by
  obtain ⟨hW₀, hW₁, hH₀, hH₁⟩ := screen_limits screen
  have hzero : (0 : Int32).toInt = 0 := rfl
  exact ⟨⟨hW₁, by simp [wholeScreen], by simp only [wholeScreen]; omega, by simp only [wholeScreen]; omega⟩,
    ⟨hH₁, by simp [wholeScreen], by simp only [wholeScreen]; omega, by simp only [wholeScreen]; omega⟩⟩

theorem Inside.wholeScreen (hr : Clipped screen.width.toInt screen.height.toInt r) {c row : ℤ} (h : Inside r c row) :
    Inside (wholeScreen screen) c row := by
  obtain ⟨h₁, h₂, h₃, h₄⟩ := Inside.onScreen hr h
  have hzero : (0 : Int32).toInt = 0 := rfl
  simp only [Inside, Compositor.wholeScreen]
  omega

/-- The layer that the window at a place of the stacking order is, as `compose_rect` of `r` draws it. -/
def layer (font : Font) (s : Server) (r : Rect) (c row : ℤ) (k : ℕ) : List Paint :=
  match drawnAt s r.x r.y r.w r.h k with
  | none => []
  | some w => hits (drawWindow font r w (w.id == s.focusId)) c row

/-- On the screen nothing is trimmed. -/
theorem composeRect_back (hr : Clipped screen.width.toInt screen.height.toInt r) :
    (composeRect screen font s r).back = if r.w ≤ 0 ∨ r.h ≤ 0 then [] else paint font s r r.x r.y r.w r.h := by
  have hx := trim_of_fits hr.x
  have hy := trim_of_fits hr.y
  have hzero : (0 : Int32).toInt = 0 := rfl
  unfold composeRect
  rw [hx, hy]
  dsimp only
  split
  · rfl
  · next hleft =>
    simp only [not_or, Int32.le_iff_toInt_le, not_le, hzero] at hleft
    have hclip := clipSet_trim screen (r := r) (by rw [hx]; exact hleft.1) (by rw [hy]; exact hleft.2)
    rw [hx, hy] at hclip
    rw [hclip]

/-- What a rectangle on the screen is painted with. -/
theorem hits_composeRect (hr : Clipped screen.width.toInt screen.height.toInt r) {c row : ℤ} (hin : Inside r c row) :
    hits (composeRect screen font s r).back c row =
      .set (gradientColor r.h (counter (row - r.y.toInt)) colorDesktopTop colorDesktopBottom) ::
        ((List.range s.zCount).flatMap (layer font s r c row) ++ hits (drawCursor r s.cursorX s.cursorY) c row) := by
  have hzero : (0 : Int32).toInt = 0 := rfl
  obtain ⟨hx₀, hx₁, hx₂, hx₃⟩ := hr.x
  obtain ⟨hy₀, hy₁, hy₂, hy₃⟩ := hr.y
  have hleft : ¬(r.w ≤ 0 ∨ r.h ≤ 0) := by
    unfold Inside at hin
    simp only [Int32.le_iff_toInt_le]
    omega
  rw [composeRect_back hr, if_neg hleft, paint, hits_append, hits_append,
    hits_gradientV hr ⟨by omega, by omega⟩ ⟨hy₁, by omega⟩ ⟨by omega, by omega⟩, if_pos ⟨hin, hin⟩, hits_flatMap,
    List.append_assoc, List.singleton_append]
  congr 2
  refine List.flatMap_congr fun k _ => ?_
  unfold layer
  generalize drawnAt s r.x r.y r.w r.h k = drawn
  cases drawn <;> rfl

/-- Nothing outside the rectangle is stored to. -/
theorem hits_composeRect_outside (hs : ∀ i, Sized screen (s.windows i))
    (hr : Clipped screen.width.toInt screen.height.toInt r) {c row : ℤ} (hout : ¬Inside r c row) :
    hits (composeRect screen font s r).back c row = [] := by
  by_contra hne
  obtain ⟨p, hp⟩ := List.exists_mem_of_ne_nil _ hne
  obtain ⟨store, hstore, hmatch⟩ := List.mem_filterMap.mp hp
  rw [composeRect_back hr] at hstore
  split at hstore
  · exact absurd hstore List.not_mem_nil
  · have hin := paint_inside font hs hr hstore
    split at hmatch
    · next hpos =>
      rw [hpos.1, hpos.2] at hin
      exact hout hin
    · cases hmatch

/-- A window that is drawn for a part of the screen is drawn for the whole. -/
theorem drawnAt_wholeScreen (hs : ∀ i, Sized screen (s.windows i))
    (hr : Clipped screen.width.toInt screen.height.toInt r) {k : ℕ} {w : Window}
    (h : drawnAt s r.x r.y r.w r.h k = some w) :
    drawnAt s (wholeScreen screen).x (wholeScreen screen).y (wholeScreen screen).w (wholeScreen screen).h k = some w ∧
      Near w := by
  obtain ⟨i, hu, hi, -, hm⟩ := drawnAt_some h
  have hnear : Near w := near_of_drawn (hi ▸ hs i hu) hr.x hr.y hm
  refine ⟨?_, hnear⟩
  have hnot : ¬missed w (wholeScreen screen).x (wholeScreen screen).y (wholeScreen screen).w (wholeScreen screen).h := by
    change ¬missed w 0 0 screen.width screen.height
    have hsx := hr.x.sum
    have hsy := hr.y.sum
    have hwx : (0 + screen.width).toInt = screen.width.toInt := by rw [Int32.zero_add]
    have hwy : (0 + screen.height).toInt = screen.height.toInt := by rw [Int32.zero_add]
    have hzero : (0 : Int32).toInt = 0 := rfl
    obtain ⟨hx₀, hx₁, hx₂, hx₃⟩ := hr.x
    obtain ⟨hy₀, hy₁, hy₂, hy₃⟩ := hr.y
    unfold missed at hm ⊢
    simp only [not_or, ge_iff_le, Int32.le_iff_toInt_le, not_le, hsx, hsy, hwx, hwy] at hm ⊢
    omega
  unfold drawnAt at h ⊢
  split at h
  · cases h
  · next j hj =>
    split at h
    · cases h
    · next hstate =>
      split at h
      · cases h
      · obtain rfl := Option.some.inj h
        rw [if_neg hstate, if_neg hnot]

/-- A window that is not skipped is the same layer either way. -/
theorem layer_of_drawn (hs : ∀ i, Sized screen (s.windows i)) (hr : Clipped screen.width.toInt screen.height.toInt r)
    {c row : ℤ} (hin : Inside r c row) {k : ℕ} (h : drawnAt s r.x r.y r.w r.h k ≠ none) :
    layer font s r c row k = layer font s (wholeScreen screen) c row k := by
  obtain ⟨w, hw⟩ := Option.ne_none_iff_exists'.mp h
  obtain ⟨hwhole, hnear⟩ := drawnAt_wholeScreen hs hr hw
  unfold layer
  rw [hw, hwhole]
  exact (drawWindow_local font hnear _).agree hr (wholeScreen_clipped screen) hin (Inside.wholeScreen hr hin)

/-- A window hides what is below its content. -/
theorem opaque_of_content {w : Window} (hw : Near w) {clip : Rect}
    (hc : Clipped screen.width.toInt screen.height.toInt clip) {c row : ℤ} (hin : Inside clip c row)
    (hcontent : Covers w.x w.y w.width w.height c row) (active : Bool) :
    Opaque (hits (drawWindow font clip w active) c row) := by
  have hblit := hits_blit hc (surface w) (hw.x.mono (by omega)) (hw.y.mono (by omega))
    (hw.width.mono (by omega)) (hw.height.mono (by omega)) c row
  rw [if_pos ⟨hin, hcontent⟩] at hblit
  have hmem := List.mem_singleton_self (Paint.set ((surface w).pixels
    ((row - w.y.toInt) * (surface w).stride.toInt + (c - w.x.toInt)).toNat))
  rw [← hblit] at hmem
  rw [drawWindow, hits_append]
  exact ⟨_, List.mem_append_right _ hmem⟩

/-- The window at a place of the stacking order is skipped for `r` and has something to draw there. -/
def Lost (screen : Screen) (font : Font) (s : Server) (r : Rect) (c row : ℤ) (k : ℕ) : Prop :=
  drawnAt s r.x r.y r.w r.h k = none ∧ layer font s (wholeScreen screen) c row k ≠ []

/-- Where nothing is lost the layers are the same. -/
theorem layer_of_not_lost (hs : ∀ i, Sized screen (s.windows i)) (hr : Clipped screen.width.toInt screen.height.toInt r)
    {c row : ℤ} (hin : Inside r c row) {k : ℕ} (h : ¬Lost screen font s r c row k) :
    layer font s r c row k = layer font s (wholeScreen screen) c row k := by
  by_cases hd : drawnAt s r.x r.y r.w r.h k = none
  · have hempty : layer font s (wholeScreen screen) c row k = [] := not_not.mp fun hne => h ⟨hd, hne⟩
    rw [hempty]
    unfold layer
    rw [hd]
  · exact layer_of_drawn hs hr hin hd

/-- The pixel looks the same either way, whatever the colours: the cursor is drawn over it; or a window
that is not skipped hides what is below, and no window above that one is lost; or no window is lost at
all and the two gradients have one colour there. -/
def Settled (screen : Screen) (font : Font) (s : Server) (r : Rect) (c row : ℤ) : Prop :=
  Opaque (hits (drawCursor (wholeScreen screen) s.cursorX s.cursorY) c row) ∨
  (∃ k < s.zCount, Opaque (layer font s (wholeScreen screen) c row k) ∧
    ∀ j, k ≤ j → j < s.zCount → ¬Lost screen font s r c row j) ∨
  ((∀ j < s.zCount, ¬Lost screen font s r c row j) ∧
    gradientColor r.h (counter (row - r.y.toInt)) colorDesktopTop colorDesktopBottom =
      gradientColor screen.height (counter row) colorDesktopTop colorDesktopBottom)

/-- What a repaint of a part should be: inside it every pixel as after a repaint of the whole screen,
outside it nothing. -/
structure Repaints (screen : Screen) (font : Font) (s : Server) (r : Rect) : Prop where
  inside : ∀ c row before, Inside r c row →
    paintOver (hits (composeRect screen font s r).back c row) before =
      paintOver (hits (composeRect screen font s (wholeScreen screen)).back c row) before
  outside : ∀ c row, ¬Inside r c row → hits (composeRect screen font s r).back c row = []

theorem Settled.inside (hs : ∀ i, Sized screen (s.windows i)) (hr : Clipped screen.width.toInt screen.height.toInt r)
    {c row : ℤ} (hin : Inside r c row) (h : Settled screen font s r c row) (before : Color) :
    paintOver (hits (composeRect screen font s r).back c row) before =
      paintOver (hits (composeRect screen font s (wholeScreen screen)).back c row) before := by
  have hwhole := wholeScreen_clipped screen
  have hin' := Inside.wholeScreen hr hin
  have hcursor : hits (drawCursor r s.cursorX s.cursorY) c row =
      hits (drawCursor (wholeScreen screen) s.cursorX s.cursorY) c row :=
    (drawCursor_local s.cursorX s.cursorY).agree hr hwhole hin hin'
  have hsame : ∀ {j}, ¬Lost screen font s r c row j →
      layer font s r c row j = layer font s (wholeScreen screen) c row j := layer_of_not_lost hs hr hin
  have hrow : row - (wholeScreen screen).y.toInt = row := by simp [wholeScreen]
  rw [hits_composeRect hr hin, hits_composeRect hwhole hin', hcursor, hrow, paintOver_cons, paintOver_cons,
    paintOver_append, paintOver_append]
  rcases h with ho | ⟨k, hk, ho, hlost⟩ | ⟨hlost, hcolor⟩
  · exact ho.paintOver _ _
  · rw [paintOver_layers hk ho fun j hj hjn => hsame (hlost j hj hjn)]
  · have hlayers : (List.range s.zCount).flatMap (layer font s r c row) =
        (List.range s.zCount).flatMap (layer font s (wholeScreen screen) c row) :=
      List.flatMap_congr fun j hj => hsame (hlost j (List.mem_range.mp hj))
    rw [hlayers, hcolor]
    rfl

/-- A part of the screen is repainted as the whole would be when every pixel of it is settled. -/
theorem partial_repaint (screen : Screen) (font : Font) {s : Server} (hs : ∀ i, Sized screen (s.windows i)) {r : Rect}
    (hr : Clipped screen.width.toInt screen.height.toInt r)
    (h : ∀ c row, Inside r c row → Settled screen font s r c row) : Repaints screen font s r :=
  ⟨fun c row before hin => (h c row hin).inside hs hr hin before,
    fun _ _ hout => hits_composeRect_outside hs hr hout⟩

end Layers

section Samples
open WindowStacking

/-- The server with one window of 200 by 100 pixels at (60, 60). -/
def oneWindow : Server := (wmInit xga).run xga (.create 1 200 100 [] 0 true)

theorem oneWindow_sized (i : WindowSlot) : Sized xga (oneWindow.windows i) :=
  run_keeps (fun h he => h.edit he) (fun _ hu => absurd hu (by simp [wmInit])) _ i

theorem oneWindow_drawn : ((drawnAt oneWindow 70 70 10 10 0).any fun w =>
    w.x = 60 ∧ w.y = 60 ∧ w.width = 200 ∧ w.height = 100) = true := by decide

/-- Inside the window all is well. -/
theorem partial_repaint_oneWindow : Repaints xga (fun _ => 0) oneWindow ⟨70, 70, 10, 10⟩ := by
  have hr : Clipped xga.width.toInt xga.height.toInt ⟨70, 70, 10, 10⟩ :=
    ⟨⟨by decide, by decide, by decide, by decide⟩, ⟨by decide, by decide, by decide, by decide⟩⟩
  refine partial_repaint xga (fun _ => 0) oneWindow_sized hr fun c row hin => .inr (.inl ⟨0, by decide, ?_, ?_⟩)
  · obtain ⟨w, hw, hfacts⟩ := (Option.any_eq_true _ _).mp oneWindow_drawn
    obtain ⟨hx, hy, hwidth, hheight⟩ := of_decide_eq_true hfacts
    obtain ⟨hwhole, hnear⟩ := drawnAt_wholeScreen oneWindow_sized hr hw
    unfold layer
    rw [hwhole]
    refine opaque_of_content hnear (wholeScreen_clipped xga) (Inside.wholeScreen hr hin) ?_ _
    rw [hx, hy, hwidth, hheight]
    have hpixel : 70 ≤ c ∧ c < 80 ∧ 70 ≤ row ∧ row < 80 := hin
    change 60 ≤ c ∧ c < 260 ∧ 60 ≤ row ∧ row < 160
    omega
  · intro j _ hj hlost
    obtain rfl : j = 0 := by
      have hcount : oneWindow.zCount = 1 := by decide
      omega
    have hdrawn := oneWindow_drawn
    rw [hlost.1] at hdrawn
    cases hdrawn

/-- The background of a small rectangle at the height of the screen's middle is that of the screen's top. -/
theorem partial_repaint_differs : ¬∀ (s : Server) (r : Rect), (∀ i, Sized xga (s.windows i)) →
    Clipped xga.width.toInt xga.height.toInt r → Repaints xga (fun _ => 0) s r := by
  intro h
  have hr : Clipped xga.width.toInt xga.height.toInt ⟨0, 300, 5, 5⟩ :=
    ⟨⟨by decide, by decide, by decide, by decide⟩, ⟨by decide, by decide, by decide, by decide⟩⟩
  have hin : Inside ⟨0, 300, 5, 5⟩ 0 300 := by decide
  have hsame := (h (wmInit xga) _ (fun _ hu => absurd hu (by simp [wmInit])) hr).inside 0 300 0 hin
  have hcursor : hits (drawCursor ⟨0, 300, 5, 5⟩ (wmInit xga).cursorX (wmInit xga).cursorY) 0 300 = [] := by
    decide
  have hcursor' : hits (drawCursor (wholeScreen xga) (wmInit xga).cursorX (wmInit xga).cursorY) 0 300 = [] := by
    decide
  rw [hits_composeRect hr hin, hits_composeRect (wholeScreen_clipped xga) (Inside.wholeScreen hr hin), hcursor,
    hcursor'] at hsame
  exact absurd hsame (by decide)

end Samples

end SifarOS.PartialRepaint
