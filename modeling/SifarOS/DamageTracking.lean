import SifarOS.ScreenBounds

/-! # Damage between two frames

`compose` paints the rectangles of `dirty[]` one after another while other threads' window calls go
on asking for more. A request is merged into the first rectangle near it, which may be one that this
pass has painted already, and the reset at the end of the pass drops whatever is in the list. -/
namespace SifarOS.DamageTracking
open Graphics WindowServer Compositor MachineInt DrawnPixels WindowEdits ScreenBounds ReachableStates

/-- A rectangle that some window call, made in some reachable state, passes to `wm_damage_rect`. -/
def Issued (screen : Screen) (r : Rect) : Prop :=
  ∃ d c, Desktop.Reached screen d ∧ Damage.rect r ∈ (d.call screen c).server.damage

/-- Requests are not much larger than the largest screen. -/
def Modest (r : Rect) : Prop := r.w.toInt ≤ 65600 ∧ r.h.toInt ≤ 65600

theorem damageFrame_modest {screen : Screen} {w : Window} (h : Bounded screen w) : Modest (Server.damageFrame w) := by
  obtain ⟨-, hW, -, hH⟩ := screen_limits screen
  obtain ⟨hw, hh⟩ := h
  rw [Int32.le_iff_toInt_le] at hw hh
  have hrw := range w.width
  have hrh := range w.height
  have hborder : wmBorder.toInt = 1 := rfl
  have hborder2 : (wmBorder * 2).toInt = 2 := rfl
  have htitle : wmTitleHeight.toInt = 26 := rfl
  have height8 : (8 : Int32).toInt = 8 := rfl
  unfold Modest Server.damageFrame Window.frameRect
  dsimp only
  split
  · have a₁ := add_cases w.width (wmBorder * 2)
    have a₂ := add_cases (w.width + wmBorder * 2) 8
    have a₃ := add_cases w.height wmTitleHeight
    have a₄ := add_cases (w.height + wmTitleHeight) wmBorder
    have a₅ := add_cases (w.height + wmTitleHeight + wmBorder) 8
    dsimp only
    constructor
    · clear a₃ a₄ a₅
      omega
    · clear a₁ a₂
      omega
  · have a₁ := add_cases w.width 8
    have a₂ := add_cases w.height 8
    dsimp only
    constructor <;> omega

theorem requested_modest {screen : Screen} {s : Server} (hb : ∀ i, Bounded screen (s.windows i)) {r : Rect}
    (h : Requested s r) : Modest r := by
  obtain ⟨-, hW, -, hH⟩ := screen_limits screen
  rcases h with ⟨i, rfl⟩ | ⟨i, hw, hh⟩ | ⟨hw, hh⟩
  · exact damageFrame_modest (hb i)
  · obtain ⟨hbw, hbh⟩ := hb i
    rw [Int32.le_iff_toInt_le] at hbw hbh
    unfold Modest
    rw [hw, hh]
    omega
  · rw [Int32.le_iff_toInt_le] at hw hh
    have hmax : (65535 : Int32).toInt = 65535 := rfl
    unfold Modest
    omega

/-- A request that `wm_damage_rect` does not turn away at once. -/
structure Sensible (r : Rect) : Prop where
  w : 0 < r.w.toInt ∧ r.w.toInt ≤ 65600
  h : 0 < r.h.toInt ∧ r.h.toInt ≤ 65600

/-- The sizes of the windows and of the requests made so far. -/
structure Tame (screen : Screen) (s : Server) : Prop where
  windows : ∀ i, Bounded screen (s.windows i)
  damage : ∀ r, Damage.rect r ∈ s.damage → Modest r

theorem Tame.acts {screen : Screen} {s t : Server} (h : Tame screen s) (hst : Acts (Edit screen) s t) : Tame screen t := by
  induction hst with
  | refl => exact h
  | @tail t _ _ hact ih =>
    cases hact with
    | @edit i w he =>
      refine ⟨fun j => ?_, ih.damage⟩
      by_cases hj : j = i
      · subst hj
        rw [t.setWindow_windows_self]
        exact (ih.windows j).edit he
      · rw [t.setWindow_windows_ne w hj]
        exact ih.windows j
    | @damage r hr =>
      refine ⟨ih.windows, fun q hq => ?_⟩
      rcases List.mem_append.mp hq with hq | hq
      · exact ih.damage q hq
      · obtain rfl := Damage.rect.inj (List.mem_singleton.mp hq)
        exact requested_modest ih.windows hr
    | damageAll =>
      refine ⟨ih.windows, fun q hq => ?_⟩
      rcases List.mem_append.mp hq with hq | hq
      · exact ih.damage q hq
      · cases List.mem_singleton.mp hq
    | other hw hd => exact ⟨hw ▸ ih.windows, hd ▸ ih.damage⟩

/-- No window of the desktop is larger than the screen. -/
def AllBounded (screen : Screen) (d : Desktop) : Prop := ∀ i, Bounded screen (d.server.windows i)

theorem reached_bounded {screen : Screen} {d : Desktop} (h : Desktop.Reached screen d) : AllBounded screen d := by
  refine Reachable.invariant h ?_ ?_
  · rintro d rfl i
    exact ⟨Int32.le_of_lt screen.width_pos, Int32.le_of_lt screen.height_pos⟩
  · rintro d d' hd (⟨c, rfl⟩ | rfl)
    · exact run_keeps Bounded.edit (s := { d.server with damage := [] }) hd c
    · exact hd

theorem Issued.modest {screen : Screen} {r : Rect} (h : Issued screen r) : Modest r := by
  obtain ⟨d, c, hd, hr⟩ := h
  have htame : Tame screen { d.server with damage := [] } :=
    ⟨reached_bounded hd, fun _ hq => absurd hq List.not_mem_nil⟩
  exact (htame.acts (run_acts screen _ c)).damage r hr

/-- One axis of what `compose_rect` repaints. -/
def AxisCovered (limit pos len : Int32) (c : ℤ) : Prop :=
  (trim limit pos len).1.toInt ≤ c ∧ c < (trim limit pos len).1.toInt + (trim limit pos len).2.toInt

/-- The pixel is among those `compose_rect` would repaint for this rectangle. -/
def Covered (screen : Screen) (r : Rect) (c row : ℤ) : Prop :=
  AxisCovered screen.width r.x r.w c ∧ AxisCovered screen.height r.y r.h row

section Axis
variable {limit pos len : Int32} {c : ℤ}

/-- A pixel between the two edges is repainted, however the length came about. -/
theorem axisCovered_of_edges (hl : limit.toInt ≤ 65535) (hc : 0 ≤ c ∧ c < limit.toInt) (h₁ : pos.toInt ≤ c)
    (h₂ : c < (pos + len).toInt) : AxisCovered limit pos len c := by
  have hzero : (0 : Int32).toInt = 0 := rfl
  have hp := range pos
  have hn := range len
  unfold AxisCovered trim
  by_cases hneg : pos < 0
  · have hcomm : len + pos = pos + len := Int32.add_comm len pos
    have ht := add_cases 0 (pos + len)
    have hd := sub_cases limit 0
    have hr := range (pos + len)
    simp only [if_pos hneg, hcomm]
    simp only [gt_iff_lt, Int32.lt_iff_toInt_lt]
    split <;> omega
  · have hs := add_cases pos len
    have hd := sub_cases limit pos
    simp only [if_neg hneg]
    simp only [gt_iff_lt, Int32.lt_iff_toInt_lt] at hneg ⊢
    split <;> omega

/-- The converse, for a rectangle whose sum does not wrap. -/
theorem edges_of_axisCovered (hl : 0 < limit.toInt ∧ limit.toInt ≤ 65535) (ho : ¬Overflows pos len)
    (hc : 0 ≤ c) (h : AxisCovered limit pos len c) : pos.toInt ≤ c ∧ c < (pos + len).toInt := by
  have hzero : (0 : Int32).toInt = 0 := rfl
  have hp := range pos
  have hn := range len
  unfold Overflows at ho
  unfold AxisCovered trim at h
  by_cases hneg : pos < 0
  · have hcomm : len + pos = pos + len := Int32.add_comm len pos
    have ht := add_cases 0 (pos + len)
    have hd := sub_cases limit 0
    have hr := range (pos + len)
    simp only [if_pos hneg, hcomm] at h
    simp only [gt_iff_lt, Int32.lt_iff_toInt_lt] at hneg h
    split at h <;> omega
  · have hs := add_cases pos len
    have hd := sub_cases limit pos
    simp only [if_neg hneg] at h
    simp only [gt_iff_lt, Int32.lt_iff_toInt_lt] at hneg h
    split at h <;> omega

/-- A sum that wraps is never taken for near: the other rectangle would have to reach half the
integers. -/
theorem not_overflows_of_near {q m : Int32} (hm : 0 < m.toInt ∧ m.toInt ≤ 65600) (h₁ : q.toInt < (pos + len + 16).toInt)
    (h₂ : pos.toInt < (q + m + 16).toInt) : ¬Overflows pos len := by
  rintro ⟨ho₁, ho₂⟩
  have hsixteen : (16 : Int32).toInt = 16 := rfl
  have hp := range pos
  have hn := range len
  have hq := range q
  have hrm := range m
  have a₁ := add_cases pos len
  have a₂ := add_cases (pos + len) 16
  have a₃ := add_cases q m
  have a₄ := add_cases (q + m) 16
  omega

/-- The edges of a merged rectangle. -/
theorem edge_merged (p a b : Int32) : p + (maxInt a b - p) = maxInt a b := by
  rw [Int32.add_comm, Int32.sub_add_cancel]

theorem le_maxInt_left (a b : Int32) : a.toInt ≤ (maxInt a b).toInt := by
  unfold maxInt
  simp only [gt_iff_lt, Int32.lt_iff_toInt_lt]
  split <;> omega

theorem le_maxInt_right (a b : Int32) : b.toInt ≤ (maxInt a b).toInt := by
  unfold maxInt
  simp only [gt_iff_lt, Int32.lt_iff_toInt_lt]
  split <;> omega

theorem minInt_le_left (a b : Int32) : (minInt a b).toInt ≤ a.toInt := by
  unfold minInt
  simp only [Int32.lt_iff_toInt_lt]
  split <;> omega

theorem minInt_le_right (a b : Int32) : (minInt a b).toInt ≤ b.toInt := by
  unfold minInt
  simp only [Int32.lt_iff_toInt_lt]
  split <;> omega

/-- Merging keeps what the old rectangle covered along one axis. -/
theorem axisCovered_merge_left {q m : Int32} (hl : 0 < limit.toInt ∧ limit.toInt ≤ 65535) (hm : 0 < m.toInt ∧ m.toInt ≤ 65600)
    (hc : 0 ≤ c ∧ c < limit.toInt) (h₁ : q < pos + len + 16) (h₂ : pos < q + m + 16)
    (h : AxisCovered limit pos len c) :
    AxisCovered limit (minInt pos q) (maxInt (pos + len) (q + m) - minInt pos q) c := by
  rw [Int32.lt_iff_toInt_lt] at h₁ h₂
  obtain ⟨hlow, hhigh⟩ := edges_of_axisCovered hl (not_overflows_of_near hm h₁ h₂) hc.1 h
  refine axisCovered_of_edges hl.2 hc ?_ ?_
  · have := minInt_le_left pos q
    omega
  · rw [edge_merged]
    have := le_maxInt_left (pos + len) (q + m)
    omega

/-- Merging covers what was asked for along one axis. -/
theorem axisCovered_merge_right {q m : Int32} (hl : 0 < limit.toInt ∧ limit.toInt ≤ 65535) (hm : m.toInt ≤ 65600)
    (hc : 0 ≤ c ∧ c < limit.toInt) (h : q.toInt ≤ c ∧ c < q.toInt + m.toInt) :
    AxisCovered limit (minInt pos q) (maxInt (pos + len) (q + m) - minInt pos q) c := by
  have hq := range q
  have ha := add_cases q m
  refine axisCovered_of_edges hl.2 hc ?_ ?_
  · have := minInt_le_right pos q
    omega
  · rw [edge_merged]
    have := le_maxInt_right (pos + len) (q + m)
    omega

theorem axisCovered_self (hl : 0 < limit.toInt ∧ limit.toInt ≤ 65535) (hm : len.toInt ≤ 65600)
    (hc : 0 ≤ c ∧ c < limit.toInt) (h : pos.toInt ≤ c ∧ c < pos.toInt + len.toInt) : AxisCovered limit pos len c := by
  have hq := range pos
  have ha := add_cases pos len
  exact axisCovered_of_edges hl.2 hc h.1 (by omega)

end Axis

section Merging
variable {screen : Screen} {a r : Rect} {c row : ℤ}

theorem covered_union_left (hr : Sensible r) (hp : OnScreen screen c row) (hn : near a r)
    (h : Covered screen a c row) : Covered screen (union a r) c row := by
  obtain ⟨hW₀, hW₁, hH₀, hH₁⟩ := screen_limits screen
  obtain ⟨h₁, h₂, h₃, h₄⟩ := hn
  obtain ⟨hc₁, hc₂, hc₃, hc₄⟩ := hp
  exact ⟨axisCovered_merge_left ⟨hW₀, hW₁⟩ hr.w ⟨hc₁, hc₂⟩ h₁ h₂ h.1,
    axisCovered_merge_left ⟨hH₀, hH₁⟩ hr.h ⟨hc₃, hc₄⟩ h₃ h₄ h.2⟩

theorem covered_union_right (hr : Sensible r) (hp : OnScreen screen c row) (h : Covers r.x r.y r.w r.h c row) :
    Covered screen (union a r) c row := by
  obtain ⟨hW₀, hW₁, hH₀, hH₁⟩ := screen_limits screen
  obtain ⟨hc₁, hc₂, hc₃, hc₄⟩ := hp
  obtain ⟨h₁, h₂, h₃, h₄⟩ := h
  exact ⟨axisCovered_merge_right ⟨hW₀, hW₁⟩ hr.w.2 ⟨hc₁, hc₂⟩ ⟨h₁, h₂⟩,
    axisCovered_merge_right ⟨hH₀, hH₁⟩ hr.h.2 ⟨hc₃, hc₄⟩ ⟨h₃, h₄⟩⟩

theorem covered_self (hr : Sensible r) (hp : OnScreen screen c row) (h : Covers r.x r.y r.w r.h c row) :
    Covered screen r c row := by
  obtain ⟨hW₀, hW₁, hH₀, hH₁⟩ := screen_limits screen
  obtain ⟨hc₁, hc₂, hc₃, hc₄⟩ := hp
  obtain ⟨h₁, h₂, h₃, h₄⟩ := h
  exact ⟨axisCovered_self ⟨hW₀, hW₁⟩ hr.w.2 ⟨hc₁, hc₂⟩ ⟨h₁, h₂⟩,
    axisCovered_self ⟨hH₀, hH₁⟩ hr.h.2 ⟨hc₃, hc₄⟩ ⟨h₃, h₄⟩⟩

theorem covered_wholeScreen (hp : OnScreen screen c row) : Covered screen (wholeScreen screen) c row := by
  obtain ⟨hW₀, hW₁, hH₀, hH₁⟩ := screen_limits screen
  obtain ⟨hc₁, hc₂, hc₃, hc₄⟩ := hp
  have hzero : (0 : Int32).toInt = 0 := rfl
  refine ⟨axisCovered_of_edges hW₁ ⟨hc₁, hc₂⟩ (by simpa [wholeScreen] using hc₁) ?_,
    axisCovered_of_edges hH₁ ⟨hc₃, hc₄⟩ (by simpa [wholeScreen] using hc₃) ?_⟩
  · simpa [wholeScreen] using hc₂
  · simpa [wholeScreen] using hc₄

/-- The place of `dirty[]` a request goes to. -/
def slotOf (rects : List Rect) (r : Rect) : ℕ := rects.findIdx fun a => near a r

/-- A rectangle of the list stays where it is and at most grows. -/
theorem absorb_getElem? {rects : List Rect} (r : Rect) {k : ℕ} (h : rects[k]? = some a) :
    ∃ a', (absorb rects r)[k]? = some a' ∧ (a' = a ∨ near a r ∧ a' = union a r) := by
  induction rects generalizing k with
  | nil => simp at h
  | cons b rest ih =>
    unfold absorb
    cases k with
    | zero =>
      obtain rfl : b = a := by simpa using h
      split
      · next hn => exact ⟨_, rfl, .inr ⟨hn, rfl⟩⟩
      · exact ⟨_, rfl, .inl rfl⟩
    | succ k =>
      rw [List.getElem?_cons_succ] at h
      split
      · exact ⟨a, by rw [List.getElem?_cons_succ, h], .inl rfl⟩
      · obtain ⟨a', ha', hor⟩ := ih h
        exact ⟨a', by rw [List.getElem?_cons_succ, ha'], hor⟩

/-- The request is in its place afterwards. -/
theorem absorb_slotOf (rects : List Rect) (r : Rect) :
    ∃ a', (absorb rects r)[slotOf rects r]? = some a' ∧ (a' = r ∨ ∃ a, near a r ∧ a' = union a r) := by
  induction rects with
  | nil => exact ⟨r, rfl, .inl rfl⟩
  | cons b rest ih =>
    unfold absorb slotOf
    rw [List.findIdx_cons]
    by_cases hn : near b r
    · rw [if_pos hn]
      simp only [hn, decide_true, cond_true]
      exact ⟨_, rfl, .inr ⟨b, hn, rfl⟩⟩
    · rw [if_neg hn]
      simp only [hn, decide_false, cond_false]
      obtain ⟨a', ha', hor⟩ := ih
      exact ⟨a', by rw [List.getElem?_cons_succ]; exact ha', hor⟩

theorem absorb_covers (rects : List Rect) (hr : Sensible r) (hp : OnScreen screen c row)
    (h : Covers r.x r.y r.w r.h c row) :
    ∃ a', (absorb rects r)[slotOf rects r]? = some a' ∧ Covered screen a' c row := by
  obtain ⟨a', ha', rfl | ⟨a, -, rfl⟩⟩ := absorb_slotOf rects r
  · exact ⟨a', ha', covered_self hr hp h⟩
  · exact ⟨_, ha', covered_union_right hr hp h⟩

theorem absorb_keeps {rects : List Rect} (hr : Sensible r) (hp : OnScreen screen c row) {k : ℕ}
    (h : ∃ a, rects[k]? = some a ∧ Covered screen a c row) :
    ∃ a, (absorb rects r)[k]? = some a ∧ Covered screen a c row := by
  obtain ⟨a, ha, hcov⟩ := h
  obtain ⟨a', ha', rfl | ⟨hn, rfl⟩⟩ := absorb_getElem? r ha
  · exact ⟨_, ha', hcov⟩
  · exact ⟨_, ha', covered_union_left hr hp hn hcov⟩

end Merging

/-- `compose_rect` stores to this pixel of the back buffer. -/
def Repaints (screen : Screen) (font : Font) (s : Server) (r : Rect) (c row : ℤ) : Prop :=
  ∃ p ∈ (composeRect screen font s r).back, p.column = c ∧ p.row = row

/-- A row of the clip is left alone by `clamp` where the row itself is concerned. -/
theorem clampAxis_row {low room j : Int32} (hj : 0 ≤ j.toInt ∧ j.toInt < room.toInt)
    (hs : (low + j).toInt = low.toInt + j.toInt) :
    (clampAxis low room (low + j) 1).1 = low + j ∧ 0 < (clampAxis low room (low + j) 1).2.toInt := by
  have hone : (1 : Int32).toInt = 1 := rfl
  have hrl := range low
  have hrr := range room
  have a₁ := add_cases (low + j) 1
  have a₂ := add_cases low room
  have a₃ := sub_cases (low + room) (low + j)
  have hge : ¬low + j < low := by
    rw [Int32.lt_iff_toInt_lt]
    omega
  unfold clampAxis
  rw [if_neg hge]
  refine ⟨rfl, ?_⟩
  dsimp only
  split
  · next hgt =>
    rw [gt_iff_lt, Int32.lt_iff_toInt_lt] at hgt
    omega
  · omega

/-- What is covered is repainted. -/
theorem Covered.repaints {screen : Screen} {r : Rect} {c row : ℤ} (h : Covered screen r c row)
    (hp : OnScreen screen c row) (font : Font) (s : Server) : Repaints screen font s r c row := by
  obtain ⟨hW₀, hW₁, hH₀, hH₁⟩ := screen_limits screen
  obtain ⟨hc₁, hc₂, hc₃, hc₄⟩ := hp
  obtain ⟨⟨hx₁, hx₂⟩, hy₁, hy₂⟩ := h
  have hzero : (0 : Int32).toInt = 0 := rfl
  have hxpos : 0 < (trim screen.width r.x r.w).2.toInt := by omega
  have hypos : 0 < (trim screen.height r.y r.h).2.toInt := by omega
  unfold Repaints composeRect
  dsimp only
  rw [clipSet_trim screen hxpos hypos, if_neg (by simp only [Int32.le_iff_toInt_le, hzero]; omega)]
  generalize trim screen.width r.x r.w = a at hx₁ hx₂ hxpos
  generalize trim screen.height r.y r.h = b at hy₁ hy₂ hypos
  have hra := range a.1
  have hrb := range b.1
  have hra₂ := range a.2
  have hrb₂ := range b.2
  have hcol : (counter (c - a.1.toInt)).toInt = c - a.1.toInt := counter_toInt (by omega) (by omega)
  have hrow : (counter (row - b.1.toInt)).toInt = row - b.1.toInt := counter_toInt (by omega) (by omega)
  have hsum := add_cases b.1 (counter (row - b.1.toInt))
  obtain ⟨hrow₁, hrow₂⟩ := clampAxis_row
    (show 0 ≤ (counter (row - b.1.toInt)).toInt ∧ (counter (row - b.1.toInt)).toInt < b.2.toInt from ⟨by omega, by omega⟩)
    (show (b.1 + counter (row - b.1.toInt)).toInt = b.1.toInt + (counter (row - b.1.toInt)).toInt by omega)
  refine ⟨_, List.mem_append_left _ (List.mem_append_left _ (mem_gradientV ⟨a.1, b.1, a.2, b.2⟩
    (counter (row - b.1.toInt)) (counter (c - a.1.toInt)) 0
    (mem_upTo.mpr ⟨by omega, by dsimp only; omega⟩) (mem_upTo.mpr ⟨by omega, by dsimp only; omega⟩)
    (by rw [Int32.lt_iff_toInt_lt]; exact hxpos) (mem_upTo.mpr ⟨by omega, by dsimp only; omega⟩))), ?_, ?_⟩
  · dsimp only
    omega
  · dsimp only
    rw [hrow₁, Int32.add_zero]
    omega

/-- Where the compositor is in `compose`. -/
inductive Phase
  | idle
  /-- `dirty_all` was set at entry; the whole screen is to be painted -/
  | whole
  /-- the next rectangle is `dirty[i]` -/
  | rects (i : ℕ)
  /-- only the reset of `dirty_count` and `dirty_all` is left -/
  | reset
  deriving DecidableEq, Repr

/-- The damage list, the compositor's place, and the pixels asked for since they were last
repainted. -/
structure Pass where
  dirty : Dirty
  phase : Phase
  owed : ℤ → ℤ → Prop

/-- What can happen: requests from other threads, and the compositor's steps. -/
inductive Event
  | request (r : Rect)
  | requestAll
  | enter
  | paintWhole (s : Server)
  | paint (s : Server)
  | finish
  | reset

/-- A request that is made now. -/
def Pass.request (screen : Screen) (p : Pass) (r : Rect) : Pass :=
  { p with
    dirty := p.dirty.damageRect r
    owed := fun c row => p.owed c row ∨ OnScreen screen c row ∧ Covers r.x r.y r.w r.h c row }

/-- A `compose_rect` that begins now. -/
def Pass.painted (screen : Screen) (font : Font) (s : Server) (r : Rect) (next : Phase) (p : Pass) : Pass :=
  { p with
    phase := next
    owed := fun c row => p.owed c row ∧ ¬Repaints screen font s r c row }

/-- One step of the interleaving. The test of the loop is made again for every rectangle, so it sees
rectangles that were added meanwhile; nothing looks at `dirty_all` again. -/
inductive Step (screen : Screen) (font : Font) : Pass → Event → Pass → Prop
  | request {p : Pass} {r : Rect} (hr : Issued screen r) : Step screen font p (.request r) (p.request screen r)
  | requestAll {p : Pass} : Step screen font p .requestAll { p with dirty := { p.dirty with all := true } }
  | enter {p : Pass} (h : p.phase = .idle) :
      Step screen font p .enter { p with phase := if p.dirty.all then .whole else .rects 0 }
  | paintWhole {p : Pass} (s : Server) (h : p.phase = .whole) :
      Step screen font p (.paintWhole s) (p.painted screen font s (wholeScreen screen) .reset)
  | paint {p : Pass} (s : Server) {i : ℕ} {r : Rect} (h : p.phase = .rects i) (hr : p.dirty.rects[i]? = some r) :
      Step screen font p (.paint s) (p.painted screen font s r (.rects (i + 1)))
  | finish {p : Pass} {i : ℕ} (h : p.phase = .rects i) (hi : p.dirty.rects.length ≤ i) :
      Step screen font p .finish { p with phase := .reset }
  | reset {p : Pass} (h : p.phase = .reset) : Step screen font p .reset { p with dirty := {}, phase := .idle }

/-- The request finds a pass that can still take it up: none is going on, the whole screen is about to
be painted, or the request goes to a rectangle that is not painted yet, or its pixels are covered by
such a rectangle anyway. -/
def TakenUp (screen : Screen) (p : Pass) (r : Rect) (c row : ℤ) : Prop :=
  match p.phase with
  | .idle => True
  | .whole => True
  | .rects i =>
    (p.dirty.all = false ∧ p.dirty.rects.length ≠ maxDirty ∧ i ≤ slotOf p.dirty.rects r) ∨
      ∃ k, i ≤ k ∧ ∃ a, p.dirty.rects[k]? = some a ∧ Covered screen a c row
  | .reset => False

/-- A step that is not a request out of time. -/
def Timely (screen : Screen) (p : Pass) : Event → Prop
  | .request r => ∀ c row, OnScreen screen c row → Covers r.x r.y r.w r.h c row → TakenUp screen p r c row
  | _ => True

/-- A pixel that is owed is still to be painted. -/
def Expected (screen : Screen) (p : Pass) (c row : ℤ) : Prop :=
  match p.phase with
  | .idle => p.dirty.all = true ∨ ∃ r ∈ p.dirty.rects, Covered screen r c row
  | .whole => True
  | .rects i => ∃ k, i ≤ k ∧ ∃ a, p.dirty.rects[k]? = some a ∧ Covered screen a c row
  | .reset => False

/-- Only pixels of the screen are owed, and all of them are still to be painted. -/
def Kept (screen : Screen) (p : Pass) : Prop :=
  ∀ c row, p.owed c row → OnScreen screen c row ∧ Expected screen p c row

section Preservation
variable {screen : Screen} {font : Font} {p : Pass}

theorem Expected.absorb {r : Rect} (hr : Sensible r) {c row : ℤ} (hp : OnScreen screen c row)
    (h : Expected screen p c row) :
    Expected screen { p with dirty := { p.dirty with rects := Compositor.absorb p.dirty.rects r } } c row := by
  unfold Expected at h ⊢
  dsimp only
  cases hphase : p.phase with
  | idle =>
    rw [hphase] at h
    rcases h with hall | ⟨a, ha, hcov⟩
    · exact .inl hall
    · obtain ⟨k, hk⟩ := List.mem_iff_getElem?.mp ha
      obtain ⟨a', ha', hcov'⟩ := absorb_keeps hr hp ⟨a, hk, hcov⟩
      exact .inr ⟨a', List.mem_of_getElem? ha', hcov'⟩
  | whole => exact trivial
  | rects i =>
    rw [hphase] at h
    obtain ⟨k, hk, ha⟩ := h
    exact ⟨k, hk, absorb_keeps hr hp ha⟩
  | reset =>
    rw [hphase] at h
    exact h

/-- A request that is put into the list is expected from then on, if it was timely. -/
theorem TakenUp.absorb {r : Rect} (hr : Sensible r) {c row : ℤ} (hp : OnScreen screen c row)
    (hcov : Covers r.x r.y r.w r.h c row) (h : TakenUp screen p r c row) :
    Expected screen { p with dirty := { p.dirty with rects := Compositor.absorb p.dirty.rects r } } c row := by
  obtain ⟨a, ha, hacov⟩ := absorb_covers p.dirty.rects hr hp hcov
  unfold TakenUp at h
  unfold Expected
  dsimp only
  cases hphase : p.phase with
  | idle => exact .inr ⟨a, List.mem_of_getElem? ha, hacov⟩
  | whole => exact trivial
  | rects i =>
    rw [hphase] at h
    rcases h with ⟨-, -, hslot⟩ | ⟨k, hk, hold⟩
    · exact ⟨_, hslot, a, ha, hacov⟩
    · exact ⟨k, hk, absorb_keeps hr hp hold⟩
  | reset =>
    rw [hphase] at h
    exact h

/-- With `dirty_all` set nothing is added to the list. -/
theorem TakenUp.all {r : Rect} {c row : ℤ} (h : TakenUp screen p r c row)
    (hfull : p.dirty.all = true ∨ p.dirty.rects.length = maxDirty) :
    Expected screen { p with dirty := { p.dirty with all := true } } c row := by
  unfold TakenUp at h
  unfold Expected
  dsimp only
  cases hphase : p.phase with
  | idle => exact .inl rfl
  | whole => exact trivial
  | rects i =>
    rw [hphase] at h
    rcases h with ⟨hall, hlen, -⟩ | hold
    · rcases hfull with hf | hf
      · simp [hall] at hf
      · exact absurd hf hlen
    · exact hold
  | reset =>
    rw [hphase] at h
    exact h

theorem Expected.all {c row : ℤ} (h : Expected screen p c row) :
    Expected screen { p with dirty := { p.dirty with all := true } } c row := by
  unfold Expected at h ⊢
  dsimp only
  cases hphase : p.phase with
  | idle => exact .inl rfl
  | whole => exact trivial
  | rects i =>
    rw [hphase] at h
    exact h
  | reset =>
    rw [hphase] at h
    exact h

theorem Kept.request (h : Kept screen p) {r : Rect} (hr : Issued screen r) (ht : Timely screen p (.request r)) :
    Kept screen (p.request screen r) := by
  intro c row howed
  have hon : OnScreen screen c row := by
    rcases howed with hold | hnew
    · exact (h c row hold).1
    · exact hnew.1
  refine ⟨hon, ?_⟩
  have hzero : (0 : Int32).toInt = 0 := rfl
  unfold Pass.request Dirty.damageRect
  by_cases hguard : r.w ≤ 0 ∨ r.h ≤ 0 ∨ p.dirty.all = true
  · rw [if_pos hguard]
    rcases howed with hold | ⟨-, hcov⟩
    · exact (h c row hold).2
    · -- the request covers a pixel, so it was turned away because of `dirty_all`
      have hall : p.dirty.all = true := by
        obtain ⟨h₁, h₂, h₃, h₄⟩ := hcov
        simp only [Int32.le_iff_toInt_le, hzero] at hguard
        rcases hguard with hw | hh | hall
        · omega
        · omega
        · exact hall
      have hsame : { p.dirty with all := true } = p.dirty := by rw [← hall]
      have hexp := (ht c row hon hcov).all (.inl hall)
      rw [hsame] at hexp
      exact hexp
  · rw [if_neg hguard]
    by_cases hlen : p.dirty.rects.length = maxDirty
    · rw [if_pos hlen]
      rcases howed with hold | ⟨-, hcov⟩
      · exact (h c row hold).2.all
      · exact (ht c row hon hcov).all (.inr hlen)
    · rw [if_neg hlen]
      simp only [not_or, Int32.le_iff_toInt_le, not_le, hzero] at hguard
      have hmodest := hr.modest
      have hs : Sensible r := ⟨⟨hguard.1, hmodest.1⟩, hguard.2.1, hmodest.2⟩
      rcases howed with hold | ⟨-, hcov⟩
      · exact (h c row hold).2.absorb hs hon
      · exact (ht c row hon hcov).absorb hs hon hcov

theorem Kept.step (h : Kept screen p) {e : Event} {q : Pass} (hstep : Step screen font p e q)
    (ht : Timely screen p e) : Kept screen q := by
  cases hstep with
  | request hr => exact h.request hr ht
  | requestAll => exact fun c row howed => ⟨(h c row howed).1, (h c row howed).2.all⟩
  | enter hidle =>
    intro c row howed
    obtain ⟨hon, hexp⟩ := h c row howed
    refine ⟨hon, ?_⟩
    unfold Expected at hexp ⊢
    rw [hidle] at hexp
    dsimp only
    cases hall : p.dirty.all with
    | true => exact trivial
    | false =>
      rcases hexp with hf | ⟨r, hr, hcov⟩
      · simp [hall] at hf
      · obtain ⟨k, hk⟩ := List.mem_iff_getElem?.mp hr
        exact ⟨k, Nat.zero_le k, r, hk, hcov⟩
  | paintWhole s hw =>
    rintro c row ⟨howed, hnot⟩
    have hon := (h c row howed).1
    exact absurd ((covered_wholeScreen hon).repaints hon font s) hnot
  | @paint s i r hi hr =>
    rintro c row ⟨howed, hnot⟩
    obtain ⟨hon, hexp⟩ := h c row howed
    refine ⟨hon, ?_⟩
    unfold Expected at hexp
    rw [hi] at hexp
    obtain ⟨k, hk, a, ha, hcov⟩ := hexp
    have hne : k ≠ i := by
      rintro rfl
      obtain rfl : r = a := Option.some.inj (hr.symm.trans ha)
      exact hnot (hcov.repaints hon font s)
    exact ⟨k, by omega, a, ha, hcov⟩
  | @finish i hi hlen =>
    intro c row howed
    obtain ⟨hon, hexp⟩ := h c row howed
    unfold Expected at hexp
    rw [hi] at hexp
    obtain ⟨k, hk, a, ha, -⟩ := hexp
    have := (List.getElem?_eq_some_iff.mp ha).1
    omega
  | reset hreset =>
    intro c row howed
    have hexp := (h c row howed).2
    unfold Expected at hexp
    rw [hreset] at hexp
    exact hexp.elim

end Preservation

/-- After `wm_init`: everything is dirty and nothing has been asked for. -/
def start : Pass := ⟨{ all := true }, .idle, fun _ _ => False⟩

/-- In every interleaving whose requests are timely, whenever `compose` is not running every pixel
asked for has been repainted since or is still covered by the damage list. -/
theorem no_damage_lost (screen : Screen) (font : Font) {p : Pass}
    (h : Reachable (· = start) (fun p q => ∃ e, Step screen font p e q ∧ Timely screen p e) p) (hp : p.phase = .idle)
    {c row : ℤ} (howed : p.owed c row) : p.dirty.all = true ∨ ∃ r ∈ p.dirty.rects, Covered screen r c row := by
  have hkept : Kept screen p := by
    refine h.invariant ?_ ?_
    · rintro p rfl c row howed
      exact howed.elim
    · rintro p q hk ⟨e, hstep, ht⟩
      exact hk.step hstep ht
  have hexp := (hkept c row howed).2
  unfold Expected at hexp
  rw [hp] at hexp
  exact hexp

section Samples
open WindowStacking

/-- The rectangle a window of 200 by 100 pixels is created in. -/
def newWindow : Rect := ⟨55, 30, 210, 135⟩

theorem issued_newWindow : Issued xga newWindow :=
  ⟨(Desktop.init xga).composed, .create 1 200 100 [] 0 true, .next (.start rfl) (.inr rfl), by decide⟩

def noFont : Font := fun _ => 0

/-- The first frame: the whole screen, and the list is empty. -/
def firstFrame : Pass :=
  { start.painted xga noFont (wmInit xga) (wholeScreen xga) .reset with dirty := {}, phase := .idle }

theorem firstFrame_reached {R : Pass → Pass → Prop}
    (hR : ∀ p e q, Step xga noFont p e q → Timely xga p e → R p q) : Reachable (· = start) R firstFrame := by
  have h₁ : Reachable (· = start) R { start with phase := .whole } :=
    .next (.start rfl) (hR _ .enter _ (.enter rfl) trivial)
  have h₂ := Reachable.next h₁ (hR _ _ _ (Step.paintWhole (wmInit xga) rfl) trivial)
  exact .next h₂ (hR _ _ _ (Step.reset rfl) trivial)

/-- A window that opens between two frames is in the damage list. -/
theorem no_damage_lost_newWindow : (firstFrame.request xga newWindow).owed 60 40 ∧
    ((firstFrame.request xga newWindow).dirty.all = true ∨
      ∃ r ∈ (firstFrame.request xga newWindow).dirty.rects, Covered xga r 60 40) := by
  have howed : (firstFrame.request xga newWindow).owed 60 40 := .inr (by constructor <;> decide)
  refine ⟨howed, no_damage_lost xga noFont (.next (firstFrame_reached fun p e q hs ht => ⟨e, hs, ht⟩)
    ⟨.request newWindow, .request issued_newWindow, fun c row _ _ => trivial⟩) rfl howed⟩

/-- A second request for a rectangle that this pass has painted goes into that rectangle and is
dropped by the reset. -/
theorem damage_lost : ¬∀ p, Reachable (· = start) (fun p q => ∃ e, Step xga noFont p e q) p → p.phase = .idle →
    ∀ c row, p.owed c row → p.dirty.all = true ∨ ∃ r ∈ p.dirty.rects, Covered xga r c row := by
  intro h
  let R : Pass → Pass → Prop := fun p q => ∃ e, Step xga noFont p e q
  let asked : Pass := firstFrame.request xga newWindow
  let entered : Pass := { asked with phase := .rects 0 }
  let painted : Pass := entered.painted xga noFont (wmInit xga) newWindow (.rects 1)
  let again : Pass := painted.request xga newWindow
  let finished : Pass := { again with phase := .reset }
  let returned : Pass := { finished with dirty := {}, phase := .idle }
  have h₁ : Reachable (· = start) R asked :=
    .next (firstFrame_reached fun p e q hs _ => ⟨e, hs⟩) ⟨_, .request issued_newWindow⟩
  have h₂ : Reachable (· = start) R entered := .next h₁ ⟨_, .enter rfl⟩
  have h₃ : Reachable (· = start) R painted := .next h₂ ⟨_, .paint (wmInit xga) (i := 0) rfl (by decide)⟩
  have h₄ : Reachable (· = start) R again := .next h₃ ⟨_, .request issued_newWindow⟩
  have h₅ : Reachable (· = start) R finished := .next h₄ ⟨_, .finish (i := 1) rfl (by decide)⟩
  have h₆ : Reachable (· = start) R returned := .next h₅ ⟨_, .reset rfl⟩
  rcases h returned h₆ rfl 60 40 (.inr (by constructor <;> decide)) with hall | ⟨r, hr, -⟩
  · cases hall
  · exact absurd hr List.not_mem_nil

end Samples

end SifarOS.DamageTracking
