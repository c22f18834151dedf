import SifarOS.DamageTracking
import SifarOS.PartialRepaint
import SifarOS.WindowExtent
import SifarOS.WindowFocus

/-! # What an operation leaves to be repainted

A repaint of the whole screen before an operation and one after it differ only where a window that the
operation has redrawn, moved, restacked, opened, closed or changed the title colour of has painted or
now paints. The operation asks for the rectangles around these windows, so the damage list covers the
difference as long as each of them paints around its frame only. -/
namespace SifarOS.DamageCoverage
open Graphics WindowServer Compositor MachineInt DrawnPixels WindowEdits ScreenBounds WindowStacking WindowFocus
open WindowExtent
open PartialRepaint (paintOver layer hits_composeRect wholeScreen_clipped)
open DamageTracking (Covered Sensible Modest absorb_covers absorb_keeps)

/-- The pixel after a repaint of the whole screen. -/
def fullRepaint (screen : Screen) (font : Font) (s : Server) (before : Color) (c row : ℤ) : Color :=
  paintOver (hits (composeRect screen font s (wholeScreen screen)).back c row) before

/-- The damage list has the pixel repainted. -/
def Dirties (screen : Screen) (d : Dirty) (c row : ℤ) : Prop :=
  d.all = true ∨ ∃ r ∈ d.rects, Covered screen r c row

/-- A request is for this pixel. -/
def Reaches (c row : ℤ) : Damage → Prop
  | .rect r => Covers r.x r.y r.w r.h c row
  | .all => True

def Asked (requests : List Damage) (c row : ℤ) : Prop := ∃ d ∈ requests, Reaches c row d

/-! ## Requests and the damage list -/

section Requests
variable {screen : Screen} {c row : ℤ}

theorem Dirties.apply {d : Dirty} (h : Dirties screen d c row) (hp : OnScreen screen c row) {request : Damage}
    (hm : ∀ r, request = .rect r → Modest r) : Dirties screen (d.apply request) c row := by
  cases request with
  | all => exact .inl rfl
  | rect r =>
    have hmodest := hm r rfl
    have hzero : (0 : Int32).toInt = 0 := rfl
    change Dirties screen (d.damageRect r) c row
    unfold Dirty.damageRect
    split
    · exact h
    · next hguard =>
      split
      · exact .inl rfl
      · simp only [not_or, Int32.le_iff_toInt_le, not_le, hzero] at hguard
        have hs : Sensible r := ⟨⟨hguard.1, hmodest.1⟩, hguard.2.1, hmodest.2⟩
        rcases h with hall | ⟨a, ha, hcov⟩
        · exact absurd hall (by simpa using hguard.2.2)
        · obtain ⟨k, hk⟩ := List.mem_iff_getElem?.mp ha
          obtain ⟨a', ha', hcov'⟩ := absorb_keeps hs hp ⟨a, hk, hcov⟩
          exact .inr ⟨a', List.mem_of_getElem? ha', hcov'⟩

theorem Reaches.apply {request : Damage} (h : Reaches c row request) (hp : OnScreen screen c row)
    (hm : ∀ r, request = .rect r → Modest r) (d : Dirty) : Dirties screen (d.apply request) c row := by
  cases request with
  | all => exact .inl rfl
  | rect r =>
    have hmodest := hm r rfl
    have hzero : (0 : Int32).toInt = 0 := rfl
    obtain ⟨h₁, h₂, h₃, h₄⟩ := h
    change Dirties screen (d.damageRect r) c row
    unfold Dirty.damageRect
    split
    · next hguard =>
      simp only [Int32.le_iff_toInt_le, hzero] at hguard
      rcases hguard with hw | hh | hall
      · omega
      · omega
      · exact .inl hall
    · next hguard =>
      split
      · exact .inl rfl
      · simp only [not_or, Int32.le_iff_toInt_le, not_le, hzero] at hguard
        have hs : Sensible r := ⟨⟨hguard.1, hmodest.1⟩, hguard.2.1, hmodest.2⟩
        obtain ⟨a, ha, hcov⟩ := absorb_covers d.rects hs hp ⟨h₁, h₂, h₃, h₄⟩
        exact .inr ⟨a, List.mem_of_getElem? ha, hcov⟩

/-- Nothing is taken out of the list. -/
theorem Dirties.fold {requests : List Damage} {d : Dirty} (h : Dirties screen d c row) (hp : OnScreen screen c row)
    (hm : ∀ r, Damage.rect r ∈ requests → Modest r) : Dirties screen (requests.foldl Dirty.apply d) c row := by
  induction requests generalizing d with
  | nil => exact h
  | cons a rest ih =>
    refine ih (h.apply hp ?_) fun r hr => hm r (List.mem_cons_of_mem _ hr)
    rintro r rfl
    exact hm r List.mem_cons_self

/-- Whatever the list held before, it covers what was asked for afterwards. -/
theorem Asked.dirties {requests : List Damage} (h : Asked requests c row) (hp : OnScreen screen c row)
    (hm : ∀ r, Damage.rect r ∈ requests → Modest r) (d : Dirty) :
    Dirties screen (requests.foldl Dirty.apply d) c row := by
  obtain ⟨request, hmem, hreach⟩ := h
  obtain ⟨before, after, rfl⟩ := List.append_of_mem hmem
  rw [List.foldl_append, List.foldl_cons]
  refine Dirties.fold (hreach.apply hp ?_ _) hp fun r hr => hm r (List.mem_append_right _ (List.mem_cons_of_mem _ hr))
  rintro r rfl
  exact hm r (List.mem_append_right _ List.mem_cons_self)

end Requests

/-! ## Full repaints -/

/-- What a window that is drawn for the whole screen adds to a pixel. -/
def shown (screen : Screen) (font : Font) (w : Window) (active : Bool) (c row : ℤ) : List Paint :=
  if w.state = .minimized ∨ missed w 0 0 screen.width screen.height then []
  else hits (drawWindow font (wholeScreen screen) w active) c row

/-- The same for an entry of the stacking order. -/
def paints (screen : Screen) (font : Font) (s : Server) (c row : ℤ) (id : UInt32) : List Paint :=
  match s.find id with
  | none => []
  | some i => shown screen font (s.windows i) ((s.windows i).id == s.focusId) c row

/-- What the windows add to a pixel, from the back to the front. -/
def picture (screen : Screen) (font : Font) (s : Server) (c row : ℤ) : List Paint :=
  (stack s).flatMap (paints screen font s c row)

/-- What of a window is drawn: everything but its owner and its messages. -/
def look (w : Window) : Window := { w with owner := 0, events := fun _ => {}, eventHead := 0, eventTail := 0 }

section Pictures
variable {screen : Screen} {font : Font} {s t : Server} {c row : ℤ} {id : UInt32}

theorem layer_eq_paints (k : ℕ) :
    layer font s (wholeScreen screen) c row k = paints screen font s c row (s.zOrder k) := by
  unfold layer drawnAt paints shown
  cases s.find (s.zOrder k) with
  | none => rfl
  | some i =>
    dsimp only
    by_cases hstate : (s.windows i).state = .minimized
    · simp [hstate]
    · by_cases hm : missed (s.windows i) 0 0 screen.width screen.height
      · simp [hm, hstate, wholeScreen]
      · simp [hm, hstate, wholeScreen]

theorem layers_eq_picture :
    (List.range s.zCount).flatMap (layer font s (wholeScreen screen) c row) = picture screen font s c row := by
  unfold picture stack entries
  rw [List.flatMap_map]
  exact List.flatMap_congr fun k _ => layer_eq_paints k

/-- A full repaint: the background, the windows and the cursor. -/
theorem fullRepaint_eq (hp : OnScreen screen c row) (before : Color) :
    fullRepaint screen font s before c row =
      paintOver (picture screen font s c row ++ hits (drawCursor (wholeScreen screen) s.cursorX s.cursorY) c row)
        (gradientColor screen.height (counter row) colorDesktopTop colorDesktopBottom) := by
  have hin : Inside (wholeScreen screen) c row := by
    obtain ⟨h₁, h₂, h₃, h₄⟩ := hp
    have hzero : (0 : Int32).toInt = 0 := rfl
    simp only [Inside, wholeScreen]
    omega
  have hrow : row - (wholeScreen screen).y.toInt = row := by simp [wholeScreen]
  unfold fullRepaint
  rw [hits_composeRect (wholeScreen_clipped screen) hin, layers_eq_picture, hrow]
  rfl

theorem fullRepaint_congr (hp : OnScreen screen c row)
    (hpicture : picture screen font t c row = picture screen font s c row)
    (hcursor : hits (drawCursor (wholeScreen screen) t.cursorX t.cursorY) c row =
      hits (drawCursor (wholeScreen screen) s.cursorX s.cursorY) c row) (before : Color) :
    fullRepaint screen font t before c row = fullRepaint screen font s before c row := by
  rw [fullRepaint_eq hp, fullRepaint_eq hp, hpicture, hcursor]

@[simp] theorem look_queueEvent (w : Window) (event : Event) : look (w.queueEvent event) = look w := by
  unfold Window.queueEvent
  dsimp only
  split <;> rfl

theorem shown_congr {w w' : Window} (h : look w' = look w) (active : Bool) :
    shown screen font w' active c row = shown screen font w active c row := by
  change shown screen font (look w') active c row = shown screen font (look w) active c row
  rw [h]

theorem damageFrame_congr {w w' : Window} (h : look w' = look w) : Server.damageFrame w' = Server.damageFrame w := by
  change Server.damageFrame (look w') = Server.damageFrame (look w)
  rw [h]

/-- The window has this id. -/
def Bears (w : Window) (id : UInt32) : Prop := w.used = true ∧ w.id = id

theorem bears_congr {w w' : Window} (h : look w' = look w) : Bears w' id ↔ Bears w id := by
  change Bears (look w') id ↔ Bears (look w) id
  rw [h]

/-- Nothing about this id has changed in the window table. -/
def Alike (s t : Server) (id : UInt32) : Prop :=
  ∀ i, look (t.windows i) = look (s.windows i) ∨ ¬Bears (s.windows i) id ∧ ¬Bears (t.windows i) id

theorem Alike.find (h : Alike s t id) : t.find id = s.find id := by
  unfold Server.find
  congr 1
  funext i
  have hbears : Bears (t.windows i) id ↔ Bears (s.windows i) id := by
    rcases h i with hlook | ⟨hs, ht⟩
    · exact bears_congr hlook
    · exact iff_of_false ht hs
  rw [Bool.eq_iff_iff]
  simpa [Bears] using hbears

theorem Alike.look {i : WindowSlot} (h : Alike s t id) (hi : s.find id = some i) :
    look (t.windows i) = look (s.windows i) :=
  (h i).resolve_right fun hn => hn.1 (find_some hi)

theorem Alike.paints (h : Alike s t id) (hf : id = t.focusId ↔ id = s.focusId) :
    paints screen font t c row id = paints screen font s c row id := by
  unfold DamageCoverage.paints
  rw [h.find]
  cases hi : s.find id with
  | none => rfl
  | some i =>
    have hid := (find_some hi).2
    have hid' : (t.windows i).id = id := (find_some (h.find.trans hi)).2
    have hactive : ((t.windows i).id == t.focusId) = ((s.windows i).id == s.focusId) := by
      rw [hid, hid', Bool.eq_iff_iff]
      simpa using hf
    dsimp only
    rw [hactive]
    exact shown_congr (h.look hi) _

/-- Entries that add nothing can be left out. -/
theorem flatMap_filter_of_nil {α β : Type*} {f : α → List β} {p : α → Prop} [DecidablePred p] {l : List α}
    (h : ∀ a ∈ l, ¬p a → f a = []) : l.flatMap f = (l.filter fun a => p a).flatMap f := by
  induction l with
  | nil => rfl
  | cons a rest ih =>
    have hrest := ih fun b hb => h b (List.mem_cons_of_mem a hb)
    by_cases ha : p a
    · simp [ha, hrest]
    · simp [ha, hrest, h a List.mem_cons_self ha]

/-- Two pictures are the same where the entries that were touched add nothing. -/
theorem picture_eq {p : UInt32 → Prop} [DecidablePred p]
    (hstack : ((stack t).filter fun id => p id) = (stack s).filter fun id => p id)
    (hkept : ∀ id, p id → paints screen font t c row id = paints screen font s c row id)
    (hbefore : ∀ id ∈ stack s, ¬p id → paints screen font s c row id = [])
    (hafter : ∀ id ∈ stack t, ¬p id → paints screen font t c row id = []) :
    picture screen font t c row = picture screen font s c row := by
  unfold picture
  rw [flatMap_filter_of_nil hafter, flatMap_filter_of_nil hbefore, hstack]
  refine List.flatMap_congr fun id hid => hkept id ?_
  simpa using (List.mem_filter.mp hid).2

end Pictures

/-! ## What a call owes -/

/-- A window whose size is allowed and whose title fits `title[GUI_MAX_TITLE]`. -/
structure Fits (screen : Screen) (w : Window) : Prop where
  sized : Sized screen w
  title : w.title.length ≤ 47

/-- The window is not drawn, or it paints around its frame only. -/
def Tidy (w : Window) : Prop := w.state = .minimized ∨ Neat w

instance (w : Window) : Decidable (Tidy w) := inferInstanceAs (Decidable (_ ∨ _))

section Owing
variable {screen : Screen} {font : Font} {s t u : Server} {c row : ℤ} {id : UInt32} {requests requests' : List Damage}

theorem Fits.congr {w w' : Window} (h : Fits screen w) (hl : look w' = look w) : Fits screen w' := by
  have hlook : Fits screen (look w') := by
    rw [hl]
    exact ⟨h.sized, h.title⟩
  exact ⟨hlook.sized, hlook.title⟩

theorem Tidy.congr {w w' : Window} (h : Tidy w) (hl : look w' = look w) : Tidy w' := by
  change Tidy (look w')
  rw [hl]
  exact h

/-- Where a tidy window paints, its frame has been asked for. -/
theorem asked_of_shown {w : Window} (hfit : Fits screen w) (hu : w.used = true) (htidy : Tidy w)
    (hmem : Damage.rect (Server.damageFrame w) ∈ requests) {active : Bool}
    (hne : shown screen font w active c row ≠ []) : Asked requests c row := by
  have hclip := wholeScreen_clipped screen
  unfold shown at hne
  split at hne
  · exact absurd rfl hne
  · next hdrawn =>
    obtain ⟨hstate, hm⟩ := not_or.mp hdrawn
    have hsize := hfit.sized hu
    have hnear : Near w := near_of_drawn hsize hclip.x hclip.y hm
    have hheight : 0 < w.height.toInt := by
      have := hsize.height_pos
      rw [Int32.lt_iff_toInt_lt] at this
      exact this
    have htitle : w.title.length < 2147483648 := by
      have := hfit.title
      omega
    have hconfined := confined_window font hclip hnear hheight htitle (htidy.resolve_left hstate) active
    exact ⟨_, hmem, covers_damageFrame hnear.frameNear (hconfined.hit hne)⟩

/-- From `s` to `t` only pixels among the requests have changed. The cursor is counted apart. -/
structure Repaired (screen : Screen) (font : Font) (s t : Server) (requests : List Damage) : Prop where
  fits : (∀ i, Fits screen (s.windows i)) → ∀ i, Fits screen (t.windows i)
  cursor : t.cursorX = s.cursorX ∧ t.cursorY = s.cursorY
  lastCursor : t.lastCursorX = s.lastCursorX ∧ t.lastCursorY = s.lastCursorY
  picture : ∀ c row, ¬Asked requests c row → picture screen font t c row = picture screen font s c row

/-- What has changed is asked for on the way from `s` to `t`. -/
def Owed (screen : Screen) (font : Font) (s t : Server) : Prop :=
  ∃ requests, t.damage = s.damage ++ requests ∧ Repaired screen font s t requests

theorem Asked.mono (h : Asked requests c row) (hsub : ∀ d ∈ requests, d ∈ requests') : Asked requests' c row := by
  obtain ⟨d, hd, hreach⟩ := h
  exact ⟨d, hsub d hd, hreach⟩

theorem Repaired.mono (h : Repaired screen font s t requests) (hsub : ∀ d ∈ requests, d ∈ requests') :
    Repaired screen font s t requests' :=
  ⟨h.fits, h.cursor, h.lastCursor, fun c row hn => h.picture c row fun ha => hn (ha.mono hsub)⟩

theorem Repaired.trans (h₁ : Repaired screen font s t requests) (h₂ : Repaired screen font t u requests) :
    Repaired screen font s u requests where
  fits hs := h₂.fits (h₁.fits hs)
  cursor := ⟨h₂.cursor.1.trans h₁.cursor.1, h₂.cursor.2.trans h₁.cursor.2⟩
  lastCursor := ⟨h₂.lastCursor.1.trans h₁.lastCursor.1, h₂.lastCursor.2.trans h₁.lastCursor.2⟩
  picture c row hn := (h₂.picture c row hn).trans (h₁.picture c row hn)

theorem Owed.refl (s : Server) : Owed screen font s s :=
  ⟨[], (List.append_nil _).symm, id, ⟨rfl, rfl⟩, ⟨rfl, rfl⟩, fun _ _ _ => rfl⟩

theorem Owed.trans (h₁ : Owed screen font s t) (h₂ : Owed screen font t u) : Owed screen font s u := by
  obtain ⟨requests₁, hd₁, hr₁⟩ := h₁
  obtain ⟨requests₂, hd₂, hr₂⟩ := h₂
  refine ⟨requests₁ ++ requests₂, by rw [hd₂, hd₁, List.append_assoc], ?_⟩
  exact (hr₁.mono fun d hd => List.mem_append_left _ hd).trans (hr₂.mono fun d hd => List.mem_append_right _ hd)

theorem Owed.fits (h : Owed screen font s t) (hs : ∀ i, Fits screen (s.windows i)) (i : WindowSlot) :
    Fits screen (t.windows i) := by
  obtain ⟨_, -, hr⟩ := h
  exact hr.fits hs i

/-- With `dirty_all` everything is asked for. -/
theorem Repaired.all (hfit : (∀ i, Fits screen (s.windows i)) → ∀ i, Fits screen (t.windows i))
    (hcursor : t.cursorX = s.cursorX ∧ t.cursorY = s.cursorY)
    (hlast : t.lastCursorX = s.lastCursorX ∧ t.lastCursorY = s.lastCursorY) (h : Damage.all ∈ requests) :
    Repaired screen font s t requests :=
  ⟨hfit, hcursor, hlast, fun _ _ hn => absurd ⟨_, h, trivial⟩ hn⟩

/-- The window with this id, if it is in the stack, is tidy and its frame is asked for. -/
def Answered (s : Server) (requests : List Damage) (id : UInt32) : Prop :=
  ∀ i, s.find id = some i → id ∈ stack s →
    Tidy (s.windows i) ∧ Damage.rect (Server.damageFrame (s.windows i)) ∈ requests

theorem Answered.paints (h : Answered s requests id) (hs : ∀ i, Fits screen (s.windows i)) (hmem : id ∈ stack s)
    (hn : ¬Asked requests c row) : paints screen font s c row id = [] := by
  by_contra hne
  unfold DamageCoverage.paints at hne
  cases hi : s.find id with
  | none => simp [hi] at hne
  | some i =>
    obtain ⟨htidy, hframe⟩ := h i hi hmem
    simp only [hi] at hne
    exact hn (asked_of_shown (hs i) (find_some hi).1 htidy hframe hne)

/-- The general step: the ids that are not kept are answered for, before and after. -/
theorem picture_of_answered {p : UInt32 → Prop} [DecidablePred p] (hs : ∀ i, Fits screen (s.windows i))
    (ht : ∀ i, Fits screen (t.windows i))
    (hstack : ((stack t).filter fun id => p id) = (stack s).filter fun id => p id)
    (hkept : ∀ id, p id → Alike s t id ∧ (id = t.focusId ↔ id = s.focusId))
    (hbefore : ∀ id, ¬p id → Answered s requests id) (hafter : ∀ id, ¬p id → Answered t requests id)
    (hn : ¬Asked requests c row) : picture screen font t c row = picture screen font s c row :=
  picture_eq hstack (fun id hid => (hkept id hid).1.paints (hkept id hid).2)
    (fun id hmem hid => (hbefore id hid).paints hs hmem hn) fun id hmem hid => (hafter id hid).paints ht hmem hn

/-- Nothing that is drawn has changed. -/
theorem Repaired.of_look (hw : ∀ i, look (t.windows i) = look (s.windows i)) (hstack : stack t = stack s)
    (hfocus : t.focusId = s.focusId) (hcursor : t.cursorX = s.cursorX ∧ t.cursorY = s.cursorY)
    (hlast : t.lastCursorX = s.lastCursorX ∧ t.lastCursorY = s.lastCursorY) : Repaired screen font s t requests where
  fits hs i := (hs i).congr (hw i)
  cursor := hcursor
  lastCursor := hlast
  picture c row _ := by
    unfold DamageCoverage.picture
    rw [hstack]
    exact List.flatMap_congr fun id _ => Alike.paints (fun i => .inl (hw i)) (by rw [hfocus])

/-- One entry of the stack has been redrawn, put elsewhere, added or taken away. -/
theorem Repaired.redraw (hs : ∀ i, Fits screen (s.windows i)) (ht : ∀ i, Fits screen (t.windows i))
    (hw : ∀ i, look (t.windows i) = look (s.windows i) ∨
      ((s.windows i).used = true → (s.windows i).id = id) ∧ ((t.windows i).used = true → (t.windows i).id = id))
    (hstack : ((stack t).filter fun k => k ≠ id) = (stack s).filter fun k => k ≠ id)
    (hfocus : t.focusId = s.focusId) (hcursor : t.cursorX = s.cursorX ∧ t.cursorY = s.cursorY)
    (hlast : t.lastCursorX = s.lastCursorX ∧ t.lastCursorY = s.lastCursorY) (hbefore : Answered s requests id)
    (hafter : Answered t requests id) : Repaired screen font s t requests where
  fits _ := ht
  cursor := hcursor
  lastCursor := hlast
  picture c row hn := by
    refine picture_of_answered hs ht hstack (fun k hk => ⟨fun i => ?_, by rw [hfocus]⟩) ?_ ?_ hn
    · rcases hw i with hlook | ⟨hsi, hti⟩
      · exact .inl hlook
      · exact .inr ⟨fun hb => hk (hb.2.symm.trans (hsi hb.1)), fun hb => hk (hb.2.symm.trans (hti hb.1))⟩
    · intro k hk
      rw [not_not.mp hk]
      exact hbefore
    · intro k hk
      rw [not_not.mp hk]
      exact hafter

/-- An edit that leaves the window in use under its id does not move it. -/
theorem find_edited {i : WindowSlot} {w : Window} (hw : t.windows = Function.update s.windows i w)
    (hbears : Bears (s.windows i) id) (hbears' : Bears w id) : t.find id = s.find id := by
  unfold Server.find
  congr 1
  funext j
  rw [hw]
  by_cases hj : j = i
  · subst hj
    obtain ⟨hu, hid⟩ := hbears
    obtain ⟨hu', hid'⟩ := hbears'
    simp [hu, hid, hu', hid']
  · rw [Function.update_of_ne hj]

/-- A window is changed in its place: its frame is asked for as it was and as it is. -/
theorem Repaired.edit {i : WindowSlot} {w : Window} (hs : ∀ i, Fits screen (s.windows i)) (hi : s.find id = some i)
    (hw : t.windows = Function.update s.windows i w) (hbears : Bears w id) (hfit : Fits screen w)
    (hstack : ((stack t).filter fun k => k ≠ id) = (stack s).filter fun k => k ≠ id)
    (hfocus : t.focusId = s.focusId) (hcursor : t.cursorX = s.cursorX ∧ t.cursorY = s.cursorY)
    (hlast : t.lastCursorX = s.lastCursorX ∧ t.lastCursorY = s.lastCursorY)
    (hbefore : Tidy (s.windows i) ∧ Damage.rect (Server.damageFrame (s.windows i)) ∈ requests)
    (hafter : Tidy w ∧ Damage.rect (Server.damageFrame w) ∈ requests) : Repaired screen font s t requests := by
  have hself : t.windows i = w := by rw [hw, Function.update_self]
  have hother : ∀ j, j ≠ i → t.windows j = s.windows j := fun j hj => by rw [hw, Function.update_of_ne hj]
  refine .redraw hs (fun j => ?_) (fun j => ?_) hstack hfocus hcursor hlast ?_ ?_
  · by_cases hj : j = i
    · rw [hj, hself]
      exact hfit
    · rw [hother j hj]
      exact hs j
  · by_cases hj : j = i
    · rw [hj, hself]
      exact .inr ⟨fun _ => (find_some hi).2, fun _ => hbears.2⟩
    · rw [hother j hj]
      exact .inl rfl
  · intro j hj _
    obtain rfl := Option.some.inj (hi.symm.trans hj)
    exact hbefore
  · intro j hj _
    rw [find_edited hw (find_some hi) hbears] at hj
    obtain rfl := Option.some.inj (hi.symm.trans hj)
    rw [hself]
    exact hafter

/-! ### The focus -/

/-- What `set_focus` asks for, of one of the two windows. -/
def frames (s : Server) (id : UInt32) : List Damage :=
  match s.find id with
  | some i => [.rect (Server.damageFrame (s.windows i))]
  | none => []

theorem mem_frames {i : WindowSlot} (hi : s.find id = some i) :
    Damage.rect (Server.damageFrame (s.windows i)) ∈ frames s id := by simp [frames, hi]

theorem frames_congr (h : ∀ i, look (t.windows i) = look (s.windows i)) (id : UInt32) : frames t id = frames s id := by
  have halike : Alike s t id := fun i => .inl (h i)
  unfold frames
  rw [halike.find]
  cases s.find id with
  | none => rfl
  | some i =>
    dsimp only
    rw [damageFrame_congr (h i)]

theorem look_queued (s : Server) (i : WindowSlot) (event : Event) (j : WindowSlot) :
    look ((s.setWindow i ((s.windows i).queueEvent event)).windows j) = look (s.windows j) := by
  by_cases hj : j = i
  · subst hj
    simp
  · rw [s.setWindow_windows_ne _ hj]

theorem look_notify (s : Server) (id : UInt32) (type : EventType) (j : WindowSlot) :
    look ((s.notify id type).windows j) = look (s.windows j) := by
  unfold Server.notify
  split
  · exact look_queued s _ _ j
  · rfl

theorem look_setFocus (s : Server) (id : UInt32) (j : WindowSlot) :
    look ((s.setFocus id).windows j) = look (s.windows j) := by
  unfold Server.setFocus
  split
  · rfl
  · rw [look_notify]
    exact look_notify s _ _ j

theorem notify_damage (s : Server) (id : UInt32) (type : EventType) :
    (s.notify id type).damage = s.damage ++ frames s id := by
  unfold Server.notify frames
  cases s.find id with
  | none => simp
  | some i =>
    have hframe : Server.damageFrame ((s.sendSimple i type).windows i) = Server.damageFrame (s.windows i) :=
      damageFrame_congr (look_queued s i _ i)
    change s.damage ++ [Damage.rect (Server.damageFrame ((s.sendSimple i type).windows i))] = _
    rw [hframe]

theorem setFocus_damage (h : s.focusId ≠ id) :
    (s.setFocus id).damage = s.damage ++ (frames s s.focusId ++ frames s id) := by
  have hlook : ∀ i, look (((s.notify s.focusId .blur).focusOn id).windows i) = look (s.windows i) := look_notify s _ _
  rw [Server.setFocus, if_neg h, notify_damage, frames_congr hlook]
  change (s.notify s.focusId .blur).damage ++ frames s id = _
  rw [notify_damage, List.append_assoc]

theorem notify_cursor (s : Server) (id : UInt32) (type : EventType) :
    ((s.notify id type).cursorX = s.cursorX ∧ (s.notify id type).cursorY = s.cursorY) ∧
      (s.notify id type).lastCursorX = s.lastCursorX ∧ (s.notify id type).lastCursorY = s.lastCursorY := by
  unfold Server.notify
  split <;> exact ⟨⟨rfl, rfl⟩, rfl, rfl⟩

theorem setFocus_cursor (s : Server) (id : UInt32) :
    ((s.setFocus id).cursorX = s.cursorX ∧ (s.setFocus id).cursorY = s.cursorY) ∧
      (s.setFocus id).lastCursorX = s.lastCursorX ∧ (s.setFocus id).lastCursorY = s.lastCursorY := by
  unfold Server.setFocus
  split
  · exact ⟨⟨rfl, rfl⟩, rfl, rfl⟩
  · obtain ⟨⟨hx, hy⟩, hlx, hly⟩ := notify_cursor ((s.notify s.focusId .blur).focusOn id) id .focus
    obtain ⟨⟨hx', hy'⟩, hlx', hly'⟩ := notify_cursor s s.focusId .blur
    exact ⟨⟨hx.trans hx', hy.trans hy'⟩, hlx.trans hlx', hly.trans hly'⟩

/-- The window with this id, if it is in the stack, is tidy. -/
def TidyAt (s : Server) (id : UInt32) : Prop := ∀ i, s.find id = some i → id ∈ stack s → Tidy (s.windows i)

theorem TidyAt.answered (h : TidyAt s id) (hsub : ∀ d ∈ frames s id, d ∈ requests) : Answered s requests id :=
  fun i hi hmem => ⟨h i hi hmem, hsub _ (mem_frames hi)⟩

theorem Answered.congr (h : Answered s requests id) (hw : ∀ i, look (t.windows i) = look (s.windows i))
    (hstack : stack t = stack s) : Answered t requests id := by
  have halike : Alike s t id := fun i => .inl (hw i)
  intro i hi hmem
  rw [halike.find] at hi
  rw [hstack] at hmem
  obtain ⟨htidy, hframe⟩ := h i hi hmem
  exact ⟨htidy.congr (hw i), by rw [damageFrame_congr (hw i)]; exact hframe⟩

/-- The two windows whose title changes its colour are asked for. -/
theorem Owed.setFocus (hs : ∀ i, Fits screen (s.windows i))
    (h : s.focusId ≠ id → TidyAt s s.focusId ∧ TidyAt s id) : Owed screen font s (s.setFocus id) := by
  by_cases hsame : s.focusId = id
  · rw [Server.setFocus, if_pos hsame]
    exact .refl s
  · obtain ⟨hold, hnew⟩ := h hsame
    have hlook := look_setFocus s id
    have hstack : stack (s.setFocus id) = stack s := (Same.setFocus s id).stack_eq
    have hfits : ∀ i, Fits screen ((s.setFocus id).windows i) := fun i => (hs i).congr (hlook i)
    have hanswered : ∀ k, ¬(k ≠ s.focusId ∧ k ≠ id) → Answered s (frames s s.focusId ++ frames s id) k := by
      intro k hk
      rcases not_and_or.mp hk with hk | hk
      · rw [not_not.mp hk]
        exact hold.answered fun d hd => List.mem_append_left _ hd
      · rw [not_not.mp hk]
        exact hnew.answered fun d hd => List.mem_append_right _ hd
    refine ⟨_, setFocus_damage hsame, fun _ => hfits, (setFocus_cursor s id).1, (setFocus_cursor s id).2, ?_⟩
    intro c row hn
    refine picture_of_answered (p := fun k => k ≠ s.focusId ∧ k ≠ id) hs hfits (by rw [hstack])
      (fun k hk => ⟨fun i => .inl (hlook i), ?_⟩) hanswered (fun k hk => (hanswered k hk).congr hlook hstack) hn
    rw [WindowMessages.setFocus_focusId]
    exact iff_of_false hk.2 hk.1

/-- An id that was not touched is as tidy as before. -/
theorem TidyAt.of_alike (h : TidyAt s id) (ha : Alike s t id) (hmem : id ∈ stack t → id ∈ stack s) : TidyAt t id := by
  intro i hi ht
  rw [ha.find] at hi
  exact (h i hi (hmem ht)).congr (ha.look hi)

theorem mem_stack_of_filter {k : UInt32} (h : ((stack t).filter fun k => k ≠ id) = (stack s).filter fun k => k ≠ id)
    (hk : k ≠ id) (hmem : k ∈ stack t) : k ∈ stack s := by
  have hfilter : k ∈ (stack t).filter fun k => k ≠ id := List.mem_filter.mpr ⟨hmem, by simpa using hk⟩
  rw [h] at hfilter
  exact (List.mem_filter.mp hfilter).1

theorem alike_of_edit {i : WindowSlot} {w : Window} (hw : t.windows = Function.update s.windows i w)
    (hs : (s.windows i).used = true → (s.windows i).id = id) (ht : w.used = true → w.id = id) {k : UInt32}
    (hk : k ≠ id) : Alike s t k := by
  intro j
  rw [hw]
  by_cases hj : j = i
  · subst hj
    rw [Function.update_self]
    exact .inr ⟨fun hb => hk (hb.2.symm.trans (hs hb.1)), fun hb => hk (hb.2.symm.trans (ht hb.1))⟩
  · rw [Function.update_of_ne hj]
    exact .inl rfl

/-! ### The calls -/

theorem Owed.of_look (hw : ∀ i, look (t.windows i) = look (s.windows i)) (hstack : stack t = stack s)
    (hfocus : t.focusId = s.focusId) (hcursor : t.cursorX = s.cursorX ∧ t.cursorY = s.cursorY)
    (hlast : t.lastCursorX = s.lastCursorX ∧ t.lastCursorY = s.lastCursorY)
    (hdamage : t.damage = s.damage ++ requests) : Owed screen font s t :=
  ⟨requests, hdamage, .of_look hw hstack hfocus hcursor hlast⟩

/-- A message leaves no trace on the screen. -/
theorem Owed.queueEvent (s : Server) (i : WindowSlot) (event : Event) :
    Owed screen font s (s.setWindow i ((s.windows i).queueEvent event)) :=
  .of_look (look_queued s i event) rfl rfl ⟨rfl, rfl⟩ ⟨rfl, rfl⟩ (List.append_nil _).symm

theorem Owed.damageWindow (s : Server) (i : WindowSlot) : Owed screen font s (s.damageWindow i) :=
  .of_look (fun _ => rfl) rfl rfl ⟨rfl, rfl⟩ ⟨rfl, rfl⟩ rfl

theorem filter_zInsert (s : Server) (id flags : UInt32) :
    ((stack (s.zInsert id flags)).filter fun k => k ≠ id) = (stack s).filter fun k => k ≠ id := by
  rw [stack_zInsert, List.filter_append, List.filter_cons_of_neg (by simp), ← List.filter_append,
    List.take_append_drop]

theorem filter_zRemove (s : Server) (id : UInt32) :
    ((stack (s.zRemove id)).filter fun k => k ≠ id) = (stack s).filter fun k => k ≠ id := by
  rw [stack_zRemove, List.filter_filter]
  simp

theorem filter_raiseWindow (s : Server) (i : WindowSlot) :
    ((stack (s.raiseWindow i)).filter fun k => k ≠ (s.windows i).id) =
      (stack s).filter fun k => k ≠ (s.windows i).id :=
  (filter_zInsert (s.zRemove (s.windows i).id) (s.windows i).id (s.windows i).flags).trans (filter_zRemove s _)

theorem Owed.raiseWindow {i : WindowSlot} (hs : ∀ i, Fits screen (s.windows i)) (hi : s.find (s.windows i).id = some i)
    (htidy : Tidy (s.windows i)) : Owed screen font s (s.raiseWindow i) := by
  refine ⟨[.rect (Server.damageFrame (s.windows i))], rfl, ?_⟩
  exact .edit hs hi (Function.update_eq_self i s.windows).symm (find_some hi) (hs i) (filter_raiseWindow s i) rfl
    ⟨rfl, rfl⟩ ⟨rfl, rfl⟩ ⟨htidy, List.mem_singleton_self _⟩ ⟨htidy, List.mem_singleton_self _⟩

theorem Owed.wmActivate (hs : ∀ i, Fits screen (s.windows i))
    (h : ∀ i, s.find id = some i → Neat (s.windows i) ∧ (s.focusId ≠ id → TidyAt s s.focusId)) :
    Owed screen font s (s.wmActivate id).1 := by
  unfold Server.wmActivate
  split
  · exact .refl s
  · next i hi =>
    obtain ⟨hneat, hold⟩ := h i hi
    obtain ⟨hu, rfl⟩ := find_some hi
    have hw : ((s.setState i .normal).raiseWindow i).windows =
        Function.update s.windows i { s.windows i with state := .normal } := rfl
    have hself : (s.setState i .normal).windows i = { s.windows i with state := .normal } :=
      s.setWindow_windows_self i _
    have hfilter := filter_raiseWindow (s.setState i .normal) i
    rw [hself] at hfilter
    have hraised : Repaired screen font s ((s.setState i .normal).raiseWindow i)
        [.rect (Server.damageFrame (s.windows i))] :=
      .edit hs hi hw ⟨hu, rfl⟩ ⟨(hs i).sized, (hs i).title⟩ hfilter rfl ⟨rfl, rfl⟩ ⟨rfl, rfl⟩
        ⟨.inr hneat, List.mem_singleton_self _⟩ ⟨.inr hneat, List.mem_singleton_self _⟩
    have hdamage : ((s.setState i .normal).raiseWindow i).damage =
        s.damage ++ [Damage.rect (Server.damageFrame (s.windows i))] := by
      change s.damage ++ [Damage.rect (Server.damageFrame ((s.setState i .normal).windows i))] = _
      rw [hself]
      rfl
    refine Owed.trans ⟨_, hdamage, hraised⟩ (.setFocus (hraised.fits hs) fun hne => ⟨?_, ?_⟩)
    · exact (hold hne).of_alike (alike_of_edit hw (fun _ => rfl) (fun _ => rfl) hne) (mem_stack_of_filter hfilter hne)
    · intro j hj _
      rw [find_edited hw ⟨hu, rfl⟩ ⟨hu, rfl⟩] at hj
      obtain rfl := Option.some.inj (hi.symm.trans hj)
      rw [hw, Function.update_self]
      exact .inr hneat

/-- A window is moved: both places are asked for. -/
theorem Owed.moveTo {i : WindowSlot} (hs : ∀ i, Fits screen (s.windows i)) (hi : s.find id = some i)
    (htidy : Tidy (s.windows i)) (x y : Int32) :
    Owed screen font s (((s.damageWindow i).moveTo i x y).damageWindow i) := by
  have hself : ((s.damageWindow i).moveTo i x y).windows i = { s.windows i with x := x, y := y } :=
    (s.damageWindow i).setWindow_windows_self i _
  refine ⟨[.rect (Server.damageFrame (s.windows i)), .rect (Server.damageFrame { s.windows i with x := x, y := y })],
    ?_, ?_⟩
  · change (s.damage ++ [_]) ++ [Damage.rect (Server.damageFrame (((s.damageWindow i).moveTo i x y).windows i))] = _
    rw [hself, List.append_assoc]
    rfl
  · have htidy' : Tidy { s.windows i with x := x, y := y } := htidy.imp (fun hm => hm) fun hneat => hneat.moved x y
    exact .edit hs hi rfl (find_some hi) ⟨(hs i).sized, (hs i).title⟩ rfl rfl ⟨rfl, rfl⟩ ⟨rfl, rfl⟩
      ⟨htidy, List.mem_cons_self⟩ ⟨htidy', List.mem_cons_of_mem _ (List.mem_singleton_self _)⟩

theorem Owed.wmMoveWindow (hs : ∀ i, Fits screen (s.windows i)) (owner : ℕ) (x y : Int32)
    (h : ∀ i, s.find id = some i → (s.windows i).owner = owner → Tidy (s.windows i)) :
    Owed screen font s (s.wmMoveWindow owner id x y).1 := by
  unfold Server.wmMoveWindow
  split
  · exact .refl s
  · next i hi =>
    split
    · exact .refl s
    · next howner => exact .moveTo hs hi (h i hi (not_not.mp howner)) x y

theorem Owed.wmSetTitle (hs : ∀ i, Fits screen (s.windows i)) (owner : ℕ) (title : List UInt8)
    (h : ∀ i, s.find id = some i → (s.windows i).owner = owner →
      Tidy (s.windows i) ∧ Tidy { s.windows i with title := title.take 47 }) :
    Owed screen font s (s.wmSetTitle owner id title).1 := by
  unfold Server.wmSetTitle
  split
  · exact .refl s
  · next i hi =>
    split
    · exact .refl s
    · next howner =>
      obtain ⟨hbefore, hafter⟩ := h i hi (not_not.mp howner)
      have hself : (s.setWindow i { s.windows i with title := title.take 47 }).windows i =
          { s.windows i with title := title.take 47 } := s.setWindow_windows_self i _
      refine ⟨[.rect (Server.damageFrame (s.windows i))], ?_, ?_⟩
      · change s.damage ++ [Damage.rect (Server.damageFrame
          ((s.setWindow i { s.windows i with title := title.take 47 }).windows i))] = _
        rw [hself]
        rfl
      · have hlength : (title.take 47).length ≤ 47 := by simp
        exact .edit hs hi rfl (find_some hi) ⟨(hs i).sized, hlength⟩ rfl rfl ⟨rfl, rfl⟩ ⟨rfl, rfl⟩
          ⟨hbefore, List.mem_singleton_self _⟩ ⟨hafter, List.mem_singleton_self _⟩

theorem look_resized (w : Window) (width height : Int32) :
    look (resized w width height) = look { w with width := width, height := height, pixels := fun _ => 0 } :=
  look_queueEvent _ _

theorem Owed.wmResizeWindow (hs : ∀ i, Fits screen (s.windows i)) (owner : ℕ) (width height : Int32) (granted : Bool)
    (h : ∀ i, s.find id = some i → granted = true → (s.windows i).owner = owner →
      Tidy (s.windows i) ∧ Tidy (resized (s.windows i) width height)) :
    Owed screen font s (s.wmResizeWindow screen owner id width height granted).1 := by
  unfold Server.wmResizeWindow
  split
  · exact .refl s
  next i hi =>
    dsimp only
    split
    · exact .refl s
    next howner =>
      split
      · exact .refl s
      next hsize =>
        split
        · exact .refl s
        split
        · exact .damageWindow s i
        next hgranted =>
          obtain ⟨hbefore, hafter⟩ := h i hi (by simpa using hgranted) (not_not.mp howner)
          obtain ⟨hu, hid⟩ := find_some hi
          simp only [not_or, Int32.not_le, gt_iff_lt, Int32.not_lt] at hsize
          have hself : ((s.damageWindow i).setWindow i (resized (s.windows i) width height)).windows i =
              resized (s.windows i) width height := (s.damageWindow i).setWindow_windows_self i _
          have hlook := look_resized (s.windows i) width height
          have hfit : Fits screen { s.windows i with width := width, height := height, pixels := fun _ => 0 } :=
            ⟨fun _ => ⟨hsize.1, hsize.2.1, hsize.2.2.1, hsize.2.2.2⟩, (hs i).title⟩
          refine ⟨[.rect (Server.damageFrame (s.windows i)),
            .rect (Server.damageFrame (resized (s.windows i) width height))], ?_, ?_⟩
          · change (s.damage ++ [_]) ++ [Damage.rect (Server.damageFrame
              (((s.damageWindow i).setWindow i (resized (s.windows i) width height)).windows i))] = _
            rw [hself, List.append_assoc]
            rfl
          · exact .edit hs hi rfl ((bears_congr hlook).mpr ⟨hu, hid⟩) (hfit.congr hlook) rfl rfl ⟨rfl, rfl⟩ ⟨rfl, rfl⟩
              ⟨hbefore, List.mem_cons_self⟩ ⟨hafter, List.mem_cons_of_mem _ (List.mem_singleton_self _)⟩

/-- An edit of one window is no matter when everything is asked for. -/
theorem fits_edited {i : WindowSlot} {w : Window} (hw : t.windows = Function.update s.windows i w)
    (hfit : Fits screen (s.windows i) → Fits screen w) (hs : ∀ i, Fits screen (s.windows i)) (j : WindowSlot) :
    Fits screen (t.windows j) := by
  rw [hw]
  by_cases hj : j = i
  · subst hj
    rw [Function.update_self]
    exact hfit (hs j)
  · rw [Function.update_of_ne hj]
    exact hs j

theorem Owed.wmMinimize (s : Server) (id : UInt32) : Owed screen font s (s.wmMinimize id).1 := by
  unfold Server.wmMinimize
  split
  · exact .refl s
  · next i _ =>
    have hall : Damage.all ∈ [Damage.rect (Server.damageFrame (s.windows i)), .all] :=
      List.mem_cons_of_mem _ (List.mem_singleton_self _)
    have hfit : Fits screen (s.windows i) → ∀ state, Fits screen { s.windows i with state := state } :=
      fun hf _ => ⟨hf.sized, hf.title⟩
    dsimp only
    split
    · exact ⟨_, List.append_assoc _ _ _, .all (fits_edited rfl fun hf => hfit hf .normal) ⟨rfl, rfl⟩ ⟨rfl, rfl⟩ hall⟩
    · split
      · exact ⟨_, List.append_assoc _ _ _,
          .all (fits_edited rfl fun hf => hfit hf .minimized) ⟨rfl, rfl⟩ ⟨rfl, rfl⟩ hall⟩
      · exact ⟨_, List.append_assoc _ _ _,
          .all (fits_edited rfl fun hf => hfit hf .minimized) ⟨rfl, rfl⟩ ⟨rfl, rfl⟩ hall⟩

theorem Owed.wmSetFlags (s : Server) (owner : ℕ) (id flags : UInt32) :
    Owed screen font s (s.wmSetFlags owner id flags).1 := by
  unfold Server.wmSetFlags
  split
  · exact .refl s
  · next i _ =>
    split
    · exact .refl s
    · exact ⟨[.all], rfl, .all (fits_edited (w := { s.windows i with flags := flags }) rfl
        fun hf => ⟨hf.sized, hf.title⟩) ⟨rfl, rfl⟩ ⟨rfl, rfl⟩ (List.mem_singleton_self _)⟩

/-- A window is closed: its frame is asked for before it goes. -/
theorem Owed.removed {i : WindowSlot} (hs : ∀ i, Fits screen (s.windows i)) (hi : s.find id = some i)
    (htidy : Tidy (s.windows i)) : Owed screen font s (removed s i id) := by
  have hw : (WindowFocus.removed s i id).windows = Function.update s.windows i { s.windows i with used := false } := rfl
  have hstack : stack (WindowFocus.removed s i id) = (stack s).filter fun k => k ≠ id :=
    stack_zRemove (s.damageWindow i) id
  have hfilter : ((stack (WindowFocus.removed s i id)).filter fun k => k ≠ id) = (stack s).filter fun k => k ≠ id :=
    filter_zRemove (s.damageWindow i) id
  refine ⟨[.rect (Server.damageFrame (s.windows i))], rfl, ?_⟩
  refine .redraw hs (fits_edited hw (fun hf => ⟨fun hu => absurd hu (by simp), hf.title⟩) hs) (fun j => ?_) hfilter rfl
    ⟨rfl, rfl⟩ ⟨rfl, rfl⟩ ?_ ?_
  · rw [hw]
    by_cases hj : j = i
    · subst hj
      rw [Function.update_self]
      exact .inr ⟨fun _ => (find_some hi).2, fun hu => absurd hu (by simp)⟩
    · rw [Function.update_of_ne hj]
      exact .inl rfl
  · intro j hj _
    obtain rfl := Option.some.inj (hi.symm.trans hj)
    exact ⟨htidy, List.mem_singleton_self _⟩
  · intro j _ hmem
    rw [hstack] at hmem
    exact absurd (List.mem_filter.mp hmem).2 (by simp)

/-- The focus is taken from a window that is not drawn any more, and nobody gets it. -/
theorem Owed.unfocus (hgone : s.focusId ∉ stack s) (hzero : 0 ∈ stack s → s.find 0 = none) :
    Owed screen font s (s.focusOn 0) := by
  refine ⟨[], (List.append_nil _).symm, fun hs => hs, ⟨rfl, rfl⟩, ⟨rfl, rfl⟩, fun c row _ => ?_⟩
  refine List.flatMap_congr fun k hk => ?_
  by_cases hk0 : k = 0
  · subst hk0
    have hnone := hzero hk
    have hnone' : (s.focusOn 0).find 0 = none := hnone
    unfold DamageCoverage.paints
    rw [hnone, hnone']
  · refine Alike.paints (fun i => .inl rfl) (iff_of_false hk0 ?_)
    rintro rfl
    exact hgone hk

theorem Owed.wmDestroyWindow (hs : ∀ i, Fits screen (s.windows i)) (owner : Option ℕ)
    (h : ∀ i, s.find id = some i → owner.any (· ≠ (s.windows i).owner) = false → Tidy (s.windows i) ∧
      (s.focusId = id → (id ≠ 0 → s.find 0 = none) ∧ ∀ j, successor s id = some j → Tidy (s.windows j))) :
    Owed screen font s (s.wmDestroyWindow owner id).1 := by
  unfold Server.wmDestroyWindow
  split
  · exact .refl s
  next i hi =>
    dsimp only
    split
    · exact .refl s
    next howner =>
      obtain ⟨htidy, hfocused⟩ := h i hi (by simpa using howner)
      have hremoved : Owed screen font s (WindowFocus.removed s i id) := .removed hs hi htidy
      have hstack : stack (WindowFocus.removed s i id) = (stack s).filter fun k => k ≠ id :=
        stack_zRemove (s.damageWindow i) id
      split
      · next hfocus =>
        obtain ⟨hzero, hnext⟩ := hfocused hfocus
        have hgone : id ∉ stack (WindowFocus.removed s i id) := by
          rw [hstack]
          simp
        have hnone : 0 ∈ stack (WindowFocus.removed s i id) → (WindowFocus.removed s i id).find 0 = none := by
          intro hmem
          have hne : id ≠ 0 := by
            rintro rfl
            exact hgone hmem
          rw [removed_find hi hne.symm]
          exact hzero hne
        have hunfocused : Owed screen font s ((WindowFocus.removed s i id).focusOn 0) :=
          hremoved.trans (.unfocus (fun hmem => hgone (hfocus ▸ hmem)) hnone)
        change Owed screen font s ((WindowFocus.removed s i id).focusOn 0).refocus
        rw [removed_refocus hi]
        split
        · next j hj =>
          obtain ⟨hfound, hne⟩ := successor_found hj
          have hji : j ≠ i := by
            rintro rfl
            exact hne (find_some hi).2
          refine hunfocused.trans (.setFocus (hunfocused.fits hs) fun _ => ⟨?_, ?_⟩)
          · intro k hk hmem
            have hk' : (WindowFocus.removed s i id).find 0 = some k := hk
            rw [hnone hmem] at hk'
            cases hk'
          · intro k hk _
            have hk' : (WindowFocus.removed s i id).find (s.windows j).id = some k := hk
            rw [removed_find hi hne, hfound] at hk'
            obtain rfl := Option.some.inj hk'
            have hwin : ((WindowFocus.removed s i id).focusOn 0).windows j = s.windows j :=
              Server.setWindow_windows_ne _ _ hji
            rw [hwin]
            exact hnext j hj
        · exact hunfocused
      · exact hremoved

/-- A request may come after the change. -/
theorem Owed.belated {r : Rect} (h₁ : Repaired screen font s t [.rect r]) (hd : t.damage = s.damage)
    (h₂ : Owed screen font t u) : Owed screen font s (u.damageRect r) := by
  obtain ⟨requests, hd₂, hr₂⟩ := h₂
  refine ⟨requests ++ [Damage.rect r], ?_, ?_⟩
  · change u.damage ++ [Damage.rect r] = _
    rw [hd₂, hd, List.append_assoc]
  · refine (h₁.mono fun d hd => List.mem_append_right _ hd).trans
      ((hr₂.mono fun d hd => List.mem_append_left _ hd).trans ?_)
    exact .of_look (fun _ => rfl) rfl rfl ⟨rfl, rfl⟩ ⟨rfl, rfl⟩

/-- A slot is filled in that was not in use and still is not. -/
theorem Owed.unseen {slot : WindowSlot} {w : Window} (hu : (s.windows slot).used = false)
    (hw : t.windows = Function.update s.windows slot w) (hu' : w.used = false) (htitle : w.title.length ≤ 47)
    (hstack : stack t = stack s) (hfocus : t.focusId = s.focusId)
    (hcursor : t.cursorX = s.cursorX ∧ t.cursorY = s.cursorY)
    (hlast : t.lastCursorX = s.lastCursorX ∧ t.lastCursorY = s.lastCursorY) (hdamage : t.damage = s.damage) :
    Owed screen font s t := by
  have hfit : Fits screen w := ⟨fun hused => absurd (hu'.symm.trans hused) (by simp), htitle⟩
  refine ⟨[], by rw [hdamage, List.append_nil], fits_edited hw fun _ => hfit, hcursor, hlast, fun c row _ => ?_⟩
  unfold picture
  rw [hstack]
  refine List.flatMap_congr fun k _ => Alike.paints (fun j => ?_) (by rw [hfocus])
  rw [hw]
  by_cases hj : j = slot
  · subst hj
    rw [Function.update_self]
    exact .inr ⟨fun hb => absurd (hu.symm.trans hb.1) (by simp), fun hb => absurd (hu'.symm.trans hb.1) (by simp)⟩
  · rw [Function.update_of_ne hj]
    exact .inl rfl

/-- A window is put into a free slot and into the stack. -/
theorem Repaired.opened {slot : WindowSlot} {w : Window} (hs : ∀ i, Fits screen (s.windows i))
    (hu : (s.windows slot).used = false) (hw : t.windows = Function.update s.windows slot w) (hfit : Fits screen w)
    (hfresh : ∀ j, (s.windows j).used → (s.windows j).id ≠ w.id) (htidy : Tidy w)
    (hstack : ((stack t).filter fun k => k ≠ w.id) = (stack s).filter fun k => k ≠ w.id)
    (hfocus : t.focusId = s.focusId) (hcursor : t.cursorX = s.cursorX ∧ t.cursorY = s.cursorY)
    (hlast : t.lastCursorX = s.lastCursorX ∧ t.lastCursorY = s.lastCursorY) :
    Repaired screen font s t [.rect (Server.damageFrame w)] ∧ TidyAt t w.id := by
  have hself : t.windows slot = w := by rw [hw, Function.update_self]
  have hother : ∀ j, j ≠ slot → t.windows j = s.windows j := fun j hj => by rw [hw, Function.update_of_ne hj]
  have hfound : ∀ j, t.find w.id = some j → t.windows j = w := by
    intro j hj
    obtain ⟨hju, hjid⟩ := find_some hj
    by_cases hslot : j = slot
    · rw [hslot, hself]
    · rw [hother j hslot] at hju hjid
      exact absurd hjid (hfresh j hju)
  refine ⟨.redraw hs (fits_edited hw (fun _ => hfit) hs) (fun j => ?_) hstack hfocus hcursor hlast ?_ ?_, ?_⟩
  · by_cases hj : j = slot
    · rw [hj, hself]
      exact .inr ⟨fun hused => absurd (hu.symm.trans hused) (by simp), fun _ => rfl⟩
    · rw [hother j hj]
      exact .inl rfl
  · intro j hj _
    exact absurd (find_some hj).2 (hfresh j (find_some hj).1)
  · intro j hj _
    rw [hfound j hj]
    exact ⟨htidy, List.mem_singleton_self _⟩
  · intro j hj _
    rw [hfound j hj]
    exact htidy

/-- A window is opened: its frame is asked for at the end, after the focus has moved to it. -/
theorem Owed.created {slot : WindowSlot} {w : Window} (hs : ∀ i, Fits screen (s.windows i))
    (hu : (s.windows slot).used = false) (hfit : Fits screen w)
    (hfresh : ∀ j, (s.windows j).used → (s.windows j).id ≠ w.id) (htidy : Tidy w)
    (hold : has w.flags (guiBottom ||| guiTop) = false → s.focusId ≠ w.id → TidyAt s s.focusId) :
    Owed screen font s ((if has w.flags (guiBottom ||| guiTop) then
        ((s.countWindow w.flags).setWindow slot w).zInsert w.id w.flags
      else (((s.countWindow w.flags).setWindow slot w).zInsert w.id w.flags).setFocus w.id).damageWindow slot) := by
  have hfilter := filter_zInsert ((s.countWindow w.flags).setWindow slot w) w.id w.flags
  obtain ⟨hrepaired, hnew⟩ : Repaired screen font s (((s.countWindow w.flags).setWindow slot w).zInsert w.id w.flags)
      [.rect (Server.damageFrame w)] ∧ TidyAt (((s.countWindow w.flags).setWindow slot w).zInsert w.id w.flags) w.id :=
    Repaired.opened hs hu rfl hfit hfresh htidy hfilter rfl ⟨rfl, rfl⟩ ⟨rfl, rfl⟩
  have hself : (((s.countWindow w.flags).setWindow slot w).zInsert w.id w.flags).windows slot = w :=
    Server.setWindow_windows_self _ _ _
  have halike : ∀ {k}, k ≠ w.id → Alike s (((s.countWindow w.flags).setWindow slot w).zInsert w.id w.flags) k :=
    alike_of_edit (i := slot) (w := w) rfl (fun hused => absurd (hu.symm.trans hused) (by simp)) fun _ => rfl
  have hfocusId : (((s.countWindow w.flags).setWindow slot w).zInsert w.id w.flags).focusId = s.focusId := rfl
  have hdamage : (((s.countWindow w.flags).setWindow slot w).zInsert w.id w.flags).damage = s.damage := rfl
  have hmem : ∀ {k}, k ≠ w.id → k ∈ stack (((s.countWindow w.flags).setWindow slot w).zInsert w.id w.flags) →
      k ∈ stack s := fun hk hin => mem_stack_of_filter (s := s) hfilter hk hin
  generalize ((s.countWindow w.flags).setWindow slot w).zInsert w.id w.flags = t at *
  split
  · unfold Server.damageWindow
    rw [hself]
    exact .belated hrepaired hdamage (.refl t)
  · next hplain =>
    unfold Server.damageWindow
    rw [damageFrame_congr (look_setFocus t w.id slot), hself]
    refine .belated hrepaired hdamage (.setFocus (hrepaired.fits hs) fun hne => ⟨?_, hnew⟩)
    rw [hfocusId] at hne ⊢
    exact (hold (by simpa using hplain) hne).of_alike (halike hne) (hmem hne)

theorem Owed.wmCreateWindow (hs : ∀ i, Fits screen (s.windows i)) (owner : ℕ) (width height : Int32)
    (title : List UInt8) (flags : UInt32) (granted : Bool)
    (h : Created screen s width height granted → (∀ j, (s.windows j).used → (s.windows j).id ≠ s.nextId) ∧
      Neat { flags := flags, title := title.take 47, width := width, height := height } ∧
      (has flags (guiBottom ||| guiTop) = false → s.focusId ≠ s.nextId → TidyAt s s.focusId)) :
    Owed screen font s (s.wmCreateWindow screen owner width height title flags granted).1 := by
  unfold Server.wmCreateWindow
  split
  · exact .refl s
  next hpos =>
    split
    · exact .refl s
    next hfit =>
      split
      · exact .refl s
      next slot hslot =>
        have hu : (s.windows slot).used = false := by simpa using List.find?_some hslot
        have hlength : (title.take 47).length ≤ 47 := by simp
        dsimp only
        generalize s.newPosition screen flags width height = position
        split
        · exact .unseen (s := s) hu rfl rfl hlength rfl rfl ⟨rfl, rfl⟩ ⟨rfl, rfl⟩ rfl
        · next hgranted =>
          obtain ⟨hfresh, hneat, hold⟩ := h ⟨hpos, hfit, by simpa using hgranted, slot, hu⟩
          simp only [not_or, Int32.not_le, gt_iff_lt, Int32.not_lt] at hpos hfit
          refine Owed.created (w :=
            { id := s.nextId, used := true, owner := owner, flags := flags, title := title.take 47,
              x := position.1, y := position.2, width := width, height := height }) hs hu ?_ hfresh ?_ hold
          · exact ⟨fun _ => ⟨hpos.1, hpos.2, hfit.1, hfit.2⟩, hlength⟩
          · exact .inr (hneat.moved position.1 position.2)

/-! ### The input -/

/-- A press brings a window of the middle band to the front and gives it the focus. -/
theorem Owed.handleMouseDown (hs : ∀ i, Fits screen (s.windows i)) (x y button : Int32)
    (hnone : s.windowAt x y = none → s.focusId ≠ 0 → TidyAt s s.focusId ∧ TidyAt s 0)
    (hsome : ∀ i hit, s.windowAt x y = some (i, hit) → has (s.windows i).flags guiBottom = false →
      Tidy (s.windows i) ∧ (s.focusId ≠ (s.windows i).id → TidyAt s s.focusId)) :
    Owed screen font s (s.handleMouseDown x y button) := by
  unfold Server.handleMouseDown
  split
  · next hat => exact .setFocus hs (hnone hat)
  next i hit hat =>
    have hfound := Layered.windowAt_found hat
    have hraised : Owed screen font s (if has (s.windows i).flags guiBottom = true then s
        else (s.setFocus (s.windows i).id).raiseWindow i) := by
      split
      · exact .refl s
      · next hbottom =>
        obtain ⟨htidy, hold⟩ := hsome i hit hat (by simpa using hbottom)
        have hself : TidyAt s (s.windows i).id := by
          intro j hj _
          obtain rfl := Option.some.inj (hfound.symm.trans hj)
          exact htidy
        have hfocused : Owed screen font s (s.setFocus (s.windows i).id) := .setFocus hs fun hne => ⟨hold hne, hself⟩
        have hlook := look_setFocus s (s.windows i).id
        have halike : Alike s (s.setFocus (s.windows i).id) (s.windows i).id := fun j => .inl (hlook j)
        have hid : ((s.setFocus (s.windows i).id).windows i).id = (s.windows i).id := by
          have hsame := congrArg Window.id (hlook i)
          exact hsame
        refine hfocused.trans (.raiseWindow (hfocused.fits hs) ?_ (htidy.congr (hlook i)))
        rw [hid, halike.find]
        exact hfound
    dsimp only
    generalize (if has (s.windows i).flags guiBottom = true then s
      else (s.setFocus (s.windows i).id).raiseWindow i) = t at hraised
    refine hraised.trans ?_
    split
    · split
      · exact .queueEvent t i _
      · split
        · exact .wmMinimize t _
        · exact .of_look (fun _ => rfl) rfl rfl ⟨rfl, rfl⟩ ⟨rfl, rfl⟩ (List.append_nil _).symm
    · split
      · exact .of_look (fun _ => rfl) rfl rfl ⟨rfl, rfl⟩ ⟨rfl, rfl⟩ (List.append_nil _).symm
      · exact .queueEvent t i _

theorem Owed.handleMouseUp (s : Server) (x y button : Int32) : Owed screen font s (s.handleMouseUp x y button) := by
  have hfields : ∀ t : Server, t.windows = s.windows → t.zOrder = s.zOrder → t.zCount = s.zCount →
      t.focusId = s.focusId → t.cursorX = s.cursorX ∧ t.cursorY = s.cursorY →
      t.lastCursorX = s.lastCursorX ∧ t.lastCursorY = s.lastCursorY → t.damage = s.damage → Owed screen font s t := by
    intro t hw hz hn hf hcursor hlast hd
    have hstack : stack t = stack s := by rw [stack, stack, hz, hn]
    have hdamage : t.damage = s.damage ++ [] := by rw [hd, List.append_nil]
    exact .of_look (fun i => by rw [hw]) hstack hf hcursor hlast hdamage
  have hend : Owed screen font s { s with resizeId := 0 } := hfields _ rfl rfl rfl rfl ⟨rfl, rfl⟩ ⟨rfl, rfl⟩ rfl
  unfold Server.handleMouseUp
  split
  · exact hfields _ rfl rfl rfl rfl ⟨rfl, rfl⟩ ⟨rfl, rfl⟩ rfl
  · split
    · split
      · exact hend.trans (.queueEvent _ _ _)
      · exact hend
    · split
      · exact .queueEvent s _ _
      · exact .refl s

theorem Owed.handleMouseMove (hs : ∀ i, Fits screen (s.windows i)) (x y : Int32) (buttons : UInt32) (granted : Bool)
    (hdrag : s.dragId ≠ 0 → ∀ i, s.find s.dragId = some i → Tidy (s.windows i))
    (hresize : ∀ i width height, resizeOf s (.mouseMove x y buttons granted) = some (i, width, height) →
      Tidy (s.windows i) ∧ Tidy (resized (s.windows i) width height)) :
    Owed screen font s (s.handleMouseMove screen x y buttons granted) := by
  unfold Server.handleMouseMove
  split
  · next hd =>
    split
    · exact .refl s
    · next i hi => exact .moveTo hs hi (hdrag hd i hi) _ _
  next hd =>
    split
    · next hr =>
      split
      · exact .refl s
      next i hi =>
        dsimp only
        split
        · refine .wmResizeWindow hs _ _ _ granted fun j hj hgranted _ => ?_
          obtain rfl : i = j := Option.some.inj (hi.symm.trans ((find_some hi).2 ▸ hj))
          refine hresize i _ _ ?_
          simp only [resizeOf, hi, hgranted, not_not.mp hd, ne_eq, hr, not_false_iff, and_self, if_true]
        · exact .refl s
    · split
      · exact .queueEvent s _ _
      · exact .refl s

end Owing

/-! ## Operations -/

/-- What threads other than the compositor ask of the server. -/
def windowCall : Call → Bool
  | .create .. | .destroy .. | .move .. | .resize .. | .setTitle .. | .activate .. | .minimize .. | .setFlags .. => true
  | _ => false

/-- What `handle_input` takes from the input queue. -/
def inputEvent : Call → Bool
  | .mouseDown .. | .mouseUp .. | .mouseMove .. | .wheel .. | .key .. => true
  | _ => false

/-- A window call, or a turn of the compositor's loop: the input that is waiting, then the cursor. -/
inductive Operation
  | call (c : Call) (h : windowCall c = true)
  | turn (events : List Call) (h : ∀ c ∈ events, inputEvent c = true)

def Operation.calls : Operation → List Call
  | .call c _ => [c]
  | .turn events _ => events ++ [.trackCursor]

def Operation.perform (screen : Screen) (op : Operation) (d : Desktop) : Desktop :=
  op.calls.foldl (Desktop.call screen) d

/-- The windows that the call opens, closes, restacks, changes, or takes the focus from or gives it to are
tidy, before and after; a new window gets an id that is not in use; and the focus is not left to a window
that is called 0. -/
def Careful (screen : Screen) (s : Server) : Call → Prop
  | .create _ width height title flags granted => Created screen s width height granted →
      (∀ j, (s.windows j).used → (s.windows j).id ≠ s.nextId) ∧
      Neat { flags := flags, title := title.take 47, width := width, height := height } ∧
      (has flags (guiBottom ||| guiTop) = false → s.focusId ≠ s.nextId → TidyAt s s.focusId)
  | .destroy owner id => ∀ i, s.find id = some i → owner.any (· ≠ (s.windows i).owner) = false →
      Tidy (s.windows i) ∧
      (s.focusId = id → (id ≠ 0 → s.find 0 = none) ∧ ∀ j, successor s id = some j → Tidy (s.windows j))
  | .move owner id _ _ => ∀ i, s.find id = some i → (s.windows i).owner = owner → Tidy (s.windows i)
  | .setTitle owner id title => ∀ i, s.find id = some i → (s.windows i).owner = owner →
      Tidy (s.windows i) ∧ Tidy { s.windows i with title := title.take 47 }
  | .resize owner id width height granted => ∀ i, s.find id = some i → granted = true → (s.windows i).owner = owner →
      Tidy (s.windows i) ∧ Tidy (resized (s.windows i) width height)
  | .activate id => ∀ i, s.find id = some i → Neat (s.windows i) ∧ (s.focusId ≠ id → TidyAt s s.focusId)
  | .mouseDown x y _ => (s.windowAt x y = none → s.focusId ≠ 0 → TidyAt s s.focusId ∧ TidyAt s 0) ∧
      ∀ i hit, s.windowAt x y = some (i, hit) → has (s.windows i).flags guiBottom = false →
        Tidy (s.windows i) ∧ (s.focusId ≠ (s.windows i).id → TidyAt s s.focusId)
  | .mouseMove x y buttons granted => (s.dragId ≠ 0 → ∀ i, s.find s.dragId = some i → Tidy (s.windows i)) ∧
      ∀ i width height, resizeOf s (.mouseMove x y buttons granted) = some (i, width, height) →
        Tidy (s.windows i) ∧ Tidy (resized (s.windows i) width height)
  | _ => True

/-- The same of each call of a list, in the state it is made in. -/
def CarefulAll (screen : Screen) : Desktop → List Call → Prop
  | _, [] => True
  | d, c :: rest => Careful screen { d.server with damage := [] } c ∧ CarefulAll screen (d.call screen c) rest

section Operations
variable {screen : Screen} {font : Font} {s : Server} {d d' d'' : Desktop} {c : Call}

theorem Owed.run_call (hs : ∀ i, Fits screen (s.windows i)) (hc : windowCall c = true) (h : Careful screen s c) :
    Owed screen font s (s.run screen c) := by
  cases c with
  | create owner width height title flags granted => exact .wmCreateWindow hs owner width height title flags granted h
  | destroy owner id => exact .wmDestroyWindow hs owner h
  | move owner id x y => exact .wmMoveWindow hs owner x y h
  | resize owner id width height granted => exact .wmResizeWindow hs owner width height granted h
  | setTitle owner id title => exact .wmSetTitle hs owner title h
  | activate id => exact .wmActivate hs h
  | minimize id => exact .wmMinimize s id
  | setFlags owner id flags => exact .wmSetFlags s owner id flags
  | _ => cases hc

/-- An input event first takes the cursor along. -/
theorem Owed.run_event (hs : ∀ i, Fits screen (s.windows i)) (hc : inputEvent c = true) (h : Careful screen s c) :
    ∃ x y, Owed screen font { s with cursorX := x, cursorY := y } (s.run screen c) := by
  cases c with
  | mouseDown x y button =>
    exact ⟨x, y, .handleMouseDown (s := { s with cursorX := x, cursorY := y }) hs x y button h.1 h.2⟩
  | mouseUp x y button => exact ⟨x, y, .handleMouseUp _ x y button⟩
  | mouseMove x y buttons granted =>
    exact ⟨x, y, .handleMouseMove (s := { s with cursorX := x, cursorY := y }) hs x y buttons granted h.1 h.2⟩
  | wheel x y wheel =>
    refine ⟨s.cursorX, s.cursorY, ?_⟩
    simp only [Server.run, Server.handleWheel]
    split
    · exact .queueEvent s _ _
    · exact .refl s
  | key key =>
    refine ⟨s.cursorX, s.cursorY, ?_⟩
    simp only [Server.run, Server.handleKey]
    split
    · exact .queueEvent s _ _
    · exact .refl s
  | _ => cases hc

/-- What is kept from one desktop to the next: the damage list loses nothing, and it covers what has changed
but for the cursor. -/
structure Tracked (screen : Screen) (font : Font) (d d' : Desktop) : Prop where
  fits : (∀ i, Fits screen (d.server.windows i)) → ∀ i, Fits screen (d'.server.windows i)
  bounded : (∀ i, Bounded screen (d.server.windows i)) → ∀ i, Bounded screen (d'.server.windows i)
  lastCursor : d'.server.lastCursorX = d.server.lastCursorX ∧ d'.server.lastCursorY = d.server.lastCursorY
  kept : ∀ c row, OnScreen screen c row → Dirties screen d.dirty c row → Dirties screen d'.dirty c row
  picture : ∀ c row, OnScreen screen c row → Dirties screen d'.dirty c row ∨
    picture screen font d'.server c row = picture screen font d.server c row

theorem Tracked.refl (d : Desktop) : Tracked screen font d d :=
  ⟨id, id, ⟨rfl, rfl⟩, fun _ _ _ h => h, fun _ _ _ => .inr rfl⟩

theorem Tracked.trans (h₁ : Tracked screen font d d') (h₂ : Tracked screen font d' d'') :
    Tracked screen font d d'' where
  fits hs := h₂.fits (h₁.fits hs)
  bounded hb := h₂.bounded (h₁.bounded hb)
  lastCursor := ⟨h₂.lastCursor.1.trans h₁.lastCursor.1, h₂.lastCursor.2.trans h₁.lastCursor.2⟩
  kept c row hp h := h₂.kept c row hp (h₁.kept c row hp h)
  picture c row hp := by
    rcases h₂.picture c row hp with hdirty | hsame₂
    · exact .inl hdirty
    · rcases h₁.picture c row hp with hdirty | hsame₁
      · exact .inl (h₂.kept c row hp hdirty)
      · exact .inr (hsame₂.trans hsame₁)

/-- The requests of a call are no larger than a window. -/
theorem call_modest (hb : ∀ i, Bounded screen (d.server.windows i)) (c : Call) :
    ∀ r, Damage.rect r ∈ (d.call screen c).server.damage → Modest r := by
  have htame : DamageTracking.Tame screen { d.server with damage := [] } :=
    ⟨hb, fun _ hq => absurd hq List.not_mem_nil⟩
  exact (htame.acts (run_acts screen _ c)).damage

theorem Owed.tracked {x y : Int32} (hb : ∀ i, Bounded screen (d.server.windows i))
    (h : Owed screen font { d.server with damage := [], cursorX := x, cursorY := y }
      ({ d.server with damage := [] }.run screen c)) : Tracked screen font d (d.call screen c) := by
  have hmodest := call_modest hb c
  obtain ⟨requests, hdamage, hrepaired⟩ := h
  have hrequests : (d.call screen c).server.damage = requests := hdamage
  have hdirty : (d.call screen c).dirty = requests.foldl Dirty.apply d.dirty := by
    rw [← hrequests]
    rfl
  rw [hrequests] at hmodest
  refine ⟨hrepaired.fits, fun hb => run_keeps (s := { d.server with damage := [] }) Bounded.edit hb c, hrepaired.lastCursor, fun c row hp h => ?_,
    fun c row hp => ?_⟩
  · rw [hdirty]
    exact h.fold hp hmodest
  · by_cases hasked : Asked requests c row
    · rw [hdirty]
      exact .inl (hasked.dirties hp hmodest _)
    · exact .inr (hrepaired.picture c row hasked)

/-- The input of a turn, event by event. -/
theorem tracked_events {events : List Call} (hall : ∀ c ∈ events, inputEvent c = true)
    (hs : ∀ i, Fits screen (d.server.windows i)) (hb : ∀ i, Bounded screen (d.server.windows i))
    (h : CarefulAll screen d events) : Tracked screen font d (events.foldl (Desktop.call screen) d) := by
  induction events generalizing d with
  | nil => exact .refl d
  | cons c rest ih =>
    obtain ⟨hc, hrest⟩ := h
    have howed : ∃ x y, Owed screen font { d.server with damage := [], cursorX := x, cursorY := y }
        ({ d.server with damage := [] }.run screen c) :=
      Owed.run_event (s := { d.server with damage := [] }) hs (hall c List.mem_cons_self) hc
    obtain ⟨x, y, howed⟩ := howed
    have hfirst : Tracked screen font d (d.call screen c) := howed.tracked hb
    exact hfirst.trans (ih (fun e he => hall e (List.mem_cons_of_mem c he)) (hfirst.fits hs) (hfirst.bounded hb) hrest)

theorem carefulAll_append {events rest : List Call} (h : CarefulAll screen d (events ++ rest)) :
    CarefulAll screen d events := by
  induction events generalizing d with
  | nil => trivial
  | cons c events ih => exact ⟨h.1, ih h.2⟩

/-! ### The cursor -/

/-- The arrow is drawn in the rectangle that is asked for around it. -/
theorem confined_cursor (clip : Rect) (x y : Int32) :
    Confined (fun c row => OnScreen screen c row → Covers x y 13 20 c row) (drawCursor clip x y) := by
  obtain ⟨-, hW, -, hH⟩ := screen_limits screen
  have h13 : (13 : Int32).toInt = 13 := rfl
  have h20 : (20 : Int32).toInt = 20 := rfl
  have hwithin : ∀ row ∈ upTo 19, ∀ col ∈ upTo 12, ∀ color : Color,
      Confined (fun c row => OnScreen screen c row → Covers x y 13 20 c row)
        (Graphics.pixel clip (x + col) (y + row) color) := by
    intro row hrow col hcol color
    have hr : 0 ≤ row.toInt ∧ row.toInt < 19 := mem_upTo.mp hrow
    have hc : 0 ≤ col.toInt ∧ col.toInt < 12 := mem_upTo.mp hcol
    have hsx := add_cases x col
    have hsy := add_cases y row
    have hx := range x
    have hy := range y
    refine (confined_pixel clip _ _ color).mono ?_
    rintro c r ⟨rfl, rfl⟩ ⟨h₁, h₂, h₃, h₄⟩
    unfold Covers
    omega
  refine .flatMap fun row hrow => .flatMap fun col hcol => ?_
  split
  · exact hwithin row hrow col hcol _
  · exact hwithin row hrow col hcol _
  · exact .nil

theorem reaches_cursor {c row : ℤ} (hp : OnScreen screen c row) {x y : Int32}
    (h : hits (drawCursor (wholeScreen screen) x y) c row ≠ []) : Reaches c row (.rect ⟨x, y, 13, 20⟩) :=
  (confined_cursor (wholeScreen screen) x y).hit h hp

/-- The end of a turn: where the cursor has been and where it is now are asked for. -/
theorem trackCursor_dirties {c row : ℤ} (hp : OnScreen screen c row)
    (hb : ∀ i, Bounded screen (d.server.windows i))
    (h : hits (drawCursor (wholeScreen screen) d.server.lastCursorX d.server.lastCursorY) c row ≠
      hits (drawCursor (wholeScreen screen) d.server.cursorX d.server.cursorY) c row) :
    Dirties screen (d.call screen .trackCursor).dirty c row := by
  have hmodest := call_modest hb .trackCursor
  have hmoved : d.server.cursorX ≠ d.server.lastCursorX ∨ d.server.cursorY ≠ d.server.lastCursorY := by
    by_contra hstill
    obtain ⟨hx, hy⟩ := not_or.mp hstill
    rw [not_not.mp hx, not_not.mp hy] at h
    exact h rfl
  have hdamage : (d.call screen .trackCursor).server.damage =
      [.rect ⟨d.server.lastCursorX, d.server.lastCursorY, 13, 20⟩, .rect ⟨d.server.cursorX, d.server.cursorY, 13, 20⟩] := by
    change (Server.trackCursor { d.server with damage := [] }).damage = _
    unfold Server.trackCursor
    rw [if_pos hmoved]
    rfl
  have hasked : Asked (d.call screen .trackCursor).server.damage c row := by
    rw [hdamage]
    by_cases hold : hits (drawCursor (wholeScreen screen) d.server.lastCursorX d.server.lastCursorY) c row = []
    · rw [hold] at h
      exact ⟨_, List.mem_cons_of_mem _ (List.mem_singleton_self _), reaches_cursor hp h.symm⟩
    · exact ⟨_, List.mem_cons_self, reaches_cursor hp hold⟩
  exact hasked.dirties hp hmodest _

theorem tracked_trackCursor (hb : ∀ i, Bounded screen (d.server.windows i)) {c row : ℤ} (hp : OnScreen screen c row)
    (h : Dirties screen d.dirty c row) : Dirties screen (d.call screen .trackCursor).dirty c row :=
  h.fold hp (call_modest hb .trackCursor)

theorem trackCursor_windows (d : Desktop) : (d.call screen .trackCursor).server.windows = d.server.windows ∧
    stack (d.call screen .trackCursor).server = stack d.server ∧
    (d.call screen .trackCursor).server.focusId = d.server.focusId ∧
    (d.call screen .trackCursor).server.cursorX = d.server.cursorX ∧
    (d.call screen .trackCursor).server.cursorY = d.server.cursorY := by
  change (Server.trackCursor { d.server with damage := [] }).windows = _ ∧
    stack (Server.trackCursor { d.server with damage := [] }) = _ ∧
    (Server.trackCursor { d.server with damage := [] }).focusId = _ ∧
    (Server.trackCursor { d.server with damage := [] }).cursorX = _ ∧
    (Server.trackCursor { d.server with damage := [] }).cursorY = _
  unfold Server.trackCursor
  split <;> exact ⟨rfl, rfl, rfl, rfl, rfl⟩

theorem picture_trackCursor (d : Desktop) (c row : ℤ) :
    picture screen font (d.call screen .trackCursor).server c row = picture screen font d.server c row := by
  obtain ⟨hw, hstack, hfocus, -⟩ := @trackCursor_windows screen d
  unfold picture
  rw [hstack]
  exact List.flatMap_congr fun id _ => Alike.paints (fun i => .inl (by rw [hw])) (by rw [hfocus])

/-- A state in which the operation can happen: the windows in use have sizes that were allowed, no slot holds
more than that, the titles fit their arrays, and a turn begins with the cursor where the last one left it. -/
structure Ready (screen : Screen) (d : Desktop) (op : Operation) : Prop where
  sized : ∀ i, Sized screen (d.server.windows i)
  bounded : ∀ i, Bounded screen (d.server.windows i)
  title : ∀ i, (d.server.windows i).title.length ≤ 47
  cursor : ∀ events h, op = .turn events h →
    d.server.lastCursorX = d.server.cursorX ∧ d.server.lastCursorY = d.server.cursorY

theorem Ready.fits {op : Operation} (h : Ready screen d op) (i : WindowSlot) : Fits screen (d.server.windows i) :=
  ⟨h.sized i, h.title i⟩

/-- A turn: what the events change is asked for on the way, what the cursor changes at the end. -/
theorem turn_dirties {events : List Call} {h : ∀ c ∈ events, inputEvent c = true}
    (hr : Ready screen d (.turn events h)) (hc : CarefulAll screen d (events ++ [.trackCursor])) {c row : ℤ}
    (hp : OnScreen screen c row) {before : Color}
    (hne : fullRepaint screen font ((Operation.turn events h).perform screen d).server before c row ≠
      fullRepaint screen font d.server before c row) :
    Dirties screen ((Operation.turn events h).perform screen d).dirty c row := by
  have htracked : Tracked screen font d (events.foldl (Desktop.call screen) d) :=
    tracked_events h hr.fits hr.bounded (carefulAll_append hc)
  have hperform : (Operation.turn events h).perform screen d =
      (events.foldl (Desktop.call screen) d).call screen .trackCursor := by
    unfold Operation.perform Operation.calls
    rw [List.foldl_append]
    rfl
  rw [hperform] at hne ⊢
  obtain ⟨hlastX, hlastY⟩ := htracked.lastCursor
  obtain ⟨hx, hy⟩ := hr.cursor events h rfl
  have hb := htracked.bounded hr.bounded
  rcases htracked.picture c row hp with hdirty | hpicture
  · exact tracked_trackCursor hb hp hdirty
  · refine trackCursor_dirties hp hb fun hsame => hne ?_
    obtain ⟨-, -, -, hcx, hcy⟩ := @trackCursor_windows screen (events.foldl (Desktop.call screen) d)
    refine fullRepaint_congr hp ((picture_trackCursor _ c row).trans hpicture) ?_ before
    rw [hcx, hcy, ← hsame, hlastX, hlastY, hx, hy]

end Operations

/-- After a careful operation the damage list covers every pixel that a repaint of the whole screen would give
another colour, whatever was in the list before. -/
theorem damage_complete (screen : Screen) (font : Font) {d : Desktop} {op : Operation} (hr : Ready screen d op)
    (hc : CarefulAll screen d op.calls) {c row : ℤ} (hp : OnScreen screen c row) {before : Color}
    (hne : fullRepaint screen font (op.perform screen d).server before c row ≠
      fullRepaint screen font d.server before c row) :
    Dirties screen (op.perform screen d).dirty c row := by
  cases op with
  | turn events h => exact turn_dirties hr hc hp hne
  | call e h =>
    have howed : Owed screen font { d.server with damage := [] } ({ d.server with damage := [] }.run screen e) :=
      Owed.run_call (s := { d.server with damage := [] }) hr.fits h hc.1
    have htracked : Tracked screen font d (d.call screen e) :=
      Owed.tracked (x := d.server.cursorX) (y := d.server.cursorY) hr.bounded howed
    obtain ⟨requests, -, hrepaired⟩ := howed
    obtain ⟨hx, hy⟩ := hrepaired.cursor
    have hx' : (d.call screen e).server.cursorX = d.server.cursorX := hx
    have hy' : (d.call screen e).server.cursorY = d.server.cursorY := hy
    refine (htracked.picture c row hp).resolve_right fun hpicture => hne ?_
    refine fullRepaint_congr hp hpicture ?_ before
    rw [hx', hy']

section Samples

def noFont : Font := fun _ => 0

/-- The desktop after its first frame. -/
def emptyDesktop : Desktop := (Desktop.init xga).composed

theorem emptyDesktop_ready (op : Operation) : Ready xga emptyDesktop op where
  sized i hu := absurd hu (by simp [emptyDesktop, Desktop.composed, Desktop.init, wmInit])
  bounded i := ⟨Int32.le_of_lt xga.width_pos, Int32.le_of_lt xga.height_pos⟩
  title i := Nat.zero_le _
  cursor _ _ _ := ⟨rfl, rfl⟩

/-- A window of 40 by 10 pixels with its decorations. -/
def openSmall : Operation := .call (.create 1 40 10 [] 0 true) rfl

theorem openSmall_careful : CarefulAll xga emptyDesktop openSmall.calls :=
  ⟨fun _ => ⟨by decide, by decide, fun _ _ i hi => absurd hi (by revert i; decide)⟩, trivial⟩

/-- A window of 10 by 100 pixels with its decorations. -/
def openNarrow : Operation := .call (.create 1 10 100 [] 0 true) rfl

/-- The title bar of a window that opens is asked for. -/
theorem damage_complete_openSmall : Dirties xga (openSmall.perform xga emptyDesktop).dirty 60 40 := by
  have hp : OnScreen xga 60 40 := by decide
  have hne : fullRepaint xga noFont (openSmall.perform xga emptyDesktop).server 0 60 40 ≠
      fullRepaint xga noFont emptyDesktop.server 0 60 40 := by
    rw [fullRepaint_eq hp, fullRepaint_eq hp]
    decide +kernel
  exact damage_complete xga noFont (emptyDesktop_ready openSmall) openSmall_careful hp hne

/-- The buttons of a narrow window are to the left of the rectangle that is asked for. -/
theorem damage_incomplete : ¬∀ (d : Desktop) (op : Operation), Ready xga d op → ∀ c row, OnScreen xga c row →
    ∀ before, fullRepaint xga noFont (op.perform xga d).server before c row ≠
      fullRepaint xga noFont d.server before c row → Dirties xga (op.perform xga d).dirty c row := by
  intro h
  have hp : OnScreen xga 30 45 := by decide
  have hne : fullRepaint xga noFont (openNarrow.perform xga emptyDesktop).server 0 30 45 ≠
      fullRepaint xga noFont emptyDesktop.server 0 30 45 := by
    rw [fullRepaint_eq hp, fullRepaint_eq hp]
    decide +kernel
  have hdirty : (openNarrow.perform xga emptyDesktop).dirty = ⟨[⟨55, 30, 20, 135⟩], false⟩ := by decide
  have hcovered := h emptyDesktop openNarrow (emptyDesktop_ready openNarrow) 30 45 hp 0 hne
  rw [hdirty] at hcovered
  rcases hcovered with hall | ⟨r, hr, hcov⟩
  · cases hall
  · obtain rfl := List.mem_singleton.mp hr
    have hleft : (trim xga.width 55 20).1.toInt ≤ 30 := hcov.1.1
    exact absurd hleft (by decide)

end Samples

end SifarOS.DamageCoverage
