import SifarOS.WindowGeometry

/-! # Messages to windows

What a call of the window server changes of a window besides its looks: whether the window exists
and shows, and which messages wait for its application. `M` picks the kinds of messages a result is
about; a call that sends none of these leaves them alone, whether or not the others find room. -/
namespace SifarOS.WindowMessages
open Graphics WindowServer WindowStacking WindowEdits WindowGeometry

/-- The messages of the kinds in `M` that wait in a window's queue, the oldest first. -/
def news (M : EventType → Bool) (w : Window) : List Event := (backlog w).filter (M ·.type)

section Windows
variable {M : EventType → Bool} {w w' w'' : Window} {s t u : Server}

theorem queueEvent_same (w : Window) (event : Event) :
    (w.queueEvent event).used = w.used ∧ (w.queueEvent event).id = w.id ∧
    (w.queueEvent event).owner = w.owner ∧ (w.queueEvent event).state = w.state ∧
    (w.queueEvent event).flags = w.flags := by
  unfold Window.queueEvent
  dsimp only
  split <;> exact ⟨rfl, rfl, rfl, rfl, rfl⟩

/-- A message of another kind is not news, and does not push any out. -/
theorem news_queueEvent_of_not {event : Event} (h : M event.type = false) :
    news M (w.queueEvent event) = news M w := by
  by_cases hf : Full w
  · rw [queueEvent_full hf]
  · simp [news, backlog_queueEvent hf, h]

/-- A message that finds room is the latest news. -/
theorem news_queueEvent {event : Event} (hf : ¬Full w) (h : M event.type = true) :
    news M (w.queueEvent event) = news M w ++ [{ event with window := w.id }] := by
  simp [news, backlog_queueEvent hf, h]

/-- A flag that the last message of the kinds in `M` decides, once the queue is drained: whether it is
the one that sets it. -/
def lastNews (M : EventType → Bool) (on : EventType) (w : Window) (flag : Bool) : Bool :=
  (news M w).foldl (fun _ event => decide (event.type = on)) flag

section Flag
variable (on : EventType) (flag : Bool)

theorem lastNews_congr (h : news M w' = news M w) : lastNews M on w' flag = lastNews M on w flag := by
  unfold lastNews
  rw [h]

theorem lastNews_empty (h : backlog w = []) : lastNews M on w flag = flag := by
  unfold lastNews news
  rw [h]
  rfl

theorem lastNews_queueEvent {event : Event} (hf : ¬Full w) (h : M event.type = true) :
    lastNews M on (w.queueEvent event) flag = decide (event.type = on) := by
  unfold lastNews
  rw [news_queueEvent hf h]
  simp

/-- The message a poll takes out counts as read. -/
theorem lastNews_poll (h : w.eventTail ≠ w.eventHead) :
    lastNews M on { w with eventTail := w.eventTail + 1 }
      (if M (w.events w.eventTail).type then decide ((w.events w.eventTail).type = on) else flag) =
    lastNews M on w flag := by
  unfold lastNews news
  rw [backlog_poll h, List.filter_cons]
  split <;> rfl

end Flag

/-- The window is the same window, shows or not as before, and waits for the same news. -/
structure QuietEdit (M : EventType → Bool) (w w' : Window) : Prop where
  used : w'.used = w.used
  id : w'.id = w.id
  state : w'.state = w.state
  news : news M w' = news M w

theorem QuietEdit.refl (w : Window) : QuietEdit M w w := ⟨rfl, rfl, rfl, rfl⟩

theorem QuietEdit.trans (h₁ : QuietEdit M w w') (h₂ : QuietEdit M w' w'') : QuietEdit M w w'' :=
  ⟨h₂.used.trans h₁.used, h₂.id.trans h₁.id, h₂.state.trans h₁.state, h₂.news.trans h₁.news⟩

theorem QuietEdit.queueEvent (w : Window) {event : Event} (h : M event.type = false) :
    QuietEdit M w (w.queueEvent event) := by
  obtain ⟨hu, hid, -, hs, -⟩ := queueEvent_same w event
  exact ⟨hu, hid, hs, news_queueEvent_of_not h⟩

/-- A call that leaves every window so. -/
def Quiet (M : EventType → Bool) (s t : Server) : Prop := ∀ i, QuietEdit M (s.windows i) (t.windows i)

namespace Quiet

theorem of_windows (h : t.windows = s.windows) : Quiet M s t := fun i => by
  rw [h]
  exact QuietEdit.refl _

theorem refl (s : Server) : Quiet M s s := of_windows rfl

theorem trans (h₁ : Quiet M s t) (h₂ : Quiet M t u) : Quiet M s u := fun i => (h₁ i).trans (h₂ i)

theorem setWindow {i : WindowSlot} (h : QuietEdit M (s.windows i) w) : Quiet M s (s.setWindow i w) := by
  intro j
  by_cases hj : j = i
  · subst hj
    rw [s.setWindow_windows_self]
    exact h
  · rw [s.setWindow_windows_ne w hj]
    exact QuietEdit.refl _

theorem queueEvent (i : WindowSlot) {event : Event} (h : M event.type = false) :
    Quiet M s (s.setWindow i ((s.windows i).queueEvent event)) :=
  setWindow (QuietEdit.queueEvent _ h)

/-- The same windows are found. -/
theorem find (h : Quiet M s t) (id : UInt32) : t.find id = s.find id := by
  unfold Server.find
  congr 1
  funext i
  rw [(h i).used, (h i).id]

theorem notify (id : UInt32) {type : EventType} (h : M type = false) : Quiet M s (s.notify id type) := by
  unfold Server.notify
  split
  · exact (queueEvent _ h).trans (of_windows rfl)
  · exact refl s

theorem setFocus (id : UInt32) (hb : M .blur = false) (hf : M .focus = false) : Quiet M s (s.setFocus id) := by
  unfold Server.setFocus
  split
  · exact refl s
  · have hleft : Quiet M s ((s.notify s.focusId .blur).focusOn id) := (notify _ hb).trans (of_windows rfl)
    exact hleft.trans (notify _ hf)

theorem moveTo (i : WindowSlot) (x y : Int32) : Quiet M s (s.moveTo i x y) := setWindow ⟨rfl, rfl, rfl, rfl⟩

theorem wmResizeWindow (screen : Screen) (owner : ℕ) (id : UInt32) (width height : Int32) (granted : Bool)
    (hM : M .resize = false) : Quiet M s (s.wmResizeWindow screen owner id width height granted).1 := by
  unfold Server.wmResizeWindow
  split
  · exact refl s
  · next i _ =>
    dsimp only
    repeat' split
    all_goals first
      | exact refl s
      | exact of_windows rfl
      | skip
    have hnew : QuietEdit M (s.windows i)
        { s.windows i with width := width, height := height, pixels := fun _ => 0 } := ⟨rfl, rfl, rfl, rfl⟩
    have hedit : QuietEdit M (s.windows i) (resized (s.windows i) width height) := hnew.trans (.queueEvent _ hM)
    exact (setWindow (s := s.damageWindow i) (i := i) hedit).trans (of_windows rfl)

theorem handleMouseMove (screen : Screen) (x y : Int32) (buttons : UInt32) (granted : Bool)
    (hr : M .resize = false) (hm : M .mouseMove = false) :
    Quiet M s (s.handleMouseMove screen x y buttons granted) := by
  unfold Server.handleMouseMove
  split
  · split
    · exact refl s
    · next i _ =>
      have hmoved : Quiet M (s.damageWindow i) _ := moveTo i (x - s.dragOffsetX)
        (Server.atLeast wmTitleHeight (y - s.dragOffsetY))
      exact hmoved.trans (of_windows rfl)
  · split
    · split
      · exact refl s
      · dsimp only
        split
        · exact wmResizeWindow screen _ _ _ _ granted hr
        · exact refl s
    · split
      · exact queueEvent _ hm
      · exact refl s

theorem handleMouseUp (x y button : Int32) (hr : M .resize = false) (hm : M .mouseUp = false) :
    Quiet M s (s.handleMouseUp x y button) := by
  unfold Server.handleMouseUp
  split
  · exact of_windows rfl
  · split
    · split
      · next i _ => exact queueEvent (s := { s with resizeId := 0 }) i hr
      · exact of_windows rfl
    · split
      · exact queueEvent _ hm
      · exact refl s

end Quiet

/-- The calls that neither move the focus nor open, close, hide or show a window, nor read its
queue. -/
def settled : Call → Bool
  | .invalidate .. | .setTitle .. | .move .. | .resize .. | .setFlags .. | .mouseUp .. | .mouseMove .. => true
  | .wheel .. | .key .. | .trackCursor | .draw .. => true
  | _ => false

/-- They send resize, mouse, wheel and key messages only. -/
theorem settled_quiet (screen : Screen) (s : Server) {c : Call} (hc : settled c = true) (hr : M .resize = false)
    (hu : ∀ x y button, c = .mouseUp x y button → M .mouseUp = false) (hm : M .mouseMove = false)
    (hw : M .wheel = false) (hk : M .key = false) : Quiet M s (s.run screen c) := by
  cases c with
  | invalidate owner id corner size =>
    simp only [Server.run, Server.wmInvalidate]
    repeat' split
    all_goals exact Quiet.of_windows rfl
  | setTitle owner id title =>
    simp only [Server.run, Server.wmSetTitle]
    repeat' split
    · exact Quiet.refl s
    · exact Quiet.refl s
    · next i _ _ =>
      have htitle : Quiet M s (s.setWindow i { s.windows i with title := title.take 47 }) :=
        Quiet.setWindow ⟨rfl, rfl, rfl, rfl⟩
      exact htitle.trans (Quiet.of_windows rfl)
  | move owner id x y =>
    simp only [Server.run, Server.wmMoveWindow]
    repeat' split
    · exact Quiet.refl s
    · exact Quiet.refl s
    · next i _ _ =>
      have hmoved : Quiet M (s.damageWindow i) _ := Quiet.moveTo i x y
      exact hmoved.trans (Quiet.of_windows rfl)
  | resize owner id width height granted => exact Quiet.wmResizeWindow screen owner id width height granted hr
  | setFlags owner id flags =>
    simp only [Server.run, Server.wmSetFlags]
    repeat' split
    · exact Quiet.refl s
    · exact Quiet.refl s
    · next i _ _ =>
      have hflags : Quiet M s (s.setFlags i flags) := Quiet.setWindow ⟨rfl, rfl, rfl, rfl⟩
      exact hflags.trans (Quiet.of_windows rfl)
  | mouseUp x y button => exact Quiet.handleMouseUp (s := { s with cursorX := x, cursorY := y }) x y button hr (hu x y button rfl)
  | mouseMove x y buttons granted =>
    exact Quiet.handleMouseMove (s := { s with cursorX := x, cursorY := y }) screen x y buttons granted hr hm
  | wheel x y wheel =>
    simp only [Server.run, Server.handleWheel]
    split
    · exact Quiet.queueEvent _ hw
    · exact Quiet.refl s
  | key key =>
    simp only [Server.run, Server.handleKey]
    split
    · exact Quiet.queueEvent _ hk
    · exact Quiet.refl s
  | trackCursor =>
    simp only [Server.run, Server.trackCursor]
    split <;> exact Quiet.of_windows rfl
  | draw i pixels =>
    have hdrawn : Quiet M s (s.draw i pixels) := Quiet.setWindow ⟨rfl, rfl, rfl, rfl⟩
    exact hdrawn
  | _ => cases hc

theorem settled_focus (screen : Screen) (s : Server) {c : Call} (hc : settled c = true) :
    (s.run screen c).focusId = s.focusId := by
  cases c with
  | mouseMove x y buttons granted =>
    simp only [Server.run, Server.handleMouseMove, Server.wmResizeWindow]
    repeat' split
    all_goals rfl
  | mouseUp x y button =>
    simp only [Server.run, Server.handleMouseUp]
    repeat' split
    all_goals rfl
  | resize owner id width height granted =>
    simp only [Server.run, Server.wmResizeWindow]
    repeat' split
    all_goals rfl
  | invalidate owner id corner size =>
    simp only [Server.run, Server.wmInvalidate]
    repeat' split
    all_goals rfl
  | setTitle owner id title =>
    simp only [Server.run, Server.wmSetTitle]
    repeat' split
    all_goals rfl
  | move owner id x y =>
    simp only [Server.run, Server.wmMoveWindow]
    repeat' split
    all_goals rfl
  | setFlags owner id flags =>
    simp only [Server.run, Server.wmSetFlags]
    repeat' split
    all_goals rfl
  | wheel x y wheel =>
    simp only [Server.run, Server.handleWheel]
    split <;> rfl
  | key key =>
    simp only [Server.run, Server.handleKey]
    split <;> rfl
  | trackCursor =>
    simp only [Server.run, Server.trackCursor]
    split <;> rfl
  | draw i pixels => rfl
  | _ => cases hc

@[simp] theorem notify_focusId (s : Server) (id : UInt32) (type : EventType) :
    (s.notify id type).focusId = s.focusId := by
  unfold Server.notify
  split <;> rfl

@[simp] theorem setFocus_focusId (s : Server) (id : UInt32) : (s.setFocus id).focusId = id := by
  unfold Server.setFocus
  split
  · assumption
  · simp [Server.focusOn]

/-! ## The ids of the windows -/

/-- No two windows in use share an id, and none has the id that stands for no window. -/
structure ProperIds (s : Server) : Prop where
  distinct : DistinctIds s
  nonzero : ∀ i, (s.windows i).used = true → (s.windows i).id ≠ 0

/-- A new window gets an id of its own: `next_id` has not come round to an id in use, nor to 0. -/
def FreshId (s : Server) (c : Call) : Prop :=
  creates c = true → s.nextId ≠ 0 ∧ ∀ i, (s.windows i).used = true → (s.windows i).id ≠ s.nextId

instance (s : Server) (c : Call) : Decidable (FreshId s c) := inferInstanceAs (Decidable (_ → _))

/-- A window that is there after a call was there before, unless the call has opened it. -/
theorem kept_or_created (screen : Screen) (s : Server) (c : Call) (hc : creates c = false) (i : WindowSlot)
    (hu : ((s.run screen c).windows i).used = true) :
    (s.windows i).used = true ∧ ((s.run screen c).windows i).id = (s.windows i).id := by
  have hE : Plain (fun w w' : Window => w'.used = true → w.used = true ∧ w'.id = w.id) := by
    refine ⟨fun {w w'} he hu => ?_⟩
    cases he with
    | queue event =>
      obtain ⟨hu', hid, -⟩ := queueEvent_same w event
      exact ⟨hu' ▸ hu, hid⟩
    | restyle => exact ⟨hu, rfl⟩
    | close => cases hu
  have hacts := run_acts_of hE screen s c (fun i width height _ _ _ hu => ?_) (fun i _ hu => ⟨hu, rfl⟩)
    fun hcreates => absurd (hc.symm.trans hcreates) (by simp)
  · exact hacts.lift (R := fun w w' : Window => w'.used = true → w.used = true ∧ w'.id = w.id)
      (fun w hu => ⟨hu, rfl⟩) (fun h₁ h₂ hu => ⟨(h₁ (h₂ hu).1).1, (h₂ hu).2.trans (h₁ (h₂ hu).1).2⟩) i hu
  · obtain ⟨hu', hid, -⟩ := queueEvent_same
      { s.windows i with width := width, height := height, pixels := fun _ => 0 }
      { type := .resize, width := width.toUInt32, height := height.toUInt32 }
    exact ⟨hu' ▸ hu, hid⟩

/-- `wm_create_window` opens at most one window, in a free slot. -/
theorem create_ids (screen : Screen) (s : Server) (owner : ℕ) (width height : Int32) (title : List UInt8)
    (flags : UInt32) (granted : Bool) : ∃ slot,
      ∀ i, (((s.wmCreateWindow screen owner width height title flags granted).1).windows i).used = true →
        (s.windows i).used = true ∧
          (((s.wmCreateWindow screen owner width height title flags granted).1).windows i).id = (s.windows i).id ∨
        i = slot ∧ (s.windows i).used = false ∧
          (((s.wmCreateWindow screen owner width height title flags granted).1).windows i).id = s.nextId := by
  unfold Server.wmCreateWindow
  split
  · exact ⟨0, fun i hu => .inl ⟨hu, rfl⟩⟩
  split
  · exact ⟨0, fun i hu => .inl ⟨hu, rfl⟩⟩
  split
  · exact ⟨0, fun i hu => .inl ⟨hu, rfl⟩⟩
  next slot hslot =>
    have hfree : (s.windows slot).used = false := by simpa using List.find?_some hslot
    have hone : ∀ (w : Window) (t : Server), w.id = s.nextId →
        Quiet (fun _ => false) ((s.countWindow flags).setWindow slot w) t → ∀ i, (t.windows i).used = true →
          (s.windows i).used = true ∧ (t.windows i).id = (s.windows i).id ∨
          i = slot ∧ (s.windows i).used = false ∧ (t.windows i).id = s.nextId := by
      intro w t hid ht i hu
      rw [(ht i).used] at hu
      rw [(ht i).id]
      by_cases hi : i = slot
      · subst hi
        rw [Server.setWindow_windows_self]
        exact .inr ⟨rfl, hfree, hid⟩
      · rw [Server.setWindow_windows_ne _ _ hi] at hu ⊢
        exact .inl ⟨hu, rfl⟩
    dsimp only
    split
    · exact ⟨slot, hone _ _ rfl (Quiet.refl _)⟩
    · refine ⟨slot, hone
        { id := s.nextId, used := true, owner := owner, flags := flags, title := title.take 47,
          x := (s.newPosition screen flags width height).1, y := (s.newPosition screen flags width height).2,
          width := width, height := height } _ rfl ?_⟩
      generalize hopened : (s.countWindow flags).setWindow slot _ = opened
      have hstacked : Quiet (fun _ => false) opened (opened.zInsert s.nextId flags) := Quiet.of_windows rfl
      split
      · exact hstacked.trans (Quiet.of_windows rfl)
      · exact (hstacked.trans (Quiet.setFocus s.nextId rfl rfl)).trans (Quiet.of_windows rfl)

theorem ProperIds.run {s : Server} (h : ProperIds s) (screen : Screen) {c : Call} (hc : FreshId s c) :
    ProperIds (s.run screen c) := by
  have hone : ∃ slot, ∀ i, ((s.run screen c).windows i).used = true →
      (s.windows i).used = true ∧ ((s.run screen c).windows i).id = (s.windows i).id ∨
      i = slot ∧ creates c = true ∧ ((s.run screen c).windows i).id = s.nextId := by
    by_cases hcr : creates c = true
    · cases c with
      | create owner width height title flags granted =>
        obtain ⟨slot, hslot⟩ := create_ids screen s owner width height title flags granted
        exact ⟨slot, fun i hu => (hslot i hu).imp (fun h => h) fun h => ⟨h.1, hcr, h.2.2⟩⟩
      | _ => cases hcr
    · exact ⟨0, fun i hu => .inl (kept_or_created screen s c (by simpa using hcr) i hu)⟩
  obtain ⟨slot, hslot⟩ := hone
  constructor
  · intro i j hi hj hid
    rcases hslot i hi with ⟨hui, hidi⟩ | ⟨rfl, hcr, hidi⟩ <;> rcases hslot j hj with ⟨huj, hidj⟩ | ⟨rfl, hcr', hidj⟩
    · exact h.distinct i j hui huj (by rw [← hidi, ← hidj, hid])
    · exact absurd (by rw [← hidi, hid, hidj]) ((hc hcr').2 i hui)
    · exact absurd (by rw [← hidj, ← hid, hidi]) ((hc hcr).2 j huj)
    · rfl
  · intro i hi
    rcases hslot i hi with ⟨hui, hidi⟩ | ⟨rfl, hcr, hidi⟩
    · rw [hidi]
      exact h.nonzero i hui
    · rw [hidi]
      exact (hc hcr).1

theorem properIds_wmInit (screen : Screen) : ProperIds (wmInit screen) := by
  constructor
  · intro i j hi
    cases hi
  · intro i hi
    cases hi

end Windows

end SifarOS.WindowMessages
