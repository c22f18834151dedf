import SifarOS.WindowFocus

/-! # What the applications hear of the focus

Every window of the toolkit (`user/lib/ui.c`) keeps a `focused` and a `mouse_down` flag, which
`ui_begin` sets from the messages it takes out of the window's queue. Here the server runs with all
its applications; the flags of a window are kept under its id. -/
namespace SifarOS.ClientFlags
open Graphics WindowServer WindowStacking WindowEdits WindowGeometry WindowMessages WindowFocus ReachableStates

/-- The two flags of `ui_window`, as `calloc` leaves them. -/
structure Flags where
  focused : Bool := false
  mouseDown : Bool := false
  deriving DecidableEq, Repr

/-- The switch of `ui_begin`. -/
def Flags.see (f : Flags) (event : Event) : Flags :=
  match event.type with
  | .mouseDown => { f with mouseDown := true }
  | .mouseUp => { f with mouseDown := false }
  | .focus => { f with focused := true }
  | .blur => { f with focused := false }
  | _ => f

structure Desktop where
  server : Server
  flags : UInt32 → Flags := fun _ => {}

/-- A call of the server. A poll is one turn of the loop of `ui_begin`, and `ui_window_open` has a
cleared structure ready before it asks for the window. -/
def Desktop.run (screen : Screen) (d : Desktop) (c : Call) : Desktop where
  server := d.server.run screen c
  flags := match c with
    | .poll owner id =>
      match (d.server.wmPollEvent owner id).2.2 with
      | some event => Function.update d.flags id ((d.flags id).see event)
      | none => d.flags
    | .create .. => Function.update d.flags d.server.nextId {}
    | _ => d.flags

/-! ## The queues a call writes to -/

/-- The window that `notify` puts a message in, if there is one. -/
def notified (s : Server) (id : UInt32) : List Window := (s.find id).toList.map s.windows

/-- The windows `set_focus` puts a message in, each as it is then. -/
def focusQueues (s : Server) (id : UInt32) : List Window :=
  if s.focusId = id then []
  else notified s s.focusId ++ notified ((s.notify s.focusId .blur).focusOn id) id

def refocusQueues (s : Server) : List Window :=
  match candidate s with
  | some id => focusQueues s id
  | none => []

def destroyQueues (s : Server) (owner : Option ℕ) (id : UInt32) : List Window :=
  match s.find id with
  | none => []
  | some i =>
    if owner.any (· ≠ (s.windows i).owner) then []
    else if s.focusId = id then refocusQueues ((removed s i id).focusOn 0) else []

def closeQueues (owner : ℕ) : Server → List WindowSlot → List Window
  | _, [] => []
  | s, i :: rest =>
    if (s.windows i).used ∧ (s.windows i).owner = owner then
      destroyQueues s (some owner) (s.windows i).id ++
        closeQueues owner (s.wmDestroyWindow (some owner) (s.windows i).id).1 rest
    else closeQueues owner s rest

/-- The state of `wm_create_window` when the new window is in the stack. -/
def opened (screen : Screen) (s : Server) (slot : WindowSlot) (owner : ℕ) (width height : Int32)
    (title : List UInt8) (flags : UInt32) : Server :=
  let position := s.newPosition screen flags width height
  ((s.countWindow flags).setWindow slot
    { id := s.nextId, used := true, owner := owner, flags := flags, title := title.take 47,
      x := position.1, y := position.2, width := width, height := height }).zInsert s.nextId flags

def createQueues (screen : Screen) (s : Server) (owner : ℕ) (width height : Int32) (title : List UInt8)
    (flags : UInt32) (granted : Bool) : List Window :=
  if width ≤ 0 ∨ height ≤ 0 then []
  else if width > screen.width ∨ height > screen.height then []
  else
    match (List.finRange 32).find? fun i => !(s.windows i).used with
    | none => []
    | some slot =>
      if granted = false ∨ has flags (guiBottom ||| guiTop) then []
      else focusQueues (opened screen s slot owner width height title flags) s.nextId

/-- The first part of `handle_mouse_down`: a window that is not of the bottom band is focused and raised. -/
def pressed (s : Server) (i : WindowSlot) : Server :=
  if has (s.windows i).flags guiBottom then s else (s.setFocus (s.windows i).id).raiseWindow i

/-- The point is on the close button of the window's title bar. -/
def onClose (w : Window) (x : Int32) : Prop :=
  x ≥ w.frameRect.x + w.frameRect.w - 24 ∧ x < w.frameRect.x + w.frameRect.w - 8

/-- The point is on the minimise button. -/
def onMinimize (w : Window) (x : Int32) : Prop :=
  x ≥ w.frameRect.x + w.frameRect.w - 44 ∧ x < w.frameRect.x + w.frameRect.w - 28

/-- The point is in the corner that resizes the window. -/
def onCorner (w : Window) (x y : Int32) : Prop :=
  has w.flags (guiFixed ||| guiNodecor) = false ∧ x ≥ w.x + w.width - 12 ∧ y ≥ w.y + w.height - 12

instance (w : Window) (x : Int32) : Decidable (onClose w x) := inferInstanceAs (Decidable (_ ∧ _))
instance (w : Window) (x : Int32) : Decidable (onMinimize w x) := inferInstanceAs (Decidable (_ ∧ _))
instance (w : Window) (x y : Int32) : Decidable (onCorner w x y) := inferInstanceAs (Decidable (_ ∧ _))

def mouseDownQueues (s : Server) (x y button : Int32) : List Window :=
  match s.windowAt x y with
  | none => focusQueues s 0
  | some (i, hitTitle) =>
    let w := (pressed s i).windows i
    (if has (s.windows i).flags guiBottom then [] else focusQueues s (s.windows i).id) ++
      if hitTitle ∧ button = mouseLeft then (if onClose w x then [w] else [])
      else if onCorner w x y then [] else [w]

def mouseUpQueues (s : Server) (x y : Int32) : List Window :=
  if s.dragId ≠ 0 then []
  else if s.resizeId ≠ 0 then notified s s.resizeId
  else (s.windowAt x y).toList.map fun p => s.windows p.1

def resizeQueues (screen : Screen) (s : Server) (owner : ℕ) (id : UInt32) (width height : Int32) (granted : Bool) :
    List Window :=
  match s.find id with
  | none => []
  | some i =>
    let w := s.windows i
    if w.owner ≠ owner ∨ width ≤ 0 ∨ height ≤ 0 ∨ width > screen.width ∨ height > screen.height ∨
      (width = w.width ∧ height = w.height) ∨ granted = false then []
    else [w]

def mouseMoveQueues (screen : Screen) (s : Server) (x y : Int32) (granted : Bool) : List Window :=
  if s.dragId ≠ 0 then []
  else if s.resizeId ≠ 0 then
    match s.find s.resizeId with
    | none => []
    | some i =>
      resizeQueues screen s (s.windows i).owner (s.windows i).id
        (Server.atLeast 160 (s.resizeStartW + (x - s.resizeStartX)))
        (Server.atLeast 100 (s.resizeStartH + (y - s.resizeStartY))) granted
  else (s.windowAt x y).toList.map fun p => s.windows p.1

/-- The windows a call puts a message in with `queue_event`, in order and each as it is then. -/
def queued (screen : Screen) (s : Server) : Call → List Window
  | .create owner width height title flags granted => createQueues screen s owner width height title flags granted
  | .destroy owner id => destroyQueues s owner id
  | .closeProcess owner => closeQueues owner s (List.finRange 32)
  | .resize owner id width height granted => resizeQueues screen s owner id width height granted
  | .activate id =>
    match s.find id with
    | none => []
    | some i => focusQueues ((s.setState i .normal).raiseWindow i) id
  | .mouseDown x y button => mouseDownQueues { s with cursorX := x, cursorY := y } x y button
  | .mouseUp x y _ => mouseUpQueues { s with cursorX := x, cursorY := y } x y
  | .mouseMove x y _ granted => mouseMoveQueues screen { s with cursorX := x, cursorY := y } x y granted
  | .wheel x y _ => (s.windowAt x y).toList.map fun p => s.windows p.1
  | .key _ => notified s s.focusId
  | _ => []

/-- No queue overflows in the call. -/
def Roomy (screen : Screen) (s : Server) (c : Call) : Prop := ∀ w ∈ queued screen s c, ¬Full w

instance (screen : Screen) (s : Server) (c : Call) : Decidable (Roomy screen s c) := List.decidableBAll _ _

/-! ## The focus messages -/

/-- The messages that bear on the focus. -/
def focusNews : EventType → Bool
  | .focus | .blur => true
  | _ => false

/-- What the flag will be once the queue is drained. -/
def heard (w : Window) (focused : Bool) : Bool := lastNews focusNews .focus w focused

theorem see_focused (f : Flags) (event : Event) :
    (f.see event).focused = if focusNews event.type then decide (event.type = .focus) else f.focused := by
  unfold Flags.see
  cases event.type <;> rfl

/-- Every application will have heard who has the focus, and it is nobody or a window. -/
structure Told (flags : UInt32 → Flags) (s : Server) : Prop where
  ids : ProperIds s
  named : s.focusId = 0 ∨ ∃ i, (s.windows i).used = true ∧ (s.windows i).id = s.focusId
  heard : ∀ i, (s.windows i).used = true →
    (heard (s.windows i) (flags (s.windows i).id).focused = true ↔ s.focusId = (s.windows i).id)

section Focus
variable {flags : UInt32 → Flags} {s t : Server} {id : UInt32}

theorem ProperIds.congr (h : ProperIds s) (hu : ∀ i, (t.windows i).used = (s.windows i).used)
    (hid : ∀ i, (t.windows i).id = (s.windows i).id) : ProperIds t := by
  constructor
  · intro i j hi hj hij
    rw [hu] at hi hj
    rw [hid, hid] at hij
    exact h.distinct i j hi hj hij
  · intro i hi
    rw [hu] at hi
    rw [hid]
    exact h.nonzero i hi

/-- The windows, the focus and the focus messages are the same. -/
theorem Told.congr (h : Told flags s) (hu : ∀ i, (t.windows i).used = (s.windows i).used)
    (hid : ∀ i, (t.windows i).id = (s.windows i).id)
    (hn : ∀ i, news focusNews (t.windows i) = news focusNews (s.windows i)) (hf : t.focusId = s.focusId) :
    Told flags t := by
  refine ⟨ProperIds.congr h.ids hu hid, ?_, fun i hi => ?_⟩
  · simp only [hf, hu, hid]
    exact h.named
  · rw [hu] at hi
    rw [ClientFlags.heard, lastNews_congr _ _ (hn i), hid, hf]
    exact h.heard i hi

theorem Told.quiet (h : Told flags s) (hq : Quiet focusNews s t) (hf : t.focusId = s.focusId) : Told flags t :=
  h.congr (fun i => (hq i).used) (fun i => (hq i).id) (fun i => (hq i).news) hf

theorem Told.setState (h : Told flags s) (i : WindowSlot) (state : WindowState) : Told flags (s.setState i state) := by
  have hwin : ∀ j, ((s.setState i state).windows j).used = (s.windows j).used ∧
      ((s.setState i state).windows j).id = (s.windows j).id ∧
      news focusNews ((s.setState i state).windows j) = news focusNews (s.windows j) := by
    intro j
    unfold Server.setState
    by_cases hj : j = i
    · subst hj
      rw [Server.setWindow_windows_self]
      exact ⟨rfl, rfl, rfl⟩
    · rw [Server.setWindow_windows_ne _ _ hj]
      exact ⟨rfl, rfl, rfl⟩
  exact h.congr (fun j => (hwin j).1) (fun j => (hwin j).2.1) (fun j => (hwin j).2.2) rfl

theorem notify_window (s : Server) (id : UInt32) (type : EventType) (i : WindowSlot) :
    (s.notify id type).windows i = if s.find id = some i then (s.windows i).sendSimple type else s.windows i := by
  unfold Server.notify
  split
  · next j hj =>
    by_cases hi : i = j
    · subst hi
      rw [if_pos hj]
      exact Server.setWindow_windows_self s i _
    · rw [if_neg fun he => hi (Option.some.inj (he.symm.trans hj))]
      exact Server.setWindow_windows_ne s _ hi
  · next hnone => simp [hnone]

theorem mem_notified {i : WindowSlot} (h : s.find id = some i) : s.windows i ∈ notified s id := by
  simp [notified, h]

/-- When both messages of `set_focus` find room, the applications hear of the change. -/
theorem Told.setFocus (h : Told flags s) (hid : id = 0 ∨ ∃ i, (s.windows i).used = true ∧ (s.windows i).id = id)
    (hroom : ∀ w ∈ focusQueues s id, ¬Full w) : Told flags (s.setFocus id) := by
  have hquiet : Quiet nothing s (s.setFocus id) := Quiet.setFocus id rfl rfl
  refine ⟨ProperIds.congr h.ids (fun i => (hquiet i).used) (fun i => (hquiet i).id), ?_, fun i hi => ?_⟩
  · simp only [setFocus_focusId, (hquiet _).used, (hquiet _).id]
    exact hid
  rw [(hquiet i).used] at hi
  rw [(hquiet i).id, setFocus_focusId]
  unfold focusQueues at hroom
  unfold Server.setFocus
  by_cases hsame : s.focusId = id
  · rw [if_pos hsame]
    exact hsame ▸ h.heard i hi
  rw [if_neg hsame] at hroom ⊢
  have hfind : ((s.notify s.focusId .blur).focusOn id).find id = s.find id :=
    (Quiet.notify (M := nothing) (s := s) s.focusId rfl).find id
  have hleft : ((s.notify s.focusId .blur).focusOn id).windows i =
      if s.find s.focusId = some i then (s.windows i).sendSimple .blur else s.windows i :=
    notify_window s s.focusId .blur i
  rw [notify_window]
  by_cases hnew : (s.windows i).id = id
  · -- the window that gets the focus
    have hat : ((s.notify s.focusId .blur).focusOn id).find id = some i := by
      rw [hfind, ← hnew]
      exact h.ids.distinct.find hi
    rw [if_pos hat, ClientFlags.heard, Window.sendSimple,
      lastNews_queueEvent _ _ (hroom _ (List.mem_append_right _ (mem_notified hat))) rfl]
    simp [hnew]
  · have hnot : ((s.notify s.focusId .blur).focusOn id).find id ≠ some i := by
      rw [hfind]
      exact fun he => hnew (find_some he).2
    rw [if_neg hnot, hleft]
    by_cases hold : (s.windows i).id = s.focusId
    · -- the window that loses it
      have hat : s.find s.focusId = some i := by
        rw [← hold]
        exact h.ids.distinct.find hi
      rw [if_pos hat, ClientFlags.heard, Window.sendSimple,
        lastNews_queueEvent _ _ (hroom _ (List.mem_append_left _ (mem_notified hat))) rfl]
      simp [Ne.symm hnew]
    · rw [if_neg fun he => hold (find_some he).2, h.heard i hi]
      simp [Ne.symm hold, Ne.symm hnew]

/-- A window that goes takes its focus with it. -/
theorem Told.removed (h : Told flags s) {i : WindowSlot} (hi : s.find id = some i) :
    Told flags ((removed s i id).focusOn (if s.focusId = id then 0 else s.focusId)) := by
  obtain ⟨hiu, hid⟩ := find_some hi
  have hkept : ∀ j, j ≠ i → (WindowFocus.removed s i id).windows j = s.windows j := fun j hj =>
    Server.setWindow_windows_ne _ _ hj
  have hne : ∀ j, ((WindowFocus.removed s i id).windows j).used = true → j ≠ i := by
    rintro j hj rfl
    rw [WindowFocus.removed, Server.setWindow_windows_self] at hj
    cases hj
  refine ⟨⟨fun j k hj hk hjk => ?_, fun j hj => ?_⟩, ?_, fun j hj => ?_⟩
  · have hj' := hne j hj
    have hk' := hne k hk
    simp only [Server.focusOn, hkept j hj', hkept k hk'] at hj hk hjk
    exact h.ids.distinct j k hj hk hjk
  · have hj' := hne j hj
    simp only [Server.focusOn, hkept j hj'] at hj ⊢
    exact h.ids.nonzero j hj
  · dsimp only [Server.focusOn]
    split
    · exact Or.inl rfl
    · next hother =>
      rcases h.named with hzero | ⟨j, hju, hjid⟩
      · exact Or.inl hzero
      · have hji : j ≠ i := by
          rintro rfl
          exact hother (hjid.symm.trans hid)
        refine Or.inr ⟨j, ?_⟩
        rw [hkept j hji]
        exact ⟨hju, hjid⟩
  · have hji := hne j hj
    simp only [Server.focusOn, hkept j hji] at hj ⊢
    have hidne : (s.windows j).id ≠ id := fun he => hji (h.ids.distinct j i hj hiu (he.trans hid.symm))
    rw [h.heard j hj]
    split
    · next hfocus => simp [hfocus, Ne.symm hidne, Ne.symm (h.ids.nonzero j hj)]
    · rfl

theorem candidate_used {other : UInt32} (h : candidate s = some other) :
    ∃ i, (s.windows i).used = true ∧ (s.windows i).id = other := by
  obtain ⟨a, -, ha⟩ := List.exists_of_findSome?_eq_some h
  cases hf : s.find a with
  | none => simp [hf] at ha
  | some i =>
    simp only [hf] at ha
    split at ha
    · cases ha
    · exact ⟨i, (find_some hf).1, Option.some.inj ha⟩

theorem Told.wmDestroyWindow (h : Told flags s) {owner : Option ℕ}
    (hroom : ∀ w ∈ destroyQueues s owner id, ¬Full w) : Told flags (s.wmDestroyWindow owner id).1 := by
  unfold Server.wmDestroyWindow
  unfold destroyQueues at hroom
  split
  · exact h
  · next i hi =>
    simp only [hi] at hroom
    have hgone := h.removed hi
    dsimp only
    split
    · exact h
    · next howner =>
      rw [if_neg howner] at hroom
      split
      · next hfocus =>
        have hfocus' : s.focusId = id := hfocus
        rw [if_pos hfocus'] at hroom hgone
        change Told flags ((WindowFocus.removed s i id).focusOn 0).refocus
        rw [refocus_eq]
        unfold refocusQueues at hroom
        cases hc : candidate ((WindowFocus.removed s i id).focusOn 0) with
        | none => exact hgone
        | some other =>
          simp only [hc] at hroom
          exact hgone.setFocus (Or.inr (candidate_used hc)) hroom
      · next hother =>
        have hother' : s.focusId ≠ id := hother
        rw [if_neg hother'] at hgone
        exact hgone

theorem Told.closeAll (h : Told flags s) (owner : ℕ) {slots : List WindowSlot}
    (hroom : ∀ w ∈ closeQueues owner s slots, ¬Full w) :
    Told flags (slots.foldl (fun s i =>
      if (s.windows i).used ∧ (s.windows i).owner = owner then (s.wmDestroyWindow (some owner) (s.windows i).id).1
      else s) s) := by
  induction slots generalizing s with
  | nil => exact h
  | cons i rest ih =>
    rw [List.foldl_cons]
    unfold closeQueues at hroom
    by_cases hmine : (s.windows i).used ∧ (s.windows i).owner = owner
    · rw [if_pos hmine] at hroom ⊢
      exact ih (h.wmDestroyWindow fun w hw => hroom w (List.mem_append_left _ hw))
        fun w hw => hroom w (List.mem_append_right _ hw)
    · rw [if_neg hmine] at hroom ⊢
      exact ih h hroom

/-- A new window, before the focus is looked at: its queue is empty and its flag is clear. -/
theorem Told.opened (h : Told flags s) {slot : WindowSlot} {w : Window} (style : UInt32)
    (hfree : (s.windows slot).used = false) (hid : w.id = s.nextId) (hempty : backlog w = [])
    (hfresh : s.nextId ≠ 0 ∧ ∀ i, (s.windows i).used = true → (s.windows i).id ≠ s.nextId) :
    Told (Function.update flags s.nextId {}) ((s.countWindow style).setWindow slot w) := by
  have hself : ((s.countWindow style).setWindow slot w).windows slot = w := Server.setWindow_windows_self _ _ _
  have hkept : ∀ i, i ≠ slot → ((s.countWindow style).setWindow slot w).windows i = s.windows i := fun i hi =>
    Server.setWindow_windows_ne _ _ hi
  have hfocus : s.focusId ≠ s.nextId := by
    rcases h.named with h0 | ⟨i, hi, hidi⟩
    · exact h0 ▸ Ne.symm hfresh.1
    · exact hidi ▸ hfresh.2 i hi
  refine ⟨⟨fun i j hi hj hij => ?_, fun i hi => ?_⟩, ?_, fun i hi => ?_⟩
  · by_cases hi' : i = slot <;> by_cases hj' : j = slot
    · exact hi'.trans hj'.symm
    · subst hi'
      rw [hself, hkept j hj', hid] at hij
      exact absurd hij.symm (hfresh.2 j (hkept j hj' ▸ hj))
    · subst hj'
      rw [hself, hkept i hi', hid] at hij
      exact absurd hij (hfresh.2 i (hkept i hi' ▸ hi))
    · rw [hkept i hi'] at hi hij
      rw [hkept j hj'] at hj hij
      exact h.ids.distinct i j hi hj hij
  · by_cases hi' : i = slot
    · subst hi'
      rw [hself, hid]
      exact hfresh.1
    · rw [hkept i hi'] at hi ⊢
      exact h.ids.nonzero i hi
  · refine h.named.imp (fun h0 => h0) fun ⟨i, hi, hidi⟩ => ⟨i, ?_⟩
    have hi' : i ≠ slot := by
      rintro rfl
      exact absurd (hfree.symm.trans hi) (by simp)
    rw [hkept i hi']
    exact ⟨hi, hidi⟩
  · change _ ↔ s.focusId = _
    by_cases hi' : i = slot
    · subst hi'
      rw [hself, hid]
      simp [ClientFlags.heard, lastNews_empty _ _ hempty, hfocus]
    · rw [hkept i hi'] at hi ⊢
      rw [Function.update_of_ne (hfresh.2 i hi)]
      exact h.heard i hi

theorem Told.clear (h : Told flags s)
    (hfresh : ∀ i, (s.windows i).used = true → (s.windows i).id ≠ id) : Told (Function.update flags id {}) s := by
  refine ⟨h.ids, h.named, fun i hi => ?_⟩
  rw [Function.update_of_ne (hfresh i hi)]
  exact h.heard i hi

theorem Told.wmCreateWindow (h : Told flags s) {screen : Screen} {owner : ℕ} {width height : Int32}
    {title : List UInt8} {style : UInt32} {granted : Bool}
    (hfresh : s.nextId ≠ 0 ∧ ∀ i, (s.windows i).used = true → (s.windows i).id ≠ s.nextId)
    (hroom : ∀ w ∈ createQueues screen s owner width height title style granted, ¬Full w) :
    Told (Function.update flags s.nextId {}) (s.wmCreateWindow screen owner width height title style granted).1 := by
  unfold Server.wmCreateWindow
  unfold createQueues at hroom
  by_cases hpos : width ≤ 0 ∨ height ≤ 0
  · rw [if_pos hpos]
    exact h.clear hfresh.2
  rw [if_neg hpos] at hroom ⊢
  by_cases hfit : width > screen.width ∨ height > screen.height
  · rw [if_pos hfit]
    exact h.clear hfresh.2
  rw [if_neg hfit] at hroom ⊢
  split
  · exact h.clear hfresh.2
  next slot hslot =>
    have hfree : (s.windows slot).used = false := by simpa using List.find?_some hslot
    simp only [hslot] at hroom
    dsimp only
    split
    · exact h.opened style hfree rfl (backlog_empty rfl) hfresh
    · next hgranted =>
      have hstacked : Told (Function.update flags s.nextId {})
          (ClientFlags.opened screen s slot owner width height title style) :=
        (h.opened style hfree rfl (backlog_empty rfl) hfresh).quiet (Quiet.of_windows rfl) rfl
      split
      · exact hstacked.quiet (Quiet.of_windows rfl) rfl
      · next hmiddle =>
        rw [if_neg (by simp [hgranted, hmiddle])] at hroom
        have hfocused := hstacked.setFocus (Or.inr ⟨slot, by simp [ClientFlags.opened, zInsert_windows]⟩) hroom
        exact hfocused.quiet (Quiet.of_windows rfl) rfl

theorem Told.wmMinimize (h : Told flags s)
    (hc : ¬(s.focusId = id ∧ ∃ i, s.find id = some i ∧ (s.windows i).state ≠ .minimized)) :
    Told flags (s.wmMinimize id).1 := by
  unfold Server.wmMinimize
  split
  · exact h
  · next i hi =>
    have hset : ∀ state, Told flags ((s.damageWindow i).setState i state) := fun state =>
      Told.setState (s := s.damageWindow i) (h.quiet (Quiet.of_windows rfl) rfl) i state
    dsimp only
    split
    · exact (hset .normal).quiet (Quiet.of_windows rfl) rfl
    · next hshown =>
      have hother : ((s.damageWindow i).setState i .minimized).focusId ≠ id := fun hf => hc ⟨hf, i, hi, hshown⟩
      rw [if_neg hother]
      exact (hset .minimized).quiet (Quiet.of_windows rfl) rfl

theorem Told.wmActivate (h : Told flags s)
    (hroom : ∀ i, s.find id = some i → ∀ w ∈ focusQueues ((s.setState i .normal).raiseWindow i) id, ¬Full w) :
    Told flags (s.wmActivate id).1 := by
  unfold Server.wmActivate
  split
  · exact h
  · next i hi =>
    obtain ⟨hu, hid⟩ := find_some hi
    have hraised : Told flags ((s.setState i .normal).raiseWindow i) :=
      (h.setState i .normal).quiet (Quiet.of_windows rfl) rfl
    refine hraised.setFocus (Or.inr ⟨i, ?_⟩) (hroom i hi)
    have hwin : ((s.setState i .normal).raiseWindow i).windows i = { s.windows i with state := .normal } :=
      Server.setWindow_windows_self s i _
    rw [hwin]
    exact ⟨hu, hid⟩

theorem setFocus_frameRect (s : Server) (id : UInt32) (i : WindowSlot) :
    ((s.setFocus id).windows i).frameRect = (s.windows i).frameRect := by
  have hsend : ∀ (w : Window) (type : EventType), (w.sendSimple type).frameRect = w.frameRect := by
    intro w type
    unfold Window.sendSimple Window.queueEvent
    dsimp only
    split <;> rfl
  have hnotify : ∀ (s : Server) (id : UInt32) (type : EventType),
      ((s.notify id type).windows i).frameRect = (s.windows i).frameRect := by
    intro s id type
    rw [notify_window]
    split
    · exact hsend _ type
    · rfl
  unfold Server.setFocus
  split
  · rfl
  · rw [hnotify]
    exact hnotify s s.focusId .blur

theorem pressed_frameRect (s : Server) (i : WindowSlot) :
    ((pressed s i).windows i).frameRect = (s.windows i).frameRect := by
  unfold pressed
  split
  · rfl
  · exact setFocus_frameRect s _ i

/-- The call minimises the window that has the focus, or has just got it by the press itself. -/
def HidesFocused (s : Server) : Call → Prop
  | .minimize id => s.focusId = id ∧ ∃ i, s.find id = some i ∧ (s.windows i).state ≠ .minimized
  | .mouseDown x y button => ∃ i, s.windowAt x y = some (i, true) ∧ button = mouseLeft ∧
      ¬onClose (s.windows i) x ∧ onMinimize (s.windows i) x ∧
      (has (s.windows i).flags guiBottom = true → s.focusId = (s.windows i).id)
  | _ => False

instance (s : Server) (c : Call) : Decidable (HidesFocused s c) := by
  cases c <;> unfold HidesFocused <;> infer_instance

theorem Told.handleMouseDown (h : Told flags s) {x y button : Int32}
    (hroom : ∀ w ∈ mouseDownQueues s x y button, ¬Full w) (hc : ¬HidesFocused s (.mouseDown x y button)) :
    Told flags (s.handleMouseDown x y button) := by
  unfold Server.handleMouseDown
  unfold mouseDownQueues at hroom
  split
  · next hnone =>
    simp only [hnone] at hroom
    exact h.setFocus (Or.inl rfl) hroom
  · next i hit hat =>
    simp only [hat] at hroom
    obtain ⟨hu, hshown⟩ := windowAt_shown hat
    have hpressed : Told flags (pressed s i) := by
      unfold pressed
      split
      · exact h
      · next hmiddle =>
        rw [if_neg hmiddle] at hroom
        have hfocused := h.setFocus (Or.inr ⟨i, hu, rfl⟩) fun w hw => hroom w (List.mem_append_left _ hw)
        exact hfocused.quiet (Quiet.of_windows rfl) rfl
    change Told flags (if hit = true ∧ button = mouseLeft then
        if onClose ((pressed s i).windows i) x then (pressed s i).sendSimple i .close
        else if onMinimize ((pressed s i).windows i) x then ((pressed s i).wmMinimize ((pressed s i).windows i).id).1
        else { pressed s i with dragId := ((pressed s i).windows i).id
                                dragOffsetX := x - ((pressed s i).windows i).x
                                dragOffsetY := y - ((pressed s i).windows i).y }
      else if onCorner ((pressed s i).windows i) x y then
        { pressed s i with resizeId := ((pressed s i).windows i).id, resizeStartX := x, resizeStartY := y
                           resizeStartW := ((pressed s i).windows i).width
                           resizeStartH := ((pressed s i).windows i).height }
      else (pressed s i).setWindow i
        (((pressed s i).windows i).deliverMouse .mouseDown x y button.toUInt32 button 0))
    split
    · next htitle =>
      split
      · exact hpressed.quiet (Quiet.queueEvent i rfl) rfl
      · next hclose =>
        split
        · next hmin =>
          apply hpressed.wmMinimize
          rintro ⟨hfocus, -⟩
          refine hc ⟨i, ?_, htitle.2, ?_, ?_, fun hbottom => ?_⟩
          · rw [← htitle.1]
            exact hat
          · unfold onClose at hclose ⊢
            rwa [pressed_frameRect] at hclose
          · unfold onMinimize at hmin ⊢
            rwa [pressed_frameRect] at hmin
          · have hsame : pressed s i = s := if_pos hbottom
            rwa [hsame] at hfocus
        · exact hpressed.quiet (Quiet.of_windows rfl) rfl
    · split
      · exact hpressed.quiet (Quiet.of_windows rfl) rfl
      · exact hpressed.quiet (Quiet.queueEvent i rfl) rfl

end Focus

/-- One turn of the loop of `ui_begin` moves one message out of a queue and into a flag, and neither
changes what the flag will be once the queue is drained. -/
theorem poll_kept {M : EventType → Bool} {on : EventType} {get : Flags → Bool}
    (hsee : ∀ f event, get (Flags.see f event) = if M event.type then decide (event.type = on) else get f)
    {d : Desktop} (hids : DistinctIds d.server) (screen : Screen) (owner : ℕ) (id : UInt32) :
    (d.run screen (.poll owner id)).server.focusId = d.server.focusId ∧
    ∀ i, ((d.run screen (.poll owner id)).server.windows i).used = (d.server.windows i).used ∧
      ((d.run screen (.poll owner id)).server.windows i).id = (d.server.windows i).id ∧
      ((d.server.windows i).used = true →
        lastNews M on ((d.run screen (.poll owner id)).server.windows i)
          (get ((d.run screen (.poll owner id)).flags (d.server.windows i).id)) =
        lastNews M on (d.server.windows i) (get (d.flags (d.server.windows i).id))) := by
  simp only [Desktop.run, Server.run, Server.wmPollEvent]
  cases hi : d.server.find id with
  | none => exact ⟨rfl, fun i => ⟨rfl, rfl, fun _ => rfl⟩⟩
  | some i =>
    obtain ⟨hu, rfl⟩ := find_some hi
    dsimp only
    by_cases howner : (d.server.windows i).owner ≠ owner
    · simp [if_pos howner]
    simp only [if_neg howner]
    by_cases hne : (d.server.windows i).eventTail = (d.server.windows i).eventHead
    · simp [if_pos hne]
    simp only [if_neg hne]
    refine ⟨rfl, fun j => ?_⟩
    by_cases hji : j = i
    · subst hji
      rw [Server.setWindow_windows_self]
      refine ⟨rfl, rfl, fun _ => ?_⟩
      rw [Function.update_self, hsee, lastNews_poll _ _ hne]
    · rw [Server.setWindow_windows_ne _ _ hji]
      refine ⟨rfl, rfl, fun hj => ?_⟩
      rw [Function.update_of_ne fun he => hji (hids j i hj hu he)]

/-- One call leaves every application informed when its messages find room, it hides no focused
window, and a new window gets an id of its own. -/
theorem Told.run {d : Desktop} (h : Told d.flags d.server) (screen : Screen) {c : Call}
    (hroom : Roomy screen d.server c) (hfresh : FreshId d.server c) (hc : ¬HidesFocused d.server c) :
    Told (d.run screen c).flags (d.run screen c).server := by
  by_cases hs : settled c = true
  · have hflags : (d.run screen c).flags = d.flags := by
      revert hs
      cases c <;> simp [settled, Desktop.run]
    rw [hflags]
    exact h.quiet (settled_quiet screen d.server hs rfl (fun _ _ _ _ => rfl) rfl rfl rfl) (settled_focus screen d.server hs)
  cases c with
  | create owner width height title flags granted => exact h.wmCreateWindow (hfresh rfl) hroom
  | destroy owner id => exact h.wmDestroyWindow hroom
  | closeProcess owner => exact h.closeAll owner hroom
  | poll owner id =>
    obtain ⟨hfocus, hkept⟩ := poll_kept see_focused h.ids.distinct screen owner id
    refine ⟨ProperIds.congr h.ids (fun i => (hkept i).1) (fun i => (hkept i).2.1), ?_, fun i hi => ?_⟩
    · simp only [hfocus, (hkept _).1, (hkept _).2.1]
      exact h.named
    · rw [(hkept i).1] at hi
      rw [(hkept i).2.1, hfocus, ClientFlags.heard, (hkept i).2.2 hi]
      exact h.heard i hi
  | activate id =>
    refine h.wmActivate fun i hi w hw => hroom w ?_
    simp only [queued, hi]
    exact hw
  | minimize id => exact h.wmMinimize hc
  | mouseDown x y button =>
    exact Told.handleMouseDown (s := { d.server with cursorX := x, cursorY := y })
      (h.quiet (Quiet.of_windows rfl) rfl) hroom hc
  | _ => exact absurd rfl hs

/-- The desktop after `wm_init`, before any application. -/
def boot (screen : Screen) : Desktop := { server := wmInit screen }

theorem told_boot (screen : Screen) : Told (boot screen).flags (boot screen).server where
  ids := properIds_wmInit screen
  named := Or.inl rfl
  heard := fun _ hi => by cases hi

/-- In every run in which no queue overflows, no focused window is minimised and the window ids stay
distinct, the flag of a window whose queue is drained says whether the window has the focus. -/
theorem focused_agrees (screen : Screen) {d : Desktop}
    (h : Reachable (· = boot screen) (fun d e => ∃ c, Roomy screen d.server c ∧ FreshId d.server c ∧
      ¬HidesFocused d.server c ∧ e = d.run screen c) d)
    {i : WindowSlot} (hu : (d.server.windows i).used = true)
    (hdrained : (d.server.windows i).eventTail = (d.server.windows i).eventHead) :
    (d.flags (d.server.windows i).id).focused = true ↔ d.server.focusId = (d.server.windows i).id := by
  have htold : Told d.flags d.server := by
    refine h.invariant (P := fun d => Told d.flags d.server) ?_ ?_
    · rintro d rfl
      exact told_boot screen
    · rintro d e hd ⟨c, hroom, hfresh, hc, rfl⟩
      exact hd.run screen hroom hfresh hc
  rw [← htold.heard i hu, heard, lastNews_empty _ _ (backlog_empty hdrained)]

/-- A call as in `focused_agrees`. -/
def informedNext (screen : Screen) (d : Desktop) (c : Call) : Option Desktop :=
  if Roomy screen d.server c ∧ FreshId d.server c ∧ ¬HidesFocused d.server c then some (d.run screen c) else none

theorem informedNext_step (screen : Screen) (d : Desktop) (c : Call) (e : Desktop)
    (h : informedNext screen d c = some e) :
    ∃ c, Roomy screen d.server c ∧ FreshId d.server c ∧ ¬HidesFocused d.server c ∧ e = d.run screen c := by
  unfold informedNext at h
  split at h
  · next hc => exact ⟨c, hc.1, hc.2.1, hc.2.2, (Option.some.inj h).symm⟩
  · cases h

/-- A second window is opened and the first application drains its queue. -/
def secondWindow : List Call :=
  [.create 1 200 100 [] 0 true, .create 2 200 100 [] 0 true, .poll 1 1, .poll 1 1]

/-- The first application knows that it has lost the focus. -/
theorem focused_agrees_secondWindow : ∃ d, follow (informedNext xga) (boot xga) secondWindow = some d ∧
    d.server.focusId = 2 ∧ (d.server.windows 0).id = 1 ∧
    ((d.flags (d.server.windows 0).id).focused = true ↔ d.server.focusId = (d.server.windows 0).id) := by
  have hrun : (follow (informedNext xga) (boot xga) secondWindow).any (fun d =>
      d.server.focusId = 2 ∧ (d.server.windows 0).id = 1 ∧ (d.server.windows 0).used = true ∧
      (d.server.windows 0).eventTail = (d.server.windows 0).eventHead) = true := by decide
  obtain ⟨d, hd, hfacts⟩ := (Option.any_eq_true _ _).mp hrun
  obtain ⟨hfocus, hid, hu, hdrained⟩ := of_decide_eq_true hfacts
  have hreach : Reachable (· = boot xga) _ d := Reachable.follow (informedNext_step xga) (.start rfl) hd
  exact ⟨d, hd, hfocus, hid, focused_agrees xga hreach hu hdrained⟩

/-- A window is opened, minimised, and its queue drained. -/
def minimizeFocused : List Call := [.create 1 200 100 [] 0 true, .minimize 1, .poll 1 1]

/-- Its application still takes it for focused. -/
theorem focused_disagrees : ¬∀ d, Reachable (· = boot xga)
      (fun d e => ∃ c, Roomy xga d.server c ∧ e = d.run xga c) d →
    ∀ i, (d.server.windows i).used = true → (d.server.windows i).eventTail = (d.server.windows i).eventHead →
      ((d.flags (d.server.windows i).id).focused = true ↔ d.server.focusId = (d.server.windows i).id) := by
  intro hall
  have hrun : (follow (fun d c => if Roomy xga d.server c then some (d.run xga c) else none) (boot xga)
      minimizeFocused).any (fun d => (d.server.windows 0).used = true ∧
        (d.server.windows 0).eventTail = (d.server.windows 0).eventHead ∧
        (d.flags (d.server.windows 0).id).focused = true ∧ d.server.focusId ≠ (d.server.windows 0).id) = true := by
    decide
  obtain ⟨d, hd, hfacts⟩ := (Option.any_eq_true _ _).mp hrun
  obtain ⟨hu, hdrained, hfocused, hne⟩ := of_decide_eq_true hfacts
  have hreach : Reachable (· = boot xga) (fun d e => ∃ c, Roomy xga d.server c ∧ e = d.run xga c) d := by
    refine Reachable.follow ?_ (.start rfl) hd
    intro d c e he
    split at he
    · next hroom => exact ⟨c, hroom, (Option.some.inj he).symm⟩
    · cases he
  exact hne ((hall d hreach 0 hu hdrained).mp hfocused)

end SifarOS.ClientFlags
