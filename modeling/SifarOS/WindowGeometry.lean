import SifarOS.ScreenBounds

/-! # The client's idea of its window

The toolkit (`user/lib/ui.c`) keeps the width, height and stride of its window and learns of a new
size only by a `GUI_EVENT_RESIZE` in the window's queue, which holds 31 events and drops the rest. -/
namespace SifarOS.WindowGeometry
open Graphics WindowServer WindowStacking WindowEdits ReachableStates

/-- The events waiting in a window's queue, the oldest first. -/
def backlog (w : Window) : List Event :=
  (List.range (w.eventHead - w.eventTail).val).map fun n => w.events (w.eventTail + Fin.ofNat 32 n)

/-- No further event fits. -/
def Full (w : Window) : Prop := w.eventHead + 1 = w.eventTail

instance (w : Window) : Decidable (Full w) := inferInstanceAs (Decidable (_ = _))

theorem queueEvent_full {w : Window} (h : Full w) (event : Event) : w.queueEvent event = w := if_pos h

section Slots
variable {head tail : EventSlot}

theorem sub_succ (h : head + 1 ≠ tail) : (head + 1 - tail).val = (head - tail).val + 1 := by
  obtain ⟨head, hhead⟩ := head
  obtain ⟨tail, htail⟩ := tail
  simp only [ne_eq, Fin.ext_iff, Fin.val_add, Fin.val_sub, Fin.val_one] at h ⊢
  omega

theorem sub_pred (h : tail ≠ head) : (head - tail).val = (head - (tail + 1)).val + 1 := by
  obtain ⟨head, hhead⟩ := head
  obtain ⟨tail, htail⟩ := tail
  simp only [ne_eq, Fin.ext_iff, Fin.val_add, Fin.val_sub, Fin.val_one] at h ⊢
  omega

theorem slot_last (head tail : EventSlot) : tail + Fin.ofNat 32 (head - tail).val = head := by
  obtain ⟨head, hhead⟩ := head
  obtain ⟨tail, htail⟩ := tail
  simp only [Fin.ext_iff, Fin.val_add, Fin.val_sub, Fin.val_ofNat]
  omega

theorem slot_ne {n : ℕ} (h : n < (head - tail).val) : tail + Fin.ofNat 32 n ≠ head := by
  obtain ⟨head, hhead⟩ := head
  obtain ⟨tail, htail⟩ := tail
  simp only [ne_eq, Fin.ext_iff, Fin.val_add, Fin.val_sub, Fin.val_ofNat] at h ⊢
  omega

theorem slot_succ (tail : EventSlot) (n : ℕ) : tail + 1 + Fin.ofNat 32 n = tail + Fin.ofNat 32 (n + 1) := by
  obtain ⟨tail, htail⟩ := tail
  simp only [Fin.ext_iff, Fin.val_add, Fin.val_ofNat, Fin.val_one]
  omega

end Slots

theorem backlog_queueEvent {w : Window} (h : ¬Full w) (event : Event) :
    backlog (w.queueEvent event) = backlog w ++ [{ event with window := w.id }] := by
  have hnext : w.queueEvent event = { w with
      events := Function.update w.events w.eventHead { event with window := w.id }, eventHead := w.eventHead + 1 } :=
    if_neg h
  rw [hnext]
  unfold backlog
  dsimp only
  rw [sub_succ h, List.range_succ, List.map_append, List.map_singleton, slot_last, Function.update_self]
  congr 1
  exact List.map_congr_left fun n hn => Function.update_of_ne (slot_ne (List.mem_range.mp hn)) _ _

theorem backlog_poll {w : Window} (h : w.eventTail ≠ w.eventHead) :
    backlog w = w.events w.eventTail :: backlog { w with eventTail := w.eventTail + 1 } := by
  unfold backlog
  dsimp only
  rw [sub_pred h, List.range_succ_eq_map, List.map_cons, List.map_map]
  congr 1
  · simp
  · exact List.map_congr_left fun n _ => by rw [Function.comp_apply, Nat.succ_eq_add_one, slot_succ]

theorem backlog_empty {w : Window} (h : w.eventTail = w.eventHead) : backlog w = [] := by
  simp [backlog, h]

/-- The client has been told of a size it does not know yet. -/
def ResizePending (w : Window) : Prop := ∃ e ∈ backlog w, e.type = .resize

theorem ResizePending.queueEvent {w : Window} (h : ResizePending w) (event : Event) :
    ResizePending (w.queueEvent event) := by
  by_cases hf : Full w
  · rw [queueEvent_full hf]
    exact h
  · obtain ⟨e, he, htype⟩ := h
    exact ⟨e, by rw [backlog_queueEvent hf]; exact List.mem_append_left _ he, htype⟩

/-- A resize is heard of when there is room for the event, or one of its kind is waiting. -/
theorem resized_pending {w : Window} (h : ¬Full w ∨ ResizePending w) (width height : Int32) :
    ResizePending (resized w width height) := by
  rcases h with hf | hp
  · refine ⟨{ type := .resize, window := w.id, width := width.toUInt32, height := height.toUInt32 }, ?_, rfl⟩
    unfold resized Window.sendSimple
    rw [backlog_queueEvent (w := { w with width := width, height := height, pixels := fun _ => 0 }) hf]
    exact List.mem_append_right _ (List.mem_singleton_self _)
  · exact ResizePending.queueEvent (w := { w with width := width, height := height, pixels := fun _ => 0 }) hp _

/-- Width, height and stride, as the toolkit stores them. -/
structure Geometry where
  width : Int32
  height : Int32
  stride : Int32
  deriving DecidableEq, Repr

/-- The server's current values for a window: rows are as long as the window is wide. -/
def geometry (w : Window) : Geometry := ⟨w.width, w.height, w.width⟩

/-- `wm_window_info`, as far as the toolkit keeps it: unsigned in the structure, `int` again in the
toolkit. -/
def wmWindowInfo (s : Server) (owner : ℕ) (id : UInt32) : Option Geometry :=
  match s.find id with
  | none => none
  | some i =>
    let w := s.windows i
    if w.owner ≠ owner then none
    else some ⟨w.width.toUInt32.toInt32, w.height.toUInt32.toInt32, w.width.toUInt32.toInt32⟩

/-- Where the application is in the toolkit. -/
inductive Place
  /-- outside the functions below -/
  | away
  /-- at the head of the loop of `ui_begin`, about to poll -/
  | polling
  /-- in `ui_begin`, with a resize event in hand, about to ask for the new geometry -/
  | informed
  /-- in `ui_resize`, after a successful `SYS_GUI_RESIZE`, about to ask for the new geometry -/
  | resizing
  deriving DecidableEq, Repr

/-- The application's end of one window. -/
structure Client where
  cached : Geometry
  place : Place
  deriving DecidableEq, Repr

structure Session where
  server : Server
  client : Client

/-- A step of the server, or of the application in the toolkit. -/
inductive Move
  | server (c : Call)
  | begin
  | poll
  | info
  | resize (width height : Int32) (granted : Bool)

/-- The body of the loop of `ui_begin` after one poll: only a resize event bears on the geometry. -/
def afterPoll (result : Int32) (event : Option Event) : Place :=
  if result ≠ 1 then .away
  else if event.any (·.type = .resize) then .informed
  else .polling

def polls (owner : ℕ) (id : UInt32) : Call → Bool
  | .poll owner' id' => owner' = owner ∧ id' = id
  | _ => false

/-- One step. Nobody else polls this window: its queue is read by its owner, which has one thread. -/
def Session.next (screen : Screen) (owner : ℕ) (id : UInt32) (s : Session) : Move → Option Session
  | .server c => if polls owner id c then none else some { s with server := s.server.run screen c }
  | .begin => if s.client.place = .away then some { s with client := { s.client with place := .polling } } else none
  | .poll =>
    if s.client.place = .polling then
      let (server, result, event) := s.server.wmPollEvent owner id
      some ⟨server, { s.client with place := afterPoll result event }⟩
    else none
  | .info =>
    if s.client.place = .informed ∨ s.client.place = .resizing then
      some { s with client :=
        { cached := (wmWindowInfo s.server owner id).getD s.client.cached
          place := if s.client.place = .informed then .polling else .away } }
    else none
  | .resize width height granted =>
    if s.client.place = .away then
      let (server, result) := s.server.wmResizeWindow screen owner id width height granted
      some ⟨server, { s.client with place := if result < 0 then .away else .resizing }⟩
    else none

section Agreement
variable {screen : Screen} {owner : ℕ} {id : UInt32}

/-- What a step of the server may do to the client's window without the client losing track: the
window was the client's before, no news is lost, and a new size is news unless the client is about to
ask anyway. -/
structure Tracked (owner : ℕ) (id : UInt32) (asking : Prop) (w w' : Window) : Prop where
  mine : w'.used → w'.id = id → w.used ∧ w.id = id ∧ w.owner = w'.owner
  news : w'.used → w'.id = id → w'.owner = owner → ResizePending w → ResizePending w'
  size : w'.used → w'.id = id → w'.owner = owner → geometry w' = geometry w ∨ ResizePending w' ∨ asking

namespace Tracked
variable {asking : Prop} {w w' w'' : Window}

theorem refl (w : Window) : Tracked owner id asking w w :=
  ⟨fun hu hid => ⟨hu, hid, rfl⟩, fun _ _ _ h => h, fun _ _ _ => .inl rfl⟩

theorem trans (h₁ : Tracked owner id asking w w') (h₂ : Tracked owner id asking w' w'') :
    Tracked owner id asking w w'' := by
  refine ⟨fun hu hid => ?_, fun hu hid ho hp => ?_, fun hu hid ho => ?_⟩
  · obtain ⟨hu', hid', ho'⟩ := h₂.mine hu hid
    obtain ⟨hu'', hid'', ho''⟩ := h₁.mine hu' hid'
    exact ⟨hu'', hid'', ho''.trans ho'⟩
  · obtain ⟨hu', hid', ho'⟩ := h₂.mine hu hid
    exact h₂.news hu hid ho (h₁.news hu' hid' (ho'.trans ho) hp)
  · obtain ⟨hu', hid', ho'⟩ := h₂.mine hu hid
    rcases h₂.size hu hid ho with hg | hp | ha
    · rcases h₁.size hu' hid' (ho'.trans ho) with hg' | hp' | ha'
      · exact .inl (hg.trans hg')
      · exact .inr (.inl (h₂.news hu hid ho hp'))
      · exact .inr (.inr ha')
    · exact .inr (.inl hp)
    · exact .inr (.inr ha)

theorem queueEvent (w : Window) (event : Event) : Tracked owner id asking w (w.queueEvent event) := by
  have hsame : (w.queueEvent event).used = w.used ∧ (w.queueEvent event).id = w.id ∧
      (w.queueEvent event).owner = w.owner ∧ geometry (w.queueEvent event) = geometry w := by
    unfold Window.queueEvent
    dsimp only
    split <;> exact ⟨rfl, rfl, rfl, rfl⟩
  obtain ⟨hu, hid, ho, hg⟩ := hsame
  exact ⟨fun hu' hid' => ⟨hu ▸ hu', hid ▸ hid', ho.symm⟩, fun _ _ _ hp => hp.queueEvent event,
    fun _ _ _ => .inl hg⟩

theorem plain : Plain (Tracked owner id asking) := by
  refine ⟨fun {w w'} h => ?_⟩
  cases h with
  | queue event => exact queueEvent w event
  | restyle => exact ⟨fun hu hid => ⟨hu, hid, rfl⟩, fun _ _ _ h => h, fun _ _ _ => .inl rfl⟩
  | close => exact ⟨fun hu => absurd hu (by simp), fun hu => absurd hu (by simp), fun hu => absurd hu (by simp)⟩

/-- A resize is tracked when it is heard of, or is of another window. -/
theorem resized (w : Window) (width height : Int32)
    (h : w.id = id → w.owner = owner → ¬Full w ∨ ResizePending w ∨ asking) :
    Tracked owner id asking w (WindowEdits.resized w width height) := by
  have hqueue : Tracked owner id asking _ _ := queueEvent { w with width := width, height := height, pixels := fun _ => 0 }
    { type := .resize, width := width.toUInt32, height := height.toUInt32 }
  refine ⟨hqueue.mine, hqueue.news, fun hu hid ho => ?_⟩
  obtain ⟨-, hid', ho'⟩ := hqueue.mine hu hid
  rcases h hid' (ho'.trans ho) with hf | hp | ha
  · exact .inr (.inl (resized_pending (.inl hf) width height))
  · exact .inr (.inl (resized_pending (.inr hp) width height))
  · exact .inr (.inr ha)

end Tracked

/-- The client is about to call `SYS_GUI_INFO`. -/
def Asking (c : Client) : Prop := c.place = .informed ∨ c.place = .resizing

/-- One window bears the id, and if it is the client's, the client knows its size, or will hear of it,
or is about to ask. -/
structure Agreed (owner : ℕ) (id : UInt32) (s : Session) : Prop where
  unique : ∀ i j, (s.server.windows i).used → (s.server.windows j).used → (s.server.windows i).id = id →
    (s.server.windows j).id = id → i = j
  agree : ∀ i, (s.server.windows i).used → (s.server.windows i).id = id → (s.server.windows i).owner = owner →
    s.client.cached = geometry (s.server.windows i) ∨ ResizePending (s.server.windows i) ∨ Asking s.client

namespace Agreed
variable {s : Session}

/-- The server moves in a tracked way, the client stays or turns to asking. -/
theorem tracked (h : Agreed owner id s) {server : Server} {place : Place} (asking : Prop)
    (hask : Asking s.client ∨ asking → Asking { s.client with place := place })
    (ht : ∀ i, Tracked owner id asking (s.server.windows i) (server.windows i)) :
    Agreed owner id ⟨server, { s.client with place := place }⟩ := by
  refine ⟨fun i j hi hj hidi hidj => ?_, fun i hi hid ho => ?_⟩
  · obtain ⟨hi', hidi', -⟩ := (ht i).mine hi hidi
    obtain ⟨hj', hidj', -⟩ := (ht j).mine hj hidj
    exact h.unique i j hi' hj' hidi' hidj'
  · obtain ⟨hi', hid', ho'⟩ := (ht i).mine hi hid
    rcases (ht i).size hi hid ho with hg | hp | ha
    · rcases h.agree i hi' hid' (ho'.trans ho) with hc | hp | hask'
      · exact .inl (hc.trans hg.symm)
      · exact .inr (.inl ((ht i).news hi hid ho hp))
      · exact .inr (.inr (hask (.inl hask')))
    · exact .inr (.inl hp)
    · exact .inr (.inr (hask (.inr ha)))

/-- What the windows with the id were before decides who bears it now. -/
theorem unique_of (h : Agreed owner id s) {server : Server}
    (hm : ∀ i, (server.windows i).used → (server.windows i).id = id →
      (s.server.windows i).used ∧ (s.server.windows i).id = id) (i j : WindowSlot)
    (hi : (server.windows i).used) (hj : (server.windows j).used) (hidi : (server.windows i).id = id)
    (hidj : (server.windows j).id = id) : i = j :=
  h.unique i j (hm i hi hidi).1 (hm j hj hidj).1 (hm i hi hidi).2 (hm j hj hidj).2

/-- A step of the server. -/
theorem server_move (h : Agreed owner id s) {c : Call} (hpoll : polls owner id c = false)
    (hheard : ∀ i width height, resizeOf s.server c = some (i, width, height) → Allowed screen width height →
      ¬(width = (s.server.windows i).width ∧ height = (s.server.windows i).height) →
      (s.server.windows i).id = id → (s.server.windows i).owner = owner →
      ¬Full (s.server.windows i) ∨ ResizePending (s.server.windows i) ∨ Asking s.client)
    (hfresh : creates c → s.server.nextId ≠ id) :
    Agreed owner id ⟨s.server.run screen c, s.client⟩ := by
  have hacts : Acts (Tracked owner id (Asking s.client)) s.server (s.server.run screen c) := by
    refine run_acts_of Tracked.plain screen s.server c (fun i width height hr hok hdiffer => ?_) (fun i hp => ?_)
      fun hc w fresh hw ho => ?_
    · exact Tracked.resized _ width height (hheard i width height hr hok hdiffer)
    · have hother : (s.server.windows i).id = id → (s.server.windows i).owner ≠ owner := by
        intro hid howner
        cases c with
        | poll owner' id' =>
          simp only [pollOf] at hp
          split at hp
          · next j hj =>
            split at hp
            · next ho =>
              obtain rfl := Option.some.inj hp
              have hid' := (find_some hj).2
              simp [polls, ← ho, howner, ← hid', hid] at hpoll
            · cases hp
          · cases hp
        | _ => cases hp
      exact ⟨fun hu hid => ⟨hu, hid, rfl⟩, fun _ hid ho => absurd ho (hother hid), fun _ _ _ => .inl rfl⟩
    · have hid : fresh.id ≠ id := fun hid => hfresh hc (ho.id.symm.trans hid)
      exact ⟨fun _ h => absurd h hid, fun _ h => absurd h hid, fun _ h => absurd h hid⟩
  exact h.tracked _ (fun ha => ha.elim (fun h => h) (fun h => h))
    fun i => hacts.lift Tracked.refl Tracked.trans i

/-- One poll. An event that announces a size makes the client ask. -/
theorem poll_move (h : Agreed owner id s) (hplace : s.client.place = .polling) :
    Agreed owner id ⟨(s.server.wmPollEvent owner id).1,
      { s.client with place := afterPoll (s.server.wmPollEvent owner id).2.1 (s.server.wmPollEvent owner id).2.2 }⟩ := by
  have hcalm : ¬Asking s.client := by
    unfold Asking
    rw [hplace]
    decide
  unfold Server.wmPollEvent
  split
  · exact h.tracked False (fun ha => absurd ha (by simpa using hcalm)) fun i => Tracked.refl _
  · next i hi =>
    dsimp only
    split
    · exact h.tracked False (fun ha => absurd ha (by simpa using hcalm)) fun i => Tracked.refl _
    · split
      · exact h.tracked False (fun ha => absurd ha (by simpa using hcalm)) fun i => Tracked.refl _
      · next hne =>
        have hsome : ∀ e : Event, afterPoll 1 (some e) = if e.type = .resize then .informed else .polling := by
          intro e
          simp [afterPoll]
        dsimp only
        rw [hsome]
        split
        · refine ⟨h.unique_of fun j hj hid => ?_, fun _ _ _ _ => .inr (.inr (.inl rfl))⟩
          by_cases hji : j = i
          · subst hji
            rw [Server.setWindow_windows_self] at hj hid
            exact ⟨hj, hid⟩
          · rw [Server.setWindow_windows_ne _ _ hji] at hj hid
            exact ⟨hj, hid⟩
        · next htype =>
          refine h.tracked False (fun ha => absurd ha (by simpa using hcalm)) fun j => ?_
          by_cases hji : j = i
          · subst hji
            rw [Server.setWindow_windows_self]
            refine ⟨fun hu hid => ⟨hu, hid, rfl⟩, fun _ _ _ hp => ?_, fun _ _ _ => .inl rfl⟩
            obtain ⟨e, he, hr⟩ := hp
            rw [backlog_poll hne, List.mem_cons] at he
            rcases he with rfl | he
            · exact absurd hr htype
            · exact ⟨e, he, hr⟩
          · rw [Server.setWindow_windows_ne _ _ hji]
            exact Tracked.refl _

/-- The answer to `SYS_GUI_INFO` is what the server has. -/
theorem info_move (h : Agreed owner id s) (place : Place) :
    Agreed owner id ⟨s.server, ⟨(wmWindowInfo s.server owner id).getD s.client.cached, place⟩⟩ := by
  refine ⟨h.unique, fun i hi hid ho => .inl ?_⟩
  dsimp only at hi hid ho
  have hfind : s.server.find id = some i := by
    cases hf : s.server.find id with
    | none =>
      have hnot := List.find?_eq_none.mp hf i (List.mem_finRange i)
      simp [hi, hid] at hnot
    | some j =>
      obtain ⟨hj, hidj⟩ := find_some hf
      rw [h.unique i j hi hj hid hidj]
  simp [wmWindowInfo, hfind, ho, geometry]

/-- `ui_resize` asks after every resize that was not refused. -/
theorem resize_move (h : Agreed owner id s) (hplace : s.client.place = .away) (width height : Int32)
    (granted : Bool) :
    Agreed owner id ⟨(s.server.wmResizeWindow screen owner id width height granted).1,
      { s.client with place :=
          if (s.server.wmResizeWindow screen owner id width height granted).2 < 0 then .away else .resizing }⟩ := by
  split
  · next hrefused =>
    have hsame : (s.server.wmResizeWindow screen owner id width height granted).1.windows = s.server.windows := by
      revert hrefused
      unfold Server.wmResizeWindow
      split
      · exact fun _ => rfl
      · dsimp only
        repeat' split
        all_goals first
          | exact fun _ => rfl
          | exact fun hneg => absurd hneg Int32.lt_irrefl
    have hcalm : ¬Asking s.client := by
      unfold Asking
      rw [hplace]
      decide
    refine h.tracked False (fun ha => absurd ha (by simpa using hcalm)) fun i => ?_
    rw [hsame]
    exact Tracked.refl _
  · have hacts : Acts (Tracked owner id True) s.server
        (s.server.wmResizeWindow screen owner id width height granted).1 :=
      Acts.wmResizeWindow s.server owner id width height granted fun i _ _ _ _ _ =>
        Tracked.resized _ width height fun _ _ => .inr (.inr trivial)
    exact h.tracked True (fun _ => .inr rfl) fun i => hacts.lift Tracked.refl Tracked.trans i

end Agreed

/-- A step that keeps the client informed: a new size of its window finds room in the queue, or one
is announced there already, or the client is about to ask; and the window's id is not given out a
second time. -/
def Heard (screen : Screen) (owner : ℕ) (id : UInt32) (s : Session) : Move → Prop
  | .server c =>
    (∀ i width height, resizeOf s.server c = some (i, width, height) → Allowed screen width height →
      ¬(width = (s.server.windows i).width ∧ height = (s.server.windows i).height) →
      (s.server.windows i).id = id → (s.server.windows i).owner = owner →
      ¬Full (s.server.windows i) ∨ ResizePending (s.server.windows i) ∨ Asking s.client) ∧
    (creates c → s.server.nextId ≠ id)
  | _ => True

theorem Agreed.next {s t : Session} (h : Agreed owner id s) {m : Move} (hheard : Heard screen owner id s m)
    (hnext : s.next screen owner id m = some t) : Agreed owner id t := by
  cases m with
  | server c =>
    simp only [Session.next] at hnext
    split at hnext
    · cases hnext
    · next hpoll =>
      obtain rfl := Option.some.inj hnext
      exact h.server_move (by simpa using hpoll) hheard.1 hheard.2
  | begin =>
    simp only [Session.next] at hnext
    split at hnext
    · next hplace =>
      obtain rfl := Option.some.inj hnext
      have hcalm : ¬Asking s.client := by
        unfold Asking
        rw [hplace]
        decide
      exact h.tracked False (fun ha => absurd ha (by simpa using hcalm)) fun i => Tracked.refl _
    · cases hnext
  | poll =>
    simp only [Session.next] at hnext
    split at hnext
    · next hplace =>
      obtain rfl := Option.some.inj hnext
      exact h.poll_move hplace
    · cases hnext
  | info =>
    simp only [Session.next] at hnext
    split at hnext
    · obtain rfl := Option.some.inj hnext
      exact h.info_move _
    · cases hnext
  | resize width height granted =>
    simp only [Session.next] at hnext
    split at hnext
    · next hplace =>
      obtain rfl := Option.some.inj hnext
      exact h.resize_move hplace width height granted
    · cases hnext

/-- The application after `ui_create`: it has asked for the geometry of the only window with its id. -/
structure Opened (owner : ℕ) (id : UInt32) (s : Session) : Prop where
  unique : ∀ i j, (s.server.windows i).used → (s.server.windows j).used → (s.server.windows i).id = id →
    (s.server.windows j).id = id → i = j
  cached : some s.client.cached = wmWindowInfo s.server owner id

theorem Opened.agreed {s : Session} (h : Opened owner id s) : Agreed owner id s := by
  refine ⟨h.unique, fun i hi hid ho => .inl ?_⟩
  have hcached := h.cached
  unfold wmWindowInfo at hcached
  split at hcached
  · cases hcached
  · next j hj =>
    dsimp only at hcached
    split at hcached
    · cases hcached
    · obtain rfl := h.unique i j hi (find_some hj).1 hid (find_some hj).2
      simpa [geometry] using hcached

/-- Whenever a poll of `ui_begin` finds the queue empty, the client draws with the geometry the server
has, however the steps of the two are ordered. -/
theorem client_agrees (screen : Screen) (owner : ℕ) (id : UInt32) {s : Session}
    (h : Reachable (Opened owner id)
      (fun s t => ∃ m, Heard screen owner id s m ∧ s.next screen owner id m = some t) s)
    (hplace : s.client.place = .polling) (hempty : (s.server.wmPollEvent owner id).2.1 = 0) :
    ∃ i, s.server.find id = some i ∧ s.client.cached = geometry (s.server.windows i) := by
  have hagreed : Agreed owner id s :=
    h.invariant (fun _ h0 => h0.agreed) fun _ _ hs ⟨_, hheard, hnext⟩ => hs.next hheard hnext
  unfold Server.wmPollEvent at hempty
  split at hempty
  · exact absurd hempty (show ¬(-1 : Int32) = 0 by decide)
  · next i hi =>
    dsimp only at hempty
    split at hempty
    · exact absurd hempty (show ¬(-1 : Int32) = 0 by decide)
    · next howner =>
      split at hempty
      · next htail =>
        refine ⟨i, hi, ?_⟩
        obtain ⟨hu, hid⟩ := find_some hi
        rcases hagreed.agree i hu hid (not_not.mp howner) with hc | ⟨e, he, -⟩ | ha
        · exact hc
        · rw [backlog_empty htail] at he
          cases he
        · unfold Asking at ha
          rw [hplace] at ha
          exact absurd ha (by decide)
      · exact absurd hempty (show ¬(1 : Int32) = 0 by decide)

/-- A session right after `ui_create(…, 200, 100, 0)` as the first call of all. -/
def newSession : Session where
  server := (wmInit xga).run xga (.create 1 200 100 [] 0 true)
  client := ⟨⟨200, 100, 200⟩, .away⟩

theorem newSession_opened : Opened 1 1 newSession := ⟨by decide, by decide⟩

/-- A step of the client itself loses nothing. -/
abbrev ClientMove := {m : Move // ∀ s, Heard xga 1 1 s m}

/-- The window is resized, the client polls until it has heard of it and asks; the next poll finds the
queue empty. -/
def afterResize : Session :=
  ((newSession.next xga 1 1 (.server (.resize 1 1 300 100 true))).bind fun s =>
    follow (fun s (m : ClientMove) => s.next xga 1 1 m) s
      [⟨.begin, fun _ => trivial⟩, ⟨.poll, fun _ => trivial⟩, ⟨.poll, fun _ => trivial⟩, ⟨.info, fun _ => trivial⟩]).getD
    newSession

theorem client_agrees_afterResize :
    ∃ i, afterResize.server.find 1 = some i ∧ afterResize.client.cached = geometry (afterResize.server.windows i) := by
  have hroom : ∀ i, ¬Full (newSession.server.windows i) := by decide
  have hresized : Reachable (Opened 1 1) (fun s t => ∃ m, Heard xga 1 1 s m ∧ s.next xga 1 1 m = some t)
      { newSession with server := newSession.server.run xga (.resize 1 1 300 100 true) } :=
    .next (.start newSession_opened)
      ⟨.server (.resize 1 1 300 100 true), ⟨fun i _ _ _ _ _ _ _ => .inl (hroom i), fun h => by cases h⟩, rfl⟩
  exact client_agrees xga 1 1
    (hresized.follow (f := fun s (m : ClientMove) => s.next xga 1 1 m)
      (l := [⟨.begin, fun _ => trivial⟩, ⟨.poll, fun _ => trivial⟩, ⟨.poll, fun _ => trivial⟩,
        ⟨.info, fun _ => trivial⟩]) (t := afterResize) (fun s m t h => ⟨m.1, m.2 s, h⟩) rfl)
    (by decide) (by decide)

/-- The session in which thirty keys arrive, the queue is full, and the window is resized before the
client drains it. -/
def unheard : List Move :=
  List.replicate 30 (.server (.key 97)) ++ [.server (.resize 1 1 300 100 true), .begin] ++ List.replicate 31 .poll

set_option maxRecDepth 20000 in
/-- The announcement of the new size is dropped, and the client keeps drawing rows of the old length. -/
theorem client_disagrees : ¬∀ s, Reachable (Opened 1 1) (fun s t => ∃ m, s.next xga 1 1 m = some t) s →
    s.client.place = .polling → (s.server.wmPollEvent 1 1).2.1 = 0 →
    ∃ i, s.server.find 1 = some i ∧ s.client.cached = geometry (s.server.windows i) := by
  intro h
  have hsome : ((follow (Session.next xga 1 1) newSession unheard).any fun s =>
      s.client.place = .polling ∧ (s.server.wmPollEvent 1 1).2.1 = 0 ∧ s.server.find 1 = some 0 ∧
        s.client.cached ≠ geometry (s.server.windows 0)) = true := by decide
  obtain ⟨s, hs, hfacts⟩ := (Option.any_eq_true _ _).mp hsome
  obtain ⟨hplace, hempty, hfind, hold⟩ := of_decide_eq_true hfacts
  obtain ⟨i, hi, hcached⟩ := h s ((Reachable.start newSession_opened).follow (fun _ m _ hm => ⟨m, hm⟩) hs) hplace hempty
  obtain rfl := Option.some.inj (hfind.symm.trans hi)
  exact hold hcached

end Agreement

end SifarOS.WindowGeometry
