import SifarOS.WindowBuffers
import SifarOS.WindowStacking

/-! # Windows that stay what they are

Whose windows there are, and of which size, is decided where buffers are allocated and released. No other call
changes it. -/
namespace SifarOS.WindowBuffers
open Graphics WindowServer WindowStacking

/-- The window has the same owner and size, and is still there. -/
structure Alike (w w' : Window) : Prop where
  used : w'.used = w.used
  owner : w'.owner = w.owner
  width : w'.width = w.width
  height : w'.height = w.height

theorem Alike.refl (w : Window) : Alike w w := ⟨rfl, rfl, rfl, rfl⟩

theorem Alike.trans {w w' w'' : Window} (h : Alike w w') (h' : Alike w' w'') : Alike w w'' :=
  ⟨h'.used.trans h.used, h'.owner.trans h.owner, h'.width.trans h.width, h'.height.trans h.height⟩

theorem Alike.queueEvent (w : Window) (event : Event) : Alike w (w.queueEvent event) := by
  unfold Window.queueEvent
  dsimp only
  split <;> exact ⟨rfl, rfl, rfl, rfl⟩

def Steady (s t : Server) : Prop := ∀ i, Alike (s.windows i) (t.windows i)

namespace Steady
variable {s t u : Server}

theorem of_windows (hw : t.windows = s.windows) : Steady s t := fun i => hw ▸ Alike.refl (s.windows i)

theorem refl (s : Server) : Steady s s := of_windows rfl

theorem trans (h : Steady s t) (h' : Steady t u) : Steady s u := fun i => (h i).trans (h' i)

theorem setWindow (s : Server) (i : WindowSlot) {w : Window} (h : Alike (s.windows i) w) : Steady s (s.setWindow i w) := by
  intro j
  rcases eq_or_ne j i with rfl | hne
  · rw [s.setWindow_windows_self]
    exact h
  · rw [s.setWindow_windows_ne w hne]
    exact .refl _

theorem queueEvent (s : Server) (i : WindowSlot) (event : Event) :
    Steady s (s.setWindow i ((s.windows i).queueEvent event)) := setWindow s i (.queueEvent _ event)

theorem damageWindow (s : Server) (i : WindowSlot) : Steady s (s.damageWindow i) := of_windows rfl

theorem notify (s : Server) (id : UInt32) (type : EventType) : Steady s (s.notify id type) := by
  unfold Server.notify
  split
  · exact (queueEvent s _ _).trans (damageWindow _ _)
  · exact refl s

theorem setFocus (s : Server) (id : UInt32) : Steady s (s.setFocus id) := by
  unfold Server.setFocus
  split
  · exact refl s
  · have hblur := notify s s.focusId .blur
    have hfocus : Steady _ ((s.notify s.focusId .blur).focusOn id) := of_windows rfl
    exact (hblur.trans hfocus).trans (notify _ id .focus)

theorem moveTo (s : Server) (i : WindowSlot) (x y : Int32) : Steady s (s.moveTo i x y) := setWindow s i ⟨rfl, rfl, rfl, rfl⟩

theorem setState (s : Server) (i : WindowSlot) (state : WindowState) : Steady s (s.setState i state) :=
  setWindow s i ⟨rfl, rfl, rfl, rfl⟩

theorem raiseWindow (s : Server) (i : WindowSlot) : Steady s (s.raiseWindow i) := of_windows rfl

theorem wmMinimize (s : Server) (id : UInt32) : Steady s (s.wmMinimize id).1 := by
  unfold Server.wmMinimize
  split
  · exact refl s
  · next i _ =>
    have hstate := fun state => (damageWindow s i).trans (setState _ i state)
    dsimp only
    split
    · exact (hstate .normal).trans (of_windows rfl)
    · split <;> exact (hstate .minimized).trans (of_windows rfl)

theorem handleMouseDown (s : Server) (x y button : Int32) : Steady s (s.handleMouseDown x y button) := by
  unfold Server.handleMouseDown
  split
  · exact setFocus s 0
  · next i hit _ =>
    have hraised : Steady s (if has (s.windows i).flags guiBottom = true then s
        else (s.setFocus (s.windows i).id).raiseWindow i) := by
      split
      · exact refl s
      · exact (setFocus s _).trans (raiseWindow _ i)
    dsimp only
    generalize (if has (s.windows i).flags guiBottom = true then s
      else (s.setFocus (s.windows i).id).raiseWindow i) = t at hraised
    apply hraised.trans
    split
    · split
      · exact queueEvent t i _
      · split
        · exact wmMinimize t _
        · exact of_windows rfl
    · split
      · exact of_windows rfl
      · exact queueEvent t i _

theorem handleMouseUp (s : Server) (x y button : Int32) : Steady s (s.handleMouseUp x y button) := by
  unfold Server.handleMouseUp
  split
  · exact of_windows rfl
  · split
    · split
      · next i _ =>
        have hend : Steady s { s with resizeId := 0 } := of_windows rfl
        exact hend.trans (queueEvent _ i _)
      · exact of_windows rfl
    · split
      · exact queueEvent s _ _
      · exact refl s

/-- A mouse that moves without resizing: it drags a window, or the one below it hears of it. -/
theorem handleMouseMove (screen : Screen) (s : Server) (x y : Int32) (buttons : UInt32) (granted : Bool)
    (h : ¬(s.dragId = 0 ∧ s.resizeId ≠ 0)) : Steady s (s.handleMouseMove screen x y buttons granted) := by
  unfold Server.handleMouseMove
  split
  · split
    · exact refl s
    · exact (damageWindow s _).trans ((moveTo _ _ _ _).trans (damageWindow _ _))
  · next hdrag =>
    split
    · next hresize => exact absurd ⟨not_not.mp hdrag, hresize⟩ h
    · split
      · exact queueEvent s _ _
      · exact refl s

theorem refocus (s : Server) : Steady s s.refocus := by
  unfold Server.refocus
  dsimp only
  split
  · exact setFocus s _
  · exact refl s

end Steady

/-- A call that has to do with no buffer leaves the windows' owners and sizes as they are. -/
theorem Steady.run (screen : Screen) (s : Server) {c : Call} (hc : touchesNoBuffer c = true) : Steady s (s.run screen c) := by
  have hcursor : ∀ x y, Steady s { s with cursorX := x, cursorY := y } := fun x y => of_windows rfl
  cases c with
  | create | destroy | closeProcess | resize | mouseMove => cases hc
  | invalidate owner id corner size =>
    unfold Server.run Server.wmInvalidate
    dsimp only
    split
    · exact refl s
    · split
      · exact refl s
      · split
        · exact refl s
        · exact of_windows rfl
  | poll owner id =>
    unfold Server.run Server.wmPollEvent
    dsimp only
    split
    · exact refl s
    · split
      · exact refl s
      · split
        · exact refl s
        · exact setWindow s _ ⟨rfl, rfl, rfl, rfl⟩
  | setTitle owner id title =>
    unfold Server.run Server.wmSetTitle
    dsimp only
    split
    · exact refl s
    · split
      · exact refl s
      · next i _ _ =>
        have htitle : Steady s (s.setWindow i { s.windows i with title := title.take 47 }) := setWindow s i ⟨rfl, rfl, rfl, rfl⟩
        exact htitle.trans (damageWindow _ i)
  | move owner id x y =>
    unfold Server.run Server.wmMoveWindow
    dsimp only
    split
    · exact refl s
    · split
      · exact refl s
      · exact (damageWindow s _).trans ((moveTo _ _ x y).trans (damageWindow _ _))
  | activate id =>
    unfold Server.run Server.wmActivate
    dsimp only
    split
    · exact refl s
    · exact (setState s _ .normal).trans ((raiseWindow _ _).trans (setFocus _ id))
  | minimize id => exact wmMinimize s id
  | setFlags owner id flags =>
    unfold Server.run Server.wmSetFlags
    dsimp only
    split
    · exact refl s
    · split
      · exact refl s
      · next i _ _ =>
        have hflags : Steady s (s.setFlags i flags) := setWindow s i ⟨rfl, rfl, rfl, rfl⟩
        exact hflags.trans (of_windows rfl)
  | mouseDown x y button => exact (hcursor x y).trans (handleMouseDown _ x y button)
  | mouseUp x y button => exact (hcursor x y).trans (handleMouseUp _ x y button)
  | wheel x y wheel =>
    unfold Server.run Server.handleWheel
    dsimp only
    split
    · exact queueEvent s _ _
    · exact refl s
  | key key =>
    unfold Server.run Server.handleKey
    dsimp only
    split
    · exact queueEvent s _ _
    · exact refl s
  | trackCursor =>
    unfold Server.run Server.trackCursor
    dsimp only
    split
    · exact of_windows rfl
    · exact refl s
  | draw i pixels => exact setWindow s i ⟨rfl, rfl, rfl, rfl⟩

/-! ## The calls that have to do with buffers -/

/-- `wm_destroy_window` of a window that there is closes it, and the focus goes on. -/
theorem Steady.wmDestroyWindow {s : Server} {owner : Option ℕ} {id : UInt32} {i : WindowSlot} (hi : s.find id = some i)
    (howner : owner.any (· ≠ (s.windows i).owner) = false) :
    Steady (s.setWindow i { s.windows i with used := false }) (s.wmDestroyWindow owner id).1 := by
  unfold Server.wmDestroyWindow
  rw [hi]
  dsimp only
  rw [if_neg (by rw [howner]; exact Bool.false_ne_true)]
  have hgone : Steady (s.setWindow i { s.windows i with used := false })
      (((s.damageWindow i).zRemove id).setWindow i { ((s.damageWindow i).zRemove id).windows i with used := false }) :=
    of_windows rfl
  apply hgone.trans
  dsimp only
  split
  · exact Steady.trans (t := Server.focusOn _ 0) (of_windows rfl) (refocus _)
  · exact refl _

/-- The window that `wm_create_window` makes, when it gets its buffer. -/
theorem Steady.wmCreateWindow {screen : Screen} {s : Server} {width height : Int32} (owner : ℕ) (title : List UInt8) (flags : UInt32)
    (hpos : ¬(width ≤ 0 ∨ height ≤ 0)) (hfit : ¬(width > screen.width ∨ height > screen.height)) {slot : WindowSlot}
    (hslot : ((List.finRange 32).find? fun i => !(s.windows i).used) = some slot) :
    (∃ w : Window, w.used = true ∧ w.owner = owner ∧ w.width = width ∧ w.height = height ∧
      Steady (s.setWindow slot w) (s.wmCreateWindow screen owner width height title flags true).1) ∧
    (s.wmCreateWindow screen owner width height title flags true).2 =
      ((s.wmCreateWindow screen owner width height title flags true).1.windows slot).id.toInt32 := by
  unfold Server.wmCreateWindow
  rw [if_neg hpos, if_neg hfit, hslot]
  dsimp only
  rw [if_neg (by decide)]
  generalize hw : ({
    id := s.nextId, used := true, owner := owner, flags := flags, title := title.take 47,
    x := (s.newPosition screen flags width height).1, y := (s.newPosition screen flags width height).2,
    width := width, height := height } : Window) = w
  have hid : w.id = s.nextId := by rw [← hw]
  have hplaced : Steady (s.setWindow slot w) (((s.countWindow flags).setWindow slot w).zInsert s.nextId flags) := of_windows rfl
  have hslotId : ((((s.countWindow flags).setWindow slot w).zInsert s.nextId flags).windows slot).id = s.nextId := by
    rw [zInsert_windows, Server.setWindow_windows_self, hid]
  generalize ((s.countWindow flags).setWindow slot w).zInsert s.nextId flags = t at hplaced hslotId
  refine ⟨⟨w, by rw [← hw], by rw [← hw], by rw [← hw], by rw [← hw], hplaced.trans ?_⟩, ?_⟩
  · split
    · exact damageWindow t slot
    · exact (setFocus t s.nextId).trans (damageWindow _ slot)
  · split
    · rw [(Same.damageWindow t slot).id, hslotId]
    · rw [((Same.setFocus t s.nextId).trans (Same.damageWindow _ slot)).id, hslotId]

/-- Without a buffer `wm_create_window` leaves the slot empty. -/
theorem wmCreateWindow_refused {screen : Screen} {s : Server} {width height : Int32} (owner : ℕ) (title : List UInt8) (flags : UInt32)
    (hpos : ¬(width ≤ 0 ∨ height ≤ 0)) (hfit : ¬(width > screen.width ∨ height > screen.height)) {slot : WindowSlot}
    (hslot : ((List.finRange 32).find? fun i => !(s.windows i).used) = some slot) :
    ∃ w : Window, w.used = false ∧
      s.wmCreateWindow screen owner width height title flags false = ((s.countWindow flags).setWindow slot w, -3) := by
  unfold Server.wmCreateWindow
  rw [if_neg hpos, if_neg hfit, hslot]
  dsimp only
  rw [if_pos rfl]
  exact ⟨_, rfl, rfl⟩

/-- Without a buffer `wm_resize_window` only has the window painted again. -/
theorem wmResizeWindow_refused {screen : Screen} {s : Server} {id : UInt32} {width height : Int32} {i : WindowSlot} (hi : s.find id = some i)
    (hsize : ¬(width ≤ 0 ∨ height ≤ 0 ∨ width > screen.width ∨ height > screen.height))
    (hdiffer : ¬(width = (s.windows i).width ∧ height = (s.windows i).height)) :
    s.wmResizeWindow screen (s.windows i).owner id width height false = (s.damageWindow i, -1) := by
  unfold Server.wmResizeWindow
  rw [hi]
  dsimp only
  rw [if_neg (not_not.mpr rfl), if_neg hsize, if_neg hdiffer, if_pos rfl]

/-- The window that `wm_resize_window` gives another size. -/
theorem Steady.wmResizeWindow {screen : Screen} {s : Server} {id : UInt32} {width height : Int32} {i : WindowSlot} (hi : s.find id = some i)
    (hsize : ¬(width ≤ 0 ∨ height ≤ 0 ∨ width > screen.width ∨ height > screen.height))
    (hdiffer : ¬(width = (s.windows i).width ∧ height = (s.windows i).height)) :
    Steady (s.setWindow i { s.windows i with width := width, height := height })
      (s.wmResizeWindow screen (s.windows i).owner id width height true).1 ∧
    (s.wmResizeWindow screen (s.windows i).owner id width height true).2 = 0 := by
  unfold Server.wmResizeWindow
  rw [hi]
  dsimp only
  rw [if_neg (not_not.mpr rfl), if_neg hsize, if_neg hdiffer, if_neg (by decide)]
  refine ⟨fun j => ?_, rfl⟩
  rcases eq_or_ne j i with rfl | hne
  · rw [Server.setWindow_windows_self]
    refine Alike.trans ?_ (damageWindow _ j j)
    rw [Server.setWindow_windows_self]
    obtain ⟨hused, howner, hwidth, hheight⟩ := Alike.queueEvent
      { s.windows j with width := width, height := height, pixels := fun _ => 0 }
      { type := .resize, width := width.toUInt32, height := height.toUInt32 }
    exact ⟨hused, howner, hwidth, hheight⟩
  · rw [Server.setWindow_windows_ne s _ hne]
    refine Alike.trans ?_ (damageWindow _ i j)
    rw [Server.setWindow_windows_ne _ _ hne]
    exact .refl _

end SifarOS.WindowBuffers
