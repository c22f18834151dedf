import Mathlib.Logic.Relation
import SifarOS.MachineInt
import SifarOS.WindowStacking

/-! # What a call does to a window

Each slot of the window table changes by edits of a few kinds only, so a property of single windows
holds over every run once every kind of edit keeps it. -/
namespace SifarOS.WindowEdits
open Graphics WindowServer WindowStacking MachineInt

/-- A size that `wm_create_window` and `wm_resize_window` accept. -/
structure Allowed (screen : Screen) (width height : Int32) : Prop where
  width_pos : 0 < width
  height_pos : 0 < height
  width_le : width ≤ screen.width
  height_le : height ≤ screen.height

/-- The changes most calls make to a window: an event is queued, something is changed that no other
window's geometry depends on, or the window goes. -/
inductive PlainEdit : Window → Window → Prop
  | queue (w : Window) (event : Event) : PlainEdit w (w.queueEvent event)
  | restyle (w : Window) (title : List UInt8) (x y : Int32) (flags : UInt32) (state : WindowState)
      (pixels : ℕ → Color) :
      PlainEdit w { w with title := title, x := x, y := y, flags := flags, state := state, pixels := pixels }
  | close (w : Window) : PlainEdit w { w with used := false }

/-- A window after `allocate_buffer` has given it another size. -/
def resized (w : Window) (width height : Int32) : Window :=
  { w with width := width, height := height, pixels := fun _ => 0 }.sendSimple .resize

/-- A rectangle the server asks to have repainted: around a window, of a window's size, or of a size
that fits in two 16-bit halves. -/
def Requested (s : Server) (r : Rect) : Prop :=
  (∃ i, r = Server.damageFrame (s.windows i)) ∨ (∃ i, r.w = (s.windows i).width ∧ r.h = (s.windows i).height) ∨
    (r.w ≤ 65535 ∧ r.h ≤ 65535)

/-- One action of the server: an edit of one window, a request to repaint, or a change of what is
neither window nor damage. -/
inductive Act (E : Window → Window → Prop) (s : Server) : Server → Prop
  | edit {i : WindowSlot} {w : Window} (h : E (s.windows i) w) : Act E s (s.setWindow i w)
  | damage {r : Rect} (h : Requested s r) : Act E s (s.damageRect r)
  | damageAll : Act E s s.damageAll
  | other {t : Server} (hw : t.windows = s.windows) (hd : t.damage = s.damage) : Act E s t

/-- A run of such actions. -/
abbrev Acts (E : Window → Window → Prop) : Server → Server → Prop := Relation.ReflTransGen (Act E)

/-- The edits allowed include the plain ones. -/
structure Plain (E : Window → Window → Prop) : Prop where
  edit : ∀ {w w' : Window}, PlainEdit w w' → E w w'

namespace Acts
variable {E : Window → Window → Prop} {screen : Screen} {s t u : Server}

theorem edit {i : WindowSlot} {w : Window} (h : E (s.windows i) w) : Acts E s (s.setWindow i w) :=
  .single (.edit h)

theorem other (hw : t.windows = s.windows) (hd : t.damage = s.damage) : Acts E s t := .single (.other hw hd)

theorem damageWindow (s : Server) (i : WindowSlot) : Acts E s (s.damageWindow i) :=
  .single (.damage (.inl ⟨i, rfl⟩))

theorem damageAll (s : Server) : Acts E s s.damageAll := .single .damageAll

theorem focusOn (s : Server) (id : UInt32) : Acts E s (s.focusOn id) := other rfl rfl

theorem zRemove (s : Server) (id : UInt32) : Acts E s (s.zRemove id) := other rfl rfl

theorem zInsert (s : Server) (id flags : UInt32) : Acts E s (s.zInsert id flags) := other rfl rfl

theorem raiseWindow (s : Server) (i : WindowSlot) : Acts E s (s.raiseWindow i) :=
  ((zRemove s _).trans (zInsert _ _ _)).trans (damageWindow _ i)

theorem queueEvent (hE : Plain E) (s : Server) (i : WindowSlot) (event : Event) :
    Acts E s (s.setWindow i ((s.windows i).queueEvent event)) :=
  edit (hE.edit (.queue _ _))

theorem notify (hE : Plain E) (s : Server) (id : UInt32) (type : EventType) : Acts E s (s.notify id type) := by
  unfold Server.notify
  split
  · exact (queueEvent hE s _ _).trans (damageWindow _ _)
  · exact .refl

theorem setFocus (hE : Plain E) (s : Server) (id : UInt32) : Acts E s (s.setFocus id) := by
  unfold Server.setFocus
  split
  · exact .refl
  · exact ((notify hE s _ _).trans (focusOn _ id)).trans (notify hE _ _ _)

theorem setState (hE : Plain E) (s : Server) (i : WindowSlot) (state : WindowState) : Acts E s (s.setState i state) :=
  edit (hE.edit (.restyle (s.windows i) _ _ _ _ state _))

theorem moveTo (hE : Plain E) (s : Server) (i : WindowSlot) (x y : Int32) : Acts E s (s.moveTo i x y) :=
  edit (hE.edit (.restyle (s.windows i) _ x y _ _ _))

theorem wmMinimize (hE : Plain E) (s : Server) (id : UInt32) : Acts E s (s.wmMinimize id).1 := by
  unfold Server.wmMinimize
  split
  · exact .refl
  · next i _ =>
    have hstate : ∀ state, Acts E s ((s.damageWindow i).setState i state) := fun state =>
      (damageWindow s i).trans (setState hE _ i state)
    dsimp only
    split
    · exact (hstate .normal).trans (damageAll _)
    · split
      · exact (hstate .minimized).trans ((focusOn _ 0).trans (damageAll _))
      · exact (hstate .minimized).trans (damageAll _)

theorem wmResizeWindow (s : Server) (owner : ℕ) (id : UInt32) (width height : Int32) (granted : Bool)
    (hR : ∀ i, s.find id = some i → (s.windows i).owner = owner → Allowed screen width height → granted = true →
      ¬(width = (s.windows i).width ∧ height = (s.windows i).height) →
      E (s.windows i) (resized (s.windows i) width height)) :
    Acts E s (s.wmResizeWindow screen owner id width height granted).1 := by
  unfold Server.wmResizeWindow
  split
  · exact .refl
  · next i hi =>
    dsimp only
    split
    · exact .refl
    · next howner =>
      split
      · exact .refl
      · next hsize =>
        split
        · exact .refl
        · next hdiffer =>
          split
          · exact damageWindow s i
          · next hgranted =>
            simp only [not_or, Int32.not_le, gt_iff_lt, Int32.not_lt] at hsize
            have hok : Allowed screen width height := ⟨hsize.1, hsize.2.1, hsize.2.2.1, hsize.2.2.2⟩
            exact (damageWindow s i).trans ((edit (s := s.damageWindow i)
              (hR i hi (not_not.mp howner) hok (by simpa using hgranted) hdiffer)).trans (damageWindow _ i))

theorem handleMouseUp (hE : Plain E) (s : Server) (x y button : Int32) : Acts E s (s.handleMouseUp x y button) := by
  unfold Server.handleMouseUp
  split
  · exact other rfl rfl
  · split
    · split
      · next i _ =>
        have hend : Acts E s { s with resizeId := 0 } := other rfl rfl
        exact hend.trans (queueEvent hE _ i _)
      · exact other rfl rfl
    · split
      · exact queueEvent hE s _ _
      · exact .refl

theorem handleMouseDown (hE : Plain E) (s : Server) (x y button : Int32) :
    Acts E s (s.handleMouseDown x y button) := by
  unfold Server.handleMouseDown
  split
  · exact setFocus hE s 0
  · next i hit _ =>
    have hraised : Acts E s (if has (s.windows i).flags guiBottom = true then s
        else (s.setFocus (s.windows i).id).raiseWindow i) := by
      split
      · exact .refl
      · exact (setFocus hE s _).trans (raiseWindow _ i)
    dsimp only
    generalize (if has (s.windows i).flags guiBottom = true then s
      else (s.setFocus (s.windows i).id).raiseWindow i) = t at hraised
    refine hraised.trans ?_
    split
    · split
      · exact queueEvent hE t i _
      · split
        · exact wmMinimize hE t _
        · exact other rfl rfl
    · split
      · exact other rfl rfl
      · exact queueEvent hE t i _

theorem refocus (hE : Plain E) (s : Server) : Acts E s s.refocus := by
  unfold Server.refocus
  dsimp only
  split
  · exact setFocus hE s _
  · exact .refl

theorem wmDestroyWindow (hE : Plain E) (s : Server) (owner : Option ℕ) (id : UInt32) :
    Acts E s (s.wmDestroyWindow owner id).1 := by
  unfold Server.wmDestroyWindow
  split
  · exact .refl
  · next i _ =>
    dsimp only
    split
    · exact .refl
    · have hgone : Acts E s (((s.damageWindow i).zRemove id).setWindow i
          { ((s.damageWindow i).zRemove id).windows i with used := false }) :=
        ((damageWindow s i).trans (zRemove _ id)).trans (edit (hE.edit (.close _)))
      split
      · exact (hgone.trans (focusOn _ 0)).trans (refocus hE _)
      · exact hgone

theorem wmCloseProcessWindows (hE : Plain E) (s : Server) (owner : ℕ) : Acts E s (s.wmCloseProcessWindows owner) := by
  unfold Server.wmCloseProcessWindows
  generalize List.finRange 32 = slots
  induction slots generalizing s with
  | nil => exact .refl
  | cons i rest ih =>
    rw [List.foldl_cons]
    refine Relation.ReflTransGen.trans ?_ (ih _)
    split
    · exact wmDestroyWindow hE s _ _
    · exact .refl

/-- A window that `wm_create_window` leaves in an empty slot. -/
structure Opened (screen : Screen) (s : Server) (fresh : Window) : Prop where
  id : fresh.id = s.nextId
  size : fresh.used = true ∧ Allowed screen fresh.width fresh.height ∨
    fresh.used = false ∧ fresh.width = 0 ∧ fresh.height = 0

theorem wmCreateWindow (hE : Plain E) (s : Server) (owner : ℕ) (width height : Int32) (title : List UInt8)
    (flags : UInt32) (granted : Bool) (hC : ∀ w fresh, w.used = false → Opened screen s fresh → E w fresh) :
    Acts E s (s.wmCreateWindow screen owner width height title flags granted).1 := by
  unfold Server.wmCreateWindow
  split
  · exact .refl
  · next hpos =>
    split
    · exact .refl
    · next hfit =>
      split
      · exact .refl
      · next slot hslot =>
        have hu : (s.windows slot).used = false := by simpa using List.find?_some hslot
        simp only [not_or, Int32.not_le, gt_iff_lt, Int32.not_lt] at hpos hfit
        have hcount : Acts E s (s.countWindow flags) := other rfl rfl
        dsimp only
        split
        · exact hcount.trans (edit (hC _ _ hu ⟨rfl, .inr ⟨rfl, rfl, rfl⟩⟩))
        · refine hcount.trans ((edit (s := s.countWindow flags) (i := slot)
            (w := { id := s.nextId, used := true, owner := owner, flags := flags, title := title.take 47,
                    x := (s.newPosition screen flags width height).1, y := (s.newPosition screen flags width height).2,
                    width := width, height := height })
            (hC _ _ hu ⟨rfl, .inl ⟨rfl, hpos.1, hpos.2, hfit.1, hfit.2⟩⟩)).trans ((zInsert _ s.nextId flags).trans ?_))
          refine Relation.ReflTransGen.trans ?_ (damageWindow _ slot)
          split
          · exact .refl
          · exact setFocus hE _ s.nextId

theorem wmInvalidate (s : Server) (owner : ℕ) (id corner size : UInt32) :
    Acts E s (s.wmInvalidate owner id corner size).1 := by
  unfold Server.wmInvalidate
  dsimp only
  split
  · exact .refl
  · next i _ =>
    split
    · exact .refl
    · split
      · exact .refl
      · refine .single (.damage ?_)
        split
        · exact .inr (.inl ⟨i, rfl, rfl⟩)
        · exact .inr (.inr ⟨low_half_le size, high_half_le size⟩)

end Acts

/-- The size a call asks a window to take: `SYS_GUI_RESIZE`, or the mouse while a corner is dragged. -/
def resizeOf (s : Server) : Call → Option (WindowSlot × Int32 × Int32)
  | .resize owner id width height granted =>
    match s.find id with
    | some i => if granted = true ∧ (s.windows i).owner = owner then some (i, width, height) else none
    | none => none
  | .mouseMove x y _ granted =>
    match s.find s.resizeId with
    | some i =>
      if granted = true ∧ s.dragId = 0 ∧ s.resizeId ≠ 0 then
        some (i, Server.atLeast 160 (s.resizeStartW + (x - s.resizeStartX)),
          Server.atLeast 100 (s.resizeStartH + (y - s.resizeStartY)))
      else none
    | none => none
  | _ => none

def creates : Call → Bool
  | .create .. => true
  | _ => false

/-- The window a call takes an event from. -/
def pollOf (s : Server) : Call → Option WindowSlot
  | .poll owner id =>
    match s.find id with
    | some i => if (s.windows i).owner = owner then some i else none
    | none => none
  | _ => none

theorem handleMouseMove_acts {E : Window → Window → Prop} (hE : Plain E) (screen : Screen) (s : Server) (x y : Int32)
    (buttons : UInt32) (granted : Bool)
    (hR : ∀ i width height, resizeOf s (.mouseMove x y buttons granted) = some (i, width, height) →
      Allowed screen width height → ¬(width = (s.windows i).width ∧ height = (s.windows i).height) →
      E (s.windows i) (resized (s.windows i) width height)) :
    Acts E s (s.handleMouseMove screen x y buttons granted) := by
  unfold Server.handleMouseMove
  split
  · split
    · exact .refl
    · exact (Acts.damageWindow s _).trans ((Acts.moveTo hE _ _ _ _).trans (Acts.damageWindow _ _))
  · next hdrag =>
    split
    · next hresize =>
      split
      · exact .refl
      · next i hi =>
        dsimp only
        split
        · refine Acts.wmResizeWindow s _ _ _ _ granted fun j hj _ hok hgranted hdiffer => ?_
          have hid := (find_some hi).2
          obtain rfl : i = j := Option.some.inj (hi.symm.trans (hid ▸ hj))
          refine hR i _ _ ?_ hok hdiffer
          simp only [resizeOf, hi, hgranted, not_not.mp hdrag, ne_eq, hresize, not_false_iff, and_self, if_true]
        · exact .refl
    · split
      · exact Acts.queueEvent hE s _ _
      · exact .refl

/-- Every call is a run of actions, with whatever edits its resize, its poll and its new window are. -/
theorem run_acts_of {E : Window → Window → Prop} (hE : Plain E) (screen : Screen) (s : Server) (c : Call)
    (hR : ∀ i width height, resizeOf s c = some (i, width, height) → Allowed screen width height →
      ¬(width = (s.windows i).width ∧ height = (s.windows i).height) →
      E (s.windows i) (resized (s.windows i) width height))
    (hP : ∀ i, pollOf s c = some i → E (s.windows i) { s.windows i with eventTail := (s.windows i).eventTail + 1 })
    (hC : creates c → ∀ w fresh, w.used = false → Acts.Opened screen s fresh → E w fresh) :
    Acts E s (s.run screen c) := by
  have hcursor : ∀ x y, Acts E s { s with cursorX := x, cursorY := y } := fun x y => Acts.other rfl rfl
  cases c with
  | create owner width height title flags granted =>
    exact Acts.wmCreateWindow hE s owner width height title flags granted (hC rfl)
  | destroy owner id => exact Acts.wmDestroyWindow hE s owner id
  | closeProcess owner => exact Acts.wmCloseProcessWindows hE s owner
  | invalidate owner id corner size => exact Acts.wmInvalidate s owner id corner size
  | poll owner id =>
    simp only [Server.run, Server.wmPollEvent]
    split
    · exact .refl
    · next i hi =>
      split
      · exact .refl
      · next howner =>
        split
        · exact .refl
        · refine Acts.edit (hP i ?_)
          simp only [pollOf, hi, not_not.mp howner, if_true]
  | setTitle owner id title =>
    simp only [Server.run, Server.wmSetTitle]
    split
    · exact .refl
    · split
      · exact .refl
      · next i _ _ =>
        exact (Acts.edit (hE.edit (.restyle (s.windows i) (title.take 47) _ _ _ _ _))).trans (Acts.damageWindow _ i)
  | move owner id x y =>
    simp only [Server.run, Server.wmMoveWindow]
    split
    · exact .refl
    · split
      · exact .refl
      · next i _ _ => exact (Acts.damageWindow s i).trans ((Acts.moveTo hE _ i x y).trans (Acts.damageWindow _ i))
  | resize owner id width height granted =>
    refine Acts.wmResizeWindow s owner id width height granted fun i hi howner hok hgranted hdiffer => ?_
    refine hR i width height ?_ hok hdiffer
    simp only [resizeOf, hi, hgranted, howner, and_self, if_true]
  | activate id =>
    simp only [Server.run, Server.wmActivate]
    split
    · exact .refl
    · next i _ => exact (Acts.setState hE s i .normal).trans ((Acts.raiseWindow _ i).trans (Acts.setFocus hE _ id))
  | minimize id => exact Acts.wmMinimize hE s id
  | setFlags owner id flags =>
    simp only [Server.run, Server.wmSetFlags]
    split
    · exact .refl
    · split
      · exact .refl
      · next i _ _ =>
        exact (Acts.edit (hE.edit (.restyle (s.windows i) _ _ _ flags _ _))).trans
          ((Acts.zRemove _ id).trans ((Acts.zInsert _ id flags).trans (Acts.damageAll _)))
  | mouseDown x y button => exact (hcursor x y).trans (Acts.handleMouseDown hE _ x y button)
  | mouseUp x y button => exact (hcursor x y).trans (Acts.handleMouseUp hE _ x y button)
  | mouseMove x y buttons granted =>
    exact (hcursor x y).trans (handleMouseMove_acts hE screen { s with cursorX := x, cursorY := y } x y buttons granted hR)
  | wheel x y wheel =>
    simp only [Server.run, Server.handleWheel]
    split
    · exact Acts.queueEvent hE s _ _
    · exact .refl
  | key key =>
    simp only [Server.run, Server.handleKey]
    split
    · exact Acts.queueEvent hE s _ _
    · exact .refl
  | trackCursor =>
    simp only [Server.run, Server.trackCursor]
    split
    · have hfits : (13 : Int32) ≤ 65535 ∧ (20 : Int32) ≤ 65535 := by decide
      have hsmall : ∀ (t : Server) (x y : Int32), Acts E t (t.damageRect ⟨x, y, 13, 20⟩) := fun t x y =>
        .single (.damage (.inr (.inr hfits)))
      exact (hsmall s _ _).trans ((hsmall _ _ _).trans (Acts.other rfl rfl))
    · exact .refl
  | draw i pixels => exact Acts.edit (hE.edit (.restyle (s.windows i) _ _ _ _ _ pixels))

/-- One change of one window. -/
inductive Edit (screen : Screen) : Window → Window → Prop
  | plain {w w' : Window} (h : PlainEdit w w') : Edit screen w w'
  | poll (w : Window) : Edit screen w { w with eventTail := w.eventTail + 1 }
  | resize (w : Window) {width height : Int32} (h : Allowed screen width height) :
      Edit screen w (resized w width height)
  | create {s : Server} (w : Window) {fresh : Window} (hw : w.used = false) (h : Acts.Opened screen s fresh) :
      Edit screen w fresh

/-- Every call is a run of such changes. -/
theorem run_acts (screen : Screen) (s : Server) (c : Call) : Acts (Edit screen) s (s.run screen c) :=
  run_acts_of ⟨.plain⟩ screen s c (fun i _ _ _ hok _ => .resize (s.windows i) hok) (fun i _ => .poll (s.windows i))
    fun _ w _ hw ho => .create w hw ho

/-- A relation that contains the edits and is transitive holds between every window before and after. -/
theorem Acts.lift {E R : Window → Window → Prop} (hrefl : ∀ w, R w w) (hE : ∀ {w w' w''}, R w w' → E w' w'' → R w w'')
    {s t : Server} (h : Acts E s t) (i : WindowSlot) : R (s.windows i) (t.windows i) := by
  induction h with
  | refl => exact hrefl _
  | @tail t _ _ hact ih =>
    cases hact with
    | @edit j w he =>
      by_cases hj : i = j
      · subst hj
        rw [t.setWindow_windows_self]
        exact hE ih he
      · rw [t.setWindow_windows_ne w hj]
        exact ih
    | damage => exact ih
    | damageAll => exact ih
    | other hw _ =>
      rw [hw]
      exact ih

/-- A property that every edit keeps holds of every window after a call. -/
theorem run_keeps {screen : Screen} {P : Window → Prop} (hP : ∀ {w w'}, P w → Edit screen w w' → P w') {s : Server}
    (h : ∀ i, P (s.windows i)) (c : Call) (i : WindowSlot) : P ((s.run screen c).windows i) :=
  (run_acts screen s c).lift (R := fun w w' => P w → P w') (fun _ hw => hw) (fun h₁ h₂ hw => hP (h₁ hw) h₂) i (h i)

theorem queueEvent_fields (w : Window) (event : Event) : (w.queueEvent event).used = w.used ∧
    (w.queueEvent event).width = w.width ∧ (w.queueEvent event).height = w.height := by
  unfold Window.queueEvent
  dsimp only
  split <;> exact ⟨rfl, rfl, rfl⟩

/-- A window in use has an allowed size. -/
def Sized (screen : Screen) (w : Window) : Prop := w.used → Allowed screen w.width w.height

theorem Sized.edit {screen : Screen} {w w' : Window} (h : Sized screen w) (he : Edit screen w w') :
    Sized screen w' := by
  cases he with
  | plain hp =>
    cases hp with
    | queue event =>
      obtain ⟨hu, hw, hh⟩ := queueEvent_fields w event
      unfold Sized
      rw [hu, hw, hh]
      exact h
    | restyle => exact h
    | close => exact fun hu => absurd hu (by simp)
  | poll => exact h
  | resize _ hok =>
    obtain ⟨-, hw, hh⟩ := queueEvent_fields _ _
    intro _
    unfold resized Window.sendSimple
    rw [hw, hh]
    exact hok
  | create _ _ ho =>
    rcases ho.size with ⟨-, hok⟩ | ⟨hu, -⟩
    · exact fun _ => hok
    · exact fun hf => absurd hf (by simp [hu])

/-- No window, in use or not, is larger than the screen. -/
def Bounded (screen : Screen) (w : Window) : Prop := w.width ≤ screen.width ∧ w.height ≤ screen.height

theorem Bounded.edit {screen : Screen} {w w' : Window} (h : Bounded screen w) (he : Edit screen w w') :
    Bounded screen w' := by
  cases he with
  | plain hp =>
    cases hp with
    | queue event =>
      obtain ⟨-, hw, hh⟩ := queueEvent_fields w event
      unfold Bounded
      rw [hw, hh]
      exact h
    | restyle => exact h
    | close => exact h
  | poll => exact h
  | resize _ hok =>
    obtain ⟨-, hw, hh⟩ := queueEvent_fields _ _
    unfold Bounded resized Window.sendSimple
    rw [hw, hh]
    exact ⟨hok.width_le, hok.height_le⟩
  | create _ _ ho =>
    rcases ho.size with ⟨-, hok⟩ | ⟨-, hw, hh⟩
    · exact ⟨hok.width_le, hok.height_le⟩
    · unfold Bounded
      rw [hw, hh]
      exact ⟨Int32.le_of_lt screen.width_pos, Int32.le_of_lt screen.height_pos⟩

end SifarOS.WindowEdits
