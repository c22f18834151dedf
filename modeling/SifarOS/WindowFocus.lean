import SifarOS.WindowMessages

/-! # The keyboard focus

`focus_id` names the window that gets the keys. It is moved when a window is opened, pressed,
activated, minimised or closed; closing the focused window hands the focus to the topmost window
of the middle band, without a look at its state. -/
namespace SifarOS.WindowFocus
open Graphics WindowServer WindowStacking WindowEdits WindowMessages ReachableStates

/-- Some window with this id is in use and not minimised. -/
def Shows (s : Server) (id : UInt32) : Prop :=
  ∃ i, (s.windows i).used = true ∧ (s.windows i).id = id ∧ (s.windows i).state ≠ .minimized

def FocusValid (s : Server) : Prop := s.focusId = 0 ∨ Shows s s.focusId

instance (s : Server) (id : UInt32) : Decidable (Shows s id) := inferInstanceAs (Decidable (∃ _, _))
instance (s : Server) : Decidable (FocusValid s) := inferInstanceAs (Decidable (_ ∨ _))

/-- The window that `wm_destroy_window` looks for when window `id` goes with the focus: the topmost
of the others in the middle band. -/
def successor (s : Server) (id : UInt32) : Option WindowSlot :=
  ((stack s).filter (· ≠ id)).reverse.findSome? fun other =>
    match s.find other with
    | some i => if has (s.windows i).flags (guiBottom ||| guiTop) then none else some i
    | none => none

/-- If the call closes the focused window, the window that gets the focus shows. -/
def HandsOver (s : Server) (owner : Option ℕ) (id : UInt32) : Prop :=
  ∀ i, s.find id = some i → owner.any (· ≠ (s.windows i).owner) = false → s.focusId = id →
    ∀ j, successor s id = some j → (s.windows j).state ≠ .minimized

instance (s : Server) (owner : Option ℕ) (id : UInt32) : Decidable (HandsOver s owner id) :=
  inferInstanceAs (Decidable (∀ _, _))

/-- The same of every window that `wm_close_process_windows` closes, in the state it is closed in. -/
def HandsOverAll (owner : ℕ) : Server → List WindowSlot → Prop
  | _, [] => True
  | s, i :: rest =>
    if (s.windows i).used ∧ (s.windows i).owner = owner then
      HandsOver s (some owner) (s.windows i).id ∧
        HandsOverAll owner (s.wmDestroyWindow (some owner) (s.windows i).id).1 rest
    else HandsOverAll owner s rest

/-- A call that hands the focus to no minimised window. -/
def Attended (s : Server) : Call → Prop
  | .destroy owner id => HandsOver s owner id
  | .closeProcess owner => HandsOverAll owner s (List.finRange 32)
  | _ => True

/-- No message matters to the focus. -/
def nothing : EventType → Bool := fun _ => false

section Focus
variable {s t : Server} {id : UInt32}

theorem shows_congr (h : Quiet nothing s t) : Shows t id ↔ Shows s id := by
  simp only [Shows, (h _).used, (h _).id, (h _).state]

theorem FocusValid.congr (h : FocusValid s) (hq : Quiet nothing s t) (hf : t.focusId = s.focusId) : FocusValid t := by
  unfold FocusValid
  rw [hf, shows_congr hq]
  exact h

/-- Moving the focus to a window that shows. -/
theorem focusValid_setFocus (h : id = 0 ∨ Shows s id) : FocusValid (s.setFocus id) := by
  unfold FocusValid
  rw [setFocus_focusId, shows_congr (Quiet.setFocus id rfl rfl)]
  exact h

/-- An edit of one slot does not hide the windows with other ids. -/
theorem Shows.setWindow {i : WindowSlot} {w : Window} (h : Shows s id)
    (hw : (s.windows i).used = true → (s.windows i).id = id → (s.windows i).state ≠ .minimized →
      w.used = true ∧ w.id = id ∧ w.state ≠ .minimized) : Shows (s.setWindow i w) id := by
  obtain ⟨j, hu, hid, hs⟩ := h
  refine ⟨j, ?_⟩
  by_cases hj : j = i
  · subst hj
    rw [s.setWindow_windows_self]
    exact hw hu hid hs
  · rw [s.setWindow_windows_ne w hj]
    exact ⟨hu, hid, hs⟩

theorem FocusValid.setWindow {i : WindowSlot} {w : Window} (h : FocusValid s)
    (hw : (s.windows i).used = true → (s.windows i).id = s.focusId → (s.windows i).state ≠ .minimized →
      w.used = true ∧ w.id = s.focusId ∧ w.state ≠ .minimized) : FocusValid (s.setWindow i w) :=
  h.imp (fun h0 => h0) fun hs => hs.setWindow hw

theorem FocusValid.wmMinimize (h : FocusValid s) (id : UInt32) : FocusValid (s.wmMinimize id).1 := by
  unfold Server.wmMinimize
  split
  · exact h
  · next i hi =>
    obtain ⟨-, hid⟩ := find_some hi
    dsimp only
    split
    · exact FocusValid.setWindow (s := s.damageWindow i) h fun hu hid' _ => ⟨hu, hid', by simp⟩
    · split
      · exact Or.inl rfl
      · next hne =>
        refine FocusValid.setWindow (s := s.damageWindow i) h fun _ hid' _ => absurd ?_ hne
        exact hid'.symm.trans hid

theorem FocusValid.wmActivate (h : FocusValid s) (id : UInt32) : FocusValid (s.wmActivate id).1 := by
  unfold Server.wmActivate
  split
  · exact h
  · next i hi =>
    obtain ⟨hu, hid⟩ := find_some hi
    refine focusValid_setFocus (Or.inr ⟨i, ?_⟩)
    have hwin : ((s.setState i .normal).raiseWindow i).windows i = { s.windows i with state := .normal } :=
      Server.setWindow_windows_self s i _
    rw [hwin]
    exact ⟨hu, hid, by simp⟩

theorem windowAt_shown {x y : Int32} {i : WindowSlot} {hit : Bool} (h : s.windowAt x y = some (i, hit)) :
    (s.windows i).used = true ∧ (s.windows i).state ≠ .minimized := by
  refine ⟨(find_some (Layered.windowAt_found h)).1, ?_⟩
  obtain ⟨k, -, hk⟩ := List.exists_of_findSome?_eq_some h
  revert hk
  split
  · simp
  · dsimp only
    split
    · simp
    · next hs =>
      split
      · simp
      · intro hij
        obtain ⟨rfl, -⟩ := Prod.mk.inj (Option.some.inj hij)
        exact hs

theorem FocusValid.handleMouseDown (h : FocusValid s) (x y button : Int32) :
    FocusValid (s.handleMouseDown x y button) := by
  unfold Server.handleMouseDown
  split
  · exact Or.inl (setFocus_focusId s 0)
  · next i hit hat =>
    obtain ⟨hu, hs⟩ := windowAt_shown hat
    have hraised : FocusValid (if has (s.windows i).flags guiBottom = true then s
        else (s.setFocus (s.windows i).id).raiseWindow i) := by
      split
      · exact h
      · exact (focusValid_setFocus (Or.inr ⟨i, hu, rfl, hs⟩)).congr (Quiet.of_windows rfl) rfl
    dsimp only
    generalize (if has (s.windows i).flags guiBottom = true then s
      else (s.setFocus (s.windows i).id).raiseWindow i) = t at hraised
    split
    · split
      · exact hraised.congr (Quiet.queueEvent i rfl) rfl
      · split
        · exact hraised.wmMinimize _
        · exact hraised.congr (Quiet.of_windows rfl) rfl
    · split
      · exact hraised.congr (Quiet.of_windows rfl) rfl
      · exact hraised.congr (Quiet.queueEvent i rfl) rfl

theorem FocusValid.wmCreateWindow (h : FocusValid s) (screen : Screen) (owner : ℕ) (width height : Int32)
    (title : List UInt8) (flags : UInt32) (granted : Bool) :
    FocusValid (s.wmCreateWindow screen owner width height title flags granted).1 := by
  unfold Server.wmCreateWindow
  split
  · exact h
  split
  · exact h
  split
  · exact h
  next slot hslot =>
    have hfree : (s.windows slot).used = false := by simpa using List.find?_some hslot
    have hkept : ∀ w, FocusValid ((s.countWindow flags).setWindow slot w) := fun w =>
      FocusValid.setWindow (s := s.countWindow flags) h fun hu => absurd (hfree.symm.trans hu) (by simp)
    dsimp only
    split
    · exact hkept _
    · refine FocusValid.congr ?_ (Quiet.of_windows rfl) rfl
      split
      · exact (hkept _).congr (Quiet.of_windows rfl) rfl
      · refine focusValid_setFocus (Or.inr ⟨slot, ?_⟩)
        rw [zInsert_windows, Server.setWindow_windows_self]
        simp

/-- The state `wm_destroy_window` is in before it looks at the focus. -/
def removed (s : Server) (i : WindowSlot) (id : UInt32) : Server :=
  ((s.damageWindow i).zRemove id).setWindow i { s.windows i with used := false }

theorem removed_find {i : WindowSlot} (hi : s.find id = some i) {other : UInt32} (h : other ≠ id) :
    (removed s i id).find other = s.find other := by
  unfold Server.find
  congr 1
  funext j
  by_cases hj : j = i
  · subst hj
    have hne : (s.windows j).id ≠ other := fun he => h (he.symm.trans (find_some hi).2)
    simp [removed, hne]
  · rw [removed, Server.setWindow_windows_ne _ _ hj]
    rfl

/-- The id `wm_destroy_window` gives the focus to. -/
def candidate (s : Server) : Option UInt32 :=
  (stack s).reverse.findSome? fun other =>
    match s.find other with
    | some i => if has (s.windows i).flags (guiBottom ||| guiTop) then none else some (s.windows i).id
    | none => none

theorem refocus_eq (s : Server) : s.refocus = match candidate s with
    | some id => s.setFocus id
    | none => s := by
  unfold candidate stack entries Server.refocus
  rw [← List.map_reverse, List.findSome?_map]
  rfl

theorem findSome?_congr_of_mem {α β : Type*} {f g : α → Option β} {l : List α} (h : ∀ a ∈ l, f a = g a) :
    l.findSome? f = l.findSome? g := by
  induction l with
  | nil => rfl
  | cons a rest ih =>
    rw [List.findSome?_cons, List.findSome?_cons, h a List.mem_cons_self,
      ih fun b hb => h b (List.mem_cons_of_mem a hb)]

/-- When a window goes, the loop finds the successor it had. -/
theorem removed_refocus {i : WindowSlot} (hi : s.find id = some i) :
    ((removed s i id).focusOn 0).refocus = match successor s id with
      | some j => ((removed s i id).focusOn 0).setFocus (s.windows j).id
      | none => (removed s i id).focusOn 0 := by
  have hstack : stack ((removed s i id).focusOn 0) = (stack s).filter (· ≠ id) := stack_zRemove (s.damageWindow i) id
  have hsearch : ∀ other ∈ ((stack s).filter (· ≠ id)).reverse,
      (match ((removed s i id).focusOn 0).find other with
        | some k => if has (((removed s i id).focusOn 0).windows k).flags (guiBottom ||| guiTop) then none
          else some (((removed s i id).focusOn 0).windows k).id
        | none => none) =
      Option.map (fun j => (s.windows j).id) (match s.find other with
        | some k => if has (s.windows k).flags (guiBottom ||| guiTop) then none else some k
        | none => none) := by
    intro other hother
    have hne : other ≠ id := by simpa using (List.mem_filter.mp (List.mem_reverse.mp hother)).2
    have hfind : ((removed s i id).focusOn 0).find other = s.find other := removed_find hi hne
    rw [hfind]
    cases hf : s.find other with
    | none => rfl
    | some k =>
      have hk : k ≠ i := by
        rintro rfl
        exact hne ((find_some hf).2.symm.trans (find_some hi).2)
      have hwin : ((removed s i id).focusOn 0).windows k = s.windows k :=
        Server.setWindow_windows_ne _ _ hk
      dsimp only
      rw [hwin]
      split <;> rfl
  rw [refocus_eq]
  unfold candidate successor
  rw [hstack, findSome?_congr_of_mem hsearch]
  rw [← Function.comp_def (Option.map _), ← List.map_findSome?]
  generalize List.findSome? _ _ = found
  cases found <;> rfl

/-- The successor is the window its id stands for. -/
theorem successor_found {j : WindowSlot} (h : successor s id = some j) :
    s.find (s.windows j).id = some j ∧ (s.windows j).id ≠ id := by
  obtain ⟨other, hmem, hother⟩ := List.exists_of_findSome?_eq_some h
  have hne : other ≠ id := by simpa using (List.mem_filter.mp (List.mem_reverse.mp hmem)).2
  cases hf : s.find other with
  | none => simp [hf] at hother
  | some k =>
    simp only [hf] at hother
    split at hother
    · cases hother
    · obtain rfl := Option.some.inj hother
      rw [(find_some hf).2]
      exact ⟨hf, hne⟩

theorem FocusValid.wmDestroyWindow (h : FocusValid s) {owner : Option ℕ} (hh : HandsOver s owner id) :
    FocusValid (s.wmDestroyWindow owner id).1 := by
  unfold Server.wmDestroyWindow
  split
  · exact h
  · next i hi =>
    dsimp only
    split
    · exact h
    · next howner =>
      split
      · next hfocus =>
        have hnext := hh i hi (by simpa using howner) hfocus
        change FocusValid ((removed s i id).focusOn 0).refocus
        rw [removed_refocus hi]
        split
        · next j hj =>
          obtain ⟨hfound, hne⟩ := successor_found hj
          have hu := (find_some hfound).1
          have hji : j ≠ i := by
            rintro rfl
            exact hne (find_some hi).2
          refine focusValid_setFocus (Or.inr ⟨j, ?_⟩)
          have hwin : ((removed s i id).focusOn 0).windows j = s.windows j := Server.setWindow_windows_ne _ _ hji
          rw [hwin]
          exact ⟨hu, rfl, hnext j hj⟩
        · exact Or.inl rfl
      · next hne =>
        refine FocusValid.setWindow (s := (s.damageWindow i).zRemove id) h fun _ hid' _ => absurd ?_ hne
        exact hid'.symm.trans (find_some hi).2

theorem FocusValid.closeAll (h : FocusValid s) (owner : ℕ) {slots : List WindowSlot}
    (hh : HandsOverAll owner s slots) :
    FocusValid (slots.foldl (fun s i =>
      if (s.windows i).used ∧ (s.windows i).owner = owner then (s.wmDestroyWindow (some owner) (s.windows i).id).1
      else s) s) := by
  induction slots generalizing s with
  | nil => exact h
  | cons i rest ih =>
    rw [List.foldl_cons]
    unfold HandsOverAll at hh
    split at hh
    · next hmine =>
      rw [if_pos hmine]
      exact ih (h.wmDestroyWindow hh.1) hh.2
    · next hother =>
      rw [if_neg hother]
      exact ih h hh

/-- One call keeps the focus valid when it hands it to no minimised window. -/
theorem FocusValid.run (h : FocusValid s) (screen : Screen) {c : Call} (hc : Attended s c) :
    FocusValid (s.run screen c) := by
  by_cases hs : settled c = true
  · exact h.congr (settled_quiet screen s hs rfl (fun _ _ _ _ => rfl) rfl rfl rfl) (settled_focus screen s hs)
  cases c with
  | create owner width height title flags granted => exact h.wmCreateWindow screen owner width height title flags granted
  | destroy owner id => exact h.wmDestroyWindow hc
  | closeProcess owner => exact h.closeAll owner hc
  | poll owner id =>
    simp only [Server.run, Server.wmPollEvent]
    repeat' split
    · exact h
    · exact h
    · exact h
    · next i _ _ _ => exact h.setWindow fun hu hid hstate => ⟨hu, hid, hstate⟩
  | activate id => exact h.wmActivate id
  | minimize id => exact h.wmMinimize id
  | mouseDown x y button => exact FocusValid.handleMouseDown (s := { s with cursorX := x, cursorY := y }) h x y button
  | _ => exact absurd rfl hs

end Focus

theorem focusValid_of_attended (screen : Screen) {s : Server}
    (h : Reachable (· = wmInit screen) (fun s t => ∃ c, Attended s c ∧ t = s.run screen c) s) : FocusValid s := by
  refine h.invariant (P := FocusValid) ?_ ?_
  · rintro s rfl
    exact Or.inl rfl
  · rintro s t hs ⟨c, hc, rfl⟩
    exact hs.run screen hc

/-- A key goes to a window that shows, or nowhere. -/
theorem handleKey_shown {s : Server} (h : FocusValid s) (hids : ProperIds s) (key : UInt32) :
    s.handleKey key = s ∨ ∃ i, (s.windows i).used = true ∧ (s.windows i).state ≠ .minimized ∧
      s.handleKey key = s.setWindow i ((s.windows i).queueEvent { type := .key, key := key }) := by
  unfold Server.handleKey
  split
  · next i hi =>
    obtain ⟨hu, hid⟩ := find_some hi
    rcases h with h0 | ⟨j, hju, hjid, hjs⟩
    · exact absurd (hid.trans h0) (hids.nonzero i hu)
    · obtain rfl := hids.distinct i j hu hju (hid.trans hjid.symm)
      exact Or.inr ⟨i, hu, hjs, rfl⟩
  · exact Or.inl rfl

/-- In every run in which no closed window hands the focus to a minimised one, the focus is nobody's
or a window's that shows. If moreover the window ids stay distinct, every key goes to a window
that shows or nowhere. -/
theorem focus_valid (screen : Screen) :
    (∀ s, Reachable (· = wmInit screen) (fun s t => ∃ c, Attended s c ∧ t = s.run screen c) s →
      s.focusId = 0 ∨ ∃ i, (s.windows i).used = true ∧ (s.windows i).id = s.focusId ∧
        (s.windows i).state ≠ .minimized) ∧
    ∀ s, Reachable (· = wmInit screen) (fun s t => ∃ c, Attended s c ∧ FreshId s c ∧ t = s.run screen c) s →
      ∀ key, s.handleKey key = s ∨ ∃ i, (s.windows i).used = true ∧ (s.windows i).state ≠ .minimized ∧
        s.handleKey key = s.setWindow i ((s.windows i).queueEvent { type := .key, key := key }) := by
  constructor
  · intro s h
    exact focusValid_of_attended screen h
  · intro s h key
    have hboth : FocusValid s ∧ ProperIds s := by
      refine h.invariant (P := fun s => FocusValid s ∧ ProperIds s) ?_ ?_
      · rintro s rfl
        exact ⟨Or.inl rfl, properIds_wmInit screen⟩
      · rintro s t ⟨hv, hids⟩ ⟨c, hc, hfresh, rfl⟩
        exact ⟨hv.run screen hc, hids.run screen hfresh⟩
    exact handleKey_shown hboth.1 hboth.2 key

/-- Two windows are opened and the second is closed again. -/
def closeOverShown : Server :=
  (((wmInit xga).run xga (.create 1 200 100 [] 0 true)).run xga (.create 2 200 100 [] 0 true)).run xga
    (.destroy (some 2) 2)

/-- The first one has the focus again. -/
theorem focus_valid_closeOverShown : closeOverShown.focusId = 1 ∧
    (closeOverShown.focusId = 0 ∨ ∃ i, (closeOverShown.windows i).used = true ∧
      (closeOverShown.windows i).id = closeOverShown.focusId ∧ (closeOverShown.windows i).state ≠ .minimized) := by
  refine ⟨by decide, (focus_valid xga).1 _ ?_⟩
  refine .next (.next (.next (.start rfl) ⟨.create 1 200 100 [] 0 true, trivial, rfl⟩)
    ⟨.create 2 200 100 [] 0 true, trivial, rfl⟩) ⟨.destroy (some 2) 2, ?_, rfl⟩
  unfold Attended
  decide

/-- Two windows, the first minimised by hand; then the second is closed. -/
def closeOverMinimized : List Call :=
  [.create 1 200 100 [] 0 true, .create 2 200 100 [] 0 true, .minimize 1, .destroy (some 2) 2]

/-- The focus goes to the minimised window. -/
theorem focus_on_minimized :
    ¬∀ s, Reachable (· = wmInit xga) (fun s t => ∃ c, t = s.run xga c) s →
      s.focusId = 0 ∨ ∃ i, (s.windows i).used = true ∧ (s.windows i).id = s.focusId ∧
        (s.windows i).state ≠ .minimized := by
  intro hall
  have hreach : Reachable (· = wmInit xga) (fun s t => ∃ c, t = s.run xga c)
      (closeOverMinimized.foldl (Server.run xga) (wmInit xga)) := by
    refine Reachable.follow (f := fun s c => some (Server.run xga s c)) (l := closeOverMinimized) ?_ (.start rfl) rfl
    rintro s c t ht
    exact ⟨c, (Option.some.inj ht).symm⟩
  have hvalid : FocusValid (closeOverMinimized.foldl (Server.run xga) (wmInit xga)) := hall _ hreach
  exact absurd hvalid (by decide)

end SifarOS.WindowFocus
