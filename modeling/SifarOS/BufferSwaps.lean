import SifarOS.AtomicBuffers

/-! # Buffers are swapped atomically

`wm_create_window` and `wm_resize_window` give a window all of a buffer or leave everything as it was, in every state
that the window server can come to. -/
namespace SifarOS.WindowBuffers
open ByteMemory Graphics Paging Paging.Machine WindowServer WindowStacking WindowEdits ReachableStates

variable {screen : Screen} {d d' : Desktop} {i j : WindowSlot} {g k n o : ℕ}

/-! ## What the requests do -/

/-- The slot of a new window is one that was empty. -/
theorem unused_of_find {s : Server} {slot : WindowSlot}
    (h : ((List.finRange 32).find? fun i => !(s.windows i).used) = some slot) : (s.windows slot).used = false := by
  simpa using List.find?_some h

/-- Where a window is created or resized, it has been given a whole new buffer in the place of the frames in `old`. -/
structure Given (d d' : Desktop) (i : WindowSlot) (old : ℕ → Prop) (width height : Int32) (w : Window) : Prop where
  directory : d'.directory = d.directory
  machine : Replaced d.directory d.machine d'.machine w.owner i old (d'.buffers i).bufferPhys (d'.buffers i).bufferPages
  steady : Steady (d.server.setWindow i w) d'.server
  there : w.used = true
  size : w.width = width ∧ w.height = height
  other : ∀ j, j ≠ i → d'.buffers j = d.buffers j
  buffer : (d'.buffers i).userAddress = address i ∧ (d'.buffers i).bufferPages = pagesFor width height ∧
    (d'.buffers i).surface = surfaceInit (d'.buffers i).bufferPhys width height width

theorem Sound.given (h : Sound screen d) {old : ℕ → Prop} {width height : Int32} {w : Window} (hg : Given d d' i old width height w)
    (hold : ∀ j, j ≠ i → (d.server.windows j).used = true → ∀ g, (d.buffers j).Has g → ¬old g)
    (hprev : (d.server.windows i).used = true → (d.server.windows i).owner = w.owner) (hok : Allowed screen width height) :
    Sound screen d' := by
  obtain ⟨hwidth, hheight⟩ := hg.size
  obtain ⟨haddress, hpages, hsurface⟩ := hg.buffer
  have hbuffers : d'.buffers = Function.update d.buffers i (d'.buffers i) := by
    funext j
    rcases eq_or_ne j i with rfl | hne
    · rw [Function.update_self]
    · rw [Function.update_of_ne hne, hg.other j hne]
  refine h.replaced hg.directory hg.machine hold hprev hg.steady hg.there rfl ?_ hbuffers ⟨haddress, rfl, ?_, rfl, ?_⟩
  · rwa [hwidth, hheight]
  · rw [hpages, hwidth, hheight]
  · rw [hsurface, hwidth, hheight]

/-- `wm_create_window` gives a new window its buffer, or nothing has changed. -/
theorem createWindow_cases (hs : screen.width ≤ 1280 ∧ screen.height ≤ 800) (h : Sound screen d) (owner : ℕ) (width height : Int32)
    (title : List UInt8) (flags : UInt32) :
    (((d.createWindow screen owner width height title flags).2 = -1 ∨ (d.createWindow screen owner width height title flags).2 = -2 ∨
        (d.createWindow screen owner width height title flags).2 = -3) ∧
      Refused d (d.createWindow screen owner width height title flags).1) ∨
    Allowed screen width height ∧ ∃ i w, (d.server.windows i).used = false ∧ w.owner = owner ∧
      (d.createWindow screen owner width height title flags).2 =
        ((d.createWindow screen owner width height title flags).1.server.windows i).id.toInt32 ∧
      Given d (d.createWindow screen owner width height title flags).1 i (fun _ => False) width height w := by
  unfold Desktop.createWindow
  by_cases hpos : width ≤ 0 ∨ height ≤ 0
  · rw [if_pos hpos]
    exact Or.inl ⟨Or.inl rfl, .refl h.spaces⟩
  by_cases hfit : width > screen.width ∨ height > screen.height
  · rw [if_neg hpos, if_pos hfit]
    exact Or.inl ⟨Or.inl rfl, .refl h.spaces⟩
  rw [if_neg hpos, if_neg hfit]
  have hok : Allowed screen width height := by
    simp only [not_or, Int32.not_le, gt_iff_lt, Int32.not_lt] at hpos hfit
    exact ⟨hpos.1, hpos.2, hfit.1, hfit.2⟩
  obtain ⟨hsome, hmost⟩ := pagesFor_bounds hs hok
  split
  · exact Or.inl ⟨Or.inr (Or.inl rfl), .refl h.spaces⟩
  · next slot hslot =>
    have hunused := unused_of_find hslot
    have hmost' : pagesFor width height ≤ 1024 := Nat.le_trans hmost (by decide)
    rcases allocateBuffer_cases (o := owner) (w := newBuffer slot) h.spaces rfl hsome hmost' with
      ⟨m', he, hm, -⟩ | ⟨m', f, he, hlive, hm⟩
    · obtain ⟨w, hw, hserver⟩ := wmCreateWindow_refused owner title flags hpos hfit hslot
      rw [he]
      dsimp only [Option.isSome_none]
      rw [hserver]
      refine Or.inl ⟨Or.inr (Or.inr rfl), rfl, hm, rfl, rfl, rfl, fun i => ?_, fun i hi => ?_⟩
      · rcases eq_or_ne i slot with rfl | hne
        · rw [hunused, ← hw]
          exact congrArg Window.used (Server.setWindow_windows_self _ i w)
        · exact congrArg Window.used (Server.setWindow_windows_ne _ w hne)
      · have hne : i ≠ slot := by
          rintro rfl
          rw [hunused] at hi
          cases hi
        exact ⟨Server.setWindow_windows_ne _ w hne, Function.update_of_ne hne ..⟩
    · obtain ⟨⟨w, hused, howner, hwidth, hheight, hsteady⟩, hcode⟩ := Steady.wmCreateWindow owner title flags hpos hfit hslot
      rw [he]
      dsimp only [Option.isSome_some, Option.getD_some]
      refine Or.inr ⟨hok, slot, w, hunused, howner, hcode, rfl, ?_, hsteady, hused, ⟨hwidth, hheight⟩, fun j hne => Function.update_of_ne hne ..,
        ?_⟩
      · dsimp only
        rw [Function.update_self, howner]
        refine hm.replaced hlive hsome hmost' fun k hk => h.empty slot owner hlive (fun hclash => ?_) k hk
        rw [hunused] at hclash
        cases hclash
      · dsimp only
        rw [Function.update_self]
        exact ⟨rfl, rfl, rfl⟩

/-- `wm_resize_window` exchanges the buffer of a window, or nothing has changed. -/
theorem resizeWindow_cases (hs : screen.width ≤ 1280 ∧ screen.height ≤ 800) (h : Sound screen d) (owner : ℕ) (id : UInt32)
    (width height : Int32) :
    ((d.resizeWindow screen owner id width height).2 = -1 ∧ Refused d (d.resizeWindow screen owner id width height).1 ∧
      (d.resizeWindow screen owner id width height).1.server.windows = d.server.windows ∧
      (d.resizeWindow screen owner id width height).1.buffers = d.buffers) ∨
    ∃ i, d.server.find id = some i ∧ (d.server.windows i).owner = owner ∧ (d.resizeWindow screen owner id width height).2 = 0 ∧
      ((width = (d.server.windows i).width ∧ height = (d.server.windows i).height ∧ (d.resizeWindow screen owner id width height).1 = d) ∨
        Allowed screen width height ∧ ∃ w, w.owner = owner ∧
          Given d (d.resizeWindow screen owner id width height).1 i (d.buffers i).Has width height w ∧
          ∀ g, (d.resizeWindow screen owner id width height).1.machine.bitmap g = true ↔
            (d.machine.bitmap g = true ∧ ¬(d.buffers i).Has g) ∨ ((d.resizeWindow screen owner id width height).1.buffers i).Has g) := by
  unfold Desktop.resizeWindow
  cases hi : d.server.find id with
  | none => exact Or.inl ⟨rfl, .refl h.spaces, rfl, rfl⟩
  | some i =>
    obtain ⟨hused, -⟩ := find_some hi
    dsimp only
    by_cases howner : (d.server.windows i).owner = owner
    swap
    · rw [if_pos howner]
      exact Or.inl ⟨rfl, .refl h.spaces, rfl, rfl⟩
    subst howner
    rw [if_neg (not_not.mpr rfl)]
    by_cases hsize : width ≤ 0 ∨ height ≤ 0 ∨ width > screen.width ∨ height > screen.height
    · rw [if_pos hsize]
      exact Or.inl ⟨rfl, .refl h.spaces, rfl, rfl⟩
    rw [if_neg hsize]
    by_cases hsame : width = (d.server.windows i).width ∧ height = (d.server.windows i).height
    · rw [if_pos hsame]
      exact Or.inr ⟨i, rfl, rfl, rfl, Or.inl ⟨hsame.1, hsame.2, rfl⟩⟩
    rw [if_neg hsame]
    have hok : Allowed screen width height := by
      simp only [not_or, Int32.not_le, gt_iff_lt, Int32.not_lt] at hsize
      exact ⟨hsize.1, hsize.2.1, hsize.2.2.1, hsize.2.2.2⟩
    obtain ⟨hsome, hmost⟩ := pagesFor_bounds hs hok
    have hmost' : pagesFor width height ≤ 1024 := Nat.le_trans hmost (by decide)
    have hback := h.backed i hused
    have hheld := h.held hused
    obtain ⟨hedit, hbitmap⟩ := hheld.unmapped h.spaces
    rw [← hback.userAddress] at hedit hbitmap
    generalize unmapLoop (d.directory (d.server.windows i).owner) (d.buffers i).userAddress (d.buffers i).bufferPages 0 d.machine = u at *
    rcases allocateBuffer_cases (o := (d.server.windows i).owner) (w := { d.buffers i with bufferPhys := 0 }) hedit.spaces
      hback.userAddress hsome hmost' with ⟨a, he, ha, hpd⟩ | ⟨a, f, he, -, ha⟩
    · -- the old buffer is put back, and its surface is what it was
      have hserver := wmResizeWindow_refused hi hsize hsame
      have hmachine := hheld.putBack hedit hbitmap ha (hpd hheld.live)
      rw [← hback.userAddress] at hmachine
      have hbuffers : Function.update d.buffers i { d.buffers i with
          surface := surfaceInit (d.buffers i).bufferPhys (d.server.windows i).width (d.server.windows i).height
            (d.server.windows i).width } = d.buffers := by
        rw [← hback.surface]
        exact Function.update_eq_self i d.buffers
      rw [he]
      dsimp only [Option.isSome_none]
      rw [hserver]
      refine Or.inl ⟨rfl, ⟨rfl, hmachine, rfl, rfl, rfl, fun _ => rfl, fun j _ => ⟨rfl, ?_⟩⟩, rfl, ?_⟩
      · exact congrFun hbuffers j
      · exact hbuffers
    · obtain ⟨hsteady, hcode⟩ := Steady.wmResizeWindow hi hsize hsame
      obtain ⟨hreplaced, hframes⟩ := hheld.exchanged hedit hbitmap hsome hmost' ha
      rw [he]
      dsimp only [Option.isSome_some]
      refine Or.inr ⟨i, rfl, rfl, hcode, Or.inr ⟨hok,
        { d.server.windows i with width := width, height := height }, rfl,
        ⟨rfl, ?_, hsteady, hused, ⟨rfl, rfl⟩, fun j hne => Function.update_of_ne hne .., ?_⟩, fun g => ?_⟩⟩
      · dsimp only
        rw [Function.update_self]
        exact hreplaced
      · dsimp only
        rw [Function.update_self]
        exact ⟨hback.userAddress, rfl, rfl⟩
      · rw [Function.update_self]
        exact hframes g

/-! ## Every state -/

namespace Sound

theorem createWindow (h : Sound screen d) (hs : screen.width ≤ 1280 ∧ screen.height ≤ 800) (owner : ℕ) (width height : Int32)
    (title : List UInt8) (flags : UInt32) : Sound screen (d.createWindow screen owner width height title flags).1 := by
  rcases createWindow_cases hs h owner width height title flags with ⟨-, hr⟩ | ⟨hok, i, w, hunused, -, -, hg⟩
  · exact h.refused hr
  · refine h.given hg (fun _ _ _ _ _ => not_false) (fun hclash => ?_) hok
    rw [hunused] at hclash
    cases hclash

theorem resizeWindow (h : Sound screen d) (hs : screen.width ≤ 1280 ∧ screen.height ≤ 800) (owner : ℕ) (id : UInt32)
    (width height : Int32) : Sound screen (d.resizeWindow screen owner id width height).1 := by
  rcases resizeWindow_cases hs h owner id width height with ⟨-, hr, -, -⟩ | ⟨i, hi, howner, -, ⟨-, -, hsame⟩ | ⟨hok, w, hw, hg, -⟩⟩
  · exact h.refused hr
  · rw [hsame]
    exact h
  · obtain ⟨hused, -⟩ := find_some hi
    exact h.given hg (fun j hne hj => h.apart j i hne hj hused) (fun _ => howner.trans hw.symm) hok

theorem destroyWindow (h : Sound screen d) (owner : Option ℕ) (id : UInt32) : Sound screen (d.destroyWindow owner id).1 := by
  unfold Desktop.destroyWindow
  cases hi : d.server.find id with
  | none => exact h
  | some i =>
    obtain ⟨hused, -⟩ := find_some hi
    dsimp only
    split
    · exact h
    · next howner =>
      have hback := h.backed i hused
      unfold releaseBuffer
      rw [if_neg hback.held.run.1, hback.userAddress]
      refine h.released hused rfl (hback.held.released h.spaces) ?_ fun j hne => Function.update_of_ne hne ..
      exact Steady.wmDestroyWindow hi (by simpa using howner)

theorem closeProcessWindows (h : Sound screen d) (owner : ℕ) : Sound screen (d.closeProcessWindows owner) := by
  unfold Desktop.closeProcessWindows
  generalize List.finRange 32 = slots
  induction slots generalizing d with
  | nil => exact h
  | cons i rest ih =>
    apply ih
    dsimp only
    split
    · exact h.destroyWindow _ _
    · exact h

theorem mouseMove (h : Sound screen d) (hs : screen.width ≤ 1280 ∧ screen.height ≤ 800) (x y : Int32) (buttons : UInt32) :
    Sound screen (d.mouseMove screen x y buttons) := by
  have hcursor : Sound screen { d with server := { d.server with cursorX := x, cursorY := y } } := h.steady (Steady.of_windows rfl)
  unfold Desktop.mouseMove
  dsimp only
  split
  · split
    · exact hcursor
    · split
      · exact hcursor.resizeWindow hs _ _ _ _
      · exact hcursor
  · next hcorner =>
    have hsteady := Steady.handleMouseMove screen { d.server with cursorX := x, cursorY := y } x y buttons false hcorner
    exact hcursor.steady hsteady

theorem serve (h : Sound screen d) (hs : screen.width ≤ 1280 ∧ screen.height ≤ 800) (r : Request) : Sound screen (d.serve screen r) := by
  cases r with
  | create owner width height title flags => exact h.createWindow hs owner width height title flags
  | resize owner id width height => exact h.resizeWindow hs owner id width height
  | destroy owner id => exact h.destroyWindow owner id
  | closeProcess owner => exact h.closeProcessWindows owner
  | mouseMove x y buttons => exact h.mouseMove hs x y buttons

end Sound

/-- One step: a request to the server, a call of it that has to do with no buffer, or something elsewhere in the kernel
that leaves the windows' frames and slots alone. -/
inductive Step (screen : Screen) (d : Desktop) : Desktop → Prop
  | serve (r : Request) : Step screen d (d.serve screen r)
  | run {c : Call} (hc : touchesNoBuffer c = true) : Step screen d { d with server := d.server.run screen c }
  | elsewhere {machine : Machine} {directory : ℕ → ℕ} (hq : Quiet d { d with machine := machine, directory := directory }) :
      Step screen d { d with machine := machine, directory := directory }

/-- After `wm_init` there are no windows, and no processes yet. -/
structure Started (screen : Screen) (d : Desktop) : Prop where
  server : d.server = wmInit screen
  reserved : d.machine.bitmap 0 = true
  directory : ∀ o, d.directory o = 0

theorem Started.sound (h : Started screen d) : Sound screen d where
  spaces := ⟨h.reserved, fun o ho => absurd (h.directory o) ho, fun o _ _ ho => absurd (h.directory o) ho,
    fun o _ _ ho => absurd (h.directory o) ho⟩
  backed := fun i hi => by
    rw [h.server] at hi
    cases hi
  apart := fun i _ _ hi => by
    rw [h.server] at hi
    cases hi
  empty := fun _ o ho => absurd (h.directory o) ho

theorem Sound.step (h : Sound screen d) (hs : screen.width ≤ 1280 ∧ screen.height ≤ 800) (ht : Step screen d d') : Sound screen d' := by
  cases ht with
  | serve r => exact h.serve hs r
  | run hc => exact h.steady (Steady.run screen d.server hc)
  | elsewhere hq => exact h.quiet hq

theorem sound_of_reachable (hs : screen.width ≤ 1280 ∧ screen.height ≤ 800) (h : Reachable (Started screen) (Step screen) d) :
    Sound screen d := h.invariant (fun _ hd => hd.sound) fun _ _ hd ht => hd.step hs ht

/-! ## What can be seen of a request -/

/-- An address is translated as before where the entry of its page is as before. -/
theorem translate_congr {m m' : Machine} {pd virt : ℕ} (h : m.Space pd) (h' : m'.Space pd) (hv : virt < 4294967296)
    (hpte : m'.pte pd (virt / pageSize) = m.pte pd (virt / pageSize)) : m'.vmmTranslateIn pd virt = m.vmmTranslateIn pd virt := by
  have hp : virt / pageSize < pageCount := by
    unfold pageSize pageCount
    omega
  have hoff : virt % pageSize < pageSize := Nat.mod_lt _ (by decide)
  have hold := h.translate hp hoff
  have hnew := h'.translate hp hoff
  unfold frameAt at hold hnew
  rw [Nat.div_add_mod'] at hold hnew
  rw [hold, hnew, hpte]

/-- A refused request: every page and address of every process, the frames in use, the stacking order, the focus and all windows
with their buffers and pixels are as before. -/
structure AsBefore (d d' : Desktop) : Prop where
  directory : d'.directory = d.directory
  pte : ∀ o, d.directory o ≠ 0 → ∀ p < pageCount, d'.machine.pte (d.directory o) p = d.machine.pte (d.directory o) p
  translate : ∀ o, ∀ virt < 4294967296,
    d'.machine.vmmTranslateIn (d'.directory o) virt = d.machine.vmmTranslateIn (d.directory o) virt
  bitmap : d'.machine.bitmap = d.machine.bitmap
  zOrder : d'.server.zOrder = d.server.zOrder
  zCount : d'.server.zCount = d.server.zCount
  focusId : d'.server.focusId = d.server.focusId
  used : ∀ i, (d'.server.windows i).used = (d.server.windows i).used
  window : ∀ i, (d.server.windows i).used = true → d'.server.windows i = d.server.windows i ∧ d'.buffers i = d.buffers i
  pixels : ∀ i, (d.server.windows i).used = true → ∀ g, (d.buffers i).Has g → d'.machine.mem g = d.machine.mem g

theorem Refused.asBefore (h : Sound screen d) (hr : Refused d d') : AsBefore d d' where
  directory := hr.directory
  pte := hr.machine.pte
  translate := fun o virt hv => by
    rw [hr.directory]
    rcases eq_or_ne (d.directory o) 0 with ho | ho
    · rw [ho]
      rfl
    · refine translate_congr (h.spaces.space o ho) (hr.machine.spaces.space o ho) hv (hr.machine.pte o ho _ ?_)
      unfold pageSize pageCount
      omega
  bitmap := hr.machine.bitmap
  zOrder := hr.zOrder
  zCount := hr.zCount
  focusId := hr.focusId
  used := hr.used
  window := hr.window
  pixels := fun _ hi g hg => (hr.machine.loose g ((h.held hi).used g hg) ((h.held hi).loose g hg)).2

/-- The process sees the frames of its window in the window's 4 MiB, and nothing else there. -/
def Mapped (d : Desktop) (i : WindowSlot) : Prop :=
  ∀ k < 1024, ∀ off < pageSize,
    d.machine.vmmTranslateIn (d.directory (d.server.windows i).owner) ((d.buffers i).userAddress + k * pageSize + off) =
      if k < (d.buffers i).bufferPages then ((d.buffers i).bufferPhys + k) * pageSize + off else 0

theorem Sound.mapped (h : Sound screen d) (hi : (d.server.windows i).used = true) : Mapped d i := by
  intro k hk off hoff
  have hheld := h.held hi
  rw [(h.backed i hi).userAddress, address_page, (h.spaces.space _ hheld.live).translate (slot_page_lt i hk) hoff]
  unfold frameAt
  rcases Nat.lt_or_ge k (d.buffers i).bufferPages with hlt | hge
  · rw [hheld.mapped k hlt, if_pos (mapEntry_present _ _), if_pos hlt, mapEntry_frame]
  · rw [hheld.rest k hge hk, if_neg Bool.false_ne_true, if_neg (Nat.not_lt.mpr hge)]

/-- A request that has been served: the window has a zeroed buffer of its size, made of frames that were free and mapped in
its owner's space, and the frames of the old one are free. Everything else is as before. -/
structure Swapped (d d' : Desktop) (i : WindowSlot) (old : ℕ → Prop) (owner : ℕ) (width height : Int32) : Prop where
  window : (d'.server.windows i).used = true ∧ (d'.server.windows i).owner = owner ∧ (d'.server.windows i).width = width ∧
    (d'.server.windows i).height = height
  buffer : (d'.buffers i).bufferPages = pagesFor width height ∧
    (d'.buffers i).surface = surfaceInit (d'.buffers i).bufferPhys width height width
  mapped : Mapped d' i
  entry : ∀ k < (d'.buffers i).bufferPages,
    d'.machine.pte (d'.directory owner) (firstPage i + k) = mapEntry ((d'.buffers i).bufferPhys + k) userFlags
  fresh : ∀ g, (d'.buffers i).Has g → d.machine.bitmap g = false ∧ d'.machine.bitmap g = true ∧ d'.machine.mem g = fun _ => 0
  freed : ∀ g, old g → d'.machine.bitmap g = false
  kept : ∀ g, d.machine.bitmap g = true → ¬old g → d'.machine.bitmap g = true
  translate : ∀ o, ∀ virt < 4294967296,
    (o = owner → virt < (d'.buffers i).userAddress ∨ (d'.buffers i).userAddress + windowVaStep ≤ virt) →
      d'.machine.vmmTranslateIn (d'.directory o) virt = d.machine.vmmTranslateIn (d.directory o) virt
  other : ∀ j, j ≠ i → Alike (d.server.windows j) (d'.server.windows j) ∧ d'.buffers j = d.buffers j

theorem Given.swapped (h : Sound screen d) (h' : Sound screen d') {old : ℕ → Prop} {width height : Int32} {w : Window}
    (hg : Given d d' i old width height w) : Swapped d d' i old w.owner width height := by
  obtain ⟨hwidth, hheight⟩ := hg.size
  obtain ⟨haddress, hpages, hsurface⟩ := hg.buffer
  have hm := hg.machine
  have hself : Alike w (d'.server.windows i) := by
    have hi := hg.steady i
    rwa [Server.setWindow_windows_self] at hi
  have hused : (d'.server.windows i).used = true := hself.used.trans hg.there
  refine ⟨⟨hused, hself.owner, hself.width.trans hwidth, hself.height.trans hheight⟩, ⟨hpages, hsurface⟩, h'.mapped hused,
    fun k hk => by rw [hg.directory]; exact hm.held.mapped k hk, fun g hgm => ⟨hm.free g hgm, hm.held.used g hgm, hm.zeroed g hgm⟩, hm.freed, fun g hgm hnot => (hm.used g).mpr (Or.inl ⟨hgm, hnot⟩),
    fun o virt hv hout => ?_, fun j hne => ⟨?_, hg.other j hne⟩⟩
  · rw [hg.directory]
    rcases eq_or_ne (d.directory o) 0 with ho | ho
    · rw [ho]
      rfl
    · have hp : virt / pageSize < pageCount := by
        unfold pageSize pageCount
        omega
      refine translate_congr (h.spaces.space o ho) (hm.spaces.space o ho) hv ?_
      rcases eq_or_ne o w.owner with rfl | hne
      · refine hm.outside _ hp ?_
        have hrange := hout rfl
        rw [haddress] at hrange
        unfold address windowVaBase windowVaStep at hrange
        unfold Outside firstPage pageSize
        omega
      · exact hm.other o hne ho _ hp
  · have hj := hg.steady j
    rwa [Server.setWindow_windows_ne _ _ hne] at hj

/-- Two windows of a process have nothing of its address space in common, and no two windows share a frame. -/
theorem Sound.disjoint (h : Sound screen d) (hne : i ≠ j) (hi : (d.server.windows i).used = true)
    (hj : (d.server.windows j).used = true) :
    ((d.buffers i).userAddress + (d.buffers i).bufferPages * pageSize ≤ (d.buffers j).userAddress ∨
      (d.buffers j).userAddress + (d.buffers j).bufferPages * pageSize ≤ (d.buffers i).userAddress) ∧
      ∀ g, (d.buffers i).Has g → ¬(d.buffers j).Has g := by
  refine ⟨?_, h.apart i j hne hi hj⟩
  have hval : i.val ≠ j.val := fun he => hne (Fin.ext he)
  have hfits := (h.held hi).fits
  have hfits' := (h.held hj).fits
  rw [(h.backed i hi).userAddress, (h.backed j hj).userAddress]
  unfold address windowVaBase windowVaStep pageSize
  omega

/-- In every state that the window server can come to, a new window gets a whole zeroed buffer or everything stays as it was,
and so does a window that is resized. Each window's frames are mapped in its own part of its owner's space. -/
theorem buffers_swapped (hs : screen.width ≤ 1280 ∧ screen.height ≤ 800) (h : Reachable (Started screen) (Step screen) d) :
    (∀ owner width height title flags,
      let r := d.createWindow screen owner width height title flags
      ((r.2 = -1 ∨ r.2 = -2 ∨ r.2 = -3) ∧ AsBefore d r.1) ∨
        ∃ i, (d.server.windows i).used = false ∧ r.2 = (r.1.server.windows i).id.toInt32 ∧
          Swapped d r.1 i (fun _ => False) owner width height) ∧
    (∀ owner id width height,
      let r := d.resizeWindow screen owner id width height
      (r.2 = -1 ∧ AsBefore d r.1 ∧ r.1.server.windows = d.server.windows ∧ r.1.buffers = d.buffers) ∨
        ∃ i, d.server.find id = some i ∧ (d.server.windows i).owner = owner ∧ r.2 = 0 ∧
          ((width = (d.server.windows i).width ∧ height = (d.server.windows i).height ∧ r.1 = d) ∨
            Swapped d r.1 i (d.buffers i).Has owner width height ∧
              ∀ g, r.1.machine.bitmap g = true ↔ (d.machine.bitmap g = true ∧ ¬(d.buffers i).Has g) ∨ (r.1.buffers i).Has g)) ∧
    (∀ i, (d.server.windows i).used = true → Mapped d i) ∧
    ∀ i j, i ≠ j → (d.server.windows i).used = true → (d.server.windows j).used = true →
      ((d.buffers i).userAddress + (d.buffers i).bufferPages * pageSize ≤ (d.buffers j).userAddress ∨
        (d.buffers j).userAddress + (d.buffers j).bufferPages * pageSize ≤ (d.buffers i).userAddress) ∧
        ∀ g, (d.buffers i).Has g → ¬(d.buffers j).Has g := by
  have hsound := sound_of_reachable hs h
  refine ⟨fun owner width height title flags => ?_, fun owner id width height => ?_, fun i hi => hsound.mapped hi,
    fun i j hne hi hj => hsound.disjoint hne hi hj⟩
  · have hnext := hsound.createWindow hs owner width height title flags
    rcases createWindow_cases hs hsound owner width height title flags with ⟨hcode, hr⟩ | ⟨-, i, w, hunused, rfl, hcode, hg⟩
    · exact Or.inl ⟨hcode, hr.asBefore hsound⟩
    · exact Or.inr ⟨i, hunused, hcode, hg.swapped hsound hnext⟩
  · have hnext := hsound.resizeWindow hs owner id width height
    rcases resizeWindow_cases hs hsound owner id width height with
      ⟨hcode, hr, hwindows, hbuffers⟩ | ⟨i, hi, howner, hcode, hsame | ⟨-, w, rfl, hg, hframes⟩⟩
    · exact Or.inl ⟨hcode, hr.asBefore hsound, hwindows, hbuffers⟩
    · exact Or.inr ⟨i, hi, howner, hcode, Or.inl hsame⟩
    · exact Or.inr ⟨i, hi, howner, hcode, Or.inr ⟨hg.swapped hsound hnext, hframes⟩⟩

/-- A process has just been made: of eight frames, its empty directory is in the third one. -/
def oneProcess : Desktop where
  server := wmInit xga
  machine := ⟨fun g => g == 0 || g == 3, 8, fun _ _ => 0, 0, [], 0⟩
  directory := fun o => if o = 1 then 3 else 0
  buffers := newBuffer

theorem oneProcess_reachable : Reachable (Started xga) (Step xga) oneProcess := by
  have hstart : Started xga { oneProcess with directory := fun _ => 0 } := ⟨rfl, rfl, fun _ => rfl⟩
  have hzero : present 0 = false := by decide
  have habsent : ∀ o p, present (oneProcess.machine.pte (oneProcess.directory o) p) = false := by
    intro o p
    rw [pte_of_absent hzero]
    exact hzero
  have hdir : ∀ o, oneProcess.directory o ≠ 0 → oneProcess.directory o = 3 ∧ o = 1 := by
    intro o ho
    unfold oneProcess at ho ⊢
    dsimp only at ho ⊢
    split at ho
    · next ho' => exact ⟨if_pos ho', ho'⟩
    · exact absurd rfl ho
  have hnone : ∀ {e}, e = 0 → ¬present e = true := by
    rintro e rfl hp
    rw [hzero] at hp
    cases hp
  have hspace : oneProcess.machine.Space 3 := by
    refine ⟨by decide, rfl, rfl, fun _ _ hp => ?_, fun _ _ _ _ hp => ?_, fun p _ hp => ?_⟩
    · exact absurd hp (hnone rfl)
    · exact absurd hp (hnone rfl)
    · exact absurd hp (hnone (pte_of_absent hzero))
  have hspaces : Spaces oneProcess.machine oneProcess.directory := by
    refine ⟨rfl, fun o ho => ?_, fun o o' hne ho ho' => ?_, fun o o' hne ho ho' => ?_⟩
    · rw [(hdir o ho).1]
      exact hspace
    · exact absurd ((hdir o ho).2.trans (hdir o' ho').2.symm) hne
    · exact absurd ((hdir o ho).2.trans (hdir o' ho').2.symm) hne
  have hquiet : Quiet { oneProcess with directory := fun _ => 0 } oneProcess :=
    ⟨hspaces, rfl, fun _ => rfl, fun _ _ => ⟨.refl _, rfl⟩, fun i hi => (by cases hi),
      fun i o _ => Or.inr ⟨fun hi => (by cases hi), fun k _ => habsent o _⟩, fun i hi => (by cases hi)⟩
  exact Reachable.next (.start hstart) (.elsewhere hquiet)

/-- Its first window has one page. -/
theorem buffers_swapped_oneProcess :
    ∃ i, Swapped oneProcess (oneProcess.createWindow xga 1 32 32 [] 0).1 i (fun _ => False) 1 32 32 := by
  have hcode : (oneProcess.createWindow xga 1 32 32 [] 0).2 = 1 := by decide
  rcases (buffers_swapped (by decide) oneProcess_reachable).1 1 32 32 [] 0 with ⟨hfail, -⟩ | ⟨i, -, -, hswapped⟩
  · rw [hcode] at hfail
    exact absurd hfail (by decide)
  · exact ⟨i, hswapped⟩

end SifarOS.WindowBuffers
