import SifarOS.BufferExchange
import SifarOS.SteadyWindows

/-! # Every window has its buffer

Whatever the window server is asked for, and whatever the rest of the kernel does in between, each window has a buffer
of its size: its own frames, mapped in its own 4 MiB of its owner's space. A request for a buffer is served in full, or it
changes nothing. -/
namespace SifarOS.WindowBuffers
open ByteMemory Graphics Paging Paging.Machine WindowServer WindowEdits ReachableStates

variable {screen : Screen} {d d' : Desktop} {m m' : Machine} {directory directory' : ℕ → ℕ} {i j slot : WindowSlot} {f g k n o p : ℕ}
  {w w' : Window} {b : Buffer}

/-- The window has an allowed size and a buffer for it, at the address of its slot. -/
structure Backed (screen : Screen) (m : Machine) (directory : ℕ → ℕ) (i : WindowSlot) (w : Window) (b : Buffer) : Prop where
  size : Allowed screen w.width w.height
  userAddress : b.userAddress = address i
  pages : b.bufferPages = pagesFor w.width w.height
  surface : b.surface = surfaceInit b.bufferPhys w.width w.height w.width
  held : Held directory m w.owner i b.bufferPhys b.bufferPages

def Buffer.Has (b : Buffer) (g : ℕ) : Prop := InRun b.bufferPhys b.bufferPages g

/-- Every window has its own buffer, and nothing else is mapped in the slots. -/
structure Sound (screen : Screen) (d : Desktop) : Prop where
  spaces : Spaces d.machine d.directory
  backed : ∀ i, (d.server.windows i).used = true → Backed screen d.machine d.directory i (d.server.windows i) (d.buffers i)
  apart : ∀ i j, i ≠ j → (d.server.windows i).used = true → (d.server.windows j).used = true → ∀ g,
    (d.buffers i).Has g → ¬(d.buffers j).Has g
  empty : ∀ i o, d.directory o ≠ 0 → ((d.server.windows i).used = true → (d.server.windows i).owner ≠ o) → ∀ k < 1024,
    present (d.machine.pte (d.directory o) (firstPage i + k)) = false

/-- Nothing happens to the buffers: the windows keep their owners, sizes and frames, and the slots what is mapped there.
A new space has nothing mapped in them. -/
structure Quiet (d d' : Desktop) : Prop where
  spaces : Spaces d'.machine d'.directory
  total : d'.machine.totalFrames = d.machine.totalFrames
  used : ∀ i, (d'.server.windows i).used = (d.server.windows i).used
  window : ∀ i, (d.server.windows i).used = true → Alike (d.server.windows i) (d'.server.windows i) ∧ d'.buffers i = d.buffers i
  owner : ∀ i, (d.server.windows i).used = true → d'.directory (d.server.windows i).owner = d.directory (d.server.windows i).owner
  page : ∀ i o, d'.directory o ≠ 0 →
    (d'.directory o = d.directory o ∧ ∀ k < 1024, d'.machine.pte (d'.directory o) (firstPage i + k) =
      d.machine.pte (d.directory o) (firstPage i + k)) ∨
    ((d.server.windows i).used = true → (d.server.windows i).owner ≠ o) ∧ ∀ k < 1024,
      present (d'.machine.pte (d'.directory o) (firstPage i + k)) = false
  frame : ∀ i, (d.server.windows i).used = true → ∀ g, (d.buffers i).Has g →
    d'.machine.bitmap g = true ∧ d'.machine.Loose d'.directory g

/-- A buffer that nothing happens to is still there. -/
theorem Backed.keep (h : Backed screen m directory i w b) (hw : Alike w w') (hdir : directory' w.owner = directory w.owner)
    (htotal : m'.totalFrames = m.totalFrames)
    (hpte : ∀ k < 1024, m'.pte (directory w.owner) (firstPage i + k) = m.pte (directory w.owner) (firstPage i + k))
    (hframe : ∀ g, b.Has g → m'.bitmap g = true ∧ m'.Loose directory' g) : Backed screen m' directory' i w' b := by
  obtain ⟨-, howner, hwidth, hheight⟩ := hw
  refine ⟨?_, h.userAddress, ?_, ?_, ?_⟩
  · rw [hwidth, hheight]
    exact h.size
  · rw [hwidth, hheight]
    exact h.pages
  · rw [hwidth, hheight]
    exact h.surface
  · obtain ⟨hlive, hsome, hfits, hrun, hmapped, hrest, -, -⟩ := h.held
    rw [howner]
    refine ⟨by rwa [hdir], hsome, hfits, by rwa [htotal], fun k hk => ?_, fun k hk hlt => ?_, fun g hg => (hframe g hg).1,
      fun g hg => (hframe g hg).2⟩
    · rw [hdir, hpte k (Nat.lt_of_lt_of_le hk hfits)]
      exact hmapped k hk
    · rw [hdir, hpte k hlt]
      exact hrest k hk hlt

/-! ## Sound states -/

namespace Sound

theorem held (h : Sound screen d) (hi : (d.server.windows i).used = true) :
    Held d.directory d.machine (d.server.windows i).owner i (d.buffers i).bufferPhys (d.buffers i).bufferPages := (h.backed i hi).held

theorem quiet (h : Sound screen d) (hq : Quiet d d') : Sound screen d' where
  spaces := hq.spaces
  backed := fun i hi => by
    rw [hq.used] at hi
    obtain ⟨halike, hbuffer⟩ := hq.window i hi
    rw [hbuffer]
    have hdir := hq.owner i hi
    have hlive := (h.held hi).live
    refine (h.backed i hi).keep halike hdir hq.total (fun k hk => ?_) (hq.frame i hi)
    rcases hq.page i (d.server.windows i).owner (by rwa [hdir]) with ⟨-, hpage⟩ | ⟨howner, -⟩
    · rw [← hpage k hk, hdir]
    · exact absurd rfl (howner hi)
  apart := fun i j hne hi hj g hg => by
    rw [hq.used] at hi hj
    rw [(hq.window i hi).2] at hg
    rw [(hq.window j hj).2]
    exact h.apart i j hne hi hj g hg
  empty := fun i o ho howner k hk => by
    rcases hq.page i o ho with ⟨hdir, hpage⟩ | ⟨-, hpage⟩
    · rw [hpage k hk]
      refine h.empty i o (by rwa [← hdir]) (fun hi => ?_) k hk
      rw [← (hq.window i hi).1.owner]
      exact howner (by rwa [hq.used])
    · exact hpage k hk

/-- A window has a new buffer, in a slot that was empty or in the place of its own old one. -/
theorem replaced (h : Sound screen d) {old : ℕ → Prop} {i : WindowSlot} {o f n : ℕ} (hdir : d'.directory = d.directory)
    (hm : Replaced d.directory d.machine d'.machine o i old f n)
    (hold : ∀ j, j ≠ i → (d.server.windows j).used = true → ∀ g, (d.buffers j).Has g → ¬old g)
    (hprev : (d.server.windows i).used = true → (d.server.windows i).owner = o)
    (hw : Steady (d.server.setWindow i w) d'.server) (hthere : w.used = true) (howner : w.owner = o) (hsize : Allowed screen w.width w.height)
    (hbuffers : d'.buffers = Function.update d.buffers i b)
    (hb : b.userAddress = address i ∧ b.bufferPages = n ∧ n = pagesFor w.width w.height ∧ b.bufferPhys = f ∧
      b.surface = surfaceInit f w.width w.height w.width) : Sound screen d' := by
  obtain ⟨haddress, hpages, hcount, hphys, hsurface⟩ := hb
  have hself : Alike w (d'.server.windows i) := by
    have hi := hw i
    rwa [Server.setWindow_windows_self] at hi
  have hother : ∀ j, j ≠ i → Alike (d.server.windows j) (d'.server.windows j) := by
    intro j hne
    have hj := hw j
    rwa [Server.setWindow_windows_ne _ _ hne] at hj
  have hbuffer : d'.buffers i = b := by rw [hbuffers, Function.update_self]
  have hbuffer' : ∀ j, j ≠ i → d'.buffers j = d.buffers j := fun j hne => by rw [hbuffers, Function.update_of_ne hne]
  have hused : ∀ j, j ≠ i → (d'.server.windows j).used = true → (d.server.windows j).used = true := fun j hne hj => by
    rwa [(hother j hne).used] at hj
  have hfresh : ∀ j, j ≠ i → (d.server.windows j).used = true → ∀ g, b.Has g → ¬(d.buffers j).Has g := by
    intro j hne hj g hg hclash
    unfold Buffer.Has at hg
    rw [hphys, hpages] at hg
    have hfree := hm.free g hg
    rw [(h.held hj).used g hclash] at hfree
    cases hfree
  -- the pages of another slot are outside this one
  have hpage : ∀ j, j ≠ i → ∀ o', d.directory o' ≠ 0 → ∀ k < 1024,
      d'.machine.pte (d.directory o') (firstPage j + k) = d.machine.pte (d.directory o') (firstPage j + k) := by
    intro j hne o' ho' k hk
    rcases eq_or_ne o' o with rfl | hne'
    · exact hm.outside _ (slot_page_lt j hk) (outside_of_ne hne hk)
    · exact hm.other o' hne' ho' _ (slot_page_lt j hk)
  refine ⟨by rw [hdir]; exact hm.spaces, fun j hj => ?_, fun j k hne hj hk g hg => ?_, fun j o' ho' hnot k hk => ?_⟩
  · rw [hdir]
    rcases eq_or_ne j i with rfl | hne
    · rw [hbuffer]
      refine ⟨?_, haddress, ?_, ?_, ?_⟩
      · rw [hself.width, hself.height]
        exact hsize
      · rw [hself.width, hself.height, hpages, hcount]
      · rw [hself.width, hself.height, hphys]
        exact hsurface
      · rw [hself.owner, howner, hphys, hpages]
        exact hm.held
    · have hj' := hused j hne hj
      rw [hbuffer' j hne]
      refine (h.backed j hj').keep (hother j hne) rfl hm.total (hpage j hne _ (h.held hj').live) fun g hg => ⟨?_, ?_⟩
      · exact (hm.used g).mpr (Or.inl ⟨(h.held hj').used g hg, hold j hne hj' g hg⟩)
      · exact (hm.loose g ((h.held hj').used g hg) ((h.held hj').loose g hg)).1
  · rcases eq_or_ne j i with rfl | hji
    · rw [hbuffer] at hg
      rw [hbuffer' k hne.symm]
      exact hfresh k hne.symm (hused k hne.symm hk) g hg
    · rw [hbuffer' j hji] at hg
      rcases eq_or_ne k i with rfl | hki
      · rw [hbuffer]
        exact fun hclash => hfresh j hji (hused j hji hj) g hclash hg
      · rw [hbuffer' k hki]
        exact h.apart j k hne (hused j hji hj) (hused k hki hk) g hg
  · rw [hdir] at ho' ⊢
    rcases eq_or_ne j i with rfl | hji
    · have hnot' : o' ≠ o := by
        rintro rfl
        exact hnot (by rw [hself.used, hthere]) (by rw [hself.owner, howner])
      rw [hm.other o' hnot' ho' _ (slot_page_lt j hk)]
      exact h.empty j o' ho' (fun hj => by rw [hprev hj]; exact hnot'.symm) k hk
    · rw [hpage j hji o' ho' k hk]
      refine h.empty j o' ho' (fun hj => ?_) k hk
      rw [← (hother j hji).owner]
      exact hnot (by rw [(hother j hji).used]; exact hj)

/-- A window and its buffer are gone. -/
theorem released (h : Sound screen d) {i : WindowSlot} (hi : (d.server.windows i).used = true) (hdir : d'.directory = d.directory)
    (hm : Released d.directory d.machine d'.machine (d.server.windows i).owner i (d.buffers i).bufferPhys (d.buffers i).bufferPages)
    (hw : Steady (d.server.setWindow i { d.server.windows i with used := false }) d'.server)
    (hbuffers : ∀ j, j ≠ i → d'.buffers j = d.buffers j) : Sound screen d' := by
  have hself : (d'.server.windows i).used = false := by
    have hused := (hw i).used
    rwa [Server.setWindow_windows_self] at hused
  have hother : ∀ j, j ≠ i → Alike (d.server.windows j) (d'.server.windows j) := by
    intro j hne
    have hj := hw j
    rwa [Server.setWindow_windows_ne _ _ hne] at hj
  have hstill : ∀ j, (d'.server.windows j).used = true → j ≠ i ∧ (d.server.windows j).used = true := by
    intro j hj
    have hne : j ≠ i := by
      rintro rfl
      rw [hself] at hj
      cases hj
    rw [(hother j hne).used] at hj
    exact ⟨hne, hj⟩
  have hpage : ∀ j, j ≠ i → ∀ o, d.directory o ≠ 0 → ∀ k < 1024,
      d'.machine.pte (d.directory o) (firstPage j + k) = d.machine.pte (d.directory o) (firstPage j + k) := by
    intro j hne o ho k hk
    rcases eq_or_ne o (d.server.windows i).owner with rfl | hne'
    · exact hm.outside _ (slot_page_lt j hk) (outside_of_ne hne hk)
    · exact hm.other o hne' ho _ (slot_page_lt j hk)
  refine ⟨by rw [hdir]; exact hm.spaces, fun j hj => ?_, fun j k hne hj hk g hg => ?_, fun j o ho hnot k hk => ?_⟩
  · obtain ⟨hne, hj'⟩ := hstill j hj
    rw [hdir, hbuffers j hne]
    refine (h.backed j hj').keep (hother j hne) rfl hm.total (hpage j hne _ (h.held hj').live) fun g hg => ⟨?_, ?_⟩
    · exact (hm.used g).mpr ⟨(h.held hj').used g hg, h.apart j i hne hj' hi g hg⟩
    · exact (hm.loose g ((h.held hj').used g hg) ((h.held hj').loose g hg)).1
  · obtain ⟨hji, hj'⟩ := hstill j hj
    obtain ⟨hki, hk'⟩ := hstill k hk
    rw [hbuffers j hji] at hg
    rw [hbuffers k hki]
    exact h.apart j k hne hj' hk' g hg
  · rw [hdir] at ho ⊢
    rcases eq_or_ne j i with rfl | hji
    · rcases eq_or_ne o (d.server.windows j).owner with rfl | hne
      · exact hm.slot k hk
      · rw [hm.other o hne ho _ (slot_page_lt j hk)]
        exact h.empty j o ho (fun _ => hne.symm) k hk
    · rw [hpage j hji o ho k hk]
      refine h.empty j o ho (fun hj => ?_) k hk
      rw [← (hother j hji).owner]
      exact hnot (by rw [(hother j hji).used]; exact hj)

end Sound

/-! ## Requests that are refused -/

/-- The request has changed nothing that anybody can see: frames, mappings, order, focus and windows are as before. -/
structure Refused (d d' : Desktop) : Prop where
  directory : d'.directory = d.directory
  machine : Unchanged d.directory d.machine d'.machine
  zOrder : d'.server.zOrder = d.server.zOrder
  zCount : d'.server.zCount = d.server.zCount
  focusId : d'.server.focusId = d.server.focusId
  used : ∀ i, (d'.server.windows i).used = (d.server.windows i).used
  window : ∀ i, (d.server.windows i).used = true → d'.server.windows i = d.server.windows i ∧ d'.buffers i = d.buffers i

theorem Refused.refl (h : Spaces d.machine d.directory) : Refused d d :=
  ⟨rfl, .refl h, rfl, rfl, rfl, fun _ => rfl, fun _ _ => ⟨rfl, rfl⟩⟩

/-- Where the machine is unchanged and the windows are alike, nothing happens to the buffers. -/
theorem Sound.quiet_of_unchanged (h : Sound screen d) (hdir : d'.directory = d.directory)
    (hm : Unchanged d.directory d.machine d'.machine) (hused : ∀ i, (d'.server.windows i).used = (d.server.windows i).used)
    (hwindow : ∀ i, (d.server.windows i).used = true → Alike (d.server.windows i) (d'.server.windows i) ∧ d'.buffers i = d.buffers i) :
    Quiet d d' where
  spaces := by rw [hdir]; exact hm.spaces
  total := hm.total
  used := hused
  window := hwindow
  owner := fun _ _ => by rw [hdir]
  page := fun i o ho => by
    rw [hdir] at ho ⊢
    exact Or.inl ⟨rfl, fun k hk => hm.pte o ho _ (slot_page_lt i hk)⟩
  frame := fun i hi g hg => by
    rw [hdir, hm.bitmap]
    exact ⟨(h.held hi).used g hg, (hm.loose g ((h.held hi).used g hg) ((h.held hi).loose g hg)).1⟩

theorem Sound.refused (h : Sound screen d) (hr : Refused d d') : Sound screen d' := by
  refine h.quiet (h.quiet_of_unchanged hr.directory hr.machine hr.used fun i hi => ?_)
  obtain ⟨hwindow, hbuffer⟩ := hr.window i hi
  exact ⟨by rw [hwindow]; exact .refl _, hbuffer⟩

/-- The calls that have to do with no buffer. -/
theorem Sound.steady (h : Sound screen d) {s : Server} (hs : Steady d.server s) : Sound screen { d with server := s } :=
  h.quiet (h.quiet_of_unchanged rfl (.refl h.spaces) (fun i => (hs i).used) fun i _ => ⟨hs i, rfl⟩)

/-! ## The rest of the kernel

Frames are taken and freed, and processes map and unmap pages of theirs, outside the windows' addresses. -/

/-- Frames change hands; those of the buffers stay in use. -/
theorem Sound.quiet_frames (h : Sound screen d) (hmem : m'.mem = d.machine.mem) (htotal : m'.totalFrames = d.machine.totalFrames)
    (hused : ∀ g, d.machine.bitmap g = true → m'.bitmap g = true ∨ g ≠ 0 ∧ d.machine.Loose d.directory g)
    (hkept : ∀ i, (d.server.windows i).used = true → ∀ g, (d.buffers i).Has g → m'.bitmap g = true) :
    Quiet d { d with machine := m' } := by
  obtain ⟨hspaces, hpte, hloose, -⟩ := h.spaces.congr (fun g _ => congrFun hmem g) hused
  exact ⟨hspaces, htotal, fun _ => rfl, fun _ _ => ⟨.refl _, rfl⟩, fun _ _ => rfl,
    fun i o ho => Or.inl ⟨rfl, fun k hk => hpte o ho _ (slot_page_lt i hk)⟩,
    fun i hi g hg => ⟨hkept i hi g hg, (hloose g).mpr ((h.held hi).loose g hg)⟩⟩

theorem Sound.quiet_pmmAllocFrame (h : Sound screen d) : Quiet d { d with machine := d.machine.pmmAllocFrame.1 } := by
  rcases d.machine.pmmAllocFrame_spec with ⟨f, -, -, he⟩ | ⟨he, -⟩
  · have hused : ∀ g, d.machine.bitmap g = true → Function.update d.machine.bitmap f true g = true := by
      intro g hg
      rw [Function.update_apply]
      split
      · rfl
      · exact hg
    rw [he]
    exact h.quiet_frames rfl rfl (fun g hg => Or.inl (hused g hg)) fun i hi g hg => hused g ((h.held hi).used g hg)
  · rw [he]
    exact h.quiet_frames rfl rfl (fun _ hg => Or.inl hg) fun i hi => (h.held hi).used

theorem Sound.quiet_pmmFreeFrame (h : Sound screen d) (hf : f ≠ 0) (hloose : d.machine.Loose d.directory f)
    (hout : ∀ i, (d.server.windows i).used = true → ¬(d.buffers i).Has f) : Quiet d { d with machine := d.machine.pmmFreeFrame f } := by
  unfold pmmFreeFrame
  split
  · exact h.quiet_frames rfl rfl (fun _ hg => Or.inl hg) fun i hi => (h.held hi).used
  · refine h.quiet_frames rfl rfl (fun g hg => ?_) fun i hi g hg => ?_
    · rcases eq_or_ne g f with rfl | hne
      · exact Or.inr ⟨hf, hloose⟩
      · exact Or.inl ((Function.update_of_ne hne ..).trans hg)
    · have hne : g ≠ f := by
        rintro rfl
        exact hout i hi hg
      exact (Function.update_of_ne hne ..).trans ((h.held hi).used g hg)

/-- Entries of one space change outside the slots. -/
theorem Sound.quiet_edited (h : Sound screen d) {new : ℕ → ℕ} (he : Edited d.directory d.machine m' o new)
    (hnew : ∀ i, ∀ k < 1024, new (firstPage i + k) = d.machine.pte (d.directory o) (firstPage i + k)) :
    Quiet d { d with machine := m' } := by
  refine ⟨he.spaces, he.total, fun _ => rfl, fun _ _ => ⟨.refl _, rfl⟩, fun _ _ => rfl, fun i o' ho' => Or.inl ⟨rfl, fun k hk => ?_⟩,
    fun i hi g hg => ?_⟩
  · rcases eq_or_ne o' o with rfl | hne
    · exact (he.pte _ (slot_page_lt i hk)).trans (hnew i k hk)
    · exact he.other o' hne ho' _ (slot_page_lt i hk)
  · have hused := (h.held hi).used g hg
    exact ⟨(he.used g).mpr (Or.inl hused), (he.loose g hused ((h.held hi).loose g hg)).1⟩

theorem Sound.quiet_vmmMapIn (h : Sound screen d) (ho : d.directory o ≠ 0) (hp : userPage (p * pageSize) = true)
    (hout : ∀ i, Outside i p) (hf : f ≠ 0) {flags : ℕ} (hflags : flags &&& pteUser = pteUser) :
    Quiet d { d with machine := (d.machine.vmmMapIn (d.directory o) (p * pageSize) (f * pageSize) flags).1 } := by
  rcases h.spaces.mapIn ho hp hf hflags with ⟨-, he⟩ | ⟨m', he, hedit, -, -⟩
  · rw [he]
    exact h.quiet_frames rfl rfl (fun _ hg => Or.inl hg) fun i hi => (h.held hi).used
  · rw [he]
    exact h.quiet_edited hedit fun i k hk => Function.update_of_ne (ne_of_outside (hout i) hk) ..

theorem Sound.quiet_vmmUnmapIn (h : Sound screen d) (ho : d.directory o ≠ 0) (hp : userPage (p * pageSize) = true)
    (hout : ∀ i, Outside i p) (hmapped : present (d.machine.pte (d.directory o) p) = true) :
    Quiet d { d with machine := d.machine.vmmUnmapIn (d.directory o) (p * pageSize) } :=
  h.quiet_edited (h.spaces.unmapIn ho hp hmapped).1 fun i _ hk => Function.update_of_ne (ne_of_outside (hout i) hk) ..

end SifarOS.WindowBuffers
