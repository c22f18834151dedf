import SifarOS.ReachableStates
import Mathlib.Data.Int.Notation
import Mathlib.Data.List.Basic
import Mathlib.Logic.Function.Basic

/-! # Page directories

`kernel/mm/paging.c` over the frames of `kernel/mm/pmm.c`. Directories and tables are frames of 1024
words, which the code reads and writes at their physical addresses; a pointer to one is the number
of its frame, and `NULL` is 0. What processes map in their own half of a directory is left out. -/
namespace SifarOS.Paging
open ReachableStates

def pageSize : ℕ := 4096

/-- `PDE_SPAN` -/
def pdeSpan : ℕ := 0x400000

def userMin : ℕ := 0x40000000
def userMax : ℕ := 0xD0000000
def kernelHeapBase : ℕ := 0xD0000000
def kernelHeapMax : ℕ := 0xD4000000
def kernelFbBase : ℕ := 0xE0000000

def ptePresent : ℕ := 1
def pteWrite : ℕ := 2
def pteUser : ℕ := 4

/-- `entry & PTE_PRESENT` -/
def present (entry : ℕ) : Bool := entry.testBit 0

/-- The frame that `entry & ~0xFFF` points to. -/
def frameOf (entry : ℕ) : ℕ := entry / pageSize

/-- The bitmap of frames in use, physical memory as frames of words, `kernel_space.pd`, and the directories
that `vmm_space_create` has made. -/
structure Machine where
  bitmap : ℕ → Bool
  totalFrames : ℕ
  mem : ℕ → ℕ → ℕ
  kernelPd : ℕ
  spaces : List ℕ
  mappedPages : ℕ

namespace Machine

def store (m : Machine) (frame index value : ℕ) : Machine :=
  { m with mem := Function.update m.mem frame (Function.update (m.mem frame) index value) }

/-- `memset(frame, 0, PAGE_SIZE)` -/
def clear (m : Machine) (frame : ℕ) : Machine := { m with mem := Function.update m.mem frame fun _ => 0 }

def pmmAllocFrame (m : Machine) : Machine × ℕ :=
  match (List.range m.totalFrames).find? fun f => !m.bitmap f with
  | some f => ({ m with bitmap := Function.update m.bitmap f true }, f)
  | none => (m, 0)

def pmmFreeFrame (m : Machine) (frame : ℕ) : Machine :=
  if m.totalFrames ≤ frame then m else { m with bitmap := Function.update m.bitmap frame false }

/-- `table_for` -/
def tableFor (m : Machine) (pd virt : ℕ) (create : Bool) (extraFlags : ℕ) : Machine × ℕ :=
  let index := virt / pdeSpan
  let entry := m.mem pd index
  if present entry = false then
    if create then
      let allocated := m.pmmAllocFrame
      let frame := allocated.2
      if frame = 0 then (allocated.1, 0)
      else
        ((allocated.1.clear frame).store pd index
          (frame * pageSize ||| ptePresent ||| pteWrite ||| extraFlags), frame)
    else (m, 0)
  else
    (if extraFlags &&& pteUser ≠ 0 then m.store pd index (entry ||| pteUser) else m, frameOf entry)

/-- The index of a page in its table. -/
def pteIndex (virt : ℕ) : ℕ := virt / pageSize % 1024

/-- `user_page` -/
def userPage (virt : ℕ) : Bool := userMin ≤ virt ∧ virt < userMax

def vmmMapIn (m : Machine) (pd virt phys flags : ℕ) : Machine × ℤ :=
  if pd = 0 then (m, -1)
  else if virt % pageSize ≠ 0 ∨ phys % pageSize ≠ 0 then (m, -1)
  else if flags &&& pteUser ≠ 0 ∧ userPage virt = false then (m, -1)
  else
    let found := m.tableFor pd virt true (flags &&& pteUser)
    let table := found.2
    if table = 0 then (found.1, -1)
    else
      let m := found.1
      let m := if present (m.mem table (pteIndex virt)) then m else { m with mappedPages := m.mappedPages + 1 }
      (m.store table (pteIndex virt) (phys ||| (flags &&& 0xFFF) ||| ptePresent), 0)

def vmmUnmapIn (m : Machine) (pd virt : ℕ) : Machine :=
  if pd = 0 then m
  else
    let virt := virt / pageSize * pageSize
    let table := (m.tableFor pd virt false 0).2
    if table = 0 ∨ present (m.mem table (pteIndex virt)) = false then m
    else { m.store table (pteIndex virt) 0 with mappedPages := m.mappedPages - 1 }

def vmmTranslateIn (m : Machine) (pd virt : ℕ) : ℕ :=
  if pd = 0 then 0
  else
    let table := (m.tableFor pd virt false 0).2
    if table = 0 ∨ present (m.mem table (pteIndex virt)) = false then 0
    else frameOf (m.mem table (pteIndex virt)) * pageSize + virt % pageSize

/-- `is_kernel_pde` -/
def isKernelPde (index : ℕ) : Bool := index < userMin / pdeSpan ∨ userMax / pdeSpan ≤ index

def vmmSpaceCreate (m : Machine) : Machine × ℤ :=
  let allocated := m.pmmAllocFrame
  let frame := allocated.2
  if frame = 0 then (allocated.1, -1)
  else
    ({ allocated.1 with
      mem := Function.update m.mem frame fun i =>
        if i < 1024 ∧ isKernelPde i then m.mem m.kernelPd i else 0
      spaces := frame :: m.spaces }, 0)

/-- `vmm_map`, which takes `PTE_USER` out of the flags -/
def vmmMap (m : Machine) (virt phys flags : ℕ) : Machine × ℤ :=
  m.vmmMapIn m.kernelPd virt phys (flags &&& 0xFFFFFFFB)

def vmmUnmap (m : Machine) (virt : ℕ) : Machine := m.vmmUnmapIn m.kernelPd virt

/-- The loop of `reserve_tables`; a panic is `none`. -/
def reserveTables : ℕ → ℕ → Machine → Option Machine
  | 0, _, m => some m
  | n + 1, addr, m =>
    let found := m.tableFor m.kernelPd addr true 0
    if found.2 = 0 then none else reserveTables n (addr + pdeSpan) found.1

/-- The loop of `paging_init` over the pages of RAM. -/
def identityMap : ℕ → ℕ → Machine → Option Machine
  | 0, _, m => some m
  | n + 1, page, m =>
    let mapped := m.vmmMapIn m.kernelPd (page * pageSize) (page * pageSize) (ptePresent ||| pteWrite)
    if mapped.2 < 0 then none else identityMap n (page + 1) mapped.1

def pagingInit (m : Machine) : Option Machine :=
  let allocated := m.pmmAllocFrame
  if allocated.2 = 0 then none
  else
    let m := { allocated.1.clear allocated.2 with kernelPd := allocated.2 }
    (identityMap (min m.totalFrames (userMin / pageSize)) 0 m).bind fun m =>
      (reserveTables ((kernelHeapMax - kernelHeapBase) / pdeSpan) kernelHeapBase m).bind fun m =>
        reserveTables (64 * 1024 * 1024 / pdeSpan) kernelFbBase m

/-- The frame is a directory, or a table of the kernel's directory. -/
def HoldsEntries (m : Machine) (frame : ℕ) : Prop :=
  frame = m.kernelPd ∨ frame ∈ m.spaces ∨ ∃ i < 1024, present (m.mem m.kernelPd i) = true ∧ frameOf (m.mem m.kernelPd i) = frame

instance (m : Machine) (frame : ℕ) : Decidable (m.HoldsEntries frame) := inferInstanceAs (Decidable (_ ∨ _ ∨ _))

end Machine

/-- The calls of a run, and the frames that the rest of the kernel takes and gives back. -/
inductive Action
  | map (virt phys flags : ℕ)
  | unmap (virt : ℕ)
  | create
  | take
  | give (frame : ℕ)
  deriving DecidableEq, Repr

/-- One call. Addresses are 32-bit words. The identity mapping of a directory or table stays as it is, since
that is where the code reads it, and nobody frees such a frame. -/
def step (m : Machine) : Action → Option Machine
  | .map virt phys flags =>
    if virt < 4294967296 ∧ phys < 4294967296 ∧ ¬m.HoldsEntries (virt / pageSize) then
      some (m.vmmMap virt phys flags).1
    else none
  | .unmap virt =>
    if virt < 4294967296 ∧ ¬m.HoldsEntries (virt / pageSize) then some (m.vmmUnmap virt) else none
  | .create => some m.vmmSpaceCreate.1
  | .take => some m.pmmAllocFrame.1
  | .give frame => if ¬m.HoldsEntries frame then some (m.pmmFreeFrame frame) else none

/-- After `paging_init`, whatever memory there is. -/
def Booted (m : Machine) : Prop := ∃ m₀ : Machine, m₀.spaces = [] ∧ m₀.pagingInit = some m

/-- An address outside the processes' half. -/
def KernelHalf (virt : ℕ) : Prop := virt < userMin ∨ userMax ≤ virt

/-- Every space translates the kernel's addresses as the kernel's own does. -/
def Visible (m : Machine) : Prop :=
  ∀ pd ∈ m.spaces, ∀ virt < 4294967296, KernelHalf virt → m.vmmTranslateIn pd virt = m.vmmTranslateIn m.kernelPd virt

/-- A `vmm_map` that succeeds for an address of the kernel's half, while there are spaces that have copied the
kernel's directory, finds the table of the address there already. -/
def Covered (m : Machine) : Action → Prop
  | .map virt phys flags => (m.vmmMap virt phys flags).2 = 0 → KernelHalf virt → m.spaces ≠ [] →
      present (m.mem m.kernelPd (virt / pdeSpan)) = true
  | _ => True

/-! ## Entries -/

theorem frameOf_or (frame : ℕ) {flags : ℕ} (h : flags < pageSize) : frameOf (frame * pageSize ||| flags) = frame := by
  have hdiv : (frame * 2 ^ 12 ||| flags) / 2 ^ 12 = frame * 2 ^ 12 / 2 ^ 12 ||| flags / 2 ^ 12 := Nat.or_div_two_pow
  have hflags : flags / 2 ^ 12 = 0 := Nat.div_eq_of_lt h
  rw [hflags, Nat.mul_div_cancel _ (by decide), Nat.or_zero] at hdiv
  exact hdiv

theorem present_or (entry : ℕ) : present (entry ||| ptePresent) = true := by
  rw [present, Nat.testBit_or]
  simp [ptePresent]

/-- The entry of a new table. -/
def tableEntry (frame : ℕ) : ℕ := frame * pageSize ||| ptePresent ||| pteWrite

theorem tableEntry_present (frame : ℕ) : present (tableEntry frame) = true := by
  rw [tableEntry, present, Nat.testBit_or, Nat.testBit_or]
  simp [ptePresent]

theorem tableEntry_frame (frame : ℕ) : frameOf (tableEntry frame) = frame := by
  rw [tableEntry, Nat.or_assoc]
  exact frameOf_or frame (by decide)

theorem no_user_flag (flags : ℕ) : (flags &&& 0xFFFFFFFB) &&& pteUser = 0 := by
  rw [Nat.and_assoc]
  have hmask : 0xFFFFFFFB &&& pteUser = 0 := by decide
  rw [hmask, Nat.and_zero]

namespace Machine

/-- The directories. -/
def Directory (m : Machine) (d : ℕ) : Prop := d = m.kernelPd ∨ d ∈ m.spaces

/-- No directory and no table of the kernel's is free, and no table is a directory. -/
structure Sane (m : Machine) : Prop where
  kernel_pd : m.bitmap m.kernelPd = true ∧ m.kernelPd ≠ 0
  space : ∀ pd ∈ m.spaces, m.bitmap pd = true ∧ pd ≠ 0 ∧ pd ≠ m.kernelPd
  table : ∀ i < 1024, present (m.mem m.kernelPd i) = true →
    m.bitmap (frameOf (m.mem m.kernelPd i)) = true ∧ frameOf (m.mem m.kernelPd i) ≠ 0 ∧
      ¬m.Directory (frameOf (m.mem m.kernelPd i))

/-- A step that leaves the directories alone and no frame in use becomes free. -/
structure Keeps (m m' : Machine) : Prop where
  kernelPd : m'.kernelPd = m.kernelPd
  spaces : m'.spaces = m.spaces
  mem : ∀ d, m.Directory d → m'.mem d = m.mem d
  bitmap : ∀ f, m.HoldsEntries f → m.bitmap f = true → m'.bitmap f = true
  totalFrames : m'.totalFrames = m.totalFrames

variable {m m' m'' : Machine}

theorem Keeps.refl (m : Machine) : m.Keeps m := ⟨rfl, rfl, fun _ _ => rfl, fun _ _ h => h, rfl⟩

theorem Sane.keep (h : m.Sane) (hk : m.Keeps m') : m'.Sane where
  kernel_pd := by
    rw [hk.kernelPd]
    exact ⟨hk.bitmap _ (.inl rfl) h.kernel_pd.1, h.kernel_pd.2⟩
  space pd hpd := by
    rw [hk.spaces] at hpd
    rw [hk.kernelPd]
    exact ⟨hk.bitmap pd (.inr (.inl hpd)) (h.space pd hpd).1, (h.space pd hpd).2⟩
  table i hi hp := by
    rw [hk.kernelPd, hk.mem _ (.inl rfl)] at hp ⊢
    obtain ⟨hused, hzero, hdir⟩ := h.table i hi hp
    refine ⟨hk.bitmap _ (.inr (.inr ⟨i, hi, hp, rfl⟩)) hused, hzero, ?_⟩
    rwa [Directory, hk.kernelPd, hk.spaces]

/-- A store into a frame that is no directory. -/
theorem Keeps.store {t : ℕ} (h : ¬m.Directory t) (i v : ℕ) : m.Keeps (m.store t i v) := by
  refine ⟨rfl, rfl, fun d hd => ?_, fun _ _ h => h, rfl⟩
  have hne : d ≠ t := by
    rintro rfl
    exact h hd
  exact Function.update_of_ne hne _ _

theorem Keeps.trans (h : m.Keeps m') (h' : m'.Keeps m'') : m.Keeps m'' := by
  have hdir : ∀ d, m.Directory d → m'.Directory d := by
    intro d hd
    rwa [Directory, h.kernelPd, h.spaces]
  refine ⟨h'.kernelPd.trans h.kernelPd, h'.spaces.trans h.spaces, fun d hd => ?_, fun f hf hb => ?_,
    h'.totalFrames.trans h.totalFrames⟩
  · rw [h'.mem d (hdir d hd), h.mem d hd]
  · refine h'.bitmap f ?_ (h.bitmap f hf hb)
    rw [HoldsEntries, h.kernelPd, h.spaces, h.mem _ (.inl rfl)]
    exact hf

theorem pmmAllocFrame_cases (m : Machine) :
    (∃ f, m.bitmap f = false ∧ m.pmmAllocFrame = ({ m with bitmap := Function.update m.bitmap f true }, f)) ∨
      m.pmmAllocFrame = (m, 0) := by
  unfold pmmAllocFrame
  split
  · next f hf =>
    have hfree := List.find?_some hf
    exact .inl ⟨f, by simpa using hfree, rfl⟩
  · exact .inr rfl

/-- A frame gets in use. -/
theorem Keeps.take (m : Machine) (f : ℕ) : m.Keeps { m with bitmap := Function.update m.bitmap f true } := by
  refine ⟨rfl, rfl, fun _ _ => rfl, fun g _ hg => ?_, rfl⟩
  by_cases he : g = f
  · simp [he]
  · simpa [he] using hg

theorem Keeps.alloc (m : Machine) : m.Keeps m.pmmAllocFrame.1 := by
  rcases m.pmmAllocFrame_cases with ⟨f, -, he⟩ | he
  · rw [he]
    exact .take m f
  · rw [he]
    exact .refl m

/-! ## A new table in the kernel's directory -/

/-- The machine after `table_for` has made a table in frame `f`. -/
def withTable (m : Machine) (f index : ℕ) : Machine :=
  ({ m with bitmap := Function.update m.bitmap f true }.clear f).store m.kernelPd index (tableEntry f)

/-- What `table_for` comes to in the kernel's directory. -/
theorem tableFor_cases (m : Machine) (virt : ℕ) :
    (present (m.mem m.kernelPd (virt / pdeSpan)) = true ∧
      m.tableFor m.kernelPd virt true 0 = (m, frameOf (m.mem m.kernelPd (virt / pdeSpan)))) ∨
    (present (m.mem m.kernelPd (virt / pdeSpan)) = false ∧
      ((m.tableFor m.kernelPd virt true 0).2 = 0 ∧ m.Keeps (m.tableFor m.kernelPd virt true 0).1 ∨
        ∃ f, f ≠ 0 ∧ m.bitmap f = false ∧
          m.tableFor m.kernelPd virt true 0 = (m.withTable f (virt / pdeSpan), f))) := by
  cases hp : present (m.mem m.kernelPd (virt / pdeSpan)) with
  | true => exact .inl ⟨rfl, by simp [tableFor, hp]⟩
  | false =>
    refine .inr ⟨rfl, ?_⟩
    rcases m.pmmAllocFrame_cases with ⟨f, hf, he⟩ | he
    · by_cases hz : f = 0
      · refine .inl ?_
        simp only [tableFor, hp, he, hz, if_true]
        exact ⟨trivial, .take m 0⟩
      · refine .inr ⟨f, hz, hf, ?_⟩
        simp only [tableFor, hp, he, hz, if_true, if_false, Nat.or_zero]
        rfl
    · refine .inl ?_
      simp only [tableFor, hp, he, if_true]
      exact ⟨trivial, .refl m⟩

theorem Sane.not_directory (h : m.Sane) {f : ℕ} (hf : m.bitmap f = false) : ¬m.Directory f := by
  rintro (rfl | hf')
  · rw [h.kernel_pd.1] at hf
    cases hf
  · rw [(h.space f hf').1] at hf
    cases hf

section WithTable
variable {f index : ℕ}

theorem withTable_kernelPd (h : m.Sane) (hf : m.bitmap f = false) (index i : ℕ) :
    (m.withTable f index).mem m.kernelPd i = if i = index then tableEntry f else m.mem m.kernelPd i := by
  have hne : m.kernelPd ≠ f := fun he => h.not_directory hf (.inl he.symm)
  by_cases hi : i = index
  · simp [withTable, store, hi]
  · simp [withTable, store, clear, hi, hne]

theorem withTable_space (h : m.Sane) (hf : m.bitmap f = false) {pd : ℕ} (hpd : pd ∈ m.spaces) :
    (m.withTable f index).mem pd = m.mem pd := by
  have hne := (h.space pd hpd).2.2
  have hpf : pd ≠ f := fun he => h.not_directory hf (.inr (he ▸ hpd))
  simp [withTable, store, clear, hne, hpf]

theorem Sane.withTable (h : m.Sane) (hzero : f ≠ 0) (hf : m.bitmap f = false) : (m.withTable f index).Sane := by
  have hbit : ∀ g, m.bitmap g = true → (m.withTable f index).bitmap g = true := by
    intro g hg
    have hne : g ≠ f := by
      rintro rfl
      rw [hg] at hf
      cases hf
    simpa [Machine.withTable, store, clear, hne] using hg
  refine ⟨⟨hbit _ h.kernel_pd.1, h.kernel_pd.2⟩, fun pd hpd => ⟨hbit pd (h.space pd hpd).1, (h.space pd hpd).2⟩,
    fun i hi hp => ?_⟩
  have hentry := withTable_kernelPd h hf index i
  change present ((m.withTable f index).mem m.kernelPd i) = true at hp
  change (m.withTable f index).bitmap (frameOf ((m.withTable f index).mem m.kernelPd i)) = true ∧
    frameOf ((m.withTable f index).mem m.kernelPd i) ≠ 0 ∧ ¬m.Directory (frameOf ((m.withTable f index).mem m.kernelPd i))
  rw [hentry] at hp ⊢
  split at hp
  · next he =>
    rw [if_pos he, tableEntry_frame]
    refine ⟨?_, hzero, h.not_directory hf⟩
    simp [Machine.withTable, store, clear]
  · next he =>
    rw [if_neg he]
    obtain ⟨hused, hz, hdir⟩ := h.table i hi hp
    exact ⟨hbit _ hused, hz, hdir⟩

end WithTable

/-! ## Mapping in the kernel's directory -/


/-- The machine after a page has been entered in the table `t`. -/
def withPage (m : Machine) (t virt pte : ℕ) : Machine :=
  (if present (m.mem t (pteIndex virt)) then m else { m with mappedPages := m.mappedPages + 1 }).store t (pteIndex virt) pte

theorem Keeps.withPage {t : ℕ} (h : ¬m.Directory t) (virt pte : ℕ) : m.Keeps (m.withPage t virt pte) := by
  unfold Machine.withPage
  split
  · exact .store h _ _
  · have hcount : m.Keeps { m with mappedPages := m.mappedPages + 1 } := ⟨rfl, rfl, fun _ _ => rfl, fun _ _ h => h, rfl⟩
    refine hcount.trans (Keeps.store ?_ _ _)
    exact h

theorem withPage_self (m : Machine) (t virt pte : ℕ) : (m.withPage t virt pte).mem t (pteIndex virt) = pte := by
  simp [Machine.withPage, store]

/-- A call fails or enters its page in a table that is there, and the directories stay as they are; or it makes a
table first. -/
theorem Sane.mapIn_cases (h : m.Sane) (phys : ℕ) {virt flags : ℕ} (hv : virt < 4294967296) (hflags : flags &&& pteUser = 0) :
    (m.Keeps (m.vmmMapIn m.kernelPd virt phys flags).1 ∧
      ((m.vmmMapIn m.kernelPd virt phys flags).2 = -1 ∨ (m.vmmMapIn m.kernelPd virt phys flags).2 = 0 ∧
        present (m.mem m.kernelPd (virt / pdeSpan)) = true)) ∨
    (virt % pageSize = 0 ∧ present (m.mem m.kernelPd (virt / pdeSpan)) = false ∧
      ∃ f, f ≠ 0 ∧ m.bitmap f = false ∧ m.vmmMapIn m.kernelPd virt phys flags =
        ((m.withTable f (virt / pdeSpan)).withPage f virt (phys ||| (flags &&& 0xFFF) ||| ptePresent), 0)) := by
  have hindex : virt / pdeSpan < 1024 := by
    unfold pdeSpan
    omega
  unfold vmmMapIn
  rw [if_neg h.kernel_pd.2]
  split
  · exact .inl ⟨.refl m, .inl rfl⟩
  next halign =>
  rw [if_neg (fun hc => hc.1 hflags), hflags]
  rcases m.tableFor_cases virt with ⟨hp, he⟩ | ⟨hp, ⟨hz, hk⟩ | ⟨f, hz, hf, he⟩⟩
  · obtain ⟨-, hzero, hdir⟩ := h.table _ hindex hp
    simp only [he, if_neg hzero]
    exact .inl ⟨.withPage hdir _ _, .inr ⟨trivial, hp⟩⟩
  · simp only [hz, if_true]
    exact .inl ⟨hk, .inl trivial⟩
  · simp only [he, if_neg hz]
    refine .inr ⟨?_, hp, f, hz, hf, rfl⟩
    by_contra hne
    exact halign (.inl hne)

/-! ## Translation -/

/-- What a directory entry makes of an address. -/
def translate (m : Machine) (entry virt : ℕ) : ℕ :=
  if present entry = false ∨ frameOf entry = 0 ∨ present (m.mem (frameOf entry) (pteIndex virt)) = false then 0
  else frameOf (m.mem (frameOf entry) (pteIndex virt)) * pageSize + virt % pageSize

theorem vmmTranslateIn_eq {pd : ℕ} (hpd : pd ≠ 0) (virt : ℕ) :
    m.vmmTranslateIn pd virt = m.translate (m.mem pd (virt / pdeSpan)) virt := by
  rw [vmmTranslateIn, if_neg hpd, tableFor, translate]
  cases hp : present (m.mem pd (virt / pdeSpan)) with
  | false => simp
  | true => simp

/-- Every space has the kernel's entries for the kernel's half. -/
def Shared (m : Machine) : Prop :=
  ∀ pd ∈ m.spaces, ∀ i < 1024, isKernelPde i = true → m.mem pd i = m.mem m.kernelPd i

theorem Shared.keep (hs : m.Shared) (hk : m.Keeps m') : m'.Shared := by
  intro pd hpd i hi hik
  rw [hk.spaces] at hpd
  rw [hk.kernelPd, hk.mem pd (.inr hpd), hk.mem _ (.inl rfl)]
  exact hs pd hpd i hi hik

theorem isKernelPde_iff {virt : ℕ} : isKernelPde (virt / pdeSpan) = true ↔ KernelHalf virt := by
  rw [isKernelPde, decide_eq_true_iff, KernelHalf]
  simp only [pdeSpan, userMin, userMax]
  omega

theorem Sane.visible (h : m.Sane) (hs : m.Shared) : Visible m := by
  intro pd hpd virt hv hhalf
  have hindex : virt / pdeSpan < 1024 := by
    unfold pdeSpan
    omega
  rw [vmmTranslateIn_eq (h.space pd hpd).2.1, vmmTranslateIn_eq h.kernel_pd.2,
    hs pd hpd _ hindex (isKernelPde_iff.mpr hhalf)]

/-! ## What `paging_init` prepares -/

/-- The part of the kernel's half that has its tables from the start: RAM, the heap window and the first 64 MiB
from the framebuffer's address on. -/
def Window (totalFrames virt : ℕ) : Prop :=
  virt < min totalFrames (userMin / pageSize) * pageSize ∨ kernelHeapBase ≤ virt ∧ virt < kernelHeapMax ∨
    kernelFbBase ≤ virt ∧ virt < kernelFbBase + 64 * 1024 * 1024

/-- The kernel's directory only gains tables. -/
structure Extends (m m' : Machine) : Prop where
  kernelPd : m'.kernelPd = m.kernelPd
  spaces : m'.spaces = m.spaces
  totalFrames : m'.totalFrames = m.totalFrames
  present : ∀ i, present (m.mem m.kernelPd i) = true → present (m'.mem m.kernelPd i) = true

theorem Extends.refl (m : Machine) : m.Extends m := ⟨rfl, rfl, rfl, fun _ h => h⟩

theorem Extends.trans (h : m.Extends m') (h' : m'.Extends m'') : m.Extends m'' := by
  refine ⟨h'.kernelPd.trans h.kernelPd, h'.spaces.trans h.spaces, h'.totalFrames.trans h.totalFrames, fun i hi => ?_⟩
  have hp := h'.present i (by rw [h.kernelPd]; exact h.present i hi)
  rwa [h.kernelPd] at hp

theorem Keeps.extends (h : m.Keeps m') : m.Extends m' :=
  ⟨h.kernelPd, h.spaces, h.totalFrames, fun i hi => by rwa [h.mem _ (.inl rfl)]⟩

theorem Sane.extends_withTable (h : m.Sane) {f : ℕ} (hf : m.bitmap f = false) (index : ℕ) :
    m.Extends (m.withTable f index) := by
  refine ⟨rfl, rfl, rfl, fun i hi => ?_⟩
  rw [withTable_kernelPd h hf]
  split
  · exact tableEntry_present f
  · exact hi

/-- A page in a table that has just been made. -/
theorem Sane.keeps_newPage (h : m.Sane) {f : ℕ} (hf : m.bitmap f = false) (index virt pte : ℕ) :
    (m.withTable f index).Keeps ((m.withTable f index).withPage f virt pte) :=
  Keeps.withPage (m := m.withTable f index) (h.not_directory hf) virt pte

/-- `vmm_map_in` for the kernel's directory keeps it sane, takes no table out of it and, if it succeeds, has the
table of its address there. -/
theorem Sane.mapIn (h : m.Sane) (phys flags : ℕ) {virt : ℕ} (hv : virt < 4294967296) (hflags : flags &&& pteUser = 0) :
    (m.vmmMapIn m.kernelPd virt phys flags).1.Sane ∧ m.Extends (m.vmmMapIn m.kernelPd virt phys flags).1 ∧
      (0 ≤ (m.vmmMapIn m.kernelPd virt phys flags).2 →
        present ((m.vmmMapIn m.kernelPd virt phys flags).1.mem m.kernelPd (virt / pdeSpan)) = true) := by
  rcases h.mapIn_cases phys hv hflags with ⟨hk, hr⟩ | ⟨-, hp, f, hz, hf, he⟩
  · refine ⟨h.keep hk, hk.extends, fun hok => ?_⟩
    rcases hr with hr | ⟨-, hp⟩
    · rw [hr] at hok
      cases hok
    · exact hk.extends.present _ hp
  · rw [he]
    have hk := h.keeps_newPage hf (virt / pdeSpan) virt (phys ||| (flags &&& 0xFFF) ||| ptePresent)
    refine ⟨(h.withTable hz hf).keep hk, (h.extends_withTable hf _).trans hk.extends, fun _ => ?_⟩
    refine hk.extends.present (virt / pdeSpan) ?_
    change Paging.present ((m.withTable f (virt / pdeSpan)).mem m.kernelPd (virt / pdeSpan)) = true
    rw [withTable_kernelPd h hf, if_pos rfl]
    exact tableEntry_present f

theorem Sane.identityMap (h : m.Sane) {n page : ℕ} (hn : (page + n) * pageSize ≤ 4294967296)
    (hs : identityMap n page m = some m') : m'.Sane ∧ m.Extends m' ∧
      ∀ p, page ≤ p → p < page + n → present (m'.mem m.kernelPd (p * pageSize / pdeSpan)) = true := by
  induction n generalizing page m with
  | zero =>
    obtain rfl := Option.some.inj hs
    exact ⟨h, .refl m, fun p _ _ => by omega⟩
  | succ n ih =>
    have hpage : page * pageSize < 4294967296 := by
      unfold pageSize at *
      omega
    obtain ⟨hsane, hext, hhere⟩ := h.mapIn (page * pageSize) (ptePresent ||| pteWrite) hpage (by decide)
    rw [Machine.identityMap] at hs
    generalize m.vmmMapIn m.kernelPd (page * pageSize) (page * pageSize) (ptePresent ||| pteWrite) = mapped at *
    split at hs
    · cases hs
    · next hok =>
      obtain ⟨hsane', hext', hrest⟩ := ih hsane (by rw [Nat.add_right_comm]; exact hn) hs
      refine ⟨hsane', hext.trans hext', fun p hlo hhi => ?_⟩
      by_cases he : p = page
      · have hnow := hhere (Int.not_lt.mp hok)
        rw [← he, ← hext.kernelPd] at hnow
        have hp := hext'.present _ hnow
        rwa [hext.kernelPd] at hp
      · have hp := hrest p (by omega) (by omega)
        rwa [hext.kernelPd] at hp

theorem Sane.tableFor (h : m.Sane) {virt : ℕ} (hok : (m.tableFor m.kernelPd virt true 0).2 ≠ 0) :
    (m.tableFor m.kernelPd virt true 0).1.Sane ∧ m.Extends (m.tableFor m.kernelPd virt true 0).1 ∧
      present ((m.tableFor m.kernelPd virt true 0).1.mem m.kernelPd (virt / pdeSpan)) = true := by
  rcases m.tableFor_cases virt with ⟨hp, he⟩ | ⟨hp, ⟨hz, -⟩ | ⟨f, hz, hf, he⟩⟩
  · rw [he]
    exact ⟨h, .refl m, hp⟩
  · exact absurd hz hok
  · rw [he]
    refine ⟨h.withTable hz hf, h.extends_withTable hf _, ?_⟩
    dsimp only
    rw [withTable_kernelPd h hf, if_pos rfl]
    exact tableEntry_present f

theorem Sane.reserveTables (h : m.Sane) {n addr : ℕ} (hs : reserveTables n addr m = some m') :
    m'.Sane ∧ m.Extends m' ∧ ∀ j < n, present (m'.mem m.kernelPd (addr / pdeSpan + j)) = true := by
  induction n generalizing addr m with
  | zero =>
    obtain rfl := Option.some.inj hs
    exact ⟨h, .refl m, fun j hj => by omega⟩
  | succ n ih =>
    simp only [Machine.reserveTables] at hs
    split at hs
    · cases hs
    · next hok =>
      obtain ⟨hsane, hext, hhere⟩ := h.tableFor hok
      obtain ⟨hsane', hext', hrest⟩ := ih hsane hs
      refine ⟨hsane', hext.trans hext', fun j hj => ?_⟩
      cases j with
      | zero =>
        have hp := hext'.present (addr / pdeSpan) (by rw [hext.kernelPd]; exact hhere)
        rwa [hext.kernelPd] at hp
      | succ j =>
        have hp := hrest j (by omega)
        have hnext : (addr + pdeSpan) / pdeSpan + j = addr / pdeSpan + (j + 1) := by
          unfold pdeSpan
          omega
        rwa [hext.kernelPd, hnext] at hp

/-- The windows have their tables. -/
def Reserved (m : Machine) : Prop :=
  ∀ virt, Window m.totalFrames virt → present (m.mem m.kernelPd (virt / pdeSpan)) = true

theorem Reserved.extends (h : m.Reserved) (he : m.Extends m') : m'.Reserved := by
  intro virt hw
  rw [he.totalFrames] at hw
  rw [he.kernelPd]
  exact he.present _ (h virt hw)

/-- The directory frame, as `paging_init` takes it. -/
def withDirectory (m : Machine) (f : ℕ) : Machine :=
  { ({ m with bitmap := Function.update m.bitmap f true } : Machine).clear f with kernelPd := f }

theorem sane_withDirectory (hspaces : m.spaces = []) {f : ℕ} (hf : f ≠ 0) : (m.withDirectory f).Sane := by
  refine ⟨⟨by simp [withDirectory, clear], hf⟩, fun pd hpd => ?_, fun i _ hp => ?_⟩
  · simp [withDirectory, clear, hspaces] at hpd
  · simp [withDirectory, clear, Paging.present] at hp

/-- Which of the tables of a window an address in it is mapped by. -/
theorem span_of_window {base size virt : ℕ} (hbase : base % pdeSpan = 0) (hsize : size % pdeSpan = 0) (hlo : base ≤ virt)
    (hhi : virt < base + size) :
    virt / pdeSpan - base / pdeSpan < size / pdeSpan ∧ base / pdeSpan + (virt / pdeSpan - base / pdeSpan) = virt / pdeSpan := by
  unfold pdeSpan at *
  omega

theorem pagingInit_sane {m₀ : Machine} (hspaces : m₀.spaces = []) (hs : m₀.pagingInit = some m) :
    m.Sane ∧ m.spaces = [] ∧ m.Reserved := by
  unfold pagingInit at hs
  rcases m₀.pmmAllocFrame_cases with ⟨f, -, he⟩ | he
  · simp only [he] at hs
    split at hs
    · cases hs
    next hz =>
    obtain ⟨m₂, h₂, hs⟩ := Option.bind_eq_some_iff.mp hs
    obtain ⟨m₃, h₃, hs⟩ := Option.bind_eq_some_iff.mp hs
    change Machine.identityMap _ 0 (m₀.withDirectory f) = some m₂ at h₂
    have hsane₁ := sane_withDirectory hspaces hz
    obtain ⟨hsane₂, hext₂, hram⟩ := hsane₁.identityMap (by simp only [userMin, pageSize]; omega) h₂
    obtain ⟨hsane₃, hext₃, hheap⟩ := hsane₂.reserveTables h₃
    obtain ⟨hsane, hext, hfb⟩ := hsane₃.reserveTables hs
    refine ⟨hsane, by rw [hext.spaces, hext₃.spaces, hext₂.spaces]; exact hspaces, fun virt hw => ?_⟩
    rw [hext.totalFrames, hext₃.totalFrames, hext₂.totalFrames] at hw
    rw [hext.kernelPd]
    rcases hw with hw | ⟨hlo, hhi⟩ | ⟨hlo, hhi⟩
    · have hp := hram (virt / pageSize) (Nat.zero_le _) (by
        rw [Nat.zero_add]
        exact Nat.div_lt_of_lt_mul (by rwa [Nat.mul_comm] at hw))
      have hsame : virt / pageSize * pageSize / pdeSpan = virt / pdeSpan := by
        unfold pageSize pdeSpan
        omega
      rw [hsame] at hp
      refine hext.present _ ?_
      rw [hext₃.kernelPd]
      refine hext₃.present _ ?_
      rwa [hext₂.kernelPd]
    · have hhi' : virt < kernelHeapBase + (kernelHeapMax - kernelHeapBase) := hhi
      obtain ⟨hlt, hsame⟩ := span_of_window (by decide) (by decide) hlo hhi'
      have hp := hheap _ hlt
      rw [hsame, ← hext₃.kernelPd] at hp
      exact hext.present _ hp
    · obtain ⟨hlt, hsame⟩ := span_of_window (by decide) (by decide) hlo hhi
      have hp := hfb _ hlt
      rw [hsame] at hp
      exact hp
  · simp only [he, if_true] at hs
    cases hs

/-! ## Runs -/

/-- What holds between two calls of a run whose maps find their tables. -/
structure Inv (m : Machine) : Prop where
  sane : m.Sane
  shared : m.Shared
  reserved : m.Reserved

theorem Inv.keep (h : m.Inv) (hk : m.Keeps m') : m'.Inv :=
  ⟨h.sane.keep hk, h.shared.keep hk, h.reserved.extends hk.extends⟩

theorem Sane.keeps_unmap (h : m.Sane) {virt : ℕ} (hv : virt < 4294967296) : m.Keeps (m.vmmUnmap virt) := by
  have hindex : virt / pageSize * pageSize / pdeSpan < 1024 := by
    unfold pageSize pdeSpan
    omega
  unfold vmmUnmap vmmUnmapIn
  rw [if_neg h.kernel_pd.2]
  dsimp only
  split
  · exact .refl m
  · next hc =>
    obtain ⟨htable, -⟩ := not_or.mp hc
    have hfound : ¬m.Directory (m.tableFor m.kernelPd (virt / pageSize * pageSize) false 0).2 := by
      cases hp : present (m.mem m.kernelPd (virt / pageSize * pageSize / pdeSpan)) with
      | false => simp [Machine.tableFor, hp] at htable
      | true =>
        have heq : (m.tableFor m.kernelPd (virt / pageSize * pageSize) false 0).2 =
            frameOf (m.mem m.kernelPd (virt / pageSize * pageSize / pdeSpan)) := by simp [Machine.tableFor, hp]
        rw [heq]
        exact (h.table _ hindex hp).2.2
    have hstore := Keeps.store hfound (pteIndex (virt / pageSize * pageSize)) 0
    exact ⟨hstore.kernelPd, hstore.spaces, hstore.mem, hstore.bitmap, hstore.totalFrames⟩

theorem Keeps.free {frame : ℕ} (h : ¬m.HoldsEntries frame) : m.Keeps (m.pmmFreeFrame frame) := by
  unfold pmmFreeFrame
  split
  · exact .refl m
  · refine ⟨rfl, rfl, fun _ _ => rfl, fun g hg hused => ?_, rfl⟩
    have hne : g ≠ frame := by
      rintro rfl
      exact h hg
    simpa [hne] using hused

/-- A new space copies the kernel's half into a frame nobody has. -/
theorem Inv.spaceCreate (h : m.Inv) : m.vmmSpaceCreate.1.Inv := by
  rcases m.pmmAllocFrame_cases with ⟨f, hf, he⟩ | he
  · simp only [vmmSpaceCreate, he]
    split
    · exact h.keep (.take m f)
    next hz =>
    have hdir := h.sane.not_directory hf
    have hpd : m.kernelPd ≠ f := fun heq => hdir (.inl heq.symm)
    have hother : ∀ pd ∈ m.spaces, pd ≠ f := fun pd hpd heq => hdir (.inr (heq ▸ hpd))
    have hused : ∀ g, m.bitmap g = true → Function.update m.bitmap f true g = true := by
      intro g hg
      by_cases hgf : g = f
      · simp [hgf]
      · simpa [hgf] using hg
    refine ⟨⟨⟨hused _ h.sane.kernel_pd.1, h.sane.kernel_pd.2⟩, fun pd hpd' => ?_, fun i hi hp => ?_⟩,
      fun pd hpd' i hi hik => ?_, fun virt hw => ?_⟩
    · rcases List.mem_cons.mp hpd' with rfl | hpd'
      · exact ⟨by simp, hz, hpd.symm⟩
      · obtain ⟨hu, hz', hne⟩ := h.sane.space pd hpd'
        exact ⟨hused pd hu, hz', hne⟩
    · dsimp only at hp ⊢
      rw [Function.update_of_ne hpd] at hp ⊢
      obtain ⟨hu, hz', hd⟩ := h.sane.table i hi hp
      refine ⟨hused _ hu, hz', ?_⟩
      rintro (heq | hmem)
      · exact hd (.inl heq)
      · rcases List.mem_cons.mp hmem with heq | hmem
        · rw [heq, hf] at hu
          cases hu
        · exact hd (.inr hmem)
    · dsimp only
      rw [Function.update_of_ne hpd]
      rcases List.mem_cons.mp hpd' with rfl | hpd'
      · simp [hi, hik]
      · rw [Function.update_of_ne (hother pd hpd')]
        exact h.shared pd hpd' i hi hik
    · dsimp only
      rw [Function.update_of_ne hpd]
      exact h.reserved virt hw
  · simp only [vmmSpaceCreate, he, if_true]
    exact h

/-- A new table is shared as long as nobody has copied the directory, or it is not for the kernel's half. -/
theorem Inv.withTable (h : m.Inv) {f virt : ℕ} (hz : f ≠ 0) (hf : m.bitmap f = false)
    (hc : KernelHalf virt → m.spaces = []) : (m.withTable f (virt / pdeSpan)).Inv := by
  refine ⟨h.sane.withTable hz hf, fun pd hpd i hi hik => ?_, h.reserved.extends (h.sane.extends_withTable hf _)⟩
  change (m.withTable f (virt / pdeSpan)).mem pd i = (m.withTable f (virt / pdeSpan)).mem m.kernelPd i
  rw [withTable_space h.sane hf hpd, withTable_kernelPd h.sane hf, if_neg]
  · exact h.shared pd hpd i hi hik
  · rintro rfl
    have hmem : pd ∈ m.spaces := hpd
    simp [hc (isKernelPde_iff.mp hik)] at hmem

/-- A page in a table that the spaces do not have is seen in the kernel's space only. -/
theorem Inv.not_visible (h : m.Inv) {f virt pte : ℕ} (hz : f ≠ 0) (hf : m.bitmap f = false) (hv : virt < 4294967296)
    (halign : virt % pageSize = 0) (hp : present (m.mem m.kernelPd (virt / pdeSpan)) = false) (hhalf : KernelHalf virt)
    (hspaces : m.spaces ≠ []) (hpte : present pte = true) :
    ¬Visible ((m.withTable f (virt / pdeSpan)).withPage f virt pte) := by
  intro hvis
  obtain ⟨pd, hpd⟩ := List.exists_mem_of_ne_nil _ hspaces
  have hsane : (m.withTable f (virt / pdeSpan)).Sane := h.sane.withTable hz hf
  have hk := h.sane.keeps_newPage hf (virt / pdeSpan) virt pte
  generalize hm₂ : (m.withTable f (virt / pdeSpan)).withPage f virt pte = m₂ at hvis hk
  have hkernel : m₂.kernelPd = m.kernelPd := hk.kernelPd
  have hsame : (virt + 1) / pdeSpan = virt / pdeSpan := by
    unfold pageSize at halign
    unfold pdeSpan
    omega
  have hindex : pteIndex (virt + 1) = pteIndex virt := by
    unfold pteIndex pageSize at *
    omega
  have hone : (virt + 1) % pageSize = 1 := by
    unfold pageSize at *
    omega
  have hbound : virt + 1 < 4294967296 := by
    unfold pageSize at halign
    omega
  have hhalf' : KernelHalf (virt + 1) := by
    unfold KernelHalf userMin userMax pageSize at *
    omega
  have heq := hvis pd (by rw [hk.spaces]; exact hpd) (virt + 1) hbound hhalf'
  have hsane₂ := hsane.keep hk
  rw [vmmTranslateIn_eq (h.sane.space pd hpd).2.1, vmmTranslateIn_eq hsane₂.kernel_pd.2, hkernel, hsame,
    hk.mem pd (.inr hpd), withTable_space h.sane hf hpd, hk.mem m.kernelPd (.inl rfl), withTable_kernelPd h.sane hf,
    if_pos rfl] at heq
  have hindex' : virt / pdeSpan < 1024 := by
    unfold pdeSpan
    omega
  rw [h.shared pd hpd _ hindex' (isKernelPde_iff.mpr hhalf)] at heq
  have hpage : m₂.mem f (pteIndex virt) = pte := by
    rw [← hm₂]
    exact withPage_self _ _ _ _
  rw [translate, if_pos (.inl hp), translate, tableEntry_frame, hindex, hpage, if_neg, hone] at heq
  · omega
  · simp [tableEntry_present, hz, hpte]

/-- One call: when its map finds its table the invariant stays, and when it does not its page is not visible
everywhere. -/
theorem Inv.step (h : m.Inv) {a : Action} (hs : step m a = some m') :
    (Covered m a → m'.Inv) ∧ (¬Covered m a → ¬Visible m') := by
  cases a with
  | map virt phys flags =>
    simp only [Paging.step] at hs
    split at hs
    · next hc =>
      obtain rfl := Option.some.inj hs
      simp only [Covered, vmmMap]
      rcases h.sane.mapIn_cases phys hc.1 (no_user_flag flags) with ⟨hk, hr⟩ | ⟨halign, hp, f, hz, hf, he⟩
      · refine ⟨fun _ => h.keep hk, fun hn => absurd (fun hok hhalf hne => ?_) hn⟩
        rcases hr with hr | ⟨-, hp⟩
        · rw [hr] at hok
          cases hok
        · exact hp
      · rw [he]
        constructor
        · intro hcov
          have hempty : KernelHalf virt → m.spaces = [] := by
            intro hhalf
            by_contra hne
            rw [hcov rfl hhalf hne] at hp
            cases hp
          exact (h.withTable hz hf hempty).keep (h.sane.keeps_newPage hf _ _ _)
        · intro hn
          simp only [not_forall, true_implies] at hn
          obtain ⟨hhalf, hne, -⟩ := hn
          exact h.not_visible hz hf hc.1 halign hp hhalf hne (present_or _)
    · cases hs
  | unmap virt =>
    simp only [Paging.step] at hs
    split at hs
    · next hc =>
      obtain rfl := Option.some.inj hs
      exact ⟨fun _ => h.keep (h.sane.keeps_unmap hc.1), fun hn => absurd trivial hn⟩
    · cases hs
  | create =>
    obtain rfl := Option.some.inj hs
    exact ⟨fun _ => h.spaceCreate, fun hn => absurd trivial hn⟩
  | take =>
    obtain rfl := Option.some.inj hs
    exact ⟨fun _ => h.keep (.alloc m), fun hn => absurd trivial hn⟩
  | give frame =>
    simp only [Paging.step] at hs
    split at hs
    · next hc =>
      obtain rfl := Option.some.inj hs
      exact ⟨fun _ => h.keep (.free hc), fun hn => absurd trivial hn⟩
    · cases hs

end Machine

/-- One call of a run whose maps find their tables. -/
def CoveredStep (m m' : Machine) : Prop := ∃ a, Covered m a ∧ step m a = some m'

theorem covered_inv {m : Machine} (h : Reachable Booted CoveredStep m) : m.Inv := by
  refine h.invariant (P := Machine.Inv) ?_ ?_
  · rintro m ⟨m₀, hspaces, hs⟩
    obtain ⟨hsane, hempty, hreserved⟩ := Machine.pagingInit_sane hspaces hs
    exact ⟨hsane, fun pd hpd => by simp [hempty] at hpd, hreserved⟩
  · rintro m m' hinv ⟨a, hc, hs⟩
    exact (hinv.step hs).1 hc

/-- Over every run after `paging_init`, as long as each map of a kernel address that succeeds while there are
spaces finds the table of that address in the kernel's directory, every space translates every kernel address as
the kernel's space does; the first call for which that is not so ends it. Maps into RAM, the heap window and the
first 64 MiB of the framebuffer's window always find their table. -/
theorem kernel_half_visible {m : Machine} (h : Reachable Booted CoveredStep m) :
    Visible m ∧ (∀ a m', step m a = some m' → (Visible m' ↔ Covered m a)) ∧
      ∀ virt phys flags, Machine.Window m.totalFrames virt → Covered m (.map virt phys flags) := by
  have hinv := covered_inv h
  refine ⟨hinv.sane.visible hinv.shared, fun a m' hs => ?_, fun virt phys flags hw _ _ _ => hinv.reserved virt hw⟩
  obtain ⟨hkeeps, hends⟩ := hinv.step hs
  constructor
  · intro hvis
    by_contra hn
    exact hends hn hvis
  · intro hc
    have hinv' := hkeeps hc
    exact hinv'.sane.visible hinv'.shared

/-- A machine with 48 frames, of which the kernel image has three. -/
def small : Machine where
  bitmap := fun f => f < 3
  totalFrames := 48
  mem := fun _ _ => 0
  kernelPd := 0
  spaces := []
  mappedPages := 0

instance (m : Machine) (a : Action) : Decidable (Covered m a) :=
  match a with
  | .map virt phys flags =>
    inferInstanceAs (Decidable ((m.vmmMap virt phys flags).2 = 0 → (virt < userMin ∨ userMax ≤ virt) → m.spaces ≠ [] →
      present (m.mem m.kernelPd (virt / pdeSpan)) = true))
  | .unmap _ => .isTrue trivial
  | .create => .isTrue trivial
  | .take => .isTrue trivial
  | .give _ => .isTrue trivial

/-- A call whose map finds its table. -/
def coveredStep (m : Machine) (a : Action) : Option Machine := if Covered m a then step m a else none

/-- The `small` machine after `paging_init` and the calls of `acts`. -/
def after (next : Machine → Action → Option Machine) (acts : List Action) : Option Machine :=
  small.pagingInit.bind fun m => follow next m acts

theorem after_reachable {next : Machine → Action → Option Machine} {r : Machine → Machine → Prop}
    (hr : ∀ m a m', next m a = some m' → r m m') {acts : List Action} {m : Machine} (h : after next acts = some m) :
    Reachable Booted r m := by
  obtain ⟨m₀, hboot, hfollow⟩ := Option.bind_eq_some_iff.mp h
  exact Reachable.follow hr (.start ⟨small, rfl, hboot⟩) hfollow

theorem coveredStep_covered {m m' : Machine} {a : Action} (hs : coveredStep m a = some m') : CoveredStep m m' := by
  unfold coveredStep at hs
  split at hs
  · next hc => exact ⟨a, hc, hs⟩
  · cases hs

theorem reachable_covered {acts : List Action} {m : Machine} (h : after coveredStep acts = some m) : Reachable Booted CoveredStep m :=
  @after_reachable coveredStep CoveredStep (fun _ _ _ => coveredStep_covered) acts m h

theorem Machine.Sane.free_holds {m : Machine} (h : m.Sane) {f : ℕ} (hf : m.bitmap f = false) : ¬m.HoldsEntries f := by
  rintro (rfl | hspace | ⟨i, hi, hp, rfl⟩)
  · simp [h.kernel_pd.1] at hf
  · simp [(h.space f hspace).1] at hf
  · simp [(h.table i hi hp).1] at hf

/-- A `vmm_map` of the address of a free frame. -/
theorem Machine.Sane.step_map {m : Machine} (h : m.Sane) {virt phys : ℕ} (flags : ℕ) (hv : virt < 4294967296)
    (hphys : phys < 4294967296) (hf : m.bitmap (virt / pageSize) = false) :
    step m (.map virt phys flags) = some (m.vmmMap virt phys flags).1 :=
  if_pos ⟨hv, hphys, h.free_holds hf⟩

/-- The `small` machine with one space, and a frame taken for the caller. -/
theorem small_space {p : Machine → Bool} (hp : (after coveredStep [.create, .take]).map p = some true) :
    ∃ m, after coveredStep [.create, .take] = some m ∧ m.Sane ∧ p m = true := by
  obtain ⟨m, hm, hp⟩ := Option.map_eq_some_iff.mp hp
  exact ⟨m, hm, (covered_inv (reachable_covered hm)).sane, hp⟩

/-- The heap grows by a page while a process has its own space. -/
theorem kernel_half_visible_heap :
    ∃ m, Reachable Booted CoveredStep m ∧ m.spaces = [37] ∧
      m.vmmTranslateIn 37 0xD0000000 = 38 * pageSize ∧ Visible m := by
  have hpage : ((after coveredStep [.create, .take]).map fun m =>
      let grown := (m.vmmMap 0xD0000000 (38 * pageSize) 3).1
      !m.bitmap (0xD0000000 / pageSize) && present (m.mem m.kernelPd (0xD0000000 / pdeSpan)) && grown.spaces = [37] &&
        grown.vmmTranslateIn 37 0xD0000000 = 38 * pageSize) = some true := by
    decide +kernel
  obtain ⟨m, hm, hsane, hp⟩ := small_space hpage
  simp only [Bool.and_eq_true, Bool.not_eq_true', decide_eq_true_eq] at hp
  obtain ⟨⟨⟨hfree, hpresent⟩, hspaces⟩, htranslate⟩ := hp
  have hstep : step m (.map 0xD0000000 (38 * pageSize) 3) = some (m.vmmMap 0xD0000000 (38 * pageSize) 3).1 :=
    hsane.step_map 3 (by decide) (by decide) hfree
  have hcovered : Covered m (.map 0xD0000000 (38 * pageSize) 3) := fun _ _ _ => hpresent
  have hreach := (reachable_covered hm).next ⟨_, hcovered, hstep⟩
  exact ⟨_, hreach, hspaces, htranslate, (kernel_half_visible hreach).1⟩

/-- The scratch page of `test_paging` is in none of the tables that `paging_init` makes, so a space that was made
before it does not have it. -/
theorem scratch_page_not_visible :
    ∃ m, Reachable Booted (fun m m' => ∃ a, step m a = some m') m ∧ ¬Visible m := by
  have hscratch : ((after coveredStep [.create, .take]).map fun m =>
      let mapped := (m.vmmMap 0xEF000000 (38 * pageSize) 3).1
      !m.bitmap (0xEF000000 / pageSize) && mapped.spaces = [37] && mapped.vmmTranslateIn 37 0xEF000000 = 0 &&
        mapped.vmmTranslateIn mapped.kernelPd 0xEF000000 = 38 * pageSize) = some true := by
    decide +kernel
  obtain ⟨m, hm, hsane, hp⟩ := small_space hscratch
  simp only [Bool.and_eq_true, Bool.not_eq_true', decide_eq_true_eq] at hp
  obtain ⟨⟨⟨hfree, hspaces⟩, hspace⟩, hkernel⟩ := hp
  have hreach : Reachable Booted (fun m m' => ∃ a, step m a = some m') m :=
    (reachable_covered hm).mono fun _ _ ⟨a, _, hs⟩ => ⟨a, hs⟩
  have hstep : step m (.map 0xEF000000 (38 * pageSize) 3) = some (m.vmmMap 0xEF000000 (38 * pageSize) 3).1 :=
    hsane.step_map 3 (by decide) (by decide) hfree
  refine ⟨_, hreach.next ⟨_, hstep⟩, fun hv => ?_⟩
  have hsame := hv 37 (by simp [hspaces]) 0xEF000000 (by decide) (.inr (by decide))
  rw [hspace, hkernel] at hsame
  cases hsame

end SifarOS.Paging
