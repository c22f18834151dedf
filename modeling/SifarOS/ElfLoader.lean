import SifarOS.ElfImages

/-! # Loading programs

`elf_load` of `kernel/elf.c`: the checks of a program header, its pages and its bytes are done before the next
header is looked at. As in the checks, `none` is for a read behind the image or a sum that wraps. -/
namespace SifarOS.Elf
open Paging ByteMemory

/-- What the loop of `elf_load` has found so far. -/
structure Scan where
  highest : ℕ
  entryExecutable : Bool
  loadSegments : ℕ

/-- The flags that the pages of a segment get. -/
def Phdr.pageFlags (segment : Phdr) : ℕ :=
  if segment.flags &&& pfW ≠ 0 then ptePresent ||| pteUser ||| pteWrite else ptePresent ||| pteUser

/-- `write_to_space` with bytes of the image -/
def writeToSpace (m : Machine) (pd dst : ℕ) (image : List UInt8) (offset len : ℕ) : Option (Machine × ℤ) :=
  Machine.writeLoop pd (fun i => image.getD i 0) image.length len dst offset len m

/-- The pages of a segment and the bytes that it has in the file. -/
def placeSegment (m : Machine) (pd : ℕ) (image : List UInt8) (segment : Phdr) : Option (Machine × Bool) :=
  let allocated := m.vmmAllocRange pd segment.vaddr segment.memsz segment.pageFlags
  if allocated.2 < 0 then some (allocated.1, false)
  else if segment.filesz = 0 then some (allocated.1, true)
  else
    (writeToSpace allocated.1 pd segment.vaddr image segment.offset segment.filesz).map fun written =>
      (written.1, 0 ≤ written.2)

/-- What a loaded segment changes. It has been counted before it was checked, which only matters if it passed. -/
def Scan.add (scan : Scan) (header : Ehdr) (segment : Phdr) (stop : ℕ) : Scan where
  highest := if scan.highest < stop then stop else scan.highest
  entryExecutable := scan.entryExecutable || decide (segment.vaddr ≤ header.entry ∧ header.entry < stop ∧ segment.flags &&& pfX ≠ 0)
  loadSegments := scan.loadSegments + 1

/-- The loop of `elf_load` from header `i` on. Where it returns -1 there is no `Scan`. -/
def loadLoop (image : List UInt8) (header : Ehdr) (pd : ℕ) : ℕ → ℕ → Scan → Machine → Option (Machine × Option Scan)
  | 0, _, scan, m => some (m, some scan)
  | n + 1, i, scan, m =>
    (phdrAt image header i).bind fun segment =>
      if segment.skipped then loadLoop image header pd n (i + 1) scan m
      else
        (segmentOk image header i segment).bind fun ok =>
          if ok = false then some (m, none)
          else
            (placeSegment m pd image segment).bind fun placed =>
              if placed.2 = false then some (placed.1, none)
              else
                (sum32 segment.vaddr segment.memsz).bind fun stop =>
                  loadLoop image header pd n (i + 1) (scan.add header segment stop) placed.1

/-- `elf_load`: the entry and the start of the break, or nothing where the result is -1 -/
def elfLoad (m : Machine) (pd : ℕ) (image : List UInt8) : Option (Machine × Option (ℕ × ℕ)) :=
  (elfIsValid image).bind fun valid =>
    if valid = false then some (m, none)
    else
      (readEhdr image).bind fun header =>
        (loadLoop image header pd header.phnum 0 ⟨0, false, 0⟩ m).bind fun done =>
          match done.2 with
          | none => some (done.1, none)
          | some scan =>
            if scan.loadSegments = 0 ∨ scan.highest = 0 ∨ scan.entryExecutable = false then some (done.1, none)
            else (pageEnd scan.highest).map fun breakStart => (done.1, some (header.entry, breakStart))

section load

variable {image : List UInt8} {header : Ehdr} {segment other : Phdr} {scan : Scan} {m m' m₀ : Machine} {pd i n p virt : ℕ}
  {S : ℕ → Prop}

/-! ## Reads and sums -/

theorem writeLoop_inside (pd : ℕ) (src : Memory) (fuel dst : ℕ) {bound index len : ℕ} (h : index + len ≤ bound) (m : Machine) :
    ∃ r, Machine.writeLoop pd src bound fuel dst index len m = some r := by
  induction fuel generalizing m dst index len with
  | zero => exact ⟨_, rfl⟩
  | succ fuel ih =>
    unfold Machine.writeLoop
    dsimp only
    split
    · exact ⟨_, rfl⟩
    split
    · exact ⟨_, rfl⟩
    rw [if_neg (by omega)]
    exact ih _ (by omega) _

theorem placeSegment_inside (h : segment.offset + segment.filesz ≤ image.length) (m : Machine) (pd : ℕ) :
    ∃ r, placeSegment m pd image segment = some r := by
  unfold placeSegment
  dsimp only
  split
  · exact ⟨_, rfl⟩
  split
  · exact ⟨_, rfl⟩
  obtain ⟨r, hr⟩ := writeLoop_inside pd (fun i => image.getD i 0) segment.filesz segment.vaddr h
    (m.vmmAllocRange pd segment.vaddr segment.memsz segment.pageFlags).1
  unfold writeToSpace
  rw [hr]
  exact ⟨_, rfl⟩

theorem Passed.skip (h : Passed image header i) (hskip : ∀ segment, ¬Loads image header i segment) : Passed image header (i + 1) := by
  intro j hj segment hseg
  by_cases hji : j = i
  · subst hji
    exact absurd hseg (hskip segment)
  · exact h j (by omega) segment hseg

theorem Passed.add (h : Passed image header i) (hseg : Loads image header i segment) (hacc : Accepted image header i segment) :
    Passed image header (i + 1) := by
  intro j hj other hother
  by_cases hji : j = i
  · subst hji
    have hsame := hother.1
    rw [hseg.1] at hsame
    obtain rfl := Option.some.inj hsame
    exact hacc
  · exact h j (by omega) other hother

/-- Whatever the machine is, the loop reads inside the image, and it ends only if all segments were let pass. -/
theorem loadLoop_safe (htable : Table image header) (hlen : image.length < 4294967296) (hpassed : Passed image header i)
    (hn : i + n = header.phnum) (scan : Scan) (hscan : scan.highest ≤ userMax) (m : Machine) (pd : ℕ) : ∃ m' r,
    loadLoop image header pd n i scan m = some (m', r) ∧
      ∀ scan', r = some scan' → Passed image header header.phnum ∧ scan'.highest ≤ userMax := by
  induction n generalizing i scan m with
  | zero =>
    obtain rfl : i = header.phnum := by omega
    refine ⟨m, some scan, rfl, fun scan' he => ?_⟩
    obtain rfl := Option.some.inj he
    exact ⟨hpassed, hscan⟩
  | succ n ih =>
    obtain ⟨segment, hat⟩ := htable.phdrAt hlen (show i < header.phnum by omega)
    rw [loadLoop, hat, Option.bind_some]
    cases hskip : segment.skipped with
    | true =>
      rw [if_pos rfl]
      refine ih (hpassed.skip fun other hother => ?_) (by omega) scan hscan m
      have hsame := hother.1
      rw [hat] at hsame
      obtain rfl := Option.some.inj hsame
      rw [hother.2] at hskip
      cases hskip
    | false =>
      have hseg : Loads image header i segment := ⟨hat, hskip⟩
      obtain ⟨b, hok, hacc⟩ := segmentOk_spec htable hlen (show i < header.phnum by omega) hseg hpassed
      rw [if_neg (by decide), hok, Option.bind_some]
      cases b with
      | false => exact ⟨m, none, rfl, fun scan' he => by cases he⟩
      | true =>
        have hacc := hacc rfl
        have hnext : (scan.add header segment (segment.vaddr + segment.memsz)).highest ≤ userMax := by
          unfold Scan.add
          dsimp only
          split
          · exact hacc.stop
          · exact hscan
        obtain ⟨placed, hplaced⟩ := placeSegment_inside hacc.file m pd
        have hsum : segment.vaddr + segment.memsz < 4294967296 := Nat.lt_of_le_of_lt hacc.stop (by decide)
        rw [if_neg (by decide), hplaced, Option.bind_some, sum32_eq hsum]
        split
        · exact ⟨placed.1, none, rfl, fun scan' he => by cases he⟩
        · exact ih (hpassed.add hseg hacc) (by omega) _ hnext _

/-! ## One segment -/

theorem pageFlags_user (segment : Phdr) : segment.pageFlags &&& pteUser ≠ 0 := by
  unfold Phdr.pageFlags
  split <;> decide

theorem pageFlags_write (segment : Phdr) : segment.pageFlags &&& pteWrite ≠ 0 ↔ segment.flags &&& pfW ≠ 0 := by
  unfold Phdr.pageFlags
  split
  · next hw => exact iff_of_true (by decide) hw
  · next hw => exact iff_of_false (by decide) hw

/-- The pages of a segment with their bytes. -/
structure Phdr.Placed (segment : Phdr) (m : Machine) (pd : ℕ) (image : List UInt8) : Prop where
  entry : ∀ p, segment.Touches p → m.pte pd p = Machine.mapEntry (m.frameAt pd p) segment.pageFlags ∧ m.UserTable pd p
  byte : ∀ virt, segment.Touches (virt / pageSize) →
    m.byteAt pd virt = fill (fun _ => 0) segment.vaddr segment.filesz (fun i => image.getD (segment.offset + i) 0) virt

/-- The pages of `S` have kept their frames and their bytes. -/
structure Stays (m m' : Machine) (pd : ℕ) (S : ℕ → Prop) : Prop where
  pte : ∀ p, S p → m'.pte pd p = m.pte pd p
  user : ∀ p, S p → m.UserTable pd p → m'.UserTable pd p
  byte : ∀ virt, S (virt / pageSize) → m'.byteAt pd virt = m.byteAt pd virt

theorem Phdr.Placed.stay (h : segment.Placed m pd image) (hstay : Stays m m' pd S) (hs : ∀ p, segment.Touches p → S p) :
    segment.Placed m' pd image := by
  refine ⟨fun p hp => ?_, fun virt hv => ?_⟩
  · obtain ⟨hentry, huser⟩ := h.entry p hp
    have hpte := hstay.pte p (hs p hp)
    unfold Machine.frameAt at hentry ⊢
    rw [hpte]
    exact ⟨hentry, hstay.user p (hs p hp) huser⟩
  · rw [hstay.byte virt (hs _ hv)]
    exact h.byte virt hv

theorem Accepted.userPage (h : Accepted image header i segment) (hp : segment.Touches p) : Machine.userPage (p * pageSize) = true := by
  obtain ⟨virt, hlo, hhi, rfl⟩ := hp
  have hstart := h.start
  have hstop := h.stop
  unfold Machine.userPage
  unfold userMin userMax pageSize at *
  rw [decide_eq_true_eq]
  omega

/-- Where none of its pages are mapped, a segment that was let pass is placed, or nothing is changed. -/
theorem Accepted.place (h : Accepted image header i segment) (hmem : segment.memsz ≠ 0) (hgrown : m₀.Grown m pd S)
    (hnew : ∀ p, segment.Touches p → m.view pd p = none) :
    (∃ m', placeSegment m pd image segment = some (m', false) ∧ m₀.Grown m' pd S) ∨
      ∃ m', placeSegment m pd image segment = some (m', true) ∧ (m₀.Grown m' pd fun p => S p ∨ segment.Touches p) ∧
        segment.Placed m' pd image ∧ Stays m m' pd S := by
  have hstart := h.start
  have hstop := h.stop
  have hlow : ¬segment.vaddr < pageSize := by
    unfold userMin at hstart
    unfold pageSize
    omega
  have hmax : segment.vaddr + segment.memsz ≤ 4294963200 := Nat.le_trans hstop (by decide)
  unfold placeSegment
  rcases hgrown.space.allocRange_new segment.vaddr segment.memsz segment.pageFlags hmem (Nat.le_of_not_lt hlow) hmax (fun _ => ⟨hstart, hstop⟩) hnew with
    ⟨m₁, he, hg⟩ | ⟨m₁, he, hfilled⟩
  · refine Or.inl ⟨m₁, ?_, (hgrown.trans hg).congr fun p => or_iff_left id⟩
    rw [he]
    rfl
  · change m.Filled m₁ pd segment.pageFlags segment.Touches at hfilled
    have hstay₁ : Stays m m₁ pd S := by
      refine ⟨fun p hp => hfilled.pte_old (hgrown.mapped p hp) (hgrown.bound p hp), fun p hp hu => hfilled.user p (hgrown.bound p hp) hu,
        fun virt hv => ?_⟩
      exact hfilled.byte_old (hgrown.bound _ hv) (hgrown.mapped _ hv) (hgrown.frame_used hv) (hgrown.frame_not_holds hv)
    have hboth : m₀.Grown m₁ pd fun p => S p ∨ segment.Touches p := hgrown.trans hfilled.toGrown
    have happart : ∀ p, S p → ¬segment.Touches p := by
      intro p hp htouches
      have hmapped := hgrown.mapped p hp
      have hview := hnew p htouches
      rw [Machine.view_eq_none, hmapped] at hview
      cases hview
    rw [he]
    dsimp only
    rw [if_neg (by decide)]
    by_cases hfilesz : segment.filesz = 0
    · rw [if_pos hfilesz]
      refine Or.inr ⟨m₁, rfl, hboth, ⟨fun p hp => ⟨hfilled.entry p hp, hfilled.reach p hp (pageFlags_user segment)⟩, fun virt hv => ?_⟩, hstay₁⟩
      rw [hfilled.byte_new hv, fill_of_disjoint _ _ (by omega)]
    · rw [if_neg hfilesz]
      have hin : ∀ virt, segment.vaddr ≤ virt → virt < segment.vaddr + segment.filesz →
          S (virt / pageSize) ∨ segment.Touches (virt / pageSize) := by
        intro virt hlo hhi
        have hle := h.filesz
        exact Or.inr ⟨virt, hlo, by omega, rfl⟩
      have hwrap : segment.vaddr + segment.filesz < 4294967296 := by
        have hle := h.filesz
        omega
      obtain ⟨m₂, hwrite, hgrown₂, hwritten⟩ := hboth.writeLoop (fun i => image.getD i 0) hin (Nat.le_refl _) h.file hwrap
      have hpte : ∀ p < pageCount, m₂.frameAt pd p = m₁.frameAt pd p := by
        intro p hp
        unfold Machine.frameAt
        rw [hwritten.pte p hp]
      refine Or.inr ⟨m₂, ?_, hgrown₂, ⟨fun p hp => ?_, fun virt hv => ?_⟩, ⟨fun p hp => ?_, fun p hp hu => ?_, fun virt hv => ?_⟩⟩
      · unfold writeToSpace
        rw [hwrite]
        rfl
      · have hlt := hfilled.bound p hp
        rw [hwritten.pte p hlt, hpte p hlt]
        refine ⟨hfilled.entry p hp, ?_⟩
        have hu := hfilled.reach p hp (pageFlags_user segment)
        unfold Machine.UserTable at hu ⊢
        rw [hwritten.directory]
        exact hu
      · rw [hwritten.byte virt (Or.inr hv)]
        unfold fill
        split
        · rfl
        · exact hfilled.byte_new hv
      · rw [hwritten.pte p (hgrown.bound p hp)]
        exact hstay₁.pte p hp
      · have hu' := hstay₁.user p hp hu
        unfold Machine.UserTable at hu' ⊢
        rw [hwritten.directory]
        exact hu'
      · rw [hwritten.byte virt (Or.inl hv), ← hstay₁.byte virt hv]
        refine fill_of_disjoint _ _ ?_
        by_contra hno
        have hle := h.filesz
        exact happart _ hv ⟨virt, by omega, by omega, rfl⟩

/-! ## All segments -/

/-- The page belongs to a segment before header `i`. -/
def Before (image : List UInt8) (header : Ehdr) (i p : ℕ) : Prop := ∃ j < i, ∃ segment, Loads image header j segment ∧ segment.Touches p

/-- The loop at header `i`. -/
structure Progress (image : List UInt8) (header : Ehdr) (m₀ m : Machine) (pd i : ℕ) (scan : Scan) : Prop where
  passed : Passed image header i
  grown : m₀.Grown m pd (Before image header i)
  placed : ∀ j < i, ∀ segment, Loads image header j segment → segment.Placed m pd image
  below : ∀ j < i, ∀ segment, Loads image header j segment → segment.vaddr + segment.memsz ≤ scan.highest
  highest : scan.highest = 0 ∨ ∃ j < i, ∃ segment, Loads image header j segment ∧ scan.highest = segment.vaddr + segment.memsz
  entry : scan.entryExecutable = true → ∃ j < i, ∃ segment, Loads image header j segment ∧ segment.vaddr ≤ header.entry ∧
    header.entry < segment.vaddr + segment.memsz ∧ segment.flags &&& pfX ≠ 0

theorem Loads.unique (h : Loads image header i segment) (h' : Loads image header i other) : segment = other :=
  Option.some.inj (h.1.symm.trans h'.1)

/-- What holds of the headers before `i`, and of header `i` if it is loaded, holds of those before `i + 1`. -/
theorem forall_add {motive : ℕ → Phdr → Prop} (h : ∀ j < i, ∀ segment, Loads image header j segment → motive j segment)
    (hi : ∀ segment, Loads image header i segment → motive i segment) :
    ∀ j < i + 1, ∀ segment, Loads image header j segment → motive j segment := by
  intro j hj other hother
  by_cases hji : j = i
  · subst hji
    exact hi other hother
  · exact h j (by omega) other hother

theorem before_add (hseg : Loads image header i segment) : Before image header (i + 1) p ↔ Before image header i p ∨ segment.Touches p := by
  constructor
  · rintro ⟨j, hj, other, hother, hp⟩
    by_cases hji : j = i
    · subst hji
      rw [hseg.unique hother]
      exact Or.inr hp
    · exact Or.inl ⟨j, by omega, other, hother, hp⟩
  · rintro (⟨j, hj, other, hother, hp⟩ | hp)
    · exact ⟨j, by omega, other, hother, hp⟩
    · exact ⟨i, by omega, segment, hseg, hp⟩

theorem Progress.skip (h : Progress image header m₀ m pd i scan) (hskip : ∀ segment, ¬Loads image header i segment) :
    Progress image header m₀ m pd (i + 1) scan := by
  refine ⟨h.passed.skip hskip, h.grown.congr fun p => ⟨?_, ?_⟩, forall_add h.placed fun segment hseg => absurd hseg (hskip segment),
    forall_add h.below fun segment hseg => absurd hseg (hskip segment), ?_, fun he => ?_⟩
  · rintro ⟨j, hj, hrest⟩
    exact ⟨j, by omega, hrest⟩
  · rintro ⟨j, hj, segment, hseg, hp⟩
    have hji : j ≠ i := by
      rintro rfl
      exact hskip segment hseg
    exact ⟨j, by omega, segment, hseg, hp⟩
  · rcases h.highest with hzero | ⟨j, hj, hrest⟩
    · exact Or.inl hzero
    · exact Or.inr ⟨j, by omega, hrest⟩
  · obtain ⟨j, hj, hrest⟩ := h.entry he
    exact ⟨j, by omega, hrest⟩

theorem Progress.add (h : Progress image header m₀ m pd i scan) (hseg : Loads image header i segment)
    (hacc : Accepted image header i segment) (hgrown : m₀.Grown m' pd fun p => Before image header i p ∨ segment.Touches p)
    (hplaced : segment.Placed m' pd image) (hstay : Stays m m' pd (Before image header i)) :
    Progress image header m₀ m' pd (i + 1) (scan.add header segment (segment.vaddr + segment.memsz)) := by
  have hhigh : scan.highest ≤ (scan.add header segment (segment.vaddr + segment.memsz)).highest ∧
      segment.vaddr + segment.memsz ≤ (scan.add header segment (segment.vaddr + segment.memsz)).highest := by
    unfold Scan.add
    dsimp only
    split <;> omega
  refine ⟨h.passed.add hseg hacc, hgrown.congr fun p => (before_add hseg).symm, forall_add (fun j hj other hother => ?_) fun other hother => ?_,
    forall_add (fun j hj other hother => ?_) fun other hother => ?_, ?_, fun he => ?_⟩
  · exact (h.placed j hj other hother).stay hstay fun p hp => ⟨j, hj, other, hother, hp⟩
  · rw [← hseg.unique hother]
    exact hplaced
  · exact Nat.le_trans (h.below j hj other hother) hhigh.1
  · rw [← hseg.unique hother]
    exact hhigh.2
  · unfold Scan.add
    dsimp only
    split
    · exact Or.inr ⟨i, by omega, segment, hseg, rfl⟩
    · rcases h.highest with hzero | ⟨j, hj, hrest⟩
      · exact Or.inl hzero
      · exact Or.inr ⟨j, by omega, hrest⟩
  · unfold Scan.add at he
    rw [Bool.or_eq_true, decide_eq_true_eq] at he
    rcases he with he | ⟨hlo, hhi, hx⟩
    · obtain ⟨j, hj, hrest⟩ := h.entry he
      exact ⟨j, by omega, hrest⟩
    · exact ⟨i, by omega, segment, hseg, hlo, hhi, hx⟩

/-- The pages of a fresh space that are mapped are pages of segments that came before. -/
theorem Progress.unmapped (h : Progress image header m₀ m pd i scan) (hfresh : m₀.Fresh pd)
    (hacc : Accepted image header i segment) (hp : segment.Touches p) : m.view pd p = none := by
  have huser := hacc.userPage hp
  have hlt : p < pageCount := by
    obtain ⟨virt, hlo, hhi, rfl⟩ := hp
    have hstop := hacc.stop
    unfold userMax at hstop
    unfold pageSize pageCount
    omega
  rw [h.grown.old p hlt, hfresh.view huser]
  rintro ⟨j, hj, other, hother, hp'⟩
  exact hacc.apart j hj other hother ⟨p, hp, hp'⟩

/-- Only pages of the user have been mapped since `m₀`. -/
def UserOnly (m₀ m : Machine) (pd : ℕ) : Prop := ∀ p < pageCount, m.view pd p ≠ m₀.view pd p → Machine.userPage (p * pageSize) = true

theorem userOnly_of_grown (h : Passed image header i) (hgrown : m₀.Grown m pd (Before image header i)) : UserOnly m₀ m pd := by
  intro p hp hne
  by_contra hno
  apply hne
  refine hgrown.old p hp ?_
  rintro ⟨j, hj, segment, hseg, htouches⟩
  exact hno ((h j hj segment hseg).userPage htouches)

/-- The loop over a fresh space. -/
theorem Progress.loadLoop (htable : Table image header) (hlen : image.length < 4294967296) (hfresh : m₀.Fresh pd)
    (h : Progress image header m₀ m pd i scan) (hn : i + n = header.phnum) {r : Option Scan}
    (hrun : loadLoop image header pd n i scan m = some (m', r)) :
    UserOnly m₀ m' pd ∧ ∀ scan', r = some scan' → Progress image header m₀ m' pd header.phnum scan' := by
  induction n generalizing i scan m with
  | zero =>
    obtain rfl : i = header.phnum := by omega
    obtain ⟨rfl, rfl⟩ := Prod.mk.inj (Option.some.inj hrun)
    refine ⟨userOnly_of_grown h.passed h.grown, fun scan' he => ?_⟩
    obtain rfl := Option.some.inj he
    exact h
  | succ n ih =>
    have hi : i < header.phnum := by omega
    obtain ⟨segment, hat⟩ := htable.phdrAt hlen hi
    rw [Elf.loadLoop, hat, Option.bind_some] at hrun
    cases hskip : segment.skipped with
    | true =>
      rw [if_pos hskip] at hrun
      refine ih (h.skip fun other hother => ?_) (by omega) hrun
      have hsame := hother.1
      rw [hat] at hsame
      obtain rfl := Option.some.inj hsame
      rw [hother.2] at hskip
      cases hskip
    | false =>
      have hseg : Loads image header i segment := ⟨hat, hskip⟩
      obtain ⟨b, hok, hacc⟩ := segmentOk_spec htable hlen hi hseg h.passed
      rw [if_neg (by rw [hskip]; decide), hok, Option.bind_some] at hrun
      cases b with
      | false =>
        obtain ⟨rfl, rfl⟩ := Prod.mk.inj (Option.some.inj hrun)
        exact ⟨userOnly_of_grown h.passed h.grown, fun scan' he => by cases he⟩
      | true =>
        have hacc := hacc rfl
        have hsum : segment.vaddr + segment.memsz < 4294967296 := Nat.lt_of_le_of_lt hacc.stop (by decide)
        rw [if_neg (by decide)] at hrun
        rcases hacc.place (skipped_iff.mp hskip).2 h.grown (fun p hp => h.unmapped hfresh hacc hp) with
          ⟨m₁, hplace, hgrown⟩ | ⟨m₁, hplace, hgrown, hplaced, hstay⟩
        · rw [hplace] at hrun
          obtain ⟨rfl, rfl⟩ := Prod.mk.inj (Option.some.inj hrun)
          exact ⟨userOnly_of_grown h.passed hgrown, fun scan' he => by cases he⟩
        · rw [hplace, Option.bind_some, if_neg (by simp), sum32_eq hsum, Option.bind_some] at hrun
          exact ih (h.add hseg hacc hgrown hplaced hstay) (by omega) hrun

theorem Progress.start (h : m.Fresh pd) : Progress image header m m pd 0 ⟨0, false, 0⟩ := by
  refine ⟨fun j hj => ?_, (Machine.Grown.refl h.toSpace).congr fun p => ⟨False.elim, ?_⟩, fun j hj => ?_, fun j hj => ?_, Or.inl rfl, fun he => ?_⟩
  · omega
  · rintro ⟨j, hj, -⟩
    omega
  · omega
  · omega
  · cases he

/-! ## The image in memory -/

/-- The segment as the process finds it. -/
structure Phdr.InMemory (segment : Phdr) (m : Machine) (pd : ℕ) (image : List UInt8) : Prop where
  file : ∀ i < segment.filesz, image[segment.offset + i]? = some (m.userRead (some pd) (segment.vaddr + i))
  zero : ∀ virt, segment.Touches (virt / pageSize) → virt < segment.vaddr ∨ segment.vaddr + segment.filesz ≤ virt →
    m.userRead (some pd) virt = 0
  readable : ∀ virt, segment.Touches (virt / pageSize) → m.UserByte pd false virt
  writable : ∀ virt, segment.Touches (virt / pageSize) → (m.UserByte pd true virt ↔ segment.flags &&& pfW ≠ 0)

/-- What `elf_load` is to make of a space. -/
structure Loaded (image : List UInt8) (header : Ehdr) (m₀ m : Machine) (pd entry breakStart : ℕ) : Prop where
  segment : ∀ i < header.phnum, ∀ segment, Loads image header i segment → segment.InMemory m pd image
  others : ∀ p < pageCount, ¬Before image header header.phnum p → m.view pd p = m₀.view pd p
  unmapped : ∀ p, Machine.userPage (p * pageSize) = true → ¬Before image header header.phnum p → m.view pd p = none
  entry : entry = header.entry ∧ ∃ i < header.phnum, ∃ segment, Loads image header i segment ∧ segment.vaddr ≤ entry ∧
    entry < segment.vaddr + segment.memsz ∧ segment.flags &&& pfX ≠ 0
  apart : ∀ i < header.phnum, ∀ j < header.phnum, i ≠ j → ∀ segment other, Loads image header i segment → Loads image header j other →
    ¬segment.Overlaps other
  breakStart : ∃ i < header.phnum, ∃ segment, Loads image header i segment ∧
    (∀ j < header.phnum, ∀ other, Loads image header j other → other.vaddr + other.memsz ≤ segment.vaddr + segment.memsz) ∧
      breakStart = (segment.vaddr + segment.memsz + 4095) / 4096 * 4096

theorem Phdr.Placed.inMemory (h : segment.Placed m pd image) (hacc : Accepted image header i segment) : segment.InMemory m pd image := by
  have hpresent : ∀ p, segment.Touches p → present (m.pte pd p) = true := by
    intro p hp
    rw [(h.entry p hp).1]
    exact Machine.mapEntry_present _ _
  have hread : ∀ virt, segment.Touches (virt / pageSize) → m.userRead (some pd) virt =
      fill (fun _ => 0) segment.vaddr segment.filesz (fun i => image.getD (segment.offset + i) 0) virt := by
    intro virt hv
    rw [Machine.userRead_eq (hpresent _ hv), h.byte virt hv]
  have hbyte : ∀ virt, segment.Touches (virt / pageSize) → ∀ write,
      (m.UserByte pd write virt ↔ (write = true → segment.pageFlags &&& pteWrite ≠ 0)) := by
    intro virt hv write
    obtain ⟨hentry, huser⟩ := h.entry _ hv
    rw [Machine.userByte_iff, hentry, Machine.mapEntry_and _ (by decide) (by decide), Machine.mapEntry_and _ (by decide) (by decide)]
    exact ⟨fun hu => hu.2.2.2, fun hw => ⟨huser, Machine.mapEntry_present _ _, pageFlags_user segment, hw⟩⟩
  have hfilesz := hacc.filesz
  have hfile := hacc.file
  refine ⟨fun k hk => ?_, fun virt hv hout => ?_, fun virt hv => ?_, fun virt hv => ?_⟩
  · have hin : segment.offset + k < image.length := by omega
    rw [hread _ ⟨segment.vaddr + k, by omega, by omega, rfl⟩, fill_at _ _ hk, List.getD_eq_getElem?_getD,
      List.getElem?_eq_getElem hin, Option.getD_some]
  · rw [hread virt hv, fill_of_disjoint _ _ hout]
  · rw [hbyte virt hv]
    intro hw
    cases hw
  · rw [hbyte virt hv, pageFlags_write]
    exact ⟨fun hw => hw rfl, fun hw _ => hw⟩

theorem Progress.loaded (h : Progress image header m₀ m pd header.phnum scan) (hfresh : m₀.Fresh pd)
    (hhigh : scan.highest ≠ 0) (hentry : scan.entryExecutable = true) :
    Loaded image header m₀ m pd header.entry (Machine.pagesTo scan.highest * pageSize) := by
  have hothers : ∀ p < pageCount, ¬Before image header header.phnum p → m.view pd p = m₀.view pd p := h.grown.old
  refine ⟨fun i hi segment hseg => ?_, hothers, fun p hp hnot => ?_, ⟨rfl, h.entry hentry⟩,
    fun i hi j hj hne segment other hseg hother hoverlap => ?_, ?_⟩
  · exact (h.placed i hi segment hseg).inMemory (h.passed i hi segment hseg)
  · have hlt : p < pageCount := by
      unfold Machine.userPage at hp
      unfold userMin userMax pageSize at hp
      rw [decide_eq_true_eq] at hp
      unfold pageCount
      omega
    rw [hothers p hlt hnot, hfresh.view hp]
  · -- the later of the two was compared with the earlier
    rcases Nat.lt_or_gt_of_ne hne with hlt | hlt
    · obtain ⟨p, hp, hp'⟩ := hoverlap
      exact (h.passed j hj other hother).apart i hlt segment hseg ⟨p, hp', hp⟩
    · exact (h.passed i hi segment hseg).apart j hlt other hother hoverlap
  · obtain ⟨i, hi, segment, hseg, he⟩ := h.highest.resolve_left hhigh
    refine ⟨i, hi, segment, hseg, fun j hj other hother => ?_, ?_⟩
    · rw [← he]
      exact h.below j hj other hother
    · rw [← he]
      rfl

/-- A run of the loader: it stops at the header, or the loop runs and decides. -/
theorem elfLoad_cases (hlen : image.length < 4294967296) (m : Machine) (pd : ℕ) :
    elfLoad m pd image = some (m, none) ∨
      ∃ header, Table image header ∧ ∃ m' r, loadLoop image header pd header.phnum 0 ⟨0, false, 0⟩ m = some (m', r) ∧
        (elfLoad m pd image = some (m', none) ∨
          ∃ scan, r = some scan ∧ scan.highest ≠ 0 ∧ scan.entryExecutable = true ∧ Passed image header header.phnum ∧
            elfLoad m pd image = some (m', some (header.entry, Machine.pagesTo scan.highest * pageSize))) := by
  unfold elfLoad
  rcases elfIsValid_cases image with hvalid | ⟨hvalid, header, htable⟩
  · rw [hvalid]
    exact Or.inl rfl
  · obtain ⟨m', r, hloop, hfound⟩ := loadLoop_safe htable hlen (fun j hj => by omega) (Nat.zero_add _)
      ⟨0, false, 0⟩ (Nat.zero_le _) m pd
    refine Or.inr ⟨header, htable, m', r, hloop, ?_⟩
    rw [hvalid, Option.bind_some, if_neg (by decide), htable.read, Option.bind_some, hloop, Option.bind_some]
    cases r with
    | none => exact Or.inl rfl
    | some scan =>
      obtain ⟨hpassed, hmax⟩ := hfound scan rfl
      dsimp only
      split
      · exact Or.inl rfl
      · next hnone =>
        obtain ⟨-, hnone⟩ := not_or.mp hnone
        obtain ⟨hhigh, hentry⟩ := not_or.mp hnone
        rw [pageEnd_eq hmax]
        exact Or.inr ⟨scan, rfl, hhigh, by simpa using hentry, hpassed, rfl⟩

/-- The pages of the segments end where the break starts. -/
theorem Loaded.before_break {entry breakStart : ℕ} (h : Loaded image header m m' pd entry breakStart)
    (hp : Before image header header.phnum p) : p * pageSize < breakStart := by
  obtain ⟨i, hi, segment, hseg, virt, hlo, hhi, rfl⟩ := hp
  obtain ⟨j, hj, other, hother, hall, rfl⟩ := h.breakStart
  have hle := hall i hi segment hseg
  unfold pageSize
  omega

theorem elfLoad_loaded (hfresh : m.Fresh pd) (hlen : image.length < 4294967296) {entry breakStart : ℕ}
    (h : elfLoad m pd image = some (m', some (entry, breakStart))) :
    ∃ header, Table image header ∧ Loaded image header m m' pd entry breakStart ∧ Passed image header header.phnum ∧
      m.Grown m' pd (Before image header header.phnum) := by
  rcases elfLoad_cases hlen m pd with he | ⟨header, htable, m₁, r, hloop, he | ⟨scan, hr, hhigh, hentry, -, he⟩⟩
  · rw [he] at h
    cases h
  · rw [he] at h
    cases h
  · obtain ⟨-, hall⟩ := (Progress.start hfresh).loadLoop htable hlen hfresh (Nat.zero_add _) hloop
    have hprogress := hall scan hr
    rw [he] at h
    obtain ⟨rfl, hresult⟩ := Prod.mk.inj (Option.some.inj h)
    obtain ⟨rfl, rfl⟩ := Prod.mk.inj (Option.some.inj hresult)
    exact ⟨header, htable, hprogress.loaded hfresh hhigh hentry, hprogress.passed, hprogress.grown⟩

/-- Where `elf_load` returns 0, the space holds the image and nothing else. -/
theorem elf_load_image (hfresh : m.Fresh pd) (hlen : image.length < 4294967296) {entry breakStart : ℕ}
    (h : elfLoad m pd image = some (m', some (entry, breakStart))) :
    ∃ header, Table image header ∧ Loaded image header m m' pd entry breakStart := by
  obtain ⟨header, htable, hloaded, -⟩ := elfLoad_loaded hfresh hlen h
  exact ⟨header, htable, hloaded⟩

/-- A page of code, and a header of no bytes that is writable and executable. -/
def tinyImage : List UInt8 := [
  0x7F, 0x45, 0x4C, 0x46, 1, 1, 1, 0, 0, 0, 0, 0, 0, 0, 0, 0, 2, 0, 3, 0, 1, 0, 0, 0,
  0, 0, 0, 0x40, 52, 0, 0, 0, 0, 0, 0, 0, 0, 0, 0, 0, 52, 0, 32, 0, 2, 0, 0, 0, 0, 0, 0, 0,
  1, 0, 0, 0, 116, 0, 0, 0, 0, 0, 0, 0x40, 0, 0, 0, 0, 4, 0, 0, 0, 8, 0, 0, 0, 5, 0, 0, 0, 0, 0, 0, 0,
  1, 0, 0, 0, 0, 0, 0, 0, 0, 0, 0, 0x40, 0, 0, 0, 0, 0, 0, 0, 0, 0, 0, 0, 0, 7, 0, 0, 0, 0, 0, 0, 0,
  0xEB, 0xFE, 0x90, 0x90]

theorem noTables_fresh : Machine.noTables.Fresh 1 := ⟨Machine.noTables_space, fun i _ _ => Machine.noTables_absent i⟩

theorem tinyImage_loads : ∃ m', elfLoad Machine.noTables 1 tinyImage = some (m', some (0x40000000, 0x40001000)) := by
  have hrun : (elfLoad Machine.noTables 1 tinyImage).map Prod.snd = some (some (0x40000000, 0x40001000)) := by decide +kernel
  obtain ⟨⟨m', r⟩, he, hr⟩ := Option.map_eq_some_iff.mp hrun
  dsimp only at hr
  rw [hr] at he
  exact ⟨m', he⟩

theorem elf_load_image_tiny : ∃ m' header, Table tinyImage header ∧ Loaded tinyImage header Machine.noTables m' 1 0x40000000 0x40001000 := by
  obtain ⟨m', he⟩ := tinyImage_loads
  exact ⟨m', elf_load_image noTables_fresh (by decide) he⟩

/-- A segment that must not be loaded. -/
def Phdr.Bad (segment : Phdr) (image : List UInt8) (header : Ehdr) (i : ℕ) : Prop :=
  segment.flags &&& (pfW ||| pfX) = pfW ||| pfX ∨ image.length < segment.offset + segment.filesz ∨
    ∃ j < i, ∃ other, Loads image header j other ∧ segment.Overlaps other

/-- The loader reads inside the image and its sums do not wrap, whatever the image and the machine are. It maps only
pages of the user, and no image with a bad segment is loaded. -/
theorem elf_load_safe (image : List UInt8) (hlen : image.length < 4294967296) (m : Machine) (pd : ℕ) :
    (∃ valid, elfIsValid image = some valid) ∧ ∃ m' r, elfLoad m pd image = some (m', r) ∧ (m.Fresh pd → UserOnly m m' pd) ∧
      ∀ header, readEhdr image = some header → ∀ i < header.phnum, ∀ segment, Loads image header i segment →
        segment.Bad image header i → r = none := by
  have hvalid : ∃ valid, elfIsValid image = some valid := by
    rcases elfIsValid_cases image with he | ⟨he, -⟩
    · exact ⟨false, he⟩
    · exact ⟨true, he⟩
  refine ⟨hvalid, ?_⟩
  rcases elfLoad_cases hlen m pd with he | ⟨header, htable, m', r, hloop, hor⟩
  · exact ⟨m, none, he, fun _ p _ hne => absurd rfl hne, fun _ _ _ _ _ _ _ => rfl⟩
  · have huser : m.Fresh pd → UserOnly m m' pd := fun hfresh =>
      ((Progress.start hfresh).loadLoop htable hlen hfresh (Nat.zero_add _) hloop).1
    rcases hor with he | ⟨scan, -, -, -, hpassed, he⟩
    · exact ⟨m', none, he, huser, fun _ _ _ _ _ _ _ => rfl⟩
    · refine ⟨m', _, he, huser, fun header' hread i hi segment hseg hbad => ?_⟩
      rw [htable.read] at hread
      obtain rfl := Option.some.inj hread
      have hacc := hpassed i hi segment hseg
      rcases hbad with hwx | hout | ⟨j, hj, other, hother, hoverlap⟩
      · exact absurd hwx hacc.permissions
      · exact absurd hacc.file (Nat.not_le.mpr hout)
      · exact absurd hoverlap (hacc.apart j hj other hother)

theorem elf_load_safe_tiny : ∃ m' r, elfLoad Machine.noTables 1 tinyImage = some (m', r) ∧ UserOnly Machine.noTables m' 1 := by
  obtain ⟨-, m', r, he, huser, -⟩ := elf_load_safe tinyImage (by decide) Machine.noTables 1
  exact ⟨m', r, he, huser noTables_fresh⟩

/-- A header of no bytes is skipped before its permissions are looked at. -/
theorem writable_executable_skipped : (∃ segment, ((readEhdr tinyImage).bind fun header => phdrAt tinyImage header 1) = some segment ∧
    segment.type = ptLoad ∧ segment.flags &&& (pfW ||| pfX) = pfW ||| pfX) ∧
      ∃ m', elfLoad Machine.noTables 1 tinyImage = some (m', some (0x40000000, 0x40001000)) :=
  ⟨⟨⟨1, 0, 0x40000000, 0, 0, 7, 0⟩, by decide, rfl, rfl⟩, tinyImage_loads⟩

end load

end SifarOS.Elf
