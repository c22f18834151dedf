import SifarOS.PageBytes

/-! # Program images

The headers of `kernel/elf.c` and what the loader asks of them. A result of `none` says that the code has read behind
the image or that a sum has wrapped around; what the code answers is inside. -/
namespace SifarOS.Elf
open Paging ByteMemory

def elfMagic : ℕ := 0x464C457F
def maxProgramHeaders : ℕ := 64
def ptLoad : ℕ := 1
def pfX : ℕ := 1
def pfW : ℕ := 2

/-- The fields of `struct elf32_ehdr` that are read. -/
structure Ehdr where
  magic : ℕ
  elfClass : ℕ
  data : ℕ
  version : ℕ
  type : ℕ
  machine : ℕ
  elfVersion : ℕ
  entry : ℕ
  phoff : ℕ
  ehsize : ℕ
  phentsize : ℕ
  phnum : ℕ
  deriving DecidableEq, Repr

/-- `struct elf32_phdr`, less `paddr` -/
structure Phdr where
  type : ℕ
  offset : ℕ
  vaddr : ℕ
  filesz : ℕ
  memsz : ℕ
  flags : ℕ
  align : ℕ
  deriving DecidableEq, Repr

def read8 (image : List UInt8) (i : ℕ) : Option ℕ := image[i]?.map UInt8.toNat

def read16 (image : List UInt8) (i : ℕ) : Option ℕ := do
  let low ← read8 image i
  let high ← read8 image (i + 1)
  return low + 256 * high

def read32 (image : List UInt8) (i : ℕ) : Option ℕ := do
  let low ← read16 image i
  let high ← read16 image (i + 2)
  return low + 65536 * high

def readEhdr (image : List UInt8) : Option Ehdr := do
  return {
    magic := ← read32 image 0
    elfClass := ← read8 image 4
    data := ← read8 image 5
    version := ← read8 image 6
    type := ← read16 image 16
    machine := ← read16 image 18
    elfVersion := ← read32 image 20
    entry := ← read32 image 24
    phoff := ← read32 image 28
    ehsize := ← read16 image 40
    phentsize := ← read16 image 42
    phnum := ← read16 image 44 }

def readPhdr (image : List UInt8) (i : ℕ) : Option Phdr := do
  return {
    type := ← read32 image i
    offset := ← read32 image (i + 4)
    vaddr := ← read32 image (i + 8)
    filesz := ← read32 image (i + 16)
    memsz := ← read32 image (i + 20)
    flags := ← read32 image (i + 24)
    align := ← read32 image (i + 28) }

/-- `sizeof(struct elf32_ehdr)` and `sizeof(struct elf32_phdr)` -/
def ehdrSize : ℕ := 52
def phdrSize : ℕ := 32

/-- A sum of words of 32 bits, if it does not wrap. -/
def sum32 (a b : ℕ) : Option ℕ := if a + b < 4294967296 then some (a + b) else none

/-- `ALIGN_UP` to a page, if the sum does not wrap. -/
def pageEnd (x : ℕ) : Option ℕ := (sum32 x 4095).map fun y => y / pageSize * pageSize

def rangeWithin (offset length total : ℕ) : Bool := offset ≤ total ∧ length ≤ total - offset

def elfIsValid (image : List UInt8) : Option Bool :=
  if image.length < ehdrSize then some false
  else
    (readEhdr image).bind fun header =>
      if header.magic ≠ elfMagic then some false
      else if header.elfClass ≠ 1 ∨ header.data ≠ 1 ∨ header.version ≠ 1 then some false
      else if header.type ≠ 2 ∨ header.machine ≠ 3 ∨ header.elfVersion ≠ 1 then some false
      else if header.ehsize ≠ ehdrSize then some false
      else if header.phentsize ≠ phdrSize then some false
      else if header.phnum = 0 ∨ maxProgramHeaders < header.phnum then some false
      else some (rangeWithin header.phoff (header.phnum * phdrSize) image.length)

/-- Program header `i`, as both loops find it. -/
def phdrAt (image : List UInt8) (header : Ehdr) (i : ℕ) : Option Phdr :=
  (sum32 header.phoff (i * header.phentsize)).bind (readPhdr image)

/-- `segment->type != PT_LOAD || segment->memsz == 0` says that a header is skipped. -/
def Phdr.skipped (segment : Phdr) : Bool := segment.type ≠ ptLoad ∨ segment.memsz = 0

/-- The loop of `load_pages_overlap` from header `j` on. -/
def overlapLoop (image : List UInt8) (header : Ehdr) (start stop : ℕ) : ℕ → ℕ → Option Bool
  | 0, _ => some false
  | n + 1, j =>
    (phdrAt image header j).bind fun other =>
      if other.skipped then overlapLoop image header start stop n (j + 1)
      else
        (sum32 other.vaddr other.memsz).bind fun last => (pageEnd last).bind fun otherStop =>
          if start < otherStop ∧ other.vaddr / pageSize * pageSize < stop then some true
          else overlapLoop image header start stop n (j + 1)

def loadPagesOverlap (image : List UInt8) (header : Ehdr) (current : ℕ) : Option Bool :=
  (phdrAt image header current).bind fun segment =>
    (sum32 segment.vaddr segment.memsz).bind fun last => (pageEnd last).bind fun stop =>
      overlapLoop image header (segment.vaddr / pageSize * pageSize) stop current 0

/-- What the loop of `elf_load` asks of a header that is not skipped, before it maps anything. -/
def segmentOk (image : List UInt8) (header : Ehdr) (i : ℕ) (segment : Phdr) : Option Bool :=
  if segment.memsz < segment.filesz ∨ rangeWithin segment.offset segment.filesz image.length = false then some false
  else if segment.vaddr < userMin ∨ userMax ≤ segment.vaddr ∨ userMax - segment.vaddr < segment.memsz then some false
  else
    (sum32 segment.vaddr segment.memsz).bind fun stop =>
      if stop ≤ segment.vaddr ∨ userMax < stop then some false
      else if segment.flags &&& (pfW ||| pfX) = pfW ||| pfX then some false
      else if segment.align ≠ 0 ∧ segment.align &&& (segment.align - 1) ≠ 0 then some false
      else if 1 < segment.align ∧ sub32 segment.vaddr segment.offset &&& (segment.align - 1) ≠ 0 then some false
      else (loadPagesOverlap image header i).map fun overlap => !overlap

section images

variable {image : List UInt8} {header : Ehdr} {segment other : Phdr} {i j n x y start stop : ℕ}

/-! ## Reads inside the image -/

theorem read8_inside (image : List UInt8) (i : ℕ) (h : i < image.length) : ∃ v, read8 image i = some v := by
  unfold read8
  rw [List.getElem?_eq_getElem h]
  exact ⟨_, rfl⟩

theorem read16_inside (image : List UInt8) (i : ℕ) (h : i + 2 ≤ image.length) : ∃ v, read16 image i = some v := by
  obtain ⟨low, hlow⟩ := read8_inside image i (by omega)
  obtain ⟨high, hhigh⟩ := read8_inside image (i + 1) (by omega)
  unfold read16
  rw [hlow, hhigh]
  exact ⟨_, rfl⟩

theorem read32_inside (image : List UInt8) (i : ℕ) (h : i + 4 ≤ image.length) : ∃ v, read32 image i = some v := by
  obtain ⟨low, hlow⟩ := read16_inside image i (by omega)
  obtain ⟨high, hhigh⟩ := read16_inside image (i + 2) (by omega)
  unfold read32
  rw [hlow, hhigh]
  exact ⟨_, rfl⟩

theorem readEhdr_inside (h : ehdrSize ≤ image.length) : ∃ header, readEhdr image = some header := by
  unfold ehdrSize at h
  obtain ⟨_, hmagic⟩ := read32_inside image 0 (by omega)
  obtain ⟨_, hclass⟩ := read8_inside image 4 (by omega)
  obtain ⟨_, hdata⟩ := read8_inside image 5 (by omega)
  obtain ⟨_, hversion⟩ := read8_inside image 6 (by omega)
  obtain ⟨_, htype⟩ := read16_inside image 16 (by omega)
  obtain ⟨_, hmachine⟩ := read16_inside image 18 (by omega)
  obtain ⟨_, helf⟩ := read32_inside image 20 (by omega)
  obtain ⟨_, hentry⟩ := read32_inside image 24 (by omega)
  obtain ⟨_, hphoff⟩ := read32_inside image 28 (by omega)
  obtain ⟨_, hehsize⟩ := read16_inside image 40 (by omega)
  obtain ⟨_, hphentsize⟩ := read16_inside image 42 (by omega)
  obtain ⟨_, hphnum⟩ := read16_inside image 44 (by omega)
  unfold readEhdr
  rw [hmagic, hclass, hdata, hversion, htype, hmachine, helf, hentry, hphoff, hehsize, hphentsize, hphnum]
  exact ⟨_, rfl⟩

theorem readPhdr_inside (h : i + phdrSize ≤ image.length) : ∃ segment, readPhdr image i = some segment := by
  unfold phdrSize at h
  obtain ⟨_, htype⟩ := read32_inside image i (by omega)
  obtain ⟨_, hoffset⟩ := read32_inside image (i + 4) (by omega)
  obtain ⟨_, hvaddr⟩ := read32_inside image (i + 8) (by omega)
  obtain ⟨_, hfilesz⟩ := read32_inside image (i + 16) (by omega)
  obtain ⟨_, hmemsz⟩ := read32_inside image (i + 20) (by omega)
  obtain ⟨_, hflags⟩ := read32_inside image (i + 24) (by omega)
  obtain ⟨_, halign⟩ := read32_inside image (i + 28) (by omega)
  unfold readPhdr
  rw [htype, hoffset, hvaddr, hfilesz, hmemsz, hflags, halign]
  exact ⟨_, rfl⟩

/-! ## Valid headers -/

theorem rangeWithin_iff (offset length total : ℕ) : rangeWithin offset length total = true ↔ offset + length ≤ total := by
  unfold rangeWithin
  rw [decide_eq_true_eq]
  omega

/-- The table of program headers is inside the image. -/
structure Table (image : List UInt8) (header : Ehdr) : Prop where
  read : readEhdr image = some header
  entsize : header.phentsize = phdrSize
  count : 0 < header.phnum ∧ header.phnum ≤ maxProgramHeaders
  inside : header.phoff + header.phnum * phdrSize ≤ image.length

theorem elfIsValid_cases (image : List UInt8) :
    elfIsValid image = some false ∨ elfIsValid image = some true ∧ ∃ header, Table image header := by
  unfold elfIsValid
  split
  · exact Or.inl rfl
  next hsize =>
  obtain ⟨header, hread⟩ := readEhdr_inside (Nat.le_of_not_lt hsize)
  rw [hread, Option.bind_some]
  split
  · exact Or.inl rfl
  split
  · exact Or.inl rfl
  split
  · exact Or.inl rfl
  split
  · exact Or.inl rfl
  split
  · exact Or.inl rfl
  next hentsize =>
  split
  · exact Or.inl rfl
  next hcount =>
  cases hinside : rangeWithin header.phoff (header.phnum * phdrSize) image.length with
  | false => exact Or.inl rfl
  | true =>
    exact Or.inr ⟨rfl, header, hread, not_not.mp hentsize, by omega, (rangeWithin_iff _ _ _).mp hinside⟩

theorem sum32_eq (h : x + y < 4294967296) : sum32 x y = some (x + y) := if_pos h

theorem pageEnd_eq (h : x ≤ userMax) : pageEnd x = some (Machine.pagesTo x * pageSize) := by
  unfold pageEnd
  unfold userMax at h
  rw [sum32_eq (by omega)]
  rfl

theorem Table.phdrAt (h : Table image header) (hlen : image.length < 4294967296) (hi : i < header.phnum) :
    ∃ segment, phdrAt image header i = some segment := by
  have hinside := h.inside
  unfold phdrSize at hinside
  unfold Elf.phdrAt
  rw [h.entsize]
  unfold phdrSize
  rw [sum32_eq (by omega), Option.bind_some]
  apply readPhdr_inside
  unfold phdrSize
  omega

/-! ## Segments -/

/-- Header `i` is one of a segment that is loaded. -/
def Loads (image : List UInt8) (header : Ehdr) (i : ℕ) (segment : Phdr) : Prop :=
  phdrAt image header i = some segment ∧ segment.skipped = false

/-- The page has bytes of the segment. -/
def Phdr.Touches (segment : Phdr) (p : ℕ) : Prop := Machine.Touches segment.vaddr segment.memsz p

/-- Two segments have pages in common. -/
def Phdr.Overlaps (segment other : Phdr) : Prop := ∃ p, segment.Touches p ∧ other.Touches p

theorem skipped_iff : segment.skipped = false ↔ segment.type = ptLoad ∧ segment.memsz ≠ 0 := by
  unfold Phdr.skipped
  rw [decide_eq_false_iff_not, not_or, not_not]

theorem overlaps_iff (h : segment.memsz ≠ 0) (h' : other.memsz ≠ 0) :
    segment.Overlaps other ↔ segment.vaddr / pageSize < Machine.pagesTo (other.vaddr + other.memsz) ∧
      other.vaddr / pageSize < Machine.pagesTo (segment.vaddr + segment.memsz) := by
  unfold Phdr.Overlaps Phdr.Touches
  simp only [Machine.touches_iff h, Machine.touches_iff h']
  constructor
  · rintro ⟨p, hp, hp'⟩
    omega
  · rintro ⟨hlo, hhi⟩
    refine ⟨max (segment.vaddr / pageSize) (other.vaddr / pageSize), ?_, ?_⟩
    · unfold Machine.pagesTo pageSize at *
      omega
    · unfold Machine.pagesTo pageSize at *
      omega

/-- What holds of a segment that the loader has let pass. -/
structure Accepted (image : List UInt8) (header : Ehdr) (i : ℕ) (segment : Phdr) : Prop where
  filesz : segment.filesz ≤ segment.memsz
  file : segment.offset + segment.filesz ≤ image.length
  start : userMin ≤ segment.vaddr
  stop : segment.vaddr + segment.memsz ≤ userMax
  permissions : segment.flags &&& (pfW ||| pfX) ≠ pfW ||| pfX
  apart : ∀ j < i, ∀ other, Loads image header j other → ¬segment.Overlaps other

/-- The segments before `i` were let pass. -/
def Passed (image : List UInt8) (header : Ehdr) (i : ℕ) : Prop := ∀ j < i, ∀ segment, Loads image header j segment → Accepted image header j segment

theorem overlapLoop_spec (start stop : ℕ) (hread : ∀ k, k < j + n → ∃ other, phdrAt image header k = some other)
    (hend : ∀ k, k < j + n → ∀ other, Loads image header k other → other.vaddr + other.memsz ≤ userMax) :
    ∃ b, overlapLoop image header (start * pageSize) (stop * pageSize) n j = some b ∧ (b = false → ∀ k, j ≤ k → k < j + n →
      ∀ other, Loads image header k other → ¬(start < Machine.pagesTo (other.vaddr + other.memsz) ∧ other.vaddr / pageSize < stop)) := by
  induction n generalizing j with
  | zero => exact ⟨false, rfl, fun _ k hlo hhi => by omega⟩
  | succ n ih =>
    obtain ⟨other, hother⟩ := hread j (by omega)
    obtain ⟨b, he, hb⟩ := ih (j := j + 1) (fun k hk => hread k (by omega)) (fun k hk => hend k (by omega))
    rw [overlapLoop, hother, Option.bind_some]
    cases hskip : other.skipped with
    | true =>
      refine ⟨b, he, fun hfalse k hlo hhi seg hseg => ?_⟩
      have hne : k ≠ j := by
        rintro rfl
        obtain ⟨hat, hno⟩ := hseg
        rw [hother] at hat
        obtain rfl := Option.some.inj hat
        rw [hskip] at hno
        cases hno
      exact hb hfalse k (by omega) (by omega) seg hseg
    | false =>
      have hlast := hend j (by omega) other ⟨hother, hskip⟩
      have hsum : other.vaddr + other.memsz < 4294967296 := by
        unfold userMax at hlast
        omega
      rw [if_neg (by decide), sum32_eq hsum, Option.bind_some, pageEnd_eq hlast, Option.bind_some]
      split
      · exact ⟨true, rfl, fun hfalse => by cases hfalse⟩
      · next hno =>
        refine ⟨b, he, fun hfalse k hlo hhi seg hseg => ?_⟩
        by_cases hk : k = j
        · subst hk
          have hat := hseg.1
          rw [hother] at hat
          obtain rfl := Option.some.inj hat
          unfold pageSize at *
          omega
        · exact hb hfalse k (by omega) (by omega) seg hseg

/-- The checks read inside the image, no sum wraps, and what they let pass is in order. -/
theorem segmentOk_spec (htable : Table image header) (hlen : image.length < 4294967296) (hi : i < header.phnum)
    (hseg : Loads image header i segment) (hpassed : Passed image header i) :
    ∃ b, segmentOk image header i segment = some b ∧ (b = true → Accepted image header i segment) := by
  unfold segmentOk
  split
  · exact ⟨false, rfl, fun he => by cases he⟩
  next hfile =>
  split
  · exact ⟨false, rfl, fun he => by cases he⟩
  next hwindow =>
  have hmax : userMax < 4294963200 := by decide
  have hlast : segment.vaddr + segment.memsz ≤ userMax := by omega
  rw [sum32_eq (by omega), Option.bind_some]
  split
  · exact ⟨false, rfl, fun he => by cases he⟩
  split
  · exact ⟨false, rfl, fun he => by cases he⟩
  next hpermissions =>
  split
  · exact ⟨false, rfl, fun he => by cases he⟩
  split
  · exact ⟨false, rfl, fun he => by cases he⟩
  obtain ⟨b, he, hb⟩ := overlapLoop_spec (n := i) (j := 0) (segment.vaddr / pageSize) (Machine.pagesTo (segment.vaddr + segment.memsz))
    (fun k hk => htable.phdrAt hlen (by omega)) (fun k hk other hother => (hpassed k (by omega) other hother).stop)
  unfold loadPagesOverlap
  rw [hseg.1, Option.bind_some, sum32_eq (by omega), Option.bind_some, pageEnd_eq hlast, Option.bind_some, he]
  refine ⟨!b, rfl, fun hok => ⟨by omega, ?_, by omega, hlast, hpermissions, fun k hk other hother hoverlap => ?_⟩⟩
  · rw [← rangeWithin_iff]
    rw [not_or, Bool.not_eq_false] at hfile
    exact hfile.2
  · have hfalse : b = false := by
      cases b with
      | false => rfl
      | true => cases hok
    have hmem := (skipped_iff.mp hseg.2).2
    have hmem' := (skipped_iff.mp hother.2).2
    exact hb hfalse k (Nat.zero_le k) (by omega) other hother ((overlaps_iff hmem hmem').mp hoverlap)

end images

end SifarOS.Elf
