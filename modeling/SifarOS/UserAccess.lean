import SifarOS.Paging
import SifarOS.ByteMemory

/-! # What the kernel may read and write for a process

`vmm_access_ok_in` of `kernel/mm/paging.c` goes over the pages of a range. It is compared with what
is asked of every byte of the range. -/
namespace SifarOS.Paging
open ByteMemory

namespace Machine

variable (m : Machine) (pd : ℕ)

/-- `(entry & (PTE_PRESENT | PTE_USER)) == (PTE_PRESENT | PTE_USER)` -/
def presentUser (entry : ℕ) : Bool := entry &&& (ptePresent ||| pteUser) = ptePresent ||| pteUser

/-- What the loop of `vmm_access_ok_in` asks of a page. -/
def pageOk (write : Bool) (page : ℕ) : Bool :=
  let pde := m.mem pd (page / pdeSpan)
  let pte := m.mem (frameOf pde) (pteIndex page)
  presentUser pde && presentUser pte && (!write || pte &&& pteWrite ≠ 0)

/-- The loop of `vmm_access_ok_in`. It makes a turn for every page, of which there are `2 ^ 20`. -/
def accessLoop (write : Bool) (stop : ℕ) : ℕ → ℕ → Bool
  | 0, _ => false
  | fuel + 1, page =>
    if page < stop then
      if m.pageOk pd write page = false then false
      else if 4294967295 - pageSize < page then false
      else accessLoop write stop fuel (page + pageSize)
    else true

/-- `vmm_access_ok_in` -/
def vmmAccessOkIn (start size : ℕ) (write : Bool) : Bool :=
  if pd = 0 then false
  else if size = 0 then true
  else if start < userMin ∨ userMax ≤ start then false
  else
    let stop := start + size
    if userMax < stop ∨ stop ≤ start then false
    else m.accessLoop pd write stop (1048576 + 1) (start / pageSize * pageSize)

/-- The processor may access a byte in user mode: the page has an entry in the directory and one in a table,
both for the user, and the second lets it write. -/
structure UserByte (write : Bool) (virt : ℕ) : Prop where
  directory : present (m.mem pd (virt / pdeSpan)) = true ∧ m.mem pd (virt / pdeSpan) &&& pteUser ≠ 0
  table : present (m.mem (frameOf (m.mem pd (virt / pdeSpan))) (pteIndex virt)) = true ∧
    m.mem (frameOf (m.mem pd (virt / pdeSpan))) (pteIndex virt) &&& pteUser ≠ 0
  writable : write = true → m.mem (frameOf (m.mem pd (virt / pdeSpan))) (pteIndex virt) &&& pteWrite ≠ 0

end Machine

section access
open Machine

variable {m : Machine} {pd : ℕ} {write : Bool}

/-- The flags are in the low bits of an entry. -/
theorem and_flags (entry : ℕ) {mask : ℕ} (h : mask < 8) : entry &&& mask = entry % 8 &&& mask := by
  have hmod := Nat.and_mod_two_pow (a := entry) (b := mask) (n := 3)
  rw [Nat.mod_eq_of_lt (Nat.lt_of_le_of_lt Nat.and_le_right h), Nat.mod_eq_of_lt h] at hmod
  exact hmod

theorem present_flags (entry : ℕ) : present entry = present (entry % 8) := by
  simp [present, show entry % 8 = entry % 2 ^ 3 from rfl]

theorem presentUser_iff (entry : ℕ) : presentUser entry = true ↔ present entry = true ∧ entry &&& pteUser ≠ 0 := by
  have hcases : ∀ flags < 8, presentUser flags = true ↔ present flags = true ∧ flags &&& pteUser ≠ 0 := by decide
  have hmask : presentUser entry = presentUser (entry % 8) := by
    unfold presentUser
    rw [and_flags entry (by decide)]
  rw [hmask, present_flags, and_flags entry (by decide)]
  exact hcases _ (Nat.mod_lt _ (by decide))

/-- The entries for an address are those for its page. -/
theorem same_page {page virt : ℕ} (hpage : page % pageSize = 0) (hlo : page ≤ virt) (hhi : virt < page + pageSize) :
    virt / pdeSpan = page / pdeSpan ∧ pteIndex virt = pteIndex page := by
  unfold pteIndex pdeSpan pageSize at *
  omega

theorem pageOk_iff (m : Machine) (pd : ℕ) (write : Bool) (page : ℕ) : m.pageOk pd write page = true ↔ m.UserByte pd write page := by
  simp only [Machine.pageOk, Bool.and_eq_true, presentUser_iff, Bool.or_eq_true, Bool.not_eq_true', decide_eq_true_eq]
  constructor
  · rintro ⟨⟨hdir, htable⟩, hwrite⟩
    exact ⟨hdir, htable, fun hw => hwrite.resolve_left (by simp [hw])⟩
  · intro h
    refine ⟨⟨h.directory, h.table⟩, ?_⟩
    cases write with
    | false => exact Or.inl rfl
    | true => exact Or.inr (h.writable rfl)

theorem userByte_page {page virt : ℕ} (hpage : page % pageSize = 0) (hlo : page ≤ virt) (hhi : virt < page + pageSize) :
    m.UserByte pd write virt ↔ m.UserByte pd write page := by
  obtain ⟨hdir, htable⟩ := same_page hpage hlo hhi
  constructor
  · rintro ⟨h₁, h₂, h₃⟩
    rw [hdir] at h₁ h₂ h₃
    rw [htable] at h₂ h₃
    exact ⟨h₁, h₂, h₃⟩
  · rintro ⟨h₁, h₂, h₃⟩
    rw [← hdir] at h₁ h₂ h₃
    rw [← htable] at h₂ h₃
    exact ⟨h₁, h₂, h₃⟩

/-- The loop, when it has turns enough for the bytes that are left. -/
theorem accessLoop_iff {stop fuel page : ℕ} (hpage : page % pageSize = 0) (hstop : stop ≤ userMax) (hnear : page < stop + pageSize)
    (hfuel : stop + pageSize ≤ page + fuel * pageSize) :
    m.accessLoop pd write stop fuel page = true ↔ ∀ virt, page ≤ virt → virt < stop → m.UserByte pd write virt := by
  induction fuel generalizing page with
  | zero => omega
  | succ fuel ih =>
    have hsize : pageSize = 4096 := rfl
    have htop : userMax = 0xD0000000 := rfl
    unfold accessLoop
    by_cases hlt : page < stop
    · have hwrap : ¬4294967295 - pageSize < page := by omega
      rw [if_pos hlt, if_neg hwrap]
      rw [Nat.succ_mul] at hfuel
      have hnext := @ih (page + pageSize) ((Nat.add_mod_right ..).trans hpage) (by omega) (by omega)
      by_cases hok : m.pageOk pd write page = false
      · rw [if_pos hok]
        refine iff_of_false Bool.false_ne_true fun hall => ?_
        have hbyte := (pageOk_iff m pd write page).mpr (hall page (Nat.le_refl _) hlt)
        rw [hok] at hbyte
        cases hbyte
      · rw [if_neg hok, hnext]
        have hbyte := (pageOk_iff m pd write page).mp (by simpa using hok)
        constructor
        · intro hall virt hlo hhi
          by_cases hin : virt < page + pageSize
          · exact (userByte_page hpage hlo hin).mpr hbyte
          · exact hall virt (by omega) hhi
        · intro hall virt hlo hhi
          exact hall virt (by omega) hhi
    · rw [if_neg hlt]
      refine iff_of_true rfl fun virt hlo hhi => ?_
      omega

end access

/-- A range is accepted exactly if it is empty, or lies in the users' window and every byte of it may be
accessed. -/
theorem access_ok_iff (m : Machine) {pd : ℕ} (hpd : pd ≠ 0) (start size : ℕ) (write : Bool) :
    m.vmmAccessOkIn pd start size write = true ↔
      size = 0 ∨ userMin ≤ start ∧ start + size ≤ userMax ∧ ∀ virt, start ≤ virt → virt < start + size → m.UserByte pd write virt := by
  have hsize : pageSize = 4096 := rfl
  have htop : userMax = 0xD0000000 := rfl
  have hdown : start / pageSize * pageSize ≤ start := Nat.div_mul_le_self ..
  have hnear : start < start / pageSize * pageSize + pageSize := Nat.lt_div_mul_add (by decide)
  unfold Machine.vmmAccessOkIn
  rw [if_neg hpd]
  by_cases hzero : size = 0
  · simp [hzero]
  rw [if_neg hzero]
  by_cases hout : start < userMin ∨ userMax ≤ start
  · rw [if_pos hout]
    refine iff_of_false Bool.false_ne_true ?_
    rintro (h | ⟨hlo, hhi, -⟩)
    · exact hzero h
    · omega
  dsimp only
  rw [if_neg hout]
  by_cases hstop : userMax < start + size ∨ start + size ≤ start
  · rw [if_pos hstop]
    refine iff_of_false Bool.false_ne_true ?_
    rintro (h | ⟨hlo, hhi, -⟩)
    · exact hzero h
    · omega
  rw [if_neg hstop, accessLoop_iff (Nat.mul_mod_left ..) (by omega) (by omega) (by omega)]
  constructor
  · intro hall
    exact Or.inr ⟨by omega, by omega, fun virt hlo hhi => hall virt (by omega) hhi⟩
  · rintro (h | ⟨-, -, hall⟩)
    · exact absurd h hzero
    · have hpage := fun virt => @userByte_page m pd write (start / pageSize * pageSize) virt (Nat.mul_mod_left ..)
      intro virt hlo hhi
      -- the bytes before the start are on its page
      by_cases hbefore : virt < start
      · have hstart := (hpage start hdown hnear).mp (hall start (Nat.le_refl _) (by omega))
        exact (hpage virt hlo (by omega)).mpr hstart
      · exact hall virt (by omega) hhi

/-- The directory is frame 1 and its table frame 2: a page that may be written, then one that may not. -/
def twoPages : Machine where
  bitmap := fun f => f < 5
  totalFrames := 48
  mem := fun frame index =>
    if frame = 1 ∧ index = 256 then 2 * pageSize + 7
    else if frame = 2 ∧ index = 0 then 3 * pageSize + 7
    else if frame = 2 ∧ index = 1 then 4 * pageSize + 5
    -- `abc` and its terminator
    else if frame = 3 ∧ index = 0 then 0x636261
    else 0
  kernelPd := 0
  spaces := [1]
  mappedPages := 2

theorem access_ok_iff_twoPages : twoPages.vmmAccessOkIn 1 0x40000FF0 0x20 true = false ∧
    ∀ virt, 0x40000FF0 ≤ virt → virt < 0x40001010 → twoPages.UserByte 1 false virt := by
  refine ⟨by decide, ?_⟩
  have hread := (access_ok_iff twoPages (show 1 ≠ 0 by decide) 0x40000FF0 0x20 false).mp (by decide)
  exact (hread.resolve_left (by decide)).2.2

end SifarOS.Paging
