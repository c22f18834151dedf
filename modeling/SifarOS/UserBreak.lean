import SifarOS.PrivatePages
import SifarOS.ElfLoader
import SifarOS.ProcessStack

/-! # The break of a process

`proc_sbrk` of `kernel/proc.c`, in a process that `proc_spawn_image` has started. -/
namespace SifarOS.UserBreak
open Paging ByteMemory ReachableStates Machine

/-- The fields of `struct process` that the break depends on. -/
structure Process where
  pd : ℕ
  brkStart : ℕ
  brk : ℕ
  stackTop : ℕ
  userPages : ℕ
  deriving DecidableEq, Repr

def maxUserImageSize : ℕ := 4 * 1024 * 1024

/-- `PTE_PRESENT | PTE_WRITE | PTE_USER` -/
def heapFlags : ℕ := ptePresent ||| pteWrite ||| pteUser

/-- `proc_spawn_image` from the checks of its arguments to the process with its stack, for a process that is started. -/
def procSpawnImage (m : Machine) (image : List UInt8) (scratch : Memory) (argc : ℤ) (argv : Option (ℕ → Option CString)) :
    Option (Machine × Process) :=
  if image.length = 0 ∨ maxUserImageSize < image.length then none
  else if argc < 0 ∨ 0 < argc ∧ argv.isNone then none
  else if Elf.elfIsValid image ≠ some true then none
  else
    let created := m.vmmSpaceCreate
    if created.2 < 0 then none
    else
      let pd := created.1.spaces.headD 0
      match Elf.elfLoad created.1 pd image with
      | some (m, some (_, brk)) =>
        if sub32 userStackTop (userStackPages * pageSize) ≤ brk then none
        else
          let stack := m.vmmAllocRange pd (sub32 userStackTop (userStackPages * pageSize)) (userStackPages * pageSize) heapFlags
          if stack.2 < 0 then none
          else
            match stack.1.buildStack pd userStackTop scratch argc argv with
            | some (m, some _) => some (m, ⟨pd, brk, brk, userStackTop, userStackPages⟩)
            | _ => none
      | _ => none

/-- `proc_sbrk` for the process that runs -/
def procSbrk (m : Machine) (proc : Process) (increment : ℤ) : (Machine × Process) × ℕ :=
  let previous := proc.brk
  if 0 < increment then
    let target64 := proc.brk + increment.toNat
    let stackFloor := sub32 proc.stackTop (userStackPages * pageSize)
    if stackFloor ≤ target64 ∨ userMax < target64 then ((m, proc), 0)
    else
      let target := u32 target64
      let allocated := m.vmmAllocRange proc.pd proc.brk increment.toNat heapFlags
      if allocated.2 < 0 then ((allocated.1, proc), 0)
      else
        ((allocated.1, { proc with
          brk := target
          userPages := u32 (proc.userPages + sub32 (alignUp target pageSize) (alignUp previous pageSize) / pageSize) }), previous)
  else if increment < 0 then
    let available := sub32 proc.brk proc.brkStart
    let shrink := u32 (-increment).toNat
    let shrink := if available < shrink then available else shrink
    let brk := sub32 proc.brk shrink
    let oldTop := alignUp previous pageSize
    let newTop := alignUp brk pageSize
    if newTop < oldTop then
      let pages := sub32 oldTop newTop / pageSize
      ((m.vmmFreeRange proc.pd newTop (sub32 oldTop newTop), { proc with
        brk := brk
        userPages := if pages ≤ proc.userPages then proc.userPages - pages else 0 }), previous)
    else ((m, { proc with brk := brk }), previous)
  else ((m, proc), previous)

/-- One call of `proc_sbrk`, or something else that happens in the kernel or in the process. -/
inductive Step : Machine × Process → Machine × Process → Prop
  | sbrk (m : Machine) (proc : Process) (increment : ℤ) (hlo : -2147483648 ≤ increment) (hhi : increment < 2147483648) :
    Step (m, proc) (procSbrk m proc increment).1
  | elsewhere (m m' : Machine) (proc : Process) (h : m.Elsewhere m' proc.pd) : Step (m, proc) (m', proc)

/-- What holds between two calls. -/
structure Inv (m : Machine) (proc : Process) : Prop where
  owned : m.Private proc.pd
  top : proc.stackTop = userStackTop
  aligned : proc.brkStart % pageSize = 0
  low : userMin ≤ proc.brkStart
  start_le : proc.brkStart ≤ proc.brk
  below : proc.brk < stackFloor
  pages : ∀ p, proc.brkStart / pageSize ≤ p → p < stackFloor / pageSize → (m.UserPage proc.pd p ↔ p < pagesTo proc.brk)
  count : proc.userPages = userStackPages + (pagesTo proc.brk - proc.brkStart / pageSize)

variable {m m' : Machine} {proc : Process} {p : ℕ} {increment : ℤ} {S : ℕ → Prop}

theorem stackFloor_eq : sub32 userStackTop (userStackPages * pageSize) = stackFloor := by decide

/-- Between the start of the user's half and the stack every page is the user's. -/
theorem Inv.user (h : Inv m proc) (hlo : proc.brkStart / pageSize ≤ p) (hhi : p < stackFloor / pageSize) : userPage (p * pageSize) = true := by
  have hlow := h.low
  have hfloor : stackFloor = 0x407F0000 := rfl
  unfold userPage
  unfold userMin userMax pageSize at *
  rw [decide_eq_true_eq]
  omega

/-- The break after a call, once the pages are known. -/
theorem Inv.move (h : Inv m proc) {brk userPages : ℕ} (hstart : proc.brkStart ≤ brk) (hbelow : brk < stackFloor) (howned : m'.Private proc.pd)
    (hpages : ∀ p, proc.brkStart / pageSize ≤ p → p < stackFloor / pageSize → (m'.UserPage proc.pd p ↔ p < pagesTo brk))
    (hcount : userPages = userStackPages + (pagesTo brk - proc.brkStart / pageSize)) :
    Inv m' { proc with brk := brk, userPages := userPages } :=
  ⟨howned, h.top, h.aligned, h.low, hstart, hbelow, hpages, hcount⟩

/-- A request that gets no pages. -/
theorem Inv.unchanged (h : Inv m proc) (hg : m.Grown m' proc.pd fun _ => False) :
    Inv m' proc ∧ ∀ p < pageCount, m'.view proc.pd p = m.view proc.pd p := by
  have hview : ∀ p < pageCount, m'.view proc.pd p = m.view proc.pd p := fun p hp => hg.old p hp id
  obtain ⟨hgrown, hbare⟩ := h.owned.grown
  obtain ⟨hprivate, hiff⟩ := (hgrown.trans hg).private_pages hbare fun p hp => hp.elim And.left False.elim
  refine ⟨⟨hprivate, h.top, h.aligned, h.low, h.start_le, h.below, fun p hlo hhi => ?_, h.count⟩, hview⟩
  rw [hiff, or_false]
  exact h.pages p hlo hhi

/-- What a call may do: it moves the break and returns the old one, or it returns 0 and leaves everything. -/
structure Moved (m : Machine) (proc : Process) (increment : ℤ) (r : (Machine × Process) × ℕ) : Prop where
  inv : Inv r.1.1 r.1.2
  same : r.1.2.pd = proc.pd ∧ r.1.2.brkStart = proc.brkStart
  result : r.2 = proc.brk ∨ 0 < increment ∧ r.2 = 0 ∧ r.1.2 = proc ∧ ∀ p < pageCount, r.1.1.view proc.pd p = m.view proc.pd p

theorem pagesTo_aligned {x : ℕ} (h : x % pageSize = 0) : pagesTo x = x / pageSize := by
  unfold pagesTo
  unfold pageSize at *
  omega

/-- A positive request. -/
theorem Inv.grow (h : Inv m proc) (hpos : 0 < increment) : Moved m proc increment (procSbrk m proc increment) := by
  have hfloor : stackFloor = 0x407F0000 := rfl
  have hlow := h.low
  have hstart := h.start_le
  have hbelow := h.below
  obtain ⟨size, hsize⟩ : ∃ size, increment.toNat = size := ⟨_, rfl⟩
  have hsizepos : size ≠ 0 := by omega
  have hsame : Moved m proc increment ((m, proc), 0) := ⟨h, ⟨rfl, rfl⟩, Or.inr ⟨hpos, rfl, rfl, fun _ _ => rfl⟩⟩
  have hsub : sub32 proc.stackTop (userStackPages * pageSize) = stackFloor := by
    rw [h.top]
    exact stackFloor_eq
  unfold procSbrk
  rw [if_pos hpos, hsize, hsub]
  dsimp only
  split
  · exact hsame
  next hfits =>
  unfold userMin userMax at *
  have htarget : proc.brk + size < 0x407F0000 := by omega
  rcases h.owned.toSpace.allocRange proc.brk size heapFlags hsizepos (by omega)
    (fun _ => by unfold userMin userMax; omega) (fun hlt => by unfold pageSize at hlt; omega) with ⟨m', he, hg⟩ | ⟨m', k, he, hk, hk', hlead, hg⟩
  · rw [he]
    obtain ⟨hinv, hview⟩ := h.unchanged hg
    exact ⟨hinv, ⟨rfl, rfl⟩, Or.inr ⟨hpos, rfl, rfl, hview⟩⟩
  · rw [he]
    dsimp only
    rw [if_neg (by decide), u32_of_lt (by omega), alignUp_page (by omega), alignUp_page (by omega)]
    change Moved m proc increment ((m', { proc with
      brk := proc.brk + size
      userPages := u32 (proc.userPages + sub32 (pagesTo (proc.brk + size) * pageSize) (pagesTo proc.brk * pageSize) / pageSize) }), proc.brk)
    have hk₀ : proc.brk / pageSize ≤ k := hk
    have hcount : u32 (proc.userPages + sub32 (pagesTo (proc.brk + size) * pageSize) (pagesTo proc.brk * pageSize) / pageSize) =
        userStackPages + (pagesTo (proc.brk + size) - proc.brkStart / pageSize) := by
      rw [h.count]
      have haligned := h.aligned
      unfold u32 sub32 userStackPages pagesTo
      unfold pageSize at *
      omega
    obtain ⟨hgrown, hbare⟩ := h.owned.grown
    have huser : ∀ p, k ≤ p ∧ p < pagesTo (proc.brk + size) → userPage (p * pageSize) = true := by
      intro p hp
      apply h.user
      · unfold pageSize at *
        omega
      · unfold pagesTo at hp
        unfold pageSize
        omega
    obtain ⟨hprivate, hiff⟩ := (hgrown.trans hg.toGrown).private_pages hbare fun p hp => hp.elim And.left (huser p)
    refine ⟨h.move (by omega) (by omega) hprivate (fun p hlo hhi => ?_) hcount, ⟨rfl, rfl⟩, Or.inl rfl⟩
    rw [hiff, h.pages p hlo hhi]
    have hmono : pagesTo proc.brk ≤ pagesTo (proc.brk + size) := by
      unfold pagesTo
      omega
    constructor
    · rintro (hp | hp)
      · omega
      · exact hp.2
    · intro hp
      by_cases hkp : k ≤ p
      · exact Or.inr ⟨hkp, hp⟩
      · -- a page before `k` is one that the break had already
        refine Or.inl ?_
        by_cases hfirst : p < proc.brk / pageSize
        · unfold pagesTo
          unfold pageSize at hfirst
          omega
        · have hpresent := hlead p (by omega) (by omega)
          exact (h.pages p hlo hhi).mp ⟨h.user hlo hhi, hpresent⟩

/-- A negative request. -/
theorem Inv.shrink (h : Inv m proc) (hneg : increment < 0) (hlo : -2147483648 ≤ increment) :
    Moved m proc increment (procSbrk m proc increment) := by
  have hfloor : stackFloor = 0x407F0000 := rfl
  have hlow := h.low
  have hstart := h.start_le
  have hbelow := h.below
  have haligned := h.aligned
  obtain ⟨amount, hamount⟩ : ∃ amount, (-increment).toNat = amount := ⟨_, rfl⟩
  unfold procSbrk
  rw [if_neg (by omega), if_pos hneg, hamount, u32_of_lt (by omega), sub32_of_le hstart (by omega)]
  dsimp only
  obtain ⟨shrink, hshrink⟩ : ∃ shrink, (if proc.brk - proc.brkStart < amount then proc.brk - proc.brkStart else amount) = shrink := ⟨_, rfl⟩
  have hle : shrink ≤ proc.brk - proc.brkStart := by
    rw [← hshrink]
    split <;> omega
  rw [hshrink, sub32_of_le (by omega) (by omega), alignUp_page (by omega), alignUp_page (by omega)]
  change Moved m proc increment (if pagesTo (proc.brk - shrink) * pageSize < pagesTo proc.brk * pageSize then _ else _)
  have hmono : pagesTo (proc.brk - shrink) ≤ pagesTo proc.brk := by
    unfold pagesTo
    omega
  split
  · next hfewer =>
    have hlt : pagesTo (proc.brk - shrink) < pagesTo proc.brk := by
      unfold pageSize at hfewer
      omega
    obtain ⟨n, hn⟩ : ∃ n, pagesTo proc.brk = pagesTo (proc.brk - shrink) + n := ⟨pagesTo proc.brk - pagesTo (proc.brk - shrink), by omega⟩
    have hsize : sub32 (pagesTo proc.brk * pageSize) (pagesTo (proc.brk - shrink) * pageSize) = n * pageSize := by
      rw [sub32_of_le (Nat.mul_le_mul_right _ hmono) (by unfold pagesTo pageSize; omega), ← Nat.sub_mul, hn, Nat.add_sub_cancel_left]
    have hbound : pagesTo (proc.brk - shrink) + n < pageCount := by
      rw [← hn]
      unfold pagesTo pageCount
      omega
    change Moved m proc increment ((m.vmmFreeRange proc.pd (pagesTo (proc.brk - shrink) * pageSize)
      (sub32 (pagesTo proc.brk * pageSize) (pagesTo (proc.brk - shrink) * pageSize)), { proc with
        brk := proc.brk - shrink
        userPages := if sub32 (pagesTo proc.brk * pageSize) (pagesTo (proc.brk - shrink) * pageSize) / pageSize ≤ proc.userPages then
          proc.userPages - sub32 (pagesTo proc.brk * pageSize) (pagesTo (proc.brk - shrink) * pageSize) / pageSize else 0 }), proc.brk)
    rw [hsize, Nat.mul_div_cancel _ (by decide)]
    obtain ⟨hgrown, hbare⟩ := h.owned.grown
    have hfirst : proc.brkStart / pageSize ≤ pagesTo (proc.brk - shrink) := by
      unfold pagesTo
      unfold pageSize at *
      omega
    have hlast : pagesTo proc.brk ≤ stackFloor / pageSize := by
      unfold pagesTo pageSize
      omega
    have hfreed := hgrown.freeRange (p := pagesTo (proc.brk - shrink)) (n := n) (by omega) hbound fun q hlo hhi _ =>
      hbare q (h.user (by omega) (by omega))
    obtain ⟨hprivate, hiff⟩ := hfreed.private_pages hbare fun p hp => hp.1.1
    refine ⟨h.move (by omega) (by omega) hprivate (fun p hlo hhi => ?_) ?_, ⟨rfl, rfl⟩, Or.inl rfl⟩
    · rw [hiff, h.pages p hlo hhi]
      omega
    · rw [h.count, if_pos (by omega)]
      omega
  · next hsame =>
    have heq : pagesTo (proc.brk - shrink) = pagesTo proc.brk := by
      unfold pageSize at hsame
      omega
    refine ⟨?_, ⟨rfl, rfl⟩, Or.inl rfl⟩
    refine h.move (by omega) (by omega) h.owned (fun p hlo hhi => ?_) ?_
    · rw [heq]
      exact h.pages p hlo hhi
    · rw [heq]
      exact h.count

/-! ## The start -/

theorem vmmSpaceCreate_result (m : Machine) : m.vmmSpaceCreate.2 = 0 ∨ m.vmmSpaceCreate.2 = -1 := by
  unfold vmmSpaceCreate
  dsimp only
  split
  · exact Or.inr rfl
  · exact Or.inl rfl

/-- A started process: its space was fresh, the loader has put the segments below the break, and the stack is above it. -/
theorem procSpawnImage_inv {image : List UInt8} {scratch : Memory} {argc : ℤ} {argv : Option (ℕ → Option CString)} (hk : m.Space m.kernelPd)
    (hs : procSpawnImage m image scratch argc argv = some (m', proc)) : Inv m' proc ∧ proc.brk = proc.brkStart := by
  have hfloor : stackFloor = 0x407F0000 := rfl
  unfold procSpawnImage at hs
  split at hs
  · cases hs
  next hsize =>
  split at hs
  · cases hs
  split at hs
  · cases hs
  dsimp only at hs
  split at hs
  · cases hs
  next hcreated =>
  obtain ⟨m₁, hcreate⟩ : ∃ m₁, m.vmmSpaceCreate = (m₁, 0) := by
    refine ⟨m.vmmSpaceCreate.1, Prod.ext rfl ((vmmSpaceCreate_result m).resolve_right fun he => ?_)⟩
    rw [he] at hcreated
    exact hcreated (by decide)
  obtain ⟨pd, hspaces, hfresh⟩ := hk.create hcreate
  have hpd : m₁.spaces.headD 0 = pd := by rw [hspaces]; rfl
  rw [hcreate] at hs
  dsimp only at hs
  rw [hpd, stackFloor_eq] at hs
  split at hs
  case h_2 => cases hs
  case h_1 m₂ entry brk hload =>
  split at hs
  · cases hs
  next hbelow =>
  have hlen : image.length < 4294967296 := by
    unfold maxUserImageSize at hsize
    omega
  obtain ⟨header, -, hloaded, hpassed, hgrown⟩ := Elf.elfLoad_loaded hfresh hlen hload
  have hbare : ∀ p, userPage (p * pageSize) = true → m₁.view pd p = none := fun p hp => hfresh.view hp
  have hsegments : ∀ p, Elf.Before image header header.phnum p → userPage (p * pageSize) = true ∧ p * pageSize < brk := by
    rintro p ⟨i, hi, segment, hseg, hp⟩
    exact ⟨(hpassed i hi segment hseg).userPage hp, hloaded.before_break ⟨i, hi, segment, hseg, hp⟩⟩
  have hstackUser : ∀ p, StackPage p → userPage (p * pageSize) = true ∧ stackFloor / pageSize ≤ p := by
    rintro p ⟨virt, hlo, hhi, rfl⟩
    unfold userStackPages at hhi
    unfold userPage
    unfold userMin userMax pageSize at *
    rw [decide_eq_true_eq]
    omega
  have hfree : ∀ p, StackPage p → m₂.view pd p = none := by
    intro p hp
    obtain ⟨huser, hfirst⟩ := hstackUser p hp
    rw [hgrown.old p (userPage_lt huser), hbare p huser]
    intro hbefore
    have hlt := (hsegments p hbefore).2
    unfold pageSize at *
    omega
  rcases hgrown.space.allocRange_new stackFloor (userStackPages * pageSize) heapFlags (by decide) (by decide)
    (by decide) (fun _ => ⟨by decide, by decide⟩) hfree with ⟨m₃, halloc, -⟩ | ⟨m₃, halloc, hfilled⟩
  · rw [halloc] at hs
    cases hs
  · rw [halloc] at hs
    dsimp only at hs
    rw [if_neg (by decide)] at hs
    have hboth : m₁.Grown m₃ pd fun p => Elf.Before image header header.phnum p ∨ StackPage p := hgrown.trans hfilled.toGrown
    rcases buildStack_spec hboth (fun p hp => Or.inr hp) scratch argc argv with
      ⟨-, hbuild⟩ | ⟨strings, -, m₄, total, block, -, -, -, hbuild, hgrown₄, -⟩
    · rw [hbuild] at hs
      cases hs
    · rw [hbuild] at hs
      obtain ⟨rfl, rfl⟩ := Prod.mk.inj (Option.some.inj hs)
      obtain ⟨hprivate, hiff⟩ := hgrown₄.private_pages hbare fun p hp => hp.elim (fun hb => (hsegments p hb).1) fun hp => (hstackUser p hp).1
      obtain ⟨i, hi, segment, hseg, -, hbrk⟩ := hloaded.breakStart
      have hstart := (hpassed i hi segment hseg).start
      have haligned : brk % pageSize = 0 := by
        rw [hbrk]
        exact Nat.mul_mod_left _ _
      have hlow : userMin ≤ brk := by omega
      refine ⟨⟨hprivate, rfl, haligned, hlow, Nat.le_refl _, Nat.lt_of_not_le hbelow, fun p hlo hhi => ?_, ?_⟩, rfl⟩
      · dsimp only at hlo ⊢
        rw [hiff, pagesTo_aligned haligned]
        constructor
        · rintro (hp | hp)
          · have hlt := (hsegments p hp).2
            unfold pageSize at *
            omega
          · have hfirst := (hstackUser p hp).2
            omega
        · intro hp
          omega
      · dsimp only
        rw [pagesTo_aligned haligned]
        omega

/-! ## Runs -/

theorem Inv.call (h : Inv m proc) (hlo : -2147483648 ≤ increment) : Moved m proc increment (procSbrk m proc increment) := by
  rcases Int.lt_trichotomy increment 0 with hneg | hzero | hpos
  · exact h.shrink hneg hlo
  · unfold procSbrk
    rw [if_neg (by omega), if_neg (by omega)]
    exact ⟨h, ⟨rfl, rfl⟩, Or.inl rfl⟩
  · exact h.grow hpos

theorem Inv.step {s t : Machine × Process} (h : Inv s.1 s.2) (hs : Step s t) : Inv t.1 t.2 := by
  cases hs with
  | sbrk m proc increment hlo hhi => exact (h.call hlo).inv
  | elsewhere m m' proc he =>
    obtain ⟨hprivate, hiff⟩ := h.owned.elsewhere he
    refine ⟨hprivate, h.top, h.aligned, h.low, h.start_le, h.below, fun p hlo hhi => ?_, h.count⟩
    rw [hiff]
    exact h.pages p hlo hhi

/-- The break, the pages below the stack and the counter are in step. -/
structure Consistent (m : Machine) (proc : Process) : Prop where
  bounds : proc.brkStart ≤ proc.brk ∧ proc.brk < sub32 proc.stackTop (userStackPages * pageSize)
  pages : ∀ p, proc.brkStart ≤ p * pageSize → p * pageSize < sub32 proc.stackTop (userStackPages * pageSize) →
    (present (m.pte proc.pd p) = true ↔ p * pageSize < alignUp proc.brk pageSize)
  count : proc.userPages = userStackPages + (alignUp proc.brk pageSize - proc.brkStart) / pageSize

theorem Inv.consistent (h : Inv m proc) : Consistent m proc := by
  have hfloor : stackFloor = 0x407F0000 := rfl
  have hbelow := h.below
  have haligned := h.aligned
  have halign : alignUp proc.brk pageSize = pagesTo proc.brk * pageSize := alignUp_page (by omega)
  have hsub : sub32 proc.stackTop (userStackPages * pageSize) = stackFloor := by
    rw [h.top]
    exact stackFloor_eq
  refine ⟨⟨h.start_le, by rw [hsub]; exact hbelow⟩, fun p hlo hhi => ?_, ?_⟩
  · rw [hsub] at hhi
    have hlo' : proc.brkStart / pageSize ≤ p := by
      unfold pageSize at *
      omega
    have hhi' : p < stackFloor / pageSize := by
      unfold pageSize at *
      omega
    have hiff := h.pages p hlo' hhi'
    have huser := h.user hlo' hhi'
    rw [halign]
    constructor
    · intro hp
      exact Nat.mul_lt_mul_of_pos_right (hiff.mp ⟨huser, hp⟩) (by decide)
    · intro hp
      exact (hiff.mpr (Nat.lt_of_mul_lt_mul_right hp)).2
  · rw [h.count, halign]
    unfold pageSize at *
    omega

/-- In every state that calls of `proc_sbrk` lead to the break is consistent, and every further call returns the old
break, or 0 to a positive request, which then leaves all as it was. -/
theorem user_break_consistent {m₀ : Machine} {proc₀ : Process} {image : List UInt8} {scratch : Memory} {argc : ℤ}
    {argv : Option (ℕ → Option CString)} (hk : m.Space m.kernelPd) (hs : procSpawnImage m image scratch argc argv = some (m₀, proc₀))
    {s : Machine × Process} (hrun : Reachable (· = (m₀, proc₀)) Step s) (increment : ℤ) (hlo : -2147483648 ≤ increment) :
    Consistent s.1 s.2 ∧ ((procSbrk s.1 s.2 increment).2 = s.2.brk ∨
      0 < increment ∧ (procSbrk s.1 s.2 increment).2 = 0 ∧ (procSbrk s.1 s.2 increment).1.2 = s.2 ∧
        ∀ p < pageCount, (procSbrk s.1 s.2 increment).1.1.view s.2.pd p = s.1.view s.2.pd p) := by
  have hinv : Inv s.1 s.2 := by
    refine hrun.invariant (P := fun s => Inv s.1 s.2) (fun s he => ?_) fun s t h hst => h.step hst
    rw [he]
    exact (procSpawnImage_inv hk hs).1
  exact ⟨hinv.consistent, (hinv.call hlo).result⟩

/-- A break that moves by two pages. -/
theorem user_break_consistent_tiny : ∃ m₀ proc₀, procSpawnImage noTables Elf.tinyImage (fun _ => 0xFF) 0 none = some (m₀, proc₀) ∧
    (procSbrk m₀ proc₀ 5000).1.2 = ⟨2, 0x40001000, 0x40002388, userStackTop, 18⟩ ∧
      Consistent (procSbrk m₀ proc₀ 5000).1.1 (procSbrk m₀ proc₀ 5000).1.2 := by
  have hrun : ((procSpawnImage noTables Elf.tinyImage (fun _ => 0xFF) 0 none).map fun s => (procSbrk s.1 s.2 5000).1.2) =
      some ⟨2, 0x40001000, 0x40002388, userStackTop, 18⟩ := by
    decide +kernel
  obtain ⟨⟨m₀, proc₀⟩, hs, hproc⟩ := Option.map_eq_some_iff.mp hrun
  dsimp only at hproc
  refine ⟨m₀, proc₀, hs, hproc, ?_⟩
  have hstep : Reachable (· = (m₀, proc₀)) Step (procSbrk m₀ proc₀ 5000).1 :=
    .next (.start rfl) (.sbrk m₀ proc₀ 5000 (by decide) (by decide))
  generalize procSbrk m₀ proc₀ 5000 = r at hstep ⊢
  exact (user_break_consistent noTables_space hs hstep (-2147483648) (by decide)).1

end SifarOS.UserBreak
