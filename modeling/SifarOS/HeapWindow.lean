import SifarOS.KernelHeapSizes
import SifarOS.ReachableStates

/-! # The window of the kernel heap

Which pages the heap maps, for calls with arguments of any size and whatever its users write into
memory. `heap_end` is a variable of its own, so only `grow` moves it. -/
namespace SifarOS.HeapWindow
open ByteMemory BlockList KernelHeap KernelHeapSizes ReachableStates

/-- The pages that the loop of `grow` maps, `heap_end` being `top`. -/
def growLoopPages (supply : Supply) : ℕ → ℕ → ℕ → List ℕ
  | 0, _, _ => []
  | pages + 1, i, top => match supply i with
    | none => []
    | some _ => top :: growLoopPages supply pages (i + 1) (u32 (top + pageSize))

def growPages (h : Heap) (bytes : ℕ) (supply : Supply) : List ℕ :=
  let pages := alignUp bytes pageSize / pageSize
  if u32 (heapBase + heapMaxSize) < u32 (h.heapEnd + pages * pageSize) then []
  else growLoopPages supply pages 0 h.heapEnd

def kmallocLoopPages (size : ℕ) (supply : ℕ → Supply) : ℕ → ℕ → Heap → List ℕ
  | 0, _, _ => []
  | attempts + 1, i, h =>
    if (findFit h size).isSome then []
    else
      let extended := extendHeap h size (supply i)
      growPages h (chunk size) (supply i) ++
        if extended.2 then kmallocLoopPages size supply attempts (i + 1) extended.1 else []

def kmallocPages (h : Heap) (size : ℕ) (supply : ℕ → Supply) : List ℕ :=
  if size = 0 then [] else kmallocLoopPages (alignUp size 8) supply 2 0 h

inductive Call
  | kmalloc (size : ℕ)
  | kcalloc (count size : ℕ)
  | krealloc (ptr size : ℕ)
  | kfree (ptr : ℕ)
  /-- Others write to memory. -/
  | store (m : Memory)

/-- What a call asks `kmalloc` for, if it calls it at all. -/
def request (h : Heap) : Call → ℕ
  | .kmalloc size => size
  | .kcalloc count size => u32 (count * size)
  | .krealloc ptr size =>
    if ptr = 0 then size
    else if header.get h.mem (sub32 ptr headerSize) .magic ≠ blockMagic then 0
    else if size ≤ header.get h.mem (sub32 ptr headerSize) .size then 0
    else size
  | .kfree _ | .store _ => 0

def call (h : Heap) (c : Call) (supply : ℕ → Supply) : Option Heap := match c with
  | .kmalloc size => some (kmalloc h size supply).1
  | .kcalloc count size => some (kcalloc h count size supply).1
  | .krealloc ptr size => (krealloc h ptr size supply).map (·.1)
  | .kfree ptr => kfree h ptr
  | .store m => some { h with mem := m }

/-- The heap and every page it has mapped so far. -/
structure Run where
  heap : Heap
  mapped : List ℕ

def step (r : Run) (c : Call) (supply : ℕ → Supply) : Option Run :=
  (call r.heap c supply).map fun h => ⟨h, r.mapped ++ kmallocPages r.heap (request r.heap c) supply⟩

/-- After `kheap_init`. -/
def Booted (r : Run) : Prop :=
  ∃ m supply, kheapInit m supply = some r.heap ∧ r.mapped = growPages ⟨m, 0, heapBase, 0⟩ (64 * 1024) supply

/-- `heap_end` is in the window, at the end of a page. -/
structure Placed (top : ℕ) : Prop where
  low : heapBase ≤ top
  high : top ≤ heapBase + heapMaxSize
  aligned : top % pageSize = 0

/-- A page of the window. -/
def Inside (page : ℕ) : Prop := heapBase ≤ page ∧ page + pageSize ≤ heapBase + heapMaxSize

/-- The heap is in its window, and so is all it has mapped. -/
structure InWindow (r : Run) : Prop where
  top : Placed r.heap.heapEnd
  mapped : ∀ page ∈ r.mapped, Inside page

/-- A call for `n` bytes does not reach over the end of the address space, or is refused one of
the pages up to the end of the window. -/
def Contained (h : Heap) (n : ℕ) (supply : ℕ → Supply) : Prop :=
  n = 0 ∨ (findFit h (alignUp n 8)).isSome = true ∨ h.heapEnd + chunk (alignUp n 8) < 4294967296 ∨
    ∃ i, h.heapEnd + i * pageSize ≤ heapBase + heapMaxSize ∧ supply 0 i = none

variable {h : Heap} {pages i top size n : ℕ} {pagesOf : Supply} {supply : ℕ → Supply}

/-! ## One call of `grow` -/

/-- The number of pages that the loop of `grow` gets. -/
def granted (supply : Supply) : ℕ → ℕ → ℕ
  | 0, _ => 0
  | pages + 1, i => if (supply i).isSome then granted supply pages (i + 1) + 1 else 0

theorem granted_le (supply : Supply) (pages i : ℕ) : granted supply pages i ≤ pages := by
  induction pages generalizing i with
  | zero => exact Nat.le_refl 0
  | succ pages ih =>
    have hle := ih (i + 1)
    unfold granted
    split <;> omega

/-- A page that is refused ends the loop. -/
theorem granted_le_of_none {k : ℕ} (hk : pagesOf (i + k) = none) : granted pagesOf pages i ≤ k := by
  induction pages generalizing i k with
  | zero => exact Nat.zero_le k
  | succ pages ih =>
    unfold granted
    split
    · next hsome =>
      cases k with
      | zero => rw [Nat.add_zero] at hk; rw [hk] at hsome; cases hsome
      | succ k =>
        have hle := ih (i := i + 1) (k := k) (by rwa [Nat.add_right_comm, Nat.add_assoc])
        omega
    · exact Nat.zero_le k

theorem granted_none (hlt : granted pagesOf pages i < pages) : pagesOf (i + granted pagesOf pages i) = none := by
  induction pages generalizing i with
  | zero => exact absurd hlt (Nat.not_lt_zero _)
  | succ pages ih =>
    unfold granted at hlt ⊢
    split at hlt
    · next hsome =>
      rw [if_pos hsome, ← Nat.add_assoc, Nat.add_right_comm]
      exact ih (by omega)
    · next hnone =>
      rw [if_neg hnone, Nat.add_zero]
      simpa using hnone

theorem next_page (top j : ℕ) : u32 (u32 (top + pageSize) + j * pageSize) = u32 (top + (j + 1) * pageSize) := by
  unfold u32
  rw [Nat.mod_add_mod, Nat.add_assoc, Nat.succ_mul, Nat.add_comm pageSize]

theorem growLoop_heapEnd (hlt : h.heapEnd < 4294967296) :
    (growLoop pagesOf pages i h).1.heapEnd = u32 (h.heapEnd + granted pagesOf pages i * pageSize) := by
  induction pages generalizing i h with
  | zero => simp [growLoop, granted, u32, Nat.mod_eq_of_lt hlt]
  | succ pages ih =>
    unfold growLoop granted
    cases hs : pagesOf i with
    | none => simp [u32, Nat.mod_eq_of_lt hlt]
    | some page =>
      simp only [Option.isSome_some, if_true]
      rw [ih (Nat.mod_lt _ (by decide)), next_page]

theorem growLoop_snd : (growLoop pagesOf pages i h).2 = true ↔ granted pagesOf pages i = pages := by
  rw [growLoop_isSome]
  constructor
  · intro hall
    by_contra hne
    have hlt := Nat.lt_of_le_of_ne (granted_le pagesOf pages i) hne
    have hsome := hall _ hlt
    rw [granted_none hlt] at hsome
    cases hsome
  · intro heq j hj
    rw [← Option.ne_none_iff_isSome]
    intro hnone
    have hle : granted pagesOf pages i ≤ j := granted_le_of_none hnone
    omega

theorem mem_growLoopPages {page : ℕ} (hlt : top < 4294967296) :
    page ∈ growLoopPages pagesOf pages i top ↔ ∃ j < granted pagesOf pages i, page = u32 (top + j * pageSize) := by
  induction pages generalizing i top with
  | zero => simp [growLoopPages, granted]
  | succ pages ih =>
    unfold growLoopPages granted
    cases hs : pagesOf i with
    | none => simp
    | some content =>
      simp only [Option.isSome_some, if_true, List.mem_cons]
      rw [@ih (i + 1) (u32 (top + pageSize)) (Nat.mod_lt _ (by decide))]
      constructor
      · rintro (rfl | ⟨j, hj, rfl⟩)
        · exact ⟨0, Nat.succ_pos _, by rw [Nat.zero_mul, Nat.add_zero, u32_of_lt hlt]⟩
        · exact ⟨j + 1, Nat.succ_lt_succ hj, next_page top j⟩
      · rintro ⟨j, hj, rfl⟩
        cases j with
        | zero => exact Or.inl (by rw [Nat.zero_mul, Nat.add_zero, u32_of_lt hlt])
        | succ j => exact Or.inr ⟨j, Nat.lt_of_succ_lt_succ hj, (next_page top j).symm⟩

theorem growPages_eq (h : Heap) (hpages : pages ≤ 1048560) :
    growPages h (pages * pageSize) pagesOf =
      if heapBase + heapMaxSize < u32 (h.heapEnd + pages * pageSize) then []
      else growLoopPages pagesOf pages 0 h.heapEnd := by
  have hdiv : alignUp (pages * pageSize) pageSize / pageSize = pages := by
    simp only [alignUp, u32, pageSize]
    omega
  have hlimit : u32 (heapBase + heapMaxSize) = heapBase + heapMaxSize := rfl
  unfold growPages
  simp only [hdiv, hlimit]

/-- The sum does not wrap, or a page of the window is refused. -/
def Bounded (h : Heap) (pages : ℕ) (pagesOf : Supply) : Prop :=
  h.heapEnd + pages * pageSize < 4294967296 ∨ ∃ k, h.heapEnd + k * pageSize ≤ heapBase + heapMaxSize ∧ pagesOf k = none

/-- All that is granted lies in the window. -/
theorem Bounded.granted_le (hb : Bounded h pages pagesOf)
    (hguard : ¬heapBase + heapMaxSize < u32 (h.heapEnd + pages * pageSize)) :
    h.heapEnd + granted pagesOf pages 0 * pageSize ≤ heapBase + heapMaxSize := by
  rcases hb with hlt | ⟨k, hk, hnone⟩
  · have hle := Nat.mul_le_mul_right pageSize (HeapWindow.granted_le pagesOf pages 0)
    rw [u32_of_lt hlt] at hguard
    omega
  · have hgranted : granted pagesOf pages 0 ≤ k := granted_le_of_none (by rwa [Nat.zero_add])
    have hle := Nat.mul_le_mul_right pageSize hgranted
    omega

theorem Bounded.grow (hb : Bounded h pages pagesOf) (hp : Placed h.heapEnd) (hpages : pages ≤ 1048560) :
    Placed (KernelHeap.grow h (pages * pageSize) pagesOf).1.heapEnd ∧
      (∀ page ∈ growPages h (pages * pageSize) pagesOf, Inside page) ∧
      ((KernelHeap.grow h (pages * pageSize) pagesOf).2 = true →
        h.heapEnd + pages * pageSize ≤ heapBase + heapMaxSize) := by
  have hbase : heapBase = 3489660928 := rfl
  have hmax : heapMaxSize = 67108864 := rfl
  obtain ⟨hlow, hhigh, haligned⟩ := hp
  have hlt : h.heapEnd < 4294967296 := by omega
  rw [grow_pages h hpages, growPages_eq h hpages]
  split
  · exact ⟨⟨hlow, hhigh, haligned⟩, fun page hpage => absurd hpage List.not_mem_nil, fun hf => nomatch hf⟩
  · next hguard =>
    have hle := hb.granted_le hguard
    rw [growLoop_heapEnd hlt, growLoop_snd, u32_of_lt (by omega)]
    refine ⟨⟨by omega, hle, by rw [Nat.add_mul_mod_self_right]; exact haligned⟩, fun page hpage => ?_, fun hall => ?_⟩
    · obtain ⟨j, hj, rfl⟩ := (mem_growLoopPages hlt).mp hpage
      have hnext := Nat.mul_le_mul_right pageSize (Nat.succ_le_of_lt hj)
      rw [Nat.succ_mul] at hnext
      rw [u32_of_lt (by omega)]
      exact ⟨by omega, by omega⟩
    · rwa [hall] at hle

/-- With the sum wrapped and the window's pages granted, the page behind the window is mapped too. -/
theorem grow_escapes (hp : Placed h.heapEnd) (hpages : pages ≤ 1048560) (hb : ¬Bounded h pages pagesOf) :
    ∃ page ∈ growPages h (pages * pageSize) pagesOf, ¬Inside page := by
  have hbase : heapBase = 3489660928 := rfl
  have hmax : heapMaxSize = 67108864 := rfl
  obtain ⟨hlow, hhigh, haligned⟩ := hp
  obtain ⟨hwrap, hall⟩ := not_or.mp hb
  have hroom : h.heapEnd + (heapBase + heapMaxSize - h.heapEnd) / pageSize * pageSize = heapBase + heapMaxSize := by
    unfold pageSize at *
    omega
  have hguard : ¬heapBase + heapMaxSize < u32 (h.heapEnd + pages * pageSize) := by
    unfold u32 pageSize at *
    omega
  have hgranted : (heapBase + heapMaxSize - h.heapEnd) / pageSize < granted pagesOf pages 0 := by
    by_contra hge
    have hle := Nat.mul_le_mul_right pageSize (Nat.le_of_not_lt hge)
    refine hall ⟨granted pagesOf pages 0, by omega, ?_⟩
    rw [← Nat.zero_add (granted pagesOf pages 0)]
    refine granted_none ?_
    unfold pageSize at *
    omega
  rw [growPages_eq h hpages, if_neg hguard]
  refine ⟨_, (mem_growLoopPages (by omega)).mpr ⟨_, hgranted, rfl⟩, fun hin => ?_⟩
  rw [hroom, u32_of_lt (by omega)] at hin
  have hsecond := hin.2
  unfold pageSize at hsecond
  omega

/-! ## One call of the allocator -/

/-- Bounded as its first extension is, the search of `kmalloc` stays in the window: a second
extension comes after a first one that was granted, and then the sum is small. -/
theorem kmallocLoop_inside (attempts i : ℕ) (hp : Placed h.heapEnd)
    (hb : h.heapEnd + chunk size < 4294967296 ∨
      ∃ k, h.heapEnd + k * pageSize ≤ heapBase + heapMaxSize ∧ supply i k = none) :
    Placed (kmallocLoop size supply attempts i h).1.heapEnd ∧
      ∀ page ∈ kmallocLoopPages size supply attempts i h, Inside page := by
  induction attempts generalizing i h with
  | zero => exact ⟨hp, fun page hpage => absurd hpage List.not_mem_nil⟩
  | succ attempts ih =>
    rw [kmallocLoop, kmallocLoopPages]
    cases hf : findFit h size with
    | some b => exact ⟨hp, fun page hpage => absurd hpage List.not_mem_nil⟩
    | none =>
      obtain ⟨pages, hchunk, hpages⟩ := chunk_pages size
      obtain ⟨hend, hsnd, -⟩ := extendHeap_grow h size (supply i)
      rw [hchunk] at hb hend hsnd
      obtain ⟨hplaced, hinside, hsmall⟩ := Bounded.grow hb hp hpages
      rw [← hend] at hplaced
      rw [← hsnd] at hsmall
      generalize extendHeap h size (supply i) = extended at hplaced hsmall
      obtain ⟨h₁, ok⟩ := extended
      simp only [Option.isSome_none, Bool.false_eq_true, if_false, List.mem_append, hchunk]
      cases ok with
      | false => exact ⟨hplaced, fun page hpage => hinside page (hpage.resolve_right List.not_mem_nil)⟩
      | true =>
        have hsum := hsmall rfl
        have hhigh := hplaced.high
        have hlow := hp.low
        have hbase : heapBase = 3489660928 := rfl
        have hmax : heapMaxSize = 67108864 := rfl
        obtain ⟨hrest, hmapped⟩ := ih (i := i + 1) hplaced (Or.inl (by rw [hchunk]; omega))
        exact ⟨hrest, fun page hpage => hpage.elim (hinside page) (hmapped page)⟩

/-- A request keeps the heap in its window exactly if it is contained. -/
theorem kmalloc_inside_iff (hp : Placed h.heapEnd) :
    (Placed (kmalloc h n supply).1.heapEnd ∧ ∀ page ∈ kmallocPages h n supply, Inside page) ↔ Contained h n supply := by
  unfold kmalloc kmallocPages Contained
  split
  · next hzero => exact iff_of_true ⟨hp, fun page hpage => absurd hpage List.not_mem_nil⟩ (Or.inl hzero)
  · next hzero =>
    rw [or_iff_right hzero]
    cases hf : findFit h (alignUp n 8) with
    | some b =>
      rw [kmallocLoop, kmallocLoopPages, hf]
      exact iff_of_true ⟨hp, fun page hpage => absurd hpage List.not_mem_nil⟩ (Or.inl rfl)
    | none =>
      simp only [Option.isSome_none, Bool.false_eq_true, false_or]
      constructor
      · rintro ⟨-, hmapped⟩
        by_contra hb
        obtain ⟨pages, hchunk, hpages⟩ := chunk_pages (alignUp n 8)
        rw [hchunk] at hb
        obtain ⟨page, hpage, hout⟩ := grow_escapes hp hpages hb
        refine hout (hmapped page ?_)
        rw [kmallocLoopPages, hf, hchunk]
        exact List.mem_append_left _ hpage
      · exact kmallocLoop_inside 2 0 hp

theorem kfree_heapEnd {h' : Heap} {ptr : ℕ} (hf : kfree h ptr = some h') : h'.heapEnd = h.heapEnd := by
  unfold kfree at hf
  split at hf
  · rw [Option.some.inj hf]
  · dsimp only at hf
    split at hf
    · cases hf
    · split at hf
      · cases hf
      · rw [← Option.some.inj hf]

/-- A call moves `heap_end` as far as the request it makes. -/
theorem call_heapEnd {h' : Heap} {c : Call} (hc : call h c supply = some h') :
    h'.heapEnd = (kmalloc h (request h c) supply).1.heapEnd := by
  cases c with
  | kmalloc size => rw [← Option.some.inj hc]; rfl
  | kcalloc count size =>
    rw [← Option.some.inj hc]
    unfold kcalloc
    dsimp only
    split <;> rfl
  | krealloc ptr size =>
    obtain ⟨r, hr, rfl⟩ := Option.map_eq_some_iff.mp hc
    unfold krealloc at hr
    dsimp only [request]
    split at hr
    · next hnull => rw [if_pos hnull, ← Option.some.inj hr]
    · next hnull =>
      rw [if_neg hnull]
      split at hr
      · next hsize =>
        obtain ⟨h₁, hfree, rfl⟩ := Option.map_eq_some_iff.mp hr
        rw [kfree_heapEnd hfree, hsize]
        simp [kmalloc]
      · next hsize =>
        dsimp only at hr
        split at hr
        · cases hr
        · next hmagic =>
          rw [if_neg hmagic]
          split at hr
          · next hle => rw [if_pos hle, ← Option.some.inj hr]; rfl
          · next hle =>
            rw [if_neg hle]
            split at hr
            · rw [← Option.some.inj hr]
            · obtain ⟨h₁, hfree, rfl⟩ := Option.map_eq_some_iff.mp hr
              rw [kfree_heapEnd hfree]
  | kfree ptr => rw [kfree_heapEnd hc]; rfl
  | store m => rw [← Option.some.inj hc]; rfl

/-! ## Runs -/

variable {r r' : Run} {c : Call}

theorem InWindow.step_iff (hw : InWindow r) (hs : step r c supply = some r') :
    InWindow r' ↔ Contained r.heap (request r.heap c) supply := by
  obtain ⟨h', hc, rfl⟩ := Option.map_eq_some_iff.mp hs
  rw [← kmalloc_inside_iff hw.top, ← call_heapEnd hc]
  constructor
  · intro hw'
    exact ⟨hw'.top, fun page hpage => hw'.mapped page (List.mem_append_right _ hpage)⟩
  · rintro ⟨htop, hmapped⟩
    exact ⟨htop, fun page hpage => (List.mem_append.mp hpage).elim (hw.mapped page) (hmapped page)⟩

theorem Booted.inWindow (hb : Booted r) : InWindow r := by
  obtain ⟨m, pagesOf, hinit, hmapped⟩ := hb
  have hplaced : Placed heapBase := ⟨by decide, by decide, by decide⟩
  have hbounded : Bounded ⟨m, 0, heapBase, 0⟩ 16 pagesOf := Or.inl (by show heapBase + 16 * pageSize < 4294967296; decide)
  obtain ⟨htop, hinside, -⟩ := hbounded.grow hplaced (by omega)
  rw [show 16 * pageSize = 64 * 1024 by decide] at htop hinside
  refine ⟨?_, fun page hpage => hinside page (by rwa [hmapped] at hpage)⟩
  unfold kheapInit at hinit
  dsimp only at hinit
  generalize grow { mem := m, firstBlock := 0, heapEnd := heapBase, heapBytes := 0 } (64 * 1024) pagesOf = grown
    at hinit htop
  split at hinit
  · rw [← Option.some.inj hinit]
    exact htop
  · cases hinit

/-- A step whose request is contained. -/
def ContainedStep (r r' : Run) : Prop :=
  ∃ c supply, Contained r.heap (request r.heap c) supply ∧ step r c supply = some r'

/-- The heap stays in its window as long as every request is contained, and the first one that is
not takes it outside. -/
theorem heap_in_window (hr : Reachable Booted ContainedStep r) :
    InWindow r ∧ ∀ c supply r', step r c supply = some r' → (InWindow r' ↔ Contained r.heap (request r.heap c) supply) := by
  have hw : InWindow r := by
    refine hr.invariant (fun _ hb => hb.inWindow) ?_
    rintro s t hs ⟨c, supply, hc, hstep⟩
    exact (hs.step_iff hstep).mpr hc
  exact ⟨hw, fun c supply r' hstep => hw.step_iff hstep⟩

theorem step_kmalloc (r : Run) (n : ℕ) (supply : ℕ → Supply) : step r (.kmalloc n) supply =
    some ⟨(kmalloc r.heap n supply).1, r.mapped ++ kmallocPages r.heap n supply⟩ := rfl

/-- The run that `kheap_init` begins. -/
def atBoot : Run := ⟨bootHeap, growPages ⟨fun _ => 0, 0, heapBase, 0⟩ (64 * 1024) initialPages⟩

theorem booted_atBoot : Booted atBoot := ⟨_, _, bootHeap_init, rfl⟩

theorem bootHeap_heapEnd : bootHeap.heapEnd = 0xD0010000 := by decide

theorem heap_in_window_small : ∃ r, Reachable Booted ContainedStep r ∧
    InWindow r ∧ ∀ c supply r', step r c supply = some r' → (InWindow r' ↔ Contained r.heap (request r.heap c) supply) := by
  have hstart : Reachable Booted ContainedStep atBoot := .start booted_atBoot
  have hsmall : Contained atBoot.heap 100 fun _ => initialPages := by
    refine Or.inr (Or.inr (Or.inl ?_))
    rw [show atBoot.heap.heapEnd = 0xD0010000 from bootHeap_heapEnd]
    decide
  have hreach := hstart.next ⟨.kmalloc 100, fun _ => initialPages, hsmall, step_kmalloc atBoot 100 _⟩
  exact ⟨_, hreach, heap_in_window hreach⟩

/-- The free frames of a machine with 512 MiB. -/
def plentyOfFrames : Supply := fun i => if i < 100000 then some fun _ => 0 else none

theorem plentyOfFrames_isSome {i : ℕ} (hi : i < 100000) : plentyOfFrames i ≠ none := by
  simp [plentyOfFrames, hi]

theorem bootHeap_findFit : findFit bootHeap (alignUp 0x30000000 8) = none := by
  obtain ⟨bs, hi, -⟩ := KernelHeapSafety.kheapInit_inv bootHeap_init
  have hlarge : heapMaxSize < alignUp 0x30000000 8 := by decide
  have hnone := mt (Listed.of_shape hi.toShape).findFit_isSome.mp (no_fit hi hlarge)
  simpa using hnone

/-- A request for 768 MiB maps the pages behind the window, up to those of the framebuffer. -/
theorem heap_leaves_window : ∃ r, Reachable Booted (fun r r' => ∃ c supply, step r c supply = some r') r ∧
    0xE0000000 ∈ r.mapped ∧ ¬InWindow r := by
  have hstart : Reachable Booted (fun r r' => ∃ c supply, step r c supply = some r') atBoot := .start booted_atBoot
  refine ⟨_, hstart.next ⟨.kmalloc 0x30000000, fun _ => plentyOfFrames, step_kmalloc atBoot 0x30000000 _⟩, ?_, fun hw => ?_⟩
  · have hfit := bootHeap_findFit
    have hchunk : chunk (alignUp 0x30000000 8) = 196624 * pageSize := by decide
    have hguard : ¬heapBase + heapMaxSize < u32 (bootHeap.heapEnd + 196624 * pageSize) := by
      rw [bootHeap_heapEnd]
      decide
    have hgranted : 65520 < granted plentyOfFrames 196624 0 := by
      by_contra hge
      have hlt : granted plentyOfFrames 196624 0 < 196624 := by omega
      have hnone := granted_none hlt
      exact plentyOfFrames_isSome (by omega) hnone
    refine List.mem_append_right _ ?_
    rw [show atBoot.heap = bootHeap from rfl, kmallocPages, if_neg (by decide), kmallocLoopPages, hfit, hchunk,
      if_neg (by decide), growPages_eq bootHeap (by omega), if_neg hguard]
    refine List.mem_append_left _ ((mem_growLoopPages (by rw [bootHeap_heapEnd]; decide)).mpr ⟨65520, hgranted, ?_⟩)
    rw [bootHeap_heapEnd]
    decide
  · have hcontained := (booted_atBoot.inWindow.step_iff (step_kmalloc atBoot 0x30000000 _)).mp hw
    rcases hcontained with hzero | hfit | hsum | ⟨i, hi, hnone⟩
    · exact absurd hzero (by decide)
    · rw [show request atBoot.heap (.kmalloc 0x30000000) = 0x30000000 from rfl,
        show findFit atBoot.heap (alignUp 0x30000000 8) = none from bootHeap_findFit] at hfit
      cases hfit
    · rw [show atBoot.heap.heapEnd = 0xD0010000 from bootHeap_heapEnd] at hsum
      exact absurd hsum (by decide)
    · rw [show atBoot.heap.heapEnd = 0xD0010000 from bootHeap_heapEnd] at hi
      refine plentyOfFrames_isSome ?_ hnone
      unfold heapBase heapMaxSize pageSize at hi
      omega

end SifarOS.HeapWindow
