import SifarOS.KernelHeapSafety

/-! # How large the kernel's blocks are

`kmalloc`, `kcalloc` and `krealloc` for all sizes of 32 bits. A size is rounded up, and a product is
taken, before anything is compared with the heap. -/
namespace SifarOS.KernelHeapSizes
open ByteMemory BlockList KernelHeap KernelHeapSafety

variable {h h' : Heap} {bs bs' pre post : List Block} {b d last : Block} {m m' : Memory}
  {n p size pages i k count before lo hi : ℕ} {supply : ℕ → Supply} {pagesOf : Supply}

/-- No machine has more than 262143 frames to give. -/
def Supplied (supply : ℕ → Supply) : Prop := ∀ attempt, ∃ i < 262144, supply attempt i = none

/-- What `extend_heap` asks `grow` for. -/
def chunk (size : ℕ) : ℕ := alignUp (u32 (size + headerSize)) (64 * 1024)

/-- `grow` passes its check and gets every page. -/
def CanGrow (h : Heap) (bytes : ℕ) (supply : Supply) : Prop :=
  u32 (h.heapEnd + bytes) ≤ heapBase + heapMaxSize ∧ ∀ i < bytes / pageSize, (supply i).isSome = true

/-- The heap can be extended, and then has a block that counts as large enough. -/
structure Room (h : Heap) (bs : List Block) (size : ℕ) (supply : Supply) : Prop where
  grows : CanGrow h (chunk size) supply
  sum : size + headerSize < 4294967296
  last : chunk size = 0 → ∃ b ∈ bs.getLast?, b.free = false

/-- A request for `n` bytes that gets a block, large enough or not. -/
def Answered (h : Heap) (bs : List Block) (n : ℕ) (supply : ℕ → Supply) : Prop :=
  n ≠ 0 ∧ ((∃ b ∈ bs, b.free = true ∧ alignUp n 8 ≤ b.size) ∨ Room h bs (alignUp n 8) (supply 0))

/-! ## Growing without bounds -/

theorem growLoop_isSome (h : Heap) : (growLoop pagesOf pages i h).2 = true ↔ ∀ j < pages, (pagesOf (i + j)).isSome = true := by
  induction pages generalizing i h with
  | zero => simp [growLoop]
  | succ pages ih =>
    unfold growLoop
    split
    · next hnone =>
      refine iff_of_false (by simp) fun hall => ?_
      have hzero := hall 0 (Nat.succ_pos pages)
      rw [Nat.add_zero, hnone] at hzero
      cases hzero
    · next page hsome =>
      rw [ih]
      constructor
      · intro hall j hj
        cases j with
        | zero => rw [Nat.add_zero, hsome]; rfl
        | succ j =>
          have hnext := hall j (by omega)
          rwa [show i + 1 + j = i + (j + 1) by omega] at hnext
      · intro hall j hj
        have hnext := hall (j + 1) (by omega)
        rwa [show i + (j + 1) = i + 1 + j by omega] at hnext

theorem grow_pages (h : Heap) (hpages : pages ≤ 1048560) :
    grow h (pages * pageSize) pagesOf =
      if heapBase + heapMaxSize < u32 (h.heapEnd + pages * pageSize) then (h, false) else growLoop pagesOf pages 0 h := by
  have hdiv : alignUp (pages * pageSize) pageSize / pageSize = pages := by
    simp only [alignUp, u32, pageSize]
    omega
  have hlimit : u32 (heapBase + heapMaxSize) = heapBase + heapMaxSize := rfl
  unfold grow
  simp only [hdiv, hlimit]

theorem grow_iff (pagesOf : Supply) (h : Heap) (hpages : pages ≤ 1048560) :
    (grow h (pages * pageSize) pagesOf).2 = true ↔ CanGrow h (pages * pageSize) pagesOf := by
  have hdiv : pages * pageSize / pageSize = pages := Nat.mul_div_cancel _ (by decide)
  unfold CanGrow
  rw [grow_pages h hpages, hdiv]
  split
  · exact iff_of_false (by simp) (by omega)
  · rw [growLoop_isSome]
    simp only [Nat.zero_add]
    exact (and_iff_right (by omega)).symm

theorem chunk_pages (size : ℕ) : ∃ pages, chunk size = pages * pageSize ∧ pages ≤ 1048560 := by
  refine ⟨u32 (u32 (size + headerSize) + 65535) / 65536 * 16, ?_, ?_⟩
  · simp only [chunk, alignUp, pageSize, Nat.reduceMul, Nat.reduceSub]
    omega
  · unfold u32
    omega

/-- What a loop that may run beyond the heap's window keeps. -/
structure Spared (h h' : Heap) (stop : ℕ) : Prop where
  first : h'.firstBlock = h.firstBlock
  bytes : h.heapBytes ≤ h'.heapBytes
  mem : SameOn h.mem h'.mem heapBase (stop - heapBase)

/-- Addresses wrap long before so many pages reach the heap again. -/
theorem growLoop_spared {start : ℕ} (hstart : heapBase ≤ start ∧ start ≤ heapBase + heapMaxSize) (hend : h.heapEnd = u32 (start + i * pageSize))
    (hbytes : h.heapBytes ≤ heapMaxSize + i * pageSize) (hstop : ∃ k < 262144, i ≤ k ∧ (i + pages ≤ k ∨ pagesOf k = none)) :
    Spared h (growLoop pagesOf pages i h).1 start ∧
      ((growLoop pagesOf pages i h).2 = true → (growLoop pagesOf pages i h).1.heapEnd = u32 (start + (i + pages) * pageSize)) := by
  induction pages generalizing i h with
  | zero => exact ⟨⟨rfl, Nat.le_refl _, SameOn.refl _ _ _⟩, fun _ => hend⟩
  | succ pages ih =>
    have hbase : heapBase = 3489660928 := rfl
    have hmax : heapMaxSize = 67108864 := rfl
    obtain ⟨k, hk, hik, hcase⟩ := hstop
    unfold growLoop
    split
    · exact ⟨⟨rfl, Nat.le_refl _, SameOn.refl _ _ _⟩, fun hc => by cases hc⟩
    · next page hsome =>
      have hlt : i < k := by
        rcases hcase with hle | hnone
        · omega
        · refine Nat.lt_of_le_of_ne hik ?_
          rintro rfl
          rw [hsome] at hnone
          cases hnone
      have hnext : u32 (h.heapEnd + pageSize) = u32 (start + (i + 1) * pageSize) := by
        rw [hend]
        unfold u32 pageSize
        omega
      have hsum : u32 (h.heapBytes + pageSize) = h.heapBytes + pageSize := by
        apply u32_of_lt
        unfold pageSize at *
        omega
      obtain ⟨⟨hfirst, hle, hmem⟩, hdone⟩ := ih (i := i + 1)
        (h := { h with mem := fill h.mem h.heapEnd pageSize page, heapEnd := u32 (h.heapEnd + pageSize), heapBytes := u32 (h.heapBytes + pageSize) })
        hnext (by dsimp only; rw [hsum, Nat.succ_mul]; omega) ⟨k, hk, hlt, by rwa [Nat.add_right_comm]⟩
      have hone : SameOn h.mem (fill h.mem h.heapEnd pageSize page) heapBase (start - heapBase) := by
        apply fill_sameOn
        rw [hend]
        unfold u32 pageSize at *
        omega
      refine ⟨⟨hfirst, ?_, hone.trans hmem⟩, fun ht => ?_⟩
      · dsimp only at hle
        omega
      · rw [hdone ht, Nat.add_right_comm]
        rfl

/-! ## The list that a search walks -/

/-- The heap's list is `bs`, whatever lies behind the window. -/
structure Listed (h : Heap) (bs : List Block) : Prop where
  first : h.firstBlock = headAddr bs 0
  linked : Linked HeaderAt h.mem 0 bs 0
  placed : ∃ hi, Placed heapBase bs hi
  low : ∀ b ∈ bs, b.addr ≤ heapBase + heapMaxSize
  fuel : bs.length ≤ h.heapBytes

theorem Listed.of_shape (hs : Shape h bs) : Listed h bs := by
  have hlength := hs.placed.length_le
  refine ⟨hs.first, hs.linked, ⟨_, hs.placed⟩, fun b hb => ?_, ?_⟩
  · have hstop := (hs.placed.mem hb).2
    have hend := hs.end_le
    unfold Block.stop at hstop
    omega
  · rw [hs.bytes]
    unfold headerSize at hlength
    omega

theorem Listed.blocks (hl : Listed h bs) : h.blocks = bs.map Block.addr := by
  obtain ⟨hi, hplaced⟩ := hl.placed
  unfold Heap.blocks
  rw [hl.first]
  exact hl.linked.walk (fun _ _ _ h => h.next) hplaced (by decide) hl.fuel

theorem Listed.headerAt (hl : Listed h bs) (hb : b ∈ bs) : ∃ p q, HeaderAt h.mem b p q := by
  obtain ⟨pre, post, rfl⟩ := List.append_of_mem hb
  exact ⟨_, _, (linked_focus.mp hl.linked).2.1⟩

/-- A search succeeds when the list has a free block that is large enough. -/
theorem Listed.findFit_isSome (hl : Listed h bs) : (findFit h size).isSome = true ↔ ∃ b ∈ bs, b.free = true ∧ size ≤ b.size := by
  unfold findFit
  rw [hl.blocks, List.find?_isSome]
  constructor
  · rintro ⟨a, ha, hfit⟩
    obtain ⟨b, hb, rfl⟩ := List.mem_map.mp ha
    obtain ⟨p, q, hhead⟩ := hl.headerAt hb
    rw [decide_eq_true_eq, hhead.free_iff, hhead.size] at hfit
    exact ⟨b, hb, hfit⟩
  · rintro ⟨b, hb, hfit⟩
    obtain ⟨p, q, hhead⟩ := hl.headerAt hb
    refine ⟨b.addr, List.mem_map_of_mem hb, ?_⟩
    rw [decide_eq_true_eq, hhead.free_iff, hhead.size]
    exact hfit

theorem Listed.payload_ne_zero (hl : Listed h bs) {a : ℕ} (hf : findFit h size = some a) : u32 (a + headerSize) ≠ 0 := by
  have hbase : heapBase = 3489660928 := rfl
  have hmax : heapMaxSize = 67108864 := rfl
  obtain ⟨hi, hplaced⟩ := hl.placed
  have hmem := List.mem_of_find?_eq_some hf
  rw [hl.blocks] at hmem
  obtain ⟨b, hb, rfl⟩ := List.mem_map.mp hmem
  have hlow := hl.low b hb
  have hhigh := (hplaced.mem hb).1
  unfold u32 headerSize
  omega

/-- A turn of `kmalloc` that finds a block. -/
theorem Listed.kmallocLoop_fit (supply : ℕ → Supply) (attempts i : ℕ) (hl : Listed h bs) (hfit : ∃ b ∈ bs, b.free = true ∧ size ≤ b.size) :
    (kmallocLoop size supply (attempts + 1) i h).2 ≠ 0 := by
  obtain ⟨a, ha⟩ := Option.isSome_iff_exists.mp (hl.findFit_isSome.mpr hfit)
  rw [kmallocLoop]
  rw [ha]
  exact hl.payload_ne_zero ha

/-- A turn of `kmalloc` that finds none. -/
theorem Listed.kmallocLoop_extend {attempts : ℕ} (hl : Listed h bs) (hfit : ¬∃ b ∈ bs, b.free = true ∧ size ≤ b.size) :
    kmallocLoop size supply (attempts + 1) i h =
      if (extendHeap h size (supply i)).2 = true then kmallocLoop size supply attempts (i + 1) (extendHeap h size (supply i)).1
      else ((extendHeap h size (supply i)).1, 0) := by
  have hnone : findFit h size = none := by
    rw [← Option.not_isSome_iff_eq_none, hl.findFit_isSome]
    exact hfit
  rw [kmallocLoop, hnone]

/-! ## Sizes that the window could hold -/

theorem extendHeap_snd (hi : Inv h bs) (hchunk : chunk size = pages * pageSize) (hpages : pages ≤ 32768)
    (hroom : 1 ≤ pages) (pagesOf : Supply) : (extendHeap h size pagesOf).2 = true ↔ CanGrow h (chunk size) pagesOf := by
  obtain ⟨pre, last, rfl⟩ := hi.concat
  obtain ⟨hsnd, -⟩ := hi.extendChunk hchunk hpages (Or.inr hroom) pagesOf
  rw [hsnd, grow_iff pagesOf h (by omega), hchunk]

theorem kmallocLoop_small (hi : Inv h bs) (hsize : size ≤ 67108872) :
    (kmallocLoop size supply 2 0 h).2 ≠ 0 ↔
      (∃ b ∈ bs, b.free = true ∧ size ≤ b.size) ∨ CanGrow h (chunk size) (supply 0) := by
  have hl := Listed.of_shape hi.toShape
  obtain ⟨pages, hchunk, hpages, hbig⟩ := alignUp_chunk hsize
  have hone : 1 ≤ pages := by
    unfold headerSize pageSize at hbig
    omega
  by_cases hfit : ∃ b ∈ bs, b.free = true ∧ size ≤ b.size
  · exact iff_of_true (hl.kmallocLoop_fit supply 1 0 hfit) (Or.inl hfit)
  · have hgrow := extendHeap_snd hi hchunk hpages hone (supply 0)
    obtain ⟨bs', hi', -, -, hfound⟩ := hi.extendHeap hsize (supply 0)
    rw [hl.kmallocLoop_extend hfit, or_iff_right hfit, ← hgrow]
    split
    · next htrue => exact iff_of_true ((Listed.of_shape hi'.toShape).kmallocLoop_fit supply 0 1 (hfound htrue)) htrue
    · next hfalse => exact iff_of_false (not_not_intro rfl) hfalse

/-! ## Sizes that it could not -/

theorem no_fit (hi : Inv h bs) (hsize : heapMaxSize < size) : ¬∃ b ∈ bs, b.free = true ∧ size ≤ b.size := by
  rintro ⟨b, hb, -, hle⟩
  obtain ⟨hlow, hhigh⟩ := hi.placed.mem hb
  have hend := hi.end_le
  unfold Block.stop at hhigh
  omega

/-- The old block is in the list and has its bytes. -/
def Unharmed (h h' : Heap) (b : Block) : Prop :=
  (∃ bs, Listed h' bs ∧ b ∈ bs) ∧ SameOn h.mem h'.mem b.payload b.size

theorem unharmed (hi' : Inv h' bs') {own : ℕ} (hk : Keeps h.mem h'.mem bs bs' own) (hb : b ∈ bs)
    (hused : b.free = false) (hown : b.addr ≠ own) : Unharmed h h' b := by
  obtain ⟨hb', hsame⟩ := hk b hb hused hown
  exact ⟨⟨bs', Listed.of_shape hi'.toShape, hb'⟩, hsame⟩

theorem Spared.listed (hs : Spared h h' h.heapEnd) (hi : Inv h bs) : Listed h' bs := by
  have hl := Listed.of_shape hi.toShape
  refine ⟨hs.first.trans hl.first, hl.linked.frame hi.placed hs.mem, hl.placed, hl.low, ?_⟩
  have hfuel := hl.fuel
  have hbytes := hs.bytes
  omega

theorem grow_spared (hi : Inv h bs) (hpages : pages ≤ 1048560) (hsupply : ∃ k < 262144, pagesOf k = none) :
    Spared h (grow h (pages * pageSize) pagesOf).1 h.heapEnd ∧
      ((grow h (pages * pageSize) pagesOf).2 = true → pages < 262144 ∧
        (grow h (pages * pageSize) pagesOf).1.heapEnd = u32 (h.heapEnd + pages * pageSize)) := by
  have hend := hi.end_le
  have hle := hi.placed.le
  have hbytes := hi.bytes
  obtain ⟨k, hk, hnone⟩ := hsupply
  have hstart : h.heapEnd = u32 (h.heapEnd + 0 * pageSize) := by
    rw [Nat.zero_mul, Nat.add_zero]
    have hmax : heapBase + heapMaxSize < 4294967296 := by decide
    exact (u32_of_lt (by omega)).symm
  rw [grow_pages h hpages]
  split
  · exact ⟨⟨rfl, Nat.le_refl _, SameOn.refl _ _ _⟩, fun hc => by cases hc⟩
  · obtain ⟨hs, hdone⟩ := growLoop_spared (i := 0) ⟨hle, hend⟩ hstart
      (by rw [hbytes]; omega) ⟨k, hk, Nat.zero_le k, Or.inr hnone⟩
    refine ⟨hs, fun ht => ⟨?_, ?_⟩⟩
    · by_contra hmany
      have hall := (growLoop_isSome h).mp ht k (by omega)
      rw [Nat.zero_add, hnone] at hall
      cases hall
    · rw [hdone ht, Nat.zero_add]

/-- A new block is linked behind the last one. -/
theorem Listed.append {r : ℕ} (hl : Listed h (pre ++ [b])) (hplaced : Placed heapBase (pre ++ [b]) r) (hr : r ≤ heapBase + heapMaxSize)
    (hsize : size < 4294967296) (hfuel : (pre ++ [b]).length < h.heapBytes) :
    Listed { h with mem := header.set (newHeader h.mem r size 0 b.addr) b.addr .next r }
      (pre ++ [b, ⟨r, size, true⟩]) := by
  have hmax : heapBase + heapMaxSize < 4294967296 := by decide
  obtain ⟨hpre, hb⟩ := placed_focus.mp hplaced
  obtain ⟨hlpre, hhead, -⟩ := linked_focus.mp hl.linked
  have hstop : b.stop ≤ r := hb
  have hoff : b.addr + headerSize ≤ r := by
    unfold Block.stop at hstop
    omega
  have hnew : ∀ f, header.get (newHeader h.mem r size 0 b.addr) b.addr f = header.get h.mem b.addr f := fun f =>
    header.get_congr (newHeader_sameOn _ _ _ _ (Or.inl hoff)) f
  have hbefore : ∀ {x k : ℕ}, x + k ≤ b.addr →
      SameOn h.mem (header.set (newHeader h.mem r size 0 b.addr) b.addr .next r) x k := by
    intro x k hx
    exact (newHeader_sameOn _ _ _ _ (Or.inl (by omega))).trans (header.set_sameOn _ _ _ (Or.inl hx))
  refine ⟨?_, ?_, ⟨r + headerSize + size, ?_⟩, fun c hc => ?_, ?_⟩
  · have hfirst := hl.first
    cases pre <;> exact hfirst
  · refine linked_focus.mpr ⟨hlpre.frame hpre (hbefore (by have := hpre.le; omega)), ⟨?_, ?_, ?_, ?_, ?_⟩, ?_, trivial⟩
    · exact (header.get_set_field _ _ _ (by decide)).trans ((hnew _).trans hhead.magic)
    · exact (header.get_set_field _ _ _ (by decide)).trans ((hnew _).trans hhead.size)
    · exact (header.get_set_self _ _ _ _).trans (Nat.mod_eq_of_lt (by omega))
    · exact (header.get_set_field _ _ _ (by decide)).trans ((hnew _).trans hhead.prev)
    · exact (header.get_set_field _ _ _ (by decide)).trans ((hnew _).trans hhead.free)
    · refine HeaderAt.frame ?_ (header.set_sameOn _ _ _ (Or.inr hoff))
      exact newHeader_headerAt _ hsize (by decide) (by omega)
  · exact placed_focus.mpr ⟨hpre, hstop, Nat.le_refl _⟩
  · rw [List.append_cons, List.mem_append] at hc
    rcases hc with hc | hc
    · exact hl.low c hc
    · rw [List.mem_singleton.mp hc]
      exact hr
  · simp only [List.length_append, List.length_cons, List.length_nil] at hfuel ⊢
    exact hfuel

/-- The last block counts as larger. -/
theorem Listed.stretch {v : ℕ} (hl : Listed h (pre ++ [b])) (hplaced : Placed heapBase (pre ++ [b]) hi) (hv : v < 4294967296) :
    Listed { h with mem := header.set h.mem b.addr .size v } (pre ++ [{ b with size := v }]) := by
  obtain ⟨hpre, -⟩ := placed_focus.mp hplaced
  obtain ⟨hlpre, hhead, -⟩ := linked_focus.mp hl.linked
  refine ⟨?_, ?_, ⟨b.addr + headerSize + v, ?_⟩, fun c hc => ?_, ?_⟩
  · have hfirst := hl.first
    cases pre <;> exact hfirst
  · refine linked_focus.mpr ⟨hlpre.frame hpre (header.set_sameOn _ _ _ (Or.inl (by have := hpre.le; omega))),
      ⟨?_, ?_, ?_, ?_, ?_⟩, trivial⟩
    · exact (header.get_set_field _ _ _ (by decide)).trans hhead.magic
    · exact (header.get_set_self _ _ _ _).trans (Nat.mod_eq_of_lt hv)
    · exact (header.get_set_field _ _ _ (by decide)).trans hhead.next
    · exact (header.get_set_field _ _ _ (by decide)).trans hhead.prev
    · exact (header.get_set_field _ _ _ (by decide)).trans hhead.free
  · exact placed_focus.mpr ⟨hpre, Nat.le_refl _⟩
  · rcases List.mem_append.mp hc with hc | hc
    · exact hl.low c (List.mem_append_left _ hc)
    · rw [List.mem_singleton.mp hc]
      exact hl.low b (by simp)
  · have hfuel := hl.fuel
    simp only [List.length_append, List.length_cons, List.length_nil] at hfuel ⊢
    exact hfuel

theorem chunk_ge (hsum : size + headerSize < 4294967296) (hne : chunk size ≠ 0) : size + headerSize ≤ chunk size := by
  unfold chunk alignUp at *
  simp only [u32_of_lt hsum, Nat.reduceMul, Nat.reduceSub] at *
  unfold u32 at *
  omega

/-- Where the heap could be extended by the chunk, the block at its end counts as large enough. -/
theorem extendHeap_wide (hi : Inv h (pre ++ [last])) (hsupply : ∃ k < 262144, pagesOf k = none) (hgrow : CanGrow h (chunk size) pagesOf)
    (hsum : size + headerSize < 4294967296) (hlast : chunk size = 0 → last.free = false) :
    (extendHeap h size pagesOf).2 = true ∧
      ∃ bs', Listed (extendHeap h size pagesOf).1 bs' ∧ ∃ b ∈ bs', b.free = true ∧ size ≤ b.size := by
  have hbase : heapBase = 3489660928 := rfl
  have hmax : heapMaxSize = 67108864 := rfl
  obtain ⟨pages, hchunk, hpages⟩ := chunk_pages size
  obtain ⟨hs, hdone⟩ := grow_spared hi hpages hsupply
  have hl := hs.listed hi
  have htrue : (grow h (pages * pageSize) pagesOf).2 = true := by
    rw [grow_iff pagesOf h hpages, ← hchunk]
    exact hgrow
  obtain ⟨hfew, hend⟩ := hdone htrue
  have hbytes := hs.bytes
  have hlength := hi.placed.length_le
  have hfuel := hi.bytes
  obtain ⟨-, -, h₃, h₄, h₅⟩ := hi.places
  have hblock : h.blocks.getLast?.getD h.firstBlock = last.addr := by
    rw [hi.blocks]
    simp
  have hge : chunk size ≠ 0 → size + headerSize ≤ chunk size := chunk_ge hsum
  unfold KernelHeap.extendHeap
  change alignUp (u32 (size + headerSize)) (64 * 1024) = pages * pageSize at hchunk
  simp only [hchunk, hblock]
  change chunk size = pages * pageSize at hchunk
  rw [hchunk] at hge hlast
  generalize grow h (pages * pageSize) pagesOf = r at hl htrue hend hbytes ⊢
  obtain ⟨h₁, ok⟩ := r
  obtain rfl : ok = true := htrue
  dsimp only at hl hend hbytes ⊢
  have hadd : sub32 h₁.heapEnd h.heapEnd = pages * pageSize := by
    rw [hend]
    unfold sub32 u32 pageSize
    omega
  obtain ⟨p, q, hhead⟩ := hl.headerAt (b := last) (by simp)
  rw [hadd]
  split
  · next hfree =>
    have hlf := hhead.free_iff.mp hfree
    have hne : pages * pageSize ≠ 0 := fun hzero => by
      rw [hlast hzero] at hlf
      cases hlf
    have hbig := hge hne
    rw [hhead.size]
    have hv : last.size + pages * pageSize < 4294967296 := by
      unfold pageSize
      omega
    refine ⟨rfl, _, hl.stretch hi.placed hv, _, List.mem_append_right _ (List.mem_singleton_self _), hlf, ?_⟩
    dsimp only
    omega
  · next hused =>
    have hsize : sub32 (pages * pageSize) headerSize < 4294967296 := Nat.mod_lt _ (by decide)
    refine ⟨rfl, _, hl.append hi.placed h₅ hsize ?_, ⟨h.heapEnd, sub32 (pages * pageSize) headerSize, true⟩, by simp, rfl, ?_⟩
    · simp only [List.length_append, List.length_cons, List.length_nil, headerSize] at hlength ⊢
      omega
    · dsimp only
      unfold sub32 headerSize pageSize at *
      omega

/-- An extension is granted as `grow` is and ends where it ends; refused, it is `grow` alone. -/
theorem extendHeap_grow (h : Heap) (size : ℕ) (pagesOf : Supply) :
    (extendHeap h size pagesOf).1.heapEnd = (grow h (chunk size) pagesOf).1.heapEnd ∧
      (extendHeap h size pagesOf).2 = (grow h (chunk size) pagesOf).2 ∧
        ((grow h (chunk size) pagesOf).2 = false → extendHeap h size pagesOf = grow h (chunk size) pagesOf) := by
  -- unfolded as a function: applied, the kernel would run `grow` on its page count
  have hdef : extendHeap = extendHeap := rfl
  conv at hdef => rhs; delta extendHeap
  simp only [hdef, chunk]
  generalize grow h _ pagesOf = grown
  obtain ⟨h₁, ok⟩ := grown
  cases ok with
  | false => exact ⟨rfl, rfl, fun _ => rfl⟩
  | true =>
    dsimp only
    split <;> exact ⟨rfl, rfl, by simp⟩

theorem extendHeap_fails (hgrow : grow h (chunk size) pagesOf = (h', false)) : extendHeap h size pagesOf = (h', false) := by
  rw [(extendHeap_grow h size pagesOf).2.2 (by rw [hgrow]), hgrow]

/-- Extensions that leave the list well formed do not help such a size. -/
theorem kmallocLoop_refuses (supply : ℕ → Supply) (attempts i : ℕ) (hi : Inv h (pre ++ [last])) (hbig : heapMaxSize < size)
    (hchunk : chunk size = pages * pageSize) (hpages : pages ≤ 32768) (hroom : last.free = true ∨ 1 ≤ pages) :
    (kmallocLoop size supply attempts i h).2 = 0 ∧
      ∃ bs', Inv (kmallocLoop size supply attempts i h).1 bs' ∧
        Keeps h.mem (kmallocLoop size supply attempts i h).1.mem (pre ++ [last]) bs' 0 := by
  induction attempts generalizing h pre last i with
  | zero => exact ⟨rfl, _, hi, Keeps.refl _ _ _⟩
  | succ attempts ih =>
    obtain ⟨-, bs₁, hi₁, hk₁, -, hend⟩ := hi.extendChunk hchunk hpages hroom (supply i)
    rw [(Listed.of_shape hi.toShape).kmallocLoop_extend (no_fit hi hbig)]
    generalize extendHeap h size (supply i) = extended at hi₁ hk₁ hend
    obtain ⟨h₁, ok⟩ := extended
    cases ok with
    | true =>
      obtain ⟨⟨pre', b, rfl, hfree, -⟩, -⟩ := hend rfl
      obtain ⟨hzero, bs₂, hi₂, hk₂⟩ := ih (i + 1) hi₁ (Or.inl hfree)
      exact ⟨hzero, bs₂, hi₂, hk₁.trans hk₂⟩
    | false => exact ⟨rfl, bs₁, hi₁, hk₁⟩

theorem kmallocLoop_large (hi : Inv h bs) (hbig : heapMaxSize < size) (heven : size % 8 = 0) (hlt : size < 4294967296)
    (hsupply : ∃ k < 262144, supply 0 k = none) :
    ((kmallocLoop size supply 2 0 h).2 ≠ 0 ↔ Room h bs size (supply 0)) ∧
      ((kmallocLoop size supply 2 0 h).2 = 0 →
        ∀ b ∈ bs, b.free = false → Unharmed h (kmallocLoop size supply 2 0 h).1 b) := by
  have hl := Listed.of_shape hi.toShape
  have hne : ∀ b ∈ bs, b.addr ≠ 0 := fun b hb => hi.addr_ne_zero hb
  obtain ⟨pre, last, rfl⟩ := hi.concat
  by_cases hsmall : 4294967296 ≤ size + headerSize ∨ chunk size = 0 ∧ last.free = true
  · have hpages : ∃ pages ≤ 32768, chunk size = pages * pageSize ∧ (last.free = true ∨ 1 ≤ pages) := by
      rcases hsmall with hwrap | ⟨hzero, hfree⟩
      · refine ⟨16, by omega, ?_, Or.inr (by omega)⟩
        simp only [chunk, alignUp, u32, headerSize, pageSize] at *
        omega
      · exact ⟨0, by omega, by rw [hzero, Nat.zero_mul], Or.inl hfree⟩
    obtain ⟨pages, hle, hchunk, hroom⟩ := hpages
    obtain ⟨hzero, bs', hi', hk⟩ := kmallocLoop_refuses supply 2 0 hi hbig hchunk hle hroom
    refine ⟨iff_of_false (not_not_intro hzero) fun hr => ?_, fun _ b hb hused => unharmed hi' hk hb hused (hne b hb)⟩
    rcases hsmall with hwrap | ⟨hz, hfree⟩
    · have hsum := hr.sum
      omega
    · obtain ⟨b, hb, hused⟩ := hr.last hz
      rw [List.getLast?_concat, Option.mem_some_iff] at hb
      rw [← hb, hfree] at hused
      cases hused
  · rw [not_or, not_le, not_and, Bool.not_eq_true] at hsmall
    obtain ⟨hsum, hlast⟩ := hsmall
    obtain ⟨pages, hchunk, hpages⟩ := chunk_pages size
    have hiff := grow_iff (supply 0) h hpages
    rw [← hchunk] at hiff
    rw [hl.kmallocLoop_extend (no_fit hi hbig)]
    by_cases hgrow : CanGrow h (chunk size) (supply 0)
    · obtain ⟨htrue, bs', hl', hfit⟩ := extendHeap_wide hi hsupply hgrow hsum hlast
      generalize extendHeap h size (supply 0) = extended at htrue hl'
      have hne₁ := hl'.kmallocLoop_fit supply 0 1 hfit
      rw [if_pos htrue]
      refine ⟨iff_of_true hne₁ ⟨hgrow, hsum, fun hz => ⟨last, by simp, hlast hz⟩⟩, fun hzero => absurd hzero hne₁⟩
    · have hfail : (grow h (chunk size) (supply 0)).2 = false := by
        rw [← Bool.not_eq_true, hiff]
        exact hgrow
      obtain ⟨hs, -⟩ := grow_spared hi hpages hsupply
      rw [← hchunk] at hs
      generalize hgrown : grow h (chunk size) (supply 0) = grown at hfail hs
      obtain ⟨h₁, ok⟩ := grown
      obtain rfl : ok = false := hfail
      rw [extendHeap_fails hgrown, if_neg (by simp)]
      refine ⟨iff_of_false (not_not_intro rfl) fun hr => hgrow hr.grows, fun _ b hb _ => ⟨⟨_, hs.listed hi, hb⟩, ?_⟩⟩
      obtain ⟨hlow, hhigh⟩ := hi.placed.mem hb
      unfold Block.stop at hhigh
      apply hs.mem.mono
      · unfold Block.payload
        omega
      · unfold Block.payload
        omega

/-! ## The calls -/

theorem alignUp_eight (n : ℕ) : alignUp n 8 % 8 = 0 ∧ alignUp n 8 < 4294967296 := by
  unfold alignUp u32
  omega

/-- Which requests get a block at all. -/
theorem kmalloc_answered (hi : Inv h bs) (hsupply : Supplied supply) :
    (kmalloc h n supply).2 ≠ 0 ↔ Answered h bs n supply := by
  unfold kmalloc Answered
  split
  · next hzero => exact iff_of_false (not_not_intro rfl) fun ha => ha.1 hzero
  · next hne =>
    rw [and_iff_right hne]
    obtain ⟨heven, hlt⟩ := alignUp_eight n
    by_cases hsize : alignUp n 8 ≤ 67108872
    · rw [kmallocLoop_small hi hsize]
      refine or_congr_right' fun _ => ⟨fun hgrow => ⟨hgrow, ?_, fun hzero => ?_⟩, fun hr => hr.grows⟩
      · unfold headerSize
        omega
      · obtain ⟨pages, hchunk, -, hbig⟩ := alignUp_chunk hsize
        change chunk _ = _ at hchunk
        rw [← hchunk, hzero] at hbig
        unfold headerSize at hbig
        omega
    · have hbig : heapMaxSize < alignUp n 8 := by
        have hmax : heapMaxSize = 67108864 := rfl
        omega
      rw [(kmallocLoop_large hi hbig heven hlt (hsupply 0)).1, or_iff_right (no_fit hi hbig)]

/-- A request that gets no block does no harm. -/
theorem kmalloc_unharmed (hi : Inv h bs) (hsupply : Supplied supply) (hzero : (kmalloc h n supply).2 = 0)
    (hb : b ∈ bs) (hused : b.free = false) : Unharmed h (kmalloc h n supply).1 b := by
  obtain ⟨heven, hlt⟩ := alignUp_eight n
  unfold kmalloc at hzero ⊢
  split
  · exact ⟨⟨bs, Listed.of_shape hi.toShape, hb⟩, SameOn.refl _ _ _⟩
  · next hne =>
    rw [if_neg hne] at hzero
    by_cases hsize : alignUp n 8 ≤ 67108872
    · obtain ⟨bs', hi', hk, -, -⟩ := hi.kmallocLoop hsize (Prod.eta (kmallocLoop (alignUp n 8) supply 2 0 h)).symm
      exact unharmed hi' hk hb hused (hi.addr_ne_zero hb)
    · have hbig : heapMaxSize < alignUp n 8 := by
        have hmax : heapMaxSize = 67108864 := rfl
        omega
      exact (kmallocLoop_large hi hbig heven hlt (hsupply 0)).2 hzero b hb hused

/-- `p` is the payload of a block in use, `n` bytes of which are there. -/
def Sized (h : Heap) (n p : ℕ) : Prop :=
  ∃ bs d, Listed h bs ∧ d ∈ bs ∧ d.free = false ∧ p = d.payload ∧ n ≤ d.size ∧ d.stop ≤ h.heapEnd ∧ h.heapEnd ≤ heapBase + heapMaxSize

theorem Sized.le (hs : Sized h n p) : n ≤ heapMaxSize := by
  obtain ⟨bs, d, hl, hd, -, -, hle, hstop, hend⟩ := hs
  obtain ⟨hi, hplaced⟩ := hl.placed
  have hlow := (hplaced.mem hd).1
  unfold Block.stop at hstop
  omega

theorem Sized.of_mem (hi : Inv h bs) (hd : d ∈ bs) (hused : d.free = false) (hle : n ≤ d.size) : Sized h n d.payload :=
  ⟨bs, d, Listed.of_shape hi.toShape, hd, hused, rfl, hle, (hi.placed.mem hd).2, hi.end_le⟩

theorem Sized.of_fresh (hi : Inv h' bs') (hf : Fresh bs bs' n p) : Sized h' n p := by
  obtain ⟨d, hd, hused, rfl, hle, -⟩ := hf
  exact Sized.of_mem hi hd hused hle

/-- What `kmalloc` is for. -/
def KmallocOk (h : Heap) (n : ℕ) (supply : ℕ → Supply) : Prop :=
  (kmalloc h n supply).2 ≠ 0 → Sized (kmalloc h n supply).1 n (kmalloc h n supply).2

def KcallocOk (h : Heap) (count n : ℕ) (supply : ℕ → Supply) : Prop :=
  (kcalloc h count n supply).2 ≠ 0 →
    Sized (kcalloc h count n supply).1 (count * n) (kcalloc h count n supply).2 ∧
      ∀ i < count * n, (kcalloc h count n supply).1.mem ((kcalloc h count n supply).2 + i) = 0

/-- The same for `krealloc` of a block in use: it returns, and its result, or the old block, is as it should be. -/
def KreallocOk (h : Heap) (b : Block) (n : ℕ) (supply : ℕ → Supply) : Prop :=
  ∃ h' p, krealloc h b.payload n supply = some (h', p) ∧
    (p ≠ 0 → Sized h' n p ∧ ∀ i < min b.size n, h'.mem (p + i) = h.mem (b.payload + i)) ∧
    (p = 0 → n ≠ 0 → Unharmed h h' b)

theorem kmallocOk_iff (hi : Inv h bs) (hsupply : Supplied supply) :
    KmallocOk h n supply ↔ (Answered h bs n supply → n ≤ heapMaxSize) := by
  unfold KmallocOk
  rw [kmalloc_answered hi hsupply]
  refine forall_congr' fun ha => ⟨Sized.le, fun hle => ?_⟩
  obtain ⟨bs', hi', -, hp, -⟩ := hi.kmalloc hle (Prod.eta (kmalloc h n supply)).symm
  exact Sized.of_fresh hi' (hp.resolve_left ((kmalloc_answered hi hsupply).mpr ha))

theorem kcalloc_snd (h : Heap) (count n : ℕ) (supply : ℕ → Supply) :
    (kcalloc h count n supply).2 = (kmalloc h (u32 (count * n)) supply).2 := rfl

theorem kcallocOk_iff (hi : Inv h bs) (hsupply : Supplied supply) :
    KcallocOk h count n supply ↔ (Answered h bs (u32 (count * n)) supply → count * n ≤ heapMaxSize) := by
  have hanswered : (kcalloc h count n supply).2 ≠ 0 ↔ Answered h bs (u32 (count * n)) supply := by
    rw [kcalloc_snd, kmalloc_answered hi hsupply]
  unfold KcallocOk
  rw [hanswered]
  refine forall_congr' fun ha => ⟨fun hok => hok.1.le, fun hle => ?_⟩
  have hne := hanswered.mpr ha
  have hexact : u32 (count * n) = count * n := by
    apply u32_of_lt
    have hmax : heapMaxSize = 67108864 := rfl
    omega
  obtain ⟨bs', hi', -, hp, -⟩ := hi.kcalloc (by rwa [hexact]) (Prod.eta (kcalloc h count n supply)).symm
  have hfresh := hp.resolve_left hne
  rw [hexact] at hfresh
  refine ⟨Sized.of_fresh hi' hfresh, fun i hi => ?_⟩
  unfold kcalloc at hne ⊢
  dsimp only at hne ⊢
  rw [if_pos hne, hexact]
  dsimp only
  rw [fill_at _ _ hi]

/-- A block that is too small moves. -/
theorem krealloc_eq (supply : ℕ → Supply) (hi : Inv h bs) (hb : b ∈ bs) (hlt : b.size < n) :
    ∃ copied, krealloc h b.payload n supply =
      if (kmalloc h n supply).2 = 0 then some ((kmalloc h n supply).1, 0)
      else (kfree copied b.payload).map fun h' => (h', (kmalloc h n supply).2) := by
  obtain ⟨pre, post, rfl⟩ := List.append_of_mem hb
  have hhead := hi.headerAt
  obtain ⟨-, -, h₃, h₄, h₅⟩ := hi.places
  have hmax : heapBase + heapMaxSize < 4294967296 := by decide
  have hsub : sub32 b.payload headerSize = b.addr := by
    unfold sub32 Block.payload headerSize at *
    omega
  refine ⟨{ (kmalloc h n supply).1 with
    mem := fill (kmalloc h n supply).1.mem (kmalloc h n supply).2 (header.get (kmalloc h n supply).1.mem b.addr .size)
      fun i => (kmalloc h n supply).1.mem (b.payload + i) }, ?_⟩
  unfold krealloc
  rw [if_neg (by unfold Block.payload headerSize; omega), if_neg (by omega)]
  dsimp only
  rw [hsub, if_neg (not_not_intro hhead.magic), hhead.size, if_neg (by omega)]

theorem kreallocOk_iff (hi : Inv h bs) (hsupply : Supplied supply) (hb : b ∈ bs) (hused : b.free = false) :
    KreallocOk h b n supply ↔ (b.size < n → Answered h bs n supply → n ≤ heapMaxSize) := by
  constructor
  · rintro ⟨h', p, hrun, hok, -⟩ hlt ha
    obtain ⟨copied, he⟩ := krealloc_eq supply hi hb hlt
    have hne := (kmalloc_answered hi hsupply).mpr ha
    rw [he, if_neg hne] at hrun
    obtain ⟨h₁, -, heq⟩ := Option.map_eq_some_iff.mp hrun
    obtain ⟨rfl, rfl⟩ := Prod.mk.inj heq
    exact (hok hne).1.le
  · intro hcond
    have hpayload : b.payload ≠ 0 := by
      unfold Block.payload headerSize
      omega
    by_cases hsize : n ≤ heapMaxSize
    · obtain ⟨h', p, bs', hrun, hi', hk, hcases, -⟩ := hi.krealloc supply hb hused hsize
      refine ⟨h', p, hrun, ?_⟩
      rcases hcases with ⟨hz, rfl⟩ | ⟨hz, rfl, hb', hsame⟩ | ⟨rfl, hb', hle, rfl⟩ | ⟨hfresh, hbytes⟩
      · exact ⟨fun hne => absurd rfl hne, fun _ hne => absurd hz hne⟩
      · exact ⟨fun hne => absurd rfl hne, fun _ _ => ⟨⟨bs', Listed.of_shape hi'.toShape, hb'⟩, hsame⟩⟩
      · exact ⟨fun _ => ⟨Sized.of_mem hi hb hused hle, fun _ _ => rfl⟩, fun hz => absurd hz hpayload⟩
      · refine ⟨fun _ => ⟨Sized.of_fresh hi' hfresh, fun i hi => hbytes i (by omega)⟩, fun hz => ?_⟩
        obtain ⟨d, -, -, hd, -⟩ := hfresh
        unfold Block.payload headerSize at hd
        omega
    · obtain ⟨hlow, hhigh⟩ := hi.placed.mem hb
      have hend := hi.end_le
      have hlt : b.size < n := by
        unfold Block.stop at hhigh
        omega
      obtain ⟨copied, he⟩ := krealloc_eq supply hi hb hlt
      have hzero : (kmalloc h n supply).2 = 0 := by
        by_contra hne
        exact hsize (hcond hlt ((kmalloc_answered hi hsupply).mp hne))
      rw [if_pos hzero] at he
      exact ⟨_, 0, he, fun hne => absurd rfl hne, fun _ _ => kmalloc_unharmed hi hsupply hzero hb hused⟩

/-- When the kernel's allocations are as large as asked. -/
theorem allocations_sized_iff (hi : Inv h bs) (hsupply : Supplied supply) :
    (∀ n, KmallocOk h n supply ↔ (Answered h bs n supply → n ≤ heapMaxSize)) ∧
    (∀ count n, KcallocOk h count n supply ↔ (Answered h bs (u32 (count * n)) supply → count * n ≤ heapMaxSize)) ∧
    ∀ b ∈ bs, b.free = false → ∀ n, KreallocOk h b n supply ↔ (b.size < n → Answered h bs n supply → n ≤ heapMaxSize) :=
  ⟨fun _ => kmallocOk_iff hi hsupply, fun _ _ => kcallocOk_iff hi hsupply, fun _ hb hused _ => kreallocOk_iff hi hsupply hb hused⟩

/-- The pages of 64 KiB, and no more. -/
def initialPages : Supply := fun i => if i < 16 then some fun _ => 0 else none

/-- The heap after `kheap_init`. -/
def bootHeap : Heap := (kheapInit (fun _ => 0) initialPages).getD ⟨fun _ => 0, 0, 0, 0⟩

theorem bootHeap_init : kheapInit (fun _ => 0) initialPages = some bootHeap := by
  have hsome : (kheapInit (fun _ => 0) initialPages).isSome = true := by decide
  obtain ⟨h, hh⟩ := Option.isSome_iff_exists.mp hsome
  unfold bootHeap
  rw [hh]
  rfl

theorem initialPages_supplied : Supplied fun _ => initialPages := fun _ => ⟨16, by decide, rfl⟩

/-- That heap after a `kmalloc` of 100 bytes. -/
def busyHeap : Heap := (kmalloc bootHeap 100 fun _ => initialPages).1

theorem allocations_sized_iff_busy : ∃ bs, Inv busyHeap bs ∧ (∃ b ∈ bs, b.free = false ∧ 100 ≤ b.size) ∧
    (∀ n, KmallocOk busyHeap n (fun _ => initialPages) ↔ (Answered busyHeap bs n (fun _ => initialPages) → n ≤ heapMaxSize)) ∧
    (∀ count n, KcallocOk busyHeap count n (fun _ => initialPages) ↔
      (Answered busyHeap bs (u32 (count * n)) (fun _ => initialPages) → count * n ≤ heapMaxSize)) ∧
    ∀ b ∈ bs, b.free = false → ∀ n, KreallocOk busyHeap b n (fun _ => initialPages) ↔
      (b.size < n → Answered busyHeap bs n (fun _ => initialPages) → n ≤ heapMaxSize) := by
  obtain ⟨bs₀, hi₀, -⟩ := kheapInit_inv bootHeap_init
  have hgranted : (kmalloc bootHeap 100 fun _ => initialPages).2 ≠ 0 := by decide
  have hsmall : 100 ≤ heapMaxSize := by decide
  obtain ⟨bs, hi, -, hp, -⟩ := hi₀.kmalloc hsmall (Prod.eta (kmalloc bootHeap 100 fun _ => initialPages)).symm
  obtain ⟨b, hb, hused, -, hsize, -⟩ := hp.resolve_left hgranted
  exact ⟨bs, hi, ⟨b, hb, hused, hsize⟩, allocations_sized_iff hi initialPages_supplied⟩

/-- A request for 4 GiB less one byte is rounded to nothing and gets a block of no bytes. -/
theorem kmalloc_rounds_to_zero :
    (kmalloc bootHeap 0xFFFFFFFF fun _ => initialPages).2 = 0xD0000014 ∧
      header.get (kmalloc bootHeap 0xFFFFFFFF fun _ => initialPages).1.mem 0xD0000000 .size = 0 ∧
      ¬KmallocOk bootHeap 0xFFFFFFFF fun _ => initialPages := by
  have hp : (kmalloc bootHeap 0xFFFFFFFF fun _ => initialPages).2 = 0xD0000014 := by decide
  refine ⟨hp, by decide, fun hok => ?_⟩
  have hsized := hok (by rw [hp]; decide)
  have hle := hsized.le
  have hmax : heapMaxSize = 67108864 := rfl
  omega

end SifarOS.KernelHeapSizes
