import SifarOS.HeapWindow

/-! # Every byte of the heap is in a block

The listed blocks against the mapped pages. A request that is refused in the middle of its pages
leaves the ones before it mapped and without a block, for good. -/
namespace SifarOS.HeapAccounting
open ByteMemory BlockList KernelHeap KernelHeapSafety KernelHeapSizes ReachableStates
open HeapWindow (Call call request granted granted_le granted_none growLoop_heapEnd growLoop_snd call_heapEnd)

/-- The block whose header is at `a`. -/
def readBlock (m : Memory) (a : ℕ) : Block := ⟨a, header.get m a .size, decide (header.get m a .free ≠ 0)⟩

/-- The blocks of the list, as their headers describe them. -/
def listed (h : Heap) : List Block := h.blocks.map (readBlock h.mem)

/-- Headers and payloads of the listed blocks add up to the mapped bytes. -/
structure Accounted (h : Heap) : Prop where
  sum : extent (listed h) = h.heapBytes
  tiled : Tiled heapBase (listed h) h.heapEnd
  stats : (kheapStats h).used + (kheapStats h).freed + headerSize * (kheapStats h).blocks = (kheapStats h).total

/-- Nothing below the end of the heap has changed. -/
structure Unmoved (h h' : Heap) : Prop where
  blocks : listed h' = listed h
  mem : SameOn h.mem h'.mem heapBase (h.heapEnd - heapBase)

/-- For `size` bytes `grow` maps a page and then does not get another one. -/
structure Torn (h : Heap) (size : ℕ) (pagesOf : Supply) : Prop where
  unfit : findFit h size = none
  fits : u32 (h.heapEnd + chunk size) ≤ heapBase + heapMaxSize
  first : (pagesOf 0).isSome = true
  refused : ∃ i < chunk size / pageSize, pagesOf i = none

/-- A request for `n` bytes is granted by half. -/
def HalfGranted (h : Heap) (n : ℕ) (supply : ℕ → Supply) : Prop := n ≠ 0 ∧ Torn h (alignUp n 8) (supply 0)

/-- The call that an action makes; the write of an owner is one of the writes of others. -/
def toCall (s : State) : Action → Call
  | .kmalloc size => .kmalloc size
  | .kcalloc count size => .kcalloc count size
  | .krealloc ptr size => .krealloc ptr size
  | .kfree ptr => .kfree ptr
  | .store ptr offset byte => .store (fill s.heap.mem (ptr + offset) 1 fun _ => byte)

/-- A step in which no request is granted by half. -/
def WholeStep (s s' : State) : Prop :=
  ∃ a supply, ¬HalfGranted s.heap (request s.heap (toCall s a)) supply ∧ step s a supply = some s'

variable {h h' h₁ : Heap} {bs bs' : List Block} {b : Block} {m : Memory} {lo hi p q n size pages i k : ℕ}
  {supply : ℕ → Supply} {pagesOf : Supply}

/-! ## The list in memory -/

theorem readBlock_eq (hb : HeaderAt m b p q) : readBlock m b.addr = b := by
  have hfree : decide (header.get m b.addr .free ≠ 0) = b.free := by
    rw [Bool.eq_iff_iff, decide_eq_true_iff]
    exact hb.free_iff
  unfold readBlock
  rw [hb.size, hfree]

theorem listed_eq (hi : Shape h bs) : listed h = bs := by
  unfold listed
  rw [hi.blocks, List.map_map]
  refine (List.map_congr_left fun b hb => ?_).trans (List.map_id _)
  obtain ⟨pre, post, rfl⟩ := List.append_of_mem hb
  exact readBlock_eq hi.headerAt

theorem inv_unique (hi : Inv h bs) (hi' : Inv h bs') : bs' = bs :=
  (listed_eq hi'.toShape).symm.trans (listed_eq hi.toShape)

theorem placed_extent (hp : Placed lo bs hi) : lo + extent bs ≤ hi := by
  induction bs generalizing lo with
  | nil => exact hp
  | cons b bs ih =>
    have hle := ih hp.2
    have hlow := hp.1
    rw [extent_cons]
    unfold Block.stop at hle
    omega

theorem tiled_of_extent (hp : Placed lo bs hi) (hsum : lo + extent bs = hi) : Tiled lo bs hi := by
  induction bs generalizing lo with
  | nil => exact hsum
  | cons b bs ih =>
    have hle := placed_extent hp.2
    have hlow := hp.1
    rw [extent_cons] at hsum
    unfold Block.stop at hle
    exact ⟨by omega, ih hp.2 (by unfold Block.stop; omega)⟩

/-- What the loop of `kheap_stats` adds up. -/
theorem stats_fold (m : Memory) (l : List ℕ) (stats : Stats)
    (hlt : stats.used + stats.freed + headerSize * stats.blocks + extent (l.map (readBlock m)) < 4294967296) :
    (l.foldl (Stats.count m) stats).used + (l.foldl (Stats.count m) stats).freed +
        headerSize * (l.foldl (Stats.count m) stats).blocks =
      stats.used + stats.freed + headerSize * stats.blocks + extent (l.map (readBlock m)) ∧
    (l.foldl (Stats.count m) stats).total = stats.total := by
  induction l generalizing stats with
  | nil => exact ⟨rfl, rfl⟩
  | cons a l ih =>
    rw [List.map_cons, extent_cons] at hlt ⊢
    rw [List.foldl_cons]
    have hsize : (readBlock m a).size = header.get m a .size := rfl
    have hcount : (Stats.count m stats a).used + (Stats.count m stats a).freed +
        headerSize * (Stats.count m stats a).blocks =
          stats.used + stats.freed + headerSize * stats.blocks + (headerSize + header.get m a .size) ∧
        (Stats.count m stats a).total = stats.total := by
      unfold Stats.count
      dsimp only
      unfold headerSize at *
      split <;> simp only [and_true] <;> unfold u32 <;> omega
    obtain ⟨hsum, htotal⟩ := ih (Stats.count m stats a) (by rw [hcount.1]; omega)
    exact ⟨by rw [hsum, hcount.1]; omega, htotal.trans hcount.2⟩

theorem accounted_iff (hi : Inv h bs) : Accounted h ↔ extent bs = h.heapBytes := by
  have hl := listed_eq hi.toShape
  constructor
  · intro ha
    rw [← ha.sum, hl]
  · intro hsum
    have hbytes := hi.bytes
    have hlow := hi.placed.le
    have hhigh := hi.end_le
    have hmax : heapBase + heapMaxSize < 4294967296 := by decide
    refine ⟨by rw [hl, hsum], by rw [hl]; exact tiled_of_extent hi.placed (by omega), ?_⟩
    have hfold := stats_fold h.mem h.blocks ⟨0, 0, h.heapBytes, 0⟩ (by
      rw [← listed, hl, hsum]
      dsimp only
      omega)
    rw [← listed, hl, hsum] at hfold
    exact (hfold.1.trans (Nat.zero_add _)).trans hfold.2.symm

/-! ## One request -/

theorem granted_pos (hpages : 0 < pages) : 0 < granted pagesOf pages 0 ↔ (pagesOf 0).isSome = true := by
  obtain ⟨pages, rfl⟩ := Nat.exists_eq_succ_of_ne_zero hpages.ne'
  unfold granted
  split
  · next hsome => exact iff_of_true (Nat.succ_pos _) hsome
  · next hnone => exact iff_of_false (Nat.lt_irrefl 0) hnone

/-- An extension that fails has mapped some pages, and none if nothing was granted by half. -/
theorem grow_fails (hi : Inv h bs) (hpages : pages ≤ 32768) (hfail : grow h (pages * pageSize) pagesOf = (h₁, false)) :
    ∃ k, Grown h h₁ k ∧ h.heapEnd + k ≤ heapBase + heapMaxSize ∧
      (k = 0 ↔ ¬(u32 (h.heapEnd + pages * pageSize) ≤ heapBase + heapMaxSize ∧ (pagesOf 0).isSome = true ∧
        ∃ i < pages, pagesOf i = none)) := by
  have hbytes := hi.bytes
  have hlow := hi.placed.le
  have hend := hi.end_le
  have hbase : heapBase = 3489660928 := rfl
  have hmax : heapMaxSize = 67108864 := rfl
  obtain ⟨k, hg, hk, -⟩ := grow_grown pagesOf pages h (by rw [hbytes]; omega) hend hpages
  have hheapEnd := hg.heapEnd
  rw [hfail] at hg
  refine ⟨k, hg, hk, ?_⟩
  rw [grow_pages h (by omega)] at hfail hheapEnd
  split at hfail
  · next hguard =>
    rw [if_pos hguard] at hheapEnd
    exact iff_of_true (by dsimp only at hheapEnd; omega) fun hhalf => by omega
  · next hguard =>
    rw [if_neg hguard, growLoop_heapEnd (by omega)] at hheapEnd
    have hle := Nat.mul_le_mul_right pageSize (granted_le pagesOf pages 0)
    have hfew : pages * pageSize ≤ 134217728 := by
      unfold pageSize
      omega
    rw [u32_of_lt (by omega)] at hheapEnd
    have hfalse : granted pagesOf pages 0 ≠ pages := by
      intro hall
      have htrue := (growLoop_snd (h := h)).mpr hall
      rw [hfail] at htrue
      cases htrue
    have hlt := Nat.lt_of_le_of_ne (granted_le pagesOf pages 0) hfalse
    have hnone := granted_none hlt
    rw [Nat.zero_add] at hnone
    have hzero : k = 0 ↔ ¬0 < granted pagesOf pages 0 := by
      unfold pageSize at *
      omega
    rw [hzero, granted_pos (by omega)]
    refine not_congr ⟨fun hsome => ⟨by omega, hsome, _, hlt, hnone⟩, fun hhalf => hhalf.2.1⟩

theorem kmallocLoop_take {a : ℕ} (attempts i : ℕ) (hi : Inv h bs) (hf : findFit h size = some a) :
    (kmallocLoop size supply (attempts + 1) i h).2 ≠ 0 ∧ ∃ bs', Inv (kmallocLoop size supply (attempts + 1) i h).1 bs' ∧
      (kmallocLoop size supply (attempts + 1) i h).1.heapBytes = h.heapBytes ∧ extent bs' = extent bs := by
  have hne := (Listed.of_shape hi.toShape).payload_ne_zero hf
  rw [kmallocLoop, hf]
  obtain ⟨pre, b, post, rfl, rfl, hfree, hfit⟩ := hi.findFit hf
  obtain ⟨bs', hi', -, -, -, hextent⟩ := hi.take hfree hfit
  exact ⟨hne, bs', hi', rfl, hextent⟩

/-- A request gets a block, with all bytes accounted for, or it gets none, with nothing moved and
`k` bytes more at the end of the heap. -/
theorem kmallocLoop_cases (hi : Inv h bs) (hsize : size ≤ 67108872) :
    ((kmallocLoop size supply 2 0 h).2 ≠ 0 ∧ ¬Torn h size (supply 0) ∧
      ∃ bs', Inv (kmallocLoop size supply 2 0 h).1 bs' ∧
        (kmallocLoop size supply 2 0 h).1.heapBytes + extent bs = h.heapBytes + extent bs') ∨
    ((kmallocLoop size supply 2 0 h).2 = 0 ∧
      ∃ k, Grown h (kmallocLoop size supply 2 0 h).1 k ∧ h.heapEnd + k ≤ heapBase + heapMaxSize ∧
        (k = 0 ↔ ¬Torn h size (supply 0))) := by
  cases hf : findFit h size with
  | some a =>
    obtain ⟨hne, bs', hi', hbytes, hextent⟩ := (kmallocLoop_take 1 0 hi hf : (kmallocLoop size supply 2 0 h).2 ≠ 0 ∧ _)
    refine Or.inl ⟨hne, fun ht => ?_, bs', hi', by rw [hbytes, hextent]⟩
    rw [ht.unfit] at hf
    cases hf
  | none =>
    obtain ⟨pages, hchunk, hpages, hbig⟩ := alignUp_chunk hsize
    have hone : 1 ≤ pages := by
      unfold headerSize pageSize at hbig
      omega
    have hdiv : chunk size / pageSize = pages := by
      rw [chunk, hchunk]
      exact Nat.mul_div_cancel pages (by decide)
    have hl := Listed.of_shape hi.toShape
    have hunfit : ¬∃ b ∈ bs, b.free = true ∧ size ≤ b.size := by
      rw [← hl.findFit_isSome, hf]
      exact Bool.false_ne_true
    rw [hl.kmallocLoop_extend hunfit]
    have hlow := hi.placed.le
    have hbytes := hi.bytes
    obtain ⟨pre, last, rfl⟩ := hi.concat
    obtain ⟨hsnd, bs₁, hi₁, -, -, hdone⟩ := hi.extendChunk hchunk hpages (Or.inr hone) (supply 0)
    cases hok : (grow h (pages * pageSize) (supply 0)).2 with
    | true =>
      obtain ⟨k, hg, -, hk⟩ := grow_grown (supply 0) pages h (by rw [hbytes]; omega) hi.end_le hpages
      obtain rfl := hk hok
      have hend := (extendHeap_grow h size (supply 0)).1
      rw [chunk, hchunk, hg.heapEnd] at hend
      have htorn : ¬Torn h size (supply 0) := by
        intro ht
        have hgrow := ((grow_iff (supply 0) h (by omega)).mp hok).2
        rw [Nat.mul_div_cancel pages (by decide)] at hgrow
        obtain ⟨i, hi, hnone⟩ := ht.refused
        have hsome := hgrow i (hdiv ▸ hi)
        rw [hnone] at hsome
        cases hsome
      rw [hok] at hsnd
      generalize extendHeap h size (supply 0) = extended at hsnd hi₁ hdone hend
      obtain ⟨h₁, ok⟩ := extended
      obtain rfl : ok = true := hsnd
      obtain ⟨⟨pre', b, rfl, hfree, hfit⟩, hextent⟩ := hdone rfl
      have hbytes₁ := hi₁.bytes
      have hfound : (findFit h₁ size).isSome = true :=
        (Listed.of_shape hi₁.toShape).findFit_isSome.mpr ⟨b, by simp, hfree, by omega⟩
      obtain ⟨a, ha⟩ := Option.isSome_iff_exists.mp hfound
      obtain ⟨hne, bs', hi', hsame, hsum⟩ := (kmallocLoop_take 0 1 hi₁ ha : (kmallocLoop size supply 1 1 h₁).2 ≠ 0 ∧ _)
      rw [if_pos rfl]
      refine Or.inl ⟨hne, htorn, bs', hi', ?_⟩
      dsimp only at hsame hbytes₁ hend ⊢
      rw [hsame, hsum, hextent, hbytes₁, hbytes, hend]
      omega
    | false =>
      generalize hgrow : grow h (pages * pageSize) (supply 0) = grown at hok
      obtain ⟨h₁, ok⟩ := grown
      obtain rfl : ok = false := hok
      obtain ⟨k, hg, hk, hzero⟩ := grow_fails hi hpages hgrow
      have hchunk' : chunk size = pages * pageSize := hchunk
      rw [extendHeap_fails (by rw [hchunk', hgrow]), if_neg (by simp)]
      refine Or.inr ⟨rfl, k, hg, hk, hzero.trans (not_congr ⟨?_, ?_⟩)⟩
      · rintro ⟨hfits, hfirst, hrefused⟩
        exact ⟨hf, by rwa [hchunk'], hfirst, by rwa [hdiv]⟩
      · intro ht
        exact ⟨hchunk' ▸ ht.fits, ht.first, hdiv ▸ ht.refused⟩

theorem kmalloc_cases (hi : Inv h bs) (hn : n ≤ heapMaxSize) :
    ((kmalloc h n supply).2 ≠ 0 ∧ ¬HalfGranted h n supply ∧ ∃ bs', Inv (kmalloc h n supply).1 bs' ∧
      (kmalloc h n supply).1.heapBytes + extent bs = h.heapBytes + extent bs') ∨
    ((kmalloc h n supply).2 = 0 ∧ ∃ k, Grown h (kmalloc h n supply).1 k ∧ h.heapEnd + k ≤ heapBase + heapMaxSize ∧
      (k = 0 ↔ ¬HalfGranted h n supply)) := by
  unfold kmalloc HalfGranted
  split
  · next hzero => exact Or.inr ⟨rfl, 0, Grown.refl h, hi.end_le, iff_of_true rfl fun hhalf => hhalf.1 hzero⟩
  · next hne =>
    rw [and_iff_right hne]
    have hmax : heapMaxSize = 67108864 := rfl
    exact kmallocLoop_cases hi (by unfold alignUp u32; omega)

/-- A request that gets nothing leaves every block as it was. -/
theorem kmalloc_null (hi : Inv h bs) (hn : n ≤ heapMaxSize) (hnull : (kmalloc h n supply).2 = 0) :
    Unmoved h (kmalloc h n supply).1 := by
  rcases (kmalloc_cases hi hn : (kmalloc h n supply).2 ≠ 0 ∧ _ ∨ _) with ⟨hne, -⟩ | ⟨-, k, hg, hk, -⟩
  · exact absurd hnull hne
  · have hlow := hi.placed.le
    exact ⟨by rw [listed_eq (hi.toShape.grown hg hk), listed_eq hi.toShape], hg.mem (by omega)⟩

/-- What a request does to the sum over the blocks. -/
theorem kmalloc_books (hi : Inv h bs) (hn : n ≤ heapMaxSize) (supply : ℕ → Supply) :
    ∃ bs' lost, Inv (kmalloc h n supply).1 bs' ∧
      (kmalloc h n supply).1.heapBytes + extent bs = h.heapBytes + extent bs' + lost ∧
      (lost = 0 ↔ ¬HalfGranted h n supply) := by
  rcases (kmalloc_cases hi hn : (kmalloc h n supply).2 ≠ 0 ∧ _ ∨ _) with ⟨-, hwhole, bs', hi', hsum⟩ | ⟨-, k, hg, hk, hzero⟩
  · exact ⟨bs', 0, hi', hsum, iff_of_true rfl hwhole⟩
  · exact ⟨bs, k, ⟨hi.toShape.grown hg hk, hi.alternate⟩, by rw [hg.bytes]; omega, hzero⟩

/-! ## Runs -/

variable {s s' : State} {a : Action}

theorem step_call (hs : step s a supply = some s') : call s.heap (toCall s a) supply = some s'.heap := by
  cases a <;> simp only [step] at hs <;> split at hs
  case krealloc.isTrue =>
    rw [Option.map_eq_some_iff] at hs
    obtain ⟨r, hr, rfl⟩ := hs
    exact Option.map_eq_some_iff.mpr ⟨r, hr, rfl⟩
  case kfree.isTrue =>
    obtain ⟨h₁, hfree, rfl⟩ := Option.map_eq_some_iff.mp hs
    exact hfree
  case kmalloc.isTrue | kcalloc.isTrue | store.isTrue =>
    obtain rfl := Option.some.inj hs
    rfl
  all_goals cases hs

/-- The blocks of a step are those of its request, but for the sizes that a block given back was
joined to. -/
theorem step_request {bs : List Block} (ho : Owned s bs) (hs : step s a supply = some s') :
    request s.heap (toCall s a) ≤ heapMaxSize ∧ ∃ bs' bs₁, Inv s'.heap bs' ∧
      Inv (kmalloc s.heap (request s.heap (toCall s a)) supply).1 bs₁ ∧ extent bs' = extent bs₁ := by
  have hfirst : ∀ {b : Block}, b ∈ bs → sub32 b.payload headerSize = b.addr ∧ b.payload ≠ 0 ∧
      header.get s.heap.mem b.addr .magic = blockMagic ∧ header.get s.heap.mem b.addr .size = b.size := by
    intro b hb
    have hbounds := ho.inv.placed.mem hb
    have hend := ho.inv.end_le
    have hmax : heapBase + heapMaxSize < 4294967296 := by decide
    obtain ⟨pre, post, hbs⟩ := List.append_of_mem hb
    have hhead := (hbs ▸ ho.inv).headerAt
    unfold sub32 Block.payload Block.stop headerSize at *
    exact ⟨by omega, by omega, hhead.magic, hhead.size⟩
  cases a with
  | kmalloc size =>
    simp only [step] at hs
    split at hs
    · next hsize =>
      obtain rfl := Option.some.inj hs
      obtain ⟨bs₁, hi₁, -⟩ := ho.inv.kmalloc hsize (Prod.eta (kmalloc s.heap size supply)).symm
      exact ⟨hsize, bs₁, bs₁, hi₁, hi₁, rfl⟩
    · cases hs
  | kcalloc count size =>
    simp only [step] at hs
    split at hs
    · next hsize =>
      obtain rfl := Option.some.inj hs
      obtain ⟨bs₁, hi', -, -, hi₁⟩ := ho.inv.kcalloc hsize (Prod.eta (kcalloc s.heap count size supply)).symm
      exact ⟨hsize, bs₁, bs₁, hi', hi₁, rfl⟩
    · cases hs
  | krealloc ptr size =>
    simp only [step] at hs
    split at hs
    · next hc =>
      obtain ⟨hptr, hsize⟩ := hc
      obtain ⟨r, hr, rfl⟩ := Option.map_eq_some_iff.mp hs
      dsimp only [toCall, request]
      rcases hptr with rfl | hlive
      · rw [krealloc, if_pos rfl] at hr
        obtain rfl := Option.some.inj hr
        obtain ⟨bs₁, hi₁, -⟩ := ho.inv.kmalloc hsize (Prod.eta (kmalloc s.heap size supply)).symm
        rw [if_pos rfl]
        exact ⟨hsize, bs₁, bs₁, hi₁, hi₁, rfl⟩
      · obtain ⟨b, hb, hu, rfl⟩ := ho.live ptr hlive
        obtain ⟨hsub, hne, hmagic, hbsize⟩ := hfirst hb
        obtain ⟨h', p, bs', he, hi', -, -, bs₁, hi₁, hextent⟩ := ho.inv.krealloc supply hb hu hsize
        rw [he] at hr
        obtain rfl := Option.some.inj hr
        rw [if_neg hne, hsub, if_neg (not_not_intro hmagic), hbsize]
        exact ⟨by split <;> omega, bs', bs₁, hi', hi₁, hextent⟩
    · cases hs
  | kfree ptr =>
    simp only [step] at hs
    split at hs
    · next hptr =>
      obtain ⟨h', hfree, rfl⟩ := Option.map_eq_some_iff.mp hs
      refine ⟨Nat.zero_le _, ?_⟩
      rcases hptr with rfl | hlive
      · rw [kfree, if_pos rfl] at hfree
        obtain rfl := Option.some.inj hfree
        exact ⟨bs, bs, ho.inv, ho.inv, rfl⟩
      · obtain ⟨b, hb, hu, rfl⟩ := ho.live ptr hlive
        obtain ⟨h₁, bs', he, hi', -, -, hextent⟩ := ho.inv.kfree hb hu
        rw [he] at hfree
        obtain rfl := Option.some.inj hfree
        exact ⟨bs', bs, hi', ho.inv, hextent⟩
    · cases hs
  | store ptr offset byte =>
    simp only [step] at hs
    split at hs
    · next hc =>
      obtain ⟨hlive, hoff⟩ := hc
      obtain rfl := Option.some.inj hs
      obtain ⟨b, hb, hu, rfl⟩ := ho.live ptr hlive
      obtain ⟨hsub, -, -, hbsize⟩ := hfirst hb
      rw [hsub, hbsize] at hoff
      obtain ⟨hi', -⟩ := ho.inv.writePayload hb (m := fill s.heap.mem (b.payload + offset) 1 fun _ => byte) (by
        intro x hx
        refine fill_sameOn (b := x) (k := 1) _ _ ?_ x le_rfl (by omega)
        omega)
      exact ⟨Nat.zero_le _, bs, bs, hi', ho.inv, rfl⟩
    · cases hs

/-- The books of a step: what its request loses is lost. -/
theorem step_books {bs : List Block} (ho : Owned s bs) (hs : step s a supply = some s') :
    ∃ bs' lost, Owned s' bs' ∧ s'.heap.heapBytes + extent bs = s.heap.heapBytes + extent bs' + lost ∧
      (lost = 0 ↔ ¬HalfGranted s.heap (request s.heap (toCall s a)) supply) := by
  obtain ⟨hn, bs', bs₁, hi', hi₁, hextent⟩ := step_request ho hs
  obtain ⟨bs₂, lost, hi₂, hsum, hzero⟩ := kmalloc_books ho.inv hn supply
  obtain ⟨bs'', ho', -⟩ := ho.step hs
  obtain rfl := inv_unique hi₁ hi₂
  obtain rfl := inv_unique hi' ho'.inv
  have hbytes : s'.heap.heapBytes = (kmalloc s.heap (request s.heap (toCall s a)) supply).1.heapBytes := by
    rw [ho'.inv.bytes, hi₁.bytes, call_heapEnd (step_call hs)]
  exact ⟨bs'', lost, ho', by rw [hbytes, hextent, hsum], hzero⟩

/-- The bytes without a block never get fewer. -/
theorem extent_le_heapBytes {bs : List Block} (hi : Inv h bs) : extent bs ≤ h.heapBytes := by
  have hle := placed_extent hi.placed
  rw [hi.bytes]
  omega

theorem accounted_step {bs : List Block} (ho : Owned s bs) (hs : step s a supply = some s') :
    Accounted s'.heap ↔ Accounted s.heap ∧ ¬HalfGranted s.heap (request s.heap (toCall s a)) supply := by
  obtain ⟨bs', lost, ho', hsum, hzero⟩ := step_books ho hs
  have hle := extent_le_heapBytes ho.inv
  rw [accounted_iff ho'.inv, accounted_iff ho.inv, ← hzero]
  omega

theorem whole_of_accounted (hr : Reachable Booted Step s) (ha : Accounted s.heap) : Reachable Booted WholeStep s := by
  induction hr with
  | start hb => exact .start hb
  | next hr hs ih =>
    obtain ⟨a, supply, hstep⟩ := hs
    obtain ⟨bs, ho⟩ := owned_of_reachable hr
    obtain ⟨hacc, hwhole⟩ := (accounted_step ho hstep).mp ha
    exact .next (ih hacc) ⟨a, supply, hwhole, hstep⟩

theorem booted_accounted (hb : Booted s) : Accounted s.heap := by
  obtain ⟨m, supply, hinit, -⟩ := hb
  obtain ⟨bs, hi, hextent⟩ := kheapInit_inv hinit
  exact (accounted_iff hi).mpr hextent

/-- The listed blocks account for every mapped byte exactly as long as no request was granted by
half; and a request that gets nothing leaves the blocks alone in any case. -/
theorem heap_accounting (hr : Reachable Booted Step s) :
    (Accounted s.heap ↔ Reachable Booted WholeStep s) ∧
    ∀ n ≤ heapMaxSize, ∀ supply, (kmalloc s.heap n supply).2 = 0 → Unmoved s.heap (kmalloc s.heap n supply).1 := by
  refine ⟨⟨whole_of_accounted hr, fun hw => ?_⟩, fun n hn supply hnull => ?_⟩
  · have hboth : Reachable Booted Step s ∧ Accounted s.heap := by
      refine hw.invariant (P := fun s => Reachable Booted Step s ∧ Accounted s.heap) ?_ ?_
      · exact fun s hb => ⟨.start hb, booted_accounted hb⟩
      · rintro s t ⟨hr, ha⟩ ⟨a, supply, hwhole, hstep⟩
        obtain ⟨bs, ho⟩ := owned_of_reachable hr
        exact ⟨.next hr ⟨a, supply, hstep⟩, (accounted_step ho hstep).mpr ⟨ha, hwhole⟩⟩
    exact hboth.2
  · obtain ⟨bs, ho⟩ := owned_of_reachable hr
    exact kmalloc_null ho.inv hn hnull

theorem step_kmalloc (s : State) (supply : ℕ → Supply) (hn : n ≤ heapMaxSize) : step s (.kmalloc n) supply =
    some ⟨(kmalloc s.heap n supply).1, hold s.live (kmalloc s.heap n supply).2⟩ := if_pos hn

def atBoot : State := ⟨bootHeap, []⟩

theorem booted_atBoot : Booted atBoot := ⟨_, _, bootHeap_init, rfl⟩

/-- A heap with a block in use. -/
theorem heap_accounting_small : ∃ s, Reachable Booted Step s ∧ Reachable Booted WholeStep s ∧
    (Accounted s.heap ↔ Reachable Booted WholeStep s) ∧
    ∀ n ≤ heapMaxSize, ∀ supply, (kmalloc s.heap n supply).2 = 0 → Unmoved s.heap (kmalloc s.heap n supply).1 := by
  have hwhole : ¬HalfGranted atBoot.heap 100 fun _ => initialPages := by
    rintro ⟨-, ht⟩
    obtain ⟨i, hi, hnone⟩ := ht.refused
    rw [show chunk (alignUp 100 8) / pageSize = 16 by decide] at hi
    simp [initialPages, hi] at hnone
  have hstep := step_kmalloc atBoot (fun _ => initialPages) (show 100 ≤ heapMaxSize by decide)
  have hr : Reachable Booted Step _ := .next (.start booted_atBoot) ⟨_, _, hstep⟩
  exact ⟨_, hr, .next (.start booted_atBoot) ⟨.kmalloc 100, fun _ => initialPages, hwhole, hstep⟩, heap_accounting hr⟩

/-- One more page, and no other. -/
def onePage : Supply := fun i => if i < 1 then some fun _ => 0 else none

theorem mem_extent {bs : List Block} (hb : b ∈ bs) : headerSize + b.size ≤ extent bs := by
  obtain ⟨pre, post, rfl⟩ := List.append_of_mem hb
  rw [extent_append, extent_cons]
  omega

/-- After a request for 64 KiB that got a single page, the 4096 bytes are in no block. -/
theorem page_without_block : ∃ s, Reachable Booted Step s ∧ extent (listed s.heap) ≠ s.heap.heapBytes := by
  have hbytes : bootHeap.heapBytes = 65536 := by decide
  obtain ⟨bs, hi, hextent⟩ := kheapInit_inv bootHeap_init
  rw [hbytes] at hextent
  have hunfit : findFit bootHeap 65536 = none := by
    rw [← Option.not_isSome_iff_eq_none, (Listed.of_shape hi.toShape).findFit_isSome]
    rintro ⟨b, hb, -, hle⟩
    have hsize := mem_extent hb
    unfold headerSize at hsize
    omega
  have hhalf : HalfGranted atBoot.heap 65536 fun _ => onePage := by
    refine ⟨by decide, ⟨hunfit, ?_, rfl, 1, by decide, rfl⟩⟩
    rw [show atBoot.heap.heapEnd = 0xD0010000 from HeapWindow.bootHeap_heapEnd]
    decide
  have hstep := step_kmalloc atBoot (fun _ => onePage) (show 65536 ≤ heapMaxSize by decide)
  have hr : Reachable Booted Step _ := .next (.start booted_atBoot) ⟨_, _, hstep⟩
  refine ⟨_, hr, fun hsum => ?_⟩
  obtain ⟨bs', ho'⟩ := owned_of_reachable hr
  obtain ⟨bs, ho⟩ := owned_of_reachable (.start booted_atBoot)
  rw [listed_eq ho'.inv.toShape] at hsum
  exact ((accounted_step ho hstep).mp ((accounted_iff ho'.inv).mpr hsum)).2 hhalf

end SifarOS.HeapAccounting
