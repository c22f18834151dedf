import SifarOS.KernelHeapSafety
import SifarOS.ProcessTable
import Mathlib.Algebra.BigOperators.Pi
import Mathlib.Algebra.Order.BigOperators.Group.Finset
import Mathlib.Tactic.Abel

/-! # The heap blocks of threads

`thread_create` takes three blocks from the kernel heap, and `sched_reap` is where they are given
back. A call is one step here. Who runs next after a switch is an argument; the bytes of the
descriptors, stacks and save areas are the owners' business, who write to them at any time. -/
namespace SifarOS.ThreadMemory
open BlockList KernelHeap KernelHeapSafety ProcessTable ReachableStates ByteMemory

/-- `sizeof(struct thread)` -/
def threadSize : ℕ := 80

/-- `STACK_SIZE` -/
def stackSize : ℕ := 32 * 1024

/-- The save area, with room for its alignment. -/
def fpuSize : ℕ := 512 + 16

/-- What `struct thread` holds of interest here, and its own address. The pointer that `kmalloc` returned
for the save area is not stored, only the aligned one. -/
structure Thread where
  address : ℕ
  stackBase : ℕ
  fpuState : ℕ
  tid : Int32
  state : ThreadState
  detached : Bool
  /-- the block of the save area, which the code forgets -/
  raw : ℕ
  deriving DecidableEq, Repr

/-- What `thread_create` took from the heap. -/
def Thread.blocks (t : Thread) : List ℕ := [t.address, t.stackBase, t.raw]

/-- The heap, the table, the entry of the current thread, and two lists for the record: the blocks in use
before the first thread was created, and the threads `sched_reap` has removed. Entry 0 is thread 0, which is
static data. -/
structure Kernel where
  heap : Heap
  threads : ThreadSlot → Option Thread
  current : ThreadSlot
  nextTid : Int32
  before : List ℕ
  removed : List Thread

/-- `boot_thread` -/
def bootThread : Thread where
  address := 0
  stackBase := 0
  fpuState := 0
  tid := 0
  state := .running
  detached := false
  raw := 0

/-- The calls of `thread_create`; `supply` tells what each request for pages comes to. -/
def threadCreate (k : Kernel) (supply : ℕ → ℕ → Supply) : Option (Kernel × Int32) :=
  match (List.finRange 32).find? fun i => k.threads i = none with
  | none => some (k, -1)
  | some slot =>
    let t := kmalloc k.heap threadSize (supply 0)
    if t.2 = 0 then some ({ k with heap := t.1 }, -1)
    else
      let stack := kmalloc t.1 stackSize (supply 1)
      if stack.2 = 0 then (kfree stack.1 t.2).map fun h => ({ k with heap := h }, -1)
      else
        let raw := kmalloc stack.1 fpuSize (supply 2)
        if raw.2 = 0 then
          (kfree raw.1 stack.2).bind fun h => (kfree h t.2).map fun h => ({ k with heap := h }, -1)
        else
          some ({ k with
            heap := raw.1
            threads := Function.update k.threads slot (some
              { address := t.2
                stackBase := stack.2
                fpuState := alignUp raw.2 16
                tid := k.nextTid
                state := .ready
                detached := true
                raw := raw.2 })
            nextTid := k.nextTid + 1 }, k.nextTid)

/-- A change of the thread at an entry. -/
def Kernel.setThread (k : Kernel) (i : ThreadSlot) (f : Thread → Thread) : Kernel :=
  { k with threads := Function.update k.threads i ((k.threads i).map f) }

/-- `thread_exit`, after which another thread runs. -/
def threadExit (k : Kernel) (next : ThreadSlot) : Kernel :=
  { k.setThread k.current fun t => { t with state := .zombie } with current := next }

def threadKill (k : Kernel) (tid : Int32) : Kernel :=
  match (List.finRange 32).find? fun i =>
      (k.threads i).any fun t => t.tid = tid ∧ t.tid ≠ 0 ∧ t.state ≠ .zombie with
  | some i => k.setThread i fun t => { t with state := .zombie }
  | none => k

/-- One turn of the loop of `sched_reap`. -/
def reapEntry (k : Kernel) (i : ThreadSlot) : Option Kernel :=
  match k.threads i with
  | none => some k
  | some t =>
    if t.state = .zombie ∧ i ≠ k.current ∧ t.detached then
      (kfree k.heap t.stackBase).bind fun h => (kfree h t.address).map fun h =>
        { k with
          heap := h
          threads := Function.update k.threads i none
          removed := t :: k.removed }
    else some k

def schedReap (k : Kernel) : Option Kernel := ((List.finRange 32).drop 1).foldlM reapEntry k

/-- The pointers of the blocks in use, from the list of the heap. -/
def inUse (h : Heap) : List ℕ :=
  (h.blocks.filter fun b => header.get h.mem b .free = 0).map (· + headerSize)

/-- What the block of a pointer counts in `kheap_stats`. -/
def blockSize (h : Heap) (p : ℕ) : ℕ := header.get h.mem (p - headerSize) .size

inductive Act
  | create (supply : ℕ → ℕ → Supply)
  | exit (next : ThreadSlot)
  | kill (tid : Int32)
  /-- `thread_join` takes hold of a thread, or lets go of it -/
  | detach (i : ThreadSlot) (detached : Bool)
  | switch (next : ThreadSlot)
  | reap
  /-- the owner of a block writes a byte of it -/
  | store (p offset : ℕ) (byte : UInt8)

def step (k : Kernel) : Act → Option Kernel
  | .create supply => (threadCreate k supply).map Prod.fst
  | .exit next => some (threadExit k next)
  | .kill tid => some (threadKill k tid)
  | .detach i detached => some (k.setThread i fun t => { t with detached := detached })
  | .switch next => some { k with current := next }
  | .reap => schedReap k
  | .store p offset byte =>
    if p ∈ inUse k.heap ∧ offset < blockSize k.heap p then
      some { k with heap := { k.heap with mem := fill k.heap.mem (p + offset) 1 fun _ => byte } }
    else none

/-- After `sched_init`, whatever the rest of the kernel has allocated by then. -/
def Started (k : Kernel) : Prop :=
  (∃ s, Reachable Booted KernelHeap.Step s ∧ k.heap = s.heap) ∧
    k.threads = Function.update (fun _ => none) 0 (some bootThread) ∧ k.before = inUse k.heap ∧ k.removed = []

def Step (k k' : Kernel) : Prop := ∃ a, step k a = some k'

/-- The blocks of an entry of the table. -/
def entryBlocks (threads : ThreadSlot → Option Thread) (i : ThreadSlot) : Multiset ℕ :=
  if i = 0 then 0 else ((threads i).elim [] Thread.blocks : List ℕ)

/-- The blocks of the threads in the table. -/
def owned (threads : ThreadSlot → Option Thread) : Multiset ℕ := ∑ i, entryBlocks threads i

/-- The blocks in use are those of the threads in the table, and those of the rest of the kernel. -/
def GivenBack (k : Kernel) : Prop := (inUse k.heap : Multiset ℕ) = k.before + owned k.threads

/-! ## The list of the heap -/

section Heaps
variable {h : Heap} {bs : List Block} {p size : ℕ}

theorem inUse_eq (hs : Shape h bs) : inUse h = pointers bs := by
  rw [inUse, hs.blocks, List.filter_map, List.map_map, pointers]
  refine congrArg (List.map Block.payload) (List.filter_congr fun b hb => ?_)
  obtain ⟨pre, post, rfl⟩ := List.append_of_mem hb
  have hfree := hs.headerAt.free_iff
  cases hc : b.free
  · simpa [hc] using hfree
  · simpa [hc] using hfree

/-- The loop of `kheap_stats`, from any point on. -/
theorem used_foldl (m : Memory) (l : List ℕ) (stats : Stats) (hlt : stats.used < 4294967296) :
    (l.foldl (Stats.count m) stats).used =
      u32 (stats.used + ((l.filter fun b => header.get m b .free = 0).map fun b => header.get m b .size).sum) := by
  induction l generalizing stats with
  | nil => simp [u32, Nat.mod_eq_of_lt hlt]
  | cons b l ih =>
    rw [List.foldl_cons]
    by_cases hfree : header.get m b .free = 0
    · have hused : (Stats.count m stats b).used = u32 (stats.used + header.get m b .size) := by simp [Stats.count, hfree]
      rw [ih _ (by rw [hused]; exact Nat.mod_lt _ (by decide)), hused]
      simp only [hfree, List.filter_cons_of_pos, decide_true, List.map_cons, List.sum_cons, u32]
      omega
    · have hused : (Stats.count m stats b).used = stats.used := by simp [Stats.count, hfree]
      rw [ih _ (by rwa [hused]), hused]
      simp [hfree]

/-- `kheap_stats` counts the blocks in use. -/
theorem kheapStats_used (h : Heap) : (kheapStats h).used = u32 ((inUse h).map (blockSize h)).sum := by
  rw [kheapStats, used_foldl _ _ _ (Nat.zero_lt_succ _), inUse, List.map_map]
  simp [Function.comp_def, blockSize]

theorem kmalloc_pointers (hi : Inv h bs) (size : ℕ) (hsize : size ≤ heapMaxSize) (supply : ℕ → Supply) :
    ∃ bs', Inv (kmalloc h size supply).1 bs' ∧
      (pointers bs' : Multiset ℕ) = hold (pointers bs) (kmalloc h size supply).2 := by
  obtain ⟨bs', hi', -, -, hperm⟩ := hi.kmalloc hsize (Prod.eta _).symm
  exact ⟨bs', hi', Multiset.coe_eq_coe.mpr hperm⟩

theorem kfree_pointers (hi : Inv h bs) (hp : p ∈ (pointers bs : Multiset ℕ)) :
    ∃ h' bs', kfree h p = some h' ∧ Inv h' bs' ∧ (pointers bs : Multiset ℕ) = {p} + pointers bs' := by
  obtain ⟨b, hb, rfl⟩ := List.mem_map.mp (Multiset.mem_coe.mp hp)
  obtain ⟨hb, hused⟩ := List.mem_filter.mp hb
  obtain ⟨h', bs', he, hi', -, hperm, -⟩ := hi.kfree hb (by simpa using hused)
  exact ⟨h', bs', he, hi', by simpa using Multiset.coe_eq_coe.mpr hperm⟩

end Heaps

/-! ## The account -/

/-- The save areas of the threads that are gone. -/
def leaked (k : Kernel) : Multiset ℕ := (k.removed.map Thread.raw : List ℕ)

/-- Every block in use has an owner: the rest of the kernel, a thread in the table, or a thread that is gone. -/
structure Accounted (k : Kernel) (bs : List Block) : Prop where
  inv : Inv k.heap bs
  ledger : (pointers bs : Multiset ℕ) = k.before + owned k.threads + leaked k
  boot : k.threads 0 ≠ none

section Tables
variable {threads : ThreadSlot → Option Thread} {i : ThreadSlot}

theorem entryBlocks_ne (h : i ≠ 0) : entryBlocks threads i = ((threads i).elim [] Thread.blocks : List ℕ) := if_neg h

/-- An entry and the rest of the table. -/
theorem owned_split (threads : ThreadSlot → Option Thread) (i : ThreadSlot) :
    owned threads = entryBlocks threads i + ∑ j ∈ Finset.univ.erase i, entryBlocks threads j :=
  (Finset.add_sum_erase _ _ (Finset.mem_univ i)).symm

theorem owned_update (i : ThreadSlot) (v : Option Thread) :
    owned (Function.update threads i v) =
      entryBlocks (Function.update threads i v) i + ∑ j ∈ Finset.univ.erase i, entryBlocks threads j := by
  rw [owned_split _ i]
  refine congrArg _ (Finset.sum_congr rfl fun j hj => ?_)
  rw [entryBlocks, entryBlocks, Function.update_of_ne (Finset.ne_of_mem_erase hj)]

theorem owned_insert (hi : i ≠ 0) (hnone : threads i = none) (t : Thread) :
    owned (Function.update threads i (some t)) = (t.blocks : Multiset ℕ) + owned threads := by
  rw [owned_update, owned_split threads i, entryBlocks_ne hi, entryBlocks_ne hi, hnone, Function.update_self]
  simp

theorem owned_remove (hi : i ≠ 0) {t : Thread} (ht : threads i = some t) :
    owned threads = (t.blocks : Multiset ℕ) + owned (Function.update threads i none) := by
  rw [owned_update, owned_split threads i, entryBlocks_ne hi, entryBlocks_ne hi, ht, Function.update_self]
  simp

end Tables

variable {k k' : Kernel} {bs : List Block}

theorem Accounted.congr (ha : Accounted k bs) (hheap : k'.heap = k.heap) (hbefore : k'.before = k.before)
    (hremoved : k'.removed = k.removed) (howned : owned k'.threads = owned k.threads) (hboot : k'.threads 0 ≠ none) :
    Accounted k' bs :=
  ⟨hheap ▸ ha.inv, by rw [ha.ledger, hbefore, howned, leaked, leaked, hremoved], hboot⟩

theorem Accounted.setThread (ha : Accounted k bs) (i : ThreadSlot) {f : Thread → Thread}
    (hf : ∀ t, (f t).blocks = t.blocks) : Accounted (k.setThread i f) bs := by
  have hsame : ∀ j, ((k.setThread i f).threads j).elim [] Thread.blocks = (k.threads j).elim [] Thread.blocks := by
    intro j
    by_cases hj : j = i
    · subst hj
      cases ht : k.threads j <;> simp [Kernel.setThread, ht, hf]
    · simp [Kernel.setThread, hj]
  refine ha.congr rfl rfl rfl ?_ ?_
  · refine Finset.sum_congr rfl fun j _ => ?_
    rw [entryBlocks, entryBlocks, hsame]
  · intro hnone
    by_cases hi : (0 : ThreadSlot) = i
    · subst hi
      cases ht : k.threads 0 with
      | none => exact ha.boot ht
      | some t => simp [Kernel.setThread, ht] at hnone
    · refine ha.boot ?_
      simpa [Kernel.setThread, hi] using hnone

theorem Thread.coe_blocks (t : Thread) : (t.blocks : Multiset ℕ) = {t.address} + {t.stackBase} + {t.raw} := rfl

/-- A freed block that was counted alone is gone from the count. -/
theorem Accounted.undo {h : Heap} {p : ℕ} {P : Multiset ℕ} (hi : Inv h bs)
    (hp : (pointers bs : Multiset ℕ) = {p} + P) :
    ∃ h' bs', kfree h p = some h' ∧ Inv h' bs' ∧ (pointers bs' : Multiset ℕ) = P := by
  obtain ⟨h', bs', he, hi', hcut⟩ := kfree_pointers (p := p) hi (by rw [hp]; simp)
  exact ⟨h', bs', he, hi', add_left_cancel (hcut.symm.trans hp)⟩

theorem hold_zero {l : List ℕ} {p : ℕ} (h : p = 0) : (hold l p : Multiset ℕ) = l := by rw [hold, if_pos h]

theorem hold_cons {l : List ℕ} {p : ℕ} (h : p ≠ 0) : (hold l p : Multiset ℕ) = {p} + (l : Multiset ℕ) := by
  rw [hold, if_neg h, ← Multiset.cons_coe, Multiset.singleton_add]

/-- `thread_create` returns, and every block it took is a thread's or back in the heap. -/
theorem Accounted.threadCreate (ha : Accounted k bs) (supply : ℕ → ℕ → Supply) :
    ∃ k' tid bs', threadCreate k supply = some (k', tid) ∧ Accounted k' bs' ∧ k'.before = k.before ∧
      k'.removed = k.removed := by
  unfold ThreadMemory.threadCreate
  split
  · exact ⟨k, -1, bs, rfl, ha, rfl, rfl⟩
  next slot hslot =>
  have hempty : k.threads slot = none := by simpa using List.find?_some hslot
  have hzero : slot ≠ 0 := by
    rintro rfl
    exact ha.boot hempty
  obtain ⟨bs₁, hi₁, hp₁⟩ := kmalloc_pointers ha.inv threadSize (by decide) (supply 0)
  generalize hm₁ : kmalloc k.heap threadSize (supply 0) = t at hi₁ hp₁
  dsimp only
  split
  · next ht =>
    rw [hold_zero ht] at hp₁
    exact ⟨_, -1, bs₁, rfl, ⟨hi₁, hp₁.trans ha.ledger, ha.boot⟩, rfl, rfl⟩
  next ht =>
  rw [hold_cons ht] at hp₁
  obtain ⟨bs₂, hi₂, hp₂⟩ := kmalloc_pointers hi₁ stackSize (by decide) (supply 1)
  generalize hm₂ : kmalloc t.1 stackSize (supply 1) = stack at hi₂ hp₂
  split
  · next hs =>
    rw [hold_zero hs, hp₁] at hp₂
    obtain ⟨h', bs', he, hi', hp'⟩ := Accounted.undo hi₂ hp₂
    rw [he]
    exact ⟨_, -1, bs', rfl, ⟨hi', hp'.trans ha.ledger, ha.boot⟩, rfl, rfl⟩
  next hs =>
  rw [hold_cons hs, hp₁] at hp₂
  obtain ⟨bs₃, hi₃, hp₃⟩ := kmalloc_pointers hi₂ fpuSize (by decide) (supply 2)
  generalize hm₃ : kmalloc stack.1 fpuSize (supply 2) = raw at hi₃ hp₃
  split
  · next hr =>
    rw [hold_zero hr, hp₂] at hp₃
    obtain ⟨h₄, bs₄, he₄, hi₄, hp₄⟩ := Accounted.undo hi₃ hp₃
    obtain ⟨h', bs', he, hi', hp'⟩ := Accounted.undo hi₄ hp₄
    rw [he₄, Option.bind_some, he]
    exact ⟨_, -1, bs', rfl, ⟨hi', hp'.trans ha.ledger, ha.boot⟩, rfl, rfl⟩
  next hr =>
  rw [hold_cons hr, hp₂, ha.ledger] at hp₃
  refine ⟨_, k.nextTid, bs₃, rfl, ⟨hi₃, ?_, ?_⟩, rfl, rfl⟩
  · rw [hp₃, owned_insert hzero hempty, Thread.coe_blocks, leaked, leaked]
    abel
  · dsimp only
    rw [Function.update_of_ne hzero.symm]
    exact ha.boot

/-- One turn of the loop of `sched_reap`: of the three blocks of a dead thread one stays in use. -/
theorem Accounted.reapEntry (ha : Accounted k bs) {i : ThreadSlot} (hi : i ≠ 0) :
    ∃ k' bs', reapEntry k i = some k' ∧ Accounted k' bs' := by
  unfold ThreadMemory.reapEntry
  split
  · exact ⟨k, bs, rfl, ha⟩
  next t ht =>
  split
  · have hledger : (pointers bs : Multiset ℕ) = {t.stackBase} + ({t.address} +
        (k.before + owned (Function.update k.threads i none) + ({t.raw} + leaked k))) := by
      rw [ha.ledger, owned_remove hi ht, Thread.coe_blocks]
      abel
    obtain ⟨h₁, bs₁, he₁, hi₁, hp₁⟩ := Accounted.undo ha.inv hledger
    obtain ⟨h₂, bs₂, he₂, hi₂, hp₂⟩ := Accounted.undo hi₁ hp₁
    rw [he₁, Option.bind_some, he₂]
    refine ⟨_, bs₂, rfl, hi₂, hp₂, ?_⟩
    dsimp only
    rw [Function.update_of_ne hi.symm]
    exact ha.boot
  · exact ⟨k, bs, rfl, ha⟩

theorem Accounted.reapEntries (ha : Accounted k bs) {slots : List ThreadSlot} (hslots : ∀ i ∈ slots, i ≠ 0) :
    ∃ k' bs', slots.foldlM ThreadMemory.reapEntry k = some k' ∧ Accounted k' bs' := by
  induction slots generalizing k bs with
  | nil => exact ⟨k, bs, rfl, ha⟩
  | cons i rest ih =>
    obtain ⟨k₁, bs₁, he₁, ha₁⟩ := ha.reapEntry (hslots i (List.mem_cons_self ..))
    obtain ⟨k', bs', he, ha'⟩ := ih ha₁ fun j hj => hslots j (List.mem_cons_of_mem i hj)
    exact ⟨k', bs', by rw [List.foldlM_cons, he₁]; exact he, ha'⟩

theorem Accounted.schedReap (ha : Accounted k bs) : ∃ k' bs', schedReap k = some k' ∧ Accounted k' bs' :=
  ha.reapEntries (by decide)

theorem Accounted.threadKill (ha : Accounted k bs) (tid : Int32) : Accounted (threadKill k tid) bs := by
  unfold ThreadMemory.threadKill
  split
  · exact ha.setThread _ fun _ => rfl
  · exact ha

theorem Accounted.store (ha : Accounted k bs) {p offset : ℕ} (byte : UInt8) (hp : p ∈ inUse k.heap)
    (hoff : offset < blockSize k.heap p) :
    Accounted { k with heap := { k.heap with mem := fill k.heap.mem (p + offset) 1 fun _ => byte } } bs := by
  rw [inUse_eq ha.inv.toShape] at hp
  obtain ⟨b, hb, rfl⟩ := List.mem_map.mp hp
  have hb := List.mem_of_mem_filter hb
  have hsize : blockSize k.heap b.payload = b.size := by
    obtain ⟨pre, post, hbs⟩ := List.append_of_mem hb
    rw [blockSize, Block.payload, Nat.add_sub_cancel]
    exact (hbs ▸ ha.inv).headerAt.size
  rw [hsize] at hoff
  refine ⟨(ha.inv.writePayload hb fun x hx => ?_).1, ha.ledger, ha.boot⟩
  refine fill_sameOn (b := x) (k := 1) _ _ ?_ x le_rfl (by omega)
  omega

theorem Accounted.step (ha : Accounted k bs) {a : Act} (hs : step k a = some k') : ∃ bs', Accounted k' bs' := by
  cases a with
  | create supply =>
    obtain ⟨k₁, tid, bs', he, ha', -, -⟩ := ha.threadCreate supply
    simp only [ThreadMemory.step, he, Option.map_some, Option.some.injEq] at hs
    exact ⟨bs', hs ▸ ha'⟩
  | exit next =>
    obtain rfl := Option.some.inj hs
    have hdead := ha.setThread (f := fun t => { t with state := .zombie }) k.current fun _ => rfl
    exact ⟨bs, hdead.congr rfl rfl rfl rfl hdead.boot⟩
  | kill tid =>
    obtain rfl := Option.some.inj hs
    exact ⟨bs, ha.threadKill tid⟩
  | detach i detached =>
    obtain rfl := Option.some.inj hs
    exact ⟨bs, ha.setThread i fun _ => rfl⟩
  | switch next =>
    obtain rfl := Option.some.inj hs
    exact ⟨bs, ha.congr rfl rfl rfl rfl ha.boot⟩
  | reap =>
    obtain ⟨k₁, bs', he, ha'⟩ := ha.schedReap
    obtain rfl := Option.some.inj (he.symm.trans hs)
    exact ⟨bs', ha'⟩
  | store p offset byte =>
    simp only [ThreadMemory.step] at hs
    split at hs
    · next hc =>
      obtain rfl := Option.some.inj hs
      exact ⟨bs, ha.store byte hc.1 hc.2⟩
    · cases hs

theorem accounted_of_reachable (hr : Reachable Started Step k) : ∃ bs, Accounted k bs := by
  refine hr.invariant (P := fun k => ∃ bs, Accounted k bs) ?_ ?_
  · rintro k ⟨⟨s, hs, hheap⟩, hthreads, hbefore, hremoved⟩
    obtain ⟨bs, ho⟩ := owned_of_reachable hs
    have hinv : Inv k.heap bs := hheap ▸ ho.inv
    have hnone : owned k.threads = 0 := by
      rw [hthreads]
      refine Finset.sum_eq_zero fun i _ => ?_
      by_cases hi : i = 0
      · simp [entryBlocks, hi]
      · simp [entryBlocks, hi]
    refine ⟨bs, hinv, ?_, by simp [hthreads]⟩
    rw [hnone, leaked, hremoved, hbefore, inUse_eq hinv.toShape]
    simp
  · rintro k k' ⟨bs, ha⟩ ⟨a, hs⟩
    exact ha.step hs

theorem Accounted.inUse (ha : Accounted k bs) :
    (inUse k.heap : Multiset ℕ) = k.before + owned k.threads + leaked k := by
  rw [inUse_eq ha.inv.toShape, ha.ledger]

/-- Exactly the save areas of the removed threads are missing. -/
theorem Accounted.givenBack_iff (ha : Accounted k bs) : GivenBack k ↔ k.removed = [] := by
  rw [GivenBack, ha.inUse, add_eq_left, leaked, Multiset.coe_eq_zero, List.map_eq_nil_iff]

/-- In every state that creations, failed or not, and ends of threads lead to: the blocks in use are those of
the rest of the kernel and of the threads in the table if and only if `sched_reap` has not removed a thread
yet; the save area of every removed thread is still in use, and `kheap_stats` counts it; and a
`thread_create` that puts no thread in the table leaves the blocks in use as they were. -/
theorem thread_memory (hr : Reachable Started Step k) :
    (GivenBack k ↔ k.removed = []) ∧ (∀ t ∈ k.removed, t.raw ∈ inUse k.heap) ∧
      (kheapStats k.heap).used = u32 (((k.before + owned k.threads + leaked k).map (blockSize k.heap)).sum) ∧
      ∀ supply, ∃ k' tid, threadCreate k supply = some (k', tid) ∧
        (k'.threads = k.threads → (inUse k'.heap).Perm (inUse k.heap)) := by
  obtain ⟨bs, ha⟩ := accounted_of_reachable hr
  refine ⟨ha.givenBack_iff, fun t ht => ?_, ?_, fun supply => ?_⟩
  · rw [← Multiset.mem_coe, ha.inUse, Multiset.mem_add]
    exact .inr (Multiset.mem_coe.mpr (List.mem_map_of_mem ht))
  · rw [kheapStats_used, ← ha.inUse, Multiset.map_coe, Multiset.sum_coe]
  · obtain ⟨k', tid, bs', he, ha', hbefore, hremoved⟩ := ha.threadCreate supply
    refine ⟨k', tid, he, fun hthreads => ?_⟩
    rw [← Multiset.coe_eq_coe, ha.inUse, ha'.inUse, hbefore, hthreads, leaked, leaked, hremoved]

/-- The heap after `kheap_init`, and no thread but thread 0. -/
def atStart (h : Heap) : Kernel where
  heap := h
  threads := Function.update (fun _ => none) 0 (some bootThread)
  current := 0
  nextTid := 1
  before := inUse h
  removed := []

def afterActs (acts : List Act) : Option Kernel :=
  (kheapInit (fun _ => 0) plenty).bind fun h => follow step (atStart h) acts

theorem afterActs_reachable {acts : List Act} (h : afterActs acts = some k) : Reachable Started Step k := by
  obtain ⟨heap, hinit, hf⟩ := Option.bind_eq_some_iff.mp h
  exact Reachable.follow (fun k a k' hs => ⟨a, hs⟩)
    (.start ⟨⟨⟨heap, []⟩, .start ⟨_, _, hinit, rfl⟩, rfl⟩, rfl, rfl, rfl⟩) hf

/-- Two threads are created, and one of them is killed but not yet reaped. -/
theorem thread_memory_two : ∃ k, afterActs [.create fun _ _ => plenty, .create fun _ _ => plenty, .kill 1] = some k ∧
    (k.threads 2).map Thread.tid = some 2 ∧ GivenBack k := by
  have he : (afterActs [.create fun _ _ => plenty, .create fun _ _ => plenty, .kill 1]).map
      (fun k => ((k.threads 2).map Thread.tid, k.removed)) = some (some 2, []) := by decide
  obtain ⟨k, hk, hfacts⟩ := Option.map_eq_some_iff.mp he
  obtain ⟨htid, hremoved⟩ := Prod.mk.inj hfacts
  exact ⟨k, hk, htid, (thread_memory (afterActs_reachable hk)).1.mpr hremoved⟩

/-- A thread is created, killed and reaped. -/
theorem memory_not_given_back : ∃ k, afterActs [.create fun _ _ => plenty, .kill 1, .reap] = some k ∧
    Reachable Started Step k ∧ ¬GivenBack k := by
  have he : (afterActs [.create fun _ _ => plenty, .kill 1, .reap]).map (fun k => k.removed.length) = some 1 := by
    decide
  obtain ⟨k, hk, hlength⟩ := Option.map_eq_some_iff.mp he
  have hr := afterActs_reachable hk
  obtain ⟨bs, ha⟩ := accounted_of_reachable hr
  refine ⟨k, hk, hr, fun hback => ?_⟩
  rw [ha.givenBack_iff.mp hback] at hlength
  cases hlength

end SifarOS.ThreadMemory
