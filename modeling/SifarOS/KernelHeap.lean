import SifarOS.BlockList

/-! # The kernel heap

`kernel/mm/kheap.c` over the bytes of the heap's address range. A pointer is its address, `NULL` is
0, and the arithmetic is that of 32-bit words. A call of `grow` learns from a `Supply` what becomes
of each page it asks for: a missing frame and a failed mapping look alike, and a page that does get
mapped brings bytes of its own. A panic is `none`. -/
namespace SifarOS.KernelHeap
open ByteMemory BlockList

def heapBase : ℕ := 0xD0000000
def heapMaxSize : ℕ := 0xD4000000 - 0xD0000000
def pageSize : ℕ := 4096
def blockMagic : ℕ := 0x48454150
def minSplit : ℕ := 32
abbrev headerSize : ℕ := 20

/-- The members of `struct block`. -/
inductive Field | magic | size | next | prev | free deriving DecidableEq, Repr

def Field.offset : Field → ℕ
  | .magic => 0
  | .size => 4
  | .next => 8
  | .prev => 12
  | .free => 16

/-- The header of a block. -/
def header : Header Field headerSize where
  offset := Field.offset
  offset_le := by
    intro f
    cases f <;> decide
  apart := by
    intro f g
    cases f <;> cases g <;> decide

/-- The static variables of the allocator, and the memory. -/
structure Heap where
  mem : Memory
  firstBlock : ℕ
  heapEnd : ℕ
  heapBytes : ℕ

/-- What the `i`-th page of a `grow` comes to. -/
abbrev Supply := ℕ → Option (ℕ → UInt8)

/-- The loop of `grow`, from page `i` on. -/
def growLoop (supply : Supply) : ℕ → ℕ → Heap → Heap × Bool
  | 0, _, h => (h, true)
  | pages + 1, i, h => match supply i with
    | none => (h, false)
    | some page => growLoop supply pages (i + 1)
        { h with
          mem := fill h.mem h.heapEnd pageSize page
          heapEnd := u32 (h.heapEnd + pageSize)
          heapBytes := u32 (h.heapBytes + pageSize) }

def grow (h : Heap) (bytes : ℕ) (supply : Supply) : Heap × Bool :=
  let pages := alignUp bytes pageSize / pageSize
  if u32 (heapBase + heapMaxSize) < u32 (h.heapEnd + pages * pageSize) then (h, false)
  else growLoop supply pages 0 h

def kheapInit (m : Memory) (supply : Supply) : Option Heap :=
  let grown := grow { mem := m, firstBlock := 0, heapEnd := heapBase, heapBytes := 0 } (64 * 1024) supply
  if grown.2 then
    let m := header.set grown.1.mem heapBase .magic blockMagic
    let m := header.set m heapBase .size (sub32 grown.1.heapBytes headerSize)
    let m := header.set m heapBase .next 0
    let m := header.set m heapBase .prev 0
    let m := header.set m heapBase .free 1
    some { grown.1 with mem := m, firstBlock := heapBase }
  else none

/-- No list of blocks can be longer than the heap has bytes. -/
def Heap.blocks (h : Heap) : List ℕ := walk (header.get h.mem · .next) h.heapBytes h.firstBlock

def extendHeap (h : Heap) (needed : ℕ) (supply : Supply) : Heap × Bool :=
  let chunk := alignUp (u32 (needed + headerSize)) (64 * 1024)
  let oldEnd := h.heapEnd
  let last := h.blocks.getLast?.getD h.firstBlock
  match grow h chunk supply with
  | (h, false) => (h, false)
  | (h, true) =>
    let added := sub32 h.heapEnd oldEnd
    if header.get h.mem last .free ≠ 0 then
      ({ h with mem := header.set h.mem last .size (header.get h.mem last .size + added) }, true)
    else
      let m := header.set h.mem oldEnd .magic blockMagic
      let m := header.set m oldEnd .size (sub32 added headerSize)
      let m := header.set m oldEnd .free 1
      let m := header.set m oldEnd .next 0
      let m := header.set m oldEnd .prev last
      let m := header.set m last .next oldEnd
      ({ h with mem := m }, true)

/-- `if (b) b->prev = p;` -/
def setPrev (m : Memory) (b p : ℕ) : Memory := if b ≠ 0 then header.set m b .prev p else m

def split (m : Memory) (b size : ℕ) : Memory :=
  if header.get m b .size < u32 (size + headerSize + minSplit) then m
  else
    let rest := u32 (b + headerSize + size)
    let m := header.set m rest .magic blockMagic
    let m := header.set m rest .size (sub32 (sub32 (header.get m b .size) size) headerSize)
    let m := header.set m rest .free 1
    let m := header.set m rest .next (header.get m b .next)
    let m := header.set m rest .prev b
    let m := setPrev m (header.get m b .next) rest
    let m := header.set m b .next rest
    header.set m b .size size

/-- The first fit. -/
def findFit (h : Heap) (size : ℕ) : Option ℕ :=
  h.blocks.find? (fun b => decide (header.get h.mem b .free ≠ 0 ∧ size ≤ header.get h.mem b .size))

/-- The attempts of `kmalloc`, from attempt `i` on. -/
def kmallocLoop (size : ℕ) (supply : ℕ → Supply) : ℕ → ℕ → Heap → Heap × ℕ
  | 0, _, h => (h, 0)
  | attempts + 1, i, h => match findFit h size with
    | some b => ({ h with mem := header.set (split h.mem b size) b .free 0 }, u32 (b + headerSize))
    | none =>
      let extended := extendHeap h size (supply i)
      if extended.2 then kmallocLoop size supply attempts (i + 1) extended.1 else (extended.1, 0)

def kmalloc (h : Heap) (size : ℕ) (supply : ℕ → Supply) : Heap × ℕ :=
  if size = 0 then (h, 0) else kmallocLoop (alignUp size 8) supply 2 0 h

def kcalloc (h : Heap) (count size : ℕ) (supply : ℕ → Supply) : Heap × ℕ :=
  let total := u32 (count * size)
  let r := kmalloc h total supply
  (if r.2 ≠ 0 then { r.1 with mem := fill r.1.mem r.2 total (fun _ => 0) } else r.1, r.2)

/-- The block `b` takes in its successor `n`; `coalesce` does so once on each side. -/
def absorb (m : Memory) (b n : ℕ) : Memory :=
  let m := header.set m b .size (header.get m b .size + headerSize + header.get m n .size)
  let m := header.set m b .next (header.get m n .next)
  setPrev m (header.get m n .next) b

def coalesce (m : Memory) (b : ℕ) : Memory :=
  let m :=
    if header.get m b .next ≠ 0 ∧ header.get m (header.get m b .next) .free ≠ 0 then absorb m b (header.get m b .next)
    else m
  if header.get m b .prev ≠ 0 ∧ header.get m (header.get m b .prev) .free ≠ 0 then absorb m (header.get m b .prev) b
  else m

def kfree (h : Heap) (ptr : ℕ) : Option Heap :=
  if ptr = 0 then some h
  else
    let b := sub32 ptr headerSize
    if header.get h.mem b .magic ≠ blockMagic then none
    else if header.get h.mem b .free ≠ 0 then none
    else some { h with mem := coalesce (header.set h.mem b .free 1) b }

def krealloc (h : Heap) (ptr size : ℕ) (supply : ℕ → Supply) : Option (Heap × ℕ) :=
  if ptr = 0 then some (kmalloc h size supply)
  else if size = 0 then (kfree h ptr).map (fun h => (h, 0))
  else
    let b := sub32 ptr headerSize
    if header.get h.mem b .magic ≠ blockMagic then none
    else if size ≤ header.get h.mem b .size then some (h, ptr)
    else
      let fresh := kmalloc h size supply
      if fresh.2 = 0 then some (fresh.1, 0)
      else
        let m := fresh.1.mem
        -- memcpy(fresh, ptr, b->size)
        let copied := fill m fresh.2 (header.get m b .size) (fun i => m (ptr + i))
        (kfree { fresh.1 with mem := copied } ptr).map (fun h => (h, fresh.2))

/-- What `kheap_stats` reports. -/
structure Stats where
  used : ℕ
  freed : ℕ
  total : ℕ
  blocks : ℕ
  deriving DecidableEq, Repr

/-- One turn of the loop of `kheap_stats`. -/
def Stats.count (m : Memory) (stats : Stats) (b : ℕ) : Stats :=
  let stats := { stats with blocks := u32 (stats.blocks + 1) }
  if header.get m b .free ≠ 0 then { stats with freed := u32 (stats.freed + header.get m b .size) }
  else { stats with used := u32 (stats.used + header.get m b .size) }

def kheapStats (h : Heap) : Stats :=
  h.blocks.foldl (Stats.count h.mem) { used := 0, freed := 0, total := h.heapBytes, blocks := 0 }

/-! ## Runs of calls -/

/-- The heap and the pointers its users hold. -/
structure State where
  heap : Heap
  live : List ℕ

inductive Action
  | kmalloc (size : ℕ)
  | kcalloc (count size : ℕ)
  | krealloc (ptr size : ℕ)
  | kfree (ptr : ℕ)
  /-- The owner of `ptr` writes a byte of its payload. -/
  | store (ptr offset : ℕ) (byte : UInt8)
  deriving DecidableEq, Repr

/-- The pointer an action is given. -/
def Action.own : Action → ℕ
  | .kmalloc _ | .kcalloc _ _ => 0
  | .krealloc ptr _ | .kfree ptr | .store ptr _ _ => ptr

/-- The pointers after a call that returned `p`. -/
def hold (live : List ℕ) (p : ℕ) : List ℕ := if p = 0 then live else p :: live

/-- One call. Requests go up to the size of the heap window, and a pointer handed in is `NULL` or
live. -/
def step (s : State) (a : Action) (supply : ℕ → Supply) : Option State :=
  match a with
  | .kmalloc size =>
    if size ≤ heapMaxSize then
      let r := kmalloc s.heap size supply
      some ⟨r.1, hold s.live r.2⟩
    else none
  | .kcalloc count size =>
    if u32 (count * size) ≤ heapMaxSize then
      let r := kcalloc s.heap count size supply
      some ⟨r.1, hold s.live r.2⟩
    else none
  | .krealloc ptr size =>
    if (ptr = 0 ∨ ptr ∈ s.live) ∧ size ≤ heapMaxSize then
      (krealloc s.heap ptr size supply).map (fun r =>
        -- a failed request for more leaves the old block with its owner
        ⟨r.1, if r.2 = 0 ∧ size ≠ 0 then s.live else hold (s.live.erase ptr) r.2⟩)
    else none
  | .kfree ptr =>
    if ptr = 0 ∨ ptr ∈ s.live then (kfree s.heap ptr).map (fun h => ⟨h, s.live.erase ptr⟩) else none
  | .store ptr offset byte =>
    if ptr ∈ s.live ∧ offset < header.get s.heap.mem (sub32 ptr headerSize) .size then
      some { s with heap := { s.heap with mem := fill s.heap.mem (ptr + offset) 1 (fun _ => byte) } }
    else none

/-- After `kheap_init`. -/
def Booted (s : State) : Prop := ∃ m supply, kheapInit m supply = some s.heap ∧ s.live = []

def Step (s s' : State) : Prop := ∃ a supply, step s a supply = some s'

/-! ## Reading a header after a write -/

theorem setPrev_sameOn (m : Memory) (p : ℕ) {a b n : ℕ} (h : b ≠ 0 → a + n ≤ b ∨ b + headerSize ≤ a) :
    SameOn m (setPrev m b p) a n := by
  unfold setPrev
  split
  · rename_i hb
    exact header.set_sameOn m _ _ (h hb)
  · exact SameOn.refl m a n

end SifarOS.KernelHeap
