import SifarOS.BlockList
import Mathlib.Data.Int.Notation

/-! # The heap of a process

The allocator of `user/lib/sifar.c` over `proc_sbrk` of `kernel/proc.c`. A pointer is its address, `NULL` is 0, and
the arithmetic is that of 32-bit words. Whether the kernel finds the pages of a larger heap, and what they hold, is
an input. A process that touches a page it does not have is stopped; here the access goes through, so that there are
more runs and not fewer. -/
namespace SifarOS.UserHeap
open ByteMemory BlockList

def userMin : ℕ := 0x40000000
def userMax : ℕ := 0xD0000000
def userStackTop : ℕ := 0x40800000
def userStackPages : ℕ := 16
def pageSize : ℕ := 4096
def heapMagic : ℕ := 0x5346424C
abbrev headerSize : ℕ := 16

/-- The members of `struct block`. -/
inductive Field | magic | size | next | free deriving DecidableEq, Repr

def Field.offset : Field → ℕ
  | .magic => 0
  | .size => 4
  | .next => 8
  | .free => 12

/-- The header of a block. -/
def header : Header Field headerSize where
  offset := Field.offset
  offset_le := by
    intro f
    cases f <;> decide
  apart := by
    intro f g
    cases f <;> cases g <;> decide

/-- What the process and the kernel know about the heap. -/
structure Process where
  mem : Memory
  heapHead : ℕ
  brkStart : ℕ
  brk : ℕ
  stackTop : ℕ
  userPages : ℕ

/-- The bytes of the pages that `vmm_alloc_range` maps, when it does. -/
abbrev Pages := Option (ℕ → UInt8)

/-- The number of an `int` with these bits. -/
def toInt (n : ℕ) : ℤ := if n < 2147483648 then n else n - 4294967296

def stackFloor (p : Process) : ℕ := sub32 p.stackTop (userStackPages * pageSize)

/-- `proc_sbrk` -/
def procSbrk (p : Process) (increment : ℤ) (pages : Pages) : Process × ℕ :=
  if 0 < increment then
    let target := p.brk + increment.toNat
    if stackFloor p ≤ target ∨ userMax < target then (p, 0)
    else match pages with
      | none => (p, 0)
      | some page =>
        ({ p with
          mem := fill p.mem p.brk increment.toNat page
          brk := target
          userPages := u32 (p.userPages + sub32 (alignUp target pageSize) (alignUp p.brk pageSize) / pageSize) }, p.brk)
  else if increment < 0 then
    let shrink := min (-increment).toNat (sub32 p.brk p.brkStart)
    let pages := (alignUp p.brk pageSize - alignUp (p.brk - shrink) pageSize) / pageSize
    ({ p with brk := p.brk - shrink, userPages := p.userPages - pages }, p.brk)
  else (p, p.brk)

/-- No list of blocks can be longer than the heap has bytes. -/
def Process.room (p : Process) : ℕ := p.brk - p.brkStart + 1

def Process.blocks (p : Process) : List ℕ := walk (header.get p.mem · .next) p.room p.heapHead

/-- `grow_heap` with what `sbrk` returned: the new block goes behind the last. -/
def appendBlock (p : Process) (block chunk : ℕ) : Process × ℕ :=
  if block = 0 then (p, 0)
  else
    let m := header.set p.mem block .magic heapMagic
    let m := header.set m block .size (sub32 chunk headerSize)
    let m := header.set m block .free 1
    let m := header.set m block .next 0
    if p.heapHead = 0 then ({ p with mem := m, heapHead := block }, block)
    else
      let last := (walk (header.get m · .next) p.room p.heapHead).getLast?.getD p.heapHead
      ({ p with mem := header.set m last .next block }, block)

def growHeap (p : Process) (size : ℕ) (pages : Pages) : Process × ℕ :=
  let total := u32 (size + headerSize)
  let chunk := alignUp total 65536
  let r := procSbrk p (toInt chunk) pages
  appendBlock r.1 r.2 chunk

/-- The split at the end of `malloc`. -/
def split (m : Memory) (block size : ℕ) : Memory :=
  if u32 (size + headerSize + 32) ≤ header.get m block .size then
    let rest := u32 (block + headerSize + size)
    let m := header.set m rest .magic heapMagic
    let m := header.set m rest .size (sub32 (sub32 (header.get m block .size) size) headerSize)
    let m := header.set m rest .free 1
    let m := header.set m rest .next (header.get m block .next)
    let m := header.set m block .next rest
    header.set m block .size size
  else m

/-- The first fit. -/
def findFit (p : Process) (size : ℕ) : Option ℕ :=
  p.blocks.find? (fun b => decide (header.get p.mem b .free ≠ 0 ∧ size ≤ header.get p.mem b .size))

def malloc (p : Process) (size : ℕ) (pages : Pages) : Process × ℕ :=
  if size = 0 then (p, 0)
  else
    let size := alignUp size 8
    let found := match findFit p size with
      | some block => (p, block)
      | none => growHeap p size pages
    if found.2 = 0 then (found.1, 0)
    else
      ({ found.1 with mem := header.set (split found.1.mem found.2 size) found.2 .free 0 }, u32 (found.2 + headerSize))

/-- The loop of `free`: the block takes in the free blocks behind it. -/
def merge : ℕ → Memory → ℕ → Memory
  | 0, m, _ => m
  | fuel + 1, m, block =>
    let next := header.get m block .next
    if next ≠ 0 ∧ header.get m next .free ≠ 0 then
      let m := header.set m block .size (header.get m block .size + (headerSize + header.get m next .size))
      merge fuel (header.set m block .next (header.get m next .next)) block
    else m

def free (p : Process) (pointer : ℕ) : Process :=
  if pointer = 0 then p
  else
    let block := sub32 pointer headerSize
    if header.get p.mem block .magic ≠ heapMagic then p
    else { p with mem := merge p.room (header.set p.mem block .free 1) block }

def calloc (p : Process) (count size : ℕ) (pages : Pages) : Process × ℕ :=
  let r := malloc p (u32 (count * size)) pages
  (if r.2 ≠ 0 then { r.1 with mem := fill r.1.mem r.2 (u32 (count * size)) (fun _ => 0) } else r.1, r.2)

def realloc (p : Process) (pointer size : ℕ) (pages : Pages) : Process × ℕ :=
  if pointer = 0 then malloc p size pages
  else if size = 0 then (free p pointer, 0)
  else
    let block := sub32 pointer headerSize
    if header.get p.mem block .magic ≠ heapMagic then (p, 0)
    else if size ≤ header.get p.mem block .size then (p, pointer)
    else
      let fresh := malloc p size pages
      if fresh.2 = 0 then (fresh.1, 0)
      else
        let m := fresh.1.mem
        -- memcpy(fresh, pointer, block->size)
        let copied := fill m fresh.2 (header.get m block .size) (fun i => m (pointer + i))
        (free { fresh.1 with mem := copied } pointer, fresh.2)

/-! ## Runs of calls -/

/-- A pointer that a call has returned, and the bytes it was asked for. -/
structure Allocation where
  ptr : ℕ
  bytes : ℕ
  deriving DecidableEq, Repr

structure State where
  proc : Process
  live : List Allocation

inductive Action
  | malloc (size : ℕ)
  | calloc (count size : ℕ)
  | realloc (pointer size : ℕ)
  | free (pointer : ℕ)
  /-- The process writes a byte of what it has at `pointer`. -/
  | store (pointer offset : ℕ) (byte : UInt8)
  deriving DecidableEq, Repr

/-- The pointer a call is given. -/
def Action.own : Action → ℕ
  | .malloc _ | .calloc _ _ => 0
  | .realloc pointer _ | .free pointer | .store pointer _ _ => pointer

/-- The number of bytes a call asks for. -/
def Action.bytes : Action → ℕ
  | .malloc size | .realloc _ size => size
  | .calloc count size => count * size
  | .free _ | .store _ _ _ => 0

/-- What the code does and returns. -/
def serve (p : Process) (pages : Pages) : Action → Process × ℕ
  | .malloc size => malloc p size pages
  | .calloc count size => calloc p count size pages
  | .realloc pointer size => realloc p pointer size pages
  | .free pointer => (free p pointer, 0)
  | .store pointer offset byte => ({ p with mem := fill p.mem (pointer + offset) 1 (fun _ => byte) }, 0)

/-- Every word is one of 32 bits, a pointer handed in is `NULL` or live, and a process writes only what it has asked
for. -/
def Allowed (live : List Allocation) : Action → Prop
  | .malloc size => size < 4294967296
  | .calloc count size => count < 4294967296 ∧ size < 4294967296
  | .realloc pointer size => size < 4294967296 ∧ (pointer = 0 ∨ ∃ a ∈ live, a.ptr = pointer)
  | .free pointer => pointer = 0 ∨ ∃ a ∈ live, a.ptr = pointer
  | .store pointer offset _ => ∃ a ∈ live, a.ptr = pointer ∧ offset < a.bytes

instance (live : List Allocation) (a : Action) : Decidable (Allowed live a) :=
  match a with
  | .malloc size => inferInstanceAs (Decidable (size < 4294967296))
  | .calloc count size => inferInstanceAs (Decidable (count < 4294967296 ∧ size < 4294967296))
  | .realloc pointer size =>
    inferInstanceAs (Decidable (size < 4294967296 ∧ (pointer = 0 ∨ ∃ a ∈ live, a.ptr = pointer)))
  | .free pointer => inferInstanceAs (Decidable (pointer = 0 ∨ ∃ a ∈ live, a.ptr = pointer))
  | .store pointer offset _ => inferInstanceAs (Decidable (∃ a ∈ live, a.ptr = pointer ∧ offset < a.bytes))

/-- The allocations without the one at `pointer`. -/
def release (live : List Allocation) (pointer : ℕ) : List Allocation := live.filter fun a => a.ptr ≠ pointer

/-- The allocations after a call that returned `q`. A failed request leaves the old block with its owner. -/
def held (live : List Allocation) (a : Action) (q : ℕ) : List Allocation :=
  if q ≠ 0 then ⟨q, a.bytes⟩ :: release live a.own
  else match a with
    | .free pointer | .realloc pointer 0 => release live pointer
    | _ => live

def step (s : State) (a : Action) (pages : Pages) : Option State :=
  if Allowed s.live a then
    let r := serve s.proc pages a
    some ⟨r.1, held s.live a r.2⟩
  else none

/-- A process that `proc_spawn_image` has started. -/
def Started (s : State) : Prop :=
  s.live = [] ∧ s.proc.heapHead = 0 ∧ s.proc.brk = s.proc.brkStart ∧ s.proc.stackTop = userStackTop ∧
    userMin ≤ s.proc.brkStart ∧ s.proc.brkStart < stackFloor s.proc

end SifarOS.UserHeap
