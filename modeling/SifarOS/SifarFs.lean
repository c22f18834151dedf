import SifarOS.ByteMemory
import Mathlib.Data.Int.Notation
import Mathlib.Logic.Function.Basic

/-! # SifarFS on its disk

`kernel/fs/sfs.c` below the VFS interface. The disk is a memory of bytes in which block `b` begins
at `b * 4096`, as the blocks below `place`'s bound do; reads and writes of blocks do not fail, and the
scratch buffers are there when they are needed. The sizes are the source's: blocks of 4096 bytes, inodes of 128, directory entries of
64, 12 direct pointers and 1024 pointers in an indirect table. -/
namespace SifarOS.SifarFs
open ByteMemory

/-- `struct sfs_super`. The label is kept as its eight words. -/
structure Super where
  magic : ℕ
  version : ℕ
  blockSize : ℕ
  totalBlocks : ℕ
  bitmapStart : ℕ
  bitmapBlocks : ℕ
  inodeStart : ℕ
  inodeBlocks : ℕ
  inodeCount : ℕ
  rootInode : ℕ
  freeBlocks : ℕ
  label : ℕ → ℕ

/-- The words of the block that `write_super` writes. -/
def Super.word (s : Super) : ℕ → ℕ
  | 0 => s.magic
  | 1 => s.version
  | 2 => s.blockSize
  | 3 => s.totalBlocks
  | 4 => s.bitmapStart
  | 5 => s.bitmapBlocks
  | 6 => s.inodeStart
  | 7 => s.inodeBlocks
  | 8 => s.inodeCount
  | 9 => s.rootInode
  | 10 => s.freeBlocks
  | k => if k < 19 then s.label (k - 11) else 0

/-- The first block behind the inode table. -/
def Super.dataStart (s : Super) : ℕ := s.inodeStart + s.inodeBlocks

/-- `struct sfs_inode`. The arrays are functions, 0 from their length on. -/
structure Inode where
  type : ℕ := 0
  size : ℕ := 0
  links : ℕ := 0
  created : ℕ := 0
  modified : ℕ := 0
  flags : ℕ := 0
  direct : ℕ → ℕ := fun _ => 0
  indirect : ℕ := 0
  reserved : ℕ → ℕ := fun _ => 0

/-- The 32 words of an inode. -/
def Inode.word (i : Inode) : ℕ → ℕ
  | 0 => i.type
  | 1 => i.size
  | 2 => i.links
  | 3 => i.created
  | 4 => i.modified
  | 5 => i.flags
  | 18 => i.indirect
  | k => if k < 18 then i.direct (k - 6) else i.reserved (k - 19)

def typeFree : ℕ := 0
def typeFile : ℕ := 1
def typeDir : ℕ := 2
def flagReadonly : ℕ := 1

/-- The block that `read_block` and `write_block` reach under a number. They compute its first sector, eight times the
number behind the start of the partition, in 32 bits. -/
def place (block : ℕ) : ℕ := block % 536870912

/-- The static variables of `sfs.c`, the disk and the clock in seconds. -/
structure Fs where
  super : Super
  bitmap : ℕ → UInt8
  disk : Memory
  inodesUsed : ℕ
  clock : ℕ

namespace Fs

/-! ## Allocation -/

/-- `bitmap_test`. -/
def bitmapTest (f : Fs) (block : ℕ) : Bool := (f.bitmap (block / 8)).toNat.testBit (block % 8)

/-- `write_super`. -/
def writeSuper (f : Fs) : Fs := { f with disk := writeWords f.disk 0 1024 f.super.word }

/-- `bitmap_flush`. -/
def bitmapFlush (f : Fs) (block : ℕ) : Fs :=
  let index := block / 32768
  { f with disk := fill f.disk ((f.super.bitmapStart + index) * 4096) 4096 (fun i => f.bitmap (index * 4096 + i)) }

/-- Mark a block in the bitmap. -/
def bitmapSet (f : Fs) (block : ℕ) : Fs :=
  let byte := (f.bitmap (block / 8)).toNat ||| 1 <<< (block % 8)
  { f with bitmap := Function.update f.bitmap (block / 8) (UInt8.ofNat byte) }

def bitmapClear (f : Fs) (block : ℕ) : Fs :=
  let byte := (f.bitmap (block / 8)).toNat &&& (255 ^^^ 1 <<< (block % 8))
  { f with bitmap := Function.update f.bitmap (block / 8) (UInt8.ofNat byte) }

def setFreeBlocks (f : Fs) (n : ℕ) : Fs := { f with super := { f.super with freeBlocks := n } }

/-- `alloc_block`; 0 when the disk is full. -/
def allocBlock (f : Fs) : Fs × ℕ :=
  match (List.range f.super.totalBlocks).find? (fun block => !f.bitmapTest block) with
  | none => (f, 0)
  | some block =>
    let f := (f.bitmapSet block).bitmapFlush block
    let f := (f.setFreeBlocks (f.super.freeBlocks - 1)).writeSuper
    ({ f with disk := fill f.disk (block * 4096) 4096 (fun _ => 0) }, block)

/-- `free_block`. -/
def freeBlock (f : Fs) (block : ℕ) : Fs :=
  if block = 0 ∨ f.super.totalBlocks ≤ block ∨ f.bitmapTest block = false then f
  else
    let f := (f.bitmapClear block).bitmapFlush block
    (f.setFreeBlocks (u32 (f.super.freeBlocks + 1))).writeSuper

/-! ## Inodes -/

/-- Where inode `number` lies. -/
def inodeAddr (f : Fs) (number : ℕ) : ℕ :=
  (f.super.inodeStart + (number - 1) / 32) * 4096 + (number - 1) % 32 * 128

/-- The inode as it is on the disk. -/
def inodeAt (f : Fs) (number : ℕ) : Inode :=
  let word := fun k => load32 f.disk (f.inodeAddr number + 4 * k)
  { type := word 0
    size := word 1
    links := word 2
    created := word 3
    modified := word 4
    flags := word 5
    direct := fun i => if i < 12 then word (6 + i) else 0
    indirect := word 18
    reserved := fun i => if i < 13 then word (19 + i) else 0 }

/-- `inode_read`. -/
def inodeRead (f : Fs) (number : ℕ) : Option Inode :=
  if number < 1 ∨ f.super.inodeCount < number then none else some (f.inodeAt number)

/-- `inode_write`, for a number that `inode_read` accepts. -/
def inodeWrite (f : Fs) (number : ℕ) (inode : Inode) : Fs :=
  if number < 1 ∨ f.super.inodeCount < number then f
  else { f with disk := writeWords f.disk (f.inodeAddr number) 32 inode.word }

/-- `alloc_inode`; 0 when there is none left. -/
def allocInode (f : Fs) (type : ℕ) : Fs × ℕ :=
  match (List.range f.super.inodeCount).find? (fun i => (f.inodeAt (i + 1)).type == typeFree) with
  | none => (f, 0)
  | some i =>
    let inode := { type := type, links := 1, created := u32 f.clock, modified := u32 f.clock }
    let f := f.inodeWrite (i + 1) inode
    ({ f with inodesUsed := u32 (f.inodesUsed + 1) }, i + 1)

/-! ## File blocks -/

/-- Write block `b` with the contents it has in `source`. -/
def copyBlock (f : Fs) (source : Memory) (b : ℕ) : Fs :=
  { f with disk := fill f.disk (b * 4096) 4096 (fun i => source (b * 4096 + i)) }

/-- What `block_for` leaves and returns. -/
structure BlockFor where
  fs : Fs
  inode : Inode
  changed : Bool
  block : ℕ

/-- Where entry `slot` of an inode's indirect table lies. -/
def tableAddr (inode : Inode) (slot : ℕ) : ℕ := inode.indirect * 4096 + 4 * slot

/-- The last part of `block_for`, which looks into the indirect table. -/
def tableFor (f : Fs) (inode : Inode) (slot : ℕ) (allocate changed : Bool) : BlockFor :=
  let entry := load32 f.disk (tableAddr inode slot)
  if entry = 0 ∧ allocate = true then
    let r := f.allocBlock
    if r.2 = 0 then ⟨r.1, inode, changed, 0⟩
    else ⟨r.1.copyBlock (store32 f.disk (tableAddr inode slot) r.2) inode.indirect, inode, changed, r.2⟩
  else ⟨f, inode, changed, entry⟩

/-- `block_for`. -/
def blockFor (f : Fs) (inode : Inode) (index : ℕ) (allocate : Bool) : BlockFor :=
  if index < 12 then
    if inode.direct index = 0 ∧ allocate = true then
      let r := f.allocBlock
      ⟨r.1, { inode with direct := Function.update inode.direct index r.2 }, true, r.2⟩
    else ⟨f, inode, false, inode.direct index⟩
  else if 1024 ≤ index - 12 then ⟨f, inode, false, 0⟩
  else if inode.indirect = 0 then
    if allocate = false then ⟨f, inode, false, 0⟩
    else
      let r := f.allocBlock
      if r.2 = 0 then ⟨r.1, inode, false, 0⟩
      else r.1.tableFor { inode with indirect := r.2 } (index - 12) allocate true
  else f.tableFor inode (index - 12) allocate false

/-- The loop of `sfs_file_read`: `length` bytes from position `pos` on. A missing block reads as
zeroes. -/
def readLoop (f : Fs) (inode : Inode) : ℕ → ℕ → ℕ → List UInt8
  | 0, _, _ => []
  | fuel + 1, pos, length =>
    if length = 0 then []
    else
      let block := (f.blockFor inode (pos / 4096) false).block
      let chunk := min (4096 - pos % 4096) length
      let bytes := (List.range chunk).map (fun i =>
        if block = 0 then 0 else f.disk (block * 4096 + pos % 4096 + i))
      bytes ++ readLoop f inode fuel (u32 (pos + chunk)) (length - chunk)

/-- `sfs_file_read`; `none` is its -1. Each turn of the loop reads at least one byte. -/
def fileRead (f : Fs) (number offset length : ℕ) : Option (List UInt8) :=
  (f.inodeRead number).map (fun inode =>
    if inode.size ≤ offset then []
    else
      let length := if inode.size < u32 (offset + length) then inode.size - offset else length
      f.readLoop inode length offset length)

/-- The local variables of `sfs_file_write`. -/
structure WriteState where
  fs : Fs
  inode : Inode
  changed : Bool
  written : ℕ

/-- The loop of `sfs_file_write`. -/
def writeLoop (offset : ℕ) (data : List UInt8) : ℕ → WriteState → WriteState
  | 0, w => w
  | fuel + 1, w =>
    if w.written < data.length then
      let pos := u32 (offset + w.written)
      let r := w.fs.blockFor w.inode (pos / 4096) true
      let changed := w.changed || r.changed
      if r.block = 0 then { w with fs := r.fs, inode := r.inode, changed := changed }
      else
        let chunk := min (4096 - pos % 4096) (data.length - w.written)
        let disk := fill r.fs.disk (r.block * 4096 + pos % 4096) chunk (fun i => data.getD (w.written + i) 0)
        writeLoop offset data fuel
          { fs := { r.fs with disk := disk }, inode := r.inode, changed := changed, written := w.written + chunk }
    else w

/-- `sfs_file_write`. -/
def fileWrite (f : Fs) (number offset : ℕ) (data : List UInt8) : Fs × ℤ :=
  match f.inodeRead number with
  | none => (f, -1)
  | some inode =>
    let w := writeLoop offset data data.length ⟨f, inode, false, 0⟩
    let grown := decide (w.inode.size < u32 (offset + w.written))
    let inode := { w.inode with
      size := if grown then u32 (offset + w.written) else w.inode.size
      modified := u32 f.clock }
    (if w.changed || grown || w.written != 0 then w.fs.inodeWrite number inode else w.fs, w.written)

/-- The loop of `release_blocks`, for the next `count` indexes. -/
def releaseLoop : ℕ → ℕ → Fs × Inode → Fs × Inode
  | 0, _, r => r
  | count + 1, index, r =>
    if index < 12 then
      releaseLoop count (index + 1)
        (r.1.freeBlock (r.2.direct index), { r.2 with direct := Function.update r.2.direct index 0 })
    else if r.2.indirect = 0 then releaseLoop count (index + 1) r
    else if 1024 ≤ index - 12 then r
    else
      let addr := tableAddr r.2 (index - 12)
      let f := (r.1.freeBlock (load32 r.1.disk addr)).copyBlock (store32 r.1.disk addr 0) r.2.indirect
      releaseLoop count (index + 1) (f, r.2)

/-- `release_blocks`. -/
def releaseBlocks (f : Fs) (inode : Inode) (fromIndex : ℕ) : Fs × Inode :=
  let total := u32 (inode.size + 4095) / 4096
  let r := releaseLoop (total - fromIndex) fromIndex (f, inode)
  if fromIndex = 0 ∧ r.2.indirect ≠ 0 then (r.1.freeBlock r.2.indirect, { r.2 with indirect := 0 }) else r

/-- `sfs_file_truncate_inode`; whether it succeeded. -/
def fileTruncate (f : Fs) (number length : ℕ) : Fs × Bool :=
  match f.inodeRead number with
  | none => (f, false)
  | some inode =>
    let r := if length < inode.size then f.releaseBlocks inode (u32 (length + 4095) / 4096) else (f, inode)
    (r.1.inodeWrite number { r.2 with size := length, modified := u32 f.clock }, true)

/-! ## Directories -/

/-- `struct sfs_dirent`, with the name as a C string. -/
structure Dirent where
  inode : ℕ
  name : List UInt8
  deriving DecidableEq, Repr

/-- The 64 bytes of an entry. -/
def encodeDirent (child : ℕ) (name : List UInt8) : List UInt8 :=
  (List.range 4).map (wordByte child) ++ (List.range 4).map (wordByte name.length) ++ name ++
    List.replicate (56 - name.length) 0

def decodeDirent (bytes : List UInt8) : Dirent where
  inode := load32 (fun i => bytes.getD i 0) 0
  name := ((bytes.drop 8).take 56).takeWhile (· ≠ 0)

/-- The entries a loop over a directory reads, up to the size in its inode. -/
def entries (f : Fs) (dir : ℕ) : List Dirent :=
  (List.range (((f.inodeAt dir).size + 63) / 64)).map (fun i => decodeDirent ((f.fileRead dir (64 * i) 64).getD []))

/-- `dir_add`; whether it succeeded. -/
def dirAdd (f : Fs) (dir : ℕ) (name : List UInt8) (child : ℕ) : Fs × Bool :=
  if 56 ≤ name.length then (f, false)
  else match f.inodeRead dir with
    | none => (f, false)
    | some inode =>
      -- a hole if the directory has one, else its end
      let offset := match (f.entries dir).findIdx? (fun e => e.inode == 0) with
        | some i => 64 * i
        | none => inode.size
      let r := f.fileWrite dir offset (encodeDirent child name)
      (r.1, decide (0 < r.2))

/-- `dir_remove`; what it returns is not used. -/
def dirRemove (f : Fs) (dir : ℕ) (name : List UInt8) : Fs :=
  match f.inodeRead dir with
  | none => f
  | some _ =>
    match (f.entries dir).findIdx? (fun e => e.inode != 0 && e.name == name) with
    | none => f
    | some i => (f.fileWrite dir (64 * i) (List.replicate 64 0)).1

/-! ## The operations behind a VFS node -/

/-- `op_create`; the number of the new inode. -/
def opCreate (f : Fs) (parent : ℕ) (name : List UInt8) (dir : Bool) : Fs × Option ℕ :=
  let r := f.allocInode (if dir then typeDir else typeFile)
  if r.2 = 0 then (r.1, none)
  else
    let a := r.1.dirAdd parent name r.2
    (a.1, if a.2 then some r.2 else none)

/-- `op_destroy`, for a node below `parent`. -/
def opDestroy (f : Fs) (parent : ℕ) (name : List UInt8) (number : ℕ) : Fs :=
  if number = 0 then f
  else
    let f := f.dirRemove parent name
    match f.inodeRead number with
    | none => f
    | some inode =>
      let f := ((f.releaseBlocks inode 0).1).inodeWrite number {}
      { f with inodesUsed := f.inodesUsed - 1 }

end Fs
end SifarOS.SifarFs
