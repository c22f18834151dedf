import SifarOS.SifarFs
import Mathlib.Algebra.GroupWithZero.Nat

/-! # Building an image

`tools/mkfs.py`. The class `Filesystem` keeps its blocks, a mark for each block in use and the
inodes; `serialise` lays them out on the disk. An exception is `none`. Paths are those of a command
line, split at their slashes; their bytes are ASCII, since a name whose encoding is longer than the
name fails the assertion in `dir_add`, and none of them is zero. -/
namespace SifarOS.Mkfs
open ByteMemory SifarFs

/-- `class Filesystem`. The blocks are laid end to end. -/
structure Filesystem where
  totalBlocks : ℕ
  inodeCount : ℕ
  label : ℕ → ℕ
  blocks : Memory
  used : ℕ → Bool
  inodes : ℕ → Inode

namespace Filesystem

def bitmapBlocks (fs : Filesystem) : ℕ := (fs.totalBlocks + 4096 * 8 - 1) / (4096 * 8)
def inodeStart (fs : Filesystem) : ℕ := 1 + fs.bitmapBlocks
def inodeBlocks (fs : Filesystem) : ℕ := (fs.inodeCount + 31) / 32
def dataStart (fs : Filesystem) : ℕ := fs.inodeStart + fs.inodeBlocks

/-- `__init__`. -/
def new (totalBlocks inodeCount : ℕ) (label : ℕ → ℕ) : Option Filesystem :=
  let fs : Filesystem :=
    { totalBlocks := totalBlocks
      inodeCount := inodeCount
      label := label
      blocks := fun _ => 0
      used := fun _ => false
      inodes := fun _ => {} }
  if totalBlocks < fs.dataStart then none
  else some { fs with used := fun b => decide (b < fs.dataStart) }

/-- `alloc_block`. -/
def allocBlock (fs : Filesystem) : Option (Filesystem × ℕ) :=
  ((List.range fs.totalBlocks).find? (fun b => decide (fs.dataStart ≤ b) && !fs.used b)).map (fun b =>
    ({ fs with used := Function.update fs.used b true }, b))

/-- `alloc_inode`. -/
def allocInode (fs : Filesystem) : Option ℕ :=
  ((List.range fs.inodeCount).find? (fun i => (fs.inodes (i + 1)).type == typeFree)).map (· + 1)

def setInode (fs : Filesystem) (number : ℕ) (inode : Inode) : Filesystem :=
  { fs with inodes := Function.update fs.inodes number inode }

/-- One turn of the loop in `write_data`: block `index` of the payload. -/
def writeBlock (number : ℕ) (payload : List UInt8) (fs : Filesystem) (index : ℕ) : Option Filesystem :=
  fs.allocBlock.bind (fun (fs, block) =>
    let chunk := (payload.drop (index * 4096)).take 4096
    let fs := { fs with blocks := fill fs.blocks (block * 4096) chunk.length (fun i => chunk.getD i 0) }
    let inode := fs.inodes number
    if index < 12 then some (fs.setInode number { inode with direct := Function.update inode.direct index block })
    else
      -- the indirect block is taken with the first block that needs it
      let withTable := if index = 12 then
          fs.allocBlock.map (fun (fs, table) => fs.setInode number { inode with indirect := table })
        else some fs
      withTable.map (fun fs =>
        { fs with blocks := store32 fs.blocks ((fs.inodes number).indirect * 4096 + 4 * (index - 12)) block }))

/-- `write_data`. -/
def writeData (fs : Filesystem) (number : ℕ) (payload : List UInt8) : Option Filesystem :=
  let needed := (payload.length + 4095) / 4096
  if 12 + 1024 < needed then none
  else ((List.range needed).foldlM (writeBlock number payload) fs).map (fun fs =>
    fs.setInode number { fs.inodes number with size := payload.length })

/-- The block that holds block `index` of an inode's data. -/
def blockOf (fs : Filesystem) (inode : Inode) (index : ℕ) : ℕ :=
  if index < 12 then inode.direct index else load32 fs.blocks (inode.indirect * 4096 + 4 * (index - 12))

/-- `read_data`. There is no inode beyond the last. -/
def readData (fs : Filesystem) (number : ℕ) : Option (List UInt8) :=
  let inode := fs.inodes number
  if fs.inodeCount < number then none
  else some ((List.range inode.size).map (fun i => fs.blocks (fs.blockOf inode (i / 4096) * 4096 + i % 4096)))

/-- One turn of the loop in `free_data`. -/
def freeIndex (number : ℕ) (fs : Filesystem) (index : ℕ) : Filesystem :=
  let inode := fs.inodes number
  let block := fs.blockOf inode index
  let fs := if index < 12 then fs.setInode number { inode with direct := Function.update inode.direct index 0 } else fs
  if block = 0 then fs
  else
    { fs with
      used := Function.update fs.used block false
      blocks := fill fs.blocks (block * 4096) 4096 (fun _ => 0) }

/-- `free_data`. The indirect block is given back with its contents. -/
def freeData (fs : Filesystem) (number : ℕ) : Filesystem :=
  let count := ((fs.inodes number).size + 4095) / 4096
  let fs := (List.range count).foldl (freeIndex number) fs
  let inode := fs.inodes number
  if inode.indirect = 0 then fs.setInode number { inode with size := 0 }
  else
    { fs.setInode number { inode with indirect := 0, size := 0 } with
      used := Function.update fs.used inode.indirect false }

/-! ## Directories -/

/-- Entry `i` of a directory's data. -/
def entryOf (data : List UInt8) (i : ℕ) : Fs.Dirent :=
  let entry := data.drop (64 * i)
  { inode := load32 (fun k => entry.getD k 0) 0
    name := (entry.drop 8).take (load32 (fun k => entry.getD k 0) 4) }

/-- The first entry that `wanted` accepts. `struct.unpack_from` needs `bytes` bytes of every entry it
looks at, and raises an error when there are fewer. -/
def scan (bytes : ℕ) (wanted : Fs.Dirent → Bool) (data : List UInt8) : Option (Option ℕ) :=
  let short := fun i => decide (data.length < 64 * i + bytes)
  match (List.range ((data.length + 63) / 64)).find? (fun i => short i || wanted (entryOf data i)) with
  | none => some none
  | some i => if short i then none else some (some i)

/-- `dir_add`. -/
def dirAdd (fs : Filesystem) (dir : ℕ) (name : List UInt8) (child : ℕ) : Option Filesystem :=
  if 56 ≤ name.length then none
  else (fs.readData dir).bind (fun data =>
    (scan 4 (fun e => e.inode == 0) data).bind (fun hole =>
      let entry := Fs.encodeDirent child name
      let data := match hole with
        | some i => data.take (64 * i) ++ entry ++ data.drop (64 * i + 64)
        | none => data ++ entry
      (fs.freeData dir).writeData dir data))

/-- `make_directory`. -/
def makeDirectory (fs : Filesystem) : Option (Filesystem × ℕ) :=
  fs.allocInode.map (fun number =>
    (fs.setInode number { fs.inodes number with type := typeDir, links := 1, size := 0 }, number))

/-- One part of a path in `resolve_directory`: the entry that is there, or a new directory. With
`strict` an entry that is no directory's is refused, which the source does not do. -/
def resolvePart (strict : Bool) (place : Filesystem × ℕ) (part : List UInt8) : Option (Filesystem × ℕ) :=
  (place.1.readData place.2).bind (fun data =>
    (scan 8 (fun e => e.inode != 0 && e.name == part) data).bind (fun found =>
      match found with
      | some i =>
        let number := (entryOf data i).inode
        if strict = true ∧ (place.1.inodes number).type ≠ typeDir then none else some (place.1, number)
      | none => place.1.makeDirectory.bind (fun (fs, number) =>
          (fs.dirAdd place.2 part number).map (fun fs => (fs, number)))))

/-- `resolve_directory`, on the parts of a path that are not empty. -/
def resolveDirectory (strict : Bool) (fs : Filesystem) (parts : List (List UInt8)) : Option (Filesystem × ℕ) :=
  parts.foldlM (resolvePart strict) (fs, 1)

/-- `add_file`, on the parts of the path before its last slash and the name after it. -/
def addFile (strict : Bool) (fs : Filesystem) (parts : List (List UInt8)) (name payload : List UInt8) (flags : ℕ) :
    Option Filesystem :=
  (fs.resolveDirectory strict parts).bind (fun (fs, parent) =>
    fs.allocInode.bind (fun number =>
      ((fs.setInode number { fs.inodes number with type := typeFile, links := 1, flags := flags }).writeData
        number payload).bind (fun fs => fs.dirAdd parent name number)))

/-! ## The image -/

/-- The number of clear marks. -/
def freeBlocks (fs : Filesystem) : ℕ := ((List.range fs.totalBlocks).filter (fun b => !fs.used b)).length

def super (fs : Filesystem) : Super where
  magic := 0x53465321
  version := 1
  blockSize := 4096
  totalBlocks := fs.totalBlocks
  bitmapStart := 1
  bitmapBlocks := fs.bitmapBlocks
  inodeStart := fs.inodeStart
  inodeBlocks := fs.inodeBlocks
  inodeCount := fs.inodeCount
  rootInode := 1
  freeBlocks := fs.freeBlocks
  label := fs.label

/-- Byte `i` of the bitmap. -/
def bitmapByte (fs : Filesystem) (i : ℕ) : UInt8 :=
  UInt8.ofNat (((List.range 8).map (fun k => if 8 * i + k < fs.totalBlocks ∧ fs.used (8 * i + k) then 2 ^ k else 0)).sum)

/-- `serialise`: the superblock, the bitmap and the inodes are written over the blocks. -/
def serialise (fs : Filesystem) : Memory := fun x =>
  if x < 4096 then (if x < 76 then wordByte (fs.super.word (x / 4)) (x % 4) else fs.blocks x)
  else if x < fs.inodeStart * 4096 then fs.bitmapByte (x - 4096)
  else if x < fs.inodeStart * 4096 + fs.inodeCount * 128 then
    let i := x - fs.inodeStart * 4096
    wordByte ((fs.inodes (i / 128 + 1)).word (i % 128 / 4)) (i % 4)
  else fs.blocks x

end Filesystem

/-- One of the arguments of `main`. -/
inductive Argument
  | dir (parts : List (List UInt8))
  | file (parts : List (List UInt8)) (name payload : List UInt8) (flags : ℕ)
  deriving DecidableEq, Repr

def Argument.apply (strict : Bool) (fs : Filesystem) : Argument → Option Filesystem
  | .dir parts => (fs.resolveDirectory strict parts).map Prod.fst
  | .file parts name payload flags => fs.addFile strict parts name payload flags

/-- `main` up to the call of `serialise`: the root directory, then the arguments in order. -/
def build (strict : Bool) (totalBlocks inodeCount : ℕ) (label : ℕ → ℕ) (arguments : List Argument) :
    Option Filesystem :=
  (Filesystem.new totalBlocks inodeCount label).bind (fun fs =>
    fs.allocInode.bind (fun root =>
      if root ≠ 1 then none
      else arguments.foldlM (Argument.apply strict)
        (fs.setInode root { fs.inodes root with type := typeDir, links := 1 })))

end SifarOS.Mkfs
