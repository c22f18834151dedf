import SifarOS.ReachableStates
import SifarOS.SifarFs

/-! # File-system operations as requests

The operations of `kernel/fs/sfs.c` once more, this time as programs that make one request to the
disk after another: a thread can be switched out between any two requests. What the code does with
its variables between two requests is one step here. The two requests of `inode_write` are kept
apart from the others, because nothing else of the code writes to the inode table. -/
namespace SifarOS.ConcurrentFs
open ByteMemory SifarFs ReachableStates
open SifarFs.Fs (Dirent decodeDirent encodeDirent)

/-- The variables all threads share: `super`, `bitmap`, `inodes_used` and the clock. -/
structure Vars where
  super : Super
  bitmap : ℕ → UInt8
  inodesUsed : ℕ
  clock : ℕ

/-- The file system with these variables and this disk. -/
def Vars.on (v : Vars) (disk : Memory) : Fs := ⟨v.super, v.bitmap, disk, v.inodesUsed, v.clock⟩

def vars (f : Fs) : Vars := ⟨f.super, f.bitmap, f.inodesUsed, f.clock⟩

/-- What a function does to the variables. -/
def Vars.via (op : Fs → Fs) (v : Vars) : Vars := vars (op (v.on fun _ => 0))

/-- The rest of what a thread has to do. -/
inductive Prog (α : Type) where
  | done (a : α)
  /-- `read_block` -/
  | read (block : ℕ) (k : Memory → Prog α)
  /-- `write_block` outside `inode_write`; the buffer may be one of the variables -/
  | write (block : ℕ) (bytes : Vars → Memory) (k : Prog α)
  /-- the variables change; what follows knows their old values -/
  | vars (f : Vars → Vars) (k : Vars → Prog α)
  /-- `alloc_block`, up to the mark that it sets; what follows knows the block -/
  | mark (k : Option ℕ → Prog α)
  /-- `free_block`, up to the mark that it clears; what follows knows whether there was one to clear -/
  | unmark (block : ℕ) (k : Bool → Prog α)
  /-- the `write_block` of `bitmap_flush` -/
  | flush (block : ℕ) (k : Prog α)
  /-- `inode_write`, before its `read_block` -/
  | inodeRead (number : ℕ) (inode : Inode) (k : Prog α)
  /-- `inode_write`, before its `write_block`, with the table block it has read -/
  | inodeWrite (number : ℕ) (inode : Inode) (copy : Memory) (k : Prog α)

/-- The block that holds an inode. -/
def tableBlock (g : Super) (number : ℕ) : ℕ := g.inodeStart + (number - 1) / 32

/-- Where in its block an inode lies. -/
def slotAddr (number : ℕ) : ℕ := (number - 1) % 32 * 128

def blockAt (disk : Memory) (block : ℕ) : Memory := fun i => disk (block * 4096 + i)

def putBlock (disk : Memory) (block : ℕ) (bytes : Memory) : Memory := fill disk (block * 4096) 4096 bytes

namespace Prog
variable {α β : Type}

def bind : Prog α → (α → Prog β) → Prog β
  | done a, f => f a
  | read block k, f => read block fun m => (k m).bind f
  | write block bytes k, f => write block bytes (k.bind f)
  | vars g k, f => vars g fun v => (k v).bind f
  | mark k, f => mark fun block => (k block).bind f
  | unmark block k, f => unmark block fun cleared => (k cleared).bind f
  | flush block k, f => flush block (k.bind f)
  | inodeRead number inode k, f => inodeRead number inode (k.bind f)
  | inodeWrite number inode copy k, f => inodeWrite number inode copy (k.bind f)

instance : Monad Prog where
  pure := done
  bind := bind

end Prog

/-! ## The bitmap -/

/-- The block that `alloc_block` finds. -/
def freeBlockIn (g : Super) (v : Vars) : Option ℕ :=
  (List.range g.totalBlocks).find? fun block => !(v.on fun _ => 0).bitmapTest block

/-- The test at the head of `free_block`. -/
def notOurs (g : Super) (block : ℕ) (v : Vars) : Bool :=
  block = 0 ∨ g.totalBlocks ≤ block ∨ (v.on fun _ => 0).bitmapTest block = false

def Vars.mark (g : Super) (v : Vars) : Vars :=
  match freeBlockIn g v with
  | none => v
  | some block => v.via (·.bitmapSet block)

def Vars.unmark (g : Super) (block : ℕ) (v : Vars) : Vars :=
  if notOurs g block v then v else v.via (·.bitmapClear block)

/-- The block of the disk with the mark of a block. -/
def bitmapBlock (g : Super) (block : ℕ) : ℕ := g.bitmapStart + block / 32768

/-- What `bitmap_flush` writes there. -/
def Vars.flushed (block : ℕ) (v : Vars) : Memory := fun i => v.bitmap (block / 32768 * 4096 + i)

/-! ## The functions of the source -/

section Functions
variable (g : Super)

/-- `read_block`. -/
def readBlock (block : ℕ) : Prog Memory := .read block .done

/-- `write_block`, of a buffer of the caller's. -/
def writeBlock (block : ℕ) (bytes : Memory) : Prog Unit := .write block (fun _ => bytes) (.done ())

/-- `bitmap_flush`. -/
def bitmapFlush (block : ℕ) : Prog Unit := .flush block (.done ())

/-- `write_super`. -/
def writeSuper : Prog Unit := .write 0 (fun v => writeWords (fun _ => 0) 0 1024 v.super.word) (.done ())

/-- `alloc_block`. -/
def allocBlock : Prog ℕ :=
  .mark fun
    | none => .done 0
    | some block => do
      bitmapFlush block
      .vars (Vars.via fun f => f.setFreeBlocks (f.super.freeBlocks - 1)) fun _ => do
        writeSuper
        writeBlock block fun _ => 0
        return block

/-- `free_block`. -/
def freeBlock (block : ℕ) : Prog Unit :=
  .unmark block fun cleared =>
    if cleared then do
      bitmapFlush block
      .vars (Vars.via fun f => f.setFreeBlocks (u32 (f.super.freeBlocks + 1))) fun _ => writeSuper
    else .done ()

/-- The inode in a table block. -/
def decodeInode (number : ℕ) (block : Memory) : Inode :=
  let word := fun k => load32 block (slotAddr number + 4 * k)
  { type := word 0
    size := word 1
    links := word 2
    created := word 3
    modified := word 4
    flags := word 5
    direct := fun i => if i < 12 then word (6 + i) else 0
    indirect := word 18
    reserved := fun i => if i < 13 then word (19 + i) else 0 }

def badNumber (number : ℕ) : Prop := number < 1 ∨ g.inodeCount < number

instance (number : ℕ) : Decidable (badNumber g number) := inferInstanceAs (Decidable (_ ∨ _))

/-- `inode_read`. -/
def inodeRead (number : ℕ) : Prog (Option Inode) :=
  if badNumber g number then return none
  else do
    let block ← readBlock (tableBlock g number)
    return some (decodeInode number block)

/-- `inode_write`. -/
def inodeWrite (number : ℕ) (inode : Inode) : Prog Bool :=
  if badNumber g number then return false else .inodeRead number inode (.done true)

/-- The loop of `alloc_inode`. -/
def allocInodeLoop (type : ℕ) : ℕ → ℕ → Prog ℕ
  | 0, _ => return 0
  | fuel + 1, number => do
    match ← inodeRead g number with
    | none => return 0
    | some inode =>
      if inode.type ≠ typeFree then allocInodeLoop type fuel (number + 1)
      else
        .vars id fun v => do
          let fresh := { type := type, links := 1, created := u32 v.clock, modified := u32 v.clock }
          if (← inodeWrite g number fresh) then
            .vars (fun v => { v with inodesUsed := u32 (v.inodesUsed + 1) }) fun _ => return number
          else return 0

/-- `alloc_inode`. -/
def allocInode (type : ℕ) : Prog ℕ := allocInodeLoop g type g.inodeCount 1

/-- The last part of `block_for`. -/
def tableFor (inode : Inode) (slot : ℕ) (allocate changed : Bool) : Prog (Inode × Bool × ℕ) := do
  let table ← readBlock inode.indirect
  let entry := load32 table (4 * slot)
  if entry = 0 ∧ allocate = true then
    let block ← allocBlock
    if block = 0 then return (inode, changed, 0)
    else
      writeBlock inode.indirect (store32 table (4 * slot) block)
      return (inode, changed, block)
  else return (inode, changed, entry)

/-- `block_for`: the inode, whether it has changed, and the block. -/
def blockFor (inode : Inode) (index : ℕ) (allocate : Bool) : Prog (Inode × Bool × ℕ) :=
  if index < 12 then
    if inode.direct index = 0 ∧ allocate = true then do
      let block ← allocBlock
      return ({ inode with direct := Function.update inode.direct index block }, true, block)
    else return (inode, false, inode.direct index)
  else if 1024 ≤ index - 12 then return (inode, false, 0)
  else if inode.indirect = 0 then
    if allocate = false then return (inode, false, 0)
    else do
      let block ← allocBlock
      if block = 0 then return (inode, false, 0)
      else tableFor { inode with indirect := block } (index - 12) allocate true
  else tableFor inode (index - 12) allocate false

/-- The loop of `sfs_file_read`. -/
def readLoop (inode : Inode) : ℕ → ℕ → ℕ → Prog (List UInt8)
  | 0, _, _ => return []
  | fuel + 1, pos, length =>
    if length = 0 then return []
    else do
      let (_, _, block) ← blockFor inode (pos / 4096) false
      let chunk := min (4096 - pos % 4096) length
      let bytes ← if block = 0 then pure (List.replicate chunk 0) else do
        let content ← readBlock block
        pure ((List.range chunk).map fun i => content (pos % 4096 + i))
      let rest ← readLoop inode fuel (u32 (pos + chunk)) (length - chunk)
      return bytes ++ rest

/-- `sfs_file_read`. -/
def fileRead (number offset length : ℕ) : Prog (Option (List UInt8)) := do
  match ← inodeRead g number with
  | none => return none
  | some inode =>
    if inode.size ≤ offset then return some []
    else
      let length := if inode.size < u32 (offset + length) then inode.size - offset else length
      return some (← readLoop inode length offset length)

/-- The loop of `sfs_file_write`: the inode, whether it has changed, and how much was written. -/
def writeLoop (offset : ℕ) (data : List UInt8) : ℕ → Inode × Bool × ℕ → Prog (Inode × Bool × ℕ)
  | 0, w => return w
  | fuel + 1, (inode, changed, written) =>
    if written < data.length then do
      let pos := u32 (offset + written)
      let (inode, changed', block) ← blockFor inode (pos / 4096) true
      if block = 0 then return (inode, changed || changed', written)
      else
        let chunk := min (4096 - pos % 4096) (data.length - written)
        let buffer ← if chunk ≠ 4096 then readBlock block else pure fun _ => 0
        writeBlock block (fill buffer (pos % 4096) chunk fun i => data.getD (written + i) 0)
        writeLoop offset data fuel (inode, changed || changed', written + chunk)
    else return (inode, changed, written)

/-- `sfs_file_write`. -/
def fileWrite (number offset : ℕ) (data : List UInt8) : Prog ℤ := do
  match ← inodeRead g number with
  | none => return -1
  | some inode =>
    let (inode, changed, written) ← writeLoop offset data data.length (inode, false, 0)
    let grown := decide (inode.size < u32 (offset + written))
    .vars id fun v => do
      let inode := { inode with
        size := if grown then u32 (offset + written) else inode.size
        modified := u32 v.clock }
      if changed || grown || written != 0 then
        let _ ← inodeWrite g number inode
        return written
      else return written

/-- The loop of `release_blocks`. -/
def releaseLoop : ℕ → ℕ → Inode → Prog Inode
  | 0, _, inode => return inode
  | count + 1, index, inode =>
    if index < 12 then do
      freeBlock (inode.direct index)
      releaseLoop count (index + 1) { inode with direct := Function.update inode.direct index 0 }
    else if inode.indirect = 0 then releaseLoop count (index + 1) inode
    else if 1024 ≤ index - 12 then return inode
    else do
      let table ← readBlock inode.indirect
      freeBlock (load32 table (4 * (index - 12)))
      writeBlock inode.indirect (store32 table (4 * (index - 12)) 0)
      releaseLoop count (index + 1) inode

/-- `release_blocks`. -/
def releaseBlocks (inode : Inode) (fromIndex : ℕ) : Prog Inode := do
  let total := u32 (inode.size + 4095) / 4096
  let inode ← releaseLoop (total - fromIndex) fromIndex inode
  if fromIndex = 0 ∧ inode.indirect ≠ 0 then
    freeBlock inode.indirect
    return { inode with indirect := 0 }
  else return inode

/-- `sfs_file_truncate_inode`. -/
def fileTruncate (number length : ℕ) : Prog Bool := do
  match ← inodeRead g number with
  | none => return false
  | some inode =>
    let inode ← if length < inode.size then releaseBlocks inode (u32 (length + 4095) / 4096) else pure inode
    .vars id fun v => inodeWrite g number { inode with size := length, modified := u32 v.clock }

/-- The loops of `dir_add` and `dir_remove`: the offset of the first entry that is looked for. -/
def findEntry (dir size : ℕ) (wanted : Dirent → Bool) : ℕ → ℕ → Prog (Option ℕ)
  | 0, _ => return none
  | fuel + 1, offset =>
    if offset < size then do
      match ← fileRead g dir offset 64 with
      | none | some [] => return none
      | some bytes =>
        if wanted (decodeDirent bytes) then return some offset
        else findEntry dir size wanted fuel (offset + 64)
    else return none

/-- `dir_add`. -/
def dirAdd (dir : ℕ) (name : List UInt8) (child : ℕ) : Prog Bool :=
  if 56 ≤ name.length then return false
  else do
    match ← inodeRead g dir with
    | none => return false
    | some inode =>
      let hole ← findEntry g dir inode.size (fun e => e.inode == 0) (inode.size / 64 + 1) 0
      return decide (0 < (← fileWrite g dir (hole.getD inode.size) (encodeDirent child name)))

/-- `dir_remove`. -/
def dirRemove (dir : ℕ) (name : List UInt8) : Prog Unit := do
  match ← inodeRead g dir with
  | none => return ()
  | some inode =>
    match ← findEntry g dir inode.size (fun e => e.inode != 0 && e.name == name) (inode.size / 64 + 1) 0 with
    | none => return ()
    | some offset =>
      let _ ← fileWrite g dir offset (List.replicate 64 0)
      return ()

/-- `op_create`. -/
def opCreate (parent : ℕ) (name : List UInt8) (dir : Bool) : Prog Bool := do
  let number ← allocInode g (if dir then typeDir else typeFile)
  if number = 0 then return false else dirAdd g parent name number

/-- `op_destroy`. -/
def opDestroy (parent : ℕ) (name : List UInt8) (number : ℕ) : Prog Bool :=
  if number = 0 then return true
  else do
    dirRemove g parent name
    match ← inodeRead g number with
    | none => return true
    | some inode =>
      let _ ← releaseBlocks inode 0
      let _ ← inodeWrite g number {}
      .vars (fun v => { v with inodesUsed := v.inodesUsed - 1 }) fun _ => return true

end Functions

/-- The operations a thread can be in. -/
inductive Operation
  | write (number offset : ℕ) (data : List UInt8)
  | truncate (number length : ℕ)
  | create (parent : ℕ) (name : List UInt8) (dir : Bool)
  | destroy (parent : ℕ) (name : List UInt8) (number : ℕ)

/-- What a thread does for it; the result tells success. -/
def Operation.prog (g : Super) : Operation → Prog Bool
  | .write number offset data => do return decide (0 ≤ (← fileWrite g number offset data))
  | .truncate number length => fileTruncate g number length
  | .create parent name dir => opCreate g parent name dir
  | .destroy parent name number => opDestroy g parent name number

/-! ## Two threads -/

/-- Two threads on one file system. `stored i n` is the inode that thread `i` last handed to
`inode_write` for number `n`, once that call has returned. -/
structure System where
  vars : Vars
  disk : Memory
  prog : Bool → Prog Bool
  stored : Bool → ℕ → Option Inode

namespace System

def goto (s : System) (i : Bool) (p : Prog Bool) : System := { s with prog := Function.update s.prog i p }

def setDisk (s : System) (disk : Memory) : System := { s with disk := disk }

def setVars (s : System) (v : Vars) : System := { s with vars := v }

def store (s : System) (i : Bool) (number : ℕ) (inode : Inode) : System :=
  { s with stored := Function.update s.stored i (Function.update (s.stored i) number (some inode)) }

/-- Thread `i` makes its next request, or the next change to the variables. -/
def step (g : Super) (s : System) (i : Bool) : Option System :=
  match s.prog i with
  | .done _ => none
  | .read block k => some (s.goto i (k (blockAt s.disk block)))
  | .write block bytes k => some ((s.setDisk (putBlock s.disk block (bytes s.vars))).goto i k)
  | .vars f k => some ((s.setVars (f s.vars)).goto i (k s.vars))
  | .mark k => some ((s.setVars (s.vars.mark g)).goto i (k (freeBlockIn g s.vars)))
  | .unmark block k => some ((s.setVars (s.vars.unmark g block)).goto i (k (!notOurs g block s.vars)))
  | .flush block k => some ((s.setDisk (putBlock s.disk (bitmapBlock g block) (s.vars.flushed block))).goto i k)
  | .inodeRead number inode k =>
    some (s.goto i (.inodeWrite number inode (blockAt s.disk (tableBlock g number)) k))
  | .inodeWrite number inode copy k =>
    if badNumber g number then none
    else some (((s.setDisk (putBlock s.disk (tableBlock g number)
      (writeWords copy (slotAddr number) 32 inode.word))).store i number inode).goto i k)

end System

/-- The disk holds this inode under this number. -/
def Holds (g : Super) (disk : Memory) (number : ℕ) (inode : Inode) : Prop :=
  ∀ k < 32, load32 disk (tableBlock g number * 4096 + slotAddr number + 4 * k) = u32 (inode.word k)

/-- A step that loses nothing: data does not go into the inode table, and a table block is written back
only while the other inodes in it are still what they were when it was read. -/
def Careful (g : Super) (s : System) (i : Bool) : Prop :=
  match s.prog i with
  | .write block _ _ => ∀ number, ¬badNumber g number → tableBlock g number ≠ block
  | .flush block _ => ∀ number, ¬badNumber g number → tableBlock g number ≠ bitmapBlock g block
  | .inodeWrite number _ copy _ => ∀ other, ¬badNumber g other → other ≠ number →
      tableBlock g other = tableBlock g number → SameOn (blockAt s.disk (tableBlock g number)) copy (slotAddr other) 128
  | _ => True

section Disk
variable {g : Super} {disk : Memory}

theorem putBlock_sameOn {block a n : ℕ} {bytes : Memory} (h : a + n ≤ block * 4096 ∨ block * 4096 + 4096 ≤ a) :
    SameOn disk (putBlock disk block bytes) a n := fill_sameOn disk bytes h

theorem slotAddr_le (number : ℕ) : slotAddr number + 128 ≤ 4096 := by
  unfold slotAddr
  omega

/-- Two inodes in one block lie apart. -/
theorem slotAddr_apart {m n : ℕ} (hm : ¬badNumber g m) (hn : ¬badNumber g n) (hne : m ≠ n)
    (hb : tableBlock g m = tableBlock g n) : slotAddr m + 128 ≤ slotAddr n ∨ slotAddr n + 128 ≤ slotAddr m := by
  unfold badNumber at hm hn
  unfold tableBlock at hb
  unfold slotAddr
  omega

theorem Holds.congr {disk' : Memory} {number : ℕ} {inode : Inode} (h : Holds g disk number inode)
    (hs : SameOn disk disk' (tableBlock g number * 4096 + slotAddr number) 128) : Holds g disk' number inode := by
  intro k hk
  rw [load32_congr (hs.mono (by omega) (by omega))]
  exact h k hk

/-- A block other than its own does not touch an inode. -/
theorem Holds.putBlock {number block : ℕ} {inode : Inode} {bytes : Memory} (h : Holds g disk number inode)
    (hb : tableBlock g number ≠ block) : Holds g (putBlock disk block bytes) number inode := by
  have hle := slotAddr_le number
  refine h.congr (putBlock_sameOn ?_)
  rcases Nat.lt_or_gt_of_ne hb with hlt | hgt
  · exact .inl (by have := Nat.mul_le_mul_right 4096 hlt; omega)
  · exact .inr (by have := Nat.mul_le_mul_right 4096 hgt; omega)

/-- What `inode_write` leaves at its own number. -/
theorem holds_inodeWrite (number : ℕ) (inode : Inode) (copy : Memory) :
    Holds g (ConcurrentFs.putBlock disk (tableBlock g number) (writeWords copy (slotAddr number) 32 inode.word))
      number inode := by
  intro k hk
  have hle := slotAddr_le number
  have hshift : load32 (ConcurrentFs.putBlock disk (tableBlock g number)
      (writeWords copy (slotAddr number) 32 inode.word)) (tableBlock g number * 4096 + slotAddr number + 4 * k) =
      load32 (writeWords copy (slotAddr number) 32 inode.word) (slotAddr number + 4 * k) := by
    unfold load32 ConcurrentFs.putBlock
    simp only [Nat.add_assoc]
    rw [fill_at _ _ (by omega), fill_at _ _ (by omega), fill_at _ _ (by omega), fill_at _ _ (by omega)]
  rw [hshift, load32_writeWords copy inode.word hk]
  rfl

/-- What `inode_write` leaves at the other numbers of the block, when its copy is up to date there. -/
theorem Holds.inodeWrite {number other : ℕ} {inode kept : Inode} {copy : Memory} (h : Holds g disk other kept)
    (ho : ¬badNumber g other) (hn : ¬badNumber g number) (hne : other ≠ number)
    (hb : tableBlock g other = tableBlock g number)
    (hs : SameOn (blockAt disk (tableBlock g number)) copy (slotAddr other) 128) :
    Holds g (ConcurrentFs.putBlock disk (tableBlock g number) (writeWords copy (slotAddr number) 32 inode.word))
      other kept := by
  have hle := slotAddr_le other
  refine h.congr fun x hx hx' => ?_
  obtain ⟨i, rfl⟩ := Nat.exists_eq_add_of_le hx
  have hapart := slotAddr_apart ho hn hne hb
  rw [hb, Nat.add_assoc, ConcurrentFs.putBlock, fill_at _ _ (by omega)]
  rw [writeWords_sameOn copy inode.word (b := slotAddr other) (k := 128) (by omega) _ (by omega) (by omega)]
  exact hs _ (by omega) (by omega)

end Disk

/-- Each inode that one thread alone has written is on the disk as that thread last wrote it. -/
def Kept (g : Super) (s : System) : Prop :=
  ∀ i number inode, ¬badNumber g number → s.stored i number = some inode → s.stored (!i) number = none →
    Holds g s.disk number inode

theorem Kept.step {g : Super} {s t : System} (h : Kept g s) {i : Bool} (hc : Careful g s i)
    (hs : s.step g i = some t) : Kept g t := by
  unfold System.step at hs
  unfold Careful at hc
  split at hs
  · cases hs
  · obtain rfl := Option.some.inj hs
    exact h
  · next block bytes k hp =>
    rw [hp] at hc
    obtain rfl := Option.some.inj hs
    exact fun j number inode hn hj hother => (h j number inode hn hj hother).putBlock (hc number hn)
  · obtain rfl := Option.some.inj hs
    exact h
  · obtain rfl := Option.some.inj hs
    exact h
  · obtain rfl := Option.some.inj hs
    exact h
  · next block k hp =>
    rw [hp] at hc
    obtain rfl := Option.some.inj hs
    exact fun j number inode hn hj hother => (h j number inode hn hj hother).putBlock (hc number hn)
  · obtain rfl := Option.some.inj hs
    exact h
  · next number inode copy k hp =>
    rw [hp] at hc
    split at hs
    · cases hs
    · next hgood =>
      obtain rfl := Option.some.inj hs
      intro j n v hn hj hother
      change (Function.update s.stored i (Function.update (s.stored i) number (some inode))) j n = some v at hj
      change (Function.update s.stored i (Function.update (s.stored i) number (some inode))) (!j) n = none at hother
      change Holds g (putBlock s.disk (tableBlock g number) (writeWords copy (slotAddr number) 32 inode.word)) n v
      by_cases hnum : n = number
      · subst hnum
        by_cases hji : j = i
        · subst hji
          rw [Function.update_self, Function.update_self] at hj
          rw [← Option.some.inj hj]
          exact holds_inodeWrite n inode copy
        · have hij : (!j) = i := by
            cases i <;> cases j <;> simp_all
          rw [hij, Function.update_self, Function.update_self] at hother
          cases hother
      · -- another number: what the two threads have stored for it is as before
        have hsame : ∀ l, Function.update s.stored i (Function.update (s.stored i) number (some inode)) l n = s.stored l n := by
          intro l
          by_cases hl : l = i
          · rw [hl, Function.update_self, Function.update_of_ne hnum]
          · rw [Function.update_of_ne hl]
        rw [hsame] at hj hother
        have hold := h j n v hn hj hother
        by_cases hblock : tableBlock g n = tableBlock g number
        · exact hold.inodeWrite hn hgood hnum hblock (hc n hn hnum hblock)
        · exact hold.putBlock hblock

section Samples

end Samples

end SifarOS.ConcurrentFs
