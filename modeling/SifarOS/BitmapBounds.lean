import SifarOS.ConcurrentFs
import SifarOS.FileTruncation

/-! # Accesses to the bitmap

`sfs_mount` allocates the bitmap by `bitmap_blocks`, in 32 bits, and loads it block by block; after
that `alloc_block` and `free_block` go by `total_blocks`. The file operations run here request by
request on a device that computes sectors in 32 bits. A request that reads or writes the bitmap is
logged with the variables that it finds. -/
namespace SifarOS.SifarFs
open ByteMemory

/-! ## Mounting -/

/-- The bytes that `sfs_mount` asks of `kmalloc`. -/
def Super.allocated (s : Super) : ℕ := u32 (s.bitmapBlocks * 4096)

/-- The bytes of the bitmap that `sfs_mount` writes. -/
def Super.loaded (s : Super) : List ℕ :=
  (List.range s.bitmapBlocks).flatMap (fun i => (List.range 4096).map (fun j => u32 (i * 4096) + j))

/-- The superblock, a block of the bitmap or a block of the inode table, under any of its numbers. The
table has the blocks that the superblock says, and those in which `inode_read` looks. -/
def Super.Metadata (s : Super) (b : ℕ) : Prop :=
  place b = 0 ∨ (∃ i, i < s.bitmapBlocks ∧ place b = place (s.bitmapStart + i)) ∨
    ∃ i, i < max s.inodeBlocks ((s.inodeCount + 31) / 32) ∧ place b = place (s.inodeStart + i)

instance (s : Super) (b : ℕ) : Decidable (s.Metadata b) :=
  inferInstanceAs (Decidable (place b = 0 ∨ (∃ i, i < s.bitmapBlocks ∧ place b = place (s.bitmapStart + i)) ∨
    ∃ i, i < max s.inodeBlocks ((s.inodeCount + 31) / 32) ∧ place b = place (s.inodeStart + i)))

/-- The bitmap has a bit for every block, and its size is not cut. -/
structure Super.Roomy (s : Super) : Prop where
  blocks_lt : s.bitmapBlocks < 1048576
  total_le : s.totalBlocks ≤ s.bitmapBlocks * 32768

theorem Super.Roomy.allocated {s : Super} (h : s.Roomy) : s.allocated = s.bitmapBlocks * 4096 := by
  have hlt := h.blocks_lt
  exact u32_of_lt (by omega)

end SifarOS.SifarFs

namespace SifarOS.ConcurrentFs
open ByteMemory SifarFs ReachableStates

/-! ## Requests to the bitmap -/

inductive BitmapCall
  | mark
  | unmark (block : ℕ)
  | flush (block : ℕ)
  deriving DecidableEq, Repr

/-- The bytes of the bitmap that a request reads or writes. `alloc_block` tests the blocks from 0 on. -/
def BitmapCall.touched (g : Super) (v : Vars) : BitmapCall → List ℕ
  | .mark => (List.range (((freeBlockIn g v).map Nat.succ).getD g.totalBlocks)).map (· / 8)
  | .unmark block => if block = 0 ∨ g.totalBlocks ≤ block then [] else [block / 8]
  | .flush block => (List.range 4096).map (block / 32768 * 4096 + ·)

/-- The block that a request hands out. -/
def BitmapCall.handed (g : Super) (v : Vars) : BitmapCall → Option ℕ
  | .mark => freeBlockIn g v
  | _ => none

/-- A request that stays in the bitmap and hands out nothing but data. -/
structure BitmapCall.Safe (g : Super) (v : Vars) (c : BitmapCall) : Prop where
  in_bounds : ∀ x ∈ c.touched g v, x < g.allocated
  data : ∀ b, c.handed g v = some b → ¬g.Metadata b

/-- The variables and the disk, between two operations. -/
structure Session where
  vars : Vars
  disk : Memory

/-- What a program returns and leaves, and its requests to the bitmap. -/
structure Trace (α : Type) where
  value : α
  session : Session
  log : List (Vars × BitmapCall)

def Trace.behind {α : Type} (log : List (Vars × BitmapCall)) (r : Trace α) : Trace α := { r with log := log ++ r.log }

/-- A program runs to its end. -/
def Prog.exec {α : Type} (g : Super) : Prog α → Session → Trace α
  | .done a, s => ⟨a, s, []⟩
  | .read block k, s => exec g (k (blockAt s.disk (place block))) s
  | .write block bytes k, s => exec g k { s with disk := putBlock s.disk (place block) (bytes s.vars) }
  | .vars f k, s => exec g (k s.vars) { s with vars := f s.vars }
  | .mark k, s => (exec g (k (freeBlockIn g s.vars)) { s with vars := s.vars.mark g }).behind [(s.vars, .mark)]
  | .unmark block k, s =>
    (exec g (k (!notOurs g block s.vars)) { s with vars := s.vars.unmark g block }).behind [(s.vars, .unmark block)]
  | .flush block k, s =>
    (exec g k { s with disk := putBlock s.disk (place (bitmapBlock g block)) (s.vars.flushed block) }).behind
      [(s.vars, .flush block)]
  | .inodeRead number inode k, s =>
    let copy := blockAt s.disk (place (tableBlock g number))
    exec g k { s with disk := putBlock s.disk (place (tableBlock g number)) (writeWords copy (slotAddr number) 32 inode.word) }
  | .inodeWrite number inode copy k, s =>
    exec g k { s with disk := putBlock s.disk (place (tableBlock g number)) (writeWords copy (slotAddr number) 32 inode.word) }

section Exec
variable {α β : Type} {g : Super} {s : Session}

/-- One program after the other. -/
theorem exec_bind (p : Prog α) (f : α → Prog β) (s : Session) : (p >>= f).exec g s =
    ((f (p.exec g s).value).exec g (p.exec g s).session).behind (p.exec g s).log := by
  show (p.bind f).exec g s = _
  induction p generalizing s with
  | done a => rfl
  | read block k ih => exact ih _ s
  | write block bytes k ih => exact ih _
  | vars f k ih => exact ih _ _
  | mark k ih => exact congrArg (Trace.behind _) (ih _ _)
  | unmark block k ih => exact congrArg (Trace.behind _) (ih _ _)
  | flush block k ih => exact congrArg (Trace.behind _) (ih _)
  | inodeRead number inode k ih => exact ih _
  | inodeWrite number inode copy k ih => exact ih _

theorem exec_readBlock (block : ℕ) (f : Memory → Prog α) :
    (readBlock block >>= f).exec g s = (f (blockAt s.disk (place block))).exec g s := rfl

theorem exec_writeBlock (block : ℕ) (bytes : Memory) (f : Unit → Prog α) : (writeBlock block bytes >>= f).exec g s =
    (f ()).exec g { s with disk := putBlock s.disk (place block) bytes } := rfl

end Exec

/-! ## Marked metadata -/

/-- The bitmap marks the blocks that are no data. -/
def Guarded (g : Super) (v : Vars) : Prop :=
  ∀ b, b < g.totalBlocks → g.Metadata b → (v.on fun _ => 0).bitmapTest b = true

/-- A run that leaves the marks, and whose requests are safe. -/
structure Trace.Sound {α : Type} (g : Super) (r : Trace α) : Prop where
  guarded : Guarded g r.session.vars
  safe : ∀ e ∈ r.log, e.2.Safe g e.1

/-- A program that is sound in every session with the marks. -/
def Keeps {α : Type} (g : Super) (p : Prog α) : Prop := ∀ s : Session, Guarded g s.vars → (p.exec g s).Sound g

/-- A number that `free_block` may be given: it does nothing with the first two kinds. -/
def Spared (g : Super) (b : ℕ) : Prop := b = 0 ∨ g.totalBlocks ≤ b ∨ ¬g.Metadata b

section Requests
variable {α β : Type} {g : Super} {v : Vars} {b block : ℕ}

theorem freeBlockIn_some (h : freeBlockIn g v = some b) :
    b < g.totalBlocks ∧ (v.on fun _ => 0).bitmapTest b = false := by
  refine ⟨List.mem_range.mp (List.mem_of_find?_eq_some h), ?_⟩
  simpa using List.find?_some h

theorem Guarded.of_bitmap {w : Vars} (h : Guarded g v) (hb : w.bitmap = v.bitmap) : Guarded g w := by
  intro b hlt hm
  have hsame : (w.on fun _ => 0).bitmapTest b = (v.on fun _ => 0).bitmapTest b := Fs.bitmapTest_congr hb b
  rw [hsame]
  exact h b hlt hm

theorem Guarded.mark (h : Guarded g v) : Guarded g (v.mark g) := by
  rw [Vars.mark]
  split
  · exact h
  next block _ =>
  intro b hlt hm
  exact (Fs.bitmapTest_bitmapSet (v.on fun _ => 0) block b).mpr (.inr (h b hlt hm))

theorem Guarded.unmark (h : Guarded g v) (hs : Spared g block) : Guarded g (v.unmark g block) := by
  rw [Vars.unmark]
  split
  · exact h
  next hours =>
  simp only [notOurs, decide_eq_true_eq, not_or] at hours
  intro b hlt hm
  refine (Fs.bitmapTest_bitmapClear (v.on fun _ => 0) block b).mpr ⟨?_, h b hlt hm⟩
  rintro rfl
  rcases hs with hzero | hbeyond | hdata
  · exact hours.1 hzero
  · exact hours.2.1 hbeyond
  · exact hdata hm

theorem byte_lt (hr : g.Roomy) (hb : b < g.totalBlocks) : b / 8 < g.allocated := by
  have hle := hr.total_le
  rw [hr.allocated]
  omega

theorem safe_mark (hr : g.Roomy) (h : Guarded g v) : BitmapCall.mark.Safe g v where
  in_bounds := by
    intro x hx
    obtain ⟨b, hb, rfl⟩ := List.mem_map.mp hx
    refine byte_lt hr (Nat.lt_of_lt_of_le (List.mem_range.mp hb) ?_)
    cases hfind : freeBlockIn g v with
    | none => exact Nat.le_refl _
    | some block => exact (freeBlockIn_some hfind).1
  data := by
    intro b hb hm
    obtain ⟨hlt, hclear⟩ := freeBlockIn_some hb
    rw [h b hlt hm] at hclear
    cases hclear

theorem safe_unmark (hr : g.Roomy) : (BitmapCall.unmark block).Safe g v where
  in_bounds := by
    intro x hx
    rw [BitmapCall.touched] at hx
    split at hx
    · cases hx
    next hin =>
    obtain rfl := List.mem_singleton.mp hx
    exact byte_lt hr (Nat.lt_of_not_le (not_or.mp hin).2)
  data := fun _ hb => by cases hb

theorem safe_flush (hr : g.Roomy) (hb : block < g.totalBlocks) : (BitmapCall.flush block).Safe g v where
  in_bounds := by
    intro x hx
    obtain ⟨i, hi, rfl⟩ := List.mem_map.mp hx
    have hi' := List.mem_range.mp hi
    have hle := hr.total_le
    have hindex : block / 32768 < g.bitmapBlocks := by omega
    rw [hr.allocated]
    omega
  data := fun _ hb => by cases hb

/-! ### Programs -/

/-- One run after another. -/
theorem Trace.Sound.behind {r : Trace α} {log : List (Vars × BitmapCall)} (h : r.Sound g)
    (hlog : ∀ e ∈ log, e.2.Safe g e.1) : (r.behind log).Sound g where
  guarded := h.guarded
  safe := by
    intro e he
    rcases List.mem_append.mp he with he | he
    · exact hlog e he
    · exact h.safe e he

theorem Trace.Sound.bind {p : Prog α} {f : α → Prog β} {s : Session} (h : (p.exec g s).Sound g)
    (h' : ((f (p.exec g s).value).exec g (p.exec g s).session).Sound g) : ((p >>= f).exec g s).Sound g := by
  rw [exec_bind]
  exact h'.behind h.safe

/-- A program that makes no requests to the bitmap. -/
theorem Trace.Sound.quiet {r : Trace α} (h : Guarded g r.session.vars) (hlog : r.log = []) : r.Sound g where
  guarded := h
  safe := by simp [hlog]

theorem Keeps.pure (a : α) : Keeps g (Pure.pure a : Prog α) := fun _ h => .quiet h rfl

theorem Keeps.bind {p : Prog α} {f : α → Prog β} (h : Keeps g p) (h' : ∀ a, Keeps g (f a)) : Keeps g (p >>= f) :=
  fun s hs => (h s hs).bind (h' _ _ (h s hs).guarded)

theorem Keeps.readBlock (block : ℕ) : Keeps g (ConcurrentFs.readBlock block) := fun _ h => .quiet h rfl

theorem Keeps.write (block : ℕ) (bytes : Vars → Memory) {k : Prog α} (h : Keeps g k) :
    Keeps g (.write block bytes k) := fun _ hs => h _ hs

theorem Keeps.writeBlock (block : ℕ) (bytes : Memory) : Keeps g (ConcurrentFs.writeBlock block bytes) :=
  .write block _ (.pure ())

theorem Keeps.writeSuper : Keeps g ConcurrentFs.writeSuper := .write 0 _ (.pure ())

/-- A change to other variables than the bitmap. -/
theorem Keeps.vars {f : Vars → Vars} {k : Vars → Prog α} (hf : ∀ v, (f v).bitmap = v.bitmap) (h : ∀ v, Keeps g (k v)) :
    Keeps g (.vars f k) := fun s hs => h s.vars _ (hs.of_bitmap (hf s.vars))

theorem Keeps.inodeWrite (number : ℕ) (inode : Inode) : Keeps g (ConcurrentFs.inodeWrite g number inode) := by
  rw [ConcurrentFs.inodeWrite]
  split
  · exact .pure false
  · exact fun _ h => .quiet h rfl

theorem Keeps.bitmapFlush (hr : g.Roomy) (hb : block < g.totalBlocks) : Keeps g (ConcurrentFs.bitmapFlush block) := by
  intro s h
  refine Trace.Sound.behind (.quiet h rfl) fun e he => ?_
  obtain rfl := List.mem_singleton.mp he
  exact safe_flush hr hb

/-- The search of `alloc_block`: the block that it finds is one of the disk. -/
theorem Keeps.mark {k : Option ℕ → Prog α} (hr : g.Roomy) (hnone : Keeps g (k none))
    (hsome : ∀ b < g.totalBlocks, Keeps g (k (some b))) : Keeps g (.mark k) := by
  intro s h
  have hrest : ∀ r, r = freeBlockIn g s.vars → Keeps g (k r) := by
    intro r hfind
    cases r with
    | none => exact hnone
    | some block => exact hsome block (freeBlockIn_some hfind.symm).1
  refine (hrest _ rfl { s with vars := s.vars.mark g } h.mark).behind fun e he => ?_
  obtain rfl := List.mem_singleton.mp he
  exact safe_mark hr h

theorem Keeps.allocBlock (hr : g.Roomy) : Keeps g ConcurrentFs.allocBlock := by
  apply Keeps.mark hr
  · exact .pure 0
  · intro block hlt
    have hflush := Keeps.bitmapFlush hr hlt
    exact hflush.bind fun _ => .vars (fun _ => rfl) fun _ => Keeps.writeSuper.bind fun _ =>
      (Keeps.writeBlock block _).bind fun _ => .pure block

/-- `free_block`, of a number that is not that of metadata. -/
theorem Keeps.freeBlock (hr : g.Roomy) (hs : Spared g block) : Keeps g (ConcurrentFs.freeBlock block) := by
  intro s h
  have hrest : Keeps g (if !notOurs g block s.vars then do
      ConcurrentFs.bitmapFlush block
      .vars (Vars.via fun f => f.setFreeBlocks (u32 (f.super.freeBlocks + 1))) fun _ => ConcurrentFs.writeSuper
    else Prog.done ()) := by
    split
    · next hours =>
      simp only [notOurs, Bool.not_eq_true', decide_eq_false_iff_not, not_or] at hours
      exact (Keeps.bitmapFlush hr (Nat.lt_of_not_le hours.2.1)).bind fun _ => .vars (fun _ => rfl) fun _ => .writeSuper
    · exact .pure ()
  refine (hrest { s with vars := s.vars.unmark g block } (h.unmark hs)).behind fun e he => ?_
  obtain rfl := List.mem_singleton.mp he
  exact safe_unmark hr

end Requests

/-! ## The functions that free nothing -/

section Functions
variable {g : Super}

theorem Keeps.inodeRead (number : ℕ) : Keeps g (ConcurrentFs.inodeRead g number) := by
  rw [ConcurrentFs.inodeRead]
  split
  · exact .pure none
  · exact (Keeps.readBlock _).bind fun _ => .pure _

theorem Keeps.allocInode (type : ℕ) : Keeps g (ConcurrentFs.allocInode g type) := by
  rw [ConcurrentFs.allocInode]
  generalize g.inodeCount = fuel
  generalize 1 = number
  induction fuel generalizing number with
  | zero => exact .pure 0
  | succ fuel ih =>
    rw [allocInodeLoop]
    refine (Keeps.inodeRead number).bind fun found => ?_
    cases found with
    | none => exact .pure 0
    | some inode =>
      dsimp only
      split
      · exact ih _
      · refine .vars (fun _ => rfl) fun v => (Keeps.inodeWrite _ _).bind fun written => ?_
        split
        · exact .vars (fun _ => rfl) fun _ => .pure number
        · exact .pure 0

theorem Keeps.tableFor (hr : g.Roomy) (inode : Inode) (slot : ℕ) (allocate changed : Bool) :
    Keeps g (ConcurrentFs.tableFor inode slot allocate changed) := by
  rw [ConcurrentFs.tableFor]
  refine (Keeps.readBlock _).bind fun table => ?_
  dsimp only
  split
  · refine (Keeps.allocBlock hr).bind fun block => ?_
    split
    · exact .pure _
    · exact (Keeps.writeBlock _ _).bind fun _ => .pure _
  · exact .pure _

theorem Keeps.blockFor (hr : g.Roomy) (inode : Inode) (index : ℕ) (allocate : Bool) :
    Keeps g (ConcurrentFs.blockFor inode index allocate) := by
  rw [ConcurrentFs.blockFor]
  split
  · split
    · exact (Keeps.allocBlock hr).bind fun _ => .pure _
    · exact .pure _
  split
  · exact .pure _
  split
  · split
    · exact .pure _
    · refine (Keeps.allocBlock hr).bind fun block => ?_
      split
      · exact .pure _
      · exact .tableFor hr _ _ _ _
  · exact .tableFor hr _ _ _ _

theorem Keeps.readLoop (hr : g.Roomy) (inode : Inode) (fuel pos length : ℕ) :
    Keeps g (ConcurrentFs.readLoop inode fuel pos length) := by
  induction fuel generalizing pos length with
  | zero => exact .pure []
  | succ fuel ih =>
    rw [ConcurrentFs.readLoop]
    split
    · exact .pure []
    refine (Keeps.blockFor hr _ _ _).bind fun found => ?_
    obtain ⟨_, _, block⟩ := found
    dsimp only
    split
    · exact (Keeps.pure _).bind fun _ => (ih _ _).bind fun _ => .pure _
    · exact (Keeps.readBlock _).bind fun _ => (Keeps.pure _).bind fun _ => (ih _ _).bind fun _ => .pure _

theorem Keeps.fileRead (hr : g.Roomy) (number offset length : ℕ) :
    Keeps g (ConcurrentFs.fileRead g number offset length) := by
  rw [ConcurrentFs.fileRead]
  refine (Keeps.inodeRead number).bind fun found => ?_
  cases found with
  | none => exact .pure none
  | some inode =>
    dsimp only
    split
    · exact .pure _
    · exact (Keeps.readLoop hr _ _ _ _).bind fun _ => .pure _

theorem Keeps.writeLoop (hr : g.Roomy) (offset : ℕ) (data : List UInt8) (fuel : ℕ) (w : Inode × Bool × ℕ) :
    Keeps g (ConcurrentFs.writeLoop offset data fuel w) := by
  induction fuel generalizing w with
  | zero => exact .pure w
  | succ fuel ih =>
    obtain ⟨inode, changed, written⟩ := w
    rw [ConcurrentFs.writeLoop]
    split
    · refine (Keeps.blockFor hr _ _ _).bind fun found => ?_
      dsimp only
      split
      · exact .pure _
      split
      · exact (Keeps.readBlock _).bind fun _ => (Keeps.writeBlock _ _).bind fun _ => ih _
      · exact (Keeps.pure _).bind fun _ => (Keeps.writeBlock _ _).bind fun _ => ih _
    · exact .pure _

theorem Keeps.fileWrite (hr : g.Roomy) (number offset : ℕ) (data : List UInt8) :
    Keeps g (ConcurrentFs.fileWrite g number offset data) := by
  rw [ConcurrentFs.fileWrite]
  refine (Keeps.inodeRead number).bind fun found => ?_
  cases found with
  | none => exact .pure (-1)
  | some inode =>
    refine (Keeps.writeLoop hr _ _ _ _).bind fun w => .vars (fun _ => rfl) fun v => ?_
    dsimp only
    split
    · exact (Keeps.inodeWrite _ _).bind fun _ => .pure _
    · exact .pure _

theorem Keeps.findEntry (hr : g.Roomy) (dir size : ℕ) (wanted : Fs.Dirent → Bool) (fuel offset : ℕ) :
    Keeps g (ConcurrentFs.findEntry g dir size wanted fuel offset) := by
  induction fuel generalizing offset with
  | zero => exact .pure none
  | succ fuel ih =>
    rw [ConcurrentFs.findEntry]
    split
    · refine (Keeps.fileRead hr _ _ _).bind fun found => ?_
      split
      · exact .pure none
      · exact .pure none
      · split
        · exact .pure _
        · exact ih _
    · exact .pure none

theorem Keeps.dirAdd (hr : g.Roomy) (dir : ℕ) (name : List UInt8) (child : ℕ) :
    Keeps g (ConcurrentFs.dirAdd g dir name child) := by
  rw [ConcurrentFs.dirAdd]
  split
  · exact .pure false
  refine (Keeps.inodeRead dir).bind fun found => ?_
  cases found with
  | none => exact .pure false
  | some inode =>
    exact (Keeps.findEntry hr _ _ _ _ _).bind fun _ => (Keeps.fileWrite hr _ _ _).bind fun _ => .pure _

theorem Keeps.dirRemove (hr : g.Roomy) (dir : ℕ) (name : List UInt8) :
    Keeps g (ConcurrentFs.dirRemove g dir name) := by
  rw [ConcurrentFs.dirRemove]
  refine (Keeps.inodeRead dir).bind fun found => ?_
  cases found with
  | none => exact .pure ()
  | some inode =>
    refine (Keeps.findEntry hr _ _ _ _ _).bind fun hole => ?_
    cases hole with
    | none => exact .pure ()
    | some offset => exact (Keeps.fileWrite hr _ _ _).bind fun _ => .pure ()

theorem Keeps.opCreate (hr : g.Roomy) (parent : ℕ) (name : List UInt8) (dir : Bool) :
    Keeps g (ConcurrentFs.opCreate g parent name dir) := by
  rw [ConcurrentFs.opCreate]
  refine (Keeps.allocInode _).bind fun number => ?_
  split
  · exact .pure false
  · exact .dirAdd hr _ _ _

end Functions

/-! ## Releasing blocks -/

/-- The block number at an index of a file. -/
def pointer (disk : Memory) (inode : Inode) (index : ℕ) : ℕ :=
  if index < 12 then inode.direct index
  else if inode.indirect = 0 then 0
  else load32 (blockAt disk (place inode.indirect)) (4 * (index - 12))

/-- What `release_blocks` of an inode gives back from an index on is no metadata, and its table does not lie there. -/
structure Releasable (g : Super) (disk : Memory) (inode : Inode) (first last : ℕ) : Prop where
  pointers : ∀ k, first ≤ k → k < last → k < 1036 → Spared g (pointer disk inode k)
  table : first = 0 ∨ 12 < last → inode.indirect ≠ 0 → ¬g.Metadata inode.indirect

section Release
variable {g : Super} {s : Session} {disk disk' : Memory} {inode inode' : Inode} {b c : ℕ} {bytes : Memory}

theorem blockAt_putBlock_ne (h : b ≠ c) {i : ℕ} (hi : i < 4096) : blockAt (putBlock disk c bytes) b i = blockAt disk b i := by
  refine fill_of_disjoint disk bytes ?_
  rcases Nat.lt_or_gt_of_ne h with hlt | hgt
  · exact .inl (by have := Nat.mul_le_mul_right 4096 hlt; omega)
  · exact .inr (by have := Nat.mul_le_mul_right 4096 hgt; omega)

theorem blockAt_putBlock_self {i : ℕ} (hi : i < 4096) : blockAt (putBlock disk b bytes) b i = bytes i :=
  fill_at disk bytes hi

/-- `free_block` writes to the bitmap and to the superblock only. -/
theorem freeBlock_frame (hr : g.Roomy) (s : Session) (hc : ¬g.Metadata c) {i : ℕ} (hi : i < 4096) :
    blockAt ((freeBlock b).exec g s).session.disk (place c) i = blockAt s.disk (place c) i := by
  simp only [Super.Metadata, not_or] at hc
  obtain ⟨hsuper, hbitmap, -⟩ := hc
  by_cases hours : notOurs g b s.vars = true
  · simp [freeBlock, Prog.exec, hours, Trace.behind]
  · have hb : b < g.totalBlocks := by
      simp only [notOurs, decide_eq_true_eq, not_or] at hours
      exact Nat.lt_of_not_le hours.2.1
    have hle := hr.total_le
    have hne : place c ≠ place (bitmapBlock g b) := fun heq => hbitmap ⟨b / 32768, by omega, heq⟩
    have hexec : ((freeBlock b).exec g s).session.disk =
        putBlock (putBlock s.disk (place (bitmapBlock g b)) ((s.vars.unmark g b).flushed b)) (place 0)
          (writeWords (fun _ => 0) 0 1024
            ((s.vars.unmark g b).via fun f => f.setFreeBlocks (u32 (f.super.freeBlocks + 1))).super.word) := by
      simp only [freeBlock, Prog.exec, hours, Bool.not_false, if_true]
      rfl
    rw [hexec, blockAt_putBlock_ne (by simpa [place] using hsuper) hi, blockAt_putBlock_ne hne hi]

theorem load32_blockAt {m m' : Memory} {k : ℕ} (hk : k < 1024) (h : ∀ i, i < 4096 → m' i = m i) :
    load32 m' (4 * k) = load32 m (4 * k) := by
  refine load32_congr fun x _ hx => h x ?_
  omega

/-- The index and what it points at are as before. -/
theorem pointer_congr {k : ℕ} (hd : k < 12 → inode'.direct k = inode.direct k) (hi : inode'.indirect = inode.indirect)
    (ht : 12 ≤ k → inode.indirect ≠ 0 → load32 (blockAt disk' (place inode.indirect)) (4 * (k - 12)) =
      load32 (blockAt disk (place inode.indirect)) (4 * (k - 12))) : pointer disk' inode' k = pointer disk inode k := by
  rw [pointer, pointer, hi]
  split
  · next hlt => exact hd hlt
  split
  · rfl
  · next hge hne => exact ht (Nat.le_of_not_lt hge) hne

theorem releaseLoop_indirect (count index : ℕ) (inode : Inode) (s : Session) :
    ((releaseLoop count index inode).exec g s).value.indirect = inode.indirect := by
  induction count generalizing index inode s with
  | zero => rfl
  | succ count ih =>
    rw [releaseLoop]
    split
    · rw [exec_bind]
      exact ih _ _ _
    split
    · exact ih _ _ _
    split
    · rfl
    · rw [exec_readBlock, exec_bind, exec_writeBlock]
      exact ih _ _ _

/-- Each turn frees what the inode, as it was, has at that index: the turns before it have left the later
pointers alone. -/
theorem releaseLoop_keeps (hr : g.Roomy) (count index : ℕ) (inode : Inode) (s : Session) (h : Guarded g s.vars)
    (hp : ∀ k, index ≤ k → k < index + count → k < 1036 → Spared g (pointer s.disk inode k))
    (ht : 0 < count → 12 < index + count → inode.indirect ≠ 0 → ¬g.Metadata inode.indirect) :
    ((releaseLoop count index inode).exec g s).Sound g := by
  induction count generalizing index inode s with
  | zero => exact .quiet h rfl
  | succ count ih =>
    have hend : index + 1 + count = index + (count + 1) := Nat.add_right_comm index 1 count
    rw [releaseLoop]
    by_cases hdirect : index < 12
    · rw [if_pos hdirect]
      have hspared : Spared g (inode.direct index) := by
        have hnow := hp index (Nat.le_refl _) (by omega) (by omega)
        rwa [pointer, if_pos hdirect] at hnow
      have hfree := Keeps.freeBlock hr hspared s h
      have hpointer : ∀ k, index < k → k < 1036 → k < index + (count + 1) →
          pointer ((freeBlock (inode.direct index)).exec g s).session.disk
            { inode with direct := Function.update inode.direct index 0 } k = pointer s.disk inode k := by
        intro k hk hk' hlt
        refine pointer_congr (fun _ => Function.update_of_ne (by omega) _ _) rfl fun hge hne => ?_
        exact load32_blockAt (by omega) fun i hi => freeBlock_frame hr s (ht (by omega) (by omega) hne) hi
      refine hfree.bind (ih (index + 1) _ _ hfree.guarded (fun k hk hlt hk' => ?_) fun _ hlt => ht (by omega) (by omega))
      rw [hpointer k hk hk' (by omega)]
      exact hp k (by omega) (by omega) hk'
    rw [if_neg hdirect]
    by_cases hnone : inode.indirect = 0
    · rw [if_pos hnone]
      exact ih (index + 1) inode s h (fun k hk hlt => hp k (by omega) (by omega)) fun _ _ hne => absurd hnone hne
    rw [if_neg hnone]
    by_cases hbeyond : 1024 ≤ index - 12
    · rw [if_pos hbeyond]
      exact .quiet h rfl
    rw [if_neg hbeyond, exec_readBlock]
    generalize htable : blockAt s.disk (place inode.indirect) = table
    have hspared : Spared g (load32 table (4 * (index - 12))) := by
      have hnow := hp index (Nat.le_refl _) (by omega) (by omega)
      rwa [pointer, if_neg hdirect, if_neg hnone, htable] at hnow
    have hfree := Keeps.freeBlock hr hspared s h
    have hpointer : ∀ disk k, index < k → k < 1036 → pointer (putBlock disk (place inode.indirect)
        (store32 table (4 * (index - 12)) 0)) inode k = pointer s.disk inode k := by
      intro disk k hk hk'
      refine pointer_congr (fun _ => rfl) rfl fun hge _ => ?_
      rw [htable, load32_blockAt (by omega) fun i hi => blockAt_putBlock_self hi]
      exact load32_store32_of_disjoint _ _ (by omega)
    refine hfree.bind ?_
    rw [exec_writeBlock]
    refine ih (index + 1) inode _ hfree.guarded (fun k hk hlt hk' => ?_) fun _ hlt => ht (by omega) (by omega)
    rw [hpointer _ k hk hk']
    exact hp k (by omega) (by omega) hk'

/-- `release_blocks` of an inode that has no metadata to give back. -/
theorem releaseBlocks_keeps (hr : g.Roomy) {first : ℕ} (h : Guarded g s.vars)
    (hrel : Releasable g s.disk inode first (u32 (inode.size + 4095) / 4096)) :
    ((releaseBlocks inode first).exec g s).Sound g := by
  have hloop := releaseLoop_keeps hr (u32 (inode.size + 4095) / 4096 - first) first inode s h
    (fun k hk hlt hk' => hrel.pointers k hk (by omega) hk') (fun hpos hlt => hrel.table (by omega))
  have hsame := releaseLoop_indirect (g := g) (u32 (inode.size + 4095) / 4096 - first) first inode s
  have hrest : ∀ last : Inode, last.indirect = inode.indirect → Keeps g (if first = 0 ∧ last.indirect ≠ 0 then do
        freeBlock last.indirect
        return { last with indirect := 0 }
      else return last) := by
    intro last hlast
    split
    · next hall =>
      rw [hlast] at hall ⊢
      exact (Keeps.freeBlock hr (.inr (.inr (hrel.table (.inl hall.1) hall.2)))).bind fun _ => .pure _
    · exact .pure _
  exact hloop.bind (hrest _ hsame _ hloop.guarded)

end Release

/-! ## Runs -/

/-- What an operation gives back is no metadata, in the state in which it starts to give back. -/
def Operation.Spares (g : Super) (s : Session) : Operation → Prop
  | .truncate number length => ∀ inode, ((inodeRead g number).exec g s).value = some inode → length < inode.size →
      Releasable g s.disk inode (u32 (length + 4095) / 4096) (u32 (inode.size + 4095) / 4096)
  | .destroy parent name number => number ≠ 0 → ∀ r, r = ((dirRemove g parent name).exec g s).session →
      ∀ inode, ((inodeRead g number).exec g r).value = some inode →
        Releasable g r.disk inode 0 (u32 (inode.size + 4095) / 4096)
  | _ => True

section Operations
variable {g : Super} {s : Session}

theorem inodeRead_session (number : ℕ) : ((inodeRead g number).exec g s).session = s := by
  rw [inodeRead]
  split <;> rfl

theorem fileTruncate_keeps (hr : g.Roomy) {number length : ℕ} (h : Guarded g s.vars)
    (hs : (Operation.truncate number length).Spares g s) : ((fileTruncate g number length).exec g s).Sound g := by
  have hwrite : ∀ inode : Inode, Keeps g (.vars id fun v =>
      ConcurrentFs.inodeWrite g number { inode with size := length, modified := u32 v.clock }) :=
    fun inode => .vars (fun _ => rfl) fun v => .inodeWrite _ _
  refine (Keeps.inodeRead number s h).bind ?_
  have hread := hs
  rw [Operation.Spares] at hread
  rw [inodeRead_session]
  cases hfound : ((inodeRead g number).exec g s).value with
  | none => exact Keeps.pure false s h
  | some inode =>
    dsimp only
    split
    · next hlt =>
      have hrelease := releaseBlocks_keeps hr h (hread inode hfound hlt)
      exact hrelease.bind (hwrite _ _ hrelease.guarded)
    · exact (Keeps.pure inode).bind hwrite s h

theorem opDestroy_keeps (hr : g.Roomy) {parent number : ℕ} {name : List UInt8} (h : Guarded g s.vars)
    (hs : (Operation.destroy parent name number).Spares g s) : ((opDestroy g parent name number).exec g s).Sound g := by
  rw [opDestroy]
  split
  · exact Keeps.pure true s h
  next hne =>
  have hremove := Keeps.dirRemove hr parent name s h
  refine hremove.bind ((Keeps.inodeRead number _ hremove.guarded).bind ?_)
  rw [inodeRead_session]
  cases hfound : ((inodeRead g number).exec g ((dirRemove g parent name).exec g s).session).value with
  | none => exact Keeps.pure true _ hremove.guarded
  | some inode =>
    have hrelease := releaseBlocks_keeps hr hremove.guarded (hs hne _ rfl inode hfound)
    refine hrelease.bind ((Keeps.inodeWrite number {}).bind (fun _ => ?_) _ hrelease.guarded)
    exact .vars (fun _ => rfl) fun _ => .pure true

/-- An operation that gives back no metadata. -/
theorem Operation.keeps (hr : g.Roomy) (op : Operation) (h : Guarded g s.vars) (hs : op.Spares g s) :
    ((op.prog g).exec g s).Sound g := by
  cases op with
  | write number offset data => exact ((Keeps.fileWrite hr number offset data).bind fun _ => .pure _) s h
  | truncate number length => exact fileTruncate_keeps hr h hs
  | create parent name dir => exact Keeps.opCreate hr parent name dir s h
  | destroy parent name number => exact opDestroy_keeps hr h hs

end Operations

/-- A call of the file operations. -/
inductive SfsCall
  | read (number offset length : ℕ)
  | change (op : Operation)

def SfsCall.prog (g : Super) : SfsCall → Prog Bool
  | .read number offset length => do return (← fileRead g number offset length).isSome
  | .change op => op.prog g

def SfsCall.Spares (g : Super) (s : Session) : SfsCall → Prop
  | .read _ _ _ => True
  | .change op => op.Spares g s

theorem SfsCall.keeps {g : Super} (hr : g.Roomy) {s : Session} (call : SfsCall) (h : Guarded g s.vars) (hs : call.Spares g s) :
    ((call.prog g).exec g s).Sound g := by
  cases call with
  | read number offset length => exact ((Keeps.fileRead hr number offset length).bind fun _ => .pure _) s h
  | change op => exact op.keeps hr h hs

section Samples

end Samples
end SifarOS.ConcurrentFs
