import SifarOS.ReachableStates
import SifarOS.FileTruncation

/-! # Mounting comes to an end

`build_tree` walks the directories of the disk. It calls itself up to depth 16, and its loop adds 64
to an offset of 32 bits until it is not below the size of the directory. Here the walk is a stack of
these loops, one step of it a turn of the loop on top; a step reads at most five blocks. `ok` says
which blocks the device can read. Nothing is written while the walk lasts. -/
namespace SifarOS.SifarFs
open ByteMemory ReachableStates

/-! ## Reading from a device that can fail -/

namespace Fs

variable (f : Fs) (ok : ℕ → Bool)

/-- `inode_read`. -/
def inodeReadOn (number : ℕ) : Option Inode :=
  if ok (f.super.inodeStart + (number - 1) / 32) then f.inodeRead number else none

/-- `block_for` when it does not allocate. An indirect table that cannot be read gives 0. -/
def blockOn (inode : Inode) (index : ℕ) : ℕ :=
  if index < 12 then inode.direct index
  else if 1024 ≤ index - 12 then 0
  else if inode.indirect = 0 then 0
  else if ok inode.indirect then load32 f.disk (tableAddr inode (index - 12)) else 0

/-- The loop of `sfs_file_read`, which stops when a block cannot be read. -/
def readLoopOn (inode : Inode) : ℕ → ℕ → ℕ → List UInt8
  | 0, _, _ => []
  | fuel + 1, pos, length =>
    if length = 0 then []
    else
      let block := f.blockOn ok inode (pos / 4096)
      let chunk := min (4096 - pos % 4096) length
      if block ≠ 0 ∧ ok block = false then []
      else
        let bytes := (List.range chunk).map (fun i => if block = 0 then 0 else f.disk (block * 4096 + pos % 4096 + i))
        bytes ++ readLoopOn inode fuel (u32 (pos + chunk)) (length - chunk)

/-- `sfs_file_read`; `none` is its -1. -/
def fileReadOn (number offset length : ℕ) : Option (List UInt8) :=
  (f.inodeReadOn ok number).map (fun inode =>
    if inode.size ≤ offset then []
    else
      let length := if inode.size < u32 (offset + length) then inode.size - offset else length
      f.readLoopOn ok inode length offset length)

theorem blockOn_true (inode : Inode) (index : ℕ) :
    f.blockOn (fun _ => true) inode index = (f.blockFor inode index false).block := by
  unfold blockOn blockFor
  split
  · simp
  split
  · rfl
  split
  · rfl
  · simp [tableFor]

theorem readLoopOn_true (inode : Inode) (fuel pos length : ℕ) :
    f.readLoopOn (fun _ => true) inode fuel pos length = f.readLoop inode fuel pos length := by
  induction fuel generalizing pos length with
  | zero => rfl
  | succ fuel ih => simp [readLoopOn, readLoop, blockOn_true, ih]

/-- On a device that does not fail this is `sfs_file_read` as it was. -/
theorem fileReadOn_true (number offset length : ℕ) :
    f.fileReadOn (fun _ => true) number offset length = f.fileRead number offset length := by
  simp [fileReadOn, fileRead, inodeReadOn, readLoopOn_true]

end Fs

/-! ## The walk -/

/-- A call of `build_tree` in its loop. -/
structure Frame where
  dir : ℕ
  size : ℕ
  depth : ℕ
  offset : ℕ
  deriving DecidableEq, Repr

/-- What a turn of the loop does not know: whether the heap has room for a node, and what the bytes of
the entry hold that a short read leaves as they are. -/
structure Answer where
  room : Bool
  stale : List UInt8
  deriving DecidableEq, Repr

namespace Fs

variable (f : Fs) (ok : ℕ → Bool)

/-- The beginning of `build_tree`. -/
def opened (dir depth : ℕ) : List Frame :=
  if 16 < depth then []
  else match f.inodeReadOn ok dir with
    | none => []
    | some inode => [⟨dir, inode.size, depth, 0⟩]

/-- A turn of the loop of `build_tree`. -/
def walkStep (a : Answer) : List Frame → List Frame
  | [] => []
  | t :: rest =>
    if t.size ≤ t.offset then rest
    else match f.fileReadOn ok t.dir t.offset 64 with
      | none => rest
      | some [] => rest
      | some (byte :: bytes) =>
        let entry := decodeDirent (byte :: bytes ++ a.stale)
        let next := { t with offset := u32 (t.offset + 64) } :: rest
        if entry.inode = 0 ∨ entry.name = [] then next
        else match f.inodeReadOn ok entry.inode with
          | none => next
          | some child =>
            if a.room = false then next
            else if child.type = typeDir then f.opened ok entry.inode (t.depth + 1) ++ next
            else next

/-- `sfs_file_read` gives bytes of an entry. -/
def EntryRead (dir offset : ℕ) : Prop := ∃ byte bytes, f.fileReadOn ok dir offset 64 = some (byte :: bytes)

/-- The loop of a directory reaches entry `k`, and that is the entry of a directory. -/
structure Offers (t : Frame) (k : ℕ) (stale : List UInt8) (child : ℕ) : Prop where
  lt : 64 * k < t.size
  before : ∀ j, j < k → f.EntryRead ok t.dir (64 * j)
  entry : ∃ byte bytes, f.fileReadOn ok t.dir (64 * k) 64 = some (byte :: bytes) ∧
    (decodeDirent (byte :: bytes ++ stale)).inode = child ∧ (decodeDirent (byte :: bytes ++ stale)).name ≠ []
  ne_zero : child ≠ 0
  isDir : ∃ inode, f.inodeReadOn ok child = some inode ∧ inode.type = typeDir

/-- The directories that a walk comes to, each at the beginning of its loop. -/
inductive Visited (start : List Frame) : Frame → Prop
  | root {t : Frame} (h : t ∈ start) : Visited start t
  | child {t t' : Frame} {k : ℕ} {stale : List UInt8} {child : ℕ} (h : Visited start t) (ho : f.Offers ok t k stale child)
      (ht : t' ∈ f.opened ok child (t.depth + 1)) : Visited start t'

/-- The loop of a directory ends: adding 64 does not wrap below the size, or an entry cannot be read. -/
def Ends (t : Frame) : Prop := t.size ≤ 4294967232 ∨ ∃ k, 64 * k < t.size ∧ ¬f.EntryRead ok t.dir (64 * k)

variable {f ok} {t t' : Frame} {rest : List Frame}

theorem mem_opened {dir depth : ℕ} (h : t ∈ f.opened ok dir depth) :
    f.opened ok dir depth = [t] ∧ depth ≤ 16 ∧ t.dir = dir ∧ t.depth = depth ∧ t.offset = 0 ∧ t.size < 4294967296 := by
  unfold opened at h ⊢
  split at h
  · cases h
  next hdepth =>
  rw [if_neg hdepth]
  cases hread : f.inodeReadOn ok dir with
  | none =>
    rw [hread] at h
    cases h
  | some inode =>
    rw [hread] at h
    obtain rfl := List.mem_singleton.mp h
    refine ⟨rfl, by omega, rfl, rfl, rfl, ?_⟩
    have hinode : inode = f.inodeAt dir := by
      unfold inodeReadOn inodeRead at hread
      split at hread
      · split at hread
        · cases hread
        · exact (Option.some.inj hread).symm
      · cases hread
    rw [hinode]
    exact load32_lt _ _

/-! ### One step -/

theorem walkStep_done (a : Answer) (h : t.size ≤ t.offset) : f.walkStep ok a (t :: rest) = rest := by
  simp [walkStep, h]

theorem walkStep_break (a : Answer) (h : ¬f.EntryRead ok t.dir t.offset) : f.walkStep ok a (t :: rest) = rest := by
  rw [walkStep]
  split
  · rfl
  split
  · rfl
  · rfl
  next byte bytes hread => exact absurd ⟨byte, bytes, hread⟩ h

/-- A turn that reads an entry goes on with the next, maybe after a directory below. -/
theorem walkStep_entry (rest : List Frame) (a : Answer) (hlt : t.offset < t.size) {byte : UInt8} {bytes : List UInt8}
    (hread : f.fileReadOn ok t.dir t.offset 64 = some (byte :: bytes)) :
    f.walkStep ok a (t :: rest) = { t with offset := u32 (t.offset + 64) } :: rest ∨
      f.walkStep ok a (t :: rest) = f.opened ok (decodeDirent (byte :: bytes ++ a.stale)).inode (t.depth + 1) ++
          { t with offset := u32 (t.offset + 64) } :: rest ∧
        (decodeDirent (byte :: bytes ++ a.stale)).inode ≠ 0 ∧ (decodeDirent (byte :: bytes ++ a.stale)).name ≠ [] ∧
        ∃ inode, f.inodeReadOn ok (decodeDirent (byte :: bytes ++ a.stale)).inode = some inode ∧ inode.type = typeDir := by
  rw [walkStep]
  rw [if_neg (by omega), hread]
  dsimp only
  split
  · exact Or.inl rfl
  next hentry =>
  cases hchild : f.inodeReadOn ok (decodeDirent (byte :: bytes ++ a.stale)).inode with
  | none => exact Or.inl rfl
  | some inode =>
    dsimp only
    split
    · exact Or.inl rfl
    split
    · next hdir => exact Or.inr ⟨rfl, fun h => hentry (Or.inl h), fun h => hentry (Or.inr h), inode, rfl, hdir⟩
    · exact Or.inl rfl

/-- Without room for nodes the loop takes one entry after the other. -/
theorem walkStep_full (stale : List UInt8) (hlt : t.offset < t.size) (hread : f.EntryRead ok t.dir t.offset) :
    f.walkStep ok ⟨false, stale⟩ (t :: rest) = { t with offset := u32 (t.offset + 64) } :: rest := by
  obtain ⟨byte, bytes, hread⟩ := hread
  rw [walkStep]
  rw [if_neg (by omega), hread]
  dsimp only
  split
  · rfl
  · split <;> rfl

/-- With room for its node a directory is entered. -/
theorem walkStep_enter {k : ℕ} {stale : List UInt8} {child : ℕ} (ho : f.Offers ok t k stale child) (hoff : t.offset = 64 * k) :
    f.walkStep ok ⟨true, stale⟩ (t :: rest) =
      f.opened ok child (t.depth + 1) ++ { t with offset := u32 (t.offset + 64) } :: rest := by
  obtain ⟨byte, bytes, hread, hchild, hname⟩ := ho.entry
  obtain ⟨inode, hinode, hdir⟩ := ho.isDir
  have hlt := ho.lt
  rw [walkStep]
  rw [if_neg (by omega), hoff, hread]
  dsimp only
  rw [hchild, if_neg (not_or.mpr ⟨ho.ne_zero, hname⟩), hinode]
  simp [hdir]

/-- A device that does not fail gives the bytes up to the size. -/
theorem entryRead_true {dir offset : ℕ} {inode : Inode} (hinode : f.inodeRead dir = some inode) (hlt : offset < inode.size) :
    f.EntryRead (fun _ => true) dir offset := by
  unfold EntryRead
  rw [fileReadOn_true, fileRead, hinode]
  simp only [Option.map_some]
  rw [if_neg (by omega)]
  generalize hlength : (if inode.size < u32 (offset + 64) then inode.size - offset else 64) = length
  have hpos : 0 < length := by
    split at hlength <;> omega
  obtain ⟨fuel, rfl⟩ : ∃ fuel, length = fuel + 1 := ⟨length - 1, by omega⟩
  unfold readLoop
  rw [if_neg (by omega)]
  dsimp only
  obtain ⟨chunk, hchunk⟩ : ∃ chunk, min (4096 - offset % 4096) (fuel + 1) = chunk + 1 :=
    ⟨min (4096 - offset % 4096) (fuel + 1) - 1, by omega⟩
  rw [hchunk, List.range_succ_eq_map]
  exact ⟨_, _, rfl⟩

/-- On such a device the loop of a directory ends exactly when its size leaves room for the last step. -/
theorem ends_true {inode : Inode} (hinode : f.inodeRead t.dir = some inode) (hsize : t.size = inode.size) :
    f.Ends (fun _ => true) t ↔ t.size ≤ 4294967232 := by
  refine ⟨?_, Or.inl⟩
  rintro (hle | ⟨k, hk, hfail⟩)
  · exact hle
  · exact absurd (entryRead_true hinode (by omega)) hfail

/-! ### Walks that end -/

/-- The turn at which a loop ends, before the offset can wrap. -/
theorem Ends.turn (h : f.Ends ok t) (hsize : t.size < 4294967296) :
    ∃ last, 64 * last < 4294967296 ∧ (t.size ≤ 64 * last ∨ ¬f.EntryRead ok t.dir (64 * last)) := by
  rcases h with hle | ⟨k, hk, hfail⟩
  · exact ⟨(t.size + 63) / 64, by omega, Or.inl (by omega)⟩
  · exact ⟨k, by omega, Or.inr hfail⟩

/-- The loop of a directory comes to its end, when those of the directories below it do. -/
theorem loop_finishes {last : ℕ} (hlast : 64 * last < 4294967296) (hend : t.size ≤ 64 * last ∨ ¬f.EntryRead ok t.dir (64 * last))
    (hbelow : ∀ k stale child, f.Offers ok t k stale child → ∀ t' ∈ f.opened ok child (t.depth + 1), ∀ rest,
      Finishes (f.walkStep ok) (· = rest) (t' :: rest))
    (n j : ℕ) (hn : j + n = last) (hbefore : ∀ i, i < j → f.EntryRead ok t.dir (64 * i)) (rest : List Frame) :
    Finishes (f.walkStep ok) (· = rest) ({ t with offset := 64 * j } :: rest) := by
  -- `n` is the number of turns that are left
  induction n generalizing j with
  | zero =>
    obtain rfl : j = last := hn
    refine Finishes.of_step fun a => Finishes.now ?_
    rcases hend with hle | hfail
    · exact walkStep_done a hle
    · exact walkStep_break a hfail
  | succ n ih =>
    refine Finishes.of_step fun a => ?_
    by_cases hsize : t.size ≤ 64 * j
    · exact Finishes.now (walkStep_done a hsize)
    by_cases hread : f.EntryRead ok t.dir (64 * j)
    swap
    · exact Finishes.now (walkStep_break a hread)
    have hbefore' : ∀ i, i < j + 1 → f.EntryRead ok t.dir (64 * i) := by
      intro i hi
      rcases Nat.lt_succ_iff_lt_or_eq.mp hi with hi | rfl
      · exact hbefore i hi
      · exact hread
    have hnext := ih (j + 1) (by omega) hbefore'
    have hoffset : u32 (64 * j + 64) = 64 * (j + 1) := by
      rw [u32_of_lt (by omega)]
      omega
    obtain ⟨byte, bytes, hread⟩ := hread
    have hcases := walkStep_entry (t := { t with offset := 64 * j }) rest a (by simpa using hsize) hread
    simp only [hoffset] at hcases
    rcases hcases with hstep | ⟨hstep, hzero, hname, hdir⟩
    · rw [hstep]
      exact hnext
    rw [hstep]
    have hoffers : f.Offers ok t j a.stale (decodeDirent (byte :: bytes ++ a.stale)).inode :=
      ⟨by omega, hbefore, ⟨byte, bytes, hread, rfl, hname⟩, hzero, hdir⟩
    cases hopen : f.opened ok (decodeDirent (byte :: bytes ++ a.stale)).inode (t.depth + 1) with
    | nil => exact hnext
    | cons t' more =>
      have hmem : t' ∈ f.opened ok (decodeDirent (byte :: bytes ++ a.stale)).inode (t.depth + 1) := by
        rw [hopen]
        exact List.mem_cons_self
      obtain rfl : more = [] := by
        have heq := (mem_opened hmem).1
        rw [hopen] at heq
        exact (List.cons.inj heq).2
      refine (hbelow j a.stale _ hoffers t' hmem _).trans ?_
      rintro s rfl
      exact hnext

/-- By induction on the levels that are left below `t`. -/
theorem visited_finishes {start : List Frame} (hends : ∀ t, f.Visited ok start t → f.Ends ok t) (n : ℕ) {t : Frame}
    (hn : t.depth + n = 16) (hv : f.Visited ok start t) (hsize : t.size < 4294967296) (hoff : t.offset = 0) (rest : List Frame) :
    Finishes (f.walkStep ok) (· = rest) (t :: rest) := by
  induction n generalizing t rest with
  | zero =>
    obtain ⟨last, hlast, hend⟩ := (hends t hv).turn hsize
    have h := loop_finishes hlast hend ?_ last 0 (Nat.zero_add _) (fun i hi => absurd hi (Nat.not_lt_zero i)) rest
    · rwa [Nat.mul_zero, ← hoff] at h
    · intro k stale child _ t' ht'
      have := (mem_opened ht').2.1
      omega
  | succ n ih =>
    obtain ⟨last, hlast, hend⟩ := (hends t hv).turn hsize
    have h := loop_finishes hlast hend ?_ last 0 (Nat.zero_add _) (fun i hi => absurd hi (Nat.not_lt_zero i)) rest
    · rwa [Nat.mul_zero, ← hoff] at h
    · intro k stale child hoffers t' ht' rest
      obtain ⟨-, -, -, hdepth, hoff', hsize'⟩ := mem_opened ht'
      exact ih (by omega) (.child hv hoffers ht') hsize' hoff' rest

/-! ### Walks that do not end -/

/-- The loop on top of the stack can come to a directory whose loop does not end. -/
inductive Leads (f : Fs) (ok : ℕ → Bool) : Frame → Prop
  | here {t : Frame} {j : ℕ} (hbad : ¬f.Ends ok t) (hoff : t.offset = 64 * j) (hlt : t.offset < 4294967296) : Leads f ok t
  | through {t t' : Frame} {j k : ℕ} {stale : List UInt8} {child : ℕ} (hsize : t.size < 4294967296) (hoff : t.offset = 64 * j)
      (hj : j ≤ k) (ho : f.Offers ok t k stale child) (ht : t' ∈ f.opened ok child (t.depth + 1)) (h : Leads f ok t') : Leads f ok t

theorem Leads.step (h : f.Leads ok t) (rest : List Frame) :
    ∃ a t' rest', f.walkStep ok a (t :: rest) = t' :: rest' ∧ f.Leads ok t' := by
  cases h with
  | @here _ j hbad hoff hlt =>
    unfold Ends at hbad
    simp only [not_or, not_le, not_exists, not_and, not_not] at hbad
    obtain ⟨hsize, hread⟩ := hbad
    have hin : t.offset < t.size := by omega
    refine ⟨⟨false, []⟩, _, _, walkStep_full [] hin (hoff ▸ hread j (hoff ▸ hin)), ?_⟩
    refine .here (j := u32 (t.offset + 64) / 64) ?_ ?_ (Nat.mod_lt _ (by decide))
    · unfold Ends
      simp only [not_or, not_le, not_exists, not_and, not_not]
      exact ⟨hsize, hread⟩
    · have hu : u32 (t.offset + 64) = (t.offset + 64) % 4294967296 := rfl
      dsimp only
      omega
  | @through _ t' j k stale child hsize hoff hj ho ht h =>
    rcases Nat.lt_or_eq_of_le hj with hlt | rfl
    · have hk := ho.lt
      have hu : u32 (t.offset + 64) = 64 * (j + 1) := by
        rw [u32_of_lt (by omega)]
        omega
      refine ⟨⟨false, []⟩, _, _, walkStep_full [] (by omega) (hoff ▸ ho.before j hlt), ?_⟩
      exact .through (k := k) hsize hu hlt ⟨hk, ho.before, ho.entry, ho.ne_zero, ho.isDir⟩ ht h
    · refine ⟨⟨true, stale⟩, t', { t with offset := u32 (t.offset + 64) } :: rest, ?_, h⟩
      rw [walkStep_enter ho hoff, (mem_opened ht).1]
      rfl

theorem Leads.endless (h : f.Leads ok t) (rest : List Frame) :
    ∃ answers, ∀ n, drive (f.walkStep ok) answers n (t :: rest) ≠ [] := by
  have hstep : ∀ s : List Frame, (∃ t rest, s = t :: rest ∧ f.Leads ok t) →
      ∃ a, ∃ t rest, f.walkStep ok a s = t :: rest ∧ f.Leads ok t := by
    rintro s ⟨t, rest, rfl, h⟩
    exact h.step rest
  have hhalt : ∀ s : List Frame, (∃ t rest, s = t :: rest ∧ f.Leads ok t) → ¬s = [] := by
    rintro s ⟨t, rest, rfl, -⟩ hnil
    cases hnil
  exact not_finishes hstep hhalt ⟨t, rest, rfl, h⟩

/-- What a directory leads to, the one from which the walk came to it leads to as well. -/
theorem Visited.leads {start : List Frame} (hs : ∀ t ∈ start, t.size < 4294967296 ∧ t.offset = 0) (hv : f.Visited ok start t)
    (h : f.Leads ok t) : ∃ t₀ ∈ start, f.Leads ok t₀ := by
  have hfresh : ∀ t, f.Visited ok start t → t.size < 4294967296 ∧ t.offset = 0 := by
    intro t hv
    cases hv with
    | root hmem => exact hs t hmem
    | child _ _ ht =>
      obtain ⟨-, -, -, -, hoff, hsize⟩ := mem_opened ht
      exact ⟨hsize, hoff⟩
  induction hv with
  | root hmem => exact ⟨_, hmem, h⟩
  | child hv ho ht ih =>
    obtain ⟨hsize, hoff⟩ := hfresh _ hv
    exact ih (.through (j := 0) hsize hoff (Nat.zero_le _) ho ht h)

end Fs
end SifarOS.SifarFs

namespace SifarOS.Vfs
open ByteMemory SifarFs ReachableStates

/-! ## Mounting -/

/-- What a call of `kmalloc` comes to: a block, 0, or a page fault when it extends the heap. -/
inductive Granted
  | block
  | null
  | fault
  deriving DecidableEq, Repr

/-- The heap as `sfs_mount` finds it: whether it has the four buffers, what it answers for the bitmap, and whether it
has the root node. -/
structure HeapAnswers where
  buffers : Bool
  bitmap : Granted
  root : Bool
  deriving DecidableEq, Repr

/-- What `sfs_mount` comes to before its call of `build_tree`. -/
inductive Mounting
  | returned
  | lost
  | walking (loops : List Frame)
  deriving DecidableEq, Repr

/-- A disk as `read_block` shows it: the numbers `b` and `b + 2 ^ 29` are one block. -/
def wrapped (disk : Memory) : Memory := fun x => disk (place (x / 4096) * 4096 + x % 4096)

def readable (ok : ℕ → Bool) (block : ℕ) : Bool := ok (place block)

/-- The file system as `build_tree` reads it from a disk. -/
def onDisk (disk : Memory) : Fs where
  super := readSuper disk
  bitmap := fun i => wrapped disk ((readSuper disk).bitmapStart * 4096 + i)
  disk := wrapped disk
  inodesUsed := 1
  clock := 0

/-- The loop that loads the bitmap, from block `i` on, into a buffer of `size` bytes. A block that does not fit is
stored over what lies behind the buffer, and so are all that follow, until a page fault stops the kernel; a block that
cannot be read ends the loop. -/
def loadLoop (super : Super) (ok : ℕ → Bool) (size : ℕ) (mounted : Mounting) : ℕ → ℕ → Mounting
  | 0, _ => mounted
  | fuel + 1, i =>
    if readable ok (super.bitmapStart + i) = false then .returned
    else if size < (i + 1) * 4096 then .lost
    else loadLoop super ok size mounted fuel (i + 1)

/-- `sfs_mount` up to its call of `build_tree`; `kmalloc` refuses 0 bytes. -/
def mountStart (disk : Memory) (ok : ℕ → Bool) (heap : HeapAnswers) : Mounting :=
  let super := readSuper disk
  let size := u32 (super.bitmapBlocks * 4096)
  if heap.buffers = false ∨ ok 0 = false ∨ super.magic ≠ 0x53465321 ∨ super.blockSize ≠ 4096 ∨ super.version ≠ 1 then
    .returned
  else if size = 0 ∨ heap.bitmap = .null then .returned
  else if heap.bitmap = .fault then .lost
  else
    loadLoop super ok size
      (if heap.root then .walking ((onDisk disk).opened (readable ok) super.rootInode 0) else .returned)
      super.bitmapBlocks 0

/-- `sfs_mount` returns after finitely many steps, whatever the heap answers for the nodes. -/
def MountFinishes (disk : Memory) (ok : ℕ → Bool) (heap : HeapAnswers) : Prop :=
  match mountStart disk ok heap with
  | .returned => True
  | .lost => False
  | .walking loops => Finishes ((onDisk disk).walkStep (readable ok)) (· = []) loops

/-- The superblock passes the checks, and the heap answers the call for the bitmap. -/
structure Loads (disk : Memory) (ok : ℕ → Bool) (heap : HeapAnswers) : Prop where
  buffers : heap.buffers = true
  superRead : ok 0 = true
  magic : (readSuper disk).magic = 0x53465321
  blockSize : (readSuper disk).blockSize = 4096
  version : (readSuper disk).version = 1
  size_pos : u32 ((readSuper disk).bitmapBlocks * 4096) ≠ 0
  granted : heap.bitmap ≠ .null

/-- The bitmap does not fit into 32 bits, and as many of its blocks can be read as its buffer has room for, and one
more. -/
def Overruns (disk : Memory) (ok : ℕ → Bool) : Prop :=
  1048576 ≤ (readSuper disk).bitmapBlocks ∧
    ∀ i, i * 4096 ≤ u32 ((readSuper disk).bitmapBlocks * 4096) → readable ok ((readSuper disk).bitmapStart + i) = true

section Mount
variable {disk : Memory} {ok : ℕ → Bool} {heap : HeapAnswers}

section Loop
variable {super : Super} {size n i : ℕ} {mounted : Mounting}

theorem loadLoop_all (hfit : (i + n) * 4096 ≤ size)
    (hread : ∀ j, i ≤ j → j < i + n → readable ok (super.bitmapStart + j) = true) :
    loadLoop super ok size mounted n i = mounted := by
  induction n generalizing i with
  | zero => rfl
  | succ n ih =>
    have hnow := hread i (Nat.le_refl i) (by omega)
    rw [loadLoop, hnow, if_neg (by decide), if_neg (by omega)]
    have hrest : (i + 1 + n) * 4096 ≤ size := by
      rw [Nat.add_right_comm, Nat.add_assoc]
      exact hfit
    exact ih hrest fun j hj hlt => hread j (by omega) (by omega)

theorem loadLoop_returned {j : ℕ} (hij : i ≤ j) (hlt : j < i + n) (hfit : j * 4096 ≤ size)
    (hbad : readable ok (super.bitmapStart + j) = false) : loadLoop super ok size mounted n i = .returned := by
  induction n generalizing i with
  | zero => omega
  | succ n ih =>
    rw [loadLoop]
    split
    · rfl
    next hnow =>
    have hne : i ≠ j := by
      rintro rfl
      exact hnow hbad
    rw [if_neg (by omega)]
    exact ih (by omega) (by omega)

theorem loadLoop_lost (hlt : size < (i + n) * 4096) (hfit : i * 4096 ≤ size)
    (hread : ∀ j, j * 4096 ≤ size → readable ok (super.bitmapStart + j) = true) :
    loadLoop super ok size mounted n i = .lost := by
  induction n generalizing i with
  | zero => omega
  | succ n ih =>
    rw [loadLoop, hread i hfit, if_neg (by decide)]
    split
    · rfl
    next hroom =>
    have hrest : size < (i + 1 + n) * 4096 := by
      rw [Nat.add_right_comm, Nat.add_assoc]
      exact hlt
    exact ih hrest (Nat.le_of_not_lt hroom)

end Loop

theorem mountStart_returned (h : ¬Loads disk ok heap) : mountStart disk ok heap = .returned := by
  unfold mountStart
  dsimp only
  split
  · rfl
  next hsuper =>
  split
  · rfl
  next hgranted =>
  simp only [not_or, Decidable.not_not, Bool.not_eq_false] at hsuper hgranted
  obtain ⟨hbuffers, hread, hmagic, hblock, hversion⟩ := hsuper
  exact absurd ⟨hbuffers, hread, hmagic, hblock, hversion, hgranted.1, hgranted.2⟩ h

theorem Loads.mountStart (h : Loads disk ok heap) : Vfs.mountStart disk ok heap =
    if heap.bitmap = .fault then .lost
    else loadLoop (readSuper disk) ok (u32 ((readSuper disk).bitmapBlocks * 4096))
      (if heap.root then .walking ((onDisk disk).opened (readable ok) (readSuper disk).rootInode 0) else .returned)
      (readSuper disk).bitmapBlocks 0 := by
  unfold Vfs.mountStart
  dsimp only
  have hchecks : ¬(heap.buffers = false ∨ ok 0 = false ∨ (readSuper disk).magic ≠ 0x53465321 ∨
      (readSuper disk).blockSize ≠ 4096 ∨ (readSuper disk).version ≠ 1) := by
    simp [h.buffers, h.superRead, h.magic, h.blockSize, h.version]
  rw [if_neg hchecks, if_neg (not_or.mpr ⟨h.size_pos, h.granted⟩)]

/-- If it comes to `build_tree`, mounting ends exactly when the loops of all directories end that the walk comes to. -/
theorem walk_finishes_iff (disk : Memory) (ok : ℕ → Bool) (root : ℕ) :
    Finishes ((onDisk disk).walkStep ok) (· = []) ((onDisk disk).opened ok root 0) ↔
      ∀ t, (onDisk disk).Visited ok ((onDisk disk).opened ok root 0) t → (onDisk disk).Ends ok t := by
  have hfresh : ∀ t ∈ (onDisk disk).opened ok root 0, t.size < 4294967296 ∧ t.offset = 0 := by
    intro t ht
    obtain ⟨-, -, -, -, hoff, hsize⟩ := Fs.mem_opened ht
    exact ⟨hsize, hoff⟩
  constructor
  · intro h t hv
    by_contra hbad
    have hoff : t.offset = 0 := by
      cases hv with
      | root hmem => exact (hfresh t hmem).2
      | child _ _ ht => exact (Fs.mem_opened ht).2.2.2.2.1
    obtain ⟨t₀, ht₀, hleads⟩ := hv.leads hfresh (.here (j := 0) hbad hoff (by omega))
    obtain ⟨answers, hendless⟩ := hleads.endless []
    obtain ⟨n, hn⟩ := h answers
    rw [(Fs.mem_opened ht₀).1] at hn
    exact hendless n hn
  · intro hends
    cases hopen : (onDisk disk).opened ok root 0 with
    | nil => exact Finishes.now rfl
    | cons t rest =>
      have hmem : t ∈ (onDisk disk).opened ok root 0 := by
        rw [hopen]
        exact List.mem_cons_self
      obtain ⟨hone, -, -, hdepth, hoff, hsize⟩ := Fs.mem_opened hmem
      rw [← hopen, hone]
      exact Fs.visited_finishes hends 16 (by omega) (.root hmem) hsize hoff []

/-- Mounting ends exactly when the call for the bitmap does not end in a page fault, its loading does not run over its
buffer, and the loops of all directories end that `build_tree` comes to. -/
theorem mount_finishes_iff (disk : Memory) (ok : ℕ → Bool) (heap : HeapAnswers) : MountFinishes disk ok heap ↔
    (Loads disk ok heap → heap.bitmap ≠ .fault ∧ ¬Overruns disk ok) ∧
      (Loads disk ok heap → heap.root = true →
        (∀ i, i < (readSuper disk).bitmapBlocks → readable ok ((readSuper disk).bitmapStart + i) = true) →
        ∀ t, (onDisk disk).Visited (readable ok) ((onDisk disk).opened (readable ok) (readSuper disk).rootInode 0) t →
          (onDisk disk).Ends (readable ok) t) := by
  by_cases hloads : Loads disk ok heap
  swap
  · rw [MountFinishes, mountStart_returned hloads]
    exact iff_of_true trivial ⟨fun h => absurd h hloads, fun h => absurd h hloads⟩
  rw [MountFinishes, hloads.mountStart]
  have hsize : u32 ((readSuper disk).bitmapBlocks * 4096) = (readSuper disk).bitmapBlocks * 4096 % 4294967296 := rfl
  by_cases hfault : heap.bitmap = .fault
  · rw [if_pos hfault]
    exact iff_of_false id fun h => (h.1 hloads).1 hfault
  rw [if_neg hfault]
  by_cases hover : Overruns disk ok
  · obtain ⟨hlarge, hread⟩ := hover
    rw [loadLoop_lost (by omega) (by omega) hread]
    exact iff_of_false id fun h => (h.1 hloads).2 ⟨hlarge, hread⟩
  by_cases hall : ∀ i, i < (readSuper disk).bitmapBlocks → readable ok ((readSuper disk).bitmapStart + i) = true
  · have hsmall : (readSuper disk).bitmapBlocks < 1048576 := by
      by_contra hlarge
      exact hover ⟨by omega, fun i hi => hall i (by omega)⟩
    rw [loadLoop_all (by omega) fun j _ hj => hall j (by omega)]
    by_cases hroot : heap.root = true
    · rw [if_pos hroot]
      refine (walk_finishes_iff disk (readable ok) _).trans ⟨fun h => ⟨fun _ => ⟨hfault, hover⟩, fun _ _ _ => h⟩, fun h => ?_⟩
      exact h.2 hloads hroot hall
    · rw [if_neg hroot]
      exact iff_of_true trivial ⟨fun _ => ⟨hfault, hover⟩, fun _ h => absurd h hroot⟩
  · obtain ⟨i, hi, hbad⟩ : ∃ i, i < (readSuper disk).bitmapBlocks ∧ readable ok ((readSuper disk).bitmapStart + i) = false := by
      simpa using hall
    have hfirst : ∃ j, j * 4096 ≤ u32 ((readSuper disk).bitmapBlocks * 4096) ∧ j < (readSuper disk).bitmapBlocks ∧
        readable ok ((readSuper disk).bitmapStart + j) = false := by
      by_cases hlarge : 1048576 ≤ (readSuper disk).bitmapBlocks
      · by_contra hnone
        refine hover ⟨hlarge, fun j hj => ?_⟩
        by_contra hbad
        exact hnone ⟨j, hj, by omega, by simpa using hbad⟩
      · exact ⟨i, by omega, hi, hbad⟩
    obtain ⟨j, hfit, hj, hbad⟩ := hfirst
    rw [loadLoop_returned (Nat.zero_le j) (by omega) hfit hbad]
    exact iff_of_true trivial ⟨fun _ => ⟨hfault, hover⟩, fun _ _ h => absurd h hall⟩

end Mount

/-- A root directory of the largest size. -/
def hugeFs : Fs := smallFs.inodeWrite 1 { type := typeDir, size := 4294967295, links := 1 }

/-- The loop over it does not end: its offset goes from 4294967232 back to 0. -/
theorem mount_endless : (mount hugeFs.disk 0).isSome = true ∧
    ¬MountFinishes hugeFs.disk (fun _ => true) ⟨true, .block, true⟩ := by
  have hstart : mountStart hugeFs.disk (fun _ => true) ⟨true, .block, true⟩ = .walking [⟨1, 4294967295, 0, 0⟩] := by decide
  refine ⟨by decide, ?_⟩
  rw [MountFinishes, hstart]
  have hinode : (onDisk hugeFs.disk).inodeRead 1 = some ((onDisk hugeFs.disk).inodeAt 1) := if_neg (by decide)
  have hsize : 4294967295 = ((onDisk hugeFs.disk).inodeAt 1).size := by decide
  have hbad : ¬(onDisk hugeFs.disk).Ends (fun _ => true) ⟨1, 4294967295, 0, 0⟩ := by
    rw [Fs.ends_true hinode hsize]
    decide
  obtain ⟨answers, hendless⟩ := Fs.Leads.endless (.here (j := 0) hbad rfl (by decide)) []
  intro h
  obtain ⟨n, hn⟩ := h answers
  exact hendless n hn

end SifarOS.Vfs
