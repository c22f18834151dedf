import SifarOS.FileContents
import SifarOS.ReadonlyFiles

/-! # The size in a node and the size in its inode

`sfs_file_write` sets the size of the inode whenever the offset plus what was written lies behind it,
`op_write` sets that of the node only when something was written. -/
namespace SifarOS.SifarFs
open ByteMemory

variable {T : ℕ → Inode} {n last : ℕ} {f : Fs}

theorem le_written_writeLoop (offset : ℕ) (data : List UInt8) (fuel : ℕ) (w : Fs.WriteState) :
    w.written ≤ (Fs.writeLoop offset data fuel w).written := by
  induction fuel generalizing w with
  | zero => exact Nat.le_refl _
  | succ fuel ih =>
    unfold Fs.writeLoop
    dsimp only
    split
    · split
      · exact Nat.le_refl _
      · refine Nat.le_trans ?_ (ih _)
        exact Nat.le_add_right _ _
    · exact Nat.le_refl _

/-- The first byte of a write finds a block, or the write does not begin behind the end. -/
def Fs.Lands (f : Fs) (n offset : ℕ) (data : List UInt8) : Prop :=
  offset ≤ (f.inodeAt n).size ∨ data ≠ [] ∧ offset / 4096 < 1036 ∧ ((f.inodeAt n).slot f.disk (offset / 4096) ≠ 0 ∨
    (if offset / 4096 < 12 ∨ (f.inodeAt n).indirect ≠ 0 then 1 else 2) ≤ f.super.freeBlocks)

/-- A write whose first block is there writes something. -/
theorem Holds.written_pos (H : Holds f T last) (hl : f.Live n) {offset : ℕ} (ho : offset < 4294967296) {data : List UInt8}
    (hd : data ≠ []) (hi : offset / 4096 < 1036) (hb : (f.inodeAt n).slot f.disk (offset / 4096) ≠ 0 ∨
      (if offset / 4096 < 12 ∨ (f.inodeAt n).indirect ≠ 0 then 1 else 2) ≤ f.super.freeBlocks) :
    0 < (Fs.writeLoop offset data data.length ⟨f, f.inodeAt n, false, 0⟩).written := by
  have hne : (f.blockFor (f.inodeAt n) (offset / 4096) true).block ≠ 0 := by
    rw [← H.live hl] at hb ⊢
    exact blockFor_ne_zero H.sound hi hb
  have hpos : 0 < data.length := List.length_pos_iff.mpr hd
  obtain ⟨fuel, hfuel⟩ : ∃ fuel, data.length = fuel + 1 := ⟨data.length - 1, by omega⟩
  conv_rhs => rw [hfuel]
  unfold Fs.writeLoop
  dsimp only
  rw [if_pos hpos, Nat.add_zero, u32_of_lt ho, if_neg hne]
  refine Nat.lt_of_lt_of_le ?_ (le_written_writeLoop _ _ _ _)
  dsimp only
  omega

/-- The size that `sfs_file_write` leaves in the inode. -/
theorem Fs.Exclusive.fileWrite_size (E : f.Exclusive) (hl : f.Live n) {offset : ℕ} (ho : offset < 4294967296)
    {data : List UInt8} (hland : f.Lands n offset data) : ∃ written : ℕ, (f.fileWrite n offset data).2 = written ∧
      (offset ≤ (f.inodeAt n).size ∨ 0 < written) ∧ ((f.fileWrite n offset data).1.inodeAt n).size =
        if (f.inodeAt n).size < u32 (offset + written) then u32 (offset + written) else (f.inodeAt n).size := by
  obtain ⟨T, last, H⟩ := E
  have hw := H.overwriting hl offset data data.length
  have hpos : offset ≤ (f.inodeAt n).size ∨ 0 < (Fs.writeLoop offset data data.length ⟨f, f.inodeAt n, false, 0⟩).written :=
    hland.imp id fun ⟨hd, hi, hb⟩ => H.written_pos hl ho hd hi hb
  unfold Fs.fileWrite
  rw [Fs.inodeRead_numbered hl.1]
  dsimp only
  generalize Fs.writeLoop offset data data.length ⟨f, f.inodeAt n, false, 0⟩ = w at hw hpos ⊢
  have hfields := hw.fields
  have hpacked := hw.packed
  have hchanged := hw.changed
  rw [H.live hl] at hfields hpacked hchanged
  have hsize : w.inode.size = (f.inodeAt n).size := by rw [hfields]
  have hp := hpacked (Fs.inodeAt_packed f n)
  refine ⟨w.written, rfl, hpos, ?_⟩
  rw [hsize]
  split
  · have hn : w.fs.Numbered n := (numbered_of_super hw.kept.super).mpr hl.1
    rw [Fs.inodeAt_inodeWrite hn]
    · simp only [decide_eq_true_eq]
    · refine { hp with size_lt := ?_, modified_lt := Nat.mod_lt _ (by decide) }
      have hu : u32 (offset + w.written) < 4294967296 := Nat.mod_lt _ (by decide)
      have hs := (Fs.inodeAt_packed f n).size_lt
      dsimp only
      split
      · exact hu
      · exact hs
  · next hcond =>
    simp only [Bool.or_eq_true, not_or, decide_eq_true_eq] at hcond
    rw [if_neg hcond.1.2, hw.kept.inodeAt H.sound.geometry hl.1]

theorem Fs.Exclusive.fileTruncate_size (E : f.Exclusive) (hl : f.Live n) {length : ℕ} (hlen : length < 4294967296) :
    (f.fileTruncate n length).2 = true ∧ ((f.fileTruncate n length).1.inodeAt n).size = length := by
  obtain ⟨T, last, H⟩ := E
  refine ⟨by rw [fileTruncate_eq hl.1], ?_⟩
  rw [(H.cutTo hl hlen).inodeAt]

end SifarOS.SifarFs

namespace SifarOS.Vfs
open ByteMemory SifarFs

variable {v : Volume Fs} {path : List Name} {n : ℕ} {c : NodeCall}

/-- The node at a path is that of inode `n`, and has its size. -/
structure Cached (v : Volume Fs) (path : List Name) (n : ℕ) : Prop where
  exclusive : v.fs.Exclusive
  live : v.fs.Live n
  node : ∃ a child, follow (v.root, v.tree) path = some (a, child) ∧ a.dir = false ∧ a.inode = n ∧
    a.size = (v.fs.inodeAt n).size

/-- The arguments are 32-bit numbers. -/
def NodeCall.Fits : NodeCall → Prop
  | read _ _ => True
  | write offset data => offset < 4294967296 ∧ data.length < 4294967296
  | truncate length => length < 4294967296

/-- A write behind the end of the file writes something. -/
def WriteLands (v : Volume Fs) (path : List Name) : NodeCall → Prop
  | .write offset data => ∀ n, v.key path = some (false, false, n) → v.fs.Lands n offset data
  | _ => True

/-- The driver has changed the file and the node has got a size. -/
theorem Cached.resize (h : Cached v path n) {f : Fs} (hr : Reworked n v.fs f) {size : ℕ}
    (hs : size = (f.inodeAt n).size) : Cached (Volume.resize { v with fs := f } path size) path n := by
  obtain ⟨a, child, hf, hdir, hn, -⟩ := h.node
  have hnode := (modify_node { v with fs := f } path fun a child => ({ a with size := size }, child)).1
  refine ⟨?_, ?_, { a with size := size }, child, ?_, hdir, hn, ?_⟩
  · rw [Volume.resize_fs]
    exact hr.exclusive
  · rw [Volume.resize_fs]
    exact hr.live h.live
  · unfold Volume.resize
    rw [hnode]
    exact follow_modifyNode (fun _ _ => rfl) hf
  · rw [Volume.resize_fs]
    exact hs

theorem Cached.write (h : Cached v path n) {a : Attrs} {child : Forest} (hf : follow (v.root, v.tree) path = some (a, child))
    {offset : ℕ} {data : List UInt8} (hfits : offset < 4294967296) (hland : WriteLands v path (.write offset data)) (now : Moment) :
    Cached (v.write sfsOps now path a offset data).1 path n := by
  obtain ⟨a', child', hf', hdir, hn, hsize⟩ := h.node
  obtain ⟨rfl, rfl⟩ := Prod.mk.inj (Option.some.inj (hf.symm.trans hf'))
  have hkey := key_of_follow hf
  unfold Volume.write
  rw [if_neg (by simp [hdir])]
  split
  · exact h
  · next hro =>
    rw [Bool.not_eq_true] at hro
    rw [hdir, hro, hn] at hkey
    obtain ⟨written, hcount, hpos, hgrown⟩ := h.exclusive.fileWrite_size h.live hfits (hland _ hkey)
    unfold sfsOps
    dsimp only
    rw [hn, hcount, Int.toNat_natCast]
    refine h.resize (h.exclusive.fileWrite h.live offset data) ?_
    rw [hgrown, hsize]
    by_cases hzero : 0 < written
    · simp only [Int.natCast_pos, hzero, true_and]
    · -- nothing was written, and the write began within the file
      obtain rfl : written = 0 := by omega
      have ho := hpos.resolve_right hzero
      have hle : u32 (offset + 0) ≤ (v.fs.inodeAt n).size := by rwa [Nat.add_zero, u32_of_lt hfits]
      rw [if_neg fun hc => absurd hc.1 (by decide), if_neg (by omega)]

theorem Cached.truncate (h : Cached v path n) {a : Attrs} {child : Forest} (hf : follow (v.root, v.tree) path = some (a, child))
    {length : ℕ} (hfits : length < 4294967296) (now : Moment) : Cached (v.truncate sfsOps now path a length).1 path n := by
  obtain ⟨a', child', hf', hdir, hn, hsize⟩ := h.node
  obtain ⟨rfl, rfl⟩ := Prod.mk.inj (Option.some.inj (hf.symm.trans hf'))
  unfold Volume.truncate
  split
  · exact h
  · obtain ⟨hok, hnew⟩ := h.exclusive.fileTruncate_size h.live hfits
    unfold sfsOps
    dsimp only
    rw [hn, hok, if_pos rfl]
    exact h.resize (h.exclusive.fileTruncate h.live hfits) hnew.symm

theorem Cached.step (h : Cached v path n) (hfits : c.Fits) (hland : WriteLands v path c) (now : Moment) :
    Cached (c.run sfsOps now v path) path n := by
  obtain ⟨a, child, hf, hdir, hn, hsize⟩ := h.node
  have hclock : Cached { v with fs := { v.fs with clock := now.clock } } path n :=
    ⟨exclusive_setClock h.exclusive _, h.live, a, child, hf, hdir, hn, hsize⟩
  unfold NodeCall.run
  rw [hf]
  cases c with
  | read offset length => exact hclock
  | write offset data => exact hclock.write hf hfits.1 hland now
  | truncate length => exact hclock.truncate hf hfits now

/-- The calls of a list are made on the node at one path. -/
def callsOn (path : List Name) (calls : List (NodeCall × Moment)) : List (List Name × NodeCall × Moment) :=
  calls.map fun call => (path, call)

/-- The node keeps the size of its inode as long as no write behind the end finds no block at all. -/
theorem cached_size {v : Volume Fs} {path : List Name} {n : ℕ} (h : Cached v path n) {calls : List (NodeCall × Moment)}
    (hfits : ∀ call ∈ calls, call.1.Fits) (hland : Along sfsOps WriteLands v (callsOn path calls)) :
    Cached (runNodes sfsOps v (callsOn path calls)) path n := by
  induction calls generalizing v with
  | nil => exact h
  | cons call rest ih =>
    exact ih (h.step (hfits _ List.mem_cons_self) hland.1 call.2) (fun x hx => hfits x (List.mem_cons_of_mem _ hx)) hland.2

/-- The empty file on the small disk. -/
theorem cached_small : Cached (mountOf smallFs) [[97]] 2 where
  exclusive := smallFs_sound.exclusive
  live := smallFs_live
  node := ⟨smallNode smallFs, .nil, rfl, rfl, rfl, rfl⟩

/-- A byte is written behind the end of the empty file. -/
theorem cached_size_small : Cached (runNodes sfsOps (mountOf smallFs)
    (callsOn [[97]] [(.write 5 [65], ⟨0, true, true, true⟩)])) [[97]] 2 := by
  refine cached_size cached_small (fun call hcall => ?_) ⟨fun n hn => ?_, trivial⟩
  · rw [List.mem_singleton.mp hcall]
    exact ⟨by decide, by decide⟩
  · obtain rfl := key_mountOf hn
    exact Or.inr ⟨by decide, by decide, Or.inr (by decide)⟩

/-- Nothing is written behind the end of the empty file: its inode has 5 bytes, its node none. -/
theorem cached_size_drifts : ¬∀ (v : Volume Fs) (path : List Name) (n : ℕ) (calls : List (NodeCall × Moment)),
    Cached v path n → (∀ call ∈ calls, call.1.Fits) → Cached (runNodes sfsOps v (callsOn path calls)) path n := by
  intro h
  have hdrift := h (mountOf smallFs) [[97]] 2 [(.write 5 [], ⟨0, true, true, true⟩)] cached_small fun call hcall => by
    rw [List.mem_singleton.mp hcall]
    exact ⟨by decide, by decide⟩
  obtain ⟨a, child, hf, -, -, hsize⟩ := hdrift.node
  have hnode : (follow ((runNodes sfsOps (mountOf smallFs) (callsOn [[97]] [(.write 5 [], ⟨0, true, true, true⟩)])).root,
      (runNodes sfsOps (mountOf smallFs) (callsOn [[97]] [(.write 5 [], ⟨0, true, true, true⟩)])).tree) [[97]]).map
        (fun node => node.1.size) = some 0 := by decide
  have hinode : ((runNodes sfsOps (mountOf smallFs)
      (callsOn [[97]] [(.write 5 [], ⟨0, true, true, true⟩)])).fs.inodeAt 2).size = 5 := by decide
  rw [hf, Option.map_some, hsize, hinode] at hnode
  cases hnode

end SifarOS.Vfs
