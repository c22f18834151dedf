import SifarOS.FileCalls
import SifarOS.FileTruncation

/-! # The contents of files on SifarFS

A block that is cut in the middle keeps the bytes behind the cut. They are not part of the file any
more, until it grows over them again. Everything else that a file grows over is missing or was just
allocated, and reads as zeroes. -/
namespace SifarOS.SifarFs
open ByteMemory BlockOwnership ByteFile

variable {T : ℕ → Inode} {n : ℕ} {f f' g : Fs} {i i' : Inode}

/-! ## Room for a write -/

/-- The number of blocks that are not there, of `count` from index `lo` on. -/
def Inode.missing (d : Memory) (i : Inode) : ℕ → ℕ → ℕ
  | _, 0 => 0
  | lo, count + 1 => (if i.slot d lo = 0 then 1 else 0) + missing d i (lo + 1) count

theorem Inode.missing_congr {d d' : Memory} {lo count : ℕ} (h : ∀ k, lo ≤ k → k < lo + count → i'.slot d' k = i.slot d k) :
    i'.missing d' lo count = i.missing d lo count := by
  induction count generalizing lo with
  | zero => rfl
  | succ count ih =>
    unfold Inode.missing
    rw [h lo (Nat.le_refl _) (by omega), ih fun k h₁ h₂ => h k (by omega) (by omega)]

/-- The blocks that are taken when the file is written up to index `hi`, the table among them. -/
def Inode.need (d : Memory) (i : Inode) (lo hi : ℕ) : ℕ :=
  i.missing d lo (hi - lo) + if 12 < hi ∧ i.indirect = 0 then 1 else 0

/-- There are blocks enough for a write. -/
def Fs.Room (f : Fs) (n offset length : ℕ) : Prop :=
  length ≠ 0 → (f.inodeAt n).need f.disk (offset / 4096) (blocksFor (offset + length)) ≤ f.super.freeBlocks

theorem tableFor_inode (f : Fs) (i : Inode) (slot : ℕ) (allocate changed : Bool) :
    (f.tableFor i slot allocate changed).inode = i := by
  unfold Fs.tableFor
  dsimp only
  split
  · split <;> rfl
  · rfl

/-- What `block_for` takes from the free blocks. -/
structure Charged (f : Fs) (i : Inode) (index : ℕ) (r : Fs.BlockFor) : Prop where
  free : f.super.freeBlocks ≤ r.fs.super.freeBlocks + (if i.slot f.disk index = 0 then 1 else 0) +
    if 12 ≤ index ∧ i.indirect = 0 then 1 else 0
  indirect : if index < 12 then r.inode.indirect = i.indirect else r.inode.indirect ≠ 0

theorem Fs.Taken.free {b : ℕ} (h : f.Taken f' b) : f'.super.freeBlocks = f.super.freeBlocks - 1 := by
  rw [h.super]

theorem tableFor_free (S : SoundFor f T) (hi : (T n).indirect ≠ 0) {index : ℕ} (h₁ : 12 ≤ index) (h₂ : index < 1036)
    (changed : Bool) : f.super.freeBlocks ≤
      (f.tableFor (T n) (index - 12) true changed).fs.super.freeBlocks + if (T n).slot f.disk index = 0 then 1 else 0 := by
  rw [Inode.slot_table h₁ h₂ hi]
  unfold Fs.tableFor
  dsimp only
  split
  · next hz =>
    rw [if_pos hz.1]
    rcases S.allocBlock with ha | ha
    · rw [ha, if_pos rfl]
      exact Nat.le_add_right _ _
    · rw [if_neg (S.taken_pos ha)]
      have hfree := ha.free
      show f.super.freeBlocks ≤ f.allocBlock.1.super.freeBlocks + 1
      omega
  · exact Nat.le_add_right _ _

theorem blockFor_charged (S : SoundFor f T) {index : ℕ} (hindex : index < 1036)
    (hne : (f.blockFor (T n) index true).block ≠ 0) : Charged f (T n) index (f.blockFor (T n) index true) := by
  unfold Fs.blockFor at hne ⊢
  by_cases hd : index < 12
  · rw [if_pos hd] at hne ⊢
    by_cases hz : (T n).direct index = 0
    · rw [if_pos ⟨hz, rfl⟩] at hne ⊢
      dsimp only at hne ⊢
      rcases S.allocBlock with ha | ha
      · rw [ha] at hne
        exact absurd rfl hne
      · refine ⟨?_, by rw [if_pos hd]⟩
        rw [Inode.slot_direct hd, if_pos hz]
        have hfree := ha.free
        dsimp only
        omega
    · rw [if_neg fun hc => hz hc.1]
      exact ⟨by dsimp only; omega, by rw [if_pos hd]⟩
  rw [if_neg hd, if_neg (by omega)] at hne ⊢
  by_cases hi : (T n).indirect = 0
  · rw [if_pos hi, if_neg (by decide)] at hne ⊢
    dsimp only at hne ⊢
    rcases S.allocBlock with ha | ha
    · rw [ha, if_pos rfl] at hne
      exact absurd rfl hne
    · rw [if_neg (S.taken_pos ha)]
      have ht := tabled S ha hi
      have htable := tableFor_free (n := n) ht.sound (by rw [Function.update_self]; exact S.taken_pos ha)
        (show 12 ≤ index by omega) hindex true
      rw [Function.update_self, ht.slot index hindex] at htable
      dsimp only at htable
      have hfree := ha.free
      refine ⟨?_, ?_⟩
      · rw [if_pos (show 12 ≤ index ∧ (T n).indirect = 0 from ⟨by omega, hi⟩)]
        omega
      · rw [if_neg hd, tableFor_inode]
        exact S.taken_pos ha
  · rw [if_neg hi]
    have htable := tableFor_free (n := n) S hi (show 12 ≤ index by omega) hindex false
    refine ⟨by omega, ?_⟩
    rw [if_neg hd, tableFor_inode]
    exact hi

section Room
variable {lo hi : ℕ} {r : Fs.BlockFor}

/-- The next block is there or can be taken. -/
theorem needed_or_present (hneed : i.need f.disk lo hi ≤ f.super.freeBlocks) (hlo : lo < hi) : i.slot f.disk lo ≠ 0 ∨
    (if lo < 12 ∨ i.indirect ≠ 0 then 1 else 2) ≤ f.super.freeBlocks := by
  obtain ⟨count, hcount⟩ : ∃ count, hi - lo = count + 1 := ⟨hi - lo - 1, by omega⟩
  unfold Inode.need at hneed
  rw [hcount, Inode.missing] at hneed
  by_cases hz : i.slot f.disk lo = 0
  · right
    rw [if_pos hz] at hneed
    split
    · omega
    · next hc =>
      rw [if_pos (show 12 < hi ∧ i.indirect = 0 by omega)] at hneed
      omega
  · exact Or.inl hz

/-- A block that was needed is there, and the rest is still to be had. -/
theorem Charged.need (h : Charged f i lo r) (hlo : lo < hi) (hneed : i.need f.disk lo hi ≤ f.super.freeBlocks)
    (hslot : ∀ k, k < 1036 → k ≠ lo → r.inode.slot r.fs.disk k = i.slot f.disk k) (hhi : hi ≤ 1036) :
    r.inode.need r.fs.disk (lo + 1) hi ≤ r.fs.super.freeBlocks := by
  have hfree := h.free
  have htable := h.indirect
  unfold Inode.need at hneed ⊢
  obtain ⟨count, hcount⟩ : ∃ count, hi - lo = count + 1 := ⟨hi - lo - 1, by omega⟩
  rw [hcount, Inode.missing] at hneed
  rw [show hi - (lo + 1) = count by omega, Inode.missing_congr fun k h₁ h₂ => hslot k (by omega) (by omega)]
  by_cases hd : lo < 12
  · rw [if_pos hd] at htable
    rw [if_neg (show ¬(12 ≤ lo ∧ i.indirect = 0) by omega)] at hfree
    rw [htable]
    omega
  · rw [if_neg hd] at htable
    rw [if_neg fun hc => htable hc.2]
    by_cases hi₀ : i.indirect = 0
    · rw [if_pos (show 12 < hi ∧ i.indirect = 0 by omega)] at hneed
      rw [if_pos (show 12 ≤ lo ∧ i.indirect = 0 by omega)] at hfree
      omega
    · rw [if_neg (show ¬(12 ≤ lo ∧ i.indirect = 0) by omega)] at hfree
      omega

end Room

/-- The loop of `sfs_file_write` comes to its end when there is room. -/
theorem writeLoop_full {offset : ℕ} {data : List UInt8} {w : Fs.WriteState} (h : Writing T n f offset data w)
    (hfit : offset + data.length ≤ 1036 * 4096) {fuel : ℕ} (hfuel : data.length - w.written ≤ fuel)
    (hroom : w.written < data.length →
      w.inode.need w.fs.disk ((offset + w.written) / 4096) (blocksFor (offset + data.length)) ≤ w.fs.super.freeBlocks) :
    (Fs.writeLoop offset data fuel w).written = data.length := by
  induction fuel generalizing w with
  | zero =>
    have hle := h.written_le
    show w.written = data.length
    omega
  | succ fuel ih =>
    by_cases hlt : w.written < data.length
    · have hneed := hroom hlt
      have hturn := writeLoop_writing h 1
      unfold Fs.writeLoop at hturn ⊢
      rw [if_pos hlt] at hturn ⊢
      dsimp only at hturn ⊢
      rw [u32_of_lt (by omega)] at hturn ⊢
      have hindex : (offset + w.written) / 4096 < 1036 := by omega
      have hblocks : (offset + w.written) / 4096 < blocksFor (offset + data.length) := by
        unfold blocksFor
        omega
      have hr := blockFor_mapped h.sound n ((offset + w.written) / 4096)
      have hpresent := blockFor_ne_zero (n := n) h.sound hindex
      have hcharge := blockFor_charged (n := n) h.sound hindex
      rw [Function.update_self] at hr hpresent hcharge
      generalize w.fs.blockFor w.inode ((offset + w.written) / 4096) true = r at hr hpresent hcharge hturn ⊢
      have hne : r.block ≠ 0 := hpresent (needed_or_present hneed hblocks)
      rw [if_neg hne] at hturn ⊢
      refine ih hturn (by dsimp only; omega) fun hmore => ?_
      dsimp only at hmore ⊢
      have hnext : (offset + (w.written + min (4096 - (offset + w.written) % 4096) (data.length - w.written))) / 4096 =
          (offset + w.written) / 4096 + 1 := by omega
      have hslots := hr.slot_ne
      have hsound := hr.sound
      rw [Function.update_self] at hslots
      rw [Function.update_idem] at hsound
      have hself := hr.slot_self hindex
      have hchunk : (offset + w.written) % 4096 + min (4096 - (offset + w.written) % 4096) (data.length - w.written) ≤ 4096 := by
        omega
      have hfill := filled hsound hindex (by rwa [hself]) hchunk fun j => data.getD (w.written + j) 0
      rw [hself] at hfill
      have hsame : ∀ lo hi, r.inode.need _ lo hi = r.inode.need r.fs.disk lo hi := fun lo hi =>
        congrArg₂ (· + ·) (Inode.missing_congr fun k _ _ => hfill.slot k) rfl
      rw [hnext, hsame]
      exact (hcharge hne).need hblocks hneed hslots (by unfold blocksFor; omega)
    · have hle := h.written_le
      unfold Fs.writeLoop
      rw [if_neg hlt]
      omega

theorem Fs.Sound.fileWrite_full (S : f.Sound) (hl : f.Live n) {offset : ℕ} {data : List UInt8}
    (hfit : offset + data.length ≤ 1036 * 4096) (hroom : f.Room n offset data.length) :
    Overwritten n f offset data data.length (f.fileWrite n offset data).1 := by
  have hstart := Writing.start S.sound n (show offset ≤ 1036 * 4096 by omega) data
  rw [Fs.table_live hl] at hstart
  have hfull := writeLoop_full hstart hfit (Nat.sub_le _ _) fun hlt => hroom (by dsimp only at hlt; omega)
  have hcount : (f.fileWrite n offset data).2 = data.length := by
    unfold Fs.fileWrite
    rw [Fs.inodeRead_numbered hl.1]
    dsimp only
    rw [hfull]
  obtain ⟨written, heq, hw⟩ := S.fileWrite_overwritten hl (show offset ≤ 1036 * 4096 by omega) data
  obtain rfl : written = data.length := Int.ofNat.inj (heq.symm.trans hcount)
  exact hw

/-! ## Growing over old bytes -/

/-- The blocks of the file hold zeroes from its end up to `upto`. -/
def Fs.Clear (f : Fs) (n upto : ℕ) : Prop := ∀ pos, (f.inodeAt n).size ≤ pos → pos < upto → (f.inodeAt n).byte f.disk pos = 0

theorem Fs.getD_bytes (f : Fs) (n pos : ℕ) :
    (f.bytes n).getD pos 0 = if pos < (f.inodeAt n).size then (f.inodeAt n).byte f.disk pos else 0 := by
  split
  · next h => exact Fs.bytes_getD f n h
  · next h => exact List.getD_eq_default _ _ (by rw [Fs.length_bytes]; omega)

/-- A write does to the array what it should exactly when it leaves no old bytes in a gap. -/
theorem Overwritten.bytes_iff {offset : ℕ} {data : List UInt8} (h : Overwritten n f offset data data.length f')
    (hl : f.Live n) : f'.bytes n = writeAt (f.bytes n) offset data ↔ f.Clear n offset := by
  have hl' : f'.Live n := ⟨(h.changes.numbered n).mpr hl.1, by rw [h.kind.1]; exact hl.2⟩
  have hlimit := (Inode.Covered.of_live h.sound hl').size_le
  have hsize := h.size
  constructor
  · intro heq pos hge hlt
    have hbyte := congrArg (·.getD pos 0) heq
    rw [Fs.getD_bytes, if_pos (by omega), h.byte pos (by omega), if_neg (by omega), getD_writeAt, if_neg (by omega),
      Fs.getD_bytes, if_neg (by omega)] at hbyte
    exact hbyte
  · intro hclear
    refine map_range_eq (by rw [length_writeAt, Fs.length_bytes, hsize]) fun pos hpos => ?_
    rw [h.byte pos (by omega), getD_writeAt]
    split
    · rfl
    · rw [Fs.getD_bytes]
      split
      · rfl
      · exact hclear pos (by omega) (by omega)

theorem Resized.bytes_iff {length : ℕ} (h : Resized n length f f') (hlen : length ≤ 1036 * 4096) :
    f'.bytes n = truncateTo (f.bytes n) length ↔ f.Clear n length := by
  have hsize := h.size
  have hbyte : ∀ pos, pos < length → (f'.inodeAt n).byte f'.disk pos = (f.inodeAt n).byte f.disk pos := by
    intro pos hpos
    rw [h.byte pos (by omega), if_pos (by omega)]
  constructor
  · intro heq pos hge hlt
    have hpos := congrArg (·.getD pos 0) heq
    rw [Fs.getD_bytes, if_pos (by omega), hbyte pos hlt, getD_truncateTo _ hlt, Fs.getD_bytes, if_neg (by omega)] at hpos
    exact hpos
  · intro hclear
    refine map_range_eq (by rw [length_truncateTo, hsize]) fun pos hpos => ?_
    rw [hbyte pos (by omega), getD_truncateTo _ (by omega), Fs.getD_bytes]
    split
    · rfl
    · exact hclear pos (by omega) (by omega)

theorem Fs.Sound.setClock (S : f.Sound) (clock : ℕ) : Fs.Sound { f with clock := clock } :=
  ⟨⟨S.sound.geometry, S.sound.owns, S.sound.free_eq, S.sound.synced⟩, S.covered⟩

end SifarOS.SifarFs

namespace SifarOS.Vfs
open ByteMemory SifarFs ByteFile

variable {v v' : Volume Fs} {path : List Name} {c : NodeCall} {now : Moment} {contents : ℕ → List UInt8}

/-- The file nodes have inodes, and the blocks are in order. -/
structure Backed (v : Volume Fs) : Prop where
  sound : v.fs.Sound
  live : ∀ path readonly n, v.key path = some (false, readonly, n) → v.fs.Live n

/-- The end of the call is within the 1036 blocks of a file. -/
def NodeCall.Within : NodeCall → Prop
  | read offset length => offset + length ≤ 1036 * 4096
  | write offset data => offset + data.length ≤ 1036 * 4096
  | truncate length => length ≤ 1036 * 4096

/-- A write finds the blocks it needs. -/
def HasSpace (v : Volume Fs) (path : List Name) : NodeCall → Prop
  | .write offset data => ∀ n, v.key path = some (false, false, n) → v.fs.Room n offset data.length
  | _ => True

/-- A call that lets the file grow finds no old bytes behind its end. -/
def GrowsClear (v : Volume Fs) (path : List Name) : NodeCall → Prop
  | .read _ _ => True
  | .write offset _ => ∀ n, v.key path = some (false, false, n) → v.fs.Clear n offset
  | .truncate length => ∀ n, v.key path = some (false, false, n) → v.fs.Clear n length

/-- `v` has the nodes of `v₀`, and its files hold these arrays. -/
structure Tracks (v₀ v : Volume Fs) (contents : ℕ → List UInt8) : Prop extends Backed v where
  key : ∀ path, v.key path = v₀.key path
  bytes : ∀ n, v.fs.Live n → v.fs.bytes n = contents n

/-- The file with inode `n` is changed and has another array. -/
theorem Tracks.update {v₀ : Volume Fs} (h : Tracks v₀ v contents) {n : ℕ} (hl : v.fs.Live n) {f : Fs} (hs : f.Sound)
    (hc : Changes (· = n) v.fs f) (hk : SameKind (v.fs.inodeAt n) (f.inodeAt n)) {array : List UInt8}
    (hb : f.bytes n = array) (path : List Name) (size : ℕ) :
    Tracks v₀ (Volume.resize { v with fs := f } path size) (Function.update contents n array) := by
  have hlive : ∀ m, f.Live m ↔ v.fs.Live m := by
    intro m
    by_cases hm : m = n
    · subst hm
      refine iff_of_true ⟨(hc.numbered m).mpr hl.1, ?_⟩ hl
      rw [hk.1]
      exact hl.2
    · exact hc.live hm
  have hkey : ∀ q, (Volume.resize { v with fs := f } path size).key q = v.key q :=
    fun q => Volume.key_resize { v with fs := f } path size q
  refine ⟨⟨?_, fun q readonly m hq => ?_⟩, fun q => (hkey q).trans (h.key q), fun m hm => ?_⟩
  · rw [Volume.resize_fs]
    exact hs
  · rw [Volume.resize_fs]
    rw [hkey] at hq
    exact (hlive m).mpr (h.live q readonly m hq)
  · rw [Volume.resize_fs] at hm ⊢
    by_cases he : m = n
    · subst he
      rw [Function.update_self]
      exact hb
    · rw [Function.update_of_ne he, ← h.bytes m ((hlive m).mp hm)]
      exact hc.bytes m he ((hlive m).mp hm)

theorem key_of_follow {σ : Type} {v : Volume σ} {a : Attrs} {child : Forest}
    (hf : follow (v.root, v.tree) path = some (a, child)) : v.key path = some (a.dir, a.readonly, a.inode) := by
  unfold Volume.key
  rw [hf]
  rfl

theorem Tracks.setClock {v₀ : Volume Fs} (h : Tracks v₀ v contents) (clock : ℕ) :
    Tracks v₀ { v with fs := { v.fs with clock := clock } } contents :=
  ⟨⟨h.sound.setClock clock, h.live⟩, h.key, h.bytes⟩

theorem NodeCall.after_refused {v₀ : Volume Fs} {dir readonly : Bool} {n : ℕ} (hk : v₀.key path = some (dir, readonly, n))
    (h : dir = true ∨ readonly = true) (contents : ℕ → List UInt8) (c : NodeCall) : c.after v₀ contents path = contents := by
  unfold NodeCall.after
  rw [hk]
  cases dir <;> cases readonly <;> first | rfl | simp at h

theorem NodeCall.after_open {v₀ : Volume Fs} {n : ℕ} (hk : v₀.key path = some (false, false, n)) (contents : ℕ → List UInt8)
    (c : NodeCall) : c.after v₀ contents path = Function.update contents n (c.apply (contents n)) := by
  unfold NodeCall.after
  rw [hk]

theorem Tracks.write {v₀ : Volume Fs} (h : Tracks v₀ v contents) {a : Attrs} {child : Forest}
    (hf : follow (v.root, v.tree) path = some (a, child)) {offset : ℕ} {data : List UInt8}
    (hw : offset + data.length ≤ 1036 * 4096) (hs : HasSpace v path (.write offset data))
    (hg : GrowsClear v path (.write offset data)) (now : Moment) :
    Tracks v₀ (v.write sfsOps now path a offset data).1 ((NodeCall.write offset data).after v₀ contents path) := by
  have hkey := key_of_follow hf
  have hkey₀ := (h.key path).symm.trans hkey
  unfold Volume.write
  split
  · next hdir =>
    rw [NodeCall.after_refused hkey₀ (Or.inl hdir)]
    exact h
  · next hdir =>
    split
    · next hro =>
      rw [NodeCall.after_refused hkey₀ (Or.inr hro)]
      exact h
    · next hro =>
      rw [Bool.not_eq_true] at hdir hro
      rw [hdir, hro] at hkey hkey₀
      have hl := h.live path false _ hkey
      have hfull := h.sound.fileWrite_full hl hw (hs _ hkey)
      rw [NodeCall.after_open hkey₀, ← h.bytes _ hl]
      exact h.update hl hfull.sound hfull.changes hfull.kind ((hfull.bytes_iff hl).mpr (hg _ hkey)) path _

theorem Tracks.truncate {v₀ : Volume Fs} (h : Tracks v₀ v contents) {a : Attrs} {child : Forest}
    (hf : follow (v.root, v.tree) path = some (a, child)) {length : ℕ} (hw : length ≤ 1036 * 4096)
    (hg : GrowsClear v path (.truncate length)) (now : Moment) :
    Tracks v₀ (v.truncate sfsOps now path a length).1 ((NodeCall.truncate length).after v₀ contents path) := by
  have hkey := key_of_follow hf
  have hkey₀ := (h.key path).symm.trans hkey
  unfold Volume.truncate
  split
  · next hc =>
    rw [NodeCall.after_refused hkey₀ hc]
    exact h
  · next hc =>
    simp only [not_or, Bool.not_eq_true] at hc
    rw [hc.1, hc.2] at hkey hkey₀
    have hl := h.live path false _ hkey
    obtain ⟨-, hr⟩ := h.sound.fileTruncate_resized hl hw
    rw [NodeCall.after_open hkey₀, ← h.bytes _ hl]
    exact h.update hl hr.sound hr.changes hr.kind ((hr.bytes_iff hw).mpr (hg _ hkey)) path _

theorem Tracks.step {v₀ : Volume Fs} (h : Tracks v₀ v contents) (hw : c.Within) (hs : HasSpace v path c)
    (hg : GrowsClear v path c) (now : Moment) : Tracks v₀ (c.run sfsOps now v path) (c.after v₀ contents path) := by
  have hclock := h.setClock now.clock
  unfold NodeCall.run
  cases hf : follow (v.root, v.tree) path with
  | none =>
    have hkey : v₀.key path = none := by
      rw [← h.key path]
      unfold Volume.key
      rw [hf]
      rfl
    have hsame : c.after v₀ contents path = contents := by
      unfold NodeCall.after
      rw [hkey]
    rw [hsame]
    exact h
  | some node =>
    cases c with
    | read offset length =>
      have hsame : (NodeCall.read offset length).after v₀ contents path = contents := by
        unfold NodeCall.after
        split
        · exact Function.update_eq_self _ _
        · rfl
      rw [hsame]
      exact hclock
    | write offset data => exact hclock.write hf hw hs hg now
    | truncate length => exact hclock.truncate hf hw hg now

theorem Tracks.run {v₀ : Volume Fs} (h : Tracks v₀ v contents) {calls : List (List Name × NodeCall × Moment)}
    (hw : ∀ call ∈ calls, call.2.1.Within) (hs : Along sfsOps HasSpace v calls) (hg : Along sfsOps GrowsClear v calls) :
    Tracks v₀ (runNodes sfsOps v calls) (applyNodes v₀ contents calls) := by
  induction calls generalizing v contents with
  | nil => exact h
  | cons call rest ih =>
    obtain ⟨path, c, now⟩ := call
    have hnext := h.step (hw _ List.mem_cons_self) hs.1 hg.1 now
    exact ih hnext (fun x hx => hw x (List.mem_cons_of_mem _ hx)) hs.2 hg.2

/-- After any calls that find space and grow over no old bytes, every file reads as its array. -/
theorem reads_as_array {v : Volume Fs} (h : Backed v) {calls : List (List Name × NodeCall × Moment)}
    (hw : ∀ call ∈ calls, call.2.1.Within) (hs : Along sfsOps HasSpace v calls) (hg : Along sfsOps GrowsClear v calls)
    {path : List Name} {a : Attrs} {child : Forest}
    (hf : follow ((runNodes sfsOps v calls).root, (runNodes sfsOps v calls).tree) path = some (a, child)) (ha : a.dir = false)
    {offset length : ℕ} (hr : (NodeCall.read offset length).Within) :
    (runNodes sfsOps v calls).read sfsOps a offset length =
      some (readAt (applyNodes v v.fs.bytes calls a.inode) offset length) := by
  have hrun : Tracks v (runNodes sfsOps v calls) (applyNodes v v.fs.bytes calls) :=
    Tracks.run ⟨h, fun _ => rfl, fun _ _ => rfl⟩ hw hs hg
  have hkey := key_of_follow hf
  rw [ha] at hkey
  have hl := hrun.live path a.readonly a.inode hkey
  have hlimit := (Inode.Covered.of_live hrun.sound hl).size_le
  unfold Volume.read
  rw [if_neg (by simp [ha]), ← hrun.bytes _ hl]
  unfold NodeCall.Within at hr
  exact Fs.fileRead_eq hl.1 hlimit (by omega)

/-! ## The small disk -/

theorem follow_mountOf {f : Fs} {path : List Name} {a : Attrs} {child : Forest}
    (hf : follow ((mountOf f).root, (mountOf f).tree) path = some (a, child)) : a = (mountOf f).root ∨ a = smallNode f := by
  cases path with
  | nil => exact Or.inl (Prod.mk.inj (Option.some.inj hf)).1.symm
  | cons name rest =>
    obtain ⟨-, b, c, hfind, hrest⟩ := follow_cons hf
    have hb : b = smallNode f ∧ c = .nil := by
      unfold mountOf Forest.find at hfind
      split at hfind
      · obtain ⟨rfl, rfl⟩ := Prod.mk.inj (Option.some.inj hfind)
        exact ⟨rfl, rfl⟩
      · cases hfind
    obtain ⟨rfl, rfl⟩ := hb
    cases rest with
    | nil => exact Or.inr (Prod.mk.inj (Option.some.inj hrest)).1.symm
    | cons name' rest' => cases hrest

theorem key_mountOf {f : Fs} {path : List Name} {readonly : Bool} {n : ℕ}
    (h : (mountOf f).key path = some (false, readonly, n)) : n = 2 := by
  obtain ⟨⟨a, child⟩, hf, hkey⟩ := Option.map_eq_some_iff.mp h
  rcases follow_mountOf hf with rfl | rfl
  · cases hkey
  · exact (Prod.mk.inj (Prod.mk.inj hkey).2).2.symm

theorem backed_small : Backed (mountOf smallFs) where
  sound := smallFs_sound
  live := fun path readonly n h => by
    rw [key_mountOf h]
    exact smallFs_live

/-- Two bytes are written to the empty file. -/
def writeTwo : List Name × NodeCall × Moment := ([[97]], .write 0 [65, 66], ⟨0, true, true, true⟩)

theorem writeTwo_space (rest : List (List Name × NodeCall × Moment)) (h : Along sfsOps HasSpace
    (NodeCall.run sfsOps writeTwo.2.2 (mountOf smallFs) writeTwo.1 writeTwo.2.1) rest) :
    Along sfsOps HasSpace (mountOf smallFs) (writeTwo :: rest) := by
  refine ⟨fun n hn _ => ?_, h⟩
  obtain rfl := key_mountOf hn
  decide

theorem reads_as_array_two : ∃ a child, follow ((runNodes sfsOps (mountOf smallFs) [writeTwo]).root,
    (runNodes sfsOps (mountOf smallFs) [writeTwo]).tree) [[97]] = some (a, child) ∧
      (runNodes sfsOps (mountOf smallFs) [writeTwo]).read sfsOps a 0 2 = some [65, 66] := by
  have hw : ∀ call ∈ [writeTwo], call.2.1.Within := by
    intro call hcall
    rw [List.mem_singleton.mp hcall]
    exact (show 0 + 2 ≤ 1036 * 4096 by decide)
  have hg : Along sfsOps GrowsClear (mountOf smallFs) [writeTwo] := ⟨fun n _ pos _ hlt => absurd hlt (by omega), trivial⟩
  have hf : follow ((runNodes sfsOps (mountOf smallFs) [writeTwo]).root,
      (runNodes sfsOps (mountOf smallFs) [writeTwo]).tree) [[97]] = some ({ smallNode smallFs with size := 2 }, .nil) := by
    decide
  refine ⟨_, _, hf, ?_⟩
  rw [reads_as_array backed_small hw (writeTwo_space [] trivial) hg hf rfl (show 0 + 2 ≤ 1036 * 4096 by decide)]
  decide

/-- The file is cut to one byte and stretched to two again. -/
def cutAndStretch : List (List Name × NodeCall × Moment) :=
  [writeTwo, ([[97]], .truncate 1, ⟨0, true, true, true⟩), ([[97]], .truncate 2, ⟨0, true, true, true⟩)]

/-- The second byte is back. -/
theorem old_byte_returns : ¬∀ (v : Volume Fs) (calls : List (List Name × NodeCall × Moment)) (path : List Name) (a : Attrs)
    (child : Forest) (offset length : ℕ), Backed v → (∀ call ∈ calls, call.2.1.Within) → Along sfsOps HasSpace v calls →
    follow ((runNodes sfsOps v calls).root, (runNodes sfsOps v calls).tree) path = some (a, child) → a.dir = false →
    (NodeCall.read offset length).Within → (runNodes sfsOps v calls).read sfsOps a offset length =
      some (readAt (applyNodes v v.fs.bytes calls a.inode) offset length) := by
  intro h
  have hw : ∀ call ∈ cutAndStretch, call.2.1.Within := by
    intro call hcall
    simp only [cutAndStretch, List.mem_cons, List.not_mem_nil, or_false] at hcall
    rcases hcall with rfl | rfl | rfl
    · exact (show 0 + 2 ≤ 1036 * 4096 by decide)
    · exact (show 1 ≤ 1036 * 4096 by decide)
    · exact (show 2 ≤ 1036 * 4096 by decide)
  have hread := h (mountOf smallFs) cutAndStretch [[97]] { smallNode smallFs with size := 2 } .nil 0 2 backed_small hw
    (writeTwo_space _ ⟨trivial, trivial, trivial⟩) (by decide) rfl (show 0 + 2 ≤ 1036 * 4096 by decide)
  exact absurd hread (by decide)

end SifarOS.Vfs
