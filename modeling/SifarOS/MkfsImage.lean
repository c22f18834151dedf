import SifarOS.MkfsBuild
import SifarOS.Vfs

/-! # The image that `mkfs.py` writes

Mounting what `serialise` has written gives back the inodes, the marks and the blocks of the build:
the kernel's invariant holds of it, and every file reads as the bytes that were given for it. -/
namespace SifarOS.Mkfs
open ByteMemory SifarFs BlockOwnership

namespace Filesystem

variable {fs : Filesystem} {n b k : ℕ} {data : ℕ → List UInt8} {L : ℕ → List ℕ} {high : ℕ}

/-! ## Where the parts of the image lie -/

theorem inodeCount_le (fs : Filesystem) : fs.inodeCount ≤ fs.inodeBlocks * 32 := by
  unfold inodeBlocks
  omega

theorem serialise_super (fs : Filesystem) {k : ℕ} (hk : k < 19) : load32 fs.serialise (4 * k) = fs.super.word k % 4294967296 := by
  refine load32_of_bytes (fun j hj => ?_)
  unfold serialise
  have h₁ : (4 * k + j) / 4 = k := by omega
  have h₂ : (4 * k + j) % 4 = j := by omega
  rw [if_pos (by omega), if_pos (by omega), h₁, h₂]

theorem serialise_bitmap (fs : Filesystem) {i : ℕ} (hi : i < fs.bitmapBlocks * 4096) :
    fs.serialise (4096 + i) = fs.bitmapByte i := by
  unfold serialise
  have hstart : fs.inodeStart * 4096 = 4096 + fs.bitmapBlocks * 4096 := by
    unfold inodeStart
    omega
  rw [if_neg (by omega), if_pos (by omega), Nat.add_sub_cancel_left]

theorem serialise_inode (fs : Filesystem) {n k : ℕ} (hn : 1 ≤ n ∧ n ≤ fs.inodeCount) (hk : k < 32) :
    load32 fs.serialise (fs.inodeStart * 4096 + (n - 1) * 128 + 4 * k) = (fs.inodes n).word k % 4294967296 := by
  refine load32_of_bytes (fun j hj => ?_)
  have hstart : 4096 ≤ fs.inodeStart * 4096 := by
    unfold inodeStart
    omega
  generalize hx : fs.inodeStart * 4096 + (n - 1) * 128 + 4 * k + j = x
  have hi : x - fs.inodeStart * 4096 = (n - 1) * 128 + (4 * k + j) := by omega
  have h₁ : ((n - 1) * 128 + (4 * k + j)) / 128 + 1 = n := by omega
  have h₂ : ((n - 1) * 128 + (4 * k + j)) % 128 / 4 = k := by omega
  have h₃ : ((n - 1) * 128 + (4 * k + j)) % 4 = j := by omega
  have hlt : x < fs.inodeStart * 4096 + fs.inodeCount * 128 := by omega
  unfold serialise
  rw [if_neg (by omega), if_neg (by omega), if_pos hlt]
  dsimp only
  rw [hi, h₁, h₂, h₃]

theorem serialise_data (fs : Filesystem) {x : ℕ} (hx : fs.dataStart * 4096 ≤ x) : fs.serialise x = fs.blocks x := by
  have hcount := fs.inodeCount_le
  have hstart : 4096 ≤ fs.inodeStart * 4096 := by
    unfold inodeStart
    omega
  have hdata : fs.dataStart * 4096 = fs.inodeStart * 4096 + fs.inodeBlocks * 4096 := by
    unfold dataStart
    rw [Nat.add_mul]
  unfold serialise
  rw [if_neg (by omega), if_neg (by omega), if_neg (by omega)]

/-- A bit of a sum of powers of two. -/
theorem testBit_byte (p : ℕ → Bool) {j : ℕ} (hj : j < 8) :
    (((List.range 8).map (fun k => if p k then 2 ^ k else 0)).sum).testBit j = p j := by
  have hall : ∀ a b c d e f g h : Bool, ∀ j : Fin 8, ((if a then 1 else 0) + ((if b then 2 else 0) + ((if c then 4 else 0) +
      ((if d then 8 else 0) + ((if e then 16 else 0) + ((if f then 32 else 0) + ((if g then 64 else 0) +
        ((if h then 128 else 0) + 0))))))) : ℕ).testBit j = [a, b, c, d, e, f, g, h].getD j false := by
    decide
  have := hall (p 0) (p 1) (p 2) (p 3) (p 4) (p 5) (p 6) (p 7) ⟨j, hj⟩
  have hget : [p 0, p 1, p 2, p 3, p 4, p 5, p 6, p 7].getD j false = p j := by
    match j, hj with
    | 0, _ | 1, _ | 2, _ | 3, _ | 4, _ | 5, _ | 6, _ | 7, _ => rfl
  rw [← hget, ← this]
  rfl

/-! ## The mounted image -/

/-- The driver's state after `sfs_mount` has read the superblock and the bitmap. -/
def mounted (fs : Filesystem) (used clock : ℕ) : Fs where
  super := Vfs.readSuper fs.serialise
  bitmap := fun i =>
    if i < (Vfs.readSuper fs.serialise).bitmapBlocks * 4096 then
      fs.serialise ((Vfs.readSuper fs.serialise).bitmapStart * 4096 + i) else 0
  disk := fs.serialise
  inodesUsed := used
  clock := clock

/-- The sizes that `serialise` packs into 32 bits. -/
structure Fits (fs : Filesystem) : Prop where
  total_lt : fs.totalBlocks < 4294967296
  count_lt : fs.inodeCount < 4294967296
  data_le : fs.dataStart ≤ fs.totalBlocks

theorem Built.fits (h : Built fs data) : fs.Fits := by
  obtain ⟨L, high, hL⟩ := h.layout
  exact ⟨h.total_lt, h.count_lt, Nat.le_trans hL.start_le hL.le⟩

theorem freeBlocks_le (fs : Filesystem) : fs.freeBlocks ≤ fs.totalBlocks := by
  unfold freeBlocks
  exact (List.length_filter_le _ _).trans_eq List.length_range

/-- A superblock from its words. -/
theorem super_ofWords (s : Super) (label : ℕ → ℕ) : (⟨s.word 0, s.word 1, s.word 2, s.word 3, s.word 4, s.word 5, s.word 6,
    s.word 7, s.word 8, s.word 9, s.word 10, label⟩ : Super) = { s with label := label } := rfl

theorem word_bitmapBlocks (s : Super) : s.word 5 = s.bitmapBlocks := rfl

theorem super_bitmapBlocks (fs : Filesystem) : fs.super.bitmapBlocks = fs.bitmapBlocks := rfl

/-- The superblock that is read back, but for the label. -/
theorem readSuper_serialise (h : fs.Fits) :
    Vfs.readSuper fs.serialise = { fs.super with label := (Vfs.readSuper fs.serialise).label } := by
  have hdata := h.data_le
  have htotal := h.total_lt
  have hfree := fs.freeBlocks_le
  have hds : fs.dataStart = 1 + fs.bitmapBlocks + fs.inodeBlocks := rfl
  have his : fs.inodeStart = 1 + fs.bitmapBlocks := rfl
  have hword : ∀ k, k < 19 → fs.super.word k < 4294967296 → load32 fs.serialise (4 * k) = fs.super.word k := by
    intro k hk hlt
    rw [fs.serialise_super hk, Nat.mod_eq_of_lt hlt]
  have h₃ : fs.super.word 3 < 4294967296 := htotal
  have h₅ : fs.super.word 5 < 4294967296 := by
    rw [word_bitmapBlocks, super_bitmapBlocks]
    omega
  have h₆ : fs.super.word 6 < 4294967296 := show fs.inodeStart < 4294967296 by omega
  have h₇ : fs.super.word 7 < 4294967296 := show fs.inodeBlocks < 4294967296 by omega
  have h₁₀ : fs.super.word 10 < 4294967296 := show fs.freeBlocks < 4294967296 by omega
  unfold Vfs.readSuper
  dsimp only
  rw [hword 0 (by decide) (show 0x53465321 < 4294967296 by decide), hword 1 (by decide) (show 1 < 4294967296 by decide),
    hword 2 (by decide) (show 4096 < 4294967296 by decide), hword 3 (by decide) h₃,
    hword 4 (by decide) (show 1 < 4294967296 by decide), hword 5 (by decide) h₅, hword 6 (by decide) h₆,
    hword 7 (by decide) h₇, hword 8 (by decide) h.count_lt, hword 9 (by decide) (show 1 < 4294967296 by decide),
    hword 10 (by decide) h₁₀]
  exact super_ofWords fs.super _

/-- The words of the superblock are those of the disk. -/
theorem readSuper_word (disk : Memory) {k : ℕ} (hk : k < 19) : load32 disk (4 * k) = (Vfs.readSuper disk).word k := by
  obtain hlow | ⟨i, rfl⟩ : k < 11 ∨ ∃ i, k = i + 11 := by
    by_cases h : k < 11
    · exact Or.inl h
    · exact Or.inr ⟨k - 11, by omega⟩
  · match k, hlow with
    | 0, _ | 1, _ | 2, _ | 3, _ | 4, _ | 5, _ | 6, _ | 7, _ | 8, _ | 9, _ | 10, _ => rfl
  · -- a word of the label
    show _ = if i + 11 < 19 then (if i + 11 - 11 < 8 then load32 disk (4 * (11 + (i + 11 - 11))) else 0) else 0
    rw [if_pos hk, if_pos (by omega), Nat.add_sub_cancel, Nat.add_comm]

variable {used clock : ℕ}

theorem mounted_super (h : fs.Fits) :
    (fs.mounted used clock).super = { fs.super with label := (Vfs.readSuper fs.serialise).label } := readSuper_serialise h

theorem mounted_dataStart (h : fs.Fits) : (fs.mounted used clock).super.dataStart = fs.dataStart := by
  rw [mounted_super h]
  rfl

theorem mounted_geometry (h : fs.Fits) : Geometry (fs.mounted used clock).super := by
  rw [mounted_super h]
  have hcount := fs.inodeCount_le
  refine ⟨Nat.le_refl _, Nat.le_refl _, ?_, hcount, h.data_le, h.total_lt⟩
  show fs.totalBlocks ≤ fs.bitmapBlocks * 32768
  unfold bitmapBlocks
  omega

theorem mounted_bitmapTest (h : fs.Fits) (hb : b < fs.totalBlocks) : (fs.mounted used clock).bitmapTest b = fs.used b := by
  have hbyte : b / 8 < fs.bitmapBlocks * 4096 := by
    unfold bitmapBlocks
    omega
  have hmap : (fs.mounted used clock).bitmap (b / 8) = fs.bitmapByte (b / 8) := by
    show (if b / 8 < (Vfs.readSuper fs.serialise).bitmapBlocks * 4096 then
      fs.serialise ((Vfs.readSuper fs.serialise).bitmapStart * 4096 + b / 8) else 0) = _
    rw [readSuper_serialise h]
    show (if b / 8 < fs.bitmapBlocks * 4096 then fs.serialise (1 * 4096 + b / 8) else 0) = _
    rw [if_pos hbyte, Nat.one_mul, fs.serialise_bitmap hbyte]
  have hbit := testBit_byte (fun k => decide (8 * (b / 8) + k < fs.totalBlocks ∧ fs.used (8 * (b / 8) + k) = true))
    (Nat.mod_lt b (show 0 < 8 by decide))
  have hsplit : 8 * (b / 8) + b % 8 = b := by omega
  unfold Fs.bitmapTest
  rw [hmap, bitmapByte, UInt8.toNat_ofNat', Nat.testBit_mod_two_pow]
  simp only [decide_eq_true_eq] at hbit
  rw [hbit, hsplit, decide_eq_true (Nat.mod_lt b (show 0 < 8 by decide)), Bool.true_and]
  cases hu : fs.used b <;> simp [hb]

theorem mounted_numbered (h : fs.Fits) : (fs.mounted used clock).Numbered n ↔ 1 ≤ n ∧ n ≤ fs.inodeCount := by
  unfold Fs.Numbered
  rw [mounted_super h]
  rfl

/-- An inode is read back. -/
theorem mounted_inodeAt (h : fs.Fits) (hn : 1 ≤ n ∧ n ≤ fs.inodeCount) (hp : (fs.inodes n).Packed) :
    (fs.mounted used clock).inodeAt n = fs.inodes n := by
  have haddr : (fs.mounted used clock).inodeAddr n = fs.inodeStart * 4096 + (n - 1) * 128 := by
    rw [Fs.inodeAddr_eq, mounted_super h]
    rfl
  have hword : ∀ k, k < 32 → load32 (fs.mounted used clock).disk ((fs.mounted used clock).inodeAddr n + 4 * k) =
      (fs.inodes n).word k := by
    intro k hk
    rw [haddr]
    exact (fs.serialise_inode hn hk).trans (Nat.mod_eq_of_lt (hp.word k))
  exact Fs.inodeAt_of_words hp hword

/-! ## The blocks of the inodes -/

theorem Layout.slot_mem (h : Layout fs L high) (hk : (fs.inodes n).slot fs.blocks k ≠ 0) :
    k ≤ 1036 ∧ (fs.inodes n).slot fs.blocks k ∈ L n ∧ place k < (L n).length := by
  have hle : k ≤ 1036 := by
    by_contra hgt
    exact hk (Inode.slot_beyond (by omega))
  rw [(h.holds n).laid k hle] at hk ⊢
  have hp : place k < (L n).length := by
    by_contra hge
    exact hk (List.getD_eq_default _ _ (by omega))
  rw [List.getD_eq_getElem _ _ hp]
  exact ⟨hle, List.getElem_mem _, hp⟩

theorem Layout.slot_range (h : Layout fs L high) (hk : (fs.inodes n).slot fs.blocks k ≠ 0) :
    fs.dataStart ≤ (fs.inodes n).slot fs.blocks k ∧ (fs.inodes n).slot fs.blocks k < fs.totalBlocks := by
  have hr := h.range n _ (h.slot_mem hk).2.1
  exact ⟨hr.1, Nat.lt_of_lt_of_le hr.2 h.le⟩

theorem Built.packed (h : Built fs data) (n : ℕ) : (fs.inodes n).Packed := by
  obtain ⟨L, high, hL⟩ := h.layout
  have hh := h.header n
  have hsize := (hL.holds n).size_le
  have htotal := h.total_lt
  refine ⟨hh.type_lt, by omega, hh.links_lt, hh.created_lt, hh.modified_lt, hh.flags_lt, fun k => ?_, ?_,
    fun k => by rw [hh.reserved]; decide, (hL.holds n).direct, fun k _ => hh.reserved k⟩
  · by_cases hz : (fs.inodes n).direct k = 0
    · rw [hz]
      decide
    · have h12 : k < 12 := by
        by_contra hge
        exact hz ((hL.holds n).direct k (by omega))
      have hr := hL.slot_range (n := n) (k := k) (by rwa [Inode.slot_direct h12])
      rw [Inode.slot_direct h12] at hr
      exact Nat.lt_trans hr.2 htotal
  · by_cases hz : (fs.inodes n).indirect = 0
    · rw [hz]
      decide
    · have hr := hL.slot_range (n := n) (k := 1036) (by rwa [Inode.slot_indirect])
      rw [Inode.slot_indirect] at hr
      exact Nat.lt_trans hr.2 htotal

/-- Every place up to the number of blocks taken is some block's. -/
theorem place_surj {p j : ℕ} (hj : j ≤ 1036) (hp : p < taken j) : ∃ k, k ≤ 1036 ∧ place k = p := by
  unfold taken at hp
  by_cases h13 : p = 13
  · exact ⟨1036, Nat.le_refl _, h13.symm⟩
  by_cases hlt : p < 13
  · refine ⟨p, by omega, ?_⟩
    unfold place
    rw [if_neg (by omega), if_pos hlt]
  · refine ⟨p - 1, by split at hp <;> omega, ?_⟩
    unfold place
    rw [if_neg (by split at hp <;> omega), if_neg (by omega)]
    omega

/-- The marks of the image are those of the blocks that the inodes have. -/
theorem Layout.owns (h : Layout fs L high) :
    Owns fs.dataStart fs.totalBlocks fs.used (fun p : ℕ × ℕ => (fs.inodes p.1).slot fs.blocks p.2) := by
  refine ⟨fun p hp => h.slot_range hp, ?_, fun b _ => ?_⟩
  · rintro ⟨n, k⟩ ⟨m, k'⟩ he hne
    dsimp only at he hne
    obtain ⟨hk, hmem, hlt⟩ := h.slot_mem hne
    obtain ⟨hk', hmem', hlt'⟩ := h.slot_mem (n := m) (k := k') (he ▸ hne)
    obtain rfl := h.disjoint n m _ hmem (he ▸ hmem')
    rw [(h.holds n).laid k hk, (h.holds n).laid k' hk'] at he
    rw [place_inj hk hk' ?_]
    by_contra hplace
    exact getD_ne (h.holds n).increasing hlt hlt' hplace he
  · rw [h.used b]
    have hst := h.start_le
    constructor
    · intro hb
      by_cases hlo : b < fs.dataStart
      · exact Or.inl hlo
      obtain ⟨n, hn⟩ := h.cover b (by omega) hb
      obtain ⟨p, hp, he⟩ := List.mem_iff_getElem.mp hn
      have hlen := (h.holds n).length
      obtain ⟨k, hk, hpk⟩ := place_surj (h.holds n).needed_le (by omega : p < taken (needed (fs.inodes n).size))
      refine Or.inr ⟨(n, k), ?_⟩
      dsimp only
      rw [(h.holds n).laid k hk, hpk, List.getD_eq_getElem _ _ hp, he]
    · rintro (hb | ⟨⟨n, k⟩, hb⟩)
      · omega
      · by_cases hz : b = 0
        · have := dataStart_pos fs
          omega
        · dsimp only at hb
          have hmem := (h.slot_mem (n := n) (k := k) (hb ▸ hz)).2.1
          rw [hb] at hmem
          exact (h.range n b hmem).2

/-! ## The invariant of the kernel -/

theorem mounted_slot (h : Built fs data) (n k : ℕ) : (fs.inodes n).slot fs.serialise k = (fs.inodes n).slot fs.blocks k := by
  obtain ⟨L, high, hL⟩ := h.layout
  refine Inode.slot_same (fun hi => fun x h₁ _ => fs.serialise_data ?_) k
  have hr := hL.slot_range (n := n) (k := 1036) (by rwa [Inode.slot_indirect])
  rw [Inode.slot_indirect] at hr
  exact Nat.le_trans (Nat.mul_le_mul_right 4096 hr.1) h₁

theorem mounted_byte (h : Built fs data) (n pos : ℕ) : (fs.inodes n).byte fs.serialise pos = (fs.inodes n).byte fs.blocks pos := by
  obtain ⟨L, high, hL⟩ := h.layout
  refine Inode.byte_congr (mounted_slot h n _) (fun hne => fun x h₁ _ => fs.serialise_data ?_)
  exact Nat.le_trans (Nat.mul_le_mul_right 4096 (hL.slot_range hne).1) h₁

/-- `block_for` finds the bytes of a file. -/
theorem mounted_blockFor (h : Built fs data) (n : ℕ) {pos : ℕ} (hpos : pos < (data n).length) :
    (fs.mounted used clock).disk (((fs.mounted used clock).blockFor (fs.inodes n) (pos / 4096) false).block * 4096 +
      pos % 4096) = (data n).getD pos 0 := by
  obtain ⟨L, high, hL⟩ := h.layout
  have hsize := h.size_eq n
  have hle := (hL.holds n).size_le
  have hne : (fs.inodes n).slot fs.serialise (pos / 4096) ≠ 0 := by
    rw [mounted_slot h, (hL.holds n).laid _ (by omega)]
    exact (hL.holds n).getD_ne_zero (show pos / 4096 < needed (fs.inodes n).size by unfold needed; omega)
  have hget : (data n).getD pos 0 = (fs.inodes n).byte fs.blocks pos := by
    rw [← h.bytes n, fileBytes, List.getD_eq_getElem _ _ (by rw [List.length_map, List.length_range]; omega), List.getElem_map,
      List.getElem_range]
  rw [blockFor_read, if_pos (by omega), hget, ← mounted_byte h]
  unfold Inode.byte
  rw [if_neg hne]
  rfl

section mounted

variable (h : Built fs data) (hf : fs.Fits)
include h hf

theorem mounted_table (n : ℕ) : (fs.mounted used clock).table n = fs.inodes n := by
  by_cases hn : 1 ≤ n ∧ n ≤ fs.inodeCount
  · have hi : (fs.mounted used clock).inodeAt n = fs.inodes n := mounted_inodeAt hf hn (h.packed n)
    by_cases ht : (fs.inodes n).type = typeFree
    · rw [Fs.table_not_live (fun hl => hl.2 (by rw [hi]; exact ht)), h.free n ht]
    · rw [Fs.table_live ⟨(mounted_numbered hf).mpr hn, by rwa [hi]⟩, hi]
  · rw [Fs.table_not_live (fun hl => hn ((mounted_numbered hf).mp hl.1)), h.outside n (by omega)]

theorem mounted_sound : (fs.mounted used clock).Sound := by
  obtain ⟨L, high, hL⟩ := h.layout
  have htotal : (fs.mounted used clock).super.totalBlocks = fs.totalBlocks := by
    rw [mounted_super hf]
    rfl
  have hmarks : ∀ c, c < fs.totalBlocks → (fs.mounted used clock).bitmapTest c = fs.used c :=
    fun c hc => mounted_bitmapTest hf hc
  refine ⟨⟨mounted_geometry hf, ?_, ?_, fun k hk => ?_⟩, fun n => ?_⟩
  · rw [mounted_dataStart hf, htotal]
    refine hL.owns.congr (fun p => ?_) hmarks
    rw [mounted_table h hf]
    exact mounted_slot h p.1 p.2
  · rw [htotal, clearCount_congr hmarks, mounted_super hf]
    rfl
  · show load32 fs.serialise (4 * k) = (Vfs.readSuper fs.serialise).word k
    exact readSuper_word fs.serialise hk
  · rw [mounted_table h hf]
    refine ⟨(hL.holds n).size_le, fun k hk hne => ?_⟩
    have hne' : (fs.inodes n).slot fs.blocks k ≠ 0 := by
      rwa [← mounted_slot h n k]
    have hlt := (hL.slot_mem hne').2.2
    rw [(hL.holds n).length, place_lt_taken hk] at hlt
    unfold needed at hlt
    omega

theorem mounted_bytes (hn : 1 ≤ n ∧ n ≤ fs.inodeCount) : (fs.mounted used clock).bytes n = data n := by
  unfold Fs.bytes
  rw [mounted_inodeAt hf hn (h.packed n), ← h.bytes n]
  exact List.map_congr_left (fun pos _ => mounted_byte h n pos)

end mounted

/-- `sfs_mount` accepts what `serialise` has written. -/
theorem mount_serialise (hf : fs.Fits) (clock : ℕ) :
    ∃ m used, Vfs.mount fs.serialise clock = some m ∧ m.fs = fs.mounted used clock ∧
      m.root = { name := [], dir := true, readonly := false, size := 0, inode := 1 } ∧
      m.tree = Vfs.buildTree (fs.mounted 0 clock) 17 1 := by
  have hroot : (Vfs.readSuper fs.serialise).rootInode = 1 := by
    rw [readSuper_serialise hf]
    rfl
  unfold Vfs.mount
  dsimp only
  rw [if_neg]
  · rw [hroot]
    exact ⟨_, _, rfl, rfl, rfl, rfl⟩
  · rw [readSuper_serialise hf]
    simp [super]

end Filesystem

/-- An image whose build stays on allocated inodes is mounted in a state that meets the invariant of
the kernel, and there every inode is read back with the bytes last given for it. Beyond 32 bits
`struct.pack` raises an error. -/
theorem image_consistent {totalBlocks inodeCount : ℕ} {label : ℕ → ℕ} {arguments : List Argument} {fs : Filesystem}
    {log : Filesystem.Log} (ht : totalBlocks < 4294967296) (hc : inodeCount < 4294967296)
    (hp : ∀ a ∈ arguments, a.Packable)
    (hg : ∀ start, build false totalBlocks inodeCount label [] = some start → GroundedAll start arguments)
    (hb : buildLog totalBlocks inodeCount label arguments = some (fs, log)) (clock : ℕ) :
    ∃ m, Vfs.mount fs.serialise clock = some m ∧ m.fs.Sound ∧
      ∀ n, m.fs.Numbered n → m.fs.inodeRead n = some (fs.inodes n) ∧
        (∀ pos, pos < (Filesystem.given log n).length →
          m.fs.disk ((m.fs.blockFor (fs.inodes n) (pos / 4096) false).block * 4096 + pos % 4096) =
            (Filesystem.given log n).getD pos 0) ∧
        ∀ offset length, offset + length < 4294967296 →
          m.fs.fileRead n offset length = some (((Filesystem.given log n).drop offset).take length) := by
  have hbuilt : Filesystem.Built fs (Filesystem.given log) := buildLog_logged ht hc hp hg hb
  have hfits := hbuilt.fits
  obtain ⟨m, used, hmount, hm, -⟩ := Filesystem.mount_serialise hfits clock
  refine ⟨m, hmount, ?_, fun n hn => ⟨?_, fun pos hpos => ?_, fun offset length hlen => ?_⟩⟩
  · rw [hm]
    exact Filesystem.mounted_sound hbuilt hfits
  · rw [hm] at hn ⊢
    rw [Fs.inodeRead_numbered hn,
      Filesystem.mounted_inodeAt hfits ((Filesystem.mounted_numbered hfits).mp hn) (hbuilt.packed n)]
  · rw [hm]
    exact Filesystem.mounted_blockFor hbuilt n hpos
  · rw [hm] at hn ⊢
    have hn' := (Filesystem.mounted_numbered hfits).mp hn
    obtain ⟨L, high, hL⟩ := hbuilt.layout
    have hsize : ((fs.mounted used clock).inodeAt n).size ≤ 1036 * 4096 := by
      rw [Filesystem.mounted_inodeAt hfits hn' (hbuilt.packed n)]
      exact (hL.holds n).size_le
    rw [Fs.fileRead_eq hn hsize hlen, Filesystem.mounted_bytes hbuilt hfits hn']

/-- A directory with a file. -/
def greeting : List Argument := [.dir [[101]], .file [[101]] [97] [1, 2, 3] 1]

theorem image_consistent_greeting : ∃ fs log m, buildLog 8 8 (fun _ => 0) greeting = some (fs, log) ∧
    Vfs.mount fs.serialise 0 = some m ∧ m.fs.Sound := by
  obtain ⟨⟨fs, log⟩, hb⟩ := Option.isSome_iff_exists.mp
    (show (buildLog 8 8 (fun _ => 0) greeting).isSome = true by decide)
  obtain ⟨m, hm, hs, -⟩ := image_consistent (by decide) (by decide) (by decide)
    (show ∀ start ∈ build false 8 8 (fun _ => 0) [], GroundedAll start greeting by decide) hb 0
  exact ⟨fs, log, m, hb, hm, hs⟩

/-- A file whose bytes are an entry for inode 4, and then a file below that entry. -/
def crafted : List Argument :=
  [.file [] [97] (Fs.encodeDirent 4 [120]) 0, .file [[97], [120]] [121] [] 0]

/-- No pointer of a mounted inode that is allocated is block `b`. -/
def Unowned (fs : Filesystem) (b : ℕ) : Prop :=
  ∀ n, n < fs.inodeCount + 1 → ((fs.mounted 0 0).inodeAt n).type = typeFree ∨
    (((fs.mounted 0 0).inodeAt n).indirect = 0 ∧ ∀ k, k < 12 → ((fs.mounted 0 0).inodeAt n).direct k ≠ b)

instance (fs : Filesystem) (b : ℕ) : Decidable (Unowned fs b) := inferInstanceAs (Decidable (∀ n, n < _ → _))

theorem Unowned.slot_ne {fs : Filesystem} {b : ℕ} (h : Unowned fs b) (hf : fs.Fits) (hb : b ≠ 0) (n k : ℕ) :
    ((fs.mounted 0 0).table n).slot (fs.mounted 0 0).disk k ≠ b := by
  by_cases hl : (fs.mounted 0 0).Live n
  · obtain hfree | ⟨hi, hd⟩ := h n (by have := ((Filesystem.mounted_numbered hf).mp hl.1).2; omega)
    · exact absurd hfree hl.2
    rw [Fs.table_live hl]
    by_cases h12 : k < 12
    · rw [Inode.slot_direct h12]
      exact hd k h12
    · unfold Inode.slot
      rw [if_neg h12, if_pos hi, hi]
      split
      · exact hb.symm
      · split <;> exact hb.symm
  · rw [Fs.table_not_live hl, Inode.slot_empty]
    exact hb.symm

/-- `add_file` leaves the entry of `/a/x/y` in inode 4, which stays free: its block is marked and
belongs to no allocated inode. -/
theorem crafted_image_leaks : (∀ a ∈ crafted, a.Packable) ∧
    ∃ fs log, buildLog 6 4 (fun _ => 0) crafted = some (fs, log) ∧
      ∀ m, Vfs.mount fs.serialise 0 = some m → ¬m.fs.Sound := by
  refine ⟨by decide, ?_⟩
  obtain ⟨⟨fs, log⟩, hb⟩ := Option.isSome_iff_exists.mp
    (show (buildLog 6 4 (fun _ => 0) crafted).isSome = true by decide)
  have hall : ∀ s ∈ buildLog 6 4 (fun _ => 0) crafted, s.1.totalBlocks = 6 ∧ s.1.inodeCount = 4 ∧ s.1.used 5 = true ∧
      Unowned s.1 5 := by
    decide
  obtain ⟨htotal, hcount, hused, hun⟩ := hall _ hb
  dsimp only at htotal hcount hused hun
  have hf : fs.Fits := by
    refine ⟨by omega, by omega, ?_⟩
    unfold Filesystem.dataStart Filesystem.inodeStart Filesystem.bitmapBlocks Filesystem.inodeBlocks
    omega
  refine ⟨fs, log, hb, fun m hmount hs => ?_⟩
  obtain ⟨m', used, hmount', hm', -⟩ := Filesystem.mount_serialise hf 0
  obtain rfl : m = m' := by rw [hmount] at hmount'; exact Option.some.inj hmount'
  rw [hm'] at hs
  have hlt : 5 < (fs.mounted used 0).super.totalBlocks := by
    rw [Filesystem.mounted_super hf]
    show 5 < fs.totalBlocks
    omega
  rcases (hs.sound.owns.used_iff 5 hlt).mp ((Filesystem.mounted_bitmapTest hf (by omega)).trans hused) with hlow | ⟨p, hp⟩
  · rw [Filesystem.mounted_dataStart hf] at hlow
    unfold Filesystem.dataStart Filesystem.inodeStart Filesystem.bitmapBlocks Filesystem.inodeBlocks at hlow
    omega
  · exact hun.slot_ne hf (by decide) p.1 p.2 hp

end SifarOS.Mkfs
