import SifarOS.FileIsolation
import SifarOS.SifarFsDirs
import SifarOS.Vfs

/-! # What `vfs_truncate` gives back

`release_blocks` runs from the first block that is not kept to the last one that the old size needs.
Both numbers are computed in 32 bits, and the loop looks at the old size only: blocks that lie behind
it, or behind a size so large that the sum wraps, are not found. -/
namespace SifarOS.SifarFs
open ByteMemory BlockOwnership

variable {T : ℕ → Inode} {n last : ℕ} {f f' g : Fs} {i : Inode} {gone : ℕ → Prop} {r : Fs × Inode}

/-- The number of blocks that `length` bytes need. -/
def blocksFor (length : ℕ) : ℕ := (length + 4095) / 4096

/-- File `n` has the blocks it needs for `length` bytes and no others. -/
structure Trimmed (n length : ℕ) (f f' : Fs) : Prop where
  pointers : ∀ k, k < 1036 → (f'.inodeAt n).slot f'.disk k =
    if k < blocksFor length then (f.inodeAt n).slot f.disk k else 0
  cleared : ∀ k, k < 1036 → blocksFor length ≤ k → (f.inodeAt n).slot f.disk k ≠ 0 →
    f'.bitmapTest ((f.inodeAt n).slot f.disk k) = false
  -- what is given back is a data block from there on or the table
  only : ∀ c, c < f.super.totalBlocks → f.bitmapTest c = true → f'.bitmapTest c = false →
    ∃ k, (k < 1036 → blocksFor length ≤ k) ∧ (f.inodeAt n).slot f.disk k = c
  count : f'.super.freeBlocks = f.super.freeBlocks + lostCount f.super.totalBlocks f.bitmapTest f'.bitmapTest
  table : length = 0 → (f'.inodeAt n).indirect = 0 ∧
    ((f.inodeAt n).indirect ≠ 0 → f'.bitmapTest (f.inodeAt n).indirect = false)

/-- The loop of `release_blocks` comes to every block that is to go, and the table is not dropped
with entries in it. -/
def Reaches (d : Memory) (i : Inode) (length : ℕ) : Prop :=
  if length < i.size then
    if length + 4095 < 4294967296 then
      ∀ k, k < 1036 → blocksFor length ≤ k → u32 (i.size + 4095) / 4096 ≤ k → i.slot d k = 0
    else ∀ k, 12 ≤ k → k < 1036 → i.slot d k = 0
  else (∀ k, k < 1036 → blocksFor length ≤ k → i.slot d k = 0) ∧ (length = 0 → i.indirect = 0)

/-! ## The marks -/

/-- The blocks of the indexes that are gone are free, and no others have become so. -/
theorem Released.marks (h : Released T n f gone r) (S : SoundFor f T) {c : ℕ} (hc : c < f.super.totalBlocks) :
    r.1.bitmapTest c = true ↔ f.bitmapTest c = true ∧ ¬∃ k, gone k ∧ (T n).slot f.disk k ≠ 0 ∧ (T n).slot f.disk k = c := by
  have hsuper := h.kept.super
  have hnew := h.sound.owns.used_iff c (by rw [hsuper]; exact hc)
  have hstart : r.1.super.dataStart = f.super.dataStart := by
    rw [hsuper]
    rfl
  rw [hstart] at hnew
  have hold := S.owns.used_iff c hc
  constructor
  · intro hused
    rcases hnew.mp hused with hlow | ⟨⟨m, k⟩, hk⟩
    · refine ⟨hold.mpr (Or.inl hlow), ?_⟩
      rintro ⟨k, -, hne, rfl⟩
      exact absurd (S.slot_range hne).1 (by omega)
    · dsimp only at hk
      by_cases hm : m = n
      · subst hm
        rw [Function.update_self] at hk
        by_cases hg : gone k
        · rw [h.empty k hg] at hk
          refine ⟨hold.mpr (Or.inl (by rw [← hk]; exact S.geometry.dataStart_pos)), ?_⟩
          rintro ⟨k', -, hne, hk'⟩
          exact hne (hk'.trans hk.symm)
        · rw [h.stay k hg] at hk
          refine ⟨hold.mpr (Or.inr ⟨(m, k), hk⟩), ?_⟩
          rintro ⟨k', hg', hne, hk'⟩
          obtain rfl := (S.slot_inj (hk'.trans hk.symm) hne).2
          exact hg hg'
      · rw [Function.update_of_ne hm, h.kept.slot hm] at hk
        refine ⟨hold.mpr (Or.inr ⟨(m, k), hk⟩), ?_⟩
        rintro ⟨k', -, hne, hk'⟩
        exact hm (S.slot_inj (hk'.trans hk.symm) hne).1.symm
  · rintro ⟨hused, hnot⟩
    refine hnew.mpr ?_
    rcases hold.mp hused with hlow | ⟨⟨m, k⟩, hk⟩
    · exact Or.inl hlow
    · dsimp only at hk
      by_cases hm : m = n
      · subst hm
        by_cases hg : gone k
        · by_cases hz : (T m).slot f.disk k = 0
          · exact Or.inl (by rw [← hk, hz]; exact S.geometry.dataStart_pos)
          · exact absurd ⟨k, hg, hz, hk⟩ hnot
        · exact Or.inr ⟨(m, k), by rw [Function.update_self, h.stay k hg, hk]⟩
      · exact Or.inr ⟨(m, k), by rw [Function.update_of_ne hm, h.kept.slot hm, hk]⟩

/-! ## Cutting a file -/

/-- The inode goes to the disk with the blocks it has in memory. -/
theorem InWork.slot_inodeWrite (h : InWork n f g i) (hn : f.Numbered n) (i' : Inode) (k : ℕ) :
    i.slot (g.inodeWrite n i').disk k = i.slot g.disk k := by
  obtain ⟨T, last, S, rfl, -⟩ := h.held
  refine Inode.slot_same (fun hi => ?_) k
  have hrange := S.slot_range (m := n) (k := 1036) (by rwa [Inode.slot_indirect])
  rw [Inode.slot_indirect] at hrange
  exact Fs.inodeWrite_sameOn S.geometry ((numbered_of_super h.spared.super).mpr hn) i'
    (Or.inr (Nat.mul_le_mul_right 4096 hrange.1))

/-- What `sfs_file_truncate_inode` does before it writes the inode. -/
def Fs.cut (f : Fs) (i : Inode) (length : ℕ) : Fs × Inode :=
  if length < i.size then f.releaseBlocks i (u32 (length + 4095) / 4096) else (f, i)

theorem fileTruncate_eq (hn : f.Numbered n) (length : ℕ) : f.fileTruncate n length =
    ((f.cut (f.inodeAt n) length).1.inodeWrite n
      { (f.cut (f.inodeAt n) length).2 with size := length, modified := u32 f.clock }, true) := by
  unfold Fs.fileTruncate
  rw [Fs.inodeRead_numbered hn]
  rfl

theorem Holds.cut (H : Holds f T last) (hl : f.Live n) (length : ℕ) :
    InWork n f (f.cut (f.inodeAt n) length).1 (f.cut (f.inodeAt n) length).2 := by
  unfold Fs.cut
  split
  · exact H.releaseBlocks hl _
  · refine H.inWork hl ?_ (Kept.refl _ _ _) (Fs.inodeAt_packed f n) rfl
    rw [← H.live hl, Function.update_eq_self]
    exact H.sound

/-- What is left of a file when its blocks are those of `r` and the inode has gone to the disk. -/
structure CutTo (n length clock : ℕ) (r : Fs × Inode) (f' : Fs) : Prop where
  inodeAt : f'.inodeAt n = { r.2 with size := length, modified := u32 clock }
  slot : ∀ k, (f'.inodeAt n).slot f'.disk k = r.2.slot r.1.disk k
  marks : ∀ c, f'.bitmapTest c = r.1.bitmapTest c
  free : f'.super.freeBlocks = r.1.super.freeBlocks

theorem Holds.cutTo (H : Holds f T last) (hl : f.Live n) {length : ℕ} (hlen : length < 4294967296) :
    CutTo n length f.clock (f.cut (f.inodeAt n) length) (f.fileTruncate n length).1 := by
  have hin := H.cut hl length
  rw [fileTruncate_eq hl.1]
  generalize f.cut (f.inodeAt n) length = r at hin ⊢
  have hc := hin.commit H.sound.geometry hl.1 { r.2 with size := length, modified := u32 f.clock }
    { hin.packed with size_lt := hlen, modified_lt := Nat.mod_lt _ (by decide) } (fun _ => Or.inl rfl)
    (fun ht => absurd (hin.type_eq.symm.trans ht) hl.2)
  refine ⟨hc.inodeAt, fun k => ?_, fun c => Fs.bitmapTest_congr (Fs.inodeWrite_bitmap _ _ _) c, ?_⟩
  · rw [hc.inodeAt]
    exact hin.slot_inodeWrite hl.1 _ k
  · rw [Fs.inodeWrite_super]

/-- The right blocks are gone before the inode is written. -/
theorem Trimmed.of_released {length clock : ℕ} (H : Holds f T last) (hl : f.Live n) (hc : CutTo n length clock r f')
    (hr : Released T n f gone r) (hgone : ∀ k, k < 1036 → (gone k ↔ blocksFor length ≤ k))
    (htable : length = 0 → gone 1036) : Trimmed n length f f' := by
  have hT := H.live hl
  have S := H.sound
  have hmarks : ∀ c, c < f.super.totalBlocks → (f'.bitmapTest c = true ↔ f.bitmapTest c = true ∧
      ¬∃ k, gone k ∧ (f.inodeAt n).slot f.disk k ≠ 0 ∧ (f.inodeAt n).slot f.disk k = c) := by
    intro c hlt
    rw [hc.marks, ← hT]
    exact hr.marks S hlt
  have hclear : ∀ k, gone k → (f.inodeAt n).slot f.disk k ≠ 0 → f'.bitmapTest ((f.inodeAt n).slot f.disk k) = false := by
    intro k hk hne
    rw [← Bool.not_eq_true, hmarks]
    · exact fun hcon => hcon.2 ⟨k, hk, hne, rfl⟩
    · rw [← hT] at hne ⊢
      exact (S.slot_range hne).2
  have hempty := hr.empty
  have hstay := hr.stay
  rw [hT] at hstay
  refine ⟨fun k hk => ?_, fun k hk hge hne => hclear k ((hgone k hk).mpr hge) hne, fun c hlt hused hfree => ?_, ?_, fun hz => ?_⟩
  · rw [hc.slot]
    by_cases hg : k < blocksFor length
    · rw [if_pos hg]
      exact hstay k fun hcon => absurd ((hgone k hk).mp hcon) (by omega)
    · rw [if_neg hg]
      exact hempty k ((hgone k hk).mpr (by omega))
  · rw [← Bool.not_eq_true, hmarks c hlt, not_and, not_not] at hfree
    obtain ⟨k, hk, -, he⟩ := hfree hused
    exact ⟨k, fun hlt => (hgone k hlt).mp hk, he⟩
  · have htotal : r.1.super.totalBlocks = f.super.totalBlocks := by rw [hr.kept.super]
    have hfewer : ∀ c, c < f.super.totalBlocks → f'.bitmapTest c = true → f.bitmapTest c = true :=
      fun c hlt hused => ((hmarks c hlt).mp hused).1
    have hcount := clearCount_lost hfewer
    rw [hc.free, hr.sound.free_eq, htotal, S.free_eq, ← hcount]
    exact (clearCount_congr fun c _ => hc.marks c).symm
  · have hslot := hc.slot 1036
    rw [hempty 1036 (htable hz), Inode.slot_indirect] at hslot
    refine ⟨hslot, fun hne => ?_⟩
    have := hclear 1036 (htable hz)
    rw [Inode.slot_indirect] at this
    exact this hne

/-- A mark that is still there. -/
theorem Trimmed.false_of_marked {length k : ℕ} (h : Trimmed n length f f') (hk : k < 1036) (hge : blocksFor length ≤ k)
    (hne : (f.inodeAt n).slot f.disk k ≠ 0) (hm : f'.bitmapTest ((f.inodeAt n).slot f.disk k) = true) : False := by
  rw [h.cleared k hk hge hne] at hm
  cases hm

/-- A block behind the loop's last one stays marked. -/
theorem Holds.marked_behind (H : Holds f T last) (hl : f.Live n) {start k : ℕ} (hk : k < 1036)
    (hbehind : u32 ((f.inodeAt n).size + 4095) / 4096 ≤ k) (hne : (f.inodeAt n).slot f.disk k ≠ 0) :
    (f.releaseBlocks (f.inodeAt n) start).1.bitmapTest ((f.inodeAt n).slot f.disk k) = true := by
  have S := H.sound
  rw [← H.live hl] at hbehind hne ⊢
  unfold Fs.releaseBlocks
  dsimp only
  generalize u32 ((T n).size + 4095) / 4096 = total at hbehind ⊢
  have hloop := releaseLoop_released S n (total - start) start
  generalize Fs.releaseLoop (total - start) start (f, T n) = r at hloop ⊢
  have hrange := S.slot_range hne
  have hstill : r.1.bitmapTest ((T n).slot f.disk k) = true := by
    rw [hloop.marks S hrange.2]
    refine ⟨S.owns.slot_used (i := (n, k)) hne, ?_⟩
    rintro ⟨k', hk', hne', he⟩
    have := (S.slot_inj he hne').2
    omega
  split
  · next hdrop =>
    -- the table is another block
    have hself : (Function.update T n r.2 n).slot r.1.disk 1036 = r.2.indirect := by
      rw [Function.update_self, Inode.slot_indirect]
    have hg := hloop.sound.freeBlock (n := n) (k := 1036) (by rw [hself]; exact hdrop.2)
    rw [hself] at hg
    refine (hg.marks _).mpr ⟨fun he => ?_, hstill⟩
    have hstay := hloop.stay 1036 (by omega)
    rw [Inode.slot_indirect] at hstay
    have := (S.slot_inj (he.trans hstay) hne).2
    omega
  · exact hstill

/-- `release_blocks` has let go of the blocks from `blocksFor length` on. -/
theorem Holds.trimmed_of_reached (H : Holds f T last) (hl : f.Live n) {length : ℕ} (hlen : length < 4294967296)
    (hlt : length < (f.inodeAt n).size) (hwrap : length + 4095 < 4294967296)
    (hz : ∀ k, k < 1036 → blocksFor length ≤ k → u32 ((f.inodeAt n).size + 4095) / 4096 ≤ k → (f.inodeAt n).slot f.disk k = 0) :
    Trimmed n length f (f.fileTruncate n length).1 := by
  have hc := H.cutTo hl hlen
  have hcut : f.cut (f.inodeAt n) length = f.releaseBlocks (T n) (blocksFor length) := by
    unfold Fs.cut blocksFor
    rw [if_pos hlt, u32_of_lt hwrap, H.live hl]
  rw [← H.live hl] at hz
  have hr := releaseBlocks_from H.sound n (blocksFor length) fun h₀ k _ hk hge => hz k hk (by omega) hge
  rw [hcut] at hc
  have hgone : Released T n f (fun k => blocksFor length ≤ k ∧ k < 1036 ∨ blocksFor length = 0 ∧ k = 1036)
      (f.releaseBlocks (T n) (blocksFor length)) :=
    hr.congr (fun k hk => by omega) fun k hk hn => hz k (by omega) (by omega) (by omega)
  refine Trimmed.of_released H hl hc hgone (fun k hk => by omega) ?_
  rintro rfl
  exact Or.inr ⟨rfl, rfl⟩

/-- Both numbers have wrapped: the loop has no turn, and the table goes. -/
theorem Holds.trimmed_wrapped (H : Holds f T last) (hl : f.Live n) {length : ℕ} (hlen : length < 4294967296)
    (hlt : length < (f.inodeAt n).size) (hwrap : ¬length + 4095 < 4294967296) :
    Trimmed n length f (f.fileTruncate n length).1 ↔ ∀ k, 12 ≤ k → k < 1036 → (f.inodeAt n).slot f.disk k = 0 := by
  have hc := H.cutTo hl hlen
  have hsize := (Fs.inodeAt_packed f n).size_lt
  have hfirst : u32 (length + 4095) / 4096 = 0 := by
    unfold u32
    omega
  have hlast : u32 ((f.inodeAt n).size + 4095) / 4096 = 0 := by
    unfold u32
    omega
  have hmany : 1036 < blocksFor length := by
    unfold blocksFor
    omega
  have hcut : f.cut (f.inodeAt n) length = f.releaseBlocks (f.inodeAt n) 0 := by
    unfold Fs.cut
    rw [if_pos hlt, hfirst]
  rw [hcut] at hc
  constructor
  · intro h k h₁ h₂
    by_cases hi : (f.inodeAt n).indirect = 0
    · exact Inode.slot_no_table h₁ h₂ hi
    · have hdropped : f.releaseBlocks (f.inodeAt n) 0 =
          (f.freeBlock (f.inodeAt n).indirect, { f.inodeAt n with indirect := 0 }) := by
        unfold Fs.releaseBlocks
        rw [hlast]
        exact if_pos ⟨rfl, hi⟩
      have hsame := h.pointers k h₂
      rw [if_pos (by omega), hc.slot, hdropped, Inode.slot_no_table h₁ h₂ rfl] at hsame
      exact hsame.symm
  · intro hz
    rw [← H.live hl] at hz hlast hc
    have hr := releaseBlocks_from H.sound n 0 fun _ k h₁ h₂ _ => hz k h₁ h₂
    rw [hlast] at hr
    exact Trimmed.of_released H hl hc hr (fun k hk => by omega) (by omega)

/-- Nothing is given back when the file does not get shorter. -/
theorem Holds.trimmed_longer (H : Holds f T last) (hl : f.Live n) {length : ℕ} (hlen : length < 4294967296)
    (hge : ¬length < (f.inodeAt n).size) : Trimmed n length f (f.fileTruncate n length).1 ↔
      (∀ k, k < 1036 → blocksFor length ≤ k → (f.inodeAt n).slot f.disk k = 0) ∧ (length = 0 → (f.inodeAt n).indirect = 0) := by
  have hc := H.cutTo hl hlen
  rw [show f.cut (f.inodeAt n) length = (f, f.inodeAt n) from if_neg hge] at hc
  constructor
  · intro h
    refine ⟨fun k hk hbehind => ?_, fun hz => ?_⟩
    · by_contra hne
      refine h.false_of_marked hk hbehind hne ?_
      rw [hc.marks]
      rw [← H.live hl] at hne ⊢
      exact H.sound.owns.slot_used (i := (n, k)) hne
    · have := (h.table hz).1
      rwa [hc.inodeAt] at this
  · rintro ⟨hz, htable⟩
    have hr := Released.refl H.sound n
    rw [← H.live hl] at hz htable hc
    have hgone : Released T n f (fun k => blocksFor length ≤ k ∧ k < 1036 ∨ length = 0 ∧ k = 1036) (f, T n) := by
      refine hr.congr (fun _ hk => hk.elim) fun k hk _ => ?_
      rcases hk with hk | ⟨h₀, rfl⟩
      · exact hz k hk.2 hk.1
      · rw [Inode.slot_indirect]
        exact htable h₀
    exact Trimmed.of_released H hl hc hgone (fun k hk => by omega) fun h₀ => Or.inr ⟨h₀, rfl⟩

theorem Fs.Exclusive.trimmed_iff (E : f.Exclusive) (hl : f.Live n) {length : ℕ} (hlen : length < 4294967296) :
    Trimmed n length f (f.fileTruncate n length).1 ↔ Reaches f.disk (f.inodeAt n) length := by
  obtain ⟨T, last, H⟩ := E
  unfold Reaches
  split
  · next hlt =>
    split
    · next hwrap =>
      constructor
      · intro h k hk hge hbehind
        by_contra hne
        refine h.false_of_marked hk hge hne ?_
        rw [(H.cutTo hl hlen).marks, show f.cut (f.inodeAt n) length = _ from if_pos hlt]
        exact H.marked_behind hl hk hbehind hne
      · exact H.trimmed_of_reached hl hlen hlt hwrap
    · next hwrap => exact H.trimmed_wrapped hl hlen hlt hwrap
  · next hge => exact H.trimmed_longer hl hlen hge

end SifarOS.SifarFs

/-! ## A small disk -/

namespace SifarOS.SifarFs
open ByteMemory BlockOwnership

/-- The superblock of a disk of 8 blocks: the bitmap in block 1, 32 inodes in block 2. -/
def smallSuper : Super where
  magic := 0x53465321
  version := 1
  blockSize := 4096
  totalBlocks := 8
  bitmapStart := 1
  bitmapBlocks := 1
  inodeStart := 2
  inodeBlocks := 1
  inodeCount := 32
  rootInode := 1
  freeBlocks := 5
  label := fun _ => 0

/-- The disk with no inode allocated. -/
def bareFs : Fs where
  super := smallSuper
  bitmap := fun i => if i = 0 then 7 else 0
  disk := writeWords (fun _ => 0) 0 19 smallSuper.word
  inodesUsed := 0
  clock := 0

theorem bareFs_not_live (n : ℕ) : ¬bareFs.Live n := by
  rintro ⟨-, htype⟩
  have hge : 8192 ≤ bareFs.inodeAddr n := Fs.inodeAddr_ge bareFs n
  have hzero : ∀ x, 8192 ≤ x → bareFs.disk x = 0 := by
    intro x hx
    show writeWords (fun _ => 0) 0 19 smallSuper.word x = 0
    rw [writeWords, fill_of_disjoint _ _ (by omega)]
  exact htype (load32_of_zero fun j _ => hzero _ (Nat.le_add_right_of_le (Nat.le_add_right_of_le hge)))

theorem bareFs_sound : bareFs.Sound := by
  have htable : ∀ n, bareFs.table n = {} := fun n => Fs.table_not_live (bareFs_not_live n)
  have hslot : ∀ p : ℕ × ℕ, (bareFs.table p.1).slot bareFs.disk p.2 = 0 := by
    intro p
    rw [htable, Inode.slot_empty]
  refine ⟨⟨⟨by decide, by decide, by decide, by decide, by decide, by decide⟩, ⟨?_, ?_, ?_⟩, by decide, ?_⟩, fun n => ?_⟩
  · exact fun p hp => absurd (hslot p) hp
  · exact fun p q _ hp => absurd (hslot p) hp
  · intro b hb
    have hbits : ∀ b, b < 8 → (bareFs.bitmapTest b = true ↔ b < 3) := by decide
    rw [hbits b hb]
    refine ⟨Or.inl, ?_⟩
    rintro (hlow | ⟨p, hp⟩)
    · exact hlow
    · have hzero := hslot p
      omega
  · intro k hk
    have hword : ∀ k, k < 19 → smallSuper.word k < 4294967296 := by decide
    have hload := load32_writeWords (a := 0) (n := 19) (fun _ => 0) smallSuper.word hk
    rw [Nat.zero_add] at hload
    exact hload.trans (Nat.mod_eq_of_lt (hword k hk))
  · rw [htable]
    exact Inode.covered_empty _

/-- An empty root directory, inode 1, and an empty file, inode 2. -/
def smallFs : Fs := ((bareFs.allocInode typeDir).1.allocInode typeFile).1

theorem Fs.Sound.allocInode_sound {f : Fs} (S : f.Sound) {type : ℕ} (ht : type ≠ typeFree) (hlt : type < 4294967296) :
    (f.allocInode type).1.Sound := by
  rcases S.allocInode ht hlt with h | h
  · rw [h]
    exact S
  · exact h.sound

theorem smallFs_sound : smallFs.Sound :=
  (bareFs_sound.allocInode_sound (by decide) (by decide)).allocInode_sound (by decide) (by decide)

theorem smallFs_live : smallFs.Live 2 := by decide

/-- One byte in the file. -/
def filledFs : Fs := (smallFs.fileWrite 2 0 [65]).1

theorem filledFs_sound : filledFs.Sound ∧ filledFs.Live 2 := by
  obtain ⟨_, -, hw⟩ := smallFs_sound.fileWrite smallFs_live (Nat.zero_le _) [65]
  exact ⟨hw.sound, hw.live smallFs_live⟩

end SifarOS.SifarFs

namespace SifarOS.Vfs
open ByteMemory SifarFs

/-- `vfs_truncate` gives back the blocks it should exactly when the loop reaches them all. -/
theorem truncate_exact {m : Mount} (E : m.fs.Exclusive) {a : Attrs} (hl : m.fs.Live a.inode) {length : ℕ}
    (hlen : length < 4294967296) {path : List Name} (hs : (truncate m path a length).2 = true) :
    Trimmed a.inode length m.fs (truncate m path a length).1.fs ↔
      Reaches m.fs.disk (m.fs.inodeAt a.inode) length := by
  have hfs : (truncate m path a length).1.fs = (m.fs.fileTruncate a.inode length).1 := by
    rw [truncate_eq] at hs ⊢
    split at hs
    · cases hs
    · next hfile =>
      rw [if_neg hfile]
      unfold Volume.modify
      cases path <;> rfl
  rw [hfs]
  exact E.trimmed_iff hl hlen

/-- The node of the file on the small disk. -/
def smallNode (f : Fs) : Attrs where
  name := [97]
  dir := false
  readonly := false
  size := (f.inodeAt 2).size
  inode := 2

/-- A mount with that one file. -/
def mountOf (f : Fs) : Mount where
  fs := f
  root := { name := [], dir := true, readonly := false, size := 0, inode := 1 }
  tree := .node (smallNode f) .nil .nil

/-- The only block of a file of one byte is given back. -/
theorem truncate_exact_filled : Trimmed 2 0 filledFs (truncate (mountOf filledFs) [[97]] (smallNode filledFs) 0).1.fs := by
  obtain ⟨S, hl⟩ := filledFs_sound
  have hcov := Inode.Covered.of_live S hl
  have hsize : (filledFs.inodeAt 2).size = 1 := by decide
  refine (truncate_exact (m := mountOf filledFs) (a := smallNode filledFs) S.exclusive hl (by decide) (by decide)).mpr ?_
  show Reaches filledFs.disk (filledFs.inodeAt 2) 0
  unfold Reaches
  rw [hsize, if_pos (by decide), if_pos (by decide)]
  intro k hk _ hge
  by_contra hne
  have hlt := hcov.slot_lt k hk hne
  have hone : u32 (1 + 4095) / 4096 = 1 := by decide
  omega

/-- The same file with a size of 4294967295 bytes. -/
def stretchedFs : Fs := (filledFs.fileTruncate 2 4294967295).1

/-- The number of blocks of that size is computed as 0, and the file keeps its block. -/
theorem truncate_keeps_block : ¬∀ (m : Mount) (a : Attrs) (length : ℕ) (path : List Name), m.fs.Exclusive →
    m.fs.Live a.inode → length < 4294967296 → (truncate m path a length).2 = true →
    Trimmed a.inode length m.fs (truncate m path a length).1.fs := by
  intro h
  obtain ⟨S, hl⟩ := filledFs_sound
  have hr : Reworked 2 filledFs stretchedFs := S.exclusive.fileTruncate hl (by decide)
  have ht := h (mountOf stretchedFs) (smallNode stretchedFs) 0 [[97]] hr.exclusive (hr.live hl) (by decide) (by decide)
  have hslot := ht.pointers 0 (by decide)
  exact absurd hslot (by decide)

end SifarOS.Vfs
