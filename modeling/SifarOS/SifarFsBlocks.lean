import SifarOS.SifarFs
import SifarOS.BlockOwnership
import Mathlib.Data.Nat.Bitwise

/-! # The blocks of SifarFS

Every block behind the inode table is in at most one pointer of at most one inode, and the bitmap
says which blocks are in one. The pointers are read off a table of inodes, in which the inode that
an operation works on stands as the operation has it in memory. -/
namespace SifarOS.SifarFs
open ByteMemory BlockOwnership

/-- The layout that a superblock describes. -/
structure Geometry (s : Super) : Prop where
  bitmap_pos : 1 ≤ s.bitmapStart
  bitmap_le : s.bitmapStart + s.bitmapBlocks ≤ s.inodeStart
  total_le : s.totalBlocks ≤ s.bitmapBlocks * 32768
  inodes_le : s.inodeCount ≤ s.inodeBlocks * 32
  data_le : s.dataStart ≤ s.totalBlocks
  total_lt : s.totalBlocks < 4294967296

theorem Geometry.inodeStart_pos {s : Super} (h : Geometry s) : 1 ≤ s.inodeStart :=
  Nat.le_trans h.bitmap_pos (Nat.le_trans (Nat.le_add_right _ _) h.bitmap_le)

theorem Geometry.dataStart_pos {s : Super} (h : Geometry s) : 0 < s.dataStart :=
  Nat.lt_of_lt_of_le h.inodeStart_pos (Nat.le_add_right _ _)

theorem Geometry.of_freeBlocks {s : Super} (h : Geometry s) (n : ℕ) : Geometry { s with freeBlocks := n } :=
  ⟨h.bitmap_pos, h.bitmap_le, h.total_le, h.inodes_le, h.data_le, h.total_lt⟩

/-! ## Bits and bytes of the bitmap -/

namespace Fs

theorem bitmapTest_bitmapSet (f : Fs) (b c : ℕ) :
    (f.bitmapSet b).bitmapTest c = true ↔ c = b ∨ f.bitmapTest c = true := by
  unfold bitmapTest bitmapSet
  dsimp only
  by_cases h : c / 8 = b / 8
  · have hc : c % 8 < 8 := Nat.mod_lt _ (by decide)
    have hiff : b % 8 = c % 8 ↔ c = b := ⟨fun _ => by omega, fun _ => by omega⟩
    rw [h, Function.update_self, UInt8.toNat_ofNat', Nat.testBit_mod_two_pow, Nat.testBit_or, Nat.one_shiftLeft,
      Nat.testBit_two_pow]
    simp only [hc, decide_true, Bool.true_and, Bool.or_eq_true, decide_eq_true_eq, hiff]
    exact or_comm
  · have hne : c ≠ b := fun he => h (by rw [he])
    rw [Function.update_of_ne h]
    simp only [hne, false_or]

theorem bitmapTest_bitmapClear (f : Fs) (b c : ℕ) :
    (f.bitmapClear b).bitmapTest c = true ↔ c ≠ b ∧ f.bitmapTest c = true := by
  unfold bitmapTest bitmapClear
  dsimp only
  by_cases h : c / 8 = b / 8
  · have hc : c % 8 < 8 := Nat.mod_lt _ (by decide)
    have hiff : b % 8 = c % 8 ↔ c = b := ⟨fun _ => by omega, fun _ => by omega⟩
    have h255 : (255 : ℕ).testBit (c % 8) = true := by
      rw [show (255 : ℕ) = 2 ^ 8 - 1 from rfl, Nat.testBit_two_pow_sub_one]
      exact decide_eq_true hc
    rw [h, Function.update_self, UInt8.toNat_ofNat', Nat.testBit_mod_two_pow, Nat.testBit_and, Nat.testBit_xor,
      Nat.one_shiftLeft, Nat.testBit_two_pow, h255]
    by_cases he : c = b
    · simp [he]
    · simp [he, hc, hiff]
  · have hne : c ≠ b := fun he => h (by rw [he])
    rw [Function.update_of_ne h]
    simp [hne]

/-! ## Taking and giving back a block -/

/-- The superblock on the disk is the one in memory. -/
def Synced (f : Fs) : Prop := ∀ k, k < 19 → load32 f.disk (4 * k) = f.super.word k

/-- The disk is unchanged behind the bitmap, but for one block. -/
def SameBut (f f' : Fs) (b : ℕ) : Prop :=
  ∀ x, f.super.inodeStart * 4096 ≤ x → x / 4096 ≠ b → f'.disk x = f.disk x

theorem SameBut.sameOn {f f' : Fs} {b c : ℕ} (h : f.SameBut f' b) (hc : f.super.inodeStart ≤ c) (hne : c ≠ b) :
    SameOn f.disk f'.disk (c * 4096) 4096 := by
  intro x h₁ h₂
  refine h x (Nat.le_trans (Nat.mul_le_mul_right 4096 hc) h₁) ?_
  rw [Nat.div_eq_of_lt_le h₁ (by omega)]
  exact hne

/-- The bitmap and the count of free blocks have changed, and are on the disk. -/
structure Remarked (f f' : Fs) (free b : ℕ) : Prop where
  super : f'.super = { f.super with freeBlocks := free }
  inodesUsed : f'.inodesUsed = f.inodesUsed
  clock : f'.clock = f.clock
  disk : f.SameBut f' b
  synced : f.Synced → f'.Synced

theorem Super.word_freeBlocks (s : Super) (free : ℕ) {k : ℕ} (hk : k ≠ 10) :
    ({ s with freeBlocks := free } : Super).word k = s.word k := by
  unfold Super.word
  split <;> first | rfl | omega

/-- The last steps of `alloc_block` and `free_block`, which write the bitmap and the superblock. -/
theorem remarked_writeSuper {f : Fs} (g : Geometry f.super) (f₁ : Fs) {b : ℕ} (free : ℕ) (hb : b < f.super.totalBlocks)
    (hfree : free < 4294967296) (hs : f₁.super = f.super) (hu : f₁.inodesUsed = f.inodesUsed)
    (hc : f₁.clock = f.clock) (hd : f₁.disk = f.disk) (c : ℕ) :
    f.Remarked (((f₁.bitmapFlush b).setFreeBlocks free).writeSuper) free c where
  super := by
    rw [← hs]
    rfl
  inodesUsed := hu
  clock := hc
  disk := by
    intro x hx _
    have hindex : b / 32768 < f.super.bitmapBlocks := by
      have := g.total_le
      omega
    have hle := g.bitmap_le
    have hpos := g.bitmap_pos
    have hmul : (f.super.bitmapStart + b / 32768 + 1) * 4096 ≤ f.super.inodeStart * 4096 :=
      Nat.mul_le_mul_right 4096 (by omega)
    have hfar : 4096 ≤ f.super.inodeStart * 4096 := Nat.le_mul_of_pos_left _ (by omega)
    rw [← hd]
    unfold writeSuper setFreeBlocks bitmapFlush
    dsimp only
    rw [writeWords, fill_of_disjoint _ _ (by omega), hs, fill_of_disjoint _ _ (by omega)]
  synced := by
    intro hsync k hk
    have hload := load32_writeWords (a := 0) (n := 1024) ((f₁.bitmapFlush b).setFreeBlocks free).disk
      ((f₁.bitmapFlush b).setFreeBlocks free).super.word (k := k) (by omega)
    rw [Nat.zero_add] at hload
    show load32 (writeWords _ 0 1024 _) (4 * k) = ((f₁.bitmapFlush b).setFreeBlocks free).super.word k
    rw [hload]
    refine Nat.mod_eq_of_lt ?_
    show ({ f₁.super with freeBlocks := free } : Super).word k < 4294967296
    by_cases hk10 : k = 10
    · subst hk10
      exact hfree
    · rw [hs, Super.word_freeBlocks _ _ hk10, ← hsync k hk]
      exact load32_lt _ _

/-- A block that was free is now marked, and all zeroes. -/
structure Taken (f f' : Fs) (b : ℕ) : Prop extends Remarked f f' (f.super.freeBlocks - 1) b where
  lt : b < f.super.totalBlocks
  clear : f.bitmapTest b = false
  marks : ∀ c, f'.bitmapTest c = true ↔ c = b ∨ f.bitmapTest c = true
  zero : ∀ x, x / 4096 = b → f'.disk x = 0

theorem bitmapTest_congr {f f' : Fs} (h : f'.bitmap = f.bitmap) (b : ℕ) : f'.bitmapTest b = f.bitmapTest b := by
  unfold bitmapTest
  rw [h]

theorem allocBlock_cases (f : Fs) (g : Geometry f.super) (hfree : f.super.freeBlocks < 4294967296)
    (hzero : f.bitmapTest 0 = true) : f.allocBlock = (f, 0) ∨ f.Taken f.allocBlock.1 f.allocBlock.2 := by
  unfold allocBlock
  cases hfind : (List.range f.super.totalBlocks).find? (fun block => !f.bitmapTest block) with
  | none => exact Or.inl rfl
  | some b =>
    right
    have hb : b < f.super.totalBlocks := List.mem_range.mp (List.mem_of_find?_eq_some hfind)
    have hclear : f.bitmapTest b = false := by simpa using List.find?_some hfind
    have hr := remarked_writeSuper g (f.bitmapSet b) (f.super.freeBlocks - 1) hb (by omega) rfl rfl rfl rfl b
    have hb₀ : b ≠ 0 := by
      rintro rfl
      rw [hzero] at hclear
      cases hclear
    have hkept : ∀ d : Memory, ∀ x, x / 4096 ≠ b → fill d (b * 4096) 4096 (fun _ => 0) x = d x := by
      intro d x hx
      exact fill_of_disjoint _ _ (by omega)
    dsimp only
    exact
      { super := hr.super
        inodesUsed := hr.inodesUsed
        clock := hr.clock
        disk := fun x h₁ h₂ => (hkept _ x h₂).trans (hr.disk x h₁ h₂)
        synced := fun hsync k hk =>
          (load32_congr (fill_sameOn _ _ (Or.inl (by omega)))).trans (hr.synced hsync k hk)
        lt := hb
        clear := hclear
        marks := fun c => (bitmapTest_bitmapSet f b c)
        zero := fun x hx => if_pos (by omega) }

/-- A block that was marked is now free. -/
structure Given (f f' : Fs) (b : ℕ) : Prop extends Remarked f f' (f.super.freeBlocks + 1) 0 where
  marks : ∀ c, f'.bitmapTest c = true ↔ c ≠ b ∧ f.bitmapTest c = true

theorem freeBlock_zero (f : Fs) : f.freeBlock 0 = f := if_pos (Or.inl rfl)

theorem freeBlock_given (f : Fs) (g : Geometry f.super) {b : ℕ} (hb₀ : b ≠ 0) (hb : b < f.super.totalBlocks)
    (hset : f.bitmapTest b = true) (hfree : f.super.freeBlocks + 1 < 4294967296) : f.Given (f.freeBlock b) b := by
  have hcond : ¬(b = 0 ∨ f.super.totalBlocks ≤ b ∨ f.bitmapTest b = false) := by
    simp [hb₀, hset, hb]
  unfold freeBlock
  rw [if_neg hcond]
  dsimp only
  have hu : u32 (((f.bitmapClear b).bitmapFlush b).super.freeBlocks + 1) = f.super.freeBlocks + 1 := u32_of_lt hfree
  rw [hu]
  have hr := remarked_writeSuper g (f.bitmapClear b) _ hb hfree rfl rfl rfl rfl 0
  exact { hr with marks := bitmapTest_bitmapClear f b }

end Fs

/-! ## The pointers of an inode -/

/-- The block numbers an inode holds: its 12 direct ones, those of the indirect table, and at 1036
the table's own. -/
def Inode.slot (d : Memory) (i : Inode) (k : ℕ) : ℕ :=
  if k < 12 then i.direct k
  else if k < 1036 then if i.indirect = 0 then 0 else load32 d (Fs.tableAddr i (k - 12))
  else if k = 1036 then i.indirect
  else 0

/-- Byte `pos` of a file. -/
def Inode.byte (d : Memory) (i : Inode) (pos : ℕ) : UInt8 :=
  if i.slot d (pos / 4096) = 0 then 0 else d (i.slot d (pos / 4096) * 4096 + pos % 4096)

section slot

variable {d d' : Memory} {i i' : Inode} {k : ℕ}

theorem Inode.slot_direct (h : k < 12) : i.slot d k = i.direct k := if_pos h

theorem Inode.slot_table (h₁ : 12 ≤ k) (h₂ : k < 1036) (hi : i.indirect ≠ 0) :
    i.slot d k = load32 d (Fs.tableAddr i (k - 12)) := by
  unfold Inode.slot
  rw [if_neg (by omega), if_pos h₂, if_neg hi]

theorem Inode.slot_no_table (h₁ : 12 ≤ k) (h₂ : k < 1036) (hi : i.indirect = 0) : i.slot d k = 0 := by
  unfold Inode.slot
  rw [if_neg (by omega), if_pos h₂, if_pos hi]

@[simp] theorem Inode.slot_indirect : i.slot d 1036 = i.indirect := by
  unfold Inode.slot
  simp

theorem Inode.slot_beyond (h : 1036 < k) : i.slot d k = 0 := by
  unfold Inode.slot
  rw [if_neg (by omega), if_neg (by omega), if_neg (by omega)]

theorem Inode.slot_congr (hd : k < 12 → i'.direct k = i.direct k) (hi : i'.indirect = i.indirect)
    (hs : i.indirect ≠ 0 → SameOn d d' (i.indirect * 4096) 4096) : i'.slot d' k = i.slot d k := by
  rcases Nat.lt_or_ge k 12 with h₁ | h₁
  · rw [slot_direct h₁, slot_direct h₁, hd h₁]
  rcases Nat.lt_or_ge k 1036 with h₂ | h₂
  · by_cases h₀ : i.indirect = 0
    · rw [slot_no_table h₁ h₂ h₀, slot_no_table h₁ h₂ (hi.trans h₀)]
    · rw [slot_table h₁ h₂ h₀, slot_table h₁ h₂ (hi.trans_ne h₀)]
      unfold Fs.tableAddr
      rw [hi]
      exact load32_congr ((hs h₀).mono (by omega) (by omega))
  rcases Nat.lt_or_ge 1036 k with h₃ | h₃
  · rw [slot_beyond h₃, slot_beyond h₃]
  · obtain rfl : k = 1036 := by omega
    rw [slot_indirect, slot_indirect, hi]

/-- The table of an inode that has its blocks in `d` and keeps them in `d'`. -/
theorem Inode.slot_same (hs : i.indirect ≠ 0 → SameOn d d' (i.indirect * 4096) 4096) (k : ℕ) :
    i.slot d' k = i.slot d k :=
  slot_congr (fun _ => rfl) rfl hs

theorem Inode.slot_empty (d : Memory) (k : ℕ) : ({} : Inode).slot d k = 0 := by
  unfold Inode.slot
  simp

theorem Inode.byte_congr {pos : ℕ} (hs : i'.slot d' (pos / 4096) = i.slot d (pos / 4096))
    (hd : i.slot d (pos / 4096) ≠ 0 → SameOn d d' (i.slot d (pos / 4096) * 4096) 4096) :
    i'.byte d' pos = i.byte d pos := by
  unfold Inode.byte
  rw [hs]
  by_cases h₀ : i.slot d (pos / 4096) = 0
  · rw [if_pos h₀, if_pos h₀]
  · rw [if_neg h₀, if_neg h₀]
    exact hd h₀ _ (by omega) (by omega)

end slot

/-! ## The invariant -/

/-- The blocks are those of the inodes in `T`. -/
structure SoundFor (f : Fs) (T : ℕ → Inode) : Prop where
  geometry : Geometry f.super
  owns : Owns f.super.dataStart f.super.totalBlocks f.bitmapTest (fun p : ℕ × ℕ => (T p.1).slot f.disk p.2)
  free_eq : f.super.freeBlocks = clearCount f.super.totalBlocks f.bitmapTest
  synced : f.Synced

/-- What an operation on file `n` leaves alone: the inodes on the disk and the blocks of the other
files. -/
structure Kept (T : ℕ → Inode) (n : ℕ) (f f' : Fs) : Prop where
  super : f'.super = { f.super with freeBlocks := f'.super.freeBlocks }
  inodesUsed : f'.inodesUsed = f.inodesUsed
  clock : f'.clock = f.clock
  inodes : SameOn f.disk f'.disk (f.super.inodeStart * 4096) (f.super.inodeBlocks * 4096)
  blocks : ∀ m, m ≠ n → ∀ k, (T m).slot f.disk k ≠ 0 → SameOn f.disk f'.disk ((T m).slot f.disk k * 4096) 4096

variable {T : ℕ → Inode} {n b : ℕ} {f f' f'' : Fs}

theorem Kept.refl (T : ℕ → Inode) (n : ℕ) (f : Fs) : Kept T n f f :=
  ⟨rfl, rfl, rfl, SameOn.refl _ _ _, fun _ _ _ _ => SameOn.refl _ _ _⟩

theorem Kept.slot (h : Kept T n f f') {m : ℕ} (hm : m ≠ n) (k : ℕ) : (T m).slot f'.disk k = (T m).slot f.disk k := by
  refine Inode.slot_same (fun hi => ?_) k
  have := h.blocks m hm 1036
  rw [Inode.slot_indirect] at this
  exact this hi

theorem Kept.trans (h : Kept T n f f') (h' : Kept T n f' f'') : Kept T n f f'' where
  super := by
    rw [h'.super, h.super]
  inodesUsed := h'.inodesUsed.trans h.inodesUsed
  clock := h'.clock.trans h.clock
  inodes := by
    refine h.inodes.trans ?_
    have := h'.inodes
    rw [h.super] at this
    exact this
  blocks := by
    intro m hm k hk
    refine (h.blocks m hm k hk).trans ?_
    have := h'.blocks m hm k
    rw [h.slot hm] at this
    exact this hk

/-- What the inode of file `n` is does not matter. -/
theorem Kept.of_update {i : Inode} (h : Kept (Function.update T n i) n f f') : Kept T n f f' where
  super := h.super
  inodesUsed := h.inodesUsed
  clock := h.clock
  inodes := h.inodes
  blocks := by
    intro m hm k hk
    have := h.blocks m hm k
    rw [Function.update_of_ne hm] at this
    exact this hk

/-- A change to blocks that no other file has. -/
theorem Kept.of_blocks (hd : ∀ x, f.super.inodeStart * 4096 ≤ x → x / 4096 ≠ b → f'.disk x = f.disk x)
    (hb : f.super.dataStart ≤ b)
    (hs : ∀ m, m ≠ n → ∀ k, (T m).slot f.disk k ≠ 0 → f.super.inodeStart ≤ (T m).slot f.disk k ∧ (T m).slot f.disk k ≠ b)
    (hsuper : f'.super = { f.super with freeBlocks := f'.super.freeBlocks }) (hu : f'.inodesUsed = f.inodesUsed)
    (hc : f'.clock = f.clock) : Kept T n f f' where
  super := hsuper
  inodesUsed := hu
  clock := hc
  inodes := by
    intro x h₁ h₂
    refine hd x h₁ ?_
    unfold Super.dataStart at hb
    omega
  blocks := by
    intro m hm k hk
    obtain ⟨h₁, h₂⟩ := hs m hm k hk
    exact Fs.SameBut.sameOn hd h₁ h₂

theorem Kept.byte (h : Kept T n f f') {m : ℕ} (hm : m ≠ n) (pos : ℕ) : (T m).byte f'.disk pos = (T m).byte f.disk pos :=
  Inode.byte_congr (h.slot hm _) (h.blocks m hm _)

namespace SoundFor

theorem free_lt (S : SoundFor f T) : f.super.freeBlocks ≤ f.super.totalBlocks := by
  rw [S.free_eq]
  unfold clearCount
  exact (List.length_filter_le _ _).trans_eq List.length_range

theorem slot_range (S : SoundFor f T) {m k : ℕ} (h : (T m).slot f.disk k ≠ 0) :
    f.super.dataStart ≤ (T m).slot f.disk k ∧ (T m).slot f.disk k < f.super.totalBlocks :=
  S.owns.range (m, k) h

theorem slot_inj (S : SoundFor f T) {m k m' k' : ℕ} (he : (T m).slot f.disk k = (T m').slot f.disk k')
    (h : (T m).slot f.disk k ≠ 0) : m = m' ∧ k = k' := by
  have := S.owns.inj (m, k) (m', k') he h
  exact ⟨congrArg Prod.fst this, congrArg Prod.snd this⟩

theorem inodeStart_le (S : SoundFor f T) {m k : ℕ} (h : (T m).slot f.disk k ≠ 0) :
    f.super.inodeStart ≤ (T m).slot f.disk k :=
  Nat.le_trans (Nat.le_add_right _ _) (S.slot_range h).1

/-- A change to one block leaves every slot's block alone, if it is no slot's. -/
theorem sameOn_of_ne (S : SoundFor f T) (h : f.SameBut f' b) {m k : ℕ} (h₀ : (T m).slot f.disk k ≠ 0)
    (hb : (T m).slot f.disk k ≠ b) : SameOn f.disk f'.disk ((T m).slot f.disk k * 4096) 4096 :=
  h.sameOn (S.inodeStart_le h₀) hb

theorem meta_used (S : SoundFor f T) (hb : b < f.super.dataStart) : f.bitmapTest b = true :=
  (S.owns.used_iff b (Nat.lt_of_lt_of_le hb S.geometry.data_le)).mpr (Or.inl hb)

theorem allocBlock (S : SoundFor f T) : f.allocBlock = (f, 0) ∨ f.Taken f.allocBlock.1 f.allocBlock.2 := by
  have hle := S.free_lt
  have hlt := S.geometry.total_lt
  exact f.allocBlock_cases S.geometry (by omega) (S.meta_used S.geometry.dataStart_pos)

section taken

variable (S : SoundFor f T) (h : f.Taken f' b)
include S h

theorem taken_range : f.super.dataStart ≤ b := by
  by_contra hlt
  have := S.meta_used (Nat.lt_of_not_le hlt)
  rw [h.clear] at this
  cases this

theorem taken_slot_ne (m k : ℕ) : (T m).slot f.disk k ≠ b := S.owns.slot_ne h.lt h.clear (m, k)

theorem taken_sameOn {m k : ℕ} (hk : (T m).slot f.disk k ≠ 0) :
    SameOn f.disk f'.disk ((T m).slot f.disk k * 4096) 4096 :=
  S.sameOn_of_ne h.disk hk (S.taken_slot_ne h m k)

theorem taken_kept (n : ℕ) : Kept T n f f' :=
  .of_blocks h.disk (S.taken_range h) (fun m _ k hk => ⟨S.inodeStart_le hk, S.taken_slot_ne h m k⟩) (by rw [h.super])
    h.inodesUsed h.clock

theorem taken_pos : b ≠ 0 := by
  have := S.taken_range h
  have := S.geometry.dataStart_pos
  omega

theorem taken_lt : b < 4294967296 := Nat.lt_trans h.lt S.geometry.total_lt

/-- The block that was taken is put where file `n` had none. -/
theorem place {f₂ : Fs} {i : Inode} {k₀ : ℕ} (hk : Kept T n f f₂) (hsuper : f₂.super = f'.super)
    (hmap : f₂.bitmap = f'.bitmap) (hsync : f₂.Synced) (hz : (T n).slot f.disk k₀ = 0)
    (hs₀ : i.slot f₂.disk k₀ = b) (hs : ∀ k, k ≠ k₀ → i.slot f₂.disk k = (T n).slot f.disk k) :
    SoundFor f₂ (Function.update T n i) := by
  have hmarks : ∀ c, c < f.super.totalBlocks → (f₂.bitmapTest c = true ↔ c = b ∨ f.bitmapTest c = true) := by
    intro c _
    rw [Fs.bitmapTest_congr hmap]
    exact h.marks c
  have hsup : f₂.super = { f.super with freeBlocks := f.super.freeBlocks - 1 } := hsuper.trans h.super
  refine ⟨?_, ?_, ?_, hsync⟩
  · rw [hsup]
    exact S.geometry.of_freeBlocks _
  · rw [hsup]
    refine S.owns.take (n, k₀) S.geometry.dataStart_pos hz h.lt h.clear ?_ ?_ hmarks
    · simpa using hs₀
    · rintro ⟨m, k⟩ hne
      by_cases hm : m = n
      · subst hm
        have hk₀ : k ≠ k₀ := fun he => hne (by rw [he])
        simpa using hs k hk₀
      · simpa [Function.update_of_ne hm] using hk.slot hm k
  · have hcount := clearCount_take h.lt h.clear hmarks
    rw [hsup]
    show f.super.freeBlocks - 1 = clearCount f.super.totalBlocks f₂.bitmapTest
    rw [S.free_eq]
    omega

end taken
end SoundFor

/-! ## `block_for` -/

/-- An inode whose words fit their 32 bits, and whose arrays end where the source's do. -/
structure Inode.Packed (i : Inode) : Prop where
  type_lt : i.type < 4294967296
  size_lt : i.size < 4294967296
  links_lt : i.links < 4294967296
  created_lt : i.created < 4294967296
  modified_lt : i.modified < 4294967296
  flags_lt : i.flags < 4294967296
  direct_lt : ∀ k, i.direct k < 4294967296
  indirect_lt : i.indirect < 4294967296
  reserved_lt : ∀ k, i.reserved k < 4294967296
  direct : ∀ k, 12 ≤ k → i.direct k = 0
  reserved : ∀ k, 13 ≤ k → i.reserved k = 0

theorem Inode.Packed.word {i : Inode} (h : i.Packed) (k : ℕ) : i.word k < 4294967296 := by
  unfold Inode.word
  split
  · exact h.type_lt
  · exact h.size_lt
  · exact h.links_lt
  · exact h.created_lt
  · exact h.modified_lt
  · exact h.flags_lt
  · exact h.indirect_lt
  · split
    · exact h.direct_lt _
    · exact h.reserved_lt _

theorem Inode.Packed.setDirect {i : Inode} (h : i.Packed) {k : ℕ} (hk : k < 12) (hb : b < 4294967296) :
    ({ i with direct := Function.update i.direct k b } : Inode).Packed :=
  { h with
    direct_lt := by
      intro j
      by_cases hj : j = k
      · subst hj
        simpa using hb
      · simpa [Function.update_of_ne hj] using h.direct_lt j
    direct := by
      intro j hj
      have hne : j ≠ k := by omega
      simpa [Function.update_of_ne hne] using h.direct j hj }

theorem Inode.Packed.setIndirect {i : Inode} (h : i.Packed) (hb : b < 4294967296) :
    ({ i with indirect := b } : Inode).Packed :=
  { h with indirect_lt := hb }

/-- What `block_for` does for file `n` when it may allocate. -/
structure Mapped (T : ℕ → Inode) (n : ℕ) (f : Fs) (index : ℕ) (r : Fs.BlockFor) : Prop where
  sound : SoundFor r.fs (Function.update T n r.inode)
  kept : Kept T n f r.fs
  fields : r.inode = { T n with direct := r.inode.direct, indirect := r.inode.indirect }
  packed : (T n).Packed → r.inode.Packed
  slot_ne : ∀ k, k < 1036 → k ≠ index → r.inode.slot r.fs.disk k = (T n).slot f.disk k
  slot_self : index < 1036 → r.inode.slot r.fs.disk index = r.block
  beyond : 1036 ≤ index → r.block = 0
  byte : ∀ pos, pos < 1036 * 4096 → r.inode.byte r.fs.disk pos = (T n).byte f.disk pos
  changed : r.changed = false → r.inode = T n

section mapped

variable {index : ℕ} {r : Fs.BlockFor} {i : Inode}

/-- The bytes of a file do not change when a block of zeroes is put where there was none. -/
theorem byte_of_placed {d d' : Memory} {i i' : Inode} {k₀ pos : ℕ}
    (hs₀ : k₀ < 1036 → i'.slot d' k₀ = b ∧ i.slot d k₀ = 0 ∧ ∀ x, x / 4096 = b → d' x = 0)
    (hs : ∀ k, k < 1036 → k ≠ k₀ → i'.slot d' k = i.slot d k)
    (hd : ∀ k, k < 1036 → i.slot d k ≠ 0 → SameOn d d' (i.slot d k * 4096) 4096) (hpos : pos < 1036 * 4096) :
    i'.byte d' pos = i.byte d pos := by
  have hk : pos / 4096 < 1036 := by omega
  by_cases he : pos / 4096 = k₀
  · obtain ⟨h₁, h₂, h₃⟩ := hs₀ (he ▸ hk)
    unfold Inode.byte
    rw [he, h₁, h₂, if_pos rfl]
    split
    · rfl
    · exact h₃ _ (by omega)
  · exact Inode.byte_congr (hs _ hk he) (hd _ hk)

theorem Mapped.same (S : SoundFor f T) (changed : Bool) (hself : index < 1036 → (T n).slot f.disk index = b)
    (hbeyond : 1036 ≤ index → b = 0) : Mapped T n f index ⟨f, T n, changed, b⟩ where
  sound := by
    rw [Function.update_eq_self]
    exact S
  kept := Kept.refl T n f
  fields := rfl
  packed := id
  slot_ne := fun _ _ _ => rfl
  slot_self := hself
  beyond := hbeyond
  byte := fun _ _ => rfl
  changed := fun _ => rfl

/-- The block that was taken becomes a direct one. -/
theorem Mapped.direct (S : SoundFor f T) (h : f.Taken f' b) (hindex : index < 12) (hz : (T n).direct index = 0) :
    Mapped T n f index ⟨f', { T n with direct := Function.update (T n).direct index b }, true, b⟩ := by
  have hslot : ∀ k, k ≠ index → ({ T n with direct := Function.update (T n).direct index b } : Inode).slot f'.disk k =
      (T n).slot f.disk k := by
    intro k hk
    refine Inode.slot_congr (fun _ => Function.update_of_ne hk _ _) rfl (fun hi => ?_)
    have := S.taken_sameOn h (m := n) (k := 1036)
    rw [Inode.slot_indirect] at this
    exact this hi
  have hself : ({ T n with direct := Function.update (T n).direct index b } : Inode).slot f'.disk index = b := by
    rw [Inode.slot_direct hindex]
    exact Function.update_self _ _ _
  have hzero : (T n).slot f.disk index = 0 := by
    rw [Inode.slot_direct hindex, hz]
  exact
    { sound := S.place h (S.taken_kept h n) rfl rfl (h.synced S.synced) hzero hself hslot
      kept := S.taken_kept h n
      fields := rfl
      packed := fun hp => hp.setDirect hindex (S.taken_lt h)
      slot_ne := fun k _ hk => hslot k hk
      slot_self := fun _ => hself
      beyond := fun hge => by omega
      byte := fun pos hpos => byte_of_placed (fun _ => ⟨hself, hzero, h.zero⟩) (fun k _ hk => hslot k hk)
        (fun k _ hk => S.taken_sameOn h hk) hpos
      changed := fun hc => by cases hc }

/-- The block that was taken becomes the table. -/
structure Tabled (T : ℕ → Inode) (n : ℕ) (f f' : Fs) (b : ℕ) : Prop where
  sound : SoundFor f' (Function.update T n { T n with indirect := b })
  slot : ∀ k, k < 1036 → ({ T n with indirect := b } : Inode).slot f'.disk k = (T n).slot f.disk k
  byte : ∀ pos, pos < 1036 * 4096 → ({ T n with indirect := b } : Inode).byte f'.disk pos = (T n).byte f.disk pos

theorem tabled (S : SoundFor f T) (h : f.Taken f' b) (hz : (T n).indirect = 0) : Tabled T n f f' b := by
  have hslot : ∀ k, k ≠ 1036 → ({ T n with indirect := b } : Inode).slot f'.disk k = (T n).slot f.disk k := by
    intro k hk
    rcases Nat.lt_or_ge k 12 with h₁ | h₁
    · rw [Inode.slot_direct h₁, Inode.slot_direct h₁]
    rcases Nat.lt_or_ge k 1036 with h₂ | h₂
    · rw [Inode.slot_no_table h₁ h₂ hz, Inode.slot_table h₁ h₂ (S.taken_pos h)]
      refine load32_of_zero (fun j hj => h.zero _ ?_)
      unfold Fs.tableAddr
      dsimp only
      omega
    · rw [Inode.slot_beyond (by omega), Inode.slot_beyond (by omega)]
  exact
    { sound := S.place h (S.taken_kept h n) rfl rfl (h.synced S.synced) (Inode.slot_indirect.trans hz)
        Inode.slot_indirect hslot
      slot := fun k hk => hslot k (by omega)
      byte := fun pos hpos => byte_of_placed (b := b) (fun hlt => absurd hlt (by omega)) (fun k _ hk => hslot k hk)
        (fun k _ hk => S.taken_sameOn h hk) hpos }

theorem copyBlock_other (f : Fs) (source : Memory) {t x : ℕ} (hx : x / 4096 ≠ t) : (f.copyBlock source t).disk x = f.disk x := by
  unfold Fs.copyBlock
  dsimp only
  exact fill_of_disjoint _ _ (by omega)

theorem copyBlock_self (f : Fs) (source : Memory) {t x : ℕ} (hx : x / 4096 = t) : (f.copyBlock source t).disk x = source x := by
  have hin : t * 4096 + (x - t * 4096) = x := by omega
  have := fill_at (a := t * 4096) (n := 4096) f.disk (fun i => source (t * 4096 + i)) (i := x - t * 4096) (by omega)
  rw [hin] at this
  exact this

/-- A file's table is written back with one entry changed. -/
theorem slot_copyBlock {g : Fs} {d : Memory} {i : Inode} (hi : i.indirect ≠ 0) (v : ℕ) {k₀ : ℕ} (h₁ : 12 ≤ k₀)
    (h₂ : k₀ < 1036) (k : ℕ) : i.slot (g.copyBlock (store32 d (Fs.tableAddr i (k₀ - 12)) v) i.indirect).disk k =
      if k = k₀ then v % 4294967296 else i.slot d k := by
  rcases Nat.lt_or_ge k 12 with hk | hk
  · rw [if_neg (by omega), Inode.slot_direct hk, Inode.slot_direct hk]
  rcases Nat.lt_or_ge k 1036 with hk' | hk'
  · have hcopy : load32 (g.copyBlock (store32 d (Fs.tableAddr i (k₀ - 12)) v) i.indirect).disk (Fs.tableAddr i (k - 12)) =
        load32 (store32 d (Fs.tableAddr i (k₀ - 12)) v) (Fs.tableAddr i (k - 12)) := by
      refine load32_congr (fun x hx₁ hx₂ => copyBlock_self g _ ?_)
      unfold Fs.tableAddr at hx₁ hx₂
      omega
    rw [Inode.slot_table hk hk' hi, hcopy]
    split
    · rename_i he
      subst he
      exact load32_store32 _ _ _
    · rw [Inode.slot_table hk hk' hi]
      refine load32_store32_of_disjoint _ _ ?_
      unfold Fs.tableAddr
      omega
  rw [if_neg (by omega)]
  rcases Nat.lt_or_ge 1036 k with h₃ | h₃
  · rw [Inode.slot_beyond h₃, Inode.slot_beyond h₃]
  · obtain rfl : k = 1036 := by omega
    rw [Inode.slot_indirect, Inode.slot_indirect]

theorem Fs.Synced.of_disk {g g' : Fs} (h : g.Synced) (hs : g'.super = g.super) (hd : ∀ x, x < 4096 → g'.disk x = g.disk x) :
    g'.Synced := by
  intro k hk
  rw [hs, ← h k hk]
  exact load32_congr (fun x h₁ h₂ => hd x (by omega))

/-- The table of file `n` is written over a disk that has it unchanged. -/
theorem Kept.copyBlock (S : SoundFor f T) (hk : Kept T n f f') (hi : (T n).indirect ≠ 0) (source : Memory) :
    Kept T n f (f'.copyBlock source (T n).indirect) := by
  have hrange := S.slot_range (m := n) (k := 1036) (by rwa [Inode.slot_indirect])
  rw [Inode.slot_indirect] at hrange
  refine hk.trans (.of_blocks (b := (T n).indirect) (fun x _ hx => copyBlock_other f' source hx) ?_ ?_ rfl rfl rfl)
  · rw [hk.super]
    exact hrange.1
  · intro m hm k h₀
    rw [hk.slot hm] at h₀ ⊢
    rw [hk.super]
    refine ⟨S.inodeStart_le h₀, fun he => hm ?_⟩
    rw [← Inode.slot_indirect (d := f.disk)] at he
    exact (S.slot_inj he h₀).1

/-- The block that was taken goes into the table. -/
theorem Mapped.table (S : SoundFor f T) (h : f.Taken f' b) (hi : (T n).indirect ≠ 0) (h₁ : 12 ≤ index) (h₂ : index < 1036)
    (hz : load32 f.disk (Fs.tableAddr (T n) (index - 12)) = 0) (changed : Bool) :
    Mapped T n f index ⟨f'.copyBlock (store32 f.disk (Fs.tableAddr (T n) (index - 12)) b) (T n).indirect, T n, changed, b⟩ := by
  have hbt : b ≠ (T n).indirect := by
    have := S.taken_slot_ne h n 1036
    rw [Inode.slot_indirect] at this
    exact this.symm
  have hzero : (T n).slot f.disk index = 0 := by
    rw [Inode.slot_table h₁ h₂ hi, hz]
  have hslot := slot_copyBlock (g := f') (d := f.disk) hi b h₁ h₂
  have hself : (T n).slot (f'.copyBlock (store32 f.disk (Fs.tableAddr (T n) (index - 12)) b) (T n).indirect).disk index = b := by
    rw [hslot, if_pos rfl]
    exact Nat.mod_eq_of_lt (S.taken_lt h)
  have hne : ∀ k, k ≠ index → (T n).slot (f'.copyBlock (store32 f.disk (Fs.tableAddr (T n) (index - 12)) b)
      (T n).indirect).disk k = (T n).slot f.disk k := by
    intro k hk
    rw [hslot, if_neg hk]
  have hkept := Kept.copyBlock S (S.taken_kept h n) hi (store32 f.disk (Fs.tableAddr (T n) (index - 12)) b)
  have hsync : (f'.copyBlock (store32 f.disk (Fs.tableAddr (T n) (index - 12)) b) (T n).indirect).Synced :=
    (h.synced S.synced).of_disk rfl (fun x hx => copyBlock_other f' _ (by omega))
  have hblocks : ∀ k, k < 1036 → (T n).slot f.disk k ≠ 0 → SameOn f.disk (f'.copyBlock (store32 f.disk
      (Fs.tableAddr (T n) (index - 12)) b) (T n).indirect).disk ((T n).slot f.disk k * 4096) 4096 := by
    intro k hk h₀
    refine (S.taken_sameOn h h₀).trans (fun x hx₁ hx₂ => copyBlock_other f' _ (fun he => ?_))
    have hinj : (T n).slot f.disk k = (T n).slot f.disk 1036 := by
      rw [Inode.slot_indirect]
      omega
    have := (S.slot_inj hinj h₀).2
    omega
  exact
    { sound := S.place h hkept rfl rfl hsync hzero hself hne
      kept := hkept
      fields := rfl
      packed := id
      slot_ne := fun k _ hk => hne k hk
      slot_self := fun _ => hself
      beyond := fun hge => by omega
      byte := fun pos hpos => byte_of_placed
        (fun _ => ⟨hself, hzero, fun x hx => (copyBlock_other f' _ (by omega)).trans (h.zero x hx)⟩)
        (fun k _ hk => hne k hk) hblocks hpos
      changed := fun _ => rfl }

theorem tableFor_mapped (S : SoundFor f T) (hi : (T n).indirect ≠ 0) (h₁ : 12 ≤ index) (h₂ : index < 1036) (changed : Bool) :
    Mapped T n f index (f.tableFor (T n) (index - 12) true changed) := by
  have hslot : (T n).slot f.disk index = load32 f.disk (Fs.tableAddr (T n) (index - 12)) := Inode.slot_table h₁ h₂ hi
  unfold Fs.tableFor
  by_cases hz : load32 f.disk (Fs.tableAddr (T n) (index - 12)) = 0
  · dsimp only
    rw [if_pos ⟨hz, rfl⟩]
    rcases S.allocBlock with ha | ha
    · rw [ha, if_pos rfl]
      exact Mapped.same S changed (fun _ => hslot.trans hz) (fun _ => rfl)
    · rw [if_neg (S.taken_pos ha)]
      exact Mapped.table S ha hi h₁ h₂ hz changed
  · dsimp only
    rw [if_neg (fun hc => hz hc.1)]
    exact Mapped.same S changed (fun _ => hslot) (fun hge => by omega)

/-- The table was taken first. -/
theorem Mapped.of_tabled (hk : Kept T n f f') (ht : Tabled T n f f' b) (hb : b < 4294967296) (hc : r.changed = true)
    (h : Mapped (Function.update T n { T n with indirect := b }) n f' index r) : Mapped T n f index r where
  sound := by
    have := h.sound
    rwa [Function.update_idem] at this
  kept := hk.trans h.kept.of_update
  fields := by
    have := h.fields
    rw [Function.update_self] at this
    exact this
  packed := by
    intro hp
    refine h.packed ?_
    rw [Function.update_self]
    exact hp.setIndirect hb
  slot_ne := by
    intro k hk hne
    have := h.slot_ne k hk hne
    rw [Function.update_self] at this
    exact this.trans (ht.slot k hk)
  slot_self := h.slot_self
  beyond := h.beyond
  byte := by
    intro pos hpos
    have := h.byte pos hpos
    rw [Function.update_self] at this
    exact this.trans (ht.byte pos hpos)
  changed := fun hf => by
    rw [hc] at hf
    cases hf

theorem tableFor_changed (g : Fs) (i : Inode) (slot : ℕ) (allocate changed : Bool) :
    (g.tableFor i slot allocate changed).changed = changed := by
  unfold Fs.tableFor
  dsimp only
  split
  · split <;> rfl
  · rfl

/-- `block_for` with leave to allocate. -/
theorem blockFor_mapped (S : SoundFor f T) (n index : ℕ) : Mapped T n f index (f.blockFor (T n) index true) := by
  unfold Fs.blockFor
  by_cases hd : index < 12
  · rw [if_pos hd]
    by_cases hz : (T n).direct index = 0
    · rw [if_pos ⟨hz, rfl⟩]
      dsimp only
      rcases S.allocBlock with ha | ha
      · rw [ha]
        have he : Function.update (T n).direct index 0 = (T n).direct := by
          rw [← hz, Function.update_eq_self]
        rw [he]
        exact Mapped.same S true (fun _ => (Inode.slot_direct hd).trans hz) (fun _ => rfl)
      · exact Mapped.direct S ha hd hz
    · rw [if_neg (fun hc => hz hc.1)]
      exact Mapped.same S false (fun _ => Inode.slot_direct hd) (fun hge => by omega)
  rw [if_neg hd]
  by_cases hge : 1024 ≤ index - 12
  · rw [if_pos hge]
    exact Mapped.same S false (fun hlt => by omega) (fun _ => rfl)
  rw [if_neg hge]
  by_cases hi : (T n).indirect = 0
  · rw [if_pos hi, if_neg (by decide)]
    dsimp only
    rcases S.allocBlock with ha | ha
    · rw [ha, if_pos rfl]
      exact Mapped.same S false (fun hlt => Inode.slot_no_table (by omega) hlt hi) (fun _ => rfl)
    · rw [if_neg (S.taken_pos ha)]
      have ht := tabled S ha hi
      have hm := tableFor_mapped (n := n) ht.sound (by rw [Function.update_self]; exact S.taken_pos ha)
        (show 12 ≤ index by omega) (show index < 1036 by omega) true
      rw [Function.update_self] at hm
      exact Mapped.of_tabled (S.taken_kept ha n) ht (S.taken_lt ha) (tableFor_changed _ _ _ _ _) hm
  · rw [if_neg hi]
    exact tableFor_mapped S hi (by omega) (by omega) false

/-- `block_for` without leave to allocate. -/
theorem blockFor_read (g : Fs) (i : Inode) (index : ℕ) :
    (g.blockFor i index false).block = if index < 1036 then i.slot g.disk index else 0 := by
  unfold Fs.blockFor Fs.tableFor
  by_cases hd : index < 12
  · simp [hd, Inode.slot_direct, show index < 1036 by omega]
  rcases Nat.lt_or_ge index 1036 with h₂ | h₂
  · by_cases hi : i.indirect = 0
    · simp [hd, hi, h₂, Inode.slot_no_table (Nat.le_of_not_lt hd) h₂ hi]
    · have hlt : ¬1024 ≤ index - 12 := by omega
      simp [hd, hi, h₂, hlt, Inode.slot_table (Nat.le_of_not_lt hd) h₂ hi]
  · have hge : 1024 ≤ index - 12 := by omega
    simp [hd, hge, Nat.not_lt_of_le h₂]

end mapped

/-! ## `release_blocks` -/

namespace SoundFor

/-- The bitmap is as it was and file `n` has the same blocks. -/
theorem rewrite {i : Inode} (S : SoundFor f T) (hk : Kept T n f f') (hsuper : f'.super = f.super)
    (hmap : f'.bitmap = f.bitmap) (hsync : f'.Synced) (hs : ∀ k, i.slot f'.disk k = (T n).slot f.disk k) :
    SoundFor f' (Function.update T n i) := by
  have hmarks : ∀ c, c < f.super.totalBlocks → f'.bitmapTest c = f.bitmapTest c := fun c _ => Fs.bitmapTest_congr hmap c
  refine ⟨?_, ?_, ?_, hsync⟩
  · rw [hsuper]
    exact S.geometry
  · rw [hsuper]
    refine S.owns.congr ?_ hmarks
    rintro ⟨m, k⟩
    by_cases hm : m = n
    · subst hm
      simpa using hs k
    · simpa [Function.update_of_ne hm] using hk.slot hm k
  · rw [hsuper, clearCount_congr hmarks]
    exact S.free_eq

/-- Only the blocks of an inode matter. -/
theorem rewrite_inode {i i' : Inode} (S : SoundFor f (Function.update T n i)) (hs : ∀ k, i'.slot f.disk k = i.slot f.disk k) :
    SoundFor f (Function.update T n i') := by
  have := S.rewrite (n := n) (i := i') (Kept.refl _ _ _) rfl rfl S.synced (fun k => by rw [Function.update_self]; exact hs k)
  rwa [Function.update_idem] at this

theorem freeBlock (S : SoundFor f T) {k : ℕ} (h : (T n).slot f.disk k ≠ 0) :
    f.Given (f.freeBlock ((T n).slot f.disk k)) ((T n).slot f.disk k) := by
  have hrange := S.slot_range h
  have hset : f.bitmapTest ((T n).slot f.disk k) = true := S.owns.slot_used (i := (n, k)) h
  have hcleared : (f.bitmapClear ((T n).slot f.disk k)).bitmapTest ((T n).slot f.disk k) = false := by
    rw [← Bool.not_eq_true, Fs.bitmapTest_bitmapClear]
    exact fun hc => hc.1 rfl
  have hcount : clearCount f.super.totalBlocks f.bitmapTest + 1 =
      clearCount f.super.totalBlocks (f.bitmapClear ((T n).slot f.disk k)).bitmapTest := clearCount_take hrange.2 hcleared (by
      intro c _
      rw [Fs.bitmapTest_bitmapClear]
      by_cases hc : c = (T n).slot f.disk k
      · simp [hc, hset]
      · simp [hc])
  have hle : clearCount f.super.totalBlocks (f.bitmapClear ((T n).slot f.disk k)).bitmapTest ≤ f.super.totalBlocks :=
    (List.length_filter_le _ _).trans_eq List.length_range
  have hfree := S.free_eq
  have hlt := S.geometry.total_lt
  exact f.freeBlock_given S.geometry h hrange.2 hset (by omega)

section given

variable (S : SoundFor f T) (h : f.Given f' b)
include S h

theorem given_sameOn {m k : ℕ} (hk : (T m).slot f.disk k ≠ 0) : SameOn f.disk f'.disk ((T m).slot f.disk k * 4096) 4096 :=
  S.sameOn_of_ne h.disk hk hk

theorem given_kept (n : ℕ) : Kept T n f f' where
  super := by
    rw [h.super]
  inodesUsed := h.inodesUsed
  clock := h.clock
  inodes := by
    intro x h₁ h₂
    have := S.geometry.inodeStart_pos
    exact h.disk x h₁ (by omega)
  blocks := fun _ _ _ hk => S.given_sameOn h hk

theorem given_slot (m k : ℕ) : (T m).slot f'.disk k = (T m).slot f.disk k := by
  refine Inode.slot_same (fun hi => ?_) k
  have := S.given_sameOn h (m := m) (k := 1036)
  rw [Inode.slot_indirect] at this
  exact this hi

/-- A block of file `n` was given back and is no longer in its inode. -/
theorem release {f₂ : Fs} {i : Inode} {k₀ : ℕ} (hk : Kept T n f f₂) (hsuper : f₂.super = f'.super)
    (hmap : f₂.bitmap = f'.bitmap) (hsync : f₂.Synced) (hb : (T n).slot f.disk k₀ = b) (hb₀ : b ≠ 0)
    (hs₀ : i.slot f₂.disk k₀ = 0) (hs : ∀ k, k ≠ k₀ → i.slot f₂.disk k = (T n).slot f.disk k) :
    SoundFor f₂ (Function.update T n i) := by
  have hmarks : ∀ c, c < f.super.totalBlocks → (f₂.bitmapTest c = true ↔ c ≠ b ∧ f.bitmapTest c = true) := by
    intro c _
    rw [Fs.bitmapTest_congr hmap]
    exact h.marks c
  have hrange := S.slot_range (hb ▸ hb₀)
  rw [hb] at hrange
  have hset : f.bitmapTest b = true := by
    rw [← hb]
    exact S.owns.slot_used (i := (n, k₀)) (hb ▸ hb₀)
  have hsup : f₂.super = { f.super with freeBlocks := f.super.freeBlocks + 1 } := hsuper.trans h.super
  refine ⟨?_, ?_, ?_, hsync⟩
  · rw [hsup]
    exact S.geometry.of_freeBlocks _
  · rw [hsup]
    refine S.owns.give (n, k₀) S.geometry.dataStart_pos hb hb₀ ?_ ?_ hmarks
    · simpa using hs₀
    · rintro ⟨m, k⟩ hne
      by_cases hm : m = n
      · subst hm
        have hk₀ : k ≠ k₀ := fun he => hne (by rw [he])
        simpa using hs k hk₀
      · simpa [Function.update_of_ne hm] using hk.slot hm k
  · have hcount : clearCount f.super.totalBlocks f.bitmapTest + 1 = clearCount f.super.totalBlocks f₂.bitmapTest :=
      clearCount_take (b := b) hrange.2
      (by rw [← Bool.not_eq_true, hmarks b hrange.2]; exact fun hc => hc.1 rfl) (by
        intro c hc
        rw [hmarks c hc]
        by_cases hcb : c = b
        · simp [hcb, hset]
        · simp [hcb])
    rw [hsup]
    show f.super.freeBlocks + 1 = clearCount f.super.totalBlocks f₂.bitmapTest
    rw [S.free_eq]
    omega

end given
end SoundFor

/-- File `n` has lost the blocks of the indexes in `gone`. -/
structure Released (T : ℕ → Inode) (n : ℕ) (f : Fs) (gone : ℕ → Prop) (r : Fs × Inode) : Prop where
  sound : SoundFor r.1 (Function.update T n r.2)
  kept : Kept T n f r.1
  fields : r.2 = { T n with direct := r.2.direct, indirect := r.2.indirect }
  packed : (T n).Packed → r.2.Packed
  empty : ∀ k, gone k → r.2.slot r.1.disk k = 0
  stay : ∀ k, ¬gone k → r.2.slot r.1.disk k = (T n).slot f.disk k

theorem Released.refl (S : SoundFor f T) (n : ℕ) : Released T n f (fun _ => False) (f, T n) where
  sound := by
    rw [Function.update_eq_self]
    exact S
  kept := Kept.refl T n f
  fields := rfl
  packed := id
  empty := fun _ hk => hk.elim
  stay := fun _ _ => rfl

theorem Released.trans {gone gone' : ℕ → Prop} {r r' : Fs × Inode} (h : Released T n f gone r)
    (h' : Released (Function.update T n r.2) n r.1 gone' r') : Released T n f (fun k => gone k ∨ gone' k) r' where
  sound := by
    have := h'.sound
    rwa [Function.update_idem] at this
  kept := h.kept.trans h'.kept.of_update
  fields := by
    have := h'.fields
    rw [Function.update_self, h.fields] at this
    exact this
  packed := by
    have := h'.packed
    rw [Function.update_self] at this
    exact fun hp => this (h.packed hp)
  empty := by
    intro k hk
    by_cases hg : gone' k
    · exact h'.empty k hg
    · have := h'.stay k hg
      rw [Function.update_self] at this
      exact this.trans (h.empty k (hk.resolve_right hg))
  stay := by
    intro k hk
    have := h'.stay k (fun hg => hk (Or.inr hg))
    rw [Function.update_self] at this
    exact this.trans (h.stay k (fun hg => hk (Or.inl hg)))

theorem Released.congr {gone gone' : ℕ → Prop} {r : Fs × Inode} (h : Released T n f gone r)
    (hg : ∀ k, gone k → gone' k) (hs : ∀ k, gone' k → ¬gone k → (T n).slot f.disk k = 0) : Released T n f gone' r :=
  { h with
    empty := by
      intro k hk
      by_cases hgk : gone k
      · exact h.empty k hgk
      · exact (h.stay k hgk).trans (hs k hk hgk)
    stay := fun k hk => h.stay k (fun hgk => hk (hg k hgk)) }

theorem Released.direct (S : SoundFor f T) (n : ℕ) {index : ℕ} (hd : index < 12) :
    Released T n f (· = index)
      (f.freeBlock ((T n).direct index), { T n with direct := Function.update (T n).direct index 0 }) := by
  have hself : ∀ d : Memory, ({ T n with direct := Function.update (T n).direct index 0 } : Inode).slot d index = 0 := by
    intro d
    rw [Inode.slot_direct hd]
    exact Function.update_self _ _ _
  have hne : ∀ k, k ≠ index → ∀ d : Memory,
      ({ T n with direct := Function.update (T n).direct index 0 } : Inode).slot d k = (T n).slot d k :=
    fun k hk d => Inode.slot_congr (fun _ => Function.update_of_ne hk _ _) rfl (fun _ => SameOn.refl _ _ _)
  by_cases h₀ : (T n).direct index = 0
  · have he : Function.update (T n).direct index 0 = (T n).direct := by
      rw [← h₀, Function.update_eq_self]
    rw [h₀, Fs.freeBlock_zero, he]
    refine (Released.refl S n).congr (fun _ hk => hk.elim) (fun k hk _ => ?_)
    rw [hk, Inode.slot_direct hd]
    exact h₀
  · rw [← Inode.slot_direct (d := f.disk) hd] at h₀ ⊢
    have hg := S.freeBlock h₀
    have hslot : ∀ k, k ≠ index → ({ T n with direct := Function.update (T n).direct index 0 } : Inode).slot
        (f.freeBlock ((T n).slot f.disk index)).disk k = (T n).slot f.disk k :=
      fun k hk => (hne k hk _).trans (S.given_slot hg n k)
    exact
      { sound := S.release hg (S.given_kept hg n) rfl rfl (hg.synced S.synced) rfl h₀ (hself _) hslot
        kept := S.given_kept hg n
        fields := rfl
        packed := fun hp => hp.setDirect hd (by decide)
        empty := by
          rintro k rfl
          exact hself _
        stay := hslot }

theorem Released.table (S : SoundFor f T) (n : ℕ) (hi : (T n).indirect ≠ 0) {index : ℕ} (h₁ : 12 ≤ index)
    (h₂ : index < 1036) : Released T n f (· = index)
      ((f.freeBlock (load32 f.disk (Fs.tableAddr (T n) (index - 12)))).copyBlock
        (store32 f.disk (Fs.tableAddr (T n) (index - 12)) 0) (T n).indirect, T n) := by
  rw [← Inode.slot_table h₁ h₂ hi]
  generalize hsrc : store32 f.disk (Fs.tableAddr (T n) (index - 12)) 0 = source
  have hslot : ∀ (g : Fs) (k : ℕ), (T n).slot (g.copyBlock source (T n).indirect).disk k =
      if k = index then 0 else (T n).slot f.disk k := by
    intro g k
    rw [← hsrc]
    exact slot_copyBlock (g := g) (d := f.disk) hi 0 h₁ h₂ k
  have hsync : ∀ g : Fs, g.Synced → (g.copyBlock source (T n).indirect).Synced :=
    fun g hg => hg.of_disk rfl (fun x hx => copyBlock_other g _ (by omega))
  have hself : ∀ g : Fs, (T n).slot (g.copyBlock source (T n).indirect).disk index = 0 :=
    fun g => (hslot g index).trans (if_pos rfl)
  have hne : ∀ (g : Fs) (k : ℕ), k ≠ index → (T n).slot (g.copyBlock source (T n).indirect).disk k = (T n).slot f.disk k :=
    fun g k hk => (hslot g k).trans (if_neg hk)
  by_cases h₀ : (T n).slot f.disk index = 0
  · rw [h₀, Fs.freeBlock_zero]
    have hkept := Kept.copyBlock S (Kept.refl T n f) hi source
    exact
      { sound := by
          refine S.rewrite hkept rfl rfl (hsync f S.synced) (fun k => ?_)
          by_cases hk : k = index
          · rw [hk, hself, h₀]
          · exact hne f k hk
        kept := hkept
        fields := rfl
        packed := id
        empty := fun k hk => hk ▸ hself f
        stay := hne f }
  · have hg := S.freeBlock h₀
    have hkept := Kept.copyBlock S (S.given_kept hg n) hi source
    exact
      { sound := S.release hg hkept rfl rfl (hsync _ (hg.synced S.synced)) rfl h₀ (hself _) (hne _)
        kept := hkept
        fields := rfl
        packed := id
        empty := by
          rintro k rfl
          exact hself _
        stay := hne _ }

/-- One turn of the loop in `release_blocks`. -/
theorem releaseLoop_released (S : SoundFor f T) (n count index : ℕ) :
    Released T n f (fun k => index ≤ k ∧ k < index + count ∧ k < 1036) (Fs.releaseLoop count index (f, T n)) := by
  induction count generalizing f T index with
  | zero => exact (Released.refl S n).congr (fun _ hk => hk.elim) (fun k hk _ => absurd hk.2.1 (by omega))
  | succ count ih =>
    unfold Fs.releaseLoop
    -- the turn itself, then those that follow
    have hnext : ∀ {r : Fs × Inode} {gone : ℕ → Prop}, Released T n f gone r → (∀ k, gone k → k = index ∧ k < 1036) →
        (index < 1036 → ¬gone index → (T n).slot f.disk index = 0) →
        Released T n f (fun k => index ≤ k ∧ k < index + (count + 1) ∧ k < 1036) (Fs.releaseLoop count (index + 1) r) := by
      intro r gone hr hgone hzero
      have hrest := ih hr.sound (index + 1)
      rw [Function.update_self] at hrest
      refine (hr.trans hrest).congr (fun k hk => ?_) (fun k hk hn => ?_)
      · rcases hk with hk | hk
        · obtain ⟨rfl, hlt⟩ := hgone k hk
          exact ⟨Nat.le_refl _, by omega, hlt⟩
        · exact ⟨by omega, by omega, hk.2.2⟩
      · have he : k = index := by
          by_contra hne
          exact hn (Or.inr ⟨by omega, by omega, hk.2.2⟩)
        subst he
        exact hzero hk.2.2 (fun hg => hn (Or.inl hg))
    by_cases hd : index < 12
    · rw [if_pos hd]
      exact hnext (Released.direct S n hd) (fun k hk => ⟨hk, by omega⟩) (fun _ hn => absurd rfl hn)
    rw [if_neg hd]
    by_cases hi : (T n).indirect = 0
    · rw [if_pos hi]
      exact hnext (Released.refl S n) (fun _ hk => hk.elim) (fun hlt _ => Inode.slot_no_table (by omega) hlt hi)
    rw [if_neg hi]
    by_cases hge : 1024 ≤ index - 12
    · rw [if_pos hge]
      exact (Released.refl S n).congr (fun _ hk => hk.elim) (fun k hk _ => absurd hk.2.2 (by omega))
    · rw [if_neg hge]
      exact hnext (Released.table S n hi (by omega) (by omega)) (fun k hk => ⟨hk, by omega⟩) (fun _ hn => absurd rfl hn)

/-- The table is given back when it has no entries. -/
theorem Released.indirect (S : SoundFor f T) (n : ℕ) (hi : (T n).indirect ≠ 0)
    (hz : ∀ k, 12 ≤ k → k < 1036 → (T n).slot f.disk k = 0) :
    Released T n f (· = 1036) (f.freeBlock (T n).indirect, { T n with indirect := 0 }) := by
  have hself : (T n).slot f.disk 1036 = (T n).indirect := Inode.slot_indirect
  have hg := S.freeBlock (n := n) (k := 1036) (by rwa [hself])
  rw [hself] at hg
  have hslot : ∀ k, k ≠ 1036 → ({ T n with indirect := 0 } : Inode).slot (f.freeBlock (T n).indirect).disk k =
      (T n).slot f.disk k := by
    intro k hk
    rcases Nat.lt_or_ge k 12 with h₁ | h₁
    · rw [Inode.slot_direct h₁, Inode.slot_direct h₁]
    rcases Nat.lt_or_ge k 1036 with h₂ | h₂
    · rw [Inode.slot_no_table h₁ h₂ rfl, hz k h₁ h₂]
    · rw [Inode.slot_beyond (by omega), Inode.slot_beyond (by omega)]
  have hzero : ({ T n with indirect := 0 } : Inode).slot (f.freeBlock (T n).indirect).disk 1036 = 0 := Inode.slot_indirect
  exact
    { sound := S.release hg (S.given_kept hg n) rfl rfl (hg.synced S.synced) hself hi hzero hslot
      kept := S.given_kept hg n
      fields := rfl
      packed := fun hp => hp.setIndirect (by decide)
      empty := fun k hk => hk ▸ hzero
      stay := hslot }

/-- `release_blocks` from any index on, when the loop leaves no entry in a table that is dropped. -/
theorem releaseBlocks_from (S : SoundFor f T) (n start : ℕ)
    (hz : start = 0 → ∀ k, 12 ≤ k → k < 1036 → u32 ((T n).size + 4095) / 4096 ≤ k → (T n).slot f.disk k = 0) :
    Released T n f (fun k => start ≤ k ∧ k < u32 ((T n).size + 4095) / 4096 ∧ k < 1036 ∨ start = 0 ∧ k = 1036)
      (f.releaseBlocks (T n) start) := by
  unfold Fs.releaseBlocks
  dsimp only
  generalize htotal : u32 ((T n).size + 4095) / 4096 = total at hz ⊢
  have hloop := releaseLoop_released S n (total - start) start
  generalize Fs.releaseLoop (total - start) start (f, T n) = r at hloop ⊢
  have hdata : Released T n f (fun k => start ≤ k ∧ k < total ∧ k < 1036) r :=
    hloop.congr (fun k hk => by omega) (fun k hk hn => absurd hk (by omega))
  by_cases hdrop : start = 0 ∧ r.2.indirect ≠ 0
  · rw [if_pos hdrop]
    have hlast := Released.indirect hdata.sound n (by rw [Function.update_self]; exact hdrop.2) fun k h₁ h₂ => by
      rw [Function.update_self]
      by_cases hk : k < total
      · exact hdata.empty k ⟨by omega, hk, h₂⟩
      · rw [hdata.stay k fun hc => hk hc.2.1]
        exact hz hdrop.1 k h₁ h₂ (by omega)
    rw [Function.update_self] at hlast
    exact (hdata.trans hlast).congr (fun k hk => hk.imp id fun he => ⟨hdrop.1, he⟩)
      fun k hk hn => absurd (hk.imp id And.right) hn
  · rw [if_neg hdrop]
    refine hdata.congr (fun k hk => Or.inl hk) fun k hk hn => ?_
    obtain ⟨hstart, rfl⟩ := hk.resolve_left hn
    rw [← hdata.stay 1036 hn, Inode.slot_indirect]
    exact not_not.mp fun hi => hdrop ⟨hstart, hi⟩

/-- `release_blocks` from the first block on takes every block of a file whose size covers them. -/
theorem releaseBlocks_released (S : SoundFor f T) (n : ℕ) (hsize : (T n).size ≤ 1036 * 4096)
    (hcover : ∀ k, k < 1036 → (T n).slot f.disk k ≠ 0 → k * 4096 < (T n).size) :
    Released T n f (fun _ => True) (f.releaseBlocks (T n) 0) := by
  have hu : u32 ((T n).size + 4095) = (T n).size + 4095 := u32_of_lt (by omega)
  have hbehind : ∀ k, k < 1036 → u32 ((T n).size + 4095) / 4096 ≤ k → (T n).slot f.disk k = 0 := by
    intro k hk hge
    by_contra hne
    have := hcover k hk hne
    rw [hu] at hge
    omega
  refine (releaseBlocks_from S n 0 fun _ k _ hk hge => hbehind k hk hge).congr (fun _ _ => trivial) fun k _ hn => ?_
  rcases Nat.lt_or_ge k 1036 with hlt | hge
  · exact hbehind k hlt (by omega)
  · exact Inode.slot_beyond (by omega)

/-! ## What `release_blocks` writes -/

/-- Behind the bitmap only block `t` has changed, and of the superblock only the count. -/
structure Rewrites (t : ℕ) (f f' : Fs) : Prop where
  super : f'.super = { f.super with freeBlocks := f'.super.freeBlocks }
  disk : ∀ x, f.super.inodeStart * 4096 ≤ x → x / 4096 ≠ t → f'.disk x = f.disk x

theorem Rewrites.refl (t : ℕ) (f : Fs) : Rewrites t f f := ⟨rfl, fun _ _ _ => rfl⟩

theorem Rewrites.trans {t : ℕ} (h : Rewrites t f f') (h' : Rewrites t f' f'') : Rewrites t f f'' where
  super := by
    rw [h'.super, h.super]
  disk := by
    intro x hx ht
    have hlast := h'.disk x
    rw [h.super] at hlast
    exact (hlast hx ht).trans (h.disk x hx ht)

theorem Rewrites.geometry {t : ℕ} (h : Rewrites t f f') (g : Geometry f.super) : Geometry f'.super := by
  rw [h.super]
  exact g.of_freeBlocks _

theorem freeBlock_rewrites (g : Geometry f.super) (t b : ℕ) : Rewrites t f (f.freeBlock b) := by
  unfold Fs.freeBlock
  split
  · exact .refl t f
  · next hb =>
    have hr := Fs.remarked_writeSuper g (f.bitmapClear b) (u32 (f.super.freeBlocks + 1)) (b := b) (by omega)
      (Nat.mod_lt _ (by decide)) rfl rfl rfl rfl 0
    refine ⟨hr.super, fun x hx _ => hr.disk x hx ?_⟩
    have := g.inodeStart_pos
    omega

theorem copyBlock_rewrites (f : Fs) (source : Memory) (t : ℕ) : Rewrites t f (f.copyBlock source t) :=
  ⟨rfl, fun _ _ hx => copyBlock_other f source hx⟩

/-- The loop writes to the bitmap, the superblock and the table. -/
theorem releaseLoop_rewrites (g : Geometry f.super) (i : Inode) (count index : ℕ) :
    Rewrites i.indirect f (Fs.releaseLoop count index (f, i)).1 ∧ (Fs.releaseLoop count index (f, i)).2.indirect = i.indirect := by
  induction count generalizing f i index with
  | zero => exact ⟨.refl _ f, rfl⟩
  | succ count ih =>
    unfold Fs.releaseLoop
    have hfree := fun b => freeBlock_rewrites g i.indirect b
    split
    · have hrest := ih ((hfree (i.direct index)).geometry g) { i with direct := Function.update i.direct index 0 } (index + 1)
      exact ⟨(hfree _).trans hrest.1, hrest.2⟩
    · split
      · exact ih g i (index + 1)
      · split
        · exact ⟨.refl _ f, rfl⟩
        · have hturn := (hfree (load32 f.disk (Fs.tableAddr i (index - 12)))).trans
            (copyBlock_rewrites _ (store32 f.disk (Fs.tableAddr i (index - 12)) 0) i.indirect)
          have hrest := ih (hturn.geometry g) i (index + 1)
          exact ⟨hturn.trans hrest.1, hrest.2⟩

theorem releaseBlocks_rewrites (g : Geometry f.super) (i : Inode) (start : ℕ) :
    Rewrites i.indirect f (f.releaseBlocks i start).1 := by
  unfold Fs.releaseBlocks
  dsimp only
  have hloop := releaseLoop_rewrites g i (u32 (i.size + 4095) / 4096 - start) start
  split
  · exact hloop.1.trans (freeBlock_rewrites (hloop.1.geometry g) _ _)
  · exact hloop.1

end SifarOS.SifarFs
