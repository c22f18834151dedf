import SifarOS.SifarFsBlocks

/-! # The files of SifarFS

What the operations on one inode do to its type, its flags and its bytes, and that they leave every
other inode alone. -/
namespace SifarOS.SifarFs
open ByteMemory BlockOwnership

variable {T : ℕ → Inode} {n m b : ℕ} {f f' f'' g : Fs} {i : Inode}

/-! ## The inode table -/

namespace Fs

/-- The number of an inode that is there. -/
def Numbered (f : Fs) (n : ℕ) : Prop := 1 ≤ n ∧ n ≤ f.super.inodeCount

/-- The number of an allocated inode. -/
def Live (f : Fs) (n : ℕ) : Prop := f.Numbered n ∧ (f.inodeAt n).type ≠ typeFree

instance (f : Fs) (n : ℕ) : Decidable (f.Numbered n) := inferInstanceAs (Decidable (_ ∧ _))
instance (f : Fs) (n : ℕ) : Decidable (f.Live n) := inferInstanceAs (Decidable (_ ∧ _))

/-- The allocated inodes. -/
def table (f : Fs) (n : ℕ) : Inode := if f.Live n then f.inodeAt n else {}

theorem table_live (h : f.Live n) : f.table n = f.inodeAt n := if_pos h

theorem table_not_live (h : ¬f.Live n) : f.table n = {} := if_neg h

theorem inodeRead_numbered (h : f.Numbered n) : f.inodeRead n = some (f.inodeAt n) :=
  if_neg (by unfold Numbered at h; omega)

theorem inodeAddr_eq (f : Fs) (n : ℕ) : f.inodeAddr n = f.super.inodeStart * 4096 + (n - 1) * 128 := by
  unfold inodeAddr
  rw [Nat.add_mul]
  omega

theorem inodeAddr_le (g : Geometry f.super) (h : f.Numbered n) : f.inodeAddr n + 128 ≤ f.super.dataStart * 4096 := by
  have := g.inodes_le
  unfold Numbered at h
  unfold Super.dataStart
  rw [inodeAddr_eq, Nat.add_mul]
  omega

theorem inodeAddr_ge (f : Fs) (n : ℕ) : f.super.inodeStart * 4096 ≤ f.inodeAddr n := by
  rw [inodeAddr_eq]
  exact Nat.le_add_right _ _

theorem inodeAddr_ne (h : f.Numbered n) (h' : f.Numbered m) (hne : m ≠ n) :
    f.inodeAddr n + 128 ≤ f.inodeAddr m ∨ f.inodeAddr m + 128 ≤ f.inodeAddr n := by
  unfold Numbered at h h'
  rw [inodeAddr_eq, inodeAddr_eq]
  omega

theorem inodeAt_packed (f : Fs) (n : ℕ) : (f.inodeAt n).Packed where
  type_lt := load32_lt _ _
  size_lt := load32_lt _ _
  links_lt := load32_lt _ _
  created_lt := load32_lt _ _
  modified_lt := load32_lt _ _
  flags_lt := load32_lt _ _
  direct_lt := by
    intro k
    unfold inodeAt
    dsimp only
    split
    · exact load32_lt _ _
    · decide
  indirect_lt := load32_lt _ _
  reserved_lt := by
    intro k
    unfold inodeAt
    dsimp only
    split
    · exact load32_lt _ _
    · decide
  direct := fun k hk => if_neg (by omega)
  reserved := fun k hk => if_neg (by omega)

theorem inodeAt_congr (hs : f'.super.inodeStart = f.super.inodeStart) (h : SameOn f.disk f'.disk (f.inodeAddr n) 128) :
    f'.inodeAt n = f.inodeAt n := by
  have haddr : f'.inodeAddr n = f.inodeAddr n := by
    unfold inodeAddr
    rw [hs]
  have hword : ∀ k, k < 32 → load32 f'.disk (f'.inodeAddr n + 4 * k) = load32 f.disk (f.inodeAddr n + 4 * k) := by
    intro k hk
    rw [haddr]
    exact load32_congr (h.mono (by omega) (by omega))
  have hdirect : ∀ k, (if k < 12 then load32 f'.disk (f'.inodeAddr n + 4 * (6 + k)) else 0) =
      if k < 12 then load32 f.disk (f.inodeAddr n + 4 * (6 + k)) else 0 := by
    intro k
    split
    · exact hword _ (by omega)
    · rfl
  have hreserved : ∀ k, (if k < 13 then load32 f'.disk (f'.inodeAddr n + 4 * (19 + k)) else 0) =
      if k < 13 then load32 f.disk (f.inodeAddr n + 4 * (19 + k)) else 0 := by
    intro k
    split
    · exact hword _ (by omega)
    · rfl
  unfold inodeAt
  dsimp only
  rw [hword 0 (by decide), hword 1 (by decide), hword 2 (by decide), hword 3 (by decide), hword 4 (by decide),
    hword 5 (by decide), hword 18 (by decide), funext hdirect, funext hreserved]

theorem inodeWrite_disk (h : f.Numbered n) (i : Inode) :
    f.inodeWrite n i = { f with disk := writeWords f.disk (f.inodeAddr n) 32 i.word } :=
  if_neg (by unfold Numbered at h; omega)

@[simp] theorem inodeWrite_super (f : Fs) (n : ℕ) (i : Inode) : (f.inodeWrite n i).super = f.super := by
  unfold inodeWrite
  split <;> rfl

@[simp] theorem inodeWrite_bitmap (f : Fs) (n : ℕ) (i : Inode) : (f.inodeWrite n i).bitmap = f.bitmap := by
  unfold inodeWrite
  split <;> rfl

@[simp] theorem inodeWrite_clock (f : Fs) (n : ℕ) (i : Inode) : (f.inodeWrite n i).clock = f.clock := by
  unfold inodeWrite
  split <;> rfl

/-- An inode that is on the disk word by word. -/
theorem inodeAt_of_words (hi : i.Packed) (hword : ∀ k, k < 32 → load32 f.disk (f.inodeAddr n + 4 * k) = i.word k) :
    f.inodeAt n = i := by
  have hdirect : ∀ k, (if k < 12 then load32 f.disk (f.inodeAddr n + 4 * (6 + k)) else 0) = i.direct k := by
    intro k
    split
    · rename_i hk
      rw [hword _ (by omega)]
      unfold Inode.word
      split <;> first | omega | skip
      rw [if_pos (by omega), Nat.add_sub_cancel_left]
    · exact (hi.direct k (by omega)).symm
  have hreserved : ∀ k, (if k < 13 then load32 f.disk (f.inodeAddr n + 4 * (19 + k)) else 0) = i.reserved k := by
    intro k
    split
    · rename_i hk
      rw [hword _ (by omega)]
      unfold Inode.word
      split <;> first | omega | skip
      rw [if_neg (by omega), Nat.add_sub_cancel_left]
    · exact (hi.reserved k (by omega)).symm
  unfold inodeAt
  dsimp only
  rw [hword 0 (by decide), hword 1 (by decide), hword 2 (by decide), hword 3 (by decide), hword 4 (by decide),
    hword 5 (by decide), hword 18 (by decide), funext hdirect, funext hreserved]
  rfl

theorem inodeAt_inodeWrite (h : f.Numbered n) (hi : i.Packed) : (f.inodeWrite n i).inodeAt n = i := by
  refine inodeAt_of_words hi (fun k hk => ?_)
  rw [inodeWrite_disk h]
  exact (load32_writeWords f.disk i.word hk).trans (Nat.mod_eq_of_lt (hi.word k))

theorem inodeAt_inodeWrite_ne (h : f.Numbered n) (h' : f.Numbered m) (hne : m ≠ n) (i : Inode) :
    (f.inodeWrite n i).inodeAt m = f.inodeAt m := by
  refine inodeAt_congr (by simp) ?_
  rw [inodeWrite_disk h]
  exact writeWords_sameOn _ _ (inodeAddr_ne h h' hne).symm

theorem inodeWrite_sameOn (gm : Geometry f.super) (h : f.Numbered n) (i : Inode) {a k : ℕ}
    (ha : a + k ≤ f.super.inodeStart * 4096 ∨ f.super.dataStart * 4096 ≤ a) :
    SameOn f.disk (f.inodeWrite n i).disk a k := by
  have h₁ := inodeAddr_le gm h
  have h₂ := inodeAddr_ge f n
  rw [inodeWrite_disk h]
  exact writeWords_sameOn _ _ (by omega)

/-! ## Files -/

/-- The bytes of a file. -/
def bytes (f : Fs) (n : ℕ) : List UInt8 := (List.range (f.inodeAt n).size).map ((f.inodeAt n).byte f.disk)

@[simp] theorem length_bytes (f : Fs) (n : ℕ) : (f.bytes n).length = (f.inodeAt n).size := by
  unfold bytes
  rw [List.length_map, List.length_range]

end Fs

/-- The size of a file is within the limit and covers its blocks. -/
structure Inode.Covered (d : Memory) (i : Inode) : Prop where
  size_le : i.size ≤ 1036 * 4096
  slot_lt : ∀ k, k < 1036 → i.slot d k ≠ 0 → k * 4096 < i.size

/-- The invariant of the file system's blocks. -/
structure Fs.Sound (f : Fs) : Prop where
  sound : SoundFor f f.table
  covered : ∀ n, (f.table n).Covered f.disk

theorem numbered_of_super (h : f'.super = { f.super with freeBlocks := f'.super.freeBlocks }) :
    f'.Numbered m ↔ f.Numbered m := by
  unfold Fs.Numbered
  rw [h]

/-- Nothing but the files in `touched` has changed. -/
structure Changes (touched : ℕ → Prop) (f f' : Fs) : Prop where
  super : f'.super = { f.super with freeBlocks := f'.super.freeBlocks }
  clock : f'.clock = f.clock
  inodeAt : ∀ m, ¬touched m → f.Numbered m → f'.inodeAt m = f.inodeAt m
  bytes : ∀ m, ¬touched m → f.Live m → f'.bytes m = f.bytes m

namespace Changes

variable {touched touched' : ℕ → Prop}

theorem refl (touched : ℕ → Prop) (f : Fs) : Changes touched f f := ⟨rfl, rfl, fun _ _ _ => rfl, fun _ _ _ => rfl⟩

theorem numbered (h : Changes touched f f') (m : ℕ) : f'.Numbered m ↔ f.Numbered m := numbered_of_super h.super

theorem live (h : Changes touched f f') (hm : ¬touched m) : f'.Live m ↔ f.Live m := by
  unfold Fs.Live
  rw [h.numbered m]
  refine and_congr_right (fun hn => ?_)
  rw [h.inodeAt m hm hn]

theorem trans (h : Changes touched f f') (h' : Changes touched f' f'') : Changes touched f f'' where
  super := by
    rw [h'.super, h.super]
  clock := h'.clock.trans h.clock
  inodeAt := fun m hm hn => (h'.inodeAt m hm ((h.numbered m).mpr hn)).trans (h.inodeAt m hm hn)
  bytes := fun m hm hl => (h'.bytes m hm ((h.live hm).mpr hl)).trans (h.bytes m hm hl)

theorem mono (h : Changes touched f f') (ht : ∀ m, touched m → touched' m) : Changes touched' f f' :=
  ⟨h.super, h.clock, fun m hm => h.inodeAt m (fun hc => hm (ht m hc)), fun m hm => h.bytes m (fun hc => hm (ht m hc))⟩

end Changes

theorem Kept.inodeAt (h : Kept T n f f') (gm : Geometry f.super) (hm : f.Numbered m) : f'.inodeAt m = f.inodeAt m := by
  refine Fs.inodeAt_congr (by rw [h.super]) (h.inodes.mono (Fs.inodeAddr_ge f m) ?_)
  have := Fs.inodeAddr_le gm hm
  rwa [Super.dataStart, Nat.add_mul] at this

theorem Fs.bytes_congr {d' : Memory} (hi : f'.inodeAt m = f.inodeAt m) (hd : f'.disk = d')
    (hb : ∀ pos, (f.inodeAt m).byte d' pos = (f.inodeAt m).byte f.disk pos) : f'.bytes m = f.bytes m := by
  unfold Fs.bytes
  rw [hi, hd]
  exact List.map_congr_left (fun pos _ => hb pos)

theorem Inode.packed_empty : ({} : Inode).Packed :=
  ⟨by decide, by decide, by decide, by decide, by decide, by decide, fun _ => Nat.zero_lt_succ _, by decide,
    fun _ => Nat.zero_lt_succ _, fun _ _ => rfl, fun _ _ => rfl⟩

theorem Inode.covered_empty (d : Memory) : ({} : Inode).Covered d :=
  ⟨by decide, fun k _ hk => absurd (Inode.slot_empty d k) hk⟩

/-- What stands after an inode was written to the disk. -/
structure Committed (n : ℕ) (i : Inode) (f g f' : Fs) : Prop where
  sound : f'.Sound
  changes : Changes (· = n) f f'
  inodeAt : f'.inodeAt n = i
  disk : ∀ pos, pos < 1036 * 4096 → i.byte f'.disk pos = i.byte g.disk pos
  slot : ∀ m, m ≠ n → ∀ k, (f.table m).slot f'.disk k = (f.table m).slot g.disk k

/-- The inode that an operation on file `n` has in memory goes to the disk. -/
theorem Fs.Sound.commit (S : f.Sound) (hn : f.Numbered n) (hg : SoundFor g (Function.update f.table n i))
    (hk : Kept f.table n f g) (hp : i.Packed) (hc : i.Covered g.disk) (ht : i.type = typeFree → i = {}) :
    Committed n i f g (g.inodeWrite n i) := by
  have hgn : g.Numbered n := (numbered_of_super hk.super).mpr hn
  have hnum : ∀ m, (g.inodeWrite n i).Numbered m ↔ f.Numbered m :=
    fun m => numbered_of_super (by rw [Fs.inodeWrite_super]; exact hk.super)
  have hself : (g.inodeWrite n i).inodeAt n = i := Fs.inodeAt_inodeWrite hgn hp
  have hother : ∀ m, m ≠ n → f.Numbered m → (g.inodeWrite n i).inodeAt m = f.inodeAt m := by
    intro m hm hf
    rw [Fs.inodeAt_inodeWrite_ne hgn ((numbered_of_super hk.super).mpr hf) hm]
    exact hk.inodeAt S.sound.geometry hf
  have htable : (g.inodeWrite n i).table = Function.update f.table n i := by
    funext m
    by_cases hm : m = n
    · subst hm
      rw [Function.update_self]
      unfold Fs.table
      split
      · exact hself
      · rename_i hnot
        by_cases hfree : i.type = typeFree
        · exact (ht hfree).symm
        · exact absurd ⟨(hnum m).mpr hn, by rwa [hself]⟩ hnot
    · rw [Function.update_of_ne hm]
      have hlive : (g.inodeWrite n i).Live m ↔ f.Live m := by
        unfold Fs.Live
        rw [hnum m]
        exact and_congr_right (fun hf => by rw [hother m hm hf])
      by_cases hl : f.Live m
      · rw [Fs.table_live hl, Fs.table_live (hlive.mpr hl), hother m hm hl.1]
      · rw [Fs.table_not_live hl, Fs.table_not_live (fun h => hl (hlive.mp h))]
  have hblock : ∀ b, g.super.dataStart ≤ b → SameOn g.disk (g.inodeWrite n i).disk (b * 4096) 4096 :=
    fun b hb => Fs.inodeWrite_sameOn hg.geometry hgn i (Or.inr (Nat.mul_le_mul_right 4096 hb))
  have hslot : ∀ m k, (Function.update f.table n i m).slot (g.inodeWrite n i).disk k =
      (Function.update f.table n i m).slot g.disk k := by
    intro m k
    refine Inode.slot_same (fun hi => hblock _ ?_) k
    have := (hg.slot_range (m := m) (k := 1036) (by rwa [Inode.slot_indirect])).1
    rwa [Inode.slot_indirect] at this
  have hbyte : ∀ m pos, (Function.update f.table n i m).byte (g.inodeWrite n i).disk pos =
      (Function.update f.table n i m).byte g.disk pos :=
    fun m pos => Inode.byte_congr (hslot m _) (fun h => hblock _ (hg.slot_range h).1)
  have hsound : SoundFor (g.inodeWrite n i) (g.inodeWrite n i).table := by
    rw [htable]
    refine ⟨?_, ?_, ?_, ?_⟩
    · rw [Fs.inodeWrite_super]
      exact hg.geometry
    · rw [Fs.inodeWrite_super]
      exact hg.owns.congr (fun p => hslot p.1 p.2) (fun c _ => Fs.bitmapTest_congr (Fs.inodeWrite_bitmap g n i) c)
    · rw [Fs.inodeWrite_super, clearCount_congr (fun c _ => Fs.bitmapTest_congr (Fs.inodeWrite_bitmap g n i) c)]
      exact hg.free_eq
    · refine hg.synced.of_disk (Fs.inodeWrite_super g n i) (fun x hx => ?_)
      have := hg.geometry.inodeStart_pos
      exact Fs.inodeWrite_sameOn hg.geometry hgn i (a := x) (k := 1) (Or.inl (by omega)) x (by omega) (by omega)
  refine ⟨⟨hsound, fun m => ?_⟩, ⟨?_, ?_, hother, fun m hm hl => ?_⟩, hself, fun pos _ => ?_, fun m hm k => ?_⟩
  · rw [htable]
    have hcov : (Function.update f.table n i m).Covered g.disk := by
      by_cases hm : m = n
      · subst hm
        rwa [Function.update_self]
      · rw [Function.update_of_ne hm]
        exact ⟨(S.covered m).size_le, fun k hlt hne => (S.covered m).slot_lt k hlt (by rwa [hk.slot hm k] at hne)⟩
    exact ⟨hcov.size_le, fun k hlt hne => hcov.slot_lt k hlt (by rwa [hslot m k] at hne)⟩
  · rw [Fs.inodeWrite_super]
    exact hk.super
  · rw [Fs.inodeWrite_clock]
    exact hk.clock
  · refine Fs.bytes_congr (hother m hm hl.1) rfl (fun pos => ?_)
    have h₁ := hbyte m pos
    rw [Function.update_of_ne hm] at h₁
    have h₂ := hk.byte hm pos
    rw [Fs.table_live hl] at h₁ h₂
    exact h₁.trans h₂
  · have := hbyte n pos
    rwa [Function.update_self] at this
  · have := hslot m k
    rwa [Function.update_of_ne hm] at this

/-! ## Reading -/

theorem Fs.readLoop_eq (f : Fs) (i : Inode) {fuel pos length : ℕ} (hfuel : length ≤ fuel)
    (hpos : pos + length ≤ 1036 * 4096) :
    f.readLoop i fuel pos length = (List.range length).map (fun j => i.byte f.disk (pos + j)) := by
  induction fuel generalizing pos length with
  | zero =>
    obtain rfl : length = 0 := by omega
    rfl
  | succ fuel ih =>
    unfold Fs.readLoop
    by_cases h₀ : length = 0
    · rw [if_pos h₀, h₀]
      rfl
    rw [if_neg h₀]
    dsimp only
    have hchunk : 0 < min (4096 - pos % 4096) length := by omega
    generalize hc : min (4096 - pos % 4096) length = chunk at hchunk ⊢
    have hle : chunk ≤ length ∧ chunk ≤ 4096 - pos % 4096 := by omega
    rw [u32_of_lt (show pos + chunk < 4294967296 by omega), ih (by omega) (by omega), blockFor_read, if_pos (by omega)]
    have hsplit : List.range length = List.range chunk ++ (List.range (length - chunk)).map (chunk + ·) := by
      rw [← List.range_add, Nat.add_sub_cancel' hle.1]
    rw [hsplit, List.map_append, List.map_map]
    congr 1
    · refine List.map_congr_left (fun j hj => ?_)
      have hj' := List.mem_range.mp hj
      have hdiv : (pos + j) / 4096 = pos / 4096 := by omega
      have hmod : (pos + j) % 4096 = pos % 4096 + j := by omega
      unfold Inode.byte
      rw [hdiv, hmod, Nat.add_assoc]
    · refine List.map_congr_left (fun j _ => ?_)
      rw [Function.comp_apply, Nat.add_assoc]

/-- `sfs_file_read` returns the bytes of the file. -/
theorem Fs.fileRead_eq (hn : f.Numbered n) (hsize : (f.inodeAt n).size ≤ 1036 * 4096) {offset length : ℕ}
    (hlen : offset + length < 4294967296) :
    f.fileRead n offset length = some (((f.bytes n).drop offset).take length) := by
  unfold Fs.fileRead
  rw [Fs.inodeRead_numbered hn]
  simp only [Option.map_some, u32_of_lt hlen, Option.some.injEq]
  by_cases hoff : (f.inodeAt n).size ≤ offset
  · rw [if_pos hoff, List.drop_eq_nil_of_le (by rw [Fs.length_bytes]; exact hoff), List.take_nil]
  rw [if_neg hoff]
  generalize hl : (if (f.inodeAt n).size < offset + length then (f.inodeAt n).size - offset else length) = len
  have hbound : len ≤ length ∧ offset + len ≤ (f.inodeAt n).size ∧ (len = length ∨ offset + len = (f.inodeAt n).size) := by
    split at hl <;> omega
  rw [Fs.readLoop_eq f _ (Nat.le_refl _) (by omega)]
  refine List.ext_getElem ?_ (fun j h₁ h₂ => ?_)
  · simp only [List.length_map, List.length_range, List.length_take, List.length_drop, Fs.length_bytes]
    omega
  · simp [Fs.bytes]

/-! ## Writing -/

/-- A part of block `k` of file `n` is overwritten. -/
structure Filled (T : ℕ → Inode) (n : ℕ) (i : Inode) (k off chunk : ℕ) (content : ℕ → UInt8) (g g' : Fs) : Prop where
  sound : SoundFor g' (Function.update T n i)
  kept : Kept T n g g'
  slot : ∀ k, i.slot g'.disk k = i.slot g.disk k
  byte : ∀ pos, pos < 1036 * 4096 → i.byte g'.disk pos =
    if pos / 4096 = k ∧ off ≤ pos % 4096 ∧ pos % 4096 < off + chunk then content (pos % 4096 - off) else i.byte g.disk pos

theorem filled (S : SoundFor g (Function.update T n i)) {k off chunk : ℕ} (hk : k < 1036) (h₀ : i.slot g.disk k ≠ 0)
    (hoff : off + chunk ≤ 4096) (content : ℕ → UInt8) :
    Filled T n i k off chunk content g { g with disk := fill g.disk (i.slot g.disk k * 4096 + off) chunk content } := by
  have hself : Function.update T n i n = i := Function.update_self _ _ _
  have hrange := S.slot_range (m := n) (k := k) (by rwa [hself])
  rw [hself] at hrange
  -- only the block itself is touched, and no other slot has it
  have hdisk : ∀ x, x / 4096 ≠ i.slot g.disk k → fill g.disk (i.slot g.disk k * 4096 + off) chunk content x = g.disk x :=
    fun x hx => fill_of_disjoint _ _ (by omega)
  have hne : ∀ m k', (Function.update T n i m).slot g.disk k' ≠ 0 → (m ≠ n ∨ k' ≠ k) →
      (Function.update T n i m).slot g.disk k' ≠ i.slot g.disk k := by
    intro m k' h hor he
    have := S.slot_inj (by rw [hself]; exact he) h
    omega
  have hsame : ∀ c, c ≠ i.slot g.disk k → SameOn g.disk (fill g.disk (i.slot g.disk k * 4096 + off) chunk content) (c * 4096) 4096 :=
    fun c hc x h₁ h₂ => hdisk x (by omega)
  have hkept : Kept (Function.update T n i) n g
      { g with disk := fill g.disk (i.slot g.disk k * 4096 + off) chunk content } :=
    .of_blocks (fun x _ hx => hdisk x hx) hrange.1 (fun m hm k' h => ⟨S.inodeStart_le h, hne m k' h (Or.inl hm)⟩) rfl rfl rfl
  have hslot : ∀ k', i.slot (fill g.disk (i.slot g.disk k * 4096 + off) chunk content) k' = i.slot g.disk k' := by
    intro k'
    refine Inode.slot_same (fun hi => hsame _ ?_) k'
    have := hne n 1036 (by rwa [hself, Inode.slot_indirect]) (Or.inr (by omega))
    rwa [hself, Inode.slot_indirect] at this
  have hsync : ({ g with disk := fill g.disk (i.slot g.disk k * 4096 + off) chunk content } : Fs).Synced := by
    refine S.synced.of_disk rfl (fun x hx => hdisk x ?_)
    have := S.geometry.dataStart_pos
    omega
  refine ⟨?_, hkept.of_update, hslot, fun pos hpos => ?_⟩
  · have := S.rewrite (i := i) hkept rfl rfl hsync (fun k' => by rw [hself]; exact hslot k')
    rwa [Function.update_idem] at this
  by_cases hin : pos / 4096 = k
  · unfold Inode.byte
    rw [hslot, hin, if_neg h₀, if_neg h₀]
    dsimp only
    by_cases hch : off ≤ pos % 4096 ∧ pos % 4096 < off + chunk
    · rw [if_pos ⟨rfl, hch⟩]
      have := fill_at (a := i.slot g.disk k * 4096 + off) (n := chunk) g.disk content (i := pos % 4096 - off) (by omega)
      rwa [Nat.add_assoc, Nat.add_sub_cancel' hch.1] at this
    · rw [if_neg (fun hc => hch hc.2)]
      exact fill_of_disjoint _ _ (by omega)
  · rw [if_neg (fun hc => hin hc.1)]
    refine Inode.byte_congr (hslot _) (fun h => hsame _ ?_)
    have := hne n (pos / 4096) (by rwa [hself]) (Or.inr hin)
    rwa [hself] at this

/-- `sfs_file_write` has written the first bytes of `data` to file `n` of `f`. -/
structure Writing (T : ℕ → Inode) (n : ℕ) (f : Fs) (offset : ℕ) (data : List UInt8) (w : Fs.WriteState) : Prop where
  sound : SoundFor w.fs (Function.update T n w.inode)
  kept : Kept T n f w.fs
  fields : w.inode = { T n with direct := w.inode.direct, indirect := w.inode.indirect }
  packed : (T n).Packed → w.inode.Packed
  written_le : w.written ≤ data.length
  bound : offset + w.written ≤ 1036 * 4096
  byte : ∀ pos, pos < 1036 * 4096 → w.inode.byte w.fs.disk pos =
    if offset ≤ pos ∧ pos < offset + w.written then data.getD (pos - offset) 0 else (T n).byte f.disk pos
  cover : ∀ k, k < 1036 → w.inode.slot w.fs.disk k ≠ 0 → (T n).slot f.disk k ≠ 0 ∨ k * 4096 < offset + w.written
  changed : w.changed = false → w.inode = T n

theorem Writing.start (S : SoundFor f T) (n : ℕ) {offset : ℕ} (ho : offset ≤ 1036 * 4096) (data : List UInt8) :
    Writing T n f offset data ⟨f, T n, false, 0⟩ where
  sound := by
    rw [Function.update_eq_self]
    exact S
  kept := Kept.refl T n f
  fields := rfl
  packed := id
  written_le := Nat.zero_le _
  bound := ho
  byte := fun pos _ => (if_neg (by dsimp only; omega)).symm
  cover := fun _ _ h => Or.inl h
  changed := fun _ => rfl

section writeLoop

variable {offset : ℕ} {data : List UInt8} {w : Fs.WriteState}

/-- `block_for` has found or taken the block for the next bytes. -/
theorem Writing.mapped (h : Writing T n f offset data w) {index : ℕ} {r : Fs.BlockFor}
    (hr : Mapped (Function.update T n w.inode) n w.fs index r) : Kept T n f r.fs ∧
      SoundFor r.fs (Function.update T n r.inode) ∧
      r.inode = { T n with direct := r.inode.direct, indirect := r.inode.indirect } ∧
      ((T n).Packed → r.inode.Packed) ∧
      (∀ pos, pos < 1036 * 4096 → r.inode.byte r.fs.disk pos = w.inode.byte w.fs.disk pos) ∧
      (∀ k, k < 1036 → k ≠ index → r.inode.slot r.fs.disk k = w.inode.slot w.fs.disk k) ∧
      ((w.changed || r.changed) = false → r.inode = T n) := by
  have hsound := hr.sound
  have hfields := hr.fields
  have hpacked := hr.packed
  have hbyte := hr.byte
  have hslot := hr.slot_ne
  have hchanged := hr.changed
  rw [Function.update_idem] at hsound
  rw [Function.update_self] at hfields hpacked hbyte hslot hchanged
  refine ⟨h.kept.trans hr.kept.of_update, hsound, ?_, fun hp => hpacked (h.packed hp), hbyte, hslot, fun hc => ?_⟩
  · rw [h.fields] at hfields
    exact hfields
  · obtain ⟨h₁, h₂⟩ := Bool.or_eq_false_iff.mp hc
    rw [hchanged h₂, h.changed h₁]

theorem writeLoop_writing (h : Writing T n f offset data w) (fuel : ℕ) :
    Writing T n f offset data (Fs.writeLoop offset data fuel w) := by
  induction fuel generalizing w with
  | zero => exact h
  | succ fuel ih =>
    unfold Fs.writeLoop
    by_cases hlt : w.written < data.length
    · rw [if_pos hlt]
      dsimp only
      have hb := h.bound
      rw [u32_of_lt (by omega)]
      have hr := blockFor_mapped h.sound n ((offset + w.written) / 4096)
      rw [Function.update_self] at hr
      generalize hrr : w.fs.blockFor w.inode ((offset + w.written) / 4096) true = r at hr ⊢
      obtain ⟨hkept, hsound, hfields, hpacked, hbyte, hslot, hchanged⟩ := h.mapped hr
      by_cases h₀ : r.block = 0
      · rw [if_pos h₀]
        refine ⟨hsound, hkept, hfields, hpacked, h.written_le, h.bound, fun pos hpos => ?_, fun k hk hne => ?_, hchanged⟩
        · rw [hbyte pos hpos]
          exact h.byte pos hpos
        · by_cases hki : k = (offset + w.written) / 4096
          · subst hki
            exact absurd ((hr.slot_self hk).trans h₀) hne
          · rw [hslot k hk hki] at hne
            exact h.cover k hk hne
      · rw [if_neg h₀]
        have hindex : (offset + w.written) / 4096 < 1036 := by
          by_contra hge
          exact h₀ (hr.beyond (Nat.le_of_not_lt hge))
        have hself := hr.slot_self hindex
        generalize hchunk : min (4096 - (offset + w.written) % 4096) (data.length - w.written) = chunk
        have hfill := filled hsound hindex (by rwa [hself]) (show (offset + w.written) % 4096 + chunk ≤ 4096 by omega)
          (fun j => data.getD (w.written + j) 0)
        rw [hself] at hfill
        refine ih ⟨hfill.sound, hkept.trans hfill.kept, hfields, hpacked, ?_, ?_, ?_, ?_, hchanged⟩
        · dsimp only
          omega
        · dsimp only
          omega
        · intro pos hpos
          refine (hfill.byte pos hpos).trans ?_
          rw [hbyte pos hpos, h.byte pos hpos]
          dsimp only
          by_cases hnew : offset + w.written ≤ pos ∧ pos < offset + w.written + chunk
          · rw [if_pos (by omega), if_pos (by omega)]
            congr 1
            omega
          · rw [if_neg (by omega)]
            by_cases hold : offset ≤ pos ∧ pos < offset + w.written
            · rw [if_pos hold, if_pos (by omega)]
            · rw [if_neg hold, if_neg (by omega)]
        · intro k hk hne
          rw [hfill.slot k] at hne
          dsimp only
          by_cases hki : k = (offset + w.written) / 4096
          · exact Or.inr (by omega)
          · rw [hslot k hk hki] at hne
            rcases h.cover k hk hne with hc | hc
            · exact Or.inl hc
            · exact Or.inr (by omega)
    · rw [if_neg hlt]
      exact h

end writeLoop

/-- Some bytes from `offset` on are replaced. -/
def splice (bytes : List UInt8) (offset : ℕ) (data : List UInt8) : List UInt8 :=
  bytes.take offset ++ data ++ bytes.drop (offset + data.length)

theorem length_splice {bytes : List UInt8} {offset : ℕ} (h : offset ≤ bytes.length) (data : List UInt8) :
    (splice bytes offset data).length = max bytes.length (offset + data.length) := by
  unfold splice
  simp only [List.length_append, List.length_take, List.length_drop]
  omega

/-- A list that is read off byte by byte. -/
theorem eq_splice {bytes data : List UInt8} {offset size : ℕ} {byte : ℕ → UInt8} (h : offset ≤ bytes.length)
    (hsize : size = max bytes.length (offset + data.length))
    (hbyte : ∀ pos, pos < size → byte pos =
      if offset ≤ pos ∧ pos < offset + data.length then data.getD (pos - offset) 0 else bytes.getD pos 0) :
    (List.range size).map byte = splice bytes offset data := by
  refine List.ext_getElem ?_ (fun j h₁ h₂ => ?_)
  · rw [length_splice h _, List.length_map, List.length_range, hsize]
  rw [List.length_map, List.length_range] at h₁
  rw [List.getElem_map, List.getElem_range, hbyte j h₁]
  simp only [splice, List.getElem_append, List.length_append, List.length_take, List.getElem_take, List.getElem_drop]
  by_cases hlo : j < offset
  · rw [if_neg (by omega), dif_pos (by omega), dif_pos (by omega), List.getD_eq_getElem _ _ (by omega)]
  by_cases hhi : j < offset + data.length
  · rw [if_pos ⟨by omega, hhi⟩, dif_pos (by omega), dif_neg (by omega), List.getD_eq_getElem _ _ (by omega)]
    congr 1
    omega
  · rw [if_neg (by omega), dif_neg (by omega), List.getD_eq_getElem _ _ (by omega)]
    congr 1
    omega

theorem Fs.bytes_getD (f : Fs) (n : ℕ) {pos : ℕ} (h : pos < (f.inodeAt n).size) :
    (f.bytes n).getD pos 0 = (f.inodeAt n).byte f.disk pos := by
  rw [List.getD_eq_getElem _ _ (by rwa [Fs.length_bytes])]
  simp [Fs.bytes]

/-- The type and the flags of an inode are unchanged. -/
def SameKind (i i' : Inode) : Prop := i'.type = i.type ∧ i'.flags = i.flags

/-- What `sfs_file_write` leaves when it has written some bytes. -/
structure Written (n : ℕ) (f : Fs) (offset : ℕ) (data : List UInt8) (written : ℕ) (f' : Fs) : Prop where
  sound : f'.Sound
  changes : Changes (· = n) f f'
  kind : SameKind (f.inodeAt n) (f'.inodeAt n)
  written_le : written ≤ data.length
  bytes : f'.bytes n = splice (f.bytes n) offset (data.take written)

theorem Kept.table (h : Kept T n f f') (gm : Geometry f.super) : f'.table = f.table := by
  funext m
  have hlive : f'.Live m ↔ f.Live m := by
    unfold Fs.Live
    rw [numbered_of_super h.super]
    exact and_congr_right (fun hm => by rw [h.inodeAt gm hm])
  by_cases hl : f.Live m
  · rw [Fs.table_live hl, Fs.table_live (hlive.mpr hl), h.inodeAt gm hl.1]
  · rw [Fs.table_not_live hl, Fs.table_not_live (fun h => hl (hlive.mp h))]

/-- An operation that has left the inodes as they are. -/
theorem Fs.Sound.of_kept (S : f.Sound) (hk : Kept f.table n f g) (hg : SoundFor g f.table)
    (hs : ∀ k, k < 1036 → (f.table n).slot g.disk k ≠ 0 → k * 4096 < (f.table n).size) : g.Sound ∧ Changes (· = n) f g := by
  have htable := hk.table S.sound.geometry
  refine ⟨⟨by rwa [htable], fun m => ?_⟩, hk.super, hk.clock, fun m _ hm => hk.inodeAt S.sound.geometry hm, fun m hm hl => ?_⟩
  · rw [htable]
    by_cases hm : m = n
    · subst hm
      exact ⟨(S.covered m).size_le, hs⟩
    · exact ⟨(S.covered m).size_le, fun k hlt hne => (S.covered m).slot_lt k hlt (by rwa [hk.slot hm k] at hne)⟩
  · refine Fs.bytes_congr (hk.inodeAt S.sound.geometry hl.1) rfl (fun pos => ?_)
    have := hk.byte hm pos
    rwa [Fs.table_live hl] at this

theorem Inode.Covered.of_live (S : f.Sound) (h : f.Live n) : (f.inodeAt n).Covered f.disk := by
  have := S.covered n
  rwa [Fs.table_live h] at this

/-- What a write at any offset leaves: the size has grown to where it ended, and no other byte of the
blocks has changed. -/
structure Overwritten (n : ℕ) (f : Fs) (offset : ℕ) (data : List UInt8) (written : ℕ) (f' : Fs) : Prop where
  sound : f'.Sound
  changes : Changes (· = n) f f'
  kind : SameKind (f.inodeAt n) (f'.inodeAt n)
  written_le : written ≤ data.length
  size : (f'.inodeAt n).size = max (f.inodeAt n).size (offset + written)
  byte : ∀ pos, pos < 1036 * 4096 → (f'.inodeAt n).byte f'.disk pos =
    if offset ≤ pos ∧ pos < offset + written then data.getD (pos - offset) 0 else (f.inodeAt n).byte f.disk pos

/-- The write loop is over, and the inode has gone to the disk if it had to. -/
theorem Overwritten.of_writing (S : f.Sound) (hl : f.Live n) {offset : ℕ} {data : List UInt8} {w : Fs.WriteState}
    (h : Writing f.table n f offset data w) :
    Overwritten n f offset data w.written
      (if w.changed || decide (w.inode.size < offset + w.written) || w.written != 0 then
        w.fs.inodeWrite n { w.inode with
          size := if decide (w.inode.size < offset + w.written) then offset + w.written else w.inode.size
          modified := u32 f.clock }
      else w.fs) := by
  have hcov := Inode.Covered.of_live S hl
  have hbound := h.bound
  have hfields := h.fields
  have hbyte := h.byte
  have hcover := h.cover
  have hpacked := h.packed
  have hchanged := h.changed
  rw [Fs.table_live hl] at hfields hbyte hcover hpacked hchanged
  have hsize : w.inode.size = (f.inodeAt n).size := by rw [hfields]
  rw [hsize]
  generalize hnew : (if decide ((f.inodeAt n).size < offset + w.written) = true then offset + w.written
    else (f.inodeAt n).size) = size
  have hmax : size = max (f.inodeAt n).size (offset + w.written) := by
    simp only [decide_eq_true_eq] at hnew
    split at hnew <;> omega
  have hle := hcov.size_le
  split
  · have hcommit := S.commit (n := n) (g := w.fs) (i := { w.inode with size := size, modified := u32 f.clock }) hl.1
      (h.sound.rewrite_inode (fun _ => rfl)) h.kept
      { hpacked (Fs.inodeAt_packed f n) with
        size_lt := by dsimp only; omega
        modified_lt := Nat.mod_lt _ (by decide) }
      ⟨by dsimp only; omega, fun k hk hne => by
        dsimp only
        rcases hcover k hk hne with hc | hc
        · have := hcov.slot_lt k hk hc
          omega
        · omega⟩
      (fun ht => absurd (by rw [hfields] at ht; exact ht) hl.2)
    refine ⟨hcommit.sound, hcommit.changes, ?_, h.written_le, ?_, fun pos hpos => ?_⟩
    · rw [hcommit.inodeAt, hfields]
      exact ⟨rfl, rfl⟩
    · rw [hcommit.inodeAt]
      exact hmax
    · rw [hcommit.inodeAt]
      exact (hcommit.disk pos hpos).trans (hbyte pos hpos)
  · rename_i hcond
    simp only [Bool.or_eq_true, not_or, Bool.not_eq_true, bne_iff_ne, ne_eq, not_not, decide_eq_false_iff_not] at hcond
    obtain ⟨⟨hch, hgrow⟩, hw₀⟩ := hcond
    have hinode : w.inode = f.table n := by rw [hchanged hch, Fs.table_live hl]
    have hg := h.sound
    rw [hinode, Function.update_eq_self] at hg
    have hsame := h.kept.inodeAt S.sound.geometry hl.1
    obtain ⟨hs, hc⟩ := S.of_kept h.kept hg (fun k hk hne => by
      rw [← hinode] at hne
      rw [Fs.table_live hl]
      rcases hcover k hk hne with hc | hc
      · exact hcov.slot_lt k hk hc
      · omega)
    refine ⟨hs, hc, ?_, h.written_le, ?_, fun pos hpos => ?_⟩
    · rw [hsame]
      exact ⟨rfl, rfl⟩
    · rw [hsame]
      omega
    · rw [hsame, ← hbyte pos hpos, hchanged hch]

/-- `sfs_file_write` at any offset within the limit of a file. -/
theorem Fs.Sound.fileWrite_overwritten (S : f.Sound) (hl : f.Live n) {offset : ℕ} (ho : offset ≤ 1036 * 4096)
    (data : List UInt8) :
    ∃ written : ℕ, (f.fileWrite n offset data).2 = written ∧
      Overwritten n f offset data written (f.fileWrite n offset data).1 := by
  have hw := writeLoop_writing (Writing.start S.sound n ho data) data.length
  rw [Fs.table_live hl] at hw
  unfold Fs.fileWrite
  rw [Fs.inodeRead_numbered hl.1]
  dsimp only
  generalize Fs.writeLoop offset data data.length ⟨f, f.inodeAt n, false, 0⟩ = w at hw ⊢
  have hbound := hw.bound
  rw [u32_of_lt (by omega)]
  exact ⟨w.written, rfl, Overwritten.of_writing S hl hw⟩

/-- A write up to the end of the file or beyond it replaces bytes of the file. -/
theorem Overwritten.written {offset written : ℕ} {data : List UInt8} (h : Overwritten n f offset data written f')
    (hl : f.Live n) (ho : offset ≤ (f.inodeAt n).size) : Written n f offset data written f' where
  sound := h.sound
  changes := h.changes
  kind := h.kind
  written_le := h.written_le
  bytes := by
    have hle := h.written_le
    have hlen : (data.take written).length = written := by
      rw [List.length_take]
      exact Nat.min_eq_left hle
    have htake : ∀ j, j < written → (data.take written).getD j 0 = data.getD j 0 := by
      intro j hj
      rw [List.getD_eq_getElem _ _ (by omega), List.getD_eq_getElem _ _ (by omega), List.getElem_take]
    have hlive : f'.Live n := ⟨(h.changes.numbered n).mpr hl.1, by rw [h.kind.1]; exact hl.2⟩
    have hlimit := (Inode.Covered.of_live h.sound hlive).size_le
    unfold Fs.bytes
    refine eq_splice (by simpa using ho) (by simpa [hlen] using h.size) (fun pos hpos => ?_)
    rw [h.byte pos (by omega), hlen]
    split
    · exact (htake _ (by omega)).symm
    · have hsize := h.size
      exact (Fs.bytes_getD f n (by omega)).symm

/-- `sfs_file_write` up to the end of the file or beyond it. -/
theorem Fs.Sound.fileWrite (S : f.Sound) (hl : f.Live n) {offset : ℕ} (ho : offset ≤ (f.inodeAt n).size)
    (data : List UInt8) :
    ∃ written : ℕ, (f.fileWrite n offset data).2 = written ∧
      Written n f offset data written (f.fileWrite n offset data).1 := by
  have hle := (Inode.Covered.of_live S hl).size_le
  obtain ⟨written, heq, hw⟩ := S.fileWrite_overwritten hl (ho.trans hle) data
  exact ⟨written, heq, hw.written hl ho⟩

/-! ## Emptying, creating and freeing -/

/-- Before its inode is written, file `n` has the blocks that `length` bytes need. -/
structure Shortened (n length : ℕ) (f : Fs) (r : Fs × Inode) : Prop where
  sound : SoundFor r.1 (Function.update f.table n r.2)
  kept : Kept f.table n f r.1
  fields : r.2 = { f.inodeAt n with direct := r.2.direct, indirect := r.2.indirect }
  packed : r.2.Packed
  slot : ∀ k, k < 1036 → r.2.slot r.1.disk k = if k * 4096 < length then (f.inodeAt n).slot f.disk k else 0
  data : ∀ k, k < 1036 → (f.inodeAt n).slot f.disk k ≠ 0 →
    SameOn f.disk r.1.disk ((f.inodeAt n).slot f.disk k * 4096) 4096

theorem Fs.Sound.releaseBlocks (S : f.Sound) (hl : f.Live n) :
    Released f.table n f (fun _ => True) (f.releaseBlocks (f.inodeAt n) 0) := by
  have hcov := S.covered n
  have := releaseBlocks_released S.sound n hcov.size_le hcov.slot_lt
  rwa [Fs.table_live hl] at this

theorem Fs.Sound.shortened (S : f.Sound) (hl : f.Live n) {length : ℕ} (hlen : length ≤ 1036 * 4096) :
    Shortened n length f
      (if length < (f.inodeAt n).size then f.releaseBlocks (f.inodeAt n) (u32 (length + 4095) / 4096) else (f, f.inodeAt n)) := by
  have hcov := Inode.Covered.of_live S hl
  have htable := Fs.table_live hl
  split
  · next hlt =>
    have hsize := hcov.size_le
    have htotal : u32 ((f.table n).size + 4095) / 4096 = ((f.inodeAt n).size + 4095) / 4096 := by
      rw [htable, u32_of_lt (by omega)]
    have hbehind : ∀ k, k < 1036 → u32 ((f.table n).size + 4095) / 4096 ≤ k → (f.table n).slot f.disk k = 0 := by
      intro k hk hge
      by_contra hne
      rw [htable] at hne
      have := hcov.slot_lt k hk hne
      omega
    have hr := releaseBlocks_from S.sound n ((length + 4095) / 4096) fun _ k _ hk hge => hbehind k hk hge
    rw [htotal, htable] at hr
    rw [u32_of_lt (by omega)]
    have hpacked := hr.packed
    have hfields := hr.fields
    have hstay := hr.stay
    rw [htable] at hpacked hfields hstay hbehind
    refine ⟨hr.sound, hr.kept, hfields, hpacked (Fs.inodeAt_packed f n), fun k hk => ?_, fun k hk hne => ?_⟩
    · split
      · exact hstay k (by omega)
      · by_cases hin : k < ((f.inodeAt n).size + 4095) / 4096
        · exact hr.empty k (by omega)
        · rw [hstay k (by omega)]
          exact hbehind k hk (by rw [← htable, htotal]; omega)
    · have hrange := S.sound.slot_range (m := n) (k := k) (by rwa [htable])
      have hinj : (f.inodeAt n).slot f.disk k ≠ (f.inodeAt n).indirect := by
        intro he
        have hsame : (f.table n).slot f.disk k = (f.table n).slot f.disk 1036 := by rw [htable, he, Inode.slot_indirect]
        have hk₀ := (S.sound.slot_inj hsame (by rwa [htable])).2
        omega
      rw [htable] at hrange
      intro x h₁ h₂
      refine (releaseBlocks_rewrites S.sound.geometry _ _).disk x ?_ (by omega)
      refine Nat.le_trans (Nat.mul_le_mul_right 4096 ?_) h₁
      exact Nat.le_trans (Nat.le_add_right _ _) hrange.1
  · next hge =>
    refine ⟨?_, Kept.refl _ _ _, rfl, Fs.inodeAt_packed f n, fun k hk => ?_, fun k _ _ => SameOn.refl _ _ _⟩
    · rw [← htable, Function.update_eq_self]
      exact S.sound
    · split
      · rfl
      · by_contra hne
        have := hcov.slot_lt k hk hne
        omega

/-- File `n` has another size, and the bytes of its blocks up to there. -/
structure Resized (n length : ℕ) (f f' : Fs) : Prop where
  sound : f'.Sound
  changes : Changes (· = n) f f'
  kind : SameKind (f.inodeAt n) (f'.inodeAt n)
  size : (f'.inodeAt n).size = length
  byte : ∀ pos, pos < 1036 * 4096 → (f'.inodeAt n).byte f'.disk pos =
    if pos / 4096 * 4096 < length then (f.inodeAt n).byte f.disk pos else 0

/-- `sfs_file_truncate_inode` to any length within the limit of a file. -/
theorem Fs.Sound.fileTruncate_resized (S : f.Sound) (hl : f.Live n) {length : ℕ} (hlen : length ≤ 1036 * 4096) :
    (f.fileTruncate n length).2 = true ∧ Resized n length f (f.fileTruncate n length).1 := by
  have hr := S.shortened hl hlen
  unfold Fs.fileTruncate
  rw [Fs.inodeRead_numbered hl.1]
  dsimp only
  generalize (if length < (f.inodeAt n).size then f.releaseBlocks (f.inodeAt n) (u32 (length + 4095) / 4096)
    else (f, f.inodeAt n)) = r at hr ⊢
  have hfields := hr.fields
  have hcommit := S.commit (n := n) (g := r.1) (i := { r.2 with size := length, modified := u32 f.clock }) hl.1
    (hr.sound.rewrite_inode (fun _ => rfl)) hr.kept
    { hr.packed with
      size_lt := by dsimp only; omega
      modified_lt := Nat.mod_lt _ (by decide) }
    ⟨hlen, fun k hk hne => by
      by_contra hge
      exact hne ((hr.slot k hk).trans (if_neg hge))⟩ (fun ht => absurd (by rw [hfields] at ht; exact ht) hl.2)
  refine ⟨rfl, hcommit.sound, hcommit.changes, ?_, by rw [hcommit.inodeAt], fun pos hpos => ?_⟩
  · rw [hcommit.inodeAt, hfields]
    exact ⟨rfl, rfl⟩
  · have hk : pos / 4096 < 1036 := by omega
    have hslot := hr.slot _ hk
    rw [hcommit.inodeAt]
    refine (hcommit.disk pos hpos).trans ?_
    show r.2.byte r.1.disk pos = _
    split
    · next hin =>
      rw [if_pos hin] at hslot
      exact Inode.byte_congr hslot (hr.data _ hk)
    · next hout =>
      rw [if_neg hout] at hslot
      exact if_pos hslot

/-- File `n` has lost its bytes and nothing else. -/
structure Emptied (n : ℕ) (f f' : Fs) : Prop where
  sound : f'.Sound
  changes : Changes (· = n) f f'
  kind : SameKind (f.inodeAt n) (f'.inodeAt n)
  bytes : f'.bytes n = []

theorem Fs.bytes_of_size (h : (f.inodeAt n).size = 0) : f.bytes n = [] := by
  unfold Fs.bytes
  rw [h]
  rfl

theorem Fs.Sound.fileTruncate (S : f.Sound) (hl : f.Live n) :
    (f.fileTruncate n 0).2 = true ∧ Emptied n f (f.fileTruncate n 0).1 := by
  obtain ⟨hok, hr⟩ := S.fileTruncate_resized hl (Nat.zero_le _)
  exact ⟨hok, hr.sound, hr.changes, hr.kind, Fs.bytes_of_size hr.size⟩

theorem Fs.Sound.setUsed (S : f.Sound) (used : ℕ) : Fs.Sound { f with inodesUsed := used } :=
  ⟨⟨S.sound.geometry, S.sound.owns, S.sound.free_eq, S.sound.synced⟩, S.covered⟩

theorem Changes.setUsed {touched : ℕ → Prop} (h : Changes touched f f') (used : ℕ) : Changes touched f { f' with inodesUsed := used } :=
  ⟨h.super, h.clock, h.inodeAt, h.bytes⟩

/-- Inode `n` was free and is now an empty one of the given type. -/
structure Allocated (n type : ℕ) (f f' : Fs) : Prop where
  sound : f'.Sound
  changes : Changes (· = n) f f'
  super : f'.super = f.super
  slot : ∀ m, f.Live m → ∀ k, (f.inodeAt m).slot f'.disk k = (f.inodeAt m).slot f.disk k
  numbered : f.Numbered n
  free : ¬f.Live n
  inodeAt_type : (f'.inodeAt n).type = type
  inodeAt_flags : (f'.inodeAt n).flags = 0
  bytes : f'.bytes n = []

theorem Fs.Sound.allocInode (S : f.Sound) {type : ℕ} (ht : type ≠ typeFree) (hlt : type < 4294967296) :
    f.allocInode type = (f, 0) ∨ Allocated (f.allocInode type).2 type f (f.allocInode type).1 := by
  unfold Fs.allocInode
  cases hfind : (List.range f.super.inodeCount).find? (fun i => (f.inodeAt (i + 1)).type == typeFree) with
  | none => exact Or.inl rfl
  | some k =>
    right
    dsimp only
    have hk := List.mem_range.mp (List.mem_of_find?_eq_some hfind)
    have hfree : (f.inodeAt (k + 1)).type = typeFree := by simpa using List.find?_some hfind
    have hnum : f.Numbered (k + 1) := ⟨by omega, by omega⟩
    have hdead : ¬f.Live (k + 1) := fun h => h.2 hfree
    have hcommit := S.commit (n := k + 1) (g := f)
      (i := { type := type, links := 1, created := u32 f.clock, modified := u32 f.clock }) hnum
      (by
        refine S.sound.rewrite (Kept.refl _ _ _) rfl rfl S.sound.synced (fun j => ?_)
        rw [Fs.table_not_live hdead]
        rfl)
      (Kept.refl _ _ _)
      { Inode.packed_empty with
        type_lt := hlt
        links_lt := Nat.lt_of_sub_eq_succ rfl
        created_lt := Nat.mod_lt _ (by decide)
        modified_lt := Nat.mod_lt _ (by decide) }
      ⟨Nat.zero_le _, fun j _ hne => absurd (Inode.slot_empty f.disk j) hne⟩ (fun h => absurd h ht)
    refine ⟨hcommit.sound.setUsed _, hcommit.changes.setUsed _, Fs.inodeWrite_super f _ _, fun m hm j => ?_, hnum, hdead,
      ?_, ?_, ?_⟩
    · have := hcommit.slot m (fun he => hdead (he ▸ hm)) j
      rwa [Fs.table_live hm] at this
    · exact congrArg Inode.type hcommit.inodeAt
    · exact congrArg Inode.flags hcommit.inodeAt
    · exact Fs.bytes_of_size (congrArg Inode.size hcommit.inodeAt)

/-- Inode `n` is free. -/
structure Freed (n : ℕ) (f f' : Fs) : Prop where
  sound : f'.Sound
  changes : Changes (· = n) f f'
  free : ¬f'.Live n

/-- The end of `op_destroy`. -/
theorem Fs.Sound.freeInode (S : f.Sound) (hl : f.Live n) (used : ℕ) :
    Freed n f { ((f.releaseBlocks (f.inodeAt n) 0).1).inodeWrite n {} with inodesUsed := used } := by
  have hr := S.releaseBlocks hl
  have hcommit := S.commit (n := n) (g := (f.releaseBlocks (f.inodeAt n) 0).1) (i := {}) hl.1
    (hr.sound.rewrite_inode (fun k => (Inode.slot_empty _ k).trans (hr.empty k trivial).symm)) hr.kept
    Inode.packed_empty (Inode.covered_empty _) (fun _ => rfl)
  exact ⟨hcommit.sound.setUsed _, hcommit.changes.setUsed _, fun h => h.2 (congrArg Inode.type hcommit.inodeAt)⟩

end SifarOS.SifarFs
