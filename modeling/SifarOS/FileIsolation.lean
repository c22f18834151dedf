import SifarOS.SifarFsFiles

/-! # Files of SifarFS do not touch each other

Whatever is written to a file, at whatever offset, and to whatever length it is cut, the others keep
their inodes and their bytes. A file that was given a size its inode cannot address loses blocks when
it is cut or destroyed: they stay marked in the bitmap, and no inode has them. Such blocks are kept
in a table of inodes under numbers behind those of the disk. -/
namespace SifarOS.SifarFs
open ByteMemory BlockOwnership

variable {T : ℕ → Inode} {n m last : ℕ} {f f' f'' g : Fs} {i i' : Inode}

/-! ## Lost blocks -/

/-- An inode for one block that was lost. -/
def strayInode (block : ℕ) : Inode := { direct := fun k => if k = 0 then block else 0 }

theorem slot_strayInode (d : Memory) (block k : ℕ) : (strayInode block).slot d k = if k = 0 then block else 0 := by
  rcases Nat.lt_or_ge k 12 with h | h
  · exact Inode.slot_direct h
  · rw [if_neg (show k ≠ 0 by omega)]
    rcases Nat.lt_or_ge k 1036 with h' | h'
    · exact Inode.slot_no_table h h' rfl
    rcases Nat.eq_or_lt_of_le h' with rfl | h''
    · exact Inode.slot_indirect
    · exact Inode.slot_beyond h''

theorem strayInode_zero : strayInode 0 = {} := by
  unfold strayInode
  congr
  funext k
  split <;> rfl

/-- File `n` has inode `i` now, and the blocks that `i` has not go to the numbers from `last` on. -/
def strays (T : ℕ → Inode) (d : Memory) (n last : ℕ) (i : Inode) (m : ℕ) : Inode :=
  if m = n then i
  else if last ≤ m then strayInode (if i.slot d (m - last) = 0 then (T n).slot d (m - last) else 0)
  else T m

theorem strays_self (T : ℕ → Inode) (d : Memory) (n last : ℕ) (i : Inode) : strays T d n last i n = i := if_pos rfl

theorem strays_of_lt (d : Memory) (i : Inode) (hne : m ≠ n) (hlt : m < last) : strays T d n last i m = T m := by
  unfold strays
  rw [if_neg hne, if_neg (by omega)]

theorem strays_of_le (T : ℕ → Inode) (d : Memory) (i : Inode) (hn : n < last) (hm : last ≤ m) :
    strays T d n last i m = strayInode (if i.slot d (m - last) = 0 then (T n).slot d (m - last) else 0) := by
  unfold strays
  rw [if_neg (by omega), if_pos hm]

theorem strays_empty (T : ℕ → Inode) (d : Memory) (i : Inode) (hn : n < last) (hm : last + 1037 ≤ m) :
    strays T d n last i m = {} := by
  rw [strays_of_le T d i hn (by omega), Inode.slot_beyond (by omega), Inode.slot_beyond (by omega), if_pos rfl,
    strayInode_zero]

theorem SoundFor.lose (S : SoundFor f T) (hlast : ∀ m, last ≤ m → T m = {}) (hn : n < last)
    (hs : ∀ k, i.slot f.disk k = (T n).slot f.disk k ∨ i.slot f.disk k = 0) : SoundFor f (strays T f.disk n last i) := by
  -- where a block of the new table was in the old one
  have hstray : ∀ m k, last ≤ m → (strays T f.disk n last i m).slot f.disk k ≠ 0 →
      k = 0 ∧ i.slot f.disk (m - last) = 0 ∧ (strays T f.disk n last i m).slot f.disk k = (T n).slot f.disk (m - last) := by
    intro m k hm hne
    rw [strays_of_le T f.disk i hn hm, slot_strayInode] at hne ⊢
    by_cases hk : k = 0
    · by_cases hi : i.slot f.disk (m - last) = 0
      · exact ⟨hk, hi, by rw [if_pos hk, if_pos hi]⟩
      · rw [if_pos hk, if_neg hi] at hne
        exact absurd rfl hne
    · rw [if_neg hk] at hne
      exact absurd rfl hne
  refine ⟨S.geometry, S.owns.relabel S.geometry.dataStart_pos
    (fun p => if last ≤ p.1 then (n, p.1 - last) else p) ?_ ?_ ?_, S.free_eq, S.synced⟩
  · rintro ⟨m, k⟩ hne
    dsimp only at hne ⊢
    by_cases hm : last ≤ m
    · rw [if_pos hm]
      exact (hstray m k hm hne).2.2.symm
    · rw [if_neg hm]
      by_cases hmn : m = n
      · subst hmn
        rw [strays_self] at hne ⊢
        exact ((hs k).resolve_right hne).symm
      · rw [strays_of_lt _ _ hmn (by omega)]
  · rintro ⟨m, k⟩ ⟨m', k'⟩ hne hne' he
    dsimp only at hne hne' he
    by_cases hm : last ≤ m <;> by_cases hm' : last ≤ m'
    · rw [if_pos hm, if_pos hm', Prod.mk.injEq] at he
      rw [(hstray m k hm hne).1, (hstray m' k' hm' hne').1, show m = m' by omega]
    · rw [if_pos hm, if_neg hm'] at he
      obtain ⟨rfl, rfl⟩ := Prod.mk.inj he
      rw [strays_self] at hne'
      exact absurd (hstray m k hm hne).2.1 hne'
    · rw [if_neg hm, if_pos hm'] at he
      obtain ⟨rfl, rfl⟩ := Prod.mk.inj he
      rw [strays_self] at hne
      exact absurd (hstray m' k' hm' hne').2.1 hne
    · rwa [if_neg hm, if_neg hm'] at he
  · rintro ⟨m, k⟩ hne
    dsimp only at hne ⊢
    have hm : m < last := by
      by_contra hge
      rw [hlast m (by omega), Inode.slot_empty] at hne
      exact hne rfl
    by_cases hmn : m = n
    · subst hmn
      rcases hs k with hk | hk
      · exact ⟨(m, k), by rw [strays_self, hk]⟩
      · refine ⟨(last + k, 0), ?_⟩
        dsimp only
        rw [strays_of_le T f.disk i hn (by omega), slot_strayInode, if_pos rfl, Nat.add_sub_cancel_left, if_pos hk]
    · exact ⟨(m, k), by rw [strays_of_lt _ _ hmn hm]⟩

/-! ## The other files -/

/-- What an operation on file `n` does to the disk leaves the other inodes and their blocks alone. -/
structure Spared (n : ℕ) (f g : Fs) : Prop where
  super : g.super = { f.super with freeBlocks := g.super.freeBlocks }
  inodes : SameOn f.disk g.disk (f.super.inodeStart * 4096) (f.super.inodeBlocks * 4096)
  blocks : ∀ m, m ≠ n → f.Live m → ∀ k, (f.inodeAt m).slot f.disk k ≠ 0 →
    SameOn f.disk g.disk ((f.inodeAt m).slot f.disk k * 4096) 4096

theorem Spared.slot (h : Spared n f g) (hm : m ≠ n) (hl : f.Live m) (k : ℕ) :
    (f.inodeAt m).slot g.disk k = (f.inodeAt m).slot f.disk k := by
  refine Inode.slot_same (fun hi => ?_) k
  have := h.blocks m hm hl 1036
  rw [Inode.slot_indirect] at this
  exact this hi

/-- `T` has the allocated inodes of `f`, and lost blocks behind them. -/
structure Holds (f : Fs) (T : ℕ → Inode) (last : ℕ) : Prop where
  sound : SoundFor f T
  table : ∀ m, f.Numbered m → T m = f.table m
  count_lt : f.super.inodeCount < last
  empty : ∀ m, last ≤ m → T m = {}

/-- No block is in two places of the allocated inodes, and every block in one is marked. -/
def Fs.Exclusive (f : Fs) : Prop := ∃ T last, Holds f T last

theorem Fs.Sound.exclusive (S : f.Sound) : f.Exclusive :=
  ⟨f.table, f.super.inodeCount + 1, S.sound, fun _ _ => rfl, Nat.lt_succ_self _,
    fun m hm => Fs.table_not_live (fun hl => by have := hl.1.2; omega)⟩

theorem Holds.live (H : Holds f T last) (hl : f.Live m) : T m = f.inodeAt m := by
  rw [H.table m hl.1, Fs.table_live hl]

theorem Holds.spared (H : Holds f T last) (hk : Kept T n f g) : Spared n f g where
  super := hk.super
  inodes := hk.inodes
  blocks := by
    intro m hm hl k hne
    rw [← H.live hl] at hne ⊢
    exact hk.blocks m hm k hne

/-- An operation on file `n` of `f` has come to `g`, with inode `i` in memory. -/
structure InWork (n : ℕ) (f g : Fs) (i : Inode) : Prop where
  held : ∃ T last, SoundFor g T ∧ T n = i ∧ (∀ m, f.Numbered m → m ≠ n → T m = f.table m) ∧
    f.super.inodeCount < last ∧ ∀ m, last ≤ m → T m = {}
  spared : Spared n f g
  packed : i.Packed
  type_eq : i.type = (f.inodeAt n).type

/-- The files that are not in `touched` are as they were. -/
structure Untouched (touched : ℕ → Prop) (f f' : Fs) : Prop where
  count : f'.super.inodeCount = f.super.inodeCount
  inodeAt : ∀ m, ¬touched m → f.Numbered m → f'.inodeAt m = f.inodeAt m
  read : ∀ m, ¬touched m → f.Live m → ∀ offset length, f'.fileRead m offset length = f.fileRead m offset length

namespace Untouched

variable {touched touched' : ℕ → Prop}

theorem refl (touched : ℕ → Prop) (f : Fs) : Untouched touched f f := ⟨rfl, fun _ _ _ => rfl, fun _ _ _ _ _ => rfl⟩

theorem numbered (h : Untouched touched f f') (m : ℕ) : f'.Numbered m ↔ f.Numbered m := by
  unfold Fs.Numbered
  rw [h.count]

theorem live (h : Untouched touched f f') (hm : ¬touched m) : f'.Live m ↔ f.Live m := by
  unfold Fs.Live
  rw [h.numbered m]
  exact and_congr_right (fun hn => by rw [h.inodeAt m hm hn])

theorem trans (h : Untouched touched f f') (h' : Untouched touched f' f'') : Untouched touched f f'' where
  count := h'.count.trans h.count
  inodeAt := fun m hm hn => (h'.inodeAt m hm ((h.numbered m).mpr hn)).trans (h.inodeAt m hm hn)
  read := fun m hm hl offset length =>
    (h'.read m hm ((h.live hm).mpr hl) offset length).trans (h.read m hm hl offset length)

theorem mono (h : Untouched touched f f') (ht : ∀ m, touched m → touched' m) : Untouched touched' f f' :=
  ⟨h.count, fun m hm => h.inodeAt m (fun hc => hm (ht m hc)), fun m hm => h.read m (fun hc => hm (ht m hc))⟩

end Untouched

theorem readLoop_congr (hs : ∀ k, i.slot g.disk k = i.slot f.disk k)
    (hb : ∀ k, i.slot f.disk k ≠ 0 → SameOn f.disk g.disk (i.slot f.disk k * 4096) 4096) (fuel pos length : ℕ) :
    g.readLoop i fuel pos length = f.readLoop i fuel pos length := by
  induction fuel generalizing pos length with
  | zero => rfl
  | succ fuel ih =>
    unfold Fs.readLoop
    split
    · rfl
    · dsimp only
      rw [ih, blockFor_read, blockFor_read, hs]
      congr 1
      refine List.map_congr_left (fun j hj => ?_)
      have hlt := List.mem_range.mp hj
      by_cases hk : pos / 4096 < 1036
      · rw [if_pos hk]
        by_cases hz : i.slot f.disk (pos / 4096) = 0
        · rw [if_pos hz, if_pos hz]
        · rw [if_neg hz, if_neg hz]
          exact hb _ hz _ (by omega) (by omega)
      · rw [if_neg hk, if_pos rfl, if_pos rfl]

theorem fileRead_congr (hn : f.Numbered m) (hn' : g.Numbered m) (hi : g.inodeAt m = f.inodeAt m)
    (hs : ∀ k, (f.inodeAt m).slot g.disk k = (f.inodeAt m).slot f.disk k)
    (hb : ∀ k, (f.inodeAt m).slot f.disk k ≠ 0 → SameOn f.disk g.disk ((f.inodeAt m).slot f.disk k * 4096) 4096)
    (offset length : ℕ) : g.fileRead m offset length = f.fileRead m offset length := by
  unfold Fs.fileRead
  rw [Fs.inodeRead_numbered hn, Fs.inodeRead_numbered hn', hi, Option.map_some, Option.map_some]
  simp only [readLoop_congr hs hb]

theorem table_congr (hn : f'.Numbered m ↔ f.Numbered m) (hi : f'.inodeAt m = f.inodeAt m) : f'.table m = f.table m := by
  have hlive : f'.Live m ↔ f.Live m := by
    unfold Fs.Live
    rw [hn, hi]
  by_cases hl : f.Live m
  · rw [Fs.table_live hl, Fs.table_live (hlive.mpr hl), hi]
  · rw [Fs.table_not_live hl, Fs.table_not_live (fun h => hl (hlive.mp h))]

theorem Spared.inodeAt (h : Spared n f g) (gm : Geometry f.super) (hm : f.Numbered m) : g.inodeAt m = f.inodeAt m := by
  refine Fs.inodeAt_congr (by rw [h.super]) (h.inodes.mono (Fs.inodeAddr_ge f m) ?_)
  have := Fs.inodeAddr_le gm hm
  rwa [Super.dataStart, Nat.add_mul] at this

theorem Spared.trans (h : Spared n f g) (h' : Spared n g f'') (gm : Geometry f.super) : Spared n f f'' where
  super := by
    rw [h'.super, h.super]
  inodes := by
    refine h.inodes.trans ?_
    have := h'.inodes
    rw [h.super] at this
    exact this
  blocks := by
    intro m hm hl k hne
    have hi := h.inodeAt gm hl.1
    have hl' : g.Live m := ⟨(numbered_of_super h.super).mpr hl.1, by rw [hi]; exact hl.2⟩
    refine (h.blocks m hm hl k hne).trans ?_
    have := h'.blocks m hm hl' k
    rw [hi, h.slot hm hl] at this
    exact this hne

/-- The inode of the file has not gone to the disk. -/
theorem Spared.untouched (h : Spared n f g) (gm : Geometry f.super) : Untouched (· = n) f g where
  count := by
    rw [h.super]
  inodeAt := fun m _ hn => h.inodeAt gm hn
  read := fun m hm hl => fileRead_congr hl.1 ((numbered_of_super h.super).mpr hl.1) (h.inodeAt gm hl.1) (h.slot hm hl)
    (h.blocks m hm hl)

/-- What stands after an inode was written to the disk. -/
structure Stamped (n : ℕ) (i : Inode) (f f' : Fs) : Prop where
  exclusive : f'.Exclusive
  untouched : Untouched (· = n) f f'
  inodeAt : f'.inodeAt n = i

/-- The inode goes to the disk, with the blocks it had in memory or without some of them. -/
theorem InWork.commit (h : InWork n f g i) (gm : Geometry f.super) (hn : f.Numbered n) (i' : Inode) (hp : i'.Packed)
    (hs : ∀ k, i'.slot g.disk k = i.slot g.disk k ∨ i'.slot g.disk k = 0) (ht : i'.type = typeFree → i' = {}) :
    Stamped n i' f (g.inodeWrite n i') := by
  obtain ⟨T, last, hsound, hself, htable, hcount, hempty⟩ := h.held
  have hsuper := h.spared.super
  have hnum : ∀ m, (g.inodeWrite n i').Numbered m ↔ f.Numbered m :=
    fun m => numbered_of_super (by rw [Fs.inodeWrite_super]; exact hsuper)
  have hgn : g.Numbered n := (numbered_of_super hsuper).mpr hn
  have hnlast : n < last := Nat.lt_of_le_of_lt hn.2 hcount
  have hi : (g.inodeWrite n i').inodeAt n = i' := Fs.inodeAt_inodeWrite hgn hp
  have hother : ∀ m, m ≠ n → f.Numbered m → (g.inodeWrite n i').inodeAt m = f.inodeAt m := by
    intro m hm hf
    rw [Fs.inodeAt_inodeWrite_ne hgn ((numbered_of_super hsuper).mpr hf) hm]
    exact h.spared.inodeAt gm hf
  have hblock : ∀ b, g.super.dataStart ≤ b → SameOn g.disk (g.inodeWrite n i').disk (b * 4096) 4096 :=
    fun b hb => Fs.inodeWrite_sameOn hsound.geometry hgn i' (Or.inr (Nat.mul_le_mul_right 4096 hb))
  have hlost := hsound.lose hempty hnlast (i := i') (by rwa [hself])
  generalize hT : strays T g.disk n last i' = T' at hlost
  have hslot : ∀ m k, (T' m).slot (g.inodeWrite n i').disk k = (T' m).slot g.disk k := by
    intro m k
    refine Inode.slot_same (fun hne => hblock _ ?_) k
    have := (hlost.slot_range (m := m) (k := 1036) (by rwa [Inode.slot_indirect])).1
    rwa [Inode.slot_indirect] at this
  have hmarks : ∀ c, (g.inodeWrite n i').bitmapTest c = g.bitmapTest c :=
    Fs.bitmapTest_congr (Fs.inodeWrite_bitmap g n i')
  refine ⟨⟨T', last + 1037, ⟨?_, ?_, ?_, ?_⟩, fun m hm => ?_, ?_, fun m hm => ?_⟩, ⟨?_, hother, fun m hm hl => ?_⟩, hi⟩
  · rw [Fs.inodeWrite_super]
    exact hlost.geometry
  · rw [Fs.inodeWrite_super]
    exact hlost.owns.congr (fun p => hslot p.1 p.2) (fun c _ => hmarks c)
  · rw [Fs.inodeWrite_super, clearCount_congr (fun c _ => hmarks c)]
    exact hlost.free_eq
  · refine hlost.synced.of_disk (Fs.inodeWrite_super g n i') (fun x hx => ?_)
    have := hlost.geometry.inodeStart_pos
    exact Fs.inodeWrite_sameOn hlost.geometry hgn i' (a := x) (k := 1) (Or.inl (by omega)) x (by omega) (by omega)
  · have hm' := (hnum m).mp hm
    subst hT
    by_cases hmn : m = n
    · subst hmn
      rw [strays_self]
      unfold Fs.table
      split
      · exact hi.symm
      · rename_i hnot
        by_cases hfree : i'.type = typeFree
        · exact ht hfree
        · exact absurd ⟨hm, by rwa [hi]⟩ hnot
    · rw [strays_of_lt _ _ hmn (Nat.lt_of_le_of_lt hm'.2 hcount), htable m hm' hmn]
      exact (table_congr (hnum m) (hother m hmn hm')).symm
  · rw [Fs.inodeWrite_super, hsuper]
    dsimp only
    omega
  · subst hT
    exact strays_empty T g.disk i' hnlast hm
  · rw [Fs.inodeWrite_super, hsuper]
  · have hsame : ∀ k, (f.inodeAt m).slot g.disk k ≠ 0 → SameOn g.disk (g.inodeWrite n i').disk
        ((f.inodeAt m).slot g.disk k * 4096) 4096 := by
      intro k hne
      have hTm : T m = f.inodeAt m := by rw [htable m hl.1 hm, Fs.table_live hl]
      rw [← hTm] at hne ⊢
      exact hblock _ (hsound.slot_range hne).1
    refine fileRead_congr hl.1 ((hnum m).mpr hl.1) (hother m hm hl.1) (fun k => ?_) (fun k hne => ?_)
    · rw [← h.spared.slot hm hl k]
      refine Inode.slot_same (fun hne => ?_) k
      have := hsame 1036
      rw [Inode.slot_indirect] at this
      exact this hne
    · refine (h.spared.blocks m hm hl k hne).trans ?_
      rw [← h.spared.slot hm hl k] at hne ⊢
      exact hsame k hne

/-! ## Writing -/

theorem Holds.inWork (H : Holds f T last) (hl : f.Live n) (hg : SoundFor g (Function.update T n i)) (hk : Kept T n f g)
    (hp : i.Packed) (ht : i.type = (f.inodeAt n).type) : InWork n f g i := by
  have hnlast : n < last := Nat.lt_of_le_of_lt hl.1.2 H.count_lt
  refine ⟨⟨_, last, hg, Function.update_self _ _ _, fun m hm hne => ?_, H.count_lt, fun m hm => ?_⟩, H.spared hk, hp, ht⟩
  · rw [Function.update_of_ne hne]
    exact H.table m hm
  · rw [Function.update_of_ne (by omega)]
    exact H.empty m hm

/-- The state of `sfs_file_write` for file `n` of `f`. -/
structure Overwriting (T : ℕ → Inode) (n : ℕ) (f : Fs) (w : Fs.WriteState) : Prop where
  sound : SoundFor w.fs (Function.update T n w.inode)
  kept : Kept T n f w.fs
  fields : w.inode = { T n with direct := w.inode.direct, indirect := w.inode.indirect }
  packed : (T n).Packed → w.inode.Packed
  changed : w.changed = false → w.inode = T n

theorem writeLoop_overwriting {w : Fs.WriteState} (h : Overwriting T n f w) (offset : ℕ) (data : List UInt8) (fuel : ℕ) :
    Overwriting T n f (Fs.writeLoop offset data fuel w) := by
  induction fuel generalizing w with
  | zero => exact h
  | succ fuel ih =>
    unfold Fs.writeLoop
    by_cases hlt : w.written < data.length
    · rw [if_pos hlt]
      dsimp only
      generalize u32 (offset + w.written) = pos
      have hr := blockFor_mapped h.sound n (pos / 4096)
      rw [Function.update_self] at hr
      generalize w.fs.blockFor w.inode (pos / 4096) true = r at hr ⊢
      have hsound := hr.sound
      have hfields := hr.fields
      have hpacked := hr.packed
      have hchanged := hr.changed
      rw [Function.update_idem] at hsound
      rw [Function.update_self] at hfields hpacked hchanged
      rw [h.fields] at hfields
      have hkept := h.kept.trans hr.kept.of_update
      have hsame : (w.changed || r.changed) = false → r.inode = T n := by
        intro hc
        obtain ⟨h₁, h₂⟩ := Bool.or_eq_false_iff.mp hc
        rw [hchanged h₂, h.changed h₁]
      by_cases h₀ : r.block = 0
      · rw [if_pos h₀]
        exact ⟨hsound, hkept, hfields, fun hp => hpacked (h.packed hp), hsame⟩
      · rw [if_neg h₀]
        have hindex : pos / 4096 < 1036 := by
          by_contra hge
          exact h₀ (hr.beyond (Nat.le_of_not_lt hge))
        have hself := hr.slot_self hindex
        generalize hchunk : min (4096 - pos % 4096) (data.length - w.written) = chunk
        have hfill := filled hsound hindex (by rwa [hself]) (show pos % 4096 + chunk ≤ 4096 by omega)
          (fun j => data.getD (w.written + j) 0)
        rw [hself] at hfill
        exact ih ⟨hfill.sound, hkept.trans hfill.kept, hfields, fun hp => hpacked (h.packed hp), hsame⟩
    · rw [if_neg hlt]
      exact h

/-- An operation on file `n` is over. -/
structure Reworked (n : ℕ) (f f' : Fs) : Prop where
  exclusive : f'.Exclusive
  untouched : Untouched (· = n) f f'
  type_eq : (f'.inodeAt n).type = (f.inodeAt n).type

theorem Reworked.live (h : Reworked n f f') (hl : f.Live n) : f'.Live n :=
  ⟨(h.untouched.numbered n).mpr hl.1, h.type_eq.trans_ne hl.2⟩

/-- The loop of `sfs_file_write` on an allocated inode. -/
theorem Holds.overwriting (H : Holds f T last) (hl : f.Live n) (offset : ℕ) (data : List UInt8) (fuel : ℕ) :
    Overwriting T n f (Fs.writeLoop offset data fuel ⟨f, f.inodeAt n, false, 0⟩) := by
  refine writeLoop_overwriting ?_ offset data fuel
  rw [← H.live hl]
  exact ⟨by rw [Function.update_eq_self]; exact H.sound, Kept.refl _ _ _, rfl, id, fun _ => rfl⟩

/-- `sfs_file_write` at any offset. -/
theorem Fs.Exclusive.fileWrite (E : f.Exclusive) (hl : f.Live n) (offset : ℕ) (data : List UInt8) :
    Reworked n f (f.fileWrite n offset data).1 := by
  obtain ⟨T, last, H⟩ := E
  have hTn := H.live hl
  have hw := H.overwriting hl offset data data.length
  unfold Fs.fileWrite
  rw [Fs.inodeRead_numbered hl.1]
  dsimp only
  generalize Fs.writeLoop offset data data.length ⟨f, f.inodeAt n, false, 0⟩ = w at hw ⊢
  have hfields := hw.fields
  have hpacked := hw.packed
  have hchanged := hw.changed
  rw [hTn] at hfields hpacked hchanged
  have hp := hpacked (Fs.inodeAt_packed f n)
  have htype : w.inode.type = (f.inodeAt n).type := by rw [hfields]
  have hin := H.inWork hl hw.sound hw.kept hp htype
  generalize hnew : (if decide (w.inode.size < u32 (offset + w.written)) = true then u32 (offset + w.written)
    else w.inode.size) = size
  have hsize : size < 4294967296 := by
    have h₁ := hp.size_lt
    have h₂ : u32 (offset + w.written) < 4294967296 := Nat.mod_lt _ (by decide)
    split at hnew <;> omega
  split
  · have hc := hin.commit H.sound.geometry hl.1 { w.inode with size := size, modified := u32 f.clock }
      { hp with size_lt := hsize, modified_lt := Nat.mod_lt _ (by decide) } (fun _ => Or.inl rfl)
      (fun ht => absurd (htype.symm.trans ht) hl.2)
    exact ⟨hc.exclusive, hc.untouched, by rw [hc.inodeAt]; exact htype⟩
  · rename_i hcond
    simp only [Bool.or_eq_true, not_or, Bool.not_eq_true] at hcond
    have hsound := hw.sound
    rw [hchanged hcond.1.1, ← hTn, Function.update_eq_self] at hsound
    have hsp := H.spared hw.kept
    have hun := hsp.untouched H.sound.geometry
    refine ⟨⟨T, last, hsound, fun m hm => ?_, by rw [hun.count]; exact H.count_lt, H.empty⟩, hun,
      by rw [hsp.inodeAt H.sound.geometry hl.1]⟩
    have hm' := (hun.numbered m).mp hm
    rw [H.table m hm', table_congr (hun.numbered m) (hsp.inodeAt H.sound.geometry hm')]

/-! ## Cutting and freeing -/

/-- The table of a file is given back while it still has entries. -/
theorem InWork.dropTable (h : InWork n f g i) (gm : Geometry f.super) (hn : f.Numbered n) (hi : i.indirect ≠ 0) :
    InWork n f (g.freeBlock i.indirect) { i with indirect := 0 } := by
  obtain ⟨T, last, S, hself, htable, hcount, hempty⟩ := h.held
  have hnlast : n < last := Nat.lt_of_le_of_lt hn.2 hcount
  have hlost := S.lose hempty hnlast (i := { i with indirect := 0 }) (fun k => by
    rw [hself]
    rcases Nat.lt_or_ge k 12 with h₁ | h₁
    · exact Or.inl (by rw [Inode.slot_direct h₁, Inode.slot_direct h₁])
    rcases Nat.lt_or_ge k 1036 with h₂ | h₂
    · exact Or.inr (Inode.slot_no_table h₁ h₂ rfl)
    rcases Nat.eq_or_lt_of_le h₂ with rfl | h₃
    · exact Or.inr Inode.slot_indirect
    · exact Or.inr (Inode.slot_beyond h₃))
  generalize hV : strays T g.disk n last { i with indirect := 0 } = V at hlost
  -- the block of the table is a lost one now, and that one is freed
  have hstray : V (last + 1036) = strayInode i.indirect := by
    rw [← hV, strays_of_le T g.disk _ hnlast (by omega), Nat.add_sub_cancel_left, if_pos Inode.slot_indirect, hself,
      Inode.slot_indirect]
  have hslot : ∀ (d : Memory) (k : ℕ), (V (last + 1036)).slot d k = if k = 0 then i.indirect else 0 := by
    intro d k
    rw [hstray, slot_strayInode]
  have hblock : (V (last + 1036)).slot g.disk 0 = i.indirect := (hslot _ _).trans (if_pos rfl)
  have hg := hlost.freeBlock (n := last + 1036) (k := 0) (by rwa [hblock])
  rw [hblock] at hg
  have hrel := hlost.release (i := {}) hg (hlost.given_kept hg (last + 1036)) rfl rfl (hg.synced S.synced) hblock hi
    (Inode.slot_empty _ _) (fun k hk => by rw [Inode.slot_empty, hslot, if_neg hk])
  have hk := S.given_kept hg n
  refine ⟨⟨_, last + 1037, hrel, ?_, fun m hm hne => ?_, by omega, fun m hm => ?_⟩, ?_, h.packed.setIndirect (by decide), h.type_eq⟩
  · rw [Function.update_of_ne (by omega), ← hV, strays_self]
  · have hlt : m < last := Nat.lt_of_le_of_lt hm.2 hcount
    rw [Function.update_of_ne (by omega), ← hV, strays_of_lt _ _ hne hlt]
    exact htable m hm hne
  · rw [Function.update_of_ne (by omega), ← hV]
    exact strays_empty T g.disk _ hnlast hm
  · refine h.spared.trans ⟨hk.super, hk.inodes, fun m hm hl k hne => ?_⟩ gm
    have hf : f.Numbered m := (numbered_of_super h.spared.super).mp hl.1
    have hTm : T m = g.inodeAt m := by
      rw [htable m hf hm, ← table_congr (numbered_of_super h.spared.super) (h.spared.inodeAt gm hf), Fs.table_live hl]
    rw [← hTm] at hne ⊢
    exact hk.blocks m hm k hne

/-- `release_blocks` from any index on. -/
theorem Holds.releaseBlocks (H : Holds f T last) (hl : f.Live n) (fromIndex : ℕ) :
    InWork n f (f.releaseBlocks (f.inodeAt n) fromIndex).1 (f.releaseBlocks (f.inodeAt n) fromIndex).2 := by
  have hTn := H.live hl
  unfold Fs.releaseBlocks
  dsimp only
  have hloop := releaseLoop_released H.sound n (u32 ((f.inodeAt n).size + 4095) / 4096 - fromIndex) fromIndex
  rw [hTn] at hloop
  generalize Fs.releaseLoop (u32 ((f.inodeAt n).size + 4095) / 4096 - fromIndex) fromIndex (f, f.inodeAt n) = r at hloop ⊢
  have hfields := hloop.fields
  have hpacked := hloop.packed
  rw [hTn] at hfields hpacked
  have hin := H.inWork hl hloop.sound hloop.kept (hpacked (Fs.inodeAt_packed f n)) (by rw [hfields])
  split
  · rename_i hc
    exact hin.dropTable H.sound.geometry hl.1 hc.2
  · exact hin

/-- `sfs_file_truncate_inode` to any length. -/
theorem Fs.Exclusive.fileTruncate (E : f.Exclusive) (hl : f.Live n) {length : ℕ} (hlen : length < 4294967296) :
    Reworked n f (f.fileTruncate n length).1 := by
  obtain ⟨T, last, H⟩ := E
  have hTn := H.live hl
  unfold Fs.fileTruncate
  rw [Fs.inodeRead_numbered hl.1]
  dsimp only
  have hin : InWork n f
      (if length < (f.inodeAt n).size then f.releaseBlocks (f.inodeAt n) (u32 (length + 4095) / 4096) else (f, f.inodeAt n)).1
      (if length < (f.inodeAt n).size then f.releaseBlocks (f.inodeAt n) (u32 (length + 4095) / 4096) else (f, f.inodeAt n)).2 := by
    split
    · exact H.releaseBlocks hl _
    · refine H.inWork hl ?_ (Kept.refl _ _ _) (Fs.inodeAt_packed f n) rfl
      dsimp only
      rw [← hTn, Function.update_eq_self]
      exact H.sound
  generalize (if length < (f.inodeAt n).size then f.releaseBlocks (f.inodeAt n) (u32 (length + 4095) / 4096)
    else (f, f.inodeAt n)) = r at hin ⊢
  have hc := hin.commit H.sound.geometry hl.1 { r.2 with size := length, modified := u32 f.clock }
    { hin.packed with size_lt := hlen, modified_lt := Nat.mod_lt _ (by decide) } (fun _ => Or.inl rfl)
    (fun ht => absurd (hin.type_eq.symm.trans ht) hl.2)
  exact ⟨hc.exclusive, hc.untouched, by rw [hc.inodeAt]; exact hin.type_eq⟩

theorem Fs.Exclusive.setUsed (E : f.Exclusive) (used : ℕ) : Fs.Exclusive { f with inodesUsed := used } := by
  obtain ⟨T, last, H⟩ := E
  exact ⟨T, last, ⟨H.sound.geometry, H.sound.owns, H.sound.free_eq, H.sound.synced⟩, H.table, H.count_lt, H.empty⟩

theorem Untouched.setUsed {touched : ℕ → Prop} (h : Untouched touched f f') (used : ℕ) :
    Untouched touched f { f' with inodesUsed := used } := by
  refine ⟨h.count, h.inodeAt, fun m hm hl offset length => (?_ : _ = f'.fileRead m offset length).trans (h.read m hm hl offset length)⟩
  have hn : f'.Numbered m := (h.numbered m).mpr hl.1
  exact fileRead_congr (f := f') (g := { f' with inodesUsed := used }) hn hn rfl (fun _ => rfl) (fun _ _ => SameOn.refl _ _ _) offset length

/-- `alloc_inode`. -/
theorem Fs.Exclusive.allocInode (E : f.Exclusive) {type : ℕ} (ht : type ≠ typeFree) (hlt : type < 4294967296) :
    f.allocInode type = (f, 0) ∨ ∃ n, (f.allocInode type).2 = n ∧ f.Numbered n ∧ ¬f.Live n ∧
      (f.allocInode type).1.Live n ∧ (f.allocInode type).1.Exclusive ∧ Untouched (· = n) f (f.allocInode type).1 := by
  obtain ⟨T, last, H⟩ := E
  unfold Fs.allocInode
  cases hfind : (List.range f.super.inodeCount).find? (fun i => (f.inodeAt (i + 1)).type == typeFree) with
  | none => exact Or.inl rfl
  | some k =>
    have hk := List.mem_range.mp (List.mem_of_find?_eq_some hfind)
    have hfree : (f.inodeAt (k + 1)).type = typeFree := by simpa using List.find?_some hfind
    have hnum : f.Numbered (k + 1) := ⟨by omega, by omega⟩
    have hdead : ¬f.Live (k + 1) := fun h => h.2 hfree
    have hin : InWork (k + 1) f f (T (k + 1)) := by
      refine ⟨⟨T, last, H.sound, rfl, fun m hm _ => H.table m hm, H.count_lt, H.empty⟩, H.spared (Kept.refl _ _ _), ?_, ?_⟩
      · rw [H.table _ hnum, Fs.table_not_live hdead]
        exact Inode.packed_empty
      · rw [H.table _ hnum, Fs.table_not_live hdead, hfree]
        rfl
    have hc := hin.commit H.sound.geometry hnum
      { type := type, links := 1, created := u32 f.clock, modified := u32 f.clock }
      { Inode.packed_empty with
        type_lt := hlt
        links_lt := Nat.lt_of_sub_eq_succ rfl
        created_lt := Nat.mod_lt _ (by decide)
        modified_lt := Nat.mod_lt _ (by decide) }
      (fun j => Or.inr (Inode.slot_empty f.disk j)) (fun h => absurd h ht)
    have hlive : (f.inodeWrite (k + 1) { type := type, links := 1, created := u32 f.clock, modified := u32 f.clock }).Live (k + 1) :=
      ⟨(hc.untouched.numbered _).mpr hnum, by rw [hc.inodeAt]; exact ht⟩
    exact Or.inr ⟨k + 1, rfl, hnum, hdead, hlive, hc.exclusive.setUsed _, hc.untouched.setUsed _⟩

/-- The end of `op_destroy`. -/
theorem Fs.Exclusive.freeInode (E : f.Exclusive) (hl : f.Live n) (used : ℕ) :
    Fs.Exclusive { ((f.releaseBlocks (f.inodeAt n) 0).1).inodeWrite n {} with inodesUsed := used } ∧
      Untouched (· = n) f { ((f.releaseBlocks (f.inodeAt n) 0).1).inodeWrite n {} with inodesUsed := used } := by
  obtain ⟨T, last, H⟩ := E
  have hc := (H.releaseBlocks hl 0).commit H.sound.geometry hl.1 {} Inode.packed_empty
    (fun k => Or.inr (Inode.slot_empty _ k)) (fun _ => rfl)
  exact ⟨hc.exclusive.setUsed _, hc.untouched.setUsed _⟩

/-! ## Directories -/

variable {dir parent number : ℕ} {name : List UInt8}

theorem Reworked.refl (E : f.Exclusive) (n : ℕ) : Reworked n f f := ⟨E, Untouched.refl _ _, rfl⟩

theorem Fs.Exclusive.dirAdd (E : f.Exclusive) (hl : f.Live dir) (name : List UInt8) (child : ℕ) :
    Reworked dir f (f.dirAdd dir name child).1 := by
  unfold Fs.dirAdd
  split
  · exact .refl E dir
  · rw [Fs.inodeRead_numbered hl.1]
    exact E.fileWrite hl _ _

theorem Fs.Exclusive.dirRemove (E : f.Exclusive) (hl : f.Live dir) (name : List UInt8) :
    Reworked dir f (f.dirRemove dir name) := by
  unfold Fs.dirRemove
  rw [Fs.inodeRead_numbered hl.1]
  dsimp only
  split
  · exact .refl E dir
  · exact E.fileWrite hl _ _

/-- What `op_create` leaves, successful or not. -/
structure MadeInode (parent : ℕ) (f : Fs) (r : Fs × Option ℕ) : Prop where
  exclusive : r.1.Exclusive
  untouched : Untouched (fun x => x = parent ∨ ¬f.Live x) f r.1
  parent_live : r.1.Live parent
  number : ∀ number, r.2 = some number → ¬f.Live number ∧ r.1.Live number

theorem Fs.Exclusive.opCreate (E : f.Exclusive) (hl : f.Live parent) (name : List UInt8) (isDir : Bool) :
    MadeInode parent f (f.opCreate parent name isDir) := by
  have hne : (if isDir then typeDir else typeFile) ≠ typeFree := by cases isDir <;> decide
  have hlt : (if isDir then typeDir else typeFile) < 4294967296 := by cases isDir <;> decide
  unfold Fs.opCreate
  dsimp only
  rcases E.allocInode hne hlt with h | ⟨number, hnumber, hnum, hdead, hlive, hE, hun⟩
  · rw [h, if_pos rfl]
    exact ⟨E, Untouched.refl _ _, hl, fun _ hc => by cases hc⟩
  · generalize f.allocInode (if isDir then typeDir else typeFile) = r at hnumber hlive hE hun ⊢
    have h₀ : r.2 ≠ 0 := by
      rw [hnumber]
      have := hnum.1
      omega
    have hpn : parent ≠ number := fun he => hdead (he ▸ hl)
    have hpl : r.1.Live parent := (hun.live hpn).mpr hl
    have hadd := hE.dirAdd hpl name r.2
    rw [if_neg h₀]
    generalize r.1.dirAdd parent name r.2 = a at hadd ⊢
    refine ⟨hadd.exclusive, ?_, hadd.live hpl, fun x hx => ?_⟩
    · exact (hun.mono (fun x hx => Or.inr (hx ▸ hdead))).trans (hadd.untouched.mono (fun x hx => Or.inl hx))
    · dsimp only at hx ⊢
      split at hx
      · obtain rfl : number = x := hnumber.symm.trans (Option.some.inj hx)
        exact ⟨hdead, (hadd.untouched.live (Ne.symm hpn)).mpr hlive⟩
      · cases hx

/-- `op_destroy`. -/
theorem Fs.Exclusive.opDestroy (E : f.Exclusive) (hp : f.Live parent) (hl : f.Live number) (hne : parent ≠ number)
    (name : List UInt8) : (f.opDestroy parent name number).Exclusive ∧
      Untouched (fun x => x = number ∨ x = parent) f (f.opDestroy parent name number) ∧
      (f.opDestroy parent name number).Live parent := by
  have h₁ := E.dirRemove hp name
  have hl₁ : (f.dirRemove parent name).Live number := (h₁.untouched.live (Ne.symm hne)).mpr hl
  unfold Fs.opDestroy
  rw [if_neg (by have := hl.1.1; omega)]
  dsimp only
  rw [Fs.inodeRead_numbered hl₁.1]
  dsimp only
  obtain ⟨hE, hun⟩ := h₁.exclusive.freeInode hl₁
    ((((f.dirRemove parent name).releaseBlocks ((f.dirRemove parent name).inodeAt number) 0).1.inodeWrite number {}).inodesUsed - 1)
  exact ⟨hE, (h₁.untouched.mono (fun _ hx => Or.inr hx)).trans (hun.mono (fun _ hx => Or.inl hx)),
    (hun.live hne).mpr (h₁.live hp)⟩

end SifarOS.SifarFs
