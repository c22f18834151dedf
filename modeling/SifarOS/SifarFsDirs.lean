import SifarOS.SifarFsFiles

/-! # Directories of SifarFS

A directory is a file of entries of 64 bytes. Adding and removing an entry replaces one of them, or
puts one at the end. -/
namespace SifarOS.SifarFs
open ByteMemory BlockOwnership

variable {n dir child : ℕ} {f f' : Fs} {bytes name : List UInt8}

/-! ## Entries in bytes -/

/-- The entries in the bytes of a directory. -/
def direntsOf (bytes : List UInt8) : List Fs.Dirent :=
  (List.range ((bytes.length + 63) / 64)).map (fun i => Fs.decodeDirent ((bytes.drop (64 * i)).take 64))

@[simp] theorem length_direntsOf (bytes : List UInt8) : (direntsOf bytes).length = (bytes.length + 63) / 64 := by
  unfold direntsOf
  rw [List.length_map, List.length_range]

theorem entries_eq (S : f.Sound) (hl : f.Live dir) : f.entries dir = direntsOf (f.bytes dir) := by
  have hcov := (Inode.Covered.of_live S hl).size_le
  unfold Fs.entries direntsOf
  rw [Fs.length_bytes]
  refine List.map_congr_left (fun i hi => ?_)
  have hi' := List.mem_range.mp hi
  rw [Fs.fileRead_eq hl.1 hcov (by omega), Option.getD_some]

theorem direntsOf_getElem {i : ℕ} (h : i < (direntsOf bytes).length) :
    (direntsOf bytes)[i] = Fs.decodeDirent ((bytes.drop (64 * i)).take 64) := by
  simp [direntsOf]

theorem splice_record_self {record : List UInt8} (hr : record.length = 64) {i : ℕ} (hi : 64 * i ≤ bytes.length) :
    ((splice bytes (64 * i) record).drop (64 * i)).take 64 = record := by
  unfold splice
  rw [List.append_assoc, List.drop_append_of_le_length (by rw [List.length_take]; omega),
    List.drop_eq_nil_of_le (by rw [List.length_take]; omega), List.nil_append, List.take_append_of_le_length (by omega),
    List.take_of_length_le (by omega)]

theorem splice_record_ne {record : List UInt8} (hr : record.length = 64) {i j : ℕ} (hi : 64 * i ≤ bytes.length)
    (hne : j ≠ i) : ((splice bytes (64 * i) record).drop (64 * j)).take 64 = (bytes.drop (64 * j)).take 64 := by
  unfold splice
  refine List.ext_getElem? (fun k => ?_)
  simp only [List.getElem?_take, List.getElem?_drop]
  split
  · rename_i hk
    rw [List.append_assoc]
    rcases Nat.lt_or_ge (64 * j + k) (64 * i) with hlt | hge
    · rw [List.getElem?_append_left (by rw [List.length_take]; omega), List.getElem?_take_of_lt hlt]
    · rw [List.getElem?_append_right (by rw [List.length_take]; omega), List.length_take,
        List.getElem?_append_right (by omega), List.getElem?_drop]
      congr 1
      omega
  · rfl

/-- One entry is replaced. -/
theorem direntsOf_splice_set (h64 : bytes.length % 64 = 0) {record : List UInt8} (hr : record.length = 64) {i : ℕ}
    (hi : i < (direntsOf bytes).length) :
    direntsOf (splice bytes (64 * i) record) = (direntsOf bytes).set i (Fs.decodeDirent record) := by
  rw [length_direntsOf] at hi
  have hlen := length_splice (show 64 * i ≤ bytes.length by omega) record
  refine List.ext_getElem ?_ (fun j h₁ h₂ => ?_)
  · rw [List.length_set, length_direntsOf, length_direntsOf, hlen]
    omega
  · rw [direntsOf_getElem, List.getElem_set]
    split
    · rename_i he
      subst he
      rw [splice_record_self hr (by omega)]
    · rename_i hne
      rw [splice_record_ne hr (by omega) (Ne.symm hne), direntsOf_getElem]

/-- One entry is put at the end. -/
theorem direntsOf_splice_end (h64 : bytes.length % 64 = 0) {record : List UInt8} (hr : record.length = 64) :
    direntsOf (splice bytes bytes.length record) = direntsOf bytes ++ [Fs.decodeDirent record] := by
  obtain ⟨i, hi⟩ : ∃ i, bytes.length = 64 * i := ⟨bytes.length / 64, by omega⟩
  have hlen := length_splice (Nat.le_refl bytes.length) record
  have hcount : (direntsOf bytes).length = i := by
    rw [length_direntsOf]
    omega
  refine List.ext_getElem ?_ (fun j h₁ h₂ => ?_)
  · rw [List.length_append, length_direntsOf, length_direntsOf, hlen, List.length_singleton]
    omega
  · rw [direntsOf_getElem, List.getElem_append]
    split
    · rename_i hj
      rw [hi, splice_record_ne hr (by omega) (by omega), direntsOf_getElem]
    · rename_i hj
      have hji : j = i := by
        rw [List.length_append, List.length_singleton] at h₂
        omega
      subst hji
      rw [hi, splice_record_self hr (by omega)]
      simp [hcount]

theorem length_encodeDirent (child : ℕ) (h : name.length ≤ 56) : (Fs.encodeDirent child name).length = 64 := by
  unfold Fs.encodeDirent
  simp only [List.length_append, List.length_map, List.length_range, List.length_replicate]
  omega

/-- An entry is read as it was written. -/
theorem decode_encodeDirent (hc : child < 4294967296) (h : name.length ≤ 56) (hz : 0 ∉ name) :
    Fs.decodeDirent (Fs.encodeDirent child name) = ⟨child, name⟩ := by
  unfold Fs.decodeDirent
  congr 1
  · refine (load32_of_bytes (w := child) (fun j hj => ?_)).trans (Nat.mod_eq_of_lt hc)
    unfold Fs.encodeDirent
    rw [Nat.zero_add, List.append_assoc, List.append_assoc, List.getD_append _ _ _ _ (by simpa using hj),
      List.getD_eq_getElem _ _ (by simpa using hj), List.getElem_map, List.getElem_range]
  · have hdrop : (Fs.encodeDirent child name).drop 8 = name ++ List.replicate (56 - name.length) 0 := by
      unfold Fs.encodeDirent
      rw [List.append_assoc]
      exact List.drop_left' (by simp)
    rw [hdrop, List.take_of_length_le (by simp; omega)]
    have hall : ∀ b ∈ name, decide (b ≠ 0) = true := by
      intro b hb
      exact decide_eq_true (fun he => hz (he ▸ hb))
    rw [List.takeWhile_append_of_pos hall]
    cases hk : 56 - name.length with
    | zero => simp
    | succ k => simp [List.replicate_succ]

theorem decode_zeros : Fs.decodeDirent (List.replicate 64 0) = ⟨0, []⟩ := by decide

/-! ## Writing an entry -/

/-- A write that fits into one block is done or not done. -/
theorem fileWrite_single (hn : f.Numbered n) {offset : ℕ} {data : List UInt8} (hlen : 0 < data.length)
    (hfit : offset % 4096 + data.length ≤ 4096) (ho : offset < 4294967296) :
    (f.fileWrite n offset data).2 =
      if (f.blockFor (f.inodeAt n) (offset / 4096) true).block = 0 then 0 else (data.length : ℤ) := by
  have hloop : (Fs.writeLoop offset data data.length ⟨f, f.inodeAt n, false, 0⟩).written =
      if (f.blockFor (f.inodeAt n) (offset / 4096) true).block = 0 then 0 else data.length := by
    obtain ⟨fuel, hfuel⟩ : ∃ fuel, data.length = fuel + 1 := ⟨data.length - 1, by omega⟩
    have hmin : min (4096 - offset % 4096) data.length = data.length := by omega
    conv_lhs => rw [hfuel]
    unfold Fs.writeLoop
    rw [if_pos hlen]
    dsimp only
    rw [Nat.add_zero, u32_of_lt ho, Nat.sub_zero, hmin]
    split
    · rfl
    · -- the next turn finds nothing left to write
      cases fuel with
      | zero => exact Nat.zero_add _
      | succ fuel =>
        unfold Fs.writeLoop
        dsimp only
        rw [if_neg (by omega)]
        exact Nat.zero_add _
  unfold Fs.fileWrite
  rw [Fs.inodeRead_numbered hn]
  dsimp only
  rw [hloop]
  split <;> rfl

/-- A block that is there is found. -/
theorem blockFor_present {i : Inode} {index : ℕ} (hi : index < 1036) (h : i.slot f.disk index ≠ 0) :
    (f.blockFor i index true).block = i.slot f.disk index := by
  unfold Fs.blockFor
  by_cases hd : index < 12
  · rw [Inode.slot_direct hd] at h ⊢
    rw [if_pos hd, if_neg (fun hc => h hc.1)]
  · rw [if_neg hd, if_neg (by omega)]
    by_cases h₀ : i.indirect = 0
    · exact absurd (Inode.slot_no_table (by omega) hi h₀) h
    · rw [Inode.slot_table (by omega) hi h₀] at h ⊢
      rw [if_neg h₀]
      unfold Fs.tableFor
      dsimp only
      rw [if_neg (fun hc => h hc.1)]

theorem exists_clear {total : ℕ} {used : ℕ → Bool} (h : 1 ≤ clearCount total used) : ∃ b, b < total ∧ used b = false := by
  obtain ⟨b, hb⟩ := List.exists_mem_of_length_pos h
  rw [List.mem_filter, List.mem_range] at hb
  exact ⟨b, hb.1, by simpa using hb.2⟩

/-- Where a block is free, one is taken. -/
theorem SoundFor.allocBlock_free {T : ℕ → Inode} (S : SoundFor f T) (h : 1 ≤ f.super.freeBlocks) :
    f.Taken f.allocBlock.1 f.allocBlock.2 := by
  rcases S.allocBlock with ha | ha
  · exfalso
    rw [S.free_eq] at h
    obtain ⟨b, hb, hclear⟩ := exists_clear h
    unfold Fs.allocBlock at ha
    cases hfind : (List.range f.super.totalBlocks).find? (fun block => !f.bitmapTest block) with
    | none =>
      have := List.find?_eq_none.mp hfind b (List.mem_range.mpr hb)
      simp [hclear] at this
    | some c =>
      rw [hfind] at ha
      have hc : c = 0 := congrArg Prod.snd ha
      have hcl : f.bitmapTest c = false := by simpa using List.find?_some hfind
      rw [hc, S.meta_used S.geometry.dataStart_pos] at hcl
      cases hcl
  · exact ha

/-- With blocks enough `block_for` finds or makes a block. -/
theorem blockFor_ne_zero {T : ℕ → Inode} (S : SoundFor f T) {n index : ℕ} (hi : index < 1036)
    (h : (T n).slot f.disk index ≠ 0 ∨ (if index < 12 ∨ (T n).indirect ≠ 0 then 1 else 2) ≤ f.super.freeBlocks) :
    (f.blockFor (T n) index true).block ≠ 0 := by
  by_cases hs : (T n).slot f.disk index = 0
  · replace h := h.resolve_left (fun hc => hc hs)
    have hfree : 1 ≤ f.super.freeBlocks := by
      split at h <;> omega
    have ha := S.allocBlock_free hfree
    unfold Fs.blockFor
    by_cases hd : index < 12
    · rw [Inode.slot_direct hd] at hs
      rw [if_pos hd, if_pos ⟨hs, rfl⟩]
      exact S.taken_pos ha
    rw [if_neg hd, if_neg (by omega)]
    by_cases h₀ : (T n).indirect = 0
    · rw [if_neg (by simp [hd, h₀])] at h
      rw [if_pos h₀, if_neg (by decide)]
      dsimp only
      rw [if_neg (S.taken_pos ha)]
      have ht := tabled S ha h₀
      have hfree' : 1 ≤ f.allocBlock.1.super.freeBlocks := by
        rw [ha.super]
        show 1 ≤ f.super.freeBlocks - 1
        omega
      have hslot := ht.slot index hi
      rw [Inode.slot_table (by omega) hi (S.taken_pos ha), hs] at hslot
      unfold Fs.tableFor
      dsimp only
      rw [if_pos ⟨hslot, rfl⟩, if_neg (ht.sound.taken_pos (ht.sound.allocBlock_free hfree'))]
      exact ht.sound.taken_pos (ht.sound.allocBlock_free hfree')
    · rw [Inode.slot_table (by omega) hi h₀] at hs
      rw [if_neg h₀]
      unfold Fs.tableFor
      dsimp only
      rw [if_pos ⟨hs, rfl⟩, if_neg (S.taken_pos ha)]
      exact S.taken_pos ha
  · rw [blockFor_present hi hs]
    exact hs

/-- Where `dir_add` puts the next entry of a directory. -/
def Fs.entryOffset (f : Fs) (dir : ℕ) : ℕ :=
  match (f.entries dir).findIdx? (fun e => e.inode == 0) with
  | some i => 64 * i
  | none => (f.inodeAt dir).size

theorem entryOffset_le (f : Fs) (dir : ℕ) : f.entryOffset dir ≤ (f.inodeAt dir).size := by
  unfold Fs.entryOffset
  split
  · rename_i i hi
    have hlt : i < (f.entries dir).length := (List.findIdx?_eq_some_iff_getElem.mp hi).1
    unfold Fs.entries at hlt
    rw [List.length_map, List.length_range] at hlt
    omega
  · exact Nat.le_refl _

theorem dirAdd_eq (hn : f.Numbered dir) (hname : name.length < 56) (child : ℕ) :
    f.dirAdd dir name child = ((f.fileWrite dir (f.entryOffset dir) (Fs.encodeDirent child name)).1,
      decide (0 < (f.fileWrite dir (f.entryOffset dir) (Fs.encodeDirent child name)).2)) := by
  unfold Fs.dirAdd
  rw [if_neg (by omega), Fs.inodeRead_numbered hn]
  rfl

/-- What `dir_add` did to the entries of the directory. -/
inductive EntryAdded (e : Fs.Dirent) (es : List Fs.Dirent) : List Fs.Dirent → Prop
  | hole {i : ℕ} (hi : i < es.length) (h₀ : es[i].inode = 0) : EntryAdded e es (es.set i e)
  | last : EntryAdded e es (es ++ [e])

theorem Written.live {offset written : ℕ} {data : List UInt8} (h : Written n f offset data written f') (hl : f.Live n) :
    f'.Live n :=
  ⟨(h.changes.numbered n).mpr hl.1, h.kind.1.trans_ne hl.2⟩

/-- An entry is written as a whole or not at all. -/
theorem Fs.Sound.writeRecord (S : f.Sound) (hl : f.Live dir) {offset : ℕ} (h64 : offset % 64 = 0)
    (ho : offset ≤ (f.inodeAt dir).size) {record : List UInt8} (hr : record.length = 64) :
    ∃ written : ℕ, (f.fileWrite dir offset record).2 = written ∧
      Written dir f offset record written (f.fileWrite dir offset record).1 ∧
      written = if (f.blockFor (f.inodeAt dir) (offset / 4096) true).block = 0 then 0 else 64 := by
  have hcov := (Inode.Covered.of_live S hl).size_le
  obtain ⟨written, hres, hw⟩ := S.fileWrite hl ho record
  refine ⟨written, hres, hw, ?_⟩
  rw [fileWrite_single hl.1 (by omega) (by omega) (by omega), hr] at hres
  split at hres <;> rename_i hb
  · rw [if_pos hb]
    omega
  · rw [if_neg hb]
    omega

/-- Nothing was written. -/
theorem Written.none {offset : ℕ} {data : List UInt8} (h : Written n f offset data 0 f') : f'.bytes n = f.bytes n := by
  rw [h.bytes, splice, List.take_zero, List.append_nil, List.length_nil, Nat.add_zero, List.take_append_drop]

/-- The whole entry was written. -/
theorem Written.record {offset : ℕ} {record : List UInt8} (h : Written n f offset record 64 f') (hr : record.length = 64) :
    f'.bytes n = splice (f.bytes n) offset record := by
  rw [h.bytes, List.take_of_length_le (by omega)]

theorem entryOffset_mod (h64 : (f.inodeAt dir).size % 64 = 0) : f.entryOffset dir % 64 = 0 := by
  unfold Fs.entryOffset
  split <;> omega

/-- There is room for an entry: its block is there, or there are blocks for it and for the table it
may need. -/
def Fs.HasRoom (f : Fs) (dir : ℕ) : Prop :=
  f.entryOffset dir / 4096 < 1036 ∧
    ((f.inodeAt dir).slot f.disk (f.entryOffset dir / 4096) ≠ 0 ∨
      (if f.entryOffset dir / 4096 < 12 ∨ (f.inodeAt dir).indirect ≠ 0 then 1 else 2) ≤ f.super.freeBlocks)

/-- What `dir_add` leaves. -/
structure DirAdded (dir : ℕ) (e : Fs.Dirent) (f : Fs) (r : Fs × Bool) : Prop where
  sound : r.1.Sound
  changes : Changes (· = dir) f r.1
  kind : SameKind (f.inodeAt dir) (r.1.inodeAt dir)
  aligned : (r.1.inodeAt dir).size % 64 = 0
  added : r.2 = true → EntryAdded e (f.entries dir) (r.1.entries dir)
  failed : r.2 = false → r.1.bytes dir = f.bytes dir
  room : f.HasRoom dir → r.2 = true

theorem Fs.Sound.dirAdd (S : f.Sound) (hl : f.Live dir) (h64 : (f.inodeAt dir).size % 64 = 0)
    (hname : name.length < 56) (hz : 0 ∉ name) (hc : child < 4294967296) :
    DirAdded dir ⟨child, name⟩ f (f.dirAdd dir name child) := by
  have henc := length_encodeDirent child (show name.length ≤ 56 by omega)
  obtain ⟨written, hres, hw, hval⟩ := S.writeRecord hl (entryOffset_mod h64) (entryOffset_le f dir) henc
  rw [dirAdd_eq hl.1 hname]
  generalize f.fileWrite dir (f.entryOffset dir) (Fs.encodeDirent child name) = r at hres hw
  obtain ⟨f', result⟩ := r
  dsimp only at hres hw ⊢
  rw [hres]
  by_cases h₀ : (f.blockFor (f.inodeAt dir) (f.entryOffset dir / 4096) true).block = 0
  · rw [if_pos h₀] at hval
    subst hval
    have hsize : (f'.inodeAt dir).size = (f.inodeAt dir).size := by
      rw [← Fs.length_bytes, hw.none, Fs.length_bytes]
    exact
      { sound := hw.sound
        changes := hw.changes
        kind := hw.kind
        aligned := by rwa [hsize]
        added := fun h => by cases h
        failed := fun _ => hw.none
        room := by
          intro h
          have hne := blockFor_ne_zero S.sound (n := dir) h.1 (by rw [Fs.table_live hl]; exact h.2)
          rw [Fs.table_live hl] at hne
          exact absurd h₀ hne }
  · rw [if_neg h₀] at hval
    subst hval
    have hb := hw.record henc
    have hle := entryOffset_le f dir
    have hmod := entryOffset_mod h64
    have hlen : (f'.inodeAt dir).size = max (f.inodeAt dir).size (f.entryOffset dir + 64) := by
      rw [← Fs.length_bytes, hb, length_splice (by rwa [Fs.length_bytes]) _, Fs.length_bytes, henc]
    exact
      { sound := hw.sound
        changes := hw.changes
        kind := hw.kind
        aligned := by
          dsimp only
          omega
        added := by
          intro _
          have hdec := decode_encodeDirent hc (by omega) hz
          dsimp only
          rw [entries_eq hw.sound (hw.live hl), entries_eq S hl, hb]
          unfold Fs.entryOffset
          rw [entries_eq S hl]
          split
          · rename_i i hi
            obtain ⟨hlt, hzero, -⟩ := List.findIdx?_eq_some_iff_getElem.mp hi
            rw [direntsOf_splice_set (by rwa [Fs.length_bytes]) henc hlt, hdec]
            exact .hole hlt (by simpa using hzero)
          · rw [← Fs.length_bytes, direntsOf_splice_end (by rwa [Fs.length_bytes]) henc, hdec]
            exact .last
        failed := fun h => by cases h
        room := fun _ => rfl }

/-! ## Removing an entry -/

theorem decodeDirent_inode_of_zero (h : ∀ b ∈ bytes, b = 0) : (Fs.decodeDirent bytes).inode = 0 := by
  have hz : ∀ j, bytes.getD j 0 = 0 := by
    intro j
    rw [List.getD_eq_getElem?_getD]
    cases hj : bytes[j]? with
    | none => rfl
    | some b => exact h b (List.mem_of_getElem? hj)
  unfold Fs.decodeDirent
  exact load32_of_zero (m := fun i => bytes.getD i 0) (a := 0) (fun j _ => hz (0 + j))

/-- A block that holds an entry in use is there. -/
theorem slot_of_entry (S : f.Sound) (hl : f.Live dir) {i : ℕ} (hi : i < (f.entries dir).length)
    (h : (f.entries dir)[i].inode ≠ 0) : (f.inodeAt dir).slot f.disk (64 * i / 4096) ≠ 0 := by
  intro hz
  refine h ?_
  have he := entries_eq S hl
  have hi' : i < (direntsOf (f.bytes dir)).length := by rwa [← he]
  have hget : (f.entries dir)[i] = (direntsOf (f.bytes dir))[i] := by simp only [he]
  rw [hget, direntsOf_getElem]
  refine decodeDirent_inode_of_zero (fun b hb => ?_)
  obtain ⟨k, hk, rfl⟩ := List.mem_iff_getElem.mp hb
  rw [List.length_take, List.length_drop, Fs.length_bytes] at hk
  rw [List.getElem_take, List.getElem_drop]
  have hdiv : (64 * i + k) / 4096 = 64 * i / 4096 := by omega
  simp only [Fs.bytes, List.getElem_map, List.getElem_range]
  unfold Inode.byte
  rw [hdiv, if_pos hz]

/-- What `dir_remove` leaves. -/
structure DirRemoved (dir : ℕ) (name : List UInt8) (f f' : Fs) : Prop where
  sound : f'.Sound
  changes : Changes (· = dir) f f'
  kind : SameKind (f.inodeAt dir) (f'.inodeAt dir)
  size : (f.inodeAt dir).size % 64 = 0 → (f'.inodeAt dir).size = (f.inodeAt dir).size
  entries : (f.inodeAt dir).size % 64 = 0 → f'.entries dir =
    match (f.entries dir).findIdx? (fun e => e.inode != 0 && e.name == name) with
    | none => f.entries dir
    | some i => (f.entries dir).set i ⟨0, []⟩

theorem Fs.Sound.dirRemove (S : f.Sound) (hl : f.Live dir) (name : List UInt8) :
    DirRemoved dir name f (f.dirRemove dir name) := by
  unfold Fs.dirRemove
  rw [Fs.inodeRead_numbered hl.1]
  dsimp only
  cases hfind : (f.entries dir).findIdx? (fun e => e.inode != 0 && e.name == name) with
  | none => exact ⟨S, Changes.refl _ _, ⟨rfl, rfl⟩, fun _ => rfl, fun _ => by rw [hfind]⟩
  | some i =>
    obtain ⟨hlt, hmatch, -⟩ := List.findIdx?_eq_some_iff_getElem.mp hfind
    have hin : (f.entries dir)[i].inode ≠ 0 := by
      simp only [Bool.and_eq_true, bne_iff_ne] at hmatch
      exact hmatch.1
    have hslot := slot_of_entry S hl hlt hin
    have hcov := (Inode.Covered.of_live S hl).size_le
    have hcount : i < ((f.inodeAt dir).size + 63) / 64 := by
      rw [entries_eq S hl, length_direntsOf, Fs.length_bytes] at hlt
      exact hlt
    obtain ⟨written, -, hw, hval⟩ := S.writeRecord hl (show 64 * i % 64 = 0 by omega) (by omega)
      (List.length_replicate (n := 64) (a := (0 : UInt8)))
    rw [blockFor_present (by omega) hslot, if_neg hslot] at hval
    subst hval
    have hb := hw.record List.length_replicate
    dsimp only
    refine ⟨hw.sound, hw.changes, hw.kind, fun h64 => ?_, fun h64 => ?_⟩
    · rw [← Fs.length_bytes, hb, length_splice (by rw [Fs.length_bytes]; omega) _, Fs.length_bytes, List.length_replicate]
      omega
    · have he := entries_eq S hl
      rw [hfind, entries_eq hw.sound (hw.live hl), hb,
        direntsOf_splice_set (by rwa [Fs.length_bytes]) List.length_replicate (by rwa [← he]), decode_zeros, he]

/-! ## `op_create` and `op_destroy` -/

theorem entries_congr {touched : ℕ → Prop} (S : f.Sound) (S' : f'.Sound) (h : Changes touched f f') (hl : f.Live dir)
    (hd : ¬touched dir) : f'.entries dir = f.entries dir := by
  rw [entries_eq S' ((h.live hd).mpr hl), entries_eq S hl, h.bytes dir hd hl]

/-- The type `op_create` gives an inode. -/
def typeOf (dir : Bool) : ℕ := if dir then typeDir else typeFile

theorem typeOf_ne_free (dir : Bool) : typeOf dir ≠ typeFree := by cases dir <;> decide

/-- What `op_create` leaves when there was a free inode. -/
structure OpCreated (parent number : ℕ) (name : List UInt8) (dir : Bool) (f : Fs) (r : Fs × Option ℕ) : Prop where
  sound : r.1.Sound
  changes : Changes (fun m => m = number ∨ m = parent) f r.1
  numbered : f.Numbered number
  free : ¬f.Live number
  type_eq : (r.1.inodeAt number).type = typeOf dir
  flags_eq : (r.1.inodeAt number).flags = 0
  bytes_eq : r.1.bytes number = []
  kind : SameKind (f.inodeAt parent) (r.1.inodeAt parent)
  aligned : (r.1.inodeAt parent).size % 64 = 0
  result : r.2 = some number ∧ EntryAdded ⟨number, name⟩ (f.entries parent) (r.1.entries parent) ∨
    r.2 = none ∧ r.1.bytes parent = f.bytes parent ∧ ¬f.HasRoom parent

theorem Fs.Sound.opCreate (S : f.Sound) {parent : ℕ} (hl : f.Live parent) (h64 : (f.inodeAt parent).size % 64 = 0)
    (hname : name.length < 56) (hz : 0 ∉ name) (hcount : f.super.inodeCount < 4294967296) (dir : Bool) :
    f.opCreate parent name dir = (f, none) ∨ ∃ number, OpCreated parent number name dir f (f.opCreate parent name dir) := by
  unfold Fs.opCreate
  dsimp only
  rcases S.allocInode (typeOf_ne_free dir) (by cases dir <;> decide) with ha | ha
  · rw [typeOf] at ha
    rw [ha, if_pos rfl]
    exact Or.inl rfl
  · rw [typeOf] at ha
    generalize f.allocInode (if dir = true then typeDir else typeFile) = r at ha ⊢
    obtain ⟨f₁, number⟩ := r
    dsimp only at ha ⊢
    have hne : parent ≠ number := fun he => ha.free (he ▸ hl)
    have hl₁ : f₁.Live parent := (ha.changes.live hne).mpr hl
    have hinode := ha.changes.inodeAt parent hne hl.1
    have hnumber : number < 4294967296 := Nat.lt_of_le_of_lt ha.numbered.2 hcount
    have hadd := ha.sound.dirAdd hl₁ (by rwa [hinode]) hname hz hnumber
    have hent := entries_congr S ha.sound ha.changes hl hne
    have hroom : f.HasRoom parent → f₁.HasRoom parent := by
      unfold Fs.HasRoom Fs.entryOffset
      rw [hent, hinode, ha.super, ha.slot parent hl]
      exact id
    rw [if_neg (Nat.ne_of_gt ha.numbered.1)]
    generalize f₁.dirAdd parent name number = r at hadd ⊢
    obtain ⟨f₂, ok⟩ := r
    dsimp only
    have hnum₂ := hadd.changes.inodeAt number (Ne.symm hne) ((ha.changes.numbered number).mpr ha.numbered)
    have hlive₁ : f₁.Live number :=
      ⟨(ha.changes.numbered number).mpr ha.numbered, ha.inodeAt_type.trans_ne (typeOf_ne_free dir)⟩
    refine Or.inr ⟨number, ?_⟩
    exact
      { sound := hadd.sound
        changes := (ha.changes.mono (fun _ h => Or.inl h)).trans (hadd.changes.mono (fun _ h => Or.inr h))
        numbered := ha.numbered
        free := ha.free
        type_eq := (congrArg Inode.type hnum₂).trans ha.inodeAt_type
        flags_eq := (congrArg Inode.flags hnum₂).trans ha.inodeAt_flags
        bytes_eq := (hadd.changes.bytes number (Ne.symm hne) hlive₁).trans ha.bytes
        kind := by
          have := hadd.kind
          rwa [hinode] at this
        aligned := hadd.aligned
        result := by
          cases ok with
          | true =>
            have := hadd.added rfl
            rw [hent] at this
            exact Or.inl ⟨rfl, this⟩
          | false =>
            have hfail := hadd.failed rfl
            rw [ha.changes.bytes parent hne hl] at hfail
            refine Or.inr ⟨rfl, hfail, fun h => ?_⟩
            have := hadd.room (hroom h)
            cases this }

/-- What `op_destroy` leaves. -/
structure OpDestroyed (parent number : ℕ) (name : List UInt8) (f f' : Fs) : Prop where
  sound : f'.Sound
  changes : Changes (fun m => m = number ∨ m = parent) f f'
  free : ¬f'.Live number
  kind : SameKind (f.inodeAt parent) (f'.inodeAt parent)
  size : (f.inodeAt parent).size % 64 = 0 → (f'.inodeAt parent).size = (f.inodeAt parent).size
  entries : (f.inodeAt parent).size % 64 = 0 → f'.entries parent =
    match (f.entries parent).findIdx? (fun e => e.inode != 0 && e.name == name) with
    | none => f.entries parent
    | some i => (f.entries parent).set i ⟨0, []⟩

theorem Fs.Sound.opDestroy (S : f.Sound) {parent number : ℕ} (hp : f.Live parent) (hl : f.Live number)
    (hne : parent ≠ number) (name : List UInt8) : OpDestroyed parent number name f (f.opDestroy parent name number) := by
  unfold Fs.opDestroy
  rw [if_neg (Nat.ne_of_gt hl.1.1)]
  dsimp only
  have hr := S.dirRemove hp name
  generalize f.dirRemove parent name = f₁ at hr ⊢
  have hl₁ : f₁.Live number := (hr.changes.live (Ne.symm hne)).mpr hl
  have hp₁ : f₁.Live parent := ⟨(hr.changes.numbered parent).mpr hp.1, hr.kind.1.trans_ne hp.2⟩
  rw [Fs.inodeRead_numbered hl₁.1]
  dsimp only
  have hfree := hr.sound.freeInode hl₁
    (((f₁.releaseBlocks (f₁.inodeAt number) 0).1.inodeWrite number {}).inodesUsed - 1)
  generalize ({ ((f₁.releaseBlocks (f₁.inodeAt number) 0).1).inodeWrite number {} with
    inodesUsed := ((f₁.releaseBlocks (f₁.inodeAt number) 0).1.inodeWrite number {}).inodesUsed - 1 } : Fs) = f₂ at hfree ⊢
  have hinode := hfree.changes.inodeAt parent hne hp₁.1
  exact
    { sound := hfree.sound
      changes := (hr.changes.mono (fun _ h => Or.inr h)).trans (hfree.changes.mono (fun _ h => Or.inl h))
      free := hfree.free
      kind := by
        rw [hinode]
        exact hr.kind
      size := fun h64 => by
        rw [hinode]
        exact hr.size h64
      entries := fun h64 => (entries_congr hr.sound hfree.sound hfree.changes hp₁ hne).trans (hr.entries h64) }

end SifarOS.SifarFs
