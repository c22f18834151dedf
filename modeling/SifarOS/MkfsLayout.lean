import SifarOS.Mkfs
import SifarOS.SifarFsBlocks
import Mathlib.Data.List.Nodup

/-! # The blocks of an image

`mkfs.py` takes the first free block whenever it needs one, so a file's blocks come in the order in
which they are on the disk. A directory that is written again gets its old blocks back and, where it
has grown, the next free ones after them: what is left over in its old indirect table is overwritten
with the same numbers. -/
namespace SifarOS.Mkfs
open ByteMemory SifarFs

namespace Filesystem

variable {fs fs' : Filesystem} {n b : ℕ} {payload : List UInt8}

/-- The free blocks in the order in which they are taken. -/
def freeList (fs : Filesystem) : List ℕ :=
  (List.range fs.totalBlocks).filter (fun b => decide (fs.dataStart ≤ b) && !fs.used b)

theorem mem_freeList : b ∈ fs.freeList ↔ fs.dataStart ≤ b ∧ b < fs.totalBlocks ∧ fs.used b = false := by
  unfold freeList
  rw [List.mem_filter, List.mem_range, Bool.and_eq_true, decide_eq_true_eq, Bool.not_eq_true']
  exact ⟨fun h => ⟨h.2.1, h.1, h.2.2⟩, fun h => ⟨h.2.1, h.1, h.2.2⟩⟩

theorem freeList_increasing (fs : Filesystem) : fs.freeList.Pairwise (· < ·) := List.pairwise_lt_range.filter _

/-- Two increasing lists of the same numbers are equal. -/
theorem eq_of_increasing {l l' : List ℕ} (h : l.Pairwise (· < ·)) (h' : l'.Pairwise (· < ·)) (hm : ∀ x, x ∈ l ↔ x ∈ l') :
    l = l' := by
  have hperm : l.Perm l' := (List.perm_ext_iff_of_nodup (h.imp Nat.ne_of_lt) (h'.imp Nat.ne_of_lt)).mpr hm
  exact hperm.eq_of_pairwise (fun a b _ _ h₁ h₂ => absurd h₁ (Nat.lt_asymm h₂)) h h'

/-- `alloc_block` takes the head of the list. -/
theorem allocBlock_eq (fs : Filesystem) :
    fs.allocBlock = fs.freeList.head?.map (fun b => ({ fs with used := Function.update fs.used b true }, b)) := by
  unfold allocBlock freeList
  rw [List.head?_filter]

theorem freeList_take {rest : List ℕ} (h : fs.freeList = b :: rest) :
    freeList { fs with used := Function.update fs.used b true } = rest := by
  have hinc := fs.freeList_increasing
  rw [h, List.pairwise_cons] at hinc
  refine eq_of_increasing (freeList_increasing _) hinc.2 (fun x => ?_)
  have hmem : x ∈ fs.freeList ↔ x = b ∨ x ∈ rest := by rw [h, List.mem_cons]
  rw [mem_freeList] at hmem ⊢
  show fs.dataStart ≤ x ∧ x < fs.totalBlocks ∧ Function.update fs.used b true x = false ↔ x ∈ rest
  by_cases hx : x = b
  · subst hx
    rw [Function.update_self]
    refine ⟨fun hc => (by cases hc.2.2), fun hc => absurd (hinc.1 x hc) (Nat.lt_irrefl x)⟩
  · rw [Function.update_of_ne hx, hmem]
    exact ⟨fun hc => hc.resolve_left hx, Or.inr⟩

@[simp] theorem inodes_setInode (fs : Filesystem) (n : ℕ) (i : Inode) : (fs.setInode n i).inodes n = i :=
  Function.update_self _ _ _

theorem inodes_setInode_ne (fs : Filesystem) {n m : ℕ} (h : m ≠ n) (i : Inode) : (fs.setInode n i).inodes m = fs.inodes m :=
  Function.update_of_ne h _ _

/-! ## Where the blocks of a file stand in the list -/

/-- Block `k` of a file, or its indirect block for 1036, in the order in which they are taken. -/
def place (k : ℕ) : ℕ := if k = 1036 then 13 else if k < 13 then k else k + 1

/-- The number of blocks that are taken for the first `j` blocks of a file. -/
def taken (j : ℕ) : ℕ := if 12 < j then j + 1 else j

theorem place_inj {k k' : ℕ} (hk : k ≤ 1036) (hk' : k' ≤ 1036) (h : place k = place k') : k = k' := by
  unfold place at h
  split at h <;> split at h <;> (try split at h) <;> (try split at h) <;> omega

theorem place_lt_taken {k j : ℕ} (hk : k < 1036) : place k < taken j ↔ k < j := by
  unfold place taken
  rw [if_neg (by omega)]
  split <;> split <;> omega

/-- The slots of an inode whose blocks are `l`. -/
def Laid (d : Memory) (i : Inode) (l : List ℕ) : Prop := ∀ k, k ≤ 1036 → i.slot d k = l.getD (place k) 0

/-! ## `write_data` -/

/-- `write_data` has written the first `j` blocks of the payload to inode `n`, whose pointers were
all empty. The list is that of the free blocks it began with. -/
structure Filling (l : List ℕ) (n : ℕ) (payload : List UInt8) (fs₀ : Filesystem) (j : ℕ) (fs : Filesystem) : Prop where
  shape : fs = { fs₀ with used := fs.used, blocks := fs.blocks, inodes := fs.inodes }
  free : fs.freeList = l.drop (taken j)
  used : ∀ b, fs.used b = true ↔ b ∈ l.take (taken j) ∨ fs₀.used b = true
  enough : taken j ≤ l.length
  inodes : ∀ m, m ≠ n → fs.inodes m = fs₀.inodes m
  fields : fs.inodes n = { fs₀.inodes n with direct := (fs.inodes n).direct, indirect := (fs.inodes n).indirect }
  direct : ∀ k, (fs.inodes n).direct k = if k < j ∧ k < 12 then l.getD k 0 else 0
  indirect : (fs.inodes n).indirect = if 12 < j then l.getD 13 0 else 0
  table : 12 < j → ∀ k, 12 ≤ k → k < 1036 → load32 fs.blocks (l.getD 13 0 * 4096 + 4 * (k - 12)) =
    if k < j then l.getD (place k) 0 else load32 fs₀.blocks (l.getD 13 0 * 4096 + 4 * (k - 12))
  data : ∀ i, i < payload.length → i < j * 4096 → fs.blocks (l.getD (place (i / 4096)) 0 * 4096 + i % 4096) = payload.getD i 0
  kept : ∀ x, x / 4096 ∉ l.take (taken j) → fs.blocks x = fs₀.blocks x

theorem Filling.start (fs : Filesystem) (hd : ∀ k, (fs.inodes n).direct k = 0) (hi : (fs.inodes n).indirect = 0) :
    Filling fs.freeList n payload fs 0 fs where
  shape := rfl
  free := rfl
  used := fun b => by simp [taken]
  enough := Nat.zero_le _
  inodes := fun _ _ => rfl
  fields := rfl
  direct := fun k => by simp [hd]
  indirect := hi
  table := fun h => absurd h (by decide)
  data := fun _ _ h => absurd h (by omega)
  kept := fun _ _ => rfl

variable {l : List ℕ} {fs₀ : Filesystem} {j : ℕ}

/-- The next free block. -/
theorem alloc_drop {c : ℕ} {r : Filesystem × ℕ} (hf : fs.freeList = l.drop c) (h : fs.allocBlock = some r) :
    c < l.length ∧ r.2 = l.getD c 0 ∧ r.1 = { fs with used := Function.update fs.used r.2 true } ∧
      r.1.freeList = l.drop (c + 1) := by
  rw [allocBlock_eq, hf] at h
  obtain ⟨b, hb, rfl⟩ := Option.map_eq_some_iff.mp h
  rw [List.head?_drop] at hb
  obtain ⟨hlt, hget⟩ := List.getElem?_eq_some_iff.mp hb
  refine ⟨hlt, ?_, rfl, ?_⟩
  · rw [List.getD_eq_getElem _ _ hlt, hget]
  · refine freeList_take (b := b) ?_
    rw [hf, List.drop_eq_getElem_cons hlt, hget]

/-- The blocks of the list are different ones. -/
theorem getD_ne (hl : l.Pairwise (· < ·)) {i j : ℕ} (hi : i < l.length) (hj : j < l.length) (hne : i ≠ j) :
    l.getD i 0 ≠ l.getD j 0 := by
  rw [List.getD_eq_getElem _ _ hi, List.getD_eq_getElem _ _ hj]
  rcases Nat.lt_or_gt_of_ne hne with h | h
  · exact Nat.ne_of_lt (List.pairwise_iff_getElem.mp hl i j hi hj h)
  · exact Nat.ne_of_gt (List.pairwise_iff_getElem.mp hl j i hj hi h)

theorem getD_mem_take {i c : ℕ} (hi : i < c) (hc : c ≤ l.length) : l.getD i 0 ∈ l.take c := by
  rw [List.getD_eq_getElem _ _ (by omega)]
  exact List.mem_take_iff_getElem.mpr ⟨i, by omega, rfl⟩

theorem mem_take_succ {c x : ℕ} (hc : c < l.length) : x ∈ l.take (c + 1) ↔ x ∈ l.take c ∨ x = l.getD c 0 := by
  rw [List.take_succ_eq_append_getElem hc, List.mem_append, List.mem_singleton, List.getD_eq_getElem _ _ hc]

theorem place_self (hj : j < 1036) : place j = taken j := by
  unfold place taken
  rw [if_neg (by omega)]
  split <;> split <;> omega

theorem place_ne_table {k : ℕ} (hk : k < 1036) : place k ≠ 13 := by
  unfold place
  rw [if_neg (by omega)]
  split <;> omega

/-- Block `j` of the payload is copied into a block of its own. -/
structure Copied (payload : List UInt8) (j block : ℕ) (d d' : Memory) : Prop where
  other : ∀ x, x / 4096 ≠ block → d' x = d x
  self : ∀ i, i < payload.length → i / 4096 = j → d' (block * 4096 + i % 4096) = payload.getD i 0

theorem copied (payload : List UInt8) (j block : ℕ) (d : Memory) :
    Copied payload j block d (fill d (block * 4096) ((payload.drop (j * 4096)).take 4096).length
      (fun i => ((payload.drop (j * 4096)).take 4096).getD i 0)) where
  other := by
    intro x hx
    have hlen : ((payload.drop (j * 4096)).take 4096).length ≤ 4096 := by
      rw [List.length_take]
      omega
    exact fill_of_disjoint _ _ (by omega)
  self := by
    intro i hi hj
    have hlen : ((payload.drop (j * 4096)).take 4096).length = min 4096 (payload.length - j * 4096) := by
      rw [List.length_take, List.length_drop]
    rw [fill_at _ _ (by omega), List.getD_eq_getElem _ _ (by omega), List.getElem_take, List.getElem_drop,
      List.getD_eq_getElem _ _ hi]
    congr 1
    omega

/-- The data of the blocks that were written before stay, and those of block `j` are there. -/
theorem Copied.data {d d' : Memory} (hl : l.Pairwise (· < ·)) (hj : j < 1036) (hlen : taken j < l.length)
    (hc : Copied payload j (l.getD (taken j) 0) d d')
    (hd : ∀ i, i < payload.length → i < j * 4096 → d (l.getD (place (i / 4096)) 0 * 4096 + i % 4096) = payload.getD i 0) :
    ∀ i, i < payload.length → i < (j + 1) * 4096 →
      d' (l.getD (place (i / 4096)) 0 * 4096 + i % 4096) = payload.getD i 0 := by
  intro i hi hlt
  by_cases he : i / 4096 = j
  · rw [he, place_self hj]
    exact hc.self i hi he
  · have hk : i / 4096 < j := by omega
    have hp : place (i / 4096) < taken j := (place_lt_taken (by omega)).mpr hk
    have hold : i < j * 4096 := (Nat.div_lt_iff_lt_mul (by decide)).mp hk
    have hne := getD_ne hl (i := place (i / 4096)) (by omega) hlen (by omega)
    exact (hc.other _ (by omega)).trans (hd i hi hold)

theorem Filling.direct_step (h : Filling l n payload fs₀ j fs) (hl : l.Pairwise (· < ·)) (hj : j < 12)
    {r : Filesystem × ℕ} (ha : fs.allocBlock = some r) {d : Memory} (hc : Copied payload j r.2 fs.blocks d) :
    Filling l n payload fs₀ (j + 1) (setInode { r.1 with blocks := d } n
      { fs.inodes n with direct := Function.update (fs.inodes n).direct j r.2 }) := by
  have htj : taken j = j := if_neg (by omega)
  have htj' : taken (j + 1) = j + 1 := if_neg (by omega)
  obtain ⟨hlt, hb, hr, hfree⟩ := alloc_drop h.free ha
  rw [hb] at hr hc ⊢
  have hdata := hc.data hl (by omega) hlt h.data
  rw [htj] at hlt hr hfree hc ⊢
  have hself : (setInode { r.1 with blocks := d } n
      { fs.inodes n with direct := Function.update (fs.inodes n).direct j (l.getD j 0) }).inodes n =
      { fs.inodes n with direct := Function.update (fs.inodes n).direct j (l.getD j 0) } := Function.update_self _ _ _
  refine
    { shape := ?_
      free := ?_
      used := fun b => ?_
      enough := by rw [htj']; exact hlt
      inodes := fun m hm => ?_
      fields := ?_
      direct := fun k => ?_
      indirect := ?_
      table := fun h' => absurd h' (by omega)
      data := hdata
      kept := fun x hx => ?_ }
  · rw [hr, h.shape]
    rfl
  · rw [htj']
    exact hfree
  · rw [htj', mem_take_succ hlt, ← htj, or_right_comm, ← h.used b, htj, hr]
    show Function.update fs.used (l.getD j 0) true b = true ↔ _
    by_cases hbj : b = l.getD j 0
    · rw [hbj, Function.update_self]
      exact iff_of_true rfl (Or.inr rfl)
    · rw [Function.update_of_ne hbj]
      exact (or_iff_left hbj).symm
  · refine (Function.update_of_ne hm _ _).trans ?_
    rw [hr]
    exact h.inodes m hm
  · rw [hself, h.fields]
  · rw [hself]
    show Function.update (fs.inodes n).direct j (l.getD j 0) k = _
    by_cases hk : k = j
    · subst hk
      rw [Function.update_self, if_pos ⟨by omega, hj⟩]
    · rw [Function.update_of_ne hk, h.direct k]
      by_cases hkj : k < j ∧ k < 12
      · rw [if_pos hkj, if_pos (by omega)]
      · rw [if_neg hkj, if_neg (by omega)]
  · rw [hself]
    exact h.indirect.trans (by rw [if_neg (by omega), if_neg (by omega)])
  · rw [htj', mem_take_succ hlt] at hx
    exact (hc.other x (fun he => hx (Or.inr he))).trans (h.kept x (fun he => hx (Or.inl (htj ▸ he))))

theorem store32_other (d : Memory) (t slot v : ℕ) (hs : slot < 1024) {x : ℕ} (hx : x / 4096 ≠ t) :
    store32 d (t * 4096 + 4 * slot) v x = d x :=
  store32_sameOn d v (b := x) (n := 1) (by omega) x (Nat.le_refl _) (Nat.lt_succ_self _)

/-- The memory after block `j` was copied and its number put into the table. -/
theorem Filling.table_step (h : Filling l n payload fs₀ j fs) (hl : l.Pairwise (· < ·)) (hj : 12 ≤ j) (hj' : j < 1036)
    (hsmall : ∀ b ∈ l, b < 4294967296) (hlen : taken (j + 1) ≤ l.length) {d : Memory}
    (hc : Copied payload j (l.getD (taken j) 0) fs.blocks d) :
    (∀ k, 12 ≤ k → k < 1036 →
      load32 (store32 d (l.getD 13 0 * 4096 + 4 * (j - 12)) (l.getD (taken j) 0)) (l.getD 13 0 * 4096 + 4 * (k - 12)) =
        if k < j + 1 then l.getD (place k) 0 else load32 fs₀.blocks (l.getD 13 0 * 4096 + 4 * (k - 12))) ∧
    (∀ i, i < payload.length → i < (j + 1) * 4096 →
      store32 d (l.getD 13 0 * 4096 + 4 * (j - 12)) (l.getD (taken j) 0) (l.getD (place (i / 4096)) 0 * 4096 + i % 4096) =
        payload.getD i 0) ∧
    ∀ x, x / 4096 ∉ l.take (taken (j + 1)) →
      store32 d (l.getD 13 0 * 4096 + 4 * (j - 12)) (l.getD (taken j) 0) x = fs₀.blocks x := by
  have htj' : taken (j + 1) = j + 2 := if_pos (by omega)
  have htj : taken j ≠ 13 ∧ taken j < taken (j + 1) := by
    rw [htj']
    unfold taken
    split <;> omega
  have hne := getD_ne hl (i := 13) (j := taken j) (by omega) (by omega) (by omega)
  refine ⟨fun k h₁ h₂ => ?_, fun i hi hlt => ?_, fun x hx => ?_⟩
  · have hold : k ≠ j → load32 d (l.getD 13 0 * 4096 + 4 * (k - 12)) =
        if k < j then l.getD (place k) 0 else load32 fs₀.blocks (l.getD 13 0 * 4096 + 4 * (k - 12)) := by
      intro _
      have hsame : load32 d (l.getD 13 0 * 4096 + 4 * (k - 12)) = load32 fs.blocks (l.getD 13 0 * 4096 + 4 * (k - 12)) :=
        load32_congr (fun x hx₁ hx₂ => hc.other x (by omega))
      rw [hsame]
      by_cases hgt : 12 < j
      · exact h.table hgt k h₁ h₂
      · have hj12 : taken j = 12 := by
          unfold taken
          rw [if_neg hgt]
          omega
        rw [if_neg (by omega)]
        refine load32_congr (fun x hx₁ hx₂ => h.kept x (fun hin => ?_))
        have hx : x / 4096 = l.getD 13 0 := by omega
        rw [hx, hj12, List.mem_take_iff_getElem] at hin
        obtain ⟨i, hi, he⟩ := hin
        have := getD_ne hl (i := i) (j := 13) (by omega) (by omega) (by omega)
        rw [List.getD_eq_getElem _ _ (by omega)] at this
        exact this he
    by_cases hk : k = j
    · subst hk
      rw [load32_store32, if_pos (Nat.lt_succ_self k), place_self hj']
      refine Nat.mod_eq_of_lt (hsmall _ ?_)
      rw [List.getD_eq_getElem _ _ (by omega)]
      exact List.getElem_mem _
    · rw [load32_store32_of_disjoint _ _ (by omega), hold hk]
      by_cases hkj : k < j
      · rw [if_pos hkj, if_pos (by omega)]
      · rw [if_neg hkj, if_neg (by omega)]
  · have hk : i / 4096 < j + 1 := (Nat.div_lt_iff_lt_mul (by decide)).mpr hlt
    have hp : place (i / 4096) < taken (j + 1) := (place_lt_taken (by omega)).mpr hk
    have hne' := getD_ne hl (i := place (i / 4096)) (j := 13) (by omega) (by omega) (place_ne_table (by omega))
    rw [store32_other _ _ _ _ (by omega) (by omega)]
    exact hc.data hl hj' (by omega) h.data i hi hlt
  · have hx13 : x / 4096 ≠ l.getD 13 0 := fun he => hx (he ▸ getD_mem_take (by omega) hlen)
    have hxj : x / 4096 ≠ l.getD (taken j) 0 := fun he => hx (he ▸ getD_mem_take htj.2 hlen)
    rw [store32_other _ _ _ _ (by omega) hx13, hc.other x hxj]
    refine h.kept x (fun hin => hx ?_)
    exact (List.take_subset_take_left l (Nat.le_of_lt htj.2)) hin

theorem Filling.first_indirect (h : Filling l n payload fs₀ 12 fs) (hl : l.Pairwise (· < ·))
    (hsmall : ∀ b ∈ l, b < 4294967296) {r r' : Filesystem × ℕ} (ha : fs.allocBlock = some r) {d : Memory}
    (hc : Copied payload 12 r.2 fs.blocks d) (ha' : ({ r.1 with blocks := d } : Filesystem).allocBlock = some r') :
    Filling l n payload fs₀ 13 { setInode r'.1 n { fs.inodes n with indirect := r'.2 } with
      blocks := store32 d (r'.2 * 4096 + 4 * (12 - 12)) r.2 } := by
  obtain ⟨hlt, hb, hr, hfree⟩ := alloc_drop h.free ha
  obtain ⟨hlt', hb', hr', hfree'⟩ := alloc_drop (c := taken 12 + 1)
    (show ({ r.1 with blocks := d } : Filesystem).freeList = l.drop (taken 12 + 1) from hfree) ha'
  have ht : taken 12 = 12 := rfl
  have ht' : taken 13 = 14 := rfl
  rw [hb] at hr hc
  obtain ⟨htable, hdata, hkept⟩ := h.table_step hl (Nat.le_refl _) (by decide) hsmall (by rw [ht']; omega) hc
  rw [ht] at hlt hb hr hfree hlt' hb' hfree'
  rw [hb, hb']
  rw [hb'] at hr'
  have hself : ({ setInode r'.1 n { fs.inodes n with indirect := l.getD (12 + 1) 0 } with
      blocks := store32 d (l.getD (12 + 1) 0 * 4096 + 4 * (12 - 12)) (l.getD 12 0) } : Filesystem).inodes n =
      { fs.inodes n with indirect := l.getD 13 0 } := Function.update_self _ _ _
  refine
    { shape := ?_
      free := ?_
      used := fun b => ?_
      enough := by rw [ht']; omega
      inodes := fun m hm => ?_
      fields := ?_
      direct := fun k => ?_
      indirect := ?_
      table := fun _ => htable
      data := hdata
      kept := hkept }
  · rw [hr', hr, h.shape]
    rfl
  · exact hfree'
  · rw [ht', mem_take_succ hlt', mem_take_succ hlt, or_right_comm, or_right_comm (c := fs₀.used b = true)]
    have := h.used b
    rw [ht] at this
    rw [← this, hr', hr]
    show Function.update (Function.update fs.used (l.getD 12 0) true) (l.getD (12 + 1) 0) true b = true ↔ _
    by_cases h₁ : b = l.getD (12 + 1) 0
    · rw [h₁, Function.update_self]
      exact iff_of_true rfl (Or.inr rfl)
    rw [Function.update_of_ne h₁]
    by_cases h₂ : b = l.getD 12 0
    · rw [h₂, Function.update_self]
      exact iff_of_true rfl (Or.inl (Or.inr rfl))
    · rw [Function.update_of_ne h₂]
      exact ((or_iff_left h₁).trans (or_iff_left h₂)).symm
  · refine (Function.update_of_ne hm _ _).trans ?_
    rw [hr', hr]
    exact h.inodes m hm
  · rw [hself, h.fields]
  · rw [hself]
    have := h.direct k
    by_cases hk : k < 12
    · rw [if_pos ⟨hk, hk⟩] at this
      rw [if_pos ⟨by omega, hk⟩]
      exact this
    · rw [if_neg (fun hc => hk hc.2)] at this ⊢
      exact this
  · rw [hself, if_pos (by decide)]

theorem Filling.next_indirect (h : Filling l n payload fs₀ j fs) (hl : l.Pairwise (· < ·)) (hj : 12 < j) (hj' : j < 1036)
    (hsmall : ∀ b ∈ l, b < 4294967296) {r : Filesystem × ℕ} (ha : fs.allocBlock = some r) {d : Memory}
    (hc : Copied payload j r.2 fs.blocks d) :
    Filling l n payload fs₀ (j + 1) { r.1 with
      blocks := store32 d ((fs.inodes n).indirect * 4096 + 4 * (j - 12)) r.2 } := by
  obtain ⟨hlt, hb, hr, hfree⟩ := alloc_drop h.free ha
  have ht : taken j = j + 1 := if_pos hj
  have ht' : taken (j + 1) = j + 1 + 1 := if_pos (by omega)
  have hind : (fs.inodes n).indirect = l.getD 13 0 := by rw [h.indirect, if_pos hj]
  rw [hb] at hr hc
  obtain ⟨htable, hdata, hkept⟩ := h.table_step hl (by omega) hj' hsmall (by omega) hc
  rw [hb, hind]
  have hinodes : r.1.inodes = fs.inodes := by rw [hr]
  refine
    { shape := ?_
      free := ?_
      used := fun b => ?_
      enough := by omega
      inodes := fun m hm => ?_
      fields := ?_
      direct := fun k => ?_
      indirect := ?_
      table := fun _ => htable
      data := hdata
      kept := hkept }
  · rw [hr, h.shape]
  · rw [ht', ← ht]
    exact hfree
  · rw [ht', ← ht, mem_take_succ hlt, or_right_comm, ← h.used b, hr]
    show Function.update fs.used (l.getD (taken j) 0) true b = true ↔ _
    by_cases hbj : b = l.getD (taken j) 0
    · rw [hbj, Function.update_self]
      exact iff_of_true rfl (Or.inr rfl)
    · rw [Function.update_of_ne hbj]
      exact (or_iff_left hbj).symm
  · show r.1.inodes m = _
    rw [hinodes]
    exact h.inodes m hm
  · show r.1.inodes n = { fs₀.inodes n with direct := (r.1.inodes n).direct, indirect := (r.1.inodes n).indirect }
    rw [hinodes]
    exact h.fields
  · show (r.1.inodes n).direct k = _
    rw [hinodes, h.direct k]
    by_cases hk : k < 12
    · rw [if_pos ⟨by omega, hk⟩, if_pos ⟨by omega, hk⟩]
    · rw [if_neg (fun hc => hk hc.2), if_neg (fun hc => hk hc.2)]
  · show (r.1.inodes n).indirect = _
    rw [hinodes, hind, if_pos (by omega)]

theorem writeBlock_filling (h : Filling l n payload fs₀ j fs) (hl : l.Pairwise (· < ·)) (hj : j < 1036)
    (hsmall : ∀ b ∈ l, b < 4294967296) (hw : writeBlock n payload fs j = some fs') :
    Filling l n payload fs₀ (j + 1) fs' := by
  unfold writeBlock at hw
  obtain ⟨r, ha, hw⟩ := Option.bind_eq_some_iff.mp hw
  obtain ⟨-, -, hr, -⟩ := alloc_drop h.free ha
  have hinodes : r.1.inodes = fs.inodes := by rw [hr]
  have hblocks : r.1.blocks = fs.blocks := by rw [hr]
  have hc := copied payload j r.2 r.1.blocks
  dsimp only at hw
  generalize fill r.1.blocks (r.2 * 4096) ((payload.drop (j * 4096)).take 4096).length
    (fun i => ((payload.drop (j * 4096)).take 4096).getD i 0) = d at hw hc
  rw [hblocks] at hc
  by_cases hd : j < 12
  · rw [if_pos hd] at hw
    obtain rfl := Option.some.inj hw
    have hstep := h.direct_step hl hd ha hc
    rw [← hinodes] at hstep
    exact hstep
  rw [if_neg hd] at hw
  by_cases h12 : j = 12
  · subst h12
    rw [if_pos rfl] at hw
    obtain ⟨g, hg, rfl⟩ := Option.map_eq_some_iff.mp hw
    obtain ⟨r', ha', rfl⟩ := Option.map_eq_some_iff.mp hg
    have hstep := h.first_indirect hl hsmall ha hc ha'
    rw [← hinodes] at hstep
    have hblocks' : r'.1.blocks = d := by
      rw [allocBlock_eq] at ha'
      obtain ⟨b, -, rfl⟩ := Option.map_eq_some_iff.mp ha'
      rfl
    rw [inodes_setInode, show (setInode r'.1 n { r.1.inodes n with indirect := r'.2 }).blocks = d from hblocks']
    exact hstep
  · rw [if_neg h12, Option.map_some] at hw
    obtain rfl := Option.some.inj hw
    have hstep := h.next_indirect hl (by omega) hj hsmall ha hc
    rw [← hinodes] at hstep
    exact hstep

theorem foldlM_filling (hl : l.Pairwise (· < ·)) (hsmall : ∀ b ∈ l, b < 4294967296) (h : Filling l n payload fs₀ 0 fs₀)
    (hj : j ≤ 1036) (hw : (List.range j).foldlM (writeBlock n payload) fs₀ = some fs) : Filling l n payload fs₀ j fs := by
  induction j generalizing fs with
  | zero =>
    obtain rfl := Option.some.inj hw
    exact h
  | succ j ih =>
    rw [List.range_succ, List.foldlM_append] at hw
    obtain ⟨g, hg, hw⟩ := Option.bind_eq_some_iff.mp hw
    rw [List.foldlM_cons] at hw
    obtain ⟨g', hg', hw⟩ := Option.bind_eq_some_iff.mp hw
    obtain rfl := Option.some.inj hw
    exact writeBlock_filling (ih (by omega) hg) hl hj hsmall hg'

/-- The number of blocks for a file of some size, without its table. -/
def needed (size : ℕ) : ℕ := (size + 4095) / 4096

/-- The slots of the inode are laid out along the list. -/
theorem Filling.laid (h : Filling l n payload fs₀ j fs) (hj : j ≤ 1036)
    (hz : 12 < j → ∀ k, j ≤ k → k < 1036 → load32 fs₀.blocks (l.getD 13 0 * 4096 + 4 * (k - 12)) = 0)
    (hpos : ∀ b ∈ l, b ≠ 0) : Laid fs.blocks (fs.inodes n) (l.take (taken j)) := by
  have hget : ∀ p, (l.take (taken j)).getD p 0 = if p < taken j then l.getD p 0 else 0 := by
    intro p
    have hle := h.enough
    split
    · rw [List.getD_eq_getElem _ _ (by rw [List.length_take]; omega), List.getElem_take, List.getD_eq_getElem _ _ (by omega)]
    · rw [List.getD_eq_default _ _ (by rw [List.length_take]; omega)]
  intro k hk
  rw [hget]
  rcases Nat.lt_or_ge k 12 with h₁ | h₁
  · have hp := place_lt_taken (k := k) (j := j) (by omega)
    have hpk : place k = k := by
      unfold place
      rw [if_neg (by omega), if_pos (by omega)]
    rw [Inode.slot_direct h₁, h.direct k]
    by_cases hkj : k < j
    · rw [if_pos ⟨hkj, h₁⟩, if_pos (hp.mpr hkj), hpk]
    · rw [if_neg (fun hc => hkj hc.1), if_neg (fun hc => hkj (hp.mp hc))]
  rcases Nat.lt_or_ge k 1036 with h₂ | h₂
  · have hp := place_lt_taken (k := k) (j := j) h₂
    by_cases h12 : 12 < j
    · have hlen : 13 < l.length := by
        have := h.enough
        unfold taken at this
        rw [if_pos h12] at this
        omega
      have hind : (fs.inodes n).indirect = l.getD 13 0 := by rw [h.indirect, if_pos h12]
      have hne : (fs.inodes n).indirect ≠ 0 := by
        rw [hind, List.getD_eq_getElem _ _ hlen]
        exact hpos _ (List.getElem_mem _)
      rw [Inode.slot_table h₁ h₂ hne, Fs.tableAddr, hind, h.table h12 k h₁ h₂]
      by_cases hkj : k < j
      · rw [if_pos hkj, if_pos (hp.mpr hkj)]
      · rw [if_neg hkj, if_neg (fun hc => hkj (hp.mp hc)), hz h12 k (by omega) h₂]
    · have hind : (fs.inodes n).indirect = 0 := by rw [h.indirect, if_neg h12]
      rw [Inode.slot_no_table h₁ h₂ hind, if_neg (fun hc => absurd (hp.mp hc) (by omega))]
  · obtain rfl : k = 1036 := by omega
    rw [Inode.slot_indirect, h.indirect, show place 1036 = 13 from rfl]
    by_cases h12 : 12 < j
    · have ht : taken j = j + 1 := if_pos h12
      rw [if_pos h12, if_pos (by omega)]
    · have ht : taken j = j := if_neg h12
      rw [if_neg h12, if_neg (by omega)]

/-! ## `free_data` -/

/-- The inode has the blocks in `l`, in the order in which they were taken. -/
structure Holds (fs : Filesystem) (n : ℕ) (l : List ℕ) : Prop where
  laid : Laid fs.blocks (fs.inodes n) l
  length : l.length = taken (needed (fs.inodes n).size)
  size_le : (fs.inodes n).size ≤ 1036 * 4096
  increasing : l.Pairwise (· < ·)
  pos : ∀ b ∈ l, b ≠ 0
  direct : ∀ k, 12 ≤ k → (fs.inodes n).direct k = 0

theorem Holds.needed_le (h : Holds fs n l) : needed (fs.inodes n).size ≤ 1036 := by
  have := h.size_le
  unfold needed
  omega

/-- `free_data` has given back the first `j` blocks. -/
structure Emptying (l : List ℕ) (n : ℕ) (fs₀ : Filesystem) (j : ℕ) (fs : Filesystem) : Prop where
  shape : fs = { fs₀ with used := fs.used, blocks := fs.blocks, inodes := fs.inodes }
  inodes : ∀ m, m ≠ n → fs.inodes m = fs₀.inodes m
  inode : fs.inodes n = { fs₀.inodes n with direct := fun k => if k < j ∧ k < 12 then 0 else (fs₀.inodes n).direct k }
  used : ∀ b, fs.used b = true ↔ fs₀.used b = true ∧ ∀ k, k < j → l.getD (place k) 0 ≠ b
  kept : ∀ x, (∀ k, k < j → l.getD (place k) 0 ≠ x / 4096) → fs.blocks x = fs₀.blocks x

theorem Emptying.step (h : Emptying l n fs₀ j fs) (hh : Holds fs₀ n l) (hj : j < needed (fs₀.inodes n).size) :
    Emptying l n fs₀ (j + 1) (freeIndex n fs j) := by
  have hle := hh.needed_le
  have hlen := hh.length
  have hpj : place j < l.length := by
    rw [hlen]
    exact (place_lt_taken (by omega)).mpr hj
  have hblock : fs.blockOf (fs.inodes n) j = l.getD (place j) 0 := by
    rw [← hh.laid j (by omega)]
    unfold blockOf
    split
    · rename_i hd
      rw [h.inode, Inode.slot_direct hd]
      exact if_neg (by omega)
    · rename_i hd
      have h13 : 13 < l.length := by
        rw [hlen]
        unfold taken
        split <;> omega
      have hind : (fs₀.inodes n).indirect = l.getD 13 0 := by
        rw [← show place 1036 = 13 from rfl, ← hh.laid 1036 (Nat.le_refl _), Inode.slot_indirect]
      have hne : (fs₀.inodes n).indirect ≠ 0 := by
        rw [hind, List.getD_eq_getElem _ _ h13]
        exact hh.pos _ (List.getElem_mem _)
      rw [Inode.slot_table (by omega) (by omega) hne, h.inode]
      refine load32_congr (fun x hx₁ hx₂ => h.kept x (fun k hk => ?_))
      have hx : x / 4096 = l.getD 13 0 := by
        dsimp only at hx₁ hx₂
        omega
      rw [hx]
      refine getD_ne hh.increasing ?_ h13 (place_ne_table (by omega))
      rw [hlen]
      exact (place_lt_taken (by omega)).mpr (by omega)
  have hne : l.getD (place j) 0 ≠ 0 := by
    rw [List.getD_eq_getElem _ _ hpj]
    exact hh.pos _ (List.getElem_mem _)
  have hinode : ∀ g : Filesystem, g.inodes = fs.inodes →
      (if j < 12 then g.setInode n { fs.inodes n with direct := Function.update (fs.inodes n).direct j 0 } else g).inodes n =
        { fs₀.inodes n with direct := fun k => if k < j + 1 ∧ k < 12 then 0 else (fs₀.inodes n).direct k } := by
    intro g hg
    have hdirect : ∀ k, (if j < 12 then Function.update (fs.inodes n).direct j 0 else (fs.inodes n).direct) k =
        if k < j + 1 ∧ k < 12 then 0 else (fs₀.inodes n).direct k := by
      intro k
      rw [h.inode]
      dsimp only
      by_cases hd : j < 12
      · rw [if_pos hd]
        by_cases hk : k = j
        · subst hk
          rw [Function.update_self, if_pos ⟨by omega, hd⟩]
        · rw [Function.update_of_ne hk]
          by_cases hkj : k < j ∧ k < 12
          · rw [if_pos hkj, if_pos (by omega)]
          · rw [if_neg hkj, if_neg (by omega)]
      · rw [if_neg hd]
        by_cases hk : k < 12
        · rw [if_pos ⟨by omega, hk⟩, if_pos ⟨by omega, hk⟩]
        · rw [if_neg (fun hc => hk hc.2), if_neg (fun hc => hk hc.2)]
    rw [← funext hdirect]
    split
    · rw [inodes_setInode, h.inode]
    · rw [hg, h.inode]
  have hother : ∀ m, m ≠ n → (if j < 12 then fs.setInode n { fs.inodes n with direct := Function.update (fs.inodes n).direct j 0 }
      else fs).inodes m = fs₀.inodes m := by
    intro m hm
    split
    · rw [inodes_setInode_ne _ hm, h.inodes m hm]
    · exact h.inodes m hm
  have hsame : ∀ g : Filesystem, (if j < 12 then g.setInode n { fs.inodes n with direct := Function.update (fs.inodes n).direct j 0 }
      else g).used = g.used ∧ (if j < 12 then g.setInode n { fs.inodes n with direct := Function.update (fs.inodes n).direct j 0 }
      else g).blocks = g.blocks := by
    intro g
    split <;> exact ⟨rfl, rfl⟩
  unfold freeIndex
  dsimp only
  rw [hblock, if_neg hne]
  refine ⟨?_, hother, hinode fs rfl, fun b => ?_, fun x hx => ?_⟩
  · rw [h.shape]
    split <;> rfl
  · show Function.update (ite _ _ _ : Filesystem).used (l.getD (place j) 0) false b = true ↔ _
    rw [(hsame fs).1]
    by_cases hb : b = l.getD (place j) 0
    · rw [hb, Function.update_self]
      exact iff_of_false (by decide) (fun hc => hc.2 j (Nat.lt_succ_self j) rfl)
    · rw [Function.update_of_ne hb, h.used b]
      refine and_congr_right (fun _ => ⟨fun hc k hk => ?_, fun hc k hk => hc k (by omega)⟩)
      by_cases hkj : k = j
      · exact hkj ▸ Ne.symm hb
      · exact hc k (by omega)
  · show fill (ite _ _ _ : Filesystem).blocks (l.getD (place j) 0 * 4096) 4096 (fun _ => 0) x = _
    have hxj := hx j (Nat.lt_succ_self j)
    rw [fill_of_disjoint _ _ (by omega), (hsame fs).2]
    exact h.kept x (fun k hk => hx k (by omega))

/-- What `free_data` leaves. -/
structure Cleared (l : List ℕ) (n : ℕ) (fs₀ fs : Filesystem) : Prop where
  shape : fs = { fs₀ with used := fs.used, blocks := fs.blocks, inodes := fs.inodes }
  inodes : ∀ m, m ≠ n → fs.inodes m = fs₀.inodes m
  inode : fs.inodes n = { fs₀.inodes n with direct := fun _ => 0, indirect := 0, size := 0 }
  used : ∀ b, fs.used b = true ↔ fs₀.used b = true ∧ b ∉ l
  kept : ∀ x, x / 4096 ∉ l → fs.blocks x = fs₀.blocks x
  table : 13 < l.length → ∀ x, x / 4096 = l.getD 13 0 → fs.blocks x = fs₀.blocks x

theorem freeData_cleared (hh : Holds fs n l) : Cleared l n fs (fs.freeData n) := by
  have hle := hh.needed_le
  have hlen := hh.length
  have hloop : ∀ j, j ≤ needed (fs.inodes n).size → Emptying l n fs j ((List.range j).foldl (freeIndex n) fs) := by
    intro j
    induction j with
    | zero => exact fun _ => ⟨rfl, fun _ _ => rfl, by simp, fun b => by simp, fun _ _ => rfl⟩
    | succ j ih =>
      intro hj
      rw [List.range_succ, List.foldl_append]
      exact (ih (by omega)).step hh hj
  have hend := hloop _ (Nat.le_refl _)
  unfold freeData
  dsimp only
  rw [show ((fs.inodes n).size + 4095) / 4096 = needed (fs.inodes n).size from rfl]
  generalize (List.range (needed (fs.inodes n).size)).foldl (freeIndex n) fs = g at hend ⊢
  generalize hN : needed (fs.inodes n).size = N at *
  have hdirect : (fun k => if k < N ∧ k < 12 then 0 else (fs.inodes n).direct k) = fun _ => 0 := by
    funext k
    split
    · rfl
    · rename_i hk
      by_cases h12 : k < 12
      · have := hh.laid k (by omega)
        rw [Inode.slot_direct h12] at this
        rw [this, List.getD_eq_default]
        rw [hlen, ← not_lt, place_lt_taken (by omega)]
        omega
      · exact hh.direct k (by omega)
  have hinode := hend.inode
  rw [hdirect] at hinode
  -- the members of the list are the data blocks and the table
  have hmem : ∀ b, b ∈ l ↔ (∃ k, k < N ∧ l.getD (place k) 0 = b) ∨ (13 < l.length ∧ b = l.getD 13 0) := by
    intro b
    constructor
    · intro hb
      obtain ⟨p, hp, rfl⟩ := List.mem_iff_getElem.mp hb
      by_cases h13 : p = 13
      · subst h13
        exact Or.inr ⟨hp, (List.getD_eq_getElem _ _ hp).symm⟩
      · refine Or.inl ⟨if p < 13 then p else p - 1, ?_, ?_⟩
        · unfold taken at hlen
          split at hlen <;> split <;> omega
        · have hpl : place (if p < 13 then p else p - 1) = p := by
            unfold place
            unfold taken at hlen
            split at hlen <;> split <;> split <;> (try split) <;> omega
          rw [hpl, List.getD_eq_getElem _ _ hp]
    · rintro (⟨k, hk, rfl⟩ | ⟨h13, rfl⟩)
      · rw [List.getD_eq_getElem _ _ (by rw [hlen]; exact (place_lt_taken (by omega)).mpr hk)]
        exact List.getElem_mem _
      · rw [List.getD_eq_getElem _ _ h13]
        exact List.getElem_mem _
  have hind : (fs.inodes n).indirect = l.getD 13 0 := by
    rw [← show place 1036 = 13 from rfl, ← hh.laid 1036 (Nat.le_refl _), Inode.slot_indirect]
  have hkept : ∀ x, x / 4096 ∉ l → g.blocks x = fs.blocks x :=
    fun x hx => hend.kept x (fun k hk he => hx ((hmem _).mpr (Or.inl ⟨k, hk, he⟩)))
  have htable : 13 < l.length → ∀ x, x / 4096 = l.getD 13 0 → g.blocks x = fs.blocks x := by
    intro h13 x hx
    refine hend.kept x (fun k hk => ?_)
    rw [hx]
    refine getD_ne hh.increasing ?_ h13 (place_ne_table (by omega))
    rw [hlen]
    exact (place_lt_taken (by omega)).mpr hk
  by_cases h₀ : (g.inodes n).indirect = 0
  · rw [if_pos h₀]
    have h13 : ¬13 < l.length := by
      intro h13
      rw [hinode] at h₀
      dsimp only at h₀
      rw [hind, List.getD_eq_getElem _ _ h13] at h₀
      exact hh.pos _ (List.getElem_mem _) h₀
    refine ⟨?_, fun m hm => ?_, ?_, fun b => ?_, hkept, htable⟩
    · rw [hend.shape]
      rfl
    · rw [inodes_setInode_ne _ hm, hend.inodes m hm]
    · rw [inodes_setInode]
      rw [hinode] at h₀ ⊢
      dsimp only at h₀ ⊢
      rw [h₀]
    · show g.used b = true ↔ _
      rw [hend.used b, hmem b]
      refine and_congr_right (fun _ => ⟨fun hc => ?_, fun hc k hk he => hc (Or.inl ⟨k, hk, he⟩)⟩)
      rintro (⟨k, hk, he⟩ | ⟨hlt, -⟩)
      · exact hc k hk he
      · exact h13 hlt
  · rw [if_neg h₀]
    have hgind : (g.inodes n).indirect = l.getD 13 0 := by
      rw [hinode]
      exact hind
    have h13 : 13 < l.length := by
      by_contra hlt
      rw [hgind, List.getD_eq_default _ _ (by omega)] at h₀
      exact h₀ rfl
    refine ⟨?_, fun m hm => ?_, ?_, fun b => ?_, hkept, htable⟩
    · rw [hend.shape]
      rfl
    · show (setInode g n _).inodes m = _
      rw [inodes_setInode_ne _ hm, hend.inodes m hm]
    · show (setInode g n _).inodes n = _
      rw [inodes_setInode, hinode]
    · show Function.update g.used (g.inodes n).indirect false b = true ↔ _
      rw [hgind]
      by_cases hb : b = l.getD 13 0
      · rw [hb, Function.update_self]
        exact iff_of_false (by decide) (fun hc => hc.2 ((hmem _).mpr (Or.inr ⟨h13, rfl⟩)))
      · rw [Function.update_of_ne hb, hend.used b, hmem b]
        refine and_congr_right (fun _ => ⟨fun hc => ?_, fun hc k hk he => hc (Or.inl ⟨k, hk, he⟩)⟩)
        rintro (⟨k, hk, he⟩ | ⟨-, he⟩)
        · exact hc k hk he
        · exact hb he

/-! ## The whole image -/

/-- The blocks below `high` are taken, each by one inode, and those above have never been used. -/
structure Layout (fs : Filesystem) (L : ℕ → List ℕ) (high : ℕ) : Prop where
  start_le : fs.dataStart ≤ high
  le : high ≤ fs.totalBlocks
  holds : ∀ n, Holds fs n (L n)
  range : ∀ n, ∀ b ∈ L n, fs.dataStart ≤ b ∧ b < high
  disjoint : ∀ n m b, b ∈ L n → b ∈ L m → n = m
  cover : ∀ b, fs.dataStart ≤ b → b < high → ∃ n, b ∈ L n
  used : ∀ b, fs.used b = true ↔ b < high
  zero : ∀ x, high * 4096 ≤ x → fs.blocks x = 0

variable {L : ℕ → List ℕ} {high : ℕ} {g : Filesystem}

theorem dataStart_pos (fs : Filesystem) : 0 < fs.dataStart := by
  unfold dataStart inodeStart
  omega

theorem shape_dataStart (h : fs' = { fs with used := fs'.used, blocks := fs'.blocks, inodes := fs'.inodes }) :
    fs'.dataStart = fs.dataStart ∧ fs'.totalBlocks = fs.totalBlocks ∧ fs'.inodeCount = fs.inodeCount := by
  rw [h]
  exact ⟨rfl, rfl, rfl⟩

/-- After a file was emptied its old blocks are the first free ones. -/
theorem freeList_cleared (h : Layout fs L high) (hc : Cleared (L n) n fs g) :
    g.freeList = L n ++ List.range' high (fs.totalBlocks - high) := by
  obtain ⟨hds, htotal, -⟩ := shape_dataStart hc.shape
  refine eq_of_increasing g.freeList_increasing ?_ (fun b => ?_)
  · refine List.pairwise_append.mpr ⟨(h.holds n).increasing, List.pairwise_lt_range', fun a ha b hb => ?_⟩
    have := (h.range n a ha).2
    have := List.mem_range'_1.mp hb
    omega
  · have hle := h.le
    have hst := h.start_le
    have hused : g.used b = false ↔ high ≤ b ∨ b ∈ L n := by
      rw [← Bool.not_eq_true, hc.used b, h.used b, not_and_or, not_not, Nat.not_lt]
    rw [mem_freeList, hds, htotal, hused, List.mem_append, List.mem_range'_1]
    constructor
    · rintro ⟨-, hlt, hb | hb⟩
      · exact Or.inr ⟨hb, by omega⟩
      · exact Or.inl hb
    · rintro (hb | ⟨hb, hlt⟩)
      · obtain ⟨h₁, h₂⟩ := h.range n b hb
        exact ⟨h₁, by omega, Or.inr hb⟩
      · exact ⟨by omega, by omega, Or.inl hb⟩

theorem taken_mono {i j : ℕ} (h : i ≤ j) : taken i ≤ taken j := by
  unfold taken
  split <;> split <;> omega

theorem take_range' (a : ℕ) {n k : ℕ} (h : k ≤ n) : (List.range' a n).take k = List.range' a k := by
  refine List.ext_getElem ?_ (fun i h₁ h₂ => ?_)
  · rw [List.length_take, List.length_range', List.length_range', Nat.min_eq_left h]
  · rw [List.getElem_take, List.getElem_range', List.getElem_range']

/-- The bytes of an inode's file. -/
def fileBytes (fs : Filesystem) (n : ℕ) : List UInt8 :=
  (List.range (fs.inodes n).size).map ((fs.inodes n).byte fs.blocks)

/-- What writing a payload over the blocks of inode `n` leaves. -/
structure Rewritten (n : ℕ) (payload : List UInt8) (fs fs' : Filesystem) : Prop where
  shape : fs' = { fs with used := fs'.used, blocks := fs'.blocks, inodes := fs'.inodes }
  inode : fs'.inodes n = { fs.inodes n with
    direct := (fs'.inodes n).direct, indirect := (fs'.inodes n).indirect, size := payload.length }
  inodes : ∀ m, m ≠ n → fs'.inodes m = fs.inodes m
  bytes : fs'.fileBytes n = payload
  other_bytes : ∀ m, m ≠ n → fs'.fileBytes m = fs.fileBytes m

/-- `write_data` has put the payload into the blocks `T`, those that inode `n` had and `extra` more. -/
structure Refilled (L : ℕ → List ℕ) (high extra : ℕ) (T : List ℕ) (n : ℕ) (payload : List UInt8) (fs w : Filesystem) :
    Prop where
  shape : w = { fs with used := w.used, blocks := w.blocks, inodes := w.inodes }
  mem : ∀ b, b ∈ T ↔ b ∈ L n ∨ high ≤ b ∧ b < high + extra
  high_le : high + extra ≤ fs.totalBlocks
  laid : Laid w.blocks (w.inodes n) T
  length : T.length = taken (needed payload.length)
  increasing : T.Pairwise (· < ·)
  pos : ∀ b ∈ T, b ≠ 0
  size_le : payload.length ≤ 1036 * 4096
  direct : ∀ k, 12 ≤ k → (w.inodes n).direct k = 0
  fields : w.inodes n = { fs.inodes n with direct := (w.inodes n).direct, indirect := (w.inodes n).indirect, size := 0 }
  inodes : ∀ m, m ≠ n → w.inodes m = fs.inodes m
  used : ∀ b, w.used b = true ↔ b ∈ T ∨ fs.used b = true ∧ b ∉ L n
  kept : ∀ x, x / 4096 ∉ T → w.blocks x = fs.blocks x
  data : ∀ i, i < payload.length → w.blocks (T.getD (place (i / 4096)) 0 * 4096 + i % 4096) = payload.getD i 0

/-- The blocks that can be taken: the old ones of the inode and those from `high` on. -/
def spare (fs : Filesystem) (l : List ℕ) (high : ℕ) : List ℕ := l ++ List.range' high (fs.totalBlocks - high)

section Spare
variable (h : Layout fs L high)
include h

theorem mem_spare {b : ℕ} (hb : b ∈ fs.spare (L n) high) : fs.dataStart ≤ b ∧ b < fs.totalBlocks := by
  have hle := h.le
  have hst := h.start_le
  rw [spare, List.mem_append, List.mem_range'_1] at hb
  rcases hb with hb | hb
  · have := h.range n b hb
    omega
  · omega

/-- The table that is taken holds nothing beyond the end of the file: it is the old one, or a block that nobody
has written to. -/
theorem spare_table (hc : Cleared (L n) n fs g) {j : ℕ} (hgrow : needed (fs.inodes n).size ≤ j) (h12 : 12 < j)
    (henough : taken j ≤ (fs.spare (L n) high).length) {k : ℕ} (hk : j ≤ k) (hk' : k < 1036) :
    load32 g.blocks ((fs.spare (L n) high).getD 13 0 * 4096 + 4 * (k - 12)) = 0 := by
  have hlen := (h.holds n).length
  by_cases h13 : 13 < (L n).length
  · have hF13 : (fs.spare (L n) high).getD 13 0 = (L n).getD 13 0 := by rw [spare, List.getD_append _ _ _ _ h13]
    have hind : (fs.inodes n).indirect = (L n).getD 13 0 := by
      rw [← show place 1036 = 13 from rfl, ← (h.holds n).laid 1036 (Nat.le_refl _), Inode.slot_indirect]
    have hne : (fs.inodes n).indirect ≠ 0 := by
      rw [hind, List.getD_eq_getElem _ _ h13]
      exact (h.holds n).pos _ (List.getElem_mem _)
    have hsame : load32 g.blocks ((fs.spare (L n) high).getD 13 0 * 4096 + 4 * (k - 12)) = (fs.inodes n).slot fs.blocks k := by
      rw [Inode.slot_table (by omega) hk' hne, Fs.tableAddr, hF13, hind]
      exact load32_congr (fun x hx₁ hx₂ => hc.table h13 x (by omega))
    rw [hsame, (h.holds n).laid k (by omega), List.getD_eq_default]
    rw [hlen, ← not_lt, place_lt_taken hk']
    omega
  · have hshort : (L n).length ≤ 12 := by
      rw [hlen] at h13 ⊢
      unfold taken at h13 ⊢
      split at h13 <;> split <;> omega
    have h13F : 13 < (fs.spare (L n) high).length := by
      unfold taken at henough
      rw [if_pos h12] at henough
      omega
    have hF13 : high ≤ (fs.spare (L n) high).getD 13 0 := by
      rw [spare, List.length_append, List.length_range'] at h13F
      rw [spare, List.getD_append_right _ _ _ _ (by omega),
        List.getD_eq_getElem _ _ (by rw [List.length_range']; omega), List.getElem_range']
      omega
    refine load32_of_zero (fun i hi => ?_)
    have hdiv : high * 4096 ≤ (fs.spare (L n) high).getD 13 0 * 4096 + 4 * (k - 12) + i :=
      Nat.le_trans (Nat.mul_le_mul_right 4096 hF13) (Nat.le_trans (Nat.le_add_right _ _) (Nat.le_add_right _ _))
    rw [hc.kept _ (fun hin => ?_), h.zero _ hdiv]
    have hge := (Nat.le_div_iff_mul_le (show 0 < 4096 by decide)).mpr hdiv
    exact absurd (h.range n _ hin).2 (Nat.not_lt.mpr hge)

/-- The old blocks are taken first, and then those from `high` on. -/
theorem mem_take_spare {c : ℕ} (hlen : (L n).length ≤ c) (hc : c ≤ (fs.spare (L n) high).length) (b : ℕ) :
    b ∈ (fs.spare (L n) high).take c ↔ b ∈ L n ∨ high ≤ b ∧ b < high + (c - (L n).length) := by
  have hle := h.le
  rw [spare, List.length_append, List.length_range'] at hc
  rw [spare, List.take_append, List.take_of_length_le hlen, List.mem_append, take_range' high (by omega),
    List.mem_range'_1]

theorem writeData_refilled (hc : Cleared (L n) n fs g) (htotal : fs.totalBlocks < 4294967296)
    (hgrow : needed (fs.inodes n).size ≤ needed payload.length) (hw : g.writeData n payload = some fs') :
    ∃ w extra T, fs' = w.setInode n { w.inodes n with size := payload.length } ∧
      Refilled L high extra T n payload fs w := by
  have hle := h.le
  have hds := dataStart_pos fs
  have hinc := g.freeList_increasing
  have hstart : Filling g.freeList n payload g 0 g := Filling.start g (by rw [hc.inode]; exact fun _ => rfl) (by rw [hc.inode])
  have hfree : g.freeList = fs.spare (L n) high := freeList_cleared h hc
  rw [hfree] at hinc hstart
  unfold writeData at hw
  dsimp only at hw
  rw [show (payload.length + 4095) / 4096 = needed payload.length from rfl] at hw
  split at hw
  · cases hw
  rename_i hlimit
  obtain ⟨w, hfold, rfl⟩ := Option.map_eq_some_iff.mp hw
  have hfill := foldlM_filling hinc (fun b hb => Nat.lt_trans (mem_spare h hb).2 htotal) hstart (by omega) hfold
  have henough := hfill.enough
  have hlen := (h.holds n).length
  have hmono := taken_mono hgrow
  have hmem := mem_take_spare (n := n) h (by omega) henough
  have hpos : ∀ b ∈ fs.spare (L n) high, b ≠ 0 := fun b hb => by
    have := (mem_spare h hb).1
    omega
  have htable := fun h12 k hk hk' => spare_table h hc hgrow h12 henough (k := k) hk hk'
  have hfields := hfill.fields
  rw [hc.inode] at hfields
  refine ⟨w, _, _, rfl, ?_, hmem, ?_, hfill.laid (by omega) htable hpos, ?_, hinc.sublist (List.take_sublist _ _),
    fun b hb => hpos b (List.mem_of_mem_take hb), ?_, fun k hk => (hfill.direct k).trans (if_neg (by omega)), hfields,
    fun m hm => (hfill.inodes m hm).trans (hc.inodes m hm), ?_, fun x hx => ?_, fun i hi => ?_⟩
  · have h₁ := hfill.shape
    rw [hc.shape] at h₁
    exact h₁
  · rw [spare, List.length_append, List.length_range'] at henough
    omega
  · rw [List.length_take]
    omega
  · unfold needed at hlimit
    omega
  · intro b
    rw [hfill.used b, hc.used b]
  · rw [hfill.kept x hx]
    exact hc.kept x (fun hin => hx ((hmem _).mpr (Or.inl hin)))
  · have hk : i / 4096 < needed payload.length := by
      unfold needed
      omega
    have hp : place (i / 4096) < taken (needed payload.length) := (place_lt_taken (by omega)).mpr hk
    rw [List.getD_eq_getElem _ _ (by rw [List.length_take]; omega), List.getElem_take, ← List.getD_eq_getElem _ 0 (by omega)]
    refine hfill.data i hi ?_
    unfold needed
    omega

omit h in
/-- A slot that is not empty is one of the blocks of the inode. -/
theorem Holds.slot_mem {m k : ℕ} {l : List ℕ} (h : Holds fs m l) (hk : k ≤ 1036) (hne : (fs.inodes m).slot fs.blocks k ≠ 0) :
    (fs.inodes m).slot fs.blocks k ∈ l := by
  rw [h.laid k hk] at hne ⊢
  by_cases hp : place k < l.length
  · rw [List.getD_eq_getElem _ _ hp]
    exact List.getElem_mem _
  · rw [List.getD_eq_default _ _ (by omega)] at hne
    exact absurd rfl hne

end Spare

section Refilled
variable {w : Filesystem} {T : List ℕ} {extra : ℕ} (h : Layout fs L high) (r : Refilled L high extra T n payload fs w)
include h r

/-- Another inode has none of the blocks. -/
theorem Refilled.not_mem {m b : ℕ} (hm : m ≠ n) (hb : b ∈ T) : b ∉ L m := by
  intro hbm
  rcases (r.mem b).mp hb with hb | hb
  · exact hm (h.disjoint m n b hbm hb)
  · have := (h.range m b hbm).2
    omega

theorem Refilled.block {m : ℕ} (hm : m ≠ n) {b : ℕ} (hb : b ∈ L m) : SameOn fs.blocks w.blocks (b * 4096) 4096 := by
  intro x hx₁ hx₂
  refine r.kept x (fun hin => ?_)
  have hxb : x / 4096 = b := by omega
  rw [hxb] at hin
  exact r.not_mem h hm hin hb

theorem Refilled.slot {m : ℕ} (hm : m ≠ n) (k : ℕ) : (fs.inodes m).slot w.blocks k = (fs.inodes m).slot fs.blocks k := by
  refine Inode.slot_same (fun hi => r.block h hm ?_) k
  have hin := (h.holds m).slot_mem (k := 1036) (Nat.le_refl _)
  rw [Inode.slot_indirect] at hin
  exact hin hi

theorem Refilled.holds (m : ℕ) :
    Holds (w.setInode n { w.inodes n with size := payload.length }) m (Function.update L n T m) := by
  by_cases hm : m = n
  · subst hm
    rw [Function.update_self]
    refine ⟨?_, ?_, ?_, r.increasing, r.pos, fun k hk => ?_⟩ <;> rw [inodes_setInode]
    · exact r.laid
    · exact r.length
    · exact r.size_le
    · exact r.direct k hk
  · rw [Function.update_of_ne hm]
    have hold := h.holds m
    have hi : (w.setInode n { w.inodes n with size := payload.length }).inodes m = fs.inodes m := by
      rw [inodes_setInode_ne _ hm, r.inodes m hm]
    refine ⟨fun k hk => ?_, ?_, ?_, hold.increasing, hold.pos, ?_⟩ <;> rw [hi]
    · exact (r.slot h hm k).trans (hold.laid k hk)
    · exact hold.length
    · exact hold.size_le
    · exact hold.direct

/-- The blocks below `high + extra` are used, and those from there on have not been written to. -/
theorem Refilled.layout : Layout (w.setInode n { w.inodes n with size := payload.length }) (Function.update L n T)
    (high + extra) := by
  have hle := h.le
  have hst := h.start_le
  have hds : (w.setInode n { w.inodes n with size := payload.length }).dataStart = fs.dataStart := by
    rw [r.shape]
    rfl
  refine ⟨?_, ?_, r.holds h, fun m b hb => ?_, fun m m' b hb hb' => ?_, fun b h₁ h₂ => ?_, fun b => ?_, fun x hx => ?_⟩
  · rw [hds]
    omega
  · show high + extra ≤ w.totalBlocks
    rw [show w.totalBlocks = fs.totalBlocks by rw [r.shape]]
    exact r.high_le
  · rw [hds]
    by_cases hm : m = n
    · subst hm
      rw [Function.update_self, r.mem] at hb
      rcases hb with hb | hb
      · have := h.range m b hb
        omega
      · omega
    · rw [Function.update_of_ne hm] at hb
      have := h.range m b hb
      omega
  · by_cases hm : m = n <;> by_cases hm' : m' = n
    · exact hm.trans hm'.symm
    · subst hm
      rw [Function.update_self] at hb
      rw [Function.update_of_ne hm'] at hb'
      exact absurd hb' (r.not_mem h hm' hb)
    · subst hm'
      rw [Function.update_self] at hb'
      rw [Function.update_of_ne hm] at hb
      exact absurd hb (r.not_mem h hm hb')
    · rw [Function.update_of_ne hm] at hb
      rw [Function.update_of_ne hm'] at hb'
      exact h.disjoint m m' b hb hb'
  · rw [hds] at h₁
    by_cases hb : b < high
    · obtain ⟨m, hbm⟩ := h.cover b h₁ hb
      by_cases hm : m = n
      · subst hm
        exact ⟨m, by rw [Function.update_self, r.mem]; exact Or.inl hbm⟩
      · exact ⟨m, by rw [Function.update_of_ne hm]; exact hbm⟩
    · exact ⟨n, by rw [Function.update_self, r.mem]; exact Or.inr ⟨by omega, h₂⟩⟩
  · show w.used b = true ↔ _
    rw [r.used b, r.mem b, h.used b]
    constructor
    · rintro ((hb | hb) | hb)
      · have := (h.range n b hb).2
        omega
      · omega
      · omega
    · intro hb
      by_cases hin : b ∈ L n
      · exact Or.inl (Or.inl hin)
      · by_cases hlt : b < high
        · exact Or.inr ⟨hlt, hin⟩
        · exact Or.inl (Or.inr ⟨by omega, hb⟩)
  · show w.blocks x = 0
    have hge : high + extra ≤ x / 4096 := (Nat.le_div_iff_mul_le (show 0 < 4096 by decide)).mpr hx
    have hx' : high * 4096 ≤ x := Nat.le_trans (Nat.mul_le_mul_right 4096 (Nat.le_add_right high extra)) hx
    rw [r.kept x (fun hin => ?_), h.zero x hx']
    rcases (r.mem _).mp hin with hb | hb
    · exact absurd (h.range n _ hb).2 (Nat.not_lt.mpr (Nat.le_trans (Nat.le_add_right high extra) hge))
    · exact absurd hb.2 (Nat.not_lt.mpr hge)

omit h in
/-- The file holds the payload. -/
theorem Refilled.fileBytes : (w.setInode n { w.inodes n with size := payload.length }).fileBytes n = payload := by
  unfold Filesystem.fileBytes
  rw [inodes_setInode]
  refine List.ext_getElem (by simp) (fun i h₁ h₂ => ?_)
  rw [List.getElem_map, List.getElem_range, ← List.getD_eq_getElem _ 0 h₂, ← r.data i h₂]
  have hsize := r.size_le
  have hk : i / 4096 < needed payload.length := by
    unfold needed
    omega
  have hneeded : needed payload.length ≤ 1036 := by
    unfold needed
    omega
  have hp : place (i / 4096) < T.length := by
    rw [r.length]
    exact (place_lt_taken (by omega)).mpr hk
  have hslot : (w.inodes n).slot w.blocks (i / 4096) = T.getD (place (i / 4096)) 0 := r.laid _ (by omega)
  have hne : T.getD (place (i / 4096)) 0 ≠ 0 := by
    rw [List.getD_eq_getElem _ _ hp]
    exact r.pos _ (List.getElem_mem _)
  show (w.inodes n).byte w.blocks i = _
  unfold Inode.byte
  rw [hslot, if_neg hne]

theorem Refilled.rewritten : Rewritten n payload fs (w.setInode n { w.inodes n with size := payload.length }) := by
  refine ⟨?_, ?_, fun m hm => ?_, r.fileBytes, fun m hm => ?_⟩
  · rw [r.shape]
    rfl
  · rw [inodes_setInode, r.fields]
  · rw [inodes_setInode_ne _ hm, r.inodes m hm]
  · unfold Filesystem.fileBytes
    rw [inodes_setInode_ne _ hm, r.inodes m hm]
    refine List.map_congr_left (fun pos hpos => ?_)
    have hp := List.mem_range.mp hpos
    have hsz := (h.holds m).size_le
    exact Inode.byte_congr (r.slot h hm _) (fun hne => r.block h hm ((h.holds m).slot_mem (by omega) hne))

end Refilled

/-- Writing a payload over a file that it does not shorten. -/
theorem Layout.rewrite (h : Layout fs L high) (hc : Cleared (L n) n fs g) (htotal : fs.totalBlocks < 4294967296)
    (hgrow : needed (fs.inodes n).size ≤ needed payload.length) (hw : g.writeData n payload = some fs') :
    (∃ l high', Layout fs' (Function.update L n l) high') ∧ Rewritten n payload fs fs' := by
  obtain ⟨w, extra, T, rfl, r⟩ := writeData_refilled h hc htotal hgrow hw
  exact ⟨⟨T, high + extra, r.layout h⟩, r.rewritten h⟩

end Filesystem
end SifarOS.Mkfs
