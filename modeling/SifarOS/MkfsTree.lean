import Mathlib.Data.List.Find
import SifarOS.MkfsBuild
import SifarOS.NamedTree

/-! # The directories of a build

The data of a directory that `mkfs.py` has written is its entries, one record after the other. They
make a tree, to which every new inode is added as a leaf. -/
namespace SifarOS.Mkfs
open ByteMemory SifarFs NamedTree

namespace Filesystem

variable {fs fs' : Filesystem} {data : ℕ → List UInt8} {K : ℕ → List (List UInt8 × ℕ)} {es : List (List UInt8 × ℕ)}
  {n c parent : ℕ} {x : List UInt8} {p : List (List UInt8)} {i : Inode}

/-! ## Records -/

/-- An entry, as it is read. -/
def direntOf (e : List UInt8 × ℕ) : Fs.Dirent := ⟨e.2, e.1⟩

/-- The data of a directory with these entries. -/
def encodeAll (es : List (List UInt8 × ℕ)) : List UInt8 := es.flatMap (fun e => Fs.encodeDirent e.2 e.1)

/-- Entries that a record can hold. -/
def Storable (es : List (List UInt8 × ℕ)) : Prop := ∀ e ∈ es, e.1.length < 56 ∧ 1 ≤ e.2 ∧ e.2 < 4294967296

theorem encodeAll_cons (e : List UInt8 × ℕ) (es : List (List UInt8 × ℕ)) :
    encodeAll (e :: es) = Fs.encodeDirent e.2 e.1 ++ encodeAll es := List.flatMap_cons

theorem encodeAll_append (es es' : List (List UInt8 × ℕ)) : encodeAll (es ++ es') = encodeAll es ++ encodeAll es' := by
  unfold encodeAll
  rw [List.flatMap_append]

theorem Storable.tail {e : List UInt8 × ℕ} (h : Storable (e :: es)) : Storable es :=
  fun e' he => h e' (List.mem_cons_of_mem _ he)

theorem length_encodeAll (h : Storable es) : (encodeAll es).length = 64 * es.length := by
  induction es with
  | nil => rfl
  | cons e es ih =>
    rw [encodeAll_cons, List.length_append, length_encodeDirent _ (h e List.mem_cons_self).1.le, ih h.tail,
      List.length_cons]
    omega

theorem drop_encodeAll (h : Storable es) (i : ℕ) : (encodeAll es).drop (64 * i) = encodeAll (es.drop i) := by
  induction i generalizing es with
  | zero => rfl
  | succ i ih =>
    cases es with
    | nil => simp [encodeAll]
    | cons e es =>
      have hlen := length_encodeDirent e.2 (h e List.mem_cons_self).1.le
      rw [encodeAll_cons, show 64 * (i + 1) = 64 + 64 * i by omega, ← List.drop_drop, List.drop_left' hlen, ih h.tail,
        List.drop_succ_cons]

/-- The words before the name. -/
theorem getD_encodeDirent (child : ℕ) (name rest : List UInt8) {j : ℕ} (hj : j < 4) :
    (Fs.encodeDirent child name ++ rest).getD j 0 = wordByte child j ∧
      (Fs.encodeDirent child name ++ rest).getD (4 + j) 0 = wordByte name.length j := by
  unfold Fs.encodeDirent
  match j, hj with
  | 0, _ | 1, _ | 2, _ | 3, _ => exact ⟨rfl, rfl⟩

theorem entryOf_encodeAll (h : Storable es) {i : ℕ} (hi : i < es.length) : entryOf (encodeAll es) i = direntOf es[i] := by
  obtain ⟨hname, -, hlt⟩ := h es[i] (List.getElem_mem hi)
  unfold entryOf
  rw [drop_encodeAll h, List.drop_eq_getElem_cons hi, encodeAll_cons]
  generalize es[i] = e at hname hlt
  generalize encodeAll (es.drop (i + 1)) = rest
  have h₀ : load32 (fun k => (Fs.encodeDirent e.2 e.1 ++ rest).getD k 0) 0 = e.2 := by
    refine (load32_of_bytes (fun j hj => ?_)).trans (Nat.mod_eq_of_lt hlt)
    rw [Nat.zero_add]
    exact (getD_encodeDirent e.2 e.1 rest hj).1
  have h₄ : load32 (fun k => (Fs.encodeDirent e.2 e.1 ++ rest).getD k 0) 4 = e.1.length :=
    (load32_of_bytes (fun j hj => (getD_encodeDirent e.2 e.1 rest hj).2)).trans (Nat.mod_eq_of_lt (by omega))
  have hdrop : (Fs.encodeDirent e.2 e.1 ++ rest).drop 8 = e.1 ++ (List.replicate (56 - e.1.length) 0 ++ rest) := by
    unfold Fs.encodeDirent
    rw [List.append_assoc, List.append_assoc]
    exact List.drop_left' (by simp)
  dsimp only
  rw [h₀, h₄, hdrop, List.take_left' rfl]
  rfl

/-- A scan of a directory finds the first entry that is wanted. -/
theorem scan_encodeAll (h : Storable es) {bytes : ℕ} (hb : bytes ≤ 64) (wanted : Fs.Dirent → Bool) :
    ∃ found, scan bytes wanted (encodeAll es) = some found ∧
      found.map (entryOf (encodeAll es)) = (es.find? (fun e => wanted (direntOf e))).map direntOf := by
  have hlen := length_encodeAll h
  have hcount : ((encodeAll es).length + 63) / 64 = es.length := by omega
  have hshort : ∀ i, i < es.length → decide ((encodeAll es).length < 64 * i + bytes) = false :=
    fun i hi => decide_eq_false (by omega)
  unfold scan
  dsimp only
  rw [hcount]
  cases hf : (List.range es.length).find? (fun i => decide ((encodeAll es).length < 64 * i + bytes) ||
      wanted (entryOf (encodeAll es) i)) with
  | none =>
    refine ⟨none, rfl, ?_⟩
    have hnone : es.find? (fun e => wanted (direntOf e)) = none := by
      rw [List.find?_eq_none]
      intro e he
      obtain ⟨i, hi, rfl⟩ := List.mem_iff_getElem.mp he
      have := List.find?_range_eq_none.mp hf i hi
      rw [hshort i hi, Bool.false_or, entryOf_encodeAll h hi] at this
      simpa using this
    rw [hnone]
    rfl
  | some i =>
    obtain ⟨hw, hi, hbefore⟩ := List.find?_range_eq_some.mp hf
    have hi := List.mem_range.mp hi
    refine ⟨some i, if_neg ?_, ?_⟩
    · rw [hshort i hi]
      exact Bool.false_ne_true
    have hsome : es.find? (fun e => wanted (direntOf e)) = some es[i] := by
      rw [List.find?_eq_some_iff_getElem]
      rw [hshort i hi, Bool.false_or, entryOf_encodeAll h hi] at hw
      refine ⟨hw, i, hi, rfl, fun j hj => ?_⟩
      have := hbefore j hj
      rw [hshort j (by omega), Bool.false_or, entryOf_encodeAll h (by omega)] at this
      exact this
    rw [hsome, Option.map_some, Option.map_some, entryOf_encodeAll h hi]

/-! ## The tree -/

/-- The directories of a build are a tree below the root. -/
structure Planted (fs : Filesystem) (data : ℕ → List UInt8) (K : ℕ → List (List UInt8 × ℕ)) : Prop where
  built : Built fs data
  root : (fs.inodes 1).type = typeDir
  dirs : ∀ n, (fs.inodes n).type = typeDir → data n = encodeAll (K n)
  leaves : ∀ n, (fs.inodes n).type ≠ typeDir → K n = []
  names : ∀ n, ∀ e ∈ K n, e.1.length < 56
  alive : ∀ n, ∀ e ∈ K n, (fs.inodes e.2).type ≠ typeFree
  nodup : ∀ n, ((K n).map Prod.fst).Nodup
  unique : Unique K 1

/-- An allocated inode has a number. -/
theorem Built.numbered (h : Built fs data) (ht : (fs.inodes n).type ≠ typeFree) : 1 ≤ n ∧ n ≤ fs.inodeCount := by
  by_contra hn
  exact ht (by rw [h.outside n (by omega)]; rfl)

theorem Planted.storable (h : Planted fs data K) (n : ℕ) : Storable (K n) := by
  intro e he
  have hn := h.built.numbered (h.alive n e he)
  have hc := h.built.count_lt
  exact ⟨h.names n e he, hn.1, by omega⟩

theorem Planted.walk_alive (h : Planted fs data K) (hp : walk K 1 p = some n) : (fs.inodes n).type ≠ typeFree := by
  induction p using List.reverseRecOn with
  | nil =>
    obtain rfl := Option.some.inj hp
    rw [h.root]
    decide
  | append_singleton p x _ =>
    rw [walk_concat] at hp
    obtain ⟨m, -, hc⟩ := Option.bind_eq_some_iff.mp hp
    exact h.alive m _ (mem_of_child hc)

/-- A free inode is not in the tree. -/
theorem Planted.walk_ne_free (h : Planted fs data K) (hf : (fs.inodes c).type = typeFree) (q : List (List UInt8)) :
    walk K 1 q ≠ some c := fun hq => h.walk_alive hq hf

/-- An inode is allocated, outside the tree. -/
theorem Planted.allocate (h : Planted fs data K) (ha : fs.allocInode = some c) (hi : SameData {} i) (hh : Header i)
    (ht : i.type ≠ typeFree) : Planted (fs.setInode c i) data K := by
  obtain ⟨hfree, hn⟩ := allocInode_free ha
  have hKc : K c = [] := h.leaves c (by rw [hfree]; decide)
  have hone : (1 : ℕ) ≠ c := fun he => by
    have hr := h.root
    rw [he, hfree] at hr
    exact absurd hr (by decide)
  have hdata : data c = [] := by
    have hs := h.built.size_eq c
    rw [h.built.free c hfree] at hs
    exact List.eq_nil_of_length_eq_zero hs.symm
  refine ⟨h.built.allocate hfree hn hi hh ht, ?_, fun n hn => ?_, fun n hn => ?_, h.names, fun n e he => ?_, h.nodup, h.unique⟩
  · rw [inodes_setInode_ne _ hone]
    exact h.root
  · by_cases hnc : n = c
    · subst hnc
      rw [hdata, hKc]
      rfl
    · rw [inodes_setInode_ne _ hnc] at hn
      exact h.dirs n hn
  · by_cases hnc : n = c
    · subst hnc
      exact hKc
    · rw [inodes_setInode_ne _ hnc] at hn
      exact h.leaves n hn
  · have hne : e.2 ≠ c := fun hec => h.alive n e he (hec ▸ hfree)
    rw [inodes_setInode_ne _ hne]
    exact h.alive n e he

/-- What `write_data` leaves of an inode besides its data. -/
theorem Rewritten.type_eq {payload : List UInt8} (h : Rewritten n payload fs fs') (m : ℕ) :
    (fs'.inodes m).type = (fs.inodes m).type ∧ (fs'.inodes m).flags = (fs.inodes m).flags := by
  by_cases hm : m = n
  · subst hm
    rw [h.inode]
    exact ⟨rfl, rfl⟩
  · rw [h.inodes m hm]
    exact ⟨rfl, rfl⟩

/-- The data of a file is written. -/
theorem Planted.writeFile (h : Planted fs data K) (ht : (fs.inodes c).type = typeFile) (hs : SameData {} (fs.inodes c))
    {payload : List UInt8} (hw : fs.writeData c payload = some fs') :
    Planted fs' (Function.update data c payload) K ∧ Rewritten c payload fs fs' := by
  obtain ⟨hb, hr⟩ := h.built.rewrite (n := c) (by rw [ht]; decide) (fun l hl => cleared_of_empty hs hl)
    (by rw [← h.built.size_eq, hs.size]; exact Nat.zero_le _) hw
  refine ⟨⟨hb, by rw [(hr.type_eq 1).1]; exact h.root, fun n hn => ?_, fun n hn => ?_, h.names, fun n e he => ?_, h.nodup,
    h.unique⟩, hr⟩
  · rw [(hr.type_eq n).1] at hn
    have hne : n ≠ c := by
      rintro rfl
      rw [ht] at hn
      exact absurd hn (by decide)
    rw [Function.update_of_ne hne]
    exact h.dirs n hn
  · rw [(hr.type_eq n).1] at hn
    exact h.leaves n hn
  · rw [(hr.type_eq e.2).1]
    exact h.alive n e he

/-- `dir_add` writes the entry behind those that are there. -/
theorem Planted.dirPayload (h : Planted fs data K) (hd : (fs.inodes parent).type = typeDir) {bytes : List UInt8}
    (hp : fs.dirPayload parent x c = some bytes) : x.length < 56 ∧ bytes = encodeAll (K parent ++ [(x, c)]) := by
  unfold Filesystem.dirPayload at hp
  split at hp
  · cases hp
  rename_i hx
  obtain ⟨old, hread, hp⟩ := Option.bind_eq_some_iff.mp hp
  obtain ⟨hole, hscan, rfl⟩ := Option.map_eq_some_iff.mp hp
  obtain rfl : old = encodeAll (K parent) := (h.built.readData hread).trans (h.dirs parent hd)
  -- no entry has inode number 0
  obtain ⟨found, hscan', hfound⟩ := scan_encodeAll (h.storable parent) (show 4 ≤ 64 by decide) (fun e => e.inode == 0)
  have hnone : (K parent).find? (fun e => (direntOf e).inode == 0) = none := by
    rw [List.find?_eq_none]
    intro e he
    have := (h.storable parent e he).2.1
    simp only [direntOf, beq_iff_eq]
    omega
  rw [hnone, Option.map_none, Option.map_eq_none_iff] at hfound
  rw [hfound, hscan] at hscan'
  obtain rfl := Option.some.inj hscan'
  refine ⟨Nat.lt_of_not_le hx, ?_⟩
  rw [encodeAll_append, encodeAll_cons]
  simp [encodeAll]

/-- `dir_add` of an inode outside the tree. -/
theorem Planted.dirAdd (h : Planted fs data K) (hp : walk K 1 p = some parent) (hd : (fs.inodes parent).type = typeDir)
    (hx : child K parent x = none) (hc : (fs.inodes c).type ≠ typeFree) (hK : K c = []) (hne : c ≠ parent)
    (hnew : ∀ q, walk K 1 q ≠ some c) (ha : fs.dirAdd parent x c = some fs') :
    Planted fs' (Function.update data parent (encodeAll (K parent ++ [(x, c)]))) (addChild K parent x c) ∧
      Rewritten parent (encodeAll (K parent ++ [(x, c)])) fs fs' := by
  rw [dirAdd_eq] at ha
  obtain ⟨bytes, hbytes, hw⟩ := Option.bind_eq_some_iff.mp ha
  obtain ⟨hlen, rfl⟩ := h.dirPayload hd hbytes
  obtain ⟨hb, hr⟩ := h.built.rewrite (n := parent) (by rw [hd]; decide) (fun l hl => freeData_cleared hl)
    (length_dirPayload h.built hbytes) hw
  refine ⟨⟨hb, by rw [(hr.type_eq 1).1]; exact h.root, fun n hn => ?_, fun n hn => ?_, fun n e he => ?_, fun n e he => ?_,
    fun n => ?_, h.unique.addChild hp hx hK hne hnew⟩, hr⟩
  · rw [(hr.type_eq n).1] at hn
    by_cases hnp : n = parent
    · subst hnp
      rw [Function.update_self, addChild_parent]
    · rw [Function.update_of_ne hnp, addChild_ne hnp]
      exact h.dirs n hn
  · rw [(hr.type_eq n).1] at hn
    have hnp : n ≠ parent := fun he => hn (he ▸ hd)
    rw [addChild_ne hnp]
    exact h.leaves n hn
  · by_cases hnp : n = parent
    · subst hnp
      rw [addChild_parent] at he
      rcases List.mem_append.mp he with he | he
      · exact h.names n e he
      · rw [List.mem_singleton.mp he]
        exact hlen
    · rw [addChild_ne hnp] at he
      exact h.names n e he
  · rw [(hr.type_eq e.2).1]
    by_cases hnp : n = parent
    · subst hnp
      rw [addChild_parent] at he
      rcases List.mem_append.mp he with he | he
      · exact h.alive n e he
      · rw [List.mem_singleton.mp he]
        exact hc
    · rw [addChild_ne hnp] at he
      exact h.alive n e he
  · by_cases hnp : n = parent
    · subst hnp
      rw [addChild_parent, List.map_append, List.nodup_append]
      refine ⟨h.nodup n, List.nodup_singleton _, fun y hy z hz => ?_⟩
      obtain ⟨e, he, rfl⟩ := List.mem_map.mp hy
      rw [List.mem_singleton.mp hz]
      exact child_eq_none.mp hx e he
    · rw [addChild_ne hnp]
      exact h.nodup n

/-- `resolve_directory` finds a child by its name. -/
theorem Planted.scan_child (h : Planted fs data K) (dir : ℕ) (part : List UInt8) :
    ∃ found, scan 8 (fun e => e.inode != 0 && e.name == part) (encodeAll (K dir)) = some found ∧
      found.map (fun i => (entryOf (encodeAll (K dir)) i).inode) = child K dir part := by
  obtain ⟨found, hscan, hfound⟩ := scan_encodeAll (h.storable dir) (show 8 ≤ 64 by decide)
    (fun e => e.inode != 0 && e.name == part)
  refine ⟨found, hscan, ?_⟩
  have hcongr : (K dir).find? (fun e => (direntOf e).inode != 0 && (direntOf e).name == part) =
      (K dir).find? (fun e => e.1 = part) := by
    refine List.find?_congr (fun e he => ?_)
    have hpos := (h.storable dir e he).2.1
    have hne : (e.2 != 0) = true := by
      rw [bne_iff_ne]
      omega
    show (e.2 != 0 && e.1 == part) = decide (e.1 = part)
    rw [hne, Bool.true_and]
    exact beq_eq_decide ..
  have hmap := congrArg (Option.map Fs.Dirent.inode) hfound
  rw [hcongr, Option.map_map, Option.map_map] at hmap
  exact hmap

end Filesystem

/-! ## A list of files -/

/-- A file for the image. -/
structure SourceFile where
  parts : List (List UInt8)
  name : List UInt8
  payload : List UInt8
  flags : ℕ
  deriving DecidableEq, Repr

def SourceFile.path (f : SourceFile) : List (List UInt8) := f.parts ++ [f.name]

def SourceFile.argument (f : SourceFile) : Argument := .file f.parts f.name f.payload f.flags

/-- No path goes through another one. -/
def Separate (files : List SourceFile) : Prop := ∀ f ∈ files, ∀ g ∈ files, f.path <+: g.path → f.path = g.path

namespace Filesystem

/-- The tree has the files in `done`, and nothing else but directories on the way to those in `all`. -/
structure Listing (all done : List SourceFile) (fs : Filesystem) (data : ℕ → List UInt8)
    (K : ℕ → List (List UInt8 × ℕ)) : Prop where
  planted : Planted fs data K
  files : ∀ f ∈ done, ∃ n, walk K 1 f.path = some n ∧ (fs.inodes n).type = typeFile ∧ (fs.inodes n).flags = f.flags ∧
    data n = f.payload
  only : ∀ p n, walk K 1 p = some n → ((fs.inodes n).type = typeFile ∧ ∃ f ∈ done, f.path = p) ∨
    ((fs.inodes n).type = typeDir ∧ (p = [] ∨ ∃ g ∈ all, p <+: g.parts))

variable {fs g fs' : Filesystem} {data data' : ℕ → List UInt8} {K : ℕ → List (List UInt8 × ℕ)}
  {all done done' : List SourceFile} {n c dir parent : ℕ} {x part : List UInt8} {p pre parts : List (List UInt8)}
  {f : SourceFile}

/-- A new inode `c` is given its data and then a place in the tree. -/
theorem Listing.grow (h : Listing all done fs data K) (hc : (fs.inodes c).type = typeFree)
    (hp : walk K 1 p = some parent) (hd : (fs.inodes parent).type = typeDir) (hx : child K parent x = none)
    (hmid : Planted g data' K) (hsame : ∀ n, n ≠ c → g.inodes n = fs.inodes n ∧ data' n = data n)
    (ht : (g.inodes c).type ≠ typeFree) (ha : g.dirAdd parent x c = some fs') (hsub : ∀ f ∈ done, f ∈ done')
    (hfiles : ∀ f ∈ done', f ∈ done ∨ (f.path = p ++ [x] ∧ (g.inodes c).type = typeFile ∧
      (g.inodes c).flags = f.flags ∧ data' c = f.payload))
    (honly : ((g.inodes c).type = typeFile ∧ ∃ f ∈ done', f.path = p ++ [x]) ∨
      ((g.inodes c).type = typeDir ∧ ∃ s ∈ all, p ++ [x] <+: s.parts)) :
    ∃ data'', Listing all done' fs' data'' (addChild K parent x c) ∧ walk (addChild K parent x c) 1 (p ++ [x]) = some c ∧
      (fs'.inodes c).type = (g.inodes c).type := by
  have hKc : K c = [] := h.planted.leaves c (by rw [hc]; decide)
  have hnew := h.planted.walk_ne_free hc
  have hpc : parent ≠ c := fun he => by
    rw [he, hc] at hd
    exact absurd hd (by decide)
  have hgd : (g.inodes parent).type = typeDir := by rw [(hsame parent hpc).1]; exact hd
  obtain ⟨hplanted, hr⟩ := hmid.dirAdd hp hgd hx ht hKc hpc.symm hnew ha
  have hwalk := walk_addChild (c := c) h.planted.unique hp hx hKc hpc.symm
  have hself : walk (addChild K parent x c) 1 (p ++ [x]) = some c := by rw [hwalk, if_pos rfl]
  refine ⟨_, ⟨hplanted, fun f hf => ?_, fun q n hq => ?_⟩, hself, (hr.type_eq c).1⟩
  · rcases hfiles f hf with hf | ⟨hpath, htype, hflags, hpay⟩
    · obtain ⟨n, hn, htype, hflags, hpay⟩ := h.files f hf
      have hnc : n ≠ c := fun he => hnew _ (he ▸ hn)
      have hnp : n ≠ parent := fun he => by
        rw [he, hd] at htype
        exact absurd htype (by decide)
      refine ⟨n, ?_, ?_, ?_, ?_⟩
      · rw [hwalk, if_neg (fun he => ?_)]
        · exact hn
        · rw [he, walk_concat, hp, Option.bind_some, hx] at hn
          cases hn
      · rw [(hr.type_eq n).1, (hsame n hnc).1, htype]
      · rw [(hr.type_eq n).2, (hsame n hnc).1, hflags]
      · rw [Function.update_of_ne hnp, (hsame n hnc).2, hpay]
    · exact ⟨c, by rw [hpath]; exact hself, by rw [(hr.type_eq c).1, htype], by rw [(hr.type_eq c).2, hflags],
        by rw [Function.update_of_ne hpc.symm, hpay]⟩
  · rw [hwalk] at hq
    split at hq
    · rename_i he
      obtain rfl := Option.some.inj hq
      rw [(hr.type_eq c).1, he]
      rcases honly with h₁ | ⟨h₁, h₂⟩
      · exact Or.inl h₁
      · exact Or.inr ⟨h₁, Or.inr h₂⟩
    · have hnc : n ≠ c := fun he => hnew _ (he ▸ hq)
      rw [(hr.type_eq n).1, (hsame n hnc).1]
      rcases h.only q n hq with ⟨h₁, f, hf, h₂⟩ | h₁
      · exact Or.inl ⟨h₁, f, hsub f hf, h₂⟩
      · exact Or.inr h₁

/-- One part of a path on the way to a listed file. -/
theorem Listing.resolvePart (h : Listing all done fs data K) (hsep : Separate all) (hsub : ∀ f ∈ done, f ∈ all)
    (hf : f ∈ all) (hpre : pre ++ [part] <+: f.parts) (hw : walk K 1 pre = some dir)
    (hd : (fs.inodes dir).type = typeDir) {next : Filesystem × ℕ} (hr : resolvePart false (fs, dir) part = some next) :
    ∃ data' K', Listing all done next.1 data' K' ∧ walk K' 1 (pre ++ [part]) = some next.2 ∧
      (next.1.inodes next.2).type = typeDir := by
  unfold Filesystem.resolvePart at hr
  obtain ⟨bytes, hread, hr⟩ := Option.bind_eq_some_iff.mp hr
  obtain rfl : bytes = encodeAll (K dir) := (h.planted.built.readData hread).trans (h.planted.dirs dir hd)
  obtain ⟨found, hscan, hchild⟩ := h.planted.scan_child dir part
  dsimp only at hr
  rw [hscan, Option.bind_some] at hr
  have hwalk : walk K 1 (pre ++ [part]) = child K dir part := by rw [walk_concat, hw, Option.bind_some]
  cases found with
  | some i =>
    dsimp only at hr
    rw [if_neg (fun hc => Bool.false_ne_true hc.1)] at hr
    obtain rfl := Option.some.inj hr
    rw [← hchild] at hwalk
    refine ⟨data, K, h, hwalk, ?_⟩
    rcases h.only _ _ hwalk with ⟨-, g, hg, hpath⟩ | ⟨hdir, -⟩
    · -- a file here would be on the way to another one
      have hle := hpre.length_le
      have heq := hsep g (hsub g hg) f hf (by rw [hpath]; exact hpre.trans (List.prefix_append _ _))
      have hlen := congrArg List.length (heq.symm.trans hpath)
      unfold SourceFile.path at hlen
      rw [List.length_append, List.length_singleton] at hlen
      omega
    · exact hdir
  | none =>
    obtain ⟨⟨g, number⟩, hmake, hr⟩ := Option.bind_eq_some_iff.mp hr
    obtain ⟨fs', hadd, rfl⟩ := Option.map_eq_some_iff.mp hr
    obtain ⟨number', halloc, he⟩ := Option.map_eq_some_iff.mp hmake
    obtain ⟨rfl, rfl⟩ := Prod.mk.inj he
    have hfree := (allocInode_free halloc).1
    have hempty := h.planted.built.free number' hfree
    have hmid := h.planted.allocate halloc (i := { fs.inodes number' with type := typeDir, links := 1, size := 0 })
      (by rw [hempty]; exact ⟨rfl, rfl, rfl⟩)
      (by rw [hempty]; exact { header_empty with type_lt := by decide, links_lt := by decide })
      (show typeDir ≠ typeFree by decide)
    have htype : ((fs.setInode number' { fs.inodes number' with type := typeDir, links := 1, size := 0 }).inodes number').type =
        typeDir := by rw [inodes_setInode]
    obtain ⟨data', hl, hself, hdir⟩ := h.grow hfree hw hd hchild.symm hmid (fun n hn => ⟨inodes_setInode_ne _ hn _, rfl⟩)
      (by rw [htype]; decide) hadd (fun f hf => hf) (fun f hf => Or.inl hf) (Or.inr ⟨htype, f, hf, hpre⟩)
    exact ⟨data', _, hl, hself, hdir.trans htype⟩

theorem Listing.resolveParts (h : Listing all done fs data K) (pre : List (List UInt8)) (hsep : Separate all) (hsub : ∀ f ∈ done, f ∈ all)
    (hf : f ∈ all) (hpre : pre ++ parts = f.parts) (hw : walk K 1 pre = some dir)
    (hd : (fs.inodes dir).type = typeDir) {next : Filesystem × ℕ} (hr : parts.foldlM (Filesystem.resolvePart false) (fs, dir) = some next) :
    ∃ data' K', Listing all done next.1 data' K' ∧ walk K' 1 f.parts = some next.2 ∧
      (next.1.inodes next.2).type = typeDir := by
  induction parts generalizing fs data K pre dir with
  | nil =>
    obtain rfl := Option.some.inj hr
    rw [List.append_nil] at hpre
    exact ⟨data, K, h, hpre ▸ hw, hd⟩
  | cons part rest ih =>
    rw [List.foldlM_cons] at hr
    obtain ⟨mid, hmid, hrest⟩ := Option.bind_eq_some_iff.mp hr
    have hsplit : pre ++ [part] ++ rest = f.parts := by rw [← hpre, List.append_assoc]; rfl
    obtain ⟨data', K', hl, hw', hd'⟩ := h.resolvePart hsep hsub hf (hsplit ▸ List.prefix_append _ _) hw hd hmid
    exact ih hl _ hsplit hw' hd' hrest

/-- A listed file is added. -/
theorem Listing.addFile (h : Listing all done fs data K) (hsep : Separate all) (hsub : ∀ f ∈ done, f ∈ all) (hf : f ∈ all)
    (hfresh : ∀ g ∈ done, g.path ≠ f.path) (hflags : f.flags < 4294967296) (ha : f.argument.apply false fs = some fs') :
    ∃ data' K', Listing all (done ++ [f]) fs' data' K' := by
  change fs.addFile false f.parts f.name f.payload f.flags = some fs' at ha
  unfold Filesystem.addFile resolveDirectory at ha
  obtain ⟨⟨r, parent⟩, hres, ha⟩ := Option.bind_eq_some_iff.mp ha
  obtain ⟨number, halloc, ha⟩ := Option.bind_eq_some_iff.mp ha
  obtain ⟨g, hw, ha⟩ := Option.bind_eq_some_iff.mp ha
  obtain ⟨data', K', hl, hparent, hd⟩ := h.resolveParts [] hsep hsub hf rfl rfl h.planted.root hres
  dsimp only at hl hparent hd
  have hfree := (allocInode_free halloc).1
  have hempty := hl.planted.built.free number hfree
  have hsame : SameData {} { r.inodes number with type := typeFile, links := 1, flags := f.flags } := by
    rw [hempty]
    exact ⟨rfl, rfl, rfl⟩
  have hnew := hl.planted.allocate halloc hsame
    (by
      rw [hempty]
      exact { header_empty with
        type_lt := show typeFile < 4294967296 by decide
        links_lt := show 1 < 4294967296 by decide
        flags_lt := hflags })
    (show typeFile ≠ typeFree by decide)
  obtain ⟨hmid, hrew⟩ := hnew.writeFile (by rw [inodes_setInode]) (by rw [inodes_setInode]; exact hsame) hw
  have htype := hrew.type_eq number
  rw [inodes_setInode] at htype
  -- the name is new: the path is not that of a file before it, nor on the way to another one
  have hx : child K' parent f.name = none := by
    cases hc : child K' parent f.name with
    | none => rfl
    | some m =>
      have hwalk : walk K' 1 f.path = some m := by
        unfold SourceFile.path
        rw [walk_concat, hparent, Option.bind_some, hc]
      rcases hl.only _ _ hwalk with ⟨-, g, hg, hpath⟩ | ⟨-, hnil | ⟨g, hg, hpre⟩⟩
      · exact absurd hpath (hfresh g hg)
      · exact absurd hnil (by unfold SourceFile.path; simp)
      · have heq := hsep f hf g hg (hpre.trans (List.prefix_append _ _))
        have hle := hpre.length_le
        rw [heq] at hle
        unfold SourceFile.path at hle
        rw [List.length_append, List.length_singleton] at hle
        omega
  obtain ⟨data'', hdone, -, -⟩ := hl.grow hfree hparent hd hx hmid
    (fun n hn => ⟨by rw [hrew.inodes n hn, inodes_setInode_ne _ hn], Function.update_of_ne hn ..⟩)
    (by rw [htype.1]; exact show typeFile ≠ typeFree by decide) ha (fun g hg => List.mem_append_left _ hg)
    (fun g hg => by
      rcases List.mem_append.mp hg with hg | hg
      · exact Or.inl hg
      · rw [List.mem_singleton.mp hg]
        exact Or.inr ⟨rfl, htype.1, htype.2, Function.update_self ..⟩)
    (Or.inl ⟨htype.1, f, List.mem_append_right _ List.mem_cons_self, rfl⟩)
  exact ⟨data'', _, hdone⟩

theorem Listing.addFiles {rest : List SourceFile} (h : Listing all done fs data K) (hall : all = done ++ rest)
    (hsep : Separate all) (hnodup : (all.map SourceFile.path).Nodup) (hflags : ∀ f ∈ all, f.flags < 4294967296)
    (ha : (rest.map SourceFile.argument).foldlM (Argument.apply false) fs = some fs') :
    ∃ data' K', Listing all all fs' data' K' := by
  induction rest generalizing fs data K done with
  | nil =>
    obtain rfl := Option.some.inj ha
    rw [List.append_nil] at hall
    exact ⟨data, K, hall ▸ h⟩
  | cons f rest ih =>
    rw [List.map_cons, List.foldlM_cons] at ha
    obtain ⟨mid, hmid, hrest⟩ := Option.bind_eq_some_iff.mp ha
    have hf : f ∈ all := by
      rw [hall]
      exact List.mem_append_right _ List.mem_cons_self
    have hfresh : ∀ g ∈ done, g.path ≠ f.path := by
      intro g hg
      rw [hall, List.map_append, List.nodup_append] at hnodup
      exact hnodup.2.2 _ (List.mem_map_of_mem hg) _ (List.mem_map_of_mem List.mem_cons_self)
    obtain ⟨data', K', hl⟩ := h.addFile hsep (fun g hg => by rw [hall]; exact List.mem_append_left _ hg) hf hfresh
      (hflags f hf) hmid
    exact ih hl (by rw [hall, List.append_assoc]; rfl) hrest

end Filesystem

/-- What a build of separate files leaves. -/
theorem build_listing {totalBlocks inodeCount : ℕ} {label : ℕ → ℕ} {files : List SourceFile} {fs : Filesystem}
    (ht : totalBlocks < 4294967296) (hc : inodeCount < 4294967296) (hflags : ∀ f ∈ files, f.flags < 4294967296)
    (hnodup : (files.map SourceFile.path).Nodup) (hsep : Separate files)
    (hb : build false totalBlocks inodeCount label (files.map SourceFile.argument) = some fs) :
    ∃ data K, Filesystem.Listing files files fs data K := by
  unfold build at hb
  obtain ⟨start, hnew, hb⟩ := Option.bind_eq_some_iff.mp hb
  obtain ⟨root, halloc, hb⟩ := Option.bind_eq_some_iff.mp hb
  split at hb
  · cases hb
  rename_i hroot
  obtain rfl : root = 1 := by omega
  have hbuilt := Filesystem.built_new ht hc hnew
  have hempty := hbuilt.free 1 (Filesystem.allocInode_free halloc).1
  have hplaced := hbuilt.allocate (i := { start.inodes 1 with type := typeDir, links := 1 })
    (Filesystem.allocInode_free halloc).1 (Filesystem.allocInode_free halloc).2 (by rw [hempty]; exact ⟨rfl, rfl, rfl⟩)
    (by rw [hempty]; exact { Filesystem.header_empty with type_lt := by decide, links_lt := by decide })
    (show typeDir ≠ typeFree by decide)
  have hone : ∀ (p : List (List UInt8)) (n : ℕ), walk (fun _ => []) 1 p = some n → p = [] ∧ n = 1 := by
    intro p n hp
    cases p with
    | nil => exact ⟨rfl, (Option.some.inj hp).symm⟩
    | cons x rest => cases hp
  have hplanted : Filesystem.Planted (start.setInode 1 { start.inodes 1 with type := typeDir, links := 1 }) (fun _ => []) (fun _ => []) :=
    ⟨hplaced, by rw [Filesystem.inodes_setInode], fun n _ => rfl, fun n _ => rfl, fun n e he => (by cases he),
      fun n e he => (by cases he), fun n => List.nodup_nil, fun p q n hp hq => (hone p n hp).1.trans (hone q n hq).1.symm⟩
  have hlist : Filesystem.Listing files [] (start.setInode 1 { start.inodes 1 with type := typeDir, links := 1 }) (fun _ => [])
      (fun _ => []) := by
    refine ⟨hplanted, fun f hf => (by cases hf), fun p n hp => Or.inr ?_⟩
    obtain ⟨rfl, rfl⟩ := hone p n hp
    exact ⟨hplanted.root, Or.inl rfl⟩
  exact hlist.addFiles rfl hsep hnodup hflags hb

end SifarOS.Mkfs
