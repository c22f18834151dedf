import SifarOS.CachedSizes

/-! # When `vfs_create` fails

The node is linked before `op_create` is called, and taken out again when that fails. `op_create`
itself undoes nothing: the inode it has allocated stays allocated when the directory has no room for
the new entry. -/
namespace SifarOS.Vfs
open ByteMemory SifarFs

/-! ## The function with its rollback -/

/-- The checks of `vfs_create`: the directory that the new node goes to, and its name. -/
def createParent (m : Mount) (cwd : Option (List UInt8)) (path : List UInt8) : Option (List Name × Attrs × Name) :=
  (abspath cwd path).bind fun absolute =>
    if absolute = [slash] then none
    else (splitLast absolute).bind fun halves =>
      (lookup m none (if halves.1 = [] then [slash] else halves.1)).bind fun found =>
        if found.2.1.dir = false ∨ (found.2.2.find halves.2).isSome = true ∨ 32 ≤ halves.2.length then none
        else some (found.1, found.2.1, halves.2)

/-- `node_alloc` and `link_child`, for the directory at a path. -/
def linkNode (m : Mount) (parentPath : List Name) (name : Name) (dir : Bool) (number : ℕ) : Mount :=
  m.modify parentPath fun a child =>
    (a, child.link { name := name, dir := dir, readonly := false, size := 0, inode := number } .nil)

/-- `unlink_child`, for the directory at a path. -/
def unlinkNode (m : Mount) (parentPath : List Name) (name : Name) : Mount :=
  m.modify parentPath fun a child => (a, child.remove [name])

/-- `vfs_create`, with `node_count`. The node has no inode number until `op_create` gives it one. -/
def vfsCreate (m : Mount) (nodeCount : ℕ) (cwd : Option (List UInt8)) (path : List UInt8) (dir heap : Bool) :
    (Mount × ℕ) × Option (List Name) :=
  match createParent m cwd path with
  | none => ((m, nodeCount), none)
  | some (parentPath, parent, name) =>
    if heap = false then ((m, nodeCount), none)
    else
      let r := m.fs.opCreate parent.inode name dir
      match r.2 with
      | none => ((unlinkNode (linkNode { m with fs := r.1 } parentPath name dir 0) parentPath name, nodeCount + 1 - 1), none)
      | some number => ((linkNode { m with fs := r.1 } parentPath name dir number, nodeCount + 1), some (parentPath ++ [name]))

/-! ## The rollback -/

theorem Forest.remove_link {t : Forest} {a : Attrs} (h : t.find a.name = none) (child : Forest) :
    (t.link a child).remove [a.name] = t := by
  induction t with
  | nil => simp [Forest.link, Forest.remove]
  | node b c next _ ih =>
    unfold Forest.find at h
    split at h
    · cases h
    · next hne =>
      unfold Forest.link
      split
      · unfold Forest.remove
        rw [if_neg hne, ih h]
      · simp [Forest.remove]

/-- A change to the node at a path that is taken back. -/
theorem Found.modify_back {a : Attrs} {child t : Forest} {path : List Name} (hf : Found a child t path)
    {there back : Attrs → Forest → Attrs × Forest} (hn : ∀ a c, (there a c).1.name = a.name)
    (h : back (there a child).1 (there a child).2 = (a, child)) : (t.modify there path).modify back path = t := by
  induction hf with
  | here next => simp [Forest.modify, hn, h]
  | down next _ ih => simp [Forest.modify, ih]
  | beside c hne _ ih => simp [Forest.modify, hne, ih]

theorem unlink_linkNode {m : Mount} {parentPath : List Name} {parent : Attrs} {children : Forest} {name : Name}
    (hf : follow (m.root, m.tree) parentPath = some (parent, children)) (hnew : children.find name = none) (dir : Bool)
    (number : ℕ) : unlinkNode (linkNode m parentPath name dir number) parentPath name = m := by
  cases parentPath with
  | nil =>
    obtain ⟨rfl, rfl⟩ := Prod.mk.inj (Option.some.inj hf)
    unfold unlinkNode linkNode Volume.modify
    dsimp only
    rw [Forest.remove_link hnew]
  | cons first rest =>
    unfold unlinkNode linkNode Volume.modify
    dsimp only
    rw [(found_of_follow hf).modify_back (fun _ _ => rfl) (by dsimp only; rw [Forest.remove_link hnew])]

theorem createParent_some {m : Mount} {cwd : Option (List UInt8)} {path : List UInt8} {parentPath : List Name}
    {parent : Attrs} {name : Name} (h : createParent m cwd path = some (parentPath, parent, name)) :
    ∃ children, follow (m.root, m.tree) parentPath = some (parent, children) ∧ parent.dir = true ∧
      children.find name = none ∧ name.length < 32 := by
  obtain ⟨absolute, -, h⟩ := Option.bind_eq_some_iff.mp h
  split at h
  · cases h
  obtain ⟨halves, -, h⟩ := Option.bind_eq_some_iff.mp h
  obtain ⟨found, hfound, h⟩ := Option.bind_eq_some_iff.mp h
  split at h
  · cases h
  · next hc =>
    obtain ⟨rfl, hrest⟩ := Prod.mk.inj (Option.some.inj h)
    obtain ⟨rfl, rfl⟩ := Prod.mk.inj hrest
    simp only [not_or, Bool.not_eq_false, Bool.not_eq_true, Option.isSome_eq_false_iff, Option.isNone_iff_eq_none] at hc
    exact ⟨found.2.2, (lookup_follow hfound).1, hc.1, hc.2.1, by omega⟩

/-- The model of `vfs_create` that leaves the rollback out comes to the same. -/
theorem create_eq_vfsCreate (m : Mount) (nodeCount : ℕ) (cwd : Option (List UInt8)) (path : List UInt8) (dir heap : Bool) :
    create m cwd path dir heap = ((vfsCreate m nodeCount cwd path dir heap).1.1, (vfsCreate m nodeCount cwd path dir heap).2) := by
  have hback := @createParent_some m cwd path
  unfold createParent at hback
  rw [create_eq]
  unfold vfsCreate createParent
  cases habs : abspath cwd path with
  | none => rfl
  | some absolute =>
    rw [habs] at hback
    simp only [Option.bind_some] at hback ⊢
    by_cases hroot : absolute = [slash]
    · simp only [if_pos hroot]
    simp only [if_neg hroot] at hback ⊢
    cases hsplit : splitLast absolute with
    | none => rfl
    | some halves =>
      rw [hsplit] at hback
      simp only [Option.bind_some] at hback ⊢
      cases hfound : lookup m none (if halves.1 = [] then [slash] else halves.1) with
      | none => rfl
      | some found =>
        rw [hfound] at hback
        simp only [Option.bind_some] at hback ⊢
        by_cases hcheck : found.2.1.dir = false ∨ (found.2.2.find halves.2).isSome = true ∨ 32 ≤ halves.2.length
        · rw [if_pos hcheck, if_pos (by tauto)]
        rw [if_neg hcheck] at hback ⊢
        cases heap with
        | false => rw [if_pos (by simp)]; rfl
        | true =>
          rw [if_neg (by simpa using hcheck)]
          dsimp only
          rw [if_neg (by decide)]
          cases hr : (m.fs.opCreate found.2.1.inode halves.2 dir).2 with
          | none =>
            obtain ⟨children, hf, -, hnew, -⟩ := hback rfl
            rw [unlink_linkNode (m := { m with fs := (m.fs.opCreate found.2.1.inode halves.2 dir).1 }) hf hnew]
          | some number => rfl

end SifarOS.Vfs

/-! ## `op_create` -/

namespace SifarOS.SifarFs
open ByteMemory BlockOwnership

variable {T : ℕ → Inode} {n last parent : ℕ} {f f' : Fs} {name : List UInt8}

theorem SoundFor.allocBlock_full (S : SoundFor f T) (h : f.super.freeBlocks = 0) : f.allocBlock = (f, 0) := by
  rcases S.allocBlock with ha | ha
  · exact ha
  · have hmem : f.allocBlock.2 ∈ (List.range f.super.totalBlocks).filter fun b => !f.bitmapTest b :=
      List.mem_filter.mpr ⟨List.mem_range.mpr ha.lt, by simp [ha.clear]⟩
    have hpos : 0 < clearCount f.super.totalBlocks f.bitmapTest := List.length_pos_of_mem hmem
    rw [← S.free_eq] at hpos
    omega

/-- Without blocks enough `block_for` has nothing to return. -/
theorem blockFor_eq_zero (S : SoundFor f T) {index : ℕ} (h : 1036 ≤ index ∨ (T n).slot f.disk index = 0 ∧
    f.super.freeBlocks < if index < 12 ∨ (T n).indirect ≠ 0 then 1 else 2) : (f.blockFor (T n) index true).block = 0 := by
  rcases Nat.lt_or_ge index 1036 with hlt | hge
  · obtain ⟨hslot, hfree⟩ := h.resolve_left (by omega)
    unfold Fs.blockFor
    by_cases hd : index < 12
    · rw [if_pos (Or.inl hd)] at hfree
      rw [Inode.slot_direct hd] at hslot
      rw [if_pos hd, if_pos ⟨hslot, rfl⟩, S.allocBlock_full (by omega)]
    rw [if_neg hd, if_neg (by omega)]
    by_cases hi : (T n).indirect = 0
    · rw [if_neg (by simp [hd, hi])] at hfree
      rw [if_pos hi, if_neg (by decide)]
      dsimp only
      rcases S.allocBlock with ha | ha
      · rw [ha, if_pos rfl]
      · have hf := ha.free
        have ht := tabled S ha hi
        rw [if_neg (S.taken_pos ha)]
        unfold Fs.tableFor
        rw [ht.sound.allocBlock_full (by omega)]
        dsimp only
        rw [← Inode.slot_table (k := index) (by omega) hlt (S.taken_pos ha), ht.slot index hlt, if_pos ⟨hslot, rfl⟩, if_pos rfl]
    · rw [if_pos (Or.inr hi)] at hfree
      rw [Inode.slot_table (by omega) hlt hi] at hslot
      rw [if_neg hi]
      unfold Fs.tableFor
      rw [S.allocBlock_full (by omega)]
      dsimp only
      rw [if_pos ⟨hslot, rfl⟩, if_pos rfl]
  · exact (blockFor_mapped S n index).beyond hge

/-- A write whose first block is not to be had writes nothing. -/
theorem fileWrite_nothing (hn : f.Numbered n) {offset : ℕ} (ho : offset < 4294967296) (data : List UInt8)
    (hb : (f.blockFor (f.inodeAt n) (offset / 4096) true).block = 0) : (f.fileWrite n offset data).2 = 0 := by
  have hloop : ∀ fuel, (Fs.writeLoop offset data fuel ⟨f, f.inodeAt n, false, 0⟩).written = 0 := by
    intro fuel
    cases fuel with
    | zero => rfl
    | succ fuel =>
      unfold Fs.writeLoop
      dsimp only
      rw [Nat.add_zero, u32_of_lt ho, if_pos hb]
      split <;> rfl
  unfold Fs.fileWrite
  rw [Fs.inodeRead_numbered hn]
  dsimp only
  rw [hloop]
  rfl

/-- `dir_add` of a short name succeeds exactly when there is room for the entry. -/
theorem Holds.dirAdd_iff (H : Holds f T last) (hl : f.Live parent) (hname : name.length < 56) (child : ℕ) :
    (f.dirAdd parent name child).2 = true ↔ f.HasRoom parent := by
  have hoff : f.entryOffset parent < 4294967296 :=
    Nat.lt_of_le_of_lt (entryOffset_le f parent) (Fs.inodeAt_packed f parent).size_lt
  have hdata : Fs.encodeDirent child name ≠ [] := by
    have hlen := length_encodeDirent child (show name.length ≤ 56 by omega)
    exact fun hnil => by simp [hnil] at hlen
  rw [dirAdd_eq hl.1 hname, decide_eq_true_eq]
  constructor
  · intro hpos
    by_contra hno
    have hzero : (f.blockFor (f.inodeAt parent) (f.entryOffset parent / 4096) true).block = 0 := by
      unfold Fs.HasRoom at hno
      rw [← H.live hl] at hno ⊢
      refine blockFor_eq_zero H.sound ?_
      rcases Nat.lt_or_ge (f.entryOffset parent / 4096) 1036 with hlt | hge
      · rw [not_and, not_or, not_not, Nat.not_le] at hno
        exact Or.inr (hno hlt)
      · exact Or.inl hge
    rw [fileWrite_nothing hl.1 hoff _ hzero] at hpos
    exact absurd hpos (by decide)
  · rintro ⟨hindex, hblock⟩
    have hwritten := H.written_pos hl hoff hdata hindex hblock
    unfold Fs.fileWrite
    rw [Fs.inodeRead_numbered hl.1]
    exact Int.natCast_pos.mpr hwritten

/-- `alloc_inode` leaves the superblock and the blocks of the allocated inodes alone. -/
theorem Holds.hasRoom_allocInode (H : Holds f T last) {type : ℕ} (ht : type ≠ typeFree) (htype : type < 4294967296)
    (hl : f.Live parent) : (f.allocInode type).1.HasRoom parent ↔ f.HasRoom parent := by
  rcases Fs.Exclusive.allocInode ⟨T, last, H⟩ ht htype with h | ⟨number, -, -, hdead, -, -, hun⟩
  · rw [h]
  have hne : parent ≠ number := fun he => hdead (he ▸ hl)
  have hsuper : (f.allocInode type).1.super = f.super := by
    unfold Fs.allocInode
    split
    · rfl
    · exact Fs.inodeWrite_super _ _ _
  have hinode : (f.allocInode type).1.inodeAt parent = f.inodeAt parent := hun.inodeAt parent hne hl.1
  have hentries : (f.allocInode type).1.entries parent = f.entries parent := by
    unfold Fs.entries
    rw [hinode]
    exact List.map_congr_left fun i _ => by rw [hun.read parent hne hl]
  have hslot : ∀ k, (f.inodeAt parent).slot (f.allocInode type).1.disk k = (f.inodeAt parent).slot f.disk k := by
    refine Inode.slot_same fun hi => ?_
    have hrange := H.sound.slot_range (m := parent) (k := 1036) (by rw [H.live hl]; simpa using hi)
    rw [H.live hl, Inode.slot_indirect] at hrange
    unfold Fs.allocInode
    split
    · exact SameOn.refl _ _ _
    · next k hk =>
      have hnum : f.Numbered (k + 1) := ⟨by omega, by have := List.mem_range.mp (List.mem_of_find?_eq_some hk); omega⟩
      exact Fs.inodeWrite_sameOn H.sound.geometry hnum _ (Or.inr (Nat.mul_le_mul_right 4096 hrange.1))
  unfold Fs.HasRoom Fs.entryOffset
  rw [hentries, hinode, hsuper, hslot]

/-- Some inode is not allocated. -/
def Fs.HasInode (f : Fs) : Prop := ∃ n, f.Numbered n ∧ ¬f.Live n

theorem allocInode_none (h : ¬f.HasInode) (type : ℕ) : f.allocInode type = (f, 0) := by
  have hfind : (List.range f.super.inodeCount).find? (fun i => (f.inodeAt (i + 1)).type == typeFree) = none := by
    refine List.find?_eq_none.mpr fun i hi htype => h ⟨i + 1, ⟨by omega, ?_⟩, fun hl => ?_⟩
    · exact List.mem_range.mp hi
    · exact hl.2 (beq_iff_eq.mp htype)
  unfold Fs.allocInode
  rw [hfind]

theorem allocInode_some (h : f.HasInode) (type : ℕ) : (f.allocInode type).2 ≠ 0 := by
  obtain ⟨n, hn, hfree⟩ := h
  have htype : (f.inodeAt n).type = typeFree := by
    by_contra hne
    exact hfree ⟨hn, hne⟩
  unfold Fs.allocInode
  split
  · next hfind =>
    have hnot := List.find?_eq_none.mp hfind (n - 1) (List.mem_range.mpr (by have := hn.1; have := hn.2; omega))
    rw [Nat.sub_add_cancel hn.1, htype] at hnot
    exact absurd rfl hnot
  · exact Nat.succ_ne_zero _

/-- The ways in which `op_create` ends. -/
theorem Fs.Exclusive.opCreate_cases (E : f.Exclusive) (hl : f.Live parent) (hname : name.length < 56) (dir : Bool) :
    (¬f.HasInode ∧ f.opCreate parent name dir = (f, none)) ∨
    (f.HasInode ∧ f.HasRoom parent ∧ (f.opCreate parent name dir).2 ≠ none) ∨
    (f.HasInode ∧ ¬f.HasRoom parent ∧ (f.opCreate parent name dir).2 = none ∧
      ∃ n, f.Numbered n ∧ ¬f.Live n ∧ (f.opCreate parent name dir).1.Live n) := by
  have hne : typeOf dir ≠ typeFree := typeOf_ne_free dir
  have hlt : typeOf dir < 4294967296 := by cases dir <;> decide
  by_cases hfree : f.HasInode
  · right
    obtain ⟨T, last, H⟩ := E
    have hroom := H.hasRoom_allocInode hne hlt hl
    have hnumber := allocInode_some hfree (typeOf dir)
    obtain ⟨number, rfl, hnum, hdead, hlive, hE, hun⟩ :=
      (Fs.Exclusive.allocInode ⟨T, last, H⟩ hne hlt).resolve_left fun h => hnumber (by rw [h])
    have hpn : parent ≠ (f.allocInode (typeOf dir)).2 := fun he => hdead (he ▸ hl)
    have hpl := (hun.live hpn).mpr hl
    have hadd := hE.dirAdd hpl name (f.allocInode (typeOf dir)).2
    obtain ⟨T', last', H'⟩ := hE
    have hiff := H'.dirAdd_iff hpl hname (f.allocInode (typeOf dir)).2
    rw [hroom] at hiff
    have hcreate : f.opCreate parent name dir =
        (((f.allocInode (typeOf dir)).1.dirAdd parent name (f.allocInode (typeOf dir)).2).1,
          if ((f.allocInode (typeOf dir)).1.dirAdd parent name (f.allocInode (typeOf dir)).2).2
            then some (f.allocInode (typeOf dir)).2 else none) := if_neg hnumber
    rw [hcreate]
    by_cases hok : f.HasRoom parent
    · exact Or.inl ⟨hfree, hok, by rw [if_pos (hiff.mpr hok)]; simp⟩
    · exact Or.inr ⟨hfree, hok, if_neg fun hc => hok (hiff.mp hc), _, hnum, hdead,
        (hadd.untouched.live (Ne.symm hpn)).mpr hlive⟩
  · refine Or.inl ⟨hfree, ?_⟩
    have hnone := allocInode_none hfree (typeOf dir)
    unfold Fs.opCreate
    dsimp only
    rw [typeOf] at hnone
    rw [hnone, if_pos rfl]

end SifarOS.SifarFs

namespace SifarOS.Vfs
open ByteMemory SifarFs

/-! ## What a failure leaves -/

/-- Nothing that the kernel or the disk knows of the tree has changed. -/
structure Unchanged (m : Mount) (nodeCount : ℕ) (r : Mount × ℕ) : Prop where
  root : r.1.root = m.root
  tree : r.1.tree = m.tree
  nodeCount : r.2 = nodeCount
  inodes : ∀ n, m.fs.Numbered n → r.1.fs.inodeAt n = m.fs.inodeAt n
  bitmap : r.1.fs.bitmap = m.fs.bitmap
  freeBlocks : r.1.fs.super.freeBlocks = m.fs.super.freeBlocks
  inodesUsed : r.1.fs.inodesUsed = m.fs.inodesUsed
  entries : ∀ dir, r.1.fs.entries dir = m.fs.entries dir

theorem Unchanged.refl (m : Mount) (nodeCount : ℕ) : Unchanged m nodeCount (m, nodeCount) :=
  ⟨rfl, rfl, rfl, fun _ _ => rfl, rfl, rfl, rfl, fun _ => rfl⟩

/-- Every directory of the tree has an allocated inode. -/
def DirsLive (m : Mount) : Prop :=
  ∀ names a child, follow (m.root, m.tree) names = some (a, child) → a.dir = true → m.fs.Live a.inode

/-- If an inode would be allocated for the new node, its directory has room for the entry. -/
def EntryFits (m : Mount) (cwd : Option (List UInt8)) (path : List UInt8) (heap : Bool) : Prop :=
  ∀ parentPath parent name, createParent m cwd path = some (parentPath, parent, name) → heap = true →
    m.fs.HasInode → m.fs.HasRoom parent.inode

/-- A creation that fails changes nothing, unless the directory has no room for an inode's entry. -/
theorem failed_creation_unchanged {m : Mount} (E : m.fs.Exclusive) (hd : DirsLive m) (nodeCount : ℕ)
    (cwd : Option (List UInt8)) (path : List UInt8) (dir heap : Bool) :
    ((vfsCreate m nodeCount cwd path dir heap).2 = none → Unchanged m nodeCount (vfsCreate m nodeCount cwd path dir heap).1) ↔
      EntryFits m cwd path heap := by
  unfold EntryFits vfsCreate
  cases hp : createParent m cwd path with
  | none => exact iff_of_true (fun _ => .refl m nodeCount) fun _ _ _ hc => by cases hc
  | some target =>
    obtain ⟨parentPath, parent, name⟩ := target
    obtain ⟨children, hf, hdir, hnew, hname⟩ := createParent_some hp
    cases heap with
    | false => exact iff_of_true (fun _ => .refl m nodeCount) fun _ _ _ _ hc => by cases hc
    | true =>
      have hcond : (∀ p a x, some (parentPath, parent, name) = some (p, a, x) → true = true → m.fs.HasInode →
          m.fs.HasRoom a.inode) ↔ (m.fs.HasInode → m.fs.HasRoom parent.inode) := by
        refine ⟨fun h => h _ _ _ rfl rfl, fun h p a x he _ => ?_⟩
        obtain ⟨-, he⟩ := Prod.mk.inj (Option.some.inj he)
        obtain ⟨rfl, -⟩ := Prod.mk.inj he
        exact h
      rw [hcond]
      dsimp only
      rw [if_neg (by decide)]
      -- without a free inode, with room, and without room
      rcases E.opCreate_cases (hd _ _ _ hf hdir) (show name.length < 56 by omega) dir with
        ⟨hnone, heq⟩ | ⟨-, hroom, hsome⟩ | ⟨hfree, hroom, hfail, n, hn, hdead, hlive⟩
      · refine iff_of_true (fun _ => ?_) fun h => absurd h hnone
        rw [heq]
        dsimp only
        rw [unlink_linkNode hf hnew]
        exact .refl m nodeCount
      · refine iff_of_true (fun hc => ?_) fun _ => hroom
        obtain ⟨number, hnumber⟩ := Option.ne_none_iff_exists'.mp hsome
        rw [hnumber] at hc
        cases hc
      · refine iff_of_false (fun h => ?_) fun h => hroom (h hfree)
        rw [hfail] at h
        have hsame := (h rfl).inodes n hn
        have hfs : (unlinkNode (linkNode { m with fs := (m.fs.opCreate parent.inode name dir).1 } parentPath name dir 0)
            parentPath name).fs = (m.fs.opCreate parent.inode name dir).1 := by
          rw [unlink_linkNode (m := { m with fs := (m.fs.opCreate parent.inode name dir).1 }) hf hnew]
        rw [hfs] at hsame
        refine hdead ⟨hn, ?_⟩
        rw [← hsame]
        exact hlive.2

theorem dirsLive_mountOf {f : Fs} (h : f.Live 1) : DirsLive (mountOf f) := by
  intro names a child hf hdir
  rcases follow_mountOf hf with rfl | rfl
  · exact h
  · cases hdir

/-- `/a` on the small disk is there already. -/
theorem failed_creation_small : Unchanged (mountOf smallFs) 2 (vfsCreate (mountOf smallFs) 2 none [47, 97] false true).1 := by
  have hnone : createParent (mountOf smallFs) none [47, 97] = none := by decide
  refine (failed_creation_unchanged smallFs_sound.exclusive (dirsLive_mountOf (by decide)) 2 none [47, 97] false
    true).mpr (fun parentPath parent name hp => ?_) (by decide)
  rw [hnone] at hp
  cases hp

/-- The small disk with its five blocks in the file. -/
def fullFs : Fs :=
  [0, 4096, 8192, 12288, 16384].foldl (fun f offset => (f.fileWrite 2 offset [65]).1) smallFs

theorem fullFs_sound : fullFs.Sound := by
  have hstep : ∀ {f : Fs} {offset : ℕ}, f.Sound ∧ f.Live 2 → offset ≤ 1036 * 4096 →
      (f.fileWrite 2 offset [65]).1.Sound ∧ (f.fileWrite 2 offset [65]).1.Live 2 := by
    intro f offset h ho
    obtain ⟨written, -, hw⟩ := h.1.fileWrite_overwritten h.2 ho [65]
    exact ⟨hw.sound, (hw.changes.numbered 2).mpr h.2.1, by rw [hw.kind.1]; exact h.2.2⟩
  have hrun : ∀ (offsets : List ℕ) {f : Fs}, f.Sound ∧ f.Live 2 → (∀ o ∈ offsets, o ≤ 1036 * 4096) →
      (offsets.foldl (fun f offset => (f.fileWrite 2 offset [65]).1) f).Sound := by
    intro offsets
    induction offsets with
    | nil => exact fun h _ => h.1
    | cons o rest ih =>
      exact fun h ho => ih (hstep h (ho o List.mem_cons_self)) fun o' ho' => ho o' (List.mem_cons_of_mem o ho')
  exact hrun _ ⟨smallFs_sound, smallFs_live⟩ (by decide)

/-- `/b` on the full disk: there is no block for the directory, and inode 3 is gone. -/
theorem failed_creation_leaks : ¬∀ (m : Mount) (nodeCount : ℕ) (cwd : Option (List UInt8)) (path : List UInt8)
    (dir heap : Bool), m.fs.Exclusive → DirsLive m → (vfsCreate m nodeCount cwd path dir heap).2 = none →
    Unchanged m nodeCount (vfsCreate m nodeCount cwd path dir heap).1 := by
  intro h
  have hsame := h (mountOf fullFs) 2 none [47, 98] false true fullFs_sound.exclusive (dirsLive_mountOf (by decide))
    (by decide)
  have htype := congrArg Inode.type (hsame.inodes 3 (by decide))
  exact absurd htype (by decide)

end SifarOS.Vfs
