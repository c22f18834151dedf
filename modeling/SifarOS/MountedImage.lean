import SifarOS.MkfsImage
import SifarOS.MkfsTree
import SifarOS.VfsPaths

/-! # The tree of a mounted image

`build_tree` makes nodes of the directories that `mkfs.py` has written. A path of the image is found
in the tree unless the kernel cannot name it or stops above it. -/
namespace SifarOS.Vfs
open ByteMemory SifarFs NamedTree Mkfs.Filesystem

variable {f : Fs} {K : ℕ → List (Name × ℕ)} {n m fuel : ℕ} {p q : List Name} {a : Attrs}

/-! ## Linked siblings -/

namespace Forest

/-- All nodes with their paths. -/
def nodes : Forest → List (List Name × Attrs)
  | nil => []
  | node a child next => ([a.name], a) :: (child.nodes.map (fun v => (a.name :: v.1, v.2)) ++ next.nodes)

theorem path_ne_nil {t : Forest} {v : List Name × Attrs} (h : v ∈ t.nodes) : v.1 ≠ [] := by
  induction t with
  | nil => cases h
  | node b c next _ ih =>
    rcases List.mem_cons.mp h with rfl | h
    · exact List.cons_ne_nil _ _
    · rcases List.mem_append.mp h with h | h
      · obtain ⟨w, -, rfl⟩ := List.mem_map.mp h
        exact List.cons_ne_nil _ _
      · exact ih h

/-- The nodes that a linked node and its children add. -/
def nodesOf (v : Attrs × Forest) : List (List Name × Attrs) :=
  ([v.1.name], v.1) :: v.2.nodes.map (fun w => (v.1.name :: w.1, w.2))

theorem nodes_link (t : Forest) (a : Attrs) (child : Forest) : (t.link a child).nodes.Perm (nodesOf (a, child) ++ t.nodes) := by
  induction t with
  | nil => exact List.Perm.refl _
  | node b c next _ ih =>
    unfold link
    split
    · rw [nodes, nodes]
      calc ([b.name], b) :: (c.nodes.map (fun v => (b.name :: v.1, v.2)) ++ (next.link a child).nodes)
          = nodesOf (b, c) ++ (next.link a child).nodes := rfl
        _ |>.Perm (nodesOf (b, c) ++ (nodesOf (a, child) ++ next.nodes)) := ih.append_left _
        _ |>.Perm (nodesOf (a, child) ++ (nodesOf (b, c) ++ next.nodes)) := by
          rw [← List.append_assoc, ← List.append_assoc]
          exact List.perm_append_comm.append_right _
    · exact List.Perm.refl _

/-- Nodes are linked one after the other. -/
def plant (l : List (Attrs × Forest)) : Forest := l.foldl (fun t v => t.link v.1 v.2) nil

theorem plant_concat (l : List (Attrs × Forest)) (v : Attrs × Forest) : plant (l ++ [v]) = (plant l).link v.1 v.2 := by
  unfold plant
  rw [List.foldl_append]
  rfl

theorem nodes_plant (l : List (Attrs × Forest)) : (plant l).nodes.Perm (l.flatMap nodesOf) := by
  induction l using List.reverseRecOn with
  | nil => exact List.Perm.refl _
  | append_singleton l v ih =>
    rw [plant_concat, List.flatMap_append, List.flatMap_singleton]
    exact (nodes_link _ _ _).trans ((ih.append_left _).trans List.perm_append_comm)

theorem find_plant {l : List (Attrs × Forest)} (h : (l.map (fun v => v.1.name)).Nodup) (name : Name) :
    (plant l).find name = l.find? (fun v => v.1.name = name) := by
  induction l using List.reverseRecOn generalizing name with
  | nil => rfl
  | append_singleton l v ih =>
    rw [List.map_append, List.nodup_append] at h
    obtain ⟨hl, -, hv⟩ := h
    have hnone : (plant l).find v.1.name = none := by
      rw [ih hl, List.find?_eq_none]
      intro w hw
      have := hv _ (List.mem_map_of_mem hw) v.1.name List.mem_cons_self
      simpa using this
    rw [plant_concat, find_link hnone, ih hl, List.find?_append]
    by_cases hname : v.1.name = name
    · subst hname
      rw [ih hl] at hnone
      rw [if_pos rfl, hnone]
      simp
    · rw [if_neg hname]
      simp [hname]

end Forest

/-! ## The tree of a disk -/

/-- The directories on the disk that names lead to from the root have the entries in `K`. -/
structure Shows (f : Fs) (K : ℕ → List (Name × ℕ)) : Prop where
  entries : ∀ p n, walk K 1 p = some n → (f.inodeAt n).type = typeDir → f.entries n = (K n).map direntOf
  leaves : ∀ n, (f.inodeAt n).type ≠ typeDir → K n = []
  names : ∀ p n, walk K 1 p = some n → ∀ e ∈ K n, e.1 ≠ [] ∧ e.1.length < 32
  numbered : ∀ p n, walk K 1 p = some n → f.Numbered n
  nodup : ∀ n, ((K n).map Prod.fst).Nodup

/-- The node of an entry. -/
def nodeOf (f : Fs) (e : Name × ℕ) : Attrs := entryNode f (direntOf e)

/-- The node of an entry with the nodes below it. -/
def branchOf (f : Fs) (fuel : ℕ) (e : Name × ℕ) : Attrs × Forest :=
  (nodeOf f e, if (nodeOf f e).dir then buildTree f fuel e.2 else .nil)

theorem nodeOf_dir {e : Name × ℕ} : (nodeOf f e).dir = true ↔ (f.inodeAt e.2).type = typeDir := beq_iff_eq

namespace Shows

variable (h : Shows f K)
include h

/-- A node with children is a directory. -/
theorem dir_of_walk {x : Name} (hw : walk K n (q ++ [x]) = some m) : (f.inodeAt n).type = typeDir := by
  by_contra hne
  have hnil := h.leaves n hne
  cases q with
  | nil =>
    rw [walk_concat] at hw
    simp [child, walk, hnil] at hw
  | cons z q =>
    rw [List.cons_append, walk] at hw
    simp [child, hnil] at hw

theorem walk_entry (hp : walk K 1 p = some n) {e : Name × ℕ} (he : e ∈ K n) : walk K 1 (p ++ [e.1]) = some e.2 := by
  rw [walk_concat, hp, Option.bind_some]
  exact child_of_mem (h.nodup n) he

theorem nodeOf_name (hp : walk K 1 p = some n) {e : Name × ℕ} (he : e ∈ K n) : (nodeOf f e).name = e.1 :=
  List.take_of_length_le (Nat.le_of_lt_succ (h.names p n hp e he).2)

theorem buildTree_succ (hp : walk K 1 p = some n) (hd : (f.inodeAt n).type = typeDir) (fuel : ℕ) :
    buildTree f (fuel + 1) n = Forest.plant ((K n).map (branchOf f fuel)) := by
  have hn := h.numbered p n hp
  have hread : (f.inodeRead n).isSome = true := by
    rw [Fs.inodeRead_numbered hn]
    rfl
  have hvisible : ((K n).map direntOf).filter (visible f) = (K n).map direntOf := by
    rw [List.filter_eq_self]
    intro d hd
    obtain ⟨e, he, rfl⟩ := List.mem_map.mp hd
    have hchild := h.numbered _ _ (h.walk_entry hp he)
    have hname : e.1.isEmpty = false := List.isEmpty_eq_false_iff.mpr (h.names p n hp e he).1
    have hpos : (e.2 != 0) = true := by
      rw [bne_iff_ne]
      have := hchild.1
      omega
    show (e.2 != 0 && !e.1.isEmpty && (f.inodeRead e.2).isSome) = true
    rw [hpos, hname, Fs.inodeRead_numbered hchild]
    rfl
  unfold buildTree Forest.plant
  rw [if_pos hread, h.entries p n hp hd, hvisible, List.foldl_map, List.foldl_map]
  rfl

theorem map_name (hp : walk K 1 p = some n) (fuel : ℕ) :
    ((K n).map (branchOf f fuel)).map (fun v => v.1.name) = (K n).map Prod.fst := by
  rw [List.map_map]
  exact List.map_congr_left (fun e he => h.nodeOf_name hp he)

theorem find_buildTree (hp : walk K 1 p = some n) (hd : (f.inodeAt n).type = typeDir) (fuel : ℕ) {x : Name}
    (hx : child K n x = some m) : (buildTree f (fuel + 1) n).find x = some (branchOf f fuel (x, m)) := by
  rw [h.buildTree_succ hp hd, Forest.find_plant (by rw [h.map_name hp]; exact h.nodup n), List.find?_map]
  obtain ⟨e, he, rfl⟩ := Option.map_eq_some_iff.mp hx
  have hex : e.1 = x := by simpa using List.find?_some he
  have hcongr : (K n).find? ((fun v : Attrs × Forest => decide (v.1.name = x)) ∘ branchOf f fuel) =
      (K n).find? (fun e => e.1 = x) := by
    refine List.find?_congr (fun e he => ?_)
    show decide ((nodeOf f e).name = x) = decide (e.1 = x)
    rw [h.nodeOf_name hp he]
  rw [hcongr, he, Option.map_some, ← hex]

/-- A path that is not too long is found. -/
theorem follow_buildTree (hp : walk K 1 p = some n) (hd : (f.inodeAt n).type = typeDir) (ha : a.dir = true) {x : Name}
    (hw : walk K n (q ++ [x]) = some m) (hlen : q.length < fuel) :
    ∃ c, follow (a, buildTree f fuel n) (q ++ [x]) = some (nodeOf f (x, m), c) := by
  induction q generalizing p n a fuel with
  | nil =>
    obtain ⟨fuel, rfl⟩ : ∃ k, fuel = k + 1 := ⟨fuel - 1, by simp at hlen; omega⟩
    rw [walk_concat] at hw
    refine ⟨(branchOf f fuel (x, m)).2, ?_⟩
    rw [List.nil_append, follow, if_pos ha, h.find_buildTree hp hd fuel hw, Option.bind_some, follow]
    rfl
  | cons y q ih =>
    rw [List.length_cons] at hlen
    obtain ⟨fuel, rfl⟩ : ∃ k, fuel = k + 1 := ⟨fuel - 1, by omega⟩
    rw [List.cons_append, walk] at hw
    obtain ⟨c, hc, hw⟩ := Option.bind_eq_some_iff.mp hw
    have hpc : walk K 1 (p ++ [y]) = some c := by rw [walk_concat, hp, Option.bind_some, hc]
    have hdc := h.dir_of_walk hw
    have hdir := (nodeOf_dir (e := (y, c))).mpr hdc
    obtain ⟨child', hfollow⟩ := ih (a := nodeOf f (y, c)) hpc hdc hdir hw (Nat.lt_of_succ_lt_succ hlen)
    refine ⟨child', ?_⟩
    rw [List.cons_append, follow, if_pos ha, h.find_buildTree hp hd fuel hc, Option.bind_some, branchOf, if_pos hdir]
    exact hfollow

/-- The nodes of the tree. -/
theorem mem_nodes (hp : walk K 1 p = some n) (hd : (f.inodeAt n).type = typeDir) :
    (q, a) ∈ (buildTree f fuel n).nodes ↔
      ∃ r x m, q = r ++ [x] ∧ r.length < fuel ∧ walk K n q = some m ∧ a = nodeOf f (x, m) := by
  induction fuel generalizing p n q with
  | zero => simp [buildTree, Forest.nodes]
  | succ fuel ih =>
    rw [h.buildTree_succ hp hd, (Forest.nodes_plant _).mem_iff, List.flatMap_map, List.mem_flatMap]
    constructor
    · rintro ⟨e, he, hmem⟩
      have hchild : child K n e.1 = some e.2 := child_of_mem (h.nodup n) he
      rcases List.mem_cons.mp hmem with hmem | hmem
      · obtain ⟨rfl, rfl⟩ := Prod.mk.inj hmem
        refine ⟨[], e.1, e.2, ?_, Nat.succ_pos _, ?_, rfl⟩
        · rw [List.nil_append]
          exact congrArg (fun y => [y]) (h.nodeOf_name hp he)
        · show walk K n [(nodeOf f e).name] = some e.2
          rw [h.nodeOf_name hp he, walk, hchild]
          rfl
      · obtain ⟨⟨q', a'⟩, hin, heq⟩ := List.mem_map.mp hmem
        obtain ⟨rfl, rfl⟩ := Prod.mk.inj heq
        unfold branchOf at hin
        dsimp only at hin
        split at hin
        · rename_i hdir
          have hdc := nodeOf_dir.mp hdir
          obtain ⟨r, x, m, rfl, hlen, hw, ha⟩ := (ih (h.walk_entry hp he) hdc).mp hin
          refine ⟨e.1 :: r, x, m, ?_, Nat.succ_lt_succ hlen, ?_, ha⟩
          · show (nodeOf f e).name :: (r ++ [x]) = _
            rw [h.nodeOf_name hp he]
            rfl
          · show walk K n ((nodeOf f e).name :: (r ++ [x])) = some m
            rw [h.nodeOf_name hp he, walk, hchild]
            exact hw
        · cases hin
    · rintro ⟨r, x, m, rfl, hlen, hw, rfl⟩
      cases r with
      | nil =>
        rw [walk_concat] at hw
        have hmem := mem_of_child hw
        refine ⟨(x, m), hmem, List.mem_cons.mpr (Or.inl ?_)⟩
        show ([x], nodeOf f (x, m)) = ([(nodeOf f (x, m)).name], nodeOf f (x, m))
        rw [h.nodeOf_name hp hmem]
      | cons y r =>
        rw [List.cons_append, walk] at hw
        obtain ⟨c, hc, hw⟩ := Option.bind_eq_some_iff.mp hw
        have hmem := mem_of_child hc
        have hdc := h.dir_of_walk hw
        have hdir := (nodeOf_dir (e := (y, c))).mpr hdc
        refine ⟨(y, c), hmem, List.mem_cons.mpr (Or.inr (List.mem_map.mpr ⟨(r ++ [x], nodeOf f (x, m)), ?_, ?_⟩))⟩
        · unfold branchOf
          rw [if_pos hdir]
          exact (ih (h.walk_entry hp hmem) hdc).mpr ⟨r, x, m, rfl, Nat.lt_of_succ_lt_succ hlen, hw, rfl⟩
        · show ((nodeOf f (y, c)).name :: (r ++ [x]), _) = _
          rw [h.nodeOf_name hp hmem]
          rfl

/-- No two nodes have one path. -/
theorem nodup_nodes (hp : walk K 1 p = some n) (hd : (f.inodeAt n).type = typeDir) (fuel : ℕ) :
    ((buildTree f fuel n).nodes.map Prod.fst).Nodup := by
  induction fuel generalizing p n with
  | zero => exact List.nodup_nil
  | succ fuel ih =>
    rw [h.buildTree_succ hp hd, ((Forest.nodes_plant _).map _).nodup_iff, List.flatMap_map, List.map_flatMap,
      List.nodup_flatMap]
    have hfirst : ∀ e ∈ K n, ∀ r ∈ (Forest.nodesOf (branchOf f fuel e)).map Prod.fst, r.head? = some e.1 := by
      intro e he r hr
      obtain ⟨v, hv, rfl⟩ := List.mem_map.mp hr
      rcases List.mem_cons.mp hv with rfl | hv
      · exact congrArg some (h.nodeOf_name hp he)
      · obtain ⟨w, -, rfl⟩ := List.mem_map.mp hv
        exact congrArg some (h.nodeOf_name hp he)
    constructor
    · intro e he
      show ([(nodeOf f e).name] :: ((branchOf f fuel e).2.nodes.map (fun w => ((nodeOf f e).name :: w.1, w.2))).map
        Prod.fst).Nodup
      have hbelow : ((branchOf f fuel e).2.nodes.map Prod.fst).Nodup := by
        unfold branchOf
        dsimp only
        split
        · rename_i hdir
          exact ih (h.walk_entry hp he) (nodeOf_dir.mp hdir)
        · exact List.nodup_nil
      rw [List.map_map, List.nodup_cons]
      constructor
      · intro hmem
        obtain ⟨w, hw, heq⟩ := List.mem_map.mp hmem
        exact Forest.path_ne_nil hw (List.cons.inj heq).2
      · rw [show (Prod.fst ∘ fun w : List Name × Attrs => ((nodeOf f e).name :: w.1, w.2)) =
          (fun r => (nodeOf f e).name :: r) ∘ Prod.fst from rfl, ← List.map_map]
        exact hbelow.map (List.cons_injective)
    · -- the paths below two entries begin with different names
      refine List.Pairwise.imp_of_mem (fun {e e'} he he' hne r hr hr' => ?_) ((List.pairwise_map.mp (h.nodup n)))
      have := (hfirst e he r hr).symm.trans (hfirst e' he' r hr')
      exact hne (Option.some.inj this)

end Shows

end SifarOS.Vfs

namespace SifarOS.Mkfs
open ByteMemory SifarFs NamedTree Vfs

namespace Filesystem

variable {fs : Filesystem} {data : ℕ → List UInt8} {K : ℕ → List (List UInt8 × ℕ)} {es : List (List UInt8 × ℕ)}
  {files : List SourceFile} {n used clock : ℕ}

/-- The entries are read back by the kernel. -/
theorem direntsOf_encodeAll (h : Storable es) (hz : ∀ e ∈ es, 0 ∉ e.1) : direntsOf (encodeAll es) = es.map direntOf := by
  have hlen := length_encodeAll h
  refine List.ext_getElem ?_ (fun i h₁ h₂ => ?_)
  · rw [length_direntsOf, hlen, List.length_map]
    omega
  · have hi : i < es.length := by simpa using h₂
    obtain ⟨hname, -, hlt⟩ := h es[i] (List.getElem_mem hi)
    rw [direntsOf_getElem, List.getElem_map, drop_encodeAll h, List.drop_eq_getElem_cons hi, encodeAll_cons,
      List.take_left' (length_encodeDirent _ hname.le), decode_encodeDirent hlt hname.le (hz _ (List.getElem_mem hi))]
    rfl

/-- A component of a path that the kernel keeps whole. -/
structure Nameable (name : List UInt8) : Prop where
  ne_nil : name ≠ []
  no_slash : slash ∉ name
  no_zero : 0 ∉ name
  short : name.length < 32

instance (name : List UInt8) : Decidable (Nameable name) :=
  decidable_of_iff (name ≠ [] ∧ slash ∉ name ∧ 0 ∉ name ∧ name.length < 32)
    ⟨fun h => ⟨h.1, h.2.1, h.2.2.1, h.2.2.2⟩, fun h => ⟨h.ne_nil, h.no_slash, h.no_zero, h.short⟩⟩

theorem Listing.mem_path (h : Listing files files fs data K) {p : List (List UInt8)} (hp : walk K 1 p = some n) {x : List UInt8}
    (hx : x ∈ p) : ∃ f ∈ files, x ∈ f.path := by
  rcases h.only p n hp with ⟨-, f, hf, rfl⟩ | ⟨-, rfl | ⟨f, hf, hpre⟩⟩
  · exact ⟨f, hf, hx⟩
  · cases hx
  · exact ⟨f, hf, List.mem_append_left _ (hpre.subset hx)⟩

/-- The kernel sees the directories of the build. -/
theorem Listing.shows (h : Listing files files fs data K) (hname : ∀ f ∈ files, ∀ x ∈ f.path, Nameable x) (used clock : ℕ) :
    Shows (fs.mounted used clock) K := by
  have hbuilt := h.planted.built
  have hfits := hbuilt.fits
  have htype : ∀ n, (fs.inodes n).type ≠ typeFree → ((fs.mounted used clock).inodeAt n).type = (fs.inodes n).type := by
    intro n hn
    rw [mounted_inodeAt hfits (hbuilt.numbered hn) (hbuilt.packed n)]
  have hnames : ∀ p n, walk K 1 p = some n → ∀ e ∈ K n, Nameable e.1 := by
    intro p n hp e he
    have hwalk : walk K 1 (p ++ [e.1]) = some e.2 := by
      rw [walk_concat, hp, Option.bind_some]
      exact child_of_mem (h.planted.nodup n) he
    obtain ⟨f, hf, hx⟩ := h.mem_path hwalk (List.mem_append_right _ List.mem_cons_self)
    exact hname f hf _ hx
  refine ⟨fun p n hp hd => ?_, fun n hn => ?_, fun p n hp e he => ?_, fun p n hp => ?_, h.planted.nodup⟩
  · have halive := h.planted.walk_alive hp
    have hdir : (fs.inodes n).type = typeDir := (htype n halive).symm.trans hd
    have hlive : (fs.mounted used clock).Live n :=
      ⟨(mounted_numbered hfits).mpr (hbuilt.numbered halive), by rw [htype n halive]; exact halive⟩
    rw [entries_eq (mounted_sound hbuilt hfits) hlive, mounted_bytes hbuilt hfits (hbuilt.numbered halive),
      h.planted.dirs n hdir]
    exact direntsOf_encodeAll (h.planted.storable n) (fun e he => (hnames p n hp e he).no_zero)
  · by_cases hfree : (fs.inodes n).type = typeFree
    · exact h.planted.leaves n (by rw [hfree]; decide)
    · exact h.planted.leaves n (by rwa [← htype n hfree])
  · exact ⟨(hnames p n hp e he).ne_nil, (hnames p n hp e he).short⟩
  · exact (mounted_numbered hfits).mpr (hbuilt.numbered (h.planted.walk_alive hp))

end Filesystem

/-- `vfs_read` of a file on the image. -/
def Reads (m : Mount) (a : Attrs) (payload : List UInt8) : Prop :=
  ∀ offset length, offset + length < 4294967296 →
    m.read sfsOps a offset length = some ((payload.drop offset).take length)

section listing

variable {fs : Filesystem} {data : ℕ → List UInt8} {K : ℕ → List (List UInt8 × ℕ)} {files : List SourceFile}
  {n used clock : ℕ} {m : Mount} {f : SourceFile} (hl : Filesystem.Listing files files fs data K)
include hl

theorem mounted_node (hn : (fs.inodes n).type ≠ typeFree) : (fs.mounted used clock).inodeAt n = fs.inodes n :=
  Filesystem.mounted_inodeAt hl.planted.built.fits (hl.planted.built.numbered hn) (hl.planted.built.packed n)

theorem mounted_root : ((fs.mounted used clock).inodeAt 1).type = typeDir := by
  rw [mounted_node hl (by rw [hl.planted.root]; decide)]
  exact hl.planted.root

/-- A listed file is read back. -/
theorem reads_node (hm : m.fs = fs.mounted used clock) (hn : (fs.inodes n).type ≠ typeFree) {a : Attrs}
    (hdir : a.dir = false) (ha : a.inode = n) : Reads m a (data n) := by
  have hbuilt := hl.planted.built
  have hnumbered := hbuilt.numbered hn
  obtain ⟨L, high, hL⟩ := hbuilt.layout
  intro offset length hlen
  unfold Volume.read
  rw [hdir]
  show m.fs.fileRead a.inode offset length = _
  rw [hm, ha]
  have hsize : ((fs.mounted used clock).inodeAt n).size ≤ 1036 * 4096 := by
    rw [mounted_node hl hn]
    exact (hL.holds n).size_le
  rw [Fs.fileRead_eq ((Filesystem.mounted_numbered hbuilt.fits).mpr hnumbered) hsize hlen,
    Filesystem.mounted_bytes hbuilt hbuilt.fits hnumbered]

/-- `vfs_lookup` finds a listed file. -/
theorem lookup_listed (hname : ∀ f ∈ files, ∀ x ∈ f.path, Filesystem.Nameable x) (hf : f ∈ files)
    (hdots : ∀ x ∈ f.path, x ≠ [dot] ∧ x ≠ [dot, dot]) (hlen : (render f.path).length < 192) (hdepth : f.path.length ≤ 17)
    (hm : m.fs = fs.mounted used clock) (hroot : m.root.dir = true) (htree : m.tree = buildTree (fs.mounted 0 clock) 17 1) :
    ∃ a child, lookup m none (render f.path) = some (f.path, a, child) ∧ a.dir = false ∧
      (a.readonly = true ↔ f.flags % 2 = 1) ∧ Reads m a f.payload := by
  obtain ⟨n, hw, htype, hflag, hdata⟩ := hl.files f hf
  have halive : (fs.inodes n).type ≠ typeFree := by rw [htype]; decide
  have hshows := hl.shows hname 0 clock
  have hshallow : f.parts.length < 17 := by
    rw [SourceFile.path, List.length_append] at hdepth
    exact hdepth
  have hclean : Clean f.path :=
    fun x hx => ⟨(hname f hf x hx).ne_nil, (hname f hf x hx).no_slash, (hdots x hx).1, (hdots x hx).2⟩
  obtain ⟨child', hfollow⟩ := hshows.follow_buildTree (p := []) rfl (mounted_root hl) hroot hw hshallow
  obtain ⟨absolute, habs, hsegs⟩ := abspath_none_stack (s := render f.path) ⟨hclean, Or.inl rfl⟩ hlen
  have hdir : (nodeOf (fs.mounted 0 clock) (f.name, n)).dir = false := by
    rw [Bool.eq_false_iff]
    intro hd
    have hd' := nodeOf_dir.mp hd
    rw [mounted_node hl halive, htype] at hd'
    exact absurd hd' (by decide)
  refine ⟨nodeOf (fs.mounted 0 clock) (f.name, n), child', ?_, hdir, ?_, hdata ▸ reads_node hl hm halive hdir rfl⟩
  · rw [lookup_eq, habs, Option.bind_some, hsegs, htree]
    unfold SourceFile.path
    rw [hfollow]
    rfl
  · show ((((fs.mounted 0 clock).inodeAt n).flags % 2 == flagReadonly) = true) ↔ _
    rw [mounted_node hl halive, hflag, beq_iff_eq]
    rfl

/-- The files of the tree are the listed ones that are not too deep. -/
theorem files_of_tree (hname : ∀ f ∈ files, ∀ x ∈ f.path, Filesystem.Nameable x) (hnodup : (files.map SourceFile.path).Nodup) :
    (((buildTree (fs.mounted 0 clock) 17 1).nodes.filter (fun v => !v.2.dir)).map Prod.fst).Perm
      ((files.map SourceFile.path).filter (fun p => p.length ≤ 17)) := by
  have hshows := hl.shows hname 0 clock
  have hmem : ∀ q a, (q, a) ∈ (buildTree (fs.mounted 0 clock) 17 1).nodes ↔ ∃ r x n, q = r ++ [x] ∧ r.length < 17 ∧
      walk K 1 q = some n ∧ a = nodeOf (fs.mounted 0 clock) (x, n) :=
    fun q a => hshows.mem_nodes (p := []) rfl (mounted_root hl)
  refine (List.perm_ext_iff_of_nodup ?_ (hnodup.filter _)).mpr (fun q => ?_)
  · exact (hshows.nodup_nodes (p := []) rfl (mounted_root hl) 17).sublist (List.filter_sublist.map _)
  constructor
  · intro hq
    obtain ⟨⟨q', a⟩, hv, rfl⟩ := List.mem_map.mp hq
    obtain ⟨hv, hfile⟩ := List.mem_filter.mp hv
    obtain ⟨r, x, n, rfl, hlen, hw, rfl⟩ := (hmem q' a).mp hv
    rcases hl.only _ _ hw with ⟨-, f, hf, hpath⟩ | ⟨hdir, -⟩
    · refine List.mem_filter.mpr ⟨List.mem_map.mpr ⟨f, hf, hpath⟩, ?_⟩
      rw [decide_eq_true_eq, List.length_append]
      exact hlen
    · have hd : (nodeOf (fs.mounted 0 clock) (x, n)).dir = true := by
        rw [nodeOf_dir, mounted_node hl (by rw [hdir]; decide)]
        exact hdir
      simp [hd] at hfile
  · intro hq
    obtain ⟨hq, hlen⟩ := List.mem_filter.mp hq
    obtain ⟨f, hf, rfl⟩ := List.mem_map.mp hq
    obtain ⟨n, hw, htype, -, -⟩ := hl.files f hf
    refine List.mem_map.mpr ⟨(f.path, nodeOf (fs.mounted 0 clock) (f.name, n)), List.mem_filter.mpr ⟨?_, ?_⟩, rfl⟩
    · refine (hmem _ _).mpr ⟨f.parts, f.name, n, rfl, ?_, hw, rfl⟩
      rw [decide_eq_true_eq, SourceFile.path, List.length_append] at hlen
      exact hlen
    · have hd : (nodeOf (fs.mounted 0 clock) (f.name, n)).dir ≠ true := by
        rw [Ne, nodeOf_dir, mounted_node hl (by rw [htype]; decide), htype]
        decide
      simpa using hd

end listing

/-- An image of separate files is mounted with these files and no others, down to the depth at which
`build_tree` stops. `vfs_lookup` takes `.` and `..` for directories, not for names. -/
theorem image_paths {totalBlocks inodeCount : ℕ} {label : ℕ → ℕ} {files : List SourceFile} {fs : Filesystem}
    (ht : totalBlocks < 4294967296) (hc : inodeCount < 4294967296) (hflags : ∀ f ∈ files, f.flags < 4294967296)
    (hnodup : (files.map SourceFile.path).Nodup) (hsep : Separate files)
    (hname : ∀ f ∈ files, ∀ x ∈ f.path, Filesystem.Nameable x)
    (hb : build false totalBlocks inodeCount label (files.map SourceFile.argument) = some fs) (clock : ℕ) :
    ∃ m, Vfs.mount fs.serialise clock = some m ∧
      (∀ f ∈ files, (render f.path).length < 192 → f.path.length ≤ 17 → (∀ x ∈ f.path, x ≠ [dot] ∧ x ≠ [dot, dot]) →
        ∃ a child, lookup m none (render f.path) = some (f.path, a, child) ∧ a.dir = false ∧
          (a.readonly = true ↔ f.flags % 2 = 1) ∧ Reads m a f.payload) ∧
      ((m.tree.nodes.filter (fun v => !v.2.dir)).map Prod.fst).Perm
        ((files.map SourceFile.path).filter (fun p => p.length ≤ 17)) := by
  obtain ⟨data, K, hl⟩ := build_listing ht hc hflags hnodup hsep hb
  obtain ⟨m, used, hmount, hm, hroot, htree⟩ := Filesystem.mount_serialise hl.planted.built.fits clock
  refine ⟨m, hmount, fun f hf hlen hdepth hdots => lookup_listed hl hname hf hdots hlen hdepth hm (by rw [hroot]) htree, ?_⟩
  rw [htree]
  exact files_of_tree hl hname hnodup

/-- Two files in a directory, one of them read only. -/
def pair : List SourceFile := [⟨[[101]], [97], [1, 2, 3], 1⟩, ⟨[[101]], [98], [], 0⟩]

theorem image_paths_pair : ∃ fs m, build false 8 8 (fun _ => 0) (pair.map SourceFile.argument) = some fs ∧
    Vfs.mount fs.serialise 0 = some m ∧
    ∃ a child, lookup m none [47, 101, 47, 97] = some ([[101], [97]], a, child) ∧ a.readonly = true ∧ Reads m a [1, 2, 3] := by
  obtain ⟨fs, hb⟩ := Option.isSome_iff_exists.mp
    (show (build false 8 8 (fun _ => 0) (pair.map SourceFile.argument)).isSome = true by decide)
  have hsep : Separate pair := by
    unfold Separate
    decide
  obtain ⟨m, hm, hfound, -⟩ := image_paths (by decide) (by decide) (by decide) (by decide) hsep (by decide) hb 0
  obtain ⟨a, child, hlook, -, hro, hreads⟩ := hfound ⟨[[101]], [97], [1, 2, 3], 1⟩ (by decide) (by decide) (by decide) (by decide)
  exact ⟨fs, m, hb, hm, a, child, hlook, hro.mpr rfl, hreads⟩

/-- A file below seventeen directories. -/
def deepFile : SourceFile := ⟨List.replicate 17 [97], [98], [1], 0⟩

/-- `build_tree` stops above it. -/
theorem deep_file_not_found : (render deepFile.path).length ≤ 191 ∧
    (∀ x ∈ deepFile.path, x ≠ [] ∧ x.length < 56 ∧ slash ∉ x ∧ ∀ b ∈ x, 0 < b ∧ b < 128) ∧
    ∃ fs m, build false 24 24 (fun _ => 0) [deepFile.argument] = some fs ∧ Vfs.mount fs.serialise 0 = some m ∧
      lookup m none (render deepFile.path) = none := by
  have hrun : ((build false 24 24 (fun _ => 0) [deepFile.argument]).bind (fun fs => Vfs.mount fs.serialise 0)).map
      (fun m => lookup m none (render deepFile.path)) = some none := by
    decide +kernel
  obtain ⟨m, hm, hlook⟩ := Option.map_eq_some_iff.mp hrun
  obtain ⟨fs, hb, hmount⟩ := Option.bind_eq_some_iff.mp hm
  exact ⟨by decide, by decide +kernel, fs, m, hb, hmount, hlook⟩

end SifarOS.Mkfs
