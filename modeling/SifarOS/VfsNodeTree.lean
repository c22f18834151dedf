import SifarOS.VfsNodes

/-! # The tree that the nodes make

What holds of the nodes after every sequence of `vfs_create` and `vfs_unlink`: they are a tree in which
the siblings are in the order of `strcmp`, and `node_count` counts them. -/
namespace SifarOS.Vfs

/-! ## The order of names -/

theorem strcmpLt_irrefl (x : Name) : strcmpLt x x = false := by
  induction x with
  | nil => rfl
  | cons c rest ih => simp [strcmpLt, ih]

theorem strcmpLt_trans {x y z : Name} (h : strcmpLt x y = true) (h' : strcmpLt y z = true) : strcmpLt x z = true := by
  induction x generalizing y z with
  | nil =>
    cases z with
    | nil => cases y <;> simp [strcmpLt] at h'
    | cons c rest => rfl
  | cons c rest ih =>
    cases y with
    | nil => simp [strcmpLt] at h
    | cons d rest' =>
      cases z with
      | nil => simp [strcmpLt] at h'
      | cons e rest'' =>
        simp only [strcmpLt] at h h' ⊢
        split at h
        · next hcd =>
          subst hcd
          split at h'
          · next hce =>
            rw [if_pos hce]
            exact ih h h'
          · next hce =>
            rw [if_neg hce]
            exact h'
        · next hcd =>
          split at h'
          · next hde =>
            subst hde
            rw [if_neg hcd]
            exact h
          · have hlt := UInt8.lt_trans (of_decide_eq_true h) (of_decide_eq_true h')
            rw [if_neg (UInt8.ne_of_lt hlt)]
            exact decide_eq_true hlt

/-- Names that are neither before nor after each other are the same. -/
theorem strcmpLt_of_not {x y : Name} (h : strcmpLt x y = false) (hne : x ≠ y) : strcmpLt y x = true := by
  induction x generalizing y with
  | nil =>
    cases y with
    | nil => exact absurd rfl hne
    | cons c rest => simp [strcmpLt] at h
  | cons c rest ih =>
    cases y with
    | nil => rfl
    | cons d rest' =>
      simp only [strcmpLt] at h ⊢
      split at h
      · next hcd =>
        subst hcd
        rw [if_pos rfl]
        exact ih h fun he => hne (by rw [he])
      · next hcd =>
        rw [if_neg (Ne.symm hcd)]
        exact decide_eq_true ((UInt8.lt_or_lt_of_ne hcd).resolve_left (of_decide_eq_false h))

/-! ## What is said of a tree -/

namespace Forest

/-- The siblings are in the order of `strcmp`, everywhere. -/
def Sorted : Forest → Prop
  | nil => True
  | node a child next => (∀ b ∈ next.siblings, strcmpLt a.name b.name = true) ∧ child.Sorted ∧ next.Sorted

/-- Only directories have children. -/
def DirsOnly : Forest → Prop
  | nil => True
  | node a child next => (a.dir = false → child = nil) ∧ child.DirsOnly ∧ next.DirsOnly

/-- The path of every node is shorter than `FS_PATH_MAX`, below a directory whose path has `len` bytes. -/
def Short (len : ℕ) : Forest → Prop
  | nil => True
  | node a child next => len + 1 + a.name.length < 192 ∧ child.Short (len + 1 + a.name.length) ∧ next.Short len

variable {t child next new : Forest} {a b : Attrs} {x len : ℕ} {path : List Name}

/-! ### A new sibling -/

theorem mem_siblings_link (t : Forest) (a : Attrs) (c : Forest) : b ∈ (t.link a c).siblings ↔ b = a ∨ b ∈ t.siblings := by
  induction t with
  | nil => simp [link, siblings]
  | node d e next _ ihn =>
    unfold link
    split
    · simp only [siblings, List.mem_cons, ihn]
      exact or_left_comm
    · simp [siblings]

theorem find_eq_none (h : t.find a.name = none) : ∀ b ∈ t.siblings, b.name ≠ a.name := by
  induction t with
  | nil => simp [siblings]
  | node d e next _ ihn =>
    unfold find at h
    split at h
    · cases h
    next hne =>
    simp only [siblings, List.mem_cons, forall_eq_or_imp]
    exact ⟨hne, ihn h⟩

theorem Sorted.link (h : t.Sorted) (hnew : t.find a.name = none) : (t.link a nil).Sorted := by
  induction t with
  | nil => exact ⟨by simp [siblings], trivial, trivial⟩
  | node d e next _ ihn =>
    have hnames := find_eq_none hnew
    simp only [siblings, List.mem_cons, forall_eq_or_imp] at hnames
    obtain ⟨hlt, he, hn⟩ := h
    unfold Forest.link
    split
    · next hda =>
      have hnone : next.find a.name = none := by
        unfold find at hnew
        rw [if_neg hnames.1] at hnew
        exact hnew
      refine ⟨fun b hb => ?_, he, ihn hn hnone⟩
      rcases (mem_siblings_link next a nil).mp hb with rfl | hb
      · exact hda
      · exact hlt b hb
    · next hda =>
      have had := strcmpLt_of_not (by simpa using hda) hnames.1
      refine ⟨fun b hb => ?_, trivial, hlt, he, hn⟩
      rcases List.mem_cons.mp hb with rfl | hb
      · exact had
      · exact strcmpLt_trans had (hlt b hb)

theorem DirsOnly.link (h : t.DirsOnly) (a : Attrs) : (t.link a nil).DirsOnly := by
  induction t with
  | nil => exact ⟨fun _ => rfl, trivial, trivial⟩
  | node d e next _ ihn =>
    unfold Forest.link
    split
    · exact ⟨h.1, h.2.1, ihn h.2.2⟩
    · exact ⟨fun _ => rfl, trivial, h⟩

theorem Short.link (h : t.Short len) (ha : len + 1 + a.name.length < 192) : (t.link a nil).Short len := by
  induction t with
  | nil => exact ⟨ha, trivial, trivial⟩
  | node d e next _ ihn =>
    unfold Forest.link
    split
    · exact ⟨h.1, h.2.1, ihn h.2.2⟩
    · exact ⟨ha, trivial, h⟩

/-! ### A sibling less -/

theorem mem_siblings_dropNode (h : b ∈ (t.dropNode x).siblings) : b ∈ t.siblings := by
  induction t with
  | nil => exact h
  | node d e next _ ihn =>
    unfold dropNode at h
    split at h
    · exact List.mem_cons_of_mem _ (ihn h)
    · rcases List.mem_cons.mp h with rfl | h
      · exact List.mem_cons_self
      · exact List.mem_cons_of_mem _ (ihn h)

theorem Sorted.dropNode (h : t.Sorted) (x : ℕ) : (t.dropNode x).Sorted := by
  induction t with
  | nil => trivial
  | node d e next ihc ihn =>
    unfold Forest.dropNode
    split
    · exact ihn h.2.2
    · exact ⟨fun b hb => h.1 b (mem_siblings_dropNode hb), ihc h.2.1, ihn h.2.2⟩

theorem DirsOnly.dropNode (h : t.DirsOnly) (x : ℕ) : (t.dropNode x).DirsOnly := by
  induction t with
  | nil => trivial
  | node d e next ihc ihn =>
    unfold Forest.dropNode
    split
    · exact ihn h.2.2
    · exact ⟨fun hd => by rw [h.1 hd]; rfl, ihc h.2.1, ihn h.2.2⟩

theorem Short.dropNode (h : t.Short len) (x : ℕ) : (t.dropNode x).Short len := by
  induction t generalizing len with
  | nil => trivial
  | node d e next ihc ihn =>
    unfold Forest.dropNode
    split
    · exact ihn h.2.2
    · exact ⟨h.1, ihc h.2.1, ihn h.2.2⟩

theorem dropNode_link (h : a.inode ∉ t.inodes) (c : Forest) : (t.link a c).dropNode a.inode = t := by
  induction t with
  | nil => simp [link, dropNode]
  | node d e next _ ihn =>
    have hall := dropNode_of_not_mem h
    simp only [inodes_node, List.mem_cons, List.mem_append, not_or] at h
    unfold link
    split
    · rw [dropNode, if_neg (Ne.symm h.1), ihn h.2.2, dropNode_of_not_mem h.2.1]
    · rw [dropNode, if_pos rfl, hall]

/-! ### Other children of a node -/

theorem Sorted.withChildren (h : t.Sorted) (hnew : new.Sorted) (x : ℕ) : (t.withChildren x new).Sorted := by
  induction t with
  | nil => trivial
  | node d e next ihc ihn =>
    unfold Forest.withChildren
    split
    · exact ⟨h.1, hnew, h.2.2⟩
    · refine ⟨fun b hb => h.1 b ?_, ihc h.2.1, ihn h.2.2⟩
      rwa [siblings_withChildren] at hb

end Forest

section at_

variable {t child next new : Forest} {a b : Attrs} {len : ℕ} {path : List Name}

theorem At.sorted (h : At a child t) (hs : t.Sorted) : child.Sorted := by
  induction h with
  | here next => exact hs.2.1
  | down b next _ ih => exact ih hs.2.1
  | beside b c _ ih => exact ih hs.2.2

theorem At.dirsOnly (h : At a child t) (hd : t.DirsOnly) : child.DirsOnly := by
  induction h with
  | here next => exact hd.2.1
  | down b next _ ih => exact ih hd.2.1
  | beside b c _ ih => exact ih hd.2.2

/-- A directory may get children. -/
theorem At.dirsOnly_withChildren (h : At a child t) (hnd : t.inodes.Nodup) (hd : t.DirsOnly) (hdir : a.dir = true)
    (hnew : new.DirsOnly) : (t.withChildren a.inode new).DirsOnly := by
  induction h with
  | here next =>
    rw [withChildren_here]
    exact ⟨fun hfile => absurd (hdir.symm.trans hfile) (by decide), hnew, hd.2.2⟩
  | @down b c next h ih =>
    rw [(withChildren_down new h hnd).1]
    refine ⟨fun hfile => ?_, ih (Forest.nodup_node hnd).2.2.1 hd.2.1, hd.2.2⟩
    obtain rfl := hd.1 hfile
    cases h
  | beside b c h ih =>
    rw [(withChildren_beside new h hnd).1]
    exact ⟨hd.1, hd.2.1, ih (Forest.nodup_node hnd).2.2.2.1 hd.2.2⟩

theorem Found.at_ (h : Found a child t path) : At a child t := by
  induction h with
  | here next => exact .here next
  | down next _ ih => exact .down _ next ih
  | beside c _ _ ih => exact .beside _ c ih

/-- How long the path is down to the children of a node. -/
theorem Found.short (h : Found a child t path) (hs : t.Short len) : child.Short (len + (render path).length) := by
  induction h generalizing len with
  | here next => simpa [render, Nat.add_assoc, Nat.add_comm, Nat.add_left_comm] using hs.2.1
  | @down b c name rest next _ ih =>
    have h := ih hs.2.1
    simp only [render, List.flatMap_cons, List.length_append, List.length_cons] at h ⊢
    convert h using 1
    omega
  | beside c _ _ ih => exact ih hs.2.2

theorem Found.short_withChildren (h : Found a child t path) (hnd : t.inodes.Nodup) (hs : t.Short len)
    (hnew : new.Short (len + (render path).length)) : (t.withChildren a.inode new).Short len := by
  induction h generalizing len with
  | here next =>
    rw [withChildren_here]
    refine ⟨hs.1, ?_, hs.2.2⟩
    simpa [render, Nat.add_assoc, Nat.add_comm, Nat.add_left_comm] using hnew
  | @down b c name rest next h ih =>
    rw [(withChildren_down new h.at_ hnd).1]
    refine ⟨hs.1, ih (Forest.nodup_node hnd).2.2.1 hs.2.1 ?_, hs.2.2⟩
    simp only [render, List.flatMap_cons, List.length_append, List.length_cons] at hnew ⊢
    convert hnew using 1
    omega
  | @beside b next name rest c hne h ih =>
    rw [(withChildren_beside new h.at_ hnd).1]
    exact ⟨hs.1, hs.2.1, ih (Forest.nodup_node hnd).2.2.2.1 hs.2.2 hnew⟩

end at_

/-! ## The invariant -/

/-- A name that `vfs_create` gives to a node. -/
def NameOk (name : Name) : Prop := (name ≠ [] ∧ slash ∉ name ∧ name ≠ [dot] ∧ name ≠ [dot, dot]) ∧ name.length < 32

/-- The nodes are a tree: `t` is below the root `r`. The links are those of the tree, the parent pointer
of every node included, and no node is in two places. -/
structure IsTree (s : Nodes) (r : Attrs) (t : Forest) : Prop where
  root : s.root = r.inode
  rootDir : r.dir = true
  rep : Rep s.heap 0 (.node r t .nil)
  nodup : (Forest.node r t .nil).inodes.Nodup
  sorted : t.Sorted
  names : ∀ a ∈ t.attrs, NameOk a.name
  dirs : (Forest.node r t .nil).DirsOnly
  short : t.Short 0
  count : s.nodeCount = (Forest.node r t .nil).count

section tree

variable {s s' : Nodes} {r a b : Attrs} {t child new : Forest} {path : List Name}

theorem follow_root (hf : follow (r, t) path = some (a, child)) : At a child (.node r t .nil) := follow_at (.here .nil) hf

theorem IsTree.lookupFrom (h : IsTree s r t) (path : List Name) :
    s.lookupFrom path s.root = some (pointer (follow (r, t) path)) := by
  rw [h.root]
  exact lookupFrom_rep h.rep (.here .nil) (Nat.le_of_eq h.count.symm) path

/-- The tree below the root after the children of a node were replaced. -/
def newTree (r : Attrs) (t : Forest) (x : ℕ) (new : Forest) : Forest := if r.inode = x then new else t.withChildren x new

theorem withChildren_root (r : Attrs) (t : Forest) (x : ℕ) (new : Forest) :
    (Forest.node r t .nil).withChildren x new = .node r (newTree r t x new) .nil := by
  unfold Forest.withChildren newTree
  split <;> rfl

theorem IsTree.short_at (h : IsTree s r t) (hf : follow (r, t) path = some (a, child)) : child.Short (render path).length := by
  cases path with
  | nil =>
    obtain ⟨rfl, rfl⟩ := Prod.mk.inj (Option.some.inj hf)
    exact h.short
  | cons name rest => simpa using (found_of_follow hf).short h.short

theorem IsTree.short_newTree (h : IsTree s r t) (hf : follow (r, t) path = some (a, child))
    (hnew : new.Short (render path).length) : (newTree r t a.inode new).Short 0 := by
  unfold newTree
  cases path with
  | nil =>
    obtain ⟨rfl, rfl⟩ := Prod.mk.inj (Option.some.inj hf)
    rw [if_pos rfl]
    exact hnew
  | cons name rest =>
    have hfound := found_of_follow hf
    obtain ⟨hrt, -, htn, -⟩ := Forest.nodup_node h.nodup
    have hne : r.inode ≠ a.inode := fun he => hrt (he ▸ hfound.mem)
    rw [if_neg hne]
    exact hfound.short_withChildren htn h.short (by simpa using hnew)

/-- The children of a directory change, and with them the nodes and their number. -/
theorem IsTree.change (h : IsTree s r t) (hf : follow (r, t) path = some (b, child)) (hdir : b.dir = true)
    (hroot : s'.root = s.root) (hrep : Rep s'.heap 0 ((Forest.node r t .nil).withChildren b.inode new))
    (hnd : ((Forest.node r t .nil).withChildren b.inode new).inodes.Nodup) (hsorted : new.Sorted) (hdirs : new.DirsOnly)
    (hnames : ∀ a ∈ new.attrs, NameOk a.name) (hshort : new.Short (render path).length)
    (hcount : s'.nodeCount = ((Forest.node r t .nil).withChildren b.inode new).count) :
    IsTree s' r (newTree r t b.inode new) := by
  have hat := follow_root hf
  have hdirs' := hat.dirsOnly_withChildren h.nodup h.dirs hdir hdirs
  rw [withChildren_root] at hrep hnd hcount hdirs'
  refine ⟨hroot.trans h.root, h.rootDir, hrep, hnd, ?_, ?_, hdirs', h.short_newTree hf hshort, hcount⟩
  · unfold newTree
    split
    · exact hsorted
    · exact h.sorted.withChildren hsorted _
  · intro a ha
    have hperm := hat.attrs_withChildren h.nodup new
    rw [withChildren_root] at hperm
    have hmem : a ∈ (Forest.node r t .nil).attrs ++ new.attrs := hperm.subset (List.mem_append_left _ (by simp [ha]))
    simp only [Forest.attrs_node, Forest.attrs_nil, List.append_nil, List.cons_append, List.mem_cons, List.mem_append] at hmem
    rcases hmem with rfl | hmem | hmem
    · exact absurd (Forest.mem_inodes ha) (Forest.nodup_node hnd).1
    · exact h.names a hmem
    · exact hnames a hmem

/-! ### `vfs_create` -/

/-- The node that `node_alloc` makes. -/
def newAttrs (name : Name) (dir : Bool) (p : ℕ) : Attrs := { name := name, dir := dir, readonly := false, size := 0, inode := p }

theorem nodeAlloc_lone {name : Name} (hlen : name.length < 32) (dir : Bool) {p : ℕ} (hp : p ≠ 0) (hfree : s.heap p = none) :
    ∃ s₁ n, s.nodeAlloc name dir p = (s₁, p) ∧ Lone s₁ (newAttrs name dir p) n ∧ (∀ q, q ≠ p → s₁.heap q = s.heap q) ∧
      s₁.root = s.root ∧ s₁.nodeCount = s.nodeCount + 1 := by
  unfold Nodes.nodeAlloc
  rw [if_neg (by simp [hp, hfree]), List.take_of_length_le (by omega)]
  exact ⟨_, _, rfl, ⟨hp, Function.update_self .., rfl, rfl, rfl, rfl⟩, fun q hq => Function.update_of_ne hq .., rfl, rfl⟩

/-- A node has come below `b`. -/
theorem At.attrs_link (hat : At b child t) (hnd : t.inodes.Nodup) (a : Attrs) :
    (t.withChildren b.inode (child.link a .nil)).attrs.Perm (a :: t.attrs) := by
  have hperm := (hat.attrs_withChildren hnd (child.link a .nil)).trans ((child.attrs_link a .nil).append_left t.attrs)
  refine (List.perm_append_right_iff child.attrs).mp (hperm.trans ?_)
  simp only [Forest.attrs_nil, List.nil_append, List.cons_append]
  exact List.perm_middle

/-- `link_child` of the new node. -/
theorem IsTree.linked {n : FsNode} {s₁ : Nodes} (h : IsTree s r t) (hf : follow (r, t) path = some (b, child)) (hdir : b.dir = true)
    (hnone : child.find a.name = none) (hname : NameOk a.name) (hlen : (render (path ++ [a.name])).length < 192)
    (hlone : Lone s₁ a n) (hfree : s.heap a.inode = none) (hsame : ∀ q, q ≠ a.inode → s₁.heap q = s.heap q)
    (hroot : s₁.root = s.root) (hcount : s₁.nodeCount = s.nodeCount + 1) :
    ∃ s₂, s₁.linkChild b.inode a.inode = some s₂ ∧ IsTree s₂ r (newTree r t b.inode (child.link a .nil)) ∧
      Changed s₁ s₂ (.first b.inode) b.inode a.inode child (child.link a .nil) := by
  have hat := follow_root hf
  have hnew := h.rep.not_mem hfree
  have hrep : Rep s₁.heap 0 (.node r t .nil) := h.rep.frame fun q hq => hsame q fun he => hnew (he ▸ hq)
  have hcounts := h.count
  obtain ⟨s₂, hlink, hch⟩ := linkChild_changed hrep h.nodup hat hlone hnew (by omega)
  refine ⟨s₂, hlink, ?_, hch⟩
  have hperm := hat.attrs_link h.nodup a
  refine h.change hf hdir (hch.root.trans hroot) (hch.withChildren hat hrep h.nodup fun hmem => absurd hmem hnew) ?_
    ((hat.sorted ⟨by simp [Forest.siblings], h.sorted, trivial⟩).link hnone) ((hat.dirsOnly h.dirs).link a) ?_ ?_ ?_
  · exact (hperm.map Attrs.inode).nodup_iff.mpr (List.nodup_cons.mpr ⟨hnew, h.nodup⟩)
  · intro e he
    have hmem := (child.attrs_link a .nil).subset he
    simp only [Forest.attrs_nil, List.nil_append, List.mem_cons] at hmem
    rcases hmem with rfl | hmem
    · exact hname
    · exact h.names e ((follow_mem hf).2 e hmem)
  · refine (h.short_at hf).link ?_
    rw [render_concat, List.length_append, List.length_cons] at hlen
    omega
  · rw [hch.count, hcount, h.count, Forest.count_eq_length, Forest.count_eq_length, hperm.length_eq]
    rfl

/-- When the driver refuses the node, `unlink_child` and `kfree` leave the tree as it was. -/
theorem IsTree.rolledBack {s₁ s₂ : Nodes} (h : IsTree s r t) (h₂ : IsTree s₂ r (newTree r t b.inode (child.link a .nil)))
    (hf : follow (r, t) path = some (b, child)) (hfree : s.heap a.inode = none) (hsame : ∀ q, q ≠ a.inode → s₁.heap q = s.heap q)
    (hch : Changed s₁ s₂ (.first b.inode) b.inode a.inode child (child.link a .nil)) :
    ∃ s₃, s₂.unlinkChild b.inode a.inode = some s₃ ∧ IsTree (s₃.free a.inode) r t := by
  have hat := follow_root hf
  have hnew := h.rep.not_mem hfree
  have hne : b.inode ≠ a.inode := fun he => hnew (he ▸ hat.inode_mem)
  have hac : a.inode ∉ child.inodes := fun hmem => hnew (hat.child_mem hmem)
  obtain ⟨hbc, hcn⟩ := hat.nodup h.nodup
  obtain ⟨-, -, n, hn, -, -, -, hfirst⟩ := hat.rep h.rep
  have hn₁ : s₁.heap b.inode = some n := (hsame _ hne).trans hn
  have hinodes := (child.attrs_link a .nil).map Attrs.inode
  simp only [Forest.attrs_nil, List.nil_append, List.map_cons] at hinodes
  have hperm := hat.attrs_link h.nodup a
  rw [withChildren_root] at hperm
  have hcount₂ := h₂.count
  rw [Forest.count_eq_length, hperm.length_eq, List.length_cons, ← Forest.count_eq_length] at hcount₂
  have hwidth : (child.link a .nil).width ≤ s₂.nodeCount := by
    have hw := (child.link a .nil).width_le_count
    have hc := hat.count
    rw [Forest.count_eq_length, (child.attrs_link a .nil).length_eq] at hw
    simp only [Forest.attrs_nil, List.nil_append, List.length_cons, ← Forest.count_eq_length] at hw
    omega
  have hlinks : ∀ q, q ∈ (child.link a .nil).inodes → q = a.inode ∨ q ∈ child.inodes :=
    fun q hq => List.mem_cons.mp (hinodes.subset hq)
  have hout : b.inode ∉ (child.link a .nil).inodes := fun hmem => (hlinks _ hmem).elim hne hbc
  obtain ⟨s₃, hunlink, hch'⟩ := unlinkChild_changed (a := a) hch.rep (hinodes.nodup_iff.mpr (List.nodup_cons.mpr ⟨hac, hcn⟩))
    (hch.owner n hn₁) rfl hout ((Forest.mem_siblings_link child a .nil).mpr (Or.inl rfl)) hwidth
  rw [Forest.dropNode_link hac] at hch'
  have hfreed : ∀ q, q ≠ a.inode → (s₃.free a.inode).heap q = s₃.heap q := fun q hq => Function.update_of_ne hq ..
  have hrep : Rep (s₃.free a.inode).heap 0 ((Forest.node r t .nil).withChildren b.inode child) := by
    refine h.rep.withChildren hat h.nodup ?_ (hch'.rep.frame fun q hq => hfreed q fun he => hac (he ▸ hq)) ?_
    · intro m hm
      obtain rfl := Option.some.inj (hn.symm.trans hm)
      have howner := hch'.owner _ (hch.owner n hn₁)
      rw [hfreed _ hne]
      exact howner
    · intro q hq hqb hqc
      have hqa : q ≠ a.inode := fun he => hnew (he ▸ hq)
      rw [hfreed q hqa, hch'.other q hqb hqa fun hmem => (hlinks q hmem).elim hqa hqc, hch.other q hqb hqa hqc, hsame q hqa]
  rw [hat.withChildren_self h.nodup] at hrep
  refine ⟨s₃, hunlink, hch'.root.trans h₂.root, h.rootDir, hrep, h.nodup, h.sorted, h.names, h.dirs, h.short, ?_⟩
  show s₃.nodeCount - 1 = _
  rw [hch'.count, hcount₂]
  rfl

/-- `vfs_create` in a directory that was found. -/
theorem IsTree.createIn (h : IsTree s r t) (hf : follow (r, t) path = some (b, child)) (hdir : b.dir = true) {name : Name}
    (hclean : Clean (path ++ [name])) (hlen : (render (path ++ [name])).length < 192) (dir : Bool) (p : ℕ) (backend : Bool) :
    ∃ s' q t', s.createIn b.inode name dir p backend = some (s', q) ∧ IsTree s' r t' := by
  have hat := follow_root hf
  unfold Nodes.createIn
  rw [findChild_rep h.rep hat (Nat.le_of_eq h.count.symm), if_pos hdir, Option.bind_some]
  cases hfind : child.find name with
  | some found =>
    have hfound := hat.trans (find_at hfind)
    rw [if_pos (show pointer (some found) ≠ 0 from (hfound.rep h.rep).1)]
    exact ⟨s, 0, t, rfl, h⟩
  | none =>
    rw [if_neg (by simp [pointer])]
    by_cases hlong : 32 ≤ name.length
    · rw [if_pos hlong]
      exact ⟨s, 0, t, rfl, h⟩
    rw [if_neg hlong]
    dsimp only
    by_cases hp : p = 0 ∨ (s.heap p).isSome = true
    · unfold Nodes.nodeAlloc
      rw [if_pos hp]
      exact ⟨s, 0, t, rfl, h⟩
    simp only [not_or, Bool.not_eq_true, Option.isSome_eq_false_iff, Option.isNone_iff_eq_none] at hp
    obtain ⟨s₁, n, halloc, hlone, hsame, hroot, hcount⟩ := nodeAlloc_lone (s := s) (by omega : name.length < 32) dir hp.1 hp.2
    have hname : NameOk name := ⟨hclean name (by simp), by omega⟩
    obtain ⟨s₂, hlink, htree, hch⟩ := h.linked (a := newAttrs name dir p) hf hdir hfind hname hlen hlone hp.2 hsame hroot hcount
    rw [halloc]
    dsimp only
    rw [if_neg hp.1, show s₁.linkChild b.inode p = some s₂ from hlink, Option.bind_some]
    cases backend with
    | true => exact ⟨s₂, p, _, rfl, htree⟩
    | false =>
      obtain ⟨s₃, hunlink, htree'⟩ := h.rolledBack htree hf hp.2 hsame hch
      rw [if_neg (by decide), show s₂.unlinkChild b.inode p = some s₃ from hunlink]
      exact ⟨_, _, _, rfl, htree'⟩

theorem IsTree.vfsCreate (h : IsTree s r t) {cwd : Option (List UInt8)} (hcwd : CwdOk cwd) (p : List UInt8) (dir : Bool) (ptr : ℕ)
    (backend : Bool) : ∃ s' q t', s.vfsCreate cwd p dir ptr backend = some (s', q) ∧ IsTree s' r t' := by
  unfold Nodes.vfsCreate
  cases habs : abspath cwd p with
  | none => exact ⟨s, 0, t, rfl, h⟩
  | some absolute =>
    dsimp only
    by_cases hroot : absolute = [slash]
    · rw [if_pos hroot]
      exact ⟨s, 0, t, rfl, h⟩
    rw [if_neg hroot]
    obtain ⟨front, name, before, absolute', -, hclean, hlen, hsplit, habs', hsegs⟩ := abspath_split hcwd habs hroot
    rw [hsplit]
    dsimp only
    unfold Nodes.vfsLookup
    rw [habs']
    dsimp only
    rw [hsegs, h.lookupFrom, Option.bind_some]
    cases hf : follow (r, t) front with
    | none => exact ⟨s, 0, t, rfl, h⟩
    | some found =>
      obtain ⟨b, child⟩ := found
      obtain ⟨hb, -, n, hn, -, hdir, -⟩ := (follow_root hf).rep h.rep
      show ∃ s' q t', (if b.inode = 0 then _ else (s.heap b.inode).bind _) = _ ∧ _
      rw [if_neg hb, hn, Option.bind_some, hdir]
      by_cases hfile : b.dir = false
      · rw [if_pos hfile]
        exact ⟨s, 0, t, rfl, h⟩
      · rw [if_neg hfile]
        exact h.createIn hf (by simpa using hfile) hclean hlen dir ptr backend

/-! ### `vfs_unlink` -/

/-- `destroy_tree` of the node at a path. -/
theorem IsTree.destroyed (h : IsTree s r t) {front : List Name} {name : Name} {sib : Forest}
    (hp : follow (r, t) front = some (b, sib)) (hdir : b.dir = true) (hfind : sib.find name = some (a, child)) :
    ∃ s', Nodes.destroyTree (2 * s.nodeCount + 2) a.inode s = some s' ∧ IsTree s' r (newTree r t b.inode (sib.dropNode a.inode)) := by
  have hat := follow_root hp
  obtain ⟨hb, hrs, n, hn, -, -, -, hfirst⟩ := hat.rep h.rep
  obtain ⟨hbs, hsn⟩ := hat.nodup h.nodup
  have hs := find_sibling hrs hfind
  have hcount := h.count
  have hsib := hat.count
  have hroom := hs.room
  obtain ⟨s', hdestroy, hout⟩ := destroyTree_takenOut hs hrs hsn hn hfirst hbs hb (by omega)
    (show 2 * child.count < 2 * s.nodeCount + 1 by omega)
  refine ⟨s', hdestroy, ?_⟩
  have hfound : Found a child sib [name] := found_of_follow (r := b) (by simp [follow, hdir, hfind])
  -- the nodes of the old tree are those of the new one and those that are gone
  have hdrop := Forest.attrs_dropNode hsn hfound
  have hperm : (Forest.node r t .nil).attrs.Perm
      (((Forest.node r t .nil).withChildren b.inode (sib.dropNode a.inode)).attrs ++ (a :: child.attrs)) := by
    have hch := hat.attrs_withChildren h.nodup (sib.dropNode a.inode)
    rw [List.perm_iff_count] at hch hdrop ⊢
    intro e
    have h₁ := hch e
    have h₂ := hdrop e
    simp only [List.count_append] at h₁ h₂ ⊢
    omega
  refine h.change hp hdir hout.root ?_ ?_ ((hat.sorted ⟨by simp [Forest.siblings], h.sorted, trivial⟩).dropNode _)
    ((hat.dirsOnly h.dirs).dropNode _) ?_ ((h.short_at hp).dropNode _) ?_
  · exact h.rep.withChildren hat h.nodup hout.owner hout.rep fun q _ hqb hqs => hout.other q hqb hqs
  · have hnd := (hperm.map Attrs.inode).nodup_iff.mp h.nodup
    rw [List.map_append, List.nodup_append] at hnd
    exact hnd.1
  · intro e he
    exact h.names e ((follow_mem hp).2 e (hdrop.symm.subset (List.mem_append_right _ he)))
  · have hlen := hperm.length_eq
    rw [List.length_append, List.length_cons, ← Forest.count_eq_length, ← Forest.count_eq_length, ← Forest.count_eq_length] at hlen
    rw [hout.count]
    omega

theorem IsTree.vfsUnlink (h : IsTree s r t) (cwd : Option (List UInt8)) (p : List UInt8) :
    ∃ s' code t', s.vfsUnlink cwd p = some (s', code) ∧ IsTree s' r t' := by
  unfold Nodes.vfsUnlink Nodes.vfsLookup
  cases abspath cwd p with
  | none => exact ⟨s, -1, t, rfl, h⟩
  | some absolute =>
    dsimp only
    rw [h.lookupFrom, Option.bind_some]
    cases hf : follow (r, t) (segments absolute) with
    | none => exact ⟨s, -1, t, rfl, h⟩
    | some found =>
      obtain ⟨a, child⟩ := found
      obtain ⟨ha, -, n, hn, -⟩ := (follow_root hf).rep h.rep
      show ∃ s' code t', (if a.inode = 0 ∨ a.inode = s.root then _ else (s.heap a.inode).bind _) = _ ∧ _
      by_cases hroot : a.inode = s.root
      · rw [if_pos (Or.inr hroot)]
        exact ⟨s, -1, t, rfl, h⟩
      rw [if_neg (not_or.mpr ⟨ha, hroot⟩), hn, Option.bind_some]
      by_cases hro : n.readonly = true
      · rw [if_pos hro]
        exact ⟨s, -2, t, rfl, h⟩
      rw [if_neg hro]
      rcases List.eq_nil_or_concat (segments absolute) with hnil | ⟨front, name, hlast⟩
      · rw [hnil] at hf
        obtain ⟨rfl, -⟩ := Prod.mk.inj (Option.some.inj hf)
        exact absurd h.root.symm hroot
      rw [hlast, List.concat_eq_append, follow_append] at hf
      obtain ⟨⟨b, sib⟩, hp, hlook⟩ := Option.bind_eq_some_iff.mp hf
      obtain ⟨hdir, b', c', hfind, hsame⟩ := follow_cons hlook
      obtain ⟨rfl, rfl⟩ := Prod.mk.inj (Option.some.inj hsame)
      obtain ⟨s', hdestroy, htree⟩ := h.destroyed hp hdir hfind
      rw [show pointer (some (b', c')) = b'.inode from rfl, hdestroy]
      exact ⟨s', 0, _, rfl, htree⟩

/-! ## Runs -/

/-- The nodes to which pointers lead from the root. -/
inductive Reached (s : Nodes) : ℕ → Prop
  | root : Reached s s.root
  | child {p : ℕ} {n : FsNode} (h : Reached s p) (hp : s.heap p = some n) (hne : n.firstChild ≠ 0) : Reached s n.firstChild
  | sibling {p : ℕ} {n : FsNode} (h : Reached s p) (hp : s.heap p = some n) (hne : n.nextSibling ≠ 0) : Reached s n.nextSibling

/-- The links of a node of a forest lead to nodes of the forest. -/
theorem Rep.links {h : ℕ → Option FsNode} {parent x : ℕ} (hr : Rep h parent t) (hnd : t.inodes.Nodup) (hx : x ∈ t.inodes) :
    ∃ n, h x = some n ∧ (n.firstChild ≠ 0 → n.firstChild ∈ t.inodes) ∧ (n.nextSibling ≠ 0 → n.nextSibling ∈ t.inodes) := by
  have hhead : ∀ u : Forest, u.head ≠ 0 → u.head ∈ u.inodes := by
    intro u hu
    cases u with
    | nil => exact absurd rfl hu
    | node a child next => simp [Forest.head]
  induction t generalizing parent with
  | nil => cases hx
  | node a child next ihc ihn =>
    obtain ⟨-, hrec, hc, hn⟩ := hr
    obtain ⟨-, -, hcn, hnn, -⟩ := Forest.nodup_node hnd
    simp only [Forest.inodes_node, List.mem_cons, List.mem_append] at hx ⊢
    rcases hx with rfl | hx | hx
    · exact ⟨_, hrec, fun hne => Or.inr (Or.inl (hhead child hne)), fun hne => Or.inr (Or.inr (hhead next hne))⟩
    · obtain ⟨n, hp, h₁, h₂⟩ := ihc hc hcn hx
      exact ⟨n, hp, fun hne => Or.inr (Or.inl (h₁ hne)), fun hne => Or.inr (Or.inl (h₂ hne))⟩
    · obtain ⟨n, hp, h₁, h₂⟩ := ihn hn hnn hx
      exact ⟨n, hp, fun hne => Or.inr (Or.inr (h₁ hne)), fun hne => Or.inr (Or.inr (h₂ hne))⟩

theorem Rep.reached {parent : ℕ} (hr : Rep s.heap parent t) (hhead : t.head ≠ 0 → Reached s t.head) : ∀ x ∈ t.inodes, Reached s x := by
  induction t generalizing parent with
  | nil =>
    intro x hx
    cases hx
  | node a child next ihc ihn =>
    obtain ⟨ha, hrec, hc, hn⟩ := hr
    have hself : Reached s a.inode := hhead ha
    intro x hx
    simp only [Forest.inodes_node, List.mem_cons, List.mem_append] at hx
    rcases hx with rfl | hx | hx
    · exact hself
    · exact ihc hc (fun hne => .child hself hrec hne) x hx
    · exact ihn hn (fun hne => .sibling hself hrec hne) x hx

/-- The nodes of the tree are those that can be reached. -/
theorem IsTree.reached_iff (h : IsTree s r t) (x : ℕ) : Reached s x ↔ x ∈ (Forest.node r t .nil).inodes := by
  constructor
  · intro hx
    induction hx with
    | root =>
      rw [h.root]
      simp
    | child _ hp hne ih =>
      obtain ⟨n, hn, h₁, -⟩ := h.rep.links h.nodup ih
      obtain rfl := Option.some.inj (hn.symm.trans hp)
      exact h₁ hne
    | sibling _ hp hne ih =>
      obtain ⟨n, hn, -, h₂⟩ := h.rep.links h.nodup ih
      obtain rfl := Option.some.inj (hn.symm.trans hp)
      exact h₂ hne
  · refine h.rep.reached (fun _ => ?_) x
    rw [show (Forest.node r t .nil).head = s.root from h.root.symm]
    exact .root

end tree

/-- A call, with what the heap and the driver answer. -/
inductive NodeOp
  | create (cwd : Option (List UInt8)) (path : List UInt8) (dir : Bool) (p : ℕ) (backend : Bool)
  | unlink (cwd : Option (List UInt8)) (path : List UInt8)
  deriving DecidableEq, Repr

/-- The current directory is `NULL` or a string that `vfs_abspath` may have returned. `vfs_unlink` does
not need that. -/
def NodeOp.CwdOk : NodeOp → Prop
  | .create cwd _ _ _ _ => Vfs.CwdOk cwd
  | .unlink _ _ => True

def NodeOp.run (s : Nodes) : NodeOp → Option Nodes
  | .create cwd path dir p backend => (s.vfsCreate cwd path dir p backend).map Prod.fst
  | .unlink cwd path => (s.vfsUnlink cwd path).map Prod.fst

def runOps (s : Nodes) : List NodeOp → Option Nodes
  | [] => some s
  | op :: rest => (op.run s).bind (runOps · rest)

theorem vfsInit_isTree {p : ℕ} (hp : p ≠ 0) : IsTree (vfsInit p) (newAttrs [] true p) .nil where
  root := rfl
  rootDir := rfl
  rep := by
    refine ⟨hp, ?_, trivial, trivial⟩
    exact Function.update_self (f := fun _ => none) ..
  nodup := List.nodup_singleton _
  sorted := trivial
  names := by simp
  dirs := ⟨fun _ => rfl, trivial, trivial⟩
  short := trivial
  count := rfl

theorem IsTree.run {s : Nodes} {r : Attrs} {t : Forest} (h : IsTree s r t) (op : NodeOp) (hcwd : op.CwdOk) :
    ∃ s' t', op.run s = some s' ∧ IsTree s' r t' := by
  cases op with
  | create cwd path dir p backend =>
    obtain ⟨s', q, t', hrun, htree⟩ := h.vfsCreate hcwd path dir p backend
    exact ⟨s', t', by simp [NodeOp.run, hrun], htree⟩
  | unlink cwd path =>
    obtain ⟨s', code, t', hrun, htree⟩ := h.vfsUnlink cwd path
    exact ⟨s', t', by simp [NodeOp.run, hrun], htree⟩

theorem IsTree.runOps {s : Nodes} {r : Attrs} {t : Forest} (h : IsTree s r t) (ops : List NodeOp) (hcwd : ∀ op ∈ ops, op.CwdOk) :
    ∃ s' t', runOps s ops = some s' ∧ IsTree s' r t' := by
  induction ops generalizing s t with
  | nil => exact ⟨s, t, rfl, h⟩
  | cons op rest ih =>
    obtain ⟨s₁, t₁, hrun, h₁⟩ := h.run op (hcwd op List.mem_cons_self)
    obtain ⟨s', t', hrest, h'⟩ := ih h₁ fun e he => hcwd e (List.mem_cons_of_mem _ he)
    exact ⟨s', t', by simp [Vfs.runOps, hrun, hrest], h'⟩

/-- After every sequence of calls the nodes are a tree, and `node_count` is the number of those that can be
reached from the root. -/
theorem vfs_nodes_tree {p : ℕ} (hp : p ≠ 0) (ops : List NodeOp) (hcwd : ∀ op ∈ ops, op.CwdOk) :
    ∃ s r t, runOps (vfsInit p) ops = some s ∧ IsTree s r t ∧
      (∀ x, Reached s x ↔ x ∈ (Forest.node r t .nil).inodes) ∧ s.nodeCount = (Forest.node r t .nil).inodes.length := by
  obtain ⟨s, t, hrun, htree⟩ := (vfsInit_isTree hp).runOps ops hcwd
  refine ⟨s, _, t, hrun, htree, htree.reached_iff, ?_⟩
  rw [htree.count, Forest.count_eq_length, Forest.inodes, List.length_map]

/-- `/b`, `/a`, `/a/c` and a node that the driver refuses; then `/a` goes. -/
def someOps : List NodeOp :=
  [.create none [47, 98] false 2 true, .create none [47, 97] true 3 true, .create (some [47, 97]) [99] false 4 true,
    .create none [47, 97, 47, 100] true 5 false, .unlink none [47, 97]]

theorem vfs_nodes_tree_some : (runOps (vfsInit 1) someOps).map Nodes.nodeCount = some 2 ∧
    ∃ s r t, runOps (vfsInit 1) someOps = some s ∧ IsTree s r t ∧
      (∀ x, Reached s x ↔ x ∈ (Forest.node r t .nil).inodes) ∧ s.nodeCount = (Forest.node r t .nil).inodes.length := by
  refine ⟨by decide +kernel, vfs_nodes_tree (by decide) someOps ?_⟩
  have hnone : CwdOk none := fun dir h => by cases h
  have ha : CwdOk (some [47, 97]) := by
    intro dir h
    obtain rfl := Option.some.inj h
    exact ⟨[[97]], by simp [Clean, slash, dot], Or.inl rfl⟩
  intro op hop
  simp only [someOps, List.mem_cons, List.not_mem_nil, or_false] at hop
  rcases hop with rfl | rfl | rfl | rfl | rfl
  · exact hnone
  · exact hnone
  · exact ha
  · exact hnone
  · trivial

end SifarOS.Vfs
