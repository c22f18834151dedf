import SifarOS.VfsPaths
import SifarOS.VfsTree

/-! # The nodes of the VFS in memory

`kernel/fs/vfs.c` as it works on `struct fs_node`: nodes lie in the kernel heap and are linked by
pointers. A pointer is a number, 0 is `NULL`. A function returns `none` when it reads or writes
through a pointer that is not to a node, or when a loop has no end; that this does not happen is one
of the results. -/
namespace SifarOS.Vfs

/-- `struct fs_node`: its name, its type, its flag and its links. -/
structure FsNode where
  name : Name
  dir : Bool
  readonly : Bool
  parent : ℕ
  firstChild : ℕ
  nextSibling : ℕ
  deriving DecidableEq, Repr

/-- A field that holds a pointer to a sibling: `&dir->first_child` or `&node->next_sibling`. -/
inductive Slot
  | first (dir : ℕ)
  | next (node : ℕ)
  deriving DecidableEq, Repr

/-- The node whose field it is. -/
def Slot.owner : Slot → ℕ
  | .first dir => dir
  | .next node => node

def Slot.get : Slot → FsNode → ℕ
  | .first _, n => n.firstChild
  | .next _, n => n.nextSibling

def Slot.set (p : ℕ) : Slot → FsNode → FsNode
  | .first _, n => { n with firstChild := p }
  | .next _, n => { n with nextSibling := p }

/-- The nodes, and the static variables of `vfs.c`. -/
structure Nodes where
  heap : ℕ → Option FsNode
  root : ℕ
  nodeCount : ℕ

namespace Nodes

variable (s : Nodes)

/-- A write to the node at a pointer. -/
def update (p : ℕ) (change : FsNode → FsNode) : Option Nodes :=
  (s.heap p).map (fun n => { s with heap := Function.update s.heap p (some (change n)) })

/-- `kfree` of a node, and `node_count--`. -/
def free (p : ℕ) : Nodes := { s with heap := Function.update s.heap p none, nodeCount := s.nodeCount - 1 }

/-- `*slot`. -/
def read (slot : Slot) : Option ℕ := (s.heap slot.owner).map slot.get

/-- `*slot = p`. -/
def write (slot : Slot) (p : ℕ) : Option Nodes := s.update slot.owner (slot.set p)

/-- `node_alloc`. `kcalloc` returns `p`: 0, or memory that is not in use. -/
def nodeAlloc (name : Name) (dir : Bool) (p : ℕ) : Nodes × ℕ :=
  if p = 0 ∨ (s.heap p).isSome then (s, 0)
  else
    ({ s with
        heap := Function.update s.heap p (some ⟨name.take 31, dir, false, 0, 0, 0⟩)
        nodeCount := s.nodeCount + 1 }, p)

/-- The loop of `find_child`, from the sibling `c` on. -/
def findFrom (name : Name) : ℕ → ℕ → Option ℕ
  | 0, _ => none
  | fuel + 1, c =>
    if c = 0 then some 0
    else (s.heap c).bind (fun n => if n.name = name then some c else findFrom name fuel n.nextSibling)

/-- `find_child`. No list of siblings is longer than `node_count`. -/
def findChild (dir : ℕ) (name : Name) : Option ℕ :=
  if dir = 0 then some 0
  else (s.heap dir).bind (fun d => if d.dir = false then some 0 else s.findFrom name (s.nodeCount + 1) d.firstChild)

/-- The loop of `link_child`: the slot before which the name does not go. -/
def linkSlot (name : Name) : ℕ → Slot → Option Slot
  | 0, _ => none
  | fuel + 1, slot =>
    (s.read slot).bind (fun p =>
      if p = 0 then some slot
      else (s.heap p).bind (fun n => if strcmpLt n.name name then linkSlot name fuel (.next p) else some slot))

/-- The rest of `link_child`. -/
def linkInto (slot : Slot) (dir child : ℕ) : Option Nodes :=
  (s.read slot).bind (fun p =>
    (s.update child (fun n => { n with nextSibling := p })).bind (fun s =>
      (s.write slot child).bind (fun s => s.update child (fun n => { n with parent := dir }))))

/-- `link_child`. -/
def linkChild (dir child : ℕ) : Option Nodes :=
  (s.heap child).bind (fun c =>
    (s.linkSlot c.name (s.nodeCount + 1) (.first dir)).bind (fun slot => s.linkInto slot dir child))

/-- The loop of `unlink_child`: the slot that points to the child, if there is one. -/
def unlinkSlot (child : ℕ) : ℕ → Slot → Option (Option Slot)
  | 0, _ => none
  | fuel + 1, slot =>
    (s.read slot).bind (fun p =>
      if p = 0 then some none else if p = child then some (some slot) else unlinkSlot child fuel (.next p))

/-- What `unlink_child` does when it has found the slot. -/
def unlinkFrom (slot : Slot) (child : ℕ) : Option Nodes :=
  (s.heap child).bind (fun c =>
    (s.write slot c.nextSibling).bind (fun s =>
      (s.update child (fun n => { n with nextSibling := 0 })).bind (fun s =>
        s.update child (fun n => { n with parent := 0 }))))

/-- `unlink_child`. -/
def unlinkChild (dir child : ℕ) : Option Nodes :=
  (s.unlinkSlot child (s.nodeCount + 1) (.first dir)).bind (fun found =>
    match found with
    | none => some s
    | some slot => s.unlinkFrom slot child)

/-! ## Paths -/

/-- The loop of `vfs_lookup`. -/
def lookupFrom : List Name → ℕ → Option ℕ
  | [], node => some node
  | seg :: rest, node => (s.findChild node seg).bind (fun c => if c = 0 then some 0 else lookupFrom rest c)

/-- `vfs_lookup`. -/
def vfsLookup (cwd : Option (List UInt8)) (path : List UInt8) : Option ℕ :=
  match abspath cwd path with
  | none => some 0
  | some absolute => s.lookupFrom (segments absolute) s.root

/-! ## Creating and destroying nodes -/

/-- `vfs_create` behind its first checks. `p` is what `kcalloc` returns, `backend` whether the
driver's `create` succeeds. -/
def createIn (parent : ℕ) (name : Name) (dir : Bool) (p : ℕ) (backend : Bool) : Option (Nodes × ℕ) :=
  (s.findChild parent name).bind (fun found =>
    if found ≠ 0 then some (s, 0)
    else if 32 ≤ name.length then some (s, 0)
    else
      let r := s.nodeAlloc name dir p
      if r.2 = 0 then some (r.1, 0)
      else (r.1.linkChild parent r.2).bind (fun s =>
        if backend then some (s, r.2)
        else (s.unlinkChild parent r.2).map (fun s => (s.free r.2, 0))))

/-- `vfs_create`; the pointer it returns. Without a slash in the path it writes through `NULL`. -/
def vfsCreate (cwd : Option (List UInt8)) (path : List UInt8) (dir : Bool) (p : ℕ) (backend : Bool) : Option (Nodes × ℕ) :=
  match abspath cwd path with
  | none => some (s, 0)
  | some absolute =>
    if absolute = [slash] then some (s, 0)
    else match splitLast absolute with
      | none => none
      | some (before, name) =>
        (s.vfsLookup none (if before = [] then [slash] else before)).bind (fun parent =>
          if parent = 0 then some (s, 0)
          else (s.heap parent).bind (fun d =>
            if d.dir = false then some (s, 0) else s.createIn parent name dir p backend))

mutual

/-- `destroy_tree`. The driver's `destroy` does nothing to the nodes. -/
def destroyTree : ℕ → ℕ → Nodes → Option Nodes
  | 0, _, _ => none
  | fuel + 1, node, s =>
    (s.heap node).bind (fun n =>
      (destroyLoop fuel n.firstChild s).bind (fun s =>
        (s.heap node).bind (fun n =>
          (if n.parent = 0 then some s else s.unlinkChild n.parent node).map (fun s => s.free node))))

/-- Its loop over the children. -/
def destroyLoop : ℕ → ℕ → Nodes → Option Nodes
  | 0, _, _ => none
  | fuel + 1, child, s =>
    if child = 0 then some s
    else (s.heap child).bind (fun c => (destroyTree fuel child s).bind (fun s => destroyLoop fuel c.nextSibling s))

end

/-- `vfs_unlink`. -/
def vfsUnlink (cwd : Option (List UInt8)) (path : List UInt8) : Option (Nodes × ℤ) :=
  (s.vfsLookup cwd path).bind (fun node =>
    if node = 0 ∨ node = s.root then some (s, -1)
    else (s.heap node).bind (fun n =>
      if n.readonly then some (s, -2)
      else (destroyTree (2 * s.nodeCount + 2) node s).map (fun s => (s, 0))))

end Nodes

/-- `vfs_init`, when `kcalloc` returns `p`. -/
def vfsInit (p : ℕ) : Nodes where
  heap := Function.update (fun _ => none) p (some ⟨[], true, false, 0, 0, 0⟩)
  root := p
  nodeCount := 1

/-! ## Trees in the heap

A forest is laid out in the heap when every node of it has its record there. The `inode` of a node of
the forest is the pointer to it. -/

/-- The pointer to a list of siblings. -/
def Forest.head : Forest → ℕ
  | .nil => 0
  | .node a _ _ => a.inode

/-- The number of siblings in a list. -/
def Forest.width : Forest → ℕ
  | .nil => 0
  | .node _ _ next => next.width + 1

/-- The record of a node. -/
def record (a : Attrs) (parent : ℕ) (child next : Forest) : FsNode :=
  ⟨a.name, a.dir, a.readonly, parent, child.head, next.head⟩

/-- The siblings of a forest, with all that is below them, are in the heap below the node `parent`. -/
def Rep (h : ℕ → Option FsNode) (parent : ℕ) : Forest → Prop
  | .nil => True
  | .node a child next =>
    a.inode ≠ 0 ∧ h a.inode = some (record a parent child next) ∧ Rep h a.inode child ∧ Rep h parent next

section heap

variable {h h' : ℕ → Option FsNode} {parent x d : ℕ} {t child next : Forest} {a b : Attrs} {name : Name} {s s' : Nodes}

theorem Forest.width_le_count (t : Forest) : t.width ≤ t.count := by
  induction t with
  | nil => exact Nat.le_refl _
  | node a child next ihc ihn =>
    simp only [Forest.width, Forest.count]
    omega

theorem Forest.count_eq_length (t : Forest) : t.count = t.attrs.length := by
  induction t with
  | nil => rfl
  | node a child next ihc ihn =>
    simp only [Forest.count, Forest.attrs_node, List.length_cons, List.length_append, ihc, ihn]

/-- What is not a node of the forest does not matter to it. -/
theorem Rep.frame (hr : Rep h parent t) (hs : ∀ x ∈ t.inodes, h' x = h x) : Rep h' parent t := by
  induction t generalizing parent with
  | nil => trivial
  | node a child next ihc ihn =>
    obtain ⟨hne, ha, hc, hn⟩ := hr
    simp only [Forest.inodes_node, List.mem_cons, List.mem_append] at hs
    refine ⟨hne, ?_, ihc hc fun x hx => hs x (Or.inr (Or.inl hx)), ihn hn fun x hx => hs x (Or.inr (Or.inr hx))⟩
    rw [hs a.inode (Or.inl rfl)]
    exact ha

theorem Rep.mem (hr : Rep h parent t) (hx : x ∈ t.inodes) : x ≠ 0 ∧ (h x).isSome = true := by
  induction t generalizing parent with
  | nil => cases hx
  | node a child next ihc ihn =>
    obtain ⟨hne, ha, hc, hn⟩ := hr
    simp only [Forest.inodes_node, List.mem_cons, List.mem_append] at hx
    rcases hx with rfl | hx | hx
    · exact ⟨hne, by rw [ha]; rfl⟩
    · exact ihc hc hx
    · exact ihn hn hx

/-- Memory that is not in use has no node of the forest. -/
theorem Rep.not_mem (hr : Rep h parent t) (hfree : h x = none) : x ∉ t.inodes := by
  intro hx
  have hsome := (hr.mem hx).2
  rw [hfree] at hsome
  cases hsome

/-- The pointer to what `Forest.find` finds. -/
def pointer (found : Option (Attrs × Forest)) : ℕ :=
  match found with
  | none => 0
  | some (a, _) => a.inode

theorem findFrom_rep (hr : Rep s.heap parent t) {fuel : ℕ} (hf : t.width < fuel) :
    s.findFrom name fuel t.head = some (pointer (t.find name)) := by
  induction t generalizing fuel with
  | nil =>
    obtain ⟨fuel, rfl⟩ : ∃ n, fuel = n + 1 := ⟨fuel - 1, by omega⟩
    rfl
  | node a child next _ ihn =>
    obtain ⟨hne, ha, -, hn⟩ := hr
    obtain ⟨fuel, rfl⟩ : ∃ n, fuel = n + 1 := ⟨fuel - 1, by omega⟩
    simp only [Forest.width] at hf
    simp only [Nodes.findFrom, Forest.head, if_neg hne, ha, Option.bind_some, record, Forest.find]
    split
    · rfl
    · exact ihn hn (by omega)

/-! ### Linking and unlinking a sibling -/

theorem Slot.set_get (slot : Slot) {n : FsNode} {p : ℕ} (h : slot.get n = p) : slot.set p n = n := by
  subst h
  cases slot <;> rfl

theorem read_slot (slot : Slot) {n : FsNode} {p : ℕ} (ho : s.heap slot.owner = some n) (hget : slot.get n = p) :
    s.read slot = some p := by
  simp [Nodes.read, ho, hget]

theorem Nodes.update_heap {p : ℕ} {n : FsNode} (hp : s.heap p = some n) (change : FsNode → FsNode) :
    s.update p change = some { s with heap := Function.update s.heap p (some (change n)) } := by
  simp [Nodes.update, hp]

/-- What `link_child` leaves when the slot is found: the child stands before the siblings from the slot
on. -/
structure LinkedInto (s : Nodes) (slot : Slot) (d x : ℕ) (s' : Nodes) : Prop where
  owner : ∀ n, s.heap slot.owner = some n → s'.heap slot.owner = some (slot.set x n)
  child : ∀ n p, s.heap x = some n → s.read slot = some p → s'.heap x = some { n with nextSibling := p, parent := d }
  other : ∀ q, q ≠ slot.owner → q ≠ x → s'.heap q = s.heap q
  root : s'.root = s.root
  count : s'.nodeCount = s.nodeCount

theorem linkInto_linked {slot : Slot} {n m : FsNode} (hne : slot.owner ≠ x) (ho : s.heap slot.owner = some n)
    (hx : s.heap x = some m) (d : ℕ) : ∃ s', s.linkInto slot d x = some s' ∧ LinkedInto s slot d x s' := by
  have hread : s.read slot = some (slot.get n) := read_slot slot ho rfl
  unfold Nodes.linkInto
  rw [hread, Option.bind_some, Nodes.update_heap hx, Option.bind_some, Nodes.write, Nodes.update_heap (n := n), Option.bind_some,
    Nodes.update_heap (n := { m with nextSibling := slot.get n })]
  · refine ⟨_, rfl, ?_, ?_, ?_, rfl, rfl⟩
    · intro n' hn'
      obtain rfl := Option.some.inj (ho.symm.trans hn')
      simp [Function.update_of_ne hne]
    · intro m' p hm' hp
      obtain rfl := Option.some.inj (hx.symm.trans hm')
      obtain rfl := Option.some.inj (hread.symm.trans hp)
      simp
    · intro q hq hqx
      simp [Function.update_of_ne hq, Function.update_of_ne hqx]
  · simp [Function.update_of_ne hne.symm]
  · simp [Function.update_of_ne hne, ho]

/-- The list of siblings at a slot, below `d`, has changed from `t` to `t'`; `x` is the node that was
put in or taken out. -/
structure Changed (s s' : Nodes) (slot : Slot) (d x : ℕ) (t t' : Forest) : Prop where
  owner : ∀ n, s.heap slot.owner = some n → s'.heap slot.owner = some (slot.set t'.head n)
  rep : Rep s'.heap d t'
  other : ∀ q, q ≠ slot.owner → q ≠ x → q ∉ t.inodes → s'.heap q = s.heap q
  root : s'.root = s.root
  count : s'.nodeCount = s.nodeCount

/-- A node that stands alone. -/
def Lone (s : Nodes) (a : Attrs) (n : FsNode) : Prop :=
  a.inode ≠ 0 ∧ s.heap a.inode = some n ∧ n.name = a.name ∧ n.dir = a.dir ∧ n.readonly = a.readonly ∧ n.firstChild = 0

theorem LinkedInto.changed {slot : Slot} {m n : FsNode} (hl : LinkedInto s slot d a.inode s') (hr : Rep s.heap d t)
    (ho : s.heap slot.owner = some n) (hget : slot.get n = t.head) (hout : slot.owner ∉ t.inodes) (hm : Lone s a m)
    (hnew : a.inode ∉ t.inodes) : Changed s s' slot d a.inode t (.node a .nil t) where
  owner := hl.owner
  rep := by
    obtain ⟨hne, hx, h₁, h₂, h₃, h₄⟩ := hm
    have hread : s.read slot = some t.head := read_slot slot ho hget
    refine ⟨hne, ?_, trivial, hr.frame fun q hq => hl.other q ?_ ?_⟩
    · rw [hl.child m _ hx hread]
      simp [record, Forest.head, h₁, h₂, h₃, h₄]
    · rintro rfl
      exact hout hq
    · rintro rfl
      exact hnew hq
  other := fun q h₁ h₂ _ => hl.other q h₁ h₂
  root := hl.root
  count := hl.count

/-- The loop of `link_child` and what follows it put the node where `Forest.link` does. -/
theorem link_changed (slot : Slot) {m n : FsNode} {fuel : ℕ} (hr : Rep s.heap d t) (hnd : t.inodes.Nodup)
    (ho : s.heap slot.owner = some n) (hget : slot.get n = t.head) (hout : slot.owner ∉ t.inodes) (hm : Lone s a m)
    (hne : slot.owner ≠ a.inode) (hnew : a.inode ∉ t.inodes) (hf : t.width < fuel) :
    ∃ slot' s', s.linkSlot a.name fuel slot = some slot' ∧ s.linkInto slot' d a.inode = some s' ∧
      Changed s s' slot d a.inode t (t.link a .nil) := by
  induction t generalizing slot n fuel with
  | nil =>
    obtain ⟨fuel, rfl⟩ : ∃ n, fuel = n + 1 := ⟨fuel - 1, by omega⟩
    obtain ⟨s', hlink, hl⟩ := linkInto_linked hne ho hm.2.1 d
    refine ⟨slot, s', ?_, hlink, hl.changed hr ho hget hout hm hnew⟩
    simp [Nodes.linkSlot, read_slot slot ho hget, Forest.head]
  | node b cb next _ ihn =>
    obtain ⟨fuel, rfl⟩ : ∃ n, fuel = n + 1 := ⟨fuel - 1, by omega⟩
    have hr' := hr
    obtain ⟨hb, hrec, hcb, hnext⟩ := hr'
    simp only [Nodes.linkSlot, read_slot slot ho hget, Option.bind_some, Forest.head, if_neg hb, hrec]
    unfold Forest.link
    by_cases hlt : strcmpLt b.name a.name = true
    swap
    · obtain ⟨s', hlink, hl⟩ := linkInto_linked hne ho hm.2.1 d
      exact ⟨slot, s', by simp [record, hlt], hlink, by simpa [hlt] using hl.changed hr ho hget hout hm hnew⟩
    obtain ⟨hbc, hbn, -, hnn, hdisj⟩ := Forest.nodup_node hnd
    simp only [Forest.inodes_node, List.mem_cons, List.mem_append, not_or] at hnew hout
    simp only [Forest.width] at hf
    -- from here on the slot is that of `b`
    obtain ⟨slot', s', hslot, hinto, hch⟩ :=
      ihn (.next b.inode) hnext hnn hrec rfl hbn (fun he => hnew.1 he.symm) hnew.2.2
        (show next.width < fuel by omega)
    refine ⟨slot', s', by simpa [record, hlt] using hslot, hinto, ?_⟩
    have hsame : ∀ q, q ≠ b.inode → q ≠ a.inode → q ∉ next.inodes → s'.heap q = s.heap q := hch.other
    rw [if_pos hlt]
    refine ⟨?_, ⟨hb, hch.owner _ hrec, hcb.frame fun q hq => hsame q ?_ ?_ (hdisj q hq), hch.rep⟩, ?_, hch.root, hch.count⟩
    · intro n' hn'
      obtain rfl := Option.some.inj (ho.symm.trans hn')
      rw [hsame _ hout.1 hne hout.2.2, ho]
      exact congrArg some (slot.set_get hget).symm
    · rintro rfl
      exact hbc hq
    · rintro rfl
      exact hnew.2.1 hq
    · intro q _ hqa hqt
      simp only [Forest.inodes_node, List.mem_cons, List.mem_append, not_or] at hqt
      exact hsame q hqt.1 hqa hqt.2.2

/-- The nodes of a list of siblings, without those below them. -/
def Forest.siblings : Forest → List Attrs
  | .nil => []
  | .node a _ next => a :: next.siblings

theorem Forest.mem_attrs_of_siblings (h : a ∈ t.siblings) : a ∈ t.attrs := by
  induction t with
  | nil => cases h
  | node b child next _ ihn =>
    rcases List.mem_cons.mp h with rfl | h
    · exact List.mem_cons_self
    · exact List.mem_cons_of_mem _ (List.mem_append_right _ (ihn h))

theorem unlinkFrom_heap (slot : Slot) {m n : FsNode} (hne : slot.owner ≠ x) (ho : s.heap slot.owner = some n)
    (hx : s.heap x = some m) : ∃ s', s.unlinkFrom slot x = some s' ∧ s'.heap slot.owner = some (slot.set m.nextSibling n) ∧
      (∀ q, q ≠ slot.owner → q ≠ x → s'.heap q = s.heap q) ∧ s'.root = s.root ∧ s'.nodeCount = s.nodeCount := by
  unfold Nodes.unlinkFrom
  rw [hx, Option.bind_some, Nodes.write, Nodes.update_heap ho, Option.bind_some, Nodes.update_heap (n := m), Option.bind_some,
    Nodes.update_heap (n := { m with nextSibling := 0 })]
  · refine ⟨_, rfl, ?_, ?_, rfl, rfl⟩
    · simp [Function.update_of_ne hne]
    · intro q hq hqx
      simp [Function.update_of_ne hq, Function.update_of_ne hqx]
  · simp
  · simp [Function.update_of_ne hne.symm, hx]

/-- The loop of `unlink_child` and what follows it take a sibling out. -/
theorem unlink_changed (slot : Slot) {n : FsNode} {fuel : ℕ} (hr : Rep s.heap d t) (hnd : t.inodes.Nodup)
    (ho : s.heap slot.owner = some n) (hget : slot.get n = t.head) (hout : slot.owner ∉ t.inodes) (ha : a ∈ t.siblings)
    (hf : t.width < fuel) :
    ∃ slot' s', s.unlinkSlot a.inode fuel slot = some (some slot') ∧ s.unlinkFrom slot' a.inode = some s' ∧
      Changed s s' slot d a.inode t (t.dropNode a.inode) := by
  induction t generalizing slot n fuel with
  | nil => cases ha
  | node b cb next _ ihn =>
    obtain ⟨fuel, rfl⟩ : ∃ n, fuel = n + 1 := ⟨fuel - 1, by omega⟩
    obtain ⟨hb, hrec, hcb, hnext⟩ := hr
    obtain ⟨hbc, hbn, -, hnn, hdisj⟩ := Forest.nodup_node hnd
    simp only [Forest.inodes_node, List.mem_cons, List.mem_append, not_or] at hout
    simp only [Nodes.unlinkSlot, read_slot slot ho hget, Option.bind_some, Forest.head, if_neg hb]
    unfold Forest.dropNode
    by_cases hba : b.inode = a.inode
    · obtain ⟨s', hfrom, howner, hother, hroot, hcount⟩ := unlinkFrom_heap slot hout.1 ho hrec
      rw [if_pos hba, if_pos hba, ← hba, Forest.dropNode_of_not_mem hbn]
      refine ⟨slot, s', rfl, hfrom, ?_, hnext.frame fun q hq => hother q ?_ ?_, fun q hq hqx _ => hother q hq hqx, hroot, hcount⟩
      · intro n' hn'
        obtain rfl := Option.some.inj (ho.symm.trans hn')
        exact howner
      · rintro rfl
        exact hout.2.2 hq
      · rintro rfl
        exact hbn hq
    · have ha' : a ∈ next.siblings := (List.mem_cons.mp ha).resolve_left fun he => hba (by rw [he])
      have han : a.inode ∈ next.inodes := Forest.mem_inodes (Forest.mem_attrs_of_siblings ha')
      have hac : a.inode ∉ cb.inodes := fun hc => hdisj _ hc han
      simp only [Forest.width] at hf
      obtain ⟨slot', s', hslot, hfrom, hch⟩ :=
        ihn (.next b.inode) hnext hnn hrec rfl hbn ha' (show next.width < fuel by omega)
      rw [if_neg hba, if_neg hba, Forest.dropNode_of_not_mem hac]
      refine ⟨slot', s', hslot, hfrom, ?_⟩
      have hsame : ∀ q, q ≠ b.inode → q ≠ a.inode → q ∉ next.inodes → s'.heap q = s.heap q := hch.other
      refine ⟨?_, ⟨hb, hch.owner _ hrec, hcb.frame fun q hq => hsame q ?_ ?_ (hdisj q hq), hch.rep⟩, ?_, hch.root, hch.count⟩
      · intro n' hn'
        obtain rfl := Option.some.inj (ho.symm.trans hn')
        rw [hsame _ hout.1 (fun he => hout.2.2 (he ▸ han)) hout.2.2, ho]
        exact congrArg some (slot.set_get hget).symm
      · rintro rfl
        exact hbc hq
      · rintro rfl
        exact hac hq
      · intro q _ hqa hqt
        simp only [Forest.inodes_node, List.mem_cons, List.mem_append, not_or] at hqt
        exact hsame q hqt.1 hqa hqt.2.2

/-! ### Below a directory of a tree -/

/-- The node `a`, with `child` below it, is somewhere in a forest. -/
inductive At (a : Attrs) (child : Forest) : Forest → Prop
  | here (next : Forest) : At a child (.node a child next)
  | down (b : Attrs) {c : Forest} (next : Forest) (h : At a child c) : At a child (.node b c next)
  | beside (b : Attrs) (c : Forest) {next : Forest} (h : At a child next) : At a child (.node b c next)

/-- The node at `x` gets other children. -/
def Forest.withChildren : Forest → ℕ → Forest → Forest
  | .nil, _, _ => .nil
  | .node b c next, x, new =>
    if b.inode = x then .node b new next else .node b (c.withChildren x new) (next.withChildren x new)

theorem At.mem (h : At a child t) : a ∈ t.attrs ∧ ∀ b ∈ child.attrs, b ∈ t.attrs := by
  induction h with
  | here next => simp +contextual
  | down b next _ ih => exact ⟨by simp [ih.1], fun c hc => by simp [ih.2 c hc]⟩
  | beside b c _ ih => exact ⟨by simp [ih.1], fun c hc => by simp [ih.2 c hc]⟩

theorem At.inode_mem (h : At a child t) : a.inode ∈ t.inodes := Forest.mem_inodes h.mem.1

theorem At.child_mem (h : At a child t) (hx : x ∈ child.inodes) : x ∈ t.inodes := by
  obtain ⟨b, hb, rfl⟩ := List.mem_map.mp hx
  exact Forest.mem_inodes (h.mem.2 b hb)

theorem At.nodup (h : At a child t) (hnd : t.inodes.Nodup) : a.inode ∉ child.inodes ∧ child.inodes.Nodup := by
  induction h with
  | here next => exact ⟨(Forest.nodup_node hnd).1, (Forest.nodup_node hnd).2.2.1⟩
  | down b next _ ih => exact ih (Forest.nodup_node hnd).2.2.1
  | beside b c _ ih => exact ih (Forest.nodup_node hnd).2.2.2.1

/-- What the heap has of such a node. -/
theorem At.rep (h : At a child t) (hr : Rep s.heap parent t) :
    a.inode ≠ 0 ∧ Rep s.heap a.inode child ∧ ∃ n, s.heap a.inode = some n ∧ n.name = a.name ∧ n.dir = a.dir ∧
      n.readonly = a.readonly ∧ n.firstChild = child.head := by
  induction h generalizing parent with
  | here next => exact ⟨hr.1, hr.2.2.1, _, hr.2.1, rfl, rfl, rfl, rfl⟩
  | down b next _ ih => exact ih hr.2.2.1
  | beside b c _ ih => exact ih hr.2.2.2

theorem Forest.withChildren_of_not_mem (new : Forest) (h : x ∉ t.inodes) : t.withChildren x new = t := by
  induction t with
  | nil => rfl
  | node b c next ihc ihn =>
    simp only [Forest.inodes_node, List.mem_cons, List.mem_append, not_or] at h
    rw [Forest.withChildren, if_neg (Ne.symm h.1), ihc h.2.1, ihn h.2.2]

theorem Forest.head_withChildren (t : Forest) (x : ℕ) (new : Forest) : (t.withChildren x new).head = t.head := by
  cases t with
  | nil => rfl
  | node b c next =>
    unfold Forest.withChildren
    split <;> rfl

section replacing

variable {c new : Forest}

theorem withChildren_here (a : Attrs) (child next new : Forest) :
    (Forest.node a child next).withChildren a.inode new = .node a new next := if_pos rfl

theorem withChildren_down (new : Forest) (h : At a child c) (hnd : (Forest.node b c next).inodes.Nodup) :
    (Forest.node b c next).withChildren a.inode new = .node b (c.withChildren a.inode new) next ∧ b.inode ≠ a.inode := by
  obtain ⟨hbc, -, -, -, hdisj⟩ := Forest.nodup_node hnd
  have hne : b.inode ≠ a.inode := fun he => hbc (he ▸ h.inode_mem)
  rw [Forest.withChildren, if_neg hne, Forest.withChildren_of_not_mem new (hdisj _ h.inode_mem)]
  exact ⟨rfl, hne⟩

theorem withChildren_beside (new : Forest) (h : At a child next) (hnd : (Forest.node b c next).inodes.Nodup) :
    (Forest.node b c next).withChildren a.inode new = .node b c (next.withChildren a.inode new) ∧ b.inode ≠ a.inode := by
  obtain ⟨-, hbn, -, -, hdisj⟩ := Forest.nodup_node hnd
  have hne : b.inode ≠ a.inode := fun he => hbn (he ▸ h.inode_mem)
  rw [Forest.withChildren, if_neg hne, Forest.withChildren_of_not_mem new (fun hc => hdisj _ hc h.inode_mem)]
  exact ⟨rfl, hne⟩

theorem At.withChildren_self (h : At a child t) (hnd : t.inodes.Nodup) : t.withChildren a.inode child = t := by
  induction h with
  | here next => exact withChildren_here a child next child
  | down b next h ih => rw [(withChildren_down child h hnd).1, ih (Forest.nodup_node hnd).2.2.1]
  | beside b c h ih => rw [(withChildren_beside child h hnd).1, ih (Forest.nodup_node hnd).2.2.2.1]

/-- The nodes that come and those that go. -/
theorem At.attrs_withChildren (h : At a child t) (hnd : t.inodes.Nodup) (new : Forest) :
    ((t.withChildren a.inode new).attrs ++ child.attrs).Perm (t.attrs ++ new.attrs) := by
  rw [List.perm_iff_count]
  intro e
  simp only [List.count_append]
  induction h with
  | here next =>
    simp only [withChildren_here, Forest.attrs_node, List.count_cons, List.count_append]
    omega
  | down b next h ih =>
    have hp := ih (Forest.nodup_node hnd).2.2.1
    simp only [(withChildren_down new h hnd).1, Forest.attrs_node, List.count_cons, List.count_append]
    omega
  | beside b c h ih =>
    have hp := ih (Forest.nodup_node hnd).2.2.2.1
    simp only [(withChildren_beside new h hnd).1, Forest.attrs_node, List.count_cons, List.count_append]
    omega

/-- Other children of a directory in the heap. -/
theorem Rep.withChildren (hat : At a child t) (hr : Rep h parent t) (hnd : t.inodes.Nodup)
    (ho : ∀ n, h a.inode = some n → h' a.inode = some { n with firstChild := new.head }) (hnew : Rep h' a.inode new)
    (hother : ∀ q ∈ t.inodes, q ≠ a.inode → q ∉ child.inodes → h' q = h q) : Rep h' parent (t.withChildren a.inode new) := by
  induction hat generalizing parent with
  | here next =>
    obtain ⟨hne, hrec, -, hn⟩ := hr
    obtain ⟨hac, han, -, -, hdisj⟩ := Forest.nodup_node hnd
    rw [withChildren_here]
    refine ⟨hne, ho _ hrec, hnew, hn.frame fun q hq => hother q (by simp [hq]) ?_ fun hc => hdisj q hc hq⟩
    rintro rfl
    exact han hq
  | @down b c next hat ih =>
    obtain ⟨hne, hrec, hc, hn⟩ := hr
    obtain ⟨hbc, -, hcn, -, hdisj⟩ := Forest.nodup_node hnd
    obtain ⟨heq, hba⟩ := withChildren_down new hat hnd
    rw [heq]
    refine ⟨hne, ?_, ih hc hcn fun q hq => hother q (by simp [hq]), hn.frame fun q hq => hother q (by simp [hq]) ?_ ?_⟩
    · rw [hother b.inode (by simp) hba fun hm => hbc (hat.child_mem hm), hrec]
      simp [record, Forest.head_withChildren]
    · rintro rfl
      exact hdisj _ hat.inode_mem hq
    · exact fun hm => hdisj q (hat.child_mem hm) hq
  | @beside b c next hat ih =>
    obtain ⟨hne, hrec, hc, hn⟩ := hr
    obtain ⟨-, hbn, -, hnn, hdisj⟩ := Forest.nodup_node hnd
    obtain ⟨heq, hba⟩ := withChildren_beside new hat hnd
    rw [heq]
    refine ⟨hne, ?_, hc.frame fun q hq => hother q (by simp [hq]) ?_ ?_, ih hn hnn fun q hq => hother q (by simp [hq])⟩
    · rw [hother b.inode (by simp) hba fun hm => hbn (hat.child_mem hm), hrec]
      simp [record, Forest.head_withChildren]
    · rintro rfl
      exact hdisj _ hq hat.inode_mem
    · exact fun hm => hdisj q hq (hat.child_mem hm)

end replacing

/-! ### Finding -/

theorem At.trans {c : Forest} (h : At a child t) (h' : At b c child) : At b c t := by
  induction h with
  | here next => exact .down a next h'
  | down b next _ ih => exact .down b next ih
  | beside b c _ ih => exact .beside b c ih

theorem At.count (h : At a child t) : child.count + 1 ≤ t.count := by
  induction h with
  | here next =>
    simp only [Forest.count]
    omega
  | down b next _ ih =>
    simp only [Forest.count]
    omega
  | beside b c _ ih =>
    simp only [Forest.count]
    omega

/-- What `Forest.find` finds is one of the siblings. -/
structure Sibling (h : ℕ → Option FsNode) (parent : ℕ) (t : Forest) (a : Attrs) (child : Forest) : Prop where
  at_ : At a child t
  mem : a ∈ t.siblings
  record : ∃ n, h a.inode = some n ∧ n.parent = parent ∧ n.readonly = a.readonly ∧ n.firstChild = child.head
  room : t.width + child.count ≤ t.count

theorem find_at (hf : t.find name = some (a, child)) : At a child t := by
  induction t with
  | nil => cases hf
  | node b c next _ ihn =>
    unfold Forest.find at hf
    split at hf
    · obtain ⟨rfl, rfl⟩ := Prod.mk.inj (Option.some.inj hf)
      exact .here next
    · exact .beside b c (ihn hf)

theorem find_sibling (hr : Rep h parent t) (hf : t.find name = some (a, child)) : Sibling h parent t a child := by
  induction t with
  | nil => cases hf
  | node b c next _ ihn =>
    have hat := find_at hf
    unfold Forest.find at hf
    split at hf
    · obtain ⟨rfl, rfl⟩ := Prod.mk.inj (Option.some.inj hf)
      have hw := next.width_le_count
      refine ⟨hat, List.mem_cons_self, ⟨_, hr.2.1, rfl, rfl, rfl⟩, ?_⟩
      simp only [Forest.width, Forest.count]
      omega
    · have hs := ihn hr.2.2.2 hf
      have hroom := hs.room
      refine ⟨hat, List.mem_cons_of_mem _ hs.mem, hs.record, ?_⟩
      simp only [Forest.width, Forest.count]
      omega

theorem follow_at {path : List Name} {r b : Attrs} {c : Forest} (hat : At r child t) (hf : follow (r, child) path = some (b, c)) :
    At b c t := by
  induction path generalizing r child with
  | nil =>
    obtain ⟨rfl, rfl⟩ := Prod.mk.inj (Option.some.inj hf)
    exact hat
  | cons name rest ih =>
    obtain ⟨-, b', c', hfind, hrest⟩ := follow_cons hf
    exact ih (hat.trans (find_at hfind)) hrest

theorem findChild_rep (hr : Rep s.heap parent t) (hat : At a child t) (hc : t.count ≤ s.nodeCount) :
    s.findChild a.inode name = some (if a.dir then pointer (child.find name) else 0) := by
  obtain ⟨hne, hchild, n, hn, -, hdir, -, hfirst⟩ := hat.rep hr
  have hwidth := child.width_le_count
  have hcount := hat.count
  unfold Nodes.findChild
  rw [if_neg hne, hn, Option.bind_some, hdir, hfirst, findFrom_rep hchild (by omega)]
  cases a.dir <;> rfl

/-- `vfs_lookup` goes along the pointers as `follow` goes down the tree. -/
theorem lookupFrom_rep (hr : Rep s.heap parent t) (hat : At a child t) (hc : t.count ≤ s.nodeCount) (path : List Name) :
    s.lookupFrom path a.inode = some (pointer (follow (a, child) path)) := by
  induction path generalizing a child with
  | nil => rfl
  | cons name rest ih =>
    unfold Nodes.lookupFrom follow
    rw [findChild_rep hr hat hc, Option.bind_some]
    by_cases hdir : a.dir = true
    · rw [if_pos hdir, if_pos hdir]
      cases hfind : child.find name with
      | none => rfl
      | some found =>
        have hb := hat.trans (find_at hfind)
        show (if found.1.inode = 0 then some 0 else s.lookupFrom rest found.1.inode) = _
        rw [if_neg (hb.rep hr).1]
        exact ih hb
    · rw [if_neg hdir, if_neg hdir]
      rfl

/-! ### Linking and unlinking in a tree -/

/-- The children of a directory have changed. -/
theorem Changed.withChildren {new : Forest} (hch : Changed s s' (.first a.inode) a.inode x child new) (hat : At a child t)
    (hr : Rep s.heap parent t) (hnd : t.inodes.Nodup) (hx : x ∈ t.inodes → x ∈ child.inodes) :
    Rep s'.heap parent (t.withChildren a.inode new) := by
  refine hr.withChildren hat hnd hch.owner hch.rep fun q hq hqa hqc => hch.other q hqa ?_ hqc
  rintro rfl
  exact hqc (hx hq)

theorem linkChild_changed {m : FsNode} (hr : Rep s.heap parent t) (hnd : t.inodes.Nodup) (hat : At b child t) (hm : Lone s a m)
    (hnew : a.inode ∉ t.inodes) (hc : t.count ≤ s.nodeCount) :
    ∃ s', s.linkChild b.inode a.inode = some s' ∧ Changed s s' (.first b.inode) b.inode a.inode child (child.link a .nil) := by
  obtain ⟨-, hchild, n, hn, -, -, -, hfirst⟩ := hat.rep hr
  obtain ⟨hbc, hcn⟩ := hat.nodup hnd
  have hwidth := child.width_le_count
  have hcount := hat.count
  obtain ⟨slot, s', hslot, hinto, hch⟩ := link_changed (.first b.inode) hchild hcn hn hfirst hbc hm
    (fun he => hnew (he ▸ hat.inode_mem)) (fun hx => hnew (hat.child_mem hx)) (show child.width < s.nodeCount + 1 by omega)
  refine ⟨s', ?_, hch⟩
  unfold Nodes.linkChild
  rw [hm.2.1, Option.bind_some, hm.2.2.1, hslot, Option.bind_some]
  exact hinto

/-- `unlink_child`, on a list of siblings that may have lost what was below the child. -/
theorem unlinkChild_changed {n : FsNode} (hr : Rep s.heap d t) (hnd : t.inodes.Nodup) (hn : s.heap d = some n)
    (hfirst : n.firstChild = t.head) (hd : d ∉ t.inodes) (ha : a ∈ t.siblings) (hw : t.width ≤ s.nodeCount) :
    ∃ s', s.unlinkChild d a.inode = some s' ∧ Changed s s' (.first d) d a.inode t (t.dropNode a.inode) := by
  obtain ⟨slot, s', hslot, hfrom, hch⟩ := unlink_changed (.first d) hr hnd hn hfirst hd ha (show t.width < s.nodeCount + 1 by omega)
  refine ⟨s', ?_, hch⟩
  unfold Nodes.unlinkChild
  rw [hslot]
  exact hfrom

/-! ### Destroying -/

/-- The nodes of a list of siblings below `x` are gone. -/
structure Cleared (s s' : Nodes) (x : ℕ) (t : Forest) : Prop where
  owner : ∀ n, s.heap x = some n → s'.heap x = some { n with firstChild := 0 }
  gone : ∀ q ∈ t.inodes, s'.heap q = none
  other : ∀ q, q ≠ x → q ∉ t.inodes → s'.heap q = s.heap q
  root : s'.root = s.root
  count : s'.nodeCount = s.nodeCount - t.count

/-- The first child `b` of `x` is gone with all that was below it. -/
structure ShiftedFirst (s s' : Nodes) (x : ℕ) (b : Attrs) (cb next : Forest) : Prop where
  owner : ∀ n, s.heap x = some n → s'.heap x = some { n with firstChild := next.head }
  gone : ∀ q, q = b.inode ∨ q ∈ cb.inodes → s'.heap q = none
  other : ∀ q, q ≠ x → q ≠ b.inode → q ∉ cb.inodes → s'.heap q = s.heap q
  root : s'.root = s.root
  count : s'.nodeCount = s.nodeCount - (cb.count + 1)

/-- `destroy_tree` of the first child, when the loop over its own children has done its work. -/
theorem destroyTree_first {cb : Forest} {n : FsNode} {fuel : ℕ} {s₁ : Nodes} (hrec : s.heap b.inode = some (record b x cb next))
    (hn : s.heap x = some n) (hfirst : n.firstChild = b.inode) (hb : b.inode ≠ 0) (hx₀ : x ≠ 0) (hxb : x ≠ b.inode)
    (hxc : x ∉ cb.inodes) (hbc : b.inode ∉ cb.inodes) (hloop : Nodes.destroyLoop fuel cb.head s = some s₁)
    (hcl : Cleared s s₁ b.inode cb) :
    ∃ s', Nodes.destroyTree (fuel + 1) b.inode s = some s' ∧ ShiftedFirst s s' x b cb next := by
  have hn₁ : s₁.heap x = some n := (hcl.other x hxb hxc).trans hn
  have hb₁ := hcl.owner _ hrec
  obtain ⟨s₂, hfrom, howner, hother, hroot, hcount⟩ := unlinkFrom_heap (.first x) hxb hn₁ hb₁
  have hslot : s₁.unlinkSlot b.inode (s₁.nodeCount + 1) (.first x) = some (some (.first x)) := by
    unfold Nodes.unlinkSlot
    rw [read_slot (.first x) hn₁ hfirst, Option.bind_some, if_neg hb, if_pos rfl]
  refine ⟨s₂.free b.inode, ?_, ?_, ?_, ?_, hroot.trans hcl.root, ?_⟩
  · unfold Nodes.destroyTree
    rw [hrec, Option.bind_some]
    show (Nodes.destroyLoop fuel cb.head s).bind _ = _
    rw [hloop, Option.bind_some, hb₁, Option.bind_some]
    show (if x = 0 then some s₁ else s₁.unlinkChild x b.inode).map _ = _
    rw [if_neg hx₀, Nodes.unlinkChild, hslot]
    show (s₁.unlinkFrom (.first x) b.inode).map _ = _
    rw [hfrom]
    rfl
  · intro m hm
    obtain rfl := Option.some.inj (hn.symm.trans hm)
    show Function.update s₂.heap b.inode none x = _
    rw [Function.update_of_ne hxb]
    exact howner
  · rintro q (rfl | hq)
    · exact Function.update_self ..
    · have hqb : q ≠ b.inode := fun he => hbc (he ▸ hq)
      have hqx : q ≠ x := fun he => hxc (he ▸ hq)
      show Function.update s₂.heap b.inode none q = none
      rw [Function.update_of_ne hqb, hother q hqx hqb, hcl.gone q hq]
  · intro q hqx hqb hqc
    show Function.update s₂.heap b.inode none q = _
    rw [Function.update_of_ne hqb, hother q hqx hqb, hcl.other q hqb hqc]
  · show s₂.nodeCount - 1 = _
    rw [hcount, hcl.count]
    omega

/-- The loop of `destroy_tree`: each child is the first of the list when its turn comes. -/
theorem destroyLoop_cleared {n : FsNode} {fuel : ℕ} (hr : Rep s.heap x t) (hn : s.heap x = some n) (hfirst : n.firstChild = t.head)
    (hnd : t.inodes.Nodup) (hx : x ∉ t.inodes) (hx₀ : x ≠ 0) (hf : 2 * t.count < fuel) :
    ∃ s', Nodes.destroyLoop fuel t.head s = some s' ∧ Cleared s s' x t := by
  induction t generalizing s x n fuel with
  | nil =>
    obtain ⟨fuel, rfl⟩ : ∃ n, fuel = n + 1 := ⟨fuel - 1, by omega⟩
    refine ⟨s, rfl, ?_, fun q hq => absurd hq List.not_mem_nil, fun q _ _ => rfl, rfl, rfl⟩
    intro m hm
    obtain rfl := Option.some.inj (hn.symm.trans hm)
    rw [hn]
    exact congrArg some (Slot.set_get (.first x) hfirst).symm
  | node b cb next ihc ihn =>
    obtain ⟨hb, hrec, hcb, hnext⟩ := hr
    obtain ⟨hbc, hbn, hcn, hnn, hdisj⟩ := Forest.nodup_node hnd
    simp only [Forest.inodes_node, List.mem_cons, List.mem_append, not_or] at hx
    simp only [Forest.count] at hf
    obtain ⟨fuel, rfl⟩ : ∃ n, fuel = n + 2 := ⟨fuel - 2, by omega⟩
    obtain ⟨s₁, hloop, hcl⟩ := ihc hcb hrec rfl hcn hbc hb (show 2 * cb.count < fuel by omega)
    obtain ⟨s₂, htree, hsh⟩ := destroyTree_first hrec hn hfirst hb hx₀ hx.1 hx.2.1 hbc hloop hcl
    have hr₂ : Rep s₂.heap x next := by
      refine hnext.frame fun q hq => hsh.other q ?_ ?_ fun hc => hdisj q hc hq
      · rintro rfl
        exact hx.2.2 hq
      · rintro rfl
        exact hbn hq
    obtain ⟨s', hrest, hcl'⟩ := ihn hr₂ (hsh.owner n hn) rfl hnn hx.2.2 hx₀ (show 2 * next.count < fuel + 1 by omega)
    refine ⟨s', ?_, ?_, ?_, ?_, hcl'.root.trans hsh.root, ?_⟩
    · unfold Nodes.destroyLoop
      rw [Forest.head, if_neg hb, hrec, Option.bind_some, htree, Option.bind_some]
      exact hrest
    · intro m hm
      have howner := hcl'.owner _ (hsh.owner m hm)
      exact howner
    · intro q hq
      simp only [Forest.inodes_node, List.mem_cons, List.mem_append] at hq
      by_cases hqn : q ∈ next.inodes
      · exact hcl'.gone q hqn
      have hqb : q = b.inode ∨ q ∈ cb.inodes := by
        rcases hq with hq | hq | hq
        · exact Or.inl hq
        · exact Or.inr hq
        · exact absurd hq hqn
      have hqx : q ≠ x := by
        rintro rfl
        exact hqb.elim hx.1 hx.2.1
      rw [hcl'.other q hqx hqn]
      exact hsh.gone q hqb
    · intro q hqx hqt
      simp only [Forest.inodes_node, List.mem_cons, List.mem_append, not_or] at hqt
      rw [hcl'.other q hqx hqt.2.2]
      exact hsh.other q hqx hqt.1 hqt.2.1
    · rw [hcl'.count, hsh.count]
      simp only [Forest.count]
      omega

/-- A node below `b` has been destroyed: its siblings are left below `b`, and the node and what was below
it are no nodes any more. -/
structure TakenOut (s s' : Nodes) (b a : Attrs) (sib child : Forest) : Prop where
  owner : ∀ n, s.heap b.inode = some n → s'.heap b.inode = some { n with firstChild := (sib.dropNode a.inode).head }
  rep : Rep s'.heap b.inode (sib.dropNode a.inode)
  gone : ∀ q, q = a.inode ∨ q ∈ child.inodes → s'.heap q = none
  other : ∀ q, q ≠ b.inode → q ∉ sib.inodes → s'.heap q = s.heap q
  root : s'.root = s.root
  count : s'.nodeCount = s.nodeCount - (child.count + 1)

theorem Forest.siblings_withChildren (t : Forest) (x : ℕ) (new : Forest) : (t.withChildren x new).siblings = t.siblings := by
  induction t with
  | nil => rfl
  | node b c next _ ihn =>
    unfold Forest.withChildren
    split
    · rfl
    · simp [Forest.siblings, ihn]

theorem Forest.width_withChildren (t : Forest) (x : ℕ) (new : Forest) : (t.withChildren x new).width = t.width := by
  induction t with
  | nil => rfl
  | node b c next _ ihn =>
    unfold Forest.withChildren
    split
    · rfl
    · simp [Forest.width, ihn]

theorem Forest.dropNode_withChildren (t : Forest) (x : ℕ) (new : Forest) : (t.withChildren x new).dropNode x = t.dropNode x := by
  induction t with
  | nil => rfl
  | node b c next ihc ihn =>
    unfold Forest.withChildren
    split
    · next he => simp [Forest.dropNode, he]
    · next hne => simp [Forest.dropNode, hne, ihc, ihn]

/-- Without its children a node is all that is left of it. -/
theorem At.inodes_emptied (h : At a child t) (hnd : t.inodes.Nodup) : (t.withChildren a.inode .nil).inodes.Nodup ∧
    ∀ x, x ∈ (t.withChildren a.inode .nil).inodes ↔ x ∈ t.inodes ∧ x ∉ child.inodes := by
  have hperm := (h.attrs_withChildren hnd .nil).map Attrs.inode
  simp only [Forest.attrs_nil, List.append_nil, List.map_append] at hperm
  have hnd' := hperm.nodup_iff.mpr hnd
  rw [List.nodup_append] at hnd'
  refine ⟨hnd'.1, fun x => ⟨fun hx => ⟨hperm.subset (List.mem_append_left _ hx), fun hc => hnd'.2.2 x hx x hc rfl⟩, ?_⟩⟩
  rintro ⟨hx, hc⟩
  exact (List.mem_append.mp (hperm.symm.subset hx)).resolve_right hc

theorem Forest.not_mem_dropNode (t : Forest) (x : ℕ) : x ∉ (t.dropNode x).inodes := by
  induction t with
  | nil => exact List.not_mem_nil
  | node b c next ihc ihn =>
    unfold Forest.dropNode
    split
    · exact ihn
    · next hne =>
      simp only [Forest.inodes_node, List.mem_cons, List.mem_append, not_or]
      exact ⟨Ne.symm hne, ihc, ihn⟩

/-- `destroy_tree` of a node below `b`. -/
theorem destroyTree_takenOut {sib : Forest} {n : FsNode} {fuel : ℕ} (hs : Sibling s.heap b.inode sib a child)
    (hr : Rep s.heap b.inode sib) (hnd : sib.inodes.Nodup) (hn : s.heap b.inode = some n) (hfirst : n.firstChild = sib.head)
    (hb : b.inode ∉ sib.inodes) (hb₀ : b.inode ≠ 0) (hc : sib.count ≤ s.nodeCount) (hf : 2 * child.count < fuel) :
    ∃ s', Nodes.destroyTree (fuel + 1) a.inode s = some s' ∧ TakenOut s s' b a sib child := by
  obtain ⟨m, hm, hparent, -, hchild⟩ := hs.record
  obtain ⟨hac, hcn⟩ := hs.at_.nodup hnd
  obtain ⟨ha₀, hrc, -⟩ := hs.at_.rep hr
  have hne : b.inode ≠ a.inode := fun he => hb (he ▸ hs.at_.inode_mem)
  have hbc : b.inode ∉ child.inodes := fun h => hb (hs.at_.child_mem h)
  obtain ⟨s₁, hloop, hcl⟩ := destroyLoop_cleared hrc hm hchild hcn hac ha₀ hf
  -- what is left to unlink is the node alone
  obtain ⟨hnd₁, hmem₁⟩ := hs.at_.inodes_emptied hnd
  have hr₁ : Rep s₁.heap b.inode (sib.withChildren a.inode .nil) :=
    hr.withChildren hs.at_ hnd hcl.owner trivial fun q _ hqa hqc => hcl.other q hqa hqc
  have hn₁ : s₁.heap b.inode = some n := (hcl.other _ hne hbc).trans hn
  have hroom := hs.room
  obtain ⟨s₂, hunlink, hch⟩ := unlinkChild_changed hr₁ hnd₁ hn₁ (hfirst.trans (Forest.head_withChildren _ _ _).symm)
    (fun h => hb ((hmem₁ _).mp h).1) (a := a) (by rw [Forest.siblings_withChildren]; exact hs.mem)
    (by rw [Forest.width_withChildren, hcl.count]; omega)
  rw [Forest.dropNode_withChildren] at hch
  have hfree : ∀ q, q ≠ a.inode → (s₂.free a.inode).heap q = s₂.heap q := fun q hq => Function.update_of_ne hq ..
  refine ⟨s₂.free a.inode, ?_, ?_, ?_, ?_, ?_, hch.root.trans hcl.root, ?_⟩
  · unfold Nodes.destroyTree
    rw [hm, Option.bind_some, hchild, hloop, Option.bind_some, hcl.owner m hm, Option.bind_some]
    show (if m.parent = 0 then some s₁ else s₁.unlinkChild m.parent a.inode).map _ = _
    rw [hparent, if_neg hb₀, hunlink]
    rfl
  · intro n' hn'
    obtain rfl := Option.some.inj (hn.symm.trans hn')
    rw [hfree _ hne]
    exact hch.owner n hn₁
  · refine hch.rep.frame fun q hq => hfree q ?_
    rintro rfl
    exact Forest.not_mem_dropNode _ _ hq
  · rintro q (rfl | hq)
    · exact Function.update_self ..
    · have hqa : q ≠ a.inode := fun he => hac (he ▸ hq)
      have hqb : q ≠ b.inode := fun he => hbc (he ▸ hq)
      rw [hfree q hqa, hch.other q hqb hqa fun h => ((hmem₁ q).mp h).2 hq, hcl.gone q hq]
  · intro q hqb hqs
    have hqa : q ≠ a.inode := fun he => hqs (he ▸ hs.at_.inode_mem)
    rw [hfree q hqa, hch.other q hqb hqa fun h => hqs ((hmem₁ q).mp h).1,
      hcl.other q hqa fun h => hqs (hs.at_.child_mem h)]
  · show s₂.nodeCount - 1 = _
    rw [hch.count, hcl.count]
    omega

end heap

end SifarOS.Vfs
