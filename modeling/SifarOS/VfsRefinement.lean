import SifarOS.VfsPaths

/-! # The file system as a map

Seen through its paths, a mounted file system is a map from canonical paths to directories and
byte strings. The operations change that map at the path they are given and nowhere else. -/
namespace SifarOS.Vfs
open SifarFs Forest

inductive Content
  | dir
  | file (bytes : List UInt8)
  deriving DecidableEq, Repr

/-- What is at every path. -/
abbrev Model := List Name → Option Content

def contentOf (f : Fs) (a : Attrs) : Content := if a.dir then .dir else .file (f.bytes a.inode)

/-- The node at a path. -/
def look (node : Attrs × Forest) (path : List Name) : Option Attrs := (follow node path).map Prod.fst

def Mount.model (m : Mount) : Model := fun path => (look (m.root, m.tree) path).map (contentOf m.fs)

/-! ## Paths and trees -/

variable {m m' : Mount} {a b parent new : Attrs} {c child children t : Forest} {x : ℕ} {p q : List Name} {name : Name}

theorem look_cons (b : Attrs) (c : Forest) (n : Name) (rest : List Name) :
    look (b, c) (n :: rest) = if b.dir then (c.find n).bind (fun d => look d rest) else none := by
  simp only [look, follow]
  split
  · rw [Option.map_bind]
    rfl
  · rfl

theorem linkBelow_of_not_mem (h : x ∉ (Forest.node b c .nil).inodes) : linkBelow x new b c = c := by
  simp only [inodes_node, inodes_nil, List.append_nil, List.mem_cons, not_or] at h
  unfold linkBelow
  rw [if_neg (fun he => h.1 he.symm), linkAt_of_not_mem h.2]

theorem look_new (rest : List Name) : look (new, .nil) rest = if rest = [] then some new else none := by
  cases rest with
  | nil => rfl
  | cons n rest =>
    rw [look_cons, if_neg (List.cons_ne_nil _ _)]
    split <;> rfl

/-- A node was linked below the one at path `p`. -/
theorem look_linkBelow (hnd : (Forest.node b c .nil).inodes.Nodup) (hf : follow (b, c) p = some (parent, children))
    (hdir : parent.dir = true) (hnew : children.find new.name = none) (q : List Name) :
    look (b, linkBelow parent.inode new b c) q = if q = p ++ [new.name] then some new else look (b, c) q := by
  induction q generalizing b c p with
  | nil =>
    rw [if_neg (by simp)]
    rfl
  | cons n rest ih =>
    cases p with
    | nil =>
      obtain ⟨rfl, rfl⟩ := Prod.mk.inj (Option.some.inj hf)
      rw [look_cons, look_cons, if_pos hdir, if_pos hdir, linkBelow, if_pos rfl, find_link hnew, List.nil_append]
      by_cases hn : new.name = n
      · subst hn
        rw [if_pos rfl, Option.bind_some, look_new, hnew]
        by_cases hr : rest = []
        · rw [if_pos hr, if_pos (by rw [hr])]
        · rw [if_neg hr, if_neg (fun he => hr (List.cons.inj he).2)]
          rfl
      · rw [if_neg hn, if_neg (fun he => hn (List.cons.inj he).1.symm)]
    | cons n₀ p =>
      obtain ⟨hb, b₁, c₁, hfind, hrest⟩ := follow_cons hf
      obtain ⟨hbc, -, hc, -, -⟩ := nodup_node hnd
      have hin : parent.inode ∈ (Forest.node b₁ c₁ .nil).inodes := mem_inodes (follow_mem hrest).1
      have hne : b.inode ≠ parent.inode := by
        intro he
        obtain ⟨h₁, h₂⟩ := find_mem hfind
        refine hbc (he ▸ ?_)
        obtain ⟨d, hd, hde⟩ := List.mem_map.mp hin
        simp only [attrs_node, attrs_nil, List.append_nil, List.mem_cons] at hd
        rw [← hde]
        rcases hd with rfl | hd
        · exact mem_inodes h₁
        · exact mem_inodes (h₂ d hd)
      rw [look_cons, look_cons, if_pos hb, if_pos hb, linkBelow, if_neg hne, find_linkAt, List.cons_append]
      by_cases hn : n = n₀
      · subst hn
        rw [hfind, Option.map_some, Option.bind_some, Option.bind_some, ih (find_nodup hc hfind) hrest]
        simp only [List.cons.injEq, true_and]
      · rw [if_neg (fun he => hn (List.cons.inj he).1)]
        cases hfn : c.find n with
        | none => rfl
        | some d =>
          rw [Option.map_some, Option.bind_some, Option.bind_some,
            linkBelow_of_not_mem (find_disjoint hc (Ne.symm hn) hfind hfn _ hin)]

/-- The node at path `p` was taken out. -/
theorem look_dropNode (hnd : (Forest.node b c .nil).inodes.Nodup) (hd : c.Distinct) (hp : p ≠ [])
    (hf : follow (b, c) p = some (a, child)) (q : List Name) :
    look (b, c.dropNode a.inode) q = if p <+: q then none else look (b, c) q := by
  induction q generalizing b c p with
  | nil =>
    rw [if_neg (by rw [List.prefix_nil]; exact hp)]
    rfl
  | cons n rest ih =>
    obtain ⟨n₀, p, rfl⟩ := List.exists_cons_of_ne_nil hp
    obtain ⟨hb, b₁, c₁, hfind, hrest⟩ := follow_cons hf
    obtain ⟨-, -, hc, -, -⟩ := nodup_node hnd
    have hin : a.inode ∈ (Forest.node b₁ c₁ .nil).inodes := mem_inodes (follow_mem hrest).1
    rw [look_cons, look_cons, if_pos hb, if_pos hb, find_dropNode hd]
    by_cases hn : n = n₀
    · subst hn
      rw [hfind, Option.bind_some, Option.bind_some]
      simp only [List.cons_prefix_cons, true_and]
      cases p with
      | nil =>
        obtain ⟨rfl, rfl⟩ := Prod.mk.inj (Option.some.inj hrest)
        rw [if_pos rfl, if_pos (List.nil_prefix)]
        rfl
      | cons n₁ p =>
        have hne : b₁.inode ≠ a.inode := by
          obtain ⟨hbc, -⟩ := nodup_node (find_nodup hc hfind)
          exact fun he => hbc (he ▸ (found_of_follow hrest).mem)
        rw [if_neg hne, Option.bind_some, ih (find_nodup hc hfind) (hd.find hfind) (List.cons_ne_nil _ _) hrest]
    · rw [if_neg (fun he => hn (List.cons_prefix_cons.mp he).1.symm)]
      cases hfn : c.find n with
      | none => rfl
      | some d =>
        obtain ⟨d, e⟩ := d
        have hnot := find_disjoint hc (Ne.symm hn) hfind hfn _ hin
        simp only [inodes_node, inodes_nil, List.append_nil, List.mem_cons, not_or] at hnot
        rw [Option.bind_some, Option.bind_some, if_neg (fun he => hnot.1 he.symm), Option.bind_some,
          dropNode_of_not_mem hnot.2]

/-- No two paths lead to nodes with one number. -/
theorem path_unique (hnd : (Forest.node b c .nil).inodes.Nodup) {a a' : Attrs} {child child' : Forest}
    (hf : follow (b, c) p = some (a, child)) (hf' : follow (b, c) q = some (a', child')) (he : a.inode = a'.inode) : p = q := by
  induction p generalizing b c q with
  | nil =>
    obtain ⟨rfl, rfl⟩ := Prod.mk.inj (Option.some.inj hf)
    cases q with
    | nil => rfl
    | cons n q =>
      obtain ⟨hbc, -⟩ := nodup_node hnd
      exact absurd (he ▸ (found_of_follow hf').mem) hbc
  | cons n p ih =>
    obtain ⟨-, b₁, c₁, hfind, hrest⟩ := follow_cons hf
    obtain ⟨hbc, -, hc, -, -⟩ := nodup_node hnd
    cases q with
    | nil =>
      obtain ⟨rfl, rfl⟩ := Prod.mk.inj (Option.some.inj hf')
      exact absurd (he ▸ (found_of_follow hf).mem) hbc
    | cons n' q =>
      obtain ⟨-, b₂, c₂, hfind', hrest'⟩ := follow_cons hf'
      by_cases hn : n = n'
      · subst hn
        rw [hfind] at hfind'
        obtain ⟨rfl, rfl⟩ := Prod.mk.inj (Option.some.inj hfind')
        rw [ih (find_nodup hc hfind) hrest hrest']
      · have h₁ : a.inode ∈ (Forest.node b₁ c₁ .nil).inodes := mem_inodes (follow_mem hrest).1
        have h₂ : a'.inode ∈ (Forest.node b₂ c₂ .nil).inodes := mem_inodes (follow_mem hrest').1
        exact absurd (he ▸ h₂) (find_disjoint hc hn hfind hfind' _ h₁)

/-! ## Calls -/

/-- The calls of the VFS. -/
inductive Op
  | create (cwd : Option (List UInt8)) (path : List UInt8) (dir : Bool)
  | writeFile (path data : List UInt8)
  | appendFile (path data : List UInt8)
  | unlink (cwd : Option (List UInt8)) (path : List UInt8)
  | readFile (path : List UInt8) (length : ℕ)
  deriving DecidableEq, Repr

/-- A call, with the time at which it is made and whether the kernel heap has room for a node. -/
structure Call where
  op : Op
  clock : ℕ
  heap : Bool
  deriving DecidableEq, Repr

/-- Strings end at their first zero, a working directory is one that `vfs_abspath` has returned, and
buffers fit into the address space. -/
def Op.Valid : Op → Prop
  | .create cwd path _ => Strings cwd path ∧ CwdOk cwd
  | .writeFile path data => 0 ∉ path ∧ data.length ≤ bufferMax
  | .appendFile path data => 0 ∉ path ∧ data.length ≤ bufferMax
  | .unlink cwd path => Strings cwd path ∧ CwdOk cwd
  | .readFile path length => 0 ∉ path ∧ length ≤ bufferMax

def Mount.setClock (m : Mount) (clock : ℕ) : Mount := { m with fs := { m.fs with clock := clock } }

/-- The state after a call, whether it reported success, and the bytes it read. -/
def Call.run (c : Call) (m : Mount) : Mount × Bool × List UInt8 :=
  let m := m.setClock c.clock
  match c.op with
  | .create cwd path dir =>
    let r := Vfs.create m cwd path dir c.heap
    (r.1, r.2.isSome, [])
  | .writeFile path data =>
    let r := Vfs.writeFile m path data c.heap
    (r.1, r.2 == 0, [])
  | .appendFile path data =>
    let r := Vfs.appendFile m path data c.heap
    (r.1, r.2 == 0, [])
  | .unlink cwd path =>
    let r := Vfs.unlink m cwd path
    (r.1, r.2 == 0, [])
  | .readFile path length =>
    let r := Vfs.readFile m path length
    (m, r.isSome, r.getD [])

theorem Mount.Ok.setClock (h : m.Ok) (clock : ℕ) : (m.setClock clock).Ok :=
  ⟨⟨⟨h.sound.sound.geometry, h.sound.sound.owns, h.sound.sound.free_eq, h.sound.sound.synced⟩, h.sound.covered⟩,
    h.aligned, h.nodup, fun a ha => ⟨(h.nodes a ha).live, (h.nodes a ha).type_eq, (h.nodes a ha).size_eq⟩, h.root_dir⟩

/-- Every call keeps the invariant of the mounted file system, successful or not. -/
theorem Mount.Ok.run (h : m.Ok) (c : Call) (hv : c.op.Valid) : (c.run m).1.Ok := by
  have hm := h.setClock c.clock
  unfold Call.run
  cases hop : c.op with
  | create cwd path dir =>
    rw [hop] at hv
    exact (hm.create hv.1 dir c.heap).1
  | writeFile path data =>
    rw [hop] at hv
    exact (hm.writeFile hv.1 hv.2 c.heap).1
  | appendFile path data =>
    rw [hop] at hv
    exact (hm.appendFile hv.1 hv.2 c.heap).1
  | unlink cwd path =>
    dsimp only
    rcases unlink_cases (m.setClock c.clock) cwd path with ⟨code, -, he⟩ | ⟨names, parent, a, child, _, hc, -, -, -, he⟩
    · rw [he]
      exact hm
    · rw [he]
      exact (hm.unlink hc).ok
  | readFile path length => exact hm

/-! ## What the calls mean -/

/-- The path a call names. -/
def Op.path : Op → List Name
  | .create cwd path _ => (canon cwd path).getD []
  | .writeFile path _ => (canon none path).getD []
  | .appendFile path _ => (canon none path).getD []
  | .unlink cwd path => (canon cwd path).getD []
  | .readFile path _ => (canon none path).getD []

def Content.bytes : Content → List UInt8
  | .dir => []
  | .file bytes => bytes

/-- The bytes at a path. -/
def Model.bytes (M : Model) (path : List Name) : List UInt8 := ((M path).map Content.bytes).getD []

/-- The map after a call that succeeded. -/
def Op.apply (op : Op) (M : Model) : Model :=
  match op with
  | .create _ _ dir => Function.update M op.path (some (if dir then .dir else .file []))
  | .writeFile _ data => Function.update M op.path (some (.file data))
  | .appendFile _ data => Function.update M op.path (some (.file (M.bytes op.path ++ data)))
  | .unlink _ _ => fun q => if op.path <+: q then none else M q
  | .readFile _ _ => M

/-- The bytes that a call reads. -/
def Op.reads (op : Op) (M : Model) : List UInt8 :=
  match op with
  | .readFile _ length => (M.bytes op.path).take length
  | _ => []

/-- The paths a call may change. -/
def Op.Touches (op : Op) (q : List Name) : Prop :=
  match op with
  | .unlink _ _ => op.path <+: q
  | .readFile _ _ => False
  | _ => q = op.path

/-- A mounted file system in which every path names at most one node. -/
structure Mount.Consistent (m : Mount) : Prop where
  ok : m.Ok
  distinct : m.all.Distinct

theorem contentOf_congr {f f' : Fs} {touched : ℕ → Prop} (ha : NodeOk f a) (hc : Changes touched f f')
    (h : a.dir = false → ¬touched a.inode) : contentOf f' a = contentOf f a := by
  unfold contentOf
  cases hd : a.dir with
  | true => rfl
  | false => rw [hc.bytes a.inode (h hd) ha.live]

theorem look_follow (h : look (a, t) q = some b) : ∃ child, follow (a, t) q = some (b, child) := by
  obtain ⟨⟨b', child⟩, hf, rfl⟩ := Option.map_eq_some_iff.mp h
  exact ⟨child, hf⟩

/-- The map after a file was written. -/
theorem model_of_resized (h : m.Ok) {names : List Name} (hf : follow (m.root, m.tree) names = some (a, child))
    (hfile : a.dir = false) (hr : Resized m a m') :
    m'.model = Function.update m.model names (some (.file (m'.fs.bytes a.inode))) := by
  obtain ⟨s, hfollow⟩ := hr.follow
  funext q
  have hlook : look (m'.root, m'.tree) q = (look (m.root, m.tree) q).map (setSize a.inode s) := by
    unfold look
    rw [hfollow q, Option.map_map, Option.map_map]
    rfl
  unfold Mount.model
  rw [hlook]
  by_cases hq : q = names
  · subst hq
    have hl : look (m.root, m.tree) q = some a := by
      unfold look
      rw [hf]
      rfl
    rw [hl, Function.update_self]
    simp [contentOf, hfile]
  · rw [Function.update_of_ne hq]
    cases hl : look (m.root, m.tree) q with
    | none => rfl
    | some b =>
      obtain ⟨cb, hfb⟩ := look_follow hl
      have hne : b.inode ≠ a.inode := fun he => hq (path_unique h.nodup hfb hf he)
      have hset : setSize a.inode s b = b := if_neg hne
      rw [Option.map_some, Option.map_some, Option.map_some, hset,
        contentOf_congr (h.node hfb) hr.changes (fun _ => hne)]

theorem Resized.distinct (hd : m.all.Distinct) (hr : Resized m a m') : m'.all.Distinct := by
  obtain ⟨s, hs⟩ := hr.all
  rw [hs]
  exact hd.mapAttrs (setSize_name a.inode s)

/-- The map after a node was linked. -/
theorem model_of_linked (h : m.Ok) (hf : follow (m.root, m.tree) p = some (parent, children)) (hdir : parent.dir = true)
    (hnew : children.find new.name = none) (hl : Linked m parent new m') :
    m'.model = Function.update m.model (p ++ [new.name]) (some (if new.dir then .dir else .file [])) := by
  obtain ⟨hr, ht, -⟩ := Forest.node.inj hl.all
  have htree : m'.tree = linkBelow parent.inode new m.root m.tree := ht
  funext q
  unfold Mount.model
  rw [hr, htree, look_linkBelow h.nodup hf hdir hnew]
  by_cases hq : q = p ++ [new.name]
  · rw [if_pos hq, hq, Function.update_self, Option.map_some, contentOf, hl.bytes]
  · rw [if_neg hq, Function.update_of_ne hq]
    cases hlook : look (m.root, m.tree) q with
    | none => rfl
    | some b =>
      obtain ⟨cb, hfb⟩ := look_follow hlook
      rw [Option.map_some, Option.map_some, contentOf_congr (h.node hfb) hl.changes (fun hb => ?_)]
      refine not_or.mpr ⟨fun he => hl.fresh (he ▸ mem_inodes (follow_mem hfb).1), fun he => ?_⟩
      obtain rfl := eq_of_inode h.nodup (follow_mem hfb).1 (follow_mem hf).1 he
      rw [hdir] at hb
      cases hb

theorem Found.of_root {r : Attrs} (hf : follow (r, t) p = some (a, child)) : ∃ path, Found a child (.node r t .nil) path := by
  cases p with
  | nil =>
    obtain ⟨rfl, rfl⟩ := Prod.mk.inj (Option.some.inj hf)
    exact ⟨_, .here .nil⟩
  | cons n p => exact ⟨_, .down .nil (found_of_follow hf)⟩

theorem Linked.distinct (h : m.Ok) (hd : m.all.Distinct) (hf : follow (m.root, m.tree) p = some (parent, children))
    (hnew : children.find new.name = none) (hl : Linked m parent new m') : m'.all.Distinct := by
  obtain ⟨path, hfound⟩ := Found.of_root hf
  rw [hl.all]
  exact hd.linkAt h.nodup hfound hnew

/-- The map after a node was removed. -/
theorem model_of_unlinked (h : m.Consistent) {names : List Name} (hc : UnlinkCall m names parent a child)
    (hu : Unlinked m parent a child m') : m'.model = fun q => if names <+: q then none else m.model q := by
  obtain ⟨children, name, hpf, -, hpdir, -⟩ := hc.child_of
  funext q
  unfold Mount.model
  rw [hu.root, hu.tree, look_dropNode h.ok.nodup h.distinct.2.1 hc.not_root hc.found]
  by_cases hq : names <+: q
  · rw [if_pos hq, if_pos hq]
    rfl
  · rw [if_neg hq, if_neg hq]
    cases hlook : look (m.root, m.tree) q with
    | none => rfl
    | some b =>
      obtain ⟨cb, hfb⟩ := look_follow hlook
      -- the node is still there, so its number is none of those that went
      have hstay : b ∈ m'.all.attrs := by
        have := look_dropNode h.ok.nodup h.distinct.2.1 hc.not_root hc.found q
        rw [if_neg hq, hlook, ← hu.tree, ← hu.root] at this
        obtain ⟨cb', hfb'⟩ := look_follow this
        exact (follow_mem hfb').1
      rw [Option.map_some, Option.map_some, contentOf_congr (h.ok.node hfb) hu.changes (fun hb => ?_)]
      refine not_or.mpr ⟨fun hx => hu.free b.inode hx (hu.ok.nodes b hstay).live, fun he => ?_⟩
      obtain rfl := eq_of_inode h.ok.nodup (follow_mem hfb).1 (follow_mem hpf).1 he
      rw [hpdir] at hb
      cases hb

/-! ## One call -/

theorem canon_of_lookup {cwd : Option (List UInt8)} {s : List UInt8} {names : List Name}
    (h : lookup m cwd s = some (names, a, child)) : canon cwd s = some names := by
  obtain ⟨-, absolute, habs, rfl⟩ := lookup_follow h
  unfold canon
  rw [habs, Option.map_some]

theorem model_of_follow {names : List Name} (h : follow (m.root, m.tree) names = some (a, child)) :
    m.model names = some (contentOf m.fs a) := by
  unfold Mount.model look
  rw [h]
  rfl

theorem model_of_lookup_none {cwd : Option (List UInt8)} {s : List UInt8} {names : List Name}
    (h : lookup m cwd s = none) (hc : canon cwd s = some names) : m.model names = none := by
  obtain ⟨absolute, habs, rfl⟩ := Option.map_eq_some_iff.mp hc
  rw [lookup_eq, habs, Option.bind_some, Option.map_eq_none_iff] at h
  unfold Mount.model look
  rw [h]
  rfl

theorem cwdOk_none : CwdOk none := fun _ h => by cases h

/-- A successful `vfs_create`. -/
theorem Mount.Consistent.create (h : m.Consistent) {cwd : Option (List UInt8)} {s : List UInt8} (hs : Strings cwd s)
    (hcwd : CwdOk cwd) {dir heap : Bool} {names : List Name} (hr : (Vfs.create m cwd s dir heap).2 = some names) :
    (Vfs.create m cwd s dir heap).1.Consistent ∧ canon cwd s = some names ∧
      (Vfs.create m cwd s dir heap).1.model = Function.update m.model names (some (if dir then .dir else .file [])) := by
  obtain ⟨parentPath, parent, children, name, number, hc, rfl, hl⟩ := (h.ok.create hs dir heap).2 names hr
  exact ⟨⟨hl.ok, hl.distinct h.ok h.distinct hc.found hc.missing⟩, hc.canon hcwd,
    model_of_linked h.ok hc.found hc.dir hc.missing hl⟩

/-- The file that a call goes on with, and the bytes it has. -/
theorem Mount.Consistent.opened (h : m.Consistent) {s : List UInt8} (hs : 0 ∉ s) {heap : Bool} {m₁ : Mount}
    {names : List Name} (ho : Opened m s heap m₁ names a) (hfile : a.dir = false) :
    m₁.Consistent ∧ canon none s = some names ∧ m₁.fs.bytes a.inode = m.model.bytes names ∧
      ∀ content, Function.update m₁.model names (some content) = Function.update m.model names (some content) := by
  obtain ⟨child, hf⟩ := ho.found
  have hcontent : contentOf m₁.fs a = .file (m₁.fs.bytes a.inode) := by
    unfold contentOf
    rw [hfile]
    rfl
  rcases ho.origin with ⟨rfl, child', hlook⟩ | ⟨hlook, hm₁, hnames⟩
  · refine ⟨h, canon_of_lookup hlook, ?_, fun _ => rfl⟩
    unfold Model.bytes
    rw [model_of_follow hf, hcontent]
    rfl
  · obtain ⟨hcons, hcanon, hmodel⟩ := h.create (strings_none hs) cwdOk_none hnames
    rw [hm₁] at hcons hmodel
    refine ⟨hcons, hcanon, ?_, fun content => ?_⟩
    · have hnew := model_of_follow hf
      rw [hmodel, Function.update_self, hcontent] at hnew
      unfold Model.bytes
      rw [model_of_lookup_none hlook hcanon]
      exact (Content.file.inj (Option.some.inj hnew)).symm
    · rw [hmodel, Function.update_idem]

/-- The map after the file that was opened got new bytes. -/
theorem Mount.Consistent.stored (h : m.Consistent) {s : List UInt8} (hs : 0 ∉ s) {heap : Bool} {m₁ : Mount}
    {names : List Name} (ho : Opened m s heap m₁ names a) {data : List UInt8} (hst : Stored m₁ names a data m') :
    m'.Consistent ∧ canon none s = some names ∧ m'.model = Function.update m.model names (some (.file data)) := by
  obtain ⟨hcons, hcanon, -, hupdate⟩ := h.opened hs ho hst.file
  obtain ⟨child, hf⟩ := ho.found
  have hmodel := model_of_resized ho.ok hf hst.file hst.resized
  rw [hst.bytes, hupdate] at hmodel
  exact ⟨⟨hst.resized.ok, hst.resized.distinct hcons.distinct⟩, hcanon, hmodel⟩

/-- A successful call does to the map what it says. -/
theorem Mount.Consistent.run (h : m.Consistent) (c : Call) (hv : c.op.Valid) (hr : (c.run m).2.1 = true) :
    (c.run m).1.Consistent ∧ (c.run m).1.model = c.op.apply m.model ∧ (c.run m).2.2 = c.op.reads m.model := by
  have hm : (m.setClock c.clock).Consistent := ⟨h.ok.setClock c.clock, h.distinct⟩
  have hmodel : (m.setClock c.clock).model = m.model := rfl
  unfold Call.run at hr ⊢
  cases hop : c.op with
  | create cwd path dir =>
    rw [hop] at hv hr
    obtain ⟨names, hn⟩ := Option.isSome_iff_exists.mp hr
    obtain ⟨hcons, hcanon, he⟩ := hm.create hv.1 hv.2 hn
    refine ⟨hcons, ?_, rfl⟩
    rw [hmodel] at he
    simp only [Op.apply, Op.path, hcanon, Option.getD_some]
    exact he
  | writeFile path data =>
    rw [hop] at hv hr
    obtain ⟨m₁, names, a, ho, hst⟩ := (hm.ok.writeFile hv.1 hv.2 c.heap).2 (by simpa using hr)
    obtain ⟨hcons, hcanon, he⟩ := hm.stored hv.1 ho hst
    refine ⟨hcons, ?_, rfl⟩
    rw [hmodel] at he
    simp only [Op.apply, Op.path, hcanon, Option.getD_some]
    exact he
  | appendFile path data =>
    rw [hop] at hv hr
    obtain ⟨m₁, names, a, ho, hst⟩ := (hm.ok.appendFile hv.1 hv.2 c.heap).2 (by simpa using hr)
    obtain ⟨hcons, hcanon, he⟩ := hm.stored hv.1 ho hst
    obtain ⟨-, -, hbytes, -⟩ := hm.opened hv.1 ho hst.file
    refine ⟨hcons, ?_, rfl⟩
    rw [hmodel, hbytes, hmodel] at he
    simp only [Op.apply, Op.path, hcanon, Option.getD_some]
    exact he
  | unlink cwd path =>
    rw [hop] at hr
    dsimp only at hr ⊢
    rcases unlink_cases (m.setClock c.clock) cwd path with
      ⟨code, hne, he⟩ | ⟨names, parent, a, child, absolute, hc, -, habs, hnames, he⟩
    · rw [he] at hr
      exact absurd (by simpa using hr) hne
    · rw [he]
      have hu := hm.ok.unlink hc
      have hcanon : canon cwd path = some names := by
        unfold canon
        rw [habs, Option.map_some, hnames]
      have hdist : Forest.Distinct (Forest.node m.root (m.tree.dropNode a.inode) .nil) :=
        ⟨rfl, h.distinct.2.1.dropNode a.inode, trivial⟩
      refine ⟨⟨hu.ok, ?_⟩, ?_, rfl⟩
      · unfold Volume.all
        rw [hu.root, hu.tree]
        exact hdist
      · rw [model_of_unlinked hm hc hu, hmodel]
        simp only [Op.apply, Op.path, hcanon, Option.getD_some]
  | readFile path length =>
    rw [hop] at hv hr
    dsimp only at hr ⊢
    refine ⟨hm, rfl, ?_⟩
    obtain ⟨bytes, hread⟩ := Option.isSome_iff_exists.mp hr
    have hsaved := hread
    unfold Vfs.readFile at hread
    obtain ⟨⟨names, a, child⟩, hlook, hread⟩ := Option.bind_eq_some_iff.mp hread
    have hf := (lookup_follow hlook).1
    have ha := hm.ok.node hf
    dsimp only at hread
    split at hread
    · cases hread
    · rename_i hfile
      have hlen := hv.2
      unfold bufferMax at hlen
      rw [Fs.fileRead_eq ha.live.1 (Inode.Covered.of_live hm.ok.sound ha.live).size_le (by omega), List.drop_zero] at hread
      rw [hsaved, Option.getD_some, ← Option.some.inj hread]
      simp only [Op.reads, Op.path, canon_of_lookup hlook, Option.getD_some, Model.bytes]
      have hcontent := model_of_follow hf
      rw [hmodel] at hcontent
      rw [hcontent]
      simp [contentOf, hfile, Content.bytes]

/-! ## Runs -/

/-- The calls one after the other, if all of them report success: the state at the end and the bytes
each of them read. -/
def execute (m : Mount) : List Call → Option (Mount × List (List UInt8))
  | [] => some (m, [])
  | c :: rest =>
    if (c.run m).2.1 then (execute (c.run m).1 rest).map (fun s => (s.1, (c.run m).2.2 :: s.2)) else none

/-- The same calls on the map. -/
def interpret (M : Model) : List Op → Model × List (List UInt8)
  | [] => (M, [])
  | op :: rest => ((interpret (op.apply M) rest).1, op.reads M :: (interpret (op.apply M) rest).2)

theorem Mount.Consistent.execute {calls : List Call} {outputs : List (List UInt8)} (h : m.Consistent)
    (hv : ∀ c ∈ calls, c.op.Valid) (he : Vfs.execute m calls = some (m', outputs)) :
    m'.Consistent ∧ interpret m.model (calls.map Call.op) = (m'.model, outputs) := by
  induction calls generalizing m outputs with
  | nil =>
    obtain ⟨rfl, rfl⟩ := Prod.mk.inj (Option.some.inj he)
    exact ⟨h, rfl⟩
  | cons c rest ih =>
    unfold Vfs.execute at he
    split at he
    · rename_i hr
      obtain ⟨⟨m₁, outs⟩, hrest, he⟩ := Option.map_eq_some_iff.mp he
      obtain ⟨rfl, rfl⟩ := Prod.mk.inj he
      obtain ⟨hcons, hmodel, hreads⟩ := h.run c (hv c List.mem_cons_self) hr
      obtain ⟨h₁, h₂⟩ := ih hcons (fun d hd => hv d (List.mem_cons_of_mem _ hd)) hrest
      refine ⟨h₁, ?_⟩
      rw [List.map_cons, interpret, ← hmodel, h₂, hreads]
    · cases he

theorem Op.apply_of_not_touches {op : Op} {M : Model} {q : List Name} (h : ¬op.Touches q) : op.apply M q = M q := by
  cases op with
  | create cwd path dir => exact Function.update_of_ne h _ _
  | writeFile path data => exact Function.update_of_ne h _ _
  | appendFile path data => exact Function.update_of_ne h _ _
  | unlink cwd path => exact if_neg h
  | readFile path length => rfl

end SifarOS.Vfs
