import SifarOS.VfsTree
import SifarOS.SifarFsDirs

/-! # A mounted file system

Every node of the tree has an allocated inode of its own, of its type, and a file's node knows the
size of the file. The operations of the VFS keep this, whether they succeed or not. -/
namespace SifarOS.Vfs
open ByteMemory SifarFs Forest

variable {f f' : Fs} {m m' : Mount} {a b : Attrs} {child t : Forest} {path : List Name}

structure NodeOk (f : Fs) (a : Attrs) : Prop where
  live : f.Live a.inode
  type_eq : (f.inodeAt a.inode).type = typeOf a.dir
  size_eq : a.dir = false → a.size = (f.inodeAt a.inode).size

/-- Directories consist of whole entries. -/
def Aligned (f : Fs) : Prop := ∀ n, f.Live n → (f.inodeAt n).type = typeDir → (f.inodeAt n).size % 64 = 0

structure Mount.Ok (m : Mount) : Prop where
  sound : m.fs.Sound
  aligned : Aligned m.fs
  nodup : m.all.inodes.Nodup
  nodes : ∀ a ∈ m.all.attrs, NodeOk m.fs a
  root_dir : m.root.dir = true

theorem Mount.Ok.count_lt (h : m.Ok) : m.fs.super.inodeCount < 4294967296 := by
  have hword : m.fs.super.word 8 < 4294967296 := by
    rw [← h.sound.sound.synced 8 (by decide)]
    exact load32_lt _ _
  exact hword

theorem NodeOk.congr {touched : ℕ → Prop} (h : NodeOk f a) (hc : Changes touched f f') (ha : ¬touched a.inode) :
    NodeOk f' a := by
  have hi := hc.inodeAt a.inode ha h.live.1
  exact ⟨(hc.live ha).mpr h.live, by rw [hi]; exact h.type_eq, by rw [hi]; exact h.size_eq⟩

/-! ## Changing the size of a file -/

def setSize (x s : ℕ) (b : Attrs) : Attrs := if b.inode = x then { b with size := s } else b

@[simp] theorem setSize_inode (x s : ℕ) (b : Attrs) : (setSize x s b).inode = b.inode := by
  unfold setSize
  split <;> rfl

@[simp] theorem setSize_dir (x s : ℕ) (b : Attrs) : (setSize x s b).dir = b.dir := by
  unfold setSize
  split <;> rfl

@[simp] theorem setSize_name (x s : ℕ) (b : Attrs) : (setSize x s b).name = b.name := by
  unfold setSize
  split <;> rfl

theorem inodes_mapAttrs {g : Attrs → Attrs} (hg : ∀ a, (g a).inode = a.inode) (t : Forest) :
    (t.mapAttrs g).inodes = t.inodes := by
  unfold inodes
  rw [attrs_mapAttrs, List.map_map]
  exact List.map_congr_left (fun a _ => hg a)

theorem all_modify_size (h : m.all.inodes.Nodup) (hf : follow (m.root, m.tree) path = some (a, child)) (f' : Fs) (s : ℕ) :
    (Volume.modify { m with fs := f' } path (fun b c => ({ b with size := s }, c))).all = m.all.mapAttrs (setSize a.inode s) ∧
    (Volume.modify { m with fs := f' } path (fun b c => ({ b with size := s }, c))).fs = f' := by
  have := node_modifyNode_size h hf s
  cases path <;> exact ⟨this, rfl⟩

theorem Mount.Ok.node (h : m.Ok) (hf : follow (m.root, m.tree) path = some (a, child)) : NodeOk m.fs a :=
  h.nodes a (follow_mem hf).1

/-- No two nodes have one inode. -/
theorem eq_of_inode {t : Forest} (h : t.inodes.Nodup) (ha : a ∈ t.attrs) (hb : b ∈ t.attrs) (he : a.inode = b.inode) : a = b :=
  List.inj_on_of_nodup_map h ha hb he

/-- What an operation on the file of node `a` leaves. -/
structure Resized (m : Mount) (a : Attrs) (m' : Mount) : Prop where
  ok : m'.Ok
  changes : Changes (· = a.inode) m.fs m'.fs
  all : ∃ s, m'.all = m.all.mapAttrs (setSize a.inode s)

theorem Mount.Ok.resize (h : m.Ok) (hf : follow (m.root, m.tree) path = some (a, child)) (hfile : a.dir = false)
    (hs : f'.Sound) (hc : Changes (· = a.inode) m.fs f') (hk : SameKind (m.fs.inodeAt a.inode) (f'.inodeAt a.inode))
    {s : ℕ} (hsize : s = (f'.inodeAt a.inode).size) :
    Resized m a (Volume.modify { m with fs := f' } path (fun b c => ({ b with size := s }, c))) := by
  obtain ⟨hall, hfs⟩ := all_modify_size h.nodup hf f' s
  have ha := h.node hf
  generalize Volume.modify { m with fs := f' } path (fun b c => ({ b with size := s }, c)) = m' at hall hfs ⊢
  subst hfs
  have hlive : m'.fs.Live a.inode := ⟨(hc.numbered _).mpr ha.live.1, hk.1.trans_ne ha.live.2⟩
  have hroot : m'.root = setSize a.inode s m.root := by
    have := hall
    unfold Volume.all mapAttrs at this
    exact (Forest.node.inj this).1
  refine ⟨⟨hs, fun n hn ht => ?_, ?_, fun b hb => ?_, ?_⟩, hc, s, hall⟩
  · by_cases hna : n = a.inode
    · subst hna
      rw [hk.1, ha.type_eq, hfile] at ht
      cases ht
    · have hln := (hc.live (m := n) hna).mp hn
      rw [hc.inodeAt n hna hln.1] at ht ⊢
      exact h.aligned n hln ht
  · rw [hall, inodes_mapAttrs (setSize_inode a.inode s)]
    exact h.nodup
  · rw [hall, attrs_mapAttrs] at hb
    obtain ⟨b₀, hb₀, rfl⟩ := List.mem_map.mp hb
    by_cases he : b₀.inode = a.inode
    · obtain rfl := eq_of_inode h.nodup hb₀ (follow_mem hf).1 he
      rw [show setSize b₀.inode s b₀ = { b₀ with size := s } from if_pos rfl]
      exact ⟨hlive, hk.1.trans ha.type_eq, fun _ => hsize⟩
    · rw [show setSize a.inode s b₀ = b₀ from if_neg he]
      exact (h.nodes b₀ hb₀).congr hc he
  · rw [hroot, setSize_dir]
    exact h.root_dir

/-! ## Writing and emptying a file -/

/-- What `vfs_write` leaves, for a file that may be written. -/
structure WroteFile (m : Mount) (a : Attrs) (offset : ℕ) (data : List UInt8) (r : Mount × ℤ) : Prop where
  resized : Resized m a r.1
  kind : SameKind (m.fs.inodeAt a.inode) (r.1.fs.inodeAt a.inode)
  bytes : ∃ written : ℕ, r.2 = written ∧ written ≤ data.length ∧
    r.1.fs.bytes a.inode = splice (m.fs.bytes a.inode) offset (data.take written)

theorem Mount.Ok.write (h : m.Ok) (hf : follow (m.root, m.tree) path = some (a, child)) {offset : ℕ}
    (ho : offset ≤ a.size) (data : List UInt8) (hfile : a.dir = false) (hro : a.readonly = false) :
    WroteFile m a offset data (Vfs.write m path a offset data) := by
  have ha := h.node hf
  have hsize := ha.size_eq hfile
  obtain ⟨written, hres, hw⟩ := h.sound.fileWrite ha.live (show offset ≤ (m.fs.inodeAt a.inode).size by omega) data
  have hcov := (Inode.Covered.of_live hw.sound (hw.live ha.live)).size_le
  have hlen : ((m.fs.fileWrite a.inode offset data).1.inodeAt a.inode).size = max a.size (offset + written) := by
    rw [← Fs.length_bytes, hw.bytes, length_splice (by rw [Fs.length_bytes]; omega) _, Fs.length_bytes, List.length_take,
      Nat.min_eq_left hw.written_le, hsize]
  have hnew : (if 0 < (m.fs.fileWrite a.inode offset data).2 ∧
      a.size < u32 (offset + (m.fs.fileWrite a.inode offset data).2.toNat) then
        u32 (offset + (m.fs.fileWrite a.inode offset data).2.toNat) else a.size) =
      ((m.fs.fileWrite a.inode offset data).1.inodeAt a.inode).size := by
    rw [hlen, hres, Int.toNat_natCast, u32_of_lt (by omega)]
    split <;> omega
  rw [write_eq]
  rw [if_neg (by rw [hfile]; decide), if_neg (by rw [hro]; decide)]
  dsimp only
  rw [hnew]
  have hr := h.resize hf hfile hw.sound hw.changes hw.kind rfl
  have hfs := (all_modify_size h.nodup hf (m.fs.fileWrite a.inode offset data).1
    ((m.fs.fileWrite a.inode offset data).1.inodeAt a.inode).size).2
  exact ⟨hr, by rw [hfs]; exact hw.kind, written, hres, hw.written_le, by rw [hfs]; exact hw.bytes⟩

/-- What `vfs_truncate` leaves of a file that may be written. -/
structure TruncatedFile (m : Mount) (a : Attrs) (r : Mount × Bool) : Prop where
  resized : Resized m a r.1
  kind : SameKind (m.fs.inodeAt a.inode) (r.1.fs.inodeAt a.inode)
  bytes : r.1.fs.bytes a.inode = []
  done : r.2 = true

theorem Mount.Ok.truncate (h : m.Ok) (hf : follow (m.root, m.tree) path = some (a, child)) (hfile : a.dir = false)
    (hro : a.readonly = false) : TruncatedFile m a (Vfs.truncate m path a 0) := by
  have ha := h.node hf
  obtain ⟨hdone, he⟩ := h.sound.fileTruncate ha.live
  have hsize : 0 = ((m.fs.fileTruncate a.inode 0).1.inodeAt a.inode).size := by
    rw [← Fs.length_bytes, he.bytes]
    rfl
  rw [truncate_eq]
  rw [if_neg (by simp [hfile, hro])]
  dsimp only
  rw [hdone, if_pos rfl]
  have hr := h.resize hf hfile he.sound he.changes he.kind hsize
  have hfs := (all_modify_size h.nodup hf (m.fs.fileTruncate a.inode 0).1 0).2
  exact ⟨hr, by rw [hfs]; exact he.kind, by rw [hfs]; exact he.bytes, rfl⟩

/-- The node of the file that was changed is found again. -/
theorem follow_mapAttrs {g : Attrs → Attrs} (hn : ∀ a, (g a).name = a.name) (hd : ∀ a, (g a).dir = a.dir) {r : Attrs} :
    follow (g r, t.mapAttrs g) path = (follow (r, t) path).map (fun p => (g p.1, p.2.mapAttrs g)) := by
  induction path generalizing r t with
  | nil => rfl
  | cons name rest ih =>
    simp only [follow, hd, find_mapAttrs hn]
    split
    · cases t.find name with
      | none => rfl
      | some p => exact ih
    · rfl

theorem Resized.follow (h : Resized m a m') : ∃ s, ∀ path, Vfs.follow (m'.root, m'.tree) path =
    (Vfs.follow (m.root, m.tree) path).map (fun p => (setSize a.inode s p.1, p.2.mapAttrs (setSize a.inode s))) := by
  obtain ⟨s, hall⟩ := h.all
  obtain ⟨hr, ht, -⟩ := Forest.node.inj hall
  refine ⟨s, fun path => ?_⟩
  rw [hr, ht]
  exact follow_mapAttrs (setSize_name a.inode s) (setSize_dir a.inode s)

/-! ## Creating a node -/

theorem size_of_bytes {n : ℕ} (h : f.bytes n = []) : (f.inodeAt n).size = 0 := by
  rw [← Fs.length_bytes, h]
  rfl

/-- The nodes of the tree after `op_create`, and the new inode. -/
theorem Mount.Ok.opCreated (h : m.Ok) {parent : Attrs} (hp : parent ∈ m.all.attrs) (hdir : parent.dir = true)
    {number : ℕ} {name : Name} {dir : Bool} {r : Fs × Option ℕ} (hr : OpCreated parent.inode number name dir m.fs r) :
    number ∉ m.all.inodes ∧ Aligned r.1 ∧ (∀ a ∈ m.all.attrs, NodeOk r.1 a) ∧
      NodeOk r.1 { name := name, dir := dir, readonly := false, size := 0, inode := number } := by
  have hpo := h.nodes parent hp
  have hnum : r.1.Live number := ⟨(hr.changes.numbered _).mpr hr.numbered, hr.type_eq.trans_ne (typeOf_ne_free dir)⟩
  refine ⟨fun hin => ?_, fun n hn ht => ?_, fun a ha => ?_, hnum, hr.type_eq, fun _ => (size_of_bytes hr.bytes_eq).symm⟩
  · obtain ⟨a, ha, he⟩ := List.mem_map.mp hin
    exact hr.free (he ▸ (h.nodes a ha).live)
  · by_cases hn₁ : n = number
    · rw [hn₁, size_of_bytes hr.bytes_eq]
    by_cases hn₂ : n = parent.inode
    · rw [hn₂]
      exact hr.aligned
    · have hnot : ¬(n = number ∨ n = parent.inode) := not_or.mpr ⟨hn₁, hn₂⟩
      have hln := (hr.changes.live (m := n) hnot).mp hn
      rw [hr.changes.inodeAt n hnot hln.1] at ht ⊢
      exact h.aligned n hln ht
  · have hao := h.nodes a ha
    by_cases he : a.inode = parent.inode
    · obtain rfl := eq_of_inode h.nodup ha hp he
      refine ⟨⟨(hr.changes.numbered _).mpr hao.live.1, hr.kind.1.trans_ne hao.live.2⟩, hr.kind.1.trans hao.type_eq, ?_⟩
      rw [hdir]
      exact fun hc => by cases hc
    · refine hao.congr hr.changes (not_or.mpr ⟨fun hc => hr.free (hc ▸ hao.live), he⟩)

theorem all_modify_link (h : m.all.inodes.Nodup) (hf : follow (m.root, m.tree) path = some (a, child)) (f' : Fs) (new : Attrs) :
    (Volume.modify { m with fs := f' } path (fun b c => (b, c.link new .nil))).all = m.all.linkAt a.inode new ∧
    (Volume.modify { m with fs := f' } path (fun b c => (b, c.link new .nil))).fs = f' := by
  have := node_modifyNode_link h hf new
  cases path <;> exact ⟨this, rfl⟩

/-- A new node was linked below `parent`. -/
structure Linked (m : Mount) (parent new : Attrs) (m' : Mount) : Prop where
  ok : m'.Ok
  changes : Changes (fun x => x = new.inode ∨ x = parent.inode) m.fs m'.fs
  fresh : new.inode ∉ m.all.inodes
  all : m'.all = m.all.linkAt parent.inode new
  bytes : m'.fs.bytes new.inode = []
  created : OpCreated parent.inode new.inode new.name new.dir m.fs (m'.fs, some new.inode)

theorem Mount.Ok.link (h : m.Ok) {parent : Attrs} (hf : follow (m.root, m.tree) path = some (parent, child))
    (hdir : parent.dir = true) {number : ℕ} {name : Name} {dir : Bool}
    (hr : OpCreated parent.inode number name dir m.fs (f', some number)) :
    Linked m parent { name := name, dir := dir, readonly := false, size := 0, inode := number }
      (Volume.modify { m with fs := f' } path (fun b c =>
        (b, c.link { name := name, dir := dir, readonly := false, size := 0, inode := number } .nil))) := by
  have hp := (follow_mem hf).1
  obtain ⟨hfresh, haligned, hnodes, hnew⟩ := h.opCreated hp hdir hr
  obtain ⟨hall, hfs⟩ := all_modify_link h.nodup hf f' { name := name, dir := dir, readonly := false, size := 0, inode := number }
  generalize Volume.modify { m with fs := f' } path (fun b c =>
    (b, c.link { name := name, dir := dir, readonly := false, size := 0, inode := number } .nil)) = m' at hall hfs ⊢
  subst hfs
  have hperm := attrs_linkAt (mem_inodes hp) h.nodup { name := name, dir := dir, readonly := false, size := 0, inode := number }
  have hroot : m'.root = m.root := by
    have := hall
    unfold Volume.all linkAt at this
    exact (Forest.node.inj this).1
  refine ⟨⟨hr.sound, haligned, ?_, fun a ha => ?_, by rw [hroot]; exact h.root_dir⟩, hr.changes, hfresh, hall, hr.bytes_eq, hr⟩
  · rw [hall]
    refine (hperm.map Attrs.inode).nodup_iff.mpr ?_
    rw [List.map_cons]
    exact List.nodup_cons.mpr ⟨hfresh, h.nodup⟩
  · rw [hall] at ha
    rcases List.mem_cons.mp (hperm.mem_iff.mp ha) with rfl | ha
    · exact hnew
    · exact hnodes a ha

/-- What `vfs_create` does. -/
theorem create_cases (m : Mount) (cwd : Option (List UInt8)) (p : List UInt8) (dir heap : Bool) :
    create m cwd p dir heap = (m, none) ∨
    ∃ parentPath parent children name, CreateCall m cwd p parentPath parent children name ∧
      (((m.fs.opCreate parent.inode name dir).2 = none ∧
          create m cwd p dir heap = ({ m with fs := (m.fs.opCreate parent.inode name dir).1 }, none)) ∨
        ∃ number, (m.fs.opCreate parent.inode name dir).2 = some number ∧
          create m cwd p dir heap =
            (Volume.modify { m with fs := (m.fs.opCreate parent.inode name dir).1 } parentPath (fun a c =>
              (a, c.link { name := name, dir := dir, readonly := false, size := 0, inode := number } .nil)),
            some (parentPath ++ [name]))) :=
  Volume.create_cases sfsOps (.ofHeap heap) m cwd p dir

/-! ## The bytes of names -/

theorem mem_segmentsFrom {s : List UInt8} {name seg : Name} (h : seg ∈ segmentsFrom s name) {c : UInt8} (hc : c ∈ seg) :
    c ∈ s ∨ c ∈ name := by
  induction s generalizing name with
  | nil =>
    unfold segmentsFrom at h
    split at h
    · cases h
    · rw [List.mem_singleton] at h
      exact Or.inr (h ▸ hc)
  | cons d rest ih =>
    unfold segmentsFrom at h
    split at h
    · split at h
      · rcases ih h with hr | hr
        · exact Or.inl (List.mem_cons_of_mem _ hr)
        · cases hr
      · rcases List.mem_cons.mp h with rfl | h
        · exact Or.inr hc
        · rcases ih h with hr | hr
          · exact Or.inl (List.mem_cons_of_mem _ hr)
          · cases hr
    · rcases ih h with hr | hr
      · exact Or.inl (List.mem_cons_of_mem _ hr)
      · rcases List.mem_append.mp hr with hr | hr
        · exact Or.inr hr
        · rw [List.mem_singleton] at hr
          exact Or.inl (hr ▸ List.mem_cons_self)

theorem splitLast_mem {s before name : List UInt8} (h : splitLast s = some (before, name)) :
    (∀ c ∈ before, c ∈ s) ∧ ∀ c ∈ name, c ∈ s := by
  unfold splitLast at h
  split at h
  · obtain ⟨h₁, h₂⟩ := Prod.mk.inj (Option.some.inj h)
    subst h₁ h₂
    refine ⟨fun c hc => List.mem_of_mem_take hc, fun c hc => ?_⟩
    rw [List.mem_reverse] at hc
    exact List.mem_reverse.mp ((List.takeWhile_sublist _).subset hc)
  · cases h

theorem pushSegment_mem {stack stack' : List UInt8} {seg : Name} (h : pushSegment stack seg = some stack') {c : UInt8}
    (hc : c ∈ stack') : c = slash ∨ c ∈ stack ∨ c ∈ seg := by
  unfold pushSegment at h
  split at h
  · exact Or.inr (Or.inl (Option.some.inj h ▸ hc))
  · split at h
    · cases hs : splitLast stack with
      | none =>
        rw [hs] at h
        exact Or.inr (Or.inl (Option.some.inj h ▸ hc))
      | some parts =>
        rw [hs] at h
        exact Or.inr (Or.inl ((splitLast_mem hs).1 c (Option.some.inj h ▸ hc)))
    · split at h
      · cases h
      · rw [← Option.some.inj h, List.mem_append, List.mem_cons] at hc
        rcases hc with hc | hc | hc
        · exact Or.inr (Or.inl hc)
        · exact Or.inl hc
        · exact Or.inr (Or.inr hc)

theorem foldlM_pushSegment_mem {segs : List Name} {stack stack' : List UInt8}
    (h : segs.foldlM pushSegment stack = some stack') {c : UInt8} (hc : c ∈ stack') :
    c = slash ∨ c ∈ stack ∨ ∃ seg ∈ segs, c ∈ seg := by
  induction segs generalizing stack with
  | nil =>
    rw [List.foldlM_nil] at h
    exact Or.inr (Or.inl (Option.some.inj h ▸ hc))
  | cons seg rest ih =>
    rw [List.foldlM_cons] at h
    obtain ⟨mid, h₁, h₂⟩ := Option.bind_eq_some_iff.mp h
    rcases ih h₂ with hs | hs | ⟨seg', hs, hc'⟩
    · exact Or.inl hs
    · rcases pushSegment_mem h₁ hs with hs | hs | hs
      · exact Or.inl hs
      · exact Or.inr (Or.inl hs)
      · exact Or.inr (Or.inr ⟨seg, List.mem_cons_self, hs⟩)
    · exact Or.inr (Or.inr ⟨seg', List.mem_cons_of_mem _ hs, hc'⟩)

theorem startOf_mem {cwd : Option (List UInt8)} {p start : List UInt8} (h : startOf cwd p = some start) {c : UInt8}
    (hc : c ∈ start) : ∃ dir, cwd = some dir ∧ c ∈ dir := by
  unfold startOf at h
  split at h
  · rw [← Option.some.inj h] at hc
    cases hc
  · rename_i dir
    refine ⟨dir, rfl, ?_⟩
    split at h
    · rw [← Option.some.inj h] at hc
      cases hc
    · split at h
      · cases h
      · split at h
        · rw [← Option.some.inj h] at hc
          exact (List.dropLast_sublist _).subset hc
        · exact Option.some.inj h ▸ hc

/-- A zero does not get into an absolute path. -/
theorem zero_not_mem_abspath {cwd : Option (List UInt8)} {p absolute : List UInt8} (h : abspath cwd p = some absolute)
    (hp : 0 ∉ p) (hcwd : ∀ dir, cwd = some dir → 0 ∉ dir) : 0 ∉ absolute := by
  intro hc
  unfold abspath at h
  obtain ⟨start, hs, h⟩ := Option.bind_eq_some_iff.mp h
  obtain ⟨stack, hf, h⟩ := Option.map_eq_some_iff.mp h
  have hstack : (0 : UInt8) ∈ stack := by
    split at h
    · rw [← h, List.mem_singleton] at hc
      exact absurd hc (by decide)
    · exact h ▸ hc
  rcases foldlM_pushSegment_mem hf hstack with h₀ | h₀ | ⟨seg, hseg, h₀⟩
  · exact absurd h₀ (by decide)
  · obtain ⟨dir, hd, hm⟩ := startOf_mem hs h₀
    exact hcwd dir hd hm
  · rcases mem_segmentsFrom hseg h₀ with hm | hm
    · exact hp hm
    · cases hm

/-- A working directory and a path are C strings. -/
def Strings (cwd : Option (List UInt8)) (p : List UInt8) : Prop := 0 ∉ p ∧ ∀ dir, cwd = some dir → 0 ∉ dir

theorem CreateCall.zero_not_mem {cwd : Option (List UInt8)} {p : List UInt8} {parent : Attrs} {name : Name}
    (h : CreateCall m cwd p path parent child name) (hs : Strings cwd p) : 0 ∉ name := by
  obtain ⟨absolute, before, habs, -, hsplit, -⟩ := h.split
  exact fun hc => zero_not_mem_abspath habs hs.1 hs.2 ((splitLast_mem hsplit).2 0 hc)

/-! ## What the operations leave -/

theorem Mount.Ok.setFs (h : m.Ok) (hs : f'.Sound) (ha : Aligned f') (hn : ∀ a ∈ m.all.attrs, NodeOk f' a) :
    Mount.Ok { m with fs := f' } :=
  ⟨hs, ha, h.nodup, hn, h.root_dir⟩

/-- What `op_create` does for a call of `vfs_create`. -/
theorem Mount.Ok.opCreate (h : m.Ok) {cwd : Option (List UInt8)} {p : List UInt8} {parent : Attrs} {name : Name}
    (hc : CreateCall m cwd p path parent child name) (hs : Strings cwd p) (dir : Bool) :
    m.fs.opCreate parent.inode name dir = (m.fs, none) ∨
      ∃ number, OpCreated parent.inode number name dir m.fs (m.fs.opCreate parent.inode name dir) := by
  have hp := h.node hc.found
  have htype : (m.fs.inodeAt parent.inode).type = typeDir := by
    rw [hp.type_eq, hc.dir]
    rfl
  have hshort := hc.short
  exact h.sound.opCreate hp.live (h.aligned _ hp.live htype) (by omega) (hc.zero_not_mem hs) h.count_lt dir

/-- `vfs_create` keeps the invariant, and what it returns is the node it linked. -/
theorem Mount.Ok.create (h : m.Ok) {cwd : Option (List UInt8)} {p : List UInt8} (hs : Strings cwd p) (dir heap : Bool) :
    (Vfs.create m cwd p dir heap).1.Ok ∧ ∀ names, (Vfs.create m cwd p dir heap).2 = some names →
      ∃ parentPath parent children name number, CreateCall m cwd p parentPath parent children name ∧
        names = parentPath ++ [name] ∧
        Linked m parent { name := name, dir := dir, readonly := false, size := 0, inode := number }
          (Vfs.create m cwd p dir heap).1 := by
  rcases create_cases m cwd p dir heap with he | ⟨parentPath, parent, children, name, hc, hres⟩
  · rw [he]
    exact ⟨h, fun names hn => by cases hn⟩
  · have hop := h.opCreate hc hs dir
    rcases hres with ⟨hnone, he⟩ | ⟨number, hsome, he⟩
    · rw [he]
      refine ⟨?_, fun names hn => by cases hn⟩
      rcases hop with hop | ⟨number, hop⟩
      · rw [hop]
        exact h
      · obtain ⟨-, haligned, hnodes, -⟩ := h.opCreated (follow_mem hc.found).1 hc.dir hop
        exact h.setFs hop.sound haligned hnodes
    · have hcreated : OpCreated parent.inode number name dir m.fs ((m.fs.opCreate parent.inode name dir).1, some number) := by
        rcases hop with hop | ⟨number', hop⟩
        · rw [hop] at hsome
          cases hsome
        · have hn : number' = number := by
            rcases hop.result with ⟨h₁, -⟩ | ⟨h₁, -⟩
            · rw [h₁] at hsome
              exact Option.some.inj hsome
            · rw [h₁] at hsome
              cases hsome
          subst hn
          rw [← hsome]
          exact hop
      have hl := h.link hc.found hc.dir hcreated
      rw [he]
      refine ⟨hl.ok, fun names hn => ⟨parentPath, parent, children, name, number, hc, (Option.some.inj hn).symm, hl⟩⟩

/-! ## Removing a node -/

/-- What `destroy_tree` leaves of the nodes in `t`, which are below the directory `parent`. -/
structure Destroyed (parent : ℕ) (t : Forest) (f f' : Fs) : Prop where
  sound : f'.Sound
  changes : Changes (fun x => x ∈ t.inodes ∨ x = parent) f f'
  free : ∀ x ∈ t.inodes, ¬f'.Live x
  kind : SameKind (f.inodeAt parent) (f'.inodeAt parent)

theorem Destroyed.parent_live {parent : ℕ} (h : Destroyed parent t f f') (hp : f.Live parent) : f'.Live parent :=
  ⟨(h.changes.numbered _).mpr hp.1, h.kind.1.trans_ne hp.2⟩

theorem SameKind.trans {i i' i'' : Inode} (h : SameKind i i') (h' : SameKind i' i'') : SameKind i i'' :=
  ⟨h'.1.trans h.1, h'.2.trans h.2⟩

/-- `destroy_tree` of one node: first what is below it, then the node itself. -/
theorem destroyNode {parent : ℕ} (hp : f.Live parent) (ha : f.Live a.inode) (hne : parent ≠ a.inode)
    (hpc : parent ∉ child.inodes) (h : Destroyed a.inode child f f') :
    f'.Live parent ∧ OpDestroyed parent a.inode a.name f' (f'.opDestroy parent a.name a.inode) ∧
      f'.inodeAt parent = f.inodeAt parent := by
  have hnot : ¬(parent ∈ child.inodes ∨ parent = a.inode) := not_or.mpr ⟨hpc, hne⟩
  have hp' : f'.Live parent := (h.changes.live (m := parent) hnot).mpr hp
  exact ⟨hp', h.sound.opDestroy hp' (h.parent_live ha) hne a.name, h.changes.inodeAt parent hnot hp.1⟩

theorem destroyForest_destroyed {parent : ℕ} (S : f.Sound) (hp : f.Live parent) (hnodup : t.inodes.Nodup)
    (hpt : parent ∉ t.inodes) (hl : ∀ x ∈ t.inodes, f.Live x) : Destroyed parent t f (destroyForest f parent t) := by
  induction t generalizing f parent with
  | nil => exact ⟨S, Changes.refl _ _, fun x hx => (List.not_mem_nil hx).elim, ⟨rfl, rfl⟩⟩
  | node a child next ihc ihn =>
    obtain ⟨hac, han, hcn, hnn, hdisj⟩ := nodup_node hnodup
    simp only [inodes_node, List.mem_cons, List.mem_append, not_or] at hpt hl
    obtain ⟨hpa, hpc, hpn⟩ := hpt
    have ha := hl a.inode (Or.inl rfl)
    rw [destroyForest_node]
    have h₁ := ihc S ha hcn hac (fun x hx => hl x (Or.inr (Or.inl hx)))
    generalize destroyForest f a.inode child = f₁ at h₁ ⊢
    obtain ⟨hp₁, h₂, hpi⟩ := destroyNode hp ha hpa hpc h₁
    generalize f₁.opDestroy parent a.name a.inode = f₂ at h₂ ⊢
    have hp₂ : f₂.Live parent := ⟨(h₂.changes.numbered _).mpr hp₁.1, h₂.kind.1.trans_ne hp₁.2⟩
    -- the nodes beside this one have not been touched
    have hnext : ∀ x, x ∈ next.inodes → ¬(x ∈ child.inodes ∨ x = a.inode) ∧ ¬(x = a.inode ∨ x = parent) := by
      intro x hx
      have hxa : x ≠ a.inode := fun he => han (he ▸ hx)
      exact ⟨not_or.mpr ⟨fun hc => hdisj x hc hx, hxa⟩, not_or.mpr ⟨hxa, fun he => hpn (he ▸ hx)⟩⟩
    have h₃ := ihn h₂.sound hp₂ hnn hpn (fun x hx =>
      (h₂.changes.live (hnext x hx).2).mpr ((h₁.changes.live (hnext x hx).1).mpr (hl x (Or.inr (Or.inr hx)))))
    generalize destroyForest f₂ parent next = f₃ at h₃ ⊢
    refine ⟨h₃.sound, ?_, fun x hx => ?_, ?_⟩
    · simp only [inodes_node, List.mem_cons, List.mem_append]
      refine (h₁.changes.mono ?_).trans ((h₂.changes.mono ?_).trans (h₃.changes.mono ?_))
      · rintro x (hx | hx)
        · exact Or.inl (Or.inr (Or.inl hx))
        · exact Or.inl (Or.inl hx)
      · rintro x (hx | hx)
        · exact Or.inl (Or.inl hx)
        · exact Or.inr hx
      · rintro x (hx | hx)
        · exact Or.inl (Or.inr (Or.inr hx))
        · exact Or.inr hx
    · by_cases hxn : x ∈ next.inodes
      · exact h₃.free x hxn
      simp only [inodes_node, List.mem_cons, List.mem_append] at hx
      have hxp : x ≠ parent := by
        rintro rfl
        rcases hx with hx | hx | hx
        · exact hpa hx
        · exact hpc hx
        · exact hpn hx
      rw [h₃.changes.live (not_or.mpr ⟨hxn, hxp⟩)]
      by_cases hxa : x = a.inode
      · exact hxa ▸ h₂.free
      · rw [h₂.changes.live (not_or.mpr ⟨hxa, hxp⟩)]
        exact h₁.free x ((hx.resolve_left hxa).resolve_right hxn)
    · have hk := SameKind.trans h₂.kind h₃.kind
      rwa [hpi] at hk

/-- A call of `vfs_unlink` that finds something to remove. -/
structure UnlinkCall (m : Mount) (names : List Name) (parent a : Attrs) (child : Forest) : Prop where
  found : follow (m.root, m.tree) names = some (a, child)
  parent_found : ∃ children, follow (m.root, m.tree) names.dropLast = some (parent, children)
  not_root : names ≠ []

theorem unlink_cases (m : Mount) (cwd : Option (List UInt8)) (p : List UInt8) :
    (∃ code : ℤ, code ≠ 0 ∧ unlink m cwd p = (m, code)) ∨
    ∃ names parent a child absolute, UnlinkCall m names parent a child ∧ a.readonly = false ∧
      abspath cwd p = some absolute ∧ names = segments absolute ∧
      unlink m cwd p = ({ m with
        fs := (destroyForest m.fs a.inode child).opDestroy parent.inode a.name a.inode
        tree := m.tree.remove names }, 0) := by
  rw [unlink_eq]
  cases hlook : lookup m cwd p with
  | none => exact Or.inl ⟨-1, by decide, rfl⟩
  | some found =>
    obtain ⟨names, a, child⟩ := found
    obtain ⟨hf, absolute, habs, hnames⟩ := lookup_follow hlook
    dsimp only
    cases hparent : follow (m.root, m.tree) names.dropLast with
    | none => exact Or.inl ⟨-1, by decide, rfl⟩
    | some node =>
      obtain ⟨parent, children⟩ := node
      dsimp only
      by_cases hroot : names = []
      · rw [if_pos hroot]
        exact Or.inl ⟨-1, by decide, rfl⟩
      rw [if_neg hroot]
      by_cases hro : a.readonly = true
      · rw [if_pos hro]
        exact Or.inl ⟨-2, by decide, rfl⟩
      · rw [if_neg hro]
        exact Or.inr ⟨names, parent, a, child, absolute, ⟨hf, ⟨children, hparent⟩, hroot⟩, by simpa using hro, habs, hnames, rfl⟩

section unlinkCall

variable {names : List Name} {parent : Attrs}

/-- The node is a child of its parent. -/
theorem UnlinkCall.child_of (h : UnlinkCall m names parent a child) : ∃ children name,
    follow (m.root, m.tree) names.dropLast = some (parent, children) ∧ names = names.dropLast ++ [name] ∧
      parent.dir = true ∧ children.find name = some (a, child) := by
  obtain ⟨children, hp⟩ := h.parent_found
  have hsplit := (List.dropLast_append_getLast h.not_root).symm
  have hf := h.found
  rw [hsplit, follow_append, hp] at hf
  obtain ⟨hdir, b, c, hfind, hlast⟩ := follow_cons hf
  obtain ⟨rfl, rfl⟩ := Prod.mk.inj (Option.some.inj hlast)
  exact ⟨children, names.getLast h.not_root, hp, hsplit, hdir, hfind⟩

theorem UnlinkCall.parent_not_mem (h : UnlinkCall m names parent a child) (hn : m.all.inodes.Nodup) :
    parent.inode ≠ a.inode ∧ parent.inode ∉ child.inodes := by
  obtain ⟨children, name, hp, -, -, hfind⟩ := h.child_of
  obtain ⟨hpc, -⟩ := nodup_node (follow_nodup hn hp)
  obtain ⟨h₁, h₂⟩ := find_mem hfind
  refine ⟨fun he => hpc (he ▸ mem_inodes h₁), fun hc => ?_⟩
  obtain ⟨b, hb, he⟩ := List.mem_map.mp hc
  exact hpc (he ▸ mem_inodes (h₂ b hb))

/-- What `vfs_unlink` leaves. -/
structure Unlinked (m : Mount) (parent a : Attrs) (child : Forest) (m' : Mount) : Prop where
  ok : m'.Ok
  changes : Changes (fun x => x ∈ a.inode :: child.inodes ∨ x = parent.inode) m.fs m'.fs
  free : ∀ x ∈ a.inode :: child.inodes, ¬m'.fs.Live x
  root : m'.root = m.root
  tree : m'.tree = m.tree.dropNode a.inode
  entries : m'.fs.entries parent.inode =
    match (m.fs.entries parent.inode).findIdx? (fun e => e.inode != 0 && e.name == a.name) with
    | none => m.fs.entries parent.inode
    | some i => (m.fs.entries parent.inode).set i ⟨0, []⟩

theorem Mount.Ok.unlink (h : m.Ok) (hc : UnlinkCall m names parent a child) :
    Unlinked m parent a child { m with
      fs := (destroyForest m.fs a.inode child).opDestroy parent.inode a.name a.inode
      tree := m.tree.remove names } := by
  obtain ⟨hpa, hpc⟩ := hc.parent_not_mem h.nodup
  obtain ⟨children, name, hpf, -, hpdir, -⟩ := hc.child_of
  have hpo := h.node hpf
  have hao := h.node hc.found
  obtain ⟨hac, -, hcn, -, -⟩ := nodup_node (follow_nodup h.nodup hc.found)
  obtain ⟨hrt, -, htn, -, -⟩ := nodup_node h.nodup
  have hfound : Found a child m.tree names := by
    obtain ⟨first, rest, rfl⟩ := List.exists_cons_of_ne_nil hc.not_root
    exact found_of_follow hc.found
  have hperm := attrs_dropNode htn hfound
  have hlive : ∀ x ∈ child.inodes, m.fs.Live x := by
    intro x hx
    obtain ⟨b, hb, rfl⟩ := List.mem_map.mp hx
    exact (h.nodes b (by
      unfold Volume.all
      rw [attrs_node]
      exact List.mem_cons_of_mem _ (List.mem_append_left _ ((follow_mem hc.found).2 b hb)))).live
  have h₁ := destroyForest_destroyed h.sound hao.live hcn hac hlive
  generalize destroyForest m.fs a.inode child = f₁ at h₁ ⊢
  obtain ⟨hp₁, h₂, hpi⟩ := destroyNode hpo.live hao.live hpa hpc h₁
  generalize f₁.opDestroy parent.inode a.name a.inode = f₂ at h₂ ⊢
  have hptype : (m.fs.inodeAt parent.inode).type = typeDir := by
    rw [hpo.type_eq, hpdir]
    rfl
  have hp64 : (f₁.inodeAt parent.inode).size % 64 = 0 := by
    rw [hpi]
    exact h.aligned _ hpo.live hptype
  have hchanges : Changes (fun x => x ∈ a.inode :: child.inodes ∨ x = parent.inode) m.fs f₂ := by
    refine (h₁.changes.mono ?_).trans (h₂.changes.mono ?_)
    · rintro x (hx | hx)
      · exact Or.inl (List.mem_cons_of_mem _ hx)
      · exact Or.inl (hx ▸ List.mem_cons_self)
    · rintro x (hx | hx)
      · exact Or.inl (hx ▸ List.mem_cons_self)
      · exact Or.inr hx
  have hfree : ∀ x ∈ a.inode :: child.inodes, ¬f₂.Live x := by
    intro x hx
    by_cases hxa : x = a.inode
    · exact hxa ▸ h₂.free
    · have hxc := (List.mem_cons.mp hx).resolve_left hxa
      rw [h₂.changes.live (not_or.mpr ⟨hxa, fun he => hpc (he ▸ hxc)⟩)]
      exact h₁.free x hxc
  have hkind : SameKind (m.fs.inodeAt parent.inode) (f₂.inodeAt parent.inode) := by
    have := h₂.kind
    rwa [hpi] at this
  have hpnot : ¬(parent.inode ∈ child.inodes ∨ parent.inode = a.inode) := not_or.mpr ⟨hpc, hpa⟩
  -- the numbers that stay are none of those that went
  have hstay : ∀ b ∈ (Forest.node m.root (m.tree.dropNode a.inode) .nil).attrs,
      b ∈ m.all.attrs ∧ b.inode ∉ a.inode :: child.inodes := by
    have hall : m.all.attrs.Perm ((a :: child.attrs) ++ (Forest.node m.root (m.tree.dropNode a.inode) .nil).attrs) := by
      unfold Volume.all
      simp only [attrs_node, attrs_nil, List.append_nil]
      exact (hperm.cons m.root).trans List.perm_middle.symm
    have hnd : (((a :: child.attrs) ++ (Forest.node m.root (m.tree.dropNode a.inode) .nil).attrs).map Attrs.inode).Nodup :=
      (hall.map Attrs.inode).nodup_iff.mp h.nodup
    rw [List.map_append, List.nodup_append] at hnd
    intro b hb
    refine ⟨hall.mem_iff.mpr (List.mem_append_right _ hb), fun hc => ?_⟩
    exact hnd.2.2 b.inode (by rw [List.map_cons]; exact hc) b.inode (List.mem_map_of_mem hb) rfl
  have hnodup : (Forest.node m.root (m.tree.dropNode a.inode) .nil).inodes.Nodup := by
    have hsub : (Forest.node m.root (m.tree.dropNode a.inode) .nil).inodes.Sublist
        (a.inode :: child.inodes ++ (Forest.node m.root (m.tree.dropNode a.inode) .nil).inodes) := List.sublist_append_right _ _
    have hall : m.all.inodes.Perm (a.inode :: child.inodes ++ (Forest.node m.root (m.tree.dropNode a.inode) .nil).inodes) := by
      have := ((hperm.cons m.root).trans List.perm_middle.symm).map Attrs.inode
      simpa [Volume.all, inodes] using this
    exact hsub.nodup (hall.nodup_iff.mp h.nodup)
  refine ⟨⟨h₂.sound, fun n hn ht => ?_, ?_, fun b hb => ?_, h.root_dir⟩, hchanges, hfree, rfl, remove_eq htn hfound, ?_⟩
  · by_cases hnp : n = parent.inode
    · subst hnp
      dsimp only
      rw [h₂.size hp64]
      exact hp64
    · have hna : n ∉ a.inode :: child.inodes := fun hx => hfree n hx hn
      have hnot := not_or.mpr ⟨hna, hnp⟩
      have hln := (hchanges.live (m := n) hnot).mp hn
      dsimp only at ht ⊢
      rw [hchanges.inodeAt n hnot hln.1] at ht ⊢
      exact h.aligned n hln ht
  · unfold Volume.all
    dsimp only
    rw [remove_eq htn hfound]
    exact hnodup
  · unfold Volume.all at hb
    dsimp only at hb
    rw [remove_eq htn hfound] at hb
    obtain ⟨hmem, hnotin⟩ := hstay b hb
    by_cases hbp : b.inode = parent.inode
    · obtain rfl := eq_of_inode h.nodup hmem (follow_mem hpf).1 hbp
      exact ⟨⟨(hchanges.numbered _).mpr hpo.live.1, hkind.1.trans_ne hpo.live.2⟩, hkind.1.trans hpo.type_eq,
        fun hf => by rw [hpdir] at hf; cases hf⟩
    · exact (h.nodes b hmem).congr hchanges (not_or.mpr ⟨hnotin, hbp⟩)
  · have := h₂.entries hp64
    rwa [entries_congr h.sound h₁.sound h₁.changes hpo.live hpnot] at this

end unlinkCall

/-! ## Whole files -/

theorem strings_none {p : List UInt8} (hp : 0 ∉ p) : Strings none p := ⟨hp, fun dir h => by cases h⟩

/-- The node that `vfs_write_file` and `vfs_append_file` go on with. -/
structure Opened (m : Mount) (p : List UInt8) (heap : Bool) (m' : Mount) (names : List Name) (a : Attrs) : Prop where
  ok : m'.Ok
  found : ∃ child, follow (m'.root, m'.tree) names = some (a, child)
  origin : (m' = m ∧ ∃ child, lookup m none p = some (names, a, child)) ∨
    lookup m none p = none ∧ (create m none p false heap).1 = m' ∧ (create m none p false heap).2 = some names

theorem Mount.Ok.openNode (h : m.Ok) {p : List UInt8} (hp : 0 ∉ p) (heap : Bool) :
    (Vfs.openNode m p heap).1.Ok ∧ ∀ names a, (Vfs.openNode m p heap).2 = some (names, a) →
      Opened m p heap (Vfs.openNode m p heap).1 names a := by
  rw [openNode_eq]
  cases hlook : lookup m none p with
  | some found =>
    obtain ⟨names, a, child⟩ := found
    refine ⟨h, fun names' a' he => ?_⟩
    obtain ⟨rfl, rfl⟩ := Prod.mk.inj (Option.some.inj he)
    exact ⟨h, ⟨child, (lookup_follow hlook).1⟩, Or.inl ⟨rfl, child, hlook⟩⟩
  | none =>
    dsimp only
    have hc := (h.create (strings_none hp) false heap).1
    refine ⟨hc, fun names a he => ?_⟩
    obtain ⟨names', hn, he⟩ := Option.bind_eq_some_iff.mp he
    obtain ⟨node, hf, he⟩ := Option.map_eq_some_iff.mp he
    obtain ⟨rfl, rfl⟩ := Prod.mk.inj he
    exact ⟨hc, ⟨node.2, hf⟩, Or.inr ⟨hlook, rfl, hn⟩⟩

/-- What a successful call leaves at the file it names. -/
structure Stored (m : Mount) (names : List Name) (a : Attrs) (data : List UInt8) (m' : Mount) : Prop where
  file : a.dir = false
  resized : Resized m a m'
  bytes : m'.fs.bytes a.inode = data

theorem Resized.trans {m₁ m₂ : Mount} (h : Resized m a m₁) (h' : Resized m₁ { a with size := b.size } m₂) : Resized m a m₂ := by
  obtain ⟨s, hs⟩ := h.all
  obtain ⟨s', hs'⟩ := h'.all
  refine ⟨h'.ok, h.changes.trans h'.changes, s', ?_⟩
  rw [hs', hs]
  have hmap : ∀ (g g' k : Attrs → Attrs), (∀ x, g' (g x) = k x) → ∀ t : Forest, (t.mapAttrs g).mapAttrs g' = t.mapAttrs k := by
    intro g g' k hk t
    induction t with
    | nil => rfl
    | node x c n ihc ihn => simp [mapAttrs, hk, ihc, ihn]
  refine hmap _ _ _ (fun x => ?_) m.all
  unfold setSize
  dsimp only
  by_cases hx : x.inode = a.inode
  · simp [hx]
  · simp [hx]

/-- No buffer is longer than the user part of the address space, `USER_MIN` to `USER_MAX`. -/
def bufferMax : ℕ := 0x90000000

theorem signed_eq {data : List UInt8} (hlen : data.length ≤ bufferMax) {written : ℕ}
    (h : ((written : ℕ) : ℤ) = signed data.length) : written = data.length := by
  unfold bufferMax at hlen
  unfold signed at h
  split at h <;> omega

theorem signed_ne {data : List UInt8} (hlen : data.length ≤ bufferMax) {code : ℤ} (hc : code = -1 ∨ code = -2) :
    code ≠ signed data.length := by
  unfold bufferMax at hlen
  unfold signed
  split <;> omega

/-- `vfs_write_file` after the node was found. -/
theorem Mount.Ok.writeFile (h : m.Ok) {p : List UInt8} (hp : 0 ∉ p) {data : List UInt8} (hlen : data.length ≤ bufferMax)
    (heap : Bool) : (Vfs.writeFile m p data heap).1.Ok ∧ ((Vfs.writeFile m p data heap).2 = 0 →
      ∃ m₁ names a, Opened m p heap m₁ names a ∧ Stored m₁ names a data (Vfs.writeFile m p data heap).1) := by
  obtain ⟨hok, hopen⟩ := h.openNode hp heap
  rw [writeFile_eq]
  dsimp only
  generalize Vfs.openNode m p heap = o at hok hopen ⊢
  obtain ⟨m₁, result⟩ := o
  cases result with
  | none => exact ⟨hok, fun hc => by cases hc⟩
  | some found =>
    obtain ⟨names, a⟩ := found
    have ho := hopen names a rfl
    obtain ⟨child, hf⟩ := ho.found
    dsimp only at hok ho hf ⊢
    by_cases hcan : a.dir = false ∧ a.readonly = false
    · obtain ⟨hfile, hro⟩ := hcan
      have ht := hok.truncate hf hfile hro
      rw [if_neg (by rw [ht.done]; decide)]
      generalize Vfs.truncate m₁ names a 0 = t at ht ⊢
      obtain ⟨m₂, done⟩ := t
      -- the node is still there, with size 0
      obtain ⟨s, hs⟩ := ht.resized.follow
      have hf₂ := hs names
      rw [hf, Option.map_some] at hf₂
      have hset : setSize a.inode s a = { a with size := s } := if_pos rfl
      dsimp only at hf₂ ht ⊢
      rw [hset] at hf₂
      have hs₀ : s = 0 := by
        have := (ht.resized.ok.node hf₂).size_eq hfile
        dsimp only at this
        rw [this, size_of_bytes ht.bytes]
      subst hs₀
      have hw := ht.resized.ok.write hf₂ (Nat.zero_le _) data hfile hro
      generalize Vfs.write m₂ names { a with size := 0 } 0 data = w at hw ⊢
      obtain ⟨m₃, result⟩ := w
      dsimp only at hw ⊢
      refine ⟨hw.resized.ok, fun hres => ⟨m₁, names, a, ho, hfile, ht.resized.trans (b := { a with size := 0 }) hw.resized, ?_⟩⟩
      obtain ⟨written, hr, hle, hbytes⟩ := hw.bytes
      have heq : result = signed data.length := by
        by_contra hne
        rw [if_neg hne] at hres
        exact absurd hres (by decide)
      have hall := signed_eq hlen (hr.symm.trans heq)
      dsimp only at hbytes
      rw [hbytes, ht.bytes, hall, List.take_length]
      simp [splice]
    · have hfail : Vfs.truncate m₁ names a 0 = (m₁, false) := by
        rw [truncate_eq]
        rw [if_pos]
        rcases Bool.eq_false_or_eq_true a.dir with hd | hd
        · exact Or.inl hd
        · exact Or.inr (by simpa [hd] using hcan)
      rw [hfail, if_pos rfl]
      exact ⟨hok, fun hc => by cases hc⟩

/-- `vfs_append_file`. -/
theorem Mount.Ok.appendFile (h : m.Ok) {p : List UInt8} (hp : 0 ∉ p) {data : List UInt8} (hlen : data.length ≤ bufferMax)
    (heap : Bool) : (Vfs.appendFile m p data heap).1.Ok ∧ ((Vfs.appendFile m p data heap).2 = 0 →
      ∃ m₁ names a, Opened m p heap m₁ names a ∧
        Stored m₁ names a (m₁.fs.bytes a.inode ++ data) (Vfs.appendFile m p data heap).1) := by
  obtain ⟨hok, hopen⟩ := h.openNode hp heap
  rw [appendFile_eq]
  dsimp only
  generalize Vfs.openNode m p heap = o at hok hopen ⊢
  obtain ⟨m₁, result⟩ := o
  cases result with
  | none => exact ⟨hok, fun hc => by cases hc⟩
  | some found =>
    obtain ⟨names, a⟩ := found
    have ho := hopen names a rfl
    obtain ⟨child, hf⟩ := ho.found
    dsimp only at hok ho hf ⊢
    by_cases hcan : a.dir = false ∧ a.readonly = false
    · obtain ⟨hfile, hro⟩ := hcan
      have hw := hok.write hf (Nat.le_refl _) data hfile hro
      generalize Vfs.write m₁ names a a.size data = w at hw ⊢
      obtain ⟨m₂, result⟩ := w
      dsimp only at hw ⊢
      refine ⟨hw.resized.ok, fun hres => ⟨m₁, names, a, ho, hfile, hw.resized, ?_⟩⟩
      obtain ⟨written, hr, hle, hbytes⟩ := hw.bytes
      have heq : result = signed data.length := by
        by_contra hne
        rw [if_neg hne] at hres
        cases hres
      have hall := signed_eq hlen (hr.symm.trans heq)
      have hsize : (m₁.fs.bytes a.inode).length = a.size := by
        rw [Fs.length_bytes, (hok.node hf).size_eq hfile]
      dsimp only at hbytes
      rw [hbytes, hall, List.take_length, splice, ← hsize, List.take_length, List.drop_eq_nil_of_le (by omega),
        List.append_nil]
    · obtain ⟨code, hcode, hfail⟩ : ∃ code : ℤ, (code = -1 ∨ code = -2) ∧ Vfs.write m₁ names a a.size data = (m₁, code) := by
        rw [write_eq]
        by_cases hd : a.dir = true
        · rw [if_pos hd]
          exact ⟨-1, Or.inl rfl, rfl⟩
        · rw [if_neg hd, if_pos (by simpa [hd] using hcan)]
          exact ⟨-2, Or.inr rfl, rfl⟩
      rw [hfail]
      dsimp only
      rw [if_neg (signed_ne hlen hcode)]
      exact ⟨hok, fun hc => by cases hc⟩

end SifarOS.Vfs
