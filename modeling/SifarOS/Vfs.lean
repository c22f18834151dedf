import SifarOS.SifarFs

/-! # The virtual filesystem

`kernel/fs/vfs.c` over the driver that `struct fs_ops` stands for, with the operations of SifarFS as
one such driver, and `sfs_mount`. Strings are lists of bytes without the terminating zero. The tree
of nodes is kept the way `struct fs_node` links it, first child and next sibling; what the source
does to the node at the end of a path is done to the first node that the path finds. A new node has
the driver of its directory, so all nodes of a tree have the same one, and the tree is a volume of
that driver. The node's `inode` is the number by which the driver knows it. -/
namespace SifarOS.Vfs
open ByteMemory SifarFs

abbrev Name := List UInt8

def slash : UInt8 := 47
def dot : UInt8 := 46

/-- `struct fs_node` without its links. The inode number is the `backend` pointer. -/
structure Attrs where
  name : Name
  dir : Bool
  readonly : Bool
  size : ℕ
  inode : ℕ
  deriving DecidableEq, Repr

/-- A list of siblings, each with its children. -/
inductive Forest
  | nil
  | node (attrs : Attrs) (child next : Forest)
  deriving DecidableEq, Repr

/-- `strcmp(a, b) < 0`. -/
def strcmpLt : Name → Name → Bool
  | [], [] => false
  | [], _ :: _ => true
  | _ :: _, [] => false
  | a :: as, b :: bs => if a = b then strcmpLt as bs else decide (a < b)

namespace Forest

/-- `find_child`. -/
def find : Forest → Name → Option (Attrs × Forest)
  | nil, _ => none
  | node a child next, name => if a.name = name then some (a, child) else next.find name

/-- `link_child`. -/
def link : Forest → Attrs → Forest → Forest
  | nil, a, child => node a child nil
  | node b c next, a, child =>
    if strcmpLt b.name a.name then node b c (next.link a child) else node a child (node b c next)

/-- The node that a path of names finds is replaced. -/
def modify (change : Attrs → Forest → Attrs × Forest) : Forest → List Name → Forest
  | nil, _ => nil
  | node a child next, [] => node a child next
  | node a child next, name :: rest =>
    if a.name = name then
      match rest with
      | [] => node (change a child).1 (change a child).2 next
      | _ :: _ => node a (child.modify change rest) next
    else node a child (next.modify change (name :: rest))

/-- The node that a path of names finds is taken out. -/
def remove : Forest → List Name → Forest
  | nil, _ => nil
  | node a child next, [] => node a child next
  | node a child next, name :: rest =>
    if a.name = name then
      match rest with
      | [] => next
      | _ :: _ => node a (child.remove rest) next
    else node a child (next.remove (name :: rest))

end Forest

/-! ## Paths -/

/-- `strrchr(s, '/')`: what stands before the last slash and after it. -/
def splitLast (s : List UInt8) : Option (List UInt8 × List UInt8) :=
  if slash ∈ s then
    let name := (s.reverse.takeWhile (· ≠ slash)).reverse
    some (s.take (s.length - name.length - 1), name)
  else none

/-- The rest of a path, with the bytes of the segment being read. -/
def segmentsFrom : List UInt8 → Name → List Name
  | [], name => if name = [] then [] else [name]
  | c :: rest, name =>
    if c = slash then
      if name = [] then segmentsFrom rest [] else name :: segmentsFrom rest []
    else segmentsFrom rest (name ++ [c])

/-- The segments of a path, as the loops of `vfs_abspath` and `vfs_lookup` find them. -/
def segments (path : List UInt8) : List Name := segmentsFrom path []

/-- One turn of the loop in `vfs_abspath`. -/
def pushSegment (stack : List UInt8) (segment : Name) : Option (List UInt8) :=
  if segment = [dot] then some stack
  else if segment = [dot, dot] then
    match splitLast stack with
    | some (before, _) => some before
    | none => some stack
  else if 192 ≤ stack.length + 1 + segment.length then none
  else some (stack ++ slash :: segment)

/-- What `vfs_abspath` starts from: the current directory, unless the path is absolute. -/
def startOf (cwd : Option (List UInt8)) (path : List UInt8) : Option (List UInt8) :=
  match cwd with
  | none => some []
  | some dir =>
    if path.head? = some slash ∨ dir = [] then some []
    else if 192 ≤ dir.length then none
    else if 1 < dir.length ∧ dir.getLast? = some slash then some dir.dropLast
    else some dir

/-- `vfs_abspath` into a buffer of `FS_PATH_MAX` bytes. -/
def abspath (cwd : Option (List UInt8)) (path : List UInt8) : Option (List UInt8) :=
  (startOf cwd path).bind (fun start =>
    ((segments path).foldlM pushSegment start).map (fun stack => if stack = [] then [slash] else stack))

/-- Follow a path of names from a node. -/
def follow (node : Attrs × Forest) : List Name → Option (Attrs × Forest)
  | [] => some node
  | name :: rest => if node.1.dir then (node.2.find name).bind (follow · rest) else none

/-! ## Drivers -/

/-- What a call finds: the time, and whether the kernel heap has room for a node, for the record of a
ramfs file and for its buffer. No call asks twice for one of them. -/
structure Moment where
  clock : ℕ
  node : Bool
  record : Bool
  buffer : Bool
  deriving DecidableEq, Repr

/-- `struct fs_ops`, over the state that the driver keeps. `write` and `truncate` also return the
size that the node has then. -/
structure FsOps (σ : Type) where
  setClock : ℕ → σ → σ
  read : σ → Attrs → ℕ → ℕ → Option (List UInt8)
  write : Moment → σ → Attrs → ℕ → List UInt8 → (σ × ℕ) × ℤ
  truncate : Moment → σ → Attrs → ℕ → (σ × ℕ) × Bool
  create : Moment → σ → Attrs → Name → Bool → σ × Option ℕ
  destroy : σ → ℕ → Name → ℕ → σ

/-! ## SifarFS -/

/-- The operations of `sfs.c`. -/
def sfsOps : FsOps Fs where
  setClock := fun clock f => { f with clock := clock }
  read := fun f a offset length => f.fileRead a.inode offset length
  write := fun _ f a offset data =>
    let r := f.fileWrite a.inode offset data
    let written := r.2.toNat
    ((r.1, if 0 < r.2 ∧ a.size < u32 (offset + written) then u32 (offset + written) else a.size), r.2)
  truncate := fun _ f a length =>
    let r := f.fileTruncate a.inode length
    ((r.1, if r.2 then length else a.size), r.2)
  create := fun _ f parent name dir => f.opCreate parent.inode name dir
  destroy := fun f parent name number => f.opDestroy parent name number

/-! ## Volumes -/

/-- `(ssize_t)len`. -/
def signed (len : ℕ) : ℤ := if len < 2147483648 then len else len - 4294967296

/-- The driver's state, the root node and what is below it. -/
structure Volume (σ : Type) where
  fs : σ
  root : Attrs
  tree : Forest

namespace Volume

variable {σ : Type} (ops : FsOps σ) (now : Moment) (v : Volume σ)

/-- `vfs_lookup`. -/
def lookup (cwd : Option (List UInt8)) (path : List UInt8) : Option (List Name × Attrs × Forest) :=
  (abspath cwd path).bind (fun absolute =>
    (follow (v.root, v.tree) (segments absolute)).map (fun node => (segments absolute, node)))

/-- A change to the node at a path. -/
def modify (path : List Name) (change : Attrs → Forest → Attrs × Forest) : Volume σ :=
  match path with
  | [] => { v with root := (change v.root v.tree).1, tree := (change v.root v.tree).2 }
  | _ :: _ => { v with tree := v.tree.modify change path }

/-- The node at a path gets a size. -/
def resize (path : List Name) (size : ℕ) : Volume σ := v.modify path (fun a child => ({ a with size := size }, child))

/-- `vfs_create`. -/
def create (cwd : Option (List UInt8)) (path : List UInt8) (dir : Bool) : Volume σ × Option (List Name) :=
  match abspath cwd path with
  | none => (v, none)
  | some absolute =>
    if absolute = [slash] then (v, none)
    else match splitLast absolute with
      | none => (v, none)
      | some (before, name) =>
        match v.lookup none (if before = [] then [slash] else before) with
        | none => (v, none)
        | some (parentPath, parent, children) =>
          if parent.dir = false ∨ (children.find name).isSome = true ∨ 32 ≤ name.length ∨ now.node = false then (v, none)
          else
            let r := ops.create now v.fs parent name dir
            match r.2 with
            | none => ({ v with fs := r.1 }, none)
            | some number =>
              let attrs := { name := name, dir := dir, readonly := false, size := 0, inode := number }
              (Volume.modify { v with fs := r.1 } parentPath (fun a child => (a, child.link attrs .nil)),
                some (parentPath ++ [name]))

/-- `destroy_tree` for every node of a list of siblings below the directory `parent`. -/
def destroyForest (s : σ) (parent : ℕ) : Forest → σ
  | .nil => s
  | .node a child next =>
    destroyForest (ops.destroy (destroyForest s a.inode child) parent a.name a.inode) parent next

/-- `vfs_unlink`. -/
def unlink (cwd : Option (List UInt8)) (path : List UInt8) : Volume σ × ℤ :=
  match v.lookup cwd path with
  | none => (v, -1)
  | some (names, a, child) =>
    match follow (v.root, v.tree) names.dropLast with
    | none => (v, -1)
    | some (parent, _) =>
      if names = [] then (v, -1)
      else if a.readonly then (v, -2)
      else
        ({ v with
            fs := ops.destroy (destroyForest ops v.fs a.inode child) parent.inode a.name a.inode
            tree := v.tree.remove names }, 0)

/-- `vfs_read`; `none` is its -1. -/
def read (a : Attrs) (offset length : ℕ) : Option (List UInt8) :=
  if a.dir then none else ops.read v.fs a offset length

/-- `vfs_write` to the node at a path. -/
def write (path : List Name) (a : Attrs) (offset : ℕ) (data : List UInt8) : Volume σ × ℤ :=
  if a.dir then (v, -1)
  else if a.readonly then (v, -2)
  else
    let r := ops.write now v.fs a offset data
    (Volume.resize { v with fs := r.1.1 } path r.1.2, r.2)

/-- `vfs_truncate` of the node at a path; whether it succeeded. -/
def truncate (path : List Name) (a : Attrs) (length : ℕ) : Volume σ × Bool :=
  if a.dir ∨ a.readonly then (v, false)
  else
    let r := ops.truncate now v.fs a length
    (Volume.resize { v with fs := r.1.1 } path r.1.2, r.2)

/-- The node at a path, which is created if it is missing. -/
def openNode (path : List UInt8) : Volume σ × Option (List Name × Attrs) :=
  match v.lookup none path with
  | some (names, a, _) => (v, some (names, a))
  | none =>
    let r := v.create ops now none path false
    (r.1, r.2.bind (fun names => (follow (r.1.root, r.1.tree) names).map (fun node => (names, node.1))))

/-- `vfs_write_file`. -/
def writeFile (path data : List UInt8) : Volume σ × ℤ :=
  let o := v.openNode ops now path
  match o.2 with
  | none => (o.1, -1)
  | some (names, a) =>
    let t := o.1.truncate ops now names a 0
    if t.2 = false then (t.1, -1)
    else
      let w := t.1.write ops now names { a with size := 0 } 0 data
      (w.1, if w.2 = signed data.length then 0 else -1)

/-- `vfs_append_file`. -/
def appendFile (path data : List UInt8) : Volume σ × ℤ :=
  let o := v.openNode ops now path
  match o.2 with
  | none => (o.1, -1)
  | some (names, a) =>
    let w := o.1.write ops now names a a.size data
    (w.1, if w.2 = signed data.length then 0 else -1)

end Volume

/-! ## Mounted file systems -/

/-- A mounted file system is a volume of SifarFS. -/
abbrev Mount := Volume Fs

/-- A call that finds the heap so. SifarFS has no records, and its calls set the clock beforehand. -/
def Moment.ofHeap (heap : Bool) : Moment := ⟨0, heap, true, true⟩

def lookup (m : Mount) (cwd : Option (List UInt8)) (path : List UInt8) : Option (List Name × Attrs × Forest) :=
  m.lookup cwd path

def create (m : Mount) (cwd : Option (List UInt8)) (path : List UInt8) (dir heap : Bool) : Mount × Option (List Name) :=
  Volume.create sfsOps (.ofHeap heap) m cwd path dir

def destroyForest (f : Fs) (parent : ℕ) (t : Forest) : Fs := Volume.destroyForest sfsOps f parent t

def unlink (m : Mount) (cwd : Option (List UInt8)) (path : List UInt8) : Mount × ℤ := Volume.unlink sfsOps m cwd path

def write (m : Mount) (path : List Name) (a : Attrs) (offset : ℕ) (data : List UInt8) : Mount × ℤ :=
  Volume.write sfsOps (.ofHeap true) m path a offset data

def truncate (m : Mount) (path : List Name) (a : Attrs) (length : ℕ) : Mount × Bool :=
  Volume.truncate sfsOps (.ofHeap true) m path a length

def openNode (m : Mount) (path : List UInt8) (heap : Bool) : Mount × Option (List Name × Attrs) :=
  Volume.openNode sfsOps (.ofHeap heap) m path

def writeFile (m : Mount) (path data : List UInt8) (heap : Bool) : Mount × ℤ :=
  Volume.writeFile sfsOps (.ofHeap heap) m path data

def appendFile (m : Mount) (path data : List UInt8) (heap : Bool) : Mount × ℤ :=
  Volume.appendFile sfsOps (.ofHeap heap) m path data

/-- `vfs_read_file`; `none` is its -1. -/
def readFile (m : Mount) (path : List UInt8) (length : ℕ) : Option (List UInt8) :=
  (lookup m none path).bind (fun found =>
    if found.2.1.dir then none else m.fs.fileRead found.2.1.inode 0 length)

/-! ### The same, with SifarFS written out -/

section Equations
variable (m : Mount) (cwd : Option (List UInt8)) (path : List UInt8) (names : List Name) (a : Attrs)

theorem lookup_eq : lookup m cwd path = (abspath cwd path).bind (fun absolute =>
    (follow (m.root, m.tree) (segments absolute)).map (fun node => (segments absolute, node))) := rfl

theorem create_eq (dir heap : Bool) : create m cwd path dir heap =
    match abspath cwd path with
    | none => (m, none)
    | some absolute =>
      if absolute = [slash] then (m, none)
      else match splitLast absolute with
        | none => (m, none)
        | some (before, name) =>
          match lookup m none (if before = [] then [slash] else before) with
          | none => (m, none)
          | some (parentPath, parent, children) =>
            if parent.dir = false ∨ (children.find name).isSome = true ∨ 32 ≤ name.length ∨ heap = false then (m, none)
            else
              let r := m.fs.opCreate parent.inode name dir
              match r.2 with
              | none => ({ m with fs := r.1 }, none)
              | some number =>
                let attrs := { name := name, dir := dir, readonly := false, size := 0, inode := number }
                (Volume.modify { m with fs := r.1 } parentPath (fun a child => (a, child.link attrs .nil)),
                  some (parentPath ++ [name])) := rfl

theorem destroyForest_node (f : Fs) (parent : ℕ) (child next : Forest) : destroyForest f parent (.node a child next) =
    destroyForest ((destroyForest f a.inode child).opDestroy parent a.name a.inode) parent next := rfl

theorem unlink_eq : unlink m cwd path =
    match lookup m cwd path with
    | none => (m, -1)
    | some (names, a, child) =>
      match follow (m.root, m.tree) names.dropLast with
      | none => (m, -1)
      | some (parent, _) =>
        if names = [] then (m, -1)
        else if a.readonly then (m, -2)
        else
          ({ m with
              fs := (destroyForest m.fs a.inode child).opDestroy parent.inode a.name a.inode
              tree := m.tree.remove names }, 0) := rfl

theorem write_eq (offset : ℕ) (data : List UInt8) : write m names a offset data =
    if a.dir then (m, -1)
    else if a.readonly then (m, -2)
    else
      let r := m.fs.fileWrite a.inode offset data
      let written := r.2.toNat
      let size := if 0 < r.2 ∧ a.size < u32 (offset + written) then u32 (offset + written) else a.size
      (Volume.modify { m with fs := r.1 } names (fun a child => ({ a with size := size }, child)), r.2) := rfl

theorem truncate_eq (length : ℕ) : truncate m names a length =
    if a.dir ∨ a.readonly then (m, false)
    else
      let r := m.fs.fileTruncate a.inode length
      let size := if r.2 then length else a.size
      (Volume.modify { m with fs := r.1 } names (fun a child => ({ a with size := size }, child)), r.2) := rfl

theorem openNode_eq (heap : Bool) : openNode m path heap =
    match lookup m none path with
    | some (names, a, _) => (m, some (names, a))
    | none =>
      let r := create m none path false heap
      (r.1, r.2.bind (fun names => (follow (r.1.root, r.1.tree) names).map (fun node => (names, node.1)))) := rfl

theorem writeFile_eq (data : List UInt8) (heap : Bool) : writeFile m path data heap =
    let o := openNode m path heap
    match o.2 with
    | none => (o.1, -1)
    | some (names, a) =>
      let t := truncate o.1 names a 0
      if t.2 = false then (t.1, -1)
      else
        let w := write t.1 names { a with size := 0 } 0 data
        (w.1, if w.2 = signed data.length then 0 else -1) := rfl

theorem appendFile_eq (data : List UInt8) (heap : Bool) : appendFile m path data heap =
    let o := openNode m path heap
    match o.2 with
    | none => (o.1, -1)
    | some (names, a) =>
      let w := write o.1 names a a.size data
      (w.1, if w.2 = signed data.length then 0 else -1) := rfl

end Equations

/-! ## Mounting -/

/-- The node `build_tree` makes of an entry. -/
def entryNode (f : Fs) (e : Fs.Dirent) : Attrs where
  name := e.name.take 31
  dir := (f.inodeAt e.inode).type == typeDir
  readonly := (f.inodeAt e.inode).flags % 2 == flagReadonly
  size := (f.inodeAt e.inode).size
  inode := e.inode

/-- The entries that `build_tree` does not pass over. -/
def visible (f : Fs) (e : Fs.Dirent) : Bool :=
  e.inode != 0 && !e.name.isEmpty && (f.inodeRead e.inode).isSome

/-- `build_tree`, `fuel` levels of directories before it stops. -/
def buildTree (f : Fs) : ℕ → ℕ → Forest
  | 0, _ => .nil
  | fuel + 1, dir =>
    ((if (f.inodeRead dir).isSome then f.entries dir else []).filter (visible f)).foldl (fun tree e =>
      let a := entryNode f e
      tree.link a (if a.dir then buildTree f fuel e.inode else .nil)) .nil

/-- The superblock on a disk. -/
def readSuper (disk : Memory) : Super :=
  let word := fun k => load32 disk (4 * k)
  { magic := word 0
    version := word 1
    blockSize := word 2
    totalBlocks := word 3
    bitmapStart := word 4
    bitmapBlocks := word 5
    inodeStart := word 6
    inodeBlocks := word 7
    inodeCount := word 8
    rootInode := word 9
    freeBlocks := word 10
    label := fun k => if k < 8 then word (11 + k) else 0 }

/-- The number of nodes of a forest. -/
def Forest.count : Forest → ℕ
  | .nil => 0
  | .node _ child next => child.count + next.count + 1

/-- `sfs_mount`. `build_tree` is called with depth 0 and stops above depth 16. -/
def mount (disk : Memory) (clock : ℕ) : Option Mount :=
  let super := readSuper disk
  if super.magic ≠ 0x53465321 ∨ super.blockSize ≠ 4096 ∨ super.version ≠ 1 then none
  else
    let bitmap := fun i => if i < super.bitmapBlocks * 4096 then disk (super.bitmapStart * 4096 + i) else 0
    let f : Fs := { super := super, bitmap := bitmap, disk := disk, inodesUsed := 0, clock := clock }
    let tree := buildTree f 17 super.rootInode
    some
      { fs := { f with inodesUsed := u32 (1 + tree.count) }
        root := { name := [], dir := true, readonly := false, size := 0, inode := super.rootInode }
        tree := tree }

end SifarOS.Vfs
