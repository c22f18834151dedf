import SifarOS.RamFs
import SifarOS.VfsTree
import Mathlib.Data.List.GetD

/-! # A file as an array of bytes

What `vfs_read`, `vfs_write` and `vfs_truncate` should make of a file, whatever keeps it: an array
that grows with zeroes. The calls are then run on the nodes of a volume. -/
namespace SifarOS.ByteFile

variable {bytes data : List UInt8} {offset length size pos : ℕ}

/-- The array with zeroes up to `length` bytes. -/
def padTo (bytes : List UInt8) (length : ℕ) : List UInt8 := bytes ++ List.replicate (length - bytes.length) 0

def readAt (bytes : List UInt8) (offset length : ℕ) : List UInt8 := (bytes.drop offset).take length

def writeAt (bytes : List UInt8) (offset : ℕ) (data : List UInt8) : List UInt8 :=
  (padTo bytes offset).take offset ++ data ++ bytes.drop (offset + data.length)

def truncateTo (bytes : List UInt8) (length : ℕ) : List UInt8 := (padTo bytes length).take length

theorem length_padTo (bytes : List UInt8) (length : ℕ) : (padTo bytes length).length = max bytes.length length := by
  unfold padTo
  rw [List.length_append, List.length_replicate]
  omega

@[simp] theorem getD_padTo (bytes : List UInt8) (length pos : ℕ) : (padTo bytes length).getD pos 0 = bytes.getD pos 0 := by
  unfold padTo
  rcases Nat.lt_or_ge pos bytes.length with h | h
  · rw [List.getD_append _ _ _ _ h]
  · rw [List.getD_append_right _ _ _ _ h, List.getD_eq_default _ _ h, List.getD_eq_getElem?_getD, List.getElem?_replicate]
    split <;> rfl

@[simp] theorem length_truncateTo (bytes : List UInt8) (length : ℕ) : (truncateTo bytes length).length = length := by
  unfold truncateTo
  rw [List.length_take, length_padTo]
  omega

theorem getD_take (bytes : List UInt8) (h : pos < length) : (bytes.take length).getD pos 0 = bytes.getD pos 0 := by
  rw [List.getD_eq_getElem?_getD, List.getD_eq_getElem?_getD, List.getElem?_take_of_lt h]

theorem getD_truncateTo (bytes : List UInt8) (h : pos < length) : (truncateTo bytes length).getD pos 0 = bytes.getD pos 0 := by
  unfold truncateTo
  rw [getD_take _ h, getD_padTo]

theorem length_writeAt (bytes : List UInt8) (offset : ℕ) (data : List UInt8) :
    (writeAt bytes offset data).length = max bytes.length (offset + data.length) := by
  unfold writeAt
  rw [List.length_append, List.length_append, List.length_take, length_padTo, List.length_drop]
  omega

theorem getD_writeAt (bytes : List UInt8) (offset : ℕ) (data : List UInt8) (pos : ℕ) :
    (writeAt bytes offset data).getD pos 0 =
      if offset ≤ pos ∧ pos < offset + data.length then data.getD (pos - offset) 0 else bytes.getD pos 0 := by
  have hfront : ((padTo bytes offset).take offset).length = offset := by
    rw [List.length_take, length_padTo]
    omega
  unfold writeAt
  rcases Nat.lt_or_ge pos offset with h | h
  · rw [if_neg (by omega), List.append_assoc, List.getD_append _ _ _ _ (by omega), getD_take _ h, getD_padTo]
  rcases Nat.lt_or_ge pos (offset + data.length) with h' | h'
  · rw [if_pos ⟨h, h'⟩, List.append_assoc, List.getD_append_right _ _ _ _ (by omega), hfront,
      List.getD_append _ _ _ _ (by omega)]
  · have hlen : ((padTo bytes offset).take offset ++ data).length = offset + data.length := by
      rw [List.length_append, hfront]
    rw [if_neg (by omega), List.getD_append_right _ _ _ _ (by omega), hlen, List.getD_eq_getElem?_getD,
      List.getD_eq_getElem?_getD, List.getElem?_drop, Nat.add_sub_cancel' h']

theorem ext_getD {bytes' : List UInt8} (hlen : bytes.length = bytes'.length)
    (h : ∀ pos, pos < bytes.length → bytes.getD pos 0 = bytes'.getD pos 0) : bytes = bytes' := by
  refine List.ext_getElem hlen fun j h₁ h₂ => ?_
  have hj := h j h₁
  rwa [List.getD_eq_getElem _ _ h₁, List.getD_eq_getElem _ _ h₂] at hj

/-- An array that is read off byte by byte. -/
theorem map_range_eq {byte : ℕ → UInt8} (hsize : size = bytes.length) (h : ∀ pos, pos < size → byte pos = bytes.getD pos 0) :
    (List.range size).map byte = bytes := by
  refine List.ext_getElem (by simpa using hsize) fun j h₁ h₂ => ?_
  rw [List.length_map, List.length_range] at h₁
  rw [List.getElem_map, List.getElem_range, h j h₁, List.getD_eq_getElem _ _ h₂]

end SifarOS.ByteFile

namespace SifarOS.Vfs
open ByteFile

/-- A call on a file that is open. -/
inductive NodeCall
  | read (offset length : ℕ)
  | write (offset : ℕ) (data : List UInt8)
  | truncate (length : ℕ)

/-- What the call makes of the array. -/
def NodeCall.apply (bytes : List UInt8) : NodeCall → List UInt8
  | read _ _ => bytes
  | write offset data => writeAt bytes offset data
  | truncate length => truncateTo bytes length

/-- What does not change in a node: whether it is a directory, whether it may be written to, and the
number by which its driver knows it. -/
def Attrs.key (a : Attrs) : Bool × Bool × ℕ := (a.dir, a.readonly, a.inode)

section Nodes
variable {σ : Type} {ops : FsOps σ} {now : Moment} {v : Volume σ} {path q : List Name}

def Volume.key (v : Volume σ) (path : List Name) : Option (Bool × Bool × ℕ) :=
  (follow (v.root, v.tree) path).map fun node => node.1.key

/-- A call on the node at a path. -/
def NodeCall.run (ops : FsOps σ) (now : Moment) (v : Volume σ) (path : List Name) (c : NodeCall) : Volume σ :=
  match follow (v.root, v.tree) path with
  | none => v
  | some (a, _) =>
    let v := { v with fs := ops.setClock now.clock v.fs }
    match c with
    | read _ _ => v
    | write offset data => (v.write ops now path a offset data).1
    | truncate length => (v.truncate ops now path a length).1

/-- One call after another. -/
def runNodes (ops : FsOps σ) (v : Volume σ) : List (List Name × NodeCall × Moment) → Volume σ
  | [] => v
  | (path, c, now) :: rest => runNodes ops (c.run ops now v path) rest

/-- The arrays of all files after a call on a node. A call on a directory, or a change to a file that
is read only, is refused. -/
def NodeCall.after (v : Volume σ) (contents : ℕ → List UInt8) (path : List Name) (c : NodeCall) : ℕ → List UInt8 :=
  match v.key path with
  | some (false, false, n) => Function.update contents n (c.apply (contents n))
  | _ => contents

/-- The arrays after one call after another. -/
def applyNodes (v : Volume σ) (contents : ℕ → List UInt8) : List (List Name × NodeCall × Moment) → ℕ → List UInt8
  | [] => contents
  | (path, c, _) :: rest => applyNodes v (c.after v contents path) rest

/-- Every call meets a condition on the state it finds. -/
def Along (ops : FsOps σ) (P : Volume σ → List Name → NodeCall → Prop) (v : Volume σ) :
    List (List Name × NodeCall × Moment) → Prop
  | [] => True
  | (path, c, now) :: rest => P v path c ∧ Along ops P (c.run ops now v path) rest

theorem follow_resize (r : Attrs) (t : Forest) (size : ℕ) (path q : List Name) :
    (follow (modifyNode (fun a child => ({ a with size := size }, child)) (r, t) path) q).map (fun node => node.1.key) =
      (follow (r, t) q).map fun node => node.1.key := by
  induction q generalizing r t path with
  | nil => cases path <;> rfl
  | cons name rest ih =>
    cases path with
    | nil => rfl
    | cons first others =>
      show ((if r.dir then ((t.modify _ (first :: others)).find name).bind (follow · rest) else none).map _) =
        (if r.dir then (t.find name).bind (follow · rest) else none).map _
      by_cases hdir : r.dir = true
      · rw [if_pos hdir, if_pos hdir, find_modify fun _ _ => rfl]
        by_cases he : first = name
        · rw [if_pos he]
          cases t.find name with
          | none => rfl
          | some node => exact ih node.1 node.2 others
        · rw [if_neg he]
      · rw [if_neg hdir, if_neg hdir]

@[simp] theorem Volume.resize_fs (v : Volume σ) (path : List Name) (size : ℕ) : (v.resize path size).fs = v.fs := by
  unfold Volume.resize Volume.modify
  cases path <;> rfl

theorem Volume.key_resize (v : Volume σ) (path : List Name) (size : ℕ) (q : List Name) : (v.resize path size).key q = v.key q := by
  have hnode : ((v.resize path size).root, (v.resize path size).tree) =
      modifyNode (fun a child => ({ a with size := size }, child)) (v.root, v.tree) path := by
    unfold Volume.resize Volume.modify
    cases path <;> rfl
  unfold Volume.key
  rw [hnode]
  exact follow_resize v.root v.tree size path q

end Nodes

end SifarOS.Vfs
