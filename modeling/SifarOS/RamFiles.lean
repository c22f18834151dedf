import SifarOS.CachedSizes

/-! # The contents of files on ramfs

The buffer of a file is as long as its capacity. Bytes behind the size are zeroes as they come from
`ensure_capacity`, and old ones when the file was cut; `ramfs_truncate` clears what it uncovers,
`ramfs_write` does not clear the gap it leaves. The end of a call is computed in 32 bits. -/
namespace SifarOS.Vfs
open ByteMemory SifarFs ByteFile

namespace RamFs

/-! ## Buffers -/

/-- The capacities that `ensure_capacity` makes: 64 bytes, doubled up to 4 MiB. -/
def Capacity (n : ℕ) : Prop := n = 0 ∨ ∃ k, k ≤ 16 ∧ n = 64 * 2 ^ k

theorem Capacity.le {n : ℕ} (h : Capacity n) : n ≤ maxFile := by
  rcases h with rfl | ⟨k, hk, rfl⟩
  · exact Nat.zero_le _
  · calc 64 * 2 ^ k ≤ 64 * 2 ^ 16 := Nat.mul_le_mul_left 64 (Nat.pow_le_pow_right (by decide) hk)
      _ = maxFile := rfl

theorem doubled_capacity {needed : ℕ} (hn : needed ≤ maxFile) (fuel : ℕ) {k : ℕ} (hk : k ≤ 16) :
    ∃ j, j ≤ 16 ∧ doubled needed fuel (64 * 2 ^ k) = 64 * 2 ^ j := by
  induction fuel generalizing k with
  | zero => exact ⟨k, hk, rfl⟩
  | succ fuel ih =>
    unfold doubled
    split
    · next hlt =>
      have hk' : k + 1 ≤ 16 := by
        by_contra hge
        obtain rfl : k = 16 := by omega
        have hmax : maxFile = 64 * 2 ^ 16 := rfl
        omega
      rw [show 2 * (64 * 2 ^ k) = 64 * 2 ^ (k + 1) by rw [Nat.pow_succ]; omega]
      exact ih hk'
    · exact ⟨k, hk, rfl⟩

/-- A buffer with zeroes behind it. -/
structure Extends (bytes bytes' : List UInt8) (needed : ℕ) : Prop where
  needed_le : needed ≤ bytes'.length
  length_le : bytes.length ≤ bytes'.length
  capacity : Capacity bytes'.length
  getD : ∀ pos, bytes'.getD pos 0 = bytes.getD pos 0

theorem ensureCapacity_extends {bytes bytes' : List UInt8} {needed : ℕ} {room : Bool}
    (h : ensureCapacity bytes needed room = some bytes') (hc : Capacity bytes.length) : Extends bytes bytes' needed := by
  unfold ensureCapacity at h
  split at h
  · next hfit => exact Option.some.inj h ▸ ⟨hfit, Nat.le_refl _, hc, fun _ => rfl⟩
  split at h
  · cases h
  next hmax =>
  split at h
  · cases h
  dsimp only at h
  obtain ⟨k, hk, hstart⟩ : ∃ k, k ≤ 16 ∧ (if bytes.length = 0 then 64 else bytes.length) = 64 * 2 ^ k := by
    split
    · exact ⟨0, by decide, rfl⟩
    · next hne => exact hc.resolve_left hne
  obtain ⟨j, hj, hend⟩ := doubled_capacity (Nat.le_of_not_lt hmax) 32 hk
  have hge : needed ≤ doubled needed 32 (64 * 2 ^ k) := by
    refine le_doubled (Nat.mul_pos (by decide) (Nat.two_pow_pos k)) ?_
    have hle : needed ≤ 64 * 2 ^ 32 := Nat.le_trans (Nat.le_of_not_lt hmax) (by decide)
    exact Nat.le_trans hle (Nat.mul_le_mul_right _ (Nat.le_mul_of_pos_right 64 (Nat.two_pow_pos k)))
  rw [hstart, hend] at h
  rw [hend] at hge
  have hlen : bytes'.length = 64 * 2 ^ j := by
    rw [← Option.some.inj h, List.length_append, List.length_replicate]
    omega
  refine ⟨by omega, by omega, Or.inr ⟨j, hj, hlen⟩, fun pos => ?_⟩
  have hpad : bytes' = padTo bytes (64 * 2 ^ j) := (Option.some.inj h).symm
  rw [hpad, getD_padTo]

/-- `memcpy` within a buffer. -/
theorem overlay_eq_writeAt {bytes data : List UInt8} {offset : ℕ} (h : offset + data.length ≤ bytes.length) :
    overlay bytes offset data = writeAt bytes offset data := by
  unfold overlay writeAt padTo
  rw [Nat.sub_eq_zero_of_le (by omega), List.replicate_zero, List.append_nil]

theorem getD_take_eq (bytes : List UInt8) (size pos : ℕ) :
    (bytes.take size).getD pos 0 = if pos < size then bytes.getD pos 0 else 0 := by
  split
  · next h => exact getD_take bytes h
  · next h => exact List.getD_eq_default _ _ (Nat.le_trans (List.length_take_le _ _) (by omega))

/-- The file after a write into its buffer. -/
theorem take_writeAt {bytes data : List UInt8} {size offset : ℕ} (hsize : size ≤ bytes.length)
    (hfit : offset + data.length ≤ bytes.length) (hgap : ∀ pos, size ≤ pos → pos < offset → bytes.getD pos 0 = 0) :
    (writeAt bytes offset data).take (max size (offset + data.length)) = writeAt (bytes.take size) offset data := by
  refine ext_getD ?_ fun pos hpos => ?_
  · rw [List.length_take, length_writeAt, length_writeAt, List.length_take]
    omega
  · rw [List.length_take, length_writeAt] at hpos
    rw [getD_take_eq, if_pos (by omega), getD_writeAt, getD_writeAt]
    split
    · rfl
    · rw [getD_take_eq]
      split
      · rfl
      · exact hgap pos (by omega) (by omega)

/-- The file after it was cut or stretched. -/
theorem take_truncate {bytes bytes' : List UInt8} {size length : ℕ} (hlen : length ≤ bytes'.length)
    (hbyte : ∀ pos, pos < length → bytes'.getD pos 0 = if pos < size then bytes.getD pos 0 else 0) :
    bytes'.take length = truncateTo (bytes.take size) length := by
  refine ext_getD ?_ fun pos hpos => ?_
  · rw [List.length_take, length_truncateTo]
    omega
  · rw [List.length_take] at hpos
    rw [getD_take _ (by omega), getD_truncateTo _ (by omega), getD_take_eq]
    exact hbyte pos (by omega)

/-! ## The bytes that a call touches -/

/-- A range of a buffer that is read or written, with the capacity of the buffer then. -/
structure Access where
  start : ℕ
  count : ℕ
  capacity : ℕ
  deriving DecidableEq, Repr

/-- Every index of the range is below the capacity. -/
def Access.Within (x : Access) : Prop := ∀ j, j < x.count → x.start + j < x.capacity

/-- The ranges of its buffer that a call on a file touches. A change to a file that is read only is
refused before the driver is asked. -/
def accesses (now : Moment) (a : Attrs) (bytes : List UInt8) : NodeCall → List Access
  | .read offset length =>
    if a.size ≤ offset then []
    else [⟨offset, if a.size < u32 (offset + length) then a.size - offset else length, bytes.length⟩]
  | .write offset data =>
    if a.readonly then []
    else match ensureCapacity bytes (u32 (offset + data.length)) now.buffer with
      | none => []
      | some bytes' => [⟨bytes.length, bytes'.length - bytes.length, bytes'.length⟩, ⟨offset, data.length, bytes'.length⟩]
  | .truncate length =>
    if a.readonly = true ∨ length ≤ a.size then []
    else match ensureCapacity bytes length now.buffer with
      | none => []
      | some bytes' =>
        [⟨bytes.length, bytes'.length - bytes.length, bytes'.length⟩, ⟨a.size, length - a.size, bytes'.length⟩]

/-- The size and the bytes of the file at a path. -/
def contents (v : Volume RamFs) (path : List Name) : Option (List UInt8) :=
  (follow (v.root, v.tree) path).bind fun node => (v.fs.backend node.1.inode).map fun bytes => bytes.take node.1.size

/-- A file of ramfs with its buffer. -/
structure Held (v : Volume RamFs) (path : List Name) (a : Attrs) (bytes : List UInt8) : Prop where
  node : ∃ child, follow (v.root, v.tree) path = some (a, child)
  file : a.dir = false
  backend : v.fs.backend a.inode = some bytes
  size_le : a.size ≤ bytes.length
  capacity : Capacity bytes.length

variable {v : Volume RamFs} {path : List Name} {a : Attrs} {bytes : List UInt8}

theorem Held.contents_eq (h : Held v path a bytes) : contents v path = some (bytes.take a.size) := by
  obtain ⟨child, hf⟩ := h.node
  unfold contents
  rw [hf, Option.bind_some, h.backend]
  rfl

/-- The file gets another buffer and another size. -/
theorem Held.resize (h : Held v path a bytes) {s : RamFs} {bytes' : List UInt8} (hs : s.backend a.inode = some bytes')
    {size : ℕ} (hsize : size ≤ bytes'.length) (hc : Capacity bytes'.length) :
    Held (Volume.resize { v with fs := s } path size) path { a with size := size } bytes' := by
  obtain ⟨child, hf⟩ := h.node
  have hnode := (modify_node { v with fs := s } path fun a child => ({ a with size := size }, child)).1
  refine ⟨⟨child, ?_⟩, h.file, ?_, hsize, hc⟩
  · unfold Volume.resize
    rw [hnode]
    exact follow_modifyNode (fun _ _ => rfl) hf
  · rw [Volume.resize_fs]
    exact hs

/-! ## One call -/

/-- A call either fails and leaves the file as it is, or does what it does to the array. -/
def FollowsArray (now : Moment) (v : Volume RamFs) (path : List Name) (a : Attrs) (bytes : List UInt8) : NodeCall → Prop
  | .read offset length => v.read ops a offset length = some (readAt (bytes.take a.size) offset length)
  | .write offset data =>
    (v.write ops now path a offset data).2 < 0 ∧ contents (v.write ops now path a offset data).1 path = contents v path ∨
      offset + data.length ≤ maxFile ∧
        contents (v.write ops now path a offset data).1 path = some (writeAt (bytes.take a.size) offset data)
  | .truncate length =>
    (v.truncate ops now path a length).2 = false ∧ contents (v.truncate ops now path a length).1 path = contents v path ∨
      length ≤ maxFile ∧ contents (v.truncate ops now path a length).1 path = some (truncateTo (bytes.take a.size) length)

/-- The end of the call does not wrap, and a write finds no old bytes in the gap it leaves; a write
that the driver refuses for its length is excepted. -/
def Fitting (a : Attrs) (bytes : List UInt8) : NodeCall → Prop
  | .read offset length => offset < a.size → offset + length < 4294967296
  | .write offset data => a.readonly = false → u32 (offset + data.length) ≤ max bytes.length maxFile →
    offset + data.length < 4294967296 ∧ ∀ pos, a.size ≤ pos → pos < offset → bytes.getD pos 0 = 0
  | .truncate _ => True

/-- What a call comes to. -/
structure Done (now : Moment) (v : Volume RamFs) (path : List Name) (a : Attrs) (bytes : List UInt8) (c : NodeCall) : Prop where
  within : ∀ x ∈ accesses now a bytes c, x.Within
  array : FollowsArray now v path a bytes c
  held : ∃ a' bytes', Held (c.run ops now v path) path a' bytes'

theorem Held.run_eq (h : Held v path a bytes) (now : Moment) (c : NodeCall) : c.run ops now v path =
    match c with
    | .read _ _ => v
    | .write offset data => (v.write ops now path a offset data).1
    | .truncate length => (v.truncate ops now path a length).1 := by
  obtain ⟨child, hf⟩ := h.node
  unfold NodeCall.run
  rw [hf]
  rfl

theorem Held.read (h : Held v path a bytes) (now : Moment) {offset length : ℕ}
    (hfit : Fitting a bytes (.read offset length)) : Done now v path a bytes (.read offset length) where
  within := by
    rw [accesses]
    split
    · simp
    · next hlt =>
      intro x hx j hj
      rw [List.mem_singleton.mp hx] at hj ⊢
      have hle := h.size_le
      rw [u32_of_lt (hfit (by omega))] at hj
      dsimp only at hj ⊢
      split at hj <;> omega
  array := by
    show v.read ops a offset length = _
    unfold Volume.read
    rw [if_neg (by simp [h.file])]
    show some (RamFs.read v.fs a offset length) = _
    unfold RamFs.read
    rw [h.backend]
    dsimp only
    unfold readAt
    split
    · next hge =>
      rw [List.drop_eq_nil_of_le (Nat.le_trans (List.length_take_le _ _) hge), List.take_nil]
    · next hlt =>
      rw [u32_of_lt (hfit (by omega)), List.drop_take, List.take_take]
      congr 2
      split <;> omega
  held := ⟨a, bytes, by rw [h.run_eq now]; exact h⟩

theorem write_of_backend {s : RamFs} (hb : s.backend a.inode = some bytes) (now : Moment) (offset : ℕ) (data : List UInt8) :
    write now s a offset data = match ensureCapacity bytes (u32 (offset + data.length)) now.buffer with
      | none => ((s, a.size), -1)
      | some bytes' => ((s.store a.inode bytes' offset data, max a.size (u32 (offset + data.length))), signed data.length) := by
  unfold write
  rw [hb]
  dsimp only
  cases ensureCapacity bytes (u32 (offset + data.length)) now.buffer with
  | none => rfl
  | some bytes' =>
    have hsize : (if a.size < u32 (offset + data.length) then u32 (offset + data.length) else a.size) =
        max a.size (u32 (offset + data.length)) := by
      split <;> omega
    dsimp only
    rw [hsize]

theorem store_backend (s : RamFs) (n : ℕ) (bytes : List UInt8) (offset : ℕ) (data : List UInt8) :
    (s.store n bytes offset data).backend n = some (overlay bytes offset data) := Function.update_self _ _ _

theorem Held.write (h : Held v path a bytes) (now : Moment) {offset : ℕ} {data : List UInt8}
    (hfit : Fitting a bytes (.write offset data)) : Done now v path a bytes (.write offset data) := by
  have hrun := h.run_eq now (.write offset data)
  dsimp only at hrun
  by_cases hro : a.readonly = true
  · have hw : v.write ops now path a offset data = (v, -2) := by
      unfold Volume.write
      rw [if_neg (by simp [h.file]), if_pos hro]
    refine ⟨?_, Or.inl ?_, a, bytes, ?_⟩
    · rw [accesses, if_pos hro]
      simp
    · rw [hw]
      exact ⟨(show (-2 : ℤ) < 0 by decide), rfl⟩
    · rw [hrun, hw]
      exact h
  have hstep : v.write ops now path a offset data =
      (Volume.resize { v with fs := (RamFs.write now v.fs a offset data).1.1 } path
        (RamFs.write now v.fs a offset data).1.2, (RamFs.write now v.fs a offset data).2) := by
    unfold Volume.write
    rw [if_neg (by simp [h.file]), if_neg hro]
    rfl
  rw [write_of_backend h.backend] at hstep
  cases hcap : ensureCapacity bytes (u32 (offset + data.length)) now.buffer with
  | none =>
    rw [hcap] at hstep
    have hsame : Held (Volume.resize v path a.size) path a bytes := h.resize h.backend h.size_le h.capacity
    refine ⟨?_, Or.inl ?_, a, bytes, ?_⟩
    · rw [accesses, if_neg hro, hcap]
      simp
    · rw [hstep]
      exact ⟨(show (-1 : ℤ) < 0 by decide), hsame.contents_eq.trans h.contents_eq.symm⟩
    · rw [hrun, hstep]
      exact hsame
  | some bytes' =>
    rw [hcap] at hstep
    have hext := ensureCapacity_extends hcap h.capacity
    have hlimit := hext.capacity.le
    have hneeded := hext.needed_le
    obtain ⟨hwrap, hgap⟩ := hfit (by simpa using hro) (by omega)
    rw [u32_of_lt hwrap] at hstep hneeded
    have hle := h.size_le
    have hlen := hext.length_le
    have hover : (overlay bytes' offset data).length = bytes'.length := by
      rw [overlay_eq_writeAt hneeded, length_writeAt]
      omega
    have hheld : Held (Volume.resize { v with fs := v.fs.store a.inode bytes' offset data } path
        (max a.size (offset + data.length))) path { a with size := max a.size (offset + data.length) }
        (overlay bytes' offset data) :=
      h.resize (store_backend _ _ _ _ _) (by omega) (by rw [hover]; exact hext.capacity)
    refine ⟨?_, Or.inr ⟨by omega, ?_⟩, ?_⟩
    · rw [accesses, if_neg hro, hcap]
      intro x hx j hj
      rcases List.mem_cons.mp hx with rfl | hx
      · dsimp only at hj ⊢
        omega
      · rw [List.mem_singleton.mp hx] at hj ⊢
        dsimp only at hj ⊢
        omega
    · rw [hstep]
      refine hheld.contents_eq.trans (congrArg some ?_)
      have hstart : bytes'.take a.size = bytes.take a.size := by
        refine ext_getD (by rw [List.length_take, List.length_take]; omega) fun pos hpos => ?_
        rw [getD_take_eq, getD_take_eq, hext.getD]
      rw [overlay_eq_writeAt hneeded, ← hstart]
      exact take_writeAt (by omega) hneeded fun pos h₁ h₂ => (hext.getD pos).trans (hgap pos h₁ h₂)
    · rw [hrun, hstep]
      exact ⟨_, _, hheld⟩

theorem Held.truncate (h : Held v path a bytes) (now : Moment) (length : ℕ) : Done now v path a bytes (.truncate length) := by
  have hrun := h.run_eq now (.truncate length)
  dsimp only at hrun
  have hle := h.size_le
  by_cases hro : a.readonly = true
  · have ht : v.truncate ops now path a length = (v, false) := by
      unfold Volume.truncate
      rw [if_pos (Or.inr hro)]
    refine ⟨?_, Or.inl ?_, a, bytes, ?_⟩
    · rw [accesses, if_pos (Or.inl hro)]
      simp
    · rw [ht]
      exact ⟨rfl, rfl⟩
    · rw [hrun, ht]
      exact h
  have hstep : v.truncate ops now path a length =
      (Volume.resize { v with fs := (RamFs.truncate now v.fs a length).1.1 } path
        (RamFs.truncate now v.fs a length).1.2, (RamFs.truncate now v.fs a length).2) := by
    unfold Volume.truncate
    rw [if_neg (by simp [h.file, hro])]
    rfl
  unfold RamFs.truncate at hstep
  rw [h.backend] at hstep
  dsimp only at hstep
  by_cases hlt : a.size < length
  · rw [if_pos hlt] at hstep
    have hacc : ¬(a.readonly = true ∨ length ≤ a.size) := by simp [hro, hlt]
    cases hcap : ensureCapacity bytes length now.buffer with
    | none =>
      rw [hcap] at hstep
      have hsame : Held (Volume.resize v path a.size) path a bytes := h.resize h.backend h.size_le h.capacity
      refine ⟨?_, Or.inl ?_, a, bytes, ?_⟩
      · rw [accesses, if_neg hacc, hcap]
        simp
      · rw [hstep]
        exact ⟨rfl, hsame.contents_eq.trans h.contents_eq.symm⟩
      · rw [hrun, hstep]
        exact hsame
    | some bytes' =>
      rw [hcap] at hstep
      have hext := ensureCapacity_extends hcap h.capacity
      have hlimit := hext.capacity.le
      have hneeded := hext.needed_le
      have hlen := hext.length_le
      have hzeros : a.size + (List.replicate (length - a.size) (0 : UInt8)).length ≤ bytes'.length := by
        rw [List.length_replicate]
        omega
      have hover : (overlay bytes' a.size (List.replicate (length - a.size) 0)).length = bytes'.length := by
        rw [overlay_eq_writeAt hzeros, length_writeAt]
        omega
      have hheld : Held (Volume.resize { v with fs := v.fs.store a.inode bytes' a.size (List.replicate (length - a.size) 0) }
          path length) path { a with size := length } (overlay bytes' a.size (List.replicate (length - a.size) 0)) :=
        h.resize (store_backend _ _ _ _ _) (by omega) (by rw [hover]; exact hext.capacity)
      refine ⟨?_, Or.inr ⟨by omega, ?_⟩, ?_⟩
      · rw [accesses, if_neg hacc, hcap]
        intro x hx j hj
        rcases List.mem_cons.mp hx with rfl | hx
        · dsimp only at hj ⊢
          omega
        · rw [List.mem_singleton.mp hx] at hj ⊢
          dsimp only at hj ⊢
          omega
      · rw [hstep]
        refine hheld.contents_eq.trans (congrArg some (take_truncate (show length ≤ _ by omega) fun pos hpos => ?_))
        dsimp only at hpos
        rw [overlay_eq_writeAt hzeros, getD_writeAt, List.length_replicate, hext.getD]
        split
        · rw [if_neg (by omega), List.getD_eq_getElem?_getD, List.getElem?_replicate]
          split <;> rfl
        · rw [if_pos (by omega)]
      · rw [hrun, hstep]
        exact ⟨_, _, hheld⟩
  · rw [if_neg hlt] at hstep
    have hheld : Held (Volume.resize v path length) path { a with size := length } bytes :=
      h.resize h.backend (by omega) h.capacity
    have hmax := h.capacity.le
    refine ⟨?_, Or.inr ⟨by omega, ?_⟩, ?_⟩
    · rw [accesses, if_pos (Or.inr (Nat.le_of_not_lt hlt))]
      simp
    · rw [hstep]
      refine hheld.contents_eq.trans (congrArg some (take_truncate (show length ≤ _ by omega) fun pos hpos => ?_))
      dsimp only at hpos
      rw [if_pos (by omega)]
    · rw [hrun, hstep]
      exact ⟨_, _, hheld⟩

/-! ## Runs -/

/-- The condition on the state that a call finds. -/
def FitsNode (v : Volume RamFs) (path : List Name) (c : NodeCall) : Prop := ∀ a bytes, Held v path a bytes → Fitting a bytes c

/-- Whatever the heap answers, the call does what it should. -/
def Obeys (v : Volume RamFs) (path : List Name) (c : NodeCall) : Prop :=
  ∃ a bytes, Held v path a bytes ∧ ∀ now, (∀ x ∈ accesses now a bytes c, x.Within) ∧ FollowsArray now v path a bytes c

theorem Held.call (h : Held v path a bytes) {c : NodeCall} (hfit : Fitting a bytes c) (now : Moment) :
    Done now v path a bytes c := by
  cases c with
  | read offset length => exact h.read now hfit
  | write offset data => exact h.write now hfit
  | truncate length => exact h.truncate now length

/-- In every run whose calls do not wrap and leave no old bytes in a gap, every call does what it
should and stays within the buffer. -/
theorem ramfs_as_array {v : Volume RamFs} {path : List Name} {a : Attrs} {bytes : List UInt8} (h : Held v path a bytes)
    {calls : List (NodeCall × Moment)} (hfit : Along ops FitsNode v (callsOn path calls)) :
    Along ops Obeys v (callsOn path calls) := by
  induction calls generalizing v a bytes with
  | nil => trivial
  | cons call rest ih =>
    have hdone := fun now => h.call (hfit.1 a bytes h) now
    obtain ⟨a', bytes', hnext⟩ := (hdone call.2).held
    exact ⟨⟨a, bytes, h, fun now => ⟨(hdone now).within, (hdone now).array⟩⟩, ih hnext hfit.2⟩

/-- An empty file on ramfs. -/
def ramNode : Attrs := { name := [97], dir := false, readonly := false, size := 0, inode := 2 }

/-- The volume that has it. -/
def smallRam : Volume RamFs where
  fs := { backend := Function.update (fun _ => none) 2 (some []), next := 3, overrun := false }
  root := { name := [], dir := true, readonly := false, size := 0, inode := 1 }
  tree := .node ramNode .nil .nil

theorem smallRam_held : Held smallRam [[97]] ramNode [] where
  node := ⟨.nil, rfl⟩
  file := rfl
  backend := rfl
  size_le := Nat.le_refl _
  capacity := Or.inl rfl

/-- The file gets two bytes and loses one. -/
theorem ramfs_as_array_small : Along ops Obeys smallRam
    (callsOn [[97]] [(.write 0 [65, 66], ⟨0, true, true, true⟩), (.truncate 1, ⟨0, true, true, true⟩)]) :=
  ramfs_as_array smallRam_held
    ⟨fun _ _ _ _ _ => ⟨by decide, fun pos _ hlt => absurd hlt (Nat.not_lt_zero pos)⟩, fun _ _ _ => trivial, trivial⟩

/-- Two bytes at the last offset: the end wraps to 1, and the copy begins far behind the buffer. -/
theorem ramfs_leaves_buffer : ¬∀ (v : Volume RamFs) (path : List Name) (a : Attrs) (bytes : List UInt8)
    (calls : List (NodeCall × Moment)), Held v path a bytes → (∀ call ∈ calls, call.1.Fits) →
    Along ops Obeys v (callsOn path calls) := by
  intro h
  obtain ⟨⟨a, bytes, hheld, hdone⟩, -⟩ := h smallRam [[97]] ramNode [] [(.write 4294967295 [65, 66], ⟨0, true, true, true⟩)]
    smallRam_held fun call hcall => by
      rw [List.mem_singleton.mp hcall]
      exact ⟨by decide, by decide⟩
  obtain ⟨child, hf⟩ := hheld.node
  obtain ⟨rfl, -⟩ := Prod.mk.inj (Option.some.inj (smallRam_held.node.choose_spec.symm.trans hf))
  obtain rfl := Option.some.inj (smallRam_held.backend.symm.trans hheld.backend)
  have hwithin := (hdone ⟨0, true, true, true⟩).1 ⟨4294967295, 2, 64⟩ (by decide) 0 (by decide)
  exact absurd hwithin (by decide)

end RamFs

end SifarOS.Vfs
