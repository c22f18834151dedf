import SifarOS.Vfs

/-! # ramfs

`kernel/fs/ramfs.c`, the other driver of the VFS: it keeps the bytes of files in the kernel heap. -/
namespace SifarOS.Vfs
open ByteMemory

/-- The files of ramfs. A node is known by a number that no other node has had. Its `backend` is
`none` for `NULL`, or the buffer of its record, which is as long as its capacity. `overrun` says that
a copy has left its buffer: then nothing is known of the kernel heap. -/
structure RamFs where
  backend : ℕ → Option (List UInt8)
  next : ℕ
  overrun : Bool

namespace RamFs

/-- `RAMFS_MAX_FILE`. -/
def maxFile : ℕ := 4194304

/-- The loop that doubles the capacity; it runs at most 23 times. -/
def doubled (needed : ℕ) : ℕ → ℕ → ℕ
  | 0, capacity => capacity
  | fuel + 1, capacity => if capacity < needed then doubled needed fuel (2 * capacity) else capacity

/-- `ensure_capacity`; `none` is its -1. -/
def ensureCapacity (bytes : List UInt8) (needed : ℕ) (room : Bool) : Option (List UInt8) :=
  if needed ≤ bytes.length then some bytes
  else if maxFile < needed then none
  else if room = false then none
  else
    let capacity := doubled needed 32 (if bytes.length = 0 then 64 else bytes.length)
    some (bytes ++ List.replicate (capacity - bytes.length) 0)

/-- `memcpy` into a buffer. -/
def overlay (bytes : List UInt8) (offset : ℕ) (data : List UInt8) : List UInt8 :=
  bytes.take offset ++ data ++ bytes.drop (offset + data.length)

/-- Copy `data` into a buffer, which becomes that of node `n`. -/
def store (s : RamFs) (n : ℕ) (bytes : List UInt8) (offset : ℕ) (data : List UInt8) : RamFs :=
  { s with
    backend := Function.update s.backend n (some (overlay bytes offset data))
    overrun := s.overrun || decide (bytes.length < offset + data.length) }

/-- `ramfs_create`. -/
def create (now : Moment) (s : RamFs) (dir : Bool) : RamFs × Option ℕ :=
  if dir then ({ s with backend := Function.update s.backend s.next none, next := s.next + 1 }, some s.next)
  else if now.record = false then (s, none)
  else ({ s with backend := Function.update s.backend s.next (some []), next := s.next + 1 }, some s.next)

/-- `ramfs_destroy`. -/
def destroy (s : RamFs) (n : ℕ) : RamFs := { s with backend := Function.update s.backend n none }

/-- `ramfs_read`. -/
def read (s : RamFs) (a : Attrs) (offset length : ℕ) : List UInt8 :=
  match s.backend a.inode with
  | none => []
  | some bytes =>
    if a.size ≤ offset then []
    else
      let length := if a.size < u32 (offset + length) then a.size - offset else length
      (bytes.drop offset).take length

/-- `ramfs_write`. -/
def write (now : Moment) (s : RamFs) (a : Attrs) (offset : ℕ) (data : List UInt8) : (RamFs × ℕ) × ℤ :=
  match s.backend a.inode with
  | none => ((s, a.size), -1)
  | some bytes =>
    match ensureCapacity bytes (u32 (offset + data.length)) now.buffer with
    | none => ((s, a.size), -1)
    | some bytes =>
      ((s.store a.inode bytes offset data,
        if a.size < u32 (offset + data.length) then u32 (offset + data.length) else a.size), signed data.length)

/-- `ramfs_truncate`; whether it succeeded. -/
def truncate (now : Moment) (s : RamFs) (a : Attrs) (length : ℕ) : (RamFs × ℕ) × Bool :=
  match s.backend a.inode with
  | none => ((s, a.size), false)
  | some bytes =>
    if a.size < length then
      match ensureCapacity bytes length now.buffer with
      | none => ((s, a.size), false)
      | some bytes => ((s.store a.inode bytes a.size (List.replicate (length - a.size) 0), length), true)
    else ((s, length), true)

/-- The operations of `ramfs.c`, which has no use for the time. -/
def ops : FsOps RamFs where
  setClock := fun _ s => s
  read := fun s a offset length => some (s.read a offset length)
  write := write
  truncate := truncate
  create := fun now s _ _ dir => s.create now dir
  destroy := fun s _ _ number => s.destroy number

end RamFs

end SifarOS.Vfs
