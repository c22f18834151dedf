import SifarOS.SeparateSpaces
import SifarOS.WindowServer

/-! # The buffers of windows

`allocate_buffer`, `release_buffer` and the calls of `kernel/gui/wm.c` that use them: the window server together with
the frames and tables of the machine. As in the modules on paging, a pointer to a frame is its number. -/
namespace SifarOS.WindowBuffers
open ByteMemory Graphics Paging Paging.Machine WindowServer

def windowVaBase : ℕ := 0x60000000
def windowVaStep : ℕ := 0x400000

/-- `struct gfx_surface`, with the first frame of its pixels. -/
structure Surface where
  pixels : ℕ
  width : Int32
  height : Int32
  stride : Int32
  clip : Rect

/-- `gfx_surface_init` -/
def surfaceInit (pixels : ℕ) (width height stride : Int32) : Surface :=
  ⟨pixels, width, height, stride, ⟨0, 0, width, height⟩⟩

/-- The fields of `struct window` that the window server's own model leaves out. -/
structure Buffer where
  userAddress : ℕ
  bufferPhys : ℕ
  bufferPages : ℕ
  surface : Surface

/-- The pages of a buffer, counted in 32 bits. -/
def pagesFor (width height : Int32) : ℕ :=
  u32 (u32 (width.toUInt32.toNat * height.toUInt32.toNat * 4) + pageSize - 1) / pageSize

/-- The loop of `allocate_buffer`, from page `i` on; `false` where it returns −1. -/
def mapLoop (pd user phys : ℕ) : ℕ → ℕ → Machine → Machine × Bool
  | 0, _, m => (m, true)
  | n + 1, i, m =>
    let mapped := m.vmmMapIn pd (user + i * pageSize) ((phys + i) * pageSize) userFlags
    if mapped.2 < 0 then (mapped.1, false) else mapLoop pd user phys n (i + 1) mapped.1

def unmapLoop (pd user : ℕ) : ℕ → ℕ → Machine → Machine
  | 0, _, m => m
  | n + 1, i, m => unmapLoop pd user n (i + 1) (m.vmmUnmapIn pd (user + i * pageSize))

/-- The loop with which `wm_resize_window` puts the old buffer back. -/
def remapLoop (pd user phys : ℕ) : ℕ → ℕ → Machine → Machine
  | 0, _, m => m
  | n + 1, i, m =>
    remapLoop pd user phys n (i + 1) (m.vmmMapIn pd (user + i * pageSize) ((phys + i) * pageSize) userFlags).1

/-- `allocate_buffer` for the process with this directory; `none` where it returns −1. -/
def allocateBuffer (m : Machine) (pd : ℕ) (w : Buffer) (width height : Int32) : Machine × Option Buffer :=
  let pages := pagesFor width height
  let allocated := m.pmmAllocFrames pages
  let phys := allocated.2
  if phys = 0 then (allocated.1, none)
  else
    let mapped := mapLoop pd w.userAddress phys pages 0 (allocated.1.clearRun phys pages)
    if mapped.2 = false then (mapped.1.pmmFreeContiguous phys pages, none)
    else (mapped.1, some { w with
      bufferPhys := phys
      bufferPages := pages
      surface := surfaceInit phys width height width })

def releaseBuffer (m : Machine) (pd : ℕ) (w : Buffer) : Machine × Buffer :=
  if w.bufferPhys = 0 then (m, w)
  else
    ((unmapLoop pd w.userAddress w.bufferPages 0 m).pmmFreeContiguous w.bufferPhys w.bufferPages,
      { w with bufferPhys := 0, bufferPages := 0 })

/-- The window server, the machine, the directories of the processes and the buffers of the windows. -/
structure Desktop where
  server : Server
  machine : Machine
  directory : ℕ → ℕ
  buffers : WindowSlot → Buffer

/-- The fields of the buffer after the `memset` of a new window. -/
def newBuffer (slot : WindowSlot) : Buffer := ⟨windowVaBase + slot * windowVaStep, 0, 0, ⟨0, 0, 0, 0, ⟨0, 0, 0, 0⟩⟩⟩

namespace Desktop

/-- `wm_create_window` -/
def createWindow (screen : Screen) (d : Desktop) (owner : ℕ) (width height : Int32) (title : List UInt8)
    (flags : UInt32) : Desktop × Int32 :=
  if width ≤ 0 ∨ height ≤ 0 then (d, -1)
  else if width > screen.width ∨ height > screen.height then (d, -1)
  else
    match (List.finRange 32).find? fun i => !(d.server.windows i).used with
    | none => (d, -2)
    | some slot =>
      let allocated := allocateBuffer d.machine (d.directory owner) (newBuffer slot) width height
      let created := d.server.wmCreateWindow screen owner width height title flags allocated.2.isSome
      ({ d with
        server := created.1
        machine := allocated.1
        buffers := Function.update d.buffers slot (allocated.2.getD (newBuffer slot)) }, created.2)

/-- `wm_resize_window` -/
def resizeWindow (screen : Screen) (d : Desktop) (owner : ℕ) (id : UInt32) (width height : Int32) : Desktop × Int32 :=
  match d.server.find id with
  | none => (d, -1)
  | some i =>
    let window := d.server.windows i
    if window.owner ≠ owner then (d, -1)
    else if width ≤ 0 ∨ height ≤ 0 ∨ width > screen.width ∨ height > screen.height then (d, -1)
    else if width = window.width ∧ height = window.height then (d, 0)
    else
      let w := d.buffers i
      let pd := d.directory window.owner
      let unmapped := unmapLoop pd w.userAddress w.bufferPages 0 d.machine
      let allocated := allocateBuffer unmapped pd { w with bufferPhys := 0 } width height
      let resized := d.server.wmResizeWindow screen owner id width height allocated.2.isSome
      match allocated.2 with
      | none =>
        ({ d with
          server := resized.1
          machine := remapLoop pd w.userAddress w.bufferPhys w.bufferPages 0 allocated.1
          buffers := Function.update d.buffers i
            { w with surface := surfaceInit w.bufferPhys window.width window.height window.width } }, resized.2)
      | some new =>
        ({ d with
          server := resized.1
          machine := allocated.1.pmmFreeContiguous w.bufferPhys w.bufferPages
          buffers := Function.update d.buffers i new }, resized.2)

/-- `wm_destroy_window` -/
def destroyWindow (d : Desktop) (owner : Option ℕ) (id : UInt32) : Desktop × Int32 :=
  match d.server.find id with
  | none => (d, -1)
  | some i =>
    if owner.any (· ≠ (d.server.windows i).owner) then (d, -1)
    else
      let released := releaseBuffer d.machine (d.directory (d.server.windows i).owner) (d.buffers i)
      let destroyed := d.server.wmDestroyWindow owner id
      ({ d with server := destroyed.1, machine := released.1, buffers := Function.update d.buffers i released.2 }, destroyed.2)

/-- `wm_close_process_windows` -/
def closeProcessWindows (d : Desktop) (owner : ℕ) : Desktop :=
  (List.finRange 32).foldl (fun d i =>
    if (d.server.windows i).used ∧ (d.server.windows i).owner = owner then
      (d.destroyWindow (some owner) (d.server.windows i).id).1
    else d) d

/-- `handle_mouse_move` behind the cursor: with a corner held the window is resized, and all else is the server's. -/
def mouseMove (screen : Screen) (d : Desktop) (x y : Int32) (buttons : UInt32) : Desktop :=
  let d := { d with server := { d.server with cursorX := x, cursorY := y } }
  let s := d.server
  if s.dragId = 0 ∧ s.resizeId ≠ 0 then
    match s.find s.resizeId with
    | none => d
    | some i =>
      let w := s.windows i
      let width := Server.atLeast 160 (s.resizeStartW + (x - s.resizeStartX))
      let height := Server.atLeast 100 (s.resizeStartH + (y - s.resizeStartY))
      if width ≠ w.width ∨ height ≠ w.height then (d.resizeWindow screen w.owner w.id width height).1 else d
  else { d with server := s.handleMouseMove screen x y buttons false }

end Desktop

/-- The calls that have to do with buffers. -/
inductive Request
  | create (owner : ℕ) (width height : Int32) (title : List UInt8) (flags : UInt32)
  | resize (owner : ℕ) (id : UInt32) (width height : Int32)
  | destroy (owner : Option ℕ) (id : UInt32)
  | closeProcess (owner : ℕ)
  | mouseMove (x y : Int32) (buttons : UInt32)

def Desktop.serve (screen : Screen) (d : Desktop) : Request → Desktop
  | .create owner width height title flags => (d.createWindow screen owner width height title flags).1
  | .resize owner id width height => (d.resizeWindow screen owner id width height).1
  | .destroy owner id => (d.destroyWindow owner id).1
  | .closeProcess owner => d.closeProcessWindows owner
  | .mouseMove x y buttons => d.mouseMove screen x y buttons

/-- The other calls of the server. -/
def touchesNoBuffer : Call → Bool
  | .create .. | .resize .. | .destroy .. | .closeProcess .. | .mouseMove .. => false
  | _ => true

end SifarOS.WindowBuffers
