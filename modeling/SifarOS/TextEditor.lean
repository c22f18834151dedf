import SifarOS.LineInput

/-! # The text editor

`user/apps/editor.c`: the lines of the text, loading and saving, and the keys. An access outside of `lines` or of
one of its rows has no value, nor has a `memmove` of negative length. -/
namespace SifarOS.TextEditor
open LineInput

/-- A row of `lines`. -/
abbrev Row := Buffer

/-- `lines`, `line_count` and the cursor. -/
structure Editor where
  lines : ℕ → Row
  lineCount : ℤ
  cursorLine : ℤ
  cursorCol : ℤ

/-! ## Rows -/

/-- `strlcpy(dst, src + col, MAX_COLS)`, where the string ends in its row. -/
def strlcpyFrom (dst src : Row) (col : ℤ) : Option Row :=
  if 0 ≤ col ∧ col ≤ 200 then
    ((List.range (200 - col.toNat)).find? fun j => src (col.toNat + j) = 0).map fun n =>
      strlcpy 200 dst ((List.range n).map fun j => src (col.toNat + j))
  else none

/-- `strcat(dst, src)`, for strings of these lengths that fit. -/
def strcat (dst src : Row) (previous length : ℕ) : Row := fun j =>
  if j < previous then dst j else if j < previous + length then src (j - previous)
  else if j = previous + length then 0 else dst j

namespace Editor

/-- `lines[i]`. -/
def row (e : Editor) (i : ℤ) : Option Row := if 0 ≤ i ∧ i < 512 then some (e.lines i.toNat) else none

/-- `(int)strlen(lines[i])`. -/
def length (e : Editor) (i : ℤ) : Option ℕ := (e.row i).bind (strlen 200)

def setRow (e : Editor) (i : ℤ) (row : Row) : Editor := { e with lines := Function.update e.lines i.toNat row }

end Editor

/-! ## Loading and saving -/

/-- Where `load` is in the text. -/
structure Loader where
  lines : ℕ → Row
  line : ℕ
  column : ℕ

def newline : UInt8 := 10

def tab : UInt8 := 9

def blank : UInt8 := 32

def loadChar (s : Loader) (c : UInt8) : Loader :=
  if s.column < 199 then
    { s with
      lines := Function.update s.lines s.line (Function.update (s.lines s.line) s.column c)
      column := s.column + 1 }
  else s

def loadByte (s : Loader) (c : UInt8) : Loader :=
  if c = newline then { s with line := s.line + 1, column := 0 }
  else if c = tab then loadChar (loadChar (loadChar (loadChar s blank) blank) blank) blank
  else if blank ≤ c ∧ c < 127 then loadChar s c
  else s

def loadLoop (s : Loader) : List UInt8 → Loader
  | [] => s
  | c :: rest => if s.line < 512 then loadLoop (loadByte s c) rest else s

/-- `load`; no file if it cannot be read or there is no memory for it. -/
def load (e : Editor) (file : Option (List UInt8)) : Editor :=
  match file with
  | none => { e with lines := fun _ _ => 0, lineCount := 1 }
  | some buffer =>
    let s := loadLoop ⟨fun _ _ => 0, 0, 0⟩ buffer
    { e with lines := s.lines, lineCount := s.line + 1 }

/-- The lines from one on, each with a newline behind it. -/
def saveLoop (e : Editor) (i : ℕ) : ℕ → Option (List UInt8)
  | 0 => some []
  | n + 1 => do
    let row ← e.row i
    let length ← strlen 200 row
    let rest ← saveLoop e (i + 1) n
    return (List.range length).map row ++ newline :: rest

/-- `save`: what it writes to the file. -/
def save (e : Editor) : Option (List UInt8) := saveLoop e 0 e.lineCount.toNat

/-! ## Editing -/

def insertChar (e : Editor) (c : UInt8) : Option Editor := do
  let row ← e.row e.cursorLine
  let length ← strlen 200 row
  if length ≥ 198 then return e
  let row ← memmove 200 row (e.cursorCol + 1) e.cursorCol (length - e.cursorCol + 1)
  let row ← set 200 row e.cursorCol c
  return { e.setRow e.cursorLine row with cursorCol := e.cursorCol + 1 }

/-- The rows behind the line are copied one down, the last one first. -/
def openLoop (line : ℤ) : ℕ → (ℕ → Row) → ℕ → Row
  | 0, lines => lines
  | i + 1, lines => if (i + 1 : ℕ) > line + 1 then openLoop line i (Function.update lines (i + 1) (lines i)) else lines

def splitLine (e : Editor) : Option Editor :=
  if e.lineCount ≥ 512 then some e
  else do
    let e := { e with lines := openLoop e.cursorLine e.lineCount.toNat e.lines }
    let row ← e.row e.cursorLine
    let below ← e.row (e.cursorLine + 1)
    let below ← strlcpyFrom below row e.cursorCol
    let row ← set 200 row e.cursorCol 0
    return { (e.setRow (e.cursorLine + 1) below).setRow e.cursorLine row with
      lineCount := e.lineCount + 1, cursorLine := e.cursorLine + 1, cursorCol := 0 }

/-- The rows from one on are copied one up. -/
def closeLoop (i : ℕ) : ℕ → (ℕ → Row) → ℕ → Row
  | 0, lines => lines
  | n + 1, lines => closeLoop (i + 1) n (Function.update lines i (lines (i + 1)))

def backspace (e : Editor) : Option Editor :=
  if e.cursorCol > 0 then do
    let row ← e.row e.cursorLine
    let length ← strlen 200 row
    let row ← memmove 200 row (e.cursorCol - 1) e.cursorCol (length - e.cursorCol + 1)
    return { e.setRow e.cursorLine row with cursorCol := e.cursorCol - 1 }
  else if e.cursorLine > 0 then do
    let above ← e.row (e.cursorLine - 1)
    let row ← e.row e.cursorLine
    let previous ← strlen 200 above
    let length ← strlen 200 row
    if previous + length < 199 then
      let e := e.setRow (e.cursorLine - 1) (strcat above row previous length)
      let _ ← e.row (e.lineCount - 1)
      let e := { e with lines := closeLoop e.cursorLine.toNat (e.lineCount - 1 - e.cursorLine).toNat e.lines }
      return { e.setRow (e.lineCount - 1) (fun _ => 0) with
        lineCount := e.lineCount - 1, cursorLine := e.cursorLine - 1, cursorCol := previous }
    else return e
  else some e

def keyUp : UInt32 := .ofNat LineInput.keyUp
def keyDown : UInt32 := .ofNat LineInput.keyDown
def keyLeft : UInt32 := .ofNat LineInput.keyLeft
def keyRight : UInt32 := .ofNat LineInput.keyRight
def keyHome : UInt32 := .ofNat LineInput.keyHome
def keyEnd : UInt32 := .ofNat LineInput.keyEnd
def keyDelete : UInt32 := .ofNat LineInput.keyDelete
def keyPgup : UInt32 := 0x107
def keyPgdn : UInt32 := 0x108
def keyEnter : UInt32 := 10
def keyBack : UInt32 := 8

/-- The cursor comes from another line. -/
def clampCol (e : Editor) : Option Editor := do
  let length ← e.length e.cursorLine
  return { e with cursorCol := if e.cursorCol > length then length else e.cursorCol }

def handleKey (e : Editor) (key : UInt32) : Option Editor := do
  let row ← e.row e.cursorLine
  let length ← strlen 200 row
  if key = keyEnter then splitLine e
  else if key = keyBack then backspace e
  else if key = keyLeft then
    if e.cursorCol > 0 then return { e with cursorCol := e.cursorCol - 1 }
    else if e.cursorLine > 0 then
      let length ← e.length (e.cursorLine - 1)
      return { e with cursorLine := e.cursorLine - 1, cursorCol := length }
    else return e
  else if key = keyRight then
    if e.cursorCol < length then return { e with cursorCol := e.cursorCol + 1 }
    else if e.cursorLine < e.lineCount - 1 then return { e with cursorLine := e.cursorLine + 1, cursorCol := 0 }
    else return e
  else if key = keyUp then
    if e.cursorLine > 0 then clampCol { e with cursorLine := e.cursorLine - 1 } else return e
  else if key = keyDown then
    if e.cursorLine < e.lineCount - 1 then clampCol { e with cursorLine := e.cursorLine + 1 } else return e
  else if key = keyHome then return { e with cursorCol := 0 }
  else if key = keyEnd then return { e with cursorCol := length }
  else if key = keyDelete then
    if e.cursorCol < length then
      let row ← memmove 200 row e.cursorCol (e.cursorCol + 1) (length - e.cursorCol)
      return e.setRow e.cursorLine row
    else return e
  else if key = keyPgup then
    return { e with cursorLine := if e.cursorLine - 10 < 0 then 0 else e.cursorLine - 10 }
  else if key = keyPgdn then
    return { e with cursorLine := if e.cursorLine + 10 ≥ e.lineCount then e.lineCount - 1 else e.cursorLine + 10 }
  else if key = 19 then (save e).map fun _ => e
  else if 32 ≤ key ∧ key < 127 then insertChar e key.toUInt8
  else return e

/-- A click on a line and a column of the window. -/
def click (e : Editor) (line column : ℤ) : Option Editor :=
  if 0 ≤ line ∧ line < e.lineCount then do
    let length ← e.length line
    return { e with cursorLine := line, cursorCol := if column < 0 then 0 else if column > length then length else column }
  else some e

end SifarOS.TextEditor
