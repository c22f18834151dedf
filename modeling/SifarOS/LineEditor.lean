import SifarOS.LineInput
import SifarOS.TerminalLine

/-! # The line editor of the shell

`kernel/sh/shell.c`: `history_add`, `erase_line` and `read_line`, which changes its buffer and the terminal key by
key. An access outside of the buffer or of `history` has no value, nor has a negative number of bytes. -/
namespace SifarOS.LineEditor
open LineInput TerminalLine

def backspaceChar : UInt8 := 8

def blank : UInt8 := 32

abbrev Terminal := TerminalLine.Terminal UInt8

def consolePutc (t : Terminal) (c : UInt8) : Terminal := putc backspaceChar t c

/-- A loop that writes one character again and again. -/
def putLoop (c : UInt8) : ℕ → Terminal → Terminal
  | 0, t => t
  | n + 1, t => putLoop c n (consolePutc t c)

/-- `console_clear`: a terminal on the serial line, or the text screen, is cleared and its cursor put into the corner. -/
def consoleClear (_ : Terminal) : Terminal := shows blank [] 0

/-! ## The buffer -/

section Buffer
variable (size : ℕ)

/-- The string at the start of the buffer. -/
def cString (buffer : Buffer) : List UInt8 := ((List.range size).map buffer).takeWhile (· ≠ 0)

def writeLoop (buffer : Buffer) : ℕ → ℤ → Terminal → Option Terminal
  | 0, _, t => some t
  | n + 1, i, t => do
    let c ← get size buffer i
    writeLoop buffer n (i + 1) (consolePutc t c)

/-- `console_write(buffer + i, (size_t)n)`. -/
def consoleWrite (buffer : Buffer) (i n : ℤ) (t : Terminal) : Option Terminal :=
  if 0 ≤ n then writeLoop size buffer n.toNat i t else none

end Buffer

/-! ## The shell -/

structure Shell where
  history : List (List UInt8)
  cwd : List UInt8

def historyMax : ℕ := 16

def lineMax : ℕ := 256

def historyAdd (history : List (List UInt8)) (line : List UInt8) : List (List UInt8) :=
  if line = [] then history
  else if history.getLast? = some line then history
  else (if history.length = historyMax then history.drop 1 else history) ++ [line.take (lineMax - 1)]

/-- What `prompt` prints: `"sifar:%s$ "`. -/
def promptText (sh : Shell) : List UInt8 := [115, 105, 102, 97, 114, 58] ++ sh.cwd ++ [36, 32]

def prompt (sh : Shell) (t : Terminal) : Terminal := (promptText sh).foldl consolePutc t

def eraseLine (length cursor : ℤ) (t : Terminal) : Terminal :=
  let t := putLoop blank (length - cursor).toNat t
  let t := putLoop backspaceChar length.toNat t
  let t := putLoop blank length.toNat t
  putLoop backspaceChar length.toNat t

/-! ## Reading a line -/

/-- The variables of `read_line`, and the terminal. -/
structure ReadLine where
  buffer : Buffer
  length : ℤ
  cursor : ℤ
  browse : ℤ
  term : Terminal

section ReadLine
variable (size : ℕ)

/-- Before the first key, behind the prompt on a line of its own. -/
def start (sh : Shell) (buffer : Buffer) : ReadLine :=
  ⟨Function.update buffer 0 0, 0, 0, sh.history.length, prompt sh (shows blank [] 0)⟩

def redraw (sh : Shell) (s : ReadLine) : Option ReadLine := do
  let t ← consoleWrite size s.buffer 0 s.length (prompt sh (consoleClear s.term))
  return { s with term := putLoop backspaceChar (s.length - s.cursor).toNat t }

def eraseBefore (s : ReadLine) : Option ReadLine :=
  if s.cursor > 0 then do
    let buffer ← memmove size s.buffer (s.cursor - 1) s.cursor (s.length - s.cursor)
    let cursor := s.cursor - 1
    let length := s.length - 1
    let t ← consoleWrite size buffer cursor (length - cursor) (consolePutc s.term backspaceChar)
    return ⟨buffer, length, cursor, s.browse,
      putLoop backspaceChar (length + 1 - cursor).toNat (consolePutc t blank)⟩
  else some s

def eraseAt (s : ReadLine) : Option ReadLine :=
  if s.cursor < s.length then do
    let buffer ← memmove size s.buffer s.cursor (s.cursor + 1) (s.length - s.cursor - 1)
    let length := s.length - 1
    let t ← consoleWrite size buffer s.cursor (length - s.cursor) s.term
    return ⟨buffer, length, s.cursor, s.browse,
      putLoop backspaceChar (length + 1 - s.cursor).toNat (consolePutc t blank)⟩
  else some s

def left (s : ReadLine) : ReadLine :=
  if s.cursor > 0 then { s with cursor := s.cursor - 1, term := consolePutc s.term backspaceChar } else s

def right (s : ReadLine) : Option ReadLine :=
  if s.cursor < s.length then do
    let c ← get size s.buffer s.cursor
    return { s with cursor := s.cursor + 1, term := consolePutc s.term c }
  else some s

/-- `while (cursor > 0)`, for as many turns as there are columns. -/
def homeLoop : ℕ → ReadLine → ReadLine
  | 0, s => s
  | n + 1, s => homeLoop n (left s)

/-- `while (cursor < length)`, for as many turns as there are characters. -/
def endLoop : ℕ → ReadLine → Option ReadLine
  | 0, s => some s
  | n + 1, s => do
    let s ← right size s
    endLoop n s

def recallEntry (sh : Shell) (s : ReadLine) (step : ℤ) : Option ReadLine :=
  let target := s.browse + step
  if target < 0 ∨ target > sh.history.length then some s
  else
    let t := eraseLine s.length s.cursor s.term
    if target = sh.history.length then do
      let buffer ← set size s.buffer 0 0
      return ⟨buffer, 0, 0, target, t⟩
    else do
      let line ← sh.history[target.toNat]?
      let buffer := strlcpy size s.buffer line
      let length ← strlen size buffer
      let t ← consoleWrite size buffer 0 length t
      return ⟨buffer, length, length, target, t⟩

def insert (s : ReadLine) (c : UInt8) : Option ReadLine :=
  if s.length + 1 ≥ size then some s
  else do
    let buffer ← memmove size s.buffer (s.cursor + 1) s.cursor (s.length - s.cursor)
    let buffer ← set size buffer s.cursor c
    let length := s.length + 1
    let t ← consoleWrite size buffer s.cursor (length - s.cursor) s.term
    let cursor := s.cursor + 1
    return ⟨buffer, length, cursor, s.browse, putLoop backspaceChar (length - cursor).toNat t⟩

/-- What a key leads to: the next key, a line of some length, or none. -/
inductive Outcome where
  | more (s : ReadLine)
  | line (buffer : Buffer) (length : ℤ)
  | cancelled

/-- A turn of `read_line`. -/
def readKey (sh : Shell) (s : ReadLine) (c : ℕ) : Option Outcome :=
  if c = 10 ∨ c = 13 then (set size s.buffer s.length 0).map fun buffer => .line buffer s.length
  else if c = 3 then some .cancelled
  else Outcome.more <$>
    if c = 12 then redraw size sh s
    else if c = 8 ∨ c = 127 then eraseBefore size s
    else if c = keyDelete then eraseAt size s
    else if c = keyLeft then some (left s)
    else if c = keyRight then right size s
    else if c = keyHome then some (homeLoop s.cursor.toNat s)
    else if c = keyEnd then endLoop size (s.length - s.cursor).toNat s
    else if c = keyUp then recallEntry size sh s (-1)
    else if c = keyDown then recallEntry size sh s 1
    else if c < 32 ∨ c > 126 then some s
    else insert size s (UInt8.ofNat c)

end ReadLine

end SifarOS.LineEditor
