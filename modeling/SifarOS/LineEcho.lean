import Mathlib.Data.Bool.AllAny
import Mathlib.Data.List.InsertIdx
import SifarOS.LineEditor

/-! # The echo of a line that is edited

A line editor with a text, a cursor and a place in the history; the buffer of `read_line` holds its text, and the
terminal shows it behind the prompt. -/
namespace SifarOS.LineEditor
open LineInput TerminalLine

/-! ## A line -/

structure Line where
  text : List UInt8
  cursor : ℕ
  browse : ℕ

namespace Line

def recallEntry (size : ℕ) (history : List (List UInt8)) (browse : ℕ) : Line :=
  let text := (history.getD browse []).take (size - 1)
  ⟨text, text.length, browse⟩

def press (size : ℕ) (history : List (List UInt8)) (l : Line) (c : ℕ) : Line :=
  if c = 8 ∨ c = 127 then
    if 0 < l.cursor then { l with text := l.text.eraseIdx (l.cursor - 1), cursor := l.cursor - 1 } else l
  else if c = keyDelete then { l with text := l.text.eraseIdx l.cursor }
  else if c = keyLeft then { l with cursor := l.cursor - 1 }
  else if c = keyRight then { l with cursor := min (l.cursor + 1) l.text.length }
  else if c = keyHome then { l with cursor := 0 }
  else if c = keyEnd then { l with cursor := l.text.length }
  else if c = keyUp then if 0 < l.browse then recallEntry size history (l.browse - 1) else l
  else if c = keyDown then if l.browse < history.length then recallEntry size history (l.browse + 1) else l
  else if 32 ≤ c ∧ c ≤ 126 ∧ l.text.length + 1 < size then
    { l with text := l.text.insertIdx l.cursor (UInt8.ofNat c), cursor := l.cursor + 1 }
  else l

end Line

/-! ## What the terminal shows -/

def Printable (c : UInt8) : Prop := 32 ≤ c ∧ c ≤ 126

instance (c : UInt8) : Decidable (Printable c) := inferInstanceAs (Decidable (_ ∧ _))

theorem Printable.ne_back {c : UInt8} (h : Printable c) : c ≠ backspaceChar := by
  rintro rfl
  exact absurd h.1 (by decide)

theorem Printable.ne_zero {c : UInt8} (h : Printable c) : c ≠ 0 := by
  rintro rfl
  exact absurd h.1 (by decide)

theorem printable_ofNat {c : ℕ} (hlow : 32 ≤ c) (hhigh : c ≤ 126) : Printable (UInt8.ofNat c) := by
  have hvalue : (UInt8.ofNat c).toNat = c := UInt8.toNat_ofNat_of_lt (Nat.lt_of_le_of_lt hhigh (by decide))
  constructor
  · rw [UInt8.le_iff_toNat_le, hvalue]
    exact hlow
  · rw [UInt8.le_iff_toNat_le, hvalue]
    exact hhigh

section Terminal
variable (front : List UInt8) {text : List UInt8} {n : ℕ}

theorem putLoop_eq (c : UInt8) (n : ℕ) (t : Terminal) :
    putLoop c n t = (List.replicate n c).foldl (putc backspaceChar) t := by
  induction n generalizing t with
  | zero => rfl
  | succ n ih =>
    rw [putLoop, ih]
    rfl

theorem putLoop_back (text : List UInt8) (column n : ℕ) :
    putLoop backspaceChar n (shows blank text column) = shows blank text (column - n) := by
  rw [putLoop_eq, back_shows]

/-- A text written over the end of another one. -/
theorem write_over (htext : ∀ c ∈ text, Printable c) (right : List UInt8) (hle : right.length ≤ text.length) :
    text.foldl consolePutc (shows blank (front ++ right) front.length) =
      shows blank (front ++ text) (front.length + text.length) := by
  refine (write_shows (fun c hc => (htext c hc).ne_back) front right).trans ?_
  rw [List.drop_of_length_le hle, List.append_nil]

theorem replicate_printable (n : ℕ) : ∀ c ∈ List.replicate n blank, Printable c := by
  intro c hc
  rw [List.eq_of_mem_replicate hc]
  decide

theorem putLoop_blank (right : List UInt8) (hle : right.length ≤ n) :
    putLoop blank n (shows blank (front ++ right) front.length) = shows blank front (front.length + n) := by
  have hwrite := write_over front (replicate_printable n) right (by simpa using hle)
  rw [putLoop_eq]
  refine hwrite.trans ?_
  rw [shows_blank, List.length_replicate]

/-- The rest of a line in the place of one character more, and the blank behind it. -/
theorem write_shorter (htext : ∀ c ∈ text, Printable c) (c : UInt8) :
    putLoop backspaceChar (text.length + 1)
        (consolePutc (text.foldl consolePutc (shows blank (front ++ c :: text) front.length)) blank) =
      shows blank (front ++ text) front.length := by
  have hall : ∀ c ∈ text ++ [blank], Printable c := by
    intro c hc
    rcases List.mem_append.mp hc with hc | hc
    · exact htext c hc
    · rw [List.mem_singleton.mp hc]
      decide
  have hwrite := write_over front hall (c :: text) (by simp)
  have hblank : front ++ (text ++ [blank]) = (front ++ text) ++ List.replicate 1 blank := by simp
  rw [List.foldl_append, hblank, shows_blank] at hwrite
  have hlast : consolePutc (text.foldl consolePutc (shows blank (front ++ c :: text) front.length)) blank =
      shows blank (front ++ text) (front.length + (text.length + 1)) := by simpa using hwrite
  rw [hlast, putLoop_back, Nat.add_sub_cancel]

theorem eraseLine_shows (front before after : List UInt8) :
    eraseLine (before ++ after).length before.length (shows blank (front ++ (before ++ after)) (front ++ before).length) =
      shows blank front front.length := by
  have hlen := @List.length_append _ before after
  have hafter : (((before ++ after).length : ℤ) - before.length).toNat = after.length := by omega
  have hall : ((before ++ after).length : ℤ).toNat = before.length + after.length := by omega
  have hend := putLoop_blank (front ++ before) after (Nat.le_refl after.length)
  have hstart : (front ++ before).length + after.length - (before.length + after.length) = front.length := by
    rw [List.length_append]
    omega
  have hrest := putLoop_blank front (n := before.length + after.length) before (by omega)
  rw [eraseLine, hafter, hall, ← List.append_assoc, hend, putLoop_back, hstart, hrest, putLoop_back, Nat.add_sub_cancel]

end Terminal

theorem prompt_shows {sh : Shell} (hprompt : ∀ c ∈ promptText sh, Printable c) :
    prompt sh (shows blank [] 0) = shows blank (promptText sh) (promptText sh).length := by
  have hwrite := write_over [] hprompt [] (Nat.zero_le _)
  rw [List.nil_append, List.nil_append, List.length_nil, Nat.zero_add] at hwrite
  exact hwrite

/-! ## What the buffer holds -/

/-- The text is at the start of the buffer. -/
def Holds (buffer : Buffer) (text : List UInt8) : Prop := (List.range text.length).map buffer = text

section Buffer
variable {size : ℕ} {buffer : Buffer} {text : List UInt8}

theorem holds_iff : Holds buffer text ↔ ∀ i (hi : i < text.length), buffer i = text[i] := by
  constructor
  · intro h i hi
    have hget := List.getElem_of_eq h (i := i) (by simpa using hi)
    simpa using hget
  · intro h
    apply List.ext_getElem (by simp)
    intro i hi hi'
    simpa using h i hi'

theorem Holds.getElem (h : Holds buffer text) {i : ℕ} (hi : i < text.length) : buffer i = text[i] :=
  holds_iff.mp h i hi

theorem writeLoop_eq {i n : ℕ} (h : i + n ≤ size) (t : Terminal) :
    writeLoop size buffer n i t = some (((List.range' i n).map buffer).foldl consolePutc t) := by
  induction n generalizing i t with
  | zero => rfl
  | succ n ih =>
    have hget : get size buffer i = some (buffer i) := if_pos ⟨Int.natCast_nonneg i, by omega⟩
    rw [writeLoop, hget, Option.bind_eq_bind, Option.bind_some, ← Int.natCast_succ, ih (by omega)]
    rfl

/-- The text from a column on is written. -/
theorem Holds.consoleWrite (h : Holds buffer text) (hle : text.length ≤ size) {i : ℕ} (hi : i ≤ text.length)
    (t : Terminal) :
    consoleWrite size buffer i (text.length - i) t = some ((text.drop i).foldl consolePutc t) := by
  have hn : ((text.length : ℤ) - i).toNat = text.length - i := by omega
  have hdrop : (List.range' i (text.length - i)).map buffer = text.drop i := by
    have hrange : (List.range text.length).drop i = List.range' i (text.length - i) := by
      rw [List.range_eq_range', List.drop_range', Nat.zero_add, Nat.mul_one]
    rw [← hrange, List.map_drop, h]
  rw [LineEditor.consoleWrite, if_pos (by omega), hn, writeLoop_eq (by omega), hdrop]

theorem Holds.insertIdx (h : Holds buffer text) (hlt : text.length < size) {i : ℕ} (hi : i ≤ text.length) (c : UInt8) :
    ∃ moved put, memmove size buffer (i + 1) i (text.length - i) = some moved ∧ set size moved i c = some put ∧
      Holds put (text.insertIdx i c) := by
  refine ⟨_, _, memmove_eq (by omega) (by omega) (by omega) (by omega) (by omega), if_pos ⟨by omega, by omega⟩, ?_⟩
  rw [holds_iff, Int.toNat_natCast]
  intro j hj
  rw [List.length_insertIdx_of_le_length hi] at hj
  rcases Nat.lt_trichotomy j i with hbefore | rfl | hbehind
  · rw [List.getElem_insertIdx_of_lt hbefore, Function.update_of_ne (Nat.ne_of_lt hbefore), if_neg (by omega)]
    exact h.getElem _
  · rw [List.getElem_insertIdx_self, Function.update_self]
  · have hat : ((i : ℤ) + (j - (i + 1))).toNat = j - 1 := by omega
    rw [List.getElem_insertIdx_of_gt hbehind, Function.update_of_ne (Nat.ne_of_gt hbehind), if_pos (by omega), hat]
    exact h.getElem _

theorem Holds.eraseIdx (h : Holds buffer text) (hle : text.length ≤ size) {i : ℕ} (hi : i < text.length) :
    ∃ moved, memmove size buffer i (i + 1) (text.length - i - 1) = some moved ∧ Holds moved (text.eraseIdx i) := by
  refine ⟨_, memmove_eq (by omega) (by omega) (by omega) (by omega) (by omega), ?_⟩
  rw [holds_iff]
  intro j hj
  rw [List.length_eraseIdx_of_lt hi] at hj
  rw [List.getElem_eraseIdx]
  rcases Nat.lt_or_ge j i with hlt | hge
  · rw [dif_pos hlt, if_neg (by omega)]
    exact h.getElem _
  · have hat : ((i : ℤ) + 1 + (j - i)).toNat = j + 1 := by omega
    rw [dif_neg (Nat.not_lt.mpr hge), if_pos (by omega), hat]
    exact h.getElem _

/-- A line of the history that is copied, as far as there is room for it. -/
theorem strlcpy_holds (hsize : 0 < size) (buffer : Buffer) {line : List UInt8} (hline : ∀ c ∈ line, c ≠ 0) :
    Holds (strlcpy size buffer line) (line.take (size - 1)) ∧
      strlen size (strlcpy size buffer line) = some (line.take (size - 1)).length := by
  have hle := List.length_take_le (size - 1) line
  constructor
  · rw [holds_iff]
    intro j hj
    rw [strlcpy_apply hsize, dif_pos hj]
  · rw [strlen_eq_some]
    refine ⟨by omega, ?_, fun j hj => ?_⟩
    · rw [strlcpy_apply hsize, dif_neg (Nat.lt_irrefl _), if_pos rfl]
    · rw [strlcpy_apply hsize, dif_pos hj]
      exact hline _ (List.mem_of_mem_take (List.getElem_mem hj))

/-- The line that is returned. -/
theorem Holds.cString (h : Holds buffer text) (htext : ∀ c ∈ text, c ≠ 0) (hlt : text.length < size) :
    ∃ buffer', set size buffer text.length 0 = some buffer' ∧ cString size buffer' = text := by
  refine ⟨_, if_pos ⟨Int.natCast_nonneg _, by omega⟩, ?_⟩
  obtain ⟨n, rfl⟩ := Nat.exists_eq_add_of_lt hlt
  have hfront : (List.range text.length).map (Function.update buffer text.length 0) = text := by
    refine Eq.trans (List.map_congr_left fun j hj => ?_) h
    exact Function.update_of_ne (Nat.ne_of_lt (List.mem_range.mp hj)) _ _
  rw [LineEditor.cString, Int.toNat_natCast, Nat.add_assoc, List.range_add, List.map_append, hfront,
    List.range_succ_eq_map, List.map_cons, List.map_cons, Nat.add_zero, Function.update_self,
    List.takeWhile_append_of_pos (by simpa using htext), List.takeWhile_cons_of_neg (by decide), List.append_nil]

end Buffer

/-! ## The keys -/

/-- The buffer holds the text, and the terminal shows it behind the prompt. -/
structure Mirrors (size : ℕ) (sh : Shell) (s : ReadLine) (l : Line) : Prop where
  length_eq : s.length = l.text.length
  cursor_eq : s.cursor = l.cursor
  cursor_le : l.cursor ≤ l.text.length
  length_lt : l.text.length < size
  buffer : Holds s.buffer l.text
  term : s.term = shows blank (promptText sh ++ l.text) ((promptText sh).length + l.cursor)

/-- What the keys need besides. -/
structure Edits (size : ℕ) (sh : Shell) (s : ReadLine) (l : Line) : Prop extends Mirrors size sh s l where
  browse_eq : s.browse = l.browse
  browse_le : l.browse ≤ sh.history.length
  printable : ∀ c ∈ l.text, Printable c

section Keys
variable {size : ℕ} {sh : Shell} {s : ReadLine} {l : Line}

/-- The terminal with the text cut at the cursor. -/
theorem Mirrors.term_split (h : Mirrors size sh s l) :
    s.term = shows blank ((promptText sh ++ l.text.take l.cursor) ++ l.text.drop l.cursor)
      (promptText sh ++ l.text.take l.cursor).length := by
  have hcut := h.cursor_le
  rw [List.append_assoc, List.take_append_drop, List.length_append, List.length_take_of_le hcut]
  exact h.term

theorem Edits.left (h : Edits size sh s l) : Edits size sh (left s) { l with cursor := l.cursor - 1 } := by
  have hcursor := h.cursor_eq
  have hle := h.cursor_le
  rw [LineEditor.left]
  split
  · exact { h with
      cursor_eq := by dsimp only; omega
      cursor_le := by dsimp only; omega
      term := by
        have hback := putLoop_back (promptText sh ++ l.text) ((promptText sh).length + l.cursor) 1
        rw [← h.term] at hback
        dsimp only
        rw [Nat.add_sub_assoc (by omega)] at hback
        exact hback }
  · have hzero : l.cursor - 1 = l.cursor := by omega
    rw [hzero]
    exact h

theorem Edits.home (h : Edits size sh s l) (n : ℕ) :
    Edits size sh (homeLoop n s) { l with cursor := l.cursor - n } := by
  induction n generalizing s l with
  | zero => exact h
  | succ n ih =>
    have hnext := ih h.left
    rw [Nat.sub_sub, Nat.add_comm] at hnext
    exact hnext

theorem Edits.right (h : Edits size sh s l) :
    ∃ s', right size s = some s' ∧ Edits size sh s' { l with cursor := min (l.cursor + 1) l.text.length } := by
  have hcursor := h.cursor_eq
  have hlength := h.length_eq
  have hlt := h.length_lt
  have hle := h.cursor_le
  rw [LineEditor.right]
  split
  · have hin : l.cursor < l.text.length := by omega
    have hget : get size s.buffer s.cursor = some l.text[l.cursor] := by
      rw [hcursor, ← h.buffer.getElem hin]
      exact if_pos ⟨Int.natCast_nonneg _, by omega⟩
    have hnext : min (l.cursor + 1) l.text.length = l.cursor + 1 := by omega
    have hterm : consolePutc s.term l.text[l.cursor] =
        shows blank (promptText sh ++ l.text) ((promptText sh).length + (l.cursor + 1)) := by
      have hprint := h.printable _ (List.getElem_mem hin)
      rw [h.term_split, List.drop_eq_getElem_cons hin]
      refine (putc_shows hprint.ne_back _ _).trans ?_
      rw [List.drop_one, List.tail_cons, ← List.drop_eq_getElem_cons hin, List.append_assoc, List.take_append_drop,
        List.length_append, List.length_take_of_le hle, Nat.add_assoc]
    rw [hget, hnext]
    exact ⟨_, rfl, { h with
      cursor_eq := by dsimp only; omega
      cursor_le := hin
      term := hterm }⟩
  · have hend : min (l.cursor + 1) l.text.length = l.cursor := by omega
    rw [hend]
    exact ⟨s, rfl, h⟩

theorem Edits.end' (h : Edits size sh s l) (n : ℕ) :
    ∃ s', endLoop size n s = some s' ∧ Edits size sh s' { l with cursor := min (l.cursor + n) l.text.length } := by
  induction n generalizing s l with
  | zero =>
    have hle := h.cursor_le
    have hmin : min (l.cursor + 0) l.text.length = l.cursor := by omega
    rw [hmin]
    exact ⟨s, rfl, h⟩
  | succ n ih =>
    obtain ⟨next, hnext, hedits⟩ := h.right
    obtain ⟨s', hs', hedits'⟩ := ih hedits
    have hmin : min (min (l.cursor + 1) l.text.length + n) l.text.length = min (l.cursor + (n + 1)) l.text.length := by
      omega
    dsimp only at hedits'
    rw [hmin] at hedits'
    rw [endLoop, hnext]
    exact ⟨s', hs', hedits'⟩

theorem insertIdx_eq {text : List UInt8} {i : ℕ} (hi : i ≤ text.length) (c : UInt8) :
    text.insertIdx i c = text.take i ++ c :: text.drop i := by
  induction text generalizing i with
  | nil =>
    obtain rfl := Nat.le_zero.mp hi
    rfl
  | cons b rest ih =>
    cases i with
    | zero => rfl
    | succ i => rw [List.insertIdx_succ_cons, ih (Nat.le_of_succ_le_succ hi), List.take_succ_cons, List.drop_succ_cons,
        List.cons_append]

theorem Edits.insert (h : Edits size sh s l) {c : UInt8} (hc : Printable c) :
    ∃ s', insert size s c = some s' ∧ Edits size sh s' (if l.text.length + 1 < size then
      { l with text := l.text.insertIdx l.cursor c, cursor := l.cursor + 1 } else l) := by
  have hlength := h.length_eq
  have hle := h.cursor_le
  have hlt := h.length_lt
  rw [LineEditor.insert]
  by_cases hroom : l.text.length + 1 < size
  · obtain ⟨moved, buffer, hmoved, hbuffer, hholds⟩ := h.buffer.insertIdx hlt hle c
    have hlen := List.length_insertIdx_of_le_length hle c
    have htext := insertIdx_eq hle c
    have hdrop : (l.text.insertIdx l.cursor c).drop l.cursor = c :: l.text.drop l.cursor := by
      rw [htext, List.drop_left' (List.length_take_of_le hle)]
    have hprint : ∀ b ∈ c :: l.text.drop l.cursor, Printable b :=
      List.forall_mem_cons.mpr ⟨hc, fun b hb => h.printable b (List.mem_of_mem_drop hb)⟩
    have hwrite := hholds.consoleWrite (show _ ≤ size by omega) (i := l.cursor) (by omega) s.term
    have hover := write_over (promptText sh ++ l.text.take l.cursor) hprint (l.text.drop l.cursor) (by simp)
    have hsum : (l.text.length : ℤ) + 1 - l.cursor = (l.text.insertIdx l.cursor c).length - l.cursor := by omega
    have hback : ((l.text.length : ℤ) + 1 - (l.cursor + 1)).toNat = l.text.length - l.cursor := by omega
    rw [if_neg (by omega), h.cursor_eq, hlength, hmoved]
    simp only [Option.bind_eq_bind, Option.bind_some, hbuffer, hsum, hback, hwrite]
    rw [if_pos hroom, h.term_split, hdrop, hover, List.append_assoc, ← htext, putLoop_back]
    refine ⟨_, rfl, ⟨?_, ?_, ?_, ?_, hholds, ?_⟩, h.browse_eq, h.browse_le, ?_⟩
    all_goals dsimp only
    · omega
    · omega
    · omega
    · omega
    · congr 1
      rw [List.length_append, List.length_take_of_le hle, List.length_cons, List.length_drop]
      omega
    · intro b hb
      rw [htext] at hb
      rcases List.mem_append.mp hb with hb | hb
      · exact h.printable b (List.mem_of_mem_take hb)
      · exact hprint b hb
  · rw [if_pos (by omega), if_neg hroom]
    exact ⟨s, rfl, h⟩

/-- A character taken out of the text, of the buffer and of what the terminal shows. -/
theorem erase_shows (sh : Shell) {text : List UInt8} {buffer : Buffer} (hholds : Holds buffer text) (hlt : text.length < size)
    (hprint : ∀ c ∈ text, Printable c) {i : ℕ} (hi : i < text.length) : ∃ moved t,
      memmove size buffer i (i + 1) (text.length - i - 1) = some moved ∧ Holds moved (text.eraseIdx i) ∧
      consoleWrite size moved i (text.length - 1 - i) (shows blank (promptText sh ++ text) ((promptText sh).length + i)) =
        some t ∧
      putLoop backspaceChar (text.length - i) (consolePutc t blank) =
        shows blank (promptText sh ++ text.eraseIdx i) ((promptText sh).length + i) := by
  obtain ⟨moved, hmoved, hmoved'⟩ := hholds.eraseIdx (Nat.le_of_lt hlt) hi
  have hlen := List.length_eraseIdx_of_lt hi
  have htext := List.eraseIdx_eq_take_drop_succ text i
  have htake : (text.take i).length = i := List.length_take_of_le (by omega)
  have hdrop : (text.eraseIdx i).drop i = text.drop (i + 1) := by rw [htext, List.drop_left' htake]
  have hrest : (text.drop (i + 1)).length + 1 = text.length - i := by
    rw [List.length_drop]
    omega
  have hcut : promptText sh ++ text = (promptText sh ++ text.take i) ++ text[i] :: text.drop (i + 1) := by
    rw [List.append_assoc, ← List.drop_eq_getElem_cons hi, List.take_append_drop]
  have hcolumn : (promptText sh).length + i = (promptText sh ++ text.take i).length := by rw [List.length_append, htake]
  have hshorter := write_shorter (promptText sh ++ text.take i)
    (fun c hc => hprint c (List.mem_of_mem_drop (i := i + 1) hc)) text[i]
  have hwrite := hmoved'.consoleWrite (show _ ≤ size by omega) (i := i) (by omega)
    (shows blank (promptText sh ++ text) ((promptText sh).length + i))
  have hcount : (((text.eraseIdx i).length : ℕ) : ℤ) - i = text.length - 1 - i := by omega
  rw [hcount, hdrop] at hwrite
  refine ⟨moved, _, hmoved, hmoved', hwrite, ?_⟩
  rw [hcut, hcolumn, ← hrest, hshorter, htext, List.append_assoc]

theorem Edits.redraw (h : Edits size sh s l) (hprompt : ∀ c ∈ promptText sh, Printable c) :
    ∃ s', redraw size sh s = some s' ∧ Edits size sh s' l := by
  have hle := h.cursor_le
  have hlt := h.length_lt
  have hwrite := h.buffer.consoleWrite (Nat.le_of_lt hlt) (Nat.zero_le _) (prompt sh (consoleClear s.term))
  have hzero : ((0 : ℕ) : ℤ) = 0 := rfl
  have hback : ((l.text.length : ℤ) - l.cursor).toNat = l.text.length - l.cursor := by omega
  have hcolumn : (promptText sh).length + l.text.length - (l.text.length - l.cursor) =
      (promptText sh).length + l.cursor := by omega
  have hover := write_over (promptText sh) h.printable [] (Nat.zero_le _)
  rw [List.append_nil] at hover
  rw [hzero, Int.sub_zero, List.drop_zero, consoleClear, prompt_shows hprompt, hover] at hwrite
  rw [LineEditor.redraw, h.length_eq, h.cursor_eq, consoleClear, prompt_shows hprompt, hwrite, hback]
  simp only [Option.bind_eq_bind, Option.bind_some, putLoop_back, hcolumn]
  exact ⟨_, rfl, { h with length_eq := rfl, cursor_eq := rfl, term := rfl }⟩

theorem mem_eraseIdx_printable (h : Edits size sh s l) (i : ℕ) : ∀ c ∈ l.text.eraseIdx i, Printable c :=
  fun c hc => h.printable c (List.mem_of_mem_eraseIdx hc)

theorem Edits.eraseAt (h : Edits size sh s l) :
    ∃ s', eraseAt size s = some s' ∧ Edits size sh s' { l with text := l.text.eraseIdx l.cursor } := by
  have hlength := h.length_eq
  have hle := h.cursor_le
  have hlt := h.length_lt
  rw [LineEditor.eraseAt, h.cursor_eq, hlength]
  split
  · have hi : l.cursor < l.text.length := by omega
    obtain ⟨moved, t, hmoved, hholds, hwrite, hterm⟩ := erase_shows sh h.buffer hlt h.printable hi
    have hlen := List.length_eraseIdx_of_lt hi
    have hcount : ((l.text.length : ℤ) - 1 + 1 - l.cursor).toNat = l.text.length - l.cursor := by omega
    rw [hmoved, h.term]
    simp only [Option.bind_eq_bind, Option.bind_some, hwrite, hcount, hterm]
    refine ⟨_, rfl, ⟨?_, rfl, ?_, ?_, hholds, rfl⟩, h.browse_eq, h.browse_le, mem_eraseIdx_printable h _⟩
    all_goals dsimp only
    all_goals omega
  · rw [List.eraseIdx_of_length_le (by omega)]
    exact ⟨s, rfl, h⟩

theorem Edits.eraseBefore (h : Edits size sh s l) : ∃ s', eraseBefore size s = some s' ∧ Edits size sh s'
    (if 0 < l.cursor then { l with text := l.text.eraseIdx (l.cursor - 1), cursor := l.cursor - 1 } else l) := by
  have hlength := h.length_eq
  have hle := h.cursor_le
  have hlt := h.length_lt
  rw [LineEditor.eraseBefore, h.cursor_eq, hlength]
  split
  · have hi : l.cursor - 1 < l.text.length := by omega
    obtain ⟨moved, t, hmoved, hholds, hwrite, hterm⟩ := erase_shows sh h.buffer hlt h.printable hi
    have hlen := List.length_eraseIdx_of_lt hi
    have hcast : ((l.cursor - 1 : ℕ) : ℤ) = l.cursor - 1 := by omega
    have hsrc : (l.cursor : ℤ) - 1 + 1 = l.cursor := by omega
    have hn : (l.text.length : ℤ) - (l.cursor - 1) - 1 = l.text.length - l.cursor := by omega
    have hcount : ((l.text.length : ℤ) - 1 + 1 - (l.cursor - 1)).toNat = l.text.length - (l.cursor - 1) := by omega
    have hback : consolePutc s.term backspaceChar =
        shows blank (promptText sh ++ l.text) ((promptText sh).length + (l.cursor - 1)) := by
      have hstep := putLoop_back (promptText sh ++ l.text) ((promptText sh).length + l.cursor) 1
      rw [← h.term, Nat.add_sub_assoc (by omega)] at hstep
      exact hstep
    rw [hcast, hsrc, hn] at hmoved
    rw [hcast] at hwrite
    rw [if_pos (by omega), hmoved, hback]
    simp only [Option.bind_eq_bind, Option.bind_some, hwrite, hcount, hterm]
    refine ⟨_, rfl, ⟨?_, hcast.symm, ?_, ?_, hholds, rfl⟩, h.browse_eq, h.browse_le, mem_eraseIdx_printable h _⟩
    all_goals dsimp only
    all_goals omega
  · rw [if_neg (by omega)]
    exact ⟨s, rfl, h⟩

theorem Edits.eraseLine (h : Edits size sh s l) :
    eraseLine s.length s.cursor s.term = shows blank (promptText sh) (promptText sh).length := by
  have htake := List.length_take_of_le h.cursor_le
  have herase := eraseLine_shows (promptText sh) (l.text.take l.cursor) (l.text.drop l.cursor)
  rw [List.take_append_drop, htake, List.length_append, htake, ← h.term] at herase
  rwa [h.length_eq, h.cursor_eq]

theorem Edits.recallEntry (h : Edits size sh s l) (hsize : 0 < size) (hhistory : ∀ line ∈ sh.history, ∀ c ∈ line, Printable c)
    (step : ℤ) : ∃ s', recallEntry size sh s step = some s' ∧ Edits size sh s'
      (if 0 ≤ l.browse + step ∧ l.browse + step ≤ sh.history.length then
        Line.recallEntry size sh.history (l.browse + step).toNat else l) := by
  rw [LineEditor.recallEntry, h.browse_eq, h.eraseLine]
  dsimp only
  by_cases hout : (l.browse : ℤ) + step < 0 ∨ (l.browse : ℤ) + step > sh.history.length
  · rw [if_pos hout, if_neg (by omega)]
    exact ⟨s, rfl, h⟩
  · rw [if_neg hout, if_pos (show 0 ≤ (l.browse : ℤ) + step ∧ (l.browse : ℤ) + step ≤ sh.history.length by omega)]
    obtain ⟨target, htarget⟩ := Int.eq_ofNat_of_zero_le (show 0 ≤ (l.browse : ℤ) + step by omega)
    rw [htarget, Int.toNat_natCast, Line.recallEntry]
    by_cases hend : target = sh.history.length
    · rw [if_pos (congrArg _ hend)]
      have hset : set size s.buffer 0 0 = some (Function.update s.buffer 0 0) := if_pos ⟨Int.le_refl 0, by omega⟩
      rw [hset, hend, List.getD_eq_default _ _ (Nat.le_refl _), List.take_nil]
      refine ⟨_, rfl, ⟨rfl, rfl, Nat.le_refl 0, hsize, rfl, ?_⟩, rfl, Nat.le_refl _, fun c hc => by cases hc⟩
      simp
    · rw [if_neg (by omega)]
      have hlt : target < sh.history.length := by omega
      have hline : ∀ c ∈ sh.history[target], Printable c := hhistory _ (List.getElem_mem hlt)
      have hprint : ∀ c ∈ sh.history[target].take (size - 1), Printable c := fun c hc => hline c (List.mem_of_mem_take hc)
      have hle := List.length_take_le (size - 1) sh.history[target]
      obtain ⟨hholds, hstrlen⟩ := strlcpy_holds hsize s.buffer (fun c hc => (hline c hc).ne_zero)
      have hwrite := hholds.consoleWrite (show _ ≤ size by omega) (Nat.zero_le _)
        (shows blank (promptText sh) (promptText sh).length)
      have hover := write_over (promptText sh) hprint [] (Nat.zero_le _)
      have hzero : ((0 : ℕ) : ℤ) = 0 := rfl
      rw [List.append_nil] at hover
      rw [hzero, Int.sub_zero, List.drop_zero, hover] at hwrite
      rw [List.getElem?_eq_getElem hlt, List.getD_eq_getElem _ _ hlt]
      simp only [Option.bind_eq_bind, Option.bind_some, hstrlen, hwrite]
      exact ⟨_, rfl, ⟨rfl, rfl, Nat.le_refl _, by dsimp only; omega, hholds, rfl⟩, rfl, Nat.le_of_lt hlt, hprint⟩

/-- Every key but those that end the line. -/
theorem Edits.press (h : Edits size sh s l) (hsize : 0 < size)
    (hhistory : ∀ line ∈ sh.history, ∀ c ∈ line, Printable c) (hprompt : ∀ c ∈ promptText sh, Printable c) {c : ℕ}
    (hline : ¬(c = 10 ∨ c = 13)) (hcancel : c ≠ 3) :
    ∃ s', readKey size sh s c = some (.more s') ∧ Edits size sh s' (l.press size sh.history c) := by
  have hmore : ∀ {op : Option ReadLine} {l' : Line}, (∃ s', op = some s' ∧ Edits size sh s' l') →
      ∃ s', (Outcome.more <$> op) = some (.more s') ∧ Edits size sh s' l' := by
    rintro op l' ⟨s', rfl, h'⟩
    exact ⟨s', rfl, h'⟩
  rw [readKey, if_neg hline, if_neg hcancel]
  apply hmore
  rw [Line.press]
  by_cases hclear : c = 12
  · subst hclear
    obtain ⟨s', hs', h'⟩ := h.redraw hprompt
    exact ⟨s', hs', h'⟩
  rw [if_neg hclear]
  by_cases hback : c = 8 ∨ c = 127
  · rw [if_pos hback, if_pos hback]
    exact h.eraseBefore
  rw [if_neg hback, if_neg hback]
  by_cases hdelete : c = keyDelete
  · rw [if_pos hdelete, if_pos hdelete]
    exact h.eraseAt
  rw [if_neg hdelete, if_neg hdelete]
  by_cases hleft : c = keyLeft
  · rw [if_pos hleft, if_pos hleft]
    exact ⟨_, rfl, h.left⟩
  rw [if_neg hleft, if_neg hleft]
  by_cases hright : c = keyRight
  · rw [if_pos hright, if_pos hright]
    exact h.right
  rw [if_neg hright, if_neg hright]
  by_cases hhome : c = keyHome
  · have hzero : l.cursor - s.cursor.toNat = 0 := by
      have hcursor := h.cursor_eq
      omega
    have hedits := h.home s.cursor.toNat
    rw [hzero] at hedits
    rw [if_pos hhome, if_pos hhome]
    exact ⟨_, rfl, hedits⟩
  rw [if_neg hhome, if_neg hhome]
  by_cases hend : c = keyEnd
  · have hall : min (l.cursor + (s.length - s.cursor).toNat) l.text.length = l.text.length := by
      obtain ⟨hlength, hcursor⟩ := And.intro h.length_eq h.cursor_eq
      omega
    have hedits := h.end' (s.length - s.cursor).toNat
    rw [hall] at hedits
    rw [if_pos hend, if_pos hend]
    exact hedits
  rw [if_neg hend, if_neg hend]
  have hle := h.browse_le
  by_cases hup : c = keyUp
  · have hrecall := h.recallEntry hsize hhistory (-1)
    have htarget : ((l.browse : ℤ) + -1).toNat = l.browse - 1 := by omega
    have hiff : (0 ≤ (l.browse : ℤ) + -1 ∧ (l.browse : ℤ) + -1 ≤ sh.history.length) = (0 < l.browse) :=
      propext ⟨fun hin => by omega, fun hpos => by omega⟩
    rw [htarget] at hrecall
    simp only [hiff] at hrecall
    rw [if_pos hup, if_pos hup]
    exact hrecall
  rw [if_neg hup, if_neg hup]
  by_cases hdown : c = keyDown
  · have hrecall := h.recallEntry hsize hhistory 1
    have htarget : ((l.browse : ℤ) + 1).toNat = l.browse + 1 := by omega
    have hiff : (0 ≤ (l.browse : ℤ) + 1 ∧ (l.browse : ℤ) + 1 ≤ sh.history.length) = (l.browse < sh.history.length) :=
      propext ⟨fun hin => by omega, fun hlt => by omega⟩
    rw [htarget] at hrecall
    simp only [hiff] at hrecall
    rw [if_pos hdown, if_pos hdown]
    exact hrecall
  rw [if_neg hdown, if_neg hdown]
  by_cases hprint : c < 32 ∨ c > 126
  · rw [if_pos hprint, if_neg (by omega)]
    exact ⟨s, rfl, h⟩
  · rw [if_neg hprint]
    have hinsert := h.insert (printable_ofNat (show 32 ≤ c by omega) (by omega))
    by_cases hroom : l.text.length + 1 < size
    · rw [if_pos hroom] at hinsert
      rw [if_pos ⟨by omega, by omega, hroom⟩]
      exact hinsert
    · rw [if_neg hroom] at hinsert
      rw [if_neg (fun hin => hroom hin.2.2)]
      exact hinsert

end Keys

/-! ## Runs of the shell -/

/-- What the shell reads and what it keeps is printable. -/
structure Shell.Printable (sh : Shell) : Prop where
  cwd : ∀ c ∈ sh.cwd, LineEditor.Printable c
  history : ∀ line ∈ sh.history, ∀ c ∈ line, LineEditor.Printable c

def boot : Shell := ⟨[], [47]⟩

/-- The shell behind a command, which may have changed the directory. -/
def nextShell (size : ℕ) (sh : Shell) (buffer : Buffer) (length : ℤ) (cwd : List UInt8) : Shell :=
  ⟨if length = 0 then sh.history else historyAdd sh.history (cString size buffer), cwd⟩

/-- The states of `read_line`, and of the line editor that gets the same keys, while one line is read after the
other. -/
inductive Reached (size : ℕ) : Shell → ReadLine → Line → Prop
  | boot (buffer : Buffer) : Reached size boot (start boot buffer) ⟨[], 0, 0⟩
  | key {sh : Shell} {s s' : ReadLine} {l : Line} {c : ℕ} :
      Reached size sh s l → readKey size sh s c = some (.more s') → Reached size sh s' (l.press size sh.history c)
  | line {sh sh' : Shell} {s : ReadLine} {l : Line} {c : ℕ} {buffer : Buffer} {length : ℤ} {cwd : List UInt8} :
      Reached size sh s l → readKey size sh s c = some (.line buffer length) → (∀ c ∈ cwd, Printable c) →
        sh' = nextShell size sh buffer length cwd → Reached size sh' (start sh' buffer) ⟨[], 0, sh'.history.length⟩
  | cancel {sh : Shell} {s : ReadLine} {l : Line} {c : ℕ} :
      Reached size sh s l → readKey size sh s c = some .cancelled →
        Reached size sh (start sh s.buffer) ⟨[], 0, sh.history.length⟩

section Runs
variable {size : ℕ} {sh : Shell} {s : ReadLine} {l : Line}

theorem Shell.Printable.prompt (h : sh.Printable) : ∀ c ∈ promptText sh, LineEditor.Printable c := by
  have hname : ∀ c ∈ ([115, 105, 102, 97, 114, 58] : List UInt8), LineEditor.Printable c := List.all_iff_forall_prop.mp (by decide)
  have hmark : ∀ c ∈ ([36, 32] : List UInt8), LineEditor.Printable c := List.all_iff_forall_prop.mp (by decide)
  intro c hc
  rcases List.mem_append.mp hc with hc | hc
  · exact (List.mem_append.mp hc).elim (hname c) (h.cwd c)
  · exact hmark c hc

theorem boot_printable : boot.Printable := ⟨List.all_iff_forall_prop.mp (by decide), fun _ h => absurd h List.not_mem_nil⟩

theorem mem_historyAdd {history : List (List UInt8)} {line added : List UInt8} (h : added ∈ historyAdd history line) :
    added ∈ history ∨ added = line.take (lineMax - 1) := by
  rw [historyAdd] at h
  split at h
  · exact .inl h
  · split at h
    · exact .inl h
    · rcases List.mem_append.mp h with h | h
      · split at h
        · exact .inl (List.mem_of_mem_drop h)
        · exact .inl h
      · exact .inr (List.mem_singleton.mp h)

theorem edits_start (h : sh.Printable) (hsize : 0 < size) (buffer : Buffer) :
    Edits size sh (start sh buffer) ⟨[], 0, sh.history.length⟩ := by
  refine ⟨⟨rfl, rfl, Nat.le_refl 0, hsize, rfl, ?_⟩, rfl, Nat.le_refl _, fun c hc => by cases hc⟩
  rw [start, prompt_shows h.prompt, List.append_nil]
  rfl

/-- The key that ends the line returns it. -/
theorem Edits.enter (h : Edits size sh s l) {c : ℕ} (hc : c = 10 ∨ c = 13) :
    ∃ buffer, readKey size sh s c = some (.line buffer s.length) ∧ cString size buffer = l.text := by
  obtain ⟨buffer, hset, hline⟩ := h.buffer.cString (fun c hc => (h.printable c hc).ne_zero) h.length_lt
  rw [readKey, if_pos hc, h.length_eq, hset]
  exact ⟨buffer, rfl, hline⟩

theorem Edits.nextShell (h : Edits size sh s l) (hsh : sh.Printable) {c : ℕ} {buffer : Buffer} {length : ℤ}
    (hkey : readKey size sh s c = some (.line buffer length)) {cwd : List UInt8} (hcwd : ∀ c ∈ cwd, LineEditor.Printable c)
    (hsize : 0 < size) : (nextShell size sh buffer length cwd).Printable := by
  have hc : c = 10 ∨ c = 13 := by
    by_contra hc
    by_cases hcancel : c = 3
    · subst hcancel
      cases hkey
    · obtain ⟨s', hs', -⟩ := h.press hsize hsh.history hsh.prompt hc hcancel
      rw [hs'] at hkey
      cases hkey
  obtain ⟨buffer', hkey', htext⟩ := h.enter hc
  obtain ⟨rfl, rfl⟩ : buffer' = buffer ∧ s.length = length := by
    have heq := Option.some.inj (hkey'.symm.trans hkey)
    exact ⟨(Outcome.line.inj heq).1, (Outcome.line.inj heq).2⟩
  refine ⟨hcwd, fun line hline => ?_⟩
  rw [LineEditor.nextShell, htext] at hline
  dsimp only at hline
  split at hline
  · exact hsh.history line hline
  · rcases mem_historyAdd hline with hline | rfl
    · exact hsh.history line hline
    · exact fun c hc => h.printable c (List.mem_of_mem_take hc)

theorem Reached.edits (hsize : 0 < size) (h : Reached size sh s l) : sh.Printable ∧ Edits size sh s l := by
  induction h with
  | boot buffer => exact ⟨boot_printable, edits_start boot_printable hsize buffer⟩
  | @key sh s s' l c _ hkey ih =>
    obtain ⟨hsh, hedits⟩ := ih
    have hline : ¬(c = 10 ∨ c = 13) := by
      intro hc
      obtain ⟨buffer, hline, -⟩ := hedits.enter hc
      rw [hline] at hkey
      cases hkey
    have hcancel : c ≠ 3 := by
      rintro rfl
      cases hkey
    obtain ⟨next, hnext, hedits'⟩ := hedits.press hsize hsh.history hsh.prompt hline hcancel
    obtain rfl := Outcome.more.inj (Option.some.inj (hnext.symm.trans hkey))
    exact ⟨hsh, hedits'⟩
  | line _ hkey hcwd hnext ih =>
    have hsh := ih.2.nextShell ih.1 hkey hcwd hsize
    rw [← hnext] at hsh
    exact ⟨hsh, edits_start hsh hsize _⟩
  | cancel _ _ ih => exact ⟨ih.1, edits_start ih.1 hsize _⟩

/-- After every key the buffer holds the text of the line editor and the terminal shows it behind the prompt. A key
that edits leads to the state with the edited line, the one that ends the line returns its text, and no key reads or
writes outside of the buffer. -/
theorem reached_mirrors (hsize : 0 < size) (h : Reached size sh s l) :
    Mirrors size sh s l ∧
      (∀ c, ¬(c = 10 ∨ c = 13) → c ≠ 3 → ∃ s', readKey size sh s c = some (.more s') ∧
        Reached size sh s' (l.press size sh.history c) ∧ Mirrors size sh s' (l.press size sh.history c)) ∧
      (∀ c, c = 10 ∨ c = 13 →
        ∃ buffer, readKey size sh s c = some (.line buffer l.text.length) ∧ cString size buffer = l.text) ∧
      readKey size sh s 3 = some .cancelled := by
  obtain ⟨hsh, hedits⟩ := h.edits hsize
  refine ⟨hedits.toMirrors, fun c hline hcancel => ?_, fun c hc => ?_, rfl⟩
  · obtain ⟨s', hs', hnext⟩ := hedits.press hsize hsh.history hsh.prompt hline hcancel
    exact ⟨s', hs', h.key hs', hnext.toMirrors⟩
  · rw [← hedits.length_eq]
    exact hedits.enter hc

/-- The letter a, the cursor back before it, the letter b, and the end of the line. -/
theorem reached_mirrors_letters : ∃ s, Reached lineMax boot s ⟨[98, 97], 1, 0⟩ ∧ Mirrors lineMax boot s ⟨[98, 97], 1, 0⟩ ∧
    ∃ buffer, readKey lineMax boot s 10 = some (.line buffer 2) ∧ cString lineMax buffer = [98, 97] := by
  have hsize : 0 < lineMax := by decide
  have hboot : Reached lineMax boot (start boot fun _ => 0) ⟨[], 0, 0⟩ := .boot _
  obtain ⟨s₁, -, hfirst, -⟩ := (reached_mirrors hsize hboot).2.1 97 (by decide) (by decide)
  obtain ⟨s₂, -, hleft, -⟩ := (reached_mirrors hsize hfirst).2.1 keyLeft (by decide) (by decide)
  obtain ⟨s₃, -, hsecond, hmirrors⟩ := (reached_mirrors hsize hleft).2.1 98 (by decide) (by decide)
  exact ⟨s₃, hsecond, hmirrors, (reached_mirrors hsize hsecond).2.2.1 10 (by decide)⟩

end Runs

end SifarOS.LineEditor
