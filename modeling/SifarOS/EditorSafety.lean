import SifarOS.EditorFiles

/-! # The cursor stays on the text

What the functions of the editor keep, and what each needs for it. -/
namespace SifarOS.TextEditor
open LineInput

/-! ## Terminated rows -/

/-- A text of this length in a row, and its terminator. -/
structure Holds (row : Row) (n : ℕ) : Prop where
  lt : n < 200
  zero : row n = 0
  ne_zero : ∀ j < n, row j ≠ 0

section Rows
variable {row src : Row} {n m : ℕ} {col : ℤ} {c : UInt8}

theorem strlen_iff : strlen 200 row = some n ↔ Holds row n :=
  strlen_eq_some.trans ⟨fun ⟨hlt, hzero, hne⟩ => ⟨hlt, hzero, hne⟩, fun h => ⟨h.lt, h.zero, h.ne_zero⟩⟩

theorem Holds.eq (h : Holds row n) (h' : Holds row m) : n = m :=
  Option.some.inj ((strlen_iff.mpr h).symm.trans (strlen_iff.mpr h'))

theorem holds_nil : Holds (fun _ => 0) 0 := ⟨by decide, rfl, fun _ hj => absurd hj (Nat.not_lt_zero _)⟩

/-- A row of a text, or the empty one behind its last. -/
theorem getD_text {rows : List (List UInt8)} (hrows : ∀ row ∈ rows, row.length < 200 ∧ ∀ c ∈ row, c ≠ 0) (i : ℕ) :
    (rows.getD i []).length < 200 ∧ ∀ c ∈ rows.getD i [], c ≠ 0 := by
  rcases Nat.lt_or_ge i rows.length with hlt | hge
  · rw [List.getD_eq_getElem _ _ hlt]
    exact hrows _ (List.getElem_mem hlt)
  · rw [List.getD_eq_default _ _ hge]
    simp

theorem holds_getD {rows : List (List UInt8)} (hrows : ∀ row ∈ rows, row.length < 200 ∧ ∀ c ∈ row, c ≠ 0) (i : ℕ) :
    Holds (grid rows i) (rows.getD i []).length :=
  strlen_iff.mp (strlen_grid (getD_text hrows i).1 (getD_text hrows i).2)

/-- A character put into the text. -/
theorem Holds.insert (h : Holds row n) (hn : n < 198) (hcol : 0 ≤ col) (hle : col ≤ n) (hc : c ≠ 0) :
    ∃ moved put', memmove 200 row (col + 1) col (n - col + 1) = some moved ∧ set 200 moved col c = some put' ∧
      Holds put' (n + 1) := by
  refine ⟨_, _, memmove_eq (by omega) (by omega) (by omega) hcol (by omega), if_pos ⟨hcol, by omega⟩, by omega, ?_, ?_⟩
  · rw [Function.update_of_ne (by omega), if_pos (by omega)]
    have hat : (col + (((n + 1 : ℕ) : ℤ) - (col + 1))).toNat = n := by omega
    rw [hat, h.zero]
  · intro j hj
    rcases Nat.lt_trichotomy j col.toNat with hlt | rfl | hgt
    · rw [Function.update_of_ne (by omega), if_neg (by omega)]
      exact h.ne_zero j (by omega)
    · rwa [Function.update_self]
    · rw [Function.update_of_ne (by omega), if_pos (by omega)]
      exact h.ne_zero _ (by omega)

/-- A character taken out of it. -/
theorem Holds.remove (h : Holds row n) (hcol : 0 ≤ col) (hlt : col < n) :
    ∃ moved, memmove 200 row col (col + 1) (n - col) = some moved ∧ Holds moved (n - 1) := by
  have hn := h.lt
  refine ⟨_, memmove_eq (by omega) hcol (by omega) (by omega) (by omega), by omega, ?_, ?_⟩
  · rw [if_pos (by omega)]
    have hat : (col + 1 + (((n - 1 : ℕ) : ℤ) - col)).toNat = n := by omega
    rw [hat, h.zero]
  · intro j hj
    split
    · exact h.ne_zero _ (by omega)
    · exact h.ne_zero j (by omega)

/-- The text from a column on. -/
theorem Holds.tail (h : Holds src n) (row : Row) (hcol : 0 ≤ col) (hle : col ≤ n) :
    ∃ copy, strlcpyFrom row src col = some copy ∧ Holds copy (n - col.toNat) := by
  have hn := h.lt
  have hfind : ((List.range (200 - col.toNat)).find? fun j => src (col.toNat + j) = 0) = some (n - col.toNat) := by
    rw [List.find?_range_eq_some]
    refine ⟨?_, List.mem_range.mpr (by omega), fun j hj => by simpa using h.ne_zero _ (by omega)⟩
    rw [Nat.add_sub_of_le (by omega)]
    simpa using h.zero
  have hsize : 0 < 200 := by decide
  have hlen : (((List.range (n - col.toNat)).map fun j => src (col.toNat + j)).take (200 - 1)).length = n - col.toNat := by
    rw [List.length_take, List.length_map, List.length_range]
    omega
  refine ⟨strlcpy 200 row ((List.range (n - col.toNat)).map fun j => src (col.toNat + j)), ?_, by omega, ?_, fun j hj => ?_⟩
  · rw [strlcpyFrom, if_pos ⟨hcol, by omega⟩, hfind, Option.map_some]
  · rw [strlcpy_apply hsize, dif_neg (by omega), if_pos hlen.symm]
  · rw [strlcpy_apply hsize, dif_pos (by omega), List.getElem_take, List.getElem_map, List.getElem_range]
    exact h.ne_zero _ (by omega)

/-- The text before a column. -/
theorem Holds.head (h : Holds row n) (hcol : 0 ≤ col) (hle : col ≤ n) :
    ∃ cut, set 200 row col 0 = some cut ∧ Holds cut col.toNat := by
  have hn := h.lt
  refine ⟨_, if_pos ⟨hcol, by omega⟩, by omega, Function.update_self _ _ _, fun j hj => ?_⟩
  rw [Function.update_of_ne (Nat.ne_of_lt hj)]
  exact h.ne_zero j (by omega)

/-- One text behind another. -/
theorem Holds.append (h : Holds row n) (h' : Holds src m) (hlt : n + m < 199) :
    Holds (strcat row src n m) (n + m) := by
  refine ⟨by omega, ?_, fun j hj => ?_⟩
  · rw [strcat, if_neg (by omega), if_neg (by omega), if_pos rfl]
  · rw [strcat]
    rcases Nat.lt_or_ge j n with hlt | hge
    · rw [if_pos hlt]
      exact h.ne_zero j hlt
    · rw [if_neg (by omega), if_pos hj]
      exact h'.ne_zero _ (by omega)

end Rows

/-! ## Terminated lines -/

/-- Every row of `lines` holds a text. -/
def Terminated (lines : ℕ → Row) : Prop := ∀ i < 512, ∃ n, Holds (lines i) n

section Lines
variable {lines : ℕ → Row}

theorem Terminated.update (h : Terminated lines) {row : Row} {n : ℕ} (hrow : Holds row n) (i : ℕ) :
    Terminated (Function.update lines i row) := by
  intro k hk
  rcases eq_or_ne k i with rfl | hne
  · exact ⟨n, by rwa [Function.update_self]⟩
  · rw [Function.update_of_ne hne]
    exact h k hk

theorem Terminated.grid {rows : List (List UInt8)} (hrows : ∀ row ∈ rows, row.length < 200 ∧ ∀ c ∈ row, c ≠ 0) :
    Terminated (grid rows) := fun i _ => ⟨_, holds_getD hrows i⟩

theorem openLoop_of_le {line : ℤ} (i : ℕ) (lines : ℕ → Row) {k : ℕ} (hk : k ≤ line + 1) :
    openLoop line i lines k = lines k := by
  induction i generalizing lines with
  | zero => rfl
  | succ i ih =>
    rw [openLoop]
    split
    · rw [ih, Function.update_of_ne (by omega)]
    · rfl

/-- The rows behind are those that were there. -/
theorem openLoop_row (line : ℤ) (i : ℕ) (lines : ℕ → Row) (k : ℕ) : ∃ k' ≤ k, openLoop line i lines k = lines k' := by
  induction i generalizing lines with
  | zero => exact ⟨k, Nat.le_refl k, rfl⟩
  | succ i ih =>
    rw [openLoop]
    split
    · obtain ⟨k', hle, heq⟩ := ih (Function.update lines (i + 1) (lines i))
      rcases eq_or_ne k' (i + 1) with rfl | hne
      · exact ⟨i, by omega, by rw [heq, Function.update_self]⟩
      · exact ⟨k', hle, by rw [heq, Function.update_of_ne hne]⟩
    · exact ⟨k, Nat.le_refl k, rfl⟩

theorem closeLoop_of_lt (i n : ℕ) (lines : ℕ → Row) {k : ℕ} (hk : k < i) : closeLoop i n lines k = lines k := by
  induction n generalizing i lines with
  | zero => rfl
  | succ n ih => rw [closeLoop, ih _ _ (by omega), Function.update_of_ne (by omega)]

theorem closeLoop_row (i n : ℕ) (lines : ℕ → Row) (k : ℕ) :
    ∃ k' ≤ max k (i + n), closeLoop i n lines k = lines k' := by
  induction n generalizing i lines with
  | zero => exact ⟨k, by omega, rfl⟩
  | succ n ih =>
    obtain ⟨k', hle, heq⟩ := ih (i + 1) (Function.update lines i (lines (i + 1)))
    rw [closeLoop, heq]
    rcases eq_or_ne k' i with rfl | hne
    · exact ⟨k' + 1, by omega, by rw [Function.update_self]⟩
    · exact ⟨k', by omega, by rw [Function.update_of_ne hne]⟩

theorem Terminated.openLoop (h : Terminated lines) (line : ℤ) (i : ℕ) : Terminated (openLoop line i lines) := by
  intro k hk
  obtain ⟨k', hle, heq⟩ := openLoop_row line i lines k
  rw [heq]
  exact h k' (by omega)

theorem Terminated.closeLoop (h : Terminated lines) {i n : ℕ} (hlt : i + n < 512) : Terminated (closeLoop i n lines) := by
  intro k hk
  obtain ⟨k', hle, heq⟩ := closeLoop_row i n lines k
  rw [heq]
  exact h k' (by omega)

end Lines

/-! ## The editor -/

/-- The rows are terminated, and the cursor is on one of them. -/
structure Sound (e : Editor) : Prop where
  count_pos : 1 ≤ e.lineCount
  count_le : e.lineCount ≤ 512
  line_nonneg : 0 ≤ e.cursorLine
  line_lt : e.cursorLine < e.lineCount
  rows : Terminated e.lines
  col_nonneg : 0 ≤ e.cursorCol
  col_le : ∃ n, Holds (e.lines e.cursorLine.toNat) n ∧ e.cursorCol ≤ n

section Sound
variable {e : Editor}

theorem Sound.start : Sound start where
  count_pos := by decide
  count_le := by decide
  line_nonneg := by decide
  line_lt := by decide
  rows := fun _ _ => ⟨0, holds_nil⟩
  col_nonneg := by decide
  col_le := ⟨0, holds_nil, by decide⟩

theorem Sound.row (h : Sound e) {i : ℤ} (hi : 0 ≤ i) (hlt : i < e.lineCount) : e.row i = some (e.lines i.toNat) := by
  have hle := h.count_le
  exact if_pos ⟨hi, by omega⟩

theorem Sound.row_cursor (h : Sound e) : e.row e.cursorLine = some (e.lines e.cursorLine.toNat) :=
  h.row h.line_nonneg h.line_lt

theorem Sound.holds (h : Sound e) {i : ℤ} (hlt : i < e.lineCount) : ∃ n, Holds (e.lines i.toNat) n := by
  have hle := h.count_le
  exact h.rows _ (by omega)

theorem Sound.length (h : Sound e) {i : ℤ} {n : ℕ} (hi : 0 ≤ i) (hlt : i < e.lineCount) (hn : Holds (e.lines i.toNat) n) :
    e.length i = some n := by
  rw [Editor.length, h.row hi hlt, Option.bind_some, strlen_iff.mpr hn]

/-- The cursor on another line. -/
theorem Sound.move (h : Sound e) {line col : ℤ} {n : ℕ} (hline : 0 ≤ line) (hlt : line < e.lineCount)
    (hn : Holds (e.lines line.toNat) n) (hcol : 0 ≤ col) (hle : col ≤ n) :
    Sound { e with cursorLine := line, cursorCol := col } :=
  { h with line_nonneg := hline, line_lt := hlt, col_nonneg := hcol, col_le := ⟨n, hn, hle⟩ }

/-- Another text on the line. -/
theorem Sound.setRow (h : Sound e) {row : Row} {n : ℕ} {col : ℤ} (hrow : Holds row n) (hcol : 0 ≤ col) (hle : col ≤ n) :
    Sound { e.setRow e.cursorLine row with cursorCol := col } :=
  { h with
    rows := h.rows.update hrow _
    col_nonneg := hcol
    col_le := ⟨n, by dsimp only [Editor.setRow]; rwa [Function.update_self], hle⟩ }

theorem Sound.insertChar (h : Sound e) {c : UInt8} (hc : c ≠ 0) : ∃ e', insertChar e c = some e' ∧ Sound e' := by
  obtain ⟨n, hn, hle⟩ := h.col_le
  have hcol := h.col_nonneg
  rw [TextEditor.insertChar, h.row_cursor]
  simp only [Option.bind_eq_bind, Option.bind_some, strlen_iff.mpr hn]
  split
  · exact ⟨e, rfl, h⟩
  · obtain ⟨moved, text, hmoved, htext, hholds⟩ := hn.insert (by omega) hcol hle hc
    rw [hmoved, Option.bind_some, htext]
    exact ⟨_, rfl, h.setRow hholds (by omega) (by omega)⟩

theorem Sound.splitLine (h : Sound e) : ∃ e', splitLine e = some e' ∧ Sound e' := by
  obtain ⟨n, hn, hle⟩ := h.col_le
  obtain ⟨hcol, hpos, hline, hlt⟩ := And.intro h.col_nonneg (And.intro h.count_pos (And.intro h.line_nonneg h.line_lt))
  rw [TextEditor.splitLine]
  split
  · exact ⟨e, rfl, h⟩
  · next hroom =>
    have hkept : openLoop e.cursorLine e.lineCount.toNat e.lines e.cursorLine.toNat = e.lines e.cursorLine.toNat :=
      openLoop_of_le _ _ (by omega)
    have hrows := h.rows.openLoop e.cursorLine e.lineCount.toNat
    generalize openLoop e.cursorLine e.lineCount.toNat e.lines = lines at *
    rw [← hkept] at hn
    obtain ⟨below, hbelow, hbelow'⟩ := hn.tail (lines (e.cursorLine + 1).toNat) hcol hle
    obtain ⟨head, hhead, hhead'⟩ := hn.head hcol hle
    have hrow : ∀ i : ℤ, 0 ≤ i → i < 512 → Editor.row { e with lines := lines } i = some (lines i.toNat) :=
      fun i hi hi' => if_pos ⟨hi, hi'⟩
    dsimp only
    rw [hrow _ hline (by omega), hrow _ (by omega) (by omega)]
    simp only [Option.bind_eq_bind, Option.bind_some, hbelow, hhead]
    refine ⟨_, rfl, ?_⟩
    constructor
    all_goals dsimp only [Editor.setRow]
    · omega
    · omega
    · omega
    · omega
    · exact (hrows.update hbelow' _).update hhead' _
    · decide
    · refine ⟨n - e.cursorCol.toNat, ?_, Int.natCast_nonneg _⟩
      rw [Function.update_of_ne (by omega), Function.update_self]
      exact hbelow'

theorem Sound.backspace (h : Sound e) : ∃ e', backspace e = some e' ∧ Sound e' := by
  obtain ⟨n, hn, hle⟩ := h.col_le
  obtain ⟨hcol, hpos, hline, hlt⟩ := And.intro h.col_nonneg (And.intro h.count_pos (And.intro h.line_nonneg h.line_lt))
  have hcount := h.count_le
  rw [TextEditor.backspace]
  split
  · -- inside the line
    next hinside =>
    have hlen : (n : ℤ) - e.cursorCol + 1 = n - (e.cursorCol - 1) := by omega
    have hnext : e.cursorCol = e.cursorCol - 1 + 1 := by omega
    obtain ⟨moved, hmoved, hholds⟩ := hn.remove (show 0 ≤ e.cursorCol - 1 by omega) (by omega)
    rw [← hnext] at hmoved
    rw [h.row_cursor]
    simp only [Option.bind_eq_bind, Option.bind_some, strlen_iff.mpr hn, hlen, hmoved]
    exact ⟨_, rfl, h.setRow hholds (by omega) (by omega)⟩
  · split
    · next hfirst =>
      obtain ⟨m, hm⟩ := h.holds (i := e.cursorLine - 1) (by omega)
      rw [h.row (by omega) (by omega), h.row_cursor]
      simp only [Option.bind_eq_bind, Option.bind_some, strlen_iff.mpr hn, strlen_iff.mpr hm]
      split
      · -- the line joins the one above
        next hfits =>
        have hjoined := hm.append hn hfits
        generalize strcat (e.lines (e.cursorLine - 1).toNat) (e.lines e.cursorLine.toNat) m n = joined at *
        have hlast : (e.setRow (e.cursorLine - 1) joined).row (e.lineCount - 1) =
            some ((e.setRow (e.cursorLine - 1) joined).lines (e.lineCount - 1).toNat) := if_pos ⟨by omega, by omega⟩
        have hsame : (e.setRow (e.cursorLine - 1) joined).lineCount = e.lineCount := rfl
        rw [hsame, hlast, Option.bind_some]
        refine ⟨_, rfl, ?_⟩
        constructor
        all_goals dsimp only [Editor.setRow]
        · omega
        · omega
        · omega
        · omega
        · exact ((h.rows.update hjoined _).closeLoop (by omega)).update holds_nil _
        · exact Int.natCast_nonneg _
        · refine ⟨m + n, ?_, by omega⟩
          rw [Function.update_of_ne (by omega), closeLoop_of_lt _ _ _ (by omega), Function.update_self]
          exact hjoined
      · exact ⟨e, rfl, h⟩
    · exact ⟨e, rfl, h⟩

/-- The cursor keeps its column as far as the line goes. -/
theorem Sound.clampCol (h : Sound e) {line : ℤ} (hline : 0 ≤ line) (hlt : line < e.lineCount) :
    ∃ e', clampCol { e with cursorLine := line } = some e' ∧ Sound e' := by
  obtain ⟨n, hn⟩ := h.holds hlt
  have hlength : Editor.length { e with cursorLine := line } line = some n := h.length hline hlt hn
  have hcol := h.col_nonneg
  rw [TextEditor.clampCol, hlength]
  refine ⟨_, rfl, h.move hline hlt hn ?_ ?_⟩ <;> split <;> omega

theorem Sound.click (h : Sound e) (line column : ℤ) : ∃ e', click e line column = some e' ∧ Sound e' := by
  rw [TextEditor.click]
  split
  · next hline =>
    obtain ⟨n, hn⟩ := h.holds hline.2
    rw [h.length hline.1 hline.2 hn]
    refine ⟨_, rfl, h.move hline.1 hline.2 hn ?_ ?_⟩ <;> split <;> try split
    all_goals omega
  · exact ⟨e, rfl, h⟩

theorem Sound.saveLoop (h : Sound e) (i n : ℕ) (hle : i + n ≤ e.lineCount) : ∃ file, saveLoop e i n = some file := by
  induction n generalizing i with
  | zero => exact ⟨[], rfl⟩
  | succ n ih =>
    have hlt : (i : ℤ) < e.lineCount := by omega
    obtain ⟨m, hm⟩ := h.holds hlt
    obtain ⟨rest, hrest⟩ := ih (i + 1) (by omega)
    rw [TextEditor.saveLoop, h.row (Int.natCast_nonneg i) hlt]
    simp only [Option.bind_eq_bind, Option.bind_some, strlen_iff.mpr hm, hrest]
    exact ⟨_, rfl⟩

theorem Sound.save (h : Sound e) : ∃ file, save e = some file := by
  have hpos := h.count_pos
  exact h.saveLoop 0 _ (by omega)

/-! ### The keys -/

/-- The line that a page up or a page down leads to. -/
def pageLine (e : Editor) (key : UInt32) : ℤ :=
  if key = keyPgup then if e.cursorLine - 10 < 0 then 0 else e.cursorLine - 10
  else if e.cursorLine + 10 ≥ e.lineCount then e.lineCount - 1 else e.cursorLine + 10

def IsPage (key : UInt32) : Prop := key = keyPgup ∨ key = keyPgdn

theorem Sound.page (h : Sound e) {key : UInt32} (hkey : IsPage key) :
    handleKey e key = some { e with cursorLine := pageLine e key } := by
  obtain ⟨n, hn, -⟩ := h.col_le
  rw [handleKey, h.row_cursor, pageLine]
  simp only [Option.bind_eq_bind, Option.bind_some, strlen_iff.mpr hn]
  rcases hkey with rfl | rfl <;> rfl

theorem Sound.pageLine_mem (h : Sound e) (key : UInt32) : 0 ≤ pageLine e key ∧ pageLine e key < e.lineCount := by
  obtain ⟨hpos, hline, hlt⟩ := And.intro h.count_pos (And.intro h.line_nonneg h.line_lt)
  rw [pageLine]
  split <;> split <;> omega

theorem toUInt8_ne_zero {key : UInt32} (hkey : 32 ≤ key ∧ key < 127) : key.toUInt8 ≠ 0 := by
  have hlow : 32 ≤ key.toNat := UInt32.le_iff_toNat_le.mp hkey.1
  have hhigh : key.toNat < 127 := UInt32.lt_iff_toNat_lt.mp hkey.2
  intro heq
  have hzero : key.toNat % 256 = 0 := congrArg UInt8.toNat heq
  omega

/-- Every other key. -/
theorem Sound.handleKey (h : Sound e) {key : UInt32} (hkey : ¬IsPage key) :
    ∃ e', handleKey e key = some e' ∧ Sound e' := by
  obtain ⟨n, hn, hle⟩ := h.col_le
  obtain ⟨hcol, hline, hlt⟩ := And.intro h.col_nonneg (And.intro h.line_nonneg h.line_lt)
  obtain ⟨hup, hdown⟩ := not_or.mp hkey
  have hfirst : ∀ {col : ℤ}, 0 ≤ col → col ≤ n → Sound { e with cursorCol := col } :=
    fun h₀ h₁ => h.move hline hlt hn h₀ h₁
  rw [TextEditor.handleKey, h.row_cursor, Option.bind_eq_bind, Option.bind_some, strlen_iff.mpr hn,
    Option.bind_eq_bind, Option.bind_some]
  by_cases hkey : key = keyEnter
  · rw [if_pos hkey]
    exact h.splitLine
  rw [if_neg hkey]
  by_cases hkey : key = keyBack
  · rw [if_pos hkey]
    exact h.backspace
  rw [if_neg hkey]
  by_cases hkey : key = keyLeft
  · rw [if_pos hkey]
    split
    · exact ⟨_, rfl, hfirst (by omega) (by omega)⟩
    · split
      · next habove =>
        obtain ⟨m, hm⟩ := h.holds (i := e.cursorLine - 1) (by omega)
        rw [h.length (by omega) (by omega) hm]
        exact ⟨_, rfl, h.move (by omega) (by omega) hm (Int.natCast_nonneg m) (Int.le_refl _)⟩
      · exact ⟨e, rfl, h⟩
  rw [if_neg hkey]
  by_cases hkey : key = keyRight
  · rw [if_pos hkey]
    split
    · exact ⟨_, rfl, hfirst (by omega) (by omega)⟩
    · split
      · next hbelow =>
        obtain ⟨m, hm⟩ := h.holds (i := e.cursorLine + 1) (by omega)
        exact ⟨_, rfl, h.move (by omega) (by omega) hm (Int.le_refl 0) (Int.natCast_nonneg m)⟩
      · exact ⟨e, rfl, h⟩
  rw [if_neg hkey]
  by_cases hkey : key = keyUp
  · rw [if_pos hkey]
    split
    · exact h.clampCol (by omega) (by omega)
    · exact ⟨e, rfl, h⟩
  rw [if_neg hkey]
  by_cases hkey : key = keyDown
  · rw [if_pos hkey]
    split
    · exact h.clampCol (by omega) (by omega)
    · exact ⟨e, rfl, h⟩
  rw [if_neg hkey]
  by_cases hkey : key = keyHome
  · rw [if_pos hkey]
    exact ⟨_, rfl, hfirst (Int.le_refl 0) (Int.natCast_nonneg n)⟩
  rw [if_neg hkey]
  by_cases hkey : key = keyEnd
  · rw [if_pos hkey]
    exact ⟨_, rfl, hfirst (Int.natCast_nonneg n) (Int.le_refl _)⟩
  rw [if_neg hkey]
  by_cases hkey : key = keyDelete
  · rw [if_pos hkey]
    split
    · next hinside =>
      obtain ⟨moved, hmoved, hholds⟩ := hn.remove hcol hinside
      rw [hmoved]
      exact ⟨_, rfl, h.setRow hholds hcol (by omega)⟩
    · exact ⟨e, rfl, h⟩
  rw [if_neg hkey, if_neg hup, if_neg hdown]
  split
  · obtain ⟨file, hfile⟩ := h.save
    rw [hfile]
    exact ⟨e, rfl, h⟩
  split
  · next hprint => exact h.insertChar (toUInt8_ne_zero hprint)
  · exact ⟨e, rfl, h⟩

/-! ### Loading -/

/-- The lines of a file, or of the empty text where there is none. -/
def fileLines (file : Option (List UInt8)) : List (List UInt8) := (file.map fileRows).getD [[]]

theorem fileRows_mem {file row : List UInt8} (hrow : row ∈ fileRows file) : row.length < 200 ∧ ∀ c ∈ row, c ≠ 0 := by
  obtain ⟨line, -, rfl⟩ := List.mem_map.mp hrow
  refine ⟨Nat.lt_succ_of_le (List.length_take_le _ _), fun c hc => ?_⟩
  obtain ⟨b, -, hb⟩ := List.mem_flatMap.mp (List.mem_of_mem_take hc)
  rw [expand] at hb
  rintro rfl
  split at hb
  · exact absurd (List.eq_of_mem_replicate hb) (by decide)
  · split at hb
    · next hprint => exact absurd (List.mem_singleton.mp hb ▸ hprint) (by decide)
    · cases hb

theorem fileLines_mem {file : Option (List UInt8)} {row : List UInt8} (hrow : row ∈ fileLines file) :
    row.length < 200 ∧ ∀ c ∈ row, c ≠ 0 := by
  cases file with
  | none =>
    rw [List.mem_singleton.mp hrow]
    simp
  | some file => exact fileRows_mem hrow

theorem load_lines (e : Editor) (file : Option (List UInt8)) :
    (load e file).lines = grid ((fileLines file).take 512) ∧ (load e file).lineCount = min (fileLines file).length 513 ∧
      (load e file).cursorLine = e.cursorLine ∧ (load e file).cursorCol = e.cursorCol := by
  cases file with
  | none => exact ⟨(grid_append_nil []).symm, rfl, rfl, rfl⟩
  | some file => exact ⟨(load_file e file).1, (load_file e file).2, rfl, rfl⟩

/-- What a new text needs to have: no more lines than there are rows, and one for the cursor. -/
def Fits (e : Editor) (lines : List (List UInt8)) : Prop :=
  lines.length ≤ 512 ∧ e.cursorLine < lines.length ∧ e.cursorCol ≤ (lines.getD e.cursorLine.toNat []).length

theorem Sound.load_iff (h : Sound e) (file : Option (List UInt8)) : Sound (load e file) ↔ Fits e (fileLines file) := by
  obtain ⟨hlines, hcount, hline, hcol⟩ := load_lines e file
  have hrows : ∀ row ∈ fileLines file, row.length < 200 ∧ ∀ c ∈ row, c ≠ 0 := fun row => fileLines_mem
  have hnonneg := h.line_nonneg
  have htext : (fileLines file).length ≤ 512 →
      Holds ((load e file).lines (load e file).cursorLine.toNat)
        ((fileLines file).getD e.cursorLine.toNat []).length := by
    intro hle
    rw [hlines, List.take_of_length_le hle, hline]
    exact holds_getD hrows _
  constructor
  · intro hsound
    obtain ⟨n, hn, hle⟩ := hsound.col_le
    obtain ⟨hcountle, hlt⟩ := And.intro hsound.count_le hsound.line_lt
    have hfew : (fileLines file).length ≤ 512 := by omega
    have hlen := (htext hfew).eq hn
    exact ⟨hfew, by omega, by omega⟩
  · rintro ⟨hfew, hlt, hle⟩
    refine ⟨by omega, by omega, by omega, by omega, ?_, by rw [hcol]; exact h.col_nonneg, _, htext hfew, by rwa [hcol]⟩
    rw [hlines, List.take_of_length_le hfew]
    exact Terminated.grid hrows

/-- A file of more lines than there are rows is counted as one line more than there are. -/
theorem load_long (e : Editor) {file : List UInt8} (h : 512 ≤ file.count newline) : ¬Sound (load e (some file)) := by
  intro hsound
  have hcount := (load_file e file).2
  have hle := hsound.count_le
  have hrows : (fileRows file).length = file.count newline + 1 := by
    rw [fileRows, List.length_map, length_splitOn]
  omega

end Sound

/-! ## Runs -/

/-- What happens to the editor: a file loaded or reloaded, a key, or a click on a line and a column. -/
inductive Action where
  | load (file : Option (List UInt8))
  | key (key : UInt32)
  | click (line column : ℤ)

def perform (e : Editor) : Action → Option Editor
  | .load file => some (load e file)
  | .key key => handleKey e key
  | .click line column => click e line column

/-- A new text has a place for the cursor, and so has the line that a page leads to. -/
def Meets (e : Editor) : Action → Prop
  | .load file => Fits e (fileLines file)
  | .key key => IsPage key → ∀ n, Holds (e.lines (pageLine e key).toNat) n → e.cursorCol ≤ n
  | .click _ _ => True

/-- The states that such actions lead to. -/
inductive Reached : Editor → Prop
  | start : Reached start
  | step {e e' : Editor} {a : Action} : Reached e → Meets e a → perform e a = some e' → Reached e'

theorem Sound.perform_iff {e : Editor} (h : Sound e) (a : Action) : (∃ e', perform e a = some e' ∧ Sound e') ↔ Meets e a := by
  cases a with
  | load file =>
    rw [Meets, ← h.load_iff file]
    constructor
    · rintro ⟨e', heq, hsound⟩
      rwa [Option.some.inj heq]
    · exact fun hsound => ⟨_, rfl, hsound⟩
  | click line column => exact iff_of_true (h.click line column) trivial
  | key key =>
    by_cases hkey : IsPage key
    · obtain ⟨hline, hlt⟩ := h.pageLine_mem key
      rw [perform, h.page hkey]
      constructor
      · rintro ⟨e', heq, hsound⟩ - n hn
        obtain rfl := Option.some.inj heq
        obtain ⟨m, hm, hle⟩ := hsound.col_le
        rwa [hn.eq hm]
      · intro hmeets
        obtain ⟨n, hn⟩ := h.holds hlt
        exact ⟨_, rfl, h.move hline hlt hn h.col_nonneg (hmeets hkey n hn)⟩
    · exact iff_of_true (h.handleKey hkey) fun hpage => absurd hpage hkey

/-- In a run of such actions the editor stays as it should be, and no other action keeps it so. -/
theorem reached_sound {e : Editor} (h : Reached e) : Sound e ∧ ∀ a, (∃ e', perform e a = some e' ∧ Sound e') ↔ Meets e a := by
  have hsound : Sound e := by
    induction h with
    | start => exact Sound.start
    | step _ hmeets hstep ih =>
      obtain ⟨e', heq, hsound⟩ := (ih.perform_iff _).mpr hmeets
      rwa [Option.some.inj (hstep.symm.trans heq)]
  exact ⟨hsound, hsound.perform_iff⟩

/-- A file of two lines, a letter, End, and a page down to a line that is long enough. -/
theorem reached_sound_pages : ∃ e : Editor,
    ([.load (some [97, 98, 10, 99, 100, 101]), .key 120, .key keyEnd, .key keyPgdn] : List Action).foldlM perform start =
      some e ∧ e.cursorLine = 1 ∧ e.cursorCol = 3 ∧
      Sound e ∧ ∀ a, (∃ e', perform e a = some e' ∧ Sound e') ↔ Meets e a := by
  have hletter : ¬IsPage 120 ∧ ¬IsPage keyEnd := by simp [IsPage, keyEnd, keyPgup, keyPgdn, LineInput.keyEnd]
  have hfits : Fits start (fileLines (some [97, 98, 10, 99, 100, 101])) := by
    refine ⟨?_, ?_, ?_⟩ <;> decide
  have hloaded := Reached.start.step (a := .load (some [97, 98, 10, 99, 100, 101])) hfits rfl
  have htyped := hloaded.step (a := .key 120) (fun hpage => absurd hpage hletter.1) (Option.some_get (by decide)).symm
  have hend := htyped.step (a := .key keyEnd) (fun hpage => absurd hpage hletter.2) (Option.some_get (by decide)).symm
  have hpaged := hend.step (a := .key keyPgdn) (fun _ n hn => ?_) (Option.some_get (by decide)).symm
  · exact ⟨_, rfl, by decide, by decide, reached_sound hpaged⟩
  · obtain rfl : n = 3 := hn.eq ⟨by decide, by decide, by decide⟩
    decide

/-- Enter, three letters and a page up: the cursor is behind the end of an empty line, and a letter more moves a
negative number of characters. -/
theorem page_up_unsound : ∃ e : Editor,
    ([.key keyEnter, .key 97, .key 98, .key 99, .key keyPgup] : List Action).foldlM perform start = some e ∧
      ¬Sound e ∧ perform e (.key 100) = none := by
  have hrun : (([.key keyEnter, .key 97, .key 98, .key 99, .key keyPgup] : List Action).foldlM perform start).map
      (fun e => (e.cursorCol, e.length e.cursorLine, (perform e (.key 100)).isNone)) = some (3, some 0, true) := by
    decide
  obtain ⟨e, he, hvalue⟩ := Option.map_eq_some_iff.mp hrun
  obtain ⟨hcol, hrest⟩ := Prod.mk.inj hvalue
  obtain ⟨hlength, hnone⟩ := Prod.mk.inj hrest
  refine ⟨e, he, fun hsound => ?_, Option.isNone_iff_eq_none.mp hnone⟩
  obtain ⟨n, hn, hle⟩ := hsound.col_le
  rw [hsound.length hsound.line_nonneg hsound.line_lt hn] at hlength
  have hzero : n = 0 := Option.some.inj hlength
  omega

end SifarOS.TextEditor
