import Mathlib.Data.Bool.AllAny
import Mathlib.Data.List.GetD
import SifarOS.TextEditor

/-! # The editor's files

The rows that `load` makes of a file and the file that `save` makes of the rows. -/
namespace SifarOS.TextEditor
open LineInput

def Printable (c : UInt8) : Prop := blank ≤ c ∧ c < 127

instance (c : UInt8) : Decidable (Printable c) := inferInstanceAs (Decidable (_ ∧ _))

/-- The characters that a byte of a line shows as. -/
def expand (c : UInt8) : List UInt8 := if c = tab then List.replicate 4 blank else if Printable c then [c] else []

/-- A line of a file as a row. -/
def shown (bytes : List UInt8) : List UInt8 := (bytes.flatMap expand).take 199

def fileRows (file : List UInt8) : List (List UInt8) := (file.splitOn newline).map shown

/-- Texts as terminated rows. -/
def grid (rows : List (List UInt8)) : ℕ → Row := fun i j => (rows.getD i []).getD j 0

/-! ## Loading -/

section Load

theorem grid_append_nil (rows : List (List UInt8)) : grid (rows ++ [[]]) = grid rows := by
  funext i j
  unfold grid
  rcases Nat.lt_trichotomy i rows.length with hlt | rfl | hgt
  · rw [List.getD_append _ _ _ _ hlt]
  · simp
  · have hleft : (rows ++ [[]]).getD i [] = [] := List.getD_eq_default _ _ (by simp; omega)
    have hright : rows.getD i [] = [] := List.getD_eq_default _ _ (by omega)
    rw [hleft, hright]

/-- A character behind the last row. -/
theorem grid_put (done : List (List UInt8)) (text : List UInt8) (c : UInt8) :
    Function.update (grid (done ++ [text])) done.length
      (Function.update (grid (done ++ [text]) done.length) text.length c) = grid (done ++ [text ++ [c]]) := by
  funext i
  rcases Nat.lt_trichotomy i done.length with hlt | rfl | hgt
  · rw [Function.update_of_ne (Nat.ne_of_lt hlt)]
    unfold grid
    rw [List.getD_append _ _ _ _ hlt, List.getD_append _ _ _ _ hlt]
  · rw [Function.update_self]
    funext j
    unfold grid
    rw [List.getD_append_right _ _ _ _ (Nat.le_refl _), List.getD_append_right _ _ _ _ (Nat.le_refl _), Nat.sub_self,
      List.getD_cons_zero, List.getD_cons_zero]
    rcases Nat.lt_trichotomy j text.length with hlt | rfl | hgt
    · rw [Function.update_of_ne (Nat.ne_of_lt hlt), List.getD_append _ _ _ _ hlt]
    · rw [Function.update_self, List.getD_append_right _ _ _ _ (Nat.le_refl _), Nat.sub_self, List.getD_cons_zero]
    · rw [Function.update_of_ne (Nat.ne_of_gt hgt), List.getD_eq_default _ _ (by omega),
        List.getD_eq_default _ _ (by simp; omega)]
  · have hbehind : ∀ row : List UInt8, (done ++ [row]).getD i [] = [] :=
      fun row => List.getD_eq_default _ _ (by simp; omega)
    rw [Function.update_of_ne (Nat.ne_of_gt hgt)]
    unfold grid
    rw [hbehind, hbehind]

/-- Behind some rows and the beginning of another one. -/
def loaded (done : List (List UInt8)) (text : List UInt8) : Loader := ⟨grid (done ++ [text]), done.length, text.length⟩

theorem take_take_append (n : ℕ) (text more : List UInt8) : (text.take n ++ more).take n = (text ++ more).take n := by
  rw [List.take_append, List.take_append, List.take_take, Nat.min_self, List.length_take]
  congr 2
  omega

theorem loadChar_loaded (done : List (List UInt8)) {text : List UInt8} (h : text.length ≤ 199) (c : UInt8) :
    loadChar (loaded done text) c = loaded done ((text ++ [c]).take 199) := by
  unfold loadChar loaded
  dsimp only
  split
  · next hlt =>
    rw [List.take_of_length_le (by simp; omega), grid_put, List.length_append, List.length_singleton]
  · next hge =>
    have hfull : text.length = 199 := by omega
    rw [← hfull, List.take_left]

theorem loadByte_loaded (done : List (List UInt8)) {text : List UInt8} (h : text.length ≤ 199) {c : UInt8}
    (hc : c ≠ newline) : loadByte (loaded done text) c = loaded done ((text ++ expand c).take 199) := by
  have htake : ∀ t : List UInt8, (t.take 199).length ≤ 199 := fun t => List.length_take_le _ _
  unfold loadByte expand
  rw [if_neg hc]
  split
  · rw [loadChar_loaded done h, loadChar_loaded done (htake _), loadChar_loaded done (htake _),
      loadChar_loaded done (htake _)]
    simp only [take_take_append, List.append_assoc]
    rfl
  · split
    · next hprint =>
      have hchar : Printable c := hprint
      rw [loadChar_loaded done h, if_pos hchar]
    · next hprint =>
      have hchar : ¬Printable c := hprint
      rw [if_neg hchar, List.append_nil, List.take_of_length_le h]

theorem loadByte_newline (done : List (List UInt8)) (text : List UInt8) :
    loadByte (loaded done text) newline = loaded (done ++ [text]) [] := by
  rw [loadByte, if_pos rfl, loaded, loaded, grid_append_nil, List.length_append]
  rfl

/-- The rows that come of the rest of a file, behind the beginning of the first of them. -/
def rowsBehind (text : List UInt8) (file : List UInt8) : List (List UInt8) :=
  match file.splitOn newline with
  | [] => []
  | first :: rest => (text ++ first.flatMap expand).take 199 :: rest.map shown

theorem rowsBehind_nil (text : List UInt8) : rowsBehind text [] = [text.take 199] := by
  simp [rowsBehind, List.splitOn_nil]

theorem rowsBehind_newline (text file : List UInt8) :
    rowsBehind text (newline :: file) = text.take 199 :: rowsBehind [] file := by
  have hsplit : (newline :: file).splitOn newline = [] :: file.splitOn newline := by
    simp [List.splitOn_cons_eq_if_modifyHead]
  rw [rowsBehind, hsplit, rowsBehind]
  cases hrest : file.splitOn newline with
  | nil => exact absurd hrest (List.splitOn_ne_nil newline file)
  | cons first rest => simp [shown]

theorem rowsBehind_cons {c : UInt8} (hc : c ≠ newline) (text file : List UInt8) :
    rowsBehind text (c :: file) = rowsBehind ((text ++ expand c).take 199) file := by
  have hsplit : (c :: file).splitOn newline = (file.splitOn newline).modifyHead (List.cons c) := by
    simp [List.splitOn_cons_eq_if_modifyHead, hc]
  rw [rowsBehind, hsplit, rowsBehind]
  cases file.splitOn newline with
  | nil => rfl
  | cons first rest => simp [take_take_append]

theorem fileRows_eq (file : List UInt8) : fileRows file = rowsBehind [] file := by
  rw [fileRows, rowsBehind]
  cases hrest : file.splitOn newline with
  | nil => exact absurd hrest (List.splitOn_ne_nil newline file)
  | cons first rest => simp [shown]

/-- The loop keeps the rows for which there is room. -/
theorem loadLoop_loaded (file : List UInt8) {done : List (List UInt8)} {text : List UInt8} (hdone : done.length ≤ 512)
    (htext : text.length ≤ 199) (hfull : done.length = 512 → text = []) :
    (loadLoop (loaded done text) file).lines = grid ((done ++ rowsBehind text file).take 512) ∧
      (loadLoop (loaded done text) file).line + 1 = min (done.length + (rowsBehind text file).length) 513 := by
  induction file generalizing done text with
  | nil =>
    rw [rowsBehind_nil, List.take_of_length_le htext, loadLoop]
    rcases Nat.lt_or_ge done.length 512 with hlt | hge
    · rw [List.take_of_length_le (by simp; omega)]
      exact ⟨rfl, by simp [loaded]; omega⟩
    · have hlen : done.length = 512 := by omega
      rw [hfull hlen, ← hlen, List.take_left, loaded, grid_append_nil]
      exact ⟨rfl, by simp; omega⟩
  | cons c rest ih =>
    have hline : (loaded done text).line = done.length := rfl
    rw [loadLoop, hline]
    rcases Nat.lt_or_ge done.length 512 with hlt | hge
    · rw [if_pos hlt]
      by_cases hc : c = newline
      · subst hc
        have hnext := @ih (done ++ [text]) [] (by simp; omega) (by simp) (fun _ => rfl)
        rw [loadByte_newline, rowsBehind_newline, List.take_of_length_le htext]
        rw [List.append_assoc, List.length_append, List.length_singleton] at hnext
        refine ⟨hnext.1, hnext.2.trans ?_⟩
        rw [List.length_cons]
        omega
      · have hnext := @ih done ((text ++ expand c).take 199) hdone (List.length_take_le _ _)
          (fun hlen => absurd hlen (by omega))
        rwa [loadByte_loaded done htext hc, rowsBehind_cons hc]
    · have hlen : done.length = 512 := by omega
      have hpos : 0 < (rowsBehind text (c :: rest)).length := by
        rw [rowsBehind]
        split
        · next hnil => exact absurd hnil (List.splitOn_ne_nil _ _)
        · exact Nat.succ_pos _
      rw [if_neg (by omega), hfull hlen, ← hlen, List.take_left, loaded, grid_append_nil]
      rw [hfull hlen] at hpos
      exact ⟨rfl, by dsimp only; omega⟩

/-- What `load` makes of a file. -/
theorem load_file (e : Editor) (file : List UInt8) : (load e (some file)).lines = grid ((fileRows file).take 512) ∧
    (load e (some file)).lineCount = min (fileRows file).length 513 := by
  have hstart : (⟨fun _ _ => 0, 0, 0⟩ : Loader) = loaded [] [] := by
    rw [loaded, grid_append_nil]
    rfl
  obtain ⟨hlines, hline⟩ := @loadLoop_loaded file [] [] (by simp) (by simp) (by simp)
  rw [load, hstart, fileRows_eq]
  rw [List.nil_append] at hlines
  rw [List.length_nil, Nat.zero_add] at hline
  refine ⟨hlines, ?_⟩
  dsimp only
  omega

end Load

/-! ## Saving -/

section Save

/-- A text without a terminator in it, as a row. -/
theorem strlen_grid {rows : List (List UInt8)} {i : ℕ} (hlen : (rows.getD i []).length < 200)
    (hzero : ∀ c ∈ rows.getD i [], c ≠ 0) : strlen 200 (grid rows i) = some (rows.getD i []).length := by
  rw [strlen, List.find?_range_eq_some]
  refine ⟨?_, List.mem_range.mpr hlen, fun j hj => ?_⟩
  · simp [grid]
  · have hmem : (rows.getD i []).getD j 0 ∈ rows.getD i [] := by
      rw [List.getD_eq_getElem _ _ hj]
      exact List.getElem_mem hj
    simpa [grid] using hzero _ hmem

theorem map_grid (rows : List (List UInt8)) (i : ℕ) :
    (List.range (rows.getD i []).length).map (grid rows i) = rows.getD i [] := by
  apply List.ext_getElem (by simp)
  intro j hj hj'
  simp only [List.getElem_map, List.getElem_range, grid]
  exact List.getD_eq_getElem _ _ hj'

theorem saveLoop_grid {e : Editor} {rows : List (List UInt8)} (he : e.lines = grid rows)
    (hrows : ∀ row ∈ rows, row.length < 200 ∧ ∀ c ∈ row, c ≠ 0) (hcount : rows.length ≤ 512) {i n : ℕ}
    (hn : i + n = rows.length) : saveLoop e i n = some ((rows.drop i).flatMap (· ++ [newline])) := by
  induction n generalizing i with
  | zero =>
    rw [saveLoop, List.drop_of_length_le (by omega)]
    rfl
  | succ n ih =>
    have hi : i < rows.length := by omega
    have hget : rows.getD i [] = rows[i] := List.getD_eq_getElem _ _ hi
    obtain ⟨hlen, hzero⟩ := hrows _ (List.getElem_mem hi)
    rw [← hget] at hlen hzero
    have hrow : e.row i = some (grid rows i) := by
      rw [Editor.row, if_pos (by omega), he]
      rfl
    have hbytes := map_grid rows i
    rw [saveLoop, hrow]
    simp only [bind, Option.bind, strlen_grid hlen hzero, ih (i := i + 1) (by omega)]
    rw [hbytes, hget, List.drop_eq_getElem_cons hi, List.flatMap_cons]
    simp [pure]

theorem save_grid {e : Editor} {rows : List (List UInt8)} (he : e.lines = grid rows)
    (hrows : ∀ row ∈ rows, row.length < 200 ∧ ∀ c ∈ row, c ≠ 0) (hcount : e.lineCount = rows.length)
    (hle : rows.length ≤ 512) : save e = some (rows.flatMap (· ++ [newline])) := by
  rw [save, saveLoop_grid he hrows hle (by omega), List.drop_zero]

end Save

/-! ## A file that is not edited -/

section RoundTrip
variable {file : List UInt8}

theorem mem_splitOn {line : List UInt8} (hline : line ∈ file.splitOn newline) {c : UInt8} (hc : c ∈ line) :
    c ∈ file ∧ c ≠ newline := by
  induction file generalizing line with
  | nil =>
    rw [List.splitOn_nil, List.mem_singleton] at hline
    subst hline
    cases hc
  | cons b rest ih =>
    rw [List.splitOn_cons_eq_if_modifyHead] at hline
    split at hline
    · rcases List.mem_cons.mp hline with rfl | hline
      · cases hc
      · exact ⟨List.mem_cons_of_mem _ (ih hline hc).1, (ih hline hc).2⟩
    · next hb =>
      cases hrest : rest.splitOn newline with
      | nil => exact absurd hrest (List.splitOn_ne_nil _ _)
      | cons first others =>
        rw [hrest] at hline ih
        rcases List.mem_cons.mp hline with rfl | hline
        · rcases List.mem_cons.mp hc with rfl | hc
          · exact ⟨List.mem_cons_self, by simpa using hb⟩
          · exact ⟨List.mem_cons_of_mem _ (ih List.mem_cons_self hc).1, (ih List.mem_cons_self hc).2⟩
        · have hmem := ih (List.mem_cons_of_mem _ hline) hc
          exact ⟨List.mem_cons_of_mem _ hmem.1, hmem.2⟩

theorem length_splitOn (file : List UInt8) : (file.splitOn newline).length = file.count newline + 1 := by
  induction file with
  | nil => rfl
  | cons b rest ih =>
    rw [List.splitOn_cons_eq_if_modifyHead, List.count_cons, apply_ite List.length, List.length_cons,
      List.length_modifyHead, ih]
    split <;> omega

theorem flatMap_newline {rows : List (List UInt8)} (h : rows ≠ []) :
    rows.flatMap (· ++ [newline]) = [newline].intercalate rows ++ [newline] := by
  induction rows with
  | nil => exact absurd rfl h
  | cons first rest ih =>
    cases rest with
    | nil => simp [List.intercalate]
    | cons second rest =>
      rw [List.flatMap_cons, ih (List.cons_ne_nil _ _)]
      simp [List.intercalate]

/-- A line that is shown as it is. -/
theorem shown_eq {line : List UInt8} (hprint : ∀ c ∈ line, Printable c) (hlen : line.length ≤ 199) : shown line = line := by
  have hexpand : ∀ c, Printable c → expand c = [c] := by
    intro c hc
    have htab : c ≠ tab := by
      rintro rfl
      exact absurd hc (by decide)
    rw [expand, if_neg htab, if_pos hc]
  have hall : line.flatMap expand = line := by
    induction line with
    | nil => rfl
    | cons c rest ih =>
      obtain ⟨hc, hrest⟩ := List.forall_mem_cons.mp hprint
      rw [List.flatMap_cons, hexpand c hc, ih hrest (by simp at hlen; omega)]
      rfl
  rw [shown, hall, List.take_of_length_le hlen]

/-- A file of printable characters, in lines and with as many lines as there is room for. -/
structure Plain (file : List UInt8) : Prop where
  printable : ∀ c ∈ file, c = newline ∨ Printable c
  line_le : ∀ line ∈ file.splitOn newline, line.length ≤ 199
  count_lt : file.count newline < 512

theorem Plain.fileRows_eq (h : Plain file) : fileRows file = file.splitOn newline := by
  rw [fileRows]
  refine (List.map_congr_left fun line hline => ?_).trans (List.map_id _)
  refine shown_eq (fun c hc => ?_) (h.line_le line hline)
  obtain ⟨hmem, hne⟩ := mem_splitOn hline hc
  exact (h.printable c hmem).resolve_left hne

/-- Loading and saving a file that ends in a newline, or one that does not, writes one newline more. Loaded again,
it has the same rows, and one line more. -/
theorem save_load (h : Plain file) (e e' : Editor) :
    save (load e (some file)) = some (file ++ [newline]) ∧ save (load e (some file)) ≠ some file ∧
      (load e' (some (file ++ [newline]))).lines = (load e (some file)).lines ∧
      (load e' (some (file ++ [newline]))).lineCount = (load e (some file)).lineCount + 1 := by
  obtain ⟨hlines, hcount⟩ := load_file e file
  obtain ⟨hlines', hcount'⟩ := load_file e' (file ++ [newline])
  have hlength := length_splitOn file
  have hlt := h.count_lt
  have hsaved : save (load e (some file)) = some (file ++ [newline]) := by
    rw [h.fileRows_eq] at hlines hcount
    rw [List.take_of_length_le (by omega)] at hlines
    have hrows : ∀ row ∈ file.splitOn newline, row.length < 200 ∧ ∀ c ∈ row, c ≠ 0 := by
      intro row hrow
      refine ⟨Nat.lt_succ_of_le (h.line_le row hrow), fun c hc => ?_⟩
      rintro rfl
      obtain ⟨hmem, hne⟩ := mem_splitOn hrow hc
      exact absurd ((h.printable 0 hmem).resolve_left hne) (by decide)
    rw [save_grid hlines hrows (by omega) (by omega), flatMap_newline (List.splitOn_ne_nil _ _), List.intercalate_splitOn]
  have hagain : fileRows (file ++ [newline]) = fileRows file ++ [[]] := by
    rw [fileRows, List.splitOn_append_cons_self, List.map_append, fileRows]
    rfl
  have hrows : (fileRows file).length = file.count newline + 1 := by rw [h.fileRows_eq, hlength]
  refine ⟨hsaved, ?_, ?_, ?_⟩
  · rw [hsaved]
    intro heq
    simpa using congrArg List.length (Option.some.inj heq)
  · rw [hlines, hlines', hagain]
    rcases Nat.lt_or_ge (fileRows file).length 512 with hless | hge
    · rw [List.take_of_length_le (by simp; omega), List.take_of_length_le (by omega), grid_append_nil]
    · have hfull : (fileRows file).length = 512 := by omega
      rw [← hfull, List.take_left, List.take_length]
  · rw [hcount, hcount', hagain, List.length_append, List.length_singleton]
    omega

end RoundTrip

def start : Editor := ⟨fun _ _ => 0, 1, 0, 0⟩

theorem save_load_ab : save (load start (some [97, 10, 98, 10])) = some ([97, 10, 98, 10] ++ [newline]) ∧
    save (load start (some [97, 10, 98, 10])) ≠ some [97, 10, 98, 10] ∧
    (load start (some ([97, 10, 98, 10] ++ [newline]))).lines = (load start (some [97, 10, 98, 10])).lines ∧
    (load start (some ([97, 10, 98, 10] ++ [newline]))).lineCount = (load start (some [97, 10, 98, 10])).lineCount + 1 :=
  save_load ⟨List.all_iff_forall_prop.mp (by decide), List.all_iff_forall_prop.mp (by decide), by decide⟩ start start

/-- A file with one line is saved with two. -/
theorem saved_longer : Plain [97, 10] ∧ save (load start (some [97, 10])) = some [97, 10, 10] ∧
    save (load start (some [97, 10])) ≠ some [97, 10] :=
  ⟨⟨List.all_iff_forall_prop.mp (by decide), List.all_iff_forall_prop.mp (by decide), by decide⟩, by decide, by decide⟩

end SifarOS.TextEditor
