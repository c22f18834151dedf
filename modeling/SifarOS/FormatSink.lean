import Mathlib.Data.List.Basic
import Mathlib.Logic.Function.Basic
import SifarOS.MachineInt

/-! # Formatting into a buffer

What the formatter of the kernel and that of the user library have in common: the arguments, the
sink that counts characters and keeps those that fit, the loops over digits and width, and the loop
over the format. The format is a string of bytes without its terminator, and an `int` that overflows
wraps. What the characters are does not depend on the sink. -/
namespace SifarOS.FormatSink

/-- What `va_arg` finds next: a word, or the address of a string. -/
inductive Arg
  | word (value : UInt32)
  | text (str : Option (List UInt8))
  deriving DecidableEq, Repr

/-- `va_arg` for a word; no value if the next argument is none. -/
def vaWord : List Arg → Option (UInt32 × List Arg)
  | .word value :: args => some (value, args)
  | _ => none

/-- `va_arg` for the address of a string. -/
def vaText : List Arg → Option (Option (List UInt8) × List Arg)
  | .text str :: args => some (str, args)
  | _ => none

/-- `struct sink` and `struct format_sink`, with a buffer. -/
structure Sink where
  buf : ℕ → UInt8
  size : UInt32
  written : UInt32

def sinkPutc (s : Sink) (c : UInt8) : Sink :=
  { s with
    buf := if s.written + 1 < s.size then Function.update s.buf s.written.toNat c else s.buf
    written := s.written + 1 }

/-- The characters of a text, one after the other. -/
def putAll (s : Sink) (text : List UInt8) : Sink := text.foldl sinkPutc s

def char (c : Char) : UInt8 := UInt8.ofNat c.toNat

def nullText : List UInt8 := ['(', 'n', 'u', 'l', 'l', ')'].map char

def lowerDigits : List UInt8 :=
  ['0', '1', '2', '3', '4', '5', '6', '7', '8', '9', 'a', 'b', 'c', 'd', 'e', 'f'].map char

/-- The loop over the digits, the last one first, into an array with this much room. -/
def digitLoop (digits : List UInt8) (base : UInt32) : ℕ → UInt32 → List UInt8
  | 0, _ => []
  | room + 1, value =>
    digits.getD (value % base).toNat 0 ::
      if value / base = 0 then [] else digitLoop digits base room (value / base)

def isDigit (c : UInt8) : Bool := char '0' ≤ c ∧ c ≤ char '9'

/-- The width of a conversion, and what follows it. -/
def widthLoop (width : Int32) : List UInt8 → Int32 × List UInt8
  | [] => (width, [])
  | c :: rest =>
    if isDigit c then widthLoop (width * 10 + (c - char '0').toUInt32.toInt32) rest else (width, c :: rest)

theorem length_digitLoop (digits : List UInt8) (base : UInt32) (room : ℕ) (value : UInt32) :
    (digitLoop digits base room value).length ≤ room := by
  induction room generalizing value with
  | zero => exact Nat.le_refl 0
  | succ room ih =>
    unfold digitLoop
    split
    · simp
    · exact Nat.succ_le_succ (ih _)

/-- With room for all digits the loop comes to its end. -/
theorem digitLoop_room {digits : List UInt8} {base value : UInt32} {room : ℕ}
    (h : value.toNat < base.toNat ^ (room + 1)) (extra : ℕ) :
    digitLoop digits base (room + 1 + extra) value = digitLoop digits base (room + 1) value := by
  induction room generalizing value with
  | zero =>
    have hlast : value / base = 0 := by
      rw [← UInt32.toNat_inj, UInt32.toNat_div]
      exact Nat.div_eq_of_lt (by simpa using h)
    rw [Nat.zero_add, Nat.add_comm, digitLoop, digitLoop, if_pos hlast, if_pos hlast]
  | succ room ih =>
    rw [Nat.add_right_comm, digitLoop, digitLoop]
    split
    · rfl
    · rw [ih]
      rw [UInt32.toNat_div]
      exact Nat.div_lt_of_lt_mul (by rwa [Nat.pow_succ, Nat.mul_comm] at h)

theorem length_widthLoop (width : Int32) (fmt : List UInt8) : (widthLoop width fmt).2.length ≤ fmt.length := by
  induction fmt generalizing width with
  | nil => simp [widthLoop]
  | cons c rest ih =>
    unfold widthLoop
    split_ifs
    · exact Nat.le_succ_of_le (ih _)
    · exact Nat.le_refl _

/-- A conversion after its `%`: what the flags and the width have been read to be, and what is left. -/
structure Spec where
  left : Bool
  pad : UInt8
  width : Int32
  rest : List UInt8

/-- How a formatter reads what follows a `%`. -/
structure Grammar where
  parse : List UInt8 → Spec
  length_parse : ∀ fmt, (parse fmt).rest.length ≤ fmt.length

section Loop
variable {σ τ : Type*}

/-- The loop over the format: `put` takes a character, `convert` a conversion and the arguments that are
left, and `atEnd` is for a format that ends after a `%`. -/
def formatLoop (g : Grammar) (put : σ → UInt8 → σ) (convert : σ → Spec → UInt8 → List Arg → Option (σ × List Arg))
    (atEnd : σ → Option σ) (s : σ) (fmt : List UInt8) (args : List Arg) : Option σ :=
  match fmt with
  | [] => some s
  | c :: rest =>
    if c ≠ char '%' then formatLoop g put convert atEnd (put s c) rest args
    else
      match _hp : (g.parse rest).rest with
      | [] => atEnd s
      | k :: rest' =>
        match convert s (g.parse rest) k args with
        | some (s, args) => formatLoop g put convert atEnd s rest' args
        | none => none
termination_by fmt.length
decreasing_by
  · simp
  · have hlen := g.length_parse rest
    rw [_hp] at hlen
    simp only [List.length_cons] at hlen ⊢
    omega

variable {g : Grammar} {put : σ → UInt8 → σ} {convert : σ → Spec → UInt8 → List Arg → Option (σ × List Arg)}
  {atEnd : σ → Option σ} {put' : τ → UInt8 → τ} {convert' : τ → Spec → UInt8 → List Arg → Option (τ × List Arg)}
  {atEnd' : τ → Option τ}

/-- A conversion, when its letter is known. -/
theorem formatLoop_convert {rest rest' : List UInt8} {k : UInt8} (hrest : (g.parse rest).rest = k :: rest') (s : σ)
    (args : List Arg) : formatLoop g put convert atEnd s (char '%' :: rest) args =
      (convert s (g.parse rest) k args).bind fun r => formatLoop g put convert atEnd r.1 rest' r.2 := by
  rw [formatLoop, if_neg (by simp)]
  split
  · next hnil => cases hrest.symm.trans hnil
  · next hcons =>
    obtain ⟨rfl, rfl⟩ := List.cons.inj (hrest.symm.trans hcons)
    split
    · next heq => simp [heq]
    · next heq => simp [heq]

theorem formatLoop_end {rest : List UInt8} (hrest : (g.parse rest).rest = []) (s : σ) (args : List Arg) :
    formatLoop g put convert atEnd s (char '%' :: rest) args = atEnd s := by
  rw [formatLoop, if_neg (by simp)]
  split
  · rfl
  · next hcons => cases hrest.symm.trans hcons

/-- Two loops over the same format, one of which sees the output of the other through `f`. -/
theorem formatLoop_map {f : σ → τ} (hput : ∀ s c, put' (f s) c = f (put s c))
    (hconvert : ∀ s spec c args, convert' (f s) spec c args = (convert s spec c args).map fun r => (f r.1, r.2))
    (hend : ∀ s, atEnd' (f s) = (atEnd s).map f) (s : σ) (fmt : List UInt8) (args : List Arg) :
    formatLoop g put' convert' atEnd' (f s) fmt args = (formatLoop g put convert atEnd s fmt args).map f := by
  fun_induction formatLoop g put convert atEnd s fmt args with
  | case1 s args =>
    rw [formatLoop]
    rfl
  | case2 s args c rest hc ih =>
    rw [formatLoop, if_pos hc, hput, ih]
  | case3 s args c rest hc hnil =>
    obtain rfl := not_not.mp hc
    rw [formatLoop_end hnil, hend]
  | case4 s args c rest hc k rest' hcons s' args' heq ih =>
    obtain rfl := not_not.mp hc
    rw [formatLoop_convert hcons, hconvert, heq]
    exact ih
  | case5 s args c rest hc k rest' hcons heq =>
    obtain rfl := not_not.mp hc
    rw [formatLoop_convert hcons, hconvert, heq]
    rfl

/-- The loop that only collects the characters. -/
def textLoop (g : Grammar) (convert : Spec → UInt8 → List Arg → Option (List UInt8 × List Arg))
    (atEnd : List UInt8 → Option (List UInt8)) (text fmt : List UInt8) (args : List Arg) : Option (List UInt8) :=
  formatLoop g (fun text c => text ++ [c])
    (fun text spec c args => (convert spec c args).map fun r => (text ++ r.1, r.2)) atEnd text fmt args

section Text
variable {convert : Spec → UInt8 → List Arg → Option (List UInt8 × List Arg)}
  {atEnd : List UInt8 → Option (List UInt8)} {text fmt : List UInt8} {args : List Arg}

theorem textLoop_nil (text : List UInt8) (args : List Arg) : textLoop g convert atEnd text [] args = some text := by
  rw [textLoop, formatLoop]

theorem textLoop_literal {c : UInt8} (hc : c ≠ char '%') :
    textLoop g convert atEnd text (c :: fmt) args = textLoop g convert atEnd (text ++ [c]) fmt args := by
  rw [textLoop, formatLoop, if_pos hc]
  rfl

theorem textLoop_convert {spec : Spec} {k : UInt8} {output rest : List UInt8} {args' : List Arg}
    (hparse : g.parse fmt = spec) (hrest : spec.rest = k :: rest) (hconvert : convert spec k args = some (output, args')) :
    textLoop g convert atEnd text (char '%' :: fmt) args = textLoop g convert atEnd (text ++ output) rest args' := by
  subst hparse
  rw [textLoop, formatLoop_convert hrest, hconvert]
  rfl

end Text

end Loop

/-! ## What a sink has taken -/

/-- Buffer and result of a call whose complete output is the text. -/
def bounded (buf : ℕ → UInt8) (size : UInt32) (text : List UInt8) : (ℕ → UInt8) × Int32 :=
  let s := putAll ⟨buf, size, 0⟩ text
  (if size ≠ 0 then Function.update s.buf (min s.written (size - 1)).toNat 0 else s.buf, s.written.toInt32)

theorem putAll_append (s : Sink) (text text' : List UInt8) : putAll s (text ++ text') = putAll (putAll s text) text' :=
  List.foldl_append

/-- As long as the counter does not wrap, the characters for which there is room lie in the buffer one after
the other. -/
theorem putAll_fits {s : Sink} {text : List UInt8} (h : s.written.toNat + text.length < 4294967295) :
    (putAll s text).written.toNat = s.written.toNat + text.length ∧
      ∀ j, (putAll s text).buf j =
        if s.written.toNat ≤ j ∧ j + 1 < s.size.toNat then (text[j - s.written.toNat]?).getD (s.buf j) else s.buf j := by
  induction text generalizing s with
  | nil => simp [putAll]
  | cons c rest ih =>
    rw [List.length_cons] at h
    have hnext : (s.written + 1).toNat = s.written.toNat + 1 := by
      rw [UInt32.toNat_add]
      exact Nat.mod_eq_of_lt (by simp only [UInt32.reduceToNat]; omega)
    have hone : (sinkPutc s c).written = s.written + 1 := rfl
    obtain ⟨hwritten, hbuf⟩ := ih (s := sinkPutc s c) (by rw [hone, hnext]; omega)
    refine ⟨?_, fun j => ?_⟩
    · change (putAll (sinkPutc s c) rest).written.toNat = _
      rw [hwritten, hone, hnext, List.length_cons]
      omega
    · change (putAll (sinkPutc s c) rest).buf j = _
      rw [hbuf, hone, hnext]
      have hcell : (sinkPutc s c).buf j = if j = s.written.toNat ∧ j + 1 < s.size.toNat then c else s.buf j := by
        simp only [sinkPutc, UInt32.lt_iff_toNat_lt, hnext]
        by_cases hj : j = s.written.toNat
        · subst hj
          split_ifs <;> simp_all
        · split_ifs <;> simp_all [Function.update_of_ne]
      rw [hcell, show (sinkPutc s c).size = s.size from rfl]
      rcases Nat.lt_trichotomy j s.written.toNat with hlt | heq | hgt
      · rw [if_neg (by omega), if_neg (by omega), if_neg (by omega)]
      · subst heq
        rw [if_neg (show ¬(s.written.toNat + 1 ≤ s.written.toNat ∧ _) by omega)]
        simp
      · obtain ⟨k, rfl⟩ : ∃ k, j = s.written.toNat + (k + 1) := ⟨j - s.written.toNat - 1, by omega⟩
        rw [if_neg (show ¬(s.written.toNat + (k + 1) = s.written.toNat ∧ _) by omega), Nat.add_sub_cancel_left,
          show s.written.toNat + (k + 1) - (s.written.toNat + 1) = k by omega, List.getElem?_cons_succ]
        exact if_congr (by omega) rfl rfl

theorem toNat_pos {size : UInt32} (h : size ≠ 0) : 0 < size.toNat :=
  Nat.pos_of_ne_zero fun hzero => h (UInt32.toNat_inj.mp hzero)

theorem toNat_pred {size : UInt32} (h : size ≠ 0) : (size - 1).toNat = size.toNat - 1 := by
  have hpos := toNat_pos h
  have hlt := size.toNat_lt
  rw [UInt32.toNat_sub, UInt32.toNat_one]
  omega

theorem toNat_min (a b : UInt32) : (min a b).toNat = min a.toNat b.toNat := by
  have hmin : min a b = if a ≤ b then a else b := rfl
  rw [hmin, apply_ite UInt32.toNat, Nat.min_def]
  rfl

/-- Without a buffer nothing is written, however often the counter wraps. -/
theorem bounded_empty {buf : ℕ → UInt8} {size : UInt32} {text : List UInt8} (h : size = 0) :
    (bounded buf size text).1 = buf := by
  have hall : ∀ s : Sink, s.size = 0 → (putAll s text).buf = s.buf := by
    induction text with
    | nil => exact fun s _ => rfl
    | cons c rest ih =>
      intro s hsize
      refine (ih (sinkPutc s c) hsize).trans (if_neg ?_)
      rw [hsize]
      exact UInt32.not_lt_zero
  rw [bounded, if_neg (not_not.mpr h)]
  exact hall _ h

/-- The buffer holds the characters for which there is room, and a terminator behind them. -/
theorem bounded_buf {buf : ℕ → UInt8} {size : UInt32} {text : List UInt8} (h : text.length < 4294967295)
    (hsize : size ≠ 0) (j : ℕ) : (bounded buf size text).1 j =
      if j = min text.length (size.toNat - 1) then 0
      else if j + 1 < size.toNat then (text[j]?).getD (buf j) else buf j := by
  obtain ⟨hwritten, hbuf⟩ := putAll_fits (s := ⟨buf, size, 0⟩) (show _ + text.length < 4294967295 by simpa using h)
  simp only [UInt32.toNat_zero, Nat.zero_add, Nat.zero_le, true_and, Nat.sub_zero] at hwritten hbuf
  simp only [bounded, if_pos hsize, Function.update_apply, toNat_min, toNat_pred hsize, hwritten, hbuf]

theorem bounded_result {buf : ℕ → UInt8} {size : UInt32} {text : List UInt8} (h : text.length < 4294967295) :
    (bounded buf size text).2 = Int32.ofNat text.length := by
  obtain ⟨hwritten, -⟩ := putAll_fits (s := ⟨buf, size, 0⟩) (show _ + text.length < 4294967295 by simpa using h)
  simp only [UInt32.toNat_zero, Nat.zero_add] at hwritten
  rw [bounded, ← UInt32.toInt32_ofNat', ← hwritten, UInt32.ofNat_toNat]

/-- Texts that are not too long are the same if they give the same for every size. -/
theorem bounded_inj {buf : ℕ → UInt8} {text text' : List UInt8} (h : text.length < 4294967295)
    (h' : text'.length < 4294967295) (heq : bounded buf 4294967295 text = bounded buf 4294967295 text') :
    text = text' := by
  have hlen : text.length = text'.length := by
    have hresult := congrArg Int32.toUInt32 (congrArg Prod.snd heq)
    rw [bounded_result h, bounded_result h', ← UInt32.toInt32_ofNat', ← UInt32.toInt32_ofNat', UInt32.toUInt32_toInt32,
      UInt32.toUInt32_toInt32, ← UInt32.toNat_inj, UInt32.toNat_ofNat', UInt32.toNat_ofNat'] at hresult
    omega
  apply List.ext_getElem hlen
  intro j hj hj'
  have hcell := congrFun (congrArg Prod.fst heq) j
  have hsize : (4294967295 : UInt32).toNat = 4294967295 := rfl
  have hmin : min text.length (4294967295 - 1) = text.length := Nat.min_eq_left (by omega)
  rw [bounded_buf h (by decide), bounded_buf h' (by decide), hsize, ← hlen, hmin,
    if_neg (show j ≠ text.length by omega), if_neg (show j ≠ text.length by omega),
    if_pos (show j + 1 < 4294967295 by omega), if_pos (show j + 1 < 4294967295 by omega)] at hcell
  simpa [hj, hj'] using hcell

end SifarOS.FormatSink
