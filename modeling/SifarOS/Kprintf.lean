import SifarOS.FormatSink

/-! # The kernel's printf

`kernel/lib/kprintf.c` on a buffer, and the complete output of a format, which `format` writes to its
sink. -/
namespace SifarOS.Kprintf
open FormatSink

/-- What `sink_pad` writes. -/
def padding (pad : UInt8) (count : Int32) : List UInt8 := List.replicate count.toNatClampNeg pad

def sinkPad (s : Sink) (pad : UInt8) (count : Int32) : Sink := putAll s (padding pad count)

def emitString (s : Sink) (str : List UInt8) (width : Int32) (left : Bool) (pad : UInt8) : Sink :=
  let len := Int32.ofNat str.length
  let s := if left then s else sinkPad s pad (width - len)
  let s := putAll s str
  if left then sinkPad s (char ' ') (width - len) else s

def upperDigits : List UInt8 :=
  ['0', '1', '2', '3', '4', '5', '6', '7', '8', '9', 'A', 'B', 'C', 'D', 'E', 'F'].map char

def emitNumber (s : Sink) (value base : UInt32) (isSigned upper : Bool) (width : Int32) (left : Bool) (pad : UInt8) :
    Sink :=
  let digits := if upper then upperDigits else lowerDigits
  let negative : Bool := isSigned ∧ value.toInt32 < 0
  let value := if negative then (-value.toInt32).toUInt32 else value
  let tmp := digitLoop digits base 36 value ++ if negative then [char '-'] else []
  let written := Int32.ofNat tmp.length
  let signFirst : Bool := ¬left ∧ pad = char '0' ∧ negative
  let s := if signFirst then sinkPutc s (char '-') else s
  let i := if signFirst then written - 1 else written
  let width := if signFirst then width - 1 else width
  let s := if left then s else sinkPad s pad (width - i)
  let s := putAll s (tmp.take i.toNatClampNeg).reverse
  if left then sinkPad s (char ' ') (width - written) else s

/-- The flags of a conversion, and what follows them. -/
def flags (left : Bool) (pad : UInt8) : List UInt8 → Bool × UInt8 × List UInt8
  | [] => (left, pad, [])
  | c :: rest =>
    if c = char '-' then flags true pad rest
    else if c = char '0' then flags left (char '0') rest
    else (left, pad, c :: rest)

def modifiers (fmt : List UInt8) : List UInt8 := fmt.dropWhile fun c => c = char 'l' ∨ c = char 'z' ∨ c = char 'h'

def parse (fmt : List UInt8) : Spec :=
  let (left, pad, fmt) := flags false (char ' ') fmt
  let (width, fmt) := widthLoop 0 fmt
  ⟨left, pad, width, modifiers fmt⟩

/-- The cases of the switch, the end of the string apart; the arguments that are left go along. -/
def convert (s : Sink) (spec : Spec) (c : UInt8) (args : List Arg) : Option (Sink × List Arg) :=
  let number (base : UInt32) (isSigned upper : Bool) : Option (Sink × List Arg) :=
    (vaWord args).map fun r => (emitNumber s r.1 base isSigned upper spec.width spec.left spec.pad, r.2)
  if c = char 'c' then (vaWord args).map fun r => (sinkPutc s r.1.toUInt8, r.2)
  else if c = char 's' then
    (vaText args).map fun r => (emitString s (r.1.getD nullText) spec.width spec.left (char ' '), r.2)
  else if c = char 'd' ∨ c = char 'i' then number 10 true false
  else if c = char 'u' then number 10 false false
  else if c = char 'x' then number 16 false false
  else if c = char 'X' then number 16 false true
  else if c = char 'o' then number 8 false false
  else if c = char 'p' then
    (vaWord args).map fun r =>
      (emitNumber (sinkPutc (sinkPutc s (char '0')) (char 'x')) r.1 16 false false 8 false (char '0'), r.2)
  else if c = char '%' then some (sinkPutc s (char '%'), args)
  else some (sinkPutc (sinkPutc s (char '%')) c, args)

theorem length_flags (left : Bool) (pad : UInt8) (fmt : List UInt8) : (flags left pad fmt).2.2.length ≤ fmt.length := by
  induction fmt generalizing left pad with
  | nil => simp [flags]
  | cons c rest ih =>
    unfold flags
    split_ifs
    · exact Nat.le_succ_of_le (ih true pad)
    · exact Nat.le_succ_of_le (ih left (char '0'))
    · exact Nat.le_refl _

theorem length_parse (fmt : List UInt8) : (parse fmt).rest.length ≤ fmt.length :=
  calc (parse fmt).rest.length
    _ ≤ (widthLoop 0 (flags false (char ' ') fmt).2.2).2.length := (List.dropWhile_sublist _).length_le
    _ ≤ (flags false (char ' ') fmt).2.2.length := length_widthLoop _ _
    _ ≤ fmt.length := length_flags _ _ _

def grammar : Grammar := ⟨parse, length_parse⟩

/-- `format`; no value if the arguments do not match. -/
def format (s : Sink) (fmt : List UInt8) (args : List Arg) : Option Sink :=
  formatLoop grammar sinkPutc convert some s fmt args

/-- `kvsnprintf`: the buffer and the result. -/
def kvsnprintf (buf : ℕ → UInt8) (size : UInt32) (fmt : List UInt8) (args : List Arg) : Option ((ℕ → UInt8) × Int32) :=
  (format ⟨buf, size, 0⟩ fmt args).map fun s =>
    (if size ≠ 0 then Function.update s.buf (min s.written (size - 1)).toNat 0 else s.buf, s.written.toInt32)

def ksnprintf (buf : ℕ → UInt8) (size : UInt32) (fmt : List UInt8) (args : List Arg) : Option ((ℕ → UInt8) × Int32) :=
  kvsnprintf buf size fmt args

/-! ## The complete output -/

def stringText (str : List UInt8) (width : Int32) (left : Bool) (pad : UInt8) : List UInt8 :=
  let count := width - Int32.ofNat str.length
  (if left then [] else padding pad count) ++ str ++ if left then padding (char ' ') count else []

theorem emitString_eq (s : Sink) (str : List UInt8) (width : Int32) (left : Bool) (pad : UInt8) :
    emitString s str width left pad = putAll s (stringText str width left pad) := by
  cases left <;> simp [emitString, stringText, sinkPad, putAll_append]

/-- The sign and the digits of a number. -/
structure Numeral where
  negative : Bool
  digits : List UInt8

def numeral (value base : UInt32) (isSigned upper : Bool) : Numeral :=
  let negative : Bool := isSigned ∧ value.toInt32 < 0
  ⟨negative, (digitLoop (if upper then upperDigits else lowerDigits) base 36
    (if negative then (-value.toInt32).toUInt32 else value)).reverse⟩

def Numeral.sign (n : Numeral) : List UInt8 := if n.negative then [char '-'] else []

def Numeral.text (n : Numeral) (width : Int32) (left : Bool) (pad : UInt8) : List UInt8 :=
  let len := Int32.ofNat (n.sign ++ n.digits).length
  if left then n.sign ++ n.digits ++ padding (char ' ') (width - len)
  else if pad = char '0' ∧ n.negative then n.sign ++ padding pad (width - 1 - (len - 1)) ++ n.digits
  else padding pad (width - len) ++ n.sign ++ n.digits

theorem toNat_ofNat {n : ℕ} (h : n ≤ 37) : (Int32.ofNat n).toNatClampNeg = n := by
  rw [Int32.toNatClampNeg, MachineInt.toInt_ofNat_small (by omega), Int.toNat_natCast]

theorem toNat_pred {n : ℕ} (h : n ≤ 36) : (Int32.ofNat (n + 1) - 1).toNatClampNeg = n := by
  have hone : (1 : Int32).toInt = 1 := by decide
  have hsub := MachineInt.sub_cases (Int32.ofNat (n + 1)) 1
  rw [MachineInt.toInt_ofNat_small (by omega), hone] at hsub
  rw [Int32.toNatClampNeg]
  omega

theorem emitNumber_eq (s : Sink) (value base : UInt32) (isSigned upper : Bool) (width : Int32) (left : Bool) (pad : UInt8) :
    emitNumber s value base isSigned upper width left pad =
      putAll s ((numeral value base isSigned upper).text width left pad) := by
  have hroom := length_digitLoop (if upper then upperDigits else lowerDigits) base 36
    (if isSigned ∧ value.toInt32 < 0 then (-value.toInt32).toUInt32 else value)
  unfold emitNumber Numeral.text Numeral.sign numeral
  simp only [decide_eq_true_eq]
  generalize digitLoop (if upper then upperDigits else lowerDigits) base 36
    (if isSigned ∧ value.toInt32 < 0 then (-value.toInt32).toUInt32 else value) = digits at hroom ⊢
  by_cases hneg : isSigned ∧ value.toInt32 < 0
  · have hlen : ([char '-'] ++ digits.reverse).length = (digits ++ [char '-']).length := by simp
    simp only [hneg, and_self, if_true, hlen, and_true]
    generalize hw : Int32.ofNat (digits ++ [char '-']).length = written
    rw [List.length_append, List.length_singleton] at hw
    have hall : (digits ++ [char '-']).take written.toNatClampNeg = digits ++ [char '-'] := by
      rw [← hw, toNat_ofNat (by omega)]
      exact List.take_of_length_le (by simp)
    have hinit : (digits ++ [char '-']).take (written - 1).toNatClampNeg = digits := by
      rw [← hw, toNat_pred hroom, List.take_left]
    cases left with
    | true => simp [hall, sinkPad, putAll]
    | false =>
      by_cases hpad : pad = char '0'
      · simp [hpad, hinit, sinkPad, putAll]
      · simp [hpad, hall, sinkPad, putAll]
  · simp only [hneg, if_false, List.append_nil, List.nil_append, and_false, List.length_reverse]
    generalize hw : Int32.ofNat digits.length = written
    have hall : digits.take written.toNatClampNeg = digits := by
      rw [← hw, toNat_ofNat (by omega)]
      exact List.take_length
    cases left <;> simp [hall, sinkPad, putAll]

/-- The characters of a conversion. -/
def convertText (spec : Spec) (c : UInt8) (args : List Arg) : Option (List UInt8 × List Arg) :=
  let number (base : UInt32) (isSigned upper : Bool) : Option (List UInt8 × List Arg) :=
    (vaWord args).map fun r => ((numeral r.1 base isSigned upper).text spec.width spec.left spec.pad, r.2)
  if c = char 'c' then (vaWord args).map fun r => ([r.1.toUInt8], r.2)
  else if c = char 's' then
    (vaText args).map fun r => (stringText (r.1.getD nullText) spec.width spec.left (char ' '), r.2)
  else if c = char 'd' ∨ c = char 'i' then number 10 true false
  else if c = char 'u' then number 10 false false
  else if c = char 'x' then number 16 false false
  else if c = char 'X' then number 16 false true
  else if c = char 'o' then number 8 false false
  else if c = char 'p' then
    (vaWord args).map fun r => ([char '0', char 'x'] ++ (numeral r.1 16 false false).text 8 false (char '0'), r.2)
  else if c = char '%' then some ([char '%'], args)
  else some ([char '%', c], args)

theorem convert_eq (s : Sink) (spec : Spec) (c : UInt8) (args : List Arg) :
    convert s spec c args = (convertText spec c args).map fun r => (putAll s r.1, r.2) := by
  have hchar : ((vaWord args).map fun r => (sinkPutc s r.1.toUInt8, r.2)) =
      ((vaWord args).map fun r => ([r.1.toUInt8], r.2)).map fun r => (putAll s r.1, r.2) := by
    rw [Option.map_map]
    rfl
  have hstring : ((vaText args).map fun r =>
      (emitString s (r.1.getD nullText) spec.width spec.left (char ' '), r.2)) =
      ((vaText args).map fun r => (stringText (r.1.getD nullText) spec.width spec.left (char ' '), r.2)).map
        fun r => (putAll s r.1, r.2) := by
    simp only [emitString_eq, Option.map_map, Function.comp_def]
  have hnumber : ∀ base isSigned upper, ((vaWord args).map fun r =>
      (emitNumber s r.1 base isSigned upper spec.width spec.left spec.pad, r.2)) =
      ((vaWord args).map fun r => ((numeral r.1 base isSigned upper).text spec.width spec.left spec.pad, r.2)).map
        fun r => (putAll s r.1, r.2) := by
    intro base isSigned upper
    simp only [emitNumber_eq, Option.map_map, Function.comp_def]
  have hpointer : ((vaWord args).map fun r =>
      (emitNumber (sinkPutc (sinkPutc s (char '0')) (char 'x')) r.1 16 false false 8 false (char '0'), r.2)) =
      ((vaWord args).map fun r =>
        ([char '0', char 'x'] ++ (numeral r.1 16 false false).text 8 false (char '0'), r.2)).map
        fun r => (putAll s r.1, r.2) := by
    simp only [emitNumber_eq, Option.map_map, Function.comp_def, putAll_append]
    rfl
  unfold convert convertText
  dsimp only
  rw [hchar, hstring, hnumber, hnumber, hnumber, hnumber, hnumber, hpointer]
  simp only [apply_ite (Option.map fun r : List UInt8 × List Arg => (putAll s r.1, r.2))]
  rfl

/-- The complete output of a format. -/
def formatText (fmt : List UInt8) (args : List Arg) : Option (List UInt8) :=
  textLoop grammar convertText some [] fmt args

/-- `format` writes the complete output to the sink. -/
theorem format_eq (s : Sink) (fmt : List UInt8) (args : List Arg) :
    format s fmt args = (formatText fmt args).map (putAll s) := by
  refine formatLoop_map (f := putAll s) (fun text c => ?_) (fun text spec c args => ?_) (fun text => rfl) [] fmt args
  · exact (putAll_append s text [c]).symm
  · rw [convert_eq, Option.map_map]
    exact congrArg (Option.map · _) (funext fun r => by simp [putAll_append])

theorem kvsnprintf_eq (buf : ℕ → UInt8) (size : UInt32) (fmt : List UInt8) (args : List Arg) :
    kvsnprintf buf size fmt args = (formatText fmt args).map (bounded buf size) := by
  rw [kvsnprintf, format_eq, Option.map_map]
  rfl

end SifarOS.Kprintf
