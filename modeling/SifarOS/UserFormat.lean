import SifarOS.FormatSink

/-! # The user library's snprintf

The formatter of `user/lib/sifar.c` on a buffer, and the complete output of a format. -/
namespace SifarOS.UserFormat
open FormatSink

/-- `for (; i < width; i++) sink_putc(sink, pad)`. -/
def fill (pad : UInt8) (i width : Int32) : List UInt8 := List.replicate (width.toInt - i.toInt).toNat pad

def sinkNumber (sink : Sink) (value base : UInt32) (isSigned : Bool) (width : Int32) (pad : UInt8) : Sink :=
  let negative : Bool := isSigned ∧ value.toInt32 < 0
  let sink := if negative then sinkPutc sink (char '-') else sink
  let width := if negative ∧ width ≠ 0 then width - 1 else width
  let value := if negative then (-value.toInt32).toUInt32 else value
  let tmp := digitLoop lowerDigits base 16 value
  let sink := putAll sink (fill pad (Int32.ofNat tmp.length) width)
  putAll sink tmp.reverse

/-- The flag and the width of a conversion. -/
def parse (fmt : List UInt8) : Spec :=
  match fmt with
  | [] => ⟨false, char ' ', 0, []⟩
  | c :: rest =>
    if c = char '0' then ⟨false, char '0', (widthLoop 0 rest).1, (widthLoop 0 rest).2⟩
    else ⟨false, char ' ', (widthLoop 0 (c :: rest)).1, (widthLoop 0 (c :: rest)).2⟩

/-- The case of the switch for a string. -/
def sinkString (sink : Sink) (text : List UInt8) (width : Int32) : Sink :=
  putAll (putAll sink (fill (char ' ') (Int32.ofNat text.length) width)) text

/-- The cases of the switch; the arguments that are left go along. -/
def convert (sink : Sink) (spec : Spec) (c : UInt8) (args : List Arg) : Option (Sink × List Arg) :=
  let number (base : UInt32) (isSigned : Bool) : Option (Sink × List Arg) :=
    (vaWord args).map fun r => (sinkNumber sink r.1 base isSigned spec.width spec.pad, r.2)
  if c = char 's' then (vaText args).map fun r => (sinkString sink (r.1.getD nullText) spec.width, r.2)
  else if c = char 'd' ∨ c = char 'i' then number 10 true
  else if c = char 'u' then number 10 false
  else if c = char 'x' then number 16 false
  else if c = char 'c' then (vaWord args).map fun r => (sinkPutc sink r.1.toUInt8, r.2)
  else if c = char '%' then some (sinkPutc sink (char '%'), args)
  else some (sinkPutc (sinkPutc sink (char '%')) c, args)

theorem length_parse (fmt : List UInt8) : (parse fmt).rest.length ≤ fmt.length := by
  unfold parse
  split
  · exact Nat.le_refl 0
  · split
    · exact Nat.le_succ_of_le (length_widthLoop _ _)
    · exact length_widthLoop _ _

def grammar : Grammar := ⟨parse, length_parse⟩

/-- `format`; no value if the arguments do not match. A format that ends after a `%` makes it read on
behind the terminator. -/
def format (sink : Sink) (fmt : List UInt8) (args : List Arg) : Option Sink :=
  formatLoop grammar sinkPutc convert (fun _ => none) sink fmt args

/-- `snprintf`: the buffer and the result. -/
def snprintf (buffer : ℕ → UInt8) (size : UInt32) (fmt : List UInt8) (args : List Arg) : Option ((ℕ → UInt8) × Int32) :=
  (format ⟨buffer, size, 0⟩ fmt args).map fun sink =>
    (if size ≠ 0 then Function.update sink.buf (if sink.written < size then sink.written else size - 1).toNat 0
      else sink.buf, sink.written.toInt32)

/-! ## The complete output -/

def numberText (value base : UInt32) (isSigned : Bool) (width : Int32) (pad : UInt8) : List UInt8 :=
  let negative : Bool := isSigned ∧ value.toInt32 < 0
  let digits := (digitLoop lowerDigits base 16 (if negative then (-value.toInt32).toUInt32 else value)).reverse
  (if negative then [char '-'] else []) ++
    fill pad (Int32.ofNat digits.length) (if negative ∧ width ≠ 0 then width - 1 else width) ++ digits

theorem sinkNumber_eq (sink : Sink) (value base : UInt32) (isSigned : Bool) (width : Int32) (pad : UInt8) :
    sinkNumber sink value base isSigned width pad = putAll sink (numberText value base isSigned width pad) := by
  unfold sinkNumber numberText
  by_cases hneg : isSigned ∧ value.toInt32 < 0 <;> simp [hneg, putAll]

def stringText (text : List UInt8) (width : Int32) : List UInt8 :=
  fill (char ' ') (Int32.ofNat text.length) width ++ text

/-- The characters of a conversion. -/
def convertText (spec : Spec) (c : UInt8) (args : List Arg) : Option (List UInt8 × List Arg) :=
  let number (base : UInt32) (isSigned : Bool) : Option (List UInt8 × List Arg) :=
    (vaWord args).map fun r => (numberText r.1 base isSigned spec.width spec.pad, r.2)
  if c = char 's' then (vaText args).map fun r => (stringText (r.1.getD nullText) spec.width, r.2)
  else if c = char 'd' ∨ c = char 'i' then number 10 true
  else if c = char 'u' then number 10 false
  else if c = char 'x' then number 16 false
  else if c = char 'c' then (vaWord args).map fun r => ([r.1.toUInt8], r.2)
  else if c = char '%' then some ([char '%'], args)
  else some ([char '%', c], args)

theorem convert_eq (sink : Sink) (spec : Spec) (c : UInt8) (args : List Arg) :
    convert sink spec c args = (convertText spec c args).map fun r => (putAll sink r.1, r.2) := by
  have hstring : ((vaText args).map fun r => (sinkString sink (r.1.getD nullText) spec.width, r.2)) =
      ((vaText args).map fun r => (stringText (r.1.getD nullText) spec.width, r.2)).map
        fun r => (putAll sink r.1, r.2) := by
    simp only [sinkString, stringText, putAll_append, Option.map_map, Function.comp_def]
  have hnumber : ∀ base isSigned, ((vaWord args).map fun r =>
      (sinkNumber sink r.1 base isSigned spec.width spec.pad, r.2)) =
      ((vaWord args).map fun r => (numberText r.1 base isSigned spec.width spec.pad, r.2)).map
        fun r => (putAll sink r.1, r.2) := by
    intro base isSigned
    simp only [sinkNumber_eq, Option.map_map, Function.comp_def]
  have hchar : ((vaWord args).map fun r => (sinkPutc sink r.1.toUInt8, r.2)) =
      ((vaWord args).map fun r => ([r.1.toUInt8], r.2)).map fun r => (putAll sink r.1, r.2) := by
    rw [Option.map_map]
    rfl
  unfold convert convertText
  dsimp only
  rw [hstring, hnumber, hnumber, hnumber, hchar]
  simp only [apply_ite (Option.map fun r : List UInt8 × List Arg => (putAll sink r.1, r.2))]
  rfl

/-- The complete output of a format. -/
def formatText (fmt : List UInt8) (args : List Arg) : Option (List UInt8) :=
  textLoop grammar convertText (fun _ => none) [] fmt args

/-- `format` writes the complete output to the sink. -/
theorem format_eq (sink : Sink) (fmt : List UInt8) (args : List Arg) :
    format sink fmt args = (formatText fmt args).map (putAll sink) := by
  refine formatLoop_map (f := putAll sink) (fun text c => ?_) (fun text spec c args => ?_) (fun text => rfl) [] fmt args
  · exact (putAll_append sink text [c]).symm
  · rw [convert_eq, Option.map_map]
    exact congrArg (Option.map · _) (funext fun r => by simp [putAll_append])

theorem snprintf_eq (buffer : ℕ → UInt8) (size : UInt32) (fmt : List UInt8) (args : List Arg) :
    snprintf buffer size fmt args = (formatText fmt args).map (bounded buffer size) := by
  rw [snprintf, format_eq, Option.map_map]
  refine congrArg (Option.map · _) (funext fun text => ?_)
  have hend : ∀ written : UInt32, size ≠ 0 →
      (if written < size then written else size - 1).toNat = (min written (size - 1)).toNat := by
    intro written hsize
    have hpred := toNat_pred hsize
    rw [toNat_min, apply_ite UInt32.toNat, hpred]
    simp only [UInt32.lt_iff_toNat_lt]
    split <;> omega
  simp only [Function.comp_apply, bounded]
  split
  · next hsize => rw [hend _ hsize]
  · rfl

end SifarOS.UserFormat
