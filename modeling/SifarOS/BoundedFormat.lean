import Mathlib.Algebra.GroupWithZero.Nat
import Mathlib.Data.Bool.AllAny
import SifarOS.Kprintf

/-! # Output that is cut to a buffer

What `kvsnprintf` leaves in a buffer of any size, against the complete output of the format. What a
number conversion writes, against the conversion as it stands in the format and the argument. -/
namespace SifarOS.BoundedFormat
open FormatSink Kprintf

/-! ## A conversion as it stands in the format -/

/-- Flags and width, the width a number of any size, and what follows them. -/
structure Written where
  left : Bool
  zero : Bool
  width : ℕ
  rest : List UInt8

def isFlag (c : UInt8) : Bool := c = char '-' ∨ c = char '0'

def isModifier (c : UInt8) : Bool := c = char 'l' ∨ c = char 'z' ∨ c = char 'h'

/-- A decimal number that goes on after another. -/
def decimalFrom (n : ℕ) (digits : List UInt8) : ℕ := digits.foldl (fun n c => n * 10 + (c - char '0').toNat) n

def Written.read (fmt : List UInt8) : Written :=
  let flags := fmt.takeWhile isFlag
  let fmt := fmt.dropWhile isFlag
  ⟨char '-' ∈ flags, char '0' ∈ flags, decimalFrom 0 (fmt.takeWhile isDigit),
    (fmt.dropWhile isDigit).dropWhile isModifier⟩

def padOf (zero : Bool) : UInt8 := if zero then char '0' else char ' '

theorem flags_eq (left : Bool) (pad : UInt8) (fmt : List UInt8) :
    flags left pad fmt = (left || decide (char '-' ∈ fmt.takeWhile isFlag),
      if char '0' ∈ fmt.takeWhile isFlag then char '0' else pad, fmt.dropWhile isFlag) := by
  have hne : char '-' ≠ char '0' := by decide
  induction fmt generalizing left pad with
  | nil => simp [flags]
  | cons c rest ih =>
    rw [flags]
    by_cases hminus : c = char '-'
    · subst hminus
      rw [if_pos rfl, ih]
      simp [isFlag, hne.symm]
    · by_cases hzero : c = char '0'
      · subst hzero
        rw [if_neg hminus, if_pos rfl, ih]
        simp [isFlag, hne]
      · rw [if_neg hminus, if_neg hzero]
        simp [isFlag, hminus, hzero]

theorem widthLoop_eq (n : ℕ) (fmt : List UInt8) : widthLoop (Int32.ofNat n) fmt =
    (Int32.ofNat (decimalFrom n (fmt.takeWhile isDigit)), fmt.dropWhile isDigit) := by
  induction fmt generalizing n with
  | nil => rfl
  | cons c rest ih =>
    have hnext : Int32.ofNat n * 10 + (c - char '0').toUInt32.toInt32 =
        Int32.ofNat (n * 10 + (c - char '0').toNat) := by
      rw [Int32.ofNat_add, Int32.ofNat_mul, ← UInt8.toNat_toUInt32, ← UInt32.toInt32_ofNat' (n := (_ : UInt32).toNat),
        UInt32.ofNat_toNat]
      rfl
    rw [widthLoop]
    cases hc : isDigit c with
    | true =>
      rw [if_pos rfl, hnext, ih, List.takeWhile_cons_of_pos hc, List.dropWhile_cons_of_pos hc]
      rfl
    | false =>
      rw [if_neg Bool.false_ne_true, List.takeWhile_cons_of_neg (by simp [hc]), List.dropWhile_cons_of_neg (by simp [hc])]
      rfl

/-- The conversion as the code reads it: the width is an `int`. -/
theorem parse_eq (fmt : List UInt8) : parse fmt =
    ⟨(Written.read fmt).left, padOf (Written.read fmt).zero, Int32.ofNat (Written.read fmt).width,
      (Written.read fmt).rest⟩ := by
  have hwidth := widthLoop_eq 0 (fmt.dropWhile isFlag)
  rw [parse, flags_eq]
  dsimp only
  rw [show (0 : Int32) = Int32.ofNat 0 from rfl, hwidth]
  simp only [Written.read, padOf, Bool.false_or, decide_eq_true_eq]
  rfl

/-! ## Numbers -/

/-- The number conversions. -/
inductive Kind
  | d | i | u | x | X | o
  deriving DecidableEq, Repr

def Kind.letter : Kind → UInt8
  | .d => char 'd'
  | .i => char 'i'
  | .u => char 'u'
  | .x => char 'x'
  | .X => char 'X'
  | .o => char 'o'

def Kind.base : Kind → UInt32
  | .d | .i | .u => 10
  | .x | .X => 16
  | .o => 8

def Kind.isSigned : Kind → Bool
  | .d | .i => true
  | _ => false

def Kind.isUpper : Kind → Bool
  | .X => true
  | _ => false

/-- The argument, as the conversion takes it. -/
def Kind.value (kind : Kind) (word : UInt32) : ℤ := if kind.isSigned then word.toInt32.toInt else word.toNat

/-- Justified to at least the width, and not more than it takes. -/
def justified (left zero : Bool) (width : ℕ) (sign digits : List UInt8) : List UInt8 :=
  let count := width - (sign ++ digits).length
  if left then sign ++ digits ++ List.replicate count (char ' ')
  else if zero then sign ++ List.replicate count (char '0') ++ digits
  else List.replicate count (char ' ') ++ sign ++ digits

def digitValue (c : UInt8) : ℕ :=
  if c ≤ char '9' then (c - char '0').toNat
  else if c ≤ char 'F' then (c - char 'A').toNat + 10
  else (c - char 'a').toNat + 10

def readDigits (base : ℕ) (digits : List UInt8) : ℕ := digits.foldl (fun n c => n * base + digitValue c) 0

/-- The number that stands between blanks. -/
def readNumber (base : ℕ) (text : List UInt8) : ℤ :=
  let body := (text.dropWhile (· = char ' ')).takeWhile (· ≠ char ' ')
  if body.head? = some (char '-') then -(readDigits base body.tail : ℤ) else readDigits base body

/-- What a number conversion has to write. -/
structure Justified (written : Written) (kind : Kind) (word : UInt32) (text : List UInt8) : Prop where
  shape : ∃ sign digits, (sign = [] ∨ sign = [char '-']) ∧
    text = justified written.left written.zero written.width sign digits
  width_le : written.width ≤ text.length
  reads : readNumber kind.base.toNat text = kind.value word

section Numbers

theorem length_justified (left zero : Bool) (width : ℕ) (sign digits : List UInt8) :
    (justified left zero width sign digits).length = max width (sign ++ digits).length := by
  unfold justified
  cases left <;> cases zero <;> simp <;> omega

/-- A width that an `int` can hold, against a length. -/
theorem padding_count {width n : ℕ} (hwidth : width < 2147483648) (hn : n ≤ 37) :
    (Int32.ofNat width - Int32.ofNat n).toNatClampNeg = width - n := by
  have hsub := MachineInt.sub_cases (Int32.ofNat width) (Int32.ofNat n)
  rw [MachineInt.toInt_ofNat_small hwidth, MachineInt.toInt_ofNat_small (by omega)] at hsub
  rw [Int32.toNatClampNeg]
  omega

theorem padding_count_pred {width n : ℕ} (hwidth : width < 2147483648) (hpos : 0 < n) (hn : n ≤ 37) :
    (Int32.ofNat width - 1 - (Int32.ofNat n - 1)).toNatClampNeg = width - n := by
  have hone : (1 : Int32).toInt = 1 := by decide
  have hwidthSub := MachineInt.sub_cases (Int32.ofNat width) 1
  have hnSub := MachineInt.sub_cases (Int32.ofNat n) 1
  have hsub := MachineInt.sub_cases (Int32.ofNat width - 1) (Int32.ofNat n - 1)
  rw [MachineInt.toInt_ofNat_small hwidth, hone] at hwidthSub
  rw [MachineInt.toInt_ofNat_small (show n < 2147483648 by omega), hone] at hnSub
  rw [Int32.toNatClampNeg]
  omega

variable (word base : UInt32) (isSigned upper : Bool)

theorem length_numeral : ((numeral word base isSigned upper).sign ++ (numeral word base isSigned upper).digits).length ≤ 37 := by
  have hdigits : (numeral word base isSigned upper).digits.length ≤ 36 :=
    Nat.le_trans (Nat.le_of_eq List.length_reverse) (length_digitLoop _ _ _ _)
  have hsign : (numeral word base isSigned upper).sign.length ≤ 1 := by
    unfold Numeral.sign
    split <;> simp
  rw [List.length_append]
  omega

/-- With a width that an `int` can hold, the number is justified to it. -/
theorem numeral_text {width : ℕ} (left zero : Bool) (hwidth : width < 2147483648) :
    (numeral word base isSigned upper).text (Int32.ofNat width) left (padOf zero) =
      justified left zero width (numeral word base isSigned upper).sign (numeral word base isSigned upper).digits := by
  have hlen := length_numeral word base isSigned upper
  generalize numeral word base isSigned upper = n at hlen ⊢
  have hcount : ∀ pad, padding pad (Int32.ofNat width - Int32.ofNat (n.sign ++ n.digits).length) =
      List.replicate (width - (n.sign ++ n.digits).length) pad :=
    fun pad => congrArg (List.replicate · pad) (padding_count hwidth hlen)
  rw [Numeral.text, justified]
  cases left with
  | true => rw [if_pos rfl, if_pos rfl, hcount]
  | false =>
    rw [if_neg Bool.false_ne_true, if_neg Bool.false_ne_true, hcount]
    cases zero with
    | false => simp [padOf, show char ' ' ≠ char '0' by decide]
    | true =>
      cases hneg : n.negative with
      | false => simp [padOf, Numeral.sign, hneg]
      | true =>
        have hpos : 0 < (n.sign ++ n.digits).length := by simp [Numeral.sign, hneg]
        have hpred : padding (padOf true) (Int32.ofNat width - 1 - (Int32.ofNat (n.sign ++ n.digits).length - 1)) =
            List.replicate (width - (n.sign ++ n.digits).length) (padOf true) :=
          congrArg (List.replicate · _) (padding_count_pred hwidth hpos hlen)
        rw [if_pos ⟨rfl, rfl⟩, if_pos rfl, hpred]
        rfl

/-! ### Reading a number back -/

theorem readDigits_concat (base : ℕ) (digits : List UInt8) (c : UInt8) :
    readDigits base (digits ++ [c]) = readDigits base digits * base + digitValue c := by
  simp [readDigits]

/-- The digits of a word are read back, the first one being the last that the loop finds. -/
theorem readDigits_digitLoop {digits : List UInt8} {base word : UInt32} {room : ℕ}
    (hdigits : ∀ d < base.toNat, digitValue (digits.getD d 0) = d) (hbase : 0 < base.toNat)
    (hword : word.toNat < base.toNat ^ room) : readDigits base.toNat (digitLoop digits base room word).reverse = word.toNat := by
  induction room generalizing word with
  | zero =>
    rw [Nat.pow_zero, Nat.lt_one_iff] at hword
    rw [hword]
    rfl
  | succ room ih =>
    have hdigit : digitValue (digits.getD (word % base).toNat 0) = word.toNat % base.toNat := by
      rw [UInt32.toNat_mod]
      exact hdigits _ (Nat.mod_lt _ hbase)
    rw [digitLoop, List.reverse_cons, readDigits_concat, hdigit]
    split
    · next hlast =>
      have hzero : word.toNat / base.toNat = 0 := by rw [← UInt32.toNat_div, hlast, UInt32.toNat_zero]
      have hdiv := Nat.div_add_mod word.toNat base.toNat
      rw [hzero, Nat.mul_zero] at hdiv
      simpa [readDigits] using hdiv
    · rw [ih, UInt32.toNat_div]
      · exact Nat.div_add_mod' _ _
      · rw [UInt32.toNat_div]
        exact Nat.div_lt_of_lt_mul (by rwa [Nat.pow_succ, Nat.mul_comm] at hword)

theorem mem_digitLoop {digits : List UInt8} {base word : UInt32} {room : ℕ} {c : UInt8}
    (h : c ∈ digitLoop digits base room word) : c ∈ digits ∨ c = 0 := by
  induction room generalizing word with
  | zero => cases h
  | succ room ih =>
    rw [digitLoop, List.mem_cons] at h
    rcases h with rfl | h
    · rw [List.getD_eq_getElem?_getD]
      cases hget : digits[(word % base).toNat]? with
      | none => exact .inr rfl
      | some c => exact .inl (List.mem_of_getElem? hget)
    · split at h
      · cases h
      · exact ih h

theorem neg_toNat {word : UInt32} (h : word.toInt32.toInt < 0) :
    ((-word.toInt32).toUInt32.toNat : ℤ) = -word.toInt32.toInt := by
  have hcases := MachineInt.toInt32_cases word
  have hsize : UInt32.size = 4294967296 := rfl
  rw [Int32.toUInt32_neg, UInt32.toUInt32_toInt32, UInt32.toNat_neg, hsize]
  omega

/-- Blanks on both sides are left out. -/
theorem trim_eq {core : List UInt8} (hcore : ∀ c ∈ core, c ≠ char ' ') (k m : ℕ) :
    ((List.replicate k (char ' ') ++ core ++ List.replicate m (char ' ')).dropWhile (· = char ' ')).takeWhile
      (· ≠ char ' ') = core := by
  induction k with
  | zero =>
    cases core with
    | nil => simp
    | cons c rest =>
      have hc : c ≠ char ' ' := hcore c List.mem_cons_self
      rw [List.replicate_zero, List.nil_append, List.cons_append, List.dropWhile_cons_of_neg (by simpa using hc),
        ← List.cons_append, List.takeWhile_append_of_pos (by simpa using hcore)]
      cases m <;> simp [List.replicate_succ]
  | succ k ih =>
    rw [List.replicate_succ, List.cons_append, List.cons_append, List.dropWhile_cons_of_pos (by simp)]
    exact ih

theorem justified_eq (left zero : Bool) (width : ℕ) (sign digits : List UInt8) : ∃ k zeros m,
    justified left zero width sign digits =
      List.replicate k (char ' ') ++ (sign ++ (List.replicate zeros (char '0') ++ digits)) ++ List.replicate m (char ' ') := by
  unfold justified
  cases left with
  | true => exact ⟨0, 0, _, rfl⟩
  | false =>
    cases zero with
    | true => exact ⟨0, width - (sign ++ digits).length, 0, by simp⟩
    | false => exact ⟨width - (sign ++ digits).length, 0, 0, by simp⟩

theorem readDigits_zeros (base zeros : ℕ) (digits : List UInt8) :
    readDigits base (List.replicate zeros (char '0') ++ digits) = readDigits base digits := by
  have hzero : digitValue (char '0') = 0 := by decide
  induction zeros with
  | zero => rfl
  | succ zeros ih =>
    rw [List.replicate_succ, List.cons_append, readDigits, List.foldl_cons, hzero, Nat.zero_mul]
    exact ih

theorem readNumber_justified {base width : ℕ} {left zero : Bool} {sign digits : List UInt8}
    (hsign : sign = [] ∨ sign = [char '-']) (hdigits : ∀ c ∈ digits, c ≠ char ' ' ∧ c ≠ char '-') :
    readNumber base (justified left zero width sign digits) =
      if sign = [] then (readDigits base digits : ℤ) else -(readDigits base digits : ℤ) := by
  obtain ⟨k, zeros, m, heq⟩ := justified_eq left zero width sign digits
  have hbody : ∀ c ∈ List.replicate zeros (char '0') ++ digits, c ≠ char ' ' ∧ c ≠ char '-' := by
    intro c hc
    rcases List.mem_append.mp hc with hc | hc
    · rw [List.eq_of_mem_replicate hc]
      decide
    · exact hdigits c hc
  rw [heq, readNumber]
  rcases hsign with rfl | rfl
  · rw [List.nil_append, trim_eq (fun c hc => (hbody c hc).1), if_pos rfl, if_neg, readDigits_zeros]
    intro hhead
    exact (hbody _ (List.mem_of_head? hhead)).2 rfl
  · rw [trim_eq, if_neg (List.cons_ne_nil _ _), List.singleton_append, List.head?_cons, if_pos rfl, List.tail_cons,
      readDigits_zeros]
    · intro c hc
      rcases List.mem_append.mp hc with hc | hc
      · rw [List.mem_singleton.mp hc]
        decide
      · exact (hbody c hc).1

theorem base_facts (kind : Kind) : 0 < kind.base.toNat ∧ 4294967296 ≤ kind.base.toNat ^ 36 ∧
    ∀ d < kind.base.toNat, digitValue ((if kind.isUpper then upperDigits else lowerDigits).getD d 0) = d := by
  cases kind <;> decide

/-- The digits of a number, and the number that they are. -/
theorem numeral_digits (kind : Kind) (word : UInt32) :
    (∀ c ∈ (numeral word kind.base kind.isSigned kind.isUpper).digits, c ≠ char ' ' ∧ c ≠ char '-') ∧
      (readDigits kind.base.toNat (numeral word kind.base kind.isSigned kind.isUpper).digits : ℤ) =
        if (numeral word kind.base kind.isSigned kind.isUpper).negative then -kind.value word else kind.value word := by
  obtain ⟨hbase, hroom, hdigits⟩ := base_facts kind
  refine ⟨fun c hc => ?_, ?_⟩
  · have hchars : ∀ c ∈ (if kind.isUpper then upperDigits else lowerDigits), c ≠ char ' ' ∧ c ≠ char '-' := by
      cases kind <;> exact List.all_iff_forall_prop.mp (by decide)
    rcases mem_digitLoop (List.mem_reverse.mp hc) with hc | rfl
    · exact hchars c hc
    · decide
  · have hread : ∀ word : UInt32, readDigits kind.base.toNat
        (digitLoop (if kind.isUpper then upperDigits else lowerDigits) kind.base 36 word).reverse = word.toNat :=
      fun word => readDigits_digitLoop hdigits hbase (Nat.lt_of_lt_of_le word.toNat_lt hroom)
    have hcases := MachineInt.toInt32_cases word
    have hneg : word.toInt32 < 0 ↔ word.toInt32.toInt < 0 := Int32.lt_iff_toInt_lt
    simp only [numeral, hread, Kind.value, decide_eq_true_eq, hneg]
    cases kind.isSigned with
    | false => simp
    | true =>
      by_cases hlt : word.toInt32.toInt < 0
      · simpa [hlt] using neg_toNat hlt
      · have hword := word.toNat_lt
        simp only [hlt, and_false, if_false, if_true]
        omega

/-- A number conversion whose width an `int` can hold. -/
theorem number_justified (kind : Kind) (word : UInt32) {written : Written} (h : written.width < 2147483648) :
    Justified written kind word ((numeral word kind.base kind.isSigned kind.isUpper).text (Int32.ofNat written.width)
      written.left (padOf written.zero)) := by
  obtain ⟨hchars, hread⟩ := numeral_digits kind word
  rw [numeral_text _ _ _ _ _ _ h]
  generalize numeral word kind.base kind.isSigned kind.isUpper = n at hchars hread ⊢
  have hsign : n.sign = [] ∨ n.sign = [char '-'] := by
    unfold Numeral.sign
    cases n.negative
    · exact .inl rfl
    · exact .inr rfl
  refine ⟨⟨_, _, hsign, rfl⟩, ?_, ?_⟩
  · rw [length_justified]
    exact Nat.le_max_left _ _
  · rw [readNumber_justified hsign hchars, hread]
    cases hneg : n.negative <;> simp [Numeral.sign, hneg]

end Numbers

/-! ## The conversions of a format -/

section Formats

/-- The loop of `format` has written the text and comes to this rest of the format, with these arguments. -/
inductive Reached (fmt : List UInt8) (args : List Arg) : List UInt8 → List UInt8 → List Arg → Prop
  | start : Reached fmt args [] fmt args
  | literal {text rest args' c} (h : Reached fmt args text (c :: rest) args') (hc : c ≠ char '%') :
    Reached fmt args (text ++ [c]) rest args'
  | conversion {text rest rest' output args' args'' c} (h : Reached fmt args text (char '%' :: rest) args')
    (hrest : (Written.read rest).rest = c :: rest') (hconvert : convertText (parse rest) c args' = some (output, args'')) :
    Reached fmt args (text ++ output) rest' args''

/-- What `kvsnprintf` has to do: the buffer beyond its size as before, the length of the output as the result, and
in the buffer the beginning of the output and a terminator. Every number conversion is justified to its width
and can be read back. -/
structure Exact (fmt : List UInt8) (args : List Arg) (output : List UInt8) : Prop where
  call : ∀ buf size, ∃ buf' result, kvsnprintf buf size fmt args = some (buf', result) ∧
    result.toInt = output.length ∧ (∀ j, size.toNat ≤ j → buf' j = buf j) ∧
    (size ≠ 0 → (∀ j < min output.length (size.toNat - 1), output[j]? = some (buf' j)) ∧
      buf' (min output.length (size.toNat - 1)) = 0)
  numbers : ∀ {text rest rest' word args'} {kind : Kind}, Reached fmt args text (char '%' :: rest) (.word word :: args') →
    (Written.read rest).rest = kind.letter :: rest' →
    ∃ number, convertText (parse rest) kind.letter (.word word :: args') = some (number, args') ∧
      text ++ number <+: output ∧ Justified (Written.read rest) kind word number

/-- The width of every number conversion fits in an `int`. -/
def WidthsFit (fmt : List UInt8) (args : List Arg) : Prop :=
  ∀ {text rest rest' word args'} {kind : Kind}, Reached fmt args text (char '%' :: rest) (.word word :: args') →
    (Written.read rest).rest = kind.letter :: rest' → (Written.read rest).width < 2147483648

variable {fmt : List UInt8} {args : List Arg} {output : List UInt8}

theorem convertText_number (spec : Spec) (kind : Kind) (word : UInt32) (args : List Arg) :
    convertText spec kind.letter (.word word :: args) =
      some ((numeral word kind.base kind.isSigned kind.isUpper).text spec.width spec.left spec.pad, args) := by
  cases kind <;> rfl

/-- From where the loop is, it goes on to the same output. -/
theorem Reached.goes_on {text rest : List UInt8} {args' : List Arg} (h : Reached fmt args text rest args') :
    textLoop grammar convertText some text rest args' = formatText fmt args := by
  induction h with
  | start => rfl
  | literal h hc ih => rw [← ih, textLoop_literal hc]
  | @conversion text rest rest' output args' args'' c h hrest hconvert ih =>
    have hspec : (parse rest).rest = c :: rest' := by rw [parse_eq, hrest]
    rw [← ih, textLoop_convert (g := grammar) rfl hspec hconvert]

/-- The loop only appends. -/
theorem textLoop_append (text text' rest : List UInt8) (args : List Arg) :
    textLoop grammar convertText some (text ++ text') rest args =
      (textLoop grammar convertText some text' rest args).map (text ++ ·) := by
  refine formatLoop_map (f := (text ++ ·)) (fun text' c => List.append_assoc _ _ _) (fun text' spec c args => ?_)
    (fun text' => rfl) text' rest args
  rw [Option.map_map]
  exact congrArg (Option.map · _) (funext fun r => by simp)

theorem Reached.prefix_output {text rest : List UInt8} {args' : List Arg} (h : Reached fmt args text rest args')
    (houtput : formatText fmt args = some output) : text <+: output := by
  have hall := h.goes_on
  rw [← List.append_nil text, textLoop_append, houtput] at hall
  obtain ⟨after, -, hafter⟩ := Option.map_eq_some_iff.mp hall
  exact ⟨after, hafter⟩

/-- The buffer, for an output that the counter can count. -/
theorem buffer_exact (hlen : output.length < 4294967295) (buf : ℕ → UInt8) (size : UInt32) :
    (∀ j, size.toNat ≤ j → (bounded buf size output).1 j = buf j) ∧
      (size ≠ 0 → (∀ j < min output.length (size.toNat - 1), output[j]? = some ((bounded buf size output).1 j)) ∧
        (bounded buf size output).1 (min output.length (size.toNat - 1)) = 0) := by
  refine ⟨fun j hj => ?_, fun hsize => ⟨fun j hj => ?_, ?_⟩⟩
  · by_cases hsize : size = 0
    · rw [bounded_empty hsize]
    · have hpos := toNat_pos hsize
      have hmin := Nat.min_le_right output.length (size.toNat - 1)
      rw [bounded_buf hlen hsize, if_neg (by omega), if_neg (by omega)]
  · have hmin := Nat.lt_min.mp hj
    rw [bounded_buf hlen hsize, if_neg (by omega), if_pos (by omega), List.getElem?_eq_getElem hmin.1, Option.getD_some]
  · rw [bounded_buf hlen hsize, if_pos rfl]

/-- The call is exact precisely for an output whose length an `int` can hold and widths that one can hold. -/
theorem bounded_format_iff (houtput : formatText fmt args = some output) :
    Exact fmt args output ↔ output.length < 2147483648 ∧ WidthsFit fmt args := by
  constructor
  · intro hexact
    have hlen : output.length < 2147483648 := by
      obtain ⟨-, result, -, hresult, -⟩ := hexact.call (fun _ => 0) 0
      have hrange := MachineInt.range result
      omega
    refine ⟨hlen, fun h hletter => ?_⟩
    obtain ⟨number, -, hprefix, hnumber⟩ := hexact.numbers h hletter
    have hle := hprefix.length_le
    have hwidth := hnumber.width_le
    rw [List.length_append] at hle
    omega
  · rintro ⟨hlen, hwidths⟩
    refine ⟨fun buf size => ?_, ?_⟩
    · have hcall : kvsnprintf buf size fmt args = some (bounded buf size output) := by
        rw [kvsnprintf_eq, houtput, Option.map_some]
      have hresult : (bounded buf size output).2.toInt = output.length := by
        rw [bounded_result (by omega), MachineInt.toInt_ofNat_small hlen]
      exact ⟨_, _, hcall, hresult, buffer_exact (by omega) buf size⟩
    · intro text rest rest' word args' kind h hletter
      have hconvert := convertText_number (parse rest) kind word args'
      refine ⟨_, hconvert, (h.conversion hletter hconvert).prefix_output houtput, ?_⟩
      rw [parse_eq]
      exact number_justified kind word (hwidths h hletter)

end Formats

/-- A number conversion in the loop. -/
theorem textLoop_number {written : Written} (kind : Kind) {word : UInt32} {text rest rest' : List UInt8} {args : List Arg}
    (hread : Written.read rest = written) (hletter : written.rest = kind.letter :: rest') (hwidth : written.width < 2147483648) :
    textLoop grammar convertText some text (char '%' :: rest) (.word word :: args) =
      textLoop grammar convertText some (text ++ justified written.left written.zero written.width
        (numeral word kind.base kind.isSigned kind.isUpper).sign (numeral word kind.base kind.isSigned kind.isUpper).digits)
        rest' args := by
  subst hread
  have hparse := parse_eq rest
  refine textLoop_convert (g := grammar) hparse hletter ?_
  rw [convertText_number, numeral_text _ _ _ _ _ _ hwidth]

/-- `"%5d"` with -42. -/
theorem bounded_format_minus_42 :
    Exact (['%', '5', 'd'].map char) [.word 4294967254] ([' ', ' ', '-', '4', '2'].map char) ↔
      ([' ', ' ', '-', '4', '2'].map char).length < 2147483648 ∧
        WidthsFit (['%', '5', 'd'].map char) [.word 4294967254] := by
  have hread : Written.read (['5', 'd'].map char) = ⟨false, false, 5, [char 'd']⟩ := rfl
  exact bounded_format_iff ((textLoop_number .d hread rfl (by decide)).trans (textLoop_nil _ _))

/-- `"%2147483647d%d"` with 0 and 0: the result is negative. -/
theorem length_not_returned : ∃ output,
    formatText (['%', '2', '1', '4', '7', '4', '8', '3', '6', '4', '7', 'd', '%', 'd'].map char) [.word 0, .word 0] =
      some output ∧
    ¬Exact (['%', '2', '1', '4', '7', '4', '8', '3', '6', '4', '7', 'd', '%', 'd'].map char) [.word 0, .word 0] output := by
  have hfirst : Written.read (['2', '1', '4', '7', '4', '8', '3', '6', '4', '7', 'd', '%', 'd'].map char) =
      ⟨false, false, 2147483647, ['d', '%', 'd'].map char⟩ := rfl
  have hsecond : Written.read [char 'd'] = ⟨false, false, 0, [char 'd']⟩ := rfl
  refine ⟨_, (textLoop_number .d hfirst rfl (by decide)).trans
    ((textLoop_number .d hsecond rfl (by decide)).trans (textLoop_nil _ _)), fun hexact => ?_⟩
  obtain ⟨-, result, -, hresult, -⟩ := hexact.call (fun _ => 0) 0
  have hrange := MachineInt.range result
  have hdigit : ((numeral 0 Kind.d.base Kind.d.isSigned Kind.d.isUpper).sign ++
      (numeral 0 Kind.d.base Kind.d.isSigned Kind.d.isUpper).digits).length = 1 := by decide
  rw [List.length_append, List.length_append, length_justified, length_justified, hdigit] at hresult
  simp only [List.length_nil] at hresult
  omega

end SifarOS.BoundedFormat
