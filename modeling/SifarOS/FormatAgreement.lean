import SifarOS.Kprintf
import SifarOS.UserFormat

/-! # The two formatters compared

A format with its arguments, as a list of literal characters and conversions. For each of them the
texts of the two formatters are compared; the formatters agree where all of them do. -/
namespace SifarOS.FormatAgreement
open FormatSink

inductive NumberKind
  | d | i | u | x
  deriving DecidableEq, Repr

def NumberKind.letter : NumberKind → UInt8
  | .d => char 'd'
  | .i => char 'i'
  | .u => char 'u'
  | .x => char 'x'

def NumberKind.isSigned : NumberKind → Bool
  | .d | .i => true
  | .u | .x => false

def NumberKind.base : NumberKind → UInt32
  | .d | .i | .u => 10
  | .x => 16

/-- A literal character, or a conversion with its argument. The digits are those between the `%` and the
letter: a first 0 is the flag, and all of them together are the width. -/
inductive Item
  | literal (c : { c : UInt8 // c ≠ char '%' })
  | string (digits : List (Fin 10)) (str : Option (List UInt8))
  | number (digits : List (Fin 10)) (kind : NumberKind) (value : UInt32)
  | character (digits : List (Fin 10)) (value : UInt32)
  | percent (digits : List (Fin 10))

def digitChars (digits : List (Fin 10)) : List UInt8 := digits.map fun d => char '0' + UInt8.ofNat d.val

/-- The characters of the format. -/
def Item.source : Item → List UInt8
  | .literal c => [c.val]
  | .string digits _ => char '%' :: (digitChars digits ++ [char 's'])
  | .number digits kind _ => char '%' :: (digitChars digits ++ [kind.letter])
  | .character digits _ => char '%' :: (digitChars digits ++ [char 'c'])
  | .percent digits => char '%' :: (digitChars digits ++ [char '%'])

/-- The argument that the item takes. -/
def Item.args : Item → List Arg
  | .literal _ => []
  | .string _ str => [.text str]
  | .number _ _ value => [.word value]
  | .character _ value => [.word value]
  | .percent _ => []

def source (items : List Item) : List UInt8 := items.flatMap Item.source

def arguments (items : List Item) : List Arg := items.flatMap Item.args

/-- The width, as an `int`. -/
def widthOf (digits : List (Fin 10)) : Int32 := digits.foldl (fun width d => width * 10 + Int32.ofNat d.val) 0

def padOf (digits : List (Fin 10)) : UInt8 := if digits.head? = some 0 then char '0' else char ' '

/-- The text of the kernel. -/
def Item.kernelText : Item → List UInt8
  | .literal c => [c.val]
  | .string digits str => Kprintf.stringText (str.getD nullText) (widthOf digits) false (char ' ')
  | .number digits kind value =>
    (Kprintf.numeral value kind.base kind.isSigned false).text (widthOf digits) false (padOf digits)
  | .character _ value => [value.toUInt8]
  | .percent _ => [char '%']

/-- The text of the library. -/
def Item.userText : Item → List UInt8
  | .literal c => [c.val]
  | .string digits str => UserFormat.stringText (str.getD nullText) (widthOf digits)
  | .number digits kind value => UserFormat.numberText value kind.base kind.isSigned (widthOf digits) (padOf digits)
  | .character _ value => [value.toUInt8]
  | .percent _ => [char '%']

/-! ## Reading a conversion -/

section Parse
variable {k : UInt8} {rest : List UInt8}

theorem digitChar_facts (d : Fin 10) : isDigit (char '0' + UInt8.ofNat d.val) = true ∧
    char '0' + UInt8.ofNat d.val ≠ char '-' ∧ (char '0' + UInt8.ofNat d.val = char '0' ↔ d = 0) ∧
    (char '0' + UInt8.ofNat d.val - char '0').toUInt32.toInt32 = Int32.ofNat d.val := by
  revert d
  decide

theorem widthLoop_digits (hk : isDigit k = false) (digits : List (Fin 10)) (width : Int32) :
    widthLoop width (digitChars digits ++ k :: rest) =
      (digits.foldl (fun width d => width * 10 + Int32.ofNat d.val) width, k :: rest) := by
  induction digits generalizing width with
  | nil => simp [digitChars, widthLoop, hk]
  | cons d digits ih =>
    obtain ⟨hdigit, -, -, hvalue⟩ := digitChar_facts d
    simp only [digitChars, List.map_cons, List.cons_append, widthLoop, hdigit, if_true, hvalue, List.foldl_cons]
    exact ih _

theorem ne_zero_char (hk : isDigit k = false) : k ≠ char '0' := by
  rintro rfl
  exact absurd hk (by decide)

theorem flags_digits (hk : isDigit k = false) (hminus : k ≠ char '-') (digits : List (Fin 10)) (pad : UInt8) :
    Kprintf.flags false pad (digitChars digits ++ k :: rest) =
      (false, if digits.head? = some 0 then char '0' else pad, digitChars (digits.dropWhile (· = 0)) ++ k :: rest) := by
  induction digits generalizing pad with
  | nil => simp [digitChars, Kprintf.flags, hminus, ne_zero_char hk]
  | cons d digits ih =>
    obtain ⟨-, hminus', hzero, -⟩ := digitChar_facts d
    rw [digitChars, List.map_cons, List.cons_append, Kprintf.flags, if_neg hminus']
    by_cases hd : d = 0
    · rw [if_pos (hzero.mpr hd)]
      simpa [hd, digitChars] using ih (char '0')
    · rw [if_neg (mt hzero.mp hd)]
      simp [hd, digitChars]

theorem widthOf_dropWhile (digits : List (Fin 10)) : widthOf (digits.dropWhile (· = 0)) = widthOf digits := by
  induction digits with
  | nil => rfl
  | cons d digits ih =>
    by_cases hd : d = 0
    · subst hd
      exact ih
    · rw [List.dropWhile_cons_of_neg (by simpa using hd)]

/-- Flags and width, as the kernel reads them. -/
theorem kernel_parse (hk : isDigit k = false) (hletter : k ≠ char '-' ∧ k ≠ char 'l' ∧ k ≠ char 'z' ∧ k ≠ char 'h')
    (digits : List (Fin 10)) : Kprintf.parse (digitChars digits ++ k :: rest) =
      ⟨false, padOf digits, widthOf digits, k :: rest⟩ := by
  obtain ⟨hminus, hl, hz, hh⟩ := hletter
  have hwidth : digits.foldl (fun width d => width * 10 + Int32.ofNat d.val) 0 = widthOf digits := rfl
  have hmodifiers : Kprintf.modifiers (k :: rest) = k :: rest := by simp [Kprintf.modifiers, hl, hz, hh]
  rw [Kprintf.parse, flags_digits hk hminus]
  dsimp only
  rw [widthLoop_digits hk]
  dsimp only
  rw [hmodifiers]
  congr 1
  exact widthOf_dropWhile digits

theorem user_parse (hk : isDigit k = false) (digits : List (Fin 10)) :
    UserFormat.parse (digitChars digits ++ k :: rest) = ⟨false, padOf digits, widthOf digits, k :: rest⟩ := by
  cases digits with
  | nil =>
    have hwidth := @widthLoop_digits k rest hk [] 0
    simp only [digitChars, List.map_nil, List.nil_append] at hwidth ⊢
    rw [UserFormat.parse, if_neg (ne_zero_char hk), hwidth]
    rfl
  | cons d digits =>
    obtain ⟨-, -, hzero, -⟩ := digitChar_facts d
    have hcons : digitChars (d :: digits) ++ k :: rest =
        (char '0' + UInt8.ofNat d.val) :: (digitChars digits ++ k :: rest) := rfl
    rw [hcons, UserFormat.parse]
    by_cases hd : d = 0
    · rw [if_pos (hzero.mpr hd), widthLoop_digits hk, hd]
      rfl
    · rw [if_neg (mt hzero.mp hd), ← hcons, widthLoop_digits hk]
      simp [padOf, hd, widthOf]

end Parse

/-! ## The complete outputs -/

section Outputs
variable {text fmt : List UInt8} {args : List Arg}

theorem letter_facts (kind : NumberKind) : isDigit kind.letter = false ∧
    kind.letter ≠ char '-' ∧ kind.letter ≠ char 'l' ∧ kind.letter ≠ char 'z' ∧ kind.letter ≠ char 'h' := by
  cases kind <;> decide

theorem kernel_item (item : Item) (text fmt : List UInt8) (args : List Arg) :
    textLoop Kprintf.grammar Kprintf.convertText some text (item.source ++ fmt) (item.args ++ args) =
      textLoop Kprintf.grammar Kprintf.convertText some (text ++ item.kernelText) fmt args := by
  cases item with
  | literal c => exact textLoop_literal c.property
  | string digits str =>
    simp only [Item.source, List.cons_append, List.append_assoc, List.nil_append]
    exact textLoop_convert (kernel_parse (by decide) (by decide) digits) rfl rfl
  | number digits kind value =>
    simp only [Item.source, List.cons_append, List.append_assoc, List.nil_append]
    obtain ⟨hdigit, hletter⟩ := letter_facts kind
    refine textLoop_convert (kernel_parse hdigit hletter digits) rfl ?_
    cases kind <;> rfl
  | character digits value =>
    simp only [Item.source, List.cons_append, List.append_assoc, List.nil_append]
    exact textLoop_convert (kernel_parse (by decide) (by decide) digits) rfl rfl
  | percent digits =>
    simp only [Item.source, List.cons_append, List.append_assoc, List.nil_append]
    exact textLoop_convert (kernel_parse (by decide) (by decide) digits) rfl rfl

theorem user_item (item : Item) (text fmt : List UInt8) (args : List Arg) :
    textLoop UserFormat.grammar UserFormat.convertText (fun _ => none) text (item.source ++ fmt) (item.args ++ args) =
      textLoop UserFormat.grammar UserFormat.convertText (fun _ => none) (text ++ item.userText) fmt args := by
  cases item with
  | literal c => exact textLoop_literal c.property
  | string digits str =>
    simp only [Item.source, List.cons_append, List.append_assoc, List.nil_append]
    exact textLoop_convert (user_parse (by decide) digits) rfl rfl
  | number digits kind value =>
    simp only [Item.source, List.cons_append, List.append_assoc, List.nil_append]
    refine textLoop_convert (user_parse (letter_facts kind).1 digits) rfl ?_
    cases kind <;> rfl
  | character digits value =>
    simp only [Item.source, List.cons_append, List.append_assoc, List.nil_append]
    exact textLoop_convert (user_parse (by decide) digits) rfl rfl
  | percent digits =>
    simp only [Item.source, List.cons_append, List.append_assoc, List.nil_append]
    exact textLoop_convert (user_parse (by decide) digits) rfl rfl

theorem kernel_output (items : List Item) :
    Kprintf.formatText (source items) (arguments items) = some (items.flatMap Item.kernelText) := by
  have hall : ∀ text, textLoop Kprintf.grammar Kprintf.convertText some text (source items) (arguments items) =
      some (text ++ items.flatMap Item.kernelText) := by
    induction items with
    | nil => exact fun text => (textLoop_nil text []).trans (by simp)
    | cons item items ih =>
      intro text
      rw [source, arguments, List.flatMap_cons, List.flatMap_cons, kernel_item]
      exact (ih _).trans (by simp)
  exact (hall []).trans (by simp)

theorem user_output (items : List Item) :
    UserFormat.formatText (source items) (arguments items) = some (items.flatMap Item.userText) := by
  have hall : ∀ text, textLoop UserFormat.grammar UserFormat.convertText (fun _ => none) text (source items)
      (arguments items) = some (text ++ items.flatMap Item.userText) := by
    induction items with
    | nil => exact fun text => (textLoop_nil text []).trans (by simp)
    | cons item items ih =>
      intro text
      rw [source, arguments, List.flatMap_cons, List.flatMap_cons, user_item]
      exact (ih _).trans (by simp)
  exact (hall []).trans (by simp)

end Outputs

/-! ## One item -/

/-- The difference is the exact one. -/
def Exact (width len : Int32) : Prop := (width - len).toInt = width.toInt - len.toInt

instance (width len : Int32) : Decidable (Exact width len) := inferInstanceAs (Decidable (_ = _))

/-- The length of a number, with its sign. -/
def numberLength (kind : NumberKind) (value : UInt32) : Int32 :=
  let n := Kprintf.numeral value kind.base kind.isSigned false
  Int32.ofNat (n.sign ++ n.digits).length

def isNegative (kind : NumberKind) (value : UInt32) : Bool := kind.isSigned ∧ value.toInt32 < 0

/-- The formatters write the same for the item: the width minus the length of the text does not overflow,
and a negative number without the flag is not narrower than the width. -/
def Item.Agrees : Item → Prop
  | .string digits str => Exact (widthOf digits) (Int32.ofNat (str.getD nullText).length)
  | .number digits kind value =>
    if isNegative kind value then
      if padOf digits = char '0' then Exact (widthOf digits) (numberLength kind value) ∨ widthOf digits = Int32.minValue
      else Exact (widthOf digits) (numberLength kind value) ∧ widthOf digits ≤ numberLength kind value
    else Exact (widthOf digits) (numberLength kind value)
  | _ => True

section Items

theorem exact_iff (width len : Int32) :
    (width - len).toNatClampNeg = (width.toInt - len.toInt).toNat ↔ Exact width len := by
  have hsub := MachineInt.sub_cases width len
  have hwidth := MachineInt.range width
  have hlen := MachineInt.range len
  unfold Exact
  rw [Int32.toNatClampNeg]
  omega

theorem replicate_append_inj {c : UInt8} {n m : ℕ} {text : List UInt8} :
    List.replicate n c ++ text = List.replicate m c ++ text ↔ n = m := by
  constructor
  · intro h
    simpa using congrArg List.length h
  · rintro rfl
    rfl

/-- A text behind its padding. -/
theorem padded_iff (pad : UInt8) (text : List UInt8) (width len : Int32) :
    Kprintf.padding pad (width - len) ++ text = UserFormat.fill pad len width ++ text ↔ Exact width len := by
  rw [Kprintf.padding, UserFormat.fill, replicate_append_inj, exact_iff]

theorem digits_eq (kind : NumberKind) (value : UInt32) :
    digitLoop lowerDigits kind.base 36 value = digitLoop lowerDigits kind.base 16 value := by
  have hbase : 4294967296 ≤ kind.base.toNat ^ (15 + 1) := by
    cases kind <;> decide
  exact digitLoop_room (Nat.lt_of_lt_of_le value.toNat_lt hbase) 20

theorem string_iff (digits : List (Fin 10)) (str : Option (List UInt8)) :
    (Item.string digits str).kernelText = (Item.string digits str).userText ↔ (Item.string digits str).Agrees := by
  simp only [Item.kernelText, Item.userText, Item.Agrees, Kprintf.stringText, UserFormat.stringText,
    Bool.false_eq_true, if_false, List.append_nil]
  exact padded_iff _ _ _ _

/-- The digits of a number, without its sign. -/
def magnitude (kind : NumberKind) (value : UInt32) : List UInt8 :=
  (Kprintf.numeral value kind.base kind.isSigned false).digits

theorem magnitude_facts (kind : NumberKind) (value : UInt32) : magnitude kind value =
    (digitLoop lowerDigits kind.base 16 (if isNegative kind value then (-value.toInt32).toUInt32 else value)).reverse ∧
    (magnitude kind value).length ≤ 16 := by
  have heq : magnitude kind value =
      (digitLoop lowerDigits kind.base 16 (if isNegative kind value then (-value.toInt32).toUInt32 else value)).reverse := by
    rw [← digits_eq]
    rfl
  refine ⟨heq, ?_⟩
  rw [heq, List.length_reverse]
  exact length_digitLoop _ _ _ _

theorem numberLength_eq (kind : NumberKind) (value : UInt32) : numberLength kind value =
    Int32.ofNat ((magnitude kind value).length + if isNegative kind value then 1 else 0) := by
  unfold numberLength magnitude isNegative Kprintf.numeral Kprintf.Numeral.sign
  by_cases hneg : kind.isSigned ∧ value.toInt32 < 0 <;> simp [hneg, Nat.add_comm]

theorem kernel_number (digits : List (Fin 10)) (kind : NumberKind) (value : UInt32) :
    (Item.number digits kind value).kernelText =
      if isNegative kind value then
        if padOf digits = char '0' then
          char '-' :: (Kprintf.padding (char '0') (widthOf digits - 1 - (numberLength kind value - 1)) ++ magnitude kind value)
        else Kprintf.padding (padOf digits) (widthOf digits - numberLength kind value) ++ char '-' :: magnitude kind value
      else Kprintf.padding (padOf digits) (widthOf digits - numberLength kind value) ++ magnitude kind value := by
  have hsign : (Kprintf.numeral value kind.base kind.isSigned false).negative = isNegative kind value := rfl
  have hlen : Int32.ofNat ((Kprintf.numeral value kind.base kind.isSigned false).sign ++
      (Kprintf.numeral value kind.base kind.isSigned false).digits).length = numberLength kind value := rfl
  rw [Item.kernelText, Kprintf.Numeral.text, hlen, hsign, Kprintf.Numeral.sign, hsign, magnitude]
  cases isNegative kind value with
  | true =>
    by_cases hpad : padOf digits = char '0' <;> simp [hpad]
  | false => simp

theorem user_number (digits : List (Fin 10)) (kind : NumberKind) (value : UInt32) :
    (Item.number digits kind value).userText =
      if isNegative kind value then
        char '-' :: (UserFormat.fill (padOf digits) (Int32.ofNat (magnitude kind value).length)
          (if widthOf digits ≠ 0 then widthOf digits - 1 else widthOf digits) ++ magnitude kind value)
      else UserFormat.fill (padOf digits) (Int32.ofNat (magnitude kind value).length) (widthOf digits) ++
        magnitude kind value := by
  rw [Item.userText, UserFormat.numberText, (magnitude_facts kind value).1]
  unfold isNegative
  by_cases hneg : kind.isSigned ∧ value.toInt32 < 0 <;> simp [hneg]

/-- Zeros behind a minus sign. -/
theorem zeros_iff {n : ℕ} {width len : Int32} (hn : n ≤ 16) (hlen : len = Int32.ofNat (n + 1)) :
    (width - 1 - (len - 1)).toNatClampNeg =
        ((if width ≠ 0 then width - 1 else width).toInt - (Int32.ofNat n).toInt).toNat ↔
      Exact width len ∨ width = Int32.minValue := by
  have hone : (1 : Int32).toInt = 1 := by decide
  have hzero : (0 : Int32).toInt = 0 := by decide
  have hmin : width = Int32.minValue ↔ width.toInt = -2147483648 := by
    rw [← Int32.toInt_inj]
    rfl
  have hlenInt : len.toInt = n + 1 := by
    rw [hlen, MachineInt.toInt_ofNat_small (by omega)]
    rfl
  have hnInt : (Int32.ofNat n).toInt = n := MachineInt.toInt_ofNat_small (by omega)
  have hwidth := MachineInt.range width
  have hpred := MachineInt.sub_cases width 1
  have hlenPred := MachineInt.sub_exact (a := len) (b := 1) (by omega) (by omega)
  have hcount := MachineInt.sub_cases (width - 1) (len - 1)
  have hexact := MachineInt.sub_cases width len
  have hne : width = 0 ↔ width.toInt = 0 := by rw [← Int32.toInt_inj, hzero]
  rw [Exact, Int32.toNatClampNeg, hnInt, hmin]
  by_cases hw : width = 0
  · rw [if_neg (not_not.mpr hw)]
    have hw' := hne.mp hw
    rcases hcount with hc | hc | hc <;> omega
  · rw [if_pos hw]
    have hw' := mt hne.mpr hw
    rcases hpred with hp | hp | hp <;> rcases hcount with hc | hc | hc <;> omega

/-- Blanks before a minus sign, or behind it. -/
theorem blanks_iff {n : ℕ} {width len : Int32} {pad : UInt8} {text : List UInt8} (hn : n ≤ 16)
    (hlen : len = Int32.ofNat (n + 1)) (hpad : pad ≠ char '-') :
    Kprintf.padding pad (width - len) ++ char '-' :: text =
        char '-' :: (UserFormat.fill pad (Int32.ofNat n) (if width ≠ 0 then width - 1 else width) ++ text) ↔
      Exact width len ∧ width ≤ len := by
  have hone : (1 : Int32).toInt = 1 := by decide
  have hzero : (0 : Int32).toInt = 0 := by decide
  have hlenInt : len.toInt = n + 1 := by
    rw [hlen, MachineInt.toInt_ofNat_small (by omega)]
    rfl
  have hnInt : (Int32.ofNat n).toInt = n := MachineInt.toInt_ofNat_small (by omega)
  have hwidth := MachineInt.range width
  have hpred := MachineInt.sub_cases width 1
  have hexact := MachineInt.sub_cases width len
  have hne : width = 0 ↔ width.toInt = 0 := by rw [← Int32.toInt_inj, hzero]
  have hcounts : (width - len).toNatClampNeg = 0 ∧
      ((if width ≠ 0 then width - 1 else width).toInt - (Int32.ofNat n).toInt).toNat = 0 ↔
      Exact width len ∧ width ≤ len := by
    rw [Exact, Int32.toNatClampNeg, hnInt, Int32.le_iff_toInt_le]
    by_cases hw : width = 0
    · rw [if_neg (not_not.mpr hw)]
      have hw' := hne.mp hw
      omega
    · rw [if_pos hw]
      have hw' := mt hne.mpr hw
      omega
  rw [← hcounts, Kprintf.padding, UserFormat.fill]
  cases (width - len).toNatClampNeg with
  | zero => simp
  | succ count => simp [List.replicate_succ, hpad]

theorem padOf_ne_minus (digits : List (Fin 10)) : padOf digits ≠ char '-' := by
  unfold padOf
  split <;> decide

theorem number_iff (digits : List (Fin 10)) (kind : NumberKind) (value : UInt32) :
    (Item.number digits kind value).kernelText = (Item.number digits kind value).userText ↔
      (Item.number digits kind value).Agrees := by
  have hroom := (magnitude_facts kind value).2
  rw [kernel_number, user_number, Item.Agrees]
  have hlen := numberLength_eq kind value
  cases hneg : isNegative kind value with
  | false =>
    rw [hneg] at hlen
    simp only [Bool.false_eq_true, if_false] at hlen ⊢
    rw [← Nat.add_zero (magnitude kind value).length, ← hlen]
    exact padded_iff _ _ _ _
  | true =>
    rw [hneg] at hlen
    simp only [if_true] at hlen ⊢
    by_cases hpad : padOf digits = char '0'
    · rw [if_pos hpad, if_pos hpad, hpad, List.cons.injEq, Kprintf.padding, UserFormat.fill, replicate_append_inj]
      simpa using zeros_iff hroom hlen
    · rw [if_neg hpad, if_neg hpad]
      exact blanks_iff hroom hlen (padOf_ne_minus digits)

/-- The formatters write the same for an item exactly if it agrees. -/
theorem item_text_iff (item : Item) : item.kernelText = item.userText ↔ item.Agrees := by
  cases item with
  | string digits str => exact string_iff digits str
  | number digits kind value => exact number_iff digits kind value
  | literal c => exact iff_of_true rfl trivial
  | character digits value => exact iff_of_true rfl trivial
  | percent digits => exact iff_of_true rfl trivial

/-- Where a width overflows, the kernel pads more: the other way round the library would write 4 GiB. -/
theorem padding_le {width : Int32} {n : ℕ} (h : (width.toInt - (Int32.ofNat n).toInt).toNat + n < 4294967295) :
    (width.toInt - (Int32.ofNat n).toInt).toNat ≤ (width - Int32.ofNat n).toNatClampNeg := by
  have hsub := MachineInt.sub_cases width (Int32.ofNat n)
  have hwidth := MachineInt.range width
  have hlen := MachineInt.range (Int32.ofNat n)
  have hn : 2147483648 ≤ n ∨ (Int32.ofNat n).toInt = n := by
    rcases Nat.lt_or_ge n 2147483648 with hlt | hge
    · exact .inr (MachineInt.toInt_ofNat_small hlt)
    · exact .inl hge
  rw [Int32.toNatClampNeg]
  omega

theorem signed_padding_le {width : Int32} {n : ℕ} (hn : n ≤ 16) :
    ((if width ≠ 0 then width - 1 else width).toInt - (Int32.ofNat n).toInt).toNat ≤
        (width - 1 - (Int32.ofNat (n + 1) - 1)).toNatClampNeg ∧
      ((if width ≠ 0 then width - 1 else width).toInt - (Int32.ofNat n).toInt).toNat ≤
        (width - Int32.ofNat (n + 1)).toNatClampNeg := by
  have hone : (1 : Int32).toInt = 1 := by decide
  have hzero : (0 : Int32).toInt = 0 := by decide
  have hlenInt : (Int32.ofNat (n + 1)).toInt = n + 1 := by
    rw [MachineInt.toInt_ofNat_small (by omega)]
    rfl
  have hnInt : (Int32.ofNat n).toInt = n := MachineInt.toInt_ofNat_small (by omega)
  have hwidth := MachineInt.range width
  have hpred := MachineInt.sub_cases width 1
  have hlenPred := MachineInt.sub_exact (a := Int32.ofNat (n + 1)) (b := 1) (by omega) (by omega)
  have hcount := MachineInt.sub_cases (width - 1) (Int32.ofNat (n + 1) - 1)
  have hexact := MachineInt.sub_cases width (Int32.ofNat (n + 1))
  have hne : width = 0 ↔ width.toInt = 0 := by rw [← Int32.toInt_inj, hzero]
  rw [Int32.toNatClampNeg, Int32.toNatClampNeg, hnInt]
  by_cases hw : width = 0
  · rw [if_neg (not_not.mpr hw)]
    have hw' := hne.mp hw
    rcases hcount with hc | hc | hc <;> omega
  · rw [if_pos hw]
    have hw' := mt hne.mpr hw
    rcases hpred with hp | hp | hp <;> rcases hcount with hc | hc | hc <;> omega

/-- The kernel's text is never the shorter one. -/
theorem length_userText_le (item : Item) (h : item.userText.length < 4294967295) :
    item.userText.length ≤ item.kernelText.length := by
  cases item with
  | string digits str =>
    simp only [Item.kernelText, Item.userText, Kprintf.stringText, UserFormat.stringText, Kprintf.padding,
      UserFormat.fill, Bool.false_eq_true, if_false, List.append_nil, List.length_append, List.length_replicate] at h ⊢
    exact Nat.add_le_add_right (padding_le h) _
  | number digits kind value =>
    have hroom := (magnitude_facts kind value).2
    have hlen := numberLength_eq kind value
    rw [user_number] at h ⊢
    rw [kernel_number]
    cases hneg : isNegative kind value with
    | false =>
      simp only [hneg, Bool.false_eq_true, if_false, Nat.add_zero] at h hlen ⊢
      rw [hlen]
      simp only [Kprintf.padding, UserFormat.fill, List.length_append, List.length_replicate] at h ⊢
      exact Nat.add_le_add_right (padding_le h) _
    | true =>
      obtain ⟨hzeros, hblanks⟩ := @signed_padding_le (widthOf digits) _ hroom
      simp only [hneg, if_true] at hlen ⊢
      rw [hlen]
      by_cases hpad : padOf digits = char '0'
      · rw [if_pos hpad]
        simp only [Kprintf.padding, UserFormat.fill, List.length_append, List.length_cons, List.length_replicate]
        omega
      · rw [if_neg hpad]
        simp only [Kprintf.padding, UserFormat.fill, List.length_append, List.length_cons, List.length_replicate]
        omega
  | literal c => exact Nat.le_refl _
  | character digits value => exact Nat.le_refl _
  | percent digits => exact Nat.le_refl _

/-- The outputs are the same exactly if all items agree. -/
theorem output_iff {items : List Item} (h : (items.flatMap Item.userText).length < 4294967295) :
    items.flatMap Item.kernelText = items.flatMap Item.userText ↔ ∀ item ∈ items, item.Agrees := by
  induction items with
  | nil => simp
  | cons item items ih =>
    rw [List.flatMap_cons, List.length_append] at h
    have hle : item.userText.length ≤ item.kernelText.length := length_userText_le item (by omega)
    have hrest : (items.flatMap Item.userText).length ≤ (items.flatMap Item.kernelText).length := by
      clear ih
      induction items with
      | nil => simp
      | cons next items ih =>
        simp only [List.flatMap_cons, List.length_append] at h ⊢
        have hnext := length_userText_le next (by omega)
        have hnexts := ih (by omega)
        omega
    rw [List.flatMap_cons, List.flatMap_cons, List.forall_mem_cons, ← ih (by omega), ← item_text_iff]
    constructor
    · intro heq
      have hlen := congrArg List.length heq
      rw [List.length_append, List.length_append] at hlen
      exact List.append_inj heq (by omega)
    · rintro ⟨hitem, hitems⟩
      rw [hitem, hitems]

end Items

/-! ## The calls -/

section Calls

/-- The outputs of the two formatters for the items, and what the calls make of them: the same for every size
where all items agree, and only there as long as no counter wraps. -/
theorem formatters_agree (items : List Item) :
    ∃ kernel user, Kprintf.formatText (source items) (arguments items) = some kernel ∧
      UserFormat.formatText (source items) (arguments items) = some user ∧
      ((∀ item ∈ items, item.Agrees) → ∀ buf size,
        Kprintf.ksnprintf buf size (source items) (arguments items) =
          UserFormat.snprintf buf size (source items) (arguments items)) ∧
      (kernel.length < 4294967295 → user.length < 4294967295 →
        (∀ buf size, Kprintf.ksnprintf buf size (source items) (arguments items) =
          UserFormat.snprintf buf size (source items) (arguments items)) → ∀ item ∈ items, item.Agrees) := by
  have hkernel := kernel_output items
  have huser := user_output items
  have hcalls : ∀ buf size, Kprintf.ksnprintf buf size (source items) (arguments items) =
        UserFormat.snprintf buf size (source items) (arguments items) ↔
      bounded buf size (items.flatMap Item.kernelText) = bounded buf size (items.flatMap Item.userText) := by
    intro buf size
    rw [Kprintf.ksnprintf, Kprintf.kvsnprintf_eq, UserFormat.snprintf_eq, hkernel, huser, Option.map_some,
      Option.map_some, Option.some_inj]
  refine ⟨_, _, hkernel, huser, fun hall buf size => ?_, fun hk hu heq => ?_⟩
  · rw [hcalls]
    have htexts : items.map Item.kernelText = items.map Item.userText :=
      List.map_congr_left fun item hitem => (item_text_iff item).mpr (hall item hitem)
    rw [List.flatMap_def, List.flatMap_def, htexts]
  · exact (output_iff hu).mp (bounded_inj hk hu ((hcalls (fun _ => 0) 4294967295).mp (heq _ _)))

end Calls

/-- `"%5d"` with -5: the kernel's minus sign is in the fourth place, the library's in the first. -/
theorem minus_sign_before_blanks :
    source [.number [5] .d 4294967291] = ['%', '5', 'd'].map char ∧
      Kprintf.ksnprintf (fun _ => 0) 16 (source [.number [5] .d 4294967291]) (arguments [.number [5] .d 4294967291]) ≠
        UserFormat.snprintf (fun _ => 0) 16 (source [.number [5] .d 4294967291])
          (arguments [.number [5] .d 4294967291]) := by
  refine ⟨by decide, fun heq => ?_⟩
  rw [Kprintf.ksnprintf, Kprintf.kvsnprintf_eq, UserFormat.snprintf_eq, kernel_output, user_output, Option.map_some,
    Option.map_some, Option.some_inj] at heq
  have hcell := congrFun (congrArg Prod.fst heq) 0
  rw [bounded_buf (by decide) (by decide), bounded_buf (by decide) (by decide)] at hcell
  revert hcell
  decide

end SifarOS.FormatAgreement
