import PaqusNetwork.Text
import PaqusNetwork.Wallet.Loading

namespace PaqusNetwork

open Effect Numeric

/-- `DECIMALS` and `XPQ` of the protocol crate. -/
structure Units where
  decimals : Nat
  xpq : Nat

def checkedAdd (a b : Nat) : Option Nat := if a + b ≤ u64Max then some (a + b) else none

def checkedMul (a b : Nat) : Option Nat := if a * b ≤ u64Max then some (a * b) else none

variable (units : Units)

def defaultTransactionFee : Nat := units.xpq / 1000000

def parseWholePart (whole : List Char) : Except String Nat :=
  if whole.isEmpty then .ok 0
  else (Text.parseUnsigned u64Max whole).mapError ("whole XPQ part is too large: " ++ ·)

def parseFractionalPart : Option (List Char) → Except String Nat
  | none => .ok 0
  | some [] => .ok 0
  | some value => do
    check ("XPQ supports at most " ++ toString units.decimals ++ " decimal places")
      (Text.byteLength value ≤ units.decimals)
    check "fractional XPQ part must contain digits only" (value.all Char.isDigit)
    (Text.parseUnsigned u64Max (value ++ List.replicate (units.decimals - value.length) '0')).mapError
      ("fractional XPQ part is invalid: " ++ ·)

def parseXpqAmount (value : String) : Except String Nat := do
  let value := Text.trim value.toList
  check "amount is empty" (! value.isEmpty)
  check "amount cannot be negative" (value.head? ≠ some '-')
  let parts := value.splitOn '.'
  let whole := parts.headD []
  let fractional := parts[1]?
  check "amount has more than one decimal point" parts[2]?.isNone
  check "amount is empty" (! (whole.isEmpty && fractional.all List.isEmpty))
  check "whole XPQ part must contain digits only" (whole.all Char.isDigit)
  let wholeUnits ← parseWholePart whole
  let fractionalUnits ← parseFractionalPart units fractional
  present "amount is too large" ((checkedMul wholeUnits units.xpq).bind (checkedAdd · fractionalUnits))

def parseAmount (value : Option String) (flag : String) : Except String Nat := do
  let value ← present ("missing value for " ++ flag) value
  (parseXpqAmount units value).mapError fun error => "invalid XPQ amount for " ++ flag ++ ": " ++ error

def parseFee (value : Option String) : Except String Nat := do
  let value ← present "missing value for --fee" value
  if Text.eqIgnoreAsciiCase value.toList "auto".toList then return defaultTransactionFee units
  else (parseXpqAmount units value).mapError ("invalid XPQ amount for --fee: " ++ ·)

inductive QCashDenomination
  | one | two | five | ten | twenty | fifty | oneHundred | fiveHundred | oneThousand | fiveThousand
  | tenThousand | fiftyThousand | oneHundredThousand | fiveHundredThousand | oneMillion
  deriving DecidableEq, Repr

namespace QCashDenomination

/-- `xpq` of the protocol crate: the numbers that `parse_qcash_denominations` reads. The wallet's tests check the
values of the first, the third and the last. -/
def xpq : QCashDenomination → Nat
  | one => 1
  | two => 2
  | five => 5
  | ten => 10
  | twenty => 20
  | fifty => 50
  | oneHundred => 100
  | fiveHundred => 500
  | oneThousand => 1000
  | fiveThousand => 5000
  | tenThousand => 10000
  | fiftyThousand => 50000
  | oneHundredThousand => 100000
  | fiveHundredThousand => 500000
  | oneMillion => 1000000

/-- `amount` of the protocol crate, as the wallet's tests of the two plans have it. -/
def amount (units : Units) (denomination : QCashDenomination) : Nat := denomination.xpq * units.xpq

end QCashDenomination

def parseQcashDenomination (value : String) : Except String QCashDenomination :=
  match value with
  | "1" => .ok .one
  | "2" => .ok .two
  | "5" => .ok .five
  | "10" => .ok .ten
  | "20" => .ok .twenty
  | "50" => .ok .fifty
  | "100" => .ok .oneHundred
  | "500" => .ok .fiveHundred
  | "1000" => .ok .oneThousand
  | "5000" => .ok .fiveThousand
  | "10000" => .ok .tenThousand
  | "50000" => .ok .fiftyThousand
  | "100000" => .ok .oneHundredThousand
  | "500000" => .ok .fiveHundredThousand
  | "1000000" => .ok .oneMillion
  | value => .error ("unsupported QCash denomination `" ++ value ++
      "`; use 1,2,5,10,20,50,100,500,1000,5000,10000,50000,100000,500000,1000000")

def commaItems (value : List Char) : List (List Char) := ((value.splitOn ',').map Text.trim).filter (! ·.isEmpty)

def sortDescending (denominations : List QCashDenomination) : List QCashDenomination :=
  denominations.mergeSort fun a b => decide (b.xpq ≤ a.xpq)

-- `MAX_QCASH_WITHDRAWAL_OUTPUTS` of the protocol crate
variable (maxOutputs : Nat)

def parseQcashDenominations (value : List Char) : Except String (List QCashDenomination) := do
  let denominations ← (commaItems value).mapM fun item => parseQcashDenomination (String.ofList item)
  check "at least one QCash denomination is required" (! denominations.isEmpty)
  check "too many QCash denominations selected" (denominations.length ≤ maxOutputs)
  return (sortDescending denominations).destutter (· ≠ ·)

inductive QCashDenominationSelection
  | allowed (denominations : List QCashDenomination)
  | exact (denominations : List QCashDenomination)
  deriving DecidableEq, Repr

def isCountMark (char : Char) : Bool := char == 'x' || char == 'X'

def pushCountItem (outputs : List QCashDenomination) (item : List Char) :
    Except String (List QCashDenomination) := do
  let text := String.ofList item
  let (denomination, count) ← present ("invalid denomination count `" ++ text ++ "`; use DENOMxCOUNT")
    (Text.splitOnceAt isCountMark item)
  let parsed ← parseQcashDenominations maxOutputs denomination
  let denomination ← present ("missing denomination in `" ++ text ++ "`") parsed.head?
  let count ← (Text.parseUnsigned u64Max (Text.trim count)).mapError fun _ =>
    "invalid denomination count in `" ++ text ++ "`"
  check ("denomination count must be positive in `" ++ text ++ "`") (count ≠ 0)
  check ("denomination counts require more than " ++ toString maxOutputs ++ " cash files")
    (saturatingAdd outputs.length count ≤ maxOutputs)
  return outputs ++ List.replicate count denomination

def parseQcashDenominationSelection (value : String) : Except String QCashDenominationSelection := do
  if value.toList.any isCountMark then
    let outputs ← (commaItems value.toList).foldlM (pushCountItem maxOutputs) []
    check "at least one denomination count is required" (! outputs.isEmpty)
    return .exact (sortDescending outputs)
  else
    return .allowed (← parseQcashDenominations maxOutputs value.toList)

/-- The amount that is paid in cash, the rest, and the denominations. -/
abbrev WithdrawPlan := Nat × Nat × List QCashDenomination

variable (units : Units)

def takeDenomination (planned : Nat × List QCashDenomination) (denomination : QCashDenomination) :
    Except String (Nat × List QCashDenomination) := do
  let unit := denomination.amount units
  let count := planned.1 / unit
  check ("selected denominations require more than " ++ toString maxOutputs ++ " cash files")
    (saturatingAdd planned.2.length count ≤ maxOutputs)
  return (planned.1 % unit, planned.2 ++ List.replicate count denomination)

def planSelectedQcashDenominations (requestedAmount : Nat) (allowedDenominations : List QCashDenomination) :
    Except String WithdrawPlan := do
  let (remaining, outputs) ← allowedDenominations.foldlM (takeDenomination maxOutputs units) (requestedAmount, [])
  let qcashAmount := requestedAmount - remaining
  check "selected denominations cannot represent the requested amount" (! (outputs.isEmpty || qcashAmount == 0))
  return (qcashAmount, remaining, outputs)

def planExactQcashDenominations (requestedAmount : Nat) (denominations : List QCashDenomination) :
    Except String WithdrawPlan := do
  let qcashAmount ← denominations.foldlM (fun total denomination =>
    present "explicit QCash denomination total overflowed" (checkedAdd total (denomination.amount units))) 0
  let requestedCashAmount := requestedAmount - requestedAmount % units.xpq
  check ("explicit denominations total " ++ toString (qcashAmount / units.xpq) ++
      " XPQ, but requested cash amount is " ++ toString (requestedCashAmount / units.xpq) ++ " XPQ")
    (qcashAmount = requestedCashAmount)
  return (qcashAmount, requestedAmount - qcashAmount, denominations)

section Digits

variable {max total number : Nat} {digits : List Char} (hdigits : digits.all Char.isDigit)

include hdigits

theorem foldlM_pushDigit_eq_ok (htotal : total ≤ max) :
    digits.foldlM (Text.pushDigit max) total = .ok number ↔
      Nat.ofDigitChars 10 digits total = number ∧ number ≤ max := by
  induction digits generalizing total with
  | nil =>
    refine ⟨?_, fun h => congrArg Except.ok h.1⟩
    rintro ⟨⟩
    exact ⟨rfl, htotal⟩
  | cons digit rest ih =>
    rw [List.all_cons, Bool.and_eq_true] at hdigits
    rw [List.foldlM_cons, except_bind_eq_ok, Nat.ofDigitChars_cons, Nat.mul_comm 10]
    simp only [Text.pushDigit, hdigits.1, if_true]
    by_cases hfits : total * 10 + (digit.toNat - '0'.toNat) ≤ max
    · simp only [if_pos hfits, Except.ok.injEq, exists_eq_left', ih hdigits.2 hfits]
    · -- a number that is too large stays so with more digits
      rw [if_neg hfits, Nat.ofDigitChars_eq_ofDigitChars_zero]
      have hgrows := Nat.le_mul_of_pos_left (total * 10 + (digit.toNat - '0'.toNat))
        (Nat.pow_pos (n := rest.length) (show 0 < 10 by decide))
      refine iff_of_false (by simp) ?_
      omega

theorem parseUnsigned_eq_ok (hsome : digits ≠ []) :
    Text.parseUnsigned max digits = .ok number ↔ Nat.ofDigitChars 10 digits 0 = number ∧ number ≤ max := by
  rw [← foldlM_pushDigit_eq_ok hdigits (Nat.zero_le max)]
  unfold Text.parseUnsigned
  split
  · exact absurd rfl hsome
  · simp at hdigits
  · simp at hdigits
  · rfl

theorem byteLength_of_digits : Text.byteLength digits = digits.length := by
  have hsize : ∀ digit ∈ digits, digit.utf8Size = 1 := by
    intro digit hdigit
    have hrange := Char.isDigit_iff_toNat.mp (List.all_eq_true.mp hdigits digit hdigit)
    exact Char.utf8Size_eq_one_iff.mpr (UInt32.le_iff_toNat_le.mpr (Nat.le_trans hrange.2 (by decide)))
  rw [Text.byteLength, List.map_eq_replicate_iff.mpr hsize, List.sum_replicate_nat, Nat.mul_one]

end Digits

section Parsing

variable {units : Units} {text whole fraction : List Char} {amount : Nat}

theorem parseWholePart_eq_ok (hdigits : whole.all Char.isDigit) :
    parseWholePart whole = .ok amount ↔ Nat.ofDigitChars 10 whole 0 = amount ∧ amount ≤ u64Max := by
  unfold parseWholePart
  cases whole with
  | nil => simp [eq_comm]; omega
  | cons digit rest =>
    rw [if_neg (by simp), mapError_eq_ok, parseUnsigned_eq_ok hdigits (List.cons_ne_nil _ _)]

theorem parseFractionalPart_eq_ok {fractional : Option (List Char)} (hfraction : fractional.getD [] = fraction) :
    parseFractionalPart units fractional = .ok amount ↔
      fraction.all Char.isDigit ∧ fraction.length ≤ units.decimals ∧
        10 ^ (units.decimals - fraction.length) * Nat.ofDigitChars 10 fraction 0 = amount ∧ amount ≤ u64Max := by
  have hempty : (0 = amount) ↔ (0 = amount ∧ amount ≤ u64Max) := ⟨fun h => ⟨h, by omega⟩, And.left⟩
  subst hfraction
  match fractional with
  | none => simpa [parseFractionalPart] using hempty
  | some [] => simpa [parseFractionalPart] using hempty
  | some (digit :: rest) =>
    simp only [parseFractionalPart, except_bind_eq_ok, check_eq_ok, mapError_eq_ok, decide_eq_true_eq,
      exists_const, Option.getD_some]
    rw [and_left_comm]
    refine and_congr_right fun hdigits => ?_
    rw [byteLength_of_digits hdigits, parseUnsigned_eq_ok (by simpa using hdigits) (by simp),
      Nat.ofDigitChars_append, Nat.ofDigitChars_replicate_zero]

/-- The text is a numeral with the given digits before and after its point. -/
structure Numeral (decimals : Nat) (text whole fraction : List Char) : Prop where
  shape : text = whole ∧ fraction = [] ∨ text = whole ++ '.' :: fraction
  digits : (whole ++ fraction).all Char.isDigit
  some_digit : whole ++ fraction ≠ []
  fraction_le : fraction.length ≤ decimals

theorem Numeral.splitOn (h : Numeral units.decimals text whole fraction) :
    ∃ fractional : Option (List Char), fractional.getD [] = fraction ∧
      text.splitOn '.' = whole :: fractional.toList := by
  have hpoint : ∀ {digits : List Char}, digits.all Char.isDigit → '.' ∉ digits := by
    intro digits hdigits hmem
    exact absurd (List.all_eq_true.mp hdigits '.' hmem) (by decide)
  have hdigits := h.digits
  rw [List.all_append, Bool.and_eq_true] at hdigits
  rcases h.shape with ⟨rfl, rfl⟩ | rfl
  · exact ⟨none, rfl, List.splitOn_eq_singleton (hpoint hdigits.1)⟩
  · refine ⟨some fraction, rfl, ?_⟩
    rw [List.splitOn_append_cons_self_of_not_mem (hpoint hdigits.1), List.splitOn_eq_singleton (hpoint hdigits.2)]
    rfl

theorem checkedSum_eq_some {wholeUnits fractionalUnits : Nat} :
    (checkedMul wholeUnits units.xpq).bind (checkedAdd · fractionalUnits) = some amount ↔
      wholeUnits * units.xpq + fractionalUnits = amount ∧ amount ≤ u64Max := by
  simp only [checkedMul, checkedAdd, Option.bind_eq_some_iff, Option.ite_none_right_eq_some, Option.some.injEq]
  constructor
  · rintro ⟨_, ⟨_, rfl⟩, hfits, rfl⟩
    exact ⟨rfl, hfits⟩
  · rintro ⟨rfl, hfits⟩
    exact ⟨_, ⟨by omega, rfl⟩, hfits, rfl⟩

variable (hxpq : units.xpq = 10 ^ units.decimals)

include hxpq

theorem scaled_eq_iff (hfraction : fraction.length ≤ units.decimals) :
    Nat.ofDigitChars 10 whole 0 * units.xpq +
        10 ^ (units.decimals - fraction.length) * Nat.ofDigitChars 10 fraction 0 = amount ↔
      amount * 10 ^ fraction.length = Nat.ofDigitChars 10 (whole ++ fraction) 0 * units.xpq := by
  have hvalue : Nat.ofDigitChars 10 (whole ++ fraction) 0 =
      10 ^ fraction.length * Nat.ofDigitChars 10 whole 0 + Nat.ofDigitChars 10 fraction 0 := by
    rw [Nat.ofDigitChars_append]
    exact Nat.ofDigitChars_eq_ofDigitChars_zero
  have hscale : 10 ^ units.decimals = 10 ^ (units.decimals - fraction.length) * 10 ^ fraction.length := by
    rw [← Nat.pow_add, Nat.sub_add_cancel hfraction]
  rw [← Nat.mul_right_cancel_iff (show 0 < 10 ^ fraction.length from Nat.pow_pos (by decide)), eq_comm, hvalue,
    hxpq, hscale, Nat.add_mul, Nat.add_mul]
  refine Eq.congr_right ?_
  congr 1 <;> ac_rfl

theorem parseXpqAmount_parts {value : String}
    (fractional : Option (List Char)) (hfraction : fractional.getD [] = fraction)
    (hparts : (Text.trim value.toList).splitOn '.' = whole :: fractional.toList) :
    parseXpqAmount units value = .ok amount ↔
      Numeral units.decimals (Text.trim value.toList) whole fraction ∧
        amount * 10 ^ fraction.length = Nat.ofDigitChars 10 (whole ++ fraction) 0 * units.xpq ∧
        amount ≤ u64Max := by
  have hshape : Text.trim value.toList = whole ∧ fraction = [] ∨
      Text.trim value.toList = whole ++ '.' :: fraction := by
    have hjoin : ['.'].intercalate ((Text.trim value.toList).splitOn '.') = Text.trim value.toList :=
      List.intercalate_splitOn '.'
    rw [hparts] at hjoin
    cases fractional with
    | none => exact .inl ⟨by simpa [List.intercalate] using hjoin.symm, hfraction.symm⟩
    | some _ =>
      cases hfraction
      exact .inr (by simpa [List.intercalate] using hjoin.symm)
  have hsecond : (whole :: fractional.toList)[1]? = fractional := by cases fractional <;> rfl
  have hthird : (whole :: fractional.toList)[2]? = none := by cases fractional <;> rfl
  have hempty : fractional.all List.isEmpty = fraction.isEmpty := by
    subst hfraction
    cases fractional <;> rfl
  simp only [parseXpqAmount, hparts, hsecond, hthird, List.headD_cons, except_bind_eq_ok, check_eq_ok,
    present_eq_ok, checkedSum_eq_some, exists_const, parseFractionalPart_eq_ok hfraction, hempty]
  constructor
  · rintro ⟨-, -, -, hsome, hdigits, _, hwhole, _, ⟨hdigits', hlength, hvalue, -⟩, hsum, hfits⟩
    obtain ⟨rfl, -⟩ := (parseWholePart_eq_ok hdigits).mp hwhole
    rw [← hvalue, scaled_eq_iff hxpq hlength] at hsum
    refine ⟨⟨hshape, by rw [List.all_append, hdigits, hdigits']; rfl, ?_, hlength⟩, hsum, hfits⟩
    rintro hnone
    obtain ⟨rfl, rfl⟩ := List.append_eq_nil_iff.mp hnone
    cases hsome
  · rintro ⟨hnumeral, hvalue, hfits⟩
    have hdigits := hnumeral.digits
    rw [List.all_append, Bool.and_eq_true] at hdigits
    rw [← scaled_eq_iff hxpq hnumeral.fraction_le] at hvalue
    have hwhole : Nat.ofDigitChars 10 whole 0 ≤ Nat.ofDigitChars 10 whole 0 * units.xpq :=
      Nat.le_mul_of_pos_right _ (hxpq ▸ Nat.pow_pos (by decide))
    have hchars : ∀ char ∈ Text.trim value.toList, char.isDigit ∨ char = '.' := by
      simp only [List.all_eq_true] at hdigits
      rcases hshape with ⟨htext, -⟩ | htext
      all_goals simp only [htext, List.mem_append, List.mem_cons]
      · exact fun char hchar => .inl (hdigits.1 char hchar)
      · rintro char (hchar | rfl | hchar)
        · exact .inl (hdigits.1 char hchar)
        · exact .inr rfl
        · exact .inl (hdigits.2 char hchar)
    refine ⟨?_, decide_eq_true fun hhead => ?_, rfl, ?_, hdigits.1, _,
      (parseWholePart_eq_ok hdigits.1).mpr ⟨rfl, by omega⟩, _,
      ⟨hdigits.2, hnumeral.fraction_le, rfl, by omega⟩, hvalue, hfits⟩
    · rcases hshape with ⟨htext, rfl⟩ | htext
      · simpa [htext] using hnumeral.some_digit
      · simp [htext]
    · have hminus := hchars '-' (List.mem_of_mem_head? hhead)
      simp at hminus
    · have hsome := hnumeral.some_digit
      cases whole <;> simp_all

theorem parseXpqAmount_eq_ok {value : String} :
    parseXpqAmount units value = .ok amount ↔
      ∃ whole fraction, Numeral units.decimals (Text.trim value.toList) whole fraction ∧
        amount * 10 ^ fraction.length = Nat.ofDigitChars 10 (whole ++ fraction) 0 * units.xpq ∧
        amount ≤ u64Max := by
  constructor
  · intro h
    match hsplit : (Text.trim value.toList).splitOn '.' with
    | [] => exact absurd hsplit (List.splitOn_ne_nil _ _)
    | [whole] => exact ⟨whole, [], (parseXpqAmount_parts hxpq none rfl hsplit).mp h⟩
    | [whole, fraction] =>
      exact ⟨whole, fraction, (parseXpqAmount_parts hxpq (some fraction) rfl hsplit).mp h⟩
    | _ :: _ :: _ :: _ => simp [parseXpqAmount, hsplit] at h
  · rintro ⟨whole, fraction, h⟩
    obtain ⟨fractional, hfraction, hparts⟩ := h.1.splitOn
    exact (parseXpqAmount_parts hxpq fractional hfraction hparts).mpr h

end Parsing

def formatGroupedU64 (value : Nat) : List Char :=
  let digits := (toString value).toList
  digits.zipIdx.flatMap fun (digit, index) =>
    if 0 < index ∧ (digits.length - index) % 3 = 0 then [',', digit] else [digit]

def formatXpq (units : Units) (amount : Nat) : String :=
  String.ofList (formatGroupedU64 (amount / units.xpq) ++ '.' ::
    (toString (amount % units.xpq)).toList.leftpad units.decimals '0' ++ " XPQ".toList)

def plainAmount (text : String) : String := String.ofList ((text.toList.rdrop " XPQ".length).filter (· ≠ ','))

theorem toDigits_all_isDigit (value : Nat) : (Nat.toDigits 10 value).all Char.isDigit :=
  List.all_eq_true.mpr fun _ hmem => Nat.isDigit_of_mem_toDigits (by decide) (by decide) hmem

theorem filter_ne_comma {digits : List Char} (hdigits : digits.all Char.isDigit) :
    digits.filter (· ≠ ',') = digits := by
  refine List.filter_eq_self.mpr fun digit hdigit => decide_eq_true ?_
  rintro rfl
  exact absurd (List.all_eq_true.mp hdigits ',' hdigit) (by decide)

theorem filter_formatGroupedU64 (value : Nat) : (formatGroupedU64 value).filter (· ≠ ',') = Nat.toDigits 10 value := by
  have hdigits := filter_ne_comma (toDigits_all_isDigit value)
  generalize htext : Nat.toDigits 10 value = digits at *
  simp only [formatGroupedU64, Nat.toString_eq_repr, Nat.toList_repr, htext, List.filter_flatMap]
  calc
    _ = digits.zipIdx.flatMap fun item => [item.1].filter (· ≠ ',') := by
      congr 1
      funext item
      split <;> simp
    _ = (digits.zipIdx.flatMap fun item => [item.1]).filter (· ≠ ',') := by rw [List.filter_flatMap]
    _ = (digits.zipIdx.map Prod.fst).filter (· ≠ ',') := by rw [List.map_eq_flatMap]
    _ = digits := by rw [List.zipIdx_map_fst, hdigits]

theorem isWhitespace_of_isDigit {digit : Char} (h : digit.isDigit) : Text.isWhitespace digit = false := by
  obtain ⟨hlow, hhigh⟩ := Char.isDigit_iff_toNat.mp h
  simp only [show '0'.toNat = 48 from rfl, show '9'.toNat = 57 from rfl] at hlow hhigh
  simp only [Text.isWhitespace, Bool.or_eq_false_iff, Bool.and_eq_false_iff, decide_eq_false_iff_not,
    beq_eq_false_iff_ne]
  omega

theorem trim_eq_self {text : List Char} (h : ∀ char ∈ text, Text.isWhitespace char = false) :
    Text.trim text = text := by
  have hstart : text.dropWhile Text.isWhitespace = text := by
    cases text with
    | nil => rfl
    | cons char rest => rw [List.dropWhile_cons_of_neg (by simp [h])]
  rw [Text.trim, hstart, List.rdropWhile_eq_self_iff]
  exact fun hsome => by simp [h _ (List.getLast_mem hsome)]

theorem parseXpqAmount_exact {units : Units} (hxpq : units.xpq = 10 ^ units.decimals) :
    (∀ value amount, parseXpqAmount units value = .ok amount ↔
      ∃ whole fraction, Numeral units.decimals (Text.trim value.toList) whole fraction ∧
        amount * 10 ^ fraction.length = Nat.ofDigitChars 10 (whole ++ fraction) 0 * units.xpq ∧
        amount ≤ u64Max) ∧
    (0 < units.decimals →
      ∀ amount ≤ u64Max, parseXpqAmount units (plainAmount (formatXpq units amount)) = .ok amount) := by
  refine ⟨fun value amount => parseXpqAmount_eq_ok hxpq, fun hdecimals amount hfits => ?_⟩
  let whole := Nat.toDigits 10 (amount / units.xpq)
  let fraction := (Nat.toDigits 10 (amount % units.xpq)).leftpad units.decimals '0'
  have hwhole : whole.all Char.isDigit := toDigits_all_isDigit _
  have hfraction : fraction.all Char.isDigit := by
    simp [fraction, List.leftpad, List.all_append, toDigits_all_isDigit]
  have hplain : (plainAmount (formatXpq units amount)).toList = whole ++ '.' :: fraction := by
    simp only [plainAmount, formatXpq, String.toList_ofList]
    rw [show " XPQ".length = " XPQ".toList.length from rfl, List.rdrop_append_length, List.filter_append,
      filter_formatGroupedU64, List.filter_cons_of_pos (by decide), Nat.toString_eq_repr, Nat.toList_repr]
    exact congrArg (whole ++ '.' :: ·) (filter_ne_comma hfraction)
  have hlength : fraction.length = units.decimals := by
    have hshort : (Nat.toDigits 10 (amount % units.xpq)).length ≤ units.decimals :=
      (Nat.length_toDigits_le_iff (by decide) hdecimals).mpr (hxpq ▸ Nat.mod_lt _ (hxpq ▸ Nat.pow_pos (by decide)))
    simp [fraction, List.leftpad]
    omega
  have hvalue : Nat.ofDigitChars 10 (whole ++ fraction) 0 = amount := by
    rw [Nat.ofDigitChars_append, Nat.ofDigitChars_eq_ofDigitChars_zero, Nat.ofDigitChars_ten_toDigits, hlength,
      show Nat.ofDigitChars 10 fraction 0 = amount % units.xpq by
        simp [fraction, List.leftpad, Nat.ofDigitChars_append, Nat.ofDigitChars_replicate_zero]]
    exact hxpq ▸ Nat.div_add_mod amount units.xpq
  refine (parseXpqAmount_eq_ok hxpq).mpr ⟨whole, fraction, ⟨?_, ?_, ?_, Nat.le_of_eq hlength⟩, ?_, hfits⟩
  · rw [hplain, trim_eq_self]
    · exact .inr rfl
    · simp only [List.all_eq_true] at hwhole hfraction
      simp only [List.mem_append, List.mem_cons]
      rintro char (hchar | rfl | hchar)
      · exact isWhitespace_of_isDigit (hwhole char hchar)
      · decide
      · exact isWhitespace_of_isDigit (hfraction char hchar)
  · rw [List.all_append, hwhole, hfraction]
    rfl
  · exact List.append_ne_nil_of_left_ne_nil Nat.toDigits_ne_nil _
  · rw [hvalue, hlength, hxpq]

theorem parseXpqAmount_exact_sample :
    parseXpqAmount ⟨6, 1000000⟩ (plainAmount (formatXpq ⟨6, 1000000⟩ 1234567890123)) = .ok 1234567890123 :=
  (parseXpqAmount_exact (by decide)).2 (by decide) 1234567890123 (by decide)

example : formatXpq ⟨6, 1000000⟩ 1050010000 = "1,050.010000 XPQ" := by decide +kernel

end PaqusNetwork
