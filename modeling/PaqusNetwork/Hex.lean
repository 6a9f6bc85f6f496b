import Mathlib.Tactic.IntervalCases

namespace PaqusNetwork

/-- `encode` and `decode` of the `hex` crate, as its documentation has them: two lower case digits a byte, and digits
of either case read back. -/
def hexEncode (bytes : List UInt8) : String :=
  String.ofList (bytes.flatMap fun byte =>
    [Nat.digitChar (byte.toNat / 16), Nat.digitChar (byte.toNat % 16)])

def hexValue (digit : Char) : Option Nat :=
  if '0' ≤ digit ∧ digit ≤ '9' then some (digit.toNat - 48)
  else if 'a' ≤ digit ∧ digit ≤ 'f' then some (digit.toNat - 87)
  else if 'A' ≤ digit ∧ digit ≤ 'F' then some (digit.toNat - 55)
  else none

def hexBytes : List Char → Option (List UInt8)
  | [] => some []
  | [_] => none
  | high :: low :: rest => do
    let highValue ← hexValue high
    let lowValue ← hexValue low
    let bytes ← hexBytes rest
    return UInt8.ofNat (16 * highValue + lowValue) :: bytes

def hexDecode (text : String) : Option (List UInt8) := hexBytes text.toList

theorem hexValue_digitChar {digit : Nat} (h : digit < 16) : hexValue (Nat.digitChar digit) = some digit := by
  interval_cases digit <;> rfl

theorem hexDecode_hexEncode (bytes : List UInt8) : hexDecode (hexEncode bytes) = some bytes := by
  unfold hexDecode hexEncode
  rw [String.toList_ofList]
  induction bytes with
  | nil => rfl
  | cons byte rest ih =>
    have hbyte := byte.toNat_lt
    have hhigh := hexValue_digitChar (show byte.toNat / 16 < 16 by omega)
    have hlow := hexValue_digitChar (show byte.toNat % 16 < 16 by omega)
    have hvalue : 16 * (byte.toNat / 16) + byte.toNat % 16 = byte.toNat := by omega
    rw [List.flatMap_cons, List.cons_append, List.cons_append, List.nil_append, hexBytes, hhigh, hlow, ih]
    show some (UInt8.ofNat (16 * (byte.toNat / 16) + byte.toNat % 16) :: rest) = some (byte :: rest)
    rw [hvalue, UInt8.ofNat_toNat]

theorem digitChar_hexValue {digit : Char} {value : Nat} (h : hexValue digit = some value) :
    value < 16 ∧ (Nat.digitChar value = digit ↔ digit.isUpper = false) := by
  have hcode := Char.ofNat_toNat digit
  unfold hexValue at h
  split_ifs at h with hdecimal hlower hupper
  · obtain ⟨_, _⟩ : 48 ≤ digit.toNat ∧ digit.toNat ≤ 57 := hdecimal
    rw [← hcode] at h ⊢
    interval_cases digit.toNat <;> cases h <;> decide
  · obtain ⟨_, _⟩ : 97 ≤ digit.toNat ∧ digit.toNat ≤ 102 := hlower
    rw [← hcode] at h ⊢
    interval_cases digit.toNat <;> cases h <;> decide
  · obtain ⟨_, _⟩ : 65 ≤ digit.toNat ∧ digit.toNat ≤ 70 := hupper
    rw [← hcode] at h ⊢
    interval_cases digit.toNat <;> cases h <;> decide

theorem hexEncode_eq_iff {text : String} {bytes : List UInt8} (h : hexDecode text = some bytes) :
    hexEncode bytes = text ↔ ∀ char ∈ text.toList, char.isUpper = false := by
  unfold hexDecode at h
  rw [hexEncode, ← String.toList_inj, String.toList_ofList]
  generalize text.toList = chars at h ⊢
  induction chars using hexBytes.induct generalizing bytes with
  | case1 => cases h; simp
  | case2 => cases h
  | case3 high low rest ih =>
    simp only [hexBytes, Option.bind_eq_bind, Option.bind_eq_some_iff] at h
    obtain ⟨a, ha, b, hb, tail, htail, hbytes⟩ := h
    cases hbytes
    obtain ⟨hlt, hhigh⟩ := digitChar_hexValue ha
    obtain ⟨hlt', hlow⟩ := digitChar_hexValue hb
    have hvalue : (UInt8.ofNat (16 * a + b)).toNat = 16 * a + b := by
      rw [UInt8.toNat_ofNat']
      omega
    rw [List.flatMap_cons, hvalue, show (16 * a + b) / 16 = a by omega, show (16 * a + b) % 16 = b by omega]
    simp [hhigh, hlow, ih htail]

end PaqusNetwork
