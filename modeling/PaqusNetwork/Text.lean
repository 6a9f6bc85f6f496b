import Mathlib.Data.List.Destutter
import Mathlib.Data.List.DropRight
import PaqusNetwork.Numeric

namespace Text

def isWhitespace (char : Char) : Bool :=
  let code := char.toNat
  (9 ≤ code && code ≤ 13) || code == 0x20 || code == 0x85 || code == 0xA0 || code == 0x1680 ||
    (0x2000 ≤ code && code ≤ 0x200A) || code == 0x2028 || code == 0x2029 || code == 0x202F ||
    code == 0x205F || code == 0x3000

def trim (text : List Char) : List Char := (text.dropWhile isWhitespace).rdropWhile isWhitespace

def splitWhitespace (text : List Char) : List (List Char) := (text.splitOnP isWhitespace).filter (! ·.isEmpty)

def lines (text : List Char) : List (List Char) :=
  let pieces := text.splitOn '\n'
  pieces.dropLast.map (fun line => if line.getLast? = some '\r' then line.dropLast else line) ++
    (pieces.getLast?.filter (! ·.isEmpty)).toList

def position {α : Type} [DecidableEq α] (pattern : List α) : List α → Option Nat
  | [] => if pattern = [] then some 0 else none
  | item :: rest =>
    if pattern.isPrefixOf (item :: rest) then some 0 else (position pattern rest).map (· + 1)

def splitOnce {α : Type} [DecidableEq α] (pattern text : List α) : Option (List α × List α) :=
  (position pattern text).map fun index => (text.take index, text.drop (index + pattern.length))

/-- What stands before and after the first character of a kind. -/
def splitOnceAt (isSeparator : Char → Bool) (text : List Char) : Option (List Char × List Char) :=
  match text.dropWhile (! isSeparator ·) with
  | [] => none
  | _ :: rest => some (text.takeWhile (! isSeparator ·), rest)

def eqIgnoreAsciiCase (a b : List Char) : Bool := a.map Char.toLower == b.map Char.toLower

def byteLength (text : List Char) : Nat := (text.map Char.utf8Size).sum

/-- One more decimal digit of a number that has to stay in its range. -/
def pushDigit (max total : Nat) (char : Char) : Except String Nat :=
  if char.isDigit then
    let next := total * 10 + (char.toNat - '0'.toNat)
    if next ≤ max then .ok next else .error "number too large to fit in target type"
  else .error "invalid digit found in string"

/-- An unsigned integer from its decimal text, with or without a plus sign. -/
def parseUnsigned (max : Nat) : List Char → Except String Nat
  | [] => .error "cannot parse integer from empty string"
  | ['+'] => .error "invalid digit found in string"
  | '+' :: digits => digits.foldlM (pushDigit max) 0
  | digits => digits.foldlM (pushDigit max) 0

section Position

variable {α : Type} [DecidableEq α] {pattern text : List α} {index : Nat}

theorem position_split (h : position pattern text = some index) :
    ∃ before after, before.length = index ∧ text = before ++ pattern ++ after := by
  induction text generalizing index with
  | nil =>
    simp only [position, Option.ite_none_right_eq_some, Option.some.injEq] at h
    obtain ⟨rfl, rfl⟩ := h
    exact ⟨[], [], rfl, rfl⟩
  | cons item text ih =>
    rw [position] at h
    split at h
    next hmatch =>
      obtain ⟨after, hafter⟩ := List.isPrefixOf_iff_prefix.mp hmatch
      cases h
      exact ⟨[], after, rfl, hafter.symm⟩
    next =>
      obtain ⟨later, hlater, rfl⟩ := Option.map_eq_some_iff.mp h
      obtain ⟨before, after, rfl, rfl⟩ := ih hlater
      exact ⟨item :: before, after, rfl, rfl⟩

theorem position_le (before pattern after : List α) :
    ∃ index ≤ before.length, position pattern (before ++ pattern ++ after) = some index := by
  induction before with
  | nil =>
    refine ⟨0, Nat.le_refl _, ?_⟩
    rw [List.nil_append]
    cases hall : pattern ++ after with
    | nil => simp [position, (List.append_eq_nil_iff.mp hall).1]
    | cons item rest =>
      have hmatch : pattern <+: item :: rest := ⟨after, hall⟩
      rw [position, if_pos (List.isPrefixOf_iff_prefix.mpr hmatch)]
  | cons item before ih =>
    obtain ⟨index, hle, hindex⟩ := ih
    rw [List.cons_append, List.cons_append, position, hindex]
    split
    · exact ⟨0, Nat.zero_le _, rfl⟩
    · exact ⟨index + 1, Nat.succ_le_succ hle, rfl⟩

theorem position_append (h : position pattern text = some index) (rest : List α) :
    position pattern (text ++ rest) = some index := by
  obtain ⟨before, after, rfl, rfl⟩ := position_split h
  obtain ⟨first, hle, hfirst⟩ := position_le before pattern (after ++ rest)
  rw [List.append_assoc _ after, hfirst]
  obtain ⟨before', after', rfl, hsplit⟩ := position_split hfirst
  -- What the longer text starts with up to the pattern is no longer than the text, so the text has it too.
  have hshort : before' ++ pattern <+: before ++ pattern ++ after := by
    refine List.prefix_of_prefix_length_le ⟨after', hsplit.symm⟩ ⟨rest, List.append_assoc _ _ _⟩ ?_
    simp only [List.length_append]
    omega
  obtain ⟨others, hothers⟩ := hshort
  obtain ⟨index, hindex, hposition⟩ := position_le before' pattern others
  rw [hothers, h] at hposition
  cases hposition
  rw [Nat.le_antisymm hle hindex]

end Position

theorem utf8_cancel {text start : List Char} {rest : List UInt8}
    (h : text.flatMap String.utf8EncodeChar = start.flatMap String.utf8EncodeChar ++ rest) :
    ∃ later, text = start ++ later ∧ rest = later.flatMap String.utf8EncodeChar := by
  induction start generalizing text with
  | nil => exact ⟨text, rfl, h.symm⟩
  | cons char start ih =>
    cases text with
    | nil =>
      have hnil := List.append_eq_nil_iff.mp (List.append_eq_nil_iff.mp h.symm).1
      exact absurd hnil.1 String.utf8EncodeChar_ne_nil
    | cons other text =>
      simp only [List.flatMap_cons, List.append_assoc] at h
      have hdecoded := congrArg (fun bytes => bytes.toByteArray.utf8DecodeChar? 0) h
      simp only [List.toByteArray_append, ByteArray.utf8DecodeChar?_utf8EncodeChar_append,
        Option.some.injEq] at hdecoded
      subst hdecoded
      obtain ⟨later, rfl, hlater⟩ := ih (List.append_cancel_left h)
      exact ⟨later, rfl, hlater⟩

end Text
