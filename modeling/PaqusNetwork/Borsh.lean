import PaqusNetwork.Numeric

namespace Borsh

open Numeric

/-- A value in the layout of the Borsh specification: integers in little-endian order, the length of a list and the
tag of a variant before what they are of. Each takes at least one byte. -/
inductive Value
  | raw (head : UInt8) (tail : List UInt8)
  | record (first : Value) (rest : List Value)
  | vec (items : List Value)

namespace Value

def byte (value : UInt8) : Value := .raw value []

def u32 (n : Nat) : Value := .raw (UInt8.ofNat n) (littleEndian 3 (n / 256))

def u64 (n : Nat) : Value := .raw (UInt8.ofNat n) (littleEndian 7 (n / 256))

def bytes (values : List UInt8) : Value := .vec (values.map byte)

def string (text : String) : Value := bytes text.toUTF8.data.toList

def option {α : Type} (value : α → Value) : Option α → Value
  | none => byte 0
  | some a => .record (byte 1) [value a]

def variant (tag : UInt8) (fields : List Value) : Value := .record (byte tag) fields

mutual

def size : Value → Nat
  | raw _ tail => tail.length + 1
  | record first rest => first.size + sizeAll rest
  | vec items => 4 + sizeAll items

def sizeAll : List Value → Nat
  | [] => 0
  | value :: rest => value.size + sizeAll rest

end

mutual

/-- The bytes of a value. A list whose number of items does not fit its four bytes has none. -/
def encode : Value → Option (List UInt8)
  | raw head tail => some (head :: tail)
  | record first rest => do return (← first.encode) ++ (← encodeAll rest)
  | vec items => do
    let bytes ← encodeAll items
    if items.length ≤ u32Max then some (littleEndian 4 items.length ++ bytes) else none

def encodeAll : List Value → Option (List UInt8)
  | [] => some []
  | value :: rest => do return (← value.encode) ++ (← encodeAll rest)

end

mutual

theorem length_encode : ∀ {value : Value} {bytes : List UInt8}, value.encode = some bytes → bytes.length = value.size
  | raw head tail, bytes, h => by
    cases h
    simp [size]
  | record first rest, bytes, h => by
    rw [encode] at h
    obtain ⟨left, hleft, h⟩ := Option.bind_eq_some_iff.mp h
    obtain ⟨right, hright, h⟩ := Option.bind_eq_some_iff.mp h
    cases h
    rw [List.length_append, length_encode hleft, length_encodeAll hright, size]
  | vec items, bytes, h => by
    rw [encode] at h
    obtain ⟨inner, hinner, h⟩ := Option.bind_eq_some_iff.mp h
    split at h
    next =>
      cases h
      rw [List.length_append, length_littleEndian, length_encodeAll hinner, size]
    next => cases h

theorem length_encodeAll : ∀ {values : List Value} {bytes : List UInt8}, encodeAll values = some bytes →
    bytes.length = sizeAll values
  | [], bytes, h => by
    cases h
    rfl
  | value :: rest, bytes, h => by
    rw [encodeAll] at h
    obtain ⟨left, hleft, h⟩ := Option.bind_eq_some_iff.mp h
    obtain ⟨right, hright, h⟩ := Option.bind_eq_some_iff.mp h
    cases h
    rw [List.length_append, length_encode hleft, length_encodeAll hright, sizeAll]

end

theorem size_pos : ∀ value : Value, 0 < value.size
  | raw head tail => by simp [size]
  | record first rest => by
    have := size_pos first
    rw [size]
    omega
  | vec items => by
    rw [size]
    omega

theorem sizeAll_eq (values : List Value) : sizeAll values = (values.map size).sum := by
  induction values with
  | nil => rfl
  | cons value rest ih => rw [sizeAll, ih, List.map_cons, List.sum_cons]

theorem length_le_sizeAll (values : List Value) : values.length ≤ sizeAll values := by
  induction values with
  | nil => exact Nat.le_refl 0
  | cons value rest ih =>
    have := size_pos value
    rw [sizeAll, List.length_cons]
    omega

mutual

/-- As each item takes a byte, a value of less than 4 GiB has no list that is too long. -/
theorem exists_encode : ∀ {value : Value}, value.size ≤ u32Max → ∃ bytes, value.encode = some bytes
  | raw head tail, _ => ⟨head :: tail, by rw [encode]⟩
  | record first rest, h => by
    rw [size] at h
    obtain ⟨left, hleft⟩ := @exists_encode first (by omega)
    obtain ⟨right, hright⟩ := @exists_encodeAll rest (by omega)
    exact ⟨left ++ right, by rw [encode, hleft, hright]; rfl⟩
  | vec items, h => by
    rw [size] at h
    obtain ⟨inner, hinner⟩ := @exists_encodeAll items (by omega)
    have hcount := length_le_sizeAll items
    refine ⟨littleEndian 4 items.length ++ inner, ?_⟩
    rw [encode, hinner]
    exact if_pos (by omega)

theorem exists_encodeAll : ∀ {values : List Value}, sizeAll values ≤ u32Max → ∃ bytes, encodeAll values = some bytes
  | [], _ => ⟨[], by rw [encodeAll]⟩
  | value :: rest, h => by
    rw [sizeAll] at h
    obtain ⟨left, hleft⟩ := @exists_encode value (by omega)
    obtain ⟨right, hright⟩ := @exists_encodeAll rest (by omega)
    exact ⟨left ++ right, by rw [encodeAll, hleft, hright]; rfl⟩

end

@[simp] theorem size_byte (value : UInt8) : (byte value).size = 1 := rfl

@[simp] theorem size_u32 (n : Nat) : (u32 n).size = 4 := rfl

@[simp] theorem size_u64 (n : Nat) : (u64 n).size = 8 := rfl

@[simp] theorem size_bytes (values : List UInt8) : (bytes values).size = 4 + values.length := by
  rw [bytes, size, sizeAll_eq, List.map_map]
  induction values with
  | nil => rfl
  | cons value rest ih =>
    rw [List.map_cons, List.sum_cons, List.length_cons]
    simp only [Function.comp_apply, size_byte]
    omega

@[simp] theorem size_string (text : String) : (string text).size = 4 + text.utf8ByteSize := by
  rw [string, size_bytes]
  rfl

theorem size_vec_map {α : Type} (value : α → Value) (items : List α) :
    (vec (items.map value)).size = 4 + (items.map fun item => (value item).size).sum := by
  rw [size, sizeAll_eq, List.map_map]
  rfl

theorem size_option_le {α : Type} {value : α → Value} {bound : Nat} (h : ∀ a, (value a).size ≤ bound)
    (found : Option α) : (option value found).size ≤ bound + 1 := by
  cases found with
  | none => exact Nat.le_add_left 1 bound
  | some a =>
    have := h a
    simp only [option, size, sizeAll, size_byte]
    omega

end Value

end Borsh
