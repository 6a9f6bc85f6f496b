import Mathlib.Algebra.GroupWithZero.Nat
import Mathlib.Order.Defs.LinearOrder

namespace Numeric

/-- The largest value of a 64-bit unsigned integer; `usize` has the same width. -/
def u64Max : Nat := 2 ^ 64 - 1

def u32Max : Nat := 2 ^ 32 - 1

def saturatingAdd (a b : Nat) : Nat := min (a + b) u64Max

def saturatingMul (a b : Nat) : Nat := min (a * b) u64Max

def u32SaturatingAdd (a b : Nat) : Nat := min (a + b) u32Max

def bigEndian : Nat → Nat → List UInt8
  | 0, _ => []
  | size + 1, n => UInt8.ofNat (n / 256 ^ size) :: bigEndian size n

def littleEndian : Nat → Nat → List UInt8
  | 0, _ => []
  | size + 1, n => UInt8.ofNat n :: littleEndian size (n / 256)

def fromBigEndian : List UInt8 → Nat
  | [] => 0
  | byte :: rest => byte.toNat * 256 ^ rest.length + fromBigEndian rest

def fromLittleEndian : List UInt8 → Nat
  | [] => 0
  | byte :: rest => byte.toNat + 256 * fromLittleEndian rest

@[simp] theorem length_bigEndian (size n : Nat) : (bigEndian size n).length = size := by
  induction size with
  | zero => rfl
  | succ size ih => simp [bigEndian, ih]

variable (bytes : List UInt8)

theorem fromBigEndian_lt : fromBigEndian bytes < 256 ^ bytes.length := by
  induction bytes with
  | nil => simp [fromBigEndian]
  | cons byte rest ih =>
    have hbyte : byte.toNat + 1 ≤ 256 := byte.toNat_lt
    have hle := Nat.mul_le_mul_right (256 ^ rest.length) hbyte
    rw [Nat.add_mul, Nat.one_mul] at hle
    simp only [fromBigEndian, List.length_cons, Nat.pow_succ]
    omega

theorem fromBigEndian_bigEndian_mod (size n : Nat) : fromBigEndian (bigEndian size n) = n % 256 ^ size := by
  induction size with
  | zero => simp [bigEndian, fromBigEndian, Nat.mod_one]
  | succ size ih =>
    simp only [bigEndian, fromBigEndian, length_bigEndian, ih, UInt8.toNat_ofNat']
    have hmod : n % (256 ^ size * 256) = n % 256 ^ size + 256 ^ size * (n / 256 ^ size % 256) := Nat.mod_mul
    rw [Nat.pow_succ 256 size, hmod, Nat.mul_comm, Nat.add_comm]

theorem fromBigEndian_bigEndian {size n : Nat} (h : n < 256 ^ size) : fromBigEndian (bigEndian size n) = n := by
  rw [fromBigEndian_bigEndian_mod, Nat.mod_eq_of_lt h]

/-- Only the low bytes of a number count in its representation. -/
theorem bigEndian_add_mul (size n high : Nat) : bigEndian size (high * 256 ^ size + n) = bigEndian size n := by
  induction size generalizing high with
  | zero => rfl
  | succ size ih =>
    have hpow : high * 256 ^ (size + 1) = high * 256 * 256 ^ size := by
      rw [Nat.pow_succ, Nat.mul_comm (256 ^ size), Nat.mul_assoc]
    have hdiv : (high * 256 * 256 ^ size + n) / 256 ^ size = high * 256 + n / 256 ^ size := by
      rw [Nat.add_comm, Nat.add_mul_div_right _ _ (Nat.pow_pos (by decide)), Nat.add_comm]
    simp only [bigEndian, hpow, ih, hdiv, List.cons.injEq, and_true]
    apply UInt8.toNat_inj.mp
    simp

theorem bigEndian_fromBigEndian : bigEndian bytes.length (fromBigEndian bytes) = bytes := by
  induction bytes with
  | nil => rfl
  | cons byte rest ih =>
    have hdiv : (byte.toNat * 256 ^ rest.length + fromBigEndian rest) / 256 ^ rest.length = byte.toNat := by
      rw [Nat.add_comm, Nat.add_mul_div_right _ _ (Nat.pow_pos (by decide)),
        Nat.div_eq_of_lt (fromBigEndian_lt rest), Nat.zero_add]
    simp only [List.length_cons, bigEndian, fromBigEndian, hdiv, bigEndian_add_mul, ih, UInt8.ofNat_toNat]

@[simp] theorem length_littleEndian (size n : Nat) : (littleEndian size n).length = size := by
  induction size generalizing n with
  | zero => rfl
  | succ size ih => simp [littleEndian, ih]

theorem fromLittleEndian_littleEndian {size n : Nat} (h : n < 256 ^ size) :
    fromLittleEndian (littleEndian size n) = n := by
  induction size generalizing n with
  | zero =>
    simp only [Nat.pow_zero] at h
    simp only [littleEndian, fromLittleEndian]
    omega
  | succ size ih =>
    have hrest : n / 256 < 256 ^ size := Nat.div_lt_of_lt_mul (by rwa [Nat.pow_succ, Nat.mul_comm] at h)
    have hlow : (UInt8.ofNat n).toNat = n % 256 := UInt8.toNat_ofNat'
    simp only [littleEndian, fromLittleEndian, ih hrest, hlow]
    omega

theorem saturatingAdd_le (a b : Nat) : saturatingAdd a b ≤ a + b := Nat.min_le_left _ _

theorem saturatingAdd_eq {a b : Nat} (h : a + b ≤ u64Max) : saturatingAdd a b = a + b := Nat.min_eq_left h

theorem byteArray_loop (bytes : ByteArray) (position : Nat) (taken : List UInt8) :
    ByteArray.toList.loop bytes position taken = taken.reverse ++ bytes.data.toList.drop position := by
  fun_induction ByteArray.toList.loop bytes position taken with
  | case1 position taken hlt ih =>
    have hposition : position < bytes.data.toList.length := by simpa using hlt
    have hbyte : bytes.get! position = bytes.data.toList[position] := by
      simp only [ByteArray.get!, Array.getElem_toList]
      exact getElem!_pos bytes.data position (by simpa using hlt)
    rw [ih, List.drop_eq_getElem_cons hposition, hbyte]
    simp
  | case2 position taken hge =>
    have hend : bytes.data.toList.length ≤ position := by simpa using hge
    simp [List.drop_eq_nil_of_le hend]

theorem byteArray_toList (bytes : ByteArray) : bytes.toList = bytes.data.toList := by
  rw [ByteArray.toList, byteArray_loop]
  simp

end Numeric
