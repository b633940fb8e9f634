import Mathlib.Algebra.Order.Ring.Int
import Mathlib.Data.Int.ModEq
import Mathlib.Tactic.NormNum

/-! # Numbers in two's complement

The integer types of a machine, the conversion of a number to one of them, and the words that
carry it out: an unsigned word keeps the low bits, a signed one reads them back around zero. -/
namespace UsbCdc.TwosComplement

/-- A type of numbers in two's complement. -/
structure IntType where
  bits : ℕ
  signed : Bool

def IntType.Holds (T : IntType) (value : ℤ) : Prop :=
  if T.signed then -2 ^ (T.bits - 1) ≤ value ∧ value < 2 ^ (T.bits - 1)
  else 0 ≤ value ∧ value < 2 ^ T.bits

instance (T : IntType) (value : ℤ) : Decidable (T.Holds value) :=
  inferInstanceAs (Decidable (if T.signed then _ else _))

/-- The conversion of a number to a type. -/
structure IntType.Converts (T : IntType) (number value : ℤ) : Prop where
  holds : T.Holds value
  congruent : (2 ^ T.bits : ℤ) ∣ number - value

variable {T : IntType} {number value : ℤ}

theorem IntType.Holds.natAbs_lt (h : T.Holds value) {n : ℕ} (hn : 0 < n) (hb : T.bits ≤ n) :
    value.natAbs < 2 ^ n := by
  have hcast : ((2 ^ n : ℕ) : ℤ) = 2 ^ n := Nat.cast_pow 2 n
  rw [IntType.Holds] at h
  split at h
  · have hpow : (2 : ℤ) ^ (T.bits - 1) ≤ 2 ^ (n - 1) :=
      pow_le_pow_right₀ (by norm_num) (Nat.sub_le_sub_right hb 1)
    have htwo : (2 : ℤ) ^ n = 2 * 2 ^ (n - 1) := by
      rw [← pow_succ', Nat.sub_add_cancel hn]
    have hpos : (0 : ℤ) < 2 ^ (n - 1) := pow_pos (by norm_num) _
    omega
  · have hpow : (2 : ℤ) ^ T.bits ≤ 2 ^ n := pow_le_pow_right₀ (by norm_num) hb
    omega

theorem IntType.Holds.signed (h : T.Holds value) (hneg : value < 0) : T.signed = true := by
  rw [IntType.Holds] at h
  split at h
  · assumption
  · omega

/-- To an unsigned type a number is converted by taking its low bits. -/
theorem IntType.Converts.eq_emod (h : T.Converts number value) (hs : T.signed = false) :
    number % 2 ^ T.bits = value := by
  obtain ⟨hh, k, hk⟩ := h
  simp only [IntType.Holds, hs, Bool.false_eq_true, if_false] at hh
  have hnum : number = value + 2 ^ T.bits * k := by omega
  rw [hnum, Int.add_mul_emod_self_left, Int.emod_eq_of_lt hh.1 hh.2]

/-- To a signed type it is converted by reading its low bits back in two's complement. -/
theorem IntType.Converts.eq_bmod (h : T.Converts number value) (hs : T.signed = true)
    (hb : 0 < T.bits) : number.bmod (2 ^ T.bits) = value := by
  obtain ⟨hh, k, hk⟩ := h
  simp only [IntType.Holds, hs, if_true] at hh
  have htwo : (2 : ℤ) ^ T.bits = 2 * 2 ^ (T.bits - 1) := by
    rw [← pow_succ', Nat.sub_add_cancel hb]
  have hnum : number = value + ((2 ^ T.bits : ℕ) : ℤ) * k := by
    push_cast
    omega
  rw [hnum, Int.add_mul_bmod_self_left]
  apply Int.bmod_eq_of_le_mul_two
  · push_cast
    omega
  · push_cast
    omega

/-! ## Machine words -/

theorem toNat_word (v : ℤ) : ((UInt32.ofInt v).toNat : ℤ) = v % 2 ^ 32 := by
  rw [UInt32.ofInt, UInt32.toNat_ofNat']
  omega

theorem toNat_dword (v : ℤ) : ((UInt64.ofInt v).toNat : ℤ) = v % 2 ^ 64 := by
  rw [UInt64.ofInt, UInt64.toNat_ofNat']
  omega

theorem toNat_half (v : ℤ) : ((UInt32.ofInt v).toUInt16.toNat : ℤ) = v % 2 ^ 16 := by
  have hw := toNat_word v
  rw [UInt32.toNat_toUInt16]
  omega

theorem toNat_byte (v : ℤ) : ((UInt32.ofInt v).toUInt8.toNat : ℤ) = v % 2 ^ 8 := by
  have hw := toNat_word v
  rw [UInt32.toNat_toUInt8]
  omega

/-- A word with the low bits of a number has them in two's complement too. -/
theorem toInt_eq_bmod {w : ℕ} {x : BitVec w} {v : ℤ} (h : (x.toNat : ℤ) = v % 2 ^ w) :
    x.toInt = v.bmod (2 ^ w) := by
  rw [BitVec.toInt_eq_toNat_bmod, h]
  exact_mod_cast Int.emod_bmod v (2 ^ w)

theorem toInt_word (v : ℤ) : (UInt32.ofInt v).toInt32.toInt = v.bmod (2 ^ 32) :=
  toInt_eq_bmod (toNat_word v)

theorem toInt_dword (v : ℤ) : (UInt64.ofInt v).toInt64.toInt = v.bmod (2 ^ 64) :=
  toInt_eq_bmod (toNat_dword v)

theorem toInt_half (v : ℤ) : (UInt32.ofInt v).toUInt16.toInt16.toInt = v.bmod (2 ^ 16) :=
  toInt_eq_bmod (toNat_half v)

theorem toInt_byte (v : ℤ) : (UInt32.ofInt v).toUInt8.toInt8.toInt = v.bmod (2 ^ 8) :=
  toInt_eq_bmod (toNat_byte v)

end UsbCdc.TwosComplement
