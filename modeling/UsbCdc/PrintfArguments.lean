import UsbCdc.PrintfText
import UsbCdc.TwosComplement

/-! # The arguments of the integer conversions

The types that the length modifiers name, and how a number that the caller passes comes out
of the argument list. -/
namespace UsbCdc.PrintfUtil
open CStrings CommandSupport TwosComplement

/-- What an integer conversion with the length of the flags prints: with `hh` a plain `char`,
or an `unsigned char`. -/
def directiveType (char : PlainChar) (c : Byte) (flags : Flags) : IntType :=
  if flags.longLong then ⟨64, isSigned c⟩
  else if flags.long then ⟨32, isSigned c⟩
  else if flags.char then ⟨8, isSigned c && char = .signed⟩
  else if flags.short then ⟨16, isSigned c⟩
  else ⟨32, isSigned c⟩

/-- A number as the caller passes it. -/
def numberArg {δ : Type} (flags : Flags) (number : ℤ) : Arg δ :=
  if flags.longLong then .dword (UInt64.ofInt number) else .word (UInt32.ofInt number)

variable {δ : Type} {char : PlainChar} {c : Byte} {flags : Flags} {number value : ℤ}

/-- Of the flags of a length the specifier changes none. -/
private theorem integerFlags_lengths (c : Byte) (flags : Flags) :
    (integerFlags c flags).longLong = flags.longLong ∧
      (integerFlags c flags).long = flags.long ∧ (integerFlags c flags).char = flags.char ∧
      (integerFlags c flags).short = flags.short := by
  simp only [integerFlags]
  split <;> split <;> split <;> split <;> exact ⟨rfl, rfl, rfl, rfl⟩

private theorem integerArg_congr {flags' : Flags}
    (h : flags'.longLong = flags.longLong ∧ flags'.long = flags.long ∧
      flags'.char = flags.char ∧ flags'.short = flags.short) (va : List (Arg δ)) :
    integerArg char c flags' va = integerArg char c flags va := by
  obtain ⟨h1, h2, h3, h4⟩ := h
  simp only [integerArg, signedValue, unsignedValue, h1, h2, h3, h4]

private theorem signedValue_eq (h : (directiveType char c flags).Converts number value)
    (hll : flags.longLong = false) (hs : isSigned c = true) :
    signedValue char flags (UInt32.ofInt number) = value := by
  rw [directiveType, hll, hs] at h
  rw [signedValue]
  cases hl : flags.long with
  | true =>
    rw [hl] at h
    have h : IntType.Converts ⟨32, true⟩ number value := h
    exact (toInt_word number).trans (h.eq_bmod rfl (by decide))
  | false =>
    rw [hl] at h
    cases hb : flags.char with
    | true =>
      rw [hb] at h
      cases char with
      | unsigned => exact (toNat_byte number).trans (h.eq_emod rfl)
      | signed =>
        have h : IntType.Converts ⟨8, true⟩ number value := h
        exact (toInt_byte number).trans (h.eq_bmod rfl (by decide))
    | false =>
      rw [hb] at h
      cases hsh : flags.short with
      | true =>
        rw [hsh] at h
        have h : IntType.Converts ⟨16, true⟩ number value := h
        exact (toInt_half number).trans (h.eq_bmod rfl (by decide))
      | false =>
        rw [hsh] at h
        have h : IntType.Converts ⟨32, true⟩ number value := h
        exact (toInt_word number).trans (h.eq_bmod rfl (by decide))

private theorem unsignedValue_eq (h : (directiveType char c flags).Converts number value)
    (hll : flags.longLong = false) (hs : isSigned c = false) :
    ((unsignedValue flags (UInt32.ofInt number)).toNat : ℤ) = value := by
  rw [directiveType, hll, hs] at h
  rw [unsignedValue]
  cases hl : flags.long with
  | true =>
    rw [hl] at h
    exact (toNat_word number).trans (h.eq_emod rfl)
  | false =>
    rw [hl] at h
    cases hb : flags.char with
    | true =>
      rw [hb] at h
      exact (toNat_byte number).trans (h.eq_emod rfl)
    | false =>
      rw [hb] at h
      cases hsh : flags.short with
      | true =>
        rw [hsh] at h
        exact (toNat_half number).trans (h.eq_emod rfl)
      | false =>
        rw [hsh] at h
        exact (toNat_word number).trans (h.eq_emod rfl)

/-- The machine words of an argument denote it as the type of the directive has it. -/
theorem integerArg_numberArg (h : (directiveType char c flags).Converts number value)
    (va : List (Arg δ)) :
    integerArg char c flags (numberArg flags number :: va) = .ok (value, va) := by
  cases hll : flags.longLong with
  | true =>
    have hT : directiveType char c flags = ⟨64, isSigned c⟩ := by rw [directiveType, hll, if_pos rfl]
    rw [hT] at h
    cases hs : isSigned c with
    | true =>
      have hv : (UInt64.ofInt number).toInt64.toInt = value :=
        (toInt_dword number).trans (h.eq_bmod hs (by norm_num))
      simp only [integerArg, numberArg, hll, hs, if_true, argDword, Except.map, hv]
    | false =>
      have hv : ((UInt64.ofInt number).toNat : ℤ) = value :=
        (toNat_dword number).trans (h.eq_emod hs)
      simp only [integerArg, numberArg, hll, hs, if_true, Bool.false_eq_true, if_false, argDword,
        Except.map, hv]
  | false =>
    cases hs : isSigned c with
    | true =>
      have hv : signedValue char flags (UInt32.ofInt number) = value := signedValue_eq h hll hs
      simp only [integerArg, numberArg, hll, hs, if_true, Bool.false_eq_true, if_false, argWord,
        Except.map, hv]
    | false =>
      have hv : ((unsignedValue flags (UInt32.ofInt number)).toNat : ℤ) = value :=
        unsignedValue_eq h hll hs
      simp only [integerArg, numberArg, hll, hs, Bool.false_eq_true, if_false, argWord,
        Except.map, hv]

theorem integerArg_directive (h : (directiveType char c flags).Converts number value)
    (va : List (Arg δ)) :
    integerArg char c (integerFlags c flags) (numberArg flags number :: va) = .ok (value, va) := by
  rw [integerArg_congr (integerFlags_lengths c flags), integerArg_numberArg h]

/-- Only `%d` and `%i` see a number below zero. -/
theorem directiveType_bounds (h : (directiveType char c flags).Holds value) :
    value.natAbs < 2 ^ 64 ∧ (value < 0 → isSigned c = true) := by
  have htype : (directiveType char c flags).bits ≤ 64 ∧
      ((directiveType char c flags).signed = true → isSigned c = true) := by
    rw [directiveType]
    split_ifs <;> simp +contextual
  exact ⟨h.natAbs_lt (by norm_num) htype.1, fun hneg => htype.2 (h.signed hneg)⟩

end UsbCdc.PrintfUtil
