import Mathlib.Data.List.TakeWhile

/-! # Bytes and NUL-terminated strings -/
namespace UsbCdc.CStrings

abbrev Byte := UInt8

def chA : Byte := 'A'.toUInt8
def chT : Byte := 'T'.toUInt8
def chCR : Byte := '\r'.toUInt8
def chLF : Byte := '\n'.toUInt8

/-- The bytes of a string literal, without its terminator. -/
def text (s : String) : List Byte := s.toList.map Char.toUInt8

/-- The C string at the start of `mem`: what `strlen` counts and `%s` prints. -/
def cString (mem : List Byte) : List Byte := mem.takeWhile (· != 0)

def strlen (mem : List Byte) : ℕ := (cString mem).length

theorem chA_ne_chCR : chA ≠ chCR := by decide
theorem chT_ne_chCR : chT ≠ chCR := by decide
theorem chCR_ne_chLF : chCR ≠ chLF := by decide

@[simp] theorem cString_nil : cString [] = [] := rfl

theorem cString_of_notMem {s : List Byte} (h : 0 ∉ s) : cString s = s := by
  rw [cString, List.takeWhile_eq_self_iff]
  intro c hc
  have hne : c ≠ 0 := fun h0 => h (h0 ▸ hc)
  simpa using hne

/-- Nothing behind the terminator belongs to the string. -/
theorem cString_append_zero {s : List Byte} (h : 0 ∉ s) (rest : List Byte) :
    cString (s ++ 0 :: rest) = s := by
  rw [cString, List.takeWhile_append_of_pos]
  · simp
  · intro c hc
    have hne : c ≠ 0 := fun h0 => h (h0 ▸ hc)
    simpa using hne

theorem zero_notMem_cString (mem : List Byte) : 0 ∉ cString mem := by
  intro h
  have hp := List.mem_takeWhile_imp h
  simp at hp

@[simp] theorem cString_cString (mem : List Byte) : cString (cString mem) = cString mem :=
  cString_of_notMem (zero_notMem_cString mem)

@[simp] theorem cString_replicate_zero (n : ℕ) : cString (List.replicate n 0) = [] := by
  cases n <;> simp [cString, List.replicate_succ]

end UsbCdc.CStrings
