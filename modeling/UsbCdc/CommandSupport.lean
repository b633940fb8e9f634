import Mathlib.Algebra.BigOperators.Intervals
import Mathlib.Algebra.Order.Ring.Abs
import Mathlib.Tactic.Linarith
import UsbCdc.BoundedLoops
import UsbCdc.CStrings

/-! # The command table and its hash

`hashFunc` in the code's machine arithmetic, and the integer that it computes: nothing
wraps, so two strings collide exactly if these integers are equal. -/
namespace UsbCdc.CommandSupport
open BoundedLoops CStrings

/-- Plain `char` is signed or not by a compiler option; the build files of the project and
the default of the target do not agree on it. -/
inductive PlainChar
  | unsigned
  | signed
deriving DecidableEq, Repr

def PlainChar.value : PlainChar → Byte → ℤ
  | .unsigned, c => c.toNat
  | .signed, c => c.toInt8.toInt

theorem PlainChar.value_bounds (k : PlainChar) (c : Byte) :
    -128 ≤ k.value c ∧ k.value c ≤ 255 := by
  cases k with
  | unsigned =>
    have h := c.toNat_lt
    simp only [PlainChar.value]
    omega
  | signed =>
    have hlo := c.toInt8.le_toInt
    have hhi := c.toInt8.toInt_lt
    simp only [PlainChar.value]
    omega

/-- The locals of `hashFunc` between two iterations. -/
structure HashFrame where
  i : UInt8
  sum : UInt32

theorem succ_toNat {i len : UInt8} (h : i < len) : (i + 1).toNat = i.toNat + 1 := by
  have hlt := UInt8.lt_iff_toNat_lt.mp h
  have hb := len.toNat_lt
  rw [UInt8.toNat_add]
  exact Nat.mod_eq_of_lt (by simp only [UInt8.toNat_one]; omega)

def hashLoop (char : PlainChar) (str : List Byte) (len : UInt8) : Loop HashFrame where
  guard f := f.i < len
  body f := ⟨f.i + 1, f.sum + f.i.toUInt32 * UInt32.ofInt (char.value (str.getD f.i.toNat 0))⟩
  measure f := len.toNat - f.i.toNat
  decreases f h := by
    have hlt := UInt8.lt_iff_toNat_lt.mp (of_decide_eq_true h)
    have hi := succ_toNat (of_decide_eq_true h)
    simp only
    omega

/-- `none` is the null pointer. `len` is `strlen` cut to eight bits. -/
def hashFunc (char : PlainChar) : Option (List Byte) → UInt32
  | none => 0
  | some str =>
    let len := (strlen str).toUInt8
    ((hashLoop char str len).run ⟨0, 0⟩).sum * len.toUInt32

inductive Handler
  | AT_LED_HANDLER
  | AT_BLINK_HANDLER
  | AT_TIME_HANDLER
deriving DecidableEq, Repr

structure CDC_Commands_Type where
  cmd : List Byte
  hash : UInt32
  pfunc : Handler
  fits : cmd.length < 16

def CDC_Command_Table : List CDC_Commands_Type :=
  [⟨text "AT+LED\r\n", 0, .AT_LED_HANDLER, by decide⟩,
   ⟨text "AT+BLINK\r\n", 0, .AT_BLINK_HANDLER, by decide⟩,
   ⟨text "AT+TIME\r\n", 0, .AT_TIME_HANDLER, by decide⟩]

def initHashTable (char : PlainChar) (table : List CDC_Commands_Type) : List CDC_Commands_Type :=
  table.map (fun e => { e with hash := hashFunc char (some e.cmd) })

/-- One more than the index of the first entry with the hash of `cmd`, or 0. -/
def hashTableLookup (char : PlainChar) (table : List CDC_Commands_Type) (cmd : List Byte) : UInt8 :=
  let hash := hashFunc char (some cmd)
  match table.findIdx? (fun e => hash == e.hash) with
  | some i => i.toUInt8 + 1
  | none => 0

section Closed

/-- `strlen` as `hashFunc` sees it. -/
def hashedLength (str : List Byte) : ℕ := strlen str % 256

def weightedSum (char : PlainChar) (str : List Byte) (n : ℕ) : ℤ :=
  ∑ j ∈ Finset.range n, (j : ℤ) * char.value (str.getD j 0)

/-- The integer behind the hash: position-weighted sum times length. -/
def hashValue (char : PlainChar) (str : List Byte) : ℤ :=
  weightedSum char str (hashedLength str) * hashedLength str

variable (char : PlainChar) (str : List Byte)

theorem weightedSum_succ (n : ℕ) : weightedSum char str (n + 1) =
    weightedSum char str n + (n : ℤ) * char.value (str.getD n 0) :=
  Finset.sum_range_succ _ n

theorem abs_weightedSum_le (n : ℕ) : 2 * |weightedSum char str n| ≤ 255 * (n : ℤ) * n := by
  induction n with
  | zero => simp [weightedSum]
  | succ n ih =>
    obtain ⟨hlo, hhi⟩ := char.value_bounds (str.getD n 0)
    have habs : |char.value (str.getD n 0)| ≤ 255 := abs_le.mpr ⟨by omega, hhi⟩
    have hn : (0 : ℤ) ≤ n := Int.natCast_nonneg n
    have hterm : |(n : ℤ) * char.value (str.getD n 0)| ≤ n * 255 := by
      rw [abs_mul, abs_of_nonneg hn]
      exact mul_le_mul_of_nonneg_left habs hn
    rw [weightedSum_succ]
    push_cast
    calc 2 * |weightedSum char str n + (n : ℤ) * char.value (str.getD n 0)|
        ≤ 2 * (|weightedSum char str n| + |(n : ℤ) * char.value (str.getD n 0)|) :=
          mul_le_mul_of_nonneg_left (abs_add_le _ _) (by decide)
      _ ≤ 255 * (n : ℤ) * n + 2 * (n * 255) := by linarith
      _ ≤ 255 * ((n : ℤ) + 1) * (n + 1) := by linarith

theorem hashedLength_lt : hashedLength str < 256 := Nat.mod_lt _ (by decide)

/-- The hash stays inside the positive half of its type, whichever way `char` is read. -/
theorem abs_hashValue_lt : |hashValue char str| < 2 ^ 31 := by
  have hb := abs_weightedSum_le char str (hashedLength str)
  have hl := hashedLength_lt str
  generalize hl' : hashedLength str = n at hb hl
  have hn : (n : ℤ) ≤ 255 := by omega
  have hn0 : (0 : ℤ) ≤ n := Int.natCast_nonneg n
  have hsq : 255 * (n : ℤ) * n ≤ 255 * 255 * 255 := by
    have := mul_le_mul hn hn hn0 (by decide)
    linarith
  rw [hashValue, hl', abs_mul, abs_of_nonneg hn0]
  have hprod := mul_le_mul_of_nonneg_left hn (abs_nonneg (weightedSum char str n))
  linarith

theorem ofInt_toNat (i : UInt8) : UInt32.ofInt i.toNat = i.toUInt32 := by
  apply UInt32.toNat_inj.mp
  have h := i.toNat_lt
  simp only [UInt32.ofInt, UInt32.toNat_ofNat', UInt8.toNat_toUInt32]
  omega

/-- Between two iterations of `hashFunc`. -/
structure Hashing (len : UInt8) (f : HashFrame) : Prop where
  bounded : f.i ≤ len
  summed : f.sum = UInt32.ofInt (weightedSum char str f.i.toNat)

private theorem hashing_step {char : PlainChar} {str : List Byte} {len : UInt8} {f : HashFrame}
    (hg : (hashLoop char str len).guard f = true) (h : Hashing char str len f) :
    Hashing char str len ((hashLoop char str len).body f) := by
  have hlt : f.i < len := of_decide_eq_true hg
  have hi := succ_toNat hlt
  constructor
  · apply UInt8.le_iff_toNat_le.mpr
    have := UInt8.lt_iff_toNat_lt.mp hlt
    simp only [hashLoop]
    omega
  · simp only [hashLoop]
    rw [h.summed, hi, weightedSum_succ, UInt32.ofInt_add, UInt32.ofInt_mul, ofInt_toNat]

/-- What the code computes is that integer modulo 2^32. -/
theorem hashFunc_eq : hashFunc char (some str) = UInt32.ofInt (hashValue char str) := by
  have hlen : (strlen str).toUInt8.toNat = hashedLength str := UInt8.toNat_ofNat'
  obtain ⟨h, hg⟩ := (hashLoop char str (strlen str).toUInt8).run_invariant
    (Hashing char str (strlen str).toUInt8) (fun f hg h => hashing_step hg h)
    (s := ⟨0, 0⟩) ⟨UInt8.le_iff_toNat_le.mpr (Nat.zero_le _), rfl⟩
  have hi : ((hashLoop char str (strlen str).toUInt8).run ⟨0, 0⟩).i = (strlen str).toUInt8 :=
    UInt8.le_antisymm h.bounded (UInt8.not_lt.mp (of_decide_eq_false hg))
  rw [hashFunc, h.summed, hi, hlen, hashValue, UInt32.ofInt_mul, ← hlen, ofInt_toNat]

theorem ofInt_inj {x y : ℤ} (hx : |x| < 2 ^ 31) (hy : |y| < 2 ^ 31) :
    UInt32.ofInt x = UInt32.ofInt y ↔ x = y := by
  constructor
  · intro h
    have hn := congrArg UInt32.toNat h
    simp only [UInt32.ofInt, UInt32.toNat_ofNat'] at hn
    rw [abs_lt] at hx hy
    omega
  · exact congrArg UInt32.ofInt

theorem hashFunc_inj {s t : List Byte} :
    hashFunc char (some s) = hashFunc char (some t) ↔ hashValue char s = hashValue char t := by
  rw [hashFunc_eq, hashFunc_eq]
  exact ofInt_inj (abs_hashValue_lt char s) (abs_hashValue_lt char t)

example (k : PlainChar) : hashFunc k (some (text "AT+LED\r\n")) = 9296 := by
  cases k <;> rfl

end Closed

end UsbCdc.CommandSupport
