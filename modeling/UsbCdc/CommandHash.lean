import Mathlib.Tactic.Ring
import UsbCdc.CommandSupport

/-! # What the command hash tells apart

The hash is the length times a sum in which the character at position `i` weighs `i`. One
character changed, or two unequal ones exchanged, change the sum; nothing wraps. -/
namespace UsbCdc.CommandHash
open BoundedLoops CStrings CommandSupport

variable (char : PlainChar) (s : List Byte)

theorem getD_set (i k : ℕ) (c : Byte) (hi : i < s.length) :
    (s.set i c).getD k 0 = if k = i then c else s.getD k 0 := by
  simp only [List.getD_eq_getElem?_getD, List.getElem?_set]
  by_cases hk : k = i
  · subst hk
    simp [hi]
  · simp [hk, Ne.symm hk]

theorem weightedSum_set (i : ℕ) (c : Byte) (hi : i < s.length) (n : ℕ) :
    weightedSum char (s.set i c) n = weightedSum char s n +
      (if i < n then (i : ℤ) * (char.value c - char.value (s.getD i 0)) else 0) := by
  induction n with
  | zero => simp [weightedSum]
  | succ n ih =>
    rw [weightedSum_succ, weightedSum_succ, ih, getD_set s i n c hi]
    rcases Nat.lt_trichotomy i n with h | h | h
    · rw [if_pos h, if_pos (h.trans (Nat.lt_succ_self n)), if_neg h.ne']
      ring
    · subst h
      rw [if_neg (Nat.lt_irrefl i), if_pos (Nat.lt_succ_self i), if_pos rfl]
      ring
    · rw [if_neg (by omega), if_neg (by omega), if_neg (by omega)]
      ring

/-- Two positions exchanged. -/
def swap (i j : ℕ) : List Byte := (s.set i (s.getD j 0)).set j (s.getD i 0)

theorem weightedSum_swap {i j : ℕ} (hij : i < j) (hj : j < s.length) {n : ℕ} (hn : s.length ≤ n) :
    weightedSum char (swap s i j) n = weightedSum char s n +
      ((j : ℤ) - i) * (char.value (s.getD i 0) - char.value (s.getD j 0)) := by
  have hi : i < s.length := hij.trans hj
  rw [swap, weightedSum_set _ _ _ _ (by rwa [List.length_set]), weightedSum_set _ _ _ _ hi,
    getD_set s i j _ hi, if_pos (hj.trans_le hn), if_pos (hi.trans_le hn), if_neg hij.ne']
  ring

theorem value_unsigned_ne {c d : Byte} (h : c ≠ d) :
    PlainChar.value .unsigned c - PlainChar.value .unsigned d ≠ 0 := by
  intro h0
  apply h
  apply UInt8.toNat_inj.mp
  simp only [PlainChar.value] at h0
  omega

theorem hashedLength_of_notMem {s : List Byte} (h0 : 0 ∉ s) (hl : s.length ≤ 255) :
    hashedLength s = s.length := by
  rw [hashedLength, strlen, cString_of_notMem h0]
  exact Nat.mod_eq_of_lt (Nat.lt_succ_of_le hl)

/-- A different sum over equally many characters is a different hash. -/
theorem hashFunc_ne {s t : List Byte} (hs : 0 ∉ s) (ht : 0 ∉ t) (hl : t.length = s.length)
    (h1 : 1 ≤ s.length) (h255 : s.length ≤ 255)
    (h : weightedSum char t s.length ≠ weightedSum char s s.length) :
    hashFunc char (some t) ≠ hashFunc char (some s) := by
  intro he
  rw [hashFunc_inj, hashValue, hashValue, hashedLength_of_notMem hs h255,
    hashedLength_of_notMem ht (by omega), hl] at he
  have hpos : (s.length : ℤ) ≠ 0 := by omega
  exact h (mul_right_cancel₀ hpos he)

theorem hashFunc_set_ne {i : ℕ} {c : Byte} (h0 : 0 ∉ s) (h255 : s.length ≤ 255) (h1 : 1 ≤ i)
    (hi : i < s.length) (hc : c ≠ 0) (hne : c ≠ s.getD i 0) :
    hashFunc .unsigned (some (s.set i c)) ≠ hashFunc .unsigned (some s) := by
  have hc0 : 0 ∉ s.set i c := by
    intro hm
    rcases List.mem_or_eq_of_mem_set hm with hm | he
    · exact h0 hm
    · exact hc he.symm
  apply hashFunc_ne .unsigned h0 hc0 (List.length_set ..) (by omega) h255
  rw [weightedSum_set _ _ _ _ hi, if_pos hi]
  have hd : (i : ℤ) * (PlainChar.value .unsigned c - PlainChar.value .unsigned (s.getD i 0)) ≠ 0 :=
    mul_ne_zero (by omega) (value_unsigned_ne hne)
  omega

theorem length_swap (i j : ℕ) : (swap s i j).length = s.length := by
  rw [swap, List.length_set, List.length_set]

theorem zero_notMem_swap {i j : ℕ} (h0 : 0 ∉ s) (hi : i < s.length) (hj : j < s.length) :
    0 ∉ swap s i j := by
  have hget {k : ℕ} (hk : k < s.length) : s.getD k 0 ≠ 0 := by
    intro he
    rw [List.getD_eq_getElem?_getD, List.getElem?_eq_getElem hk, Option.getD_some] at he
    exact h0 (he ▸ List.getElem_mem hk)
  intro hm
  rcases List.mem_or_eq_of_mem_set hm with hm | he
  · rcases List.mem_or_eq_of_mem_set hm with hm | he
    · exact h0 hm
    · exact hget hj he.symm
  · exact hget hi he.symm

theorem hashFunc_swap_ne {i j : ℕ} (h0 : 0 ∉ s) (h255 : s.length ≤ 255) (hij : i < j)
    (hj : j < s.length) (hne : s.getD i 0 ≠ s.getD j 0) :
    hashFunc .unsigned (some (swap s i j)) ≠ hashFunc .unsigned (some s) := by
  have hi : i < s.length := hij.trans hj
  apply hashFunc_ne .unsigned h0 (zero_notMem_swap s h0 hi hj) (length_swap s i j) (by omega) h255
  rw [weightedSum_swap _ _ hij hj le_rfl]
  have hd : ((j : ℤ) - i) * (PlainChar.value .unsigned (s.getD i 0) -
      PlainChar.value .unsigned (s.getD j 0)) ≠ 0 :=
    mul_ne_zero (by omega) (value_unsigned_ne hne)
  omega

/-- The frame of `hashFunc` after `n` iterations, or at its end. -/
def frameAfter (str : List Byte) (n : ℕ) : HashFrame :=
  (hashLoop char str (strlen str).toUInt8).iterate n ⟨0, 0⟩

/-- `(uint32_t)str[i]`. -/
def charAt (str : List Byte) (f : HashFrame) : UInt32 :=
  UInt32.ofInt (char.value (str.getD f.i.toNat 0))

/-- The three operations of `hashFunc` on 32 bits give in this frame what they give on
natural numbers: `i * str[i]` and its addition in an iteration, `sum * len` behind the loop. -/
structure NoWrap (str : List Byte) (f : HashFrame) : Prop where
  product : f.i < (strlen str).toUInt8 →
    (f.i.toUInt32 * charAt char str f).toNat = f.i.toNat * (charAt char str f).toNat
  sum : f.i < (strlen str).toUInt8 → (f.sum + f.i.toUInt32 * charAt char str f).toNat =
    f.sum.toNat + f.i.toNat * (charAt char str f).toNat
  final : (f.sum * (strlen str).toUInt8.toUInt32).toNat =
    f.sum.toNat * (strlen str).toUInt8.toNat

theorem charAt_unsigned_le (str : List Byte) (f : HashFrame) :
    (charAt .unsigned str f).toNat ≤ 255 := by
  have hc := (str.getD f.i.toNat 0).toNat_lt
  simp only [charAt, PlainChar.value, UInt32.ofInt, UInt32.toNat_ofNat']
  omega

/-- The sum in front of position `i` is at most `255 * (0 + 1 + ... + (i - 1))`. -/
structure Small (len : UInt8) (f : HashFrame) : Prop where
  bounded : f.i.toNat ≤ len.toNat
  sum : 2 * f.sum.toNat ≤ 255 * (f.i.toNat * f.i.toNat)

section Small
variable {str : List Byte} {f : HashFrame} (h : Small (strlen str).toUInt8 f)
include h

private theorem Small.sum_le : f.i.toNat ≤ 255 ∧ f.sum.toNat ≤ 8290688 := by
  have hi := f.i.toNat_lt
  have hsq : f.i.toNat * f.i.toNat ≤ 255 * 255 := Nat.mul_le_mul (by omega) (by omega)
  have hs := h.sum
  omega

private theorem product_le : f.i.toNat * (charAt .unsigned str f).toNat ≤ 65025 :=
  Nat.mul_le_mul h.sum_le.1 (charAt_unsigned_le str f)

private theorem product_eq : (f.i.toUInt32 * charAt .unsigned str f).toNat =
    f.i.toNat * (charAt .unsigned str f).toNat := by
  have hp := product_le h
  rw [UInt32.toNat_mul, UInt8.toNat_toUInt32]
  exact Nat.mod_eq_of_lt (by omega)

private theorem sum_eq : (f.sum + f.i.toUInt32 * charAt .unsigned str f).toNat =
    f.sum.toNat + f.i.toNat * (charAt .unsigned str f).toNat := by
  have hp := product_le h
  have hs := h.sum_le
  rw [UInt32.toNat_add, product_eq h]
  exact Nat.mod_eq_of_lt (by omega)

theorem Small.noWrap : NoWrap .unsigned str f where
  product _ := product_eq h
  sum _ := sum_eq h
  final := by
    have hl := (strlen str).toUInt8.toNat_lt
    have hprod : f.sum.toNat * (strlen str).toUInt8.toNat ≤ 8290688 * 255 :=
      Nat.mul_le_mul h.sum_le.2 (by omega)
    rw [UInt32.toNat_mul, UInt8.toNat_toUInt32]
    exact Nat.mod_eq_of_lt (by omega)

theorem Small.body (hg : f.i < (strlen str).toUInt8) :
    Small (strlen str).toUInt8 ((hashLoop .unsigned str (strlen str).toUInt8).body f) := by
  have hi := succ_toNat hg
  have hlt := UInt8.lt_iff_toNat_lt.mp hg
  have hsum := sum_eq h
  have hmul : f.i.toNat * (charAt .unsigned str f).toNat ≤ f.i.toNat * 255 :=
    Nat.mul_le_mul_left _ (charAt_unsigned_le str f)
  have hs := h.sum
  constructor
  · simp only [hashLoop]
    omega
  · change 2 * (f.sum + f.i.toUInt32 * charAt .unsigned str f).toNat ≤
      255 * ((f.i + 1).toNat * (f.i + 1).toNat)
    rw [hsum, hi]
    calc 2 * (f.sum.toNat + f.i.toNat * (charAt .unsigned str f).toNat)
        ≤ 255 * (f.i.toNat * f.i.toNat) + 2 * (f.i.toNat * 255) := by omega
      _ ≤ 255 * ((f.i.toNat + 1) * (f.i.toNat + 1)) := by ring_nf; omega

end Small

theorem noWrap_frameAfter (str : List Byte) (n : ℕ) :
    NoWrap .unsigned str (frameAfter .unsigned str n) := by
  apply Small.noWrap
  refine (hashLoop .unsigned str (strlen str).toUInt8).iterate_invariant
    (Small (strlen str).toUInt8) ?_ n ⟨Nat.zero_le _, Nat.zero_le _⟩
  intro f hg h
  exact h.body (of_decide_eq_true hg)

/-- With plain `char` unsigned, every single-character change behind the first character
and every exchange of two unequal characters changes the hash of a string of 1 to 255
characters, and nothing wraps for strings of any length. -/
theorem hash_detects_typos :
    (∀ s : List Byte, 0 ∉ s → 1 ≤ s.length → s.length ≤ 255 →
      (∀ (i : ℕ) (c : Byte), 1 ≤ i → i < s.length → c ≠ 0 → c ≠ s.getD i 0 →
        hashFunc .unsigned (some (s.set i c)) ≠ hashFunc .unsigned (some s)) ∧
      (∀ i j : ℕ, i < j → j < s.length → s.getD i 0 ≠ s.getD j 0 →
        hashFunc .unsigned (some (swap s i j)) ≠ hashFunc .unsigned (some s))) ∧
    ∀ (s : List Byte) (n : ℕ), NoWrap .unsigned s (frameAfter .unsigned s n) := by
  refine ⟨?_, noWrap_frameAfter⟩
  intro s h0 _ h255
  constructor
  · intro i c h1 hi hc hne
    exact hashFunc_set_ne s h0 h255 h1 hi hc hne
  · intro i j hij hj hne
    exact hashFunc_swap_ne s h0 h255 hij hj hne

theorem hash_detects_typos_led :
    hashFunc .unsigned (some ((text "AT+LED\r\n").set 4 'D'.toUInt8)) ≠
        hashFunc .unsigned (some (text "AT+LED\r\n")) ∧
      hashFunc .unsigned (some (swap (text "AT+LED\r\n") 0 1)) ≠
        hashFunc .unsigned (some (text "AT+LED\r\n")) := by
  obtain ⟨hset, hswap⟩ := hash_detects_typos.1 (text "AT+LED\r\n") (by decide) (by decide)
    (by decide)
  exact ⟨hset 4 'D'.toUInt8 (by decide) (by decide) (by decide) (by decide),
    hswap 0 1 (by decide) (by decide) (by decide)⟩

end UsbCdc.CommandHash
