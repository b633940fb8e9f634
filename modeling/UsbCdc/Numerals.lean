import Mathlib.Data.Nat.Digits.Lemmas

/-! # Positional numerals

Numerals over any alphabet, the most significant digit first: what they denote, and that
the digits of a number denote it. -/
namespace UsbCdc.Numerals

universe u
variable {α : Type u} (value : α → ℕ) (base : ℕ)

/-- The number that a numeral denotes. -/
def read (t : List α) : ℕ := t.foldl (fun n c => n * base + value c) 0

@[simp] theorem read_nil : read value base [] = 0 := rfl

theorem read_append_singleton (t : List α) (c : α) :
    read value base (t ++ [c]) = read value base t * base + value c := by
  rw [read, List.foldl_append]
  rfl

theorem read_reverse (t : List α) : read value base t.reverse = Nat.ofDigits base (t.map value) := by
  induction t with
  | nil => rfl
  | cons c t ih =>
    rw [List.reverse_cons, read_append_singleton, ih, List.map_cons, Nat.ofDigits_cons]
    exact (Nat.add_comm _ _).trans (congrArg _ (Nat.mul_comm _ _))

variable {value base}

theorem read_cons_zero {z : α} (hz : value z = 0) (t : List α) :
    read value base (z :: t) = read value base t := by
  rw [read, List.foldl_cons, hz, Nat.zero_mul]
  rfl

/-- Leading zeros do not count. -/
theorem read_reverse_append_zeros {z : α} (hz : value z = 0) (t : List α) (k : ℕ) :
    read value base (t ++ List.replicate k z).reverse = read value base t.reverse := by
  rw [read_reverse, read_reverse, List.map_append, List.map_replicate, hz,
    Nat.ofDigits_append_replicate_zero]

/-- A numeral stays below the power of the base that has more digits. -/
theorem read_reverse_lt (hb : 1 < base) {t : List α} (h : ∀ c ∈ t, value c < base) :
    read value base t.reverse < base ^ t.length := by
  rw [read_reverse]
  have hl := Nat.ofDigits_lt_base_pow_length hb (l := t.map value) (by
    intro x hx
    obtain ⟨c, hc, rfl⟩ := List.mem_map.mp hx
    exact h c hc)
  rwa [List.length_map] at hl

/-- The last `k` digits of a number denote it modulo `base ^ k`. -/
theorem read_digits {digit : ℕ → α} (hb : 1 < base) (hd : ∀ d < base, value (digit d) = d)
    (n k : ℕ) :
    read value base (((Nat.digits base n).take k).map digit).reverse = n % base ^ k := by
  rw [read_reverse, List.map_map, Nat.self_mod_pow_eq_ofDigits_take k n hb]
  congr 1
  refine (List.map_congr_left ?_).trans (List.map_id _)
  intro d hd'
  exact hd d (Nat.digits_lt_base hb (List.mem_of_mem_take hd'))

end UsbCdc.Numerals
