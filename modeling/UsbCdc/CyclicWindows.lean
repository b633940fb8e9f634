import Mathlib.Data.Fin.Basic
import Mathlib.Data.List.Basic

/-! # The stretch of a cyclic buffer between two indices

`between buf r w` lists the cells from `r` cyclically up to `w`, `w` excluded, so one
cell always stays outside and `r = w` means empty. The lemmas say what a store at `w`
followed by moving `w`, or moving `r`, does to that list. -/
namespace UsbCdc.CyclicWindows

universe u
variable {α : Type u} {n : ℕ}

def next (i : Fin n) : Fin n := ⟨(i + 1) % n, Nat.mod_lt _ i.pos⟩

def distance (r w : Fin n) : ℕ := if r ≤ w then w - r else w + n - r

def cell (buf : Vector α n) (r : Fin n) (k : ℕ) : α :=
  have := Nat.mod_lt (r + k) r.pos
  buf[(r + k) % n]

def between (buf : Vector α n) (r w : Fin n) : List α :=
  (List.range (distance r w)).map (cell buf r)

theorem next_val (i : Fin n) : (next i : ℕ) = if i + 1 < n then (i : ℕ) + 1 else 0 := by
  have hi := i.isLt
  by_cases h : (i : ℕ) + 1 < n
  · simp [next, h, Nat.mod_eq_of_lt]
  · have he : (i : ℕ) + 1 = n := by omega
    simp [next, he]

theorem distance_eq (r w : Fin n) :
    distance r w = if (r : ℕ) ≤ w then (w : ℕ) - r else w + n - r := by
  simp only [distance, Fin.le_def]

theorem distance_lt (r w : Fin n) : distance r w < n := by
  have hr := r.isLt
  have hw := w.isLt
  rw [distance_eq]
  split <;> omega

@[simp] theorem distance_self (r : Fin n) : distance r r = 0 := by simp [distance]

theorem distance_eq_zero {r w : Fin n} : distance r w = 0 ↔ r = w := by
  have hr := r.isLt
  have hw := w.isLt
  constructor
  · intro h
    rw [distance_eq] at h
    apply Fin.ext
    split at h <;> omega
  · intro h
    rw [h, distance_self]

/-- The writer is one step from the reader exactly when all cells but one are in use. -/
theorem distance_full {r w : Fin n} : next w = r ↔ distance r w + 1 = n := by
  have hr := r.isLt
  have hw := w.isLt
  rw [Fin.ext_iff, next_val, distance_eq]
  split <;> split <;> omega

theorem distance_push {r w : Fin n} (h : next w ≠ r) :
    distance r (next w) = distance r w + 1 := by
  have hr := r.isLt
  have hw := w.isLt
  have hv := next_val w
  rw [Ne, Fin.ext_iff] at h
  rw [distance_eq, distance_eq]
  split at hv <;> split <;> split <;> omega

theorem distance_pop {r w : Fin n} (h : r ≠ w) :
    distance r w = distance (next r) w + 1 := by
  have hr := r.isLt
  have hw := w.isLt
  have hv := next_val r
  rw [Ne, Fin.ext_iff] at h
  rw [distance_eq, distance_eq]
  split at hv <;> split <;> split <;> omega

@[simp] theorem cell_zero (buf : Vector α n) (r : Fin n) : cell buf r 0 = buf[r] := by
  simp [cell, Nat.mod_eq_of_lt r.isLt]

theorem cell_next (buf : Vector α n) (r : Fin n) (k : ℕ) :
    cell buf (next r) k = cell buf r (k + 1) := by
  simp only [cell, next, Nat.mod_add_mod, Nat.add_assoc, Nat.add_comm 1 k]

theorem cell_set {buf : Vector α n} {r w : Fin n} {x : α} {k : ℕ} (hk : k < distance r w) :
    cell (buf.set w x) r k = cell buf r k := by
  have hr := r.isLt
  have hw := w.isLt
  have hne : (w : ℕ) ≠ (r + k) % n := by
    rw [distance_eq] at hk
    by_cases hlt : (r : ℕ) + k < n
    · rw [Nat.mod_eq_of_lt hlt]
      split at hk <;> omega
    · have hwrap : (r : ℕ) + k - n < n := by
        split at hk <;> omega
      rw [Nat.mod_eq_sub_mod (by omega), Nat.mod_eq_of_lt hwrap]
      split at hk <;> omega
  simp [cell, Vector.getElem_set_ne, hne]

theorem cell_set_end (buf : Vector α n) (r w : Fin n) (x : α) :
    cell (buf.set w x) r (distance r w) = x := by
  have hr := r.isLt
  have hw := w.isLt
  have he : ((r : ℕ) + distance r w) % n = w := by
    rw [distance_eq]
    split
    · rename_i hle
      rw [Nat.add_sub_cancel' hle, Nat.mod_eq_of_lt hw]
    · have hsum : (r : ℕ) + (w + n - r) = w + n := by omega
      rw [hsum, Nat.add_mod_right, Nat.mod_eq_of_lt hw]
  simp [cell, he]

@[simp] theorem length_between (buf : Vector α n) (r w : Fin n) :
    (between buf r w).length = distance r w := by simp [between]

@[simp] theorem between_self (buf : Vector α n) (r : Fin n) : between buf r r = [] := by
  simp [between]

theorem between_eq_nil {buf : Vector α n} {r w : Fin n} : between buf r w = [] ↔ r = w := by
  rw [← distance_eq_zero, ← length_between buf r w, List.length_eq_zero_iff]

/-- Taking the oldest cell. -/
theorem between_pop (buf : Vector α n) {r w : Fin n} (h : r ≠ w) :
    between buf r w = buf[r] :: between buf (next r) w := by
  rw [between, between, distance_pop h, List.range_succ_eq_map, List.map_cons, List.map_map, cell_zero]
  congr 1
  apply List.map_congr_left
  intro k _
  exact (cell_next buf r k).symm

/-- A store at the write index appends, as long as a cell stays free. -/
theorem between_push {buf : Vector α n} {r w : Fin n} (x : α) (h : next w ≠ r) :
    between (buf.set w x) r (next w) = between buf r w ++ [x] := by
  rw [between, between, distance_push h, List.range_succ, List.map_append, List.map_singleton, cell_set_end]
  congr 1
  apply List.map_congr_left
  intro k hk
  exact cell_set (List.mem_range.mp hk)

/-- With no cell free, moving the read index as well drops the oldest cell. -/
theorem between_push_full {buf : Vector α n} {r w : Fin n} (x : α) (h : next w = r)
    (hne : r ≠ w) :
    between (buf.set w x) (next r) (next w) = (between buf r w).tail ++ [x] := by
  have hw : next w ≠ next r := by
    intro he
    have hr : next r = r := he.symm.trans h
    have hf := distance_pop hne
    rw [hr] at hf
    omega
  rw [between_push x hw, between_pop buf hne, List.tail_cons]

end UsbCdc.CyclicWindows
