import UsbCdc.CyclicWindows
import Mathlib.Data.Vector.Basic
import Mathlib.Logic.Function.Iterate

/-! # Chunks of a cyclic buffer

A stretch that does not cross the end of the buffer is written or read in one piece. Piece
by piece or item by item, the window between the indices changes in the same way. -/
namespace UsbCdc.CyclicChunks
open CyclicWindows

universe u
variable {α : Type u} {n : ℕ} {buf : Vector α n} {r w : Fin n}

/-! ## Item by item -/

/-- Items stored one after the other from an index on. -/
def pushes (b : Vector α n × Fin n) (xs : List α) : Vector α n × Fin n :=
  xs.foldl (fun b x => (b.1.set b.2 x, next b.2)) b

theorem pushes_nil (b : Vector α n × Fin n) : pushes b [] = b := rfl

theorem pushes_cons (b : Vector α n × Fin n) (x : α) (xs : List α) :
    pushes b (x :: xs) = pushes (b.1.set b.2 x, next b.2) xs := rfl

theorem pushes_append (b : Vector α n × Fin n) (xs ys : List α) :
    pushes b (xs ++ ys) = pushes (pushes b xs) ys := List.foldl_append

/-- As long as a cell stays free, what is stored is appended to the window. -/
theorem between_pushes {xs : List α} (h : distance r w + xs.length < n) :
    between (pushes (buf, w) xs).1 r (pushes (buf, w) xs).2 = between buf r w ++ xs := by
  induction xs generalizing buf w with
  | nil => rw [pushes_nil, List.append_nil]
  | cons x xs ih =>
    rw [List.length_cons] at h
    have hne : next w ≠ r := by
      intro he
      have hf := distance_full.mp he
      omega
    have hd : distance r (next w) + xs.length < n := by
      rw [distance_push hne]
      omega
    rw [pushes_cons, ih hd, between_push x hne, List.append_assoc, List.singleton_append]

/-- Where all cells but one are in use, each item stored costs the oldest one. -/
theorem between_pushes_full (hn : 1 < n) {xs : List α} {k : ℕ}
    (hk : k = distance r w + xs.length - (n - 1)) :
    between (pushes (buf, w) xs).1 (next^[k] r) (pushes (buf, w) xs).2 =
      (between buf r w ++ xs).drop k := by
  induction xs generalizing buf r w k with
  | nil =>
    have hlt := distance_lt r w
    rw [List.length_nil] at hk
    have h0 : k = 0 := by omega
    subst h0
    simp [pushes_nil]
  | cons x xs ih =>
    rw [List.length_cons] at hk
    change between (pushes (buf.set w x, next w) xs).1 (next^[k] r)
      (pushes (buf.set w x, next w) xs).2 = _
    by_cases hfull : next w = r
    · have hd := distance_full.mp hfull
      have hne : r ≠ w := by
        intro he
        have hz := distance_eq_zero.mpr he
        omega
      have hd' : distance (next r) (next w) + 1 = n := by
        have hl := congrArg List.length (@between_push_full α n buf r w x hfull hne)
        rw [length_between, List.length_append, List.length_tail, length_between,
          List.length_singleton] at hl
        omega
      obtain ⟨j, rfl⟩ : ∃ j, k = j + 1 := ⟨k - 1, by omega⟩
      rw [Function.iterate_succ_apply, ih (by omega), between_push_full x hfull hne,
        between_pop buf hne]
      simp
    · have hd := distance_push hfull
      rw [ih (by omega), between_push x hfull, List.append_assoc, List.singleton_append]

theorem next_iterate_val (w : Fin n) (k : ℕ) : ((next^[k] w : Fin n) : ℕ) = (w + k) % n := by
  induction k with
  | zero => exact (Nat.mod_eq_of_lt w.isLt).symm
  | succ k ih =>
    rw [Function.iterate_succ_apply']
    change ((next^[k] w : ℕ) + 1) % n = (w + (k + 1)) % n
    rw [ih, Nat.mod_add_mod, Nat.add_assoc]

theorem pushes_snd (b : Vector α n × Fin n) (xs : List α) : (pushes b xs).2 = next^[xs.length] b.2 := by
  induction xs generalizing b with
  | nil => rfl
  | cons x xs ih => rw [pushes_cons, ih, List.length_cons, Function.iterate_succ_apply]

/-- The items found one after the other from an index on. -/
def pops (buf : Vector α n) (r : Fin n) (k : ℕ) : List α := (List.range k).map (cell buf r)

@[simp] theorem length_pops (buf : Vector α n) (r : Fin n) (k : ℕ) : (pops buf r k).length = k := by
  simp [pops]

theorem pops_succ (buf : Vector α n) (r : Fin n) (k : ℕ) :
    pops buf r (k + 1) = getElem buf r r.isLt :: pops buf (next r) k := by
  rw [pops, List.range_succ_eq_map, List.map_cons, List.map_map, cell_zero]
  congr 1
  apply List.map_congr_left
  intro i _
  exact (cell_next buf r i).symm

theorem pops_add (buf : Vector α n) (r : Fin n) (j k : ℕ) :
    pops buf r (j + k) = pops buf r j ++ pops buf (next^[j] r) k := by
  induction j generalizing r with
  | zero =>
    rw [Nat.zero_add]
    rfl
  | succ j ih =>
    have hs : j + 1 + k = j + k + 1 := by omega
    rw [hs, pops_succ, ih, pops_succ, List.cons_append, Function.iterate_succ_apply]

/-- What is taken off the window is its front, and the rest is the window from there on. -/
theorem between_pops {k : ℕ} (h : k ≤ distance r w) :
    between buf r w = pops buf r k ++ between buf (next^[k] r) w := by
  induction k generalizing r with
  | zero => rfl
  | succ k ih =>
    have hne : r ≠ w := by
      intro he
      have hz := distance_eq_zero.mpr he
      omega
    have hd := distance_pop hne
    rw [between_pop buf hne, ih (by omega), pops_succ, List.cons_append, Function.iterate_succ_apply]

theorem pops_concat (buf : Vector α n) (r : Fin n) (k : ℕ) :
    pops buf r (k + 1) = pops buf r k ++ [buf[next^[k] r]] := by
  rw [pops_add, pops_succ]
  rfl

theorem distance_iterate {k : ℕ} (h : k ≤ distance r w) :
    distance (next^[k] r) w = distance r w - k := by
  induction k generalizing r with
  | zero => rfl
  | succ k ih =>
    have hne : r ≠ w := by
      intro he
      have hz := distance_eq_zero.mpr he
      omega
    have hd := distance_pop hne
    rw [Function.iterate_succ_apply, ih (by omega)]
    omega

/-- A store outside of what is read next does not change it. -/
theorem pops_set {p : Fin n} {k : ℕ} (h : k ≤ distance r p) (x : α) :
    pops (buf.set p x p.isLt) r k = pops buf r k := by
  apply List.map_congr_left
  intro i hi
  exact cell_set ((List.mem_range.mp hi).trans_le h)

/-! ## Piece by piece -/

/-- A piece copied to an offset; one that would cross the end is not. -/
def blit (buf : Vector α n) (off : ℕ) (xs : List α) : Option (Vector α n) :=
  if off + xs.length ≤ n then
    some (Vector.ofFn fun i =>
      let x := getElem buf i i.isLt
      if off ≤ i then xs.getD (i - off) x else x)
  else none

/-- A piece copied from an offset. -/
def slice (buf : Vector α n) (off k : ℕ) : Option (List α) :=
  if off + k ≤ n then some ((buf.toList.drop off).take k) else none

/-- An offset at the end of the buffer is the one at its start. -/
def wrap (n k : ℕ) : ℕ := if k = n then 0 else k

theorem wrap_eq_mod {k : ℕ} (h : k ≤ n) : wrap n k = k % n := by
  rcases h.lt_or_eq with h | rfl
  · rw [wrap, if_neg h.ne, Nat.mod_eq_of_lt h]
  · rw [wrap, if_pos rfl, Nat.mod_self]

private theorem blit_nil {off : ℕ} (h : off ≤ n) : blit buf off [] = some buf := by
  rw [blit, if_pos (by simpa using h)]
  congr 1
  ext i hi
  simp

private theorem blit_cons (x : α) (xs : List α) :
    blit buf w (x :: xs) = blit (buf.set w x w.isLt) (w + 1) xs := by
  have hl : (w : ℕ) + (x :: xs).length = w + 1 + xs.length := by
    rw [List.length_cons]
    omega
  rw [blit, blit, hl]
  congr 2
  apply congrArg Vector.ofFn
  funext i
  rcases Nat.lt_trichotomy i w with hi | hi | hi
  · have h1 : ¬ (w : ℕ) ≤ i := by omega
    have h2 : ¬ (w : ℕ) + 1 ≤ i := by omega
    simp [h1, h2, Vector.getElem_set_ne, hi.ne']
  · simp [hi]
  · obtain ⟨k, hk⟩ : ∃ k, (i : ℕ) - w = k + 1 := ⟨i - w - 1, by omega⟩
    have h1 : (w : ℕ) ≤ i := by omega
    have h2 : (w : ℕ) + 1 ≤ i := by omega
    have h3 : (i : ℕ) - (w + 1) = k := by omega
    simp [h1, h2, h3, hk, Vector.getElem_set_ne, hi.ne]

/-- Up to the end of the buffer a piece is what is stored item by item. -/
theorem blit_eq_pushes {xs : List α} (h : (w : ℕ) + xs.length ≤ n) :
    blit buf w xs = some (pushes (buf, w) xs).1 := by
  induction xs generalizing buf w with
  | nil => exact blit_nil w.isLt.le
  | cons x xs ih =>
    rw [List.length_cons] at h
    rw [blit_cons, pushes_cons]
    by_cases hlast : (w : ℕ) + 1 < n
    · have hv : ((next w : Fin n) : ℕ) = w + 1 := by rw [next_val, if_pos hlast]
      rw [← hv]
      exact ih (by omega)
    · have hnil : xs = [] := List.eq_nil_of_length_eq_zero (by omega)
      rw [hnil]
      exact blit_nil (by omega)

/-- Up to the end of the buffer a piece is what is found item by item. -/
theorem slice_eq_pops {k : ℕ} (h : (r : ℕ) + k ≤ n) : slice buf r k = some (pops buf r k) := by
  rw [slice, if_pos h]
  congr 1
  apply List.ext_getElem
  · simp only [List.length_take, List.length_drop, Vector.length_toList, length_pops]
    omega
  · intro i h1 h2
    rw [length_pops] at h2
    have hi : ((r : ℕ) + i) % n = r + i := Nat.mod_eq_of_lt (by omega)
    simp [pops, cell, hi]

end UsbCdc.CyclicChunks
