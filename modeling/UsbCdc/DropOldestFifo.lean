import Mathlib.Data.List.DropRight

/-! # A bounded queue that drops its oldest entries

The queue holds at most `cap` entries by construction. Pushing into a full queue loses
the oldest entry, so after any number of pushes it holds the last `cap` entries of all
that were there. -/
namespace UsbCdc.DropOldestFifo

universe u
variable {α : Type u} {cap : ℕ}

structure Fifo (α : Type u) (cap : ℕ) where
  items : List α
  bounded : items.length ≤ cap

theorem length_rtake_le (xs : List α) (n : ℕ) : (xs.rtake n).length ≤ n := by
  simp only [List.rtake, List.length_drop]
  omega

theorem rtake_of_length_le {xs : List α} {n : ℕ} (h : xs.length ≤ n) : xs.rtake n = xs := by
  simp [List.rtake, Nat.sub_eq_zero_of_le h]

/-- Only the last entries of the front part can be among the last ones. -/
theorem rtake_rtake_append (xs ys : List α) (n : ℕ) :
    (xs.rtake n ++ ys).rtake n = (xs ++ ys).rtake n := by
  rcases Nat.le_total xs.length n with hx | hx
  · rw [rtake_of_length_le hx]
  · obtain ⟨a, b, rfl, hb⟩ : ∃ a b, xs = a ++ b ∧ b.length = n :=
      ⟨xs.take (xs.length - n), xs.drop (xs.length - n), by simp, by simp [Nat.sub_sub_self hx]⟩
    have hl : (a ++ b).rtake n = b := by simp [List.rtake, hb]
    have hd : (a ++ (b ++ ys)).length - n = a.length + ((b ++ ys).length - n) := by
      simp only [List.length_append]
      omega
    rw [hl, List.append_assoc, List.rtake, List.rtake, hd, List.drop_length_add_append]

namespace Fifo

def empty : Fifo α cap := ⟨[], Nat.zero_le _⟩

def push (q : Fifo α cap) (x : α) : Fifo α cap :=
  ⟨(q.items ++ [x]).rtake cap, length_rtake_le _ _⟩

def pushAll (q : Fifo α cap) (xs : List α) : Fifo α cap := xs.foldl push q

def drop (q : Fifo α cap) (k : ℕ) : Fifo α cap :=
  ⟨q.items.drop k, (q.items.length_drop ▸ Nat.sub_le _ _).trans q.bounded⟩

@[ext] theorem ext {q q' : Fifo α cap} (h : q.items = q'.items) : q = q' := by
  cases q; cases q'; cases h; rfl

@[simp] theorem empty_items : (empty : Fifo α cap).items = [] := rfl

@[simp] theorem drop_items (q : Fifo α cap) (k : ℕ) : (q.drop k).items = q.items.drop k := rfl

theorem push_items_of_lt {q : Fifo α cap} (h : q.items.length < cap) (x : α) :
    (q.push x).items = q.items ++ [x] :=
  rtake_of_length_le (by rw [List.length_append]; exact h)

theorem push_items_of_full {q : Fifo α cap} (h : q.items.length = cap) (hc : 0 < cap) (x : α) :
    (q.push x).items = q.items.tail ++ [x] := by
  obtain ⟨k, rfl⟩ : ∃ k, cap = k + 1 := ⟨cap - 1, by omega⟩
  have hd : q.items.length - k = 1 := by omega
  have hne : q.items ≠ [] := by
    intro h0
    simp [h0] at h
  simp [push, List.rtake, hd, List.tail_append_of_ne_nil hne]

/-- However much is pushed, the last `cap` entries remain. -/
theorem pushAll_items (q : Fifo α cap) (xs : List α) :
    (q.pushAll xs).items = (q.items ++ xs).rtake cap := by
  induction xs generalizing q with
  | nil => simp [pushAll, rtake_of_length_le q.bounded]
  | cons x xs ih =>
    have hs := ih (q.push x)
    unfold pushAll at hs ⊢
    rw [List.foldl_cons, hs, push, rtake_rtake_append, List.append_assoc, List.singleton_append]

theorem pushAll_append (q : Fifo α cap) (xs ys : List α) :
    q.pushAll (xs ++ ys) = (q.pushAll xs).pushAll ys := List.foldl_append

end Fifo

end UsbCdc.DropOldestFifo
