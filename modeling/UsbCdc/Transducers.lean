import Mathlib.Data.List.Basic

/-! # Sequential transducers with block output

A transducer reads its input from the left and emits a block for each symbol. What it
emits on a concatenation splits at any cut, the second part started where the first
one ended. -/
namespace UsbCdc.Transducers

universe u v w

structure Transducer (σ : Type u) (α : Type v) (β : Type w) where
  step : σ → α → σ
  emit : σ → α → List β

namespace Transducer
variable {σ : Type u} {α : Type v} {β : Type w} (t : Transducer σ α β)

def after (s : σ) (xs : List α) : σ := xs.foldl t.step s

def output : σ → List α → List β
  | _, [] => []
  | s, x :: xs => t.emit s x ++ output (t.step s x) xs

@[simp] theorem after_nil (s : σ) : t.after s [] = s := rfl

@[simp] theorem after_cons (s : σ) (x : α) (xs : List α) :
    t.after s (x :: xs) = t.after (t.step s x) xs := rfl

@[simp] theorem output_nil (s : σ) : t.output s [] = [] := rfl

@[simp] theorem output_cons (s : σ) (x : α) (xs : List α) :
    t.output s (x :: xs) = t.emit s x ++ t.output (t.step s x) xs := rfl

theorem after_append (s : σ) (xs ys : List α) :
    t.after s (xs ++ ys) = t.after (t.after s xs) ys := List.foldl_append

theorem output_append (s : σ) (xs ys : List α) :
    t.output s (xs ++ ys) = t.output s xs ++ t.output (t.after s xs) ys := by
  induction xs generalizing s with
  | nil => rfl
  | cons x xs ih => simp [ih]

/-- Reading one more symbol appends its block. -/
theorem output_snoc (s : σ) (xs : List α) (x : α) :
    t.output s (xs ++ [x]) = t.output s xs ++ t.emit (t.after s xs) x := by
  simp [output_append]

end Transducer

end UsbCdc.Transducers
