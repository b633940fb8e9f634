import Mathlib.Data.Nat.Init

/-! # While loops that carry their termination argument

A loop is a guard, a body and a measure that every guarded iteration lowers, so a
loop that could spin is not a value of the type. The executable `run` iterates as
often as the measure allows; the lemmas below never mention that bound again. -/
namespace UsbCdc.BoundedLoops

universe u

structure Loop (σ : Type u) where
  guard : σ → Bool
  body : σ → σ
  measure : σ → ℕ
  decreases : ∀ s, guard s = true → measure (body s) < measure s

namespace Loop
variable {σ : Type u} (l : Loop σ)

def iterate : ℕ → σ → σ
  | 0, s => s
  | n + 1, s => if l.guard s then iterate n (l.body s) else s

def run (s : σ) : σ := l.iterate (l.measure s) s

theorem iterate_exit {s : σ} (h : l.guard s = false) (n : ℕ) : l.iterate n s = s := by
  cases n <;> simp [iterate, h]

private theorem iterate_measure {s : σ} {n : ℕ} (hn : l.measure s ≤ n) :
    l.iterate n s = l.iterate (l.measure s) s := by
  induction n using Nat.strong_induction_on generalizing s with
  | _ n ih =>
    cases hg : l.guard s with
    | false => rw [l.iterate_exit hg, l.iterate_exit hg]
    | true =>
      have hd := l.decreases s hg
      obtain ⟨k, hk⟩ : ∃ k, l.measure s = k + 1 := ⟨l.measure s - 1, by omega⟩
      obtain ⟨n, rfl⟩ : ∃ k, n = k + 1 := ⟨n - 1, by omega⟩
      have hb := ih n (by omega) (s := l.body s) (by omega)
      have hc := ih k (by omega) (s := l.body s) (by omega)
      rw [hk]
      simp only [iterate, hg, if_true]
      rw [hb, hc]

/-- The loop stops as soon as its guard fails. -/
theorem run_exit {s : σ} (h : l.guard s = false) : l.run s = s := l.iterate_exit h _

/-- A guarded iteration does not change where the loop ends. -/
theorem run_step {s : σ} (h : l.guard s = true) : l.run s = l.run (l.body s) := by
  have hd := l.decreases s h
  obtain ⟨k, hk⟩ : ∃ k, l.measure s = k + 1 := ⟨l.measure s - 1, by omega⟩
  rw [run, run, hk, iterate, h, if_pos rfl]
  exact l.iterate_measure (by omega)

/-- What holds where the guard fails, and of a state if it holds after its iteration,
holds of every state. -/
theorem induction {P : σ → Prop} (exit : ∀ s, l.guard s = false → P s)
    (step : ∀ s, l.guard s = true → P (l.body s) → P s) (s : σ) : P s := by
  induction hn : l.measure s using Nat.strong_induction_on generalizing s with
  | _ n ih =>
    cases hg : l.guard s with
    | false => exact exit s hg
    | true => exact step s hg (ih _ (hn ▸ l.decreases s hg) _ rfl)

/-- What every guarded iteration preserves holds after any number of them. -/
theorem iterate_invariant (I : σ → Prop) (hI : ∀ s, l.guard s = true → I s → I (l.body s))
    (n : ℕ) {s : σ} (hs : I s) : I (l.iterate n s) := by
  induction n generalizing s with
  | zero => exact hs
  | succ n ih =>
    rw [iterate]
    split
    · rename_i hg
      exact ih (hI s hg hs)
    · exact hs

/-- What every guarded iteration preserves holds where the loop ends, and there the
guard is false. -/
theorem run_invariant (I : σ → Prop) (hI : ∀ s, l.guard s = true → I s → I (l.body s))
    {s : σ} (hs : I s) : I (l.run s) ∧ l.guard (l.run s) = false := by
  revert hs
  refine l.induction (P := fun s => I s → I (l.run s) ∧ l.guard (l.run s) = false) ?_ ?_ s
  · intro s hg hs
    rw [l.run_exit hg]
    exact ⟨hs, hg⟩
  · intro s hg ih hs
    rw [l.run_step hg]
    exact ih (hI s hg hs)

end Loop

end UsbCdc.BoundedLoops
