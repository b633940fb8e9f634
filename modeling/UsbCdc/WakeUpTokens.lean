import Mathlib.Data.Nat.Init

/-! # Draining a bounded store on a binary token

A producer changes the store and then sets a token; a consumer waits for the token and
takes out at most as many items as the store can hold. Tokens collapse, the producer may
run in the middle of a drain, and yet nothing stays behind. -/
namespace UsbCdc.WakeUpTokens

structure State where
  size : ℕ
  /-- The producer has changed the store and not yet set the token. -/
  pending : Bool
  token : Bool
  /-- What the consumer may still take out, or `none` while it waits for the token. -/
  budget : Option ℕ

inductive Step (cap : ℕ) : State → State → Prop
  | produce {s : State} (n : ℕ) (h : n ≤ cap) : Step cap s { s with size := n, pending := true }
  | give {s : State} : Step cap s { s with pending := false, token := true }
  | take {s : State} (ht : s.token = true) (hb : s.budget = none) :
      Step cap s { s with token := false, budget := some cap }
  | consume {s : State} {n b : ℕ} (hs : s.size = n + 1) (hb : s.budget = some (b + 1)) :
      Step cap s { s with size := n, budget := some b }
  | stop {s : State} {b : ℕ} (hb : s.budget = some b) (h : b = 0 ∨ s.size = 0) :
      Step cap s { s with budget := none }

/-- Somebody is still going to look at every item in the store. -/
structure Covered (cap : ℕ) (s : State) : Prop where
  bounded : s.size ≤ cap
  covered : s.pending = true ∨ s.token = true ∨ s.size ≤ s.budget.getD 0

variable {cap : ℕ} {s t : State}

theorem Covered.step (h : Covered cap s) (hst : Step cap s t) : Covered cap t := by
  obtain ⟨hle, hc⟩ := h
  cases hst with
  | produce n hn => exact ⟨hn, Or.inl rfl⟩
  | give => exact ⟨hle, Or.inr (Or.inl rfl)⟩
  | take ht hb => exact ⟨hle, Or.inr (Or.inr hle)⟩
  | @consume n b hs hb =>
    refine ⟨?_, hc.imp_right (Or.imp_right ?_)⟩
    · simp only
      omega
    · rw [hs, hb]
      simp only [Option.getD_some]
      omega
  | @stop b hb hz =>
    refine ⟨hle, hc.imp_right (Or.imp_right ?_)⟩
    rw [hb]
    simp only [Option.getD_some, Option.getD_none]
    omega

/-- Nothing is left behind once everybody waits. -/
theorem Covered.size_eq_zero (h : Covered cap s) (hp : s.pending = false) (ht : s.token = false)
    (hb : s.budget = none) : s.size = 0 := by
  have hc := h.covered
  simp only [hp, ht, hb, Bool.false_eq_true, false_or, Option.getD_none] at hc
  exact Nat.le_zero.mp hc

end UsbCdc.WakeUpTokens
