import Mathlib.Data.List.Basic

/-! # A resource for one user at a time

Events acquire the resource, release it or leave it alone. Nobody is refused exactly if
between any two acquisitions there is a release. -/
namespace UsbCdc.ExclusiveUse

universe u

inductive Use
  | acquire
  | release
  | other
deriving DecidableEq, Repr

variable {α : Type u} (use : α → Use)

/-- No acquisition finds the resource busy. -/
def Exclusive : Bool → List α → Prop
  | _, [] => True
  | busy, a :: as =>
    match use a with
    | .acquire => busy = false ∧ Exclusive true as
    | .release => Exclusive false as
    | .other => Exclusive busy as

/-- Before the first acquisition there is a release. -/
def ReleasedFirst (as : List α) : Prop :=
  ∀ m b r, as = m ++ b :: r → use b = .acquire → ∃ c ∈ m, use c = .release

/-- Between two acquisitions there is a release. -/
def Separated (as : List α) : Prop :=
  ∀ l a r, as = l ++ a :: r → use a = .acquire → ReleasedFirst use r

variable {use} {a : α} {as : List α}

theorem releasedFirst_nil : ReleasedFirst use [] := by
  intro m b r h
  simp at h

theorem separated_nil : Separated use [] := by
  intro l a r h
  simp at h

theorem releasedFirst_cons : ReleasedFirst use (a :: as) ↔
    use a = .release ∨ use a ≠ .acquire ∧ ReleasedFirst use as := by
  constructor
  · intro h
    cases ha : use a with
    | release => exact Or.inl rfl
    | acquire =>
      obtain ⟨c, hc, -⟩ := h [] a as rfl ha
      cases hc
    | other =>
      refine Or.inr ⟨by simp, ?_⟩
      rintro m b r rfl hb
      obtain ⟨c, hc, hr⟩ := h (a :: m) b r rfl hb
      rcases List.mem_cons.mp hc with rfl | hc
      · rw [ha] at hr
        cases hr
      · exact ⟨c, hc, hr⟩
  · intro h m b r he hb
    cases m with
    | nil =>
      obtain ⟨rfl, -⟩ := List.cons_eq_cons.mp he
      rcases h with h | ⟨h, -⟩
      · rw [hb] at h
        cases h
      · exact absurd hb h
    | cons x m =>
      obtain ⟨rfl, rfl⟩ := List.cons_eq_cons.mp he
      rcases h with h | ⟨-, h⟩
      · exact ⟨a, List.mem_cons_self, h⟩
      · obtain ⟨c, hc, hr⟩ := h m b r rfl hb
        exact ⟨c, List.mem_cons_of_mem a hc, hr⟩

theorem separated_cons : Separated use (a :: as) ↔
    (use a = .acquire → ReleasedFirst use as) ∧ Separated use as := by
  constructor
  · intro h
    refine ⟨h [] a as rfl, ?_⟩
    rintro l b r rfl
    exact h (a :: l) b r rfl
  · rintro ⟨hfirst, hrest⟩ l b r he hb
    cases l with
    | nil =>
      obtain ⟨rfl, rfl⟩ := List.cons_eq_cons.mp he
      exact hfirst hb
    | cons x l =>
      obtain ⟨rfl, rfl⟩ := List.cons_eq_cons.mp he
      exact hrest l b r rfl hb

/-- What the recursion checks, in terms of the order of the events. -/
theorem exclusive_iff (busy : Bool) (as : List α) : Exclusive use busy as ↔
    (busy = true → ReleasedFirst use as) ∧ Separated use as := by
  induction as generalizing busy with
  | nil => exact iff_of_true trivial ⟨fun _ => releasedFirst_nil, separated_nil⟩
  | cons a as ih =>
    rw [Exclusive, releasedFirst_cons, separated_cons]
    cases ha : use a with
    | acquire =>
      simp only [ih]
      cases busy <;> simp
    | release =>
      simp only [ih]
      simp
    | other =>
      simp only [ih]
      simp

end UsbCdc.ExclusiveUse
