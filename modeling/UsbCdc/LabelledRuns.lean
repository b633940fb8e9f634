import Mathlib.Data.List.Basic
import Mathlib.Order.Basic

/-! # Runs of a labelled transition system

A system is a partial step function: `none` says that the action is not enabled. A run
is a list of actions, so a statement about every run is a statement about every
interleaving. `Along` collects what holds of the state and the action at each step. -/
namespace UsbCdc.LabelledRuns

universe u v w
variable {σ : Type u} {α : Type v} (step : σ → α → Option σ)

def run : σ → List α → Option σ
  | s, [] => some s
  | s, a :: as => (step s a).bind (fun t => run t as)

/-- The condition `C` holds at every step that the run takes. -/
def Along (C : σ → α → Prop) : σ → List α → Prop
  | _, [] => True
  | s, a :: as => C s a ∧ ∀ t, step s a = some t → Along C t as

variable {step}

@[simp] theorem run_nil (s : σ) : run step s [] = some s := rfl

theorem run_cons_eq_some {s u : σ} {a : α} {as : List α} :
    run step s (a :: as) = some u ↔ ∃ t, step s a = some t ∧ run step t as = some u := by
  simp [run, Option.bind_eq_some_iff]

theorem run_append_eq_some {s u : σ} {as bs : List α} :
    run step s (as ++ bs) = some u ↔ ∃ t, run step s as = some t ∧ run step t bs = some u := by
  induction as generalizing s with
  | nil => simp
  | cons a as ih =>
    simp only [List.cons_append, run_cons_eq_some, ih]
    constructor
    · rintro ⟨t, ht, r, hr, hu⟩
      exact ⟨r, ⟨t, ht, hr⟩, hu⟩
    · rintro ⟨r, ⟨t, ht, hr⟩, hu⟩
      exact ⟨t, ht, r, hr, hu⟩

theorem along_cons {C : σ → α → Prop} {s t : σ} {a : α} {as : List α} (h : step s a = some t) :
    Along step C s (a :: as) ↔ C s a ∧ Along step C t as := by
  constructor
  · intro hc
    exact ⟨hc.1, hc.2 t h⟩
  · intro hc
    refine ⟨hc.1, fun u hu => ?_⟩
    rw [h] at hu
    cases hu
    exact hc.2

theorem Along.append {C : σ → α → Prop} {s t : σ} {as bs : List α} (h : Along step C s as)
    (hr : run step s as = some t) (h' : Along step C t bs) : Along step C s (as ++ bs) := by
  induction as generalizing s with
  | nil =>
    cases hr
    exact h'
  | cons a as ih =>
    obtain ⟨u, hu, hr⟩ := run_cons_eq_some.mp hr
    rw [along_cons hu] at h
    exact (along_cons hu).mpr ⟨h.1, ih h.2 hr⟩

/-- An invariant that every step meeting `C` preserves holds after every run that
meets `C` throughout. -/
theorem Along.invariant {C : σ → α → Prop} {I : σ → Prop}
    (hI : ∀ s a t, C s a → step s a = some t → I s → I t) {s t : σ} {as : List α}
    (hc : Along step C s as) (hs : I s) (hr : run step s as = some t) : I t := by
  induction as generalizing s with
  | nil =>
    cases hr
    exact hs
  | cons a as ih =>
    obtain ⟨u, hu, hr⟩ := run_cons_eq_some.mp hr
    exact ih (hc.2 u hu) (hI s a u hc.1 hu hs) hr

theorem Along.and {C D : σ → α → Prop} {s : σ} {as : List α} (hc : Along step C s as)
    (hd : Along step D s as) : Along step (fun s a => C s a ∧ D s a) s as := by
  induction as generalizing s with
  | nil => trivial
  | cons a as ih => exact ⟨⟨hc.1, hd.1⟩, fun t ht => ih (hc.2 t ht) (hd.2 t ht)⟩

theorem along_of_forall {A : α → Prop} (s : σ) {as : List α} (h : ∀ a ∈ as, A a) :
    Along step (fun _ a => A a) s as := by
  induction as generalizing s with
  | nil => trivial
  | cons a as ih =>
    exact ⟨h a List.mem_cons_self, fun t _ => ih t (fun b hb => h b (List.mem_cons_of_mem a hb))⟩

/-- An invariant of every step that is taken holds after every run. -/
theorem run_invariant {I : σ → Prop} {A : α → Prop}
    (hI : ∀ s a t, A a → step s a = some t → I s → I t) {s t : σ} {as : List α}
    (ha : ∀ a ∈ as, A a) (hs : I s) (hr : run step s as = some t) : I t :=
  (along_of_forall s ha).invariant (fun s a t => hI s a t) hs hr

/-- A quantity that no step lowers, and that every step against `C` raises, tells at the
end of a run whether `C` held throughout. -/
theorem along_of_le {β : Type w} [Preorder β] {C : σ → α → Prop} {I : σ → Prop} {A : α → Prop}
    {f : σ → β} (hI : ∀ s a t, A a → step s a = some t → I s → I t)
    (hle : ∀ s a t, A a → step s a = some t → I s → f s ≤ f t)
    (hlt : ∀ s a t, A a → step s a = some t → I s → ¬ C s a → f s < f t)
    {s t : σ} {as : List α} (ha : ∀ a ∈ as, A a) (hs : I s) (hr : run step s as = some t) :
    f s ≤ f t ∧ (f t ≤ f s → Along step C s as) := by
  induction as generalizing s with
  | nil =>
    cases hr
    exact ⟨le_rfl, fun _ => trivial⟩
  | cons a as ih =>
    obtain ⟨u, hu, hr⟩ := run_cons_eq_some.mp hr
    have haa := ha a List.mem_cons_self
    have hsu := hle s a u haa hu hs
    obtain ⟨hut, hback⟩ := ih (fun b hb => ha b (List.mem_cons_of_mem a hb)) (hI s a u haa hu hs) hr
    refine ⟨hsu.trans hut, fun hts => ?_⟩
    rw [along_cons hu]
    constructor
    · by_contra hc
      exact absurd (hut.trans hts) (not_le_of_gt (hlt s a u haa hu hs hc))
    · exact hback (hts.trans hsu)

/-- Some run gets from one state to another with actions of the kind `A` alone. -/
def Reaches (step : σ → α → Option σ) (A : α → Prop) (s t : σ) : Prop :=
  ∃ as, (∀ a ∈ as, A a) ∧ run step s as = some t

theorem Reaches.refl {A : α → Prop} (s : σ) : Reaches step A s s := ⟨[], nofun, rfl⟩

theorem Reaches.trans {A : α → Prop} {s t u : σ} (h : Reaches step A s t)
    (h' : Reaches step A t u) : Reaches step A s u := by
  obtain ⟨as, ha, hr⟩ := h
  obtain ⟨bs, hb, hr'⟩ := h'
  refine ⟨as ++ bs, ?_, run_append_eq_some.mpr ⟨t, hr, hr'⟩⟩
  intro a hm
  exact (List.mem_append.mp hm).elim (ha a) (hb a)

theorem Reaches.of_step {A : α → Prop} {s t : σ} {a : α} (ha : A a) (h : step s a = some t) :
    Reaches step A s t :=
  ⟨[a], fun _ hb => List.mem_singleton.mp hb ▸ ha, run_cons_eq_some.mpr ⟨t, h, rfl⟩⟩

theorem Reaches.mono {A B : α → Prop} (hAB : ∀ a, A a → B a) {s t : σ}
    (h : Reaches step A s t) : Reaches step B s t := by
  obtain ⟨as, ha, hr⟩ := h
  exact ⟨as, fun a hm => hAB a (ha a hm), hr⟩

theorem Reaches.invariant {A : α → Prop} {I : σ → Prop}
    (hI : ∀ s a t, A a → step s a = some t → I s → I t) {s t : σ} (h : Reaches step A s t)
    (hs : I s) : I t := by
  obtain ⟨as, ha, hr⟩ := h
  exact run_invariant hI ha hs hr

end UsbCdc.LabelledRuns
