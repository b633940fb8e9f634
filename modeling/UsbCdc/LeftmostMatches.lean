import Mathlib.Data.List.Basic
import Mathlib.Data.List.Infix

/-! # Successive leftmost matches of a pattern

A pattern is a set of words. `FirstMatch` is the match that starts first, `Matches`
peels off several of them, each taken from the text behind the one before, and
`AllMatches` goes on until no match is left. For patterns whose words have no proper
initial part that ends with another word of the pattern, the matches are unique and
stay what they are when more text arrives behind them. -/
namespace UsbCdc.LeftmostMatches

universe u
variable {α : Type u}

def FirstMatch (P : List α → Prop) (s m rest : List α) : Prop :=
  ∃ pre, s = pre ++ m ++ rest ∧ P m ∧
    ∀ pre' m' rest', s = pre' ++ m' ++ rest' → P m' → pre.length ≤ pre'.length

/-- `Matches P s ms rest`: the first matches in `s` are `ms`, and `rest` follows them. -/
inductive Matches (P : List α → Prop) : List α → List (List α) → List α → Prop
  | nil (s : List α) : Matches P s [] s
  | cons {s m rest last : List α} {ms : List (List α)} (first : FirstMatch P s m rest)
      (more : Matches P rest ms last) : Matches P s (m :: ms) last

def NoMatch (P : List α → Prop) (s : List α) : Prop :=
  ∀ pre m rest, s = pre ++ m ++ rest → ¬ P m

def AllMatches (P : List α → Prop) (s : List α) (ms : List (List α)) : Prop :=
  ∃ rest, Matches P s ms rest ∧ NoMatch P rest

/-- No match in `d ++ z` starts inside `d`. -/
def Barren (P : List α → Prop) (d z : List α) : Prop :=
  ∀ pre m rest, d ++ z = pre ++ m ++ rest → P m → d.length ≤ pre.length

/-- A word of the pattern inside another one reaches to its end. -/
def EndsOnce (P : List α → Prop) : Prop :=
  ∀ a m b, P m → P (a ++ m ++ b) → b = []

variable {P : List α → Prop}

theorem Barren.nil (z : List α) : Barren P [] z := fun _ _ _ _ _ => Nat.zero_le _

/-- Two stretches without a start make one. -/
theorem Barren.append {d e z : List α} (hd : Barren P d (e ++ z)) (he : Barren P e z) :
    Barren P (d ++ e) z := by
  intro pre m rest h hm
  rw [List.append_assoc] at h
  have hl := hd pre m rest h hm
  rw [List.append_assoc pre] at h
  obtain ⟨a, rfl, ha⟩ : ∃ a, pre = d ++ a ∧ e ++ z = a ++ (m ++ rest) := by
    rcases List.append_eq_append_iff.mp h with ⟨a, rfl, ha⟩ | ⟨a, rfl, ha⟩
    · exact ⟨a, rfl, ha⟩
    · have h0 : a = [] := by
        rw [List.length_append] at hl
        exact List.eq_nil_of_length_eq_zero (by omega)
      subst h0
      exact ⟨[], by simp, by simpa using ha.symm⟩
  have := he a m rest (by rw [ha, List.append_assoc]) hm
  simp only [List.length_append]
  omega

theorem Barren.firstMatch {d m r : List α} (h : Barren P d (m ++ r)) (hm : P m) :
    FirstMatch P (d ++ m ++ r) m r :=
  ⟨d, rfl, hm, fun pre' m' rest' hs hm' => h pre' m' rest' (by rw [← hs, List.append_assoc]) hm'⟩

theorem Barren.noMatch {s : List α} (h : Barren P s []) (hP : ¬ P []) : NoMatch P s := by
  intro pre m rest hs hm
  have hl := h pre m rest (by rw [List.append_nil, hs]) hm
  have h0 : m = [] := by
    have he := congrArg List.length hs
    simp only [List.length_append] at he
    exact List.eq_nil_of_length_eq_zero (by omega)
  exact hP (h0 ▸ hm)

theorem Matches.append_list {s rest last : List α} {ms ns : List (List α)}
    (h : Matches P s ms rest) (h' : Matches P rest ns last) : Matches P s (ms ++ ns) last := by
  induction h with
  | nil s => exact h'
  | cons first more ih => exact .cons first (ih h')

/-- One more match behind those already found. -/
theorem Matches.snoc {s rest last m : List α} {ms : List (List α)}
    (h : Matches P s ms rest) (h' : FirstMatch P rest m last) : Matches P s (ms ++ [m]) last :=
  h.append_list (.cons h' (.nil last))

/-- The matches and what follows them lie side by side in the text. -/
theorem Matches.volume_le {s rest : List α} {ms : List (List α)} (h : Matches P s ms rest) :
    ms.flatten.length + rest.length ≤ s.length := by
  induction h with
  | nil s => simp
  | cons first more ih =>
    obtain ⟨pre, rfl, hm, hl⟩ := first
    simp only [List.flatten_cons, List.length_append]
    omega

theorem Matches.suffix {s rest : List α} {ms : List (List α)} (h : Matches P s ms rest) :
    rest <:+ s := by
  induction h with
  | nil s => exact List.suffix_refl s
  | cons first more ih =>
    obtain ⟨pre, rfl, hm, hl⟩ := first
    exact ih.trans (List.suffix_append _ _)

/-- Every match listed is a word of the pattern that occurs in the text. -/
theorem Matches.occurs {s rest m : List α} {ms : List (List α)} (h : Matches P s ms rest)
    (hm : m ∈ ms) : P m ∧ m <:+: s := by
  induction h with
  | nil s => simp at hm
  | cons first more ih =>
    obtain ⟨pre, rfl, hp, -⟩ := first
    rcases List.mem_cons.mp hm with rfl | hm
    · exact ⟨hp, pre, _, rfl⟩
    · obtain ⟨hp', hi⟩ := ih hm
      exact ⟨hp', hi.trans (List.suffix_append _ _).isInfix⟩

section EndsOnce
variable (he : EndsOnce P)
include he

private theorem endsOnce_prefix {m n r r' : List α} (hm : P m) (hn : P n)
    (h : m ++ r = n ++ r') : m = n ∧ r = r' := by
  rcases List.append_eq_append_iff.mp h with ⟨b, rfl, hb⟩ | ⟨b, rfl, hb⟩
  · have h0 : b = [] := he [] m b hm (by simpa using hn)
    subst h0
    simpa using hb
  · have h0 : b = [] := he [] n b hn (by simpa using hm)
    subst h0
    simpa using hb.symm

theorem FirstMatch.unique {s m n r r' : List α} (h : FirstMatch P s m r)
    (h' : FirstMatch P s n r') : m = n ∧ r = r' := by
  obtain ⟨pre, hs, hm, hl⟩ := h
  obtain ⟨pre', hs', hn, hl'⟩ := h'
  have hlen : pre.length = pre'.length := Nat.le_antisymm (hl _ _ _ hs' hn) (hl' _ _ _ hs hm)
  have hcat : pre ++ (m ++ r) = pre' ++ (n ++ r') := by
    rw [← List.append_assoc, ← List.append_assoc, ← hs, ← hs']
  obtain ⟨-, hmr⟩ := List.append_inj hcat hlen
  exact endsOnce_prefix he hm hn hmr

/-- Text that arrives later does not change the first match. -/
theorem FirstMatch.append {s m r : List α} (h : FirstMatch P s m r) (t : List α) :
    FirstMatch P (s ++ t) m (r ++ t) := by
  obtain ⟨pre, rfl, hm, hl⟩ := h
  refine ⟨pre, by simp, hm, ?_⟩
  intro pre' m' r' hs hm'
  by_contra hlt
  have hcat : pre ++ (m ++ (r ++ t)) = pre' ++ (m' ++ r') := by
    simpa [List.append_assoc] using hs
  -- an earlier match ends with `m` or before it, so it was already a match of `s`
  obtain ⟨a, rfl, ha⟩ : ∃ a, pre = pre' ++ a ∧ a ++ (m ++ (r ++ t)) = m' ++ r' := by
    rcases List.append_eq_append_iff.mp hcat with ⟨a, rfl, ha⟩ | ⟨a, rfl, ha⟩
    · exact absurd (by simp) hlt
    · exact ⟨a, rfl, ha.symm⟩
  rcases List.append_eq_append_iff.mp (by simpa [List.append_assoc] using ha :
    (a ++ m) ++ (r ++ t) = m' ++ r') with ⟨b, hb, hr⟩ | ⟨b, hb, hr⟩
  · have h0 : b = [] := he a m b hm (hb ▸ hm')
    subst h0
    have := hl pre' m' r (by rw [hb]; simp) hm'
    exact hlt this
  · have := hl pre' m' (b ++ r) (by rw [← List.append_assoc, List.append_assoc pre' m' b, ← hb]; simp) hm'
    exact hlt this

theorem Matches.append {s r : List α} {ms : List (List α)} (h : Matches P s ms r) (t : List α) :
    Matches P (s ++ t) ms (r ++ t) := by
  induction h with
  | nil s => exact .nil _
  | cons first more ih => exact .cons (first.append he t) ih

/-- Two lists of first matches of one text agree as far as both go. -/
theorem Matches.comparable {s r r' : List α} {ms ns : List (List α)} (h : Matches P s ms r)
    (h' : Matches P s ns r') (hl : ms.length ≤ ns.length) :
    ∃ ks, ns = ms ++ ks ∧ Matches P r ks r' := by
  induction h generalizing ns with
  | nil s => exact ⟨ns, rfl, h'⟩
  | cons first more ih =>
    cases h' with
    | nil s => simp at hl
    | cons first' more' =>
      obtain ⟨rfl, rfl⟩ := first.unique he first'
      obtain ⟨ks, rfl, hk⟩ := ih more' (by simpa using hl)
      exact ⟨ks, rfl, hk⟩

omit he in
private theorem noMatch_matches {s r : List α} {ms : List (List α)} (h : NoMatch P s)
    (hm : Matches P s ms r) : ms = [] ∧ r = s := by
  cases hm with
  | nil s => exact ⟨rfl, rfl⟩
  | cons first more =>
    obtain ⟨pre, hs, hm, -⟩ := first
    exact absurd hm (h _ _ _ hs)

/-- Whatever first matches are peeled off, they begin the list of all matches. -/
theorem AllMatches.starts {s r : List α} {ms ns : List (List α)} (h : AllMatches P s ms)
    (h' : Matches P s ns r) : ns <+: ms := by
  obtain ⟨rest, hm, hno⟩ := h
  rcases Nat.le_total ns.length ms.length with hl | hl
  · obtain ⟨ks, rfl, -⟩ := h'.comparable he hm hl
    exact List.prefix_append ns ks
  · obtain ⟨ks, rfl, hk⟩ := hm.comparable he h' hl
    obtain ⟨rfl, -⟩ := noMatch_matches hno hk
    simp

theorem AllMatches.unique {s : List α} {ms ns : List (List α)} (h : AllMatches P s ms)
    (h' : AllMatches P s ns) : ms = ns := by
  have ⟨r, hr, _⟩ := h'
  have ⟨r', hr', _⟩ := h
  have hp := h.starts he hr
  have hq := h'.starts he hr'
  exact hq.eq_of_length (Nat.le_antisymm hq.length_le hp.length_le)

end EndsOnce

end UsbCdc.LeftmostMatches
