import Mathlib.Data.List.Basic
import Mathlib.Data.List.Infix

/-! # Occurrences of a word and the pieces between them

`firstIndex` finds a word in a text, `occurrences` counts it, and `segments` cuts a text in
front of each occurrence behind its first symbol. For a word whose first symbol does not
come back in it occurrences do not overlap, and every cut leaves them whole. -/
namespace UsbCdc.Substrings

universe u
variable {α : Type u} [DecidableEq α]

/-- Where `w` begins for the first time. -/
def firstIndex (w : List α) : List α → Option ℕ
  | [] => if w = [] then some 0 else none
  | c :: cs => if w <+: c :: cs then some 0 else (firstIndex w cs).map (· + 1)

/-- How many suffixes of the text begin with `w`. -/
def occurrences (w s : List α) : ℕ := s.tails.countP (fun t => w <+: t)

/-- The text cut in front of every occurrence of `w` but one at its very beginning. -/
def segments (w : List α) : List α → List (List α)
  | [] => [[]]
  | c :: cs =>
    if w <+: cs then [c] :: segments w cs else (segments w cs).modifyHead (c :: ·)

variable {w : List α}

theorem firstIndex_of_prefix {s : List α} (h : w <+: s) : firstIndex w s = some 0 := by
  cases s with
  | nil => rw [firstIndex, if_pos (List.prefix_nil.mp h)]
  | cons c cs => rw [firstIndex, if_pos h]

theorem firstIndex_cons_of_not {c : α} {cs : List α} (h : ¬ w <+: c :: cs) :
    firstIndex w (c :: cs) = (firstIndex w cs).map (· + 1) := by
  rw [firstIndex, if_neg h]

theorem prefix_of_firstIndex {s : List α} {k : ℕ} (h : firstIndex w s = some k) :
    w <+: s.drop k := by
  induction s generalizing k with
  | nil =>
    rw [firstIndex] at h
    split at h
    · rename_i hw
      rw [hw]
      exact List.nil_prefix
    · cases h
  | cons c cs ih =>
    rw [firstIndex] at h
    split at h
    · rename_i hp
      cases h
      exact hp
    · obtain ⟨j, hj, rfl⟩ := Option.map_eq_some_iff.mp h
      exact ih hj

theorem length_le_of_firstIndex {s : List α} {k : ℕ} (h : firstIndex w s = some k) :
    k + w.length ≤ s.length := by
  induction s generalizing k with
  | nil =>
    rw [firstIndex] at h
    split at h
    · rename_i hw
      cases h
      rw [hw]
      exact Nat.le_refl 0
    · cases h
  | cons c cs ih =>
    rw [firstIndex] at h
    split at h
    · rename_i hp
      cases h
      rw [Nat.zero_add]
      exact hp.length_le
    · obtain ⟨j, hj, rfl⟩ := Option.map_eq_some_iff.mp h
      have hle := ih hj
      rw [List.length_cons]
      omega

/-- Nothing before it. -/
theorem not_prefix_of_lt_firstIndex {s : List α} {k j : ℕ} (h : firstIndex w s = some k)
    (hj : j < k) : ¬ w <+: s.drop j := by
  induction s generalizing k j with
  | nil =>
    rw [firstIndex] at h
    split at h
    · cases h
      exact absurd hj (Nat.not_lt_zero j)
    · cases h
  | cons c cs ih =>
    rw [firstIndex] at h
    split at h
    · cases h
      exact absurd hj (Nat.not_lt_zero j)
    · rename_i hp
      obtain ⟨k, hk, rfl⟩ := Option.map_eq_some_iff.mp h
      cases j with
      | zero => exact hp
      | succ j => exact ih hk (Nat.lt_of_succ_lt_succ hj)

/-- An initial part that ends before the end of the first occurrence has none. -/
theorem not_infix_of_prefix {s x : List α} {k : ℕ} (h : firstIndex w s = some k) (hx : x <+: s)
    (hlen : x.length < k + w.length) : ¬ w <:+: x := by
  rintro ⟨y, z, hyz⟩
  obtain ⟨r, rfl⟩ := hx
  have hl := congrArg List.length hyz
  rw [List.length_append, List.length_append] at hl
  apply not_prefix_of_lt_firstIndex h (j := y.length) (by omega)
  exact ⟨z ++ r, by rw [← hyz, List.append_assoc, List.append_assoc, List.drop_left]⟩

theorem firstIndex_eq_none {s : List α} : firstIndex w s = none ↔ ¬ w <:+: s := by
  induction s with
  | nil =>
    rw [firstIndex, List.infix_nil]
    split <;> simp [*]
  | cons c cs ih =>
    rw [firstIndex, List.infix_cons_iff, not_or, ← ih]
    split
    · rename_i hp
      simp [hp]
    · rename_i hp
      simp [hp]

theorem firstIndex_isSome_of_infix {s : List α} (h : w <:+: s) : ∃ k, firstIndex w s = some k := by
  cases hk : firstIndex w s with
  | none => exact absurd h (firstIndex_eq_none.mp hk)
  | some k => exact ⟨k, rfl⟩

omit [DecidableEq α] in
/-- Up to a symbol that the word lacks. -/
theorem prefix_of_prefix_append_cons {x y : List α} {d : α} (hd : d ∉ w) (h : w <+: x ++ d :: y) :
    w <+: x := by
  rcases List.prefix_or_prefix_of_prefix h (List.prefix_append x (d :: y)) with hw | ⟨z, rfl⟩
  · exact hw
  · rw [List.prefix_append_right_inj] at h
    cases z with
    | nil => rw [List.append_nil]
    | cons e z =>
      obtain ⟨rfl, -⟩ := List.cons_prefix_cons.mp h
      exact absurd (List.mem_append_right x List.mem_cons_self) hd

omit [DecidableEq α] in
/-- A symbol that the word lacks separates its occurrences. -/
theorem infix_append_cons {x y : List α} {d : α} (hw : w ≠ []) (hd : d ∉ w)
    (h : w <:+: x ++ d :: y) : w <:+: x ∨ w <:+: y := by
  induction x with
  | nil =>
    rcases List.infix_cons_iff.mp h with hp | hy
    · exact absurd (List.prefix_nil.mp (prefix_of_prefix_append_cons (x := []) hd hp)) hw
    · exact Or.inr hy
  | cons c cs ih =>
    rcases List.infix_cons_iff.mp h with hp | hi
    · exact Or.inl (prefix_of_prefix_append_cons (x := c :: cs) hd hp).isInfix
    · exact (ih hi).imp_left (fun hc => hc.trans (List.suffix_cons c cs).isInfix)

theorem firstIndex_append_cons {a : α} {v x y : List α} (ha : a ∉ x) (h : a :: v <+: y) :
    firstIndex (a :: v) (x ++ y) = some x.length := by
  induction x with
  | nil => exact firstIndex_of_prefix h
  | cons c cs ih =>
    rw [List.mem_cons, not_or] at ha
    have hp : ¬ a :: v <+: c :: (cs ++ y) := fun h => ha.1 (List.cons_prefix_cons.mp h).1
    rw [List.cons_append, firstIndex_cons_of_not hp, ih ha.2]
    rfl

theorem occurrences_cons (c : α) (cs : List α) :
    occurrences w (c :: cs) = occurrences w cs + (if w <+: c :: cs then 1 else 0) := by
  rw [occurrences, List.tails_cons, List.countP_cons]
  simp [occurrences]

theorem occurrences_nil (hw : w ≠ []) : occurrences w [] = 0 := by
  simp [occurrences, hw]

theorem segments_ne_nil (s : List α) : segments w s ≠ [] := by
  induction s with
  | nil => simp [segments]
  | cons c cs ih =>
    rw [segments]
    split
    · simp
    · simpa using ih

/-- The pieces lie side by side. -/
theorem flatten_segments (s : List α) : (segments w s).flatten = s := by
  induction s with
  | nil => rfl
  | cons c cs ih =>
    rw [segments]
    split
    · rw [List.flatten_cons, ih]
      rfl
    · obtain ⟨p, ps, hp⟩ := List.exists_cons_of_ne_nil (segments_ne_nil (w := w) cs)
      rw [hp] at ih ⊢
      rw [List.modifyHead_cons, List.flatten_cons, List.cons_append]
      exact congrArg (c :: ·) ih

theorem length_segments_cons (hw : w ≠ []) (c : α) (cs : List α) :
    (segments w (c :: cs)).length = occurrences w cs + 1 := by
  induction cs generalizing c with
  | nil =>
    rw [segments, if_neg (by simpa using hw), occurrences_nil hw]
    rfl
  | cons d ds ih =>
    rw [segments, occurrences_cons]
    split
    · rw [List.length_cons, ih]
    · rw [List.length_modifyHead, ih]

/-- As many pieces as occurrences, where the text begins with one. -/
theorem length_segments (hw : w ≠ []) {s : List α} (h : w <+: s) :
    (segments w s).length = occurrences w s := by
  cases s with
  | nil => exact absurd (List.prefix_nil.mp h) hw
  | cons c cs => rw [length_segments_cons hw, occurrences_cons, if_pos h]

/-- The first cut is at the first occurrence behind the first symbol. -/
theorem segments_of_firstIndex {c : α} {cs : List α} {k : ℕ} (h : firstIndex w cs = some k) :
    segments w (c :: cs) = (c :: cs.take k) :: segments w (cs.drop k) := by
  induction cs generalizing c k with
  | nil =>
    rw [firstIndex] at h
    split at h
    · rename_i hw
      cases h
      rw [segments, if_pos (by simp [hw])]
      rfl
    · cases h
  | cons d ds ih =>
    rw [firstIndex] at h
    split at h
    · rename_i hp
      cases h
      rw [segments, if_pos hp]
      rfl
    · rename_i hp
      obtain ⟨j, hj, rfl⟩ := Option.map_eq_some_iff.mp h
      rw [segments, if_neg hp, ih hj]
      rfl

theorem segments_of_firstIndex_none {c : α} {cs : List α} (h : firstIndex w cs = none) :
    segments w (c :: cs) = [c :: cs] := by
  induction cs generalizing c with
  | nil =>
    rw [firstIndex_eq_none, List.infix_nil] at h
    rw [segments, if_neg (by simpa using h)]
    rfl
  | cons d ds ih =>
    rw [firstIndex] at h
    split at h
    · cases h
    · rename_i hp
      rw [segments, if_neg hp, ih (Option.map_eq_none_iff.mp h)]
      rfl

theorem prefix_of_segments_cons {s p : List α} {ps : List (List α)} (h : segments w s = p :: ps) :
    p <+: s := by
  have hf := flatten_segments (w := w) s
  rw [h, List.flatten_cons] at hf
  exact ⟨ps.flatten, hf⟩

/-- No piece has an occurrence behind its first symbol. -/
theorem not_infix_tail_of_mem_segments (hw : w ≠ []) {s p : List α} (hp : p ∈ segments w s) :
    ¬ w <:+: p.tail := by
  induction s generalizing p with
  | nil =>
    rw [segments, List.mem_singleton] at hp
    simpa [hp] using hw
  | cons c cs ih =>
    rw [segments] at hp
    split at hp
    · rcases List.mem_cons.mp hp with rfl | hp
      · simpa using hw
      · exact ih hp
    · rename_i hno
      obtain ⟨q, qs, hq⟩ := List.exists_cons_of_ne_nil (segments_ne_nil (w := w) cs)
      rw [hq] at hp ih
      rw [List.modifyHead_cons] at hp
      rcases List.mem_cons.mp hp with rfl | hp
      · have hqt := ih List.mem_cons_self
        rw [List.tail_cons]
        cases q with
        | nil => simpa using hw
        | cons d ds =>
          rw [List.infix_cons_iff, not_or]
          exact ⟨fun h => hno (h.trans (prefix_of_segments_cons hq)), hqt⟩
      · exact ih (List.mem_cons_of_mem q hp)

/-- Without an occurrence at one of the positions `1, ..., n - 1` the first piece is at
least `n` long. -/
theorem take_prefix_head {s p : List α} {ps : List (List α)} (h : segments w s = p :: ps) {n : ℕ}
    (hn : ∀ j, 1 ≤ j → j < n → ¬ w <+: s.drop j) : s.take n <+: p := by
  induction s generalizing p ps n with
  | nil => simp
  | cons c cs ih =>
    cases n with
    | zero => simp
    | succ n =>
      rw [segments] at h
      split at h
      · rename_i hp
        cases n with
        | zero =>
          cases h
          simp
        | succ n => exact absurd hp (hn 1 (Nat.le_refl 1) (by omega))
      · obtain ⟨q, qs, hq⟩ := List.exists_cons_of_ne_nil (segments_ne_nil (w := w) cs)
        rw [hq, List.modifyHead_cons] at h
        cases h
        rw [List.take_succ_cons, List.cons_prefix_cons]
        refine ⟨rfl, ih hq ?_⟩
        intro j hj hjn
        exact hn (j + 1) (by omega) (by omega)

section Unbordered
variable {a : α} {v : List α} (ha : a ∉ v)
include ha

omit [DecidableEq α] in
/-- Behind its first symbol a word of this kind is not begun again. -/
theorem not_prefix_drop {s : List α} (h : a :: v <+: s) {j : ℕ} (h1 : 1 ≤ j)
    (hj : j < (a :: v).length) : ¬ a :: v <+: s.drop j := by
  obtain ⟨z, rfl⟩ := h
  rintro ⟨y, hy⟩
  obtain ⟨i, rfl⟩ : ∃ i, j = i + 1 := ⟨j - 1, by omega⟩
  rw [List.length_cons] at hj
  have hi : i < v.length := by omega
  rw [List.cons_append, List.cons_append, List.drop_succ_cons, List.drop_append_of_le_length hi.le,
    List.drop_eq_getElem_cons hi, List.cons_append] at hy
  exact ha ((List.cons_eq_cons.mp hy).1 ▸ List.getElem_mem hi)

/-- Every piece begins with the word, if the text does. -/
theorem prefix_of_mem_segments {s p : List α} (h : a :: v <+: s)
    (hp : p ∈ segments (a :: v) s) : a :: v <+: p := by
  have first {s p : List α} {ps : List (List α)} (h : a :: v <+: s)
      (hs : segments (a :: v) s = p :: ps) : a :: v <+: p := by
    have ht := take_prefix_head hs (n := (a :: v).length)
      (fun j h1 hj => not_prefix_drop ha h h1 hj)
    rwa [← List.prefix_iff_eq_take.mp h] at ht
  have others {s p : List α} (hp : p ∈ (segments (a :: v) s).tail) : a :: v <+: p := by
    induction s with
    | nil => simp [segments] at hp
    | cons c cs ih =>
      obtain ⟨q, qs, hq⟩ := List.exists_cons_of_ne_nil (segments_ne_nil (w := a :: v) cs)
      rw [hq, List.tail_cons] at ih
      rw [segments] at hp
      split at hp
      · rename_i hc
        rw [List.tail_cons, hq] at hp
        rcases List.mem_cons.mp hp with rfl | hp
        · exact first hc hq
        · exact ih hp
      · rw [hq, List.modifyHead_cons, List.tail_cons] at hp
        exact ih hp
  obtain ⟨q, qs, hq⟩ := List.exists_cons_of_ne_nil (segments_ne_nil (w := a :: v) s)
  rw [hq] at hp
  rcases List.mem_cons.mp hp with rfl | hp
  · exact first h hq
  · apply others (s := s)
    rw [hq]
    exact hp

omit [DecidableEq α] in
/-- No occurrence lies across the border to a text that begins with the word. -/
theorem prefix_of_prefix_append {x y : List α} (hx : x ≠ []) (hy : a :: v <+: y)
    (h : a :: v <+: x ++ y) : a :: v <+: x := by
  rcases Nat.lt_or_ge x.length (a :: v).length with hlt | hle
  · have hy' : a :: v <+: (x ++ y).drop x.length := by rwa [List.drop_left]
    exact absurd hy' (not_prefix_drop ha h (List.length_pos_of_ne_nil hx) hlt)
  · exact List.prefix_of_prefix_length_le h (List.prefix_append x y) hle

theorem segments_append {x y : List α} (hx : x ≠ []) (hno : ¬ a :: v <:+: x.tail)
    (hy : a :: v <+: y) : segments (a :: v) (x ++ y) = x :: segments (a :: v) y := by
  induction x with
  | nil => exact absurd rfl hx
  | cons c cs ih =>
    rw [List.tail_cons] at hno
    rw [List.cons_append, segments]
    cases cs with
    | nil => rw [List.nil_append, if_pos hy]
    | cons d ds =>
      have hp : ¬ a :: v <+: d :: ds ++ y := by
        intro h
        exact hno (prefix_of_prefix_append ha (List.cons_ne_nil d ds) hy h).isInfix
      have hds : ¬ a :: v <:+: ds := fun h => hno (h.trans (List.suffix_cons d ds).isInfix)
      rw [if_neg hp, ih (List.cons_ne_nil d ds) hds, List.modifyHead_cons]

/-- Texts with one occurrence each, at their beginning, are found again in their
concatenation. -/
theorem segments_flatten {ps : List (List α)} (hne : ps ≠ [])
    (h : ∀ p ∈ ps, a :: v <+: p ∧ ¬ a :: v <:+: p.tail) :
    segments (a :: v) ps.flatten = ps := by
  induction ps with
  | nil => exact absurd rfl hne
  | cons p ps ih =>
    obtain ⟨hp, hno⟩ := h p List.mem_cons_self
    cases ps with
    | nil =>
      obtain ⟨z, rfl⟩ := hp
      rw [List.flatten_singleton]
      exact segments_of_firstIndex_none (firstIndex_eq_none.mpr hno)
    | cons q qs =>
      have hq := (h q (List.mem_cons_of_mem p List.mem_cons_self)).1
      have hx : p ≠ [] := by
        rintro rfl
        cases List.prefix_nil.mp hp
      have hy : a :: v <+: (q :: qs).flatten := hq.trans (List.prefix_append q qs.flatten)
      rw [List.flatten_cons, segments_append ha hx hno hy,
        ih (List.cons_ne_nil q qs) (fun r hr => h r (List.mem_cons_of_mem p hr))]

end Unbordered

end UsbCdc.Substrings
