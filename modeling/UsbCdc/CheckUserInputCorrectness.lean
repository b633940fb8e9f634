import Mathlib.Data.List.DropRight
import UsbCdc.CheckUserInput

/-! # What the substring splitter accepts and returns

Every pointer of `checkUserInput` stays inside the string. The rows are the pieces of the
text between successive occurrences of `AT`, the last one cut at its first line end. -/
namespace UsbCdc.CheckUserInputCorrectness
open BoundedLoops CStrings CheckUserInput Substrings UsbPcdc

variable {s : List Byte}

theorem load_nat {a : ℕ} (h : a ≤ s.length) : load s a = .ok (s.getD a 0) := by
  rw [load, if_pos (Int.natCast_nonneg a), Int.toNat_natCast]
  rcases Nat.lt_or_eq_of_le h with hlt | rfl
  · simp [List.getElem?_append_left hlt, List.getElem?_eq_getElem hlt]
  · simp

theorem loads_nat {a : ℕ} (h : a ≤ s.length) (c : Byte) :
    loads s a c = true ↔ s.getD a 0 = c := by
  rw [loads, load_nat h]
  exact beq_iff_eq

/-- A byte other than the terminator lies in front of it. -/
theorem lt_length_of_getD {a : ℕ} {c : Byte} (hc : c ≠ 0) (h : s.getD a 0 = c) :
    a < s.length := by
  by_contra hle
  rw [List.getD_eq_getElem?_getD, List.getElem?_eq_none (Nat.le_of_not_lt hle)] at h
  exact hc h.symm

theorem pair_prefix_drop {a : ℕ} {c d : Byte} (hc : c ≠ 0) (hd : d ≠ 0) :
    [c, d] <+: s.drop a ↔ s.getD a 0 = c ∧ s.getD (a + 1) 0 = d := by
  constructor
  · rintro ⟨z, hz⟩
    have h0 := congrArg (fun l => l[0]?) hz
    have h1 := congrArg (fun l => l[1]?) hz
    simp only [List.cons_append, List.getElem?_cons_zero, List.getElem?_cons_succ,
      List.getElem?_drop, Nat.add_zero] at h0 h1
    simp [List.getD_eq_getElem?_getD, ← h0, ← h1]
  · rintro ⟨h0, h1⟩
    have hl0 := lt_length_of_getD hc h0
    have hl1 := lt_length_of_getD hd h1
    rw [List.getD_eq_getElem?_getD, List.getElem?_eq_getElem hl0, Option.getD_some] at h0
    rw [List.getD_eq_getElem?_getD, List.getElem?_eq_getElem hl1, Option.getD_some] at h1
    rw [List.drop_eq_getElem_cons hl0, List.drop_eq_getElem_cons hl1, h0, h1]
    exact ⟨_, rfl⟩

theorem loadsPair_nat {a : ℕ} {c d : Byte} (h : a ≤ s.length) (hc : c ≠ 0) (hd : d ≠ 0) :
    loadsPair s a c d = .ok (decide ([c, d] <+: s.drop a)) := by
  rw [loadsPair, load_nat h]
  change (if s.getD a 0 = c then load s (a + 1) >>= fun x => Except.ok (decide (x = d))
    else .ok false) = _
  by_cases h0 : s.getD a 0 = c
  · have hl := lt_length_of_getD hc h0
    rw [if_pos h0, ← Nat.cast_succ, load_nat hl]
    change Except.ok (decide (s.getD (a + 1) 0 = d)) = _
    simp only [pair_prefix_drop hc hd, h0, true_and]
  · rw [if_neg h0]
    simp only [pair_prefix_drop hc hd, h0, false_and, decide_false]

theorem loadsPair_AT {a : ℕ} (h : a ≤ s.length) :
    loadsPair s a chA chT = .ok (decide (text "AT" <+: s.drop a)) :=
  loadsPair_nat h (by decide) (by decide)

theorem loadsPair_crlf {a : ℕ} (h : a ≤ s.length) :
    loadsPair s a chCR chLF = .ok (decide (text "\r\n" <+: s.drop a)) :=
  loadsPair_nat h (by decide) (by decide)

def isSpace (c : Byte) : Bool := c == chSpace

theorem getD_eq_headD (a : ℕ) : s.getD a 0 = (s.drop a).headD 0 := by
  rw [List.getD_eq_getElem?_getD, List.headD_eq_head?_getD, List.head?_drop]

theorem skipLoop_run {a : ℕ} (h : a ≤ s.length) :
    (skipLoop s).run a = (a + ((s.drop a).takeWhile isSpace).length : ℕ) := by
  refine (skipLoop s).induction (P := fun p => ∀ a : ℕ, p = a → a ≤ s.length →
    (skipLoop s).run p = (a + ((s.drop a).takeWhile isSpace).length : ℕ)) ?_ ?_ a a rfl h
  · intro p hg a hp h
    subst hp
    rw [(skipLoop s).run_exit hg]
    have hc : s.getD a 0 ≠ chSpace := by
      intro he
      exact absurd ((loads_nat h chSpace).mpr he) (by simpa [skipLoop] using hg)
    rw [getD_eq_headD] at hc
    cases hr : s.drop a with
    | nil => rfl
    | cons c cs =>
      rw [hr] at hc
      have hsp : ¬ isSpace c = true := by simpa [isSpace] using hc
      rw [List.takeWhile_cons, if_neg hsp]
      rfl
  · intro p hg ih a hp h
    subst hp
    rw [(skipLoop s).run_step hg]
    have hc := (loads_nat h chSpace).mp hg
    have hl := lt_length_of_getD (show chSpace ≠ 0 by decide) hc
    have hsp : isSpace s[a] = true := by
      rw [List.getD_eq_getElem?_getD, List.getElem?_eq_getElem hl, Option.getD_some] at hc
      simp [isSpace, hc]
    rw [ih (a + 1) rfl hl, List.drop_eq_getElem_cons hl, List.takeWhile_cons, if_pos hsp,
      List.length_cons, Nat.add_right_comm, Nat.add_assoc]

/-- The text that the function splits: without leading spaces, and without an `AT` in
front of another one. -/
def trimmed (s : List Byte) : List Byte :=
  let t := s.dropWhile isSpace
  if text "ATAT" <+: t then t.drop 2 else t

theorem drop_takeWhile (s : List Byte) :
    s.drop (s.takeWhile isSpace).length = s.dropWhile isSpace := by
  have h := List.takeWhile_append_dropWhile (p := isSpace) (l := s)
  calc s.drop (s.takeWhile isSpace).length
      = (s.takeWhile isSpace ++ s.dropWhile isSpace).drop (s.takeWhile isSpace).length := by rw [h]
    _ = s.dropWhile isSpace := List.drop_left

theorem startsWith_atat {t : List Byte} :
    text "ATAT" <+: t ↔ text "AT" <+: t ∧ text "AT" <+: t.drop 2 := by
  constructor
  · rintro ⟨z, rfl⟩
    exact ⟨⟨text "AT" ++ z, rfl⟩, ⟨z, rfl⟩⟩
  · rintro ⟨⟨y, rfl⟩, ⟨z, hz⟩⟩
    refine ⟨z, ?_⟩
    have hy : (text "AT" ++ y).drop 2 = y := rfl
    rw [← hy, ← hz]
    rfl

theorem findStart_eq (s : List Byte) :
    ¬ text "AT" <+: trimmed s ∧ findStart s = .ok none ∨
      ∃ a : ℕ, a ≤ s.length ∧ s.drop a = trimmed s ∧ text "AT" <+: trimmed s ∧
        findStart s = .ok (some a) := by
  have hrun := skipLoop_run (Nat.zero_le s.length)
  rw [Nat.zero_add, List.drop_zero, Nat.cast_zero] at hrun
  have hle : (s.takeWhile isSpace).length ≤ s.length := (List.takeWhile_prefix _).length_le
  have hdrop := drop_takeWhile s
  generalize (s.takeWhile isSpace).length = a at hrun hle hdrop
  have h0 := loadsPair_AT hle
  rw [hdrop] at h0
  rw [findStart, hrun, h0]
  by_cases hat : text "AT" <+: s.dropWhile isSpace
  · have hlen : a + 2 ≤ s.length := by
      have hl := hat.length_le
      rw [← hdrop, List.length_drop] at hl
      have h2 : (text "AT").length = 2 := rfl
      omega
    have h1 := loadsPair_AT hlen
    rw [← List.drop_drop, hdrop, Nat.cast_add, Nat.cast_ofNat] at h1
    right
    by_cases hatat : text "AT" <+: (s.dropWhile isSpace).drop 2
    · have ht : trimmed s = (s.dropWhile isSpace).drop 2 :=
        if_pos (startsWith_atat.mpr ⟨hat, hatat⟩)
      refine ⟨a + 2, hlen, by rw [← List.drop_drop, hdrop, ht], by rwa [ht], ?_⟩
      rw [decide_eq_true hat, h1, decide_eq_true hatat]
      rfl
    · have ht : trimmed s = s.dropWhile isSpace :=
        if_neg (fun h => hatat (startsWith_atat.mp h).2)
      refine ⟨a, hle, by rw [hdrop, ht], by rwa [ht], ?_⟩
      rw [decide_eq_true hat, h1, decide_eq_false hatat]
      rfl
  · left
    have ht : trimmed s = s.dropWhile isSpace := if_neg (fun h => hat (startsWith_atat.mp h).1)
    refine ⟨by rwa [ht], ?_⟩
    rw [decide_eq_false hat]
    rfl

section FromStart
variable {a : ℕ} {t : List Byte} (hd : s.drop a = t) (hat : text "AT" <+: t)
include hd

theorem length_of_drop (hne : t ≠ []) : a + t.length = s.length := by
  have hl := congrArg List.length hd
  have hpos := List.length_pos_of_ne_nil hne
  rw [List.length_drop] at hl
  omega

theorem getD_of_drop (m : ℕ) : s.getD (a + m) 0 = t.getD m 0 := by
  rw [← hd, List.getD_eq_getElem?_getD, List.getD_eq_getElem?_getD, List.getElem?_drop]

include hat

/-- The backward walk over the first `m` bytes stops in front of their trailing spaces and
not before the `T`. -/
theorem backLoop_run {m : ℕ} (h2 : 2 ≤ m) (hm : m ≤ t.length) :
    (backLoop s).run ((a + m : ℕ) - 1 : ℤ) =
      ((a + ((t.take m).rdropWhile isSpace).length : ℕ) - 1 : ℤ) ∧
      2 ≤ ((t.take m).rdropWhile isSpace).length := by
  have hne : t ≠ [] := by
    intro h
    rw [h, List.length_nil] at hm
    omega
  have hs := length_of_drop hd hne
  induction m, h2 using Nat.le_induction with
  | base =>
    -- the walk has come back to the `T`, which is no space
    have htake : t.take 2 = text "AT" := (List.prefix_iff_eq_take.mp hat).symm
    have hT : t.getD 1 0 = chT := by
      obtain ⟨z, rfl⟩ := hat
      rfl
    have hexit : (backLoop s).guard ((a + 2 : ℕ) - 1 : ℤ) = false := by
      have hp : ((a + 2 : ℕ) - 1 : ℤ) = (a + 1 : ℕ) := by omega
      rw [hp, Bool.eq_false_iff]
      intro hg
      have hc := (loads_nat (show a + 1 ≤ s.length by omega) chSpace).mp hg
      rw [getD_of_drop hd, hT] at hc
      exact absurd hc (by decide)
    rw [(backLoop s).run_exit hexit, htake]
    exact ⟨rfl, Nat.le_refl 2⟩
  | succ m h2 ih =>
    have hlt : m < t.length := hm
    have htake : t.take (m + 1) = t.take m ++ [t[m]] := (List.take_append_getElem hlt).symm
    have hget : s.getD (a + m) 0 = t[m] := by
      rw [getD_of_drop hd, List.getD_eq_getElem?_getD, List.getElem?_eq_getElem hlt,
        Option.getD_some]
    have hp : ((a + (m + 1) : ℕ) - 1 : ℤ) = (a + m : ℕ) := by omega
    have hguard : (backLoop s).guard (a + m : ℕ) = true ↔ isSpace t[m] = true := by
      rw [isSpace, beq_iff_eq, ← hget]
      exact loads_nat (by omega) chSpace
    rw [hp, htake]
    by_cases hsp : isSpace t[m] = true
    · rw [(backLoop s).run_step (hguard.mpr hsp), List.rdropWhile_concat_pos _ _ _ hsp]
      exact ih hlt.le
    · have hexit : (backLoop s).guard (a + m : ℕ) = false :=
        Bool.eq_false_iff.mpr (fun hg => hsp (hguard.mp hg))
      rw [(backLoop s).run_exit hexit, List.rdropWhile_concat_neg _ _ _ hsp,
        List.length_append, List.length_take_of_le hlt.le, List.length_singleton]
      exact ⟨hp.symm, by omega⟩

omit hd hat in
/-- The last two bytes of an initial part, seen from the whole text. -/
theorem crlf_suffix_iff {z : List Byte} (hz : z <+: t) (h2 : 2 ≤ z.length) :
    text "\r\n" <:+ z ↔ text "\r\n" <+: t.drop (z.length - 2) := by
  have hlen : (text "\r\n").length = 2 := rfl
  have htake : z.drop (z.length - 2) = (t.drop (z.length - 2)).take 2 := by
    obtain ⟨r, rfl⟩ := hz
    have hdrop : (z.drop (z.length - 2)).length = 2 := by
      rw [List.length_drop]
      omega
    rw [List.drop_append_of_le_length (Nat.sub_le _ _), List.take_left' hdrop]
  rw [List.suffix_iff_eq_drop, List.prefix_iff_eq_take, hlen, htake]

theorem endsLine_eq (h0 : 0 ∉ s) :
    endsLine s a = .ok (decide (text "\r\n" <:+ t.rdropWhile isSpace)) := by
  have h2 := hat.length_le
  have htext : (text "AT").length = 2 := rfl
  rw [htext] at h2
  have hne : t ≠ [] := by
    intro h
    rw [h, List.length_nil] at h2
    omega
  have hs := length_of_drop hd hne
  have hstrlen : strlenAt s a = .ok t.length := by
    rw [strlenAt, if_pos ⟨Int.natCast_nonneg a, by omega⟩, Int.toNat_natCast, strlen, hd,
      cString_of_notMem (fun h => h0 (List.mem_of_mem_drop (hd ▸ h)))]
  obtain ⟨hrun, hlen⟩ := backLoop_run hd hat h2 (Nat.le_refl t.length)
  rw [List.take_length] at hrun hlen
  have hz : t.rdropWhile isSpace <+: t := List.rdropWhile_prefix _ _
  have hsuffix := crlf_suffix_iff hz hlen
  have hzl := hz.length_le
  generalize t.rdropWhile isSpace = z at hrun hlen hz hsuffix hzl ⊢
  have hstop : ((a + z.length : ℕ) - 1 : ℤ) = (a + z.length - 1 : ℕ) := by omega
  have hprev : ((a + z.length - 1 : ℕ) - (((text "\r\n").length : ℕ) - 1) : ℤ) =
      (a + (z.length - 2) : ℕ) := by
    have hlen : (text "\r\n").length = 2 := rfl
    rw [hlen]
    omega
  have hpair := loadsPair_crlf (show a + (z.length - 2) ≤ s.length by omega)
  rw [← List.drop_drop, hd] at hpair
  rw [endsLine, hstrlen]
  change (load s ((backLoop s).run (a + t.length - 1)) >>= fun _ =>
    loadsPair s ((backLoop s).run (a + t.length - 1) - (((text "\r\n").length : ℕ) - 1)) chCR
      chLF) = _
  rw [← Nat.cast_add, hrun, hstop, load_nat (by omega), hprev, hpair, decide_eq_decide.mpr hsuffix]
  rfl

end FromStart

/-! ### Searching and copying -/

theorem strstr_eq (h0 : 0 ∉ s) {a : ℕ} {c : Byte} {cs : List Byte} (hd : s.drop a = c :: cs)
    (w : List Byte) :
    strstr s (a + 1) w = .ok ((firstIndex w cs).map (fun k : ℕ => ((a + (k + 1) : ℕ) : ℤ))) := by
  have hl := length_of_drop hd (List.cons_ne_nil c cs)
  rw [List.length_cons] at hl
  have hcs : s.drop (a + 1) = cs := by rw [← List.drop_drop, hd, List.drop_one, List.tail_cons]
  have h0' : 0 ∉ cs := fun h => h0 (List.mem_of_mem_drop (hcs ▸ h))
  have hin : InString s ((a : ℤ) + 1) := ⟨by omega, by omega⟩
  have htoNat : ((a : ℤ) + 1).toNat = a + 1 := by omega
  rw [strstr, if_pos hin, htoNat, hcs, cString_of_notMem h0']
  congr 2
  funext k
  omega

/-- The string in a row. -/
def rowString (row : OutRow) : List Byte := cString row.toList

theorem length_of_strings {rows : List OutRow} {pieces : List (List Byte)} {x : List Byte}
    (h : rows.map rowString = pieces ++ [x]) : rows.length = pieces.length + 1 := by
  have hlen := congrArg List.length h
  rwa [List.length_map, List.length_append, List.length_singleton] at hlen

/-- A row behind the copy of the first `n` bytes of `t` and the store of the terminator. -/
private theorem toList_copied (row : OutRow) {t : List Byte} (h0 : 0 ∉ t) {n : ℕ}
    (hn : n ≤ t.length) (hr : n < readBufSize) :
    ((strncpy row t n).setIfInBounds n 0).toList = t.take n ++ 0 :: row.toList.drop (n + 1) := by
  apply List.ext_getElem
  · simp only [Vector.length_toList, List.length_append, List.length_take_of_le hn,
      List.length_cons, List.length_drop]
    omega
  · intro i hi hi'
    rw [Vector.length_toList] at hi
    rw [Vector.getElem_toList]
    rcases Nat.lt_trichotomy i n with hlt | rfl | hgt
    · have hit : i < t.length := hlt.trans_le hn
      rw [Vector.getElem_setIfInBounds_ne hi hlt.ne',
        List.getElem_append_left (by rw [List.length_take_of_le hn]; exact hlt), List.getElem_take]
      simp [strncpy, hlt, cString_of_notMem h0, hit]
    · rw [Vector.getElem_setIfInBounds_self,
        List.getElem_append_right (by rw [List.length_take_of_le hn])]
      simp [List.length_take_of_le hn]
    · obtain ⟨j, rfl⟩ : ∃ j, i = n + (j + 1) := ⟨i - (n + 1), by omega⟩
      rw [Vector.getElem_setIfInBounds_ne hi hgt.ne,
        List.getElem_append_right (by rw [List.length_take_of_le hn]; omega)]
      simp [strncpy, List.length_take_of_le hn, Nat.add_comm, Nat.add_left_comm]
      rfl

theorem copyCommand_eq (h0 : 0 ∉ s) {a : ℕ} {t : List Byte} (hd : s.drop a = t) {n : ℕ}
    (hn : n ≤ t.length) (hr : n < readBufSize) (written rest : List OutRow) (row : OutRow) :
    ∃ row', rowString row' = t.take n ∧ 0 ∈ row'.toList ∧
      copyCommand s (written ++ row :: rest) written.length a (some ((a + n : ℕ) : ℤ)) =
        .ok (written ++ row' :: rest) := by
  have h0' : 0 ∉ t := fun h => h0 (List.mem_of_mem_drop (hd ▸ h))
  have hrow := toList_copied row h0' hn hr
  refine ⟨(strncpy row t n).setIfInBounds n 0, ?_, ?_, ?_⟩
  · rw [rowString, hrow, cString_append_zero (fun h => h0' (List.mem_of_mem_take h))]
  · rw [hrow]
    exact List.mem_append_right _ List.mem_cons_self
  · have hle : ¬ ((a + n : ℕ) : ℤ) < a := by omega
    have hlen : (((a + n : ℕ) : ℤ) - a).toNat = n := by omega
    simp only [copyCommand, if_neg hle, hlen, List.getElem?_append_right (Nat.le_refl _),
      Nat.sub_self, List.getElem?_cons_zero, if_pos hr, Int.toNat_natCast, hd,
      List.set_append_right _ _ (Nat.le_refl _), List.set_cons_zero]

/-! ### The splitting loop -/

variable {t : List Byte} {out : List OutRow}

/-- The loop between two iterations: `pieces` are cut off and stored, and `rest` is the
text from `start` on. -/
structure Splitting (s t : List Byte) (out : List OutRow) (f : SplitFrame)
    (pieces : List (List Byte)) (rest : List Byte) (written : List OutRow) : Prop where
  start : ∃ a : ℕ, f.start = a ∧ s.drop a = rest
  nonempty : rest ≠ []
  count : f.countCmds = pieces.length + 1
  rows : f.ptrBuffOut = written ++ out.drop pieces.length
  strings : written.map rowString = pieces
  terminated : ∀ row ∈ written, 0 ∈ row.toList
  split : segments (text "AT") t = pieces ++ segments (text "AT") rest

/-- What holds after any number of iterations. -/
def Splits (s t : List Byte) (out : List OutRow) (r : Except Fault SplitFrame) : Prop :=
  ∃ f pieces rest written, r = .ok f ∧ Splitting s t out f pieces rest written

section Splitting
variable {f : SplitFrame} {pieces : List (List Byte)} {rest : List Byte} {written : List OutRow}

theorem Splitting.length_written (h : Splitting s t out f pieces rest written) :
    written.length = pieces.length := by
  rw [← h.strings, List.length_map]

theorem nextCommand_eq (h0 : 0 ∉ s) {c : Byte} {cs : List Byte} {a : ℕ} (ha : f.start = a)
    (hd : s.drop a = c :: cs) :
    nextCommand s f =
      .ok ((firstIndex (text "AT") cs).map (fun k : ℕ => ((a + (k + 1) : ℕ) : ℤ))) := by
  rw [nextCommand, ha]
  exact strstr_eq h0 hd _

/-- A row for the piece under way. -/
theorem Splitting.row (h : Splitting s t out f pieces rest written)
    (hout : (segments (text "AT") t).length ≤ out.length) :
    ∃ row, f.ptrBuffOut = written ++ row :: out.drop (pieces.length + 1) := by
  have hpos := List.length_pos_of_ne_nil (segments_ne_nil (w := text "AT") rest)
  rw [h.split, List.length_append] at hout
  have hlt : pieces.length < out.length := by omega
  exact ⟨out[pieces.length], by rw [h.rows, List.drop_eq_getElem_cons hlt]⟩

/-- Storing the first `n` bytes of what is left. -/
theorem Splitting.copy (h : Splitting s t out f pieces rest written) (h0 : 0 ∉ s)
    (hl : s.length < readBufSize) (hout : (segments (text "AT") t).length ≤ out.length) {a : ℕ}
    (ha : f.start = a) (hd : s.drop a = rest) {n : ℕ} (hn : n ≤ rest.length) :
    ∃ written', written'.map rowString = pieces ++ [rest.take n] ∧
      (∀ row ∈ written', 0 ∈ row.toList) ∧
      copyCommand s f.ptrBuffOut (f.countCmds - 1) f.start (some ((a + n : ℕ) : ℤ)) =
        .ok (written' ++ out.drop written'.length) := by
  obtain ⟨row, hrow⟩ := h.row hout
  have hs := length_of_drop hd h.nonempty
  obtain ⟨row', hstring, hterm, hcopy⟩ := copyCommand_eq h0 hd hn (by omega) written
    (out.drop (pieces.length + 1)) row
  refine ⟨written ++ [row'], ?_, ?_, ?_⟩
  · rw [List.map_append, h.strings, List.map_singleton, hstring]
  · intro r hr
    rcases List.mem_append.mp hr with hr | hr
    · exact h.terminated r hr
    · rw [List.mem_singleton.mp hr]
      exact hterm
  · rw [h.count, Nat.add_sub_cancel, ← h.length_written, ha, hrow, hcopy, List.length_append,
      List.length_singleton, h.length_written, List.append_assoc, List.singleton_append]

theorem Splitting.step (h : Splitting s t out f pieces rest written) (h0 : 0 ∉ s)
    (hl : s.length < readBufSize) (hout : (segments (text "AT") t).length ≤ out.length)
    (hg : splitGuard s (.ok f) = true) : Splits s t out (splitStep s f) := by
  obtain ⟨a, ha, hd⟩ := h.start
  obtain ⟨c, cs, hr⟩ := List.exists_cons_of_ne_nil h.nonempty
  have hnext := nextCommand_eq h0 ha (hd.trans hr)
  cases hk : firstIndex (text "AT") cs with
  | none =>
    rw [splitGuard, hnext, hk] at hg
    cases hg
  | some k =>
    have hpre := prefix_of_firstIndex hk
    have hkl : k + 1 ≤ rest.length := by
      have hle := length_le_of_firstIndex hk
      rw [hr, List.length_cons]
      omega
    obtain ⟨written', hstrings, hterm, hcopy⟩ := h.copy h0 hl hout ha hd hkl
    have hlen : written'.length = (pieces ++ [rest.take (k + 1)]).length := by
      rw [length_of_strings hstrings, List.length_append, List.length_singleton]
    refine ⟨⟨((a + (k + 1) : ℕ) : ℤ), f.countCmds + 1, written' ++ out.drop written'.length⟩,
      pieces ++ [rest.take (k + 1)], cs.drop k, written', ?_, ?_⟩
    · rw [splitStep, hnext, hk]
      change (copyCommand s f.ptrBuffOut (f.countCmds - 1) f.start
        (some ((a + (k + 1) : ℕ) : ℤ))).bind _ = _
      rw [hcopy]
      rfl
    · refine ⟨⟨a + (k + 1), rfl, ?_⟩, ?_, ?_, ?_, hstrings, hterm, ?_⟩
      · rw [← List.drop_drop, hd, hr, List.drop_succ_cons]
      · intro hnil
        rw [hnil] at hpre
        exact absurd (List.prefix_nil.mp hpre) (by decide)
      · rw [h.count, List.length_append, List.length_singleton]
      · rw [hlen]
      · rw [h.split, hr, segments_of_firstIndex hk, List.append_assoc]
        rfl

/-- Where the loop ends, the rest has no further command. -/
theorem Splitting.last (h : Splitting s t out f pieces rest written) (h0 : 0 ∉ s)
    (hg : splitGuard s (.ok f) = false) : segments (text "AT") t = pieces ++ [rest] := by
  obtain ⟨a, ha, hd⟩ := h.start
  obtain ⟨c, cs, hr⟩ := List.exists_cons_of_ne_nil h.nonempty
  cases hk : firstIndex (text "AT") cs with
  | none => rw [h.split, hr, segments_of_firstIndex_none hk]
  | some k =>
    rw [splitGuard, nextCommand_eq h0 ha (hd.trans hr), hk] at hg
    cases hg

end Splitting

theorem splitLoop_run (h0 : 0 ∉ s) (hl : s.length < readBufSize) {a : ℕ} (hd : s.drop a = t)
    (hne : t ≠ []) (hout : (segments (text "AT") t).length ≤ out.length) :
    ∃ f pieces rest written, (splitLoop s).run (.ok ⟨a, 1, out⟩) = .ok f ∧
      Splitting s t out f pieces rest written ∧
      segments (text "AT") t = pieces ++ [rest] := by
  have hstart : Splits s t out (.ok ⟨a, 1, out⟩) :=
    ⟨_, [], t, [], rfl, ⟨a, rfl, hd⟩, hne, rfl, rfl, rfl, by simp, rfl⟩
  obtain ⟨⟨f, pieces, rest, written, hf, h⟩, hg⟩ := (splitLoop s).run_invariant (Splits s t out) (by
    intro r hg hr
    obtain ⟨f, pieces, rest, written, rfl, h⟩ := hr
    exact h.step h0 hl hout hg) hstart
  rw [hf] at hg
  exact ⟨f, pieces, rest, written, hf, h, h.last h0 hg⟩

/-- The rows are the pieces in front of the commands' beginnings, the last one up to its
first line end. -/
theorem splitCommands_eq (h0 : 0 ∉ s) (hl : s.length < readBufSize) {a : ℕ} (hd : s.drop a = t)
    (hout : (segments (text "AT") t).length ≤ out.length) {pieces : List (List Byte)}
    {c : Byte} {cs : List Byte} (hseg : segments (text "AT") t = pieces ++ [c :: cs]) {k : ℕ}
    (hk : firstIndex (text "\r\n") cs = some k) :
    ∃ written, written.map rowString = pieces ++ [c :: cs.take k] ∧
      (∀ row ∈ written, 0 ∈ row.toList) ∧
      splitCommands s a out = .ok (written.length, written ++ out.drop written.length) := by
  have hne : t ≠ [] := by
    rw [← flatten_segments (w := text "AT") t, hseg, List.flatten_append]
    simp
  obtain ⟨f, pieces', rest, written, hf, h, hlast⟩ := splitLoop_run h0 hl hd hne hout
  obtain ⟨rfl, hr⟩ := List.append_inj' (hlast.symm.trans hseg) rfl
  obtain rfl : rest = c :: cs := (List.cons.inj hr).1
  obtain ⟨a', ha, hd'⟩ := h.start
  have hkl : k + 1 ≤ (c :: cs).length := by
    have hle := length_le_of_firstIndex hk
    rw [List.length_cons]
    omega
  obtain ⟨written', hstrings, hterm, hcopy⟩ := h.copy h0 hl hout ha hd' hkl
  refine ⟨written', hstrings, hterm, ?_⟩
  have hcount : f.countCmds = written'.length := by rw [h.count, length_of_strings hstrings]
  have hstr : strstr s (f.start + 1) (text "\r\n") = .ok (some ((a' + (k + 1) : ℕ) : ℤ)) := by
    rw [ha, strstr_eq h0 hd', hk]
    rfl
  rw [splitCommands, hf]
  change (strstr s (f.start + 1) (text "\r\n")).bind (fun stop =>
    (copyCommand s f.ptrBuffOut (f.countCmds - 1) f.start stop).bind
      (fun rows => .ok ((f.countCmds : ℤ), rows))) = _
  rw [hstr]
  change (copyCommand s f.ptrBuffOut (f.countCmds - 1) f.start _).bind _ = _
  rw [hcopy, hcount]
  rfl

/-! ### Acceptance and the split -/

/-- The two formats that the function checks. -/
def Accepted (t : List Byte) : Prop :=
  text "AT" <+: t ∧ text "\r\n" <:+ t.rdropWhile isSpace

instance (t : List Byte) : Decidable (Accepted t) := inferInstanceAs (Decidable (_ ∧ _))

/-- `x` is `t` up to the first line end behind its last `AT`. -/
def CutAtLineEnd (t x : List Byte) : Prop :=
  ∃ u v rest, x = u ++ text "AT" ++ v ∧ t = x ++ text "\r\n" ++ rest ∧
    ¬ text "AT" <:+: v ++ text "\r\n" ++ rest ∧ ¬ text "\r\n" <:+: v ++ [chCR]

/-- One `AT`, at the beginning. -/
def IsCommandText (x : List Byte) : Prop := text "AT" <+: x ∧ ¬ text "AT" <:+: x.tail

theorem text_AT_ne_nil : text "AT" ≠ [] := by decide

theorem chA_notMem_chT : chA ∉ [chT] := by decide

theorem isCommandText_of_mem_segments (hat : text "AT" <+: t) {x : List Byte}
    (hx : x ∈ segments (text "AT") t) : IsCommandText x :=
  ⟨prefix_of_mem_segments chA_notMem_chT hat hx, not_infix_tail_of_mem_segments text_AT_ne_nil hx⟩

/-- The line end in front of the trailing spaces lies behind the last `AT`. -/
private theorem crlf_infix_last (ht : Accepted t) {pieces : List (List Byte)} {x : List Byte}
    (hseg : segments (text "AT") t = pieces ++ [chA :: x]) : text "\r\n" <:+: x := by
  obtain ⟨-, y, hy⟩ := ht
  have hsplit : y ++ (text "\r\n" ++ t.rtakeWhile isSpace) = t := by
    rw [← List.append_assoc, hy, List.rdropWhile_append_rtakeWhile]
  have hlast : pieces.flatten ++ chA :: x = t := by
    rw [← flatten_segments (w := text "AT") t, hseg, List.flatten_append, List.flatten_singleton]
  have hspace : chA ∉ text "\r\n" ++ t.rtakeWhile isSpace := by
    rw [List.mem_append, not_or]
    exact ⟨by decide, fun h => absurd (List.mem_rtakeWhile_imp h) (by decide)⟩
  -- the last piece begins with an `A`, so it cannot lie inside the line end and the spaces
  rcases List.suffix_or_suffix_of_suffix ⟨_, hlast⟩ ⟨_, hsplit⟩ with h | h
  · exact absurd (h.mem List.mem_cons_self) hspace
  · have hin := (List.prefix_append (text "\r\n") (t.rtakeWhile isSpace)).isInfix.trans h.isInfix
    rcases List.infix_cons_iff.mp hin with hp | hx
    · exact absurd (List.cons_prefix_cons.mp hp).1 (by decide)
    · exact hx

/-- The last piece up to its first line end is still a command, and what is left out
begins with that line end. -/
private theorem cutAtLineEnd_last (hat : text "AT" <+: t) {pieces : List (List Byte)}
    {cs : List Byte} (hseg : segments (text "AT") t = pieces ++ [chA :: cs]) {k : ℕ}
    (hk : firstIndex (text "\r\n") cs = some k) :
    IsCommandText (chA :: cs.take k) ∧
      CutAtLineEnd t ((pieces ++ [chA :: cs.take k]).flatten) := by
  obtain ⟨⟨v, hv⟩, hno⟩ := isCommandText_of_mem_segments hat
    (hseg ▸ List.mem_append_right pieces (List.mem_singleton_self _))
  rw [List.tail_cons] at hno
  obtain rfl : chT :: v = cs := (List.cons_eq_cons.mp hv).2
  cases k with
  | zero => exact absurd (List.cons_prefix_cons.mp (prefix_of_firstIndex hk)).1 (by decide)
  | succ k =>
    obtain ⟨rest, hrest⟩ := prefix_of_firstIndex hk
    rw [List.drop_succ_cons] at hrest
    have hv' : v.take k ++ text "\r\n" ++ rest = v := by
      rw [List.append_assoc, hrest, List.take_append_drop]
    rw [List.take_succ_cons]
    refine ⟨⟨⟨v.take k, rfl⟩, ?_⟩, pieces.flatten, v.take k, rest, ?_, ?_, ?_, ?_⟩
    · intro h
      exact hno (h.trans (List.cons_prefix_cons.mpr ⟨rfl, List.take_prefix k v⟩).isInfix)
    · rw [List.flatten_append, List.flatten_singleton, List.append_assoc]
      rfl
    · rw [List.flatten_append, List.flatten_singleton,
        ← flatten_segments (w := text "AT") t, hseg, List.flatten_append, List.flatten_singleton]
      conv_lhs => rw [← hv']
      simp only [List.append_assoc, List.cons_append]
    · rw [hv']
      exact fun h => hno (h.trans (List.suffix_cons chT v).isInfix)
    · have hx : chT :: (v.take k ++ [chCR]) <+: chT :: v :=
        List.cons_prefix_cons.mpr ⟨rfl, chLF :: rest, by
          conv_rhs => rw [← hv']
          rw [List.append_assoc, List.append_assoc]
          rfl⟩
      have hlen : (chT :: (v.take k ++ [chCR])).length < k + 1 + (text "\r\n").length := by
        have h2 : (text "\r\n").length = 2 := rfl
        have hle := List.length_take_le k v
        rw [List.length_cons, List.length_append, List.length_singleton]
        omega
      exact fun h => not_infix_of_prefix hk hx hlen (h.trans (List.suffix_cons _ _).isInfix)

variable {buffSize : ℕ}

theorem checkUserInput_rejects (h0 : 0 ∉ s) (ht : ¬ Accepted (trimmed s)) :
    checkUserInput (some s) buffSize out = .ok (-1, out) := by
  rw [checkUserInput]
  split
  · rfl
  · rcases findStart_eq s with ⟨-, hs⟩ | ⟨a, ha, hd, hat, hs⟩
    · rw [hs]
      rfl
    · have he := endsLine_eq hd hat h0
      rw [decide_eq_false (fun h => ht ⟨hat, h⟩)] at he
      rw [hs]
      change (endsLine s a).bind _ = _
      rw [he]
      rfl

/-- An accepted text is split behind the spaces. -/
theorem checkUserInput_accepts (out : List OutRow) (h0 : 0 ∉ s) (hb : buffSize ≠ 0)
    (ht : Accepted (trimmed s)) : ∃ a : ℕ, s.drop a = trimmed s ∧
      checkUserInput (some s) buffSize out = splitCommands s a out := by
  rcases findStart_eq s with ⟨hat, -⟩ | ⟨a, ha, hd, hat, hs⟩
  · exact absurd ht.1 hat
  · refine ⟨a, hd, ?_⟩
    have he := endsLine_eq hd hat h0
    rw [decide_eq_true ht.2] at he
    simp only [checkUserInput]
    rw [if_neg hb, hs]
    change (endsLine s a).bind _ = _
    rw [he]
    rfl

/-- The rows of an accepted text. -/
theorem rows_of_accepted (h0 : 0 ∉ s) (hl : s.length < readBufSize) (hb : buffSize ≠ 0)
    (ht : Accepted (trimmed s)) (hout : occurrences (text "AT") (trimmed s) ≤ out.length) :
    ∃ pieces cs k written,
      segments (text "AT") (trimmed s) = pieces ++ [chA :: cs] ∧
      firstIndex (text "\r\n") cs = some k ∧
      written.map rowString = pieces ++ [chA :: cs.take k] ∧
      (∀ row ∈ written, 0 ∈ row.toList) ∧
      checkUserInput (some s) buffSize out =
        .ok (written.length, written ++ out.drop written.length) := by
  obtain ⟨a, hd, hsplit⟩ := checkUserInput_accepts out h0 hb ht
  rw [← length_segments text_AT_ne_nil ht.1] at hout
  obtain ⟨pieces, x, hseg⟩ : ∃ pieces x, segments (text "AT") (trimmed s) = pieces ++ [x] :=
    (List.eq_nil_or_concat' _).resolve_left (segments_ne_nil _)
  obtain ⟨⟨v, rfl⟩, -⟩ := isCommandText_of_mem_segments ht.1
    (hseg ▸ List.mem_append_right pieces (List.mem_singleton_self x))
  obtain ⟨k, hk⟩ := firstIndex_isSome_of_infix (crlf_infix_last ht hseg)
  obtain ⟨written, hstrings, hterm, hrun⟩ := splitCommands_eq h0 hl hd hout hseg hk
  exact ⟨pieces, _, k, written, hseg, hk, hstrings, hterm, hsplit.trans hrun⟩

/-- The function rejects exactly the texts outside the two formats, and then writes nothing.
It splits every other text without loss up to the line end of its last command. In both
cases every pointer stays in the string and no length is negative. -/
theorem checkUserInput_splits (s : List Byte) (buffSize : ℕ) (out : List OutRow) (h0 : 0 ∉ s)
    (hl : s.length ≤ 511) (hb : buffSize ≠ 0)
    (hout : Accepted (trimmed s) → occurrences (text "AT") (trimmed s) ≤ out.length) :
    ∃ ret out', checkUserInput (some s) buffSize out = .ok (ret, out') ∧
      (ret = -1 ∧ out' = out ↔ ¬ Accepted (trimmed s)) ∧
      (Accepted (trimmed s) → ret = occurrences (text "AT") (trimmed s) ∧
        ∃ rows, out' = rows ++ out.drop rows.length ∧ ret = rows.length ∧
          (∀ row ∈ rows, 0 ∈ row.toList ∧ IsCommandText (rowString row)) ∧
          CutAtLineEnd (trimmed s) (rows.map rowString).flatten) := by
  by_cases ht : Accepted (trimmed s)
  · obtain ⟨pieces, cs, k, rows, hseg, hk, hstrings, hterm, hrun⟩ :=
      rows_of_accepted h0 (Nat.lt_succ_of_le hl) hb ht (hout ht)
    obtain ⟨hlast, hcut⟩ := cutAtLineEnd_last ht.1 hseg hk
    have hcount : rows.length = occurrences (text "AT") (trimmed s) := by
      rw [length_of_strings hstrings, ← length_segments text_AT_ne_nil ht.1, hseg,
        List.length_append, List.length_singleton]
    refine ⟨_, _, hrun, ?_, ?_⟩
    · constructor
      · intro h
        have h1 := h.1
        omega
      · exact fun h => absurd ht h
    · intro _
      refine ⟨by rw [hcount], rows, rfl, rfl, ?_, by rwa [hstrings]⟩
      intro row hrow
      refine ⟨hterm row hrow, ?_⟩
      have hmem : rowString row ∈ pieces ++ [chA :: cs.take k] :=
        hstrings ▸ List.mem_map_of_mem hrow
      rcases List.mem_append.mp hmem with hp | hp
      · exact isCommandText_of_mem_segments ht.1 (hseg ▸ List.mem_append_left _ hp)
      · rw [List.mem_singleton.mp hp]
        exact hlast
  · exact ⟨-1, out, checkUserInput_rejects h0 ht, ⟨fun _ => ht, fun _ => ⟨rfl, rfl⟩⟩,
      fun h => absurd h ht⟩

theorem checkUserInput_splits_two :
    ∃ ret out', checkUserInput (some (text "  ATATx\r\nAT+1\r\ny\r\n ")) 512
        (List.replicate 2 (Vector.replicate readBufSize 0)) = .ok (ret, out') ∧
      ret = 2 ∧ CutAtLineEnd (text "ATx\r\nAT+1\r\ny\r\n ") (out'.map rowString).flatten := by
  have ht : Accepted (trimmed (text "  ATATx\r\nAT+1\r\ny\r\n ")) := by decide
  obtain ⟨ret, out', hrun, -, hsplit⟩ := checkUserInput_splits
    (text "  ATATx\r\nAT+1\r\ny\r\n ") 512 (List.replicate 2 (Vector.replicate readBufSize 0))
    (by decide) (by decide) (by decide) (fun _ => by
      rw [List.length_replicate]
      decide)
  obtain ⟨hret, rows, hout, hlen, -, hcut⟩ := hsplit ht
  have h2 : ret = 2 := hret.trans (by decide)
  have hl : rows.length = 2 := by omega
  rw [hl, List.drop_replicate, List.replicate_zero, List.append_nil] at hout
  exact ⟨ret, out', hrun, h2, hout ▸ hcut⟩

end UsbCdc.CheckUserInputCorrectness
