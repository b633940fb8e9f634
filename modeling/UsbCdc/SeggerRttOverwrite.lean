import UsbCdc.SeggerRttRefinement
import UsbCdc.DropOldestFifo
import Mathlib.Data.Nat.GCD.Basic
import Mathlib.Data.Nat.ModEq

/-! # The write that overwrites

Up to one turn through the buffer the last bytes are kept. From the second turn on each
turn leaves out the last cell, and the offsets no longer belong together. -/
namespace UsbCdc.SeggerRtt
open BoundedLoops CStrings CyclicChunks CyclicWindows DropOldestFifo

variable {n : ℕ} {r : Ring n}

private theorem overwriteSpace_eq (r : Ring n) : overwriteSpace r = getAvailWriteSpace r := by
  have hr := r.rdOff.isLt
  have hw := r.wrOff.isLt
  rw [overwriteSpace, getAvailWriteSpace]
  simp only [Fin.ext_iff, Fin.lt_def, Fin.le_def]
  split <;> split <;> (try split) <;> omega

private theorem reduceLoop_run (h : 0 < n) (k : ℕ) : (reduceLoop h).run k = k % n := by
  refine (reduceLoop h).induction (P := fun k => (reduceLoop h).run k = k % n) ?_ ?_ k
  · intro k hg
    rw [Loop.run_exit _ hg, Nat.mod_eq_of_lt (not_le.mp (of_decide_eq_false hg))]
  · intro k hg ih
    rw [Loop.run_step _ hg, ih, Nat.mod_eq_sub_mod (of_decide_eq_true hg)]
    rfl

/-- `pRing->WrOff = 0`. -/
def start (r : Fin n) : Fin n := ⟨0, r.pos⟩

private theorem overwriteRound_last {f : OverwriteFrame n} (h : f.pData.length < f.avail)
    (hfit : f.wrOff + f.avail ≤ n) :
    overwriteRound f = some { f with
      buffer := (pushes (f.buffer, f.wrOff) f.pData).1
      wrOff := (pushes (f.buffer, f.wrOff) f.pData).2
      pData := [] } := by
  have hv : ((pushes (f.buffer, f.wrOff) f.pData).2 : ℕ) = f.wrOff + f.pData.length := by
    have hlt : (f.wrOff : ℕ) + f.pData.length < n := by omega
    rw [pushes_snd, next_iterate_val]
    exact Nat.mod_eq_of_lt hlt
  rw [overwriteRound, if_pos h, blit_eq_pushes (by omega), offset_eq hv]
  rfl

private theorem overwriteRound_wrap {f : OverwriteFrame n} (h : f.avail ≤ f.pData.length)
    (hfit : f.wrOff + f.avail ≤ n) :
    overwriteRound f = some ⟨(pushes (f.buffer, f.wrOff) (f.pData.take f.avail)).1,
      start f.wrOff, n - 1, f.pData.drop f.avail⟩ := by
  have hlen : (f.pData.take f.avail).length = f.avail := by
    rw [List.length_take, min_eq_left h]
  have hzero : offset 0 = some (start f.wrOff) := offset_eq rfl
  rw [overwriteRound, if_neg (not_lt.mpr h), blit_eq_pushes (by omega), hzero]
  rfl

/-- The rounds after the first one: each goes through all cells but one. -/
private theorem overwriteLoop_run (hn : 1 < n) (f : OverwriteFrame n) (hw : (f.wrOff : ℕ) = 0)
    (ha : f.avail = n - 1) :
    ∃ g, overwriteLoop.run (some f) = some g ∧ g.pData = [] ∧
      (g.wrOff : ℕ) = f.pData.length % (n - 1) := by
  induction hl : f.pData.length using Nat.strong_induction_on generalizing f with
  | _ l ih =>
    by_cases hnil : f.pData = []
    · have hg : overwriteLoop.guard (some f) = false := by
        simp [overwriteLoop, overwriteGuard, hnil]
      refine ⟨f, Loop.run_exit _ hg, hnil, ?_⟩
      rw [hw, ← hl, hnil, List.length_nil, Nat.zero_mod]
    have hg : overwriteLoop.guard (some f) = true := by
      have hpos : 0 < f.avail := by omega
      simp [overwriteLoop, overwriteGuard, hnil, hpos]
    rw [Loop.run_step _ hg]
    change ∃ g, overwriteLoop.run (overwriteRound f) = some g ∧ _
    by_cases hlt : f.pData.length < f.avail
    · rw [overwriteRound_last hlt (by omega)]
      refine ⟨_, Loop.run_exit _ rfl, rfl, ?_⟩
      change ((pushes (f.buffer, f.wrOff) f.pData).2 : ℕ) = _
      rw [pushes_snd, next_iterate_val, hw, Nat.zero_add, Nat.mod_eq_of_lt (by omega), hl,
        Nat.mod_eq_of_lt (by omega)]
    · rw [overwriteRound_wrap (not_lt.mp hlt) (by omega)]
      have hdrop : (f.pData.drop f.avail).length = l - (n - 1) := by
        rw [List.length_drop, hl, ha]
      obtain ⟨g, hrun, hdone, hoff⟩ := ih (l - (n - 1)) (by omega)
        ⟨(pushes (f.buffer, f.wrOff) (f.pData.take f.avail)).1, start f.wrOff, n - 1,
          f.pData.drop f.avail⟩ rfl rfl hdrop
      refine ⟨g, hrun, hdone, ?_⟩
      rw [hoff, ← Nat.mod_eq_sub_mod (by omega)]

/-- The oldest bytes go as far as the room does not suffice. -/
private theorem overwriteRdOff_eq (r : Ring n) {k : ℕ} (h : r.rdOff + k < 2 ^ 32) :
    overwriteRdOff r k = some (r.pop (k - getAvailWriteSpace r)).rdOff := by
  simp only [overwriteRdOff, overwriteSpace_eq]
  split
  · have hmod : (r.rdOff + (k - getAvailWriteSpace r)) % 2 ^ 32 =
        r.rdOff + (k - getAvailWriteSpace r) := Nat.mod_eq_of_lt (by omega)
    apply offset_eq
    rw [Ring.rdOff_pop, reduceLoop_run, hmod]
  · rename_i hle
    have hzero : k - getAvailWriteSpace r = 0 := by omega
    rw [hzero]
    rfl

private theorem overwrite_run (hn : 1 < n) {pData : List Byte}
    (hlt : pData.length < n - r.wrOff + (n - 1)) :
    ∃ g, overwriteLoop.run (overwriteRound ⟨r.buffer, r.wrOff, n - r.wrOff, pData⟩) = some g ∧
      g.pData = [] ∧ g.buffer = (r.push pData).buffer ∧ g.wrOff = (r.push pData).wrOff := by
  have hw := r.wrOff.isLt
  by_cases h : pData.length < n - r.wrOff
  · rw [overwriteRound_last h (Nat.add_sub_cancel' hw.le).le]
    exact ⟨_, Loop.run_exit _ rfl, rfl, rfl, rfl⟩
  · rw [overwriteRound_wrap (not_lt.mp h) (Nat.add_sub_cancel' hw.le).le]
    have hmid : (r.push (pData.take (n - r.wrOff))).wrOff = start r.wrOff :=
      Fin.ext (r.wrOff_push_take (not_lt.mp h))
    have hsplit := (r.push_take_drop pData (n - r.wrOff)).symm
    by_cases hnil : pData.drop (n - r.wrOff) = []
    · refine ⟨_, Loop.run_exit _ ?_, hnil, ?_, ?_⟩
      · simp [overwriteLoop, overwriteGuard, hnil]
      · rw [hsplit, hnil]
        rfl
      · rw [hsplit, hnil]
        exact hmid.symm
    · have hdrop : (pData.drop (n - r.wrOff)).length < n - 1 := by
        rw [List.length_drop]
        omega
      have hpos : 0 < n - 1 := by omega
      rw [Loop.run_step]
      · change ∃ g, overwriteLoop.run (overwriteRound ⟨_, start r.wrOff, n - 1, _⟩) = some g ∧ _
        rw [overwriteRound_last hdrop (by change 0 + (n - 1) ≤ n; omega)]
        refine ⟨_, Loop.run_exit _ rfl, rfl, ?_, ?_⟩
        · rw [hsplit]
          change (pushes (_, start r.wrOff) _).1 = (pushes (_, (r.push _).wrOff) _).1
          rw [hmid]
          rfl
        · rw [hsplit]
          change (pushes (_, start r.wrOff) _).2 = (pushes (_, (r.push _).wrOff) _).2
          rw [hmid]
          rfl
      · simp [overwriteLoop, overwriteGuard, hnil, hpos]

/-- Less than a second turn: the buffer keeps its last bytes. -/
theorem writeWithOverwriteNoLock_eq (hn : 1 < n) {pData : List Byte}
    (h : pData.length < n - r.wrOff + (n - 1)) (hsum : r.rdOff + pData.length < 2 ^ 32) :
    writeWithOverwriteNoLock r pData =
      some ((r.push pData).pop (pData.length - getAvailWriteSpace r)) := by
  obtain ⟨g, hrun, hdone, hbuffer, hoff⟩ := overwrite_run hn h
  simp only [writeWithOverwriteNoLock, overwriteRdOff_eq r hsum, hrun, Option.bind_eq_bind,
    Option.bind_some, hdone, if_true, hbuffer, hoff]
  rfl

/-- Turns through `n - 1` of `n` cells end where turns through all of them would only after
`n` of them. -/
private theorem lt_of_mod_modEq {m : ℕ} (hn : 1 < n) (hm : m < n * (n - 1))
    (h : m % (n - 1) ≡ m [MOD n]) : m < n - 1 := by
  have hdvd : n ∣ m - m % (n - 1) := (Nat.modEq_iff_dvd' (Nat.mod_le _ _)).mp h
  have hmul : m - m % (n - 1) = (n - 1) * (m / (n - 1)) := by
    have hdiv := Nat.div_add_mod m (n - 1)
    omega
  have hcop : Nat.Coprime n (n - 1) :=
    (Nat.coprime_self_sub_right hn.le).mpr (Nat.coprime_one_right n)
  rw [hmul] at hdvd
  have hq : m / (n - 1) = 0 := by
    apply Nat.eq_zero_of_dvd_of_lt (hcop.dvd_of_dvd_mul_left hdvd)
    exact Nat.div_lt_of_lt_mul (by rwa [Nat.mul_comm])
  have hpos : n - 1 ≠ 0 := by omega
  exact (Nat.div_eq_zero_iff.mp hq).resolve_left hpos

/-- What the offsets are after a second turn. -/
private theorem overwrite_offsets (hn : 1 < n) {pData : List Byte}
    (h : n - r.wrOff + (n - 1) ≤ pData.length) (hsum : pData.length + n ≤ 2 ^ 32) :
    ∃ t, writeWithOverwriteNoLock r pData = some t ∧
      (t.wrOff : ℕ) = (pData.length - (n - r.wrOff)) % (n - 1) ∧
      (t.rdOff : ℕ) = (pData.length - (n - r.wrOff) + 1) % n := by
  have hr := r.rdOff.isLt
  have hw := r.wrOff.isLt
  have ha := getAvailWriteSpace_eq r
  rw [Ring.length_contents, distance_eq] at ha
  have hround : (⟨r.buffer, r.wrOff, n - r.wrOff, pData⟩ : OverwriteFrame n).avail ≤
      pData.length := by
    change n - r.wrOff ≤ pData.length
    omega
  obtain ⟨g, hrun, hdone, hoff⟩ := overwriteLoop_run hn
    ⟨(pushes (r.buffer, r.wrOff) (pData.take (n - r.wrOff))).1, start r.wrOff, n - 1,
      pData.drop (n - r.wrOff)⟩ rfl rfl
  refine ⟨{ r with
    buffer := g.buffer
    wrOff := g.wrOff
    rdOff := (r.pop (pData.length - getAvailWriteSpace r)).rdOff }, ?_, ?_, ?_⟩
  · simp only [writeWithOverwriteNoLock]
    rw [overwriteRdOff_eq r (by omega), overwriteRound_wrap hround (Nat.add_sub_cancel' hw.le).le]
    simp only [Option.bind_eq_bind, Option.bind_some, hrun, hdone, if_true]
  · change (g.wrOff : ℕ) = _
    rw [hoff, List.length_drop]
  · rw [Ring.rdOff_pop]
    have hsame : r.rdOff + (pData.length - getAvailWriteSpace r) =
          pData.length - (n - r.wrOff) + 1 ∨
        r.rdOff + (pData.length - getAvailWriteSpace r) =
          pData.length - (n - r.wrOff) + 1 + n := by
      split at ha <;> omega
    rcases hsame with hs | hs
    · rw [hs]
    · rw [hs, Nat.add_mod_right]

/-- The buffer is left with its last bytes if and only if the second turn through it is not
completed; where it just is, the buffer is left empty. -/
theorem overwrite_keeps_last_iff (r : Ring n) (pData : List Byte) (hn : 1 < n)
    (hshort : pData.length < n * (n - 1)) (hsum : pData.length + n ≤ 2 ^ 32) :
    ∃ t, writeWithOverwriteNoLock r pData = some t ∧
      (t.contents = (r.contents ++ pData).rtake (n - 1) ↔
        pData.length < n - r.wrOff + (n - 1)) ∧
      (pData.length = n - r.wrOff + (n - 1) → t.contents = []) := by
  have hr := r.rdOff.isLt
  have hw := r.wrOff.isLt
  by_cases h : pData.length < n - r.wrOff + (n - 1)
  · refine ⟨_, writeWithOverwriteNoLock_eq hn h (by omega), iff_of_true ?_ h, fun he => ?_⟩
    · have hk : pData.length - getAvailWriteSpace r =
          distance r.rdOff r.wrOff + pData.length - (n - 1) := by
        have ha := getAvailWriteSpace_eq r
        rw [Ring.length_contents] at ha
        omega
      rw [List.rtake, List.length_append, Ring.length_contents, ← hk]
      exact between_pushes_full hn hk
    · omega
  · obtain ⟨t, ht, htw, htr⟩ := overwrite_offsets hn (not_lt.mp h) hsum
    refine ⟨t, ht, iff_of_false ?_ h, fun he => ?_⟩
    · intro hc
      have hl := congrArg List.length hc
      have hfull : t.contents.length + 1 = n := by
        rw [hl, List.rtake, List.length_drop, List.length_append]
        omega
      rw [Ring.length_contents] at hfull
      have hnext := distance_full.mpr hfull
      rw [Fin.ext_iff, htr] at hnext
      change ((t.wrOff : ℕ) + 1) % n = _ at hnext
      rw [htw] at hnext
      have hlt := lt_of_mod_modEq (m := pData.length - (n - r.wrOff)) hn (by omega)
        (Nat.ModEq.add_right_cancel' 1 hnext)
      omega
    · rw [Ring.contents, between_eq_nil, Fin.ext_iff, htr, htw, he]
      have h1 : n - r.wrOff + (n - 1) - (n - r.wrOff) = n - 1 := by omega
      have h2 : n - 1 + 1 = n := by omega
      rw [h1, h2, Nat.mod_self, Nat.mod_self]

/-- Six cells, empty, with two of them left before the end. -/
def sixCells : Ring 6 :=
  ⟨Vector.replicate 6 0, ⟨4, by decide⟩, ⟨4, by decide⟩, noBlockSkip, by decide⟩

theorem overwrite_keeps_last_iff_six :
    ∃ t, writeWithOverwriteNoLock sixCells (text "abcdefg") = some t ∧
      (t.contents = (sixCells.contents ++ text "abcdefg").rtake (6 - 1) ↔
        (text "abcdefg").length < 6 - sixCells.wrOff + (6 - 1)) ∧
      ((text "abcdefg").length = 6 - sixCells.wrOff + (6 - 1) → t.contents = []) :=
  overwrite_keeps_last_iff sixCells (text "abcdefg") (by decide) (by decide) (by decide)

end UsbCdc.SeggerRtt
