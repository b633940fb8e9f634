import UsbCdc.PrintfMeaning

/-! # Where the text goes

`snprintf_` keeps what fits and counts what does not; `fctprintf` and `printf_` deliver the
text without its NUL characters. -/
namespace UsbCdc.PrintfUtil
open BoundedLoops CStrings CommandSupport

/-! ## Into a buffer -/

/-- Memory with the bytes stored at its start. -/
def overlay (mem : ℕ → Byte) (bytes : List Byte) : ℕ → Byte := fun k => bytes.getD k (mem k)

@[simp] theorem overlay_nil (mem : ℕ → Byte) : overlay mem [] = mem := rfl

theorem overlay_append_singleton (mem : ℕ → Byte) (bytes : List Byte) (c : Byte) :
    overlay mem (bytes ++ [c]) = Function.update (overlay mem bytes) bytes.length c := by
  funext k
  simp only [overlay, Function.update_apply, List.getD_eq_getElem?_getD]
  rcases Nat.lt_trichotomy k bytes.length with h | h | h
  · rw [List.getElem?_append_left h, if_neg h.ne]
  · rw [if_pos h, h, List.getElem?_concat_length]
    rfl
  · have hl : (bytes ++ [c]).length ≤ k := by
      rw [List.length_append, List.length_singleton]
      omega
    rw [if_neg h.ne', List.getElem?_eq_none hl, List.getElem?_eq_none h.le]

private theorem overlay_update_last (mem : ℕ → Byte) (bytes : List Byte) (c d : Byte) :
    Function.update (overlay mem (bytes ++ [d])) bytes.length c = overlay mem (bytes ++ [c]) := by
  rw [overlay_append_singleton, overlay_append_singleton, Function.update_idem]

private theorem toNat_ofNat_length {t : List Byte} (h : t.length < 2 ^ 32) :
    (UInt32.ofNat t.length).toNat = t.length := by
  rw [UInt32.toNat_ofNat', Nat.mod_eq_of_lt h]

/-- The characters so far are `u`. -/
private theorem emit_outBuffer_append (maxlen : UInt32) (mem : ℕ → Byte) (t u : List Byte)
    (h : (u ++ t).length < 2 ^ 32) :
    emit outBuffer maxlen t ⟨UInt32.ofNat u.length, overlay mem (u.take maxlen.toNat)⟩ =
      ⟨UInt32.ofNat (u ++ t).length, overlay mem ((u ++ t).take maxlen.toNat)⟩ := by
  induction t generalizing u with
  | nil => rw [emit_nil, List.append_nil]
  | cons c t ih =>
    have hu : u.length < 2 ^ 32 := by
      rw [List.length_append] at h
      omega
    have hstep : put outBuffer maxlen c
        ⟨UInt32.ofNat u.length, overlay mem (u.take maxlen.toNat)⟩ =
        ⟨UInt32.ofNat (u ++ [c]).length, overlay mem ((u ++ [c]).take maxlen.toNat)⟩ := by
      have hi : UInt32.ofNat u.length + 1 = UInt32.ofNat (u ++ [c]).length := by
        rw [List.length_append, List.length_singleton, UInt32.ofNat_add]
        rfl
      rw [put, hi, outBuffer]
      simp only [UInt32.lt_iff_toNat_lt, toNat_ofNat_length hu]
      by_cases hlt : u.length < maxlen.toNat
      · have hle : (u ++ [c]).length ≤ maxlen.toNat := by
          rw [List.length_append, List.length_singleton]
          omega
        rw [if_pos hlt, List.take_of_length_le hlt.le, List.take_of_length_le hle,
          overlay_append_singleton]
      · rw [if_neg hlt, List.take_append_of_le_length (by omega)]
    rw [emit_cons, hstep, ih (u ++ [c]) (by simpa using h), List.append_assoc,
      List.singleton_append]

theorem emit_outBuffer (maxlen : UInt32) (mem : ℕ → Byte) {t : List Byte}
    (h : t.length < 2 ^ 32) :
    emit outBuffer maxlen t ⟨0, mem⟩ =
      ⟨UInt32.ofNat t.length, overlay mem (t.take maxlen.toNat)⟩ := by
  have he := emit_outBuffer_append maxlen mem t [] h
  simpa using he

theorem toInt_ofNat {n : ℕ} (h : n < 2 ^ 31) : (UInt32.ofNat n).toInt32.toInt = n := by
  have hn : (UInt32.ofNat n).toNat = n := by
    rw [UInt32.toNat_ofNat', Nat.mod_eq_of_lt (by omega)]
  change (UInt32.ofNat n).toBitVec.toInt = n
  rw [BitVec.toInt_eq_toNat_cond]
  change (if 2 * (UInt32.ofNat n).toNat < 2 ^ 32 then _ else _) = _
  rw [if_pos (by omega)]
  exact congrArg Nat.cast hn

/-- What the buffer holds in the end: as much of the text as leaves a place for the
terminator, and the terminator. -/
theorem finish_outBuffer (maxlen : UInt32) (mem : ℕ → Byte) {t : List Byte}
    (h : t.length < 2 ^ 31) :
    finish outBuffer maxlen (emit outBuffer maxlen t ⟨0, mem⟩) =
      ((t.length : ℤ), if maxlen = 0 then mem else overlay mem (t.take (maxlen.toNat - 1) ++ [0])) := by
  have hlen : t.length < 2 ^ 32 := h.trans (by decide)
  rw [emit_outBuffer maxlen mem hlen, finish, toInt_ofNat h]
  refine Prod.ext rfl ?_
  simp only [outBuffer, UInt32.lt_iff_toNat_lt, toNat_ofNat_length hlen]
  by_cases h0 : maxlen = 0
  · subst h0
    simp
  · have hpos : 0 < maxlen.toNat := by
      rw [Nat.pos_iff_ne_zero]
      exact fun hz => h0 (UInt32.toNat_inj.mp hz)
    rw [if_neg h0]
    by_cases hlt : t.length < maxlen.toNat
    · have hle : t.length ≤ maxlen.toNat - 1 := by omega
      rw [if_pos hlt, toNat_ofNat_length hlen, if_pos hlt, List.take_of_length_le hlt.le,
        List.take_of_length_le hle, overlay_append_singleton]
    · have hsub : (maxlen - 1).toNat = maxlen.toNat - 1 :=
        UInt32.toNat_sub_of_le _ _ (UInt32.le_iff_toNat_le.mpr hpos)
      obtain ⟨c, hc⟩ : ∃ c, t.take maxlen.toNat = t.take (maxlen.toNat - 1) ++ [c] := by
        have hi : maxlen.toNat - 1 < t.length := by omega
        refine ⟨t[maxlen.toNat - 1], ?_⟩
        rw [← List.take_succ_eq_append_getElem hi, Nat.sub_add_cancel hpos]
      have hl : (t.take (maxlen.toNat - 1)).length = maxlen.toNat - 1 :=
        List.length_take_of_le (by omega)
      have hu := overlay_update_last mem (t.take (maxlen.toNat - 1)) 0 c
      rw [hl] at hu
      rw [if_neg hlt, hsub, if_pos (by omega), hc, hu]

/-! ## Through a function -/

theorem emit_outFct {σ : Type} (fct : Byte → σ → σ) (maxlen : UInt32) (t : List Byte)
    (s : Sink σ) :
    (emit (outFct fct) maxlen t s).buffer =
      (t.filter (· ≠ 0)).foldl (fun arg c => fct c arg) s.buffer := by
  induction t generalizing s with
  | nil => rfl
  | cons c t ih =>
    rw [emit_cons, ih, List.filter_cons]
    by_cases hc : c = 0
    · simp [put, outFct, hc]
    · simp [put, outFct, hc]

section Interface
variable {δ σ : Type} {char : PlainChar} {float : FloatOutput δ} {items : List Item}
  {va va' : List (Arg δ)} {t : List Byte}

/-- The value counts the whole text. A buffer, of any size, keeps what fits in front of a
terminator, and nothing is stored behind that; without a buffer only the value is left, with
which a second call can provide for the text. -/
theorem snprintf_eq (h : formatText char float items va = .ok (va', t))
    (ht : t.length < 2 ^ 31) (rest : List Byte) (count : UInt32) :
    snprintf_ char float none count (printItems items ++ 0 :: rest) va = .ok (t.length, none) ∧
    ∀ mem, snprintf_ char float (some mem) count (printItems items ++ 0 :: rest) va =
      .ok (t.length, some (if count = 0 then mem
        else overlay mem (t.take (count.toNat - 1) ++ [0]))) := by
  constructor
  · have hi := emit_idx (outNull (σ := Unit)) count t ⟨0, ()⟩
    rw [UInt32.zero_add] at hi
    rw [snprintf_, vsnprintf, formatTo_printItems, h]
    simp only [Except.map, finish, hi, toInt_ofNat ht]
  · intro mem
    rw [snprintf_, vsnprintf, formatTo_printItems, h]
    simp only [Except.map, finish_outBuffer count mem ht]

theorem snprintf_eq_two :
    snprintf_ .unsigned (δ := Unit) ⟨fun _ _ _ _ => [], fun _ _ _ _ => []⟩ none 2
        (printItems [.literal (ch 'O') (by decide), .literal (ch 'K') (by decide)] ++ 0 :: []) [] =
      .ok (2, none) ∧
    ∀ mem, snprintf_ .unsigned (δ := Unit) ⟨fun _ _ _ _ => [], fun _ _ _ _ => []⟩ (some mem) 2
        (printItems [.literal (ch 'O') (by decide), .literal (ch 'K') (by decide)] ++ 0 :: []) [] =
      .ok (2, some (overlay mem [ch 'O', 0])) :=
  snprintf_eq (t := [ch 'O', ch 'K']) rfl (by decide) [] 2

/-- A function gets the characters that a large enough buffer would hold, but for the
NUL characters among them, which still count. -/
theorem fctprintf_eq (h : formatText char float items va = .ok (va', t))
    (ht : t.length < 2 ^ 31) (rest : List Byte) (fct : Byte → σ → σ) (arg : σ) :
    fctprintf char float fct arg (printItems items ++ 0 :: rest) va =
      .ok (t.length, some ((t.filter (· ≠ 0)).foldl (fun arg c => fct c arg) arg)) := by
  have hi := emit_idx (outFct fct) (0 - 1) t ⟨0, arg⟩
  rw [UInt32.zero_add] at hi
  rw [fctprintf, vsnprintf, formatTo_printItems, h]
  simp only [Except.map, finish, hi, toInt_ofNat ht, emit_outFct]
  rfl

theorem fctprintf_eq_nul :
    fctprintf .unsigned (δ := Unit) ⟨fun _ _ _ _ => [], fun _ _ _ _ => []⟩
        (fun _ n => n + 1) 0 (printItems [.literal (ch 'O') (by decide),
          .directive ⟨⟨[], .absent, none, .none, ch 'c'⟩, by
            refine ⟨?_, ?_, ?_, ?_⟩ <;> decide⟩] ++ 0 :: []) [.word 0] =
      .ok (2, some 1) :=
  fctprintf_eq (t := [ch 'O', 0]) rfl (by decide) [] (fun _ n => n + 1) 0

end Interface

end UsbCdc.PrintfUtil
