import UsbCdc.PrintfUtil

/-! # The text of a directive

What each function of the formatter passes to `out`, as a text: the same characters in the
same order for every output function, at consecutive indices. -/
namespace UsbCdc.PrintfUtil
open BoundedLoops CStrings CommandSupport

def spaces (n : ℕ) : List Byte := List.replicate n (ch ' ')

/-- The characters of `buf`, which is in reverse, with blanks on one side. -/
def revText (buf : List Byte) (width : UInt32) (flags : Flags) : List Byte :=
  (if !flags.left && !flags.zeropad then spaces (width.toNat - buf.length) else []) ++
    buf.reverse ++ if flags.left then spaces (width.toNat - buf.length) else []

def ntoaText (value : ℕ) (negative : Bool) (base : ℕ) (prec width : UInt32) (flags : Flags) :
    List Byte :=
  let flags := hashFlags value flags
  revText (formatBuffer (digits value base flags) negative base prec width flags)
    (zeroWidth negative width flags) flags

section Texts
variable {δ : Type} (char : PlainChar) (float : FloatOutput δ)

/-- The value of the argument of an integer conversion. -/
def integerArg (c : Byte) (flags : Flags) (va : List (Arg δ)) :
    Except Fault (ℤ × List (Arg δ)) :=
  if isSigned c then
    if flags.longLong then (argDword va).map (fun r => (r.1.toInt64.toInt, r.2))
    else (argWord va).map (fun r => (signedValue char flags r.1, r.2))
  else
    if flags.longLong then (argDword va).map (fun r => (r.1.toNat, r.2))
    else (argWord va).map (fun r => ((unsignedValue flags r.1).toNat, r.2))

def integerText (c : Byte) (spec : Spec) (va : List (Arg δ)) :
    Except Fault (List (Arg δ) × List Byte) := do
  let flags := integerFlags c spec.flags
  let (value, va) ← integerArg char c flags va
  .ok (va, ntoaText value.natAbs (value < 0) (integerBase c) spec.precision spec.width flags)

def doubleText (c : Byte) (spec : Spec) (va : List (Arg δ)) :
    Except Fault (List (Arg δ) × List Byte) := do
  let (value, va) ← argDouble va
  if c = ch 'f' || c = ch 'F' then
    let flags := if c = ch 'F' then { spec.flags with uppercase := true } else spec.flags
    .ok (va, float.ftoa value spec.precision spec.width flags)
  else
    let flags :=
      if c = ch 'g' || c = ch 'G' then { spec.flags with adaptExp := true } else spec.flags
    let flags := if c = ch 'E' || c = ch 'G' then { flags with uppercase := true } else flags
    .ok (va, float.etoa value spec.precision spec.width flags)

/-- Blanks on the one side or the other. -/
def justify (left : Bool) (width l : ℕ) (t : List Byte) : List Byte :=
  if left then t ++ spaces (width - l) else spaces (width - l) ++ t

def characterText (spec : Spec) (va : List (Arg δ)) : Except Fault (List (Arg δ) × List Byte) := do
  let (v, va) ← argWord va
  .ok (va, justify spec.flags.left spec.width.toNat 1 [v.toUInt8])

/-- The characters of a string that `%s` prints, or a fault where it looks for one behind
the object. -/
def stringChars (spec : Spec) (object : List Byte) : Except Fault (List Byte) := do
  let _ ← strnlenS object (stringLimit spec)
  if spec.flags.precision then .ok ((cString object).take spec.precision.toNat)
  else if 0 ∈ object then .ok (cString object) else .error .overread

def stringText (spec : Spec) (va : List (Arg δ)) : Except Fault (List (Arg δ) × List Byte) := do
  let ((_, object), va) ← argPointer va
  let chars ← stringChars spec object
  .ok (va, justify spec.flags.left spec.width.toNat chars.length chars)

def pointerText (spec : Spec) (va : List (Arg δ)) : Except Fault (List (Arg δ) × List Byte) := do
  let ((address, _), va) ← argPointer va
  .ok (va, ntoaText address.toNat false 16 spec.precision 8
    { spec.flags with zeropad := true, uppercase := true })

def specifierText (c : Byte) (spec : Spec) (va : List (Arg δ)) :
    Except Fault (List (Arg δ) × List Byte) :=
  if c ∈ integerSpecifiers then integerText char c spec va
  else if c ∈ doubleSpecifiers then doubleText float c spec va
  else if c = ch 'c' then characterText spec va
  else if c = ch 's' then stringText spec va
  else if c = ch 'p' then pointerText spec va
  else .ok (va, [c])

end Texts

section Emission
variable {σ : Type} (out : OutFct σ) (maxlen : UInt32)

/-- `out` for every character of a text. -/
def emit (t : List Byte) (s : Sink σ) : Sink σ := t.foldl (fun s c => put out maxlen c s) s

@[simp] theorem emit_nil (s : Sink σ) : emit out maxlen [] s = s := rfl

@[simp] theorem emit_cons (c : Byte) (t : List Byte) (s : Sink σ) :
    emit out maxlen (c :: t) s = emit out maxlen t (put out maxlen c s) := rfl

theorem emit_append (t u : List Byte) (s : Sink σ) :
    emit out maxlen (t ++ u) s = emit out maxlen u (emit out maxlen t s) := by
  apply List.foldl_append

theorem emit_idx (t : List Byte) (s : Sink σ) :
    (emit out maxlen t s).idx = s.idx + UInt32.ofNat t.length := by
  induction t generalizing s with
  | nil => simp
  | cons c t ih =>
    rw [emit_cons, ih, put, List.length_cons, UInt32.ofNat_add, UInt32.add_assoc,
      UInt32.add_comm 1]
    rfl

theorem foldr_put (buf : List Byte) (s : Sink σ) :
    buf.foldr (put out maxlen) s = emit out maxlen buf.reverse s := by
  rw [emit, List.foldl_reverse]

theorem spaces_succ (n : ℕ) : spaces (n + 1) = ch ' ' :: spaces n := List.replicate_succ

theorem pad_eq_emit (width : UInt32) (l : ℕ) (s : Sink σ) :
    pad out maxlen width l s = emit out maxlen (spaces (width.toNat - l)) s := by
  induction hn : width.toNat - l generalizing l s with
  | zero =>
    have hg : (padLoop out maxlen width).guard (l, s) = false := by
      simp only [padLoop, decide_eq_false_iff_not]
      omega
    rw [pad, Loop.run_exit _ hg]
    rfl
  | succ n ih =>
    have hg : (padLoop out maxlen width).guard (l, s) = true := by
      simp only [padLoop, decide_eq_true_eq]
      omega
    rw [pad, Loop.run_step _ hg, spaces_succ, emit_cons]
    exact ih (l + 1) _ (by omega)

theorem fillLoop_eq_emit (start width : UInt32) (s : Sink σ) :
    (fillLoop out maxlen start width).run s =
      emit out maxlen (spaces (width.toNat - (s.idx - start).toNat)) s := by
  induction hn : width.toNat - (s.idx - start).toNat generalizing s with
  | zero =>
    have hg : (fillLoop out maxlen start width).guard s = false := by
      simp only [fillLoop, decide_eq_false_iff_not, UInt32.lt_iff_toNat_lt]
      omega
    rw [Loop.run_exit _ hg]
    rfl
  | succ n ih =>
    have hlt : s.idx - start < width := UInt32.lt_iff_toNat_lt.mpr (by omega)
    have hg : (fillLoop out maxlen start width).guard s = true := decide_eq_true hlt
    rw [Loop.run_step _ hg, spaces_succ, emit_cons]
    apply ih
    simp only [fillLoop, put, toNat_succ_sub hlt]
    omega

theorem outRev_eq_emit {buf : List Byte} (hb : buf.length < 2 ^ 32) (width : UInt32)
    (flags : Flags) (s : Sink σ) :
    outRev out maxlen buf width flags s = emit out maxlen (revText buf width flags) s := by
  have hidx : (UInt32.ofNat buf.length).toNat = buf.length := by
    rw [UInt32.toNat_ofNat', Nat.mod_eq_of_lt hb]
  rw [outRev, revText, emit_append, emit_append, foldr_put]
  cases hl : flags.left with
  | true =>
    have hi : (emit out maxlen buf.reverse s).idx - s.idx = UInt32.ofNat buf.length := by
      rw [emit_idx, List.length_reverse]
      grind
    simp only [Bool.not_true, Bool.false_and, Bool.false_eq_true, if_false, if_true, emit_nil]
    rw [fillLoop_eq_emit, hi, hidx]
  | false =>
    cases hz : flags.zeropad with
    | true => rfl
    | false => simp only [Bool.not_false, Bool.and_self, if_true, Bool.false_eq_true, if_false,
        emit_nil, pad_eq_emit]

end Emission

section Buffer

theorem zeroLoop_run (bound : UInt32) (buf : List Byte) :
    (zeroLoop bound).run buf =
      buf ++ List.replicate (min bound.toNat ntoaBufferSize - buf.length) (ch '0') := by
  induction hn : min bound.toNat ntoaBufferSize - buf.length generalizing buf with
  | zero =>
    have hg : (zeroLoop bound).guard buf = false := by
      simp only [zeroLoop, Bool.and_eq_false_iff, decide_eq_false_iff_not]
      omega
    rw [Loop.run_exit _ hg, List.replicate_zero, List.append_nil]
  | succ n ih =>
    have hg : (zeroLoop bound).guard buf = true := by
      simp only [zeroLoop, Bool.and_eq_true, decide_eq_true_eq]
      omega
    have hb : (zeroLoop bound).body buf = buf ++ [ch '0'] := rfl
    rw [Loop.run_step _ hg, hb, ih _ (by simp only [List.length_append, List.length_singleton]; omega),
      List.append_assoc, List.replicate_succ, List.singleton_append]

theorem leadingZeros_length {buf : List Byte} (hb : buf.length ≤ ntoaBufferSize)
    (prec width : UInt32) (flags : Flags) :
    (leadingZeros buf prec width flags).length ≤ ntoaBufferSize := by
  simp only [leadingZeros, zeroLoop_run]
  split
  · exact hb
  · split <;> simp only [List.length_append, List.length_replicate] <;> omega

theorem store_length {buf : List Byte} (hb : buf.length ≤ ntoaBufferSize) (c : Byte) :
    (store buf c).length ≤ ntoaBufferSize := by
  rw [store]
  split
  · rw [List.length_append, List.length_singleton]
    omega
  · exact hb

theorem basePrefix_length {buf : List Byte} (hb : buf.length ≤ ntoaBufferSize) (base : ℕ)
    (prec width : UInt32) (flags : Flags) :
    (basePrefix buf base prec width flags).length ≤ ntoaBufferSize := by
  have hd : (dropForPrefix buf base prec width flags).length ≤ ntoaBufferSize := by
    simp only [dropForPrefix]
    split
    · split <;> simp only [List.length_dropLast] <;> omega
    · exact hb
  simp only [basePrefix]
  split
  · apply store_length
    split
    · exact store_length hd _
    · split
      · exact store_length hd _
      · split
        · exact store_length hd _
        · exact hd
  · exact hb

theorem signMark_length {buf : List Byte} (hb : buf.length ≤ ntoaBufferSize) (negative : Bool)
    (flags : Flags) : (signMark buf negative flags).length ≤ ntoaBufferSize := by
  rw [signMark]
  split
  · exact store_length hb _
  · split
    · exact store_length hb _
    · split
      · exact store_length hb _
      · exact hb

theorem digits_length (value base : ℕ) (flags : Flags) :
    (digits value base flags).length ≤ ntoaBufferSize := by
  rw [digits]
  split
  · refine (Loop.run_invariant _ (fun (f : ℕ × List Byte) => f.2.length ≤ ntoaBufferSize) ?_ ?_).1
    · intro f hg _
      simp only [digitLoop, Bool.and_eq_true, decide_eq_true_eq] at hg
      simp only [digitLoop, List.length_append, List.length_singleton]
      omega
    · exact Nat.le_add_left 1 31
  · exact Nat.zero_le _

/-- The buffer of 32 characters is never left. -/
theorem formatBuffer_length {buf : List Byte} (hb : buf.length ≤ ntoaBufferSize) (negative : Bool)
    (base : ℕ) (prec width : UInt32) (flags : Flags) :
    (formatBuffer buf negative base prec width flags).length ≤ ntoaBufferSize :=
  signMark_length (basePrefix_length (leadingZeros_length hb _ _ _) _ _ _ _) _ _

end Buffer

section Refinement
variable {δ σ : Type} (char : PlainChar) (float : FloatOutput δ) (out : OutFct σ) (maxlen : UInt32)

theorem ntoa_eq_emit (value : ℕ) (negative : Bool) (base : ℕ) (prec width : UInt32)
    (flags : Flags) (s : Sink σ) :
    ntoa out maxlen value negative base prec width flags s =
      emit out maxlen (ntoaText value negative base prec width flags) s := by
  apply outRev_eq_emit
  exact (formatBuffer_length (digits_length _ _ _) _ _ _ _ _).trans_lt (by decide)

theorem ofInt_magnitude_toNat {value : ℤ} (hlo : -2 ^ 31 ≤ value) (hhi : value < 2 ^ 32) :
    (UInt32.ofInt (magnitude value)).toNat = value.natAbs := by
  rw [UInt32.ofInt, UInt32.toNat_ofNat', magnitude]
  split <;> omega

theorem ofInt_magnitude_toNat_dword (v : UInt64) :
    (UInt64.ofInt (magnitude v.toInt64.toInt)).toNat = v.toInt64.toInt.natAbs := by
  have hlo := v.toInt64.le_toInt
  have hhi := v.toInt64.toInt_lt
  rw [UInt64.ofInt, UInt64.toNat_ofNat', magnitude]
  split <;> omega

theorem signedValue_bounds (flags : Flags) (v : UInt32) :
    -2 ^ 31 ≤ signedValue char flags v ∧ signedValue char flags v < 2 ^ 31 := by
  have hlo := v.toInt32.le_toInt
  have hhi := v.toInt32.toInt_lt
  have hlo' := v.toUInt16.toInt16.le_toInt
  have hhi' := v.toUInt16.toInt16.toInt_lt
  have hc := char.value_bounds v.toUInt8
  simp only [signedValue]
  split
  · omega
  · split
    · omega
    · split <;> omega

theorem outInteger_eq_emit (c : Byte) (spec : Spec) (va : List (Arg δ)) (s : Sink σ) :
    outInteger char out maxlen c spec va s =
      (integerText char c spec va).map (fun r => (r.1, emit out maxlen r.2 s)) := by
  have hn : ∀ n : ℕ, decide ((n : ℤ) < 0) = false := by
    intro n
    simp
  simp only [outInteger, integerText, integerArg, ntoaLong, ntoaLongLong]
  split
  · split
    · cases argDword va with
      | error e => rfl
      | ok r =>
        simp only [bind, Except.bind, Except.map, ntoa_eq_emit, ofInt_magnitude_toNat_dword]
    · cases argWord va with
      | error e => rfl
      | ok r =>
        have hb := signedValue_bounds char (integerFlags c spec.flags) r.1
        simp only [bind, Except.bind, Except.map, ntoa_eq_emit,
          ofInt_magnitude_toNat hb.1 (hb.2.trans (by decide))]
  · split
    · cases argDword va with
      | error e => rfl
      | ok r => simp only [bind, Except.bind, Except.map, ntoa_eq_emit, hn, Int.natAbs_natCast]
    · cases argWord va with
      | error e => rfl
      | ok r => simp only [bind, Except.bind, Except.map, ntoa_eq_emit, hn, Int.natAbs_natCast]

theorem outDouble_eq_emit (c : Byte) (spec : Spec) (va : List (Arg δ)) (s : Sink σ) :
    outDouble float out maxlen c spec va s =
      (doubleText float c spec va).map (fun r => (r.1, emit out maxlen r.2 s)) := by
  simp only [outDouble, doubleText]
  cases argDouble va with
  | error e => rfl
  | ok r =>
    simp only [bind, Except.bind]
    split <;> rfl

theorem outCharacter_eq_emit (spec : Spec) (va : List (Arg δ)) (s : Sink σ) :
    outCharacter out maxlen spec va s =
      (characterText spec va).map (fun r => (r.1, emit out maxlen r.2 s)) := by
  simp only [outCharacter, characterText]
  cases argWord va with
  | error e => rfl
  | ok r =>
    cases spec.flags.left <;>
      simp [bind, Except.bind, Except.map, justify, pad_eq_emit, emit_append]

theorem strnlenS_eq (object : List Byte) (maxsize : ℕ) :
    strnlenS object maxsize =
      if 0 ∈ object ∨ maxsize < object.length then .ok (min (cString object).length maxsize)
      else .error .overread := by
  induction object generalizing maxsize with
  | nil => rfl
  | cons c object ih =>
    by_cases hc : c = 0
    · simp [strnlenS.eq_def, hc, cString]
    · rw [strnlenS.eq_def]
      simp only [if_neg hc]
      have hs : cString (c :: object) = c :: cString object := by simp [cString, hc]
      cases maxsize with
      | zero => simp
      | succ m =>
        simp only [ih m, hs, List.mem_cons, List.length_cons, Ne.symm hc, false_or,
          Nat.add_lt_add_iff_right, Nat.add_min_add_right]
        split <;> rfl

theorem outString_none (object : List Byte) (s : Sink σ) :
    outString out maxlen object none s =
      if 0 ∈ object then .ok (emit out maxlen (cString object) s) else .error .overread := by
  induction object generalizing s with
  | nil => rfl
  | cons c object ih =>
    rw [outString]
    split
    · rename_i hc
      simp [hc, cString]
    · rename_i hc
      have hs : cString (c :: object) = c :: cString object := by simp [cString, hc]
      simp only [ih, hs, List.mem_cons, Ne.symm hc, false_or, emit_cons]

theorem outString_some (object : List Byte) (precision : ℕ) (s : Sink σ) :
    outString out maxlen object (some precision) s =
      if 0 ∈ object ∨ precision < object.length then
        .ok (emit out maxlen ((cString object).take precision) s)
      else .error .overread := by
  induction object generalizing s precision with
  | nil => rfl
  | cons c object ih =>
    by_cases hc : c = 0
    · simp [outString.eq_def, hc, cString]
    · rw [outString.eq_def]
      simp only [if_neg hc]
      have hs : cString (c :: object) = c :: cString object := by simp [cString, hc]
      cases precision with
      | zero => simp
      | succ m =>
        simp only [ih, hs, List.mem_cons, Ne.symm hc, false_or, List.length_cons,
          Nat.add_lt_add_iff_right, List.take_succ_cons, emit_cons]

/-- A directive without a point has no precision. -/
def Spec.Valid (spec : Spec) : Prop := spec.flags.precision = false → spec.precision = 0

/-- The characters counted for the padding are those printed. -/
private theorem justify_min (left : Bool) (width : UInt32) (t : List Byte) :
    justify left width.toNat (min t.length (2 ^ 32 - 1)) t =
      justify left width.toNat t.length t := by
  have hw := width.toNat_lt
  have he : width.toNat - min t.length (2 ^ 32 - 1) = width.toNat - t.length := by omega
  rw [justify, justify, he]

private theorem padded_eq_emit (left : Bool) (width : UInt32) (l : ℕ) (t : List Byte)
    (s : Sink σ) :
    (if left then
        pad out maxlen width l
          (emit out maxlen t (if !left then pad out maxlen width l s else s))
      else emit out maxlen t (if !left then pad out maxlen width l s else s)) =
      emit out maxlen (justify left width.toNat l t) s := by
  cases left <;> simp [justify, pad_eq_emit, emit_append]

theorem stringChars_eq (spec : Spec) (object : List Byte) :
    stringChars spec object =
      if spec.flags.precision then
        if 0 ∈ object ∨ stringLimit spec < object.length then
          .ok ((cString object).take spec.precision.toNat)
        else .error .overread
      else if 0 ∈ object then .ok (cString object) else .error .overread := by
  rw [stringChars, strnlenS_eq]
  by_cases hread : 0 ∈ object ∨ stringLimit spec < object.length
  · rw [if_pos hread, if_pos hread]
    rfl
  · have h0 : 0 ∉ object := fun h => hread (Or.inl h)
    rw [if_neg hread, if_neg hread, if_neg h0, ite_self]
    rfl

theorem outStringArg_eq_emit {spec : Spec} (hs : spec.Valid) (va : List (Arg δ)) (s : Sink σ) :
    outStringArg out maxlen spec va s =
      (stringText spec va).map (fun r => (r.1, emit out maxlen r.2 s)) := by
  rw [outStringArg, stringText]
  cases argPointer va with
  | error e => rfl
  | ok r =>
    obtain ⟨⟨address, object⟩, va⟩ := r
    simp only [bind, Except.bind, strnlenS_eq, stringChars_eq]
    by_cases hread : 0 ∈ object ∨ stringLimit spec < object.length
    · rw [if_pos hread, if_pos hread]
      cases hp : spec.flags.precision with
      | true =>
        have hp' : 0 ∈ object ∨ spec.precision.toNat < object.length := by
          refine hread.imp_right (fun h => lt_of_le_of_lt ?_ h)
          have hlt := spec.precision.toNat_lt
          rw [stringLimit]
          split <;> omega
        have hl : ∀ n, (if min n (stringLimit spec) < spec.precision.toNat then
            min n (stringLimit spec) else spec.precision.toNat) = min spec.precision.toNat n := by
          intro n
          have hle : spec.precision.toNat ≤ stringLimit spec := by
            have hlt := spec.precision.toNat_lt
            rw [stringLimit]
            split <;> omega
          split <;> omega
        simp only [if_true, outString_some, if_pos hp', hl, Except.map, List.length_take,
          ← padded_eq_emit]
      | false =>
        have h0 : stringLimit spec = 2 ^ 32 - 1 := by rw [stringLimit, hs hp]; rfl
        simp only [Bool.false_eq_true, if_false, outString_none, h0]
        by_cases hz : 0 ∈ object
        · simp only [if_pos hz, Except.map, ← justify_min spec.flags.left, ← padded_eq_emit]
        · simp only [if_neg hz, Except.map]
    · have hz : 0 ∉ object := fun h => hread (Or.inl h)
      rw [if_neg hread, if_neg hread, if_neg hz, ite_self]
      rfl

theorem outPointer_eq_emit (spec : Spec) (va : List (Arg δ)) (s : Sink σ) :
    outPointer out maxlen spec va s =
      (pointerText spec va).map (fun r => (r.1, emit out maxlen r.2 s)) := by
  rw [outPointer, pointerText]
  cases argPointer va with
  | error e => rfl
  | ok r => simp only [bind, Except.bind, Except.map, ntoaLong, ntoa_eq_emit]

/-- A conversion passes its text to `out`, whatever `out` does with it. -/
theorem evalSpecifier_eq_emit (c : Byte) {spec : Spec} (hs : spec.Valid) (va : List (Arg δ))
    (s : Sink σ) :
    evalSpecifier char float out maxlen c spec va s =
      (specifierText char float c spec va).map (fun r => (r.1, emit out maxlen r.2 s)) := by
  rw [evalSpecifier, specifierText]
  split
  · apply outInteger_eq_emit
  · split
    · apply outDouble_eq_emit
    · split
      · apply outCharacter_eq_emit
      · split
        · exact outStringArg_eq_emit out maxlen hs va s
        · split
          · apply outPointer_eq_emit
          · rfl

end Refinement

end UsbCdc.PrintfUtil
