import UsbCdc.PrintfNumbers

/-! # Widths, addresses and strings

How long a field gets, what `%p` is worth, and how far `%s` reads. -/
namespace UsbCdc.PrintfUtil
open BoundedLoops CStrings CommandSupport

/-! ## The length of a number -/

theorem length_revText (buf : List Byte) (width : UInt32) (flags : Flags) :
    (revText buf width flags).length =
      if flags.left || !flags.zeropad then max width.toNat buf.length else buf.length := by
  rw [revText]
  cases flags.left <;> cases flags.zeropad <;> simp [spaces] <;> omega

theorem length_store (buf : List Byte) (c : Byte) :
    (store buf c).length = max buf.length (min (buf.length + 1) ntoaBufferSize) := by
  rw [store]
  split
  · rw [List.length_append, List.length_singleton]
    omega
  · omega

theorem length_dropForPrefix (buf : List Byte) (base : ℕ) (prec width : UInt32) (flags : Flags) :
    buf.length - (if base = 16 then 2 else 1) ≤
      (dropForPrefix buf base prec width flags).length := by
  by_cases hb : base = 16
  · rw [if_pos hb]
    simp only [dropForPrefix]
    split
    · split <;> simp only [List.length_dropLast] <;> omega
    · omega
  · rw [if_neg hb]
    simp only [dropForPrefix, hb, decide_false, Bool.and_false, Bool.false_eq_true, if_false]
    split
    · rw [List.length_dropLast]
    · omega

/-- A prefix is not shorter than what it takes the place of. -/
theorem length_basePrefix {buf : List Byte} (hl : buf.length ≤ ntoaBufferSize) (base : ℕ)
    (prec width : UInt32) (flags : Flags) :
    buf.length ≤ (basePrefix buf base prec width flags).length := by
  have hd := length_dropForPrefix buf base prec width flags
  have h32 : 2 ≤ ntoaBufferSize := by decide
  simp only [basePrefix]
  generalize dropForPrefix buf base prec width flags = b at hd ⊢
  by_cases hh : flags.hash = true
  · rw [if_pos hh]
    by_cases hb : base = 16
    · rw [if_pos hb] at hd
      cases hu : flags.uppercase <;>
        simp only [hb, decide_true, Bool.true_and, Bool.not_true, Bool.not_false,
          Bool.false_eq_true, if_false, if_true, length_store] <;>
        omega
    · rw [if_neg hb] at hd
      simp only [hb, decide_false, Bool.false_and, Bool.false_eq_true, if_false]
      split <;> simp only [length_store] <;> omega
  · rw [if_neg hh]

theorem length_signText_pos {negative : Bool} {flags : Flags} {width : UInt32}
    (h : zeroWidth negative width flags ≠ width) : 0 < (signText negative flags).length := by
  rw [zeroWidth] at h
  simp only [signText]
  cases hn : negative <;> cases hp : flags.plus <;> cases hs : flags.space <;>
    simp [hn, hp, hs] at h ⊢

theorem toNat_zeroWidth (negative : Bool) (width : UInt32) (flags : Flags) :
    width.toNat - 1 ≤ (zeroWidth negative width flags).toNat ∧
      (zeroWidth negative width flags).toNat ≤ width.toNat := by
  rw [zeroWidth]
  split
  · rename_i h
    simp only [Bool.and_eq_true, decide_eq_true_eq] at h
    have hpos : 0 < width.toNat := by
      rw [Nat.pos_iff_ne_zero]
      exact fun hz => h.1.1.2 (UInt32.toNat_inj.mp hz)
    have hsub : (width - 1).toNat = width.toNat - 1 :=
      UInt32.toNat_sub_of_le _ _ (UInt32.le_iff_toNat_le.mpr hpos)
    omega
  · omega

/-- A number fills its field, or as much of it as the buffer can hold zeros for, and sticks
out of it by no more than the buffer. -/
theorem length_ntoaText (value : ℕ) (negative : Bool) (base : ℕ) (prec width : UInt32)
    (flags : Flags) :
    (ntoaText value negative base prec width flags).length ≤ max width.toNat ntoaBufferSize ∧
      min width.toNat ntoaBufferSize ≤ (ntoaText value negative base prec width flags).length ∧
      ((flags.left || !flags.zeropad) = true →
        width.toNat ≤ (ntoaText value negative base prec width flags).length) := by
  have hflags : (hashFlags value flags).left = flags.left ∧
      (hashFlags value flags).zeropad = flags.zeropad := by
    rw [hashFlags]
    split <;> exact ⟨rfl, rfl⟩
  simp only [ntoaText]
  rw [length_revText, hflags.1, hflags.2]
  generalize hashFlags value flags = f at hflags ⊢
  have hb := formatBuffer_length (digits_length value base f) negative base prec width f
  have hw := toNat_zeroWidth negative width f
  by_cases hz : (flags.left || !flags.zeropad) = true
  · have hwz : zeroWidth negative width f = width := by
      rw [zeroWidth, hflags.1, hflags.2]
      revert hz
      cases flags.left <;> cases flags.zeropad <;> simp
    rw [if_pos hz, hwz]
    omega
  · rw [if_neg hz]
    refine ⟨hb.trans (Nat.le_max_right _ _), ?_, fun h => absurd h hz⟩
    have hleft : f.left = false ∧ f.zeropad = true := by
      rw [hflags.1, hflags.2]
      revert hz
      cases flags.left <;> cases flags.zeropad <;> simp
    have hlead : (leadingZeros (digits value base f) prec (zeroWidth negative width f) f).length =
        max (digits value base f).length
          (min (minDigits prec (zeroWidth negative width f) f) ntoaBufferSize) :=
      length_paddedDigits value base prec (zeroWidth negative width f) f
    have hmin : (zeroWidth negative width f).toNat ≤
        minDigits prec (zeroWidth negative width f) f := by
      rw [minDigits, hleft.1, hleft.2]
      exact Nat.le_max_right _ _
    have hdigits := digits_length value base f
    have hprefix : (leadingZeros (digits value base f) prec (zeroWidth negative width f) f).length ≤
        (basePrefix (leadingZeros (digits value base f) prec (zeroWidth negative width f) f) base
          prec (zeroWidth negative width f) f).length :=
      length_basePrefix (by omega) base prec (zeroWidth negative width f) f
    simp only [formatBuffer, signMark_eq, List.length_append]
    by_cases hzw : zeroWidth negative width f = width
    · rw [hzw] at hlead hmin hprefix ⊢
      omega
    · have hsign := length_signText_pos hzw
      split
      · omega
      · omega

section Conversions
variable {δ : Type}

/-- An integer never gets shorter than its field, up to the 32 zeros that fit in the buffer,
and is never longer than the field and the buffer. -/
theorem integerText_length {char : PlainChar} {c : Byte} {spec : Spec} {va va' : List (Arg δ)}
    {t : List Byte} (h : integerText char c spec va = .ok (va', t)) :
    t.length ≤ max spec.width.toNat ntoaBufferSize ∧
      min spec.width.toNat ntoaBufferSize ≤ t.length ∧
      ((spec.flags.left = true ∨ spec.flags.zeropad = false ∨ spec.flags.precision = true) →
        spec.width.toNat ≤ t.length) := by
  obtain ⟨r, -, h⟩ := bind_eq_ok h
  cases h
  have hl := length_ntoaText r.1.natAbs (r.1 < 0) (integerBase c) spec.precision spec.width
    (integerFlags c spec.flags)
  refine ⟨hl.1, hl.2.1, fun hcond => hl.2.2 ?_⟩
  have hleft : (integerFlags c spec.flags).left = spec.flags.left := by
    simp only [integerFlags]
    split <;> split <;> split <;> split <;> rfl
  have hzero : (integerFlags c spec.flags).zeropad =
      (spec.flags.zeropad && !spec.flags.precision) := by
    simp only [integerFlags]
    cases hp : spec.flags.precision <;> split <;> split <;> split <;> simp [hp]
  rw [hleft, hzero]
  revert hcond
  cases spec.flags.left <;> cases spec.flags.zeropad <;> cases spec.flags.precision <;> simp

theorem integerText_length_padded :
    ∃ t, integerText (δ := Unit) .unsigned (ch 'd') ⟨{}, 40, 0⟩ [.word (-7)] = .ok ([], t) ∧
      40 ≤ t.length := by
  have h : integerText (δ := Unit) .unsigned (ch 'd') ⟨{}, 40, 0⟩ [.word (-7)] =
      .ok ([], ntoaText 7 true 10 0 40 {}) := rfl
  exact ⟨_, h, (integerText_length h).2.2 (Or.inr (Or.inl rfl))⟩

/-! ## Addresses -/

/-- Nothing is announced in front of the null pointer. -/
private theorem pointerText_null {flags : Flags} (hsign : flags.plus = false ∧ flags.space = false)
    (hp : flags.precision = false) (hl : flags.left = false) :
    ntoaText 0 false 16 0 8 { flags with zeropad := true, uppercase := true } =
      List.replicate 8 (ch '0') := by
  have hdigits : ∀ flags : Flags, flags.precision = false → digits 0 16 flags = [ch '0'] := by
    intro flags hp
    rw [digits_eq (by decide), if_pos rfl, hp]
    rfl
  have h8 : (8 : UInt32).toNat = 8 := rfl
  have h0 : (0 : UInt32).toNat = 0 := rfl
  simp only [ntoaText, hashFlags, if_true, formatBuffer, basePrefix, signMark, hsign.1, hsign.2,
    zeroWidth, hl, leadingZeros_eq, minDigits, revText, ntoaBufferSize, h8, h0,
    Bool.false_eq_true, if_false, Bool.or_self, Bool.and_false, Bool.not_true, List.append_nil,
    List.nil_append]
  rw [hdigits]
  · rfl
  · exact hp

/-- `%p` prints the address. With `#`, the `0X` is written over the first two of the eight
digits, so that only addresses of six digits survive. -/
theorem pointerText_denotes (address : UInt32) (object : List Byte) (va : List (Arg δ))
    {spec : Spec} (hs : spec.Valid) :
    ∃ t, pointerText spec (.pointer address object :: va) = .ok (va, t) ∧
      (spec.flags.hash = false → readInteger 16 t = address.toNat) ∧
      (spec.flags.hash = true → spec.flags.plus = false ∧ spec.flags.space = false →
        spec.flags.precision = false ∧ spec.flags.left = false →
        (readPrefixed 16 t = address.toNat ↔ address.toNat < 2 ^ 24)) := by
  refine ⟨_, rfl, ?_, ?_⟩
  · intro hh
    have hlt : address.toNat < 16 ^ ntoaBufferSize :=
      address.toNat_lt.trans (by rw [ntoaBufferSize]; norm_num)
    have hh' : Flags.hash { spec.flags with zeropad := true, uppercase := true } = false := hh
    rw [readInteger_ntoaText (.inr (.inr (.inr rfl))) hh', if_neg (by simp), Nat.mod_eq_of_lt hlt]
  · rintro hh hsign ⟨hp, hl⟩
    by_cases h0 : address = 0
    · have htext : ntoaText address.toNat false 16 spec.precision 8
          { spec.flags with zeropad := true, uppercase := true } = List.replicate 8 (ch '0') := by
        rw [h0, hs hp]
        exact pointerText_null hsign hp hl
      have hzero : readPrefixed 16 (List.replicate 8 (ch '0')) = 0 := by decide
      rw [htext, hzero, h0]
      exact iff_of_true rfl (by decide)
    have hne : address.toNat ≠ 0 := fun hz => h0 (UInt32.toNat_inj.mp hz)
    have hdig : (Nat.digits 16 address.toNat).length ≤ 8 :=
      (Nat.digits_length_le_iff (by decide) _).mpr address.toNat_lt
    have hsix : (Nat.digits 16 address.toNat).length ≤ 6 ↔ address.toNat < 2 ^ 24 :=
      Nat.digits_length_le_iff (b := 16) (k := 6) (by decide) _
    have hlen : ∀ n ≤ 8, paddedLength n spec.precision 8
        { spec.flags with zeropad := true, uppercase := true } = 8 := by
      intro n hn
      have h8 : (8 : UInt32).toNat = 8 := rfl
      simp only [paddedLength, minDigits, hl, hs hp, h8, ntoaBufferSize, Bool.false_eq_true,
        if_false, if_true, UInt32.toNat_zero]
      omega
    have hh' : Flags.hash { spec.flags with zeropad := true, uppercase := true } = true := hh
    rw [readPrefixed_ntoaText (.inr (.inr rfl)) hh' hsign hne (fun _ => hs hp)]
    have hover : overwritten 16 8 8 { spec.flags with zeropad := true, uppercase := true } = 2 := by
      simp [overwritten, hp]
    rw [← hsix]
    constructor
    · intro hf
      have hz := hf.zeros
      rw [hlen _ hdig, hover] at hz
      omega
    · intro h6
      refine ⟨by rw [ntoaBufferSize]; omega, ?_, ?_⟩
      · rw [hlen _ hdig, hover]
        omega
      · rw [hlen _ hdig, hover]
        omega

/-- `%#p` with an address in the RAM. -/
theorem pointerText_denotes_ram :
    ∃ t, pointerText (δ := Unit) ⟨{ hash := true }, 0, 0⟩ [.pointer 0x20000000 []] = .ok ([], t) ∧
      (true = false → readInteger 16 t = (0x20000000 : UInt32).toNat) ∧
      (true = true → false = false ∧ false = false → false = false ∧ false = false →
        (readPrefixed 16 t = (0x20000000 : UInt32).toNat ↔
          (0x20000000 : UInt32).toNat < 2 ^ 24)) :=
  pointerText_denotes 0x20000000 [] [] (fun _ => rfl)

/-! ## Strings -/

/-- `%s` stays inside an object exactly if there is a terminator in it, or the object is longer
than the precision: an array of as many characters as the precision is read one character too
far, and a precision of zero does not limit the search at all. -/
theorem outStringArg_ok_iff {σ : Type} (out : OutFct σ) (maxlen : UInt32) {spec : Spec}
    (hs : spec.Valid) (address : UInt32) (object : List Byte) (va : List (Arg δ)) (s : Sink σ) :
    (∃ r, outStringArg out maxlen spec (.pointer address object :: va) s = .ok r) ↔
      0 ∈ object ∨ spec.flags.precision = true ∧
        (if spec.precision = 0 then 2 ^ 32 - 1 else spec.precision.toNat) < object.length := by
  have hlimit : (if spec.precision = 0 then 2 ^ 32 - 1 else spec.precision.toNat) =
      stringLimit spec := by
    rw [stringLimit]
    by_cases h0 : spec.precision = 0 <;> simp [h0]
  have hok : (∃ r, outStringArg out maxlen spec (.pointer address object :: va) s = .ok r) ↔
      ∃ chars, stringChars spec object = .ok chars := by
    rw [outStringArg_eq_emit out maxlen hs]
    change (∃ r, Except.map _ (stringChars spec object >>= _) = .ok r) ↔ _
    cases stringChars spec object with
    | error e => simp [bind, Except.bind, Except.map]
    | ok chars => simp [bind, Except.bind, Except.map]
  rw [hok, hlimit, stringChars_eq]
  cases hp : spec.flags.precision with
  | true =>
    by_cases hread : 0 ∈ object ∨ stringLimit spec < object.length <;> simp [hread]
  | false =>
    by_cases hread : 0 ∈ object <;> simp [hread]

/-- An array of three characters that `%.3s` prints. -/
theorem outStringArg_ok_iff_array :
    (∃ r, outStringArg (δ := Unit) outNull 0 ⟨{ precision := true }, 0, 3⟩
        [.pointer 0x20000000 [ch 'a', ch 'b', ch 'c']] ⟨0, ()⟩ = .ok r) ↔
      (0 : Byte) ∈ [ch 'a', ch 'b', ch 'c'] ∨ true = true ∧
        (if (3 : UInt32) = 0 then 2 ^ 32 - 1 else (3 : UInt32).toNat) <
          [ch 'a', ch 'b', ch 'c'].length :=
  outStringArg_ok_iff outNull 0 (fun h => absurd h (by decide)) 0x20000000 _ [] ⟨0, ()⟩

end Conversions

end UsbCdc.PrintfUtil
