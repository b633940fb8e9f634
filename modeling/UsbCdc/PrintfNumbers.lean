import UsbCdc.PrintfArguments
import UsbCdc.PrintfMeaning

/-! # Numbers and their texts

What an integer conversion prints denotes its argument, but for three defects of the
conversion: a buffer of 32 characters cuts off binary digits and, behind as many zeros, the
sign; and `#` can overwrite digits and lose half of its prefix. -/
namespace UsbCdc.PrintfUtil
open BoundedLoops CStrings CommandSupport

/-! ## Reading a number -/

/-- What a character counts for in a numeral; `36` is none. -/
def digitValue (c : Byte) : ℕ :=
  if isDigit c then c.toNat - 48
  else if ch 'a' ≤ c && c ≤ ch 'z' then c.toNat - 87
  else if ch 'A' ≤ c && c ≤ ch 'Z' then c.toNat - 55
  else 36

def isNumeral (base : ℕ) (c : Byte) : Bool := digitValue c < base

/-- The number at the start of a text. -/
def readNumeral (base : ℕ) (t : List Byte) : ℕ :=
  Numerals.read digitValue base (t.takeWhile (isNumeral base))

/-- As `strtol` reads it: blanks, a sign, a numeral. -/
def readInteger (base : ℕ) (t : List Byte) : ℤ :=
  match t.dropWhile (· = ch ' ') with
  | [] => 0
  | c :: rest =>
    if c = ch '-' then -readNumeral base rest
    else if c = ch '+' then readNumeral base rest
    else readNumeral base (c :: rest)

theorem digitValue_digitChar {base : ℕ} (hb : base ≤ 16) (uppercase : Bool) :
    ∀ d < base, digitValue (digitChar uppercase d) = d := by
  have h : ∀ d : Fin 16, digitValue (digitChar uppercase d.val) = d.val := by
    cases uppercase <;> decide
  intro d hd
  exact h ⟨d, hd.trans_le hb⟩

theorem digitValue_zero : digitValue (ch '0') = 0 := by decide

/-- The base of an integer conversion. -/
def IsBase (base : ℕ) : Prop := base = 2 ∨ base = 8 ∨ base = 10 ∨ base = 16

theorem IsBase.bounds {base : ℕ} (h : IsBase base) : 1 < base ∧ base ≤ 16 := by
  rcases h with rfl | rfl | rfl | rfl <;> omega

theorem isBase_integerBase (c : Byte) : IsBase (integerBase c) := by
  rw [integerBase]
  split
  · exact .inr (.inr (.inr rfl))
  · split
    · exact .inr (.inl rfl)
    · split
      · exact .inl rfl
      · exact .inr (.inr (.inl rfl))

/-! ## The digits -/

theorem digitLoop_run {base : ℕ} (hb : 1 < base) (uppercase : Bool) (v : ℕ) (buf : List Byte)
    (hl : buf.length ≤ ntoaBufferSize) :
    ((digitLoop base uppercase).run (v, buf)).2 = buf ++
      ((Nat.digits base v).take (ntoaBufferSize - buf.length)).map (digitChar uppercase) := by
  induction hn : ntoaBufferSize - buf.length generalizing v buf with
  | zero =>
    have hg : (digitLoop base uppercase).guard (v, buf) = false := by
      simp only [digitLoop, Bool.and_eq_false_iff, decide_eq_false_iff_not]
      omega
    rw [Loop.run_exit _ hg]
    simp
  | succ n ih =>
    by_cases hv : v = 0
    · have hg : (digitLoop base uppercase).guard (v, buf) = false := by
        simp [digitLoop, hv]
      rw [Loop.run_exit _ hg, hv]
      simp
    · have hg : (digitLoop base uppercase).guard (v, buf) = true := by
        simp only [digitLoop, Bool.and_eq_true, decide_eq_true_eq]
        exact ⟨hv, by omega⟩
      have hbody : (digitLoop base uppercase).body (v, buf) =
          (v / base, buf ++ [digitChar uppercase (v % base)]) := rfl
      have hlen : (buf ++ [digitChar uppercase (v % base)]).length = buf.length + 1 := by simp
      rw [Loop.run_step _ hg, hbody, ih _ _ (by omega) (by omega),
        Nat.digits_def' hb (Nat.pos_of_ne_zero hv), List.take_succ_cons, List.map_cons,
        List.append_assoc, List.singleton_append]

/-- The digits of the value, as many as there is room for. -/
theorem digits_eq {base : ℕ} (hb : 1 < base) (value : ℕ) (flags : Flags) :
    digits value base flags =
      if value = 0 then (if flags.precision then [] else [ch '0'])
      else ((Nat.digits base value).take ntoaBufferSize).map (digitChar flags.uppercase) := by
  have hbody : (digitLoop base flags.uppercase).body (value, []) =
      (value / base, [digitChar flags.uppercase (value % base)]) := rfl
  have hrun := digitLoop_run hb flags.uppercase (value / base)
    [digitChar flags.uppercase (value % base)] (by simp [ntoaBufferSize])
  rw [← hbody] at hrun
  by_cases hv : value = 0
  · subst hv
    rw [if_pos rfl, digits]
    cases hp : flags.precision with
    | true => simp
    | false =>
      simp only [Bool.not_false, Bool.true_or, if_true, Bool.false_eq_true, if_false, hrun]
      simp [digitChar]
  · have htake : (Nat.digits base value).take ntoaBufferSize =
        value % base :: (Nat.digits base (value / base)).take (ntoaBufferSize - 1) := by
      rw [Nat.digits_def' hb (Nat.pos_of_ne_zero hv)]
      rfl
    rw [if_neg hv, digits, htake, List.map_cons]
    simp only [ne_eq, hv, not_false_eq_true, decide_true, Bool.or_true, if_true, hrun]
    rfl

theorem digitValue_digits {base : ℕ} (hb : IsBase base) (value : ℕ) (flags : Flags) :
    ∀ c ∈ digits value base flags, digitValue c < base := by
  intro c hc
  rw [digits_eq hb.bounds.1] at hc
  split at hc
  · split at hc
    · cases hc
    · obtain rfl := List.mem_singleton.mp hc
      rw [digitValue_zero]
      exact hb.bounds.1.trans' Nat.zero_lt_one
  · obtain ⟨d, hd, rfl⟩ := List.mem_map.mp hc
    have hlt := Nat.digits_lt_base hb.bounds.1 (List.mem_of_mem_take hd)
    rw [digitValue_digitChar hb.bounds.2 _ d hlt]
    exact hlt

/-- The digits denote the value, cut to what 32 of them can. -/
theorem read_digits {base : ℕ} (hb : IsBase base) (value : ℕ) (flags : Flags) :
    Numerals.read digitValue base (digits value base flags).reverse =
      value % base ^ ntoaBufferSize := by
  rw [digits_eq hb.bounds.1]
  by_cases hv : value = 0
  · rw [if_pos hv, hv, Nat.zero_mod]
    split
    · rfl
    · simp [Numerals.read, digitValue_zero]
  · rw [if_neg hv, Numerals.read_digits hb.bounds.1 (digitValue_digitChar hb.bounds.2 _)]

/-! ## The whole number -/

/-- How many digits the precision and the zeros of a field ask for. -/
def minDigits (prec width : UInt32) (flags : Flags) : ℕ :=
  if flags.left then 0 else max prec.toNat (if flags.zeropad then width.toNat else 0)

theorem leadingZeros_eq (buf : List Byte) (prec width : UInt32) (flags : Flags) :
    leadingZeros buf prec width flags =
      buf ++ List.replicate (min (minDigits prec width flags) ntoaBufferSize - buf.length)
        (ch '0') := by
  rw [leadingZeros, minDigits]
  cases flags.left with
  | true => simp
  | false =>
    cases flags.zeropad with
    | false => simp [zeroLoop_run]
    | true =>
      simp only [Bool.false_eq_true, if_false, if_true, zeroLoop_run, List.append_assoc,
        List.length_append, List.length_replicate]
      rw [← List.replicate_add]
      congr 2
      omega

/-- The sign, or the blank in its place. -/
def signText (negative : Bool) (flags : Flags) : List Byte :=
  if negative then [ch '-']
  else if flags.plus then [ch '+']
  else if flags.space then [ch ' ']
  else []

theorem signMark_eq (buf : List Byte) (negative : Bool) (flags : Flags) :
    signMark buf negative flags =
      buf ++ if buf.length < ntoaBufferSize then signText negative flags else [] := by
  simp only [signMark, signText, store]
  split
  · split <;> simp
  · split
    · split <;> simp
    · split
      · split <;> simp
      · simp

theorem hashFlags_of_not {flags : Flags} (h : flags.hash = false) (value : ℕ) :
    hashFlags value flags = flags := by
  rw [hashFlags]
  split
  · cases flags
    cases h
    rfl
  · rfl

theorem revText_eq (buf : List Byte) (width : UInt32) (flags : Flags) :
    ∃ a b, revText buf width flags = spaces a ++ buf.reverse ++ spaces b := by
  refine ⟨if !flags.left && !flags.zeropad then width.toNat - buf.length else 0,
    if flags.left then width.toNat - buf.length else 0, ?_⟩
  rw [revText]
  cases flags.left <;> cases flags.zeropad <;> simp [spaces]

private theorem dropWhile_spaces (a : ℕ) (t : List Byte) :
    (spaces a ++ t).dropWhile (· = ch ' ') = t.dropWhile (· = ch ' ') := by
  induction a with
  | zero => rfl
  | succ a ih => rw [spaces_succ, List.cons_append, List.dropWhile_cons_of_pos (by simp), ih]

private theorem readNumeral_append_spaces {base : ℕ} (hb : IsBase base) {t : List Byte}
    (ht : ∀ c ∈ t, digitValue c < base) (b : ℕ) :
    readNumeral base (t ++ spaces b) = Numerals.read digitValue base t := by
  have hs : (spaces b).takeWhile (isNumeral base) = [] := by
    have h36 : digitValue (ch ' ') = 36 := by decide
    have hn : isNumeral base (ch ' ') = false := by
      have hle := hb.bounds.2
      simp only [isNumeral, h36, decide_eq_false_iff_not]
      omega
    cases b with
    | zero => rfl
    | succ b => rw [spaces_succ, List.takeWhile_cons_of_neg (by simp [hn])]
  rw [readNumeral, List.takeWhile_append_of_pos (by simpa [isNumeral] using ht), hs,
    List.append_nil]

private theorem readInteger_text {base : ℕ} (hb : IsBase base) {t : List Byte}
    (ht : ∀ c ∈ t, digitValue c < base) (negative : Bool) (flags : Flags) (full : Prop)
    [Decidable full] (a b : ℕ) :
    readInteger base (spaces a ++ ((if full then signText negative flags else []) ++ t) ++
      spaces b) =
      if negative = true ∧ full then -(Numerals.read digitValue base t : ℤ)
      else Numerals.read digitValue base t := by
  have hnum := readNumeral_append_spaces hb ht b
  have hother : ∀ c, digitValue c = 36 → ¬ digitValue c < base := by
    intro c hc
    have hle := hb.bounds.2
    omega
  have hplain : ∀ k, readInteger base (spaces k ++ (t ++ spaces b)) =
      Numerals.read digitValue base t := by
    intro k
    rw [readInteger, dropWhile_spaces]
    cases t with
    | nil =>
      have he := dropWhile_spaces b []
      rw [List.append_nil] at he
      rw [List.nil_append, he]
      rfl
    | cons c t =>
      have hc := ht c (List.mem_cons_self ..)
      have h1 : c ≠ ch ' ' := fun h => hother c (by rw [h]; decide) hc
      have h2 : c ≠ ch '-' := fun h => hother c (by rw [h]; decide) hc
      have h3 : c ≠ ch '+' := fun h => hother c (by rw [h]; decide) hc
      rw [List.cons_append, List.dropWhile_cons_of_neg (by simpa using h1)]
      simp only [if_neg h2, if_neg h3]
      rw [← List.cons_append, hnum]
  have hmark : ∀ m, m ≠ ch ' ' → readInteger base (spaces a ++ (m :: (t ++ spaces b))) =
      if m = ch '-' then -(readNumeral base (t ++ spaces b) : ℤ)
      else if m = ch '+' then (readNumeral base (t ++ spaces b) : ℤ)
      else readNumeral base (m :: (t ++ spaces b)) := by
    intro m hm
    rw [readInteger, dropWhile_spaces, List.dropWhile_cons_of_neg (by simpa using hm)]
  by_cases hf : full
  · cases negative with
    | true => simpa [hf, signText, hnum] using hmark (ch '-') (by decide)
    | false =>
      cases hp : flags.plus with
      | true =>
        have h := hmark (ch '+') (by decide)
        rw [if_neg (by decide), if_pos rfl, hnum] at h
        simpa [hf, signText, hp] using h
      | false =>
        cases hs : flags.space with
        | true =>
          have h := hplain (a + 1)
          have he : spaces (a + 1) = spaces a ++ [ch ' '] := List.replicate_succ'
          rw [he] at h
          simpa [hf, signText, hp, hs] using h
        | false => simpa [hf, signText, hp, hs] using hplain a
  · simpa [hf] using hplain a

/-- The digits of a number with the zeros in front of them. -/
def paddedDigits (value base : ℕ) (prec width : UInt32) (flags : Flags) : List Byte :=
  leadingZeros (digits value base flags) prec width flags

theorem digitValue_paddedDigits {base : ℕ} (hb : IsBase base) (value : ℕ) (prec width : UInt32)
    (flags : Flags) : ∀ c ∈ paddedDigits value base prec width flags, digitValue c < base := by
  intro c hc
  rw [paddedDigits, leadingZeros_eq] at hc
  rcases List.mem_append.mp hc with hc | hc
  · exact digitValue_digits hb value flags c hc
  · rw [List.eq_of_mem_replicate hc, digitValue_zero]
    exact hb.bounds.1.trans' Nat.zero_lt_one

theorem read_paddedDigits {base : ℕ} (hb : IsBase base) (value : ℕ) (prec width : UInt32)
    (flags : Flags) :
    Numerals.read digitValue base (paddedDigits value base prec width flags).reverse =
      value % base ^ ntoaBufferSize := by
  rw [paddedDigits, leadingZeros_eq, Numerals.read_reverse_append_zeros digitValue_zero,
    read_digits hb]

theorem length_paddedDigits (value base : ℕ) (prec width : UInt32) (flags : Flags) :
    (paddedDigits value base prec width flags).length =
      max (digits value base flags).length (min (minDigits prec width flags) ntoaBufferSize) := by
  rw [paddedDigits, leadingZeros_eq, List.length_append, List.length_replicate]
  omega

theorem readInteger_ntoaText {base : ℕ} (hb : IsBase base) {flags : Flags}
    (hh : flags.hash = false) (value : ℕ) (negative : Bool) (prec width : UInt32) :
    readInteger base (ntoaText value negative base prec width flags) =
      if negative = true ∧
          (paddedDigits value base prec (zeroWidth negative width flags) flags).length <
            ntoaBufferSize
      then -((value % base ^ ntoaBufferSize : ℕ) : ℤ) else (value % base ^ ntoaBufferSize : ℕ) := by
  have hprefix : ∀ buf, basePrefix buf base prec (zeroWidth negative width flags) flags = buf := by
    intro buf
    rw [basePrefix, hh]
    rfl
  have hsign : ∀ f : Prop, [Decidable f] → (if f then signText negative flags else []).reverse =
      if f then signText negative flags else [] := by
    intro f _
    rw [signText]
    split
    · split
      · rfl
      · split
        · rfl
        · split <;> rfl
    · rfl
  obtain ⟨a, b, hab⟩ := revText_eq (formatBuffer (digits value base flags) negative base prec width
    flags) (zeroWidth negative width flags) flags
  have hbuf : formatBuffer (digits value base flags) negative base prec width flags =
      signMark (paddedDigits value base prec (zeroWidth negative width flags) flags) negative
        flags := by
    rw [formatBuffer, hprefix]
    rfl
  simp only [ntoaText, hashFlags_of_not hh]
  rw [hab, hbuf, signMark_eq, List.reverse_append, hsign,
    readInteger_text hb (by
      intro c hc
      exact digitValue_paddedDigits hb value prec _ flags c (List.mem_reverse.mp hc)),
    read_paddedDigits hb]

theorem integerBase_of_isSigned {c : Byte} (h : isSigned c = true) : integerBase c = 10 := by
  rw [isSigned, Bool.or_eq_true, decide_eq_true_eq, decide_eq_true_eq] at h
  rcases h with rfl | rfl <;> decide

theorem integerFlags_hash {c : Byte} {flags : Flags}
    (h : flags.hash = false ∨ integerBase c = 10) : (integerFlags c flags).hash = false := by
  simp only [integerFlags]
  rcases h with h | h
  · split <;> split <;> split <;> split <;> simp [h]
  · simp only [if_pos h]
    split <;> split <;> split <;> rfl

/-! ## The round trip -/

section Arguments
variable {δ : Type} {char : PlainChar} {c : Byte} {number value : ℤ}

private theorem length_digits_lt {v : ℕ} (hv : v < 2 ^ 64) (flags : Flags) :
    (digits v 10 flags).length < ntoaBufferSize := by
  rw [digits_eq (by decide)]
  split
  · split <;> decide
  · have hle : (Nat.digits 10 v).length ≤ 20 :=
      (Nat.digits_length_le_iff (by decide) v).mpr (hv.trans (by norm_num))
    rw [List.length_map, List.length_take, ntoaBufferSize]
    omega

/-- The text of an integer without a prefix denotes the argument as a number of the type that
the length names, unless it needs more than 32 digits, which only binary numbers do, or it is
a number below zero with 32 or more digits asked for, which comes out without its sign. -/
theorem readInteger_integerText_iff {spec : Spec}
    (hh : spec.flags.hash = false ∨ integerBase c = 10)
    (hv : (directiveType char c spec.flags).Converts number value) (va : List (Arg δ)) :
    ∃ t, integerText char c spec (numberArg spec.flags number :: va) = .ok (va, t) ∧
      (readInteger (integerBase c) t = value ↔
        value.natAbs < integerBase c ^ ntoaBufferSize ∧
        (value < 0 → minDigits spec.precision
          (zeroWidth true spec.width (integerFlags c spec.flags)) (integerFlags c spec.flags) <
            ntoaBufferSize)) := by
  have h := integerArg_directive hv va
  refine ⟨ntoaText value.natAbs (value < 0) (integerBase c) spec.precision spec.width
    (integerFlags c spec.flags), by rw [integerText, h]; rfl, ?_⟩
  obtain ⟨hb, hs⟩ := directiveType_bounds hv.holds
  rw [readInteger_ntoaText (isBase_integerBase c) (integerFlags_hash hh)]
  by_cases hneg : value < 0
  · have hbase := integerBase_of_isSigned (hs hneg)
    have hlt : value.natAbs < 10 ^ ntoaBufferSize :=
      hb.trans (by rw [ntoaBufferSize]; norm_num)
    have hdig := length_digits_lt hb (integerFlags c spec.flags)
    simp only [hbase, hneg, decide_true, true_and, length_paddedDigits, Nat.mod_eq_of_lt hlt, hlt,
      forall_const, Nat.max_lt, hdig]
    generalize minDigits spec.precision (zeroWidth true spec.width (integerFlags c spec.flags))
      (integerFlags c spec.flags) = m
    constructor
    · intro hread
      split at hread
      · rw [ntoaBufferSize] at *
        omega
      · omega
    · intro hm
      rw [if_pos (by rw [ntoaBufferSize] at *; omega)]
      omega
  · have hmod : ((value.natAbs % integerBase c ^ ntoaBufferSize : ℕ) : ℤ) = value ↔
        value.natAbs < integerBase c ^ ntoaBufferSize := by
      constructor
      · intro he
        have hn : value.natAbs % integerBase c ^ ntoaBufferSize = value.natAbs := by omega
        rw [← hn]
        exact Nat.mod_lt _ (pow_pos (isBase_integerBase c).bounds.1.le _)
      · intro hlt
        rw [Nat.mod_eq_of_lt hlt]
        omega
    simpa [hneg] using hmod

/-- `%hhd` with 300, and `%032d` with -7. -/
theorem readInteger_integerText_negative :
    (∃ t, integerText (δ := Unit) .unsigned (ch 'd') ⟨{ short := true, char := true }, 0, 0⟩
        [numberArg { short := true, char := true } 300] = .ok ([], t) ∧
      (readInteger 10 t = 44 ↔ (44 : ℤ).natAbs < 10 ^ ntoaBufferSize ∧
        ((44 : ℤ) < 0 → minDigits 0 (zeroWidth true 0 { short := true, char := true })
          { short := true, char := true } < ntoaBufferSize))) ∧
    ∃ t, integerText (δ := Unit) .unsigned (ch 'd') ⟨{ zeropad := true }, 32, 0⟩
        [numberArg { zeropad := true } (-7)] = .ok ([], t) ∧
      (readInteger 10 t = -7 ↔ (-7 : ℤ).natAbs < 10 ^ ntoaBufferSize ∧
        ((-7 : ℤ) < 0 → minDigits 0 (zeroWidth true 32 { zeropad := true }) { zeropad := true } <
          ntoaBufferSize)) :=
  ⟨readInteger_integerText_iff (Or.inl rfl) ⟨by decide, by decide⟩ [],
    readInteger_integerText_iff (Or.inl rfl) ⟨by decide, by decide⟩ []⟩

end Arguments

/-! ## The prefix -/

/-- The number at the start of a text that may announce its base. -/
def readPrefixed (base : ℕ) (t : List Byte) : ℕ :=
  let t := t.dropWhile (· = ch ' ')
  if base = 16 ∧ (t.take 2 = [ch '0', ch 'x'] ∨ t.take 2 = [ch '0', ch 'X']) ∨
      base = 2 ∧ t.take 2 = [ch '0', ch 'b'] then
    readNumeral base (t.drop 2)
  else readNumeral base t

/-- How many characters in front of the padded digits give way to the prefix, where there
are `padded` of them. -/
def overwritten (base padded : ℕ) (width : UInt32) (flags : Flags) : ℕ :=
  if flags.precision ∨ padded ≠ width.toNat then 0
  else if base = 16 ∧ padded ≠ 1 then 2 else 1

/-- The prefix as far as the buffer has room for it behind `n` digits. -/
def prefixText (base n : ℕ) (uppercase : Bool) : List Byte :=
  (if n + 1 < ntoaBufferSize ∨ base = 8 ∧ n < ntoaBufferSize then [ch '0'] else []) ++
    if n < ntoaBufferSize then
      if base = 16 then [if uppercase then ch 'X' else ch 'x']
      else if base = 2 then [ch 'b'] else []
    else []

theorem dropForPrefix_eq {buf : List Byte} (h0 : buf ≠ []) (base : ℕ) {prec width : UInt32}
    {flags : Flags} (hp : flags.precision = false → prec = 0) :
    dropForPrefix buf base prec width flags =
      buf.take (buf.length - overwritten base buf.length width flags) := by
  have hl : buf.length ≠ 0 := fun h => h0 (List.length_eq_zero_iff.mp h)
  have hlast : buf.dropLast.length = buf.length - 1 := List.length_dropLast
  rw [dropForPrefix, overwritten]
  by_cases hw : flags.precision = true ∨ buf.length ≠ width.toNat
  · rw [if_pos hw, if_neg, Nat.sub_zero, List.take_length]
    simp only [Bool.and_eq_true, Bool.or_eq_true, decide_eq_true_eq, Bool.not_eq_true']
    rintro ⟨⟨hf, -⟩, hlen⟩
    have hprec : prec.toNat = 0 := by rw [hp hf]; rfl
    rcases hw with hw | hw
    · rw [hf] at hw
      cases hw
    · omega
  · obtain ⟨hf, hwidth⟩ := not_or.mp hw
    rw [not_not] at hwidth
    have hw0 : width.toNat ≠ 0 := hwidth ▸ hl
    rw [if_neg hw, if_pos (by simp [hf, hwidth, hw0])]
    by_cases hb : base = 16 ∧ buf.length ≠ 1
    · have h1 : buf.dropLast.length ≠ 0 := by
        rw [hlast]
        omega
      simp only [if_pos hb]
      rw [if_pos (by simp only [h1, hb.1, ne_eq, not_false_eq_true, decide_true, Bool.and_self]),
        List.dropLast_eq_take, List.dropLast_eq_take, List.take_take, List.length_take]
      congr 1
      omega
    · simp only [if_neg hb]
      rw [if_neg, List.dropLast_eq_take]
      simp only [Bool.and_eq_true, decide_eq_true_eq, hlast]
      rintro ⟨hn, h16⟩
      exact hb ⟨h16, by omega⟩

private theorem store_store (b : List Byte) (c d : Byte) :
    store (store b c) d =
      b ++ ((if b.length < ntoaBufferSize then [c] else []) ++
        if b.length + 1 < ntoaBufferSize then [d] else []) := by
  simp only [store]
  by_cases h : b.length < ntoaBufferSize
  · by_cases h' : b.length + 1 < ntoaBufferSize
    · simp [h, h']
    · simp [h, h']
  · have h' : ¬ b.length + 1 < ntoaBufferSize := by omega
    simp [h, h']

theorem basePrefix_eq {buf : List Byte} (h0 : buf ≠ []) {base : ℕ}
    (hb : base = 2 ∨ base = 8 ∨ base = 16) {prec width : UInt32} {flags : Flags}
    (hh : flags.hash = true) (hp : flags.precision = false → prec = 0) :
    (basePrefix buf base prec width flags).reverse =
      prefixText base (buf.length - overwritten base buf.length width flags) flags.uppercase ++
        (buf.take (buf.length - overwritten base buf.length width flags)).reverse := by
  have hlen : (buf.take (buf.length - overwritten base buf.length width flags)).length =
      buf.length - overwritten base buf.length width flags :=
    List.length_take_of_le (Nat.sub_le _ _)
  rw [basePrefix, if_pos hh, dropForPrefix_eq h0 base hp]
  generalize buf.take (buf.length - overwritten base buf.length width flags) = b at hlen ⊢
  rw [← hlen]
  rcases hb with rfl | rfl | rfl
  · simp only [Nat.reduceEqDiff, decide_false, Bool.false_and, Bool.false_eq_true, if_false,
      if_true, store_store, prefixText, false_and, or_false]
    by_cases h : b.length < ntoaBufferSize <;> by_cases h' : b.length + 1 < ntoaBufferSize <;>
      simp [h, h']
  · simp only [Nat.reduceEqDiff, decide_false, Bool.false_and, Bool.false_eq_true, if_false,
      store, prefixText, true_and]
    by_cases h : b.length < ntoaBufferSize
    · simp [h]
    · have h' : ¬ b.length + 1 < ntoaBufferSize := by omega
      simp [h, h']
  · cases hu : flags.uppercase <;>
      by_cases h : b.length < ntoaBufferSize <;> by_cases h' : b.length + 1 < ntoaBufferSize <;>
        simp [store_store, prefixText, h, h']

private theorem ne_of_digitValue {base : ℕ} {c d : Byte} (hc : digitValue c < base)
    (hd : base ≤ digitValue d) : c ≠ d := by
  rintro rfl
  exact absurd hc (Nat.not_lt.mpr hd)

private theorem readNumeral_cons_of_not {base : ℕ} {c : Byte} (hc : base ≤ digitValue c)
    (t : List Byte) : readNumeral base (c :: t) = 0 := by
  have hn : isNumeral base c = false := by
    rw [isNumeral, decide_eq_false_iff_not]
    omega
  rw [readNumeral, List.takeWhile_cons_of_neg (by simp [hn])]
  rfl

private theorem dropWhile_spaces_cons (a : ℕ) {c : Byte} (hc : c ≠ ch ' ') (t : List Byte) :
    (spaces a ++ c :: t).dropWhile (· = ch ' ') = c :: t := by
  rw [dropWhile_spaces, List.dropWhile_cons_of_neg (by simpa using hc)]

/-- A text without a whole prefix is read as it stands. -/
private theorem readPrefixed_plain {base : ℕ} (hb : IsBase base) (a : ℕ) {c d : Byte}
    (t : List Byte) (hc : c ≠ ch ' ') (hd : base = 8 ∨ c ≠ ch '0' ∨ digitValue d < base) :
    readPrefixed base (spaces a ++ c :: d :: t) = readNumeral base (c :: d :: t) := by
  simp only [readPrefixed]
  rw [dropWhile_spaces_cons a hc, if_neg]
  have hx : digitValue (ch 'x') = 33 ∧ digitValue (ch 'X') = 33 ∧ digitValue (ch 'b') = 11 := by
    decide
  have hle := hb.bounds.2
  simp only [List.take_succ_cons, List.take_zero, List.cons.injEq, and_true]
  rintro (⟨h16, hcd⟩ | ⟨h2, hcd⟩)
  · rcases hd with h8 | h0 | hlt
    · omega
    · rcases hcd with hcd | hcd <;> exact h0 hcd.1
    · rcases hcd with hcd | hcd <;> rw [hcd.2] at hlt <;> omega
  · rcases hd with h8 | h0 | hlt
    · omega
    · exact h0 hcd.1
    · rw [hcd.2] at hlt
      omega

private theorem prefixText_of_le {n : ℕ} (h : ntoaBufferSize ≤ n) (base : ℕ)
    (uppercase : Bool) : prefixText base n uppercase = [] := by
  have h1 : ¬ n < ntoaBufferSize := Nat.not_lt.mpr h
  have h2 : ¬ n + 1 < ntoaBufferSize := by omega
  simp [prefixText, h1, h2]

/-- Where there is no room for a prefix, the digits stand alone. -/
private theorem readPrefixed_full {base : ℕ} (hb : IsBase base) {t : List Byte}
    (ht : ∀ c ∈ t, digitValue c < base) (hl : ntoaBufferSize ≤ t.length) (uppercase : Bool)
    (a b : ℕ) :
    readPrefixed base (spaces a ++ (prefixText base t.length uppercase ++ t) ++ spaces b) =
      Numerals.read digitValue base t := by
  have hnum := readNumeral_append_spaces hb ht b
  rw [prefixText_of_le hl, List.nil_append]
  match t, ht, hl with
  | [], _, hl => exact absurd hl (by decide)
  | [c], _, hl => exact absurd hl (by simp [ntoaBufferSize])
  | c :: d :: t, ht, _ =>
    have hspace : base ≤ digitValue (ch ' ') := hb.bounds.2.trans (by decide)
    have hc : c ≠ ch ' ' := ne_of_digitValue (ht c (by simp)) hspace
    rw [List.append_assoc, List.cons_append, List.cons_append,
      readPrefixed_plain hb a _ hc (.inr (.inr (ht d (by simp))))]
    exact hnum

private theorem readPrefixed_octal {t : List Byte} (ht : ∀ c ∈ t, digitValue c < 8)
    (hl : t.length < ntoaBufferSize) (uppercase : Bool) (a b : ℕ) :
    readPrefixed 8 (spaces a ++ (prefixText 8 t.length uppercase ++ t) ++ spaces b) =
      Numerals.read digitValue 8 t := by
  have hp : prefixText 8 t.length uppercase = [ch '0'] := by simp [prefixText, hl]
  have h0 : ∀ c ∈ ch '0' :: t, digitValue c < 8 := by
    intro c hc
    rcases List.mem_cons.mp hc with rfl | hc
    · decide
    · exact ht c hc
  have hnum : readNumeral 8 (ch '0' :: t ++ spaces b) =
      Numerals.read digitValue 8 (ch '0' :: t) :=
    readNumeral_append_spaces (.inr (.inl rfl)) h0 b
  rw [Numerals.read_cons_zero digitValue_zero] at hnum
  simp only [readPrefixed]
  rw [hp, List.append_assoc, List.singleton_append, List.cons_append,
    dropWhile_spaces_cons a (by decide), if_neg (by simp)]
  exact hnum

/-- The prefix of a base other than eight: a zero and a letter. -/
private theorem readPrefixed_letter {base : ℕ} (hb : IsBase base) {t : List Byte}
    (ht : ∀ c ∈ t, digitValue c < base) {x : Byte} (hx : base ≤ digitValue x)
    (hp : base = 16 ∧ (x = ch 'x' ∨ x = ch 'X') ∨ base = 2 ∧ x = ch 'b') (a b : ℕ) :
    readPrefixed base (spaces a ++ (ch '0' :: x :: t) ++ spaces b) =
        Numerals.read digitValue base t ∧
      (t ≠ [] → readPrefixed base (spaces a ++ (x :: t) ++ spaces b) = 0) := by
  have hnum := readNumeral_append_spaces hb ht b
  have hx0 : ch '0' ≠ x := by
    refine ne_of_digitValue ?_ hx
    rw [digitValue_zero]
    exact hb.bounds.1.trans' Nat.zero_lt_one
  constructor
  · simp only [readPrefixed]
    rw [List.append_assoc, List.cons_append, List.cons_append,
      dropWhile_spaces_cons a (by decide), if_pos (by simpa using hp)]
    exact hnum
  · intro h0
    obtain ⟨d, t, rfl⟩ := List.exists_cons_of_ne_nil h0
    have hspace : x ≠ ch ' ' := by
      rcases hp with ⟨-, rfl | rfl⟩ | ⟨-, rfl⟩ <;> decide
    rw [List.append_assoc, List.cons_append, List.cons_append,
      readPrefixed_plain hb a _ hspace (.inr (.inl hx0.symm)), readNumeral_cons_of_not hx]

/-- Half a prefix hides the number. -/
private theorem readPrefixed_text {base : ℕ} (hb : base = 2 ∨ base = 8 ∨ base = 16)
    {t : List Byte} (ht : ∀ c ∈ t, digitValue c < base) (uppercase : Bool) (a b : ℕ) :
    readPrefixed base (spaces a ++ (prefixText base t.length uppercase ++ t) ++ spaces b) =
      if base ≠ 8 ∧ t.length = 31 then 0 else Numerals.read digitValue base t := by
  have hbase : IsBase base := by
    rcases hb with rfl | rfl | rfl <;> simp [IsBase]
  rcases Nat.lt_or_ge t.length ntoaBufferSize with h | h
  · by_cases h8 : base = 8
    · subst h8
      rw [readPrefixed_octal ht h, if_neg (by simp)]
    · obtain ⟨x, hx, hp, htext⟩ : ∃ x, base ≤ digitValue x ∧
          (base = 16 ∧ (x = ch 'x' ∨ x = ch 'X') ∨ base = 2 ∧ x = ch 'b') ∧
          prefixText base t.length uppercase =
            (if t.length = 31 then [] else [ch '0']) ++ [x] := by
        have h31 : t.length + 1 < ntoaBufferSize ↔ ¬ t.length = 31 := by
          rw [ntoaBufferSize] at h ⊢
          omega
        rcases hb with rfl | rfl | rfl
        · refine ⟨ch 'b', by decide, .inr ⟨rfl, rfl⟩, ?_⟩
          by_cases h' : t.length = 31
          · simp [prefixText, h', ntoaBufferSize]
          · simp [prefixText, h, h31, h']
        · exact absurd rfl h8
        · refine ⟨if uppercase then ch 'X' else ch 'x', by cases uppercase <;> decide,
            .inl ⟨rfl, by cases uppercase <;> simp⟩, ?_⟩
          by_cases h' : t.length = 31
          · simp [prefixText, h', ntoaBufferSize]
          · simp [prefixText, h, h31, h']
      obtain ⟨hwhole, hhalf⟩ := readPrefixed_letter hbase ht hx hp a b
      rw [htext]
      by_cases h31 : t.length = 31
      · rw [if_pos h31, if_pos ⟨h8, h31⟩]
        exact hhalf (fun h0 => by simp [h0] at h31)
      · rw [if_neg h31, if_neg (fun hc => h31 hc.2)]
        exact hwhole
  · rw [readPrefixed_full hbase ht h, if_neg]
    rw [ntoaBufferSize] at h
    omega

theorem ntoaText_hash {base : ℕ} {flags : Flags}
    (hs : flags.plus = false ∧ flags.space = false) {value : ℕ} (h0 : value ≠ 0)
    (prec width : UInt32) :
    ∃ a b, ntoaText value false base prec width flags =
      spaces a ++ (basePrefix (paddedDigits value base prec width flags) base prec width
        flags).reverse ++ spaces b := by
  have hw : zeroWidth false width flags = width := by
    rw [zeroWidth, hs.1, hs.2]
    simp
  have hf : hashFlags value flags = flags := if_neg h0
  have hm : ∀ buf, signMark buf false flags = buf := by
    intro buf
    rw [signMark, hs.1, hs.2]
    rfl
  simp only [ntoaText, hf, formatBuffer, hw, hm]
  exact revText_eq _ width flags

private theorem length_digits {base : ℕ} (hb : 1 < base) {value : ℕ} (h0 : value ≠ 0)
    (flags : Flags) :
    (digits value base flags).length = min ntoaBufferSize (Nat.digits base value).length := by
  rw [digits_eq hb, if_neg h0, List.length_map, List.length_take]

/-- The digits behind a prefix that `k` of the padded digits have given way to. -/
private theorem read_take_paddedDigits {base : ℕ} (hb : IsBase base) {value : ℕ} (h0 : value ≠ 0)
    (prec width : UInt32) (flags : Flags) (k : ℕ) :
    Numerals.read digitValue base ((paddedDigits value base prec width flags).take
        ((paddedDigits value base prec width flags).length - k)).reverse = value ↔
      (Nat.digits base value).length ≤ ntoaBufferSize ∧
        (Nat.digits base value).length + k ≤ (paddedDigits value base prec width flags).length := by
  have hd := length_digits hb.bounds.1 h0 flags
  have hlen := length_paddedDigits value base prec width flags
  have hpos : 0 < (Nat.digits base value).length := by
    rw [List.length_pos_iff]
    exact Nat.digits_ne_nil_iff_ne_zero.mpr h0
  constructor
  · intro hread
    by_contra hcond
    have hshort : (paddedDigits value base prec width flags).length - k ≤
        (Nat.digits base value).length - 1 := by omega
    have hlow : base ^ ((Nat.digits base value).length - 1) ≤ value :=
      (Nat.lt_digits_length_iff hb.bounds.1 value).mp (by omega)
    have hlt := Numerals.read_reverse_lt hb.bounds.1
      (t := (paddedDigits value base prec width flags).take
        ((paddedDigits value base prec width flags).length - k)) (fun c hc =>
      digitValue_paddedDigits hb value prec width flags c (List.mem_of_mem_take hc))
    rw [hread, List.length_take_of_le (Nat.sub_le _ _)] at hlt
    have hpow := Nat.pow_le_pow_right hb.bounds.1.le hshort
    omega
  · rintro ⟨hle, hk⟩
    have hvalue : value % base ^ ntoaBufferSize = value :=
      Nat.mod_eq_of_lt ((Nat.digits_length_le_iff hb.bounds.1 value).mp hle)
    have htake : (paddedDigits value base prec width flags).take
        ((paddedDigits value base prec width flags).length - k) =
        digits value base flags ++ List.replicate
          ((paddedDigits value base prec width flags).length - k -
            (digits value base flags).length) (ch '0') := by
      generalize hm : (paddedDigits value base prec width flags).length - k = m
      rw [paddedDigits, leadingZeros_eq, List.take_append, List.take_replicate,
        List.take_of_length_le (by omega)]
      congr 2
      omega
    rw [htake, Numerals.read_reverse_append_zeros digitValue_zero, read_digits hb, hvalue]

private theorem paddedDigits_ne_nil {base : ℕ} (hb : 1 < base) {value : ℕ} (h0 : value ≠ 0)
    (prec width : UInt32) (flags : Flags) : paddedDigits value base prec width flags ≠ [] := by
  have hd := length_digits hb h0 flags
  have hlen := length_paddedDigits value base prec width flags
  have hpos : 0 < (Nat.digits base value).length := by
    rw [List.length_pos_iff]
    exact Nat.digits_ne_nil_iff_ne_zero.mpr h0
  rw [← List.length_pos_iff, hlen, hd, ntoaBufferSize]
  omega

/-- The number of digits that a number of so many digits is printed with. -/
def paddedLength (digits : ℕ) (prec width : UInt32) (flags : Flags) : ℕ :=
  max digits (min (minDigits prec width flags) ntoaBufferSize)

/-- A number of `n` digits comes out whole behind its prefix: it has no more digits than the
buffer, the prefix takes the place of zeros only, and there is room for all of it. -/
structure PrefixFits (base n : ℕ) (prec width : UInt32) (flags : Flags) : Prop where
  short : n ≤ ntoaBufferSize
  zeros : n + overwritten base (paddedLength n prec width flags) width flags ≤
    paddedLength n prec width flags
  whole : base = 8 ∨ paddedLength n prec width flags -
    overwritten base (paddedLength n prec width flags) width flags ≠ 31

theorem readPrefixed_ntoaText {base : ℕ} (hb : base = 2 ∨ base = 8 ∨ base = 16) {flags : Flags}
    (hh : flags.hash = true) (hs : flags.plus = false ∧ flags.space = false) {value : ℕ}
    (h0 : value ≠ 0) {prec : UInt32} (hp : flags.precision = false → prec = 0) (width : UInt32) :
    readPrefixed base (ntoaText value false base prec width flags) = value ↔
      PrefixFits base (Nat.digits base value).length prec width flags := by
  have hbase : IsBase base := by
    rcases hb with rfl | rfl | rfl <;> simp [IsBase]
  obtain ⟨a, b, hab⟩ : ∃ a b, ntoaText value false base prec width flags =
      spaces a ++ (basePrefix (paddedDigits value base prec width flags) base prec width
        flags).reverse ++ spaces b := ntoaText_hash hs h0 prec width
  have hread := read_take_paddedDigits hbase h0 prec width flags (overwritten base
    (paddedDigits value base prec width flags).length width flags)
  have hlen : (Nat.digits base value).length ≤ ntoaBufferSize →
      (paddedDigits value base prec width flags).length =
        paddedLength (Nat.digits base value).length prec width flags := by
    intro hle
    rw [length_paddedDigits, length_digits hbase.bounds.1 h0, Nat.min_eq_right hle, paddedLength]
  have htl : ((paddedDigits value base prec width flags).take
      ((paddedDigits value base prec width flags).length - overwritten base
        (paddedDigits value base prec width flags).length width flags)).reverse.length =
      (paddedDigits value base prec width flags).length - overwritten base
        (paddedDigits value base prec width flags).length width flags := by
    rw [List.length_reverse, List.length_take_of_le (Nat.sub_le _ _)]
  have htext := readPrefixed_text hb (t := ((paddedDigits value base prec width flags).take
      ((paddedDigits value base prec width flags).length - overwritten base
        (paddedDigits value base prec width flags).length width flags)).reverse)
    (fun c hc => digitValue_paddedDigits hbase value prec width flags c
      (List.mem_of_mem_take (List.mem_reverse.mp hc))) flags.uppercase a b
  rw [htl] at htext
  rw [hab, basePrefix_eq (paddedDigits_ne_nil hbase.bounds.1 h0 _ _ _) hb hh hp, htext]
  by_cases h31 : base ≠ 8 ∧ (paddedDigits value base prec width flags).length - overwritten base
      (paddedDigits value base prec width flags).length width flags = 31
  · rw [if_pos h31]
    constructor
    · intro h
      exact absurd h.symm h0
    · intro hf
      have h8 := hf.whole
      rw [← hlen hf.short] at h8
      exact (h8.elim h31.1 (fun h => h h31.2)).elim
  · rw [if_neg h31, hread]
    constructor
    · rintro ⟨hle, hk⟩
      refine ⟨hle, ?_, ?_⟩
      · rwa [← hlen hle]
      · rw [← hlen hle]
        by_cases h8 : base = 8
        · exact .inl h8
        · exact .inr (fun h => h31 ⟨h8, h⟩)
    · intro hf
      have hk := hf.zeros
      rw [← hlen hf.short] at hk
      exact ⟨hf.short, hk⟩

section Arguments
variable {δ : Type} {char : PlainChar} {c : Byte} {number value : ℤ}

/-- The text of an integer with a prefix denotes the argument, unless it needs more than 32
digits, or the prefix has been written over digits because there were no zeros for it, or the
buffer had room for half of the prefix only. Where it had none for the prefix, the number is
whole. -/
theorem readPrefixed_integerText_iff {spec : Spec} (hs : spec.Valid)
    (hh : spec.flags.hash = true) (hc : integerBase c ≠ 10) (h0 : value ≠ 0)
    (hv : (directiveType char c spec.flags).Converts number value) (va : List (Arg δ)) :
    ∃ t, integerText char c spec (numberArg spec.flags number :: va) = .ok (va, t) ∧
      ((readPrefixed (integerBase c) t : ℤ) = value ↔
        PrefixFits (integerBase c) (Nat.digits (integerBase c) value.natAbs).length
          spec.precision spec.width (integerFlags c spec.flags)) := by
  have h := integerArg_directive hv va
  have hsigned : isSigned c = false := by
    cases hi : isSigned c with
    | false => rfl
    | true => exact absurd (integerBase_of_isSigned hi) hc
  have hpos : ¬ value < 0 := by
    intro hneg
    rw [(directiveType_bounds hv.holds).2 hneg] at hsigned
    cases hsigned
  have hb : integerBase c = 2 ∨ integerBase c = 8 ∨ integerBase c = 16 := by
    rcases isBase_integerBase c with hb | hb | hb | hb
    · exact .inl hb
    · exact .inr (.inl hb)
    · exact absurd hb hc
    · exact .inr (.inr hb)
  have hflags : (integerFlags c spec.flags).hash = true ∧
      ((integerFlags c spec.flags).plus = false ∧ (integerFlags c spec.flags).space = false) ∧
      (integerFlags c spec.flags).precision = spec.flags.precision := by
    simp only [integerFlags, if_neg hc, hsigned]
    cases hp : spec.flags.precision <;> by_cases hX : c = ch 'X' <;> simp [hX, hp, hh]
  refine ⟨ntoaText value.natAbs (value < 0) (integerBase c) spec.precision spec.width
    (integerFlags c spec.flags), by rw [integerText, h]; rfl, ?_⟩
  have h0 : value.natAbs ≠ 0 := by omega
  have hread := readPrefixed_ntoaText hb hflags.1 hflags.2.1 h0
    (fun hp => hs (hflags.2.2 ▸ hp)) spec.width
  rw [show decide (value < 0) = false from decide_eq_false hpos, ← hread]
  omega

theorem readPrefixed_integerText_hex :
    ∃ t, integerText (δ := Unit) .unsigned (ch 'x') ⟨{ hash := true }, 0, 0⟩
        [numberArg { hash := true } 255] = .ok ([], t) ∧
      ((readPrefixed 16 t : ℤ) = 255 ↔
        PrefixFits 16 (Nat.digits 16 (255 : ℤ).natAbs).length 0 0
          (integerFlags (ch 'x') { hash := true })) :=
  readPrefixed_integerText_iff (fun _ => rfl) rfl (by decide) (by decide) ⟨by decide, by decide⟩ []

end Arguments

end UsbCdc.PrintfUtil
