import UsbCdc.PrintfMeaning

/-! # Which formats can be used

A format is read in one way only, and a NUL-terminated string can be formatted, with the
right arguments, exactly if no directive in it is unfinished. -/
namespace UsbCdc.PrintfUtil
open BoundedLoops CStrings CommandSupport

/-! ## Unique reading -/

private theorem isFlag_print (f : FlagChar) : isFlag f.print = true := by
  cases f <;> decide

private theorem print_injective {f g : FlagChar} (h : f.print = g.print) : f = g := by
  revert h
  cases f <;> cases g <;> decide

theorem flags_unique {fs gs : List FlagChar} {x y : List Byte}
    (h : fs.map FlagChar.print ++ x = gs.map FlagChar.print ++ y) (hx : Stops isFlag x)
    (hy : Stops isFlag y) : fs = gs ∧ x = y := by
  induction fs generalizing gs with
  | nil =>
    cases gs with
    | nil => exact ⟨rfl, h⟩
    | cons g gs =>
      obtain rfl : x = g.print :: (gs.map FlagChar.print ++ y) := h
      rw [Stops, isFlag_print] at hx
      cases hx
  | cons f fs ih =>
    cases gs with
    | nil =>
      obtain rfl : f.print :: (fs.map FlagChar.print ++ x) = y := h
      rw [Stops, isFlag_print] at hy
      cases hy
    | cons g gs =>
      obtain ⟨hfg, ht⟩ := List.cons.inj h
      obtain ⟨rfl, rfl⟩ := ih ht
      exact ⟨by rw [print_injective hfg], rfl⟩

private theorem digitOf_injective {d e : Fin 10} (h : digitOf d = digitOf e) : d = e := by
  revert d e
  decide

theorem digits_unique {ds es : List (Fin 10)} {x y : List Byte}
    (h : ds.map digitOf ++ x = es.map digitOf ++ y) (hx : Stops isDigit x)
    (hy : Stops isDigit y) : ds = es ∧ x = y := by
  induction ds generalizing es with
  | nil =>
    cases es with
    | nil => exact ⟨rfl, h⟩
    | cons e es =>
      obtain rfl : x = digitOf e :: (es.map digitOf ++ y) := h
      rw [Stops, isDigit_digitOf] at hx
      cases hx
  | cons d ds ih =>
    cases es with
    | nil =>
      obtain rfl : digitOf d :: (ds.map digitOf ++ x) = y := h
      rw [Stops, isDigit_digitOf] at hy
      cases hy
    | cons e es =>
      obtain ⟨hde, ht⟩ := List.cons.inj h
      obtain ⟨rfl, rfl⟩ := ih ht
      exact ⟨by rw [digitOf_injective hde], rfl⟩

theorem count_unique {c d : Count} {x y : List Byte} (h : c.print ++ x = d.print ++ y)
    (hx : Stops c.continues x) (hy : Stops d.continues y) : c = d ∧ x = y := by
  cases c with
  | absent =>
    cases d with
    | absent => exact ⟨rfl, h⟩
    | number e es =>
      obtain rfl : x = digitOf e :: (es.map digitOf ++ y) := h
      simp [Stops, Count.continues, isDigit_digitOf] at hx
    | star =>
      obtain rfl : x = ch '*' :: y := h
      simp [Stops, Count.continues] at hx
  | number e es =>
    cases d with
    | absent =>
      obtain rfl : digitOf e :: (es.map digitOf ++ x) = y := h
      simp [Stops, Count.continues, isDigit_digitOf] at hy
    | number e' es' =>
      obtain ⟨hd, rfl⟩ : e :: es = e' :: es' ∧ x = y := digits_unique h hx hy
      cases hd
      exact ⟨rfl, rfl⟩
    | star =>
      have hc : digitOf e = ch '*' := (List.cons.inj h).1
      exact absurd hc (not_star_of_isDigit (isDigit_digitOf e))
  | star =>
    cases d with
    | absent =>
      obtain rfl : ch '*' :: x = y := h
      simp [Stops, Count.continues] at hy
    | number e es =>
      have hc : digitOf e = ch '*' := (List.cons.inj h).1.symm
      exact absurd hc (not_star_of_isDigit (isDigit_digitOf e))
    | star => exact ⟨rfl, (List.cons.inj h).2⟩

theorem precision_unique {c d : Option Count} {x y : List Byte}
    (h : printPrecision c ++ x = printPrecision d ++ y) (hx : Stops (continuesPrecision c) x)
    (hy : Stops (continuesPrecision d) y) : c = d ∧ x = y := by
  cases c with
  | none =>
    cases d with
    | none => exact ⟨rfl, h⟩
    | some d =>
      obtain rfl : x = ch '.' :: (d.print ++ y) := h
      simp [Stops, continuesPrecision] at hx
  | some c =>
    cases d with
    | none =>
      obtain rfl : ch '.' :: (c.print ++ x) = y := h
      simp [Stops, continuesPrecision] at hy
    | some d =>
      obtain ⟨rfl, rfl⟩ := count_unique (List.cons.inj h).2 hx hy
      exact ⟨rfl, rfl⟩

private theorem length_print_injective {k m : Length} (h : k.print = m.print) : k = m := by
  revert h
  cases k <;> cases m <;> decide

/-- A length that goes on where another one ends goes on with a letter that the other one
would have taken. -/
private theorem continues_of_print_eq {k m : Length} {c : Byte} {t : List Byte}
    (h : m.print = k.print ++ c :: t) : k.continues c = true := by
  cases k <;> cases m <;> simp_all +decide [Length.print, Length.continues, isLength]

private theorem length_unique_left {k m : Length} {x y t : List Byte}
    (h : m.print = k.print ++ t) (hx : x = t ++ y) (hs : Stops k.continues x) :
    k = m ∧ x = y := by
  cases t with
  | nil => exact ⟨length_print_injective (by simpa using h.symm), hx⟩
  | cons c t =>
    subst hx
    rw [List.cons_append, Stops, continues_of_print_eq h] at hs
    cases hs

theorem length_unique {k m : Length} {x y : List Byte} (h : k.print ++ x = m.print ++ y)
    (hx : Stops k.continues x) (hy : Stops m.continues y) : k = m ∧ x = y := by
  rcases List.append_eq_append_iff.mp h with ⟨t, hm, ht⟩ | ⟨t, hk, ht⟩
  · exact length_unique_left hm ht hx
  · obtain ⟨he, ht⟩ := length_unique_left hk ht hy
    exact ⟨he.symm, ht.symm⟩

/-- Where a directive ends is determined by the text that it starts. -/
theorem Fields.print_unique {d e : Fields} {x y : List Byte} (h : d.print ++ x = e.print ++ y)
    (hd : d.Maximal) (he : e.Maximal) : d = e ∧ x = y := by
  have h1 : d.flags.map FlagChar.print ++ (d.afterFlags ++ x) =
      e.flags.map FlagChar.print ++ (e.afterFlags ++ y) := by
    simpa [Fields.print] using h
  obtain ⟨hf, h2⟩ := flags_unique h1 (hd.flags.append d.afterFlags_ne_nil x)
    (he.flags.append e.afterFlags_ne_nil y)
  simp only [afterFlags, List.append_assoc] at h2
  obtain ⟨hw, h3⟩ := count_unique h2 (hd.width.append d.afterWidth_ne_nil x)
    (he.width.append e.afterWidth_ne_nil y)
  simp only [afterWidth, List.append_assoc] at h3
  obtain ⟨hp, h4⟩ := precision_unique h3 (hd.precision.append d.afterPrecision_ne_nil x)
    (he.precision.append e.afterPrecision_ne_nil y)
  simp only [afterPrecision, List.append_assoc] at h4
  obtain ⟨hl, h5⟩ := length_unique h4 (hd.length.append (List.cons_ne_nil _ _) x)
    (he.length.append (List.cons_ne_nil _ _) y)
  obtain ⟨hc, hxy⟩ := List.cons.inj h5
  refine ⟨?_, hxy⟩
  cases d
  cases e
  simp_all

theorem Item.print_unique {i k : Item} {x y : List Byte} (h : i.print ++ x = k.print ++ y) :
    i = k ∧ x = y := by
  cases i with
  | literal c hc =>
    obtain ⟨hcd, ht⟩ : c = (k.print ++ y).head?.getD 0 ∧ x = (k.print ++ y).tail := by
      rw [← h]
      exact ⟨rfl, rfl⟩
    cases k with
    | literal d hd =>
      obtain rfl : c = d := hcd
      exact ⟨rfl, ht⟩
    | directive d => exact absurd hcd hc.2
  | directive d =>
    cases k with
    | literal c hc =>
      have hcd : ch '%' = c := (List.cons.inj h).1
      exact absurd hcd.symm hc.2
    | directive e =>
      obtain ⟨hde, hxy⟩ := Fields.print_unique h d.property e.property
      exact ⟨by rw [Subtype.ext hde], hxy⟩

private theorem item_ne_zero (i : Item) (x y : List Byte) : i.print ++ x ≠ 0 :: y := by
  intro h
  cases i with
  | literal c hc => exact hc.1 (List.cons.inj h).1
  | directive d =>
    have hc : ch '%' = 0 := (List.cons.inj h).1
    exact absurd hc (by decide)

/-- A format is read in one way only. -/
theorem printItems_unique {items items' : List Item} {rest rest' : List Byte}
    (h : printItems items ++ 0 :: rest = printItems items' ++ 0 :: rest') :
    items = items' ∧ rest = rest' := by
  induction items generalizing items' with
  | nil =>
    cases items' with
    | nil => exact ⟨rfl, (List.cons.inj h).2⟩
    | cons i items' =>
      rw [printItems, printItems, List.flatMap_cons, List.append_assoc] at h
      exact absurd h.symm (item_ne_zero i _ _)
  | cons i items ih =>
    cases items' with
    | nil =>
      rw [printItems, printItems, List.flatMap_cons, List.append_assoc] at h
      exact absurd h (item_ne_zero i _ _)
    | cons k items' =>
      rw [printItems, printItems, List.flatMap_cons, List.flatMap_cons, List.append_assoc,
        List.append_assoc] at h
      obtain ⟨rfl, ht⟩ := Item.print_unique h
      obtain ⟨rfl, rfl⟩ := ih ht
      exact ⟨rfl, rfl⟩

/-! ## Arguments for a format -/

section Arguments
variable {δ : Type}

private theorem Count.exists_width (c : Count) (flags : Flags) :
    ∃ (va : List (Arg δ)) (spec : Spec), ∀ more, c.width flags (va ++ more) = .ok (spec, more) := by
  cases c with
  | absent => exact ⟨[], _, fun more => rfl⟩
  | number first rest => exact ⟨[], _, fun more => rfl⟩
  | star => exact ⟨[.word 0], _, fun more => rfl⟩

private theorem exists_precision (c : Option Count) (spec : Spec) :
    ∃ (va : List (Arg δ)) (spec' : Spec),
      ∀ more, precisionSpec spec (va ++ more) c = .ok (spec', more) := by
  cases c with
  | none => exact ⟨[], _, fun more => rfl⟩
  | some c =>
    cases c with
    | absent => exact ⟨[], _, fun more => rfl⟩
    | number first rest => exact ⟨[], _, fun more => rfl⟩
    | star => exact ⟨[.word 0], _, fun more => rfl⟩

variable (char : PlainChar) (float : FloatOutput δ)

private theorem signedValue_zero (flags : Flags) : signedValue char flags 0 = 0 := by
  cases char <;> simp [signedValue, PlainChar.value]

private theorem exists_integerText (c : Byte) (spec : Spec) :
    ∃ (va : List (Arg δ)) (t : List Byte),
      ∀ more, integerText char c spec (va ++ more) = .ok (more, t) := by
  have hu : unsignedValue (integerFlags c spec.flags) 0 = 0 := by
    rw [unsignedValue]
    split
    · rfl
    · split
      · rfl
      · split <;> rfl
  have ha : ∀ more : List (Arg δ), integerArg char c (integerFlags c spec.flags)
      ((if (integerFlags c spec.flags).longLong then .dword 0 else .word 0) :: more) =
        .ok (0, more) := by
    intro more
    rw [integerArg]
    cases isSigned c <;> cases (integerFlags c spec.flags).longLong <;>
      simp [argDword, argWord, Except.map, signedValue_zero, hu]
  refine ⟨[if (integerFlags c spec.flags).longLong then .dword 0 else .word 0],
    ntoaText 0 false (integerBase c) spec.precision spec.width (integerFlags c spec.flags),
    fun more => ?_⟩
  rw [integerText, List.singleton_append, ha]
  rfl

private theorem exists_stringText (spec : Spec) :
    ∃ (va : List (Arg δ)) (t : List Byte),
      ∀ more, stringText spec (va ++ more) = .ok (more, t) := by
  have hc : stringChars spec [0] = .ok [] := by
    simp [stringChars_eq, cString]
  refine ⟨[.pointer 0 [0]], justify spec.flags.left spec.width.toNat 0 [], fun more => ?_⟩
  change (stringChars spec [0] >>= fun chars => _) = _
  rw [hc]
  rfl

variable [Inhabited δ]

private theorem exists_doubleText (c : Byte) (spec : Spec) :
    ∃ (va : List (Arg δ)) (t : List Byte),
      ∀ more, doubleText float c spec (va ++ more) = .ok (more, t) := by
  by_cases hc : (c = ch 'f' || c = ch 'F') = true
  · refine ⟨[.double default], float.ftoa default spec.precision spec.width
      (if c = ch 'F' then { spec.flags with uppercase := true } else spec.flags), fun more => ?_⟩
    rw [doubleText, List.singleton_append, argDouble]
    exact if_pos hc
  · let flags :=
      if c = ch 'g' || c = ch 'G' then { spec.flags with adaptExp := true } else spec.flags
    refine ⟨[.double default], float.etoa default spec.precision spec.width
      (if c = ch 'E' || c = ch 'G' then { flags with uppercase := true } else flags),
      fun more => ?_⟩
    rw [doubleText, List.singleton_append, argDouble]
    exact if_neg hc

/-- Every conversion has arguments that it accepts. -/
private theorem exists_specifierText (c : Byte) (spec : Spec) :
    ∃ (va : List (Arg δ)) (t : List Byte),
      ∀ more, specifierText char float c spec (va ++ more) = .ok (more, t) := by
  by_cases hi : c ∈ integerSpecifiers
  · simpa only [specifierText, if_pos hi] using exists_integerText char c spec
  · by_cases hd : c ∈ doubleSpecifiers
    · simpa only [specifierText, if_neg hi, if_pos hd] using exists_doubleText float c spec
    · by_cases hc : c = ch 'c'
      · refine ⟨[.word 0], justify spec.flags.left spec.width.toNat 1 [0], fun more => ?_⟩
        simp only [specifierText, if_neg hi, if_neg hd, if_pos hc]
        rfl
      · by_cases hs : c = ch 's'
        · simpa only [specifierText, if_neg hi, if_neg hd, if_neg hc, if_pos hs] using
            exists_stringText spec
        · by_cases hp : c = ch 'p'
          · refine ⟨[.pointer 0 []], ntoaText 0 false 16 spec.precision 8
              { spec.flags with zeropad := true, uppercase := true }, fun more => ?_⟩
            simp only [specifierText, if_neg hi, if_neg hd, if_neg hc, if_neg hs, if_pos hp]
            rfl
          · refine ⟨[], [c], fun more => ?_⟩
            simp only [specifierText, if_neg hi, if_neg hd, if_neg hc, if_neg hs, if_neg hp]
            rfl

private theorem Item.exists_text (i : Item) :
    ∃ (va : List (Arg δ)) (t : List Byte),
      ∀ more, i.text char float (va ++ more) = .ok (more, t) := by
  cases i with
  | literal c hc => exact ⟨[], [c], fun more => rfl⟩
  | directive d =>
    obtain ⟨va₁, spec₁, h₁⟩ := Count.exists_width (δ := δ) d.val.width
      (d.val.flags.foldl FlagChar.set {})
    obtain ⟨va₂, spec₂, h₂⟩ := exists_precision (δ := δ) d.val.precision spec₁
    obtain ⟨va₃, t, h₃⟩ := exists_specifierText char float d.val.conversion
      { spec₂ with flags := d.val.length.set spec₂.flags }
    refine ⟨va₁ ++ (va₂ ++ va₃), t, fun more => ?_⟩
    rw [Item.text, Fields.spec, List.append_assoc, List.append_assoc, h₁]
    simp only [bind, Except.bind]
    rw [h₂]
    exact h₃ more

theorem exists_formatText (items : List Item) :
    ∃ (va va' : List (Arg δ)) (t : List Byte), formatText char float items va = .ok (va', t) := by
  induction items with
  | nil => exact ⟨[], [], [], rfl⟩
  | cons i items ih =>
    obtain ⟨va₁, t, h₁⟩ := i.exists_text char float
    obtain ⟨va₂, va', u, h₂⟩ := ih
    refine ⟨va₁ ++ va₂, va', t ++ u, ?_⟩
    rw [formatText, h₁]
    simp only [bind, Except.bind]
    rw [h₂]

/-- Some arguments make the formatter accept a string exactly if it is a sequence of ordinary
characters and finished directives, and then it is in one way only. On any other string every
run is a fault. -/
theorem formatTo_usable_iff {σ : Type} (out : OutFct σ) (maxlen : UInt32) (buffer : σ)
    (mem : List Byte) :
    (∃ (va : List (Arg δ)) (r : ℤ × σ),
        formatTo char float out maxlen buffer (cString mem ++ [0]) va = .ok r) ↔
      ∃! items, cString mem = printItems items := by
  constructor
  · rintro ⟨va, r, h⟩
    obtain ⟨items, rest, he⟩ := formatTo_sound char float out maxlen h
    have hz := zero_notMem_cString mem
    have hr : rest = [] := by
      by_contra hr
      obtain ⟨rest', c, rfl⟩ := List.eq_nil_or_concat rest |>.resolve_left hr
      have he' : cString mem ++ [0] = (printItems items ++ 0 :: rest') ++ [c] := by
        simpa using he
      obtain ⟨hm, -⟩ := List.append_inj' he' rfl
      exact hz (by simp [hm])
    subst hr
    obtain ⟨hm, -⟩ := List.append_inj' he rfl
    refine ⟨items, hm, fun items' hm' => ?_⟩
    have he : printItems items' ++ 0 :: [] = printItems items ++ 0 :: [] := by
      rw [← hm, ← hm']
    exact (printItems_unique he).1
  · rintro ⟨items, hm, -⟩
    obtain ⟨va, va', t, ht⟩ := exists_formatText char float items
    refine ⟨va, finish out maxlen (emit out maxlen t ⟨0, buffer⟩), ?_⟩
    rw [hm, formatTo_printItems, ht]
    rfl

end Arguments

end UsbCdc.PrintfUtil
