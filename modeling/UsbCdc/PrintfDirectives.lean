import UsbCdc.Numerals
import UsbCdc.PrintfText

/-! # The language of formats

A format is a sequence of ordinary characters and directives, and a directive is its
fields, each read on as long as it can be. The interpreter is followed field by field in
both directions: what it makes of the text of a field, and which text it has read. -/
namespace UsbCdc.PrintfUtil
open BoundedLoops CStrings CommandSupport

inductive FlagChar
  | zero
  | minus
  | plus
  | space
  | hash
deriving DecidableEq

def FlagChar.print : FlagChar → Byte
  | .zero => ch '0'
  | .minus => ch '-'
  | .plus => ch '+'
  | .space => ch ' '
  | .hash => ch '#'

def FlagChar.set (flags : Flags) : FlagChar → Flags
  | .zero => { flags with zeropad := true }
  | .minus => { flags with left := true }
  | .plus => { flags with plus := true }
  | .space => { flags with space := true }
  | .hash => { flags with hash := true }

def isFlag (c : Byte) : Bool :=
  c = ch '0' || c = ch '-' || c = ch '+' || c = ch ' ' || c = ch '#'

/-- A width, or what follows the point: nothing, a decimal number, or `*`. -/
inductive Count
  | absent
  | number (first : Fin 10) (rest : List (Fin 10))
  | star
deriving DecidableEq

def digitOf (d : Fin 10) : Byte := ch '0' + UInt8.ofNat d.val

def Count.print : Count → List Byte
  | .absent => []
  | .number first rest => (first :: rest).map digitOf
  | .star => [ch '*']

/-- The characters that would be read on with the count. -/
def Count.continues : Count → Byte → Bool
  | .absent => fun c => isDigit c || c = ch '*'
  | .number _ _ => isDigit
  | .star => fun _ => false

inductive Length
  | none
  | l
  | ll
  | h
  | hh
  | t
  | j
  | z
deriving DecidableEq

def Length.print : Length → List Byte
  | .none => []
  | .l => [ch 'l']
  | .ll => [ch 'l', ch 'l']
  | .h => [ch 'h']
  | .hh => [ch 'h', ch 'h']
  | .t => [ch 't']
  | .j => [ch 'j']
  | .z => [ch 'z']

def isLength (c : Byte) : Bool :=
  c = ch 'l' || c = ch 'h' || c = ch 't' || c = ch 'j' || c = ch 'z'

def Length.continues : Length → Byte → Bool
  | .none => isLength
  | .l => fun c => c = ch 'l'
  | .h => fun c => c = ch 'h'
  | _ => fun _ => false

def Length.set (flags : Flags) : Length → Flags
  | .none => flags
  | .l => { flags with long := true }
  | .ll => { flags with long := true, longLong := true }
  | .h => { flags with short := true }
  | .hh => { flags with short := true, char := true }
  | .t => { flags with long := true }
  | .j => { flags with longLong := true }
  | .z => { flags with long := true }

/-- The point and what follows it. -/
def printPrecision : Option Count → List Byte
  | none => []
  | some count => ch '.' :: count.print

def continuesPrecision : Option Count → Byte → Bool
  | none => fun c => c = ch '.'
  | some count => count.continues

/-- A text that does not go on with a character of the kind. -/
def Stops (p : Byte → Bool) : List Byte → Prop
  | [] => True
  | c :: _ => p c = false

instance (p : Byte → Bool) : (t : List Byte) → Decidable (Stops p t)
  | [] => isTrue trivial
  | c :: _ => inferInstanceAs (Decidable (p c = false))

theorem Stops.append {p : Byte → Bool} {t : List Byte} (h : Stops p t) (ht : t ≠ [])
    (u : List Byte) : Stops p (t ++ u) := by
  cases t with
  | nil => exact absurd rfl ht
  | cons c t => exact h

theorem Stops.of_append {p : Byte → Bool} {t u : List Byte} (h : Stops p (t ++ u)) :
    Stops p t := by
  cases t with
  | nil => trivial
  | cons c t => exact h

/-! ## Flags -/

theorem evalFlags_complete (fs : List FlagChar) {rest : List Byte} (h : Stops isFlag rest)
    (hr : rest ≠ []) (flags : Flags) :
    evalFlags flags (fs.map FlagChar.print ++ rest) = .ok (fs.foldl FlagChar.set flags, rest) := by
  induction fs generalizing flags with
  | nil =>
    cases rest with
    | nil => exact absurd rfl hr
    | cons c rest =>
      simp only [Stops, isFlag, Bool.or_eq_false_iff, decide_eq_false_iff_not] at h
      obtain ⟨⟨⟨⟨h0, h1⟩, h2⟩, h3⟩, h4⟩ := h
      rw [List.map_nil, List.nil_append, evalFlags, if_neg h0, if_neg h1, if_neg h2, if_neg h3,
        if_neg h4]
      rfl
  | cons f fs ih =>
    rw [List.map_cons, List.cons_append, List.foldl_cons, ← ih]
    cases f <;> rfl

theorem evalFlags_sound {flags flags' : Flags} {format rest : List Byte}
    (h : evalFlags flags format = .ok (flags', rest)) :
    ∃ fs : List FlagChar, format = fs.map FlagChar.print ++ rest ∧ Stops isFlag rest ∧
      flags' = fs.foldl FlagChar.set flags := by
  fun_induction evalFlags flags format with
  | case1 => cases h
  | case2 _ _ ih =>
    obtain ⟨fs, rfl, hs, hf⟩ := ih h
    exact ⟨.zero :: fs, rfl, hs, hf⟩
  | case3 _ _ _ ih =>
    obtain ⟨fs, rfl, hs, hf⟩ := ih h
    exact ⟨.minus :: fs, rfl, hs, hf⟩
  | case4 _ _ _ _ ih =>
    obtain ⟨fs, rfl, hs, hf⟩ := ih h
    exact ⟨.plus :: fs, rfl, hs, hf⟩
  | case5 _ _ _ _ _ ih =>
    obtain ⟨fs, rfl, hs, hf⟩ := ih h
    exact ⟨.space :: fs, rfl, hs, hf⟩
  | case6 _ _ _ _ _ _ ih =>
    obtain ⟨fs, rfl, hs, hf⟩ := ih h
    exact ⟨.hash :: fs, rfl, hs, hf⟩
  | case7 flags c format h0 h1 h2 h3 h4 =>
    cases h
    exact ⟨[], rfl, by simp [Stops, isFlag, h0, h1, h2, h3, h4], rfl⟩

/-! ## Counts -/

/-- The number that decimal digits denote. -/
def decimal (ds : List (Fin 10)) : ℕ := Numerals.read Fin.val 10 ds

theorem isDigit_digitOf (d : Fin 10) : isDigit (digitOf d) = true := by
  revert d
  decide

private theorem digitOf_value (d : Fin 10) :
    (digitOf d).toUInt32 - (ch '0').toUInt32 = UInt32.ofNat d.val := by
  revert d
  decide

private theorem exists_digitOf {c : Byte} (h : isDigit c = true) : ∃ d : Fin 10, c = digitOf d := by
  simp only [isDigit, Bool.and_eq_true, decide_eq_true_eq, UInt8.le_iff_toNat_le] at h
  have h0 : (ch '0').toNat = 48 := rfl
  have h9 : (ch '9').toNat = 57 := rfl
  refine ⟨⟨c.toNat - 48, by omega⟩, ?_⟩
  apply UInt8.toNat_inj.mp
  simp only [digitOf, UInt8.toNat_add, UInt8.toNat_ofNat', h0]
  omega

private theorem atoi_append (ds : List (Fin 10)) {rest : List Byte} (h : Stops isDigit rest)
    (hr : rest ≠ []) (n : ℕ) :
    atoi (UInt32.ofNat n) (ds.map digitOf ++ rest) =
      .ok (UInt32.ofNat (ds.foldl (fun n d => n * 10 + d.val) n), rest) := by
  induction ds generalizing n with
  | nil =>
    cases rest with
    | nil => exact absurd rfl hr
    | cons c rest =>
      have hc : ¬ isDigit c = true := by simp [show isDigit c = false from h]
      rw [List.map_nil, List.nil_append, atoi, if_neg hc]
      rfl
  | cons d ds ih =>
    rw [List.map_cons, List.cons_append, atoi, if_pos (isDigit_digitOf d), digitOf_value,
      List.foldl_cons, ← ih, UInt32.ofNat_add, UInt32.ofNat_mul]
    rfl

/-- `_atoi` computes the number modulo `2 ^ 32`. -/
theorem atoi_complete (ds : List (Fin 10)) {rest : List Byte} (h : Stops isDigit rest)
    (hr : rest ≠ []) :
    atoi 0 (ds.map digitOf ++ rest) = .ok (UInt32.ofNat (decimal ds), rest) :=
  atoi_append ds h hr 0

theorem atoi_sound {i j : UInt32} {str rest : List Byte} (h : atoi i str = .ok (j, rest)) :
    ∃ ds : List (Fin 10), str = ds.map digitOf ++ rest ∧ Stops isDigit rest := by
  fun_induction atoi i str with
  | case1 => cases h
  | case2 i c str hc ih =>
    obtain ⟨ds, rfl, hs⟩ := ih h
    obtain ⟨d, rfl⟩ := exists_digitOf hc
    exact ⟨d :: ds, rfl, hs⟩
  | case3 i c str hc =>
    cases h
    exact ⟨[], rfl, by simpa [Stops] using hc⟩

/-- A number that starts with a digit is read as one. -/
private theorem atoi_sound_of_isDigit {i j : UInt32} {c : Byte} {str rest : List Byte}
    (hc : isDigit c = true) (h : atoi i (c :: str) = .ok (j, rest)) :
    ∃ (d : Fin 10) (ds : List (Fin 10)), c :: str = (d :: ds).map digitOf ++ rest ∧
      Stops isDigit rest := by
  rw [atoi, if_pos hc] at h
  obtain ⟨ds, he, hs⟩ := atoi_sound h
  obtain ⟨d, hd⟩ := exists_digitOf hc
  exact ⟨d, ds, by rw [hd, he]; rfl, hs⟩

section Counts
variable {δ : Type}

/-- The width that a count stands for, and the flags with it. -/
def Count.width (flags : Flags) (va : List (Arg δ)) :
    Count → Except Fault (Spec × List (Arg δ))
  | .absent => .ok (⟨flags, 0, 0⟩, va)
  | .number first rest => .ok (⟨flags, UInt32.ofNat (decimal (first :: rest)), 0⟩, va)
  | .star => do
    let (w, va) ← argWord va
    let (flags, width) := starWidth flags w
    .ok (⟨flags, width, 0⟩, va)

def Count.precision (spec : Spec) (va : List (Arg δ)) :
    Count → Except Fault (Spec × List (Arg δ))
  | .absent => .ok (spec, va)
  | .number first rest =>
    .ok ({ spec with precision := UInt32.ofNat (decimal (first :: rest)) }, va)
  | .star => do
    let (prec, va) ← argWord va
    .ok ({ spec with precision := starPrecision prec }, va)

def precisionSpec (spec : Spec) (va : List (Arg δ)) :
    Option Count → Except Fault (Spec × List (Arg δ))
  | none => .ok (spec, va)
  | some count => count.precision { spec with flags := { spec.flags with precision := true } } va

variable {va : List (Arg δ)} {rest : List Byte}

theorem not_star_of_isDigit {c : Byte} (h : isDigit c = true) : c ≠ ch '*' := by
  rintro rfl
  exact absurd h (by decide)

theorem evalWidth_complete (count : Count) (h : Stops count.continues rest) (hr : rest ≠ [])
    (flags : Flags) (va : List (Arg δ)) :
    evalWidth flags (count.print ++ rest) va =
      (count.width flags va).map (fun r => (r.1, rest, r.2)) := by
  cases count with
  | absent =>
    cases rest with
    | nil => exact absurd rfl hr
    | cons c rest =>
      simp only [Stops, Count.continues, Bool.or_eq_false_iff, decide_eq_false_iff_not] at h
      have hd : ¬ isDigit c = true := by simp [h.1]
      rw [Count.print, List.nil_append, evalWidth, if_neg hd, if_neg h.2]
      rfl
  | number first ds =>
    have ha := atoi_complete (first :: ds) h hr
    rw [List.map_cons, List.cons_append] at ha
    rw [Count.print, List.map_cons, List.cons_append, evalWidth, if_pos (isDigit_digitOf first), ha]
    rfl
  | star =>
    rw [Count.print, List.singleton_append, evalWidth, if_neg (by decide), if_pos rfl, Count.width]
    cases argWord va <;> rfl

theorem evalWidth_sound {flags : Flags} {format : List Byte} {r : Spec × List Byte × List (Arg δ)}
    (h : evalWidth flags format va = .ok r) :
    ∃ count : Count, format = count.print ++ r.2.1 ∧ Stops count.continues r.2.1 := by
  cases format with
  | nil => cases h
  | cons c format =>
    rw [evalWidth] at h
    by_cases hd : isDigit c = true
    · rw [if_pos hd] at h
      obtain ⟨a, ha, h⟩ := bind_eq_ok h
      cases h
      obtain ⟨d, ds, he, hs⟩ := atoi_sound_of_isDigit hd ha
      exact ⟨.number d ds, he, hs⟩
    · rw [if_neg hd] at h
      by_cases hc : c = ch '*'
      · rw [if_pos hc] at h
        obtain ⟨a, ha, h⟩ := bind_eq_ok h
        cases h
        exact ⟨.star, by rw [hc]; rfl, by cases format <;> trivial⟩
      · rw [if_neg hc] at h
        cases h
        exact ⟨.absent, rfl, by simp [Stops, Count.continues, hd, hc]⟩

theorem evalPrecisionDigits_complete (count : Count) (h : Stops count.continues rest)
    (hr : rest ≠ []) (spec : Spec) :
    evalPrecisionDigits spec (count.print ++ rest) va =
      (count.precision spec va).map (fun r => (r.1, rest, r.2)) := by
  cases count with
  | absent =>
    cases rest with
    | nil => exact absurd rfl hr
    | cons c rest =>
      simp only [Stops, Count.continues, Bool.or_eq_false_iff, decide_eq_false_iff_not] at h
      have hd : ¬ isDigit c = true := by simp [h.1]
      rw [Count.print, List.nil_append, evalPrecisionDigits, if_neg hd, if_neg h.2]
      rfl
  | number first ds =>
    have ha := atoi_complete (first :: ds) h hr
    rw [List.map_cons, List.cons_append] at ha
    rw [Count.print, List.map_cons, List.cons_append, evalPrecisionDigits,
      if_pos (isDigit_digitOf first), ha]
    rfl
  | star =>
    rw [Count.print, List.singleton_append, evalPrecisionDigits, if_neg (by decide), if_pos rfl,
      Count.precision]
    cases argWord va <;> rfl

theorem evalPrecisionDigits_sound {spec : Spec} {format : List Byte}
    {r : Spec × List Byte × List (Arg δ)} (h : evalPrecisionDigits spec format va = .ok r) :
    ∃ count : Count, format = count.print ++ r.2.1 ∧ Stops count.continues r.2.1 := by
  cases format with
  | nil => cases h
  | cons c format =>
    rw [evalPrecisionDigits] at h
    by_cases hd : isDigit c = true
    · rw [if_pos hd] at h
      obtain ⟨a, ha, h⟩ := bind_eq_ok h
      cases h
      obtain ⟨d, ds, he, hs⟩ := atoi_sound_of_isDigit hd ha
      exact ⟨.number d ds, he, hs⟩
    · rw [if_neg hd] at h
      by_cases hc : c = ch '*'
      · rw [if_pos hc] at h
        obtain ⟨a, ha, h⟩ := bind_eq_ok h
        cases h
        exact ⟨.star, by rw [hc]; rfl, by cases format <;> trivial⟩
      · rw [if_neg hc] at h
        cases h
        exact ⟨.absent, rfl, by simp [Stops, Count.continues, hd, hc]⟩

theorem evalPrecision_complete (count : Option Count) (h : Stops (continuesPrecision count) rest)
    (hr : rest ≠ []) (spec : Spec) (va : List (Arg δ)) :
    evalPrecision spec (printPrecision count ++ rest) va =
      (precisionSpec spec va count).map (fun r => (r.1, rest, r.2)) := by
  cases count with
  | none =>
    cases rest with
    | nil => exact absurd rfl hr
    | cons c rest =>
      have hc : c ≠ ch '.' := by simpa [Stops, continuesPrecision] using h
      rw [printPrecision, List.nil_append, evalPrecision, if_neg hc]
      rfl
  | some count =>
    rw [printPrecision, List.cons_append, evalPrecision, if_pos rfl]
    exact evalPrecisionDigits_complete count h hr _

theorem evalPrecision_sound {spec : Spec} {format : List Byte}
    {r : Spec × List Byte × List (Arg δ)} (h : evalPrecision spec format va = .ok r) :
    ∃ count : Option Count, format = printPrecision count ++ r.2.1 ∧
      Stops (continuesPrecision count) r.2.1 := by
  cases format with
  | nil => cases h
  | cons c format =>
    rw [evalPrecision] at h
    by_cases hc : c = ch '.'
    · rw [if_pos hc] at h
      obtain ⟨count, he, hs⟩ := evalPrecisionDigits_sound h
      exact ⟨some count, by rw [hc, he]; rfl, hs⟩
    · rw [if_neg hc] at h
      cases h
      exact ⟨none, rfl, by simp [Stops, continuesPrecision, hc]⟩

end Counts

/-! ## Lengths -/

theorem evalLength_complete (length : Length) {rest : List Byte}
    (h : Stops length.continues rest) (hr : rest ≠ []) (flags : Flags) :
    evalLength flags (length.print ++ rest) = .ok (length.set flags, rest) := by
  cases rest with
  | nil => exact absurd rfl hr
  | cons c rest =>
    cases length with
    | none =>
      simp only [Stops, Length.continues, isLength, Bool.or_eq_false_iff,
        decide_eq_false_iff_not] at h
      obtain ⟨⟨⟨⟨h0, h1⟩, h2⟩, h3⟩, h4⟩ := h
      rw [Length.print, List.nil_append, evalLength.eq_def]
      simp only [if_neg h0, if_neg h1, if_neg h2, if_neg h3, if_neg h4]
      rfl
    | l =>
      have hc : c ≠ ch 'l' := by simpa [Stops, Length.continues] using h
      rw [Length.print, List.singleton_append, evalLength, if_pos rfl]
      exact if_neg hc
    | h =>
      have hc : c ≠ ch 'h' := by simpa [Stops, Length.continues] using h
      rw [Length.print, List.singleton_append, evalLength, if_neg (by decide), if_pos rfl]
      exact if_neg hc
    | ll => rfl
    | hh => rfl
    | t => rfl
    | j => rfl
    | z => rfl

theorem evalLength_sound {flags flags' : Flags} {format rest : List Byte}
    (h : evalLength flags format = .ok (flags', rest)) :
    ∃ length : Length, format = length.print ++ rest ∧ Stops length.continues rest := by
  cases format with
  | nil => cases h
  | cons c format =>
    rw [evalLength.eq_def] at h
    simp only at h
    by_cases hl : c = ch 'l'
    · rw [if_pos hl] at h
      cases format with
      | nil => cases h
      | cons d format =>
        simp only at h
        by_cases hd : d = ch 'l'
        · rw [if_pos hd] at h
          cases h
          exact ⟨.ll, by rw [hl, hd]; rfl, by cases rest <;> trivial⟩
        · rw [if_neg hd] at h
          cases h
          exact ⟨.l, by rw [hl]; rfl, by simpa [Stops, Length.continues] using hd⟩
    · rw [if_neg hl] at h
      by_cases hh : c = ch 'h'
      · rw [if_pos hh] at h
        cases format with
        | nil => cases h
        | cons d format =>
          simp only at h
          by_cases hd : d = ch 'h'
          · rw [if_pos hd] at h
            cases h
            exact ⟨.hh, by rw [hh, hd]; rfl, by cases rest <;> trivial⟩
          · rw [if_neg hd] at h
            cases h
            exact ⟨.h, by rw [hh]; rfl, by simpa [Stops, Length.continues] using hd⟩
      · rw [if_neg hh] at h
        by_cases ht : c = ch 't'
        · rw [if_pos ht] at h
          cases h
          exact ⟨.t, by rw [ht]; rfl, by cases rest <;> trivial⟩
        · rw [if_neg ht] at h
          by_cases hj : c = ch 'j'
          · rw [if_pos hj] at h
            cases h
            exact ⟨.j, by rw [hj]; rfl, by cases rest <;> trivial⟩
          · rw [if_neg hj] at h
            by_cases hz : c = ch 'z'
            · rw [if_pos hz] at h
              cases h
              exact ⟨.z, by rw [hz]; rfl, by cases rest <;> trivial⟩
            · rw [if_neg hz] at h
              cases h
              exact ⟨.none, rfl, by
                simp [Stops, Length.continues, isLength, hl, hh, ht, hj, hz]⟩

/-! ## Directives -/

/-- The fields of a directive; the last character selects the conversion. -/
structure Fields where
  flags : List FlagChar
  width : Count
  precision : Option Count
  length : Length
  conversion : Byte
deriving DecidableEq

namespace Fields

def afterPrecision (d : Fields) : List Byte := d.length.print ++ [d.conversion]

def afterWidth (d : Fields) : List Byte := printPrecision d.precision ++ d.afterPrecision

def afterFlags (d : Fields) : List Byte := d.width.print ++ d.afterWidth

def print (d : Fields) : List Byte := ch '%' :: d.flags.map FlagChar.print ++ d.afterFlags

/-- No field can be read on into the next. -/
structure Maximal (d : Fields) : Prop where
  flags : Stops isFlag d.afterFlags
  width : Stops d.width.continues d.afterWidth
  precision : Stops (continuesPrecision d.precision) d.afterPrecision
  length : Stops d.length.continues [d.conversion]

/-- What the fields specify, and the arguments that are left. -/
def spec {δ : Type} (d : Fields) (va : List (Arg δ)) : Except Fault (Spec × List (Arg δ)) := do
  let (spec, va) ← d.width.width (d.flags.foldl FlagChar.set {}) va
  let (spec, va) ← precisionSpec spec va d.precision
  .ok ({ spec with flags := d.length.set spec.flags }, va)

variable {δ : Type}

theorem afterPrecision_ne_nil (d : Fields) : d.afterPrecision ≠ [] := by
  simp [afterPrecision]

theorem afterWidth_ne_nil (d : Fields) : d.afterWidth ≠ [] := by
  simp [afterWidth, afterPrecision_ne_nil]

theorem afterFlags_ne_nil (d : Fields) : d.afterFlags ≠ [] := by
  simp [afterFlags, afterWidth_ne_nil]

/-- The interpreter takes the fields of a directive for what they are. -/
theorem evalFields_complete {d : Fields} (h : d.Maximal) (rest : List Byte) (va : List (Arg δ)) :
    evalFields (d.flags.map FlagChar.print ++ d.afterFlags ++ rest) va =
      (d.spec va).map (fun r => (r.1, d.conversion :: rest, r.2)) := by
  have hf := evalFlags_complete d.flags (h.flags.append d.afterFlags_ne_nil rest)
    (by simp [afterFlags_ne_nil]) {}
  have hw := evalWidth_complete d.width (h.width.append d.afterWidth_ne_nil rest)
    (by simp [afterWidth_ne_nil]) (d.flags.foldl FlagChar.set {}) va
  have hp := evalPrecision_complete (δ := δ) d.precision
    (h.precision.append d.afterPrecision_ne_nil rest) (by simp [afterPrecision_ne_nil])
  have hl := evalLength_complete d.length (h.length.append (List.cons_ne_nil _ _) rest)
    (by simp)
  rw [evalFields, List.append_assoc, hf, spec]
  simp only [bind, Except.bind]
  rw [afterFlags, List.append_assoc, hw]
  cases d.width.width (d.flags.foldl FlagChar.set {}) va with
  | error e => rfl
  | ok r =>
    simp only [Except.map]
    rw [afterWidth, List.append_assoc, hp]
    cases precisionSpec r.1 r.2 d.precision with
    | error e => rfl
    | ok r =>
      simp only [Except.map]
      rw [afterPrecision, List.append_assoc, hl]
      rfl

/-- What the interpreter has evaluated are the fields of a directive. -/
theorem evalFields_sound {format : List Byte} {va va' : List (Arg δ)} {spec : Spec}
    {c : Byte} {rest : List Byte} (h : evalFields format va = .ok (spec, c :: rest, va')) :
    ∃ d : Fields, d.Maximal ∧ format = d.flags.map FlagChar.print ++ d.afterFlags ++ rest ∧
      d.conversion = c := by
  obtain ⟨⟨flags, rest₁⟩, h1, h⟩ := bind_eq_ok h
  obtain ⟨⟨spec₂, rest₂, va₂⟩, h2, h⟩ := bind_eq_ok h
  obtain ⟨⟨spec₃, rest₃, va₃⟩, h3, h⟩ := bind_eq_ok h
  obtain ⟨⟨flags₄, rest₄⟩, h4, h⟩ := bind_eq_ok h
  cases h
  obtain ⟨fs, rfl, hf, -⟩ := evalFlags_sound h1
  obtain ⟨width, hw, hws⟩ := evalWidth_sound h2
  obtain ⟨precision, hp, hps⟩ := evalPrecision_sound h3
  obtain ⟨length, hl, hls⟩ := evalLength_sound h4
  simp only at hw hws hp hps
  have h3' : rest₃ = length.print ++ [c] ++ rest := by rw [hl, List.append_assoc]; rfl
  have h2' : rest₂ = printPrecision precision ++ (length.print ++ [c]) ++ rest := by
    simp only [hp, h3', List.append_assoc]
  have h1' : rest₁ = width.print ++ (printPrecision precision ++ (length.print ++ [c])) ++ rest := by
    simp only [hw, h2', List.append_assoc]
  refine ⟨⟨fs, width, precision, length, c⟩, ⟨?_, ?_, ?_, ?_⟩, ?_, rfl⟩
  · exact Stops.of_append (u := rest) (h1' ▸ hf)
  · exact Stops.of_append (u := rest) (h2' ▸ hws)
  · exact Stops.of_append (u := rest) (h3' ▸ hps)
  · exact Stops.of_append (u := rest) hls
  · rw [h1', ← List.append_assoc]
    rfl

end Fields

/-- A directive as it can stand in a format. -/
def Directive : Type := { d : Fields // d.Maximal }

inductive Item
  | literal (c : Byte) (ordinary : c ≠ 0 ∧ c ≠ ch '%')
  | directive (d : Directive)

def Item.print : Item → List Byte
  | .literal c _ => [c]
  | .directive d => d.val.print

def printItems (items : List Item) : List Byte := items.flatMap Item.print

end UsbCdc.PrintfUtil
