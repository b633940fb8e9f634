import UsbCdc.PrintfDirectives

/-! # What a format means

The text of a format is the texts of its items, one after the other; the interpreter
delivers it, and is defined on nothing but sequences of items. -/
namespace UsbCdc.PrintfUtil
open BoundedLoops CStrings CommandSupport

section Texts
variable {δ : Type} (char : PlainChar) (float : FloatOutput δ)

/-- The arguments that are left, and the text. -/
def Item.text (va : List (Arg δ)) : Item → Except Fault (List (Arg δ) × List Byte)
  | .literal c _ => .ok (va, [c])
  | .directive d => do
    let (spec, va) ← d.val.spec va
    specifierText char float d.val.conversion spec va

def formatText : List Item → List (Arg δ) → Except Fault (List (Arg δ) × List Byte)
  | [], va => .ok (va, [])
  | i :: items, va => do
    let (va, t) ← i.text char float va
    let (va, u) ← formatText items va
    .ok (va, t ++ u)

/-- The meaning of a format is put together from the meanings of its parts. -/
theorem formatText_append (items items' : List Item) (va : List (Arg δ)) :
    formatText char float (items ++ items') va =
      formatText char float items va >>= (fun r =>
        (formatText char float items' r.1).map (fun r' => (r'.1, r.2 ++ r'.2))) := by
  induction items generalizing va with
  | nil =>
    change formatText char float items' va =
      (formatText char float items' va).map (fun r' => (r'.1, [] ++ r'.2))
    cases formatText char float items' va <;> rfl
  | cons i items ih =>
    rw [List.cons_append, formatText, formatText]
    cases i.text char float va with
    | error e => rfl
    | ok r =>
      simp only [bind, Except.bind, ih]
      cases formatText char float items r.1 with
      | error e => rfl
      | ok r' =>
        cases h : formatText char float items' r'.1 <;> simp [Except.map, h]

end Texts

namespace Fields
variable {δ : Type}

private theorem length_set_precision (length : Length) (flags : Flags) :
    (length.set flags).precision = flags.precision := by
  cases length <;> rfl

private theorem width_valid {flags : Flags} {va : List (Arg δ)} {count : Count}
    {r : Spec × List (Arg δ)} (h : count.width flags va = .ok r) : r.1.precision = 0 := by
  cases count with
  | absent =>
    cases h
    rfl
  | number first rest =>
    cases h
    rfl
  | star =>
    obtain ⟨a, -, h⟩ := bind_eq_ok h
    cases h
    rfl

private theorem precision_flag {spec : Spec} {va : List (Arg δ)} {count : Count}
    {r : Spec × List (Arg δ)} (h : count.precision spec va = .ok r) : r.1.flags = spec.flags := by
  cases count with
  | absent =>
    cases h
    rfl
  | number first rest =>
    cases h
    rfl
  | star =>
    obtain ⟨a, -, h⟩ := bind_eq_ok h
    cases h
    rfl

/-- Only a point gives a precision. -/
theorem spec_valid {d : Fields} {va : List (Arg δ)} {r : Spec × List (Arg δ)}
    (h : d.spec va = .ok r) : r.1.Valid := by
  obtain ⟨a, ha, h⟩ := bind_eq_ok h
  obtain ⟨b, hb, h⟩ := bind_eq_ok h
  cases h
  intro hp
  simp only [length_set_precision] at hp
  cases hd : d.precision with
  | none =>
    rw [hd] at hb
    cases hb
    have hw := width_valid ha
    exact hw
  | some count =>
    rw [hd] at hb
    rw [precision_flag hb] at hp
    cases hp

end Fields

section Interpreter
variable {δ σ : Type} (char : PlainChar) (float : FloatOutput δ) (out : OutFct σ) (maxlen : UInt32)

/-- One pass of the loop interprets one item. -/
theorem evalDirective_item (i : Item) (rest : List Byte) (va : List (Arg δ)) (s : Sink σ) :
    evalDirective char float out maxlen ⟨i.print ++ rest, va, s⟩ =
      (i.text char float va).map (fun r => ⟨rest, r.1, emit out maxlen r.2 s⟩) := by
  cases i with
  | literal c hc =>
    rw [Item.print, List.singleton_append, evalDirective]
    exact if_pos hc.2
  | directive d =>
    have he : (Item.directive d).print ++ rest =
        ch '%' :: (d.val.flags.map FlagChar.print ++ d.val.afterFlags ++ rest) := by
      simp [Item.print, Fields.print]
    rw [he, evalDirective]
    simp only [ne_eq, not_true_eq_false, if_false, Fields.evalFields_complete d.property, Item.text]
    cases hs : d.val.spec va with
    | error e => rfl
    | ok r =>
      simp only [bind, Except.bind, Except.map]
      rw [evalSpecifier_eq_emit _ _ _ _ _ (Fields.spec_valid hs)]
      cases specifierText char float d.val.conversion r.1 r.2 <;> rfl

private theorem head_item_ne (i : Item) (rest : List Byte) : (i.print ++ rest).head? ≠ some 0 := by
  cases i with
  | literal c hc => simpa [Item.print] using hc.1
  | directive d =>
    have hc : ch '%' ≠ 0 := by decide
    simpa [Item.print, Fields.print] using hc

theorem formatLoop_printItems (items : List Item) (rest : List Byte) (va : List (Arg δ))
    (s : Sink σ) :
    (formatLoop char float out maxlen).run (.ok ⟨printItems items ++ 0 :: rest, va, s⟩) =
      (formatText char float items va).map (fun r => ⟨0 :: rest, r.1, emit out maxlen r.2 s⟩) := by
  induction items generalizing va s with
  | nil =>
    rw [Loop.run_exit _ (by simp [formatLoop, printItems])]
    rfl
  | cons i items ih =>
    have hp : printItems (i :: items) ++ 0 :: rest = i.print ++ (printItems items ++ 0 :: rest) := by
      simp [printItems]
    have hg : (formatLoop char float out maxlen).guard
        (.ok ⟨i.print ++ (printItems items ++ 0 :: rest), va, s⟩) = true :=
      decide_eq_true (head_item_ne i _)
    have hb : (formatLoop char float out maxlen).body
        (.ok ⟨i.print ++ (printItems items ++ 0 :: rest), va, s⟩) =
        (i.text char float va).map
          (fun r => ⟨printItems items ++ 0 :: rest, r.1, emit out maxlen r.2 s⟩) :=
      evalDirective_item char float out maxlen i _ va s
    rw [hp, Loop.run_step _ hg, hb, formatText]
    cases i.text char float va with
    | error e => exact Loop.run_exit _ rfl
    | ok r =>
      simp only [Except.map, bind, Except.bind]
      rw [ih]
      cases formatText char float items r.1 with
      | error e => rfl
      | ok r' => simp [Except.map, emit_append]

/-- A pass that comes to an end has interpreted an item. -/
theorem evalDirective_sound {f f' : Frame δ σ} (h0 : f.format.head? ≠ some 0)
    (h : evalDirective char float out maxlen f = .ok f') :
    ∃ i : Item, f.format = i.print ++ f'.format := by
  obtain ⟨format, va, s⟩ := f
  cases format with
  | nil => cases h
  | cons c format =>
    rw [evalDirective] at h
    by_cases hc : c = ch '%'
    · simp only [hc, ne_eq, not_true_eq_false, if_false] at h
      obtain ⟨⟨spec, rest, va'⟩, hf, h⟩ := bind_eq_ok h
      cases rest with
      | nil => cases h
      | cons e rest =>
        obtain ⟨r, -, h⟩ := bind_eq_ok h
        cases h
        obtain ⟨d, hm, he, -⟩ := Fields.evalFields_sound hf
        refine ⟨.directive ⟨d, hm⟩, ?_⟩
        simp only [hc, he, Item.print, Fields.print, List.cons_append]
    · simp only [ne_eq, hc, not_false_eq_true, if_true] at h
      cases h
      have hz : c ≠ 0 := by simpa using h0
      exact ⟨.literal c ⟨hz, hc⟩, rfl⟩

theorem formatLoop_sound (x : Except Fault (Frame δ σ)) :
    ∀ f, x = .ok f → ∀ f', (formatLoop char float out maxlen).run x = .ok f' →
      ∃ items rest, f.format = printItems items ++ 0 :: rest := by
  refine (formatLoop char float out maxlen).induction (P := fun x => ∀ f, x = .ok f → ∀ f',
    (formatLoop char float out maxlen).run x = .ok f' →
      ∃ items rest, f.format = printItems items ++ 0 :: rest) ?_ ?_ x
  · intro x hg f hx f' _
    subst hx
    have h0 : f.format.head? = some 0 := by simpa [formatLoop] using hg
    obtain ⟨rest, hr⟩ : ∃ rest, f.format = 0 :: rest := by
      cases hf : f.format with
      | nil => simp [hf] at h0
      | cons c rest =>
        rw [hf] at h0
        obtain rfl : c = 0 := by simpa using h0
        exact ⟨rest, rfl⟩
    exact ⟨[], rest, hr⟩
  · intro x hg ih f hx f' hrun
    subst hx
    have h0 : f.format.head? ≠ some 0 := of_decide_eq_true hg
    rw [Loop.run_step _ hg] at hrun
    have hb : (formatLoop char float out maxlen).body (.ok f) =
      evalDirective char float out maxlen f := rfl
    cases he : evalDirective char float out maxlen f with
    | error e =>
      rw [hb, he, Loop.run_exit _ rfl] at hrun
      cases hrun
    | ok g =>
      obtain ⟨items, rest, hg'⟩ := ih g (hb.trans he) f' hrun
      obtain ⟨i, hi⟩ := evalDirective_sound char float out maxlen h0 he
      exact ⟨i :: items, rest, by simp [hi, hg', printItems]⟩

theorem formatTo_printItems (buffer : σ) (items : List Item) (rest : List Byte)
    (va : List (Arg δ)) :
    formatTo char float out maxlen buffer (printItems items ++ 0 :: rest) va =
      (formatText char float items va).map
        (fun r => finish out maxlen (emit out maxlen r.2 ⟨0, buffer⟩)) := by
  rw [formatTo, formatLoop_printItems]
  cases formatText char float items va <;> rfl

/-- A run that ends well has found items and a terminator. -/
theorem formatTo_sound {buffer : σ} {format : List Byte} {va : List (Arg δ)} {r : ℤ × σ}
    (h : formatTo char float out maxlen buffer format va = .ok r) :
    ∃ items rest, format = printItems items ++ 0 :: rest := by
  rw [formatTo] at h
  cases hr : (formatLoop char float out maxlen).run (.ok ⟨format, va, ⟨0, buffer⟩⟩) with
  | error e =>
    rw [hr] at h
    cases h
  | ok f => exact formatLoop_sound char float out maxlen _ _ rfl f hr

/-- The formatter is defined exactly on the formats that are a sequence of items before a
terminator, with arguments that give them a text; it sends that text through the output
function, and the terminator after it. -/
theorem formatTo_ok_iff (buffer : σ) (format : List Byte) (va : List (Arg δ)) (r : ℤ × σ) :
    formatTo char float out maxlen buffer format va = .ok r ↔
      ∃ items rest va' t, format = printItems items ++ 0 :: rest ∧
        formatText char float items va = .ok (va', t) ∧
        r = finish out maxlen (emit out maxlen t ⟨0, buffer⟩) := by
  constructor
  · intro h
    obtain ⟨items, rest, rfl⟩ := formatTo_sound char float out maxlen h
    rw [formatTo_printItems] at h
    cases ht : formatText char float items va with
    | error e =>
      rw [ht] at h
      cases h
    | ok p =>
      rw [ht] at h
      cases h
      exact ⟨items, rest, p.1, p.2, rfl, ht, rfl⟩
  · rintro ⟨items, rest, va', t, rfl, ht, rfl⟩
    rw [formatTo_printItems, ht]
    rfl

end Interpreter

end UsbCdc.PrintfUtil
