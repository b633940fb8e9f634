import UsbCdc.PrintfOutputs
import UsbCdc.UsbLog

/-! # Formatted text over USB

`USB_CDC_printf` over the whole formatter: a text is sent as a whole or not at all. On
formats with plain `%s` directives it does what `UsbLog` says. -/
namespace UsbCdc.UsbLogFormatting
open CStrings CommandSupport PrintfUtil
open UsbLog (WritePipe bufferSize chPercent chS expand usbTransmit)

section Printf
variable {δ : Type} (char : PlainChar) (float : FloatOutput δ)

/-- `stack` is what `buffer` holds before it is written. -/
def USB_CDC_printf (stack : ℕ → Byte) (p : WritePipe) (sFormat : List Byte)
    (args : List (Arg δ)) : Except Fault (ℤ × WritePipe) := do
  let (len, buffer) ← vsnprintf_ char float (some stack) (UInt32.ofNat bufferSize) sFormat args
  let buffer := (List.range bufferSize).map (buffer.getD stack)
  .ok (if len ≥ bufferSize then (-1, p) else usbTransmit p buffer (len % 65536).toNat)

private theorem take_overlay (stack : ℕ → Byte) {t : List Byte} (ht : t.length < bufferSize)
    (u : List Byte) :
    ((List.range bufferSize).map (overlay stack (t ++ u))).take t.length = t := by
  have hl : t.length ≤ ((List.range bufferSize).map (overlay stack (t ++ u))).length := by
    rw [List.length_map, List.length_range]
    exact ht.le
  apply List.ext_getElem
  · rw [List.length_take_of_le hl]
  · intro i h1 h2
    rw [List.getElem_take, List.getElem_map, List.getElem_range, overlay,
      List.getD_eq_getElem?_getD, List.getElem?_append_left h2, List.getElem?_eq_getElem h2]
    rfl

private theorem snprintf_stack {items : List Item} {va va' : List (Arg δ)} {t : List Byte}
    (h : formatText char float items va = .ok (va', t)) (ht : t.length < 2 ^ 31)
    (rest : List Byte) (stack : ℕ → Byte) :
    vsnprintf_ char float (some stack) (UInt32.ofNat bufferSize) (printItems items ++ 0 :: rest)
        va =
      .ok (t.length, some (overlay stack (t.take (bufferSize - 1) ++ [0]))) := by
  have hn : (UInt32.ofNat bufferSize).toNat = bufferSize := rfl
  rw [vsnprintf_, vsnprintf, formatTo_printItems, h]
  simp only [Except.map, finish_outBuffer _ stack ht, hn]
  rfl

theorem USB_CDC_printf_items {items : List Item} {va va' : List (Arg δ)}
    {t : List Byte} (h : formatText char float items va = .ok (va', t)) (ht : t.length < 2 ^ 31)
    (rest : List Byte) (stack : ℕ → Byte) (p : WritePipe) :
    USB_CDC_printf char float stack p (printItems items ++ 0 :: rest) va =
      .ok (if t.length < bufferSize then usbTransmit p t t.length else (-1, p)) := by
  rw [USB_CDC_printf, snprintf_stack char float h ht rest stack]
  change Except.ok (if (t.length : ℤ) ≥ bufferSize then (-1, p) else usbTransmit p
    ((List.range bufferSize).map (overlay stack (t.take (bufferSize - 1) ++ [0])))
    ((t.length : ℤ) % 65536).toNat) = _
  by_cases hlt : t.length < bufferSize
  · have hle : t.length ≤ bufferSize - 1 := by omega
    have hmod : ((t.length : ℤ) % 65536).toNat = t.length := by
      rw [bufferSize] at hlt
      omega
    rw [if_pos hlt, if_neg (by omega), hmod, List.take_of_length_le hle, usbTransmit, usbTransmit,
      take_overlay stack hlt, List.take_length]
  · rw [if_neg hlt, if_pos (by omega)]

/-- `%s`. -/
def plainFields : Fields := ⟨[], .absent, none, .none, chS⟩

def plainString : Item :=
  .directive ⟨plainFields, by
    refine ⟨?_, ?_, ?_, ?_⟩ <;> decide⟩

/-- A pointer to a string of the program. -/
def stringArg (s : List Byte) : Arg δ := .pointer 0 (s ++ [0])

private theorem cString_terminated (s : List Byte) : cString (s ++ [0]) = cString s := by
  rw [cString, cString, List.takeWhile_append]
  split
  · rename_i h
    rw [(List.takeWhile_prefix _).eq_of_length h]
    simp
  · rfl

theorem plainString_text (s : List Byte) (va : List (Arg δ)) :
    plainString.text char float (stringArg s :: va) = .ok (va, cString s) := by
  have ht : stringText ⟨{}, 0, 0⟩ (stringArg s :: va) = .ok (va, cString s) := by
    change (stringChars ⟨{}, 0, 0⟩ (s ++ [0]) >>= fun chars => _) = _
    rw [stringChars_eq, cString_terminated]
    simp [bind, Except.bind, justify, spaces]
  exact ht

/-- The format of a plain text is a sequence of items with that text. -/
theorem expand_items {format : List Byte} {args : List (List Byte)} {chars : List Byte}
    (h : expand format args = some chars) (h0 : 0 ∉ format) :
    ∃ (items : List Item) (va : List (Arg δ)), format = printItems items ∧
      formatText char float items (args.map stringArg) = .ok (va, chars) := by
  fun_induction expand format args generalizing chars with
  | case1 args =>
    cases h
    exact ⟨[], args.map stringArg, rfl, rfl⟩
  | case2 => cases h
  | case3 c args hc =>
    cases h
    have hz : c ≠ 0 := fun hz => h0 (by simp [hz])
    exact ⟨[.literal c ⟨hz, hc⟩], args.map stringArg, rfl, rfl⟩
  | case4 format arg args ih =>
    obtain ⟨chars', he, rfl⟩ := Option.map_eq_some_iff.mp h
    obtain ⟨items, va, hp, ht⟩ := ih he (fun hz => h0 (by simp [hz]))
    refine ⟨plainString :: items, va, ?_, ?_⟩
    · rw [hp]
      rfl
    · rw [formatText, List.map_cons, plainString_text]
      change formatText char float items (args.map stringArg) >>= _ = _
      rw [ht]
      rfl
  | case5 => cases h
  | case6 => cases h
  | case7 c d format args hc ih =>
    obtain ⟨chars', he, rfl⟩ := Option.map_eq_some_iff.mp h
    obtain ⟨items, va, hp, ht⟩ := ih he (fun hz => h0 (List.mem_cons_of_mem _ hz))
    have hz : c ≠ 0 := fun hz => h0 (by simp [hz])
    refine ⟨.literal c ⟨hz, hc⟩ :: items, va, ?_, ?_⟩
    · rw [hp]
      rfl
    · change formatText char float items (args.map stringArg) >>= _ = _
      rw [ht]
      rfl

/-- For formats with plain `%s` directives the whole formatter sends what the plain one
sends. -/
theorem USB_CDC_printf_refines_plain {sFormat : List Byte} {args : List (List Byte)}
    {chars : List Byte} (he : expand sFormat args = some chars) (ht : chars.length < 2 ^ 31)
    (h0 : 0 ∉ sFormat) (rest : List Byte) (stack : ℕ → Byte) (p : WritePipe) :
    (USB_CDC_printf char float stack p (sFormat ++ 0 :: rest) (args.map stringArg)).toOption =
      UsbLog.USB_CDC_printf p sFormat args := by
  obtain ⟨items, va, rfl, htext⟩ := expand_items (δ := δ) char float he h0
  rw [USB_CDC_printf_items char float htext ht rest stack p]
  by_cases hlt : chars.length < bufferSize
  · rw [if_pos hlt, UsbLog.USB_CDC_printf_of_lt he hlt]
    rfl
  · rw [if_neg hlt, UsbLog.USB_CDC_printf_of_le he (Nat.not_lt.mp hlt)]
    rfl

theorem USB_CDC_printf_refines_plain_name :
    (USB_CDC_printf (δ := Unit) .unsigned ⟨fun _ _ _ _ => [], fun _ _ _ _ => []⟩ (fun _ => 0)
        default ([chPercent, chS] ++ 0 :: [])
        ([[ch 'O', ch 'K']].map stringArg)).toOption =
      UsbLog.USB_CDC_printf default [chPercent, chS] [[ch 'O', ch 'K']] := by
  have he : expand [chPercent, chS] [[ch 'O', ch 'K']] = some [ch 'O', ch 'K'] := by decide
  exact USB_CDC_printf_refines_plain .unsigned ⟨fun _ _ _ _ => [], fun _ _ _ _ => []⟩ he
    (by decide) (by decide) [] (fun _ => 0) default

end Printf

end UsbCdc.UsbLogFormatting
