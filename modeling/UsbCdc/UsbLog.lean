import UsbCdc.CStrings

/-! # Sending formatted text over USB

`USB_CDC_printf` formats into a local buffer of 512 bytes and hands the text to
`R_USB_Write`. Of the formatter only what the two formats of the program use is modelled:
ordinary characters and a plain `%s`. -/
namespace UsbCdc.UsbLog
open CStrings

def bufferSize : ℕ := 512

def chPercent : Byte := '%'.toUInt8
def chS : Byte := 's'.toUInt8

/-- The characters that `_vsnprintf` passes to `out`, or `none` for any directive other
than a plain `%s` with an argument. -/
def expand : List Byte → List (List Byte) → Option (List Byte)
  | [], _ => some []
  | [c], _ => if c = chPercent then none else some [c]
  | c :: d :: format, args =>
    if c = chPercent then
      match args with
      | arg :: args => if d = chS then (expand format args).map (cString arg ++ ·) else none
      | [] => none
    else
      (expand (d :: format) args).map (c :: ·)

variable {n : ℕ}

def outBuffer (c : Byte) (buffer : Vector Byte n) (idx maxlen : ℕ) : Vector Byte n :=
  if idx < maxlen then buffer.setIfInBounds idx c else buffer

/-- One call of `out`, with `idx++`. -/
def outNext (maxlen : ℕ) (f : ℕ × Vector Byte n) (c : Byte) : ℕ × Vector Byte n :=
  (f.1 + 1, outBuffer c f.2 f.1 maxlen)

/-- The length of the whole text, also where `buffer` holds only its start. -/
def vsnprintf (buffer : Vector Byte n) (count : ℕ) (format : List Byte) (args : List (List Byte)) :
    Option (ℕ × Vector Byte n) :=
  (expand format args).map (fun chars =>
    let (idx, buffer) := chars.foldl (outNext count) (0, buffer)
    (idx, outBuffer 0 buffer (if idx < count then idx else count - 1) count))

structure WriteCall where
  data : List Byte
  accepted : Bool
deriving DecidableEq

/-- The driver's write pipe: it carries one transfer at a time, and refuses another
`R_USB_Write` until `USB_STATUS_WRITE_COMPLETE`. -/
structure WritePipe where
  inFlight : Bool
  calls : List WriteCall
deriving DecidableEq

instance : Inhabited WritePipe := ⟨⟨false, []⟩⟩

namespace WritePipe

/-- `R_USB_Write`. -/
def usbWrite (p : WritePipe) (data : List Byte) : Bool × WritePipe :=
  (!p.inFlight, ⟨true, p.calls ++ [⟨data, !p.inFlight⟩]⟩)

def writeComplete (p : WritePipe) : WritePipe := { p with inFlight := false }

end WritePipe

def usbTransmit (p : WritePipe) (pBuffer : List Byte) (numBytes : ℕ) : ℤ × WritePipe :=
  let (ok, p) := p.usbWrite (pBuffer.take numBytes)
  (if ok then 0 else -1, p)

@[simp] theorem usbTransmit_all (p : WritePipe) (data : List Byte) :
    (usbTransmit p data data.length).2 = (p.usbWrite data).2 := by
  rw [usbTransmit, List.take_length]

def USB_CDC_printf (p : WritePipe) (sFormat : List Byte) (args : List (List Byte)) :
    Option (ℤ × WritePipe) :=
  -- `buffer` is not initialised, but of its bytes only those of the text are sent
  (vsnprintf (Vector.replicate bufferSize 0) bufferSize sFormat args).map (fun (len, buffer) =>
    if len ≥ bufferSize then (-1, p) else usbTransmit p buffer.toList (len % 65536))

private theorem take_outBuffer (c : Byte) (b : Vector Byte n) {i count : ℕ} (hc : i < count)
    (hn : i < n) : (outBuffer c b i count).toList.take (i + 1) = b.toList.take i ++ [c] := by
  have hlen : i < b.toList.length := by simpa using hn
  rw [outBuffer, if_pos hc, Vector.toList_setIfInBounds, List.set_eq_take_append_cons_drop,
    if_pos hlen, List.take_append, List.length_take_of_le hlen.le, Nat.add_sub_cancel_left,
    List.take_of_length_le (by rw [List.length_take]; omega)]
  rfl

/-- The length of a text does not depend on the room for it. -/
private theorem fst_foldl_outNext (count : ℕ) (chars : List Byte) (i : ℕ) (b : Vector Byte n) :
    (chars.foldl (outNext count) (i, b)).1 = i + chars.length := by
  induction chars generalizing i b with
  | nil => rfl
  | cons c cs ih =>
    rw [List.foldl_cons, outNext, ih, List.length_cons]
    omega

private theorem take_foldl_outNext (count : ℕ) (chars : List Byte) (i : ℕ) (b : Vector Byte n)
    (hc : i + chars.length ≤ count) (hn : i + chars.length ≤ n) :
    (chars.foldl (outNext count) (i, b)).2.toList.take (i + chars.length) =
      b.toList.take i ++ chars := by
  induction chars generalizing i b with
  | nil => simp
  | cons c cs ih =>
    rw [List.length_cons] at hc hn
    have hl : i + (c :: cs).length = i + 1 + cs.length := by
      rw [List.length_cons]
      omega
    rw [hl, List.foldl_cons, outNext, ih _ _ (by omega) (by omega),
      take_outBuffer c b (by omega) (by omega), List.append_assoc, List.singleton_append]

/-- The value of the formatter is the length of the whole text. -/
theorem vsnprintf_length {buffer : Vector Byte n} {count : ℕ} {format : List Byte}
    {args : List (List Byte)} {chars : List Byte} (he : expand format args = some chars) :
    (vsnprintf buffer count format args).map Prod.fst = some chars.length := by
  rw [vsnprintf, he, Option.map_some, Option.map_some, fst_foldl_outNext, Nat.zero_add]

/-- Text that fits into the buffer is sent as it is. -/
theorem USB_CDC_printf_of_lt {sFormat : List Byte} {args : List (List Byte)} {chars : List Byte}
    (he : expand sFormat args = some chars) (hl : chars.length < bufferSize) (p : WritePipe) :
    USB_CDC_printf p sFormat args = some (usbTransmit p chars chars.length) := by
  have h1 := fst_foldl_outNext bufferSize chars 0 (Vector.replicate bufferSize 0)
  have h2 := take_foldl_outNext bufferSize chars 0 (Vector.replicate bufferSize 0) (by omega)
    (by omega)
  rw [USB_CDC_printf, vsnprintf, he, Option.map_some, Option.map_some]
  generalize chars.foldl (outNext bufferSize) (0, Vector.replicate bufferSize 0) = f at h1 h2 ⊢
  obtain ⟨len, b⟩ := f
  obtain rfl : len = chars.length := by omega
  have htake : (outBuffer 0 b chars.length bufferSize).toList.take chars.length = chars := by
    rw [outBuffer, if_pos hl, Vector.toList_setIfInBounds, List.take_set_of_le le_rfl]
    simpa using h2
  have hmod : chars.length % 65536 = chars.length :=
    Nat.mod_eq_of_lt (hl.trans (by decide))
  simp only [if_pos hl, if_neg (Nat.not_le.mpr hl), hmod, usbTransmit, htake, List.take_length]

/-- Text that does not fit is not sent at all. -/
theorem USB_CDC_printf_of_le {sFormat : List Byte} {args : List (List Byte)} {chars : List Byte}
    (he : expand sFormat args = some chars) (hl : bufferSize ≤ chars.length) (p : WritePipe) :
    USB_CDC_printf p sFormat args = some (-1, p) := by
  have hlen : (vsnprintf (Vector.replicate bufferSize 0) bufferSize sFormat args).map Prod.fst =
      some chars.length := vsnprintf_length he
  obtain ⟨f, hf, hn⟩ := Option.map_eq_some_iff.mp hlen
  obtain ⟨len, buffer⟩ := f
  obtain rfl : len = chars.length := hn
  rw [USB_CDC_printf, hf, Option.map_some]
  exact congrArg some (if_pos hl)

end UsbCdc.UsbLog
