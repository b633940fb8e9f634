import UsbCdc.CommandSupport

/-! # The formatter

`_vsnprintf` and what it calls, over any output function. Reading outside an object and a
wrong argument are faults. The conversions of floating point numbers are a parameter: the
characters that `_ftoa` and `_etoa` pass to `out`. Neither buffer overlaps what is read. -/
namespace UsbCdc.PrintfUtil
open BoundedLoops CStrings CommandSupport

/-- The bits of `flags`. -/
structure Flags where
  zeropad : Bool := false
  left : Bool := false
  plus : Bool := false
  space : Bool := false
  hash : Bool := false
  uppercase : Bool := false
  char : Bool := false
  short : Bool := false
  long : Bool := false
  longLong : Bool := false
  precision : Bool := false
  adaptExp : Bool := false
deriving DecidableEq

inductive Fault
  /-- A read behind the end of the format or of a string. -/
  | overread
  /-- `va_arg` without an argument, or with one of another type. -/
  | argument
deriving DecidableEq

/-- `out_fct_type`: the character, the buffer, `idx` and `maxlen`. -/
abbrev OutFct (σ : Type) := Byte → σ → UInt32 → UInt32 → σ

/-- The cells are those at `buffer` and behind it. -/
def outBuffer : OutFct (ℕ → Byte) := fun character buffer idx maxlen =>
  if idx < maxlen then Function.update buffer idx.toNat character else buffer

def outNull {σ : Type} : OutFct σ := fun _ buffer _ _ => buffer

def outChar {σ : Type} (putchar : Byte → σ → σ) : OutFct σ := fun character device _ _ =>
  if character ≠ 0 then putchar character device else device

def outFct {σ : Type} (fct : Byte → σ → σ) : OutFct σ := fun character arg _ _ =>
  if character ≠ 0 then fct character arg else arg

def ch (c : Char) : Byte := c.toUInt8

/-- Looks at `str[maxsize]` before it gives up. -/
def strnlenS : List Byte → ℕ → Except Fault ℕ
  | [], _ => .error .overread
  | c :: str, maxsize =>
    if c = 0 then .ok 0
    else
      match maxsize with
      | 0 => .ok 0
      | maxsize + 1 => (strnlenS str maxsize).map (· + 1)

def isDigit (c : Byte) : Bool := ch '0' ≤ c && c ≤ ch '9'

/-- The number so far is `i`. -/
def atoi (i : UInt32) : List Byte → Except Fault (UInt32 × List Byte)
  | [] => .error .overread
  | c :: str =>
    if isDigit c then atoi (i * 10 + (c.toUInt32 - (ch '0').toUInt32)) str else .ok (i, c :: str)

/-- What the formatter writes: `idx`, and what `buffer` points to. -/
structure Sink (σ : Type) where
  idx : UInt32
  buffer : σ

section Output
variable {σ : Type} (out : OutFct σ) (maxlen : UInt32)

/-- `out(c, buffer, idx++, maxlen)`. -/
def put (c : Byte) (s : Sink σ) : Sink σ := ⟨s.idx + 1, out c s.buffer s.idx maxlen⟩

/-- `while (l++ < width) out(' ')`, and the `for` loop of `_out_rev`. -/
def padLoop (width : UInt32) : Loop (ℕ × Sink σ) where
  guard f := f.1 < width.toNat
  body f := (f.1 + 1, put out maxlen (ch ' ') f.2)
  measure f := width.toNat - f.1
  decreases f h := by
    have hlt := of_decide_eq_true h
    simp only
    omega

def pad (width : UInt32) (l : ℕ) (s : Sink σ) : Sink σ := ((padLoop out maxlen width).run (l, s)).2

theorem toNat_succ_sub {idx start width : UInt32} (h : idx - start < width) :
    (idx + 1 - start).toNat = (idx - start).toNat + 1 := by
  have hlt := UInt32.lt_iff_toNat_lt.mp h
  have hw := width.toNat_lt
  have he : idx + 1 - start = (idx - start) + 1 := by grind
  rw [he, UInt32.toNat_add, UInt32.toNat_one, Nat.mod_eq_of_lt (by omega)]

/-- `while (idx - start_idx < width) out(' ')`. -/
def fillLoop (start width : UInt32) : Loop (Sink σ) where
  guard s := s.idx - start < width
  body s := put out maxlen (ch ' ') s
  measure s := width.toNat - (s.idx - start).toNat
  decreases s h := by
    have hi := of_decide_eq_true h
    have hlt := UInt32.lt_iff_toNat_lt.mp hi
    simp only [put, toNat_succ_sub hi]
    omega

/-- `buf` holds the characters in reverse. -/
def outRev (buf : List Byte) (width : UInt32) (flags : Flags) (s : Sink σ) : Sink σ :=
  let start := s.idx
  let s := if !flags.left && !flags.zeropad then pad out maxlen width buf.length s else s
  let s := buf.foldr (put out maxlen) s
  if flags.left then (fillLoop out maxlen start width).run s else s

def ntoaBufferSize : ℕ := 32

/-- `while ((len < bound) && (len < PRINTF_NTOA_BUFFER_SIZE)) buf[len++] = '0'`. -/
def zeroLoop (bound : UInt32) : Loop (List Byte) where
  guard buf := buf.length < bound.toNat && buf.length < ntoaBufferSize
  body buf := buf ++ [ch '0']
  measure buf := ntoaBufferSize - buf.length
  decreases buf h := by
    simp only [Bool.and_eq_true, decide_eq_true_eq] at h
    simp only [List.length_append, List.length_singleton]
    omega

/-- The width that the zeros of a number with a sign have to fill. -/
def zeroWidth (negative : Bool) (width : UInt32) (flags : Flags) : UInt32 :=
  if !flags.left && width ≠ 0 && flags.zeropad && (negative || flags.plus || flags.space)
  then width - 1 else width

def leadingZeros (buf : List Byte) (prec width : UInt32) (flags : Flags) : List Byte :=
  if flags.left then buf
  else
    let buf := (zeroLoop prec).run buf
    if flags.zeropad then (zeroLoop width).run buf else buf

/-- `if (len < PRINTF_NTOA_BUFFER_SIZE) buf[len++] = c`. -/
def store (buf : List Byte) (c : Byte) : List Byte :=
  if buf.length < ntoaBufferSize then buf ++ [c] else buf

/-- The end of the padding that the prefix takes the place of. -/
def dropForPrefix (buf : List Byte) (base : ℕ) (prec width : UInt32) (flags : Flags) : List Byte :=
  if !flags.precision && buf.length ≠ 0 && (buf.length = prec.toNat || buf.length = width.toNat)
  then
    let buf := buf.dropLast
    if buf.length ≠ 0 && base = 16 then buf.dropLast else buf
  else buf

/-- "handle hash". -/
def basePrefix (buf : List Byte) (base : ℕ) (prec width : UInt32) (flags : Flags) : List Byte :=
  if flags.hash then
    let buf := dropForPrefix buf base prec width flags
    let buf :=
      if base = 16 && !flags.uppercase then store buf (ch 'x')
      else if base = 16 && flags.uppercase then store buf (ch 'X')
      else if base = 2 then store buf (ch 'b')
      else buf
    store buf (ch '0')
  else buf

def signMark (buf : List Byte) (negative : Bool) (flags : Flags) : List Byte :=
  if negative then store buf (ch '-')
  else if flags.plus then store buf (ch '+')
  else if flags.space then store buf (ch ' ')
  else buf

/-- What `_ntoa_format` makes of the digits in `buf`. -/
def formatBuffer (buf : List Byte) (negative : Bool) (base : ℕ) (prec width : UInt32)
    (flags : Flags) : List Byte :=
  let width := zeroWidth negative width flags
  let buf := leadingZeros buf prec width flags
  let buf := basePrefix buf base prec width flags
  signMark buf negative flags

def ntoaFormat (buf : List Byte) (negative : Bool) (base : ℕ) (prec width : UInt32)
    (flags : Flags) (s : Sink σ) : Sink σ :=
  outRev out maxlen (formatBuffer buf negative base prec width flags)
    (zeroWidth negative width flags) flags s

def digitChar (uppercase : Bool) (digit : ℕ) : Byte :=
  if digit < 10 then ch '0' + UInt8.ofNat digit
  else (if uppercase then ch 'A' else ch 'a') + UInt8.ofNat digit - 10

/-- `value` and the digits so far. -/
def digitLoop (base : ℕ) (uppercase : Bool) : Loop (ℕ × List Byte) where
  guard f := f.1 ≠ 0 && f.2.length < ntoaBufferSize
  body f := (f.1 / base, f.2 ++ [digitChar uppercase (f.1 % base)])
  measure f := ntoaBufferSize - f.2.length
  decreases f h := by
    simp only [Bool.and_eq_true, decide_eq_true_eq] at h
    simp only [List.length_append, List.length_singleton]
    omega

/-- The digits in reverse; the loop tests its condition at the end. -/
def digits (value base : ℕ) (flags : Flags) : List Byte :=
  if !flags.precision || value ≠ 0 then
    let loop := digitLoop base flags.uppercase
    (loop.run (loop.body (value, []))).2
  else []

/-- "no hash for 0 values". -/
def hashFlags (value : ℕ) (flags : Flags) : Flags :=
  if value = 0 then { flags with hash := false } else flags

/-- The text of `_ntoa_long` and `_ntoa_long_long`, for the value of either type. -/
def ntoa (value : ℕ) (negative : Bool) (base : ℕ) (prec width : UInt32) (flags : Flags)
    (s : Sink σ) : Sink σ :=
  let flags := hashFlags value flags
  ntoaFormat out maxlen (digits value base flags) negative base prec width flags s

def ntoaLong (value : UInt32) (negative : Bool) (base : ℕ) (prec width : UInt32)
    (flags : Flags) (s : Sink σ) : Sink σ :=
  ntoa out maxlen value.toNat negative base prec width flags s

def ntoaLongLong (value : UInt64) (negative : Bool) (base : ℕ) (prec width : UInt32)
    (flags : Flags) (s : Sink σ) : Sink σ :=
  ntoa out maxlen value.toNat negative base prec width flags s

/-- The loop of `%s` that copies; `precision` is `none` without `FLAGS_PRECISION`. -/
def outString : List Byte → Option ℕ → Sink σ → Except Fault (Sink σ)
  | [], _, _ => .error .overread
  | c :: p, precision, s =>
    if c = 0 then .ok s
    else
      match precision with
      | none => outString p none (put out maxlen c s)
      | some 0 => .ok s
      | some (precision + 1) => outString p (some precision) (put out maxlen c s)

/-- The terminator; the value is `idx` as an `int`. -/
def finish (s : Sink σ) : ℤ × σ :=
  (s.idx.toInt32.toInt, out 0 s.buffer (if s.idx < maxlen then s.idx else maxlen - 1) maxlen)

end Output

/-- A variable argument as the caller passes it: `int` and `long` have 32 bits, and so has
an address. Behind the address of a string is the object that it lies in. -/
inductive Arg (δ : Type)
  | word (value : UInt32)
  | dword (value : UInt64)
  | pointer (address : UInt32) (object : List Byte)
  | double (value : δ)

section Arguments
variable {δ : Type}

def argWord : List (Arg δ) → Except Fault (UInt32 × List (Arg δ))
  | .word value :: va => .ok (value, va)
  | _ => .error .argument

def argDword : List (Arg δ) → Except Fault (UInt64 × List (Arg δ))
  | .dword value :: va => .ok (value, va)
  | _ => .error .argument

def argPointer : List (Arg δ) → Except Fault ((UInt32 × List Byte) × List (Arg δ))
  | .pointer address object :: va => .ok ((address, object), va)
  | _ => .error .argument

def argDouble : List (Arg δ) → Except Fault (δ × List (Arg δ))
  | .double value :: va => .ok (value, va)
  | _ => .error .argument

end Arguments

/-- "evaluate flags". -/
def evalFlags (flags : Flags) : List Byte → Except Fault (Flags × List Byte)
  | [] => .error .overread
  | c :: format =>
    if c = ch '0' then evalFlags { flags with zeropad := true } format
    else if c = ch '-' then evalFlags { flags with left := true } format
    else if c = ch '+' then evalFlags { flags with plus := true } format
    else if c = ch ' ' then evalFlags { flags with space := true } format
    else if c = ch '#' then evalFlags { flags with hash := true } format
    else .ok (flags, c :: format)

/-- The width from an `int` argument. -/
def starWidth (flags : Flags) (w : UInt32) : Flags × UInt32 :=
  if w.toInt32 < 0 then ({ flags with left := true }, -w) else (flags, w)

def starPrecision (prec : UInt32) : UInt32 := if 0 < prec.toInt32 then prec else 0

/-- A directive as far as it is evaluated. -/
structure Spec where
  flags : Flags
  width : UInt32
  precision : UInt32

section Fields
variable {δ : Type}

/-- "evaluate width field". -/
def evalWidth (flags : Flags) (format : List Byte) (va : List (Arg δ)) :
    Except Fault (Spec × List Byte × List (Arg δ)) :=
  match format with
  | [] => .error .overread
  | c :: rest =>
    if isDigit c then do
      let (width, format) ← atoi 0 format
      .ok (⟨flags, width, 0⟩, format, va)
    else if c = ch '*' then do
      let (w, va) ← argWord va
      let (flags, width) := starWidth flags w
      .ok (⟨flags, width, 0⟩, rest, va)
    else .ok (⟨flags, 0, 0⟩, format, va)

/-- What follows the point. -/
def evalPrecisionDigits (spec : Spec) (format : List Byte) (va : List (Arg δ)) :
    Except Fault (Spec × List Byte × List (Arg δ)) :=
  match format with
  | [] => .error .overread
  | c :: rest =>
    if isDigit c then do
      let (precision, format) ← atoi 0 format
      .ok ({ spec with precision }, format, va)
    else if c = ch '*' then do
      let (prec, va) ← argWord va
      .ok ({ spec with precision := starPrecision prec }, rest, va)
    else .ok (spec, format, va)

/-- "evaluate precision field". -/
def evalPrecision (spec : Spec) (format : List Byte) (va : List (Arg δ)) :
    Except Fault (Spec × List Byte × List (Arg δ)) :=
  match format with
  | [] => .error .overread
  | c :: rest =>
    if c = ch '.' then
      evalPrecisionDigits { spec with flags := { spec.flags with precision := true } } rest va
    else .ok (spec, format, va)

end Fields

/-- "evaluate length field". `ptrdiff_t` and `size_t` are as wide as `long`, `intmax_t`
is not. -/
def evalLength (flags : Flags) : List Byte → Except Fault (Flags × List Byte)
  | [] => .error .overread
  | c :: format =>
    if c = ch 'l' then
      match format with
      | [] => .error .overread
      | d :: rest =>
        if d = ch 'l' then .ok ({ flags with long := true, longLong := true }, rest)
        else .ok ({ flags with long := true }, format)
    else if c = ch 'h' then
      match format with
      | [] => .error .overread
      | d :: rest =>
        if d = ch 'h' then .ok ({ flags with short := true, char := true }, rest)
        else .ok ({ flags with short := true }, format)
    else if c = ch 't' then .ok ({ flags with long := true }, format)
    else if c = ch 'j' then .ok ({ flags with longLong := true }, format)
    else if c = ch 'z' then .ok ({ flags with long := true }, format)
    else .ok (flags, c :: format)

def integerSpecifiers : List Byte :=
  [ch 'd', ch 'i', ch 'u', ch 'x', ch 'X', ch 'o', ch 'b']

def isSigned (c : Byte) : Bool := c = ch 'i' || c = ch 'd'

/-- "set the base". -/
def integerBase (c : Byte) : ℕ :=
  if c = ch 'x' || c = ch 'X' then 16
  else if c = ch 'o' then 8
  else if c = ch 'b' then 2
  else 10

def integerFlags (c : Byte) (flags : Flags) : Flags :=
  let flags := if integerBase c = 10 then { flags with hash := false } else flags
  let flags := if c = ch 'X' then { flags with uppercase := true } else flags
  let flags := if !isSigned c then { flags with plus := false, space := false } else flags
  if flags.precision then { flags with zeropad := false } else flags

/-- The argument of `%d` and `%i` without `ll`. -/
def signedValue (char : PlainChar) (flags : Flags) (v : UInt32) : ℤ :=
  if flags.long then v.toInt32.toInt
  else if flags.char then char.value v.toUInt8
  else if flags.short then v.toUInt16.toInt16.toInt
  else v.toInt32.toInt

/-- The argument of the other integer conversions without `ll`. -/
def unsignedValue (flags : Flags) (v : UInt32) : UInt32 :=
  if flags.long then v
  else if flags.char then v.toUInt8.toUInt32
  else if flags.short then v.toUInt16.toUInt32
  else v

/-- `value > 0 ? value : 0 - value`. -/
def magnitude (value : ℤ) : ℤ := if value > 0 then value else 0 - value

/-- `_ftoa` and `_etoa`: the characters that they pass to `out` for a value, a precision, a
width and flags. -/
structure FloatOutput (δ : Type) where
  ftoa : δ → UInt32 → UInt32 → Flags → List Byte
  etoa : δ → UInt32 → UInt32 → Flags → List Byte

section Formatter
variable {δ σ : Type} (char : PlainChar) (float : FloatOutput δ) (out : OutFct σ) (maxlen : UInt32)

/-- "convert the integer". -/
def outInteger (c : Byte) (spec : Spec) (va : List (Arg δ)) (s : Sink σ) :
    Except Fault (List (Arg δ) × Sink σ) :=
  let base := integerBase c
  let flags := integerFlags c spec.flags
  if isSigned c then
    if flags.longLong then do
      let (v, va) ← argDword va
      let value := v.toInt64.toInt
      .ok (va, ntoaLongLong out maxlen (UInt64.ofInt (magnitude value)) (value < 0) base
        spec.precision spec.width flags s)
    else do
      let (v, va) ← argWord va
      let value := signedValue char flags v
      .ok (va, ntoaLong out maxlen (UInt32.ofInt (magnitude value)) (value < 0) base
        spec.precision spec.width flags s)
  else
    if flags.longLong then do
      let (value, va) ← argDword va
      .ok (va, ntoaLongLong out maxlen value false base spec.precision spec.width flags s)
    else do
      let (v, va) ← argWord va
      .ok (va, ntoaLong out maxlen (unsignedValue flags v) false base spec.precision spec.width
        flags s)

def outDouble (c : Byte) (spec : Spec) (va : List (Arg δ)) (s : Sink σ) :
    Except Fault (List (Arg δ) × Sink σ) := do
  let (value, va) ← argDouble va
  let emit := fun (chars : List Byte) => chars.foldl (fun s c => put out maxlen c s) s
  if c = ch 'f' || c = ch 'F' then
    let flags := if c = ch 'F' then { spec.flags with uppercase := true } else spec.flags
    .ok (va, emit (float.ftoa value spec.precision spec.width flags))
  else
    let flags :=
      if c = ch 'g' || c = ch 'G' then { spec.flags with adaptExp := true } else spec.flags
    let flags := if c = ch 'E' || c = ch 'G' then { flags with uppercase := true } else flags
    .ok (va, emit (float.etoa value spec.precision spec.width flags))

/-- `case 'c'`. -/
def outCharacter (spec : Spec) (va : List (Arg δ)) (s : Sink σ) :
    Except Fault (List (Arg δ) × Sink σ) := do
  let s := if !spec.flags.left then pad out maxlen spec.width 1 s else s
  let (v, va) ← argWord va
  let s := put out maxlen v.toUInt8 s
  .ok (va, if spec.flags.left then pad out maxlen spec.width 1 s else s)

/-- `precision ? precision : (size_t)-1`. -/
def stringLimit (spec : Spec) : ℕ :=
  if spec.precision ≠ 0 then spec.precision.toNat else 2 ^ 32 - 1

/-- `case 's'`. -/
def outStringArg (spec : Spec) (va : List (Arg δ)) (s : Sink σ) :
    Except Fault (List (Arg δ) × Sink σ) := do
  let ((_, p), va) ← argPointer va
  let l ← strnlenS p (stringLimit spec)
  let l := if spec.flags.precision then (if l < spec.precision.toNat then l else spec.precision.toNat)
    else l
  let s := if !spec.flags.left then pad out maxlen spec.width l s else s
  let s ← outString out maxlen p (if spec.flags.precision then some spec.precision.toNat else none) s
  .ok (va, if spec.flags.left then pad out maxlen spec.width l s else s)

/-- `case 'p'`: an address has eight digits. -/
def outPointer (spec : Spec) (va : List (Arg δ)) (s : Sink σ) :
    Except Fault (List (Arg δ) × Sink σ) := do
  let ((address, _), va) ← argPointer va
  .ok (va, ntoaLong out maxlen address false 16 spec.precision 8
    { spec.flags with zeropad := true, uppercase := true } s)

def doubleSpecifiers : List Byte := [ch 'f', ch 'F', ch 'e', ch 'E', ch 'g', ch 'G']

/-- "evaluate specifier". The last case is `'%'`, and every character that is none. -/
def evalSpecifier (c : Byte) (spec : Spec) (va : List (Arg δ)) (s : Sink σ) :
    Except Fault (List (Arg δ) × Sink σ) :=
  if c ∈ integerSpecifiers then outInteger char out maxlen c spec va s
  else if c ∈ doubleSpecifiers then outDouble float out maxlen c spec va s
  else if c = ch 'c' then outCharacter out maxlen spec va s
  else if c = ch 's' then outStringArg out maxlen spec va s
  else if c = ch 'p' then outPointer out maxlen spec va s
  else .ok (va, put out maxlen c s)

end Formatter

/-- What a computation with a bind delivers, the first part has delivered something for. -/
theorem bind_eq_ok {α β : Type} {x : Except Fault α} {f : α → Except Fault β} {b : β}
    (h : (x >>= f) = .ok b) : ∃ a, x = .ok a ∧ f a = .ok b := by
  cases x with
  | error e => cases h
  | ok a => exact ⟨a, rfl, h⟩

theorem evalFlags_suffix {flags : Flags} {format : List Byte} {r : Flags × List Byte}
    (h : evalFlags flags format = .ok r) : r.2 <:+ format := by
  fun_induction evalFlags flags format with
  | case1 => cases h
  | case2 _ _ ih | case3 _ _ _ ih | case4 _ _ _ _ ih | case5 _ _ _ _ _ ih
  | case6 _ _ _ _ _ _ ih =>
    exact (ih h).trans (List.suffix_cons _ _)
  | case7 =>
    cases h
    exact List.suffix_rfl

theorem atoi_suffix {i : UInt32} {str : List Byte} {r : UInt32 × List Byte}
    (h : atoi i str = .ok r) : r.2 <:+ str := by
  fun_induction atoi i str with
  | case1 => cases h
  | case2 _ c str _ ih => exact (ih h).trans (List.suffix_cons c str)
  | case3 =>
    cases h
    exact List.suffix_rfl

theorem evalLength_suffix {flags : Flags} {format : List Byte} {r : Flags × List Byte}
    (h : evalLength flags format = .ok r) : r.2 <:+ format := by
  cases format with
  | nil => cases h
  | cons c format =>
    have hc := List.suffix_cons c format
    simp only [evalLength] at h
    split at h
    · cases format with
      | nil => cases h
      | cons d rest =>
        simp only at h
        split at h <;> cases h
        · exact (List.suffix_cons d rest).trans hc
        · exact hc
    · split at h
      · cases format with
        | nil => cases h
        | cons d rest =>
          simp only at h
          split at h <;> cases h
          · exact (List.suffix_cons d rest).trans hc
          · exact hc
      · split at h
        · cases h
          exact hc
        · split at h
          · cases h
            exact hc
          · split at h <;> cases h
            · exact hc
            · exact List.suffix_rfl

section Fields
variable {δ : Type} {va : List (Arg δ)} {format : List Byte} {r : Spec × List Byte × List (Arg δ)}

theorem evalWidth_suffix {flags : Flags} (h : evalWidth flags format va = .ok r) :
    r.2.1 <:+ format := by
  cases format with
  | nil => cases h
  | cons c rest =>
    simp only [evalWidth] at h
    split at h
    · obtain ⟨a, ha, h⟩ := bind_eq_ok h
      cases h
      exact atoi_suffix ha
    · split at h
      · obtain ⟨a, ha, h⟩ := bind_eq_ok h
        cases h
        exact List.suffix_cons c rest
      · cases h
        exact List.suffix_rfl

theorem evalPrecisionDigits_suffix {spec : Spec}
    (h : evalPrecisionDigits spec format va = .ok r) : r.2.1 <:+ format := by
  cases format with
  | nil => cases h
  | cons c rest =>
    simp only [evalPrecisionDigits] at h
    split at h
    · obtain ⟨a, ha, h⟩ := bind_eq_ok h
      cases h
      exact atoi_suffix ha
    · split at h
      · obtain ⟨a, ha, h⟩ := bind_eq_ok h
        cases h
        exact List.suffix_cons c rest
      · cases h
        exact List.suffix_rfl

theorem evalPrecision_suffix {spec : Spec} (h : evalPrecision spec format va = .ok r) :
    r.2.1 <:+ format := by
  cases format with
  | nil => cases h
  | cons c rest =>
    simp only [evalPrecision] at h
    split at h
    · exact (evalPrecisionDigits_suffix h).trans (List.suffix_cons c rest)
    · cases h
      exact List.suffix_rfl

/-- The fields of a directive up to the character that selects the conversion. -/
def evalFields (format : List Byte) (va : List (Arg δ)) :
    Except Fault (Spec × List Byte × List (Arg δ)) := do
  let (flags, format) ← evalFlags {} format
  let (spec, format, va) ← evalWidth flags format va
  let (spec, format, va) ← evalPrecision spec format va
  let (flags, format) ← evalLength spec.flags format
  .ok ({ spec with flags }, format, va)

theorem evalFields_suffix (h : evalFields format va = .ok r) : r.2.1 <:+ format := by
  obtain ⟨a, ha, h⟩ := bind_eq_ok h
  obtain ⟨b, hb, h⟩ := bind_eq_ok h
  obtain ⟨c, hc, h⟩ := bind_eq_ok h
  obtain ⟨d, hd, h⟩ := bind_eq_ok h
  cases h
  have hcd := (evalLength_suffix hd).trans (evalPrecision_suffix hc)
  exact hcd.trans ((evalWidth_suffix hb).trans (evalFlags_suffix ha))

end Fields

/-- The locals of `_vsnprintf` between two iterations. -/
structure Frame (δ σ : Type) where
  format : List Byte
  va : List (Arg δ)
  sink : Sink σ

section Formatter
variable {δ σ : Type} (char : PlainChar) (float : FloatOutput δ) (out : OutFct σ) (maxlen : UInt32)

/-- One pass through `while (*format)`. -/
def evalDirective (f : Frame δ σ) : Except Fault (Frame δ σ) :=
  match f.format with
  | [] => .error .overread
  | c :: format =>
    if c ≠ ch '%' then .ok { f with format, sink := put out maxlen c f.sink }
    else do
      let (spec, format, va) ← evalFields format f.va
      match format with
      | [] => .error .overread
      | c :: format => do
        let (va, sink) ← evalSpecifier char float out maxlen c spec va f.sink
        .ok ⟨format, va, sink⟩

theorem evalDirective_length {f f' : Frame δ σ}
    (h : evalDirective char float out maxlen f = .ok f') :
    f'.format.length < f.format.length := by
  obtain ⟨format, va, s⟩ := f
  cases format with
  | nil => cases h
  | cons c format =>
    simp only [evalDirective] at h
    split at h
    · cases h
      exact Nat.lt_succ_self _
    · obtain ⟨a, ha, h⟩ := bind_eq_ok h
      obtain ⟨spec, rest, va'⟩ := a
      have hs := (evalFields_suffix ha).length_le
      cases rest with
      | nil => cases h
      | cons d rest =>
        obtain ⟨b, hb, h⟩ := bind_eq_ok h
        cases h
        simp only [List.length_cons] at hs ⊢
        omega

/-- A fault ends the loop, as the terminator does. -/
def formatLoop : Loop (Except Fault (Frame δ σ)) where
  guard
    | .ok f => f.format.head? ≠ some 0
    | .error _ => false
  body f := f >>= evalDirective char float out maxlen
  measure
    | .ok f => f.format.length + 1
    | .error _ => 0
  decreases f h := by
    cases f with
    | error e => cases h
    | ok f =>
      change (match evalDirective char float out maxlen f with
        | .ok f => f.format.length + 1
        | .error _ => 0) < f.format.length + 1
      split
      · rename_i f' hf
        exact Nat.succ_lt_succ (evalDirective_length char float out maxlen hf)
      · omega

/-- `_vsnprintf` for the output function that it ends up with. -/
def formatTo (buffer : σ) (format : List Byte) (va : List (Arg δ)) : Except Fault (ℤ × σ) :=
  ((formatLoop char float out maxlen).run (.ok ⟨format, va, ⟨0, buffer⟩⟩)).map
    (fun f => finish out maxlen f.sink)

/-- `_vsnprintf`; a null pointer for the buffer is `none`. -/
def vsnprintf (buffer : Option σ) (format : List Byte) (va : List (Arg δ)) :
    Except Fault (ℤ × Option σ) :=
  match buffer with
  | none => (formatTo char float outNull maxlen () format va).map (fun r => (r.1, none))
  | some buffer => (formatTo char float out maxlen buffer format va).map (fun r => (r.1, some r.2))

end Formatter

section Interface
variable {δ σ : Type} (char : PlainChar) (float : FloatOutput δ)

def printf_ (putchar : Byte → σ → σ) (device : σ) (format : List Byte) (va : List (Arg δ)) :
    Except Fault (ℤ × Option σ) :=
  vsnprintf char float (outChar putchar) (0 - 1) (some device) format va

def vprintf_ (putchar : Byte → σ → σ) (device : σ) (format : List Byte) (va : List (Arg δ)) :
    Except Fault (ℤ × Option σ) :=
  vsnprintf char float (outChar putchar) (0 - 1) (some device) format va

def sprintf_ (buffer : Option (ℕ → Byte)) (format : List Byte) (va : List (Arg δ)) :
    Except Fault (ℤ × Option (ℕ → Byte)) :=
  vsnprintf char float outBuffer (0 - 1) buffer format va

def snprintf_ (buffer : Option (ℕ → Byte)) (count : UInt32) (format : List Byte)
    (va : List (Arg δ)) : Except Fault (ℤ × Option (ℕ → Byte)) :=
  vsnprintf char float outBuffer count buffer format va

def vsnprintf_ (buffer : Option (ℕ → Byte)) (count : UInt32) (format : List Byte)
    (va : List (Arg δ)) : Except Fault (ℤ × Option (ℕ → Byte)) :=
  vsnprintf char float outBuffer count buffer format va

def fctprintf (fct : Byte → σ → σ) (arg : σ) (format : List Byte) (va : List (Arg δ)) :
    Except Fault (ℤ × Option σ) :=
  vsnprintf char float (outFct fct) (0 - 1) (some arg) format va

end Interface

end UsbCdc.PrintfUtil
