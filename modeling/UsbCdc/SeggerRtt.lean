import UsbCdc.BoundedLoops
import UsbCdc.CStrings
import UsbCdc.CyclicChunks

/-! # The buffers of the real-time terminal

The ring buffers through which the debug output leaves the target. A copy that would leave
the buffer, or an offset stored outside of it, is `none`. The number of bytes to write is
the length of the data. -/
namespace UsbCdc.SeggerRtt
open BoundedLoops CStrings CyclicChunks CyclicWindows

/-- `SEGGER_RTT_BUFFER_UP` and `SEGGER_RTT_BUFFER_DOWN`; `SizeOfBuffer` is `n`, and no object
is larger than a pointer difference can be. -/
structure Ring (n : ℕ) where
  buffer : Vector Byte n
  wrOff : Fin n
  rdOff : Fin n
  flags : UInt32
  sizeOfBuffer : n < 2 ^ 31

def noBlockSkip : UInt32 := 0
def noBlockTrim : UInt32 := 1
def blockIfFifoFull : UInt32 := 2
def modeMask : UInt32 := 3

variable {n : ℕ}

/-- What a call comes back with, or what it still has to post while it waits for the host
to read. -/
inductive Outcome (σ : Type)
  | returns (status : ℤ) (s : σ)
  | waits (s : σ) (rest : List Byte)

def offset (k : ℕ) : Option (Fin n) := if h : k < n then some ⟨k, h⟩ else none

/-- Subtraction of `unsigned` numbers. -/
def unsignedSub (a b : ℕ) : ℕ := (2 ^ 32 + a - b) % 2 ^ 32

def getAvailWriteSpace (r : Ring n) : ℕ :=
  if r.rdOff ≤ r.wrOff then n - 1 - r.wrOff + r.rdOff else r.rdOff - r.wrOff - 1

/-! ## Writing -/

/-- `NumBytesToWrite` in an iteration of `_WriteBlocking`. -/
def chunkLength (r : Ring n) (numBytes : ℕ) : ℕ :=
  let space : ℕ := if r.rdOff > r.wrOff then r.rdOff - r.wrOff - 1 else n - (r.wrOff - r.rdOff + 1)
  min (min space (n - r.wrOff)) numBytes

/-- One iteration of `_WriteBlocking`, with what is left to write. -/
def postChunk (r : Ring n) (pBuffer : List Byte) : Option (Ring n × List Byte) := do
  let numBytesToWrite := chunkLength r pBuffer.length
  let buffer ← blit r.buffer r.wrOff (pBuffer.take numBytesToWrite)
  let wrOff ← offset (wrap n (r.wrOff + numBytesToWrite))
  some ({ r with buffer, wrOff }, pBuffer.drop numBytesToWrite)

/-- The iterations that get something written: in the others the loop waits. -/
def blockingGuard : Option (Ring n × List Byte) → Bool
  | none => false
  | some (r, pBuffer) => decide (0 < chunkLength r pBuffer.length)

def blockingMeasure : Option (Ring n × List Byte) → ℕ
  | none => 0
  | some (_, pBuffer) => pBuffer.length

def blockingLoop : Loop (Option (Ring n × List Byte)) where
  guard := blockingGuard
  body f := f.bind fun p => postChunk p.1 p.2
  measure := blockingMeasure
  decreases f h := by
    cases f with
    | none => cases h
    | some p =>
      have hk : 0 < chunkLength p.1 p.2.length := of_decide_eq_true h
      have hle : chunkLength p.1 p.2.length ≤ p.2.length := Nat.min_le_right _ _
      rw [Option.bind_some]
      cases hb : postChunk p.1 p.2 with
      | none => exact hk.trans_le hle
      | some q =>
        simp only [postChunk, Option.bind_eq_bind, Option.bind_eq_some_iff] at hb
        obtain ⟨buffer, _, wrOff, _, hq⟩ := hb
        cases hq
        simp only [blockingMeasure, List.length_drop]
        omega

/-- The ring where the loop ends, or where it waits for the host, and what is left then. -/
def writeBlocking (r : Ring n) (pBuffer : List Byte) : Option (Ring n × List Byte) :=
  blockingLoop.run (postChunk r pBuffer)

def writeNoCheck (r : Ring n) (pData : List Byte) : Option (Ring n) :=
  let rem := n - r.wrOff
  if rem > pData.length then do
    let buffer ← blit r.buffer r.wrOff pData
    let wrOff ← offset (r.wrOff + pData.length)
    some { r with buffer, wrOff }
  else do
    let buffer ← blit r.buffer r.wrOff (pData.take rem)
    let buffer ← blit buffer 0 (pData.drop rem)
    let wrOff ← offset (pData.length - rem)
    some { r with buffer, wrOff }

/-- `SEGGER_RTT_WriteNoLock` and `SEGGER_RTT_WriteDownBufferNoLock`. -/
def writeNoLock (r : Ring n) (pData : List Byte) : Option (Outcome (Ring n)) :=
  let avail := getAvailWriteSpace r
  if r.flags = noBlockSkip then
    if avail < pData.length then some (.returns 0 r)
    else (writeNoCheck r pData).map (.returns pData.length)
  else if r.flags = noBlockTrim then
    let status := if avail < pData.length then avail else pData.length
    (writeNoCheck r (pData.take status)).map (.returns status)
  else if r.flags = blockIfFifoFull then
    (writeBlocking r pData).map fun p =>
      if p.2 = [] then .returns pData.length p.1 else .waits p.1 p.2
  else some (.returns 0 r)

/-- The C body, of `RTT_USE_ASM = 0`. A build for this target's core takes the assembly
version in its place. -/
def writeSkipNoLock (r : Ring n) (pData : List Byte) : Option (Outcome (Ring n)) :=
  if r.rdOff ≤ r.wrOff then
    let avail : ℕ := n - r.wrOff - 1
    if avail ≥ pData.length then do
      let buffer ← blit r.buffer r.wrOff pData
      let wrOff ← offset (r.wrOff + pData.length)
      some (.returns 1 { r with buffer, wrOff })
    else if avail + r.rdOff ≥ pData.length then do
      let rem := n - r.wrOff
      let buffer ← blit r.buffer r.wrOff (pData.take rem)
      let rest := pData.drop rem
      let buffer ← if rest = [] then some buffer else blit buffer 0 rest
      let wrOff ← offset rest.length
      some (.returns 1 { r with buffer, wrOff })
    else some (.returns 0 r)
  else
    let avail : ℕ := r.rdOff - r.wrOff - 1
    if avail ≥ pData.length then do
      let buffer ← blit r.buffer r.wrOff pData
      let wrOff ← offset (r.wrOff + pData.length)
      some (.returns 1 { r with buffer, wrOff })
    else some (.returns 0 r)

/-- `SEGGER_RTT_PutCharSkipNoLock` and `SEGGER_RTT_PutCharSkip`. -/
def putCharSkip (r : Ring n) (c : Byte) : Option (Outcome (Ring n)) := do
  let wrOff ← offset (wrap n (r.wrOff + 1))
  if wrOff ≠ r.rdOff then
    some (.returns 1 { r with buffer := r.buffer.set r.wrOff c, wrOff })
  else some (.returns 0 r)

def putChar (r : Ring n) (c : Byte) : Option (Outcome (Ring n)) := do
  let wrOff ← offset (wrap n (r.wrOff + 1))
  if r.flags = blockIfFifoFull ∧ wrOff = r.rdOff then some (.waits r [c])
  else if wrOff ≠ r.rdOff then
    some (.returns 1 { r with buffer := r.buffer.set r.wrOff c, wrOff })
  else some (.returns 0 r)

/-! ## Overwriting -/

/-- The room that `SEGGER_RTT_WriteWithOverwriteNoLock` finds. -/
def overwriteSpace (r : Ring n) : ℕ :=
  if r.wrOff = r.rdOff then n - 1
  else if r.wrOff < r.rdOff then r.rdOff - r.wrOff - 1
  else n + r.rdOff - r.wrOff - 1

/-- `while (pRing->RdOff >= pRing->SizeOfBuffer) pRing->RdOff -= pRing->SizeOfBuffer`. -/
def reduceLoop (h : 0 < n) : Loop ℕ where
  guard rdOff := decide (n ≤ rdOff)
  body rdOff := rdOff - n
  measure rdOff := rdOff
  decreases rdOff hg := by
    simp only [decide_eq_true_eq] at hg
    omega

/-- "Check if we will overwrite data and need to adjust the RdOff." -/
def overwriteRdOff (r : Ring n) (numBytes : ℕ) : Option (Fin n) :=
  let avail := overwriteSpace r
  if numBytes > avail then
    offset ((reduceLoop r.rdOff.pos).run ((r.rdOff + (numBytes - avail)) % 2 ^ 32))
  else some r.rdOff

/-- The locals of the copying loop, with the ring's `WrOff`; the last round leaves no data. -/
structure OverwriteFrame (n : ℕ) where
  buffer : Vector Byte n
  wrOff : Fin n
  avail : ℕ
  pData : List Byte

def overwriteRound (f : OverwriteFrame n) : Option (OverwriteFrame n) :=
  if f.avail > f.pData.length then do
    let buffer ← blit f.buffer f.wrOff f.pData
    let wrOff ← offset (f.wrOff + f.pData.length)
    some { f with buffer, wrOff, pData := [] }
  else do
    let buffer ← blit f.buffer f.wrOff (f.pData.take f.avail)
    let wrOff ← offset 0
    some ⟨buffer, wrOff, n - 1, f.pData.drop f.avail⟩

def overwriteGuard : Option (OverwriteFrame n) → Bool
  | none => false
  | some f => decide (f.pData ≠ [] ∧ 0 < f.avail)

def overwriteMeasure : Option (OverwriteFrame n) → ℕ
  | none => 0
  | some f => f.pData.length

/-- With `SizeOfBuffer` 1 there are rounds that write nothing, for ever: data is left then. -/
def overwriteLoop : Loop (Option (OverwriteFrame n)) where
  guard := overwriteGuard
  body f := f.bind overwriteRound
  measure := overwriteMeasure
  decreases f h := by
    cases f with
    | none => cases h
    | some f =>
      have hg : f.pData ≠ [] ∧ 0 < f.avail := of_decide_eq_true h
      have hp := List.length_pos_of_ne_nil hg.1
      rw [Option.bind_some]
      cases hb : overwriteRound f with
      | none => exact hp
      | some q =>
        rw [overwriteRound] at hb
        split at hb
        · simp only [Option.bind_eq_bind, Option.bind_eq_some_iff] at hb
          obtain ⟨buffer, _, wrOff, _, hq⟩ := hb
          cases hq
          exact hp
        · simp only [Option.bind_eq_bind, Option.bind_eq_some_iff] at hb
          obtain ⟨buffer, _, wrOff, _, hq⟩ := hb
          cases hq
          simp only [overwriteMeasure, List.length_drop]
          omega

def writeWithOverwriteNoLock (r : Ring n) (pData : List Byte) : Option (Ring n) := do
  let rdOff ← overwriteRdOff r pData.length
  let f ← overwriteLoop.run (overwriteRound ⟨r.buffer, r.wrOff, n - r.wrOff, pData⟩)
  if f.pData = [] then some { r with buffer := f.buffer, wrOff := f.wrOff, rdOff } else none

/-! ## Reading -/

/-- The bytes up to the end of the buffer, where they go on at its start. -/
def readToEnd (r : Ring n) (bufferSize : ℕ) : Option (List Byte × ℕ) :=
  if r.rdOff > r.wrOff then
    let numBytesRem := min (n - r.rdOff) bufferSize
    (slice r.buffer r.rdOff numBytesRem).map fun bytes => (bytes, wrap n (r.rdOff + numBytesRem))
  else some ([], r.rdOff)

/-- "Read remaining items of buffer". -/
def readRemaining (r : Ring n) (rdOff bufferSize : ℕ) : Option (List Byte × ℕ) :=
  let numBytesRem := min (unsignedSub r.wrOff rdOff) bufferSize
  if numBytesRem > 0 then
    (slice r.buffer rdOff numBytesRem).map fun bytes => (bytes, rdOff + numBytesRem)
  else some ([], rdOff)

/-- `SEGGER_RTT_ReadUpBufferNoLock` and `SEGGER_RTT_ReadNoLock`. -/
def readNoLock (r : Ring n) (bufferSize : ℕ) : Option (List Byte × Ring n) := do
  let (first, rdOff) ← readToEnd r bufferSize
  let (second, rdOff) ← readRemaining r rdOff (bufferSize - first.length)
  if first ++ second ≠ [] then
    (offset rdOff).map fun rdOff => (first ++ second, { r with rdOff })
  else some ([], r)

def getKey (r : Ring n) : Option (ℤ × Ring n) := do
  let (bytes, r) ← readNoLock r 1
  match bytes with
  | [c] => some (c.toNat, r)
  | _ => some (-1, r)

def hasKey (r : Ring n) : ℤ := if r.rdOff ≠ r.wrOff then 1 else 0

/-- `SEGGER_RTT_HasData` and `SEGGER_RTT_HasDataUp`. -/
def hasData (r : Ring n) : ℕ := unsignedSub r.wrOff r.rdOff

def getBytesInBuffer (r : Ring n) : ℕ :=
  if r.rdOff ≤ r.wrOff then r.wrOff - r.rdOff else unsignedSub n (unsignedSub r.wrOff r.rdOff)

/-! ## Terminals -/

def aTerminalId : List Byte := text "0123456789ABCDEF"

/-- The up buffer 0 with `_ActiveTerminal`. -/
structure Terminals (n : ℕ) where
  up : Ring n
  activeTerminal : UInt8

/-- The escape sequence for a terminal; the callers check the number. -/
def terminalSwitch (terminalId : UInt8) : List Byte :=
  [0xFF, aTerminalId.getD terminalId.toNat 0]

def postTerminalSwitch (r : Ring n) (terminalId : UInt8) : Option (Ring n × List Byte) :=
  writeBlocking r (terminalSwitch terminalId)

def setTerminal (s : Terminals n) (terminalId : UInt8) : Option (Outcome (Terminals n)) :=
  if terminalId.toNat < aTerminalId.length then
    let ac := terminalSwitch terminalId
    if s.up.flags &&& modeMask = blockIfFifoFull then
      (writeBlocking s.up ac).map fun p =>
        if p.2 = [] then .returns 0 ⟨p.1, terminalId⟩ else .waits ⟨p.1, terminalId⟩ p.2
    else if getAvailWriteSpace s.up ≥ 2 then
      (writeNoCheck s.up ac).map fun up => .returns 0 ⟨up, terminalId⟩
    else some (.returns (-1) s)
  else some (.returns (-1) s)

/-- The text between two switches. Where a part waits, all that follows it is left too. -/
def postOnTerminal (s : Terminals n) (terminalId : UInt8) (str : List Byte) :
    Option (Outcome (Terminals n)) := do
  let switchBack := terminalSwitch s.activeTerminal
  let (up, rest) ← postTerminalSwitch s.up terminalId
  if rest ≠ [] then some (.waits { s with up } (rest ++ str ++ switchBack))
  else do
    let (up, rest) ← writeBlocking up str
    if rest ≠ [] then some (.waits { s with up } (rest ++ switchBack))
    else do
      let (up, rest) ← postTerminalSwitch up s.activeTerminal
      if rest ≠ [] then some (.waits { s with up } rest)
      else some (.returns str.length { s with up })

/-- `s` is a terminated string. -/
def terminalOut (t : Terminals n) (terminalId : UInt8) (s : List Byte) :
    Option (Outcome (Terminals n)) :=
  if terminalId.toNat < aTerminalId.length then
    let str := cString s
    let fragLen := str.length
    let avail := getAvailWriteSpace t.up
    if t.up.flags &&& modeMask = noBlockSkip then
      if avail < fragLen + 4 then some (.returns 0 t) else postOnTerminal t terminalId str
    else if t.up.flags &&& modeMask = noBlockTrim then
      if avail < 4 then some (.returns (-1) t)
      else postOnTerminal t terminalId
        (str.take (if fragLen < avail - 4 then fragLen else avail - 4))
    else if t.up.flags &&& modeMask = blockIfFifoFull then postOnTerminal t terminalId str
    else some (.returns (-1) t)
  else some (.returns (-1) t)

end UsbCdc.SeggerRtt
