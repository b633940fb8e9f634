import UsbCdc.RingBuf

/-! # The AT command parser

`parseData` as the code computes it. Rows and columns of `commands` are not checked
there, so a store outside the array is an explicit failure of the model. -/
namespace UsbCdc.ParseData
open BoundedLoops CStrings RingBuf

def maxCmdSupport : ℕ := 10

inductive ParseState where
  | stateIdle | stateAt | stateCmd | stateCr | stateLf
  deriving DecidableEq

inductive ParseResult where
  | validAt | invalidAt
  deriving DecidableEq

/-- The subscripts of an access outside `commands`. -/
structure OutOfBounds where
  row : ℕ
  column : ℕ
  deriving DecidableEq

structure CavATCommandParser where
  commands : Vector (Vector Byte ringBufferSize) maxCmdSupport
  commandCount : ℕ

/-- Static storage starts zeroed. -/
instance : Inhabited CavATCommandParser :=
  ⟨⟨Vector.replicate maxCmdSupport (Vector.replicate ringBufferSize 0), 0⟩⟩

namespace CavATCommandParser

/-- `parser->commands[i][j] = c`. -/
def store (p : CavATCommandParser) (i j : ℕ) (c : Byte) : Except OutOfBounds CavATCommandParser :=
  if h : i < maxCmdSupport ∧ j < ringBufferSize then
    have hi := h.1
    have hj := h.2
    .ok { p with commands := p.commands.set i (p.commands[i].set j c) }
  else
    .error ⟨i, j⟩

/-- The bytes of `parser->commands[k]`. -/
def row (p : CavATCommandParser) (k : ℕ) : List Byte :=
  (p.commands[k]?.map Vector.toList).getD []

/-- The C strings in the rows that `commandCount` announces. -/
def strings (p : CavATCommandParser) : List (List Byte) :=
  (List.range p.commandCount).map (fun k => cString (p.row k))

end CavATCommandParser

def cleanParserData (_ : CavATCommandParser) : CavATCommandParser where
  commands := Vector.replicate maxCmdSupport (Vector.replicate ringBufferSize 0)
  commandCount := 0

/-- The locals of `parseData` between two iterations, with the parser it fills. -/
structure Frame where
  parser : CavATCommandParser
  commandIndex : ℕ
  readIndex : ℕ
  ret : ParseResult
  state : ParseState

def parseStep (input : List Byte) (f : Frame) : Except OutOfBounds Frame :=
  let currentChar := input.getD f.readIndex 0
  let f := { f with readIndex := f.readIndex + 1 }
  let count := f.parser.commandCount
  match f.state with
  | .stateIdle =>
    if currentChar = chA then do
      let parser ← f.parser.store count f.commandIndex currentChar
      return { f with parser, commandIndex := f.commandIndex + 1, state := .stateAt }
    else
      return f
  | .stateAt =>
    if currentChar = chT then do
      let parser ← f.parser.store count f.commandIndex currentChar
      return { f with parser, commandIndex := f.commandIndex + 1, state := .stateCmd }
    else if currentChar = chA then
      return f
    else
      return { f with commandIndex := 0, state := .stateIdle }
  | .stateCmd => do
    let parser ← f.parser.store count f.commandIndex currentChar
    let f := { f with parser, commandIndex := f.commandIndex + 1 }
    if currentChar = chCR then
      return { f with state := .stateCr }
    else
      return f
  | .stateCr =>
    if currentChar = chLF then do
      let parser ← f.parser.store count f.commandIndex currentChar
      let parser ← parser.store count (f.commandIndex + 1) 0
      return { f with
        parser := { parser with commandCount := count + 1 }
        commandIndex := 0
        ret := .validAt
        state := .stateIdle }
    else
      -- the byte is read again in the idle state
      return { f with commandIndex := 0, readIndex := f.readIndex - 1, state := .stateIdle }
  | .stateLf => return { f with state := .stateIdle }

def parseGuard (input : List Byte) : Except OutOfBounds Frame → Bool
  | .ok f => decide (f.readIndex < input.length)
  | .error _ => false

def parseMeasure (input : List Byte) : Except OutOfBounds Frame → ℕ
  | .ok f => 2 * (input.length - f.readIndex) + (if f.state = .stateCr then 1 else 0)
  | .error _ => 0

theorem bind_eq_ok {ε α β : Type} {x : Except ε α} {g : α → Except ε β} {b : β} :
    (x >>= g) = .ok b ↔ ∃ a, x = .ok a ∧ g a = .ok b := by
  cases x <;> simp [bind, Except.bind]

/-- An iteration consumes a byte, or leaves `stateCr` to read its byte again. -/
theorem parseStep_reads {input : List Byte} {f f' : Frame} (h : parseStep input f = .ok f') :
    f'.readIndex = f.readIndex + 1 ∨
      f.state = .stateCr ∧ f'.state = .stateIdle ∧ f'.readIndex = f.readIndex := by
  cases hs : f.state with
  | stateIdle =>
    simp only [parseStep, hs] at h
    split at h
    · obtain ⟨p, -, hp⟩ := bind_eq_ok.mp h
      cases hp
      exact Or.inl rfl
    · cases h
      exact Or.inl rfl
  | stateAt =>
    simp only [parseStep, hs] at h
    split at h
    · obtain ⟨p, -, hp⟩ := bind_eq_ok.mp h
      cases hp
      exact Or.inl rfl
    · split at h <;> cases h <;> exact Or.inl rfl
  | stateCmd =>
    simp only [parseStep, hs] at h
    obtain ⟨p, -, hp⟩ := bind_eq_ok.mp h
    split at hp <;> cases hp <;> exact Or.inl rfl
  | stateCr =>
    simp only [parseStep, hs] at h
    split at h
    · obtain ⟨p, -, h⟩ := bind_eq_ok.mp h
      obtain ⟨q, -, h⟩ := bind_eq_ok.mp h
      cases h
      exact Or.inl rfl
    · cases h
      exact Or.inr ⟨rfl, rfl, rfl⟩
  | stateLf =>
    simp only [parseStep, hs] at h
    cases h
    exact Or.inl rfl

private theorem parseStep_decreases {input : List Byte} {f : Frame}
    (h : f.readIndex < input.length) :
    parseMeasure input (parseStep input f) < parseMeasure input (.ok f) := by
  cases hr : parseStep input f with
  | error e =>
    simp only [parseMeasure]
    omega
  | ok f' =>
    simp only [parseMeasure]
    rcases parseStep_reads hr with hn | ⟨hs, hs', hn⟩
    · split <;> split <;> omega
    · simp [hs, hs', hn]

def parseLoop (input : List Byte) : Loop (Except OutOfBounds Frame) where
  guard := parseGuard input
  body := fun r => r.bind (parseStep input)
  measure := parseMeasure input
  decreases r h := by
    cases r with
    | error e => simp [parseGuard] at h
    | ok f => exact parseStep_decreases (by simpa [parseGuard] using h)

def parseStart (parser : CavATCommandParser) : Frame where
  parser := { parser with commandCount := 0 }
  commandIndex := 0
  readIndex := 0
  ret := .invalidAt
  state := .stateIdle

/-- `input` lists the `input_length` bytes that the loop may read. -/
def parseData (parser : CavATCommandParser) (input : List Byte) :
    Except OutOfBounds (CavATCommandParser × ParseResult) := do
  let f ← (parseLoop input).run (.ok (parseStart parser))
  return (f.parser, f.ret)

end UsbCdc.ParseData
