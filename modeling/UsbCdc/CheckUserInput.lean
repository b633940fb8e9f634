import UsbCdc.BoundedLoops
import UsbCdc.CStrings
import UsbCdc.Substrings
import UsbCdc.UsbPcdc

/-! # The substring splitter

`checkUserInput` as the code computes it. Pointers into the string are offsets from its
start. The code checks none of them, so a read outside the string and its terminator is
an explicit failure of the model, as is a copy of negative length or into a row that is
not there. -/
namespace UsbCdc.CheckUserInput
open BoundedLoops CStrings Substrings UsbPcdc

def chSpace : Byte := ' '.toUInt8

abbrev OutRow := Vector Byte readBufSize

inductive Fault
  | outside (offset : ℤ)
  | nullPointer
  | negativeLength (length : ℤ)
  | outputRow (row column : ℕ)
deriving DecidableEq

/-- `ptrBuff[p]`, where `s` is the string without its terminator. -/
def load (s : List Byte) (p : ℤ) : Except Fault Byte :=
  if 0 ≤ p then
    match (s ++ [0])[p.toNat]? with
    | some c => .ok c
    | none => .error (.outside p)
  else
    .error (.outside p)

def loads (s : List Byte) (p : ℤ) (c : Byte) : Bool :=
  match load s p with
  | .ok d => d == c
  | .error _ => false

theorem loads_eq_true {s : List Byte} {p : ℤ} {c : Byte} :
    loads s p c = true ↔ 0 ≤ p ∧ (s ++ [0])[p.toNat]? = some c := by
  rw [loads, load]
  by_cases hp : 0 ≤ p
  · rw [if_pos hp]
    cases (s ++ [0])[p.toNat]? with
    | none => simp
    | some d => simp [hp]
  · rw [if_neg hp]
    simp [hp]

private theorem lt_of_loads {s : List Byte} {p : ℤ} {c : Byte} (h : loads s p c = true) :
    0 ≤ p ∧ p < s.length + 1 := by
  obtain ⟨hp, hc⟩ := loads_eq_true.mp h
  obtain ⟨hl, -⟩ := List.getElem?_eq_some_iff.mp hc
  rw [List.length_append, List.length_singleton] at hl
  omega

/-- `while (*start == ' ') start++`. -/
def skipLoop (s : List Byte) : Loop ℤ where
  guard start := loads s start chSpace
  body start := start + 1
  measure start := ((s.length : ℤ) + 1 - start).toNat
  decreases start h := by
    have hl := lt_of_loads h
    omega

/-- `while (*end == ' ') end--`. -/
def backLoop (s : List Byte) : Loop ℤ where
  guard stop := loads s stop chSpace
  body stop := stop - 1
  measure stop := (stop + 1).toNat
  decreases stop h := by
    have hl := lt_of_loads h
    omega

/-- `p[0] == c && p[1] == d`; the second byte is not read if the first one differs. -/
def loadsPair (s : List Byte) (p : ℤ) (c d : Byte) : Except Fault Bool := do
  if (← load s p) = c then
    return decide ((← load s (p + 1)) = d)
  else
    return false

/-- A pointer that a string function may start from. -/
def InString (s : List Byte) (p : ℤ) : Prop := 0 ≤ p ∧ p ≤ s.length

instance (s : List Byte) (p : ℤ) : Decidable (InString s p) := inferInstanceAs (Decidable (_ ∧ _))

def strlenAt (s : List Byte) (p : ℤ) : Except Fault ℤ :=
  if InString s p then .ok (strlen (s.drop p.toNat)) else .error (.outside p)

/-- `none` is the null pointer. -/
def strstr (s : List Byte) (p : ℤ) (needle : List Byte) : Except Fault (Option ℤ) :=
  if InString s p then
    .ok ((firstIndex needle (cString (s.drop p.toNat))).map (fun k : ℕ => p + k))
  else
    .error (.outside p)

/-- Pads with zeros behind the end of `src`. -/
def strncpy {n : ℕ} (dst : Vector Byte n) (src : List Byte) (count : ℕ) : Vector Byte n :=
  Vector.ofFn (fun i => if i < count then (cString src).getD i 0 else dst.get i)

/-- The two statements that store a command in row `k`. -/
def copyCommand (s : List Byte) (ptrBuffOut : List OutRow) (k : ℕ) (start : ℤ) :
    Option ℤ → Except Fault (List OutRow)
  | none => .error .nullPointer
  | some stop =>
    if stop < start then
      .error (.negativeLength (stop - start))
    else
      let n := (stop - start).toNat
      match ptrBuffOut[k]? with
      | some row =>
        if n < readBufSize then
          .ok (ptrBuffOut.set k ((strncpy row (s.drop start.toNat) n).setIfInBounds n 0))
        else
          .error (.outputRow k n)
      | none => .error (.outputRow k n)

structure SplitFrame where
  start : ℤ
  countCmds : ℕ
  ptrBuffOut : List OutRow

/-- The condition of the splitting loop, with the assignment in it. -/
def nextCommand (s : List Byte) (f : SplitFrame) : Except Fault (Option ℤ) :=
  strstr s (f.start + 1) (text "AT")

def splitStep (s : List Byte) (f : SplitFrame) : Except Fault SplitFrame := do
  match ← nextCommand s f with
  | none => return f
  | some stop =>
    let ptrBuffOut ← copyCommand s f.ptrBuffOut (f.countCmds - 1) f.start (some stop)
    return ⟨stop, f.countCmds + 1, ptrBuffOut⟩

def splitGuard (s : List Byte) : Except Fault SplitFrame → Bool
  | .ok f =>
    match nextCommand s f with
    | .ok (some _) => true
    | _ => false
  | .error _ => false

def splitMeasure (s : List Byte) : Except Fault SplitFrame → ℕ
  | .ok f => ((s.length : ℤ) + 1 - f.start).toNat
  | .error _ => 0

theorem strstr_ok {s : List Byte} {p : ℤ} {needle : List Byte} {stop : ℤ}
    (h : strstr s p needle = .ok (some stop)) : InString s p ∧ p ≤ stop := by
  rw [strstr] at h
  split at h
  · rename_i hp
    obtain ⟨k, -, hk⟩ := Option.map_eq_some_iff.mp (Except.ok.inj h)
    exact ⟨hp, by omega⟩
  · cases h

private theorem splitStep_decreases {s : List Byte} {f : SplitFrame}
    (h : splitGuard s (.ok f) = true) :
    splitMeasure s (splitStep s f) < splitMeasure s (.ok f) := by
  rw [splitGuard] at h
  split at h
  · rename_i stop hn
    obtain ⟨hin, hle⟩ := strstr_ok hn
    obtain ⟨-, hlen⟩ := hin
    rw [splitStep, hn]
    change splitMeasure s ((copyCommand s f.ptrBuffOut (f.countCmds - 1) f.start (some stop)).bind
      (fun rows => .ok ⟨stop, f.countCmds + 1, rows⟩)) < _
    cases copyCommand s f.ptrBuffOut (f.countCmds - 1) f.start (some stop) with
    | error e =>
      simp only [Except.bind, splitMeasure]
      omega
    | ok rows =>
      simp only [Except.bind, splitMeasure]
      omega
  · cases h

def splitLoop (s : List Byte) : Loop (Except Fault SplitFrame) where
  guard := splitGuard s
  body r := r.bind (splitStep s)
  measure := splitMeasure s
  decreases r h := by
    cases r with
    | error e => cases h
    | ok f => exact splitStep_decreases h

/-- The splitting loop and the last command, which ends at a line end. -/
def splitCommands (s : List Byte) (start : ℤ) (ptrBuffOut : List OutRow) :
    Except Fault (ℤ × List OutRow) := do
  let f ← (splitLoop s).run (.ok ⟨start, 1, ptrBuffOut⟩)
  let stop ← strstr s (f.start + 1) (text "\r\n")
  let ptrBuffOut ← copyCommand s f.ptrBuffOut (f.countCmds - 1) f.start stop
  return (f.countCmds, ptrBuffOut)

/-- `start` behind the leading spaces, and behind an `AT` that another one follows. -/
def findStart (s : List Byte) : Except Fault (Option ℤ) := do
  let start := (skipLoop s).run 0
  if ← loadsPair s start chA chT then
    if ← loadsPair s (start + 2) chA chT then
      return some (start + (text "AT").length)
    else
      return some start
  else
    return none

/-- The check for a line end in front of the trailing spaces. -/
def endsLine (s : List Byte) (start : ℤ) : Except Fault Bool := do
  let length ← strlenAt s start
  let stop := (backLoop s).run (start + length - 1)
  -- the read on which the loop has stopped
  let _ ← load s stop
  loadsPair s (stop - ((text "\r\n").length - 1)) chCR chLF

/-- `none` is the null pointer. -/
def checkUserInput (ptrBuff : Option (List Byte)) (buffSize : ℕ) (ptrBuffOut : List OutRow) :
    Except Fault (ℤ × List OutRow) :=
  match ptrBuff with
  | none => .ok (-1, ptrBuffOut)
  | some s =>
    if buffSize = 0 then
      .ok (-1, ptrBuffOut)
    else do
      match ← findStart s with
      | none => return (-1, ptrBuffOut)
      | some start =>
        if ← endsLine s start then splitCommands s start ptrBuffOut else return (-1, ptrBuffOut)

end UsbCdc.CheckUserInput
