import UsbCdc.CStrings
import UsbCdc.LeftmostMatches
import UsbCdc.Transducers

/-! # The command grammar and a scanner for it

A command is `AT`, a body without carriage return, and `\r\n`. The scanner reads one
byte at a time and emits a command at its line feed; what it emits are the successive
leftmost matches of the grammar. -/
namespace UsbCdc.CommandGrammar
open CStrings LeftmostMatches Transducers

def IsCommand (m : List Byte) : Prop :=
  ∃ body, chCR ∉ body ∧ m = chA :: chT :: (body ++ [chCR, chLF])

/-- How much of a command has been seen; `body` and `sawCR` keep the text behind `AT`. -/
inductive Progress where
  | idle
  | sawA
  | body (line : List Byte)
  | sawCR (line : List Byte)
  deriving DecidableEq

namespace Progress

def pending : Progress → List Byte
  | idle => []
  | sawA => [chA]
  | body line => chA :: chT :: line
  | sawCR line => chA :: chT :: (line ++ [chCR])

/-- The state after a byte that cannot continue the command under way. -/
def restart (c : Byte) : Progress := if c = chA then sawA else idle

def step : Progress → Byte → Progress
  | idle, c => restart c
  | sawA, c => if c = chT then body [] else restart c
  | body line, c => if c = chCR then sawCR line else body (line ++ [c])
  | sawCR _, c => if c = chLF then idle else restart c

def emit : Progress → Byte → List (List Byte)
  | sawCR line, c => if c = chLF then [chA :: chT :: (line ++ [chCR, chLF])] else []
  | _, _ => []

/-- The remembered text is a piece of a line. -/
def Clean : Progress → Prop
  | body line | sawCR line => chCR ∉ line
  | _ => True

end Progress

def scanner : Transducer Progress Byte (List Byte) := ⟨Progress.step, Progress.emit⟩

/-- The complete commands in `s`, in order. -/
def commandsIn (s : List Byte) : List (List Byte) := scanner.output .idle s

theorem commandsIn_snoc (s : List Byte) (c : Byte) :
    commandsIn (s ++ [c]) = commandsIn s ++ (scanner.after .idle s).emit c :=
  scanner.output_snoc .idle s c

theorem after_snoc (s : List Byte) (c : Byte) :
    scanner.after .idle (s ++ [c]) = (scanner.after .idle s).step c :=
  scanner.after_append .idle s [c]

private theorem cut_at_first {x : Byte} {u w r z : List Byte} (hu : x ∉ u) (hw : x ∉ w)
    (h : u ++ x :: r = w ++ x :: z) : u = w ∧ r = z := by
  rcases List.append_eq_append_iff.mp h with ⟨a, rfl, ha⟩ | ⟨a, rfl, ha⟩
  · cases a with
    | nil => simpa using ha
    | cons b a =>
      obtain ⟨rfl, -⟩ := List.cons_eq_cons.mp ha
      simp at hw
  · cases a with
    | nil => simpa [eq_comm] using ha
    | cons b a =>
      obtain ⟨rfl, -⟩ := List.cons_eq_cons.mp ha
      simp at hu

/-- A command reaches up to the line feed behind the first carriage return. -/
theorem IsCommand.line {m r w z : List Byte} (hm : IsCommand m) (hw : chCR ∉ w)
    (h : m ++ r = w ++ chCR :: z) : m = w ++ [chCR, chLF] ∧ z = chLF :: r := by
  obtain ⟨body, hb, rfl⟩ := hm
  have hu : chCR ∉ chA :: chT :: body := by
    simp [hb, chA_ne_chCR.symm, chT_ne_chCR.symm]
  have hs : (chA :: chT :: body) ++ chCR :: (chLF :: r) = w ++ chCR :: z := by
    simpa using h
  obtain ⟨rfl, rfl⟩ := cut_at_first hu hw hs
  exact ⟨by simp, rfl⟩

theorem IsCommand.chCR_mem {m : List Byte} (hm : IsCommand m) : chCR ∈ m := by
  obtain ⟨body, -, rfl⟩ := hm
  simp

theorem IsCommand.four_le_length {m : List Byte} (hm : IsCommand m) : 4 ≤ m.length := by
  obtain ⟨body, -, rfl⟩ := hm
  simp

theorem not_isCommand_nil : ¬ IsCommand [] := fun h => absurd h.four_le_length (by decide)

theorem isCommand_endsOnce : EndsOnce IsCommand := by
  intro a m b hm h
  by_cases ha : chCR ∈ a
  · -- the carriage return of the outer command would come too early
    obtain ⟨u, v, rfl, hu⟩ := List.eq_append_cons_of_mem ha
    obtain ⟨-, hz⟩ := h.line (r := []) (z := v ++ m ++ b) hu (by simp)
    have hlen := congrArg List.length hz
    have hm4 := hm.four_le_length
    simp only [List.length_append, List.length_cons, List.length_nil] at hlen
    omega
  · obtain ⟨body, hb, rfl⟩ := hm
    have hw : chCR ∉ a ++ chA :: chT :: body := by
      simp [ha, hb, chA_ne_chCR.symm, chT_ne_chCR.symm]
    obtain ⟨-, hz⟩ := h.line (r := []) (z := chLF :: b) hw (by simp)
    exact (List.cons_eq_cons.mp hz).2

/-- A stretch that cannot begin with a command has none starting at its first byte. -/
private theorem barren_cons {c : Byte} {d z : List Byte}
    (hc : ∀ m r, c :: (d ++ z) = m ++ r → ¬ IsCommand m) (h : Barren IsCommand d z) :
    Barren IsCommand (c :: d) z := by
  intro pre m r hs hm
  cases pre with
  | nil => exact absurd hm (hc m r (by simpa using hs))
  | cons b pre =>
    have ht : d ++ z = pre ++ m ++ r := by simpa using (List.cons_eq_cons.mp hs).2
    simpa using h pre m r ht hm

private theorem barren_of_ne {c : Byte} (z : List Byte) (hc : c ≠ chA) :
    Barren IsCommand [c] z := by
  refine barren_cons ?_ (.nil z)
  rintro m r hs ⟨body, -, rfl⟩
  exact hc (List.cons_eq_cons.mp hs).1

private theorem barren_chA {c : Byte} (z : List Byte) (hc : c ≠ chT) :
    Barren IsCommand [chA] (c :: z) := by
  refine barren_cons ?_ (.nil _)
  rintro m r hs ⟨body, -, rfl⟩
  have ht := (List.cons_eq_cons.mp hs).2
  exact hc (List.cons_eq_cons.mp ht).1

/-- A line whose carriage return is not followed by a line feed has no command in it. -/
private theorem barren_line {w z : List Byte} (hw : chCR ∉ w) (hz : ∀ r, z ≠ chLF :: r) :
    Barren IsCommand (w ++ [chCR]) z := by
  intro pre m r hs hm
  by_contra hlt
  simp only [List.length_append, List.length_singleton, not_le] at hlt
  have hcat : w ++ (chCR :: z) = pre ++ (m ++ r) := by simpa using hs
  rcases List.append_eq_append_iff.mp hcat with ⟨a, rfl, ha⟩ | ⟨a, rfl, ha⟩
  · have h0 : a = [] := by
      rw [List.length_append] at hlt
      exact List.eq_nil_of_length_eq_zero (by omega)
    subst h0
    exact hz r (hm.line (w := []) (by simp) ha.symm).2
  · have haw : chCR ∉ a := fun h => hw (List.mem_append_right pre h)
    exact hz r (hm.line haw ha).2

private theorem barren_of_notMem {d : List Byte} (hd : chCR ∉ d) : Barren IsCommand d [] := by
  intro pre m r hs hm
  refine absurd ?_ hd
  rw [List.append_nil] at hs
  rw [hs]
  simp [hm.chCR_mem]

private theorem chCR_notMem_line {line : List Byte} (h : chCR ∉ line) :
    chCR ∉ chA :: chT :: line := by
  simp [h, chA_ne_chCR.symm, chT_ne_chCR.symm]

private theorem barren_pending {s : Progress} (hs : s.Clean) : Barren IsCommand s.pending [] := by
  cases s with
  | idle => exact .nil _
  | sawA => exact barren_of_notMem (by simp [Progress.pending, chA_ne_chCR.symm])
  | body line => exact barren_of_notMem (chCR_notMem_line hs)
  | sawCR line =>
    exact barren_line (w := chA :: chT :: line) (chCR_notMem_line hs) (fun r h => by cases h)

/-- What the scanner has found in `x` when it is in state `s`: the commands `ms`, and
behind them text that no command can start in, up to the pending bytes. -/
def Scanned (x : List Byte) (ms : List (List Byte)) (s : Progress) : Prop :=
  s.Clean ∧ ∃ skipped, Matches IsCommand x ms (skipped ++ s.pending) ∧
    ∀ y, Barren IsCommand skipped (s.pending ++ y)

/-- A byte without output only decides how much of the text stays pending. -/
private theorem Scanned.move {x : List Byte} {ms : List (List Byte)} {s t : Progress} {c : Byte}
    (h : Scanned x ms s) (ht : t.Clean) (d : List Byte) (he : s.pending ++ [c] = d ++ t.pending)
    (hd : ∀ y, Barren IsCommand d (t.pending ++ y)) : Scanned (x ++ [c]) ms t := by
  obtain ⟨-, skipped, hm, hb⟩ := h
  refine ⟨ht, skipped ++ d, ?_, ?_⟩
  · have hx := hm.append isCommand_endsOnce [c]
    rwa [List.append_assoc, he, ← List.append_assoc] at hx
  · intro y
    refine Barren.append ?_ (hd y)
    have hy := hb (c :: y)
    rwa [List.append_cons, he, List.append_assoc] at hy

private theorem Scanned.restart {x : List Byte} {ms : List (List Byte)} {s : Progress} {c : Byte}
    (h : Scanned x ms s) (hd : ∀ y, Barren IsCommand s.pending (c :: y)) :
    Scanned (x ++ [c]) ms (.restart c) := by
  by_cases hc : c = chA
  · subst hc
    rw [Progress.restart, if_pos rfl]
    exact h.move trivial s.pending rfl hd
  · rw [Progress.restart, if_neg hc]
    refine h.move trivial (s.pending ++ [c]) (by simp [Progress.pending]) ?_
    intro y
    exact Barren.append (hd y) (barren_of_ne _ hc)

/-- At a command's line feed nothing is left over. -/
theorem Scanned.complete {x line : List Byte} {ms : List (List Byte)}
    (h : Scanned x ms (.sawCR line)) :
    Matches IsCommand (x ++ [chLF]) (ms ++ [chA :: chT :: (line ++ [chCR, chLF])]) [] := by
  obtain ⟨hl, skipped, hm, hb⟩ := h
  have hx := hm.append isCommand_endsOnce [chLF]
  apply hx.snoc
  have hi : IsCommand (chA :: chT :: (line ++ [chCR, chLF])) := ⟨line, hl, rfl⟩
  have hf := Barren.firstMatch (r := []) (by simpa [Progress.pending] using hb [chLF]) hi
  simpa [Progress.pending] using hf

/-- One byte more. -/
theorem scanned_step {x : List Byte} {ms : List (List Byte)} {s : Progress}
    (h : Scanned x ms s) (c : Byte) : Scanned (x ++ [c]) (ms ++ s.emit c) (s.step c) := by
  have hs := h.1
  cases s with
  | idle =>
    rw [Progress.emit, List.append_nil]
    · exact h.restart (fun y => .nil _)
    · simp
  | sawA =>
    rw [Progress.emit, List.append_nil, Progress.step]
    · by_cases hc : c = chT
      · subst hc
        rw [if_pos rfl]
        exact h.move (by simp [Progress.Clean]) [] rfl (fun y => .nil _)
      · rw [if_neg hc]
        exact h.restart (fun y => barren_chA y hc)
    · simp
  | body line =>
    rw [Progress.emit, List.append_nil, Progress.step]
    · by_cases hc : c = chCR
      · subst hc
        rw [if_pos rfl]
        exact h.move hs [] rfl (fun y => .nil _)
      · rw [if_neg hc]
        have hl : chCR ∉ line ++ [c] := by
          simp only [List.mem_append, List.mem_singleton, not_or]
          exact ⟨hs, fun he => hc he.symm⟩
        exact h.move hl [] rfl (fun y => .nil _)
    · simp
  | sawCR line =>
    by_cases hc : c = chLF
    · subst hc
      refine ⟨by simp [Progress.step, Progress.Clean], [], ?_, fun y => .nil _⟩
      simpa [Progress.emit, Progress.step, Progress.pending] using h.complete
    · rw [Progress.emit, if_neg hc, List.append_nil, Progress.step, if_neg hc]
      refine h.restart (fun y => barren_line (w := chA :: chT :: line) (chCR_notMem_line hs) ?_)
      intro r he
      exact hc (List.cons_eq_cons.mp he).1

/-- The scanner's output is a list of first matches at every point of the input. -/
theorem scanned (x : List Byte) : Scanned x (commandsIn x) (scanner.after .idle x) := by
  induction x using List.reverseRecOn with
  | nil => exact ⟨trivial, [], .nil [], fun y => .nil _⟩
  | append_singleton x c ih =>
    have h := scanned_step ih c
    rwa [← commandsIn_snoc, ← after_snoc] at h

theorem allMatches_commandsIn (s : List Byte) : AllMatches IsCommand s (commandsIn s) := by
  obtain ⟨hc, skipped, hm, hb⟩ := scanned s
  refine ⟨_, hm, Barren.noMatch (Barren.append ?_ (barren_pending hc)) not_isCommand_nil⟩
  exact hb []

theorem isCommand_of_mem {s m : List Byte} (h : m ∈ commandsIn s) : IsCommand m ∧ m <:+: s := by
  obtain ⟨rest, hm, -⟩ := allMatches_commandsIn s
  exact hm.occurs h

/-- The scanner computes the successive leftmost matches, and nothing else does. -/
theorem allMatches_iff {s : List Byte} {ms : List (List Byte)} :
    AllMatches IsCommand s ms ↔ ms = commandsIn s := by
  constructor
  · intro h
    exact h.unique isCommand_endsOnce (allMatches_commandsIn s)
  · rintro rfl
    exact allMatches_commandsIn s

end UsbCdc.CommandGrammar
