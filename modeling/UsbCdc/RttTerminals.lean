import UsbCdc.LabelledRuns
import UsbCdc.SeggerRttRefinement
import UsbCdc.Transducers

/-! # Terminals in one stream

Several terminals share the up buffer 0: an escape sequence names the one that the bytes
after it are for. The host takes the stream apart again; what it shows on a terminal is
what was written for it, whatever the buffer skipped, trimmed or made wait. -/
namespace UsbCdc.RttTerminals
open CStrings LabelledRuns SeggerRtt Transducers

/-! ## The host's side -/

/-- The terminal that the next byte is for, or whose escape sequence has begun. -/
inductive Display
  | on (terminalId : UInt8)
  | escaped (terminalId : UInt8)

namespace Display

def step : Display → Byte → Display
  | on t, c => if c = 0xFF then escaped t else on t
  | escaped _, c => on (aTerminalId.idxOf c).toUInt8

def emit : Display → Byte → List (UInt8 × Byte)
  | on t, c => if c = 0xFF then [] else [(t, c)]
  | escaped _, _ => []

end Display

def display : Transducer Display Byte (UInt8 × Byte) := ⟨Display.step, Display.emit⟩

/-- Text that no escape sequence can begin in. -/
def Plain (d : List Byte) : Prop := 0xFF ∉ d

instance (d : List Byte) : Decidable (Plain d) := inferInstanceAs (Decidable (0xFF ∉ d))

theorem Plain.take {d : List Byte} (h : Plain d) (k : ℕ) : Plain (d.take k) :=
  fun hm => h (List.mem_of_mem_take hm)

theorem display_plain {d : List Byte} (h : Plain d) (t : UInt8) :
    display.after (.on t) d = .on t ∧ display.output (.on t) d = d.map fun c => (t, c) := by
  induction d with
  | nil => exact ⟨rfl, rfl⟩
  | cons c d ih =>
    have hc : c ≠ 0xFF := fun he => h (he ▸ List.mem_cons_self)
    have hstep : display.step (.on t) c = .on t := if_neg hc
    have hemit : display.emit (.on t) c = [(t, c)] := if_neg hc
    obtain ⟨ha, ho⟩ := ih (fun hm => h (List.mem_cons_of_mem _ hm))
    rw [Transducer.after_cons, Transducer.output_cons, hstep, hemit, ha, ho]
    exact ⟨rfl, rfl⟩

private theorem idxOf_aTerminalId {t : ℕ} (h : t < aTerminalId.length) :
    aTerminalId.idxOf (aTerminalId.getD t 0) = t := by
  have hall : ∀ t < 16, aTerminalId.idxOf (aTerminalId.getD t 0) = t := by decide
  exact hall t h

theorem display_switch {t : UInt8} (h : t.toNat < aTerminalId.length) (s : UInt8) :
    display.after (.on s) (terminalSwitch t) = .on t ∧
      display.output (.on s) (terminalSwitch t) = [] := by
  constructor
  · change Display.on (aTerminalId.idxOf (aTerminalId.getD t.toNat 0)).toUInt8 = .on t
    rw [idxOf_aTerminalId h]
    congr 1
    exact UInt8.ofNat_toNat
  · rfl

/-! ## The calls -/

variable {n : ℕ}

private theorem drop_ne_nil_iff {xs : List Byte} {k : ℕ} : xs.drop k ≠ [] ↔ ¬ xs.length ≤ k :=
  not_congr List.drop_eq_nil_iff

/-- What is posted after a text that fitted is posted as with it. -/
private theorem writeBlocking_push {r : Ring n} {xs : List Byte}
    (h : xs.length ≤ getAvailWriteSpace r) (ys : List Byte) :
    writeBlocking (r.push xs) ys = some (r.push ((xs ++ ys).take (getAvailWriteSpace r)),
      (xs ++ ys).drop (getAvailWriteSpace r)) := by
  obtain ⟨k, hk⟩ := Nat.exists_eq_add_of_le h
  rw [writeBlocking_eq, getAvailWriteSpace_push h, hk, Nat.add_sub_cancel_left, ← Ring.push_append,
    List.take_length_add_append, List.drop_length_add_append]

/-- The escape sequences around a text are posted with it as one piece. -/
theorem postOnTerminal_eq (s : Terminals n) (terminalId : UInt8) (str : List Byte) :
    let full := terminalSwitch terminalId ++ str ++ terminalSwitch s.activeTerminal
    postOnTerminal s terminalId str =
      if full.length ≤ getAvailWriteSpace s.up then
        some (.returns str.length { s with up := s.up.push full })
      else some (.waits { s with up := s.up.push (full.take (getAvailWriteSpace s.up)) }
        (full.drop (getAvailWriteSpace s.up))) := by
  intro full
  have hlen : full.length = (terminalSwitch terminalId ++ str).length +
      (terminalSwitch s.activeTerminal).length := List.length_append
  have hlen' : (terminalSwitch terminalId ++ str).length =
      (terminalSwitch terminalId).length + str.length := List.length_append
  simp only [postOnTerminal, postTerminalSwitch, Option.bind_eq_bind]
  rw [writeBlocking_eq, Option.bind_some]
  simp only [drop_ne_nil_iff]
  by_cases h1 : (terminalSwitch terminalId).length ≤ getAvailWriteSpace s.up
  · rw [if_neg (not_not.mpr h1), List.take_of_length_le h1, writeBlocking_push h1, Option.bind_some]
    simp only [drop_ne_nil_iff]
    by_cases h2 : (terminalSwitch terminalId ++ str).length ≤ getAvailWriteSpace s.up
    · rw [if_neg (not_not.mpr h2), List.take_of_length_le h2, writeBlocking_push h2,
        Option.bind_some]
      simp only [drop_ne_nil_iff]
      by_cases h3 : full.length ≤ getAvailWriteSpace s.up
      · rw [if_neg (not_not.mpr h3), if_pos h3, List.take_of_length_le h3]
      · rw [if_pos h3, if_neg h3]
    · rw [if_pos h2, if_neg (by omega)]
      have hle : getAvailWriteSpace s.up ≤ (terminalSwitch terminalId ++ str).length := by omega
      rw [List.take_append_of_le_length hle, List.drop_append_of_le_length hle]
  · rw [if_pos h1, if_neg (by omega)]
    have hle : getAvailWriteSpace s.up ≤ (terminalSwitch terminalId).length := by omega
    have hle' : getAvailWriteSpace s.up ≤ (terminalSwitch terminalId ++ str).length := by omega
    rw [List.take_append_of_le_length hle', List.take_append_of_le_length hle,
      List.drop_append_of_le_length hle', List.drop_append_of_le_length hle]

inductive Call
  | setTerminal (terminalId : UInt8)
  | terminalOut (terminalId : UInt8) (s : List Byte)
  | write (pData : List Byte)
  | putChar (c : Byte)

def onUp (s : Terminals n) : Outcome (Ring n) → Outcome (Terminals n)
  | .returns status up => .returns status { s with up }
  | .waits up rest => .waits { s with up } rest

def perform (s : Terminals n) : Call → Option (Outcome (Terminals n))
  | .setTerminal terminalId => SeggerRtt.setTerminal s terminalId
  | .terminalOut terminalId str => SeggerRtt.terminalOut s terminalId str
  | .write pData => (writeNoLock s.up pData).map (onUp s)
  | .putChar c => (SeggerRtt.putChar s.up c).map (onUp s)

def Call.terminal (active : UInt8) : Call → UInt8
  | .terminalOut terminalId _ => terminalId
  | _ => active

def Call.str : Call → List Byte
  | .setTerminal _ => []
  | .terminalOut _ s => cString s
  | .write pData => pData
  | .putChar c => [c]

/-- As much of its text as a call reports, all of it if it waits. -/
def Call.written (active : UInt8) (call : Call) : Outcome (Terminals n) → List (UInt8 × Byte)
  | .returns status _ => (call.str.take status.toNat).map fun c => (call.terminal active, c)
  | .waits _ _ => call.str.map fun c => (call.terminal active, c)

/-- What a call puts into the stream, now or while it waits. -/
inductive Posts (s : Terminals n) (full : List Byte) (active : UInt8) : Outcome (Terminals n) → Prop
  | returns (status : ℤ) (h : full.length ≤ getAvailWriteSpace s.up) :
    Posts s full active (.returns status ⟨s.up.push full, active⟩)
  | waits : Posts s full active
    (.waits ⟨s.up.push (full.take (getAvailWriteSpace s.up)), active⟩
      (full.drop (getAvailWriteSpace s.up)))

/-- A call puts into the stream what shows its text on its terminal. -/
structure Routes (s : Terminals n) (call : Call) (o : Outcome (Terminals n)) (full : List Byte)
    (active : UInt8) : Prop where
  posts : Posts s full active o
  valid : active.toNat < aTerminalId.length
  after : display.after (.on s.activeTerminal) full = .on active
  output : display.output (.on s.activeTerminal) full = call.written s.activeTerminal o

private theorem routes_nothing {s : Terminals n} {call : Call} {status : ℤ}
    (ha : s.activeTerminal.toNat < aTerminalId.length) (h : call.str.take status.toNat = []) :
    Routes s call (.returns status s) [] s.activeTerminal := by
  refine ⟨@Posts.returns _ _ [] _ status (Nat.zero_le _), ha, rfl, ?_⟩
  rw [Call.written, h]
  rfl

private theorem routes_plain {s : Terminals n} {call : Call} {o : Outcome (Terminals n)}
    {d : List Byte} (ha : s.activeTerminal.toNat < aTerminalId.length) (hd : Plain d)
    (hp : Posts s d s.activeTerminal o)
    (hw : call.written s.activeTerminal o = d.map fun c => (s.activeTerminal, c)) :
    Routes s call o d s.activeTerminal := by
  obtain ⟨hafter, hout⟩ := display_plain hd s.activeTerminal
  exact ⟨hp, ha, hafter, hout.trans hw.symm⟩

private theorem length_terminalSwitch (t : UInt8) : (terminalSwitch t).length = 2 := rfl

/-- A text between escape sequences, where it is trimmed only if it fits then. -/
private theorem routes_posted {s : Terminals n} {terminalId : UInt8} {str d : List Byte}
    (ha : s.activeTerminal.toNat < aTerminalId.length)
    (hid : terminalId.toNat < aTerminalId.length) (hd : Plain d) (hpre : d <+: cString str)
    (hfit : d.length + 4 ≤ getAvailWriteSpace s.up ∨ d = cString str) :
    ∃ o full active, postOnTerminal s terminalId d = some o ∧
      Routes s (.terminalOut terminalId str) o full active := by
  obtain ⟨hafter, hout⟩ := display_plain hd terminalId
  have hto := display_switch hid s.activeTerminal
  have hback := display_switch ha terminalId
  have hlen : (terminalSwitch terminalId ++ d ++ terminalSwitch s.activeTerminal).length =
      d.length + 4 := by
    simp only [List.length_append, length_terminalSwitch]
    omega
  have hshow : display.after (.on s.activeTerminal)
        (terminalSwitch terminalId ++ d ++ terminalSwitch s.activeTerminal) =
          .on s.activeTerminal ∧
      display.output (.on s.activeTerminal)
        (terminalSwitch terminalId ++ d ++ terminalSwitch s.activeTerminal) =
          d.map fun c => (terminalId, c) := by
    simp only [Transducer.after_append, Transducer.output_append, hto, hafter, hback, hout,
      List.nil_append, List.append_nil, and_self]
  have hpost := postOnTerminal_eq s terminalId d
  simp only [hlen] at hpost
  by_cases hle : d.length + 4 ≤ getAvailWriteSpace s.up
  · rw [if_pos hle] at hpost
    refine ⟨_, _, _, hpost, Posts.returns _ (hlen.le.trans hle), ha, hshow.1, ?_⟩
    rw [hshow.2, Call.written, Call.str, Call.terminal, Int.toNat_natCast,
      ← List.prefix_iff_eq_take.mp hpre]
  · rw [if_neg hle] at hpost
    refine ⟨_, _, _, hpost, Posts.waits, ha, hshow.1, ?_⟩
    rw [hshow.2, hfit.resolve_left hle]
    rfl

private theorem routes_write {s : Terminals n} {d : List Byte}
    (ha : s.activeTerminal.toNat < aTerminalId.length) (hd : Plain d) :
    ∃ o full active, perform s (.write d) = some o ∧ Routes s (.write d) o full active := by
  have hnothing : Routes s (.write d) (.returns 0 s) [] s.activeTerminal :=
    routes_nothing ha List.take_zero
  have hall : Posts s d s.activeTerminal (.returns d.length ⟨s.up.push d, s.activeTerminal⟩) →
      Routes s (.write d) (.returns d.length ⟨s.up.push d, s.activeTerminal⟩) d s.activeTerminal := by
    intro hp
    apply routes_plain ha hd hp
    rw [Call.written, Int.toNat_natCast, Call.str, List.take_length]
    rfl
  rw [perform, writeNoLock_eq]
  by_cases hs : s.up.flags = noBlockSkip
  · rw [if_pos hs]
    by_cases hle : d.length ≤ getAvailWriteSpace s.up
    · rw [if_pos hle]
      exact ⟨_, _, _, rfl, hall (Posts.returns _ hle)⟩
    · rw [if_neg hle]
      exact ⟨_, _, _, rfl, hnothing⟩
  rw [if_neg hs]
  by_cases ht : s.up.flags = noBlockTrim
  · rw [if_pos ht]
    refine ⟨_, _, _, rfl, routes_plain ha (hd.take (getAvailWriteSpace s.up))
      (Posts.returns _ (List.length_take_le _ _)) ?_⟩
    change (d.take (Int.toNat (min (getAvailWriteSpace s.up) d.length : ℕ))).map
      (fun c => (s.activeTerminal, c)) = _
    rw [Int.toNat_natCast, ← List.take_eq_take_min]
  rw [if_neg ht]
  by_cases hb : s.up.flags = blockIfFifoFull
  · rw [if_pos hb]
    by_cases hle : d.length ≤ getAvailWriteSpace s.up
    · rw [if_pos hle]
      exact ⟨_, _, _, rfl, hall (Posts.returns _ hle)⟩
    · rw [if_neg hle]
      exact ⟨_, _, _, rfl, routes_plain ha hd Posts.waits rfl⟩
  · rw [if_neg hb]
    exact ⟨_, _, _, rfl, hnothing⟩

private theorem routes_putChar {s : Terminals n} {c : Byte}
    (ha : s.activeTerminal.toNat < aTerminalId.length) (hc : Plain [c]) :
    ∃ o full active, perform s (.putChar c) = some o ∧ Routes s (.putChar c) o full active := by
  rw [perform, putChar_eq]
  by_cases hs : getAvailWriteSpace s.up = 0
  · rw [if_pos hs]
    by_cases hb : s.up.flags = blockIfFifoFull
    · rw [if_pos hb]
      refine ⟨_, _, _, rfl, routes_plain ha hc ?_ rfl⟩
      have hw := @Posts.waits _ s [c] s.activeTerminal
      rw [hs] at hw
      exact hw
    · rw [if_neg hb]
      exact ⟨_, _, _, rfl, routes_nothing ha List.take_zero⟩
  · rw [if_neg hs]
    exact ⟨_, _, _, rfl,
      routes_plain ha hc (Posts.returns 1 (Nat.one_le_iff_ne_zero.mpr hs)) rfl⟩

private theorem routes_setTerminal {s : Terminals n} {terminalId : UInt8}
    (ha : s.activeTerminal.toNat < aTerminalId.length) :
    ∃ o full active, perform s (.setTerminal terminalId) = some o ∧
      Routes s (.setTerminal terminalId) o full active := by
  have hnothing : Routes s (.setTerminal terminalId) (.returns (-1) s) [] s.activeTerminal :=
    routes_nothing ha List.take_nil
  by_cases hid : terminalId.toNat < aTerminalId.length
  · obtain ⟨hafter, hout⟩ := display_switch hid s.activeTerminal
    have hroute : ∀ o, Posts s (terminalSwitch terminalId) terminalId o →
        Routes s (.setTerminal terminalId) o (terminalSwitch terminalId) terminalId := by
      intro o ho
      refine ⟨ho, hid, hafter, hout.trans ?_⟩
      cases ho with
      | returns status h => rw [Call.written, Call.str, List.take_nil, List.map_nil]
      | waits => rfl
    simp only [perform, SeggerRtt.setTerminal, if_pos hid]
    by_cases hb : s.up.flags &&& modeMask = blockIfFifoFull
    · rw [if_pos hb, writeBlocking_eq, Option.map_some]
      by_cases hle : (terminalSwitch terminalId).length ≤ getAvailWriteSpace s.up
      · have hnil := List.drop_of_length_le hle
        rw [if_pos hnil, List.take_of_length_le hle]
        exact ⟨_, _, _, rfl, hroute _ (Posts.returns 0 hle)⟩
      · rw [if_neg (drop_ne_nil_iff.mpr hle)]
        exact ⟨_, _, _, rfl, hroute _ Posts.waits⟩
    · rw [if_neg hb]
      by_cases hle : 2 ≤ getAvailWriteSpace s.up
      · have hfit : (terminalSwitch terminalId).length ≤ getAvailWriteSpace s.up := hle
        rw [if_pos hle, writeNoCheck_eq hfit, Option.map_some]
        exact ⟨_, _, _, rfl, hroute _ (Posts.returns 0 hfit)⟩
      · rw [if_neg hle]
        exact ⟨_, _, _, rfl, hnothing⟩
  · simp only [perform, SeggerRtt.setTerminal, if_neg hid]
    exact ⟨_, _, _, rfl, hnothing⟩

private theorem routes_terminalOut {s : Terminals n} {terminalId : UInt8} {str : List Byte}
    (ha : s.activeTerminal.toNat < aTerminalId.length) (hd : Plain (cString str)) :
    ∃ o full active, perform s (.terminalOut terminalId str) = some o ∧
      Routes s (.terminalOut terminalId str) o full active := by
  have hnothing : ∀ status : ℤ, status ≤ 0 →
      Routes s (.terminalOut terminalId str) (.returns status s) [] s.activeTerminal := by
    intro status hle
    apply routes_nothing ha
    rw [Int.toNat_of_nonpos hle, List.take_zero]
  by_cases hid : terminalId.toNat < aTerminalId.length
  · simp only [perform, SeggerRtt.terminalOut, if_pos hid]
    by_cases hs : s.up.flags &&& modeMask = noBlockSkip
    · rw [if_pos hs]
      by_cases hlt : getAvailWriteSpace s.up < (cString str).length + 4
      · rw [if_pos hlt]
        exact ⟨_, _, _, rfl, hnothing 0 le_rfl⟩
      · rw [if_neg hlt]
        exact routes_posted ha hid hd List.prefix_rfl (Or.inr rfl)
    rw [if_neg hs]
    by_cases ht : s.up.flags &&& modeMask = noBlockTrim
    · rw [if_pos ht]
      by_cases hlt : getAvailWriteSpace s.up < 4
      · rw [if_pos hlt]
        exact ⟨_, _, _, rfl, hnothing (-1) (by decide)⟩
      · rw [if_neg hlt]
        apply routes_posted ha hid (hd.take _) (List.take_prefix _ _)
        left
        rw [List.length_take]
        split <;> omega
    rw [if_neg ht]
    by_cases hb : s.up.flags &&& modeMask = blockIfFifoFull
    · rw [if_pos hb]
      exact routes_posted ha hid hd List.prefix_rfl (Or.inr rfl)
    · rw [if_neg hb]
      exact ⟨_, _, _, rfl, hnothing (-1) (by decide)⟩
  · simp only [perform, SeggerRtt.terminalOut, if_neg hid]
    exact ⟨_, _, _, rfl, hnothing (-1) (by decide)⟩

theorem routes_perform {s : Terminals n} (ha : s.activeTerminal.toNat < aTerminalId.length)
    {call : Call} (hd : Plain call.str) :
    ∃ o full active, perform s call = some o ∧ Routes s call o full active := by
  cases call with
  | setTerminal terminalId => exact routes_setTerminal ha
  | terminalOut terminalId str => exact routes_terminalOut ha hd
  | write d => exact routes_write ha hd
  | putChar c => exact routes_putChar ha hd

/-! ## Runs -/

/-- The target with what a waiting call has still to post, and logs of what the host has
read and of what the calls have written. -/
structure State (n : ℕ) where
  terminals : Terminals n
  pending : List Byte
  taken : List Byte
  written : List (UInt8 × Byte)

inductive Action
  | call (call : Call)
  | resume
  | read (bufferSize : ℕ)

/-- A call that waits holds the lock, so no other call begins meanwhile. -/
def step (s : State n) : Action → Option (State n)
  | .call call =>
    if s.pending = [] then
      (perform s.terminals call).map fun o =>
        let written := s.written ++ call.written s.terminals.activeTerminal o
        match o with
        | .returns _ terminals => { s with terminals, written }
        | .waits terminals pending => { s with terminals, pending, written }
    else none
  | .resume =>
    if s.pending = [] then none
    else (writeBlocking s.terminals.up s.pending).map fun p =>
      { s with terminals := { s.terminals with up := p.1 }, pending := p.2 }
  | .read bufferSize => (readNoLock s.terminals.up bufferSize).map fun p =>
      { s with terminals := { s.terminals with up := p.2 }, taken := s.taken ++ p.1 }

/-- All that was put into the stream, read by the host or not. -/
def stream (s : State n) : List Byte := s.taken ++ s.terminals.up.contents ++ s.pending

/-- Until `SEGGER_RTT_SetTerminal` is called the terminal is 0. -/
def initialState (up : Ring n) : State n := ⟨⟨up, 0⟩, [], [], []⟩

structure Routed (s : State n) : Prop where
  valid : s.terminals.activeTerminal.toNat < aTerminalId.length
  after : display.after (.on 0) (stream s) = .on s.terminals.activeTerminal
  output : display.output (.on 0) (stream s) = s.written

/-- A call adds to the stream what it posts. -/
private theorem stream_posts {s : State n} (hp : s.pending = []) {full : List Byte}
    {active : UInt8} {o : Outcome (Terminals n)} (h : Posts s.terminals full active o)
    (written : List (UInt8 × Byte)) :
    ∃ t, t = (match o with
        | .returns _ terminals => { s with terminals, written }
        | .waits terminals pending => { s with terminals, pending, written }) ∧
      stream t = stream s ++ full ∧ t.terminals.activeTerminal = active ∧ t.written = written := by
  cases h with
  | returns status hle =>
    refine ⟨_, rfl, ?_, rfl, rfl⟩
    change s.taken ++ (s.terminals.up.push full).contents ++ s.pending = _
    rw [contents_push hle, stream, hp]
    simp only [List.append_assoc, List.append_nil]
  | waits =>
    refine ⟨_, rfl, ?_, rfl, rfl⟩
    change s.taken ++ (s.terminals.up.push (full.take (getAvailWriteSpace s.terminals.up))).contents ++
      full.drop (getAvailWriteSpace s.terminals.up) = _
    rw [contents_push (List.length_take_le _ _), stream, hp]
    simp only [List.append_assoc, List.append_nil, List.take_append_drop]

def Action.Plain : Action → Prop
  | .call c => RttTerminals.Plain c.str
  | _ => True

instance : (a : Action) → Decidable a.Plain
  | .call c => inferInstanceAs (Decidable (RttTerminals.Plain c.str))
  | .resume => isTrue trivial
  | .read _ => isTrue trivial

theorem Routed.step {s t : State n} {a : Action} (ha : a.Plain) (h : step s a = some t)
    (hs : Routed s) : Routed t := by
  cases a with
  | call call =>
    rw [RttTerminals.step] at h
    split at h
    · rename_i hp
      obtain ⟨o, full, active, hperf, hr⟩ := routes_perform hs.valid ha
      rw [hperf, Option.map_some] at h
      obtain ⟨u, hu, hstream, hactive, hwritten⟩ := stream_posts hp hr.posts
        (s.written ++ call.written s.terminals.activeTerminal o)
      obtain rfl : u = t := hu.trans (Option.some.inj h)
      refine ⟨by rw [hactive]; exact hr.valid, ?_, ?_⟩
      · rw [hstream, Transducer.after_append, hs.after, hr.after, hactive]
      · rw [hstream, Transducer.output_append, hs.after, hs.output, hr.output, hwritten]
    · cases h
  | resume =>
    rw [RttTerminals.step] at h
    split at h
    · cases h
    · rw [writeBlocking_eq, Option.map_some] at h
      cases h
      have hstream : s.taken ++ (s.terminals.up.push
            (s.pending.take (getAvailWriteSpace s.terminals.up))).contents ++
          s.pending.drop (getAvailWriteSpace s.terminals.up) = stream s := by
        rw [contents_push (List.length_take_le _ _), stream]
        simp only [List.append_assoc, List.take_append_drop]
      exact ⟨hs.valid, by rw [stream, hstream]; exact hs.after,
        by rw [stream, hstream]; exact hs.output⟩
  | read bufferSize =>
    rw [RttTerminals.step, readNoLock_eq, Option.map_some] at h
    cases h
    have hstream : s.taken ++ s.terminals.up.contents.take bufferSize ++
        (s.terminals.up.pop (min bufferSize s.terminals.up.contents.length)).contents ++
          s.pending = stream s := by
      rw [(contents_pop (min_le_right _ _)).2, ← List.drop_eq_drop_min, List.append_assoc s.taken,
        List.take_append_drop]
      rfl
    exact ⟨hs.valid, by rw [stream, hstream]; exact hs.after,
      by rw [stream, hstream]; exact hs.output⟩

end UsbCdc.RttTerminals
