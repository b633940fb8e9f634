import UsbCdc.LabelledRuns
import UsbCdc.RingBuf
import UsbCdc.WakeUpTokens

/-! # The hand-over from `usb_pcdc_task` to `read_buffer_task`

The two tasks interleave iteration by iteration: one writes packets into the ring and
gives `g_data_available_sem`, the other takes the semaphore and drains the ring. -/
namespace UsbCdc.DataAvailable
open BoundedLoops CStrings LabelledRuns RingBuf

/-- Where `usb_pcdc_task` is: outside of `writeData`, or in its loop at `data[i]`. -/
inductive Writer
  | waiting
  | writing (data : List Byte) (i : ℕ)

/-- Where `read_buffer_task` is: in `xSemaphoreTake`, or in the loop of `readData`. -/
inductive Reader
  | taking
  | reading (output : Vector Byte ringBufferSize) (i : ℕ)

structure System where
  ring : RingBuffer
  dataAvailable : Bool
  writer : Writer
  reader : Reader

def initialSystem : System := ⟨initRingBuffer default, false, .waiting, .taking⟩

inductive Action
  | packet (data : List Byte)
  | write
  | give
  | take
  | read
  | finish

/-- The first iteration of a `writeData` is done and its `xSemaphoreGive` is not. -/
def Writer.pending : Writer → Bool
  | .waiting => false
  | .writing _ i => decide (0 < i)

/-- The only size that `read_buffer_task` asks for. -/
def readLength : ℤ := (ringBufferSize : ℤ) - 1

def step (s : System) : Action → Option System
  | .packet data =>
    match s.writer with
    | .waiting => some { s with writer := .writing data 0 }
    | .writing _ _ => none
  | .write =>
    match s.writer with
    | .waiting => none
    | .writing data i => (cString data)[i]?.map
        (fun c => { s with ring := writeByte s.ring c, writer := .writing data (i + 1) })
  | .give =>
    match s.writer with
    | .waiting => none
    | .writing data i =>
      if i < strlen data then none else some { s with writer := .waiting, dataAvailable := true }
  | .take =>
    match s.reader with
    | .taking =>
      if s.dataAvailable then
        some { s with dataAvailable := false
                      reader := .reading (Vector.replicate ringBufferSize 0) 0 }
      else none
    | .reading _ _ => none
  | .read =>
    match s.reader with
    | .taking => none
    | .reading output i =>
      let f : ReadFrame ringBufferSize := ⟨s.ring, output, i⟩
      if readGuard readLength f then
        let f' := readIteration f
        some { s with ring := f'.ring, reader := .reading f'.output f'.i }
      else none
  | .finish =>
    match s.reader with
    | .taking => none
    | .reading output i =>
      if readGuard readLength ⟨s.ring, output, i⟩ then none else some { s with reader := .taking }

section Uninterrupted

private theorem run_write_loop (s : System) (data : List Byte) (n i : ℕ)
    (h : i + n = strlen data) :
    run step { s with writer := .writing data i } (List.replicate n .write) =
      some { s with ring := ((cString data).drop i).foldl writeByte s.ring
                    writer := .writing data (strlen data) } := by
  induction n generalizing s i with
  | zero =>
    rw [← h, List.drop_of_length_le (show strlen data ≤ i by omega)]
    rfl
  | succ n ih =>
    have hi : i < (cString data).length := show i < strlen data by omega
    rw [List.replicate_succ, List.drop_eq_getElem_cons hi]
    simp only [run, step, List.getElem?_eq_getElem hi, Option.map_some, Option.bind_some]
    exact ih { s with ring := writeByte s.ring (cString data)[i] } (i + 1) (by omega)

/-- Left alone, the first task does `writeData` and gives the semaphore. -/
theorem run_write (s : System) (data : List Byte) (hw : s.writer = .waiting) :
    run step s (.packet data :: (List.replicate (strlen data) .write ++ [.give])) =
      some { s with ring := writeData s.ring data, dataAvailable := true } := by
  obtain ⟨ring, dataAvailable, writer, reader⟩ := s
  subst hw
  rw [run_cons_eq_some]
  refine ⟨_, rfl, run_append_eq_some.mpr ⟨_, run_write_loop _ data _ 0 (Nat.zero_add _), ?_⟩⟩
  simp [run, step, writeData]

private theorem run_read_loop (s : System) (f : ReadFrame ringBufferSize) :
    ∃ n, run step { s with ring := f.ring, reader := .reading f.output f.i }
        (List.replicate n .read ++ [.finish]) =
      some { s with ring := ((readLoop ringBufferSize readLength).run f).ring
                    reader := .taking } := by
  refine (readLoop ringBufferSize readLength).induction (P := fun f => ∃ n,
    run step { s with ring := f.ring, reader := .reading f.output f.i }
        (List.replicate n .read ++ [.finish]) =
      some { s with ring := ((readLoop ringBufferSize readLength).run f).ring
                    reader := .taking }) ?_ ?_ f
  · intro f hg
    refine ⟨0, ?_⟩
    rw [Loop.run_exit _ hg]
    rw [readLoop_guard] at hg
    simp [run, step, hg]
  · intro f hg ih
    obtain ⟨n, hn⟩ := ih
    refine ⟨n + 1, ?_⟩
    rw [Loop.run_step _ hg, ← hn]
    rw [readLoop_guard] at hg
    simp [run, step, hg, List.replicate_succ]

/-- Left alone, the second task takes the semaphore and does `readData`. -/
theorem run_read (s : System) (hr : s.reader = .taking) (ht : s.dataAvailable = true) :
    ∃ n, run step s (.take :: (List.replicate n .read ++ [.finish])) =
      some { s with
        ring := (readData s.ring readLength (Vector.replicate ringBufferSize 0)).2.1
        dataAvailable := false } := by
  obtain ⟨ring, dataAvailable, writer, reader⟩ := s
  subst hr ht
  obtain ⟨n, hn⟩ := run_read_loop ⟨ring, false, writer, .taking⟩
    ⟨ring, Vector.replicate ringBufferSize 0, 0⟩
  refine ⟨n, run_cons_eq_some.mpr ⟨_, rfl, ?_⟩⟩
  rw [hn, readData_of_le _ (by decide)]

end Uninterrupted

def Reader.budget : Reader → Option ℕ
  | .taking => none
  | .reading _ i => some (511 - i)

/-- The hand-over, without the bytes. -/
def view (s : System) : WakeUpTokens.State :=
  ⟨s.ring.contents.length, s.writer.pending, s.dataAvailable, s.reader.budget⟩

/-- An iteration of `readData` takes one byte out of the ring. -/
theorem length_readIteration {output : Vector Byte ringBufferSize} {ring : RingBuffer}
    {i : ℕ} (hg : readGuard readLength ⟨ring, output, i⟩ = true) :
    i < 511 ∧ ring.contents.length = (readIteration ⟨ring, output, i⟩).ring.contents.length + 1 := by
  simp only [readGuard, decide_eq_true_eq] at hg
  obtain ⟨hi, hne⟩ := hg
  constructor
  · simp only [readLength, ringBufferSize] at hi
    omega
  · have hc := contents_readIteration (f := ⟨ring, output, i⟩) hne
    simpa using congrArg List.length hc

theorem stop_of_guard {output : Vector Byte ringBufferSize} {ring : RingBuffer} {i : ℕ}
    (hg : readGuard readLength ⟨ring, output, i⟩ = false) :
    511 - i = 0 ∨ ring.contents.length = 0 := by
  simp only [readGuard, decide_eq_false_iff_not, not_and_or, not_not, not_lt] at hg
  rcases hg with hg | hg
  · left
    simp only [readLength, ringBufferSize] at hg
    omega
  · right
    rw [RingBuffer.contents_eq_nil.mpr hg]
    rfl

/-- Every action is invisible or a step of the token protocol. -/
theorem view_step {s t : System} {a : Action} (h : step s a = some t) :
    view t = view s ∨ WakeUpTokens.Step 511 (view s) (view t) := by
  obtain ⟨ring, dataAvailable, writer, reader⟩ := s
  cases a with
  | packet data =>
    cases writer with
    | waiting =>
      cases h
      exact Or.inl rfl
    | writing => cases h
  | write =>
    cases writer with
    | waiting => cases h
    | writing data i =>
      obtain ⟨c, -, rfl⟩ := Option.map_eq_some_iff.mp h
      exact Or.inr (.produce _ (Nat.le_of_lt_succ (writeByte ring c).length_contents_lt))
  | give =>
    cases writer with
    | waiting => cases h
    | writing data i =>
      obtain ⟨-, h⟩ := Option.ite_none_left_eq_some.mp h
      cases h
      exact Or.inr .give
  | take =>
    cases reader with
    | taking =>
      obtain ⟨ht, h⟩ := Option.ite_none_right_eq_some.mp h
      cases h
      exact Or.inr (.take ht rfl)
    | reading => cases h
  | read =>
    cases reader with
    | taking => cases h
    | reading output i =>
      simp only [step, Option.ite_none_right_eq_some, Option.some.injEq] at h
      obtain ⟨hg, rfl⟩ := h
      obtain ⟨hi, hl⟩ := length_readIteration hg
      have hb : (Reader.reading output i).budget = some (511 - (i + 1) + 1) :=
        congrArg some (by omega)
      exact Or.inr (.consume (b := 511 - (i + 1)) hl hb)
  | finish =>
    cases reader with
    | taking => cases h
    | reading output i =>
      simp only [step, Option.ite_none_left_eq_some, Option.some.injEq] at h
      obtain ⟨hg, rfl⟩ := h
      have hf := stop_of_guard (Bool.eq_false_of_not_eq_true hg)
      exact Or.inr (.stop (b := 511 - i) rfl hf)

theorem covered_initial : WakeUpTokens.Covered 511 (view initialSystem) := by
  have hl : (view initialSystem).size = 0 :=
    congrArg List.length (contents_initRingBuffer default)
  exact ⟨by omega, Or.inr (Or.inr hl.le)⟩

theorem covered_run {s : System} {as : List Action} (h : run step initialSystem as = some s) :
    WakeUpTokens.Covered 511 (view s) := by
  refine run_invariant (I := fun s => WakeUpTokens.Covered 511 (view s)) (A := fun _ => True) ?_
    (fun _ _ => trivial) covered_initial h
  intro s a t _ hst hc
  rcases view_step hst with he | hp
  · rwa [he]
  · exact hc.step hp

/-- With the reader waiting for a token that is not there and no writer about to give it,
the ring is empty. -/
theorem no_stranded_bytes (as : List Action) (s : System)
    (h : run step initialSystem as = some s) (hr : s.reader = .taking)
    (ht : s.dataAvailable = false) (hw : s.writer.pending = false) :
    s.ring.readIndex = s.ring.writeIndex := by
  have hb : (view s).budget = none := by
    simp only [view, hr, Reader.budget]
  have hz := (covered_run h).size_eq_zero hw ht hb
  exact RingBuffer.contents_eq_nil.mp (List.eq_nil_of_length_eq_zero hz)

set_option maxRecDepth 4000 in
theorem no_stranded_bytes_after_one : ∃ s, run step initialSystem
    [.packet (text "A"), .write, .give, .take, .read, .finish] = some s ∧
      s.ring.readIndex = s.ring.writeIndex :=
  ⟨_, rfl, no_stranded_bytes [.packet (text "A"), .write, .give, .take, .read, .finish] _
    rfl rfl rfl rfl⟩

end UsbCdc.DataAvailable
