import UsbCdc.BoundedLoops
import UsbCdc.CStrings
import UsbCdc.CyclicWindows
import UsbCdc.DropOldestFifo

/-! # The receive ring buffer

`writeData` and `readData` as the code computes them, over an array and two indices
that cannot leave it, and the bounded drop-oldest queue that they implement. -/
namespace UsbCdc.RingBuf
open BoundedLoops CStrings CyclicWindows DropOldestFifo

def ringBufferSize : ℕ := 512

abbrev Index := Fin ringBufferSize

structure RingBuffer where
  buffer : Vector Byte ringBufferSize
  writeIndex : Index
  readIndex : Index

/-- Static storage starts zeroed. -/
instance : Inhabited RingBuffer :=
  ⟨⟨Vector.replicate ringBufferSize 0, ⟨0, by decide⟩, ⟨0, by decide⟩⟩⟩

def initRingBuffer (rb : RingBuffer) : RingBuffer :=
  { rb with writeIndex := ⟨0, by decide⟩, readIndex := ⟨0, by decide⟩ }

/-- One iteration of the loop in `writeData`. `next` is `(index + 1) % RING_BUFFER_SIZE`. -/
def writeByte (rb : RingBuffer) (c : Byte) : RingBuffer :=
  let buffer := rb.buffer.set rb.writeIndex c
  let writeIndex := next rb.writeIndex
  if writeIndex = rb.readIndex then
    ⟨buffer, writeIndex, next rb.readIndex⟩
  else
    ⟨buffer, writeIndex, rb.readIndex⟩

def writeData (rb : RingBuffer) (data : List Byte) : RingBuffer :=
  (cString data).foldl writeByte rb

/-- The locals of `readData` between two iterations, with the ring and the caller's
`output` array. -/
structure ReadFrame (m : ℕ) where
  ring : RingBuffer
  output : Vector Byte m
  i : ℕ

variable {m : ℕ}

def readGuard (length : ℤ) (f : ReadFrame m) : Bool :=
  decide ((f.i : ℤ) < length ∧ f.ring.readIndex ≠ f.ring.writeIndex)

def readIteration (f : ReadFrame m) : ReadFrame m where
  ring := { f.ring with readIndex := next f.ring.readIndex }
  output := f.output.setIfInBounds f.i f.ring.buffer[f.ring.readIndex]
  i := f.i + 1

def readLoop (m : ℕ) (length : ℤ) : Loop (ReadFrame m) where
  guard := readGuard length
  body := readIteration
  measure f := (length - f.i).toNat
  decreases f h := by
    simp only [readGuard, decide_eq_true_eq] at h
    simp only [readIteration]
    omega

@[simp] theorem readLoop_guard (length : ℤ) : (readLoop m length).guard = readGuard length := rfl

@[simp] theorem readLoop_body (length : ℤ) : (readLoop m length).body = readIteration := rfl

def readData (rb : RingBuffer) (length : ℤ) (output : Vector Byte m) :
    Bool × RingBuffer × Vector Byte m :=
  if length > (ringBufferSize : ℤ) - 1 then
    (false, rb, output)
  else
    let f := (readLoop m length).run ⟨rb, output, 0⟩
    (true, f.ring, f.output.setIfInBounds f.i 0)

namespace RingBuffer

/-- The bytes from `readIndex` cyclically up to `writeIndex`. -/
def contents (rb : RingBuffer) : List Byte := between rb.buffer rb.readIndex rb.writeIndex

theorem length_contents_lt (rb : RingBuffer) : rb.contents.length < ringBufferSize := by
  rw [contents, length_between]
  exact distance_lt _ _

def fifo (rb : RingBuffer) : Fifo Byte (ringBufferSize - 1) :=
  ⟨rb.contents, Nat.le_sub_one_of_lt rb.length_contents_lt⟩

@[simp] theorem fifo_items (rb : RingBuffer) : rb.fifo.items = rb.contents := rfl

theorem contents_eq_nil {rb : RingBuffer} : rb.contents = [] ↔ rb.readIndex = rb.writeIndex :=
  between_eq_nil

end RingBuffer

@[simp] theorem fifo_initRingBuffer (rb : RingBuffer) : (initRingBuffer rb).fifo = Fifo.empty := by
  apply Fifo.ext
  exact between_self _ _

@[simp] theorem contents_initRingBuffer (rb : RingBuffer) : (initRingBuffer rb).contents = [] :=
  between_self _ _

/-- One iteration of `writeData` is one push. -/
theorem fifo_writeByte (rb : RingBuffer) (c : Byte) : (writeByte rb c).fifo = rb.fifo.push c := by
  apply Fifo.ext
  by_cases h : next rb.writeIndex = rb.readIndex
  · have hd := distance_full.mp h
    have hne : rb.readIndex ≠ rb.writeIndex := by
      intro he
      rw [he, distance_self] at hd
      exact absurd hd (by decide)
    have hl : rb.fifo.items.length = ringBufferSize - 1 := by
      simp only [RingBuffer.fifo_items, RingBuffer.contents, length_between]
      omega
    rw [Fifo.push_items_of_full hl (by decide)]
    simpa [writeByte, h, RingBuffer.contents] using between_push_full c h hne
  · have hd : distance rb.readIndex rb.writeIndex + 1 ≠ ringBufferSize :=
      fun he => h (distance_full.mpr he)
    have hl : rb.fifo.items.length < ringBufferSize - 1 := by
      have hlt := rb.length_contents_lt
      simp only [RingBuffer.fifo_items, RingBuffer.contents, length_between] at hlt ⊢
      omega
    rw [Fifo.push_items_of_lt hl]
    simpa [writeByte, h, RingBuffer.contents] using between_push c h

theorem fifo_writeData (rb : RingBuffer) (data : List Byte) :
    (writeData rb data).fifo = rb.fifo.pushAll (cString data) := by
  rw [writeData, Fifo.pushAll]
  induction cString data generalizing rb with
  | nil => rfl
  | cons c cs ih => rw [List.foldl_cons, ih, fifo_writeByte, List.foldl_cons]

/-- Whatever is written, the last 511 bytes remain. -/
theorem contents_writeData (rb : RingBuffer) (data : List Byte) :
    (writeData rb data).contents = (rb.contents ++ cString data).rtake (ringBufferSize - 1) := by
  have h := congrArg Fifo.items (fifo_writeData rb data)
  rwa [Fifo.pushAll_items] at h

theorem contents_readIteration {f : ReadFrame m} (h : f.ring.readIndex ≠ f.ring.writeIndex) :
    f.ring.contents = f.ring.buffer[f.ring.readIndex] :: (readIteration f).ring.contents :=
  between_pop _ h

/-- Between two iterations of `readData`: the first `i` bytes of the old contents are in
`output`, the others still in the ring, and the rest of `output` is untouched. -/
structure Reading (q : List Byte) (old : Vector Byte m) (length : ℤ) (f : ReadFrame m) : Prop where
  taken : f.i ≤ q.length
  counted : f.i ≤ length.toNat
  left : f.ring.contents = q.drop f.i
  copied : f.i ≤ m → f.output.toList = q.take f.i ++ old.toList.drop f.i

theorem reading_step {q : List Byte} {old : Vector Byte m} {length : ℤ} {f : ReadFrame m}
    (hg : readGuard length f = true) (h : Reading q old length f) :
    Reading q old length (readIteration f) := by
  simp only [readGuard, decide_eq_true_eq] at hg
  obtain ⟨hi, hne⟩ := hg
  have hc := contents_readIteration hne
  rw [h.left] at hc
  have hlt : f.i < q.length := by
    have hl := congrArg List.length hc
    simp only [List.length_drop, List.length_cons] at hl
    omega
  rw [List.drop_eq_getElem_cons hlt] at hc
  obtain ⟨hx, hr⟩ := List.cons_eq_cons.mp hc
  refine ⟨hlt, by simp only [readIteration]; omega, hr.symm, ?_⟩
  intro hm
  have hm' : f.i < m := hm
  have ho := h.copied (Nat.le_of_lt hm')
  simp only [readIteration, Vector.toList_setIfInBounds, ho, ← hx]
  rw [List.set_append_right _ _ (by simp [hlt.le]), List.length_take, Nat.min_eq_left hlt.le,
    Nat.sub_self, List.drop_eq_getElem_cons (by simpa using hm'), List.set_cons_zero,
    List.take_succ_eq_append_getElem hlt, List.append_assoc, List.singleton_append]

private theorem reading_start (rb : RingBuffer) (length : ℤ) (output : Vector Byte m) :
    Reading rb.contents output length ⟨rb, output, 0⟩ :=
  ⟨Nat.zero_le _, Nat.zero_le _, by simp, by simp⟩

/-- The loop stops at the requested length or at the end of the contents. -/
private theorem reading_exit {q : List Byte} {old : Vector Byte m} {length : ℤ} {f : ReadFrame m}
    (hg : readGuard length f = false) (h : Reading q old length f) :
    f.i = min length.toNat q.length := by
  have ht := h.taken
  have hc := h.counted
  simp only [readGuard, decide_eq_false_iff_not, not_and_or, not_not, not_lt] at hg
  rcases hg with hg | hg
  · omega
  · have hl := h.left
    rw [RingBuffer.contents_eq_nil.mpr hg] at hl
    have hlen := congrArg List.length hl
    simp only [List.length_nil, List.length_drop] at hlen
    omega

theorem readData_reject (rb : RingBuffer) {length : ℤ} (h : 511 < length) (output : Vector Byte m) :
    readData rb length output = (false, rb, output) := by
  have hl : length > (ringBufferSize : ℤ) - 1 := by
    simp only [ringBufferSize]
    omega
  rw [readData, if_pos hl]

theorem readData_of_le (rb : RingBuffer) {length : ℤ} (h : length ≤ 511) (output : Vector Byte m) :
    readData rb length output = (true, ((readLoop m length).run ⟨rb, output, 0⟩).ring,
      ((readLoop m length).run ⟨rb, output, 0⟩).output.setIfInBounds
        ((readLoop m length).run ⟨rb, output, 0⟩).i 0) := by
  have hl : ¬ length > (ringBufferSize : ℤ) - 1 := by
    simp only [ringBufferSize]
    omega
  rw [readData, if_neg hl]

private theorem readData_loop (rb : RingBuffer) {length : ℤ} (h : length ≤ 511)
    (output : Vector Byte m) :
    ∃ f : ReadFrame m, readData rb length output = (true, f.ring, f.output.setIfInBounds f.i 0) ∧
      Reading rb.contents output length f ∧ f.i = min length.toNat rb.contents.length := by
  obtain ⟨hr, hg⟩ := (readLoop m length).run_invariant (Reading rb.contents output length)
    (fun f hg h => reading_step hg h) (reading_start rb length output)
  exact ⟨_, readData_of_le rb h output, hr, reading_exit hg hr⟩

/-- An accepted read takes the oldest bytes out of the ring. -/
theorem contents_readData (rb : RingBuffer) {length : ℤ} (h : length ≤ 511)
    (output : Vector Byte m) : (readData rb length output).2.1.contents =
      rb.contents.drop (min length.toNat rb.contents.length) := by
  obtain ⟨f, he, hr, hi⟩ := readData_loop rb h output
  rw [he, ← hi]
  exact hr.left

/-- Where `output` has room for them, the bytes taken and a NUL stand at its start. -/
theorem output_readData (rb : RingBuffer) {length : ℤ} (h : length ≤ 511) (output : Vector Byte m)
    (hm : min length.toNat rb.contents.length < m) :
    (readData rb length output).2.2.toList =
      rb.contents.take (min length.toNat rb.contents.length) ++
        0 :: output.toList.drop (min length.toNat rb.contents.length + 1) := by
  obtain ⟨f, he, hr, hi⟩ := readData_loop rb h output
  rw [he, ← hi]
  rw [← hi] at hm
  have ho := hr.copied hm.le
  have ht := hr.taken
  rw [Vector.toList_setIfInBounds, ho, List.set_append_right _ _ (by simp [ht]), List.length_take,
    Nat.min_eq_left ht, Nat.sub_self, List.drop_eq_getElem_cons (by simpa using hm),
    List.set_cons_zero]

theorem readData_accept (rb : RingBuffer) {length : ℤ} (h : length ≤ 511)
    (output : Vector Byte m) : (readData rb length output).1 = true := by
  obtain ⟨f, he, -, -⟩ := readData_loop rb h output
  rw [he]

end UsbCdc.RingBuf
