import UsbCdc.RingBuf

/-! # The ring buffer refines a drop-oldest queue over whole runs

A run is any sequence of `writeData` and `readData` calls, each read with its own
output array. -/
namespace UsbCdc.RingBufRefinement
open CStrings DropOldestFifo RingBuf

inductive Call where
  | write (data : List Byte)
  | read {m : ℕ} (length : ℤ) (output : Vector Byte m)

def perform (rb : RingBuffer) : Call → RingBuffer
  | .write data => writeData rb data
  | .read length output => (readData rb length output).2.1

abbrev ByteFifo := Fifo Byte (ringBufferSize - 1)

/-- The same calls on a queue of at most 511 bytes. -/
def onFifo (q : ByteFifo) : Call → ByteFifo
  | .write data => q.pushAll (cString data)
  | .read length _ => if length ≤ 511 then q.drop (min length.toNat q.items.length) else q

theorem fifo_perform (rb : RingBuffer) (c : Call) : (perform rb c).fifo = onFifo rb.fifo c := by
  cases c with
  | write data => exact fifo_writeData rb data
  | read length output =>
    apply Fifo.ext
    by_cases h : length ≤ 511
    · rw [onFifo, if_pos h]
      exact contents_readData rb h output
    · rw [onFifo, if_neg h, perform, readData_reject rb (not_le.mp h)]

theorem fifo_run (rb : RingBuffer) (calls : List Call) :
    (calls.foldl perform rb).fifo = calls.foldl onFifo rb.fifo := by
  induction calls generalizing rb with
  | nil => rfl
  | cons c calls ih => rw [List.foldl_cons, ih, fifo_perform, List.foldl_cons]

/-- After every sequence of calls the ring is the queue that the same calls give, and
the next call does to it and to `output` what a bounded drop-oldest queue does. -/
theorem ring_refines_fifo (start : RingBuffer) (calls : List Call) :
    let rb := calls.foldl perform (initRingBuffer start)
    rb.contents = (calls.foldl onFifo Fifo.empty).items ∧
    ((rb.writeIndex : ℕ) < 512 ∧ (rb.readIndex : ℕ) < 512) ∧
    (∀ s : List Byte, 0 ∉ s → (writeData rb s).contents = (rb.contents ++ s).rtake 511) ∧
    (∀ (m : ℕ) (n : ℤ) (output : Vector Byte m), 511 < n →
      readData rb n output = (false, rb, output)) ∧
    (∀ (m : ℕ) (n : ℤ) (output : Vector Byte m), n ≤ 511 →
      let k := min (max n 0).toNat rb.contents.length
      (readData rb n output).1 = true ∧
      (readData rb n output).2.1.contents = rb.contents.drop k ∧
      (k < m → (readData rb n output).2.2.toList =
        rb.contents.take k ++ 0 :: output.toList.drop (k + 1))) := by
  intro rb
  have hk (n : ℤ) : (max n 0).toNat = n.toNat := by omega
  refine ⟨?_, ⟨rb.writeIndex.isLt, rb.readIndex.isLt⟩, ?_, ?_, ?_⟩
  · have h := fifo_run (initRingBuffer start) calls
    rw [fifo_initRingBuffer] at h
    exact congrArg Fifo.items h
  · intro s hs
    rw [contents_writeData, cString_of_notMem hs]
    rfl
  · intro m n output hn
    exact readData_reject rb hn output
  · intro m n output hn
    simp only [hk]
    exact ⟨readData_accept rb hn output, contents_readData rb hn output,
      output_readData rb hn output⟩

end UsbCdc.RingBufRefinement
