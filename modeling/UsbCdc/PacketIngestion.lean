import UsbCdc.PacketDelivery
import UsbCdc.ReadBufferTask

/-! # One packet through the ring

The length of a packet travels as the NUL behind it. The reads of `writeData` are checked
here against the end of `g_usb_buf`. -/
namespace UsbCdc.PacketIngestion
open BoundedLoops CStrings DropOldestFifo PacketDelivery ReadBufferTask RingBuf UsbPcdc

/-- `strlen` on a buffer, or `none` where it reads behind the end. -/
def strlenWithin : List Byte → Option ℕ
  | [] => none
  | c :: cs => if c = 0 then some 0 else (strlenWithin cs).map (· + 1)

/-- `writeData` on the whole buffer, with its reads checked. -/
def writeDataWithin (rb : RingBuffer) (data : Vector Byte readBufSize) : Option RingBuffer :=
  (strlenWithin data.toList).map (fun dataLength =>
    (data.toList.take dataLength).foldl writeByte rb)

theorem strlenWithin_of_mem {mem : List Byte} (h : 0 ∈ mem) :
    strlenWithin mem = some (strlen mem) := by
  induction mem with
  | nil => cases h
  | cons c cs ih =>
    rw [strlenWithin]
    by_cases hc : c = 0
    · rw [if_pos hc, hc]
      rfl
    · have hcs : 0 ∈ cs := (List.mem_cons.mp h).resolve_left (fun he => hc he.symm)
      have hlen : strlen (c :: cs) = strlen cs + 1 := by
        simp [strlen, cString, hc]
      rw [if_neg hc, ih hcs, Option.map_some, hlen]

theorem strlenWithin_of_notMem {mem : List Byte} (h : 0 ∉ mem) : strlenWithin mem = none := by
  induction mem with
  | nil => rfl
  | cons c cs ih =>
    rw [List.mem_cons, not_or] at h
    rw [strlenWithin, if_neg (fun he => h.1 he.symm), ih h.2, Option.map_none]

theorem take_strlen (mem : List Byte) : mem.take (strlen mem) = cString mem :=
  (List.prefix_iff_eq_take.mp (List.takeWhile_prefix _)).symm

/-- All reads are inside exactly if the buffer has a terminator in it. -/
theorem writeDataWithin_of_mem {data : Vector Byte readBufSize} (h : 0 ∈ data.toList)
    (rb : RingBuffer) : writeDataWithin rb data = some (writeData rb data.toList) := by
  rw [writeDataWithin, strlenWithin_of_mem h, Option.map_some, take_strlen]
  rfl

theorem writeDataWithin_of_notMem {data : Vector Byte readBufSize} (h : 0 ∉ data.toList)
    (rb : RingBuffer) : writeDataWithin rb data = none := by
  rw [writeDataWithin, strlenWithin_of_notMem h, Option.map_none]

/-- A ring and the strings that `readData` has returned so far. -/
structure DrainFrame where
  ring : RingBuffer
  drained : List Byte

/-- `readData` of 511 bytes, again and again until the ring is empty. -/
def drainLoop : Loop DrainFrame where
  guard f := decide (f.ring.readIndex ≠ f.ring.writeIndex)
  body f :=
    let (_, ring, output) := readData f.ring ((ringBufferSize : ℤ) - 1) (Vector.replicate ringBufferSize 0)
    ⟨ring, f.drained ++ cString output.toList⟩
  measure f := f.ring.contents.length
  decreases f h := by
    have hne : f.ring.contents ≠ [] := fun he => of_decide_eq_true h (RingBuffer.contents_eq_nil.mp he)
    have hpos := List.length_pos_of_ne_nil hne
    obtain ⟨rb, out, hread, hempty, -⟩ := readData_all f.ring
    rw [hread]
    simpa [hempty] using hpos

def drain (rb : RingBuffer) : List Byte := (drainLoop.run ⟨rb, []⟩).drained

/-- One round is enough. -/
theorem drain_eq {rb : RingBuffer} (h0 : 0 ∉ rb.contents) : drain rb = rb.contents := by
  by_cases hg : rb.readIndex = rb.writeIndex
  · rw [drain, drainLoop.run_exit (by simpa [drainLoop] using hg), RingBuffer.contents_eq_nil.mpr hg]
  · obtain ⟨rb', out, hread, hempty, t, hout⟩ := readData_all rb
    have hbody : drainLoop.body ⟨rb, []⟩ = ⟨rb', rb.contents⟩ := by
      have hstr : cString out.toList = rb.contents := by
        rw [hout, cString_append_zero h0]
      simp only [drainLoop, hread, List.nil_append, hstr]
    have hend : drainLoop.guard ⟨rb', rb.contents⟩ = false := by
      simpa [drainLoop] using RingBuffer.contents_eq_nil.mp hempty
    rw [drain, drainLoop.run_step (by simpa [drainLoop] using hg), hbody, drainLoop.run_exit hend]

section Stored
variable {packet : List Byte} (hl : packet.length ≤ readBufSize)
include hl

theorem toList_stored : (storePacket clearedBuf packet).toList =
    packet ++ List.replicate (readBufSize - packet.length) 0 := by
  rw [toList_storePacket hl, clearedBuf, Vector.toList_replicate, List.drop_replicate]

theorem zero_mem_stored :
    0 ∈ (storePacket clearedBuf packet).toList ↔ 0 ∈ packet ∨ packet.length < readBufSize := by
  rw [toList_stored hl, List.mem_append, List.mem_replicate, and_iff_left rfl,
    Nat.sub_ne_zero_iff_lt]

theorem cString_stored : cString (storePacket clearedBuf packet).toList = cString packet := by
  rw [toList_stored hl]
  by_cases h0 : 0 ∈ packet
  · obtain ⟨u, v, rfl, hu⟩ := List.eq_append_cons_of_mem h0
    rw [List.append_assoc, List.cons_append, cString_append_zero hu, cString_append_zero hu]
  · rw [cString_of_notMem h0]
    cases hn : readBufSize - packet.length with
    | zero => rw [List.replicate_zero, List.append_nil, cString_of_notMem h0]
    | succ k => rw [List.replicate_succ, cString_append_zero h0]

/-- A full packet without NUL leaves no room for the terminator, and `strlen` runs off the
buffer. -/
theorem writeDataWithin_full (h0 : 0 ∉ packet) (hfull : packet.length = readBufSize)
    (rb : RingBuffer) : writeDataWithin rb (storePacket clearedBuf packet) = none := by
  apply writeDataWithin_of_notMem
  rw [zero_mem_stored hl, not_or]
  exact ⟨h0, by omega⟩

end Stored

theorem cString_eq_self_iff {s : List Byte} : cString s = s ↔ 0 ∉ s := by
  constructor
  · intro h
    rw [← h]
    exact zero_notMem_cString s
  · exact cString_of_notMem

/-- A packet of arbitrary bytes with a NUL in it or behind it is read inside `g_usb_buf`,
and an empty ring returns what comes before its first NUL: the whole packet exactly if
there is none in it. -/
theorem packet_ingestion (packet : List Byte) (hl : packet.length ≤ readBufSize)
    (hz : 0 ∈ packet ∨ packet.length < readBufSize) (rb : RingBuffer) (hrb : rb.contents = []) :
    ∃ rb', writeDataWithin rb (storePacket clearedBuf packet) = some rb' ∧
      drain rb' = cString packet ∧ (drain rb' = packet ↔ 0 ∉ packet) := by
  have hmem := (zero_mem_stored hl).mpr hz
  have hshort : (cString packet).length ≤ 511 := by
    rcases hz with h0 | hlt
    · obtain ⟨u, v, rfl, hu⟩ := List.eq_append_cons_of_mem h0
      rw [cString_append_zero hu]
      rw [List.length_append, List.length_cons, readBufSize] at hl
      omega
    · have hle := (List.takeWhile_prefix (p := (· != 0)) (l := packet)).length_le
      rw [readBufSize] at hlt
      exact hle.trans (by omega)
  have hcontents : (writeData rb (storePacket clearedBuf packet).toList).contents =
      cString packet := by
    rw [contents_writeData, hrb, List.nil_append, cString_stored hl]
    exact rtake_of_length_le hshort
  have hdrain : drain (writeData rb (storePacket clearedBuf packet).toList) = cString packet := by
    rw [drain_eq (by rw [hcontents]; exact zero_notMem_cString packet), hcontents]
  refine ⟨_, writeDataWithin_of_mem hmem rb, hdrain, ?_⟩
  rw [hdrain]
  exact cString_eq_self_iff

theorem packet_ingestion_at :
    ∃ rb', writeDataWithin (initRingBuffer default) (storePacket clearedBuf (text "AT\r\n")) =
      some rb' ∧ drain rb' = cString (text "AT\r\n") ∧
        (drain rb' = text "AT\r\n" ↔ 0 ∉ text "AT\r\n") :=
  packet_ingestion (text "AT\r\n") (by decide) (Or.inr (by decide)) (initRingBuffer default)
    (RingBuffer.contents_eq_nil.mpr rfl)

theorem zero_byte_is_lost : ¬ ∀ (packet : List Byte), packet.length ≤ readBufSize →
    ∀ rb : RingBuffer, rb.contents = [] →
      ∃ rb', writeDataWithin rb (storePacket clearedBuf packet) = some rb' ∧
        drain rb' = packet := by
  intro h
  have hrb : (initRingBuffer default).contents = [] := RingBuffer.contents_eq_nil.mpr rfl
  have hl : [0].length ≤ readBufSize := by decide
  obtain ⟨rb', hw, hd⟩ := h [0] hl (initRingBuffer default) hrb
  have hmem : 0 ∈ (storePacket clearedBuf [0]).toList := (zero_mem_stored hl).mpr (Or.inl (by simp))
  rw [writeDataWithin_of_mem hmem] at hw
  have hcontents : (writeData (initRingBuffer default) (storePacket clearedBuf [0]).toList).contents
      = [] := by
    rw [contents_writeData, hrb, cString_stored hl]
    rfl
  rw [← Option.some.inj hw, drain_eq (by simp [hcontents]), hcontents] at hd
  cases hd

end UsbCdc.PacketIngestion
