import UsbCdc.ParseDataCorrectness
import UsbCdc.RingBufRefinement

/-! # From the ring to the command queue

One pass of the loop in `read_buffer_task`: take up to 511 bytes out of the ring, parse
them into the cleaned parser and send the rows it announces. -/
namespace UsbCdc.ReadBufferTask
open CStrings CommandGrammar LeftmostMatches ParseData ParseDataCorrectness RingBuf

abbrev Row := Vector Byte ringBufferSize

def usbCmdQueueLength : ℕ := 20

/-- `usb_cmd_queue`: 20 slots of 512 bytes, first in, first out. -/
structure CmdQueue where
  items : List Row
  bounded : items.length ≤ usbCmdQueueLength

namespace CmdQueue

/-- `xQueueSend` without waiting: `false` and no change when every slot is taken. -/
def send (q : CmdQueue) (row : Row) : Bool × CmdQueue :=
  if h : q.items.length < usbCmdQueueLength then
    (true, ⟨q.items ++ [row], by rw [List.length_append]; exact h⟩)
  else
    (false, q)

/-- What the receiver reads in the slots. -/
def strings (q : CmdQueue) : List (List Byte) := q.items.map (fun row => cString row.toList)

theorem send_items {q : CmdQueue} (h : q.items.length < usbCmdQueueLength) (row : Row) :
    (q.send row).2.items = q.items ++ [row] := by
  rw [send, dif_pos h]

end CmdQueue

instance : Inhabited CmdQueue := ⟨⟨[], Nat.zero_le _⟩⟩

structure ReadTask where
  ring : RingBuffer
  commandParser : CavATCommandParser
  queue : CmdQueue

instance : Inhabited ReadTask := ⟨⟨initRingBuffer default, default, default⟩⟩

/-- One iteration of the sending loop; a failed send is only reported. -/
def sendCommand (p : CavATCommandParser) (q : CmdQueue) (i : ℕ) : Except OutOfBounds CmdQueue :=
  match p.commands[i]? with
  | some row => .ok (q.send row).2
  | none => .error ⟨i, 0⟩

def sendCommands (p : CavATCommandParser) (q : CmdQueue) : Except OutOfBounds CmdQueue :=
  (List.range p.commandCount).foldlM (sendCommand p) q

/-- What `read_buffer_task` does after `xSemaphoreTake` has returned. -/
def readBufferPass (s : ReadTask) : Except OutOfBounds ReadTask :=
  let (errBuf, ring, readBytes) :=
    readData s.ring ((ringBufferSize : ℤ) - 1) (Vector.replicate ringBufferSize 0)
  if errBuf then do
    let inputLength := strlen readBytes.toList % 65536
    let (parser, retParse) ←
      parseData (cleanParserData s.commandParser) (readBytes.toList.take inputLength)
    if retParse = .validAt then
      let queue ← sendCommands parser s.queue
      return { ring, commandParser := parser, queue }
    else
      return { s with ring, commandParser := parser }
  else
    return { s with ring }

/-- A packet arrives in the ring and the task drains it. -/
def receivePacket (s : ReadTask) (packet : List Byte) : Except OutOfBounds ReadTask :=
  readBufferPass { s with ring := writeData s.ring packet }

def receive (s : ReadTask) (packets : List (List Byte)) : Except OutOfBounds ReadTask :=
  packets.foldlM receivePacket s

theorem zero_notMem_rtake {s : List Byte} (h : 0 ∉ s) (n : ℕ) : 0 ∉ s.rtake n :=
  fun hm => h (List.mem_of_mem_drop hm)

theorem length_contents_le (rb : RingBuffer) : rb.contents.length ≤ 511 :=
  Nat.le_of_lt_succ rb.length_contents_lt

/-- One drain empties a ring and hands its bytes over as one C string. -/
theorem readData_all (rb : RingBuffer) :
    ∃ rb' out, readData rb ((ringBufferSize : ℤ) - 1) (Vector.replicate ringBufferSize 0) =
      (true, rb', out) ∧ rb'.contents = [] ∧ ∃ t, out.toList = rb.contents ++ 0 :: t := by
  have hl : ((ringBufferSize : ℤ) - 1) ≤ 511 := by decide
  have hc := length_contents_le rb
  have hmin : min ((ringBufferSize : ℤ) - 1).toNat rb.contents.length = rb.contents.length :=
    Nat.min_eq_right hc
  have ha := readData_accept rb hl (Vector.replicate ringBufferSize 0)
  have hr := contents_readData rb hl (Vector.replicate ringBufferSize 0)
  have ho := output_readData rb hl (Vector.replicate ringBufferSize 0)
    (by rw [hmin]; exact rb.length_contents_lt)
  rw [hmin, List.drop_length] at hr
  rw [hmin, List.take_length] at ho
  generalize readData rb ((ringBufferSize : ℤ) - 1) (Vector.replicate ringBufferSize 0) = r at *
  obtain ⟨b, rb', out⟩ := r
  exact ⟨rb', out, by rw [show b = true from ha], hr, _, ho⟩

private theorem sendCommands_ok (p : CavATCommandParser) (q : CmdQueue) {n : ℕ}
    (hn : n ≤ maxCmdSupport) : ∃ q', (List.range n).foldlM (sendCommand p) q = .ok q' ∧
      (q.items.length + n ≤ usbCmdQueueLength → q'.items.length = q.items.length + n ∧
        q'.strings = q.strings ++ (List.range n).map (fun k => cString (p.row k))) := by
  induction n with
  | zero => exact ⟨q, rfl, fun _ => ⟨rfl, by simp⟩⟩
  | succ n ih =>
    obtain ⟨q', hf, hroom⟩ := ih (by omega)
    have hrow : p.commands[n]? = some p.commands[n] := Vector.getElem?_eq_getElem hn
    refine ⟨(q'.send p.commands[n]).2, ?_, ?_⟩
    · rw [List.range_succ, List.foldlM_append, hf]
      change sendCommand p q' n >>= pure = _
      rw [sendCommand, hrow]
      rfl
    · intro hq
      obtain ⟨hlen, hstr⟩ := hroom (by omega)
      have hs := CmdQueue.send_items (q := q') (by omega) p.commands[n]
      constructor
      · rw [hs, List.length_append, hlen]
        rfl
      · rw [CmdQueue.strings, hs, List.map_append, List.range_succ, List.map_append,
          ← List.append_assoc, ← hstr]
        simp [CmdQueue.strings, CavATCommandParser.row, hrow]

/-- A drain of a ring with at most nine commands in it. They all reach the queue if it has
slots for them. -/
theorem readBufferPass_ok (s : ReadTask) (h0 : 0 ∉ s.ring.contents)
    (h9 : (commandsIn s.ring.contents).length ≤ 9) :
    ∃ s', readBufferPass s = .ok s' ∧ s'.ring.contents = [] ∧
      s'.commandParser.strings = commandsIn s.ring.contents ∧
      (s.queue.items.length + (commandsIn s.ring.contents).length ≤ usbCmdQueueLength →
        s'.queue.items.length = s.queue.items.length + (commandsIn s.ring.contents).length ∧
        s'.queue.strings = s.queue.strings ++ commandsIn s.ring.contents) := by
  obtain ⟨rb, out, hread, hempty, t, hout⟩ := readData_all s.ring
  have hl := s.ring.length_contents_lt
  have hstr : strlen out.toList % 65536 = s.ring.contents.length := by
    rw [strlen, hout, cString_append_zero h0]
    exact Nat.mod_eq_of_lt (hl.trans (by decide))
  have htake : out.toList.take (strlen out.toList % 65536) = s.ring.contents := by
    rw [hstr, hout, List.take_left]
  obtain ⟨p, r, hok⟩ := parseData_of_le (cleanParserData s.commandParser) hl h9
  obtain ⟨hn, hle, -, hr⟩ := parseData_ok hl hok
  have hps := strings_of_parseData hl h0 hok
  simp only [readBufferPass, hread, htake, if_true]
  rw [hok]
  by_cases hv : r = .validAt
  · obtain ⟨q, hf, hroom⟩ := sendCommands_ok p s.queue hle
    refine ⟨⟨rb, p, q⟩, ?_, hempty, hps, ?_⟩
    · subst hv
      change (sendCommands p s.queue).bind _ = _
      rw [sendCommands, hf]
      rfl
    · have hstrings : (List.range p.commandCount).map (fun k => cString (p.row k)) =
          commandsIn s.ring.contents := hps
      rwa [hstrings, hn] at hroom
  · have hnil : commandsIn s.ring.contents = [] := by
      by_contra h
      exact hv (hr.mpr h)
    refine ⟨⟨rb, p, s.queue⟩, ?_, hempty, hps, fun _ => by simp [hnil]⟩
    change (ite (r = .validAt) _ _ : Except OutOfBounds ReadTask) = _
    rw [if_neg hv]
    rfl

/-- Packets that fit into the ring one by one are scanned one by one. -/
theorem receive_ok (packets : List (List Byte)) (s : ReadTask) (hs : s.ring.contents = [])
    (h0 : ∀ p ∈ packets, 0 ∉ p) (hl : ∀ p ∈ packets, p.length ≤ 511)
    (h9 : (packets.flatMap commandsIn).length ≤ 9)
    (hq : s.queue.items.length + (packets.flatMap commandsIn).length ≤ usbCmdQueueLength) :
    ∃ s', receive s packets = .ok s' ∧ s'.ring.contents = [] ∧
      s'.queue.strings = s.queue.strings ++ packets.flatMap commandsIn := by
  induction packets generalizing s with
  | nil => exact ⟨s, rfl, hs, by simp⟩
  | cons p ps ih =>
    have hp0 := h0 p List.mem_cons_self
    have hring : (writeData s.ring p).contents = p := by
      rw [contents_writeData, hs, List.nil_append, cString_of_notMem hp0]
      exact DropOldestFifo.rtake_of_length_le (hl p List.mem_cons_self)
    rw [List.flatMap_cons, List.length_append] at h9 hq
    obtain ⟨t, ht, hte, -, hroom⟩ := readBufferPass_ok { s with ring := writeData s.ring p }
      (by simpa [hring] using hp0) (by simp only [hring]; omega)
    simp only [hring] at hroom
    obtain ⟨htl, htq⟩ := hroom (by omega)
    obtain ⟨u, hu, hue, huq⟩ := ih t hte (fun q hm => h0 q (List.mem_cons_of_mem p hm))
      (fun q hm => hl q (List.mem_cons_of_mem p hm)) (by omega) (by omega)
    refine ⟨u, ?_, hue, ?_⟩
    · rw [receive, List.foldlM_cons, receivePacket, ht]
      exact hu
    · rw [huq, htq, List.flatMap_cons, List.append_assoc]

end UsbCdc.ReadBufferTask
