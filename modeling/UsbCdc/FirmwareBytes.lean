import UsbCdc.Firmware

/-! # What becomes of the bytes

However the tasks and the callback interleave, the bytes leave the ring in the order in
which they were put there. Some are missing exactly if a byte was put into a full ring, and
none stays behind once the tasks wait. -/
namespace UsbCdc.Firmware
open CStrings CommandHandover CommandSupport DataAvailable DropOldestFifo LabelledRuns
  PacketIngestion ProcessDataTask ReadBufferTask RingBuf UsbLog UsbPcdc

variable {char : PlainChar} {s t : State} {a : FirmwareAction}

/-- Where the tasks can be. -/
structure Running (s : State) : Prop where
  inRows : InRows s.handover
  copying : ∀ dataLength i, s.copying = some (dataLength, i) →
    s.device.task = .writeData ∧ i ≤ dataLength ∧ dataLength ≤ 511
  reading : ∀ output i, s.reader = .readData output i → i ≤ 511
  idle : s.reader ≠ .xQueueSend → ¬ s.handover.i < s.handover.commandParser.commandCount

/-- What the driver and `usb_pcdc_task` leave alone outside of `writeData`. -/
structure DeviceFrame (s : State) (d : Device) : Prop where
  ring : d.ringBuffer = s.device.ringBuffer
  appended : d.appended = s.device.appended
  task : s.copying ≠ none → d.task = s.device.task
  token : d.dataAvailableSem = s.device.dataAvailableSem ∧
      (s.device.task = .xSemaphoreGive ↔ d.task = .xSemaphoreGive) ∨
    s.copying = none ∧ s.device.task = .xSemaphoreGive ∧ d.task = .memset ∧
      d.dataAvailableSem = true

theorem deviceFrame {b : DeviceAction} {d : Device} (ha : DeviceStep s a b)
    (hst : UsbPcdc.step char s.device b = some d) : DeviceFrame s d := by
  cases ha with
  | packet p =>
    cases (UsbPcdc.effect_of_step hst).2
    exact ⟨rfl, rfl, fun _ => rfl, .inl ⟨rfl, Iff.rfl⟩⟩
  | event e =>
    cases (UsbPcdc.effect_of_step hst).2 <;>
      exact ⟨rfl, rfl, fun _ => rfl, .inl ⟨rfl, Iff.rfl⟩⟩
  | task hc ht =>
    cases (UsbPcdc.effect_of_step hst).2 with
    | write htask => exact absurd htask ht
    | give htask => exact ⟨rfl, rfl, fun h => absurd hc h, .inr ⟨hc, htask, rfl, rfl⟩⟩
    | take htask _ | read htask _ | clear htask =>
      exact ⟨rfl, rfl, fun h => absurd hc h, .inl ⟨rfl, by simp [htask]⟩⟩
    | readRefused htask _ => exact ⟨rfl, rfl, fun h => absurd hc h, .inl ⟨rfl, Iff.rfl⟩⟩

theorem strlen_buf_le {buf : Vector Byte readBufSize} (h : 0 ∈ buf.toList) :
    strlen buf.toList ≤ 511 := by
  obtain ⟨u, v, he, hu⟩ := List.eq_append_cons_of_mem h
  have hl := congrArg List.length he
  rw [Vector.length_toList, List.length_append, List.length_cons, readBufSize] at hl
  rw [strlen, he, cString_append_zero hu]
  omega

theorem running_initial : Running initialState :=
  ⟨inRows_initialSystem, nofun, nofun, fun _ => Nat.lt_irrefl 0⟩

theorem Running.step (hst : step char s a = some t) (h : Running s) : Running t := by
  obtain ⟨hrows, hcopy, hread, hidle⟩ := h
  cases (effect_of_step hst).2 with
  | device ha hd =>
    refine ⟨hrows, fun n i hc => ?_, hread, hidle⟩
    have hc' : s.copying = some (n, i) := hc
    rw [(deviceFrame ha hd).task (by simp [hc'])]
    exact hcopy n i hc
  | measure hc ht h0 =>
    refine ⟨hrows, ?_, hread, hidle⟩
    rintro n i hc
    cases hc
    exact ⟨ht, Nat.zero_le _, strlen_buf_le h0⟩
  | @copy dataLength i c hc hi _ =>
    refine ⟨hrows, ?_, hread, hidle⟩
    rintro n j hc'
    cases hc'
    obtain ⟨htask, -, hn⟩ := hcopy _ _ hc
    exact ⟨htask, hi, hn⟩
  | copied hc _ => exact ⟨hrows, nofun, hread, hidle⟩
  | take hr _ =>
    refine ⟨hrows, hcopy, ?_, fun _ => hidle (by simp [hr])⟩
    rintro output i hr'
    cases hr'
    exact Nat.zero_le _
  | read hr hg =>
    refine ⟨hrows, hcopy, ?_, fun _ => hidle (by simp [hr])⟩
    rintro output i hr'
    cases hr'
    have hi := (length_readIteration hg).1
    exact hi
  | parse _ _ hh => exact ⟨(parses_of_step hh).inRows, hcopy, nofun, fun hne => absurd rfl hne⟩
  | send hr _ hh =>
    exact ⟨inRows_of_step hh hrows, hcopy, fun _ _ hr' => hread _ _ hr', fun hne => absurd hr hne⟩
  | sent hr hi => exact ⟨hrows, hcopy, nofun, fun _ => hi⟩
  | receive _ hh _ =>
    obtain ⟨row, rows, -, -, ht⟩ := step_receive hh
    rw [ht]
    exact ⟨hrows, hcopy, hread, hidle⟩
  | process _ _ => exact ⟨hrows, hcopy, hread, hidle⟩

theorem running_run {as : List FirmwareAction} (hs : Running s)
    (h : run (step char) s as = some t) : Running t :=
  run_invariant (A := fun _ => True) (fun _ _ _ _ => Running.step) (fun _ _ => trivial) hs h

/-! ## Order and completeness -/

/-- What the present `readData` has read. -/
def ReadCall.current : ReadCall → List Byte
  | .readData output i => output.toList.take i
  | _ => []

/-- The bytes in the ring, and before them those that have left it through `readData`. -/
def seen (s : State) : List Byte :=
  s.taken.flatten ++ s.reader.current ++ s.device.ringBuffer.contents

/-- No byte is put into a full ring. -/
def RoomFree (s : State) : FirmwareAction → Prop
  | .usb_pcdc_task => ∀ dataLength i, s.copying = some (dataLength, i) → i < dataLength →
      s.device.ringBuffer.contents.length < ringBufferSize - 1
  | _ => True

/-- What a step does to the bytes; `p` is what it puts into the ring. -/
structure Moves (s : State) (a : FirmwareAction) (t : State) (p : List Byte) : Prop where
  appended : t.device.appended = s.device.appended ++ p
  room : RoomFree s a → seen t = seen s ++ p
  full : ¬ RoomFree s a → (seen t).Sublist (seen s ++ p) ∧ (seen t).length < (seen s).length + p.length

private theorem Moves.quiet (hr : RoomFree s a) (happ : t.device.appended = s.device.appended)
    (hs : seen t = seen s) : Moves s a t [] :=
  ⟨by rw [happ, List.append_nil], fun _ => by rw [hs, List.append_nil], fun h => absurd hr h⟩

private theorem contents_writeByte_of_lt {rb : RingBuffer}
    (h : rb.contents.length < ringBufferSize - 1) (c : Byte) :
    (writeByte rb c).contents = rb.contents ++ [c] := by
  have hf := congrArg Fifo.items (fifo_writeByte rb c)
  rwa [Fifo.push_items_of_lt h] at hf

private theorem contents_writeByte_of_full {rb : RingBuffer}
    (h : ¬ rb.contents.length < ringBufferSize - 1) (c : Byte) :
    (writeByte rb c).contents = rb.contents.tail ++ [c] := by
  have hlt := rb.length_contents_lt
  have hl : rb.fifo.items.length = ringBufferSize - 1 := by
    rw [RingBuffer.fifo_items]
    omega
  have hf := congrArg Fifo.items (fifo_writeByte rb c)
  rwa [Fifo.push_items_of_full hl (by decide)] at hf

private theorem moves_copy {dataLength i : ℕ} {c : Byte} (hc : s.copying = some (dataLength, i))
    (hi : i < dataLength) :
    Moves s .usb_pcdc_task
      { s with device := copyByte s.device c, copying := some (dataLength, i + 1) } [c] := by
  have hfree : RoomFree s .usb_pcdc_task ↔
      s.device.ringBuffer.contents.length < ringBufferSize - 1 := by
    constructor
    · intro h
      exact h dataLength i hc hi
    · intro h _ _ _ _
      exact h
  refine ⟨rfl, fun hr => ?_, fun hr => ?_⟩
  · simp only [seen, copyByte, contents_writeByte_of_lt (hfree.mp hr), List.append_assoc]
  · have hfull := contents_writeByte_of_full (fun hl => hr (hfree.mpr hl)) c
    have hlen : s.device.ringBuffer.contents.length ≠ 0 := by
      intro h0
      exact hr (hfree.mpr (by rw [h0]; decide))
    simp only [seen, copyByte, hfull, List.append_assoc]
    constructor
    · apply List.Sublist.append (List.Sublist.refl _)
      apply List.Sublist.append (List.Sublist.refl _)
      exact List.Sublist.append (List.tail_sublist _) (List.Sublist.refl _)
    · simp only [List.length_append, List.length_tail, List.length_singleton]
      omega

/-- A byte leaves the ring and joins those in `output`. -/
private theorem seen_read {output : Vector Byte ringBufferSize} {i : ℕ} {rb : RingBuffer}
    (hg : readGuard readLength ⟨rb, output, i⟩ = true) :
    ((readIteration ⟨rb, output, i⟩).output.toList.take (i + 1)) ++
        (readIteration ⟨rb, output, i⟩).ring.contents =
      output.toList.take i ++ rb.contents := by
  have hi := (length_readIteration hg).1
  simp only [readGuard, decide_eq_true_eq] at hg
  have hne := hg.2
  have hlen : i < output.toList.length := by
    rw [Vector.length_toList, ringBufferSize]
    omega
  have hc := contents_readIteration (f := ⟨rb, output, i⟩) hne
  simp only at hc
  rw [hc]
  simp only [readIteration, Vector.toList_setIfInBounds]
  rw [List.take_succ_eq_append_getElem (by rwa [List.length_set]), List.getElem_set_self,
    List.take_set_of_le le_rfl, List.append_assoc]
  rfl

theorem step_moves (hst : step char s a = some t) : ∃ p, Moves s a t p := by
  cases (effect_of_step hst).2 with
  | @device a b d ha hd =>
    have hf := deviceFrame ha hd
    refine ⟨[], .quiet ?_ hf.appended (by simp only [seen, hf.ring])⟩
    cases ha with
    | packet | event => trivial
    | task hc _ =>
      intro n i hc'
      rw [hc] at hc'
      cases hc'
  | measure hc _ _ =>
    refine ⟨[], .quiet ?_ rfl rfl⟩
    intro n i hc'
    rw [hc] at hc'
    cases hc'
  | copy hc hi _ => exact ⟨_, moves_copy hc hi⟩
  | copied hc hi =>
    refine ⟨[], .quiet ?_ rfl rfl⟩
    intro n j hc' hj
    rw [hc] at hc'
    cases hc'
    exact absurd hj hi
  | take hr _ => exact ⟨[], .quiet trivial rfl (by simp [seen, hr, ReadCall.current])⟩
  | read hr hg =>
    refine ⟨[], .quiet trivial rfl ?_⟩
    simp only [seen, hr, ReadCall.current, List.append_assoc, seen_read hg]
  | parse hr _ _ => exact ⟨[], .quiet trivial rfl (by simp [seen, hr, ReadCall.current])⟩
  | send _ _ _ | receive _ _ _ | process _ _ => exact ⟨[], .quiet trivial rfl rfl⟩
  | sent hr _ => exact ⟨[], .quiet trivial rfl (by simp [seen, hr, ReadCall.current])⟩

/-- How many bytes have been overwritten in the ring. -/
def overwritten (s : State) : ℤ := (s.device.appended.length : ℤ) - (seen s).length

private theorem overwritten_step (hst : step char s a = some t) :
    overwritten s ≤ overwritten t ∧ (¬ RoomFree s a → overwritten s < overwritten t) := by
  obtain ⟨p, hp⟩ := step_moves hst
  have happ := congrArg List.length hp.appended
  rw [List.length_append] at happ
  simp only [overwritten]
  by_cases hr : RoomFree s a
  · have hs := congrArg List.length (hp.room hr)
    rw [List.length_append] at hs
    exact ⟨by omega, fun h => absurd hr h⟩
  · have hlt := (hp.full hr).2
    exact ⟨by omega, fun _ => by omega⟩

private theorem seen_sublist_step (hst : step char s a = some t)
    (h : (seen s).Sublist s.device.appended) : (seen t).Sublist t.device.appended := by
  obtain ⟨p, hp⟩ := step_moves hst
  have happ : (seen s ++ p).Sublist t.device.appended := by
    rw [hp.appended]
    exact h.append (List.Sublist.refl p)
  by_cases hr : RoomFree s a
  · rwa [hp.room hr]
  · exact (hp.full hr).1.trans happ

theorem seen_sublist {as : List FirmwareAction} (h : run (step char) initialState as = some s) :
    (seen s).Sublist s.device.appended :=
  run_invariant (I := fun s => (seen s).Sublist s.device.appended) (A := fun _ => True)
    (fun _ _ _ _ => seen_sublist_step) (fun _ _ => trivial) (List.Sublist.refl _) h

theorem seen_eq_iff {as : List FirmwareAction} (h : run (step char) initialState as = some s) :
    seen s = s.device.appended ↔ Along (step char) RoomFree initialState as := by
  have hback : overwritten s ≤ overwritten initialState →
      Along (step char) RoomFree initialState as :=
    (along_of_le (A := fun _ => True) (I := fun _ => True) (fun _ _ _ _ _ _ => trivial)
      (fun _ _ _ _ hst _ => (overwritten_step hst).1)
      (fun _ _ _ _ hst _ => (overwritten_step hst).2) (fun _ _ => trivial) trivial h).2
  refine ⟨fun he => hback ?_, fun hc => ?_⟩
  · rw [overwritten, overwritten, he, sub_self]
    exact (sub_self _).ge
  · refine hc.invariant (I := fun s => seen s = s.device.appended) ?_ rfl h
    intro s a t hr hst hs
    obtain ⟨p, hp⟩ := step_moves hst
    rw [hp.room hr, hs, hp.appended]

/-- The bytes that have left the ring and those that are in it are bytes that were put there,
in the same order. They are all of them exactly if no byte was ever put into a full ring. -/
theorem bytes_in_order_iff (char : PlainChar) (as : List FirmwareAction) (s : State)
    (h : run (step char) initialState as = some s) :
    (s.taken.flatten ++ s.reader.current ++ s.device.ringBuffer.contents).Sublist
        s.device.appended ∧
      (s.taken.flatten ++ s.reader.current ++ s.device.ringBuffer.contents = s.device.appended ↔
        Along (step char) RoomFree initialState as) :=
  ⟨seen_sublist h, seen_eq_iff h⟩

/-- `readData` takes the first packet, and one byte of the second is copied after it. -/
def twoCopies : List FirmwareAction :=
  .packet (text "AT") :: List.replicate 8 .usb_pcdc_task ++
    List.replicate 4 .read_buffer_task ++ .packet (text "xy") :: List.replicate 4 .usb_pcdc_task

set_option maxRecDepth 10000 in
theorem bytes_in_order_iff_twoCopies : ∃ s, run (step .signed) initialState
    (.event .CONFIGURED :: .event .REQUEST_COMPLETE :: twoCopies) = some s ∧
    s.taken = [text "AT"] ∧ s.device.ringBuffer.contents = text "x" ∧
    (s.taken.flatten ++ s.reader.current ++ s.device.ringBuffer.contents).Sublist
        s.device.appended ∧
      (s.taken.flatten ++ s.reader.current ++ s.device.ringBuffer.contents = s.device.appended ↔
        Along (step .signed) RoomFree initialState
          (.event .CONFIGURED :: .event .REQUEST_COMPLETE :: twoCopies)) :=
  ⟨_, rfl, rfl, rfl,
    bytes_in_order_iff .signed (.event .CONFIGURED :: .event .REQUEST_COMPLETE :: twoCopies) _ rfl⟩

/-! ## Nothing stays behind -/

/-- A byte has been put into the ring and the semaphore not been given since. -/
def pending (s : State) : Bool :=
  match s.copying with
  | some (_, i) => decide (0 < i)
  | none => decide (s.device.task = .xSemaphoreGive)

def ReadCall.budget : ReadCall → Option ℕ
  | .readData _ i => some (511 - i)
  | _ => none

/-- The hand-over between `usb_pcdc_task` and `read_buffer_task`, without the bytes. -/
def view (s : State) : WakeUpTokens.State :=
  ⟨s.device.ringBuffer.contents.length, pending s, s.device.dataAvailableSem, s.reader.budget⟩

/-- Every step is invisible or a step of the token protocol. -/
theorem view_step (hst : step char s a = some t) :
    view t = view s ∨ WakeUpTokens.Step 511 (view s) (view t) := by
  cases (effect_of_step hst).2 with
  | @device a b d ha hd =>
    have hf := deviceFrame ha hd
    rcases hf.token with ⟨htok, htask⟩ | ⟨hc, htask, htask', htok⟩
    · refine .inl ?_
      have hp : pending { s with device := d } = pending s := by
        simp only [pending]
        cases s.copying with
        | none => simp [htask]
        | some c => rfl
      simp only [view, hp, hf.ring, htok]
    · have hv : view { s with device := d } =
          { view s with pending := false, token := true } := by
        simp [view, pending, hc, htask', htok, hf.ring]
      rw [hv]
      exact .inr .give
  | measure hc ht _ => exact .inl (by simp [view, pending, hc, ht])
  | @copy dataLength i c hc _ _ =>
    have hv : view { s with device := copyByte s.device c, copying := some (dataLength, i + 1) } =
        { view s with size := (writeByte s.device.ringBuffer c).contents.length, pending := true } := by
      simp [view, pending, copyByte]
    rw [hv]
    exact .inr (.produce _ (Nat.le_of_lt_succ (writeByte s.device.ringBuffer c).length_contents_lt))
  | copied hc _ =>
    have hv : view { s with device := { s.device with task := .xSemaphoreGive }, copying := none } =
        { view s with size := s.device.ringBuffer.contents.length, pending := true } := by
      simp [view, pending]
    rw [hv]
    exact .inr (.produce _ (Nat.le_of_lt_succ s.device.ringBuffer.length_contents_lt))
  | take hr ht =>
    have hb : (view s).budget = none := by simp [view, hr, ReadCall.budget]
    exact .inr (.take ht hb)
  | @read output i hr hg =>
    obtain ⟨hi, hl⟩ := length_readIteration hg
    have hb : (view s).budget = some (511 - (i + 1) + 1) := by
      simp only [view, hr, ReadCall.budget]
      exact congrArg some (by omega)
    exact .inr (.consume (b := 511 - (i + 1)) hl hb)
  | @parse output i _ hr hg _ =>
    have hb : (view s).budget = some (511 - i) := by simp [view, hr, ReadCall.budget]
    exact .inr (.stop hb (stop_of_guard hg))
  | send _ _ _ | receive _ _ _ | process _ _ => exact .inl rfl
  | sent hr _ => exact .inl (by simp [view, hr, ReadCall.budget]; rfl)

theorem covered_run {as : List FirmwareAction} (h : run (step char) initialState as = some s) :
    WakeUpTokens.Covered 511 (view s) := by
  have hl : (view initialState).size = 0 := congrArg List.length (contents_initRingBuffer default)
  refine run_invariant (I := fun s => WakeUpTokens.Covered 511 (view s)) (A := fun _ => True) ?_
    (fun _ _ => trivial) ⟨by omega, .inr (.inr hl.le)⟩ h
  intro s a t _ hst hc
  rcases view_step hst with he | hp
  · rwa [he]
  · exact hc.step hp

/-- Every task waits for something to come. -/
structure Settled (s : State) : Prop where
  task : s.device.task = .xSemaphoreTake
  readCpt : s.device.usbReadCptSem = false
  reader : s.reader = .xSemaphoreTake
  dataAvailable : s.device.dataAvailableSem = false
  cmdStr : s.cmdStr = none
  queue : s.handover.queue.items = []

theorem Settled.copying (hq : Settled s) (h : Running s) : s.copying = none := by
  cases hc : s.copying with
  | none => rfl
  | some c =>
    have ht := (h.copying c.1 c.2 hc).1
    rw [hq.task] at ht
    cases ht

end UsbCdc.Firmware
