import UsbCdc.FirmwareDelivery

/-! # The tasks come to rest

Left alone by the driver the tasks run out of work, in whatever order they are scheduled.
The amount of work counts a byte more the farther it is from its reply. -/
namespace UsbCdc.Firmware
open CStrings CommandCuts CommandGrammar CommandHandover CommandSupport DataAvailable LabelledRuns
  LeftmostMatches PacketIngestion ParseData ParseDataCorrectness ProcessDataTask ReadBufferTask
  PacketDelivery RingBuf UsbLog UsbPcdc

variable {char : PlainChar} {s t : State} {a : FirmwareAction}

def IsTask : FirmwareAction → Prop
  | .usb_pcdc_task | .read_buffer_task | .process_data_task => True
  | _ => False

instance : (a : FirmwareAction) → Decidable (IsTask a)
  | .packet _ | .event _ => isFalse id
  | .usb_pcdc_task | .read_buffer_task | .process_data_task => isTrue trivial

/-- What `usb_pcdc_task` can still do on its way back to `xSemaphoreTake`. -/
def pcdcWork (s : State) : ℕ :=
  match s.copying with
  | some (dataLength, i) => 5 * (dataLength - i) + 6
  | none =>
    match s.device.task with
    | .xSemaphoreTake => 0
    | .R_USB_Read => 5 * 511 + 8
    | .writeData => 5 * 511 + 7
    | .xSemaphoreGive => 5
    | .memset => 1

def ReadCall.work : ReadCall → ℕ
  | .xSemaphoreTake => 0
  | .readData _ i => 3 * i + 2
  | .xQueueSend => 1

def semaphoreWork (d : Device) : ℕ :=
  (if d.usbReadCptSem then 5 * 511 + 9 else 0) + (if d.dataAvailableSem then 3 else 0) +
    if d.halted then 0 else 1

def handoverWork (h : CommandHandover.System) : ℕ :=
  3 * (unsent h).length + 2 * h.queue.items.length

def work (s : State) : ℕ :=
  pcdcWork s + semaphoreWork s.device + 4 * s.device.ringBuffer.contents.length +
    s.reader.work + handoverWork s.handover + s.cmdStr.toList.length

private theorem length_commandsIn_cString_le (u : List Byte) (n : ℕ) :
    (commandsIn (cString (u.take n))).length ≤ n := by
  have hc := length_commandsIn_le (cString (u.take n))
  have hcount : (cString (u.take n)).count chCR ≤ (cString (u.take n)).length :=
    List.count_le_length
  have hpre : (cString (u.take n)).length ≤ (u.take n).length :=
    (List.takeWhile_prefix _).length_le
  have hlen := List.length_take_le n u
  omega

private theorem length_writeByte_le (rb : RingBuffer) (c : Byte) :
    (writeByte rb c).contents.length ≤ rb.contents.length + 1 := by
  have hf := congrArg DropOldestFifo.Fifo.items (fifo_writeByte rb c)
  simp only [RingBuffer.fifo_items] at hf
  rw [hf, DropOldestFifo.Fifo.push]
  simp only [List.rtake, List.length_drop, RingBuffer.fifo_items, List.length_append,
    List.length_singleton]
  omega

private theorem work_task {d : Device} (hh : s.device.halted = false) (hc : s.copying = none)
    (ht : s.device.task ≠ .writeData) (hst : UsbPcdc.step char s.device .task = some d) :
    work { s with device := d } < work s := by
  cases (UsbPcdc.effect_of_step hst).2 with
  | take htask hsem =>
    simp only [work, pcdcWork, semaphoreWork, hc, htask, hsem, if_true, Bool.false_eq_true, if_false]
    omega
  | read htask _ =>
    simp only [work, pcdcWork, semaphoreWork, hc, htask]
    omega
  | readRefused htask _ =>
    simp only [work, pcdcWork, semaphoreWork, hc, htask, hh, if_true, Bool.false_eq_true, if_false]
    omega
  | write htask => exact absurd htask ht
  | give htask =>
    simp only [work, pcdcWork, semaphoreWork, hc, htask, if_true]
    split <;> omega
  | clear htask =>
    simp only [work, pcdcWork, semaphoreWork, hc, htask]
    omega

/-- Every step of a task is work done. -/
theorem work_lt (hs : Running s) (ha : IsTask a) (hst : step char s a = some t) :
    work t < work s := by
  obtain ⟨hh, he⟩ := effect_of_step hst
  cases he with
  | device hb hd =>
    cases hb with
    | packet | event => exact absurd ha id
    | task hc ht => exact work_task hh hc ht hd
  | measure hc ht h0 =>
    have hle : strlen s.device.usbBuf.toList ≤ 511 := strlen_buf_le h0
    simp only [work, pcdcWork, hc, ht]
    omega
  | @copy dataLength i c hc hi _ =>
    have hle := length_writeByte_le s.device.ringBuffer c
    have hsem : semaphoreWork (copyByte s.device c) = semaphoreWork s.device := rfl
    have hring : (copyByte s.device c).ringBuffer = writeByte s.device.ringBuffer c := rfl
    simp only [work, pcdcWork, hc, hsem, hring]
    omega
  | copied hc hi =>
    simp only [work, pcdcWork, semaphoreWork, hc]
    omega
  | take hr ht =>
    simp only [work, pcdcWork, semaphoreWork, hr, ht, ReadCall.work, if_true, Bool.false_eq_true,
      if_false]
    omega
  | @read output i hr hg =>
    have hl := (length_readIteration hg).2
    simp only [work, pcdcWork, semaphoreWork, hr, ReadCall.work]
    omega
  | @parse output i handover hr hg hst' =>
    have hp := parses_of_step hst'
    have hi := hs.reading output i hr
    have hlen := length_commandsIn_cString_le output.toList i
    rw [← cString_terminated output (Nat.lt_succ_of_le hi), ← hp.unsent] at hlen
    simp only [work, pcdcWork, hr, ReadCall.work, handoverWork, hp.idle, hp.queue, List.length_nil]
    omega
  | send hr hi hst' =>
    obtain ⟨row, hu, he⟩ := step_send hs.inRows hst'
    have hq : (s.handover.queue.send row).2.items.length ≤ s.handover.queue.items.length + 1 := by
      by_cases hroom : s.handover.queue.items.length < usbCmdQueueLength
      · rw [CmdQueue.send_items hroom, List.length_append, List.length_singleton]
      · rw [CmdQueue.send, dif_neg hroom]
        exact Nat.le_succ _
    have hlen := congrArg List.length hu
    rw [List.length_cons] at hlen
    have hqt := congrArg (fun h => h.queue.items.length) he
    simp only at hqt
    simp only [work, pcdcWork, handoverWork]
    omega
  | sent hr hi =>
    simp only [work, pcdcWork, hr, ReadCall.work]
    omega
  | @receive handover row hc hst' _ =>
    obtain ⟨row, rows, hq, hqt, he⟩ := step_receive hst'
    have hlen := congrArg List.length hq
    rw [List.length_cons, ← hqt] at hlen
    have hu : (unsent handover).length = (unsent s.handover).length := by
      rw [he]
      rfl
    simp only [work, pcdcWork, handoverWork, hc, hu, Option.toList_none, Option.toList_some,
      List.length_nil, List.length_singleton]
    omega
  | process hc _ =>
    simp only [work, pcdcWork, semaphoreWork, hc, Option.toList_none, Option.toList_some,
      List.length_nil, List.length_singleton]
    omega

/-! ## Where no task can run -/

/-- `strlen` would leave `g_usb_buf`. -/
def Overreads (s : State) : Prop :=
  s.copying = none ∧ s.device.task = .writeData ∧ 0 ∉ s.device.usbBuf.toList

/-- `parseData` would leave `commands`: an `A` follows a tenth command. -/
def Overruns (s : State) : Prop :=
  ∃ output i, s.reader = .readData output i ∧
    readGuard readLength ⟨s.device.ringBuffer, output, i⟩ = false ∧
    ∃ ms rest, Matches IsCommand (cString (output.toList.take i)) ms rest ∧
      ms.length = maxCmdSupport ∧ chA ∈ rest

def PcdcWaits (s : State) : Prop :=
  s.device.task = .xSemaphoreTake ∧ s.device.usbReadCptSem = false

def ReaderWaits (s : State) : Prop :=
  s.reader = .xSemaphoreTake ∧ s.device.dataAvailableSem = false

def ProcessorWaits (s : State) : Prop := s.cmdStr = none ∧ s.handover.queue.items = []

theorem settled_iff : Settled s ↔ PcdcWaits s ∧ ReaderWaits s ∧ ProcessorWaits s := by
  constructor
  · intro h
    exact ⟨⟨h.task, h.readCpt⟩, ⟨h.reader, h.dataAvailable⟩, ⟨h.cmdStr, h.queue⟩⟩
  · rintro ⟨⟨h1, h2⟩, ⟨h3, h4⟩, ⟨h5, h6⟩⟩
    exact ⟨h1, h2, h3, h4, h5, h6⟩

private theorem pcdcStep_none (hs : Running s) : pcdcStep s = none ↔ PcdcWaits s ∨ Overreads s := by
  obtain hc | ⟨⟨n, i⟩, hc⟩ := Option.eq_none_or_eq_some s.copying
  · by_cases ht : s.device.task = .writeData
    · simp only [pcdcStep, hc, ht, if_true, Option.map_eq_none_iff, PcdcWaits, Overreads, true_and,
        reduceCtorEq, false_and, false_or]
      by_cases h0 : 0 ∈ s.device.usbBuf.toList
      · simp [strlenWithin_of_mem h0, h0]
      · simp [strlenWithin_of_notMem h0, h0]
    · simp only [pcdcStep, hc, PcdcWaits, Overreads, ht, false_and, and_false, or_false]
      cases htask : s.device.task with
      | xSemaphoreTake => simp [UsbPcdc.usb_pcdc_task, htask]
      | writeData => exact absurd htask ht
      | R_USB_Read | xSemaphoreGive | memset => simp [UsbPcdc.usb_pcdc_task, htask]
  · obtain ⟨htask, hi, hn⟩ := hs.copying n i hc
    simp only [pcdcStep, hc, PcdcWaits, Overreads, htask, reduceCtorEq, false_and, or_false,
      iff_false]
    split
    · rename_i hlt
      have hbuf : i < readBufSize := (hlt.trans_le hn).trans (by decide)
      simp [Vector.getElem?_eq_getElem hbuf]
    · simp

private theorem parse_none {h : CommandHandover.System} {data : List Byte}
    (hi : ¬ h.i < h.commandParser.commandCount) (h0 : 0 ∉ data)
    (hl : data.length < ringBufferSize) :
    CommandHandover.step h (.parse data) = none ↔
      ∃ ms rest, Matches IsCommand data ms rest ∧ ms.length = maxCmdSupport ∧ chA ∈ rest := by
  have hiff := parseData_isOk_iff (cleanParserData h.commandParser) hl
  have hnot : (∃ ms rest, Matches IsCommand data ms rest ∧ ms.length = maxCmdSupport ∧
      chA ∈ rest) ↔ ¬ ∃ q r, parseData (cleanParserData h.commandParser) data = .ok (q, r) := by
    rw [hiff]
    push Not
    exact Iff.rfl
  rw [hnot]
  simp only [CommandHandover.step, if_pos (And.intro hi (And.intro h0 hl))]
  cases parseData (cleanParserData h.commandParser) data with
  | error e => simp
  | ok r =>
    obtain ⟨p, r⟩ := r
    by_cases hr : r = .validAt <;> simp [hr]

private theorem readStep_none (hs : Running s) : readStep s = none ↔ ReaderWaits s ∨ Overruns s := by
  cases hr : s.reader with
  | xSemaphoreTake => simp [readStep, hr, ReaderWaits, Overruns]
  | readData output i =>
    have hi := hs.reading output i hr
    have hstr := cString_terminated output (Nat.lt_succ_of_le hi)
    by_cases hg : readGuard readLength ⟨s.device.ringBuffer, output, i⟩ = true
    · simp [readStep, hr, ReaderWaits, Overruns, hg]
    · have hidle := hs.idle (by simp [hr])
      have hlen : (cString (output.toList.take i)).length < ringBufferSize := by
        have hpre : (cString (output.toList.take i)).length ≤ (output.toList.take i).length :=
          (List.takeWhile_prefix _).length_le
        have hle := List.length_take_le i output.toList
        exact (hpre.trans (hle.trans hi)).trans_lt (by decide)
      simp only [readStep, hr, if_neg hg, Option.map_eq_none_iff, hstr,
        parse_none hidle (zero_notMem_cString _) hlen, ReaderWaits, Overruns, reduceCtorEq,
        false_and, false_or]
      constructor
      · intro h
        exact ⟨output, i, rfl, Bool.eq_false_of_not_eq_true hg, h⟩
      · rintro ⟨output', i', he, -, h⟩
        cases he
        exact h
  | xQueueSend =>
    by_cases hi : s.handover.i < s.handover.commandParser.commandCount
    · obtain ⟨u, hu⟩ := send_enabled hs.inRows hi
      simp [readStep, hr, hi, hu, ReaderWaits, Overruns]
    · simp [readStep, hr, hi, ReaderWaits, Overruns]

private theorem processStep_none : processStep char s = none ↔ ProcessorWaits s := by
  cases hc : s.cmdStr with
  | none =>
    simp only [processStep, hc, Option.map_eq_none_iff, ProcessorWaits, true_and]
    obtain ⟨d, c, r, ⟨p, i, ⟨items, hb⟩, ps, rs⟩, cs, tk⟩ := s
    cases items with
    | nil => simp [receiveCommand]
    | cons row rows => simp [receiveCommand]
  | some cmdStr =>
    simp [processStep, hc, processData_eq, ProcessorWaits]

/-- No task can run exactly if a trap has stopped them all, or each waits or is about to leave
its memory. -/
theorem no_task_iff (hs : Running s) : (∀ a, IsTask a → step char s a = none) ↔
    s.device.halted = true ∨
      (PcdcWaits s ∨ Overreads s) ∧ (ReaderWaits s ∨ Overruns s) ∧ ProcessorWaits s := by
  rw [← pcdcStep_none hs, ← readStep_none hs, ← @processStep_none char s]
  constructor
  · intro h
    have h1 := h .usb_pcdc_task trivial
    have h2 := h .read_buffer_task trivial
    have h3 := h .process_data_task trivial
    cases hh : s.device.halted with
    | true => exact .inl rfl
    | false =>
      simp only [step, hh, Bool.false_eq_true, if_false] at h1 h2 h3
      exact .inr ⟨h1, h2, h3⟩
  · rintro (hh | ⟨h1, h2, h3⟩) a ha
    · simp [step, hh]
    · cases a with
      | packet | event => exact absurd ha id
      | usb_pcdc_task => simp only [step, h1, ite_self]
      | read_buffer_task => simp only [step, h2, ite_self]
      | process_data_task => simp only [step, h3, ite_self]

private theorem work_run {as : List FirmwareAction} (hs : Running s) (ha : ∀ a ∈ as, IsTask a)
    (h : run (step char) s as = some t) : as.length + work t ≤ work s := by
  induction as generalizing s with
  | nil =>
    cases h
    exact (Nat.zero_add _).le
  | cons a as ih =>
    obtain ⟨u, hu, h⟩ := run_cons_eq_some.mp h
    have hlt := work_lt hs (ha a List.mem_cons_self) hu
    have hle := ih (hs.step hu) (fun b hb => ha b (List.mem_cons_of_mem a hb)) h
    rw [List.length_cons]
    omega

/-- Some run of the tasks goes on until none of them can run. -/
private theorem exists_rest (hs : Running s) : ∃ as t, (∀ a ∈ as, IsTask a) ∧
    run (step char) s as = some t ∧ ∀ a, IsTask a → step char t a = none := by
  induction hn : work s using Nat.strong_induction_on generalizing s with
  | _ n ih =>
    by_cases hrest : ∀ a, IsTask a → step char s a = none
    · exact ⟨[], s, List.forall_mem_nil _, rfl, hrest⟩
    · push Not at hrest
      obtain ⟨a, ha, hst⟩ := hrest
      obtain ⟨u, hu⟩ := Option.ne_none_iff_exists'.mp hst
      have hlt := work_lt hs ha hu
      obtain ⟨as, t, has, hr, ht⟩ := ih (work u) (by omega) (hs.step hu) rfl
      exact ⟨a :: as, t, List.forall_mem_cons.mpr ⟨ha, has⟩, run_cons_eq_some.mpr ⟨u, hu, hr⟩, ht⟩

/-- Whatever has happened, the tasks alone take only so many steps more, in any order; they
can come to rest, and wherever they do, all of them wait for something to come, unless a
trap has stopped the program or a task is about to leave its memory. -/
theorem tasks_come_to_rest (char : PlainChar) (as : List FirmwareAction) (s : State)
    (h : run (step char) initialState as = some s) :
    (∃ bs t, (∀ b ∈ bs, IsTask b) ∧ run (step char) s bs = some t ∧
      ∀ a, IsTask a → step char t a = none) ∧
    ∀ bs t, (∀ b ∈ bs, IsTask b) → run (step char) s bs = some t →
      bs.length + work t ≤ work s ∧
        ((∀ a, IsTask a → step char t a = none) → t.device.halted = false → ¬ Overreads t →
          ¬ Overruns t → Settled t) := by
  have hs := running_run running_initial h
  refine ⟨exists_rest hs, fun bs t hb hr => ⟨work_run hs hb hr, fun hrest hh hread hrun => ?_⟩⟩
  rw [no_task_iff (running_run hs hr), hh] at hrest
  simp only [Bool.false_eq_true, hread, hrun, or_false, false_or] at hrest
  exact settled_iff.mpr hrest

set_option maxRecDepth 10000 in
theorem tasks_come_to_rest_packet : ∃ s, run (step .signed) initialState
    [.event .CONFIGURED, .event .REQUEST_COMPLETE, .packet (text "A")] = some s ∧
    (∃ bs t, (∀ b ∈ bs, IsTask b) ∧ run (step .signed) s bs = some t ∧
      ∀ a, IsTask a → step .signed t a = none) ∧
    ∀ bs t, (∀ b ∈ bs, IsTask b) → run (step .signed) s bs = some t →
      bs.length + work t ≤ work s ∧
        ((∀ a, IsTask a → step .signed t a = none) → t.device.halted = false → ¬ Overreads t →
          ¬ Overruns t → Settled t) :=
  ⟨_, rfl, tasks_come_to_rest .signed
    [.event .CONFIGURED, .event .REQUEST_COMPLETE, .packet (text "A")] _ rfl⟩

end UsbCdc.Firmware
