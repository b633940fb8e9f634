import UsbCdc.FirmwareCommands

/-! # Uninterrupted passes

Where nothing comes in between, the iterations of `usb_pcdc_task` add up to the `writeData`
of the device, and those of `read_buffer_task` to one `readBufferPass`. The hand-over inside
of every run is a run of the hand-over. -/
namespace UsbCdc.Firmware
open BoundedLoops CStrings CommandHandover CommandSupport DataAvailable LabelledRuns
  PacketIngestion ParseData ReadBufferTask RingBuf UsbPcdc

variable {char : PlainChar} {s t : State} {a : FirmwareAction}

/-! ## `writeData` -/

private theorem run_copy (hh : s.device.halted = false) (n i : ℕ)
    (hn : i + n = strlen s.device.usbBuf.toList) (hi : s.copying = some (i + n, i)) :
    run (step char) s (List.replicate n .usb_pcdc_task) =
      some { s with
        device := { s.device with
          ringBuffer := ((cString s.device.usbBuf.toList).drop i).foldl writeByte s.device.ringBuffer
          appended := s.device.appended ++ (cString s.device.usbBuf.toList).drop i }
        copying := some (i + n, i + n) } := by
  induction n generalizing s i with
  | zero =>
    have hnil : (cString s.device.usbBuf.toList).drop i = [] :=
      List.drop_of_length_le (by rw [strlen] at hn; omega)
    have hi' : s.copying = some (i, i) := hi
    rw [hnil, List.append_nil, Nat.add_zero, ← hi']
    rfl
  | succ n ih =>
    have hlt : i < (cString s.device.usbBuf.toList).length := by
      rw [strlen] at hn
      omega
    have hpre : cString s.device.usbBuf.toList <+: s.device.usbBuf.toList :=
      List.takeWhile_prefix _
    have hbuf : i < readBufSize := by
      have hle := hpre.length_le
      rw [Vector.length_toList] at hle
      omega
    have hget : s.device.usbBuf[i]? = some (cString s.device.usbBuf.toList)[i] := by
      rw [Vector.getElem?_eq_getElem hbuf, ← Vector.getElem_toList, hpre.getElem hlt]
    have hst : step char s .usb_pcdc_task = some { s with
        device := copyByte s.device (cString s.device.usbBuf.toList)[i]
        copying := some (i + (n + 1), i + 1) } := by
      simp only [step, hh, Bool.false_eq_true, if_false, pcdcStep, hi, hget, Option.map_some]
      rw [if_pos (by omega)]
    have hadd : i + (n + 1) = i + 1 + n := by omega
    rw [List.replicate_succ, run, hst, Option.bind_some, hadd,
      ih (s := { s with
        device := copyByte s.device (cString s.device.usbBuf.toList)[i]
        copying := some (i + 1 + n, i + 1) }) hh (i + 1) (by rw [← hadd]; exact hn) rfl]
    simp only [copyByte, List.drop_eq_getElem_cons hlt, List.foldl_cons, List.append_assoc,
      List.singleton_append]

/-- Left alone, `usb_pcdc_task` does in `writeData` what the device does in one step. -/
theorem run_writeData (hh : s.device.halted = false) (hc : s.copying = none)
    (ht : s.device.task = .writeData) (h0 : 0 ∈ s.device.usbBuf.toList) :
    ∃ d, UsbPcdc.step char s.device .task = some d ∧
      run (step char) s (.usb_pcdc_task ::
        (List.replicate (strlen s.device.usbBuf.toList) .usb_pcdc_task ++ [.usb_pcdc_task])) =
          some { s with device := d } := by
  refine ⟨_, by rw [UsbPcdc.step, hh]; simp [UsbPcdc.usb_pcdc_task, ht]; rfl, ?_⟩
  have hst : step char s .usb_pcdc_task =
      some { s with copying := some (strlen s.device.usbBuf.toList, 0) } := by
    simp only [step, hh, Bool.false_eq_true, if_false, pcdcStep, hc, ht, if_true,
      strlenWithin_of_mem h0, Option.map_some]
  have hcopy := @run_copy char
    { s with copying := some (strlen s.device.usbBuf.toList, 0) } hh
    (strlen s.device.usbBuf.toList) 0 (Nat.zero_add _) (by rw [Nat.zero_add])
  refine run_cons_eq_some.mpr ⟨_, hst, run_append_eq_some.mpr ⟨_, hcopy, ?_⟩⟩
  simp only [run, step, hh, Bool.false_eq_true, if_false, pcdcStep, lt_irrefl, Option.bind_some,
    List.drop_zero, writeData, ← hc]

/-! ## `readBufferPass` -/

private theorem run_readLoop (hh : s.device.halted = false) (f : ReadFrame ringBufferSize) :
    ∃ n, run (step char)
        { s with
          device := { s.device with ringBuffer := f.ring }
          reader := .readData f.output f.i } (List.replicate n .read_buffer_task) =
      some { s with
        device := { s.device with
          ringBuffer := ((readLoop ringBufferSize readLength).run f).ring }
        reader := .readData ((readLoop ringBufferSize readLength).run f).output
          ((readLoop ringBufferSize readLength).run f).i } := by
  refine (readLoop ringBufferSize readLength).induction (P := fun f => ∃ n, run (step char)
      { s with
        device := { s.device with ringBuffer := f.ring }
        reader := .readData f.output f.i } (List.replicate n .read_buffer_task) =
    some { s with
      device := { s.device with
        ringBuffer := ((readLoop ringBufferSize readLength).run f).ring }
      reader := .readData ((readLoop ringBufferSize readLength).run f).output
        ((readLoop ringBufferSize readLength).run f).i }) ?_ ?_ f
  · intro f hg
    exact ⟨0, by rw [Loop.run_exit _ hg]; rfl⟩
  · intro f hg ih
    obtain ⟨n, hn⟩ := ih
    refine ⟨n + 1, ?_⟩
    rw [Loop.run_step _ hg, ← hn]
    rw [readLoop_guard] at hg
    simp [run, step, hh, readStep, hg, List.replicate_succ]

private theorem run_sendLoop (hh : s.device.halted = false) (hr : s.reader = .xQueueSend) (n : ℕ)
    (hn : s.handover.i + n = s.handover.commandParser.commandCount) {q : CmdQueue}
    (hq : (List.range' s.handover.i n).foldlM (sendCommand s.handover.commandParser)
      s.handover.queue = .ok q) :
    run (step char) s (List.replicate n .read_buffer_task) =
      some { s with handover := { s.handover with queue := q, i := s.handover.i + n } } := by
  induction n generalizing s with
  | zero =>
    cases hq
    rfl
  | succ n ih =>
    rw [List.range'_succ, List.foldlM_cons] at hq
    obtain ⟨q', hq', hq⟩ := bind_eq_ok.mp hq
    have hst : step char s .read_buffer_task =
        some { s with handover := { s.handover with queue := q', i := s.handover.i + 1 } } := by
      simp only [step, hh, Bool.false_eq_true, if_false, readStep, hr]
      rw [if_pos (by omega)]
      simp only [CommandHandover.step]
      rw [if_pos (by omega), hq']
      rfl
    rw [List.replicate_succ, run, hst, Option.bind_some,
      ih (s := { s with handover := { s.handover with queue := q', i := s.handover.i + 1 } }) hh hr
        (by simp only; omega) hq]
    simp only [Nat.add_assoc, Nat.add_comm 1 n]

/-- `read_buffer_task` gets from one state to another on its own. -/
def Reads (char : PlainChar) (s t : State) : Prop :=
  ∃ n, run (step char) s (List.replicate n .read_buffer_task) = some t

private theorem Reads.trans {u : State} (h : Reads char s t) (h' : Reads char t u) :
    Reads char s u := by
  obtain ⟨m, hm⟩ := h
  obtain ⟨n, hn⟩ := h'
  refine ⟨m + n, ?_⟩
  rw [← List.replicate_append_replicate]
  exact run_append_eq_some.mpr ⟨t, hm, hn⟩

private theorem Reads.of_step (h : step char s .read_buffer_task = some t) : Reads char s t :=
  ⟨1, run_cons_eq_some.mpr ⟨t, h, rfl⟩⟩

/-- The sending loop from where the parser has left the rows. -/
private theorem reads_sends (hh : s.device.halted = false) (hr : s.reader = .xQueueSend) {n : ℕ}
    (hn : s.handover.i + n = s.handover.commandParser.commandCount) {q : CmdQueue}
    (hq : (List.range' s.handover.i n).foldlM (sendCommand s.handover.commandParser)
      s.handover.queue = .ok q) :
    Reads char s { s with
      handover := { s.handover with queue := q, i := s.handover.i + n }
      reader := .xSemaphoreTake } := by
  refine Reads.trans ⟨n, run_sendLoop hh hr n hn hq⟩ (Reads.of_step ?_)
  simp [step, hh, readStep, hr, hn]

/-- Left alone, `read_buffer_task` does between two `xSemaphoreTake` what `readBufferPass`
does to the ring, the parser and the queue. -/
theorem run_readBufferPass (hs : Running s) (hh : s.device.halted = false)
    (hr : s.reader = .xSemaphoreTake) (ht : s.device.dataAvailableSem = true) {u : ReadTask}
    (hu : readBufferPass ⟨s.device.ringBuffer, s.handover.commandParser, s.handover.queue⟩ =
      .ok u) :
    ∃ n t, run (step char) s (List.replicate n .read_buffer_task) = some t ∧
      t.device = { s.device with dataAvailableSem := false, ringBuffer := u.ring } ∧
      t.reader = .xSemaphoreTake ∧ t.handover.commandParser = u.commandParser ∧
      t.handover.queue = u.queue ∧ t.handover.received = s.handover.received := by
  obtain ⟨f, hf⟩ : ∃ f, (readLoop ringBufferSize readLength).run
      ⟨s.device.ringBuffer, Vector.replicate ringBufferSize 0, 0⟩ = f := ⟨_, rfl⟩
  have hcount : ∀ f : ReadFrame ringBufferSize, (readLoop ringBufferSize readLength).guard f = true →
      f.i ≤ 511 → ((readLoop ringBufferSize readLength).body f).i ≤ 511 := by
    intro f hg _
    rw [readLoop_guard] at hg
    have hi := (length_readIteration hg).1
    exact hi
  obtain ⟨hi, hg⟩ := (readLoop ringBufferSize readLength).run_invariant (fun f => f.i ≤ 511)
    (s := ⟨s.device.ringBuffer, Vector.replicate ringBufferSize 0, 0⟩) hcount (Nat.zero_le _)
  rw [hf] at hi hg
  have hstr := cString_terminated f.output (Nat.lt_succ_of_le hi)
  have hlen : (cString (f.output.setIfInBounds f.i 0).toList).length ≤ 511 := by
    have hpre : (cString (f.output.toList.take f.i)).length ≤ (f.output.toList.take f.i).length :=
      (List.takeWhile_prefix _).length_le
    have hle := List.length_take_le f.i f.output.toList
    rw [hstr]
    omega
  have hread := readData_of_le s.device.ringBuffer (show readLength ≤ 511 by decide)
    (Vector.replicate ringBufferSize 0)
  rw [hf] at hread
  have htake : (f.output.setIfInBounds f.i 0).toList.take
      (strlen (f.output.setIfInBounds f.i 0).toList % 65536) =
        cString (f.output.setIfInBounds f.i 0).toList := by
    rw [strlen, Nat.mod_eq_of_lt (hlen.trans_lt (by decide))]
    exact take_strlen _
  have hpass : readData s.device.ringBuffer ((ringBufferSize : ℤ) - 1)
      (Vector.replicate ringBufferSize 0) =
        (true, f.ring, f.output.setIfInBounds f.i 0) := hread
  simp only [readBufferPass, hpass, if_true, htake] at hu
  obtain ⟨⟨p, r⟩, hp, hu⟩ := bind_eq_ok.mp hu
  -- the first steps: the semaphore, the loop of `readData`
  have htoken : Reads char s { s with
      device := { s.device with dataAvailableSem := false }
      reader := .readData (Vector.replicate ringBufferSize 0) 0 } := by
    apply Reads.of_step
    simp [step, hh, readStep, hr, ht]
  have hloop : Reads char { s with
      device := { s.device with dataAvailableSem := false }
      reader := .readData (Vector.replicate ringBufferSize 0) 0 } { s with
      device := { s.device with dataAvailableSem := false, ringBuffer := f.ring }
      reader := .readData f.output f.i } := by
    rw [← hf]
    exact run_readLoop
      (s := { s with device := { s.device with dataAvailableSem := false } }) hh
      ⟨s.device.ringBuffer, Vector.replicate ringBufferSize 0, 0⟩
  have hguard : ¬ s.handover.i < s.handover.commandParser.commandCount ∧
      0 ∉ cString (f.output.setIfInBounds f.i 0).toList ∧
      (cString (f.output.setIfInBounds f.i 0).toList).length < ringBufferSize :=
    ⟨hs.idle (by simp [hr]), zero_notMem_cString _, hlen.trans_lt (by decide)⟩
  have hparse : ∀ h : CommandHandover.System, CommandHandover.step s.handover
      (.parse (cString (f.output.setIfInBounds f.i 0).toList)) = some h → Reads char s { s with
        device := { s.device with dataAvailableSem := false, ringBuffer := f.ring }
        handover := h
        reader := .xQueueSend
        taken := s.taken ++ [f.output.toList.take f.i] } := by
    intro h hst
    refine (htoken.trans hloop).trans (Reads.of_step ?_)
    rw [readLoop_guard] at hg
    rw [Vector.toList_setIfInBounds] at hst
    simp [step, hh, readStep, hg, hst]
  have hst : CommandHandover.step s.handover
      (.parse (cString (f.output.setIfInBounds f.i 0).toList)) =
        if r = .validAt then
          some { s.handover with
            commandParser := p, i := 0, parsed := s.handover.parsed ++ p.strings }
        else some { s.handover with commandParser := p, i := p.commandCount } := by
    simp only [CommandHandover.step, if_pos hguard, hp]
  by_cases hv : r = .validAt
  · rw [if_pos hv] at hst hu
    obtain ⟨q, hq, hu⟩ := bind_eq_ok.mp hu
    cases hu
    rw [sendCommands, List.range_eq_range'] at hq
    obtain ⟨n, hn⟩ := (hparse _ hst).trans (reads_sends (s := { s with
      device := { s.device with dataAvailableSem := false, ringBuffer := f.ring }
      handover := { s.handover with
        commandParser := p, i := 0, parsed := s.handover.parsed ++ p.strings }
      reader := .xQueueSend
      taken := s.taken ++ [f.output.toList.take f.i] }) hh rfl (Nat.zero_add _) hq)
    exact ⟨n, _, hn, rfl, rfl, rfl, rfl, rfl⟩
  · rw [if_neg hv] at hst hu
    cases hu
    obtain ⟨n, hn⟩ := (hparse _ hst).trans (reads_sends (n := 0) (s := { s with
      device := { s.device with dataAvailableSem := false, ringBuffer := f.ring }
      handover := { s.handover with commandParser := p, i := p.commandCount }
      reader := .xQueueSend
      taken := s.taken ++ [f.output.toList.take f.i] }) hh rfl (Nat.add_zero _) rfl)
    exact ⟨n, _, hn, rfl, rfl, rfl, rfl, rfl⟩

/-- A command in the ring and the semaphore given. -/
def awakened : State := { initialState with
  device := { initialDevice with
    ringBuffer := writeData initialDevice.ringBuffer (text "AT\r\n")
    dataAvailableSem := true } }

private theorem running_awakened : Running awakened := by
  refine ⟨inRows_initialSystem, ?_, ?_, fun _ => Nat.lt_irrefl 0⟩
  · intro dataLength i h
    cases h
  · intro output i h
    cases h

set_option maxRecDepth 10000 in
theorem run_readBufferPass_awakened : ∃ u : ReadTask, u.queue.strings = [text "AT\r\n"] ∧
    ∃ n t, run (step .signed) awakened (List.replicate n .read_buffer_task) = some t ∧
      t.device = { awakened.device with dataAvailableSem := false, ringBuffer := u.ring } ∧
      t.reader = .xSemaphoreTake ∧ t.handover.commandParser = u.commandParser ∧
      t.handover.queue = u.queue ∧ t.handover.received = awakened.handover.received :=
  ⟨_, rfl, run_readBufferPass running_awakened rfl rfl rfl rfl⟩

/-! ## The hand-over -/

/-- What the firmware does to the commands is a run of the two tasks with the queue between
them, in which a send finds a slot whenever it does here. -/
theorem run_handover {as : List FirmwareAction} (h : run (step char) s as = some t) :
    ∃ bs, run CommandHandover.step s.handover bs = some t.handover ∧
      (Along (step char) SendFree s as ↔ Along CommandHandover.step SlotFree s.handover bs) := by
  induction as generalizing s with
  | nil =>
    cases h
    exact ⟨[], rfl, Iff.rfl⟩
  | cons a as ih =>
    obtain ⟨u, hu, h⟩ := run_cons_eq_some.mp h
    obtain ⟨bs, hbs, hiff⟩ := ih h
    rw [along_cons hu, hiff]
    cases handover_step hu with
    | idle he _ hf =>
      rw [he] at hbs
      exact ⟨bs, hbs, by rw [he, and_iff_right hf]⟩
    | @parse output i _ hst _ hf =>
      refine ⟨_ :: bs, run_cons_eq_some.mpr ⟨_, hst, hbs⟩, ?_⟩
      rw [along_cons hst, and_iff_right hf]
      exact (and_iff_right trivial).symm
    | move _ hst _ hf =>
      refine ⟨_ :: bs, run_cons_eq_some.mpr ⟨_, hst, hbs⟩, ?_⟩
      rw [along_cons hst, hf]

set_option maxRecDepth 10000 in
theorem run_handover_sent : ∃ s : State, s.handover.queue.strings = [text "AT\r\n"] ∧
    ∃ bs, run CommandHandover.step initialState.handover bs = some s.handover ∧
      (Along (step .signed) SendFree initialState
        (.event .CONFIGURED :: .event .REQUEST_COMPLETE :: .packet (text "AT\r\n") ::
          (List.replicate 10 .usb_pcdc_task ++ List.replicate 7 .read_buffer_task)) ↔
        Along CommandHandover.step SlotFree initialState.handover bs) :=
  ⟨_, rfl, run_handover rfl⟩

end UsbCdc.Firmware
