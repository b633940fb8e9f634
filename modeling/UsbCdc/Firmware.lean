import UsbCdc.CommandHandover
import UsbCdc.DataAvailable
import UsbCdc.PacketIngestion

/-! # The firmware

The three tasks and the driver together. A step of a task is one call, or one iteration of
the loops in `writeData`, `readData` and around `xQueueSend`, so that the callback can come
in the middle of a copy and the reader in the middle of a packet. A read outside
`g_usb_buf` and a store outside `commands` are no steps. -/
namespace UsbCdc.Firmware
open CStrings CommandHandover CommandSupport DataAvailable LabelledRuns PacketIngestion
  ProcessDataTask ReadBufferTask RingBuf UsbLog UsbPcdc

/-- Where `read_buffer_task` is. -/
inductive ReadCall
  | xSemaphoreTake
  | readData (output : Vector Byte ringBufferSize) (i : ℕ)
  | xQueueSend

structure State where
  /-- `usb_pcdc_task` and the driver, with the ring and the two semaphores. -/
  device : Device
  /-- `dataLength` and `i` while `usb_pcdc_task` is inside of `writeData`. -/
  copying : Option (ℕ × ℕ)
  reader : ReadCall
  handover : CommandHandover.System
  /-- `none` while `process_data_task` waits for a command. -/
  cmdStr : Option (List Byte)
  /-- History: what each `readData` has taken out of the ring. -/
  taken : List (List Byte)

def initialState : State :=
  ⟨initialDevice, none, .xSemaphoreTake, initialSystem, none, []⟩

inductive FirmwareAction
  | packet (packet : List Byte)
  | event (event : UsbStatus)
  | usb_pcdc_task
  | read_buffer_task
  | process_data_task
deriving DecidableEq

/-- `writeData` reads each character of `g_usb_buf` when its turn comes. -/
def copyByte (d : Device) (c : Byte) : Device :=
  { d with ringBuffer := writeByte d.ringBuffer c, appended := d.appended ++ [c] }

def pcdcStep (s : State) : Option State :=
  match s.copying with
  | none =>
    if s.device.task = .writeData then
      (strlenWithin s.device.usbBuf.toList).map
        (fun dataLength => { s with copying := some (dataLength, 0) })
    else
      (UsbPcdc.usb_pcdc_task s.device).map (fun device => { s with device })
  | some (dataLength, i) =>
    if i < dataLength then
      s.device.usbBuf[i]?.map (fun c =>
        { s with device := copyByte s.device c, copying := some (dataLength, i + 1) })
    else
      some { s with device := { s.device with task := .xSemaphoreGive }, copying := none }

def readStep (s : State) : Option State :=
  match s.reader with
  | .xSemaphoreTake =>
    if s.device.dataAvailableSem then
      some { s with
        device := { s.device with dataAvailableSem := false }
        reader := .readData (Vector.replicate ringBufferSize 0) 0 }
    else none
  | .readData output i =>
    if readGuard readLength ⟨s.device.ringBuffer, output, i⟩ then
      let f := readIteration ⟨s.device.ringBuffer, output, i⟩
      some { s with
        device := { s.device with ringBuffer := f.ring }
        reader := .readData f.output f.i }
    else
      -- the terminator, then `cleanParserData` and `parseData` on `strlen` characters
      (CommandHandover.step s.handover (.parse (cString (output.setIfInBounds i 0).toList))).map
        (fun handover =>
          { s with handover, reader := .xQueueSend, taken := s.taken ++ [output.toList.take i] })
  | .xQueueSend =>
    if s.handover.i < s.handover.commandParser.commandCount then
      (CommandHandover.step s.handover .send).map (fun handover => { s with handover })
    else
      some { s with reader := .xSemaphoreTake }

def processStep (char : PlainChar) (s : State) : Option State :=
  match s.cmdStr with
  | none =>
    (receiveCommand s.handover.queue).map (fun r =>
      { s with
        handover := { s.handover with
          queue := r.2, received := s.handover.received ++ [cString r.1.toList] }
        cmdStr := some r.1.toList })
  | some cmdStr =>
    (processData char (initHashTable char CDC_Command_Table) s.device.pipe cmdStr).map
      (fun pipe => { s with device := { s.device with pipe }, cmdStr := none })

/-- Nothing runs on behind the breakpoint of a trap. -/
def step (char : PlainChar) (s : State) (a : FirmwareAction) : Option State :=
  if s.device.halted then none
  else match a with
  | .packet packet => (receivePacket s.device packet).map (fun device => { s with device })
  | .event e => (driverEvent s.device e).map (fun device => { s with device })
  | .usb_pcdc_task => pcdcStep s
  | .read_buffer_task => readStep s
  | .process_data_task => processStep char s

/-- The steps that the driver and `usb_pcdc_task` take outside of `writeData`. -/
inductive DeviceStep (s : State) : FirmwareAction → DeviceAction → Prop
  | packet (p : List Byte) : DeviceStep s (.packet p) (.packet p)
  | event (e : UsbStatus) : DeviceStep s (.event e) (.event e)
  | task (hc : s.copying = none) (ht : s.device.task ≠ .writeData) :
      DeviceStep s .usb_pcdc_task .task

/-- All that a step can do, with what it finds before it. -/
inductive Effect (char : PlainChar) (s : State) : FirmwareAction → State → Prop
  | device {a : FirmwareAction} {b : DeviceAction} {device : Device} (ha : DeviceStep s a b)
      (hst : UsbPcdc.step char s.device b = some device) : Effect char s a { s with device }
  | measure (hc : s.copying = none) (ht : s.device.task = .writeData)
      (h0 : 0 ∈ s.device.usbBuf.toList) :
      Effect char s .usb_pcdc_task { s with copying := some (strlen s.device.usbBuf.toList, 0) }
  | copy {dataLength i : ℕ} {c : Byte} (hc : s.copying = some (dataLength, i))
      (hi : i < dataLength) (hget : s.device.usbBuf[i]? = some c) :
      Effect char s .usb_pcdc_task
        { s with device := copyByte s.device c, copying := some (dataLength, i + 1) }
  | copied {dataLength i : ℕ} (hc : s.copying = some (dataLength, i)) (hi : ¬ i < dataLength) :
      Effect char s .usb_pcdc_task
        { s with device := { s.device with task := .xSemaphoreGive }, copying := none }
  | take (hr : s.reader = .xSemaphoreTake) (ht : s.device.dataAvailableSem = true) :
      Effect char s .read_buffer_task { s with
        device := { s.device with dataAvailableSem := false }
        reader := .readData (Vector.replicate ringBufferSize 0) 0 }
  | read {output : Vector Byte ringBufferSize} {i : ℕ} (hr : s.reader = .readData output i)
      (hg : readGuard readLength ⟨s.device.ringBuffer, output, i⟩ = true) :
      Effect char s .read_buffer_task { s with
        device := { s.device with
          ringBuffer := (readIteration ⟨s.device.ringBuffer, output, i⟩).ring }
        reader := .readData (readIteration ⟨s.device.ringBuffer, output, i⟩).output (i + 1) }
  | parse {output : Vector Byte ringBufferSize} {i : ℕ} {handover : CommandHandover.System}
      (hr : s.reader = .readData output i)
      (hg : readGuard readLength ⟨s.device.ringBuffer, output, i⟩ = false)
      (hst : CommandHandover.step s.handover
        (.parse (cString (output.setIfInBounds i 0).toList)) = some handover) :
      Effect char s .read_buffer_task { s with
        handover, reader := .xQueueSend, taken := s.taken ++ [output.toList.take i] }
  | send {handover : CommandHandover.System} (hr : s.reader = .xQueueSend)
      (hi : s.handover.i < s.handover.commandParser.commandCount)
      (hst : CommandHandover.step s.handover .send = some handover) :
      Effect char s .read_buffer_task { s with handover }
  | sent (hr : s.reader = .xQueueSend)
      (hi : ¬ s.handover.i < s.handover.commandParser.commandCount) :
      Effect char s .read_buffer_task { s with reader := .xSemaphoreTake }
  | receive {handover : CommandHandover.System} {row : Row} (hc : s.cmdStr = none)
      (hst : CommandHandover.step s.handover .receive = some handover)
      (hrec : handover.received = s.handover.received ++ [cString row.toList]) :
      Effect char s .process_data_task { s with handover, cmdStr := some row.toList }
  | process {cmdStr : List Byte} {pipe : WritePipe} (hc : s.cmdStr = some cmdStr)
      (h : processData char (initHashTable char CDC_Command_Table) s.device.pipe cmdStr =
        some pipe) :
      Effect char s .process_data_task { s with device := { s.device with pipe }, cmdStr := none }

variable {char : PlainChar} {s t : State} {a : FirmwareAction}

private theorem effect_pcdcStep (hh : s.device.halted = false) (hst : pcdcStep s = some t) :
    Effect char s .usb_pcdc_task t := by
  unfold pcdcStep at hst
  split at hst
  · rename_i hc
    split at hst
    · rename_i ht
      obtain ⟨n, hn, rfl⟩ := Option.map_eq_some_iff.mp hst
      by_cases h0 : 0 ∈ s.device.usbBuf.toList
      · obtain rfl : strlen s.device.usbBuf.toList = n :=
          Option.some.inj ((strlenWithin_of_mem h0).symm.trans hn)
        exact .measure hc ht h0
      · rw [strlenWithin_of_notMem h0] at hn
        cases hn
    · rename_i ht
      obtain ⟨d, hd, rfl⟩ := Option.map_eq_some_iff.mp hst
      refine .device (.task hc ht) ?_
      rw [UsbPcdc.step, hh]
      exact hd
  · rename_i dataLength i hc
    split at hst
    · rename_i hi
      obtain ⟨c, hget, rfl⟩ := Option.map_eq_some_iff.mp hst
      exact .copy hc hi hget
    · rename_i hi
      cases hst
      exact .copied hc hi

private theorem effect_readStep (hst : readStep s = some t) :
    Effect char s .read_buffer_task t := by
  unfold readStep at hst
  split at hst
  · rename_i hr
    obtain ⟨ht, hst⟩ := Option.ite_none_right_eq_some.mp hst
    cases hst
    exact .take hr ht
  · rename_i output i hr
    split at hst
    · rename_i hg
      cases hst
      exact .read hr hg
    · rename_i hg
      obtain ⟨h, hh, rfl⟩ := Option.map_eq_some_iff.mp hst
      exact .parse hr (Bool.eq_false_of_not_eq_true hg) hh
  · rename_i hr
    split at hst
    · rename_i hi
      obtain ⟨h, hh, rfl⟩ := Option.map_eq_some_iff.mp hst
      exact .send hr hi hh
    · rename_i hi
      cases hst
      exact .sent hr hi

private theorem effect_processStep (hst : processStep char s = some t) :
    Effect char s .process_data_task t := by
  unfold processStep at hst
  split at hst
  · rename_i hc
    obtain ⟨r, hq, rfl⟩ := Option.map_eq_some_iff.mp hst
    refine .receive hc ?_ rfl
    simp only [CommandHandover.step, hq, Option.map_some]
  · rename_i cmdStr hc
    obtain ⟨pipe, h, rfl⟩ := Option.map_eq_some_iff.mp hst
    exact .process hc h

/-- Every step has one of these effects, in a firmware that has not been stopped. -/
theorem effect_of_step (hst : step char s a = some t) :
    s.device.halted = false ∧ Effect char s a t := by
  obtain ⟨hh, hst⟩ := Option.ite_none_left_eq_some.mp hst
  have hh := Bool.eq_false_of_not_eq_true hh
  refine ⟨hh, ?_⟩
  cases a with
  | packet p =>
    obtain ⟨d, hd, rfl⟩ := Option.map_eq_some_iff.mp hst
    refine .device (.packet p) ?_
    rw [UsbPcdc.step, hh]
    exact hd
  | event e =>
    obtain ⟨d, hd, rfl⟩ := Option.map_eq_some_iff.mp hst
    refine .device (.event e) ?_
    rw [UsbPcdc.step, hh]
    exact hd
  | usb_pcdc_task => exact effect_pcdcStep hh hst
  | read_buffer_task => exact effect_readStep hst
  | process_data_task => exact effect_processStep hst

end UsbCdc.Firmware
