import UsbCdc.LabelledRuns
import UsbCdc.ProcessDataTask
import UsbCdc.RingBuf

/-! # The peripheral

`usb_pcdc_task`, `usb_pcdc_callback` and `process_data_task` with the driver that they
share. A step is one call of a task or one event of the driver, so a run is an
interleaving. -/
namespace UsbCdc.UsbPcdc
open CStrings CommandSupport LabelledRuns ProcessDataTask RingBuf UsbLog

def readBufSize : ℕ := 512

/-- `setup.request_type` under the mask `USB_BREQUEST`. -/
inductive ClassRequest
  | SET_LINE_CODING
  | GET_LINE_CODING
  | SET_CONTROL_LINE_STATE
  | UNSUPPORTED
deriving DecidableEq, Repr

/-- `OTHER` is any status that the callback has no case for. -/
inductive UsbStatus
  | REQUEST (request : ClassRequest)
  | READ_COMPLETE
  | WRITE_COMPLETE
  | CONFIGURED
  | REQUEST_COMPLETE
  | DETACH
  | SUSPEND
  | RESUME
  | OTHER
deriving DecidableEq, Repr

/-- The next call in the loop of `usb_pcdc_task`. -/
inductive TaskCall
  | xSemaphoreTake
  | R_USB_Read
  | writeData
  | xSemaphoreGive
  | memset
deriving DecidableEq, Repr

inductive Api
  | R_USB_Read
  | xSemaphoreGive
deriving DecidableEq, Repr

/-- An `R_USB_Read` or a give of `g_usb_read_cpt_sem`, and whether it was accepted. -/
structure Call where
  api : Api
  accepted : Bool
deriving DecidableEq, Repr

structure Device where
  /-- The driver has a buffer to receive into. -/
  readArmed : Bool
  /-- The host has configured the device and not left since. -/
  linkUp : Bool
  pipe : WritePipe
  usbStatus : UsbStatus
  usbBuf : Vector Byte readBufSize
  usbAttach : Bool
  ringBuffer : RingBuffer
  usbReadCptSem : Bool
  dataAvailableSem : Bool
  task : TaskCall
  /-- Stopped at the breakpoint of an error trap. -/
  halted : Bool
  /-- History: the packets stored by the driver. -/
  delivered : List (List Byte)
  /-- History: the bytes that `writeData` has put into the ring. -/
  appended : List Byte
  calls : List Call

def clearedBuf : Vector Byte readBufSize := Vector.replicate readBufSize 0

def initialDevice : Device where
  readArmed := false
  linkUp := false
  pipe := default
  usbStatus := .OTHER
  usbBuf := clearedBuf
  usbAttach := false
  ringBuffer := initRingBuffer default
  usbReadCptSem := false
  dataAvailableSem := false
  task := .xSemaphoreTake
  halted := false
  delivered := []
  appended := []
  calls := []

namespace Device

/-- `R_USB_Read` returns at once. The driver takes one buffer at a time. -/
def usbRead (d : Device) : Bool × Device :=
  (!d.readArmed, { d with readArmed := true, calls := d.calls ++ [⟨.R_USB_Read, !d.readArmed⟩] })

/-- `xSemaphoreGive` fails on a semaphore that is already given. -/
def giveReadCpt (d : Device) : Bool × Device :=
  (!d.usbReadCptSem,
    { d with usbReadCptSem := true, calls := d.calls ++ [⟨.xSemaphoreGive, !d.usbReadCptSem⟩] })

def trap (d : Device) : Device := { d with halted := true }

end Device

def p_welcome : List Byte :=
  text "\r\n********************************************************\r\n" ++
  text "*                  USB Peripheral CDC                  *\r\n" ++
  text "********************************************************\r\n"

def usb_pcdc_callback (d : Device) : UsbStatus → Device
  | .REQUEST .SET_CONTROL_LINE_STATE =>
    { d with pipe := (usbTransmit d.pipe p_welcome (strlen p_welcome)).2 }
  | .REQUEST _ => d
  -- a refused give is reported as `pdFALSE`, which is zero and does not trap
  | .READ_COMPLETE => d.giveReadCpt.2
  | .WRITE_COMPLETE => d
  | .CONFIGURED => { d with usbStatus := .CONFIGURED }
  | .REQUEST_COMPLETE =>
    if d.usbStatus = .CONFIGURED then
      let (ok, d) := d.usbRead
      if ok then { d with usbStatus := .REQUEST_COMPLETE } else d.trap
    else d
  | .DETACH | .SUSPEND => { d with usbAttach := false, usbBuf := clearedBuf }
  | .RESUME => { d with usbAttach := true }
  | .OTHER => d

def usb_pcdc_task (d : Device) : Option Device :=
  match d.task with
  | .xSemaphoreTake =>
    if d.usbReadCptSem then some { d with usbReadCptSem := false, task := .R_USB_Read } else none
  | .R_USB_Read =>
    let (ok, d) := d.usbRead
    some (if ok then { d with task := .writeData } else d.trap)
  | .writeData =>
    -- in a buffer without a NUL the code would read on behind its end
    some { d with ringBuffer := writeData d.ringBuffer d.usbBuf.toList
                  appended := d.appended ++ cString d.usbBuf.toList
                  task := .xSemaphoreGive }
  | .xSemaphoreGive => some { d with dataAvailableSem := true, task := .memset }
  | .memset => some { d with usbBuf := clearedBuf, task := .xSemaphoreTake }

/-- The driver writes a packet to the start of the buffer. -/
def storePacket (buf : Vector Byte readBufSize) (packet : List Byte) : Vector Byte readBufSize :=
  Vector.ofFn (fun i => if h : i < packet.length then packet[i] else buf[i])

/-- The armed read ends with a packet. -/
def receivePacket (d : Device) (packet : List Byte) : Option Device :=
  if d.readArmed ∧ packet.length ≤ readBufSize then
    some (usb_pcdc_callback { d with
      readArmed := false
      usbBuf := storePacket d.usbBuf packet
      delivered := d.delivered ++ [packet] } .READ_COMPLETE)
  else none

/-- The other events. The driver raises `CONFIGURED` once until the next `DETACH`, which
cancels an armed read, and `WRITE_COMPLETE` for a write in flight. -/
def driverEvent (d : Device) : UsbStatus → Option Device
  | .READ_COMPLETE => none
  | .WRITE_COMPLETE =>
    if d.pipe.inFlight then
      some (usb_pcdc_callback { d with pipe := d.pipe.writeComplete } .WRITE_COMPLETE)
    else none
  | .CONFIGURED =>
    if d.linkUp then none else some (usb_pcdc_callback { d with linkUp := true } .CONFIGURED)
  | .REQUEST_COMPLETE => if d.linkUp then some (usb_pcdc_callback d .REQUEST_COMPLETE) else none
  | .DETACH => some (usb_pcdc_callback { d with readArmed := false, linkUp := false } .DETACH)
  | e => some (usb_pcdc_callback d e)

inductive DeviceAction
  | task
  | packet (packet : List Byte)
  | event (event : UsbStatus)
  | process (cmdStr : List Byte)
deriving DecidableEq

def step (char : PlainChar) (d : Device) (a : DeviceAction) : Option Device :=
  if d.halted then none
  else match a with
  | .task => usb_pcdc_task d
  | .packet packet => receivePacket d packet
  | .event e => driverEvent d e
  | .process cmdStr =>
    (processData char (initHashTable char CDC_Command_Table) d.pipe cmdStr).map
      (fun pipe => { d with pipe })

/-- The device after its first configuration. -/
def configuredDevice : Device :=
  usb_pcdc_callback (usb_pcdc_callback { initialDevice with linkUp := true } .CONFIGURED)
    .REQUEST_COMPLETE

theorem run_configured (char : PlainChar) :
    run (step char) initialDevice [.event .CONFIGURED, .event .REQUEST_COMPLETE] =
      some configuredDevice := rfl

theorem toList_storePacket {packet : List Byte} (h : packet.length ≤ readBufSize)
    (buf : Vector Byte readBufSize) :
    (storePacket buf packet).toList = packet ++ buf.toList.drop packet.length := by
  apply List.ext_getElem
  · simp only [Vector.length_toList, List.length_append, List.length_drop]
    omega
  · intro i hi hi'
    simp only [storePacket, Vector.getElem_toList, Vector.getElem_ofFn, List.getElem_append,
      List.getElem_drop]
    split
    · rfl
    · have hi : packet.length + (i - packet.length) = i := by omega
      simp only [hi, Fin.getElem_fin]

/-- All that a step can do, with what it finds before it. -/
inductive Effect (char : PlainChar) (d : Device) : DeviceAction → Device → Prop
  | take (htask : d.task = .xSemaphoreTake) (hsem : d.usbReadCptSem = true) :
      Effect char d .task { d with usbReadCptSem := false, task := .R_USB_Read }
  | read (htask : d.task = .R_USB_Read) (harm : d.readArmed = false) :
      Effect char d .task { d with
        readArmed := true, task := .writeData, calls := d.calls ++ [⟨.R_USB_Read, true⟩] }
  | readRefused (htask : d.task = .R_USB_Read) (harm : d.readArmed = true) :
      Effect char d .task { d with
        readArmed := true, halted := true, calls := d.calls ++ [⟨.R_USB_Read, false⟩] }
  | write (htask : d.task = .writeData) :
      Effect char d .task { d with
        ringBuffer := writeData d.ringBuffer d.usbBuf.toList
        appended := d.appended ++ cString d.usbBuf.toList
        task := .xSemaphoreGive }
  | give (htask : d.task = .xSemaphoreGive) :
      Effect char d .task { d with dataAvailableSem := true, task := .memset }
  | clear (htask : d.task = .memset) :
      Effect char d .task { d with usbBuf := clearedBuf, task := .xSemaphoreTake }
  | packet {p : List Byte} (harm : d.readArmed = true) (hl : p.length ≤ readBufSize) :
      Effect char d (.packet p) { d with
        readArmed := false
        usbBuf := storePacket d.usbBuf p
        delivered := d.delivered ++ [p]
        usbReadCptSem := true
        calls := d.calls ++ [⟨.xSemaphoreGive, !d.usbReadCptSem⟩] }
  | configured (hl : d.linkUp = false) :
      Effect char d (.event .CONFIGURED) { d with linkUp := true, usbStatus := .CONFIGURED }
  | arm (hs : d.usbStatus = .CONFIGURED) (harm : d.readArmed = false) :
      Effect char d (.event .REQUEST_COMPLETE) { d with
        readArmed := true
        usbStatus := .REQUEST_COMPLETE
        calls := d.calls ++ [⟨.R_USB_Read, true⟩] }
  | armRefused (hs : d.usbStatus = .CONFIGURED) (harm : d.readArmed = true) :
      Effect char d (.event .REQUEST_COMPLETE) { d with
        readArmed := true, halted := true, calls := d.calls ++ [⟨.R_USB_Read, false⟩] }
  | requestComplete (hs : d.usbStatus ≠ .CONFIGURED) :
      Effect char d (.event .REQUEST_COMPLETE) d
  | detach : Effect char d (.event .DETACH) { d with
      readArmed := false, linkUp := false, usbAttach := false, usbBuf := clearedBuf }
  | suspend : Effect char d (.event .SUSPEND) { d with usbAttach := false, usbBuf := clearedBuf }
  | resume : Effect char d (.event .RESUME) { d with usbAttach := true }
  | welcome : Effect char d (.event (.REQUEST .SET_CONTROL_LINE_STATE))
      { d with pipe := (d.pipe.usbWrite p_welcome).2 }
  | request {r : ClassRequest} (hr : r ≠ .SET_CONTROL_LINE_STATE) :
      Effect char d (.event (.REQUEST r)) d
  | writeComplete (hf : d.pipe.inFlight = true) :
      Effect char d (.event .WRITE_COMPLETE) { d with pipe := d.pipe.writeComplete }
  | other : Effect char d (.event .OTHER) d
  | process {cmdStr : List Byte} {pipe : WritePipe}
      (h : processData char (initHashTable char CDC_Command_Table) d.pipe cmdStr = some pipe) :
      Effect char d (.process cmdStr) { d with pipe }

variable {char : PlainChar} {d t : Device} {a : DeviceAction}

private theorem effect_task (hst : usb_pcdc_task d = some t) : Effect char d .task t := by
  unfold usb_pcdc_task at hst
  cases htask : d.task with
  | xSemaphoreTake =>
    simp only [htask, Option.ite_none_right_eq_some, Option.some.injEq] at hst
    obtain ⟨hsem, rfl⟩ := hst
    exact .take htask hsem
  | R_USB_Read =>
    simp only [htask] at hst
    cases harm : d.readArmed with
    | false =>
      simp only [Device.usbRead, harm, Bool.not_false, if_true, Option.some.injEq] at hst
      subst hst
      exact .read htask harm
    | true =>
      simp only [Device.usbRead, harm, Bool.not_true, Bool.false_eq_true, if_false,
        Option.some.injEq] at hst
      subst hst
      exact .readRefused htask harm
  | writeData =>
    simp only [htask, Option.some.injEq] at hst
    subst hst
    exact .write htask
  | xSemaphoreGive =>
    simp only [htask, Option.some.injEq] at hst
    subst hst
    exact .give htask
  | memset =>
    simp only [htask, Option.some.injEq] at hst
    subst hst
    exact .clear htask

theorem strlen_p_welcome : strlen p_welcome = p_welcome.length := by
  have h0 : 0 ∉ p_welcome := by
    simp only [p_welcome, List.mem_append, not_or]
    exact ⟨⟨by decide, by decide⟩, by decide⟩
  rw [strlen, cString_of_notMem h0]

private theorem effect_requestComplete (d : Device) :
    Effect char d (.event .REQUEST_COMPLETE) (usb_pcdc_callback d .REQUEST_COMPLETE) := by
  rw [usb_pcdc_callback]
  split
  · rename_i hs
    cases harm : d.readArmed with
    | false =>
      simp only [Device.usbRead, harm, Bool.not_false, if_true]
      exact .arm hs harm
    | true =>
      simp only [Device.usbRead, harm, Bool.not_true, Bool.false_eq_true, if_false]
      exact .armRefused hs harm
  · rename_i hs
    exact .requestComplete hs

private theorem effect_event {e : UsbStatus} (hst : driverEvent d e = some t) :
    Effect char d (.event e) t := by
  cases e with
  | READ_COMPLETE => cases hst
  | REQUEST_COMPLETE =>
    obtain ⟨-, hst⟩ := Option.ite_none_right_eq_some.mp hst
    cases hst
    exact effect_requestComplete d
  | CONFIGURED =>
    obtain ⟨hl, hst⟩ := Option.ite_none_left_eq_some.mp hst
    cases hst
    exact .configured (Bool.eq_false_of_not_eq_true hl)
  | WRITE_COMPLETE =>
    obtain ⟨hf, hst⟩ := Option.ite_none_right_eq_some.mp hst
    cases hst
    exact .writeComplete hf
  | REQUEST r =>
    cases hst
    cases r with
    | SET_CONTROL_LINE_STATE =>
      rw [usb_pcdc_callback, strlen_p_welcome, usbTransmit_all]
      exact .welcome
    | SET_LINE_CODING | GET_LINE_CODING | UNSUPPORTED => exact .request (by decide)
  | DETACH =>
    cases hst
    exact .detach
  | SUSPEND =>
    cases hst
    exact .suspend
  | RESUME =>
    cases hst
    exact .resume
  | OTHER =>
    cases hst
    exact .other

/-- Every step has one of these effects, on a device that has not been stopped. -/
theorem effect_of_step (hst : step char d a = some t) : d.halted = false ∧ Effect char d a t := by
  obtain ⟨hh, hst⟩ := Option.ite_none_left_eq_some.mp hst
  refine ⟨Bool.eq_false_of_not_eq_true hh, ?_⟩
  cases a with
  | task => exact effect_task hst
  | packet p =>
    obtain ⟨⟨harm, hl⟩, hst⟩ := Option.ite_none_right_eq_some.mp hst
    cases hst
    exact .packet harm hl
  | event e => exact effect_event hst
  | process cmdStr =>
    obtain ⟨pipe, h, rfl⟩ := Option.map_eq_some_iff.mp hst
    exact .process h

end UsbCdc.UsbPcdc
