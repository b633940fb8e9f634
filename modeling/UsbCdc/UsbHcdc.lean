import UsbCdc.CStrings

/-! # The host

The event switch of `usb_hcdc_task` with the helpers that it calls. Every USB call goes
into a log with the answer of the driver. -/
namespace UsbCdc.UsbHcdc
open CStrings

/-- `fsp_err_t`; the task compares results of queue calls with it as well. -/
abbrev FspErr := ℕ

def FSP_SUCCESS : FspErr := 0
def pdTRUE : ℕ := 1
def pdFALSE : ℕ := 0

def CDC_WRITE_DATA_LEN : ℕ := 1
def CDC_READ_DATA_LEN : ℕ := 512
def LINE_CODING_LENGTH : UInt16 := 0x07

/-- What the program uses of the driver's headers. -/
structure UsbHeader where
  USB_BREQUEST : UInt16
  USB_CDC_SET_LINE_CODING : UInt16
  USB_CDC_GET_LINE_CODING : UInt16
  USB_CDC_SET_CONTROL_LINE_STATE : UInt16
  USB_HOST_TO_DEV : UInt16
  USB_DEV_TO_HOST : UInt16
  USB_CLASS : UInt16
  USB_INTERFACE : UInt16
  USB_HCDC_SERIAL_STATE_MSG_LEN : ℕ

namespace UsbHeader
variable (hdr : UsbHeader)

def SET_LINE_CODING : UInt16 :=
  hdr.USB_CDC_SET_LINE_CODING ||| hdr.USB_HOST_TO_DEV ||| hdr.USB_CLASS ||| hdr.USB_INTERFACE

def GET_LINE_CODING : UInt16 :=
  hdr.USB_CDC_GET_LINE_CODING ||| hdr.USB_DEV_TO_HOST ||| hdr.USB_CLASS ||| hdr.USB_INTERFACE

def SET_CONTROL_LINE_STATE : UInt16 :=
  hdr.USB_CDC_SET_CONTROL_LINE_STATE ||| hdr.USB_HOST_TO_DEV ||| hdr.USB_CLASS |||
    hdr.USB_INTERFACE

/-- The mask recovers the three request codes, and they differ. -/
structure Distinct : Prop where
  setLineCoding : hdr.SET_LINE_CODING &&& hdr.USB_BREQUEST = hdr.USB_CDC_SET_LINE_CODING
  setControlLineState :
    hdr.SET_CONTROL_LINE_STATE &&& hdr.USB_BREQUEST = hdr.USB_CDC_SET_CONTROL_LINE_STATE
  getLineCoding : hdr.GET_LINE_CODING &&& hdr.USB_BREQUEST = hdr.USB_CDC_GET_LINE_CODING
  line_ne_state : hdr.USB_CDC_SET_LINE_CODING ≠ hdr.USB_CDC_SET_CONTROL_LINE_STATE
  line_ne_get : hdr.USB_CDC_SET_LINE_CODING ≠ hdr.USB_CDC_GET_LINE_CODING
  state_ne_get : hdr.USB_CDC_SET_CONTROL_LINE_STATE ≠ hdr.USB_CDC_GET_LINE_CODING

end UsbHeader

/-- Class requests of the CDC class, with `bRequest` in the high byte. -/
def cdcHeader : UsbHeader where
  USB_BREQUEST := 0xFF00
  USB_CDC_SET_LINE_CODING := 0x2000
  USB_CDC_GET_LINE_CODING := 0x2100
  USB_CDC_SET_CONTROL_LINE_STATE := 0x2200
  USB_HOST_TO_DEV := 0x0000
  USB_DEV_TO_HOST := 0x0080
  USB_CLASS := 0x0020
  USB_INTERFACE := 0x0001
  USB_HCDC_SERIAL_STATE_MSG_LEN := 10

theorem cdcHeader_distinct : cdcHeader.Distinct := by
  constructor <;> decide

/-- `OTHER` is any event that the switch has no case for. -/
inductive UsbEvent
  | CONFIGURED
  | READ_COMPLETE
  | WRITE_COMPLETE
  | REQUEST_COMPLETE
  | OTHER
deriving DecidableEq, Repr

inductive UsbClass
  | USB_CLASS_HCDC
  | OTHER
deriving DecidableEq, Repr

structure UsbEventInfo where
  event : UsbEvent
  type : UsbClass
  /-- `data_size`. -/
  dataSize : ℕ
  /-- `setup.request_type`. -/
  requestType : UInt16
  deviceAddress : UInt8
deriving DecidableEq

structure UsbSetup where
  requestType : UInt16
  requestValue : UInt16
  requestIndex : UInt16
  requestLength : UInt16
deriving DecidableEq

/-- The buffers that the program hands to the driver. -/
inductive HostBuffer
  | g_com_parm
  | g_usb_dummy
  | g_rcv_buf
  | g_serial_state
deriving DecidableEq, Repr

inductive UsbCall
  | R_USB_Open
  | R_USB_Close
  | R_USB_HostControlTransfer (setup : UsbSetup) (buffer : HostBuffer) (deviceAddress : UInt8)
  | R_USB_Read (buffer : HostBuffer) (size : ℕ) (deviceAddress : UInt8)
  | R_USB_Write (data : List Byte) (deviceAddress : UInt8)
deriving DecidableEq

/-- What the calls of a step return. -/
abbrev Answers := UsbCall → FspErr

def allSucceed : Answers := fun _ => FSP_SUCCESS

structure Host where
  sndBuf : Vector Byte 8
  /-- The USB calls made, with their results. -/
  calls : List (UsbCall × FspErr)
  /-- The first arguments of the calls of `handle_error`. -/
  errors : List FspErr
  /-- Stopped at the breakpoint of an error trap. -/
  trapped : Bool

instance : Inhabited Host := ⟨⟨Vector.replicate 8 0, [], [], false⟩⟩

namespace Host
variable (answers : Answers)

def call (c : UsbCall) (h : Host) : FspErr × Host :=
  (answers c, { h with calls := h.calls ++ [(c, answers c)] })

/-- Closes the module whatever the error is and traps on it. -/
def handle_error (err : FspErr) (h : Host) : Host :=
  let (_, h) := h.call answers .R_USB_Close
  { h with errors := h.errors ++ [err], trapped := h.trapped || err != 0 }

/-- A USB call with the check that follows it everywhere in the loop. -/
def callChecked (c : UsbCall) (h : Host) : Host :=
  let (err, h) := h.call answers c
  if err ≠ FSP_SUCCESS then h.handle_error answers err else h

end Host

def set_line_coding (hdr : UsbHeader) (answers : Answers) (deviceAddress : UInt8) (h : Host) :
    Host :=
  h.callChecked answers (.R_USB_HostControlTransfer
    ⟨hdr.SET_LINE_CODING, 0, 0, LINE_CODING_LENGTH⟩ .g_com_parm deviceAddress)

def set_control_line_state (hdr : UsbHeader) (answers : Answers) (deviceAddress : UInt8)
    (h : Host) : Host :=
  h.callChecked answers (.R_USB_HostControlTransfer
    ⟨hdr.SET_CONTROL_LINE_STATE, 0, 0, 0⟩ .g_usb_dummy deviceAddress)

def get_line_coding (hdr : UsbHeader) (answers : Answers) (deviceAddress : UInt8) (h : Host) :
    Host :=
  h.callChecked answers (.R_USB_HostControlTransfer
    ⟨hdr.GET_LINE_CODING, 0, 0, LINE_CODING_LENGTH⟩ .g_com_parm deviceAddress)

/-- The first `CDC_WRITE_DATA_LEN` bytes of `g_snd_buf` go out. -/
def writeSndBuf (answers : Answers) (deviceAddress : UInt8) (h : Host) : Host :=
  h.callChecked answers (.R_USB_Write (h.sndBuf.toList.take CDC_WRITE_DATA_LEN) deviceAddress)

/-- The byte to send after `c`. -/
def nextByte (c : Byte) : Byte :=
  if c = '1'.toUInt8 then '2'.toUInt8
  else if c = '2'.toUInt8 then chCR
  else if c = chCR then '1'.toUInt8
  else c

def usb_data_process (hdr : UsbHeader) (answers : Answers) (info : UsbEventInfo) (h : Host) :
    Host :=
  if info.type = .USB_CLASS_HCDC then
    if 0 < info.dataSize then
      writeSndBuf answers info.deviceAddress
        { h with sndBuf := h.sndBuf.set 0 (nextByte h.sndBuf[0]) }
    else
      h.callChecked answers (.R_USB_Read .g_rcv_buf info.dataSize info.deviceAddress)
  else
    h.callChecked answers
      (.R_USB_Read .g_serial_state hdr.USB_HCDC_SERIAL_STATE_MSG_LEN info.deviceAddress)

/-- The event switch in the loop of `usb_hcdc_task`. -/
def handleEvent (hdr : UsbHeader) (answers : Answers) (info : UsbEventInfo) (h : Host) : Host :=
  match info.event with
  | .CONFIGURED => set_line_coding hdr answers info.deviceAddress h
  | .READ_COMPLETE => usb_data_process hdr answers info h
  | .WRITE_COMPLETE =>
    h.callChecked answers (.R_USB_Read .g_rcv_buf CDC_READ_DATA_LEN info.deviceAddress)
  | .REQUEST_COMPLETE =>
    if info.requestType &&& hdr.USB_BREQUEST = hdr.USB_CDC_SET_LINE_CODING then
      set_control_line_state hdr answers info.deviceAddress h
    else if info.requestType &&& hdr.USB_BREQUEST = hdr.USB_CDC_SET_CONTROL_LINE_STATE then
      get_line_coding hdr answers info.deviceAddress h
    else if info.requestType &&& hdr.USB_BREQUEST = hdr.USB_CDC_GET_LINE_CODING then
      writeSndBuf answers info.deviceAddress h
    else h
  | .OTHER => h

/-- What `usb_hcdc_task` does before its loop; a failed open is only reported. -/
def openUsb (answers : Answers) (h : Host) : Host :=
  ({ h with sndBuf := h.sndBuf.set 0 '1'.toUInt8 }.call answers .R_USB_Open).2

namespace Host
variable {answers : Answers} {c : UsbCall} {h : Host}

theorem callChecked_ok (hc : answers c = FSP_SUCCESS) :
    h.callChecked answers c = { h with calls := h.calls ++ [(c, FSP_SUCCESS)] } := by
  simp only [callChecked, call, hc, ne_eq, not_true, if_false]

theorem callChecked_failed (hc : answers c ≠ FSP_SUCCESS) : h.callChecked answers c = { h with
    calls := h.calls ++ [(c, answers c), (.R_USB_Close, answers .R_USB_Close)]
    errors := h.errors ++ [answers c]
    trapped := true } := by
  have hb : (answers c != 0) = true := bne_iff_ne.mpr hc
  simp only [callChecked, call, handle_error, ne_eq, hc, not_false_iff, if_true, hb,
    Bool.or_true, List.append_assoc, List.singleton_append]

end Host

/-- An event makes at most one USB call of its own. -/
theorem handleEvent_eq (hdr : UsbHeader) (answers : Answers) (info : UsbEventInfo) (h : Host) :
    handleEvent hdr answers info h = h ∨ ∃ sndBuf c, c ≠ .R_USB_Close ∧
      handleEvent hdr answers info h = { h with sndBuf }.callChecked answers c := by
  have calls (sndBuf : Vector Byte 8) (c : UsbCall) (hc : c ≠ .R_USB_Close) {h' : Host}
      (he : h' = { h with sndBuf }.callChecked answers c) : h' = h ∨ ∃ sndBuf c,
        c ≠ .R_USB_Close ∧ h' = { h with sndBuf }.callChecked answers c :=
    Or.inr ⟨sndBuf, c, hc, he⟩
  unfold handleEvent
  cases info.event with
  | CONFIGURED => exact calls h.sndBuf (.R_USB_HostControlTransfer _ _ _) nofun rfl
  | READ_COMPLETE =>
    simp only [usb_data_process]
    split
    · split
      · exact calls _ (.R_USB_Write _ _) nofun rfl
      · exact calls h.sndBuf (.R_USB_Read _ _ _) nofun rfl
    · exact calls h.sndBuf (.R_USB_Read _ _ _) nofun rfl
  | WRITE_COMPLETE => exact calls h.sndBuf (.R_USB_Read _ _ _) nofun rfl
  | REQUEST_COMPLETE =>
    simp only
    split
    · exact calls h.sndBuf (.R_USB_HostControlTransfer _ _ _) nofun rfl
    · split
      · exact calls h.sndBuf (.R_USB_HostControlTransfer _ _ _) nofun rfl
      · split
        · exact calls h.sndBuf (.R_USB_Write _ _) nofun rfl
        · exact Or.inl rfl
  | OTHER => exact Or.inl rfl

end UsbCdc.UsbHcdc
