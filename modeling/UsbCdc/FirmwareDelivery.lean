import UsbCdc.FirmwareCommands

/-! # From the packets to the replies

`usb_pcdc_task` re-reads `g_usb_buf` at every iteration of `writeData`, long after it has
armed the next read. As long as the buffer is left alone until it has been cleared, all
bytes of the packets pass through `readData`. -/
namespace UsbCdc.Firmware
open CStrings CommandGrammar CommandHandover CommandSupport LabelledRuns PacketDelivery
  PacketIngestion ReadBufferTask RingBuf UsbPcdc

/-- What `writeData` still has to copy, if nobody touches the buffer. -/
def unread (s : State) : List Byte :=
  match s.copying with
  | some (dataLength, i) => (s.device.usbBuf.toList.take dataLength).drop i
  | none => PacketDelivery.pending s.device

def held (s : State) : List Byte := s.device.appended ++ unread s

/-- A packet finds a buffer that has been cleared and that nobody is about to clear, and no
`SUSPEND` clears bytes that are still to be copied. -/
def BufferFree (s : State) : FirmwareAction → Prop
  | .packet p => p = [] ∨ unread s = [] ∧ s.copying = none ∧ ¬ Copied s.device
  | .event .SUSPEND => unread s = []
  | _ => True

/-- NUL-free packets that leave room for a terminator, and no `DETACH`. -/
def InScope : FirmwareAction → Prop
  | .packet p => 0 ∉ p ∧ p.length ≤ 511
  | .event e => e ≠ .DETACH
  | _ => True

instance : (a : FirmwareAction) → Decidable (InScope a)
  | .packet p => inferInstanceAs (Decidable (0 ∉ p ∧ p.length ≤ 511))
  | .event e => inferInstanceAs (Decidable (e ≠ .DETACH))
  | .usb_pcdc_task | .read_buffer_task | .process_data_task => isTrue trivial

variable {char : PlainChar} {s t : State} {a : FirmwareAction}

/-- How many of the bytes held came in a packet: a NUL did not. -/
def stored (s : State) : ℕ := (held s).countP (· ≠ 0)

/-- A copy that is not done yet is one of the string that is in the buffer now. -/
def Measured (s : State) : Prop :=
  ∀ dataLength i, s.copying = some (dataLength, i) → i < dataLength →
    dataLength = (bufString s.device).length

/-- What a step does to the bytes; `p` is what the driver delivers in it. -/
structure Carries (s : State) (a : FirmwareAction) (t : State) (p : List Byte) : Prop where
  delivered : t.device.delivered.flatten = s.device.delivered.flatten ++ p
  held : BufferFree s a → Measured s → held t = held s ++ p ∧ Measured t
  lost : ¬ BufferFree s a → Measured s → stored t < stored s + p.length
  bounded : stored t ≤ stored s + p.length

private theorem stored_le_of_held {p : List Byte} (h : held t = held s ++ p) :
    stored t ≤ stored s + p.length := by
  rw [stored, h, List.countP_append]
  exact Nat.add_le_add_left List.countP_le_length _

/-- Steps that move no byte between the host and the ring. -/
private theorem Carries.quiet (hb : BufferFree s a) (hd : t.device.delivered = s.device.delivered)
    (hh : Firmware.held t = Firmware.held s) (hm : Measured s → Measured t) :
    Carries s a t [] := by
  refine ⟨by rw [hd, List.append_nil], fun _ hs => ⟨by rw [hh, List.append_nil], hm hs⟩,
    fun h => absurd hb h, stored_le_of_held (by rw [hh, List.append_nil])⟩

/-- The firmware after the first configuration. -/
def configuredState : State := { initialState with device := configuredDevice }

theorem run_configuredState (char : PlainChar) (as : List FirmwareAction) :
    run (step char) initialState (.event .CONFIGURED :: .event .REQUEST_COMPLETE :: as) =
      run (step char) configuredState as := rfl

def Sound (s : State) : Prop := Running s ∧ Receiving s.device

/-- One command on its way through all three tasks. -/
def exchange : List FirmwareAction :=
  .packet (text "AT\r\n") :: (List.replicate 10 .usb_pcdc_task ++
    (List.replicate 8 .read_buffer_task ++ List.replicate 2 .process_data_task))

end UsbCdc.Firmware
