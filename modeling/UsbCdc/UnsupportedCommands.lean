import UsbCdc.ParseDataCorrectness
import UsbCdc.ProcessDataTask

/-! # Replies to commands outside the table

Such a reply repeats the command, so it is longer than the command. The parser admits
commands for which it no longer fits into the buffer of `USB_CDC_printf`. -/
namespace UsbCdc.UnsupportedCommands
open CStrings CommandCuts CommandDispatch CommandGrammar CommandSupport ParseData
  ParseDataCorrectness ProcessDataTask RingBuf UsbLog

/-- The longest command with a reply of at most 511 bytes. -/
def maxReplied : ℕ := 493

/-- `parseData` announces `cmd` for some string that the ring can deliver. -/
def Placeable (cmd : List Byte) : Prop :=
  ∃ input p q r, 0 ∉ input ∧ input.length < ringBufferSize ∧
    parseData (cleanParserData p) input = .ok (q, r) ∧ cmd ∈ q.strings

theorem placeable_iff {cmd : List Byte} :
    Placeable cmd ↔ IsCommand cmd ∧ 0 ∉ cmd ∧ cmd.length < ringBufferSize := by
  constructor
  · rintro ⟨input, p, q, r, h0, hl, hok, hm⟩
    rw [strings_of_parseData hl h0 hok] at hm
    obtain ⟨hc, hi⟩ := isCommand_of_mem hm
    exact ⟨hc, fun h => h0 (hi.mem h), hi.length_le.trans_lt hl⟩
  · rintro ⟨hc, h0, hl⟩
    have hone : commandsIn cmd = [cmd] := by
      have h := commandsIn_command hc []
      rwa [List.append_nil] at h
    obtain ⟨q, r, hok⟩ := parseData_of_le (cleanParserData default) hl (by simp [hone])
    refine ⟨cmd, default, q, r, h0, hl, hok, ?_⟩
    rw [strings_of_parseData hl h0 hok, hone]
    exact List.mem_singleton_self cmd

section Reply
variable {char : PlainChar} {table : List CDC_Commands_Type} {cmdStr : List Byte}
  (hlook : hashTableLookup char table cmdStr = 0)
include hlook

theorem dispatch_eq_none : dispatch char table cmdStr = none := by
  simp [dispatch, hlook]

theorem reply_eq : reply char table cmdStr = cString cmdStr ++ text "is not supported\r\n" := by
  simp only [reply, dispatch_eq_none hlook]

theorem length_reply : (reply char table cmdStr).length = strlen cmdStr + 18 := by
  rw [reply_eq hlook, List.length_append]
  rfl

/-- A reply that is too long is dropped as a whole, and nobody looks at the error. -/
theorem processData_of_le (hl : bufferSize ≤ (reply char table cmdStr).length) (p : WritePipe) :
    processData char table p cmdStr = some p := by
  rw [reply_eq hlook] at hl
  simp only [processData, dispatch_eq_none hlook]
  rw [USB_CDC_printf_of_le (expand_notSupported cmdStr) hl]
  rfl

end Reply

/-- A command outside the table gets its reply, whole and accepted by the driver, if and
only if it has at most 493 characters. -/
theorem unsupported_reply_iff (char : PlainChar) (cmdStr : List Byte) (p : WritePipe)
    (hlook : hashTableLookup char (initHashTable char CDC_Command_Table) cmdStr = 0)
    (hf : p.inFlight = false) :
    (processData char (initHashTable char CDC_Command_Table) p cmdStr).map WritePipe.calls =
      some (p.calls ++ [⟨cString cmdStr ++ text "is not supported\r\n", true⟩]) ↔
      strlen cmdStr ≤ maxReplied := by
  have hlen := length_reply hlook
  constructor
  · intro h
    by_contra hlt
    rw [processData_of_le hlook (by rw [hlen, bufferSize]; rw [maxReplied] at hlt; omega)] at h
    simp at h
  · intro hl
    rw [processData_of_lt (by rw [hlen, bufferSize]; rw [maxReplied] at hl; omega), reply_eq hlook]
    simp [WritePipe.usbWrite, hf]

theorem unsupported_reply_iff_at :
    (processData .unsigned (initHashTable .unsigned CDC_Command_Table) default
      (text "AT\r\n")).map WritePipe.calls =
        some ([] ++ [⟨text "AT\r\n" ++ text "is not supported\r\n", true⟩]) ↔
      strlen (text "AT\r\n") ≤ maxReplied :=
  unsupported_reply_iff .unsigned (text "AT\r\n") default rfl rfl

/-- A command of 494 characters. -/
def longCommand : List Byte := text "AT" ++ List.replicate 490 'x'.toUInt8 ++ text "\r\n"

theorem length_longCommand : longCommand.length = 494 := by
  rw [longCommand, List.length_append, List.length_append, List.length_replicate]
  rfl

theorem placeable_longCommand : Placeable longCommand := by
  refine placeable_iff.mpr ⟨⟨List.replicate 490 'x'.toUInt8, ?_, rfl⟩, ?_, ?_⟩
  · intro h
    exact absurd (List.eq_of_mem_replicate h) (by decide)
  · simp only [longCommand, List.mem_append, not_or]
    refine ⟨⟨by decide, fun h => ?_⟩, by decide⟩
    exact absurd (List.eq_of_mem_replicate h) (by decide)
  · rw [length_longCommand]
    decide

theorem long_command_gets_no_reply : ¬ ∀ (char : PlainChar) (cmd : List Byte) (p : WritePipe),
    Placeable cmd → hashTableLookup char (initHashTable char CDC_Command_Table) cmd = 0 →
      p.inFlight = false →
      (processData char (initHashTable char CDC_Command_Table) p cmd).map WritePipe.calls =
        some (p.calls ++ [⟨cmd ++ text "is not supported\r\n", true⟩]) := by
  intro h
  have hlook : hashTableLookup .unsigned (initHashTable .unsigned CDC_Command_Table)
      longCommand = 0 := by decide +kernel
  have hno := h .unsigned longCommand default placeable_longCommand hlook rfl
  have hlen : (reply .unsigned (initHashTable .unsigned CDC_Command_Table) longCommand).length =
      512 := by
    rw [length_reply hlook, strlen, cString_of_notMem (placeable_iff.mp placeable_longCommand).2.1,
      length_longCommand]
  rw [processData_of_le hlook hlen.ge] at hno
  cases hno

end UsbCdc.UnsupportedCommands
