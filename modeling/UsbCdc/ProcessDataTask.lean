import UsbCdc.CommandDispatch
import UsbCdc.UsbLog

/-! # From the command queue to the reply -/
namespace UsbCdc.ProcessDataTask
open CStrings CommandDispatch CommandSupport UsbLog

def handlerName : Handler → List Byte
  | .AT_LED_HANDLER => text "AT_LED_HANDLER"
  | .AT_BLINK_HANDLER => text "AT_BLINK_HANDLER"
  | .AT_TIME_HANDLER => text "AT_TIME_HANDLER"

/-- The three handlers; each drops the result of `USB_CDC_printf`. -/
def runHandler (h : Handler) (p : WritePipe) : Option WritePipe :=
  (USB_CDC_printf p (text "%s is called\r\n") [handlerName h]).map Prod.snd

/-- What `process_data_task` does after `xQueueReceive` has filled `cmdStr`. -/
def processData (char : PlainChar) (table : List CDC_Commands_Type) (p : WritePipe)
    (cmdStr : List Byte) : Option WritePipe :=
  match dispatch char table cmdStr with
  | some pfunc => runHandler pfunc p
  | none => (USB_CDC_printf p (text "%sis not supported\r\n") [cmdStr]).map Prod.snd

/-- The reply to a command, however long. -/
def reply (char : PlainChar) (table : List CDC_Commands_Type) (cmdStr : List Byte) : List Byte :=
  match dispatch char table cmdStr with
  | some pfunc => handlerName pfunc ++ text " is called\r\n"
  | none => cString cmdStr ++ text "is not supported\r\n"

variable {char : PlainChar} {table : List CDC_Commands_Type} {cmdStr : List Byte}

theorem expand_called (h : Handler) : expand (text "%s is called\r\n") [handlerName h] =
    some (handlerName h ++ text " is called\r\n") := by
  cases h <;> rfl

theorem length_called (h : Handler) :
    (handlerName h ++ text " is called\r\n").length < bufferSize := by
  cases h <;> decide

theorem expand_notSupported (cmdStr : List Byte) :
    expand (text "%sis not supported\r\n") [cmdStr] =
      some (cString cmdStr ++ text "is not supported\r\n") := by
  rfl

/-- A reply that fits into the local buffer is handed to `R_USB_Write` as a whole. -/
theorem processData_of_lt (hl : (reply char table cmdStr).length < bufferSize) (p : WritePipe) :
    processData char table p cmdStr = some (p.usbWrite (reply char table cmdStr)).2 := by
  cases hd : dispatch char table cmdStr with
  | some pfunc =>
    simp only [processData, reply, hd] at hl ⊢
    rw [runHandler, USB_CDC_printf_of_lt (expand_called pfunc) hl, Option.map_some,
      usbTransmit_all]
  | none =>
    simp only [processData, reply, hd] at hl ⊢
    rw [USB_CDC_printf_of_lt (expand_notSupported cmdStr) hl, Option.map_some, usbTransmit_all]

/-- The texts around a command leave room for 400 characters, and for far more. -/
theorem length_reply_lt (hl : strlen cmdStr ≤ 400) :
    (reply char table cmdStr).length < bufferSize := by
  rw [reply]
  cases dispatch char table cmdStr with
  | some pfunc => exact length_called pfunc
  | none =>
    have ht : (text "is not supported\r\n").length = 18 := by decide
    simp only [List.length_append, ht, bufferSize]
    rw [strlen] at hl
    omega

end UsbCdc.ProcessDataTask
