import UsbCdc.ExclusiveUse
import UsbCdc.UsbPcdc

/-! # Which replies leave the device

Replies and welcome texts share one write pipe, and neither `process_data_task` nor the
callback waits for `USB_STATUS_WRITE_COMPLETE`. -/
namespace UsbCdc.Replies
open CStrings CommandSupport ExclusiveUse LabelledRuns ProcessDataTask UsbLog UsbPcdc

/-- What an action does with the write pipe. -/
def use : DeviceAction → Use
  | .process _ => .acquire
  | .event (.REQUEST .SET_CONTROL_LINE_STATE) => .acquire
  | .event .WRITE_COMPLETE => .release
  | _ => .other

/-- The text that an action hands to `R_USB_Write`. -/
def written (char : PlainChar) : DeviceAction → Option (List Byte)
  | .process cmdStr => some (reply char (initHashTable char CDC_Command_Table) cmdStr)
  | .event (.REQUEST .SET_CONTROL_LINE_STATE) => some p_welcome
  | _ => none

/-- The commands of a run have at most 400 characters. -/
def Short : DeviceAction → Prop
  | .process cmdStr => strlen cmdStr ≤ 400
  | _ => True

variable {char : PlainChar} {d t : Device} {a : DeviceAction}

/-- What a step does with the write pipe, by the use that its action makes of it. -/
structure PipeStep (char : PlainChar) (a : DeviceAction) (p q : WritePipe) : Prop where
  acquire : use a = .acquire → ∃ data, written char a = some data ∧ q = (p.usbWrite data).2
  release : use a = .release → written char a = none ∧ q = p.writeComplete
  other : use a = .other → written char a = none ∧ q = p

private theorem PipeStep.of_other (hu : use a = .other) (hw : written char a = none)
    {p q : WritePipe} (h : q = p) : PipeStep char a p q := by
  refine ⟨fun hx => ?_, fun hx => ?_, fun _ => ⟨hw, h⟩⟩
  · rw [hu] at hx
    cases hx
  · rw [hu] at hx
    cases hx

/-- Every iteration of `process_data_task` asks for one write, of its whole reply. -/
theorem step_process {cmdStr : List Byte} (hs : strlen cmdStr ≤ 400) (hh : d.halted = false) :
    step char d (.process cmdStr) = some { d with pipe :=
      (d.pipe.usbWrite (reply char (initHashTable char CDC_Command_Table) cmdStr)).2 } := by
  rw [step, hh, processData_of_lt (length_reply_lt hs)]
  rfl

theorem step_pipe (hs : Short a) (hst : step char d a = some t) :
    PipeStep char a d.pipe t.pipe := by
  cases (effect_of_step hst).2 with
  | welcome => exact ⟨fun _ => ⟨p_welcome, rfl, rfl⟩, nofun, nofun⟩
  | writeComplete _ => exact ⟨nofun, fun _ => ⟨rfl, rfl⟩, nofun⟩
  | process h =>
    rw [processData_of_lt (length_reply_lt hs)] at h
    exact ⟨fun _ => ⟨_, rfl, (Option.some.inj h).symm⟩, nofun, nofun⟩
  | @request r hr =>
    cases r with
    | SET_CONTROL_LINE_STATE => exact absurd rfl hr
    | SET_LINE_CODING | GET_LINE_CODING | UNSUPPORTED => exact .of_other rfl rfl rfl
  | _ => exact .of_other rfl rfl rfl

/-- What a whole run asks `R_USB_Write` for, and when nothing of it is refused. -/
theorem run_pipe {as : List DeviceAction} (hs : ∀ a ∈ as, Short a) (hr : run (step char) d as = some t) :
    t.pipe.calls.map WriteCall.data =
        d.pipe.calls.map WriteCall.data ++ as.filterMap (written char) ∧
      ((∀ c ∈ t.pipe.calls, c.accepted = true) ↔
        (∀ c ∈ d.pipe.calls, c.accepted = true) ∧ Exclusive use d.pipe.inFlight as) := by
  induction as generalizing d with
  | nil =>
    cases hr
    simp [Exclusive]
  | cons a as ih =>
    obtain ⟨u, hu, hr⟩ := run_cons_eq_some.mp hr
    obtain ⟨hdata, hacc⟩ := ih (fun b hb => hs b (List.mem_cons_of_mem a hb)) hr
    have hp := step_pipe (hs a List.mem_cons_self) hu
    rw [hdata, hacc, Exclusive]
    cases ha : use a with
    | acquire =>
      obtain ⟨data, hw, hq⟩ := hp.acquire ha
      rw [hq]
      constructor
      · simp [WritePipe.usbWrite, hw]
      · simp [WritePipe.usbWrite, or_imp, forall_and, and_assoc]
    | release =>
      obtain ⟨hw, hq⟩ := hp.release ha
      rw [hq]
      simp [WritePipe.writeComplete, hw]
    | other =>
      obtain ⟨hw, hq⟩ := hp.other ha
      rw [hq]
      simp [hw]

/-- Every reply and every welcome text is asked to be written, and all of them are
accepted exactly if between any two there is a `USB_STATUS_WRITE_COMPLETE`. -/
theorem replies_accepted_iff (char : PlainChar) (as : List DeviceAction) (hs : ∀ a ∈ as, Short a)
    (d : Device) (h : run (step char) initialDevice as = some d) :
    d.pipe.calls.map WriteCall.data = as.filterMap (written char) ∧
      ((∀ c ∈ d.pipe.calls, c.accepted = true) ↔ Separated use as) := by
  obtain ⟨hdata, hacc⟩ := run_pipe hs h
  refine ⟨hdata, ?_⟩
  have hnone : ∀ c ∈ initialDevice.pipe.calls, c.accepted = true := List.forall_mem_nil _
  have hidle : initialDevice.pipe.inFlight = false := rfl
  rw [hacc, exclusive_iff, hidle]
  constructor
  · intro hx
    exact hx.2.2
  · intro hsep
    exact ⟨hnone, nofun, hsep⟩

/-- Two commands with the end of the first transfer in between. -/
def twoReplies : List DeviceAction :=
  [.process (text "AT\r\n"), .event .WRITE_COMPLETE, .process (text "AT\r\n")]

theorem replies_accepted_two : ∃ d, run (step .signed) initialDevice twoReplies = some d ∧
    d.pipe.calls.map WriteCall.data = twoReplies.filterMap (written .signed) ∧
      ((∀ c ∈ d.pipe.calls, c.accepted = true) ↔ Separated use twoReplies) := by
  have hs : strlen (text "AT\r\n") ≤ 400 := by decide
  have hr : run (step .signed) initialDevice twoReplies = some _ :=
    run_cons_eq_some.mpr ⟨_, step_process hs rfl, run_cons_eq_some.mpr ⟨_, rfl,
      run_cons_eq_some.mpr ⟨_, step_process hs rfl, rfl⟩⟩⟩
  have hshort : ∀ a ∈ twoReplies, Short a :=
    List.forall_mem_cons.mpr ⟨hs, List.forall_mem_cons.mpr ⟨trivial,
      List.forall_mem_singleton.mpr hs⟩⟩
  exact ⟨_, hr, replies_accepted_iff .signed twoReplies hshort _ hr⟩

/-- Two commands one after the other: the second reply is refused. -/
theorem second_reply_refused : ¬ ∀ (char : PlainChar) (as : List DeviceAction), (∀ a ∈ as, Short a) →
    ∀ d, run (step char) initialDevice as = some d →
      ∀ c ∈ d.pipe.calls, c.accepted = true := by
  intro h
  have hs : strlen (text "AT\r\n") ≤ 400 := by decide
  have hr : run (step .signed) initialDevice [.process (text "AT\r\n"), .process (text "AT\r\n")] =
      some _ :=
    run_cons_eq_some.mpr ⟨_, step_process hs rfl, run_cons_eq_some.mpr ⟨_, step_process hs rfl, rfl⟩⟩
  have hc := h .signed _ ?_ _ hr
  · have hrefused := hc ⟨_, false⟩ (List.mem_append_right _ List.mem_cons_self)
    cases hrefused
  · intro a ha
    rcases List.mem_pair.mp ha with rfl | rfl
    · exact hs
    · exact hs

end UsbCdc.Replies
