import UsbCdc.LabelledRuns
import UsbCdc.UsbHcdc

/-! # The error path of the host

`usb_hcdc_task` interleaved with `usb_rtos_callback`, with every outcome of the calls that
they make. A breakpoint of an error trap stops the program until a debugger lets it go
on. -/
namespace UsbCdc.HostErrors
open LabelledRuns UsbHcdc

/-- The next call in the loop of `usb_hcdc_task`. -/
inductive LoopPoint
  | errFlag
  | xQueueReceive
  | eventSwitch
deriving DecidableEq, Repr

def hcdcQueueLength : ℕ := 20

/-- What happened in an iteration of the loop. -/
structure Iteration where
  /-- `g_err_flag` at the top. -/
  errFlag : Bool
  /-- What `xQueueReceive` has returned. -/
  received : Option Bool
  dispatched : Bool
  calls : List (UsbCall × FspErr)
  errors : List FspErr
deriving DecidableEq

structure HostTask where
  /-- The logs begin with the iteration. -/
  host : Host
  errFlag : Bool
  eventInfo : Option UsbEventInfo
  queue : List UsbEventInfo
  point : LoopPoint
  /-- Stopped by a read through a null pointer. -/
  faulted : Bool
  sawErrFlag : Bool
  received : Option Bool
  dispatched : Bool
  finished : List Iteration

namespace HostTask

def iteration (s : HostTask) : Iteration :=
  ⟨s.sawErrFlag, s.received, s.dispatched, s.host.calls, s.host.errors⟩

/-- The program does not go on by itself. -/
def Stopped (s : HostTask) : Prop := s.host.trapped = true ∨ s.faulted = true

instance (s : HostTask) : Decidable s.Stopped := inferInstanceAs (Decidable (_ ∨ _))

/-- The iterations that are over, and the one in which the program has stopped. -/
def iterations (s : HostTask) : List Iteration :=
  s.finished ++ (if s.Stopped ∧ s.point ≠ .errFlag then [s.iteration] else [])

end HostTask

inductive HostAction
  | usb_rtos_callback (info : UsbEventInfo) (sent : Bool)
  | checkErrFlag (answers : Answers)
  | receive (ok : Bool) (answers : Answers)
  | dispatch (answers : Answers)
  | resume

def initialTask (answers : Answers) : HostTask where
  host := openUsb answers default
  errFlag := false
  eventInfo := none
  queue := []
  point := .errFlag
  faulted := false
  sawErrFlag := false
  received := none
  dispatched := false
  finished := []

/-- `xQueueSend` puts the event into a free slot, or fails. -/
def usb_rtos_callback (info : UsbEventInfo) (sent : Bool) (s : HostTask) : Option HostTask :=
  if sent then
    if s.queue.length < hcdcQueueLength then some { s with queue := s.queue ++ [info] } else none
  else some { s with errFlag := true }

def checkErrFlag (answers : Answers) (s : HostTask) : HostTask :=
  let host := { s.host with calls := [], errors := [] }
  { s with
    host := if s.errFlag then host.handle_error answers 1 else host
    point := .xQueueReceive
    sawErrFlag := s.errFlag
    received := none
    dispatched := false }

/-- The check behind `xQueueReceive` takes its result for an `fsp_err_t`. -/
def checkReceived (answers : Answers) (errQueue : ℕ) (h : Host) : Host :=
  if errQueue ≠ FSP_SUCCESS then h.handle_error answers errQueue else h

def receive (ok : Bool) (answers : Answers) (s : HostTask) : Option HostTask :=
  if ok then
    match s.queue with
    | [] => none
    | info :: queue => some { s with
        host := checkReceived answers pdTRUE s.host
        eventInfo := some info
        queue
        point := .eventSwitch
        received := some true }
  else some { s with
    host := checkReceived answers pdFALSE s.host
    point := .eventSwitch
    received := some false }

def dispatch (hdr : UsbHeader) (answers : Answers) (s : HostTask) : HostTask :=
  match s.eventInfo with
  | none => { s with faulted := true, dispatched := true }
  | some info =>
    let s := { s with
      host := handleEvent hdr answers info s.host, point := .errFlag, dispatched := true }
    { s with finished := s.finished ++ [s.iteration] }

def step (hdr : UsbHeader) (s : HostTask) (a : HostAction) : Option HostTask :=
  if s.faulted then none
  else if s.host.trapped then
    match a with
    | .resume => some { s with host := { s.host with trapped := false } }
    | _ => none
  else match a, s.point with
  | .usb_rtos_callback info sent, _ => usb_rtos_callback info sent s
  | .checkErrFlag answers, .errFlag => some (checkErrFlag answers s)
  | .receive ok answers, .xQueueReceive => receive ok answers s
  | .dispatch answers, .eventSwitch => some (dispatch hdr answers s)
  | _, _ => none

/-- What a step can be. -/
inductive Moves (hdr : UsbHeader) (s : HostTask) : HostAction → HostTask → Prop
  | resume (hf : s.faulted = false) :
      Moves hdr s .resume { s with host := { s.host with trapped := false } }
  | sent (info : UsbEventInfo) (hl : s.queue.length < hcdcQueueLength) :
      Moves hdr s (.usb_rtos_callback info true) { s with queue := s.queue ++ [info] }
  | refused (info : UsbEventInfo) :
      Moves hdr s (.usb_rtos_callback info false) { s with errFlag := true }
  | checkErrFlag (answers : Answers) : Moves hdr s (.checkErrFlag answers) (checkErrFlag answers s)
  | received (answers : Answers) (hp : s.point = .xQueueReceive) {info : UsbEventInfo}
      {queue : List UsbEventInfo} (hq : s.queue = info :: queue) :
      Moves hdr s (.receive true answers) { s with
        host := checkReceived answers pdTRUE s.host
        eventInfo := some info
        queue
        point := .eventSwitch
        received := some true }
  | nothing (answers : Answers) (hp : s.point = .xQueueReceive) (hgo : ¬ s.Stopped) :
      Moves hdr s (.receive false answers) { s with
        host := checkReceived answers pdFALSE s.host
        point := .eventSwitch
        received := some false }
  | dispatch (answers : Answers) (hp : s.point = .eventSwitch) :
      Moves hdr s (.dispatch answers) (dispatch hdr answers s)

theorem moves_of_step {hdr : UsbHeader} {s t : HostTask} {a : HostAction}
    (hst : step hdr s a = some t) : Moves hdr s a t := by
  unfold step at hst
  split at hst
  · cases hst
  · rename_i hf
    split at hst
    · cases a with
      | resume =>
        cases hst
        exact .resume (Bool.eq_false_iff.mpr hf)
      | _ => cases hst
    · rename_i ht
      split at hst
      · rename_i info sent
        rw [usb_rtos_callback] at hst
        cases sent with
        | true =>
          obtain ⟨hl, ht⟩ := Option.ite_none_right_eq_some.mp hst
          cases ht
          exact .sent info hl
        | false =>
          cases hst
          exact .refused info
      · cases hst
        exact .checkErrFlag _
      · rename_i ok answers hp
        cases ok with
        | true =>
          rw [receive] at hst
          cases hq : s.queue with
          | nil =>
            rw [hq] at hst
            cases hst
          | cons info queue =>
            rw [hq] at hst
            cases hst
            exact .received answers hp hq
        | false =>
          cases hst
          exact .nothing answers hp (not_or.mpr ⟨ht, hf⟩)
      · rename_i hp
        cases hst
        exact .dispatch _ hp
      · cases hst

def Failed (calls : List (UsbCall × FspErr)) : Prop := ∃ c ∈ calls, c.2 ≠ FSP_SUCCESS

def Closes (calls : List (UsbCall × FspErr)) : Prop := ∃ c ∈ calls, c.1 = .R_USB_Close

/-- The calls made outside of `handle_error`, which is what closes the module. -/
def outside (calls : List (UsbCall × FspErr)) : List (UsbCall × FspErr) :=
  calls.filter (fun c => c.1 ≠ .R_USB_Close)

theorem failed_append {calls calls' : List (UsbCall × FspErr)} :
    Failed (calls ++ calls') ↔ Failed calls ∨ Failed calls' := by
  simp [Failed, or_and_right, exists_or]

theorem not_failed_singleton (c : UsbCall) : ¬ Failed [(c, FSP_SUCCESS)] := by simp [Failed]

theorem closes_append {calls calls' : List (UsbCall × FspErr)} :
    Closes (calls ++ calls') ↔ Closes calls ∨ Closes calls' := by
  simp [Closes, or_and_right, exists_or]

@[simp] theorem outside_append (calls calls' : List (UsbCall × FspErr)) :
    outside (calls ++ calls') = outside calls ++ outside calls' := List.filter_append calls calls'

@[simp] theorem outside_close (err : FspErr) : outside [(.R_USB_Close, err)] = [] := rfl

theorem outside_singleton {c : UsbCall} (hc : c ≠ .R_USB_Close) (err : FspErr) :
    outside [(c, err)] = [(c, err)] := by
  simp [outside, hc]

/-- A call that has failed is made outside of `handle_error` or closes the module. -/
theorem failed_outside_or_closes {calls : List (UsbCall × FspErr)} (h : Failed calls) :
    Failed (outside calls) ∨ Closes calls := by
  obtain ⟨c, hc, hne⟩ := h
  by_cases hcl : c.1 = .R_USB_Close
  · exact Or.inr ⟨c, hc, hcl⟩
  · exact Or.inl ⟨c, List.mem_filter.mpr ⟨hc, decide_eq_true hcl⟩, hne⟩

theorem Failed.of_outside {calls : List (UsbCall × FspErr)} (h : Failed (outside calls)) :
    Failed calls := by
  obtain ⟨c, hc, hne⟩ := h
  exact ⟨c, List.mem_of_mem_filter hc, hne⟩

namespace Iteration

/-- The iteration without the calls that `handle_error` makes. -/
def outside (it : Iteration) : Iteration := { it with calls := HostErrors.outside it.calls }

/-- `handle_error` is called on errors and only then, and no event is dispatched after a
failed receive. -/
def ErrorPath (it : Iteration) : Prop :=
  (it.errors ≠ [] ↔ it.errFlag = true ∨ it.received = some false ∨ Failed it.calls) ∧
    (it.dispatched = true → it.received = some true)

/-- Nothing has been received yet, or a receive has succeeded and something else failed. -/
def Masked (it : Iteration) : Prop :=
  it.received = none ∨ it.received = some true ∧ (it.errFlag = true ∨ Failed it.calls)

end Iteration

/-- `handle_error` has been called if `cause` holds or a USB call outside of it has failed,
and it is what closes the module. -/
structure Reports (h : Host) (cause : Prop) : Prop where
  errors : h.errors ≠ [] ↔ cause ∨ Failed (outside h.calls)
  closes : Closes h.calls ↔ h.errors ≠ []

section Reports
variable {h : Host} {cause : Prop} (answers : Answers)

theorem reports_empty (h : Host) : Reports { h with calls := [], errors := [] } False where
  errors := by simp [Failed, outside]
  closes := by simp [Closes]

theorem reports_handle_error (h : Host) (err : FspErr) (hc : cause) :
    Reports (h.handle_error answers err) cause where
  errors := by simp [Host.handle_error, hc]
  closes := by simp [Host.handle_error, Host.call, Closes]

theorem Reports.callChecked (hr : Reports h cause) {c : UsbCall} (hc : c ≠ .R_USB_Close) :
    Reports (h.callChecked answers c) cause := by
  have hout := outside_singleton hc (answers c)
  by_cases ha : answers c = FSP_SUCCESS
  · rw [ha] at hout
    rw [Host.callChecked_ok ha]
    constructor
    · rw [outside_append, hout, failed_append, or_iff_left (not_failed_singleton c)]
      exact hr.errors
    · rw [closes_append, or_iff_left (by simp [Closes, hc])]
      exact hr.closes
  · rw [Host.callChecked_failed ha]
    have hcalls : h.calls ++ [(c, answers c), (.R_USB_Close, answers .R_USB_Close)] =
        h.calls ++ [(c, answers c)] ++ [(.R_USB_Close, answers .R_USB_Close)] := by simp
    constructor
    · have hf : Failed [(c, answers c)] := ⟨_, List.mem_singleton_self _, ha⟩
      rw [hcalls, outside_append, outside_append, hout, failed_append, failed_append]
      simp [hf]
    · have hcl : Closes [(.R_USB_Close, answers .R_USB_Close)] :=
        ⟨_, List.mem_singleton_self _, rfl⟩
      rw [hcalls, closes_append]
      simp [hcl]

theorem Reports.of_iff {cause' : Prop} (hr : Reports h cause) (hc : cause ↔ cause') :
    Reports h cause' := by
  rwa [← propext hc]

theorem Reports.handleEvent (hr : Reports h cause) (hdr : UsbHeader) (info : UsbEventInfo) :
    Reports (handleEvent hdr answers info h) cause := by
  rcases handleEvent_eq hdr answers info h with he | ⟨sndBuf, c, hc, he⟩
  · rw [he]
    exact hr
  · rw [he]
    exact Reports.callChecked (h := { h with sndBuf }) answers ⟨hr.errors, hr.closes⟩ hc

theorem Reports.checkReceived (hr : Reports h cause) (errQueue : ℕ) :
    Reports (checkReceived answers errQueue h) (cause ∨ errQueue ≠ FSP_SUCCESS) := by
  rw [HostErrors.checkReceived]
  split
  · rename_i he
    exact reports_handle_error answers h errQueue (Or.inr he)
  · rename_i he
    refine ⟨?_, hr.closes⟩
    rw [hr.errors, or_iff_left he]

end Reports

/-- What causes `handle_error` in an iteration, USB calls apart: the sticky flag and a
receive that succeeds. -/
def Iteration.Cause (it : Iteration) : Prop := it.errFlag = true ∨ it.received = some true

/-- An iteration that is over, or in which the program has stopped. -/
structure Iteration.Settled (it : Iteration) : Prop where
  outside : it.errors ≠ [] ↔ it.Cause ∨ Failed it.outside.calls
  closes : Closes it.calls ↔ it.errors ≠ []
  before : it.received = none → it.dispatched = false
  after : it.received = some false → it.dispatched = true

/-- A failed `R_USB_Close` comes too late to be a cause. -/
theorem Iteration.Settled.errors {it : Iteration} (h : it.Settled) :
    it.errors ≠ [] ↔ it.Cause ∨ Failed it.calls := by
  constructor
  · intro he
    exact (h.outside.mp he).imp_right Failed.of_outside
  · rintro (hc | hf)
    · exact h.outside.mpr (Or.inl hc)
    · rcases failed_outside_or_closes hf with hf | hcl
      · exact h.outside.mpr (Or.inr hf)
      · exact h.closes.mp hcl

theorem Iteration.errorPath_iff {it : Iteration} (he : it.errors ≠ [] ↔ it.Cause ∨ Failed it.calls)
    (hb : it.received = none → it.dispatched = false)
    (ha : it.received = some false → it.dispatched = true) : it.ErrorPath ↔ it.Masked := by
  simp only [Iteration.Cause] at he
  simp only [Iteration.ErrorPath, Iteration.Masked]
  cases hr : it.received with
  | none => simpa [hr, hb hr] using he
  | some ok =>
    cases ok with
    | false => simp [ha hr]
    | true =>
      have hne : it.errors ≠ [] := he.mpr (Or.inl (Or.inr hr))
      simp [hne]

/-- The invariant of the loop. -/
structure Sound (s : HostTask) : Prop where
  finished : ∀ it ∈ s.finished, it.Settled
  reports : s.point ≠ .errFlag → Reports s.host s.iteration.Cause
  receiving : s.point = .xQueueReceive → s.received = none ∧ s.dispatched = false
  switching : s.point = .eventSwitch → s.received ≠ none
  stopped : s.point = .eventSwitch → s.Stopped → s.received = some false → s.dispatched = true

theorem Sound.settled {s : HostTask} (h : Sound s) (hp : s.point ≠ .errFlag) (hs : s.Stopped) :
    s.iteration.Settled := by
  have hr := h.reports hp
  cases hpt : s.point with
  | errFlag => exact absurd hpt hp
  | xQueueReceive =>
    obtain ⟨hn, hd⟩ := h.receiving hpt
    exact ⟨hr.errors, hr.closes, fun _ => hd, fun hf => absurd (hn.symm.trans hf) nofun⟩
  | eventSwitch =>
    exact ⟨hr.errors, hr.closes, fun hn => absurd hn (h.switching hpt), h.stopped hpt hs⟩

theorem Sound.iterations {s : HostTask} (h : Sound s) : ∀ it ∈ s.iterations, it.Settled := by
  intro it hit
  rcases List.mem_append.mp hit with hit | hit
  · exact h.finished it hit
  · split at hit
    · rename_i hs
      rw [List.mem_singleton.mp hit]
      exact h.settled hs.2 hs.1
    · cases hit

variable {hdr : UsbHeader} {s t : HostTask} {a : HostAction}

private theorem Sound.checkErrFlag (answers : Answers) (h : Sound s) :
    Sound (checkErrFlag answers s) where
  finished := h.finished
  reports _ := by
    simp only [HostErrors.checkErrFlag, HostTask.iteration, Iteration.Cause]
    split
    · rename_i hf
      exact reports_handle_error answers _ 1 (Or.inl hf)
    · rename_i hf
      simpa [hf] using reports_empty s.host
  receiving _ := ⟨rfl, rfl⟩
  switching := nofun
  stopped := nofun

/-- In front of the receive only the flag counts as a cause. -/
private theorem Sound.cause_receiving (h : Sound s) (hp : s.point = .xQueueReceive) :
    Reports s.host (s.sawErrFlag = true) := by
  apply (h.reports (by simp [hp])).of_iff
  simp [Iteration.Cause, HostTask.iteration, (h.receiving hp).1]

private theorem Sound.dispatch (hdr : UsbHeader) (answers : Answers) (h : Sound s)
    (hp : s.point = .eventSwitch) : Sound (dispatch hdr answers s) := by
  have hr := h.reports (by simp [hp])
  rw [HostErrors.dispatch]
  split
  · refine ⟨h.finished, fun _ => hr, fun hx => ?_, fun _ => h.switching hp, fun _ _ _ => rfl⟩
    simp [hp] at hx
  · rename_i info he
    refine ⟨?_, nofun, nofun, nofun, nofun⟩
    intro it hit
    rcases List.mem_append.mp hit with hit | hit
    · exact h.finished it hit
    · rw [List.mem_singleton.mp hit]
      have hr' := hr.handleEvent answers hdr info
      exact ⟨hr'.errors, hr'.closes, fun hn => absurd hn (h.switching hp), fun _ => rfl⟩

theorem Sound.step (h : Sound s) (hst : step hdr s a = some t) : Sound t := by
  cases moves_of_step hst with
  | resume hf =>
    refine ⟨h.finished, fun hp => ?_, h.receiving, h.switching, fun _ hs => ?_⟩
    · exact ⟨(h.reports hp).errors, (h.reports hp).closes⟩
    · simp [HostTask.Stopped, hf] at hs
  | sent info hl => exact ⟨h.finished, h.reports, h.receiving, h.switching, h.stopped⟩
  | refused info => exact ⟨h.finished, h.reports, h.receiving, h.switching, h.stopped⟩
  | checkErrFlag answers => exact h.checkErrFlag answers
  | received answers hp hq =>
    refine ⟨h.finished, fun _ => ?_, nofun, fun _ => nofun, fun _ _ => nofun⟩
    apply ((h.cause_receiving hp).checkReceived answers pdTRUE).of_iff
    simp [Iteration.Cause, HostTask.iteration, pdTRUE, FSP_SUCCESS]
  | nothing answers hp hgo =>
    refine ⟨h.finished, fun _ => ?_, nofun, fun _ => nofun, fun _ hs => absurd hs hgo⟩
    apply ((h.cause_receiving hp).checkReceived answers pdFALSE).of_iff
    simp [Iteration.Cause, HostTask.iteration, pdFALSE, FSP_SUCCESS]
  | dispatch answers hp => exact h.dispatch hdr answers hp

theorem sound_initialTask (answers : Answers) : Sound (initialTask answers) where
  finished it hit := by cases hit
  reports h := absurd rfl h
  receiving := nofun
  switching := nofun
  stopped := nofun

/-- Every call of the action succeeds. -/
def HostAction.Succeeds : HostAction → Prop
  | .usb_rtos_callback _ sent => sent = true
  | .checkErrFlag answers | .dispatch answers => ∀ c, answers c = FSP_SUCCESS
  | .receive ok answers => ok = true ∧ ∀ c, answers c = FSP_SUCCESS
  | .resume => True

/-- No call has failed so far. -/
structure Smooth (s : HostTask) : Prop where
  flag : s.errFlag = false
  sawFlag : s.sawErrFlag = false
  current : ¬ Failed s.host.calls
  finished : ∀ it ∈ s.finished, it.errFlag = false ∧ ¬ Failed it.calls

theorem not_failed_concat {calls : List (UsbCall × FspErr)} {c : UsbCall} (h : ¬ Failed calls) :
    ¬ Failed (calls ++ [(c, FSP_SUCCESS)]) := by
  rw [failed_append, not_or]
  exact ⟨h, not_failed_singleton c⟩

theorem not_failed_handleEvent (hdr : UsbHeader) {answers : Answers} (ha : ∀ c, answers c = FSP_SUCCESS)
    (info : UsbEventInfo) {h : Host} (hc : ¬ Failed h.calls) :
    ¬ Failed (handleEvent hdr answers info h).calls := by
  rcases handleEvent_eq hdr answers info h with he | ⟨sndBuf, c, -, he⟩
  · rw [he]
    exact hc
  · rw [he, Host.callChecked_ok (ha c)]
    exact not_failed_concat hc

theorem not_failed_checkReceived {answers : Answers} (ha : ∀ c, answers c = FSP_SUCCESS)
    (errQueue : ℕ) {h : Host} (hc : ¬ Failed h.calls) :
    ¬ Failed (checkReceived answers errQueue h).calls := by
  rw [checkReceived]
  split
  · simp only [Host.handle_error, Host.call, ha]
    exact not_failed_concat hc
  · exact hc

theorem Smooth.step (hs : Smooth s) (ha : a.Succeeds) (hst : HostErrors.step hdr s a = some t) :
    Smooth t := by
  cases moves_of_step hst with
  | resume hf => exact ⟨hs.flag, hs.sawFlag, hs.current, hs.finished⟩
  | sent info hl => exact ⟨hs.flag, hs.sawFlag, hs.current, hs.finished⟩
  | refused info => cases ha
  | checkErrFlag answers =>
    refine ⟨hs.flag, hs.flag, ?_, hs.finished⟩
    simp [checkErrFlag, hs.flag, Failed]
  | received answers hp hq =>
    exact ⟨hs.flag, hs.sawFlag, not_failed_checkReceived ha.2 pdTRUE hs.current, hs.finished⟩
  | nothing answers hp hgo => cases ha.1
  | dispatch answers hp =>
    rw [dispatch]
    split
    · exact ⟨hs.flag, hs.sawFlag, hs.current, hs.finished⟩
    · rename_i info _
      have hc := not_failed_handleEvent hdr ha info hs.current
      refine ⟨hs.flag, hs.sawFlag, hc, ?_⟩
      intro it hit
      rcases List.mem_append.mp hit with hit | hit
      · exact hs.finished it hit
      · rw [List.mem_singleton.mp hit]
        exact ⟨hs.sawFlag, hc⟩

theorem Smooth.iterations (h : Smooth s) :
    ∀ it ∈ s.iterations, it.errFlag = false ∧ ¬ Failed it.calls := by
  intro it hit
  rcases List.mem_append.mp hit with hit | hit
  · exact h.finished it hit
  · split at hit
    · rw [List.mem_singleton.mp hit]
      exact ⟨h.sawFlag, h.current⟩
    · cases hit

theorem Smooth.closes_iff (h : Smooth s) {it : Iteration} (hit : it ∈ s.iterations)
    (hs : it.Settled) : Closes it.calls ↔ it.received = some true := by
  obtain ⟨hf, hc⟩ := h.iterations it hit
  rw [hs.closes, hs.errors, or_iff_left hc, Iteration.Cause, hf]
  simp

theorem smooth_initialTask {answers : Answers} (ha : ∀ c, answers c = FSP_SUCCESS) :
    Smooth (initialTask answers) where
  flag := rfl
  sawFlag := rfl
  current := by
    simp only [initialTask, openUsb, Host.call, ha]
    exact not_failed_concat (by simp [Failed, default])
  finished it hit := by cases hit

/-- An iteration keeps to the error path if and only if it has received nothing, or its
receive succeeds while something else has failed. This is so for all of its calls, the
`R_USB_Close` in `handle_error` among them, and for the calls outside of `handle_error`
alone. Where nothing at all fails, the module is closed in each iteration that receives an
event. -/
theorem error_path_iff (hdr : UsbHeader) (answers : Answers) (as : List HostAction)
    (s : HostTask) (h : run (step hdr) (initialTask answers) as = some s) :
    (∀ it ∈ s.iterations, it.ErrorPath ↔ it.Masked) ∧
    (∀ it ∈ s.iterations, it.outside.ErrorPath ↔ it.outside.Masked) ∧
    ((∀ c, answers c = FSP_SUCCESS) → (∀ a ∈ as, a.Succeeds) →
      ∀ it ∈ s.iterations, Closes it.calls ↔ it.received = some true) := by
  have hs : Sound s := by
    refine run_invariant (A := fun _ => True) (I := Sound) ?_ (fun _ _ => trivial)
      (sound_initialTask answers) h
    intro s a t _ hst hs
    exact hs.step hst
  refine ⟨fun it hit => ?_, fun it hit => ?_, fun hok ha it hit => ?_⟩
  · have hset := hs.iterations it hit
    exact Iteration.errorPath_iff hset.errors hset.before hset.after
  · have hset := hs.iterations it hit
    exact Iteration.errorPath_iff hset.outside hset.before hset.after
  · have hsm : Smooth s := by
      refine run_invariant (A := HostAction.Succeeds) (I := Smooth) ?_ ha
        (smooth_initialTask hok) h
      intro s a t ha hst hs
      exact hs.step ha hst
    exact hsm.closes_iff hit (hs.iterations it hit)

def configuredEvent : UsbEventInfo := ⟨.CONFIGURED, .OTHER, 0, 0, 1⟩

/-- A single event, with every call successful; a debugger goes on at the breakpoint. -/
def successfulIteration : List HostAction :=
  [.usb_rtos_callback configuredEvent true, .checkErrFlag allSucceed, .receive true allSucceed,
    .resume, .dispatch allSucceed]

theorem error_path_iff_successful :
    ∃ s, run (step cdcHeader) (initialTask allSucceed) successfulIteration = some s ∧
      s.iterations.length = 1 ∧ (∀ it ∈ s.iterations, it.ErrorPath ↔ it.Masked) ∧
      (∀ it ∈ s.iterations, it.outside.ErrorPath ↔ it.outside.Masked) ∧
      ((∀ c, allSucceed c = FSP_SUCCESS) → (∀ a ∈ successfulIteration, a.Succeeds) →
        ∀ it ∈ s.iterations, Closes it.calls ↔ it.received = some true) :=
  ⟨_, rfl, rfl, error_path_iff cdcHeader allSucceed successfulIteration _ rfl⟩

theorem successful_receive_is_an_error : ¬ ∀ (hdr : UsbHeader) (answers : Answers)
    (as : List HostAction) (s : HostTask), run (step hdr) (initialTask answers) as = some s →
      ∀ it ∈ s.iterations, it.ErrorPath := by
  intro h
  obtain ⟨herr, -⟩ := h cdcHeader allSucceed successfulIteration _ rfl _ List.mem_cons_self
  rcases herr.mp nofun with hf | hf | hf
  · cases hf
  · cases hf
  · obtain ⟨c, hc, hne⟩ := hf
    rcases List.mem_cons.mp hc with rfl | hc
    · exact hne rfl
    · rw [List.mem_singleton.mp hc] at hne
      exact hne rfl

end UsbCdc.HostErrors
