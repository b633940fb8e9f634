import UsbCdc.UsbPcdc

/-! # One read at a time

Every armed read, every given `g_usb_read_cpt_sem` and every `usb_pcdc_task` on its way
from the semaphore to `R_USB_Read` is one token. The tasks and the driver pass one token
around; only the callback makes tokens, and only `DETACH` can take one away. -/
namespace UsbCdc.ReadTokens
open CStrings CommandSupport LabelledRuns UsbPcdc

def tokens (d : Device) : ℕ :=
  d.readArmed.toNat + d.usbReadCptSem.toNat + if d.task = .R_USB_Read then 1 else 0

structure OneToken (d : Device) : Prop where
  single : tokens d ≤ 1
  accepted : ∀ c ∈ d.calls, c.accepted = true

/-- Where the callback is about to arm a read, there is no token left. -/
def FreshStart (d : Device) (a : DeviceAction) : Prop :=
  a = .event .REQUEST_COMPLETE → d.usbStatus = .CONFIGURED →
    d.readArmed = false ∧ d.usbReadCptSem = false ∧ d.task ≠ .R_USB_Read

variable {d t : Device}

private theorem accepted_concat {calls : List Call} (h : ∀ c ∈ calls, c.accepted = true)
    (api : Api) : ∀ c ∈ calls ++ [⟨api, true⟩], c.accepted = true := by
  intro c hc
  rcases List.mem_append.mp hc with hc | hc
  · exact h c hc
  · rw [List.mem_singleton.mp hc]

/-- The other places are empty while a read is armed. -/
theorem OneToken.of_armed (h : OneToken d) (ha : d.readArmed = true) :
    d.usbReadCptSem = false ∧ d.task ≠ .R_USB_Read := by
  have hs := h.single
  simp only [tokens, ha, Bool.toNat_true] at hs
  constructor
  · cases hr : d.usbReadCptSem
    · rfl
    · simp only [hr, Bool.toNat_true] at hs
      omega
  · intro htask
    simp only [htask, if_true] at hs
    omega

/-- A token count and the calls are all that the invariant looks at. -/
private theorem OneToken.of_eq (h : OneToken d) (ha : t.readArmed = d.readArmed)
    (hr : t.usbReadCptSem = d.usbReadCptSem) (htask : t.task = d.task) (hc : t.calls = d.calls) :
    OneToken t := by
  refine ⟨?_, hc ▸ h.accepted⟩
  rw [tokens, ha, hr, htask]
  exact h.single

/-- Tasks and packets only hand a token on, and a fresh start makes the only one. -/
theorem OneToken.step {char : PlainChar} {a : DeviceAction} (h : OneToken d) (hf : FreshStart d a)
    (hst : step char d a = some t) : OneToken t := by
  have hs := h.single
  have hc := h.accepted
  cases (effect_of_step hst).2 with
  | take htask hsem => exact ⟨by simpa [tokens, htask, hsem] using hs, hc⟩
  | read htask harm =>
    refine ⟨?_, accepted_concat hc .R_USB_Read⟩
    simpa [tokens, htask, harm, Nat.add_comm] using hs
  | readRefused htask harm => exact absurd htask (h.of_armed harm).2
  | write htask => exact ⟨by simpa [tokens, htask] using hs, hc⟩
  | give htask => exact ⟨by simpa [tokens, htask] using hs, hc⟩
  | clear htask => exact ⟨by simpa [tokens, htask] using hs, hc⟩
  | packet harm _ =>
    obtain ⟨hsem, -⟩ := h.of_armed harm
    rw [hsem]
    refine ⟨?_, accepted_concat hc .xSemaphoreGive⟩
    simpa [tokens, harm, hsem] using hs
  | arm hstatus _ =>
    obtain ⟨-, hsem, htask⟩ := hf rfl hstatus
    refine ⟨?_, accepted_concat hc .R_USB_Read⟩
    simp [tokens, hsem, htask]
  | armRefused hstatus harm =>
    obtain ⟨hidle, -⟩ := hf rfl hstatus
    rw [harm] at hidle
    cases hidle
  | detach =>
    have hle : (false : Bool).toNat ≤ d.readArmed.toNat := Nat.zero_le _
    exact ⟨(Nat.add_le_add_right (Nat.add_le_add_right hle _) _).trans hs, hc⟩
  | requestComplete | request | other => exact h
  | configured | suspend | resume | welcome | writeComplete | process => exact h.of_eq rfl rfl rfl rfl

theorem oneToken_initial : OneToken initialDevice := by
  constructor
  · decide
  · intro c hc
    cases hc

theorem oneToken_run {char : PlainChar} {as : List DeviceAction} (hd : OneToken d)
    (hr : run (step char) d as = some t) (hf : Along (step char) FreshStart d as) : OneToken t :=
  hf.invariant (fun _ _ _ hf hst h => OneToken.step h hf hst) hd hr

section TwoTokens

/-- Left to itself, the task will ask for a read that is refused. -/
def Doomed (char : PlainChar) (d : Device) : Prop :=
  ∃ n u, run (step char) d (List.replicate n .task) = some u ∧ ∃ c ∈ u.calls, c.accepted = false

variable {char : PlainChar}

private theorem Doomed.of_task (hh : d.halted = false) (hst : usb_pcdc_task d = some t)
    (h : Doomed char t) : Doomed char d := by
  obtain ⟨n, u, hr, hu⟩ := h
  refine ⟨n + 1, u, run_cons_eq_some.mpr ⟨t, ?_, hr⟩, hu⟩
  rw [step, hh]
  exact hst

private theorem doomed_read (hh : d.halted = false) (ha : d.readArmed = true)
    (htask : d.task = .R_USB_Read) : Doomed char d := by
  refine Doomed.of_task hh (by rw [usb_pcdc_task, htask]) ⟨0, _, rfl, ⟨.R_USB_Read, false⟩, ?_, rfl⟩
  simp [Device.usbRead, ha, Device.trap]

private theorem doomed_take (hh : d.halted = false) (ha : d.readArmed = true)
    (hs : d.usbReadCptSem = true) (htask : d.task = .xSemaphoreTake) : Doomed char d := by
  apply Doomed.of_task hh (by rw [usb_pcdc_task, htask, hs]; rfl)
  exact doomed_read hh ha rfl

private theorem doomed_memset (hh : d.halted = false) (ha : d.readArmed = true)
    (hs : d.usbReadCptSem = true) (htask : d.task = .memset) : Doomed char d := by
  apply Doomed.of_task hh (by rw [usb_pcdc_task, htask])
  exact doomed_take hh ha hs rfl

private theorem doomed_give (hh : d.halted = false) (ha : d.readArmed = true)
    (hs : d.usbReadCptSem = true) (htask : d.task = .xSemaphoreGive) : Doomed char d := by
  apply Doomed.of_task hh (by rw [usb_pcdc_task, htask])
  exact doomed_memset hh ha hs rfl

private theorem doomed_write (hh : d.halted = false) (ha : d.readArmed = true)
    (hs : d.usbReadCptSem = true) (htask : d.task = .writeData) : Doomed char d := by
  apply Doomed.of_task hh (by rw [usb_pcdc_task, htask])
  exact doomed_give hh ha hs rfl

/-- A read is armed while another token is left. -/
theorem doomed_of_two_tokens (hh : d.halted = false) (ha : d.readArmed = true)
    (h : d.usbReadCptSem = true ∨ d.task = .R_USB_Read) : Doomed char d := by
  cases htask : d.task with
  | R_USB_Read => exact doomed_read hh ha htask
  | xSemaphoreTake => exact doomed_take hh ha (by simpa [htask] using h) htask
  | memset => exact doomed_memset hh ha (by simpa [htask] using h) htask
  | xSemaphoreGive => exact doomed_give hh ha (by simpa [htask] using h) htask
  | writeData => exact doomed_write hh ha (by simpa [htask] using h) htask

private theorem along_tasks (d : Device) (n : ℕ) :
    Along (step char) FreshStart d (List.replicate n .task) := by
  induction n generalizing d with
  | zero => trivial
  | succ n ih => exact ⟨nofun, fun t _ => ih t⟩

/-- To arm a read where a token is left leads to a refused call, at once or later. -/
theorem doomed_of_not_freshStart {a : DeviceAction} (hf : ¬ FreshStart d a)
    (hst : step char d a = some t) : Doomed char t := by
  obtain ⟨hh, he⟩ := effect_of_step hst
  simp only [FreshStart, Classical.not_imp] at hf
  obtain ⟨rfl, hconf, htok⟩ := hf
  cases he with
  | arm _ harm =>
    refine doomed_of_two_tokens hh rfl ?_
    by_contra hn
    push Not at hn
    exact htok ⟨harm, Bool.eq_false_of_not_eq_true hn.1, hn.2⟩
  | armRefused _ _ => exact ⟨0, _, rfl, ⟨.R_USB_Read, false⟩, by simp, rfl⟩
  | requestComplete hs => exact absurd hconf hs

end TwoTokens

/-- As long as the callback arms a read only where no token is left, no read is requested
while one is armed and the semaphore is never given twice. Any other start leads to a
refused call, whatever the callback does later. -/
theorem single_read_iff (char : PlainChar) (as : List DeviceAction) (d : Device)
    (h : run (step char) initialDevice as = some d)
    (hf : Along (step char) FreshStart initialDevice as) :
    (∀ c ∈ d.calls, c.accepted = true) ∧ ∀ a t, step char d a = some t →
      (FreshStart d a ↔ ∀ bs u, run (step char) t bs = some u →
        Along (step char) FreshStart t bs → ∀ c ∈ u.calls, c.accepted = true) := by
  have hd := oneToken_run oneToken_initial h hf
  refine ⟨hd.accepted, fun a t hst => ⟨?_, ?_⟩⟩
  · intro hfresh bs u hr hfs
    exact (oneToken_run (hd.step hfresh hst) hr hfs).accepted
  · intro hall
    by_contra hn
    obtain ⟨n, u, hr, c, hc, hrefused⟩ := doomed_of_not_freshStart hn hst
    have hacc := hall _ u hr (along_tasks t n) c hc
    rw [hrefused] at hacc
    cases hacc

/-- The packet is passed on before the host leaves, so that it finds no token when it is back. -/
def reenumeration : List DeviceAction :=
  [.event .CONFIGURED, .event .REQUEST_COMPLETE, .packet (text "A")] ++ List.replicate 5 .task ++
    [.event .DETACH, .event .CONFIGURED, .event .REQUEST_COMPLETE]

private theorem freshStart_reenumeration : Along (step .signed) FreshStart initialDevice reenumeration := by
  have hfirst : Along (step .signed) FreshStart initialDevice
      [.event .CONFIGURED, .event .REQUEST_COMPLETE, .packet (text "A")] :=
    (along_cons rfl).mpr ⟨nofun, (along_cons rfl).mpr ⟨fun _ _ => ⟨rfl, rfl, by decide⟩,
      (along_cons rfl).mpr ⟨nofun, trivial⟩⟩⟩
  refine (hfirst.append rfl (along_tasks _ 5)).append rfl ?_
  exact (along_cons rfl).mpr ⟨nofun, (along_cons rfl).mpr ⟨nofun,
    (along_cons rfl).mpr ⟨fun _ _ => ⟨rfl, rfl, by decide⟩, trivial⟩⟩⟩

theorem single_read_reenumeration : ∃ d, run (step .signed) initialDevice reenumeration = some d ∧
    d.delivered = [text "A"] ∧ d.readArmed = true ∧ (∀ c ∈ d.calls, c.accepted = true) ∧
      ∀ a t, step .signed d a = some t →
        (FreshStart d a ↔ ∀ bs u, run (step .signed) t bs = some u →
          Along (step .signed) FreshStart t bs → ∀ c ∈ u.calls, c.accepted = true) :=
  ⟨_, rfl, rfl, rfl, single_read_iff .signed reenumeration _ rfl freshStart_reenumeration⟩

/-- A packet whose semaphore is still given when the host leaves and comes back. -/
theorem double_read : ¬ ∀ (char : PlainChar) (as : List DeviceAction) (d : Device),
    run (step char) initialDevice as = some d → ∀ c ∈ d.calls, c.accepted = true := by
  intro h
  have hc := h .signed [.event .CONFIGURED, .event .REQUEST_COMPLETE, .packet (text "A"),
    .event .DETACH, .event .CONFIGURED, .event .REQUEST_COMPLETE, .task, .task] _ rfl
    ⟨.R_USB_Read, false⟩
  exact absurd (hc (by decide)) (by decide)

end UsbCdc.ReadTokens
