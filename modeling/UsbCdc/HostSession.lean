import UsbCdc.LabelledRuns
import UsbCdc.UsbHcdc

/-! # The session of the host with its device

Every USB call succeeds here, and the driver ends a request with one completion event.
From the configuration on there is always one request under way. -/
namespace UsbCdc.HostSession
open CStrings LabelledRuns UsbHcdc

structure Session where
  host : Host
  /-- Issued and not completed. -/
  outstanding : List UsbCall

/-- The event ends the request. -/
def completes (info : UsbEventInfo) : UsbCall → Bool
  | .R_USB_HostControlTransfer setup _ _ =>
    info.event = .REQUEST_COMPLETE ∧ info.requestType = setup.requestType
  | .R_USB_Write _ _ => info.event = .WRITE_COMPLETE
  | .R_USB_Read _ _ _ => info.event = .READ_COMPLETE ∧ info.type = .USB_CLASS_HCDC
  | _ => false

/-- Before the first event; `R_USB_Open` is no request. -/
def initialSession : Session := ⟨{ openUsb allSucceed default with calls := [] }, []⟩

namespace Session

def requests (s : Session) : List UsbCall := s.host.calls.map Prod.fst

/-- The task handles an event; what it calls is outstanding then. -/
def handle (hdr : UsbHeader) (info : UsbEventInfo) (s : Session) : Session :=
  let host := handleEvent hdr allSucceed info s.host
  ⟨host, s.outstanding ++ (host.calls.drop s.host.calls.length).map Prod.fst⟩

end Session

/-- The first event is `CONFIGURED`, the others are completions. -/
def step (hdr : UsbHeader) (s : Session) (info : UsbEventInfo) : Option Session :=
  if s.host.calls = [] ∧ info.event = .CONFIGURED then some (s.handle hdr info)
  else if s.outstanding.any (completes info) then
    some (Session.handle hdr info { s with outstanding := s.outstanding.eraseP (completes info) })
  else none

/-- The request type of a control transfer. -/
def controlRequest : UsbCall → Option UInt16
  | .R_USB_HostControlTransfer setup _ _ => some setup.requestType
  | _ => none

def written : UsbCall → Option (List Byte)
  | .R_USB_Write data _ => some data
  | _ => none

/-- The bytes written in the session, call by call. -/
def Session.writes (s : Session) : List (List Byte) := s.requests.filterMap written

def handshake (hdr : UsbHeader) : List (Option UInt16) :=
  [some hdr.SET_LINE_CODING, some hdr.SET_CONTROL_LINE_STATE, some hdr.GET_LINE_CODING]

/-- The `n`-th byte that goes to the device. -/
def sentByte (n : ℕ) : Byte := (text "12\r").getD (n % 3) 0

/-- One request at a time, the handshake first and then the three bytes in turn. -/
structure Lockstep (hdr : UsbHeader) (s : Session) : Prop where
  single : s.outstanding.length ≤ 1
  handshake : (s.requests.take 3).map controlRequest <+: HostSession.handshake hdr
  bulk : ∀ c ∈ s.requests.drop 3, controlRequest c = none
  writes : s.writes = (List.range s.writes.length).map (fun n => [sentByte n])

theorem nextByte_sentByte (n : ℕ) : nextByte (sentByte n) = sentByte (n + 1) := by
  have h3 : n % 3 < 3 := Nat.mod_lt n (by decide)
  have hs : (n + 1) % 3 = (n % 3 + 1) % 3 := by omega
  rw [sentByte, sentByte, hs]
  generalize n % 3 = k at h3
  match k, h3 with
  | 0, _ => rfl
  | 1, _ => rfl
  | 2, _ => rfl

theorem Session.handle_eq {hdr : UsbHeader} {info : UsbEventInfo} {s : Session}
    {sndBuf : Vector Byte 8} {c : UsbCall} (h : handleEvent hdr allSucceed info s.host =
      { s.host with sndBuf }.callChecked allSucceed c) :
    s.handle hdr info =
      ⟨{ s.host with sndBuf, calls := s.host.calls ++ [(c, FSP_SUCCESS)] },
        s.outstanding ++ [c]⟩ := by
  rw [Session.handle, h, Host.callChecked_ok rfl]
  simp

section Handshake
variable {hdr : UsbHeader} (hd : hdr.Distinct) {info : UsbEventInfo} (answers : Answers) (h : Host)
include hd

theorem handleEvent_setLineCoding (he : info.event = .REQUEST_COMPLETE)
    (ht : info.requestType = hdr.SET_LINE_CODING) : handleEvent hdr answers info h =
      set_control_line_state hdr answers info.deviceAddress h := by
  simp only [handleEvent, he, ht, hd.setLineCoding, if_true]

theorem handleEvent_setControlLineState (he : info.event = .REQUEST_COMPLETE)
    (ht : info.requestType = hdr.SET_CONTROL_LINE_STATE) : handleEvent hdr answers info h =
      get_line_coding hdr answers info.deviceAddress h := by
  simp only [handleEvent, he, ht, hd.setControlLineState, hd.line_ne_state.symm, if_true, if_false]

theorem handleEvent_getLineCoding (he : info.event = .REQUEST_COMPLETE)
    (ht : info.requestType = hdr.GET_LINE_CODING) : handleEvent hdr answers info h =
      writeSndBuf answers info.deviceAddress h := by
  simp only [handleEvent, he, ht, hd.getLineCoding, hd.line_ne_get.symm, hd.state_ne_get.symm,
    if_true, if_false]

end Handshake

/-- A write or a read into `g_rcv_buf`. -/
def IsBulk : UsbCall → Prop
  | .R_USB_Write _ _ => True
  | .R_USB_Read buffer _ _ => buffer = .g_rcv_buf
  | _ => False

/-- Where the session is: `requests` have been issued, and `c` is under way. -/
inductive Phase (hdr : UsbHeader) (s : Session) : Prop
  | fresh (hr : s.requests = []) (ho : s.outstanding = []) (hb : s.host.sndBuf.head = sentByte 0)
  | control (c : UsbCall) (n : ℕ) (ho : s.outstanding = [c]) (hn : n < 3)
      (hc : controlRequest c = (handshake hdr).getD n none)
      (hr : s.requests.map controlRequest = (handshake hdr).take (n + 1))
      (hw : s.writes = []) (hb : s.host.sndBuf.head = sentByte 0)
  | bulk (c : UsbCall) (n m : ℕ) (ho : s.outstanding = [c]) (hc : IsBulk c)
      (hr : s.requests.map controlRequest = handshake hdr ++ List.replicate m none)
      (hw : s.writes = (List.range (n + 1)).map (fun k => [sentByte k]))
      (hb : s.host.sndBuf.head = sentByte n)

theorem controlRequest_of_isBulk {c : UsbCall} (h : IsBulk c) : controlRequest c = none := by
  cases c <;> first | rfl | exact absurd h id

private theorem follows_handshake {hdr : UsbHeader} {l : List (Option UInt16)} {m : ℕ}
    (h : l <+: handshake hdr ++ List.replicate m none) :
    l.take 3 <+: handshake hdr ∧ ∀ x ∈ l.drop 3, x = none := by
  obtain ⟨t, ht⟩ := h
  constructor
  · have hp : l.take 3 <+: (handshake hdr ++ List.replicate m none).take 3 := by
      rw [← ht, List.take_append]
      exact List.prefix_append _ _
    exact hp
  · intro x hx
    have hm : x ∈ (handshake hdr ++ List.replicate m none).drop 3 := by
      rw [← ht, List.drop_append]
      exact List.mem_append_left _ hx
    exact List.eq_of_mem_replicate hm

theorem lockstep_of_follows {hdr : UsbHeader} {s : Session} {m : ℕ}
    (ho : s.outstanding.length ≤ 1)
    (hr : s.requests.map controlRequest <+: handshake hdr ++ List.replicate m none)
    (hw : s.writes = (List.range s.writes.length).map (fun n => [sentByte n])) :
    Lockstep hdr s := by
  obtain ⟨ht, hd⟩ := follows_handshake hr
  rw [← List.map_take] at ht
  rw [← List.map_drop] at hd
  exact ⟨ho, ht, fun c hc => hd _ (List.mem_map_of_mem hc), hw⟩

theorem Phase.lockstep {hdr : UsbHeader} {s : Session} (h : Phase hdr s) : Lockstep hdr s := by
  cases h with
  | fresh hr ho hb =>
    apply lockstep_of_follows (m := 0) (by simp [ho]) (by simp [hr])
    simp [Session.writes, hr]
  | control c n ho hn hc hr hw hb =>
    refine lockstep_of_follows (m := 0) (by simp [ho]) ?_ (by simp [hw])
    rw [hr, List.replicate_zero, List.append_nil]
    exact List.take_prefix _ _
  | bulk c n m ho hc hr hw hb =>
    refine lockstep_of_follows (m := m) (by simp [ho]) ?_ (by simp [hw])
    exact hr ▸ List.prefix_rfl

/-- A request is issued while none is under way. -/
theorem Session.handle_issues {hdr : UsbHeader} {info : UsbEventInfo} {s : Session}
    {sndBuf : Vector Byte 8} {c : UsbCall} (ho : s.outstanding = [])
    (h : handleEvent hdr allSucceed info s.host =
      { s.host with sndBuf }.callChecked allSucceed c) :
    (s.handle hdr info).outstanding = [c] ∧
      (s.handle hdr info).requests = s.requests ++ [c] ∧
      (s.handle hdr info).writes = s.writes ++ (written c).toList ∧
      (s.handle hdr info).host.sndBuf = sndBuf := by
  rw [Session.handle_eq h, ho]
  refine ⟨rfl, by simp [Session.requests], ?_, rfl⟩
  simp only [Session.writes, Session.requests, List.map_append, List.map_cons, List.map_nil,
    List.filterMap_append, List.filterMap_cons, List.filterMap_nil]
  cases written c <;> rfl

theorem take_sndBuf (sndBuf : Vector Byte 8) :
    sndBuf.toList.take CDC_WRITE_DATA_LEN = [sndBuf.head] := by
  have hl : 0 < sndBuf.toList.length := by simp
  rw [CDC_WRITE_DATA_LEN, List.take_one, List.head?_eq_getElem?, List.getElem?_eq_getElem hl,
    Vector.getElem_toList]
  rfl

variable {hdr : UsbHeader} {s t : Session} {info : UsbEventInfo} {c : UsbCall}

theorem requests_ne_nil {l : List (Option UInt16)} (hr : s.requests.map controlRequest = l)
    (hl : l ≠ []) : s.requests ≠ [] := by
  intro hnil
  rw [hnil] at hr
  exact hl hr.symm

theorem calls_ne_nil (h : s.requests ≠ []) : s.host.calls ≠ [] :=
  fun hn => h (by rw [Session.requests, hn, List.map_nil])

/-- With one request under way only its completion can come. -/
theorem step_completion (ho : s.outstanding = [c]) (hr : s.requests ≠ [])
    (hst : step hdr s info = some t) : completes info c = true ∧
      t = Session.handle hdr info { s with outstanding := [] } := by
  simp only [step, calls_ne_nil hr, false_and, if_false, ho, List.any_cons, List.any_nil,
    Bool.or_false, Option.ite_none_right_eq_some, Option.some.injEq] at hst
  obtain ⟨hc, rfl⟩ := hst
  refine ⟨hc, ?_⟩
  rw [List.eraseP_cons_of_pos hc]

private theorem Phase.configured (hr : s.requests = []) (ho : s.outstanding = [])
    (hb : s.host.sndBuf.head = sentByte 0) (hst : step hdr s info = some t) : Phase hdr t := by
  simp only [step, ho, List.any_nil, Bool.false_eq_true, if_false, Option.ite_none_right_eq_some,
    Option.some.injEq] at hst
  obtain ⟨⟨hc, he⟩, rfl⟩ := hst
  have hh : handleEvent hdr allSucceed info s.host =
      set_line_coding hdr allSucceed info.deviceAddress s.host := by
    simp only [handleEvent, he]
  obtain ⟨ho', hr', hw', hb'⟩ := Session.handle_issues ho hh
  refine .control _ 0 ho' (by decide) rfl ?_ ?_ ?_
  · rw [hr', hr]
    rfl
  · rw [hw', Session.writes, hr]
    rfl
  · simpa only [hb'] using hb

/-- The completion of a control request of the handshake. -/
theorem completes_control {n : ℕ} (hn : n < 3)
    (hc : controlRequest c = (handshake hdr).getD n none) (h : completes info c = true) :
    info.event = .REQUEST_COMPLETE ∧ some info.requestType = (handshake hdr).getD n none := by
  cases c with
  | R_USB_HostControlTransfer setup buffer address =>
    simp only [completes, decide_eq_true_eq] at h
    rw [← hc, h.2]
    exact ⟨h.1, rfl⟩
  | _ =>
    have hs : ((handshake hdr).getD n none).isSome := by
      match n, hn with
      | 0, _ => rfl
      | 1, _ => rfl
      | 2, _ => rfl
    rw [← hc] at hs
    cases hs

/-- The next request of the handshake. -/
private theorem Phase.control_next {n : ℕ} (hn : n + 1 < 3)
    (hr : s.requests.map controlRequest = (handshake hdr).take (n + 1)) (hw : s.writes = [])
    (hb : s.host.sndBuf.head = sentByte 0) {d : UsbCall}
    (hd : controlRequest d = (handshake hdr).getD (n + 1) none) (hwd : written d = none)
    (hh : handleEvent hdr allSucceed info s.host = s.host.callChecked allSucceed d) :
    Phase hdr (Session.handle hdr info { s with outstanding := [] }) := by
  obtain ⟨ho', hr', hw', hb'⟩ := Session.handle_issues (s := { s with outstanding := [] }) rfl hh
  refine .control d (n + 1) ho' hn hd ?_ ?_ ?_
  · have hlen : n + 1 < (handshake hdr).length := hn
    have hget : (handshake hdr).getD (n + 1) none = (handshake hdr)[n + 1] := by
      rw [List.getD_eq_getElem?_getD, List.getElem?_eq_getElem hlen, Option.getD_some]
    rw [hr', List.map_append, List.map_singleton, hd, hget, ← List.take_append_getElem hlen]
    exact congrArg (· ++ _) hr
  · rw [hw', hwd]
    exact congrArg (· ++ []) hw
  · simpa only [hb'] using hb

private theorem Phase.control_step {n : ℕ} (ho : s.outstanding = [c]) (hn : n < 3)
    (hc : controlRequest c = (handshake hdr).getD n none)
    (hr : s.requests.map controlRequest = (handshake hdr).take (n + 1)) (hw : s.writes = [])
    (hb : s.host.sndBuf.head = sentByte 0) (hd : hdr.Distinct) (hst : step hdr s info = some t) :
    Phase hdr t := by
  obtain ⟨hcomp, rfl⟩ := step_completion ho (requests_ne_nil hr nofun) hst
  obtain ⟨he, ht⟩ := completes_control hn hc hcomp
  match n, hn with
  | 0, _ =>
    exact control_next (by decide) hr hw hb rfl rfl
      (handleEvent_setLineCoding hd allSucceed s.host he (Option.some.inj ht))
  | 1, _ =>
    exact control_next (by decide) hr hw hb rfl rfl
      (handleEvent_setControlLineState hd allSucceed s.host he (Option.some.inj ht))
  | 2, _ =>
    obtain ⟨ho', hr', hw', hb'⟩ := Session.handle_issues (s := { s with outstanding := [] }) rfl
      (handleEvent_getLineCoding hd allSucceed s.host he (Option.some.inj ht))
    refine .bulk _ 0 1 ho' trivial ?_ (hw'.trans ?_) ?_
    · rw [hr', List.map_append]
      exact congrArg (· ++ _) hr
    · rw [written, take_sndBuf, hb]
      exact congrArg (· ++ _) hw
    · simpa only [hb'] using hb

/-- A data packet is answered by the byte after the last one sent. -/
theorem handleEvent_packet (hdr : UsbHeader) (h : Host) (he : info.event = .READ_COMPLETE)
    (hty : info.type = .USB_CLASS_HCDC) (hz : 0 < info.dataSize) :
    ∃ sndBuf : Vector Byte 8, sndBuf.head = nextByte h.sndBuf.head ∧
      handleEvent hdr allSucceed info h = { h with sndBuf }.callChecked allSucceed
        (.R_USB_Write [nextByte h.sndBuf.head] info.deviceAddress) := by
  have hhead : (h.sndBuf.set 0 (nextByte h.sndBuf.head)).head = nextByte h.sndBuf.head :=
    Vector.getElem_set_self _
  refine ⟨h.sndBuf.set 0 (nextByte h.sndBuf.head), hhead, ?_⟩
  simp only [handleEvent, he, usb_data_process, hty, if_true, if_pos hz]
  change writeSndBuf allSucceed info.deviceAddress
    { h with sndBuf := h.sndBuf.set 0 (nextByte h.sndBuf.head) } = _
  rw [writeSndBuf, take_sndBuf, hhead]

/-- From the first write on, reads and writes follow each other. -/
private theorem Phase.bulk_step {n m : ℕ} (ho : s.outstanding = [c]) (hc : IsBulk c)
    (hr : s.requests.map controlRequest = handshake hdr ++ List.replicate m none)
    (hw : s.writes = (List.range (n + 1)).map (fun k => [sentByte k]))
    (hb : s.host.sndBuf.head = sentByte n) (hst : step hdr s info = some t) : Phase hdr t := by
  obtain ⟨hcomp, rfl⟩ := step_completion ho (requests_ne_nil hr nofun) hst
  have hmore {d : UsbCall} (hd : IsBulk d) : (s.requests ++ [d]).map controlRequest =
      handshake hdr ++ List.replicate (m + 1) none := by
    rw [List.map_append, hr, List.map_singleton, controlRequest_of_isBulk hd, List.append_assoc,
      ← List.replicate_succ']
  have reads (size : ℕ) (hh : handleEvent hdr allSucceed info s.host = { s.host with
      sndBuf := s.host.sndBuf }.callChecked allSucceed (.R_USB_Read .g_rcv_buf size
        info.deviceAddress)) :
      Phase hdr (Session.handle hdr info { s with outstanding := [] }) := by
    obtain ⟨ho', hr', hw', hb'⟩ :=
      Session.handle_issues (s := { s with outstanding := [] }) rfl hh
    refine .bulk _ n (m + 1) ho' rfl (hr' ▸ hmore rfl) (hw'.trans ?_) ?_
    · exact (List.append_nil _).trans hw
    · simpa only [hb'] using hb
  cases c with
  | R_USB_Write data address =>
    apply reads CDC_READ_DATA_LEN
    simp only [completes, decide_eq_true_eq] at hcomp
    simp only [handleEvent, hcomp]
  | R_USB_Read buffer size address =>
    simp only [completes, decide_eq_true_eq] at hcomp
    obtain ⟨he, hty⟩ := hcomp
    by_cases hz : 0 < info.dataSize
    · obtain ⟨sndBuf, hhead, hh⟩ := handleEvent_packet hdr s.host he hty hz
      obtain ⟨ho', hr', hw', hb'⟩ := Session.handle_issues (s := { s with outstanding := [] }) rfl hh
      have hnext : nextByte s.host.sndBuf.head = sentByte (n + 1) := by rw [hb, nextByte_sentByte]
      refine .bulk _ (n + 1) (m + 1) ho' trivial (hr' ▸ hmore trivial) (hw'.trans ?_) ?_
      · rw [written, hnext, List.range_succ, List.map_append]
        exact congrArg (· ++ _) hw
      · rw [hb', hhead, hnext]
    · apply reads info.dataSize
      simp only [handleEvent, he, usb_data_process, hty, if_true, if_neg hz]
  | _ => exact absurd hc id

theorem Phase.step (h : Phase hdr s) (hd : hdr.Distinct)
    (hst : HostSession.step hdr s info = some t) : Phase hdr t := by
  cases h with
  | fresh hr ho hb => exact Phase.configured hr ho hb hst
  | control c n ho hn hc hr hw hb => exact Phase.control_step ho hn hc hr hw hb hd hst
  | bulk c n m ho hc hr hw hb => exact Phase.bulk_step ho hc hr hw hb hst

theorem phase_initialSession (hdr : UsbHeader) : Phase hdr initialSession :=
  .fresh rfl rfl rfl

theorem phase_of_run (hd : hdr.Distinct) {infos : List UsbEventInfo}
    (h : run (HostSession.step hdr) initialSession infos = some s) : Phase hdr s := by
  refine run_invariant (A := fun _ => True) (I := Phase hdr) ?_ (fun _ _ => trivial)
    (phase_initialSession hdr) h
  intro s info t _ hst hs
  exact hs.step hd hst

/-- Configuration, handshake, and the first byte with its answer. -/
def exchange (dataSize : ℕ) : List UsbEventInfo :=
  [⟨.CONFIGURED, .OTHER, 0, 0, 1⟩,
    ⟨.REQUEST_COMPLETE, .OTHER, 0, cdcHeader.SET_LINE_CODING, 1⟩,
    ⟨.REQUEST_COMPLETE, .OTHER, 0, cdcHeader.SET_CONTROL_LINE_STATE, 1⟩,
    ⟨.REQUEST_COMPLETE, .OTHER, 0, cdcHeader.GET_LINE_CODING, 1⟩,
    ⟨.WRITE_COMPLETE, .USB_CLASS_HCDC, 0, 0, 1⟩,
    ⟨.READ_COMPLETE, .USB_CLASS_HCDC, dataSize, 0, 1⟩]

/-- In every state of every session at most one request is under way, the handshake comes
first and in order, and the bytes `"12\r"` go out in turn. -/
theorem session_lockstep (hdr : UsbHeader) (hd : hdr.Distinct) (infos : List UsbEventInfo)
    (s : Session) (h : run (step hdr) initialSession infos = some s) : Lockstep hdr s :=
  (phase_of_run hd h).lockstep

theorem session_lockstep_exchange :
    ∃ s, run (step cdcHeader) initialSession (exchange 5) = some s ∧ Lockstep cdcHeader s ∧
      s.writes = [text "1", text "2"] :=
  ⟨_, rfl, session_lockstep cdcHeader cdcHeader_distinct (exchange 5) _ rfl, rfl⟩

/-- A read that is under way can take a data packet. -/
def ReadArmed (s : Session) : Prop := ∀ buffer size address,
  .R_USB_Read buffer size address ∈ s.outstanding → 0 < size ∧ size = CDC_READ_DATA_LEN

@[simp] theorem calls_callChecked (c : UsbCall) (h : Host) :
    (h.callChecked allSucceed c).calls = h.calls ++ [(c, FSP_SUCCESS)] := by
  rw [Host.callChecked_ok rfl]

theorem outstanding_handle {h : Host} : (Session.handle hdr info ⟨h, []⟩).outstanding =
    ((handleEvent hdr allSucceed info h).calls.drop h.calls.length).map Prod.fst := by
  simp [Session.handle]

/-- The two places that issue reads. -/
theorem read_of_handle {h : Host} {buffer : HostBuffer} {size : ℕ} {address : UInt8}
    (hty : info.event = .READ_COMPLETE → info.type = .USB_CLASS_HCDC)
    (hm : .R_USB_Read buffer size address ∈ (Session.handle hdr info ⟨h, []⟩).outstanding) :
    info.event = .WRITE_COMPLETE ∧ size = CDC_READ_DATA_LEN ∨
      info.event = .READ_COMPLETE ∧ size = info.dataSize ∧ info.dataSize = 0 := by
  rw [outstanding_handle] at hm
  cases he : info.event with
  | CONFIGURED => simp [handleEvent, he, set_line_coding] at hm
  | READ_COMPLETE =>
    by_cases hz : 0 < info.dataSize
    · simp [handleEvent, he, usb_data_process, hty he, hz, writeSndBuf] at hm
    · simp only [handleEvent, he, usb_data_process, hty he, if_true, if_neg hz, calls_callChecked,
        List.drop_left, List.map_singleton, List.mem_singleton, UsbCall.R_USB_Read.injEq] at hm
      exact Or.inr ⟨rfl, hm.2.1, Nat.eq_zero_of_not_pos hz⟩
  | WRITE_COMPLETE =>
    simp only [handleEvent, he, calls_callChecked, List.drop_left, List.map_singleton,
      List.mem_singleton, UsbCall.R_USB_Read.injEq] at hm
    exact Or.inl ⟨rfl, hm.2.1⟩
  | REQUEST_COMPLETE =>
    simp only [handleEvent, he] at hm
    split at hm
    · simp [set_control_line_state] at hm
    · split at hm
      · simp [get_line_coding] at hm
      · split at hm
        · simp [writeSndBuf] at hm
        · simp at hm
  | OTHER => simp [handleEvent, he] at hm

theorem class_of_completes (hc : completes info c = true) (he : info.event = .READ_COMPLETE) :
    info.type = .USB_CLASS_HCDC := by
  cases c with
  | R_USB_Read buffer size address =>
    simp only [completes, decide_eq_true_eq] at hc
    exact hc.2
  | R_USB_Open => cases hc
  | R_USB_Close => cases hc
  | R_USB_HostControlTransfer setup buffer address => simp [completes, he] at hc
  | R_USB_Write data address => simp [completes, he] at hc

/-- Nothing else is under way when the task handles an event. -/
theorem Phase.handled (h : Phase hdr s) (hst : HostSession.step hdr s info = some t) :
    t = Session.handle hdr info ⟨s.host, []⟩ ∧
      (info.event = .READ_COMPLETE → info.type = .USB_CLASS_HCDC) := by
  have completion {c : UsbCall} (ho : s.outstanding = [c]) (hr : s.requests ≠ []) :
      t = Session.handle hdr info ⟨s.host, []⟩ ∧
        (info.event = .READ_COMPLETE → info.type = .USB_CLASS_HCDC) := by
    obtain ⟨hc, ht⟩ := step_completion ho hr hst
    exact ⟨ht, class_of_completes hc⟩
  cases h with
  | fresh hr ho hb =>
    simp only [HostSession.step, ho, List.any_nil, Bool.false_eq_true, if_false,
      Option.ite_none_right_eq_some, Option.some.injEq] at hst
    obtain ⟨⟨-, he⟩, rfl⟩ := hst
    refine ⟨by rw [← ho], ?_⟩
    rw [he]
    exact nofun
  | control c n ho hn hc hr hw hb => exact completion ho (requests_ne_nil hr nofun)
  | bulk c n m ho hc hr hw hb => exact completion ho (requests_ne_nil hr nofun)

/-- The data packet that ends a read is answered by the next write. -/
theorem packet_answered (hd : hdr.Distinct) {infos : List UsbEventInfo}
    (h : run (HostSession.step hdr) initialSession infos = some s)
    (he : info.event = .READ_COMPLETE) (hz : 0 < info.dataSize)
    (hst : HostSession.step hdr s info = some t) :
    t.writes = s.writes ++ [[sentByte s.writes.length]] := by
  have hs := phase_of_run hd h
  have hall := (hs.step hd hst).lockstep.writes
  obtain ⟨rfl, hty⟩ := hs.handled hst
  obtain ⟨sndBuf, -, hh⟩ := handleEvent_packet hdr s.host he (hty he) hz
  obtain ⟨-, -, hw, -⟩ := Session.handle_issues (s := ⟨s.host, []⟩) rfl hh
  have hone : (Session.handle hdr info ⟨s.host, []⟩).writes =
      s.writes ++ [[nextByte s.host.sndBuf.head]] := hw
  rw [hone, List.length_append, List.length_singleton, List.range_succ, List.map_append,
    List.map_singleton] at hall
  rw [hone, (List.append_inj' hall rfl).2]

/-- No zero-length packet ends a read. -/
def CarriesData (info : UsbEventInfo) : Prop := info.event = .READ_COMPLETE → 0 < info.dataSize

theorem readArmed_of_step (h : Phase hdr s) (hi : CarriesData info)
    (hst : step hdr s info = some t) : ReadArmed t := by
  obtain ⟨rfl, hty⟩ := h.handled hst
  intro buffer size address hm
  rcases read_of_handle hty hm with ⟨-, hs⟩ | ⟨he, -, hz⟩
  · rw [hs]
    decide
  · exact absurd (hi he) (by omega)

/-- A zero-length packet is answered by a read of no bytes. -/
theorem not_readArmed_of_step (h : Phase hdr s) (hi : ¬ CarriesData info)
    (hst : step hdr s info = some t) : ¬ ReadArmed t := by
  simp only [CarriesData, not_forall, Nat.not_lt, Nat.le_zero] at hi
  obtain ⟨he, hz⟩ := hi
  obtain ⟨rfl, hty⟩ := h.handled hst
  intro harm
  have hm : .R_USB_Read .g_rcv_buf 0 info.deviceAddress ∈
      (Session.handle hdr info ⟨s.host, []⟩).outstanding := by
    rw [outstanding_handle]
    simp [handleEvent, he, usb_data_process, hty he, hz]
  exact absurd (harm _ _ _ hm).1 (Nat.lt_irrefl 0)

/-- Each read is issued with its full length in every state of a session if and only if no
zero-length packet comes in. -/
theorem read_armed_iff (hdr : UsbHeader) (hd : hdr.Distinct) (infos : List UsbEventInfo)
    (s : Session) (h : run (step hdr) initialSession infos = some s) :
    (∀ pre t, pre <+: infos → run (step hdr) initialSession pre = some t → ReadArmed t) ↔
      ∀ info ∈ infos, CarriesData info := by
  constructor
  · intro hall info hm
    obtain ⟨pre, post, rfl⟩ := List.append_of_mem hm
    obtain ⟨u, hu, hrest⟩ := run_append_eq_some.mp h
    obtain ⟨v, hv, -⟩ := run_cons_eq_some.mp hrest
    by_contra hi
    refine not_readArmed_of_step (phase_of_run hd hu) hi hv (hall (pre ++ [info]) v ?_ ?_)
    · exact ⟨post, by simp⟩
    · exact run_append_eq_some.mpr ⟨u, hu, run_cons_eq_some.mpr ⟨v, hv, rfl⟩⟩
  · intro hall pre t hp ht
    refine (run_invariant (A := CarriesData) (I := fun s => Phase hdr s ∧ ReadArmed s) ?_ ?_
      ⟨phase_initialSession hdr, ?_⟩ ht).2
    · intro s info t hi hst hs
      exact ⟨hs.1.step hd hst, readArmed_of_step hs.1 hi hst⟩
    · intro info hm
      exact hall info (hp.subset hm)
    · intro buffer size address hm
      cases hm

theorem read_armed_iff_exchange :
    ∃ s, run (step cdcHeader) initialSession (exchange 5) = some s ∧
      ((∀ pre t, pre <+: exchange 5 → run (step cdcHeader) initialSession pre = some t →
        ReadArmed t) ↔ ∀ info ∈ exchange 5, CarriesData info) :=
  ⟨_, rfl, read_armed_iff cdcHeader cdcHeader_distinct (exchange 5) _ rfl⟩

theorem zero_length_packet_wedges : ¬ ∀ (hdr : UsbHeader), hdr.Distinct →
    ∀ (infos : List UsbEventInfo) (s : Session),
      run (step hdr) initialSession infos = some s → ReadArmed s := by
  intro h
  have harm := h cdcHeader cdcHeader_distinct (exchange 0) _ rfl
  exact absurd (harm .g_rcv_buf 0 1 List.mem_cons_self).1 (Nat.lt_irrefl 0)

end UsbCdc.HostSession
