import UsbCdc.FirmwareBytes

/-! # What becomes of the commands

Whatever the interleaving, `process_data_task` gets nothing but commands that the parser has
found in the bytes of one `readData`, in their order, and answers each of them in turn. -/
namespace UsbCdc.Firmware
open CStrings CommandDispatch CommandGrammar CommandHandover CommandSupport DataAvailable
  LabelledRuns ParseData ParseDataCorrectness ProcessDataTask ReadBufferTask RingBuf UsbLog UsbPcdc

section Strings

/-- A terminator ends the string, wherever one was before. -/
theorem cString_cut (u v : List Byte) : cString (u ++ 0 :: v) = cString u := by
  by_cases h0 : 0 ∈ u
  · obtain ⟨w, x, rfl, hw⟩ := List.eq_append_cons_of_mem h0
    rw [List.append_assoc, List.cons_append, cString_append_zero hw, cString_append_zero hw]
  · rw [cString_append_zero h0, cString_of_notMem h0]

theorem cString_terminated {n i : ℕ} (output : Vector Byte n) (hi : i < n) :
    cString (output.setIfInBounds i 0).toList = cString (output.toList.take i) := by
  rw [Vector.toList_setIfInBounds, List.set_eq_take_append_cons_drop,
    if_pos (by rwa [Vector.length_toList]), cString_cut]

variable (char : PlainChar) (cmd : List Byte)

private theorem hashValue_cString : hashValue char (cString cmd) = hashValue char cmd := by
  have hl : hashedLength (cString cmd) = hashedLength cmd := by
    rw [hashedLength, hashedLength, strlen, strlen, cString_cString]
  rw [hashValue, hashValue, hl]
  congr 1
  apply Finset.sum_congr rfl
  intro j hj
  have hlt : j < (cString cmd).length :=
    (Finset.mem_range.mp hj).trans_le (Nat.mod_le _ _)
  obtain ⟨rest, hr⟩ : cString cmd <+: cmd := List.takeWhile_prefix _
  conv_rhs => rw [← hr, List.getD_eq_getElem?_getD, List.getElem?_append_left hlt]
  rw [List.getD_eq_getElem?_getD]

/-- What stands behind the terminator does not matter. -/
theorem dispatch_cString (table : List CDC_Commands_Type) :
    dispatch char table (cString cmd) = dispatch char table cmd := by
  have hh : hashFunc char (some (cString cmd)) = hashFunc char (some cmd) :=
    (hashFunc_inj char).mpr (hashValue_cString char cmd)
  have hl : hashTableLookup char table (cString cmd) = hashTableLookup char table cmd := by
    rw [hashTableLookup, hashTableLookup, hh]
  rw [dispatch, dispatch, hl]

theorem reply_cString (table : List CDC_Commands_Type) :
    reply char table (cString cmd) = reply char table cmd := by
  simp only [reply, dispatch_cString, cString_cString]

end Strings

variable {char : PlainChar} {s t : State} {a : FirmwareAction}

/-! ## From the reader to the queue -/

/-- No send finds all slots taken. -/
def SendFree (s : State) : FirmwareAction → Prop
  | .read_buffer_task => s.reader = .xQueueSend →
      s.handover.i < s.handover.commandParser.commandCount →
      s.handover.queue.items.length < usbCmdQueueLength
  | _ => True

/-- What a step does to the commands. -/
inductive HandoverStep (s : State) (a : FirmwareAction) (t : State) : Prop
  | idle (h : t.handover = s.handover) (ht : t.taken = s.taken) (hf : SendFree s a)
  | parse {output : Vector Byte ringBufferSize} {i : ℕ} (hr : s.reader = .readData output i)
      (hst : CommandHandover.step s.handover
        (.parse (cString (output.setIfInBounds i 0).toList)) = some t.handover)
      (ht : t.taken = s.taken ++ [output.toList.take i]) (hf : SendFree s a)
  | move {b : HandoverAction} (hb : ∀ data, b ≠ .parse data)
      (hst : CommandHandover.step s.handover b = some t.handover) (ht : t.taken = s.taken)
      (hf : SlotFree s.handover b ↔ SendFree s a)

theorem handover_step (hst : step char s a = some t) : HandoverStep s a t := by
  cases (effect_of_step hst).2 with
  | @device a b d ha _ =>
    refine .idle rfl rfl ?_
    cases ha <;> trivial
  | measure _ _ _ | copy _ _ _ | copied _ _ | process _ _ => exact .idle rfl rfl trivial
  | take hr _ | read hr _ => exact .idle rfl rfl (fun h => by rw [hr] at h; cases h)
  | parse hr _ hh => exact .parse hr hh rfl (fun h => by rw [hr] at h; cases h)
  | send hr hi hh => exact .move (b := .send) nofun hh rfl ⟨fun h _ _ => h, fun h => h hr hi⟩
  | sent hr hi => exact .idle rfl rfl (fun _ h => absurd h hi)
  | receive _ hh _ => exact .move (b := .receive) nofun hh rfl Iff.rfl

/-- What the parser has found in what `readData` has read. -/
def found (s : State) : List (List Byte) := s.taken.flatMap (fun bytes => commandsIn (cString bytes))

private theorem parsed_step (hs : Running s) (hst : step char s a = some t)
    (h : s.handover.parsed = found s ∧ ∀ bytes ∈ s.taken, bytes.length ≤ 511) :
    t.handover.parsed = found t ∧ ∀ bytes ∈ t.taken, bytes.length ≤ 511 := by
  cases handover_step hst with
  | idle hh ht _ =>
    rw [hh, found, ht]
    exact h
  | @parse output i hr hh ht _ =>
    have hi := hs.reading output i hr
    rw [(parses_of_step hh).parsed, found, ht, List.flatMap_append, h.1,
      cString_terminated output (Nat.lt_succ_of_le hi)]
    refine ⟨by simp [found], ?_⟩
    intro bytes hb
    rcases List.mem_append.mp hb with hb | hb
    · exact h.2 bytes hb
    · rw [List.mem_singleton.mp hb, List.length_take]
      omega
  | @move b hb hh ht _ =>
    have hp : t.handover.parsed = s.handover.parsed := by
      cases b with
      | parse data => exact absurd rfl (hb data)
      | send =>
        obtain ⟨row, -, he⟩ := step_send hs.inRows hh
        rw [he]
      | receive =>
        obtain ⟨row, rows, -, -, he⟩ := step_receive hh
        rw [he]
    rw [hp, found, ht]
    exact h

theorem parsed_run {as : List FirmwareAction} (h : run (step char) initialState as = some s) :
    s.handover.parsed = found s ∧ ∀ bytes ∈ s.taken, bytes.length ≤ 511 := by
  refine (run_invariant (A := fun _ => True)
    (I := fun s => Running s ∧ s.handover.parsed = found s ∧
      ∀ bytes ∈ s.taken, bytes.length ≤ 511) ?_ (fun _ _ => trivial) ⟨running_initial, rfl, ?_⟩ h).2
  · intro s a t _ hst hs
    exact ⟨hs.1.step hst, parsed_step hs.1 hst hs.2⟩
  · exact List.forall_mem_nil _

/-- Sending or not, commands do not change places. -/
private theorem carried_sublist {u v : CommandHandover.System} {b : HandoverAction}
    (hr : InRows u) (h : CommandHandover.step u b = some v) :
    ∃ new, v.parsed = u.parsed ++ new ∧ (carried v).Sublist (carried u ++ new) := by
  by_cases hf : SlotFree u b
  · obtain ⟨new, hp, hc⟩ := carried_of_slotFree hr hf h
    exact ⟨new, hp, by rw [hc]⟩
  · cases b with
    | parse | receive => exact absurd trivial hf
    | send =>
      obtain ⟨row, hu, he⟩ := step_send hr h
      have hq : v.queue.strings = u.queue.strings := by
        rw [he, strings_send]
        exact if_neg hf
      refine ⟨[], by rw [he, List.append_nil], ?_⟩
      have hrec : v.received = u.received := by rw [he]
      rw [carried, carried, hq, hrec, hu, List.append_nil]
      exact List.Sublist.append (List.Sublist.refl _) (List.sublist_cons_self _ _)

private theorem carried_step (hs : Running s) (hst : step char s a = some t)
    (h : (carried s.handover).Sublist s.handover.parsed) :
    (carried t.handover).Sublist t.handover.parsed := by
  have hmove : ∀ b, CommandHandover.step s.handover b = some t.handover →
      (carried t.handover).Sublist t.handover.parsed := by
    intro b hb
    obtain ⟨new, hp, hc⟩ := carried_sublist hs.inRows hb
    rw [hp]
    exact hc.trans (h.append (List.Sublist.refl new))
  cases handover_step hst with
  | idle hh _ _ => rwa [hh]
  | parse _ hh _ _ => exact hmove _ hh
  | move _ hh _ _ => exact hmove _ hh

private theorem lost_step (hs : Running s) (hst : step char s a = some t) :
    lost s.handover ≤ lost t.handover ∧
      (¬ SendFree s a → lost s.handover < lost t.handover) := by
  cases handover_step hst with
  | idle hh _ hf =>
    rw [hh]
    exact ⟨le_rfl, fun h => absurd hf h⟩
  | @parse output i _ hh _ hf =>
    have hfree : SlotFree s.handover (.parse (cString (output.setIfInBounds i 0).toList)) := trivial
    exact ⟨(lost_of_slotFree hs.inRows hfree hh).ge, fun h => absurd hf h⟩
  | @move b _ hh _ hf =>
    by_cases hb : SlotFree s.handover b
    · exact ⟨(lost_of_slotFree hs.inRows hb hh).ge, fun h => absurd (hf.mp hb) h⟩
    · have hl := lost_of_refused hs.inRows hb hh
      exact ⟨by omega, fun _ => by omega⟩

private theorem carried_eq_step (hs : Running s) (hf : SendFree s a)
    (hst : step char s a = some t) (h : carried s.handover = s.handover.parsed) :
    carried t.handover = t.handover.parsed := by
  have hmove : ∀ b, SlotFree s.handover b → CommandHandover.step s.handover b = some t.handover →
      carried t.handover = t.handover.parsed := by
    intro b hb hh
    obtain ⟨new, hp, hc⟩ := carried_of_slotFree hs.inRows hb hh
    rw [hc, hp, h]
  cases handover_step hst with
  | idle hh _ _ => rwa [hh]
  | parse _ hh _ _ => exact hmove (.parse _) trivial hh
  | move _ hh _ hb => exact hmove _ (hb.mpr hf) hh

theorem isCommand_of_found (h : ∀ bytes ∈ s.taken, bytes.length ≤ 511) {c : List Byte}
    (hc : c ∈ found s) : IsCommand c ∧ 0 ∉ c ∧ c.length ≤ 511 := by
  obtain ⟨bytes, hb, hc⟩ := List.mem_flatMap.mp hc
  obtain ⟨hcmd, hinf⟩ := isCommand_of_mem hc
  have hl : (cString bytes).length ≤ bytes.length := (List.takeWhile_prefix _).length_le
  exact ⟨hcmd, fun h0 => zero_notMem_cString bytes (hinf.mem h0),
    hinf.length_le.trans (hl.trans (h bytes hb))⟩

theorem carried_sublist_found {as : List FirmwareAction}
    (h : run (step char) initialState as = some s) : (carried s.handover).Sublist (found s) := by
  have hsub : (carried s.handover).Sublist s.handover.parsed :=
    (run_invariant (A := fun _ => True)
      (I := fun s => Running s ∧ (carried s.handover).Sublist s.handover.parsed)
      (fun s a t _ hst hs => ⟨hs.1.step hst, carried_step hs.1 hst hs.2⟩) (fun _ _ => trivial)
      ⟨running_initial, List.Sublist.refl _⟩ h).2
  rwa [(parsed_run h).1] at hsub

theorem carried_eq_found_iff {as : List FirmwareAction}
    (h : run (step char) initialState as = some s) :
    carried s.handover = found s ↔ Along (step char) SendFree initialState as := by
  have hparsed := (parsed_run h).1
  have hback : lost s.handover ≤ lost initialState.handover →
      Along (step char) SendFree initialState as :=
    (along_of_le (A := fun _ => True) (I := Running) (f := fun s => lost s.handover)
      (fun _ _ _ _ hst hs => hs.step hst) (fun _ _ _ _ hst hs => (lost_step hs hst).1)
      (fun _ _ _ _ hst hs => (lost_step hs hst).2) (fun _ _ => trivial) running_initial h).2
  refine ⟨fun he => hback ?_, fun hc => ?_⟩
  · have he' : carried s.handover = s.handover.parsed := he.trans hparsed.symm
    rw [lost, he', sub_self]
    exact (sub_self _).ge
  · have hinv := hc.invariant (I := fun s => Running s ∧ carried s.handover = s.handover.parsed)
      (fun s a t hf hst hs => ⟨hs.1.step hst, carried_eq_step hs.1 hf hst hs.2⟩)
      ⟨running_initial, carried_initialSystem⟩ h
    exact hinv.2.trans hparsed

/-- What `process_data_task` receives are whole commands, found in the strings of single
`readData` calls and in their order. With those that are still on their way they are all of
them exactly if no send found the queue full. A run goes no further than the first store
outside of `commands`, which may change the commands that are left to send. -/
theorem commands_in_order_iff (char : PlainChar) (as : List FirmwareAction) (s : State)
    (h : run (step char) initialState as = some s) :
    (∀ c ∈ s.handover.received, IsCommand c ∧ 0 ∉ c ∧ c.length ≤ 511) ∧
    (s.handover.received ++ s.handover.queue.strings ++ unsent s.handover).Sublist (found s) ∧
    (s.handover.received ++ s.handover.queue.strings ++ unsent s.handover = found s ↔
      Along (step char) SendFree initialState as) := by
  have hsub := carried_sublist_found h
  refine ⟨fun c hc => isCommand_of_found (parsed_run h).2 (hsub.subset ?_), hsub,
    carried_eq_found_iff h⟩
  rw [carried, List.append_assoc]
  exact List.mem_append_left _ hc

set_option maxRecDepth 10000 in
theorem commands_in_order_iff_sent : ∃ s, run (step .signed) initialState
    (.event .CONFIGURED :: .event .REQUEST_COMPLETE :: .packet (text "AT\r\n") ::
      (List.replicate 10 .usb_pcdc_task ++ List.replicate 7 .read_buffer_task)) = some s ∧
    (∀ c ∈ s.handover.received, IsCommand c ∧ 0 ∉ c ∧ c.length ≤ 511) ∧
    (s.handover.received ++ s.handover.queue.strings ++ unsent s.handover).Sublist (found s) ∧
    (s.handover.received ++ s.handover.queue.strings ++ unsent s.handover = found s ↔
      Along (step .signed) SendFree initialState
        (.event .CONFIGURED :: .event .REQUEST_COMPLETE :: .packet (text "AT\r\n") ::
          (List.replicate 10 .usb_pcdc_task ++ List.replicate 7 .read_buffer_task))) :=
  ⟨_, rfl, commands_in_order_iff .signed (.event .CONFIGURED :: .event .REQUEST_COMPLETE ::
    .packet (text "AT\r\n") ::
      (List.replicate 10 .usb_pcdc_task ++ List.replicate 7 .read_buffer_task)) _ rfl⟩

/-! ## From the queue to the replies -/

/-- What is handed to `R_USB_Write` for a command: a reply that is too long is not. -/
def replyTo (char : PlainChar) (cmdStr : List Byte) : List (List Byte) :=
  let text := reply char (initHashTable char CDC_Command_Table) cmdStr
  if text.length < bufferSize then [text] else []

theorem replyTo_cString (char : PlainChar) (cmdStr : List Byte) :
    replyTo char (cString cmdStr) = replyTo char cmdStr := by
  simp only [replyTo, reply_cString]

/-- The texts handed to `R_USB_Write`, but for the welcome texts. -/
def replies (p : WritePipe) : List (List Byte) :=
  (p.calls.map WriteCall.data).filter (· ≠ p_welcome)

/-- A reply is handed to `R_USB_Write` as a whole or not at all. -/
theorem processData_eq (char : PlainChar) (p : WritePipe) (cmdStr : List Byte) :
    processData char (initHashTable char CDC_Command_Table) p cmdStr =
      some (if (reply char (initHashTable char CDC_Command_Table) cmdStr).length < bufferSize
        then (p.usbWrite (reply char (initHashTable char CDC_Command_Table) cmdStr)).2 else p) := by
  by_cases hl : (reply char (initHashTable char CDC_Command_Table) cmdStr).length < bufferSize
  · rw [processData_of_lt hl, if_pos hl]
  · rw [if_neg hl]
    cases hd : dispatch char (initHashTable char CDC_Command_Table) cmdStr with
    | some pfunc =>
      simp only [reply, hd] at hl
      exact absurd (length_called pfunc) hl
    | none =>
      simp only [reply, hd] at hl
      simp only [processData, hd,
        USB_CDC_printf_of_le (expand_notSupported cmdStr) (Nat.le_of_not_lt hl), Option.map_some]

theorem processData_pipe {p q : WritePipe} {cmdStr : List Byte}
    (h : processData char (initHashTable char CDC_Command_Table) p cmdStr = some q) :
    q.calls.map WriteCall.data = p.calls.map WriteCall.data ++ replyTo char cmdStr := by
  rw [processData_eq] at h
  obtain rfl := Option.some.inj h
  simp only [replyTo]
  split
  · simp [WritePipe.usbWrite]
  · simp

private theorem reply_ne_welcome (cmdStr : List Byte) :
    reply char (initHashTable char CDC_Command_Table) cmdStr ≠ p_welcome := by
  have hw : p_welcome.reverse[2]? = some '*'.toUInt8 := by decide
  have hr : (reply char (initHashTable char CDC_Command_Table) cmdStr).reverse[2]? =
      some 'd'.toUInt8 := by
    rw [reply]
    split <;> rw [List.reverse_append] <;> rfl
  intro he
  rw [he, hw] at hr
  exact absurd hr (by decide)

private theorem replies_process {p q : WritePipe} {cmdStr : List Byte}
    (h : processData char (initHashTable char CDC_Command_Table) p cmdStr = some q) :
    replies q = replies p ++ replyTo char cmdStr := by
  have hr : (replyTo char cmdStr).filter (· ≠ p_welcome) = replyTo char cmdStr := by
    rw [List.filter_eq_self]
    intro c hc
    simp only [replyTo] at hc
    split at hc
    · rw [List.mem_singleton.mp hc]
      exact decide_eq_true (reply_ne_welcome cmdStr)
    · cases hc
  rw [replies, processData_pipe h, List.filter_append, hr]
  rfl

private theorem replies_device {b : DeviceAction} {d : Device} (ha : DeviceStep s a b)
    (hst : UsbPcdc.step char s.device b = some d) : replies d.pipe = replies s.device.pipe := by
  have hwelcome : ∀ p : WritePipe, replies (p.usbWrite p_welcome).2 = replies p := by
    intro p
    simp [replies, WritePipe.usbWrite]
  cases ha with
  | packet p =>
    cases (UsbPcdc.effect_of_step hst).2
    rfl
  | event e =>
    cases (UsbPcdc.effect_of_step hst).2 with
    | welcome => exact hwelcome _
    | _ => rfl
  | task _ _ =>
    cases (UsbPcdc.effect_of_step hst).2 <;> rfl

/-- The command in hand is the only one received and not answered. -/
def Answered (char : PlainChar) (s : State) : Prop :=
  replies s.device.pipe ++ s.cmdStr.toList.flatMap (replyTo char) =
    s.handover.received.flatMap (replyTo char)

theorem Answered.step (hs : Running s) (hst : step char s a = some t) (h : Answered char s) :
    Answered char t := by
  rw [Answered] at h ⊢
  cases (effect_of_step hst).2 with
  | device ha hd =>
    rw [replies_device ha hd]
    exact h
  | measure _ _ _ | copied _ _ | take _ _ | read _ _ | sent _ _ => exact h
  | copy _ _ _ => exact h
  | parse _ _ hh =>
    rw [(parses_of_step hh).received]
    exact h
  | send _ _ hh =>
    obtain ⟨row, -, he⟩ := step_send hs.inRows hh
    rw [he]
    exact h
  | receive hc _ hrec =>
    simp only [hc, Option.toList_none, List.flatMap_nil, List.append_nil] at h
    rw [hrec, List.flatMap_append, ← h]
    simp [replyTo_cString]
  | process hc hp =>
    rw [replies_process hp, ← h, hc]
    simp

theorem answered_run {as : List FirmwareAction} (h : run (step char) initialState as = some s) :
    Answered char s :=
  (run_invariant (A := fun _ => True) (I := fun s => Running s ∧ Answered char s)
    (fun _ _ _ _ hst hs => ⟨hs.1.step hst, hs.2.step hs.1 hst⟩) (fun _ _ => trivial)
    ⟨running_initial, rfl⟩ h).2

/-- The texts that have been handed to `R_USB_Write` are the welcome texts and the replies to
the commands received, each reply once and in order; only a command in hand has none yet,
and one with a reply that is too long never gets one. -/
theorem replies_in_order (char : PlainChar) (as : List FirmwareAction) (s : State)
    (h : run (step char) initialState as = some s) :
    (s.device.pipe.calls.map WriteCall.data).filter (· ≠ p_welcome) ++
        s.cmdStr.toList.flatMap (replyTo char) =
      s.handover.received.flatMap (replyTo char) := answered_run h

set_option maxRecDepth 10000 in
theorem replies_in_order_in_hand : ∃ s, run (step .signed) initialState
    (.event .CONFIGURED :: .event .REQUEST_COMPLETE :: .packet (text "AT\r\n") ::
      (List.replicate 10 .usb_pcdc_task ++ (List.replicate 7 .read_buffer_task ++
        [.process_data_task]))) = some s ∧
    (s.device.pipe.calls.map WriteCall.data).filter (· ≠ p_welcome) ++
        s.cmdStr.toList.flatMap (replyTo .signed) =
      s.handover.received.flatMap (replyTo .signed) :=
  ⟨_, rfl, replies_in_order .signed (.event .CONFIGURED :: .event .REQUEST_COMPLETE ::
    .packet (text "AT\r\n") :: (List.replicate 10 .usb_pcdc_task ++
      (List.replicate 7 .read_buffer_task ++ [.process_data_task]))) _ rfl⟩

end UsbCdc.Firmware
