import UsbCdc.CommandCuts
import UsbCdc.LabelledRuns
import UsbCdc.ReadBufferTask

/-! # From the parser to `process_data_task`

`read_buffer_task` sends what it has parsed one command at a time and never waits for a
slot, while `process_data_task` takes commands out of the queue whenever it runs. -/
namespace UsbCdc.CommandHandover
open CStrings CommandCuts CommandGrammar LabelledRuns ParseData ParseDataCorrectness ReadBufferTask
  RingBuf

/-- The two tasks with the queue between them; `parsed` and `received` are histories. -/
structure System where
  commandParser : CavATCommandParser
  i : ℕ
  queue : CmdQueue
  parsed : List (List Byte)
  received : List (List Byte)

def initialSystem : System := ⟨default, 0, default, [], []⟩

inductive HandoverAction
  | parse (readData : List Byte)
  | send
  | receive

/-- `xQueueReceive`: the oldest command leaves the queue. -/
def receiveCommand (q : CmdQueue) : Option (Row × CmdQueue) :=
  match h : q.items with
  | [] => none
  | row :: rows => some (row, ⟨rows, by
      have hb := q.bounded
      rw [h, List.length_cons] at hb
      omega⟩)

def step (s : System) : HandoverAction → Option System
  | .parse readData =>
    -- the loop over the commands of the last parse is done
    if ¬ s.i < s.commandParser.commandCount ∧ 0 ∉ readData ∧ readData.length < ringBufferSize then
      match parseData (cleanParserData s.commandParser) readData with
      | .ok (p, r) =>
        if r = .validAt then
          some { s with commandParser := p, i := 0, parsed := s.parsed ++ p.strings }
        else
          some { s with commandParser := p, i := p.commandCount }
      | .error _ => none
    else
      none
  | .send =>
    if s.i < s.commandParser.commandCount then
      match sendCommand s.commandParser s.queue s.i with
      | .ok q => some { s with queue := q, i := s.i + 1 }
      | .error _ => none
    else
      none
  | .receive =>
    (receiveCommand s.queue).map
      (fun r => { s with queue := r.2, received := s.received ++ [cString r.1.toList] })

/-- No send finds all slots taken. -/
def SlotFree (s : System) : HandoverAction → Prop
  | .send => s.queue.items.length < usbCmdQueueLength
  | _ => True

/-- The commands whose send is still to come. -/
def unsent (s : System) : List (List Byte) := s.commandParser.strings.drop s.i

/-- What has been handed over and what is on its way. -/
def carried (s : System) : List (List Byte) := s.received ++ s.queue.strings ++ unsent s

/-- The parser announces no rows that it does not have. -/
def InRows (s : System) : Prop := s.commandParser.commandCount ≤ maxCmdSupport

variable {s t : System} {as : List HandoverAction}

theorem unsent_eq_nil (h : ¬ s.i < s.commandParser.commandCount) : unsent s = [] := by
  apply List.drop_of_length_le
  simpa [CavATCommandParser.strings] using h

theorem unsent_cons (hr : InRows s) (h : s.i < s.commandParser.commandCount) :
    ∃ row, s.commandParser.commands[s.i]? = some row ∧
      unsent s = cString row.toList :: s.commandParser.strings.drop (s.i + 1) := by
  have hi : s.i < maxCmdSupport := h.trans_le hr
  have hl : s.i < s.commandParser.strings.length := by simpa [CavATCommandParser.strings] using h
  refine ⟨_, Vector.getElem?_eq_getElem hi, ?_⟩
  rw [unsent, List.drop_eq_getElem_cons hl]
  simp [CavATCommandParser.strings, CavATCommandParser.row, hi]

/-- What one parse adds. -/
structure Parses (s t : System) (readData : List Byte) : Prop where
  idle : unsent s = []
  unsent : CommandHandover.unsent t = commandsIn readData
  inRows : InRows t
  queue : t.queue = s.queue
  parsed : t.parsed = s.parsed ++ commandsIn readData
  received : t.received = s.received

theorem parses_of_step {readData : List Byte} (h : step s (.parse readData) = some t) :
    Parses s t readData := by
  simp only [step, Option.ite_none_right_eq_some] at h
  obtain ⟨⟨hi, h0, hl⟩, h⟩ := h
  split at h
  · rename_i p r hok
    obtain ⟨hn, hle, -, hv⟩ := parseData_ok hl hok
    have hs := strings_of_parseData hl h0 hok
    split at h
    · cases h
      exact ⟨unsent_eq_nil hi, hs, hle, rfl, by rw [hs], rfl⟩
    · rename_i hr
      cases h
      have hnil : commandsIn readData = [] := not_not.mp (fun hc => hr (hv.mpr hc))
      refine ⟨unsent_eq_nil hi, ?_, hle, rfl, by rw [hnil, List.append_nil], rfl⟩
      rw [hnil]
      exact unsent_eq_nil (Nat.lt_irrefl _)
  · cases h

/-- Ten slots are enough for what a parse of at most nine commands announces. -/
theorem parse_enabled (hi : ¬ s.i < s.commandParser.commandCount) {readData : List Byte}
    (h0 : 0 ∉ readData) (hl : readData.length < ringBufferSize)
    (h9 : (commandsIn readData).length ≤ 9) : ∃ t, step s (.parse readData) = some t := by
  obtain ⟨p, r, hok⟩ := parseData_of_le (cleanParserData s.commandParser) hl h9
  simp only [step, if_pos (And.intro hi (And.intro h0 hl)), hok]
  split
  · exact ⟨_, rfl⟩
  · exact ⟨_, rfl⟩

theorem step_send (hr : InRows s) (h : step s .send = some t) :
    ∃ row, unsent s = cString row.toList :: unsent t ∧
      t = { s with queue := (s.queue.send row).2, i := s.i + 1 } := by
  simp only [step, Option.ite_none_right_eq_some] at h
  obtain ⟨hi, h⟩ := h
  obtain ⟨row, hrow, hu⟩ := unsent_cons hr hi
  simp only [sendCommand, hrow, Option.some.injEq] at h
  subst h
  exact ⟨row, hu, rfl⟩

theorem step_receive (h : step s .receive = some t) :
    ∃ row rows, s.queue.items = row :: rows ∧ t.queue.items = rows ∧
      t = { s with queue := t.queue, received := s.received ++ [cString row.toList] } := by
  simp only [step, Option.map_eq_some_iff] at h
  obtain ⟨⟨row, q⟩, hq, h⟩ := h
  rw [receiveCommand] at hq
  split at hq
  · cases hq
  · rename_i row' rows hi
    cases hq
    subst h
    exact ⟨_, _, hi, rfl, rfl⟩

theorem inRows_of_step {a : HandoverAction} (h : step s a = some t) (hr : InRows s) : InRows t := by
  cases a with
  | parse readData => exact (parses_of_step h).inRows
  | send =>
    obtain ⟨row, -, rfl⟩ := step_send hr h
    exact hr
  | receive =>
    obtain ⟨row, rows, -, -, ht⟩ := step_receive h
    rw [ht]
    exact hr

theorem strings_send (q : CmdQueue) (row : Row) : (q.send row).2.strings =
    if q.items.length < usbCmdQueueLength then q.strings ++ [cString row.toList]
    else q.strings := by
  split
  · rename_i h
    rw [CmdQueue.strings, CmdQueue.send_items h, List.map_append]
    rfl
  · rename_i h
    rw [CmdQueue.send, dif_neg h]

/-- With a slot for every send, commands only move on. -/
theorem carried_of_slotFree {a : HandoverAction} (hr : InRows s) (hc : SlotFree s a)
    (h : step s a = some t) :
    ∃ new, t.parsed = s.parsed ++ new ∧ carried t = carried s ++ new := by
  cases a with
  | parse readData =>
    have hp := parses_of_step h
    refine ⟨commandsIn readData, hp.parsed, ?_⟩
    rw [carried, carried, hp.received, hp.queue, hp.idle, hp.unsent, List.append_nil]
  | send =>
    obtain ⟨row, hu, ht⟩ := step_send hr h
    have hq : t.queue.strings = s.queue.strings ++ [cString row.toList] := by
      rw [ht, strings_send]
      exact if_pos hc
    refine ⟨[], by rw [ht, List.append_nil], ?_⟩
    rw [carried, carried, hq, hu, ht]
    simp
  | receive =>
    obtain ⟨row, rows, hs, htq, ht⟩ := step_receive h
    have hq : s.queue.strings = cString row.toList :: t.queue.strings := by
      rw [CmdQueue.strings, CmdQueue.strings, hs, htq, List.map_cons]
    refine ⟨[], by rw [ht, List.append_nil], ?_⟩
    have hu : unsent t = unsent s := by
      rw [ht]
      rfl
    have hrec : t.received = s.received ++ [cString row.toList] := by rw [ht]
    rw [carried, carried, hq, hu, hrec]
    simp

/-- A send without a slot drops its command. -/
theorem carried_of_refused {a : HandoverAction} (hr : InRows s) (hc : ¬ SlotFree s a)
    (h : step s a = some t) :
    t.parsed = s.parsed ∧ (carried t).length + 1 = (carried s).length := by
  cases a with
  | parse readData => exact absurd trivial hc
  | send =>
    obtain ⟨row, hu, ht⟩ := step_send hr h
    have hq : t.queue.strings = s.queue.strings := by
      rw [ht, strings_send]
      exact if_neg hc
    have hrec : t.received = s.received := by rw [ht]
    constructor
    · rw [ht]
    · rw [carried, carried, hq, hrec, hu]
      simp only [List.length_append, List.length_cons]
      omega
  | receive => exact absurd trivial hc

/-- How many commands have been dropped. -/
def lost (s : System) : ℤ := s.parsed.length - (carried s).length

theorem lost_of_slotFree {a : HandoverAction} (hr : InRows s) (hc : SlotFree s a)
    (h : step s a = some t) : lost t = lost s := by
  obtain ⟨new, hp, hcar⟩ := carried_of_slotFree hr hc h
  simp only [lost, hp, hcar, List.length_append]
  omega

theorem lost_of_refused {a : HandoverAction} (hr : InRows s) (hc : ¬ SlotFree s a)
    (h : step s a = some t) : lost t = lost s + 1 := by
  obtain ⟨hp, hcar⟩ := carried_of_refused hr hc h
  simp only [lost, hp]
  omega

instance (s : System) : (a : HandoverAction) → Decidable (SlotFree s a)
  | .parse _ => isTrue trivial
  | .send => inferInstanceAs (Decidable (_ < _))
  | .receive => isTrue trivial

theorem inRows_of_run (hr : InRows s) (h : run step s as = some t) : InRows t := by
  refine run_invariant (A := fun _ => True) (I := InRows) ?_ (fun _ _ => trivial) hr h
  intro s a t _ h hr
  exact inRows_of_step h hr

theorem carried_of_along (hr : InRows s) (hc : Along step SlotFree s as)
    (h : run step s as = some t) (hs : carried s = s.parsed) : carried t = t.parsed := by
  have hi := hc.invariant (I := fun s => InRows s ∧ carried s = s.parsed) ?_ ⟨hr, hs⟩ h
  · exact hi.2
  · intro s a t hc h hs
    obtain ⟨new, hp, hcar⟩ := carried_of_slotFree hs.1 hc h
    exact ⟨inRows_of_step h hs.1, by rw [hp, hcar, hs.2]⟩

/-- A run in which nothing was dropped has found a slot for every send. -/
theorem lost_of_run (hr : InRows s) (h : run step s as = some t) :
    lost s ≤ lost t ∧ (lost t ≤ lost s → Along step SlotFree s as) := by
  refine along_of_le (A := fun _ => True) (I := InRows) ?_ ?_ ?_ (fun _ _ => trivial) hr h
  · intro s a t _ h hr
    exact inRows_of_step h hr
  · intro s a t _ h hr
    by_cases hc : SlotFree s a
    · exact (lost_of_slotFree hr hc h).ge
    · rw [lost_of_refused hr hc h]
      omega
  · intro s a t _ h hr hc
    rw [lost_of_refused hr hc h]
    omega

theorem along_iff_carried (hr : InRows s) (hs : carried s = s.parsed)
    (h : run step s as = some t) : Along step SlotFree s as ↔ carried t = t.parsed := by
  constructor
  · intro hc
    exact carried_of_along hr hc h hs
  · intro ht
    apply (lost_of_run hr h).2
    simp [lost, hs, ht]

theorem length_unsent (s : System) :
    (unsent s).length = s.commandParser.commandCount - s.i := by
  simp [unsent, CavATCommandParser.strings]

theorem length_strings (q : CmdQueue) : q.strings.length = q.items.length := List.length_map _

/-- The queue is never longer than its slots. -/
theorem take_strings (q : CmdQueue) : q.strings.take usbCmdQueueLength = q.strings := by
  apply List.take_of_length_le
  rw [length_strings]
  exact q.bounded

private theorem take_take_concat {l m : List (List Byte)} {x : List Byte} (n k : ℕ) :
    ((if l.length < k then l ++ [x] else l.take k) ++ m.take n).take k =
      (l ++ x :: m.take n).take k := by
  split
  · simp
  · rename_i h
    have hk : k ≤ l.length := Nat.le_of_not_lt h
    rw [List.take_append_of_le_length (by simpa using hk), List.take_append_of_le_length hk,
      List.take_take, Nat.min_self]

theorem send_enabled (hr : InRows s) (h : s.i < s.commandParser.commandCount) :
    ∃ t, step s .send = some t := by
  obtain ⟨row, hrow, -⟩ := unsent_cons hr h
  simp only [step, if_pos h, sendCommand, hrow]
  exact ⟨_, rfl⟩

/-- The sending loop left alone: what the queue has no slots for is gone. -/
theorem run_sends (hr : InRows s) (n : ℕ) (h : n ≤ s.commandParser.commandCount - s.i) :
    ∃ t, run step s (List.replicate n .send) = some t ∧
      t = { s with queue := t.queue, i := s.i + n } ∧
      t.queue.strings = (s.queue.strings ++ (unsent s).take n).take usbCmdQueueLength ∧
      (s.queue.items.length + n ≤ usbCmdQueueLength →
        Along step SlotFree s (List.replicate n .send)) := by
  induction n generalizing s with
  | zero =>
    refine ⟨s, rfl, rfl, ?_, fun _ => trivial⟩
    rw [List.take_zero, List.append_nil, take_strings]
  | succ n ih =>
    obtain ⟨u, hu⟩ := send_enabled hr (by omega)
    obtain ⟨row, huns, he⟩ := step_send hr hu
    have hi : u.i = s.i + 1 := by rw [he]
    have hq : u.queue.strings = if s.queue.items.length < usbCmdQueueLength then
        s.queue.strings ++ [cString row.toList] else s.queue.strings := by
      rw [he, strings_send]
    have hp : u.commandParser = s.commandParser := by rw [he]
    obtain ⟨t, ht, het, hts, hal⟩ := ih (s := u) (inRows_of_step hu hr) (by rw [hi, hp]; omega)
    refine ⟨t, run_cons_eq_some.mpr ⟨u, hu, ht⟩, ?_, ?_, ?_⟩
    · have hn : s.i + 1 + n = s.i + (n + 1) := by omega
      rw [het, hi, hn, he]
    · rw [hts, hq, huns, List.take_succ_cons, ← take_take_concat, take_strings, length_strings]
    · intro hroom
      rw [List.replicate_succ, along_cons hu]
      have hs : s.queue.items.length < usbCmdQueueLength := by omega
      refine ⟨hs, hal ?_⟩
      rw [if_pos hs] at hq
      have hl := congrArg List.length hq
      rw [length_strings, List.length_append, length_strings, List.length_singleton] at hl
      omega

theorem receive_enabled {row : Row} {rows : List Row} (h : s.queue.items = row :: rows) :
    ∃ t, step s .receive = some t := by
  obtain ⟨p, i, ⟨items, hb⟩, parsed, received⟩ := s
  subst h
  exact ⟨_, rfl⟩

/-- `process_data_task` left alone empties the queue. -/
theorem run_receives (s : System) :
    ∃ t, run step s (List.replicate s.queue.items.length .receive) = some t ∧
      t = { s with queue := t.queue, received := s.received ++ s.queue.strings } ∧
      t.queue.items = [] ∧
      Along step SlotFree s (List.replicate s.queue.items.length .receive) := by
  generalize hn : s.queue.items.length = n
  induction n generalizing s with
  | zero =>
    have hnil := List.eq_nil_of_length_eq_zero hn
    refine ⟨s, rfl, ?_, hnil, trivial⟩
    simp [CmdQueue.strings, hnil]
  | succ n ih =>
    obtain ⟨row, rows, hi⟩ := List.exists_cons_of_length_eq_add_one hn
    obtain ⟨u, hu⟩ := receive_enabled hi
    obtain ⟨row', rows', hs, hq, he⟩ := step_receive hu
    have hlen := congrArg List.length hs
    rw [List.length_cons] at hlen
    have hrec : u.received = s.received ++ [cString row'.toList] := by rw [he]
    have hstr : s.queue.strings = cString row'.toList :: u.queue.strings := by
      rw [CmdQueue.strings, CmdQueue.strings, hs, hq, List.map_cons]
    obtain ⟨t, ht, het, hte, hal⟩ := ih u (by rw [hq]; omega)
    refine ⟨t, run_cons_eq_some.mpr ⟨u, hu, ht⟩, ?_, hte, ?_⟩
    · rw [hrec] at het
      rw [het, he, hstr]
      simp
    · rw [List.replicate_succ, along_cons hu]
      exact ⟨trivial, hal⟩

/-- The loop is over and the queue is empty. -/
structure Drained (s : System) : Prop where
  idle : ¬ s.i < s.commandParser.commandCount
  empty : s.queue.items = []

/-- Whatever the tasks are doing, they can hand over all that they have without dropping
anything more. -/
theorem drain (hr : InRows s) : ∃ bs t, run step s bs = some t ∧ Along step SlotFree s bs ∧
    Drained t ∧ t.received = carried s ∧ t.parsed = s.parsed := by
  obtain ⟨u, hu, heu, hue, hau⟩ := run_receives s
  have hur : InRows u := inRows_of_run hr hu
  have hrec : u.received = s.received ++ s.queue.strings := by rw [heu]
  have huns : unsent u = unsent s := by
    rw [heu]
    rfl
  obtain ⟨v, hv, hev, hvs, hav⟩ := run_sends hur (unsent u).length (length_unsent u).le
  obtain ⟨w, hw, hew, hwe, haw⟩ := run_receives v
  have hshort : (unsent u).length ≤ maxCmdSupport := by
    rw [length_unsent]
    exact (Nat.sub_le _ _).trans hur
  have hq : v.queue.strings = unsent s := by
    have hnil : u.queue.strings = [] := by rw [CmdQueue.strings, hue, List.map_nil]
    rw [hvs, hnil, List.nil_append, List.take_length, List.take_of_length_le, huns]
    exact hshort.trans (by decide)
  have hroom : Along step SlotFree u (List.replicate (unsent u).length .send) := by
    apply hav
    rw [hue, List.length_nil, Nat.zero_add]
    exact hshort.trans (by decide)
  refine ⟨_, w, run_append_eq_some.mpr ⟨u, hu, run_append_eq_some.mpr ⟨v, hv, hw⟩⟩,
    hau.append hu (hroom.append hv haw), ⟨?_, hwe⟩, ?_, ?_⟩
  · rw [hew, hev, length_unsent]
    show ¬ u.i + (u.commandParser.commandCount - u.i) < u.commandParser.commandCount
    omega
  · have hvr : v.received = u.received := by rw [hev]
    rw [hew, carried, ← hq, ← hrec, ← hvr]
  · rw [hew, hev, heu]

/-- A parse of complete commands, and the sends that follow it. -/
def burst (cs : List (List Byte)) : List HandoverAction :=
  .parse cs.flatten :: List.replicate cs.length .send

theorem run_burst (hs : ¬ s.i < s.commandParser.commandCount) {cs : List (List Byte)}
    (hcs : ∀ c ∈ cs, IsCommand c) (h0 : 0 ∉ cs.flatten) (hl : cs.flatten.length < ringBufferSize)
    (h9 : cs.length ≤ 9) :
    ∃ t, run step s (burst cs) = some t ∧ ¬ t.i < t.commandParser.commandCount ∧
      t.queue.strings = (s.queue.strings ++ cs).take usbCmdQueueLength ∧
      t.parsed = s.parsed ++ cs ∧ t.received = s.received ∧
      (s.queue.items.length + cs.length ≤ usbCmdQueueLength → Along step SlotFree s (burst cs)) := by
  have hc : commandsIn cs.flatten = cs := commandsIn_flatten hcs
  obtain ⟨u, hu⟩ := parse_enabled hs h0 hl (by rw [hc]; exact h9)
  have hp := parses_of_step hu
  have hun : unsent u = cs := hp.unsent.trans hc
  have hn := length_unsent u
  rw [hun] at hn
  obtain ⟨t, ht, het, hts, hal⟩ := run_sends hp.inRows cs.length hn.le
  rw [hun, List.take_length, hp.queue] at hts
  refine ⟨t, run_cons_eq_some.mpr ⟨u, hu, ht⟩, ?_, hts, ?_, ?_, ?_⟩
  · rw [het]
    show ¬ u.i + cs.length < u.commandParser.commandCount
    omega
  · rw [het]
    exact hp.parsed.trans (by rw [hc])
  · rw [het]
    exact hp.received
  · intro hroom
    rw [burst, along_cons hu]
    exact ⟨trivial, hal (by rwa [hp.queue])⟩

private theorem not_concat_prefix {l m : List (List Byte)} (hl : l.length < m.length)
    {c : List Byte} (hc : m[l.length] ≠ c) : ¬ l ++ [c] <+: m ++ [c] := by
  rintro ⟨rest, h⟩
  have hx := congrArg (fun x => x[l.length]?) h
  simp only [List.append_assoc, List.getElem?_append_right (Nat.le_refl l.length),
    List.getElem?_append_left hl, Nat.sub_self, List.getElem?_eq_getElem hl] at hx
  exact hc (Option.some.inj hx).symm

theorem isCommand_text (s : String) (hs : chCR ∉ text s) :
    IsCommand (chA :: chT :: (text s ++ [chCR, chLF])) := ⟨text s, hs, rfl⟩

/-- After a drop the next new command is delivered in the place of an older one. -/
theorem hole_of_lost (hr : InRows s) (hl : 0 < lost s) : ∃ bs t, run step s bs = some t ∧
    Along step SlotFree s bs ∧ ¬ t.received <+: t.parsed := by
  obtain ⟨bs, u, hu, hau, hd, hrec, hp⟩ := drain hr
  have hlt : (carried s).length < s.parsed.length := by
    rw [lost] at hl
    omega
  obtain ⟨c, hc, h0, hlen, hne⟩ : ∃ c, IsCommand c ∧ 0 ∉ c ∧ c.length ≤ 5 ∧
      s.parsed[(carried s).length] ≠ c := by
    by_cases hx : s.parsed[(carried s).length] = text "AT\r\n"
    · refine ⟨text "AT0\r\n", isCommand_text "0" (by decide), by decide, by decide, ?_⟩
      rw [hx]
      decide
    · exact ⟨text "AT\r\n", isCommand_text "" (by decide), by decide, by decide, hx⟩
  have hflat : [c].flatten = c := by simp
  obtain ⟨v, hv, -, hvs, hvp, hvr, hav⟩ := run_burst hd.idle
    (List.forall_mem_singleton.mpr hc) (by rwa [hflat]) (by rw [hflat]; exact hlen.trans_lt (by decide))
    (show 1 ≤ 9 by decide)
  obtain ⟨w, hw, hew, -, haw⟩ := run_receives v
  refine ⟨_, w, run_append_eq_some.mpr ⟨u, hu, run_append_eq_some.mpr ⟨v, hv, hw⟩⟩,
    hau.append hu ((hav ?_).append hv haw), ?_⟩
  · rw [hd.empty]
    exact Nat.le_of_ble_eq_true rfl
  · have hnil : u.queue.strings = [] := by rw [CmdQueue.strings, hd.empty, List.map_nil]
    have hwr : w.received = carried s ++ [c] := by
      rw [hew, hvr, hvs, hnil, hrec]
      rfl
    have hwp : w.parsed = s.parsed ++ [c] := by
      rw [hew, hvp, hp]
    rw [hwr, hwp]
    exact not_concat_prefix hlt hne

theorem received_prefix (h : carried s = s.parsed) : s.received <+: s.parsed := by
  rw [← h, carried, List.append_assoc]
  exact List.prefix_append _ _

theorem inRows_initialSystem : InRows initialSystem := Nat.zero_le _

theorem carried_initialSystem : carried initialSystem = initialSystem.parsed := rfl

/-- Nothing is lost between the parser and `process_data_task` if and only if each send of
the run finds a free slot. It shows in what is delivered: after a run without a refused
send, and after whatever follows it without one, the commands received begin the commands
parsed; after a refused send some continuation without another one delivers a command in
the place of an earlier one. -/
theorem handover_iff (as : List HandoverAction) (s : System)
    (h : run step initialSystem as = some s) :
    (Along step SlotFree initialSystem as ↔ carried s = s.parsed) ∧
    (Along step SlotFree initialSystem as ↔ ∀ bs t, run step s bs = some t →
      Along step SlotFree s bs → t.received <+: t.parsed) := by
  have hr := inRows_of_run inRows_initialSystem h
  have hiff := along_iff_carried inRows_initialSystem carried_initialSystem h
  refine ⟨hiff, ?_⟩
  constructor
  · intro hc bs t ht hbs
    exact received_prefix (carried_of_along hr hbs ht (hiff.mp hc))
  · intro hall
    obtain ⟨hmono, hback⟩ := lost_of_run inRows_initialSystem h
    apply hback
    by_contra hlt
    have h0 : lost initialSystem = 0 := rfl
    obtain ⟨bs, t, ht, hbs, hno⟩ := hole_of_lost hr (by omega)
    exact hno (hall bs t ht hbs)

/-- Two commands that are parsed, sent and received. -/
def delivery : List HandoverAction :=
  burst [text "AT\r\n", text "AT0\r\n"] ++ List.replicate 2 .receive

theorem handover_iff_delivery : ∃ s, run step initialSystem delivery = some s ∧
    s.received = [text "AT\r\n", text "AT0\r\n"] ∧
    (Along step SlotFree initialSystem delivery ↔ carried s = s.parsed) ∧
    (Along step SlotFree initialSystem delivery ↔
      ∀ bs t, run step s bs = some t → Along step SlotFree s bs → t.received <+: t.parsed) := by
  have hcs : ∀ c ∈ [text "AT\r\n", text "AT0\r\n"], IsCommand c :=
    List.forall_mem_cons.mpr ⟨isCommand_text "" (by decide),
      List.forall_mem_singleton.mpr (isCommand_text "0" (by decide))⟩
  obtain ⟨b, hb, -, hbq, -, hbr, -⟩ := run_burst (s := initialSystem) (by decide) hcs (by decide)
    (by decide) (by decide)
  obtain ⟨s, hs, hes, -, -⟩ := run_receives b
  have hq : b.queue.strings = [text "AT\r\n", text "AT0\r\n"] := by
    rw [hbq]
    rfl
  have hl : b.queue.items.length = 2 := by
    rw [← length_strings, hq]
    rfl
  rw [hl] at hs
  have hrun : run step initialSystem delivery = some s := run_append_eq_some.mpr ⟨b, hb, hs⟩
  refine ⟨s, hrun, ?_, handover_iff delivery s hrun⟩
  rw [hes, hbr, hq]
  rfl

/-- Twenty commands fill the queue, the next one finds no slot, and the one after that
does. -/
def overrun : List HandoverAction :=
  burst (List.replicate 9 (text "AT\r\n")) ++ (burst (List.replicate 9 (text "AT\r\n")) ++
    (burst [text "AT\r\n", text "AT\r\n", text "AT0\r\n"] ++
      (List.replicate 20 .receive ++ (burst [text "AT1\r\n"] ++ [.receive]))))

private theorem run_overrun : ∃ s, run step initialSystem overrun = some s ∧
    s.received = List.replicate 20 (text "AT\r\n") ++ [text "AT1\r\n"] ∧
    s.parsed = List.replicate 20 (text "AT\r\n") ++ [text "AT0\r\n", text "AT1\r\n"] := by
  have hat : IsCommand (text "AT\r\n") := isCommand_text "" (by decide)
  have hat0 : IsCommand (text "AT0\r\n") := isCommand_text "0" (by decide)
  have hat1 : IsCommand (text "AT1\r\n") := isCommand_text "1" (by decide)
  have hnine : ∀ c ∈ List.replicate 9 (text "AT\r\n"), IsCommand c := by
    intro c hc
    rw [List.eq_of_mem_replicate hc]
    exact hat
  have hthree : ∀ c ∈ [text "AT\r\n", text "AT\r\n", text "AT0\r\n"], IsCommand c := by
    simp [hat, hat0]
  obtain ⟨a, ha, hai, haq, hap, har, -⟩ := run_burst (s := initialSystem) (by decide) hnine
    (by decide) (by decide) (by decide)
  obtain ⟨b, hb, hbi, hbq, hbp, hbr, -⟩ := run_burst hai hnine (by decide) (by decide) (by decide)
  obtain ⟨c, hc, hci, hcq, hcp, hcr, -⟩ := run_burst hbi hthree (by decide) (by decide) (by decide)
  obtain ⟨d, hd, hed, hde, -⟩ := run_receives c
  have hdi : ¬ d.i < d.commandParser.commandCount := by
    rw [hed]
    exact hci
  obtain ⟨e, he, -, heq, hep, her, -⟩ := run_burst hdi (List.forall_mem_singleton.mpr hat1)
    (by decide) (by decide) (by decide)
  obtain ⟨f, hf, hef, -, -⟩ := run_receives e
  have hq : c.queue.strings = List.replicate 20 (text "AT\r\n") := by
    rw [hcq, hbq, haq]
    rfl
  have hcl : c.queue.items.length = 20 := by
    rw [← length_strings, hq]
    rfl
  have hqe : e.queue.strings = [text "AT1\r\n"] := by
    rw [heq, CmdQueue.strings, hde]
    rfl
  have hel : e.queue.items.length = 1 := by
    rw [← length_strings, hqe]
    rfl
  rw [hcl] at hd
  rw [hel] at hf
  refine ⟨f, ?_, ?_, ?_⟩
  · exact run_append_eq_some.mpr ⟨a, ha, run_append_eq_some.mpr ⟨b, hb, run_append_eq_some.mpr
      ⟨c, hc, run_append_eq_some.mpr ⟨d, hd, run_append_eq_some.mpr ⟨e, he, hf⟩⟩⟩⟩⟩
  · rw [hef, her, hqe, hed, hcr, hbr, har, hq]
    rfl
  · rw [hef, hep, hed, hcp, hbp, hap]
    rfl

theorem overrun_skips_a_command : ¬ ∀ as s, run step initialSystem as = some s →
    s.received <+: s.parsed := by
  intro h
  obtain ⟨s, hs, hr, hp⟩ := run_overrun
  have hno := h overrun s hs
  rw [hr, hp] at hno
  revert hno
  decide

end UsbCdc.CommandHandover
