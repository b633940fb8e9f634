import UsbCdc.CommandCuts
import UsbCdc.ReadBufferTask

/-! # What the receive pipeline does to a command stream

Two ways in which bytes can go missing between the host and the parser: a packet boundary
inside a command, since nothing is kept from one drain to the next, and an overflow of
the ring, which drops bytes and not commands. -/
namespace UsbCdc.ReceivePipeline
open CStrings CommandCuts CommandGrammar DropOldestFifo LeftmostMatches ParseData ReadBufferTask
  RingBuf Transducers

private theorem receive_framed {s : ReadTask} (hs : s.ring.contents = [])
    (hq : s.queue.items.length + 9 ≤ usbCmdQueueLength) (packets : List (List Byte))
    (h0 : 0 ∉ packets.flatten) (hl : packets.flatten.length ≤ 511)
    (h9 : (packets.flatMap commandsIn).length ≤ 9) :
    ∃ t, receive s packets = .ok t ∧
      t.queue.strings = s.queue.strings ++ packets.flatMap commandsIn := by
  have hp0 (p : List Byte) (hp : p ∈ packets) : 0 ∉ p :=
    fun h => h0 (List.mem_flatten.mpr ⟨p, hp, h⟩)
  have hpl (p : List Byte) (hp : p ∈ packets) : p.length ≤ 511 :=
    ((List.sublist_flatten_of_mem hp).length_le).trans hl
  obtain ⟨t, ht, -, hstr⟩ := receive_ok packets s hs hp0 hpl h9 (by omega)
  exact ⟨t, ht, hstr⟩

/-- Packets and the unbroken stream give the same commands exactly if no packet boundary
lies inside a command. -/
theorem framing_independent_iff (s : ReadTask) (hs : s.ring.contents = [])
    (hq : s.queue.items.length + 9 ≤ usbCmdQueueLength) (packets : List (List Byte))
    (h0 : 0 ∉ packets.flatten) (hl : packets.flatten.length ≤ 511)
    (ms : List (List Byte)) (hm : AllMatches IsCommand packets.flatten ms) (h9 : ms.length ≤ 9) :
    ∃ t u, receive s packets = .ok t ∧ receive s [packets.flatten] = .ok u ∧
      (t.queue.strings = u.queue.strings ↔
        ∀ ps qs, packets = ps ++ qs → ¬ Straddles ps.flatten qs.flatten) := by
  obtain rfl := allMatches_iff.mp hm
  have hflat : [packets.flatten].flatten = packets.flatten := by simp
  have hone : [packets.flatten].flatMap commandsIn = commandsIn packets.flatten := by simp
  obtain ⟨t, ht, htq⟩ := receive_framed hs hq packets h0 hl ((length_packets_le packets).trans h9)
  obtain ⟨u, hu, huq⟩ := receive_framed hs hq [packets.flatten]
    (by rwa [hflat]) (by rwa [hflat]) (by rwa [hone])
  refine ⟨t, u, ht, hu, ?_⟩
  rw [htq, huq, hone, List.append_cancel_left_eq]
  exact packets_iff packets

theorem framing_independent_whole :
    ∃ t u, receive default [text "AT+LED\r\n", text "AT+TIME\r\n"] = .ok t ∧
      receive default [text "AT+LED\r\nAT+TIME\r\n"] = .ok u ∧
      (t.queue.strings = u.queue.strings ↔
        ∀ ps qs, [text "AT+LED\r\n", text "AT+TIME\r\n"] = ps ++ qs →
          ¬ Straddles ps.flatten qs.flatten) :=
  framing_independent_iff default (contents_initRingBuffer _) (by decide)
    [text "AT+LED\r\n", text "AT+TIME\r\n"] (by decide) (by decide)
    [text "AT+LED\r\n", text "AT+TIME\r\n"] (allMatches_iff.mpr (by decide)) (by decide)

theorem framing_dependent : ¬ ∀ (s : ReadTask) (packets : List (List Byte)),
    s.ring.contents = [] → s.queue.items.length + 9 ≤ usbCmdQueueLength →
    0 ∉ packets.flatten → packets.flatten.length ≤ 511 →
    (∀ ms, AllMatches IsCommand packets.flatten ms → ms.length ≤ 9) →
    ∃ t u, receive s packets = .ok t ∧ receive s [packets.flatten] = .ok u ∧
      t.queue.strings = u.queue.strings := by
  intro h
  obtain ⟨t, u, ht, hu, he⟩ := h default [text "AT", text "\r\n"] (contents_initRingBuffer _)
    (by decide) (by decide) (by decide) (fun ms hm => by rw [allMatches_iff.mp hm]; decide)
  obtain ⟨t', ht', htq⟩ := receive_framed (s := default) (contents_initRingBuffer _) (by decide)
    [text "AT", text "\r\n"] (by decide) (by decide) (by decide)
  obtain ⟨u', hu', huq⟩ := receive_framed (s := default) (contents_initRingBuffer _) (by decide)
    [[text "AT", text "\r\n"].flatten] (by decide) (by decide) (by decide)
  obtain rfl : t = t' := Except.ok.inj (ht.symm.trans ht')
  obtain rfl : u = u' := Except.ok.inj (hu.symm.trans hu')
  rw [htq, huq] at he
  exact absurd he (by decide)

section Overflow

/-- The ring after several writes holds the end of the stream. -/
theorem contents_writes (rb : RingBuffer) (cs : List (List Byte)) (h0 : ∀ c ∈ cs, 0 ∉ c) :
    (cs.foldl writeData rb).contents = (rb.contents ++ cs.flatten).rtake 511 := by
  induction cs generalizing rb with
  | nil =>
    rw [List.foldl_nil, List.flatten_nil, List.append_nil]
    exact (rtake_of_length_le (length_contents_le rb)).symm
  | cons c cs ih =>
    rw [List.foldl_cons, ih _ (fun d hd => h0 d (List.mem_cons_of_mem c hd)), contents_writeData,
      cString_of_notMem (h0 c List.mem_cons_self), List.flatten_cons, ← List.append_assoc]
    exact rtake_rtake_append _ _ 511

/-- Dropping bytes from the front of a concatenation cuts one of its parts. -/
private theorem cut_part {cs : List (List Byte)} {n : ℕ} (h : n < cs.flatten.length) :
    ∃ before c after lost kept, cs = before ++ c :: after ∧ c = lost ++ kept ∧ lost ≠ [] ∧
      cs.flatten.rtake n = kept ++ after.flatten := by
  induction cs with
  | nil => simp at h
  | cons c cs ih =>
    rw [List.flatten_cons, List.length_append] at h
    rcases Nat.lt_or_ge n cs.flatten.length with hlt | hge
    · obtain ⟨before, d, after, lost, kept, rfl, hd, hlost, hk⟩ := ih hlt
      refine ⟨c :: before, d, after, lost, kept, rfl, hd, hlost, ?_⟩
      rw [← hk, List.flatten_cons, List.rtake, List.rtake, List.length_append, Nat.add_sub_assoc hlt.le,
        List.drop_length_add_append]
    · refine ⟨[], c, cs, c.take (c.length + cs.flatten.length - n),
        c.drop (c.length + cs.flatten.length - n), rfl, (List.take_append_drop _ _).symm, ?_, ?_⟩
      · intro h0
        have hl := congrArg List.length h0
        simp only [List.length_take, List.length_nil] at hl
        omega
      · rw [List.flatten_cons, List.rtake, List.length_append,
          List.drop_append_of_le_length (by omega)]

variable {lost kept : List Byte}

private theorem kept_shape (h : IsCommand (lost ++ kept)) :
    kept = [] ∨ kept = [chLF] ∨ ∃ w, kept = w ++ [chCR, chLF] := by
  obtain ⟨b, -, he⟩ := h
  rw [← List.cons_append, ← List.cons_append] at he
  rcases List.append_eq_append_iff.mp he with ⟨a, -, ha⟩ | ⟨a, -, ha⟩
  · exact Or.inr (Or.inr ⟨a, ha⟩)
  · cases a with
    | nil => exact Or.inr (Or.inr ⟨[], by simpa using ha.symm⟩)
    | cons x a =>
      obtain ⟨-, ha⟩ := List.cons_eq_cons.mp ha
      rcases List.append_eq_singleton_iff.mp ha.symm with ⟨-, hk⟩ | ⟨-, hk⟩
      · exact Or.inr (Or.inl hk)
      · exact Or.inl hk

/-- Behind the remainder of a command the scanner starts afresh. -/
private theorem after_kept (h : IsCommand (lost ++ kept)) : scanner.after .idle kept = .idle := by
  rcases kept_shape h with rfl | rfl | ⟨w, rfl⟩
  · rfl
  · rfl
  · exact after_crlf _ w

/-- From any `AT` in it on, a command is again a command. -/
private theorem isCommand_tail {u z : List Byte} (h : IsCommand (u ++ chA :: chT :: z)) :
    IsCommand (chA :: chT :: z) := by
  obtain ⟨b, hb, he⟩ := h
  have hb' : chCR ∉ chA :: chT :: b := by
    simp [hb, chA_ne_chCR.symm, chT_ne_chCR.symm]
  have he' : u ++ chA :: chT :: z = (chA :: chT :: b) ++ [chCR, chLF] := he
  rcases List.append_eq_append_iff.mp he' with ⟨a, ha, hz⟩ | ⟨a, ha, hz⟩
  · rw [ha] at hb'
    cases a with
    | nil => exact absurd (List.cons_eq_cons.mp hz).1 chA_ne_chCR
    | cons x a =>
      obtain ⟨rfl, ht⟩ := List.cons_eq_cons.mp hz
      cases a with
      | nil => exact absurd (List.cons_eq_cons.mp ht).1 chT_ne_chCR
      | cons y a =>
        obtain ⟨rfl, rfl⟩ := List.cons_eq_cons.mp ht
        exact ⟨a, fun hm => hb' (by simp [hm]), rfl⟩
  · have hlen := congrArg List.length hz
    simp only [List.length_append, List.length_cons, List.length_nil] at hlen
    obtain rfl : a = [] := List.eq_nil_of_length_eq_zero (by omega)
    exact absurd (List.cons_eq_cons.mp hz).1.symm chA_ne_chCR

/-- The remainder of a command is taken for a command as soon as it contains `AT`. -/
private theorem commandsIn_kept (h : IsCommand (lost ++ kept)) :
    commandsIn kept = [] ↔ ¬ [chA, chT] <:+: kept := by
  constructor
  · rintro hnil ⟨u, z, rfl⟩
    obtain ⟨rest, hm, hno⟩ := allMatches_commandsIn (u ++ [chA, chT] ++ z)
    rw [hnil] at hm
    cases hm
    have hc : IsCommand ((lost ++ u) ++ chA :: chT :: z) := by simpa using h
    exact hno u (chA :: chT :: z) [] (by simp) (isCommand_tail hc)
  · intro hno
    rw [List.eq_nil_iff_forall_not_mem]
    intro m hm
    obtain ⟨⟨b, -, rfl⟩, hi⟩ := isCommand_of_mem hm
    exact hno ((List.prefix_append [chA, chT] _).isInfix.trans hi)

/-- With an `AT` in the remainder the drain reports a command that is no suffix's first. -/
private theorem kept_not_suffix {before after : List (List Byte)}
    (h : IsCommand (lost ++ kept)) (hl : lost ≠ []) (hat : [chA, chT] <:+: kept) :
    ¬ commandsIn kept ++ after <:+ before ++ (lost ++ kept) :: after := by
  rintro ⟨t, ht⟩
  have hne : commandsIn kept ≠ [] := fun h0 => (commandsIn_kept h).mp h0 hat
  have hcut : t ++ commandsIn kept = before ++ [lost ++ kept] := by
    rw [List.append_cons before, ← List.append_assoc] at ht
    exact List.append_cancel_right ht
  have hlast := congrArg List.getLast? hcut
  rw [List.getLast?_append_of_ne_nil t hne, List.getLast?_concat] at hlast
  have hmem := List.mem_of_getLast? hlast
  have hvol := volume_commandsIn_le kept
  have hle := (List.sublist_flatten_of_mem hmem).length_le
  have hpos := List.length_pos_of_ne_nil hl
  rw [volume] at hvol
  rw [List.length_append] at hle
  omega

/-- The drain after several writes reports the commands at the end of the stream. -/
private theorem drain_after_writes {s : ReadTask} (hs : s.ring.contents = [])
    {cs : List (List Byte)} (h0 : ∀ c ∈ cs, 0 ∉ c)
    (h10 : (commandsIn (cs.flatten.rtake 511)).length < 10) :
    ∃ t, readBufferPass { s with ring := cs.foldl writeData s.ring } = .ok t ∧
      t.commandParser.strings = commandsIn (cs.flatten.rtake 511) := by
  have hring : (cs.foldl writeData s.ring).contents = cs.flatten.rtake 511 := by
    rw [contents_writes s.ring cs h0, hs, List.nil_append]
  have hflat : 0 ∉ cs.flatten := by
    intro hmem
    obtain ⟨c, hc, h⟩ := List.mem_flatten.mp hmem
    exact h0 c hc h
  obtain ⟨t, ht, -, hstr, -⟩ := readBufferPass_ok { s with ring := cs.foldl writeData s.ring }
    (by rw [hring]; exact zero_notMem_rtake hflat 511) (by rw [hring]; omega)
  exact ⟨t, ht, by rw [hstr, hring]⟩

/-- Commands written without a read in between are drained as a suffix of what was
written, exactly if the remainder of the command that the overflow cuts has no `AT`. -/
theorem overflow_suffix_iff (s : ReadTask) (hs : s.ring.contents = []) (cs : List (List Byte))
    (hcs : ∀ c ∈ cs, IsCommand c ∧ 0 ∉ c ∧ c.length ≤ 511) (ms : List (List Byte))
    (hm : AllMatches IsCommand (cs.flatten.rtake 511) ms) (h10 : ms.length < 10) :
    ∃ t, readBufferPass { s with ring := cs.foldl writeData s.ring } = .ok t ∧
      ((t.commandParser.strings <:+ cs ∧ ∀ row ∈ t.commandParser.strings, row ∈ cs) ↔
        ∀ before c after lost kept, cs = before ++ c :: after → c = lost ++ kept → lost ≠ [] →
          cs.flatten.rtake 511 = kept ++ after.flatten → ¬ [chA, chT] <:+: kept) := by
  rw [allMatches_iff.mp hm] at h10
  have hcmd : ∀ c ∈ cs, IsCommand c := fun c hc => (hcs c hc).1
  obtain ⟨t, ht, hstr⟩ := drain_after_writes hs (fun c hc => (hcs c hc).2.1) h10
  refine ⟨t, ht, ?_⟩
  rw [hstr]
  have hrows {before c after : List (List Byte)} {lost kept : List Byte}
      (hsplit : cs = before ++ (lost ++ kept) :: after)
      (hk : cs.flatten.rtake 511 = kept ++ after.flatten) :
      IsCommand (lost ++ kept) ∧ commandsIn (cs.flatten.rtake 511) = commandsIn kept ++ after := by
    have hc := hcmd (lost ++ kept) (by simp [hsplit])
    refine ⟨hc, ?_⟩
    rw [hk, commandsIn, Transducer.output_append, after_kept hc, output_idle, output_idle,
      commandsIn_flatten (fun d hd => hcmd d (by simp [hsplit, hd]))]
  constructor
  · rintro ⟨hsuf, -⟩ before c after lost kept hsplit rfl hl hk hat
    obtain ⟨hc, hr⟩ := hrows (c := []) hsplit hk
    rw [hr, hsplit] at hsuf
    exact kept_not_suffix hc hl hat hsuf
  · intro h
    have hsuf : commandsIn (cs.flatten.rtake 511) <:+ cs := by
      rcases Nat.lt_or_ge 511 cs.flatten.length with hlt | hge
      · obtain ⟨before, c, after, lost, kept, hsplit, rfl, hl, hk⟩ := cut_part hlt
        obtain ⟨hc, hr⟩ := hrows (c := []) hsplit hk
        rw [hr, (commandsIn_kept hc).mpr (h _ _ _ _ _ hsplit rfl hl hk), List.nil_append]
        exact ⟨before ++ [lost ++ kept], by rw [hsplit, ← List.append_cons]⟩
      · rw [rtake_of_length_le hge, commandsIn_flatten hcmd]
    exact ⟨hsuf, fun row hrow => hsuf.subset hrow⟩

/-- A command of 503 bytes. -/
def fillingCommand : List Byte := chA :: chT :: (List.replicate 499 chT ++ [chCR, chLF])

private theorem fillingCommand_ok :
    IsCommand fillingCommand ∧ 0 ∉ fillingCommand ∧ fillingCommand.length = 503 := by
  refine ⟨⟨List.replicate 499 chT, ?_, rfl⟩, ?_, ?_⟩
  · intro h
    exact chT_ne_chCR (List.eq_of_mem_replicate h).symm
  · intro h
    simp only [fillingCommand, List.mem_cons, List.mem_append, List.mem_replicate] at h
    revert h
    decide
  · simp only [fillingCommand, List.length_cons, List.length_append, List.length_replicate,
      List.length_nil]

/-- Of the first command the overflow leaves `ED\r\n`. -/
def overflowing : List (List Byte) := [text "AT+LED\r\n", text "AT\r\n", fillingCommand]

private theorem overflowing_ok : ∀ c ∈ overflowing, IsCommand c ∧ 0 ∉ c ∧ c.length ≤ 511 := by
  obtain ⟨hf, hf0, hfl⟩ := fillingCommand_ok
  exact List.forall_mem_cons.mpr ⟨⟨⟨text "+LED", by decide, by decide⟩, by decide, by decide⟩,
    List.forall_mem_cons.mpr ⟨⟨⟨[], by decide, by decide⟩, by decide, by decide⟩,
      List.forall_mem_singleton.mpr ⟨hf, hf0, by omega⟩⟩⟩

theorem overflow_suffix_overflowing :
    511 < overflowing.flatten.length ∧
    ∃ t, readBufferPass { (default : ReadTask) with
        ring := overflowing.foldl writeData (default : ReadTask).ring } = .ok t ∧
      ((t.commandParser.strings <:+ overflowing ∧
          ∀ row ∈ t.commandParser.strings, row ∈ overflowing) ↔
        ∀ before c after lost kept, overflowing = before ++ c :: after →
          c = lost ++ kept → lost ≠ [] →
          overflowing.flatten.rtake 511 = kept ++ after.flatten → ¬ [chA, chT] <:+: kept) := by
  obtain ⟨hf, -, hfl⟩ := fillingCommand_ok
  have hlen : overflowing.flatten.length = 515 := by
    simp only [overflowing, List.flatten_cons, List.flatten_nil, List.length_append,
      List.length_nil, hfl]
    decide
  have hcut : overflowing.flatten.rtake 511 =
      text "ED\r\n" ++ [text "AT\r\n", fillingCommand].flatten := by
    rw [List.rtake, hlen]
    rfl
  have hms : commandsIn (overflowing.flatten.rtake 511) = [text "AT\r\n", fillingCommand] := by
    have hcmd : ∀ c ∈ [text "AT\r\n", fillingCommand], IsCommand c := fun c hc =>
      (overflowing_ok c (List.mem_cons_of_mem _ hc)).1
    rw [hcut, commandsIn, Transducer.output_append]
    have hafter : scanner.after .idle (text "ED\r\n") = .idle := by decide
    have hout : scanner.output .idle (text "ED\r\n") = [] := by decide
    rw [hafter, hout, List.nil_append]
    exact commandsIn_flatten hcmd
  refine ⟨by omega, overflow_suffix_iff default (contents_initRingBuffer _) overflowing
    overflowing_ok _ (allMatches_iff.mpr hms.symm) (by decide)⟩

/-- `ATxAT+LED\r\n` and a long command: the overflow leaves `AT+LED\r\n` of the first. -/
theorem overflow_fabricates : ¬ ∀ (s : ReadTask), s.ring.contents = [] →
    ∀ cs : List (List Byte), (∀ c ∈ cs, IsCommand c ∧ 0 ∉ c ∧ c.length ≤ 511) →
    ∀ ms, AllMatches IsCommand (cs.flatten.rtake 511) ms → ms.length < 10 →
    ∃ t, readBufferPass { s with ring := cs.foldl writeData s.ring } = .ok t ∧
      t.commandParser.strings <:+ cs ∧ ∀ row ∈ t.commandParser.strings, row ∈ cs := by
  intro h
  obtain ⟨hf, hf0, hfl⟩ := fillingCommand_ok
  have hled : IsCommand (text "AT+LED\r\n") := ⟨text "+LED", by decide, by decide⟩
  have hfirst : IsCommand (text "ATxAT+LED\r\n") := ⟨text "xAT+LED", by decide, by decide⟩
  have hcs : ∀ c ∈ [text "ATxAT+LED\r\n", fillingCommand],
      IsCommand c ∧ 0 ∉ c ∧ c.length ≤ 511 := by
    intro c hc
    rcases List.mem_pair.mp hc with rfl | rfl
    · exact ⟨hfirst, by decide, by decide⟩
    · exact ⟨hf, hf0, by omega⟩
  have hcut : [text "ATxAT+LED\r\n", fillingCommand].flatten.rtake 511 =
      [text "AT+LED\r\n", fillingCommand].flatten := by
    have hd : [text "ATxAT+LED\r\n", fillingCommand].flatten.length - 511 =
        (text "ATx").length := by
      simp only [List.flatten_cons, List.flatten_nil, List.length_append, List.length_nil, hfl]
      decide
    rw [List.rtake, hd]
    rfl
  have hms : commandsIn ([text "ATxAT+LED\r\n", fillingCommand].flatten.rtake 511) =
      [text "AT+LED\r\n", fillingCommand] := by
    rw [hcut]
    refine commandsIn_flatten (fun c hc => ?_)
    rcases List.mem_pair.mp hc with rfl | rfl
    · exact hled
    · exact hf
  have hempty : (default : ReadTask).ring.contents = [] := contents_initRingBuffer _
  obtain ⟨t, ht, -, hmem⟩ := h default hempty _ hcs _ (allMatches_iff.mpr rfl) (by rw [hms]; decide)
  obtain ⟨t', ht', hstr⟩ := drain_after_writes hempty (fun c hc => (hcs c hc).2.1)
    (by rw [hms]; decide)
  obtain rfl : t = t' := Except.ok.inj (ht.symm.trans ht')
  rw [hstr, hms] at hmem
  rcases List.mem_pair.mp (hmem (text "AT+LED\r\n") List.mem_cons_self) with he | he
  · exact absurd he (by decide)
  · rw [← he] at hfl
    exact absurd hfl (by decide)

end Overflow

end UsbCdc.ReceivePipeline
