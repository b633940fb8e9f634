import UsbCdc.CommandCuts
import UsbCdc.ParseData

/-! # The parser recognises the command grammar

The loop of `parseData` simulates the scanner: its rows hold the commands emitted so
far, its current row the pending text. A store can only miss the array when an eleventh
command begins, and for inputs that the ring can deliver no column is ever too large. -/
namespace UsbCdc.ParseDataCorrectness
open BoundedLoops CStrings CommandCuts CommandGrammar LeftmostMatches ParseData RingBuf

namespace CavATCommandParser
variable (p : CavATCommandParser)

theorem length_row {k : ℕ} (hk : k < maxCmdSupport) : (p.row k).length = ringBufferSize := by
  simp [CavATCommandParser.row, hk]

/-- A store inside the array changes one byte of one row. -/
theorem store_ok {i j : ℕ} (hi : i < maxCmdSupport) (hj : j < ringBufferSize) (c : Byte) :
    ∃ q, p.store i j c = .ok q ∧ q.commandCount = p.commandCount ∧
      q.row i = (p.row i).set j c ∧ ∀ k, k ≠ i → q.row k = p.row k := by
  refine ⟨_, dif_pos ⟨hi, hj⟩, rfl, ?_, ?_⟩
  · simp [CavATCommandParser.row, hi, Vector.toList_set]
  · intro k hk
    simp [CavATCommandParser.row, Vector.getElem?_set_ne, hk.symm]

theorem store_error {i j : ℕ} (hi : maxCmdSupport ≤ i) (c : Byte) :
    p.store i j c = .error ⟨i, j⟩ := dif_neg (by omega)

end CavATCommandParser

/-- Storing behind a text that begins a row extends it. -/
private theorem extend_row {w row : List Byte} (h : w <+: row) (hl : w.length < row.length)
    (c : Byte) : w ++ [c] <+: row.set w.length c := by
  obtain ⟨t, rfl⟩ := h
  cases t with
  | nil => simp at hl
  | cons b t => exact ⟨t, by simp⟩

/-- What holds of every element and of a new last one. -/
private theorem forall_getElem?_concat {P : ℕ → List Byte → Prop} {ms : List (List Byte)}
    {m : List Byte} (h : ∀ k x, ms[k]? = some x → P k x) (hm : P ms.length m) :
    ∀ k x, (ms ++ [m])[k]? = some x → P k x := by
  intro k x hk
  rcases Nat.lt_trichotomy k ms.length with hlt | rfl | hgt
  · rw [List.getElem?_append_left hlt] at hk
    exact h k x hk
  · rw [List.getElem?_concat_length] at hk
    rwa [← Option.some.inj hk]
  · rw [List.getElem?_eq_none (by rw [List.length_append, List.length_singleton]; omega)] at hk
    cases hk

/-- The parser's state against the scanner's: `row` is the current row and `unread` the
rest of the input. After a carriage return without line feed the parser is idle one byte
before the scanner leaves its state. -/
inductive Tracks : ParseState → ℕ → Progress → List Byte → List Byte → Prop
  | idle (row unread : List Byte) : Tracks .stateIdle 0 .idle row unread
  | again (line row : List Byte) {c : Byte} (unread : List Byte) (hc : c ≠ chLF) :
      Tracks .stateIdle 0 (.sawCR line) row (c :: unread)
  | sawA {row : List Byte} (unread : List Byte) (h : [chA] <+: row) :
      Tracks .stateAt 1 .sawA row unread
  | body {l row : List Byte} (unread : List Byte) (h : chA :: chT :: l <+: row) :
      Tracks .stateCmd (l.length + 2) (.body l) row unread
  | sawCR {line row : List Byte} (unread : List Byte)
      (h : chA :: chT :: (line ++ [chCR]) <+: row) :
      Tracks .stateCr (line.length + 3) (.sawCR line) row unread

/-- The loop between two iterations, `seen` being the input read so far. -/
structure Parsing (input seen unread : List Byte) (f : Frame) : Prop where
  split : input = seen ++ unread
  readIndex : f.readIndex = seen.length
  count : f.parser.commandCount = (commandsIn seen).length
  rows : ∀ k m, (commandsIn seen)[k]? = some m → m ++ [0] <+: f.parser.row k
  tracks : Tracks f.state f.commandIndex (scanner.after .idle seen)
    (f.parser.row f.parser.commandCount) unread
  ret : f.ret = .validAt ↔ commandsIn seen ≠ []
  inside : f.parser.commandCount ≤ maxCmdSupport
  full : f.parser.commandCount = maxCmdSupport → f.state = .stateIdle ∧
    ∃ since, Matches IsCommand input (commandsIn seen) (since ++ unread) ∧ chA ∉ since

variable {input seen unread : List Byte} {f : Frame} {c : Byte}

theorem pending_length_le (x : List Byte) : (scanner.after .idle x).pending.length ≤ x.length := by
  obtain ⟨-, skipped, hm, -⟩ := scanned x
  have h := hm.volume_le
  rw [List.length_append] at h
  omega

/-- A byte that completes no command. -/
private theorem Parsing.advance {f' : Frame} (h : Parsing input seen (c :: unread) f)
    (he : (scanner.after .idle seen).emit c = [])
    (hi : f'.readIndex = f.readIndex + 1) (hn : f'.parser.commandCount = f.parser.commandCount)
    (hr : ∀ k, k ≠ f.parser.commandCount → f'.parser.row k = f.parser.row k)
    (hret : f'.ret = f.ret)
    (ht : Tracks f'.state f'.commandIndex ((scanner.after .idle seen).step c)
      (f'.parser.row f.parser.commandCount) unread)
    (hf : f.parser.commandCount = maxCmdSupport → f'.state = .stateIdle ∧ c ≠ chA) :
    Parsing input (seen ++ [c]) unread f' := by
  have hc : commandsIn (seen ++ [c]) = commandsIn seen := by
    rw [commandsIn_snoc, he, List.append_nil]
  refine ⟨by rw [h.split, List.append_cons], ?_, by rw [hn, hc, h.count], ?_, ?_,
    by rw [hret, hc, h.ret], by rw [hn]; exact h.inside, ?_⟩
  · rw [hi, h.readIndex, List.length_append, List.length_singleton]
  · intro k m hk
    rw [hc] at hk
    have hlt := (List.getElem?_eq_some_iff.mp hk).1
    rw [hr k (by rw [h.count]; omega)]
    exact h.rows k m hk
  · rw [hn, after_snoc]
    exact ht
  · intro h10
    rw [hn] at h10
    obtain ⟨-, since, hm, hs⟩ := h.full h10
    refine ⟨(hf h10).1, since ++ [c], ?_, ?_⟩
    · rw [hc]
      simpa using hm
    · simp only [List.mem_append, List.mem_singleton, not_or]
      exact ⟨hs, (hf h10).2.symm⟩

/-- What holds after any number of iterations. A store outside the array is only ever the
first byte of an eleventh command. -/
def Sound (input : List Byte) : Except OutOfBounds Frame → Prop
  | .ok f => ∃ seen unread, Parsing input seen unread f
  | .error _ => ∃ ms rest, Matches IsCommand input ms rest ∧ ms.length = maxCmdSupport ∧ chA ∈ rest

private theorem Parsing.currentChar (h : Parsing input seen (c :: unread) f) :
    input.getD f.readIndex 0 = c := by
  rw [h.split, h.readIndex]
  simp

private theorem Parsing.not_full (h : Parsing input seen unread f) (hs : f.state ≠ .stateIdle) :
    f.parser.commandCount < maxCmdSupport :=
  Nat.lt_of_le_of_ne h.inside (fun he => hs (h.full he).1)

/-- The pending text and two more bytes fit into a row. -/
private theorem Parsing.fits (h : Parsing input seen (c :: unread) f)
    (hl : input.length < ringBufferSize) {n : ℕ}
    (hn : n = (scanner.after .idle seen).pending.length) : n + 1 < ringBufferSize := by
  have hp := pending_length_le seen
  have hs := congrArg List.length h.split
  rw [List.length_append, List.length_cons] at hs
  omega

private theorem idle_step (h : Parsing input seen (c :: unread) f) (hst : f.state = .stateIdle)
    (hci : f.commandIndex = 0) (he : (scanner.after .idle seen).emit c = [])
    (hs : (scanner.after .idle seen).step c = .restart c) :
    Sound input (parseStep input f) := by
  simp only [parseStep, hst, h.currentChar]
  by_cases hc : c = chA
  · subst hc
    rw [if_pos rfl]
    rcases Nat.lt_or_ge f.parser.commandCount maxCmdSupport with hlt | hge
    · obtain ⟨q, hq, hn, hrow, hother⟩ :=
        CavATCommandParser.store_ok f.parser hlt (j := 0) (by decide) chA
      rw [hci, hq]
      refine ⟨seen ++ [chA], unread, h.advance he rfl hn hother rfl ?_ ?_⟩
      · rw [hs, Progress.restart, if_pos rfl, hrow]
        refine .sawA unread (extend_row (w := []) (List.nil_prefix) ?_ chA)
        rw [CavATCommandParser.length_row f.parser hlt]
        decide
      · omega
    · rw [CavATCommandParser.store_error f.parser hge]
      obtain ⟨-, since, hm, -⟩ := h.full (Nat.le_antisymm h.inside hge)
      exact ⟨_, _, hm, by rw [← h.count]; exact Nat.le_antisymm h.inside hge, by simp⟩
  · rw [if_neg hc]
    refine ⟨seen ++ [c], unread, h.advance he rfl rfl (fun _ _ => rfl) rfl ?_ (fun _ => ⟨rfl, hc⟩)⟩
    rw [hs, Progress.restart, if_neg hc]
    simp only [hci]
    exact .idle _ _

private theorem at_step (h : Parsing input seen (c :: unread) f)
    (hst : f.state = .stateAt) (hci : f.commandIndex = 1) (hs : scanner.after .idle seen = .sawA)
    (hrow : [chA] <+: f.parser.row f.parser.commandCount) : Sound input (parseStep input f) := by
  have hlt := h.not_full (by simp [hst])
  simp only [parseStep, hst, h.currentChar]
  by_cases hc : c = chT
  · subst hc
    rw [if_pos rfl]
    obtain ⟨q, hq, hn, hset, hother⟩ :=
      CavATCommandParser.store_ok f.parser hlt (j := 1) (by decide) chT
    rw [hci, hq]
    refine ⟨seen ++ [chT], unread, h.advance (by simp [hs, Progress.emit]) rfl hn hother rfl ?_ ?_⟩
    · rw [hs, hset]
      refine .body (l := []) unread (extend_row hrow ?_ chT)
      rw [CavATCommandParser.length_row f.parser hlt]
      decide
    · omega
  · rw [if_neg hc]
    by_cases ha : c = chA
    · subst ha
      rw [if_pos rfl]
      refine ⟨seen ++ [chA], unread,
        h.advance (by simp [hs, Progress.emit]) rfl rfl (fun _ _ => rfl) rfl ?_ ?_⟩
      · simp only [hs, hci, Progress.step, if_neg hc, Progress.restart, if_true]
        exact .sawA unread hrow
      · omega
    · rw [if_neg ha]
      refine ⟨seen ++ [c], unread,
        h.advance (by simp [hs, Progress.emit]) rfl rfl (fun _ _ => rfl) rfl ?_ ?_⟩
      · simp only [hs, Progress.step, if_neg hc, Progress.restart, if_neg ha]
        exact .idle _ _
      · omega

private theorem cmd_step {line : List Byte} (h : Parsing input seen (c :: unread) f)
    (hl : input.length < ringBufferSize) (hst : f.state = .stateCmd)
    (hci : f.commandIndex = line.length + 2) (hs : scanner.after .idle seen = .body line)
    (hrow : chA :: chT :: line <+: f.parser.row f.parser.commandCount) :
    Sound input (parseStep input f) := by
  have hlt := h.not_full (by simp [hst])
  have hj : line.length + 2 + 1 < ringBufferSize := h.fits hl (by simp [hs, Progress.pending])
  obtain ⟨q, hq, hn, hset, hother⟩ :=
    CavATCommandParser.store_ok f.parser hlt (j := line.length + 2) (by omega) c
  have hext := extend_row hrow (by
    rw [CavATCommandParser.length_row f.parser hlt]
    simp only [List.length_cons]
    omega) c
  simp only [parseStep, hst, h.currentChar, hci, hq]
  change Sound input (ite (c = chCR) _ _)
  by_cases hc : c = chCR
  · rw [if_pos hc]
    refine ⟨seen ++ [c], unread,
      h.advance (by simp [hs, Progress.emit]) rfl hn hother rfl ?_ (by omega)⟩
    rw [hs, hset, Progress.step, if_pos hc]
    subst hc
    exact .sawCR unread hext
  · rw [if_neg hc]
    refine ⟨seen ++ [c], unread,
      h.advance (by simp [hs, Progress.emit]) rfl hn hother rfl ?_ (by omega)⟩
    rw [hs, hset, Progress.step, if_neg hc]
    simpa using Tracks.body (l := line ++ [c]) unread hext

/-- The line feed completes the command and terminates its row. -/
private theorem lf_step {line : List Byte} (h : Parsing input seen (chLF :: unread) f)
    (hl : input.length < ringBufferSize) (hst : f.state = .stateCr)
    (hci : f.commandIndex = line.length + 3) (hs : scanner.after .idle seen = .sawCR line)
    (hrow : chA :: chT :: (line ++ [chCR]) <+: f.parser.row f.parser.commandCount) :
    Sound input (parseStep input f) := by
  have hlt := h.not_full (by simp [hst])
  have hj : line.length + 3 + 1 < ringBufferSize := h.fits hl (by simp [hs, Progress.pending])
  have hrl := CavATCommandParser.length_row f.parser hlt
  obtain ⟨q, hq, hn, hset, hother⟩ :=
    CavATCommandParser.store_ok f.parser hlt (j := line.length + 3) (by omega) chLF
  obtain ⟨r, hr, hn', hset', hother'⟩ :=
    CavATCommandParser.store_ok q hlt (j := line.length + 3 + 1) hj 0
  have hext := extend_row hrow (by simp [hrl]; omega) chLF
  have hnul := extend_row hext (by simp [hrl]; omega) 0
  have hc : commandsIn (seen ++ [chLF]) =
      commandsIn seen ++ [chA :: chT :: (line ++ [chCR, chLF])] := by
    rw [commandsIn_snoc, hs, Progress.emit, if_pos rfl]
  simp only [parseStep, hst, h.currentChar, hci, if_pos, hq]
  change Sound input ((q.store f.parser.commandCount (line.length + 3 + 1) 0).bind _)
  rw [hr]
  refine ⟨seen ++ [chLF], unread, by rw [h.split, List.append_cons], ?_, ?_, ?_, ?_, ?_, ?_, ?_⟩
  · simp [h.readIndex]
  · simp [hc, h.count]
  · rw [hc]
    apply forall_getElem?_concat
    · intro k m hk
      have hne : k ≠ f.parser.commandCount := by
        have hlt := (List.getElem?_eq_some_iff.mp hk).1
        have hcount := h.count
        omega
      have hrk : r.row k = f.parser.row k := (hother' k hne).trans (hother k hne)
      exact hrk ▸ h.rows k m hk
    · have hrk : r.row f.parser.commandCount = _ := hset'.trans (by rw [hset])
      rw [← h.count]
      change _ <+: r.row f.parser.commandCount
      simpa [← hrk] using hnul
  · rw [after_snoc, hs, Progress.step, if_pos rfl]
    exact .idle _ _
  · simp [hc]
  · exact hlt
  · intro h10
    refine ⟨rfl, [], ?_, by simp⟩
    have hm := (hs ▸ scanned seen).complete.append isCommand_endsOnce unread
    rwa [← hc, ← List.append_cons, ← h.split] at hm

private theorem cr_step {line : List Byte} (h : Parsing input seen (c :: unread) f)
    (hl : input.length < ringBufferSize) (hst : f.state = .stateCr)
    (hci : f.commandIndex = line.length + 3) (hs : scanner.after .idle seen = .sawCR line)
    (hrow : chA :: chT :: (line ++ [chCR]) <+: f.parser.row f.parser.commandCount) :
    Sound input (parseStep input f) := by
  by_cases hc : c = chLF
  · subst hc
    exact lf_step h hl hst hci hs hrow
  · have hlt := h.not_full (by simp [hst])
    simp only [parseStep, hst, h.currentChar, if_neg hc]
    refine ⟨seen, c :: unread, h.split, h.readIndex, h.count, h.rows, ?_, h.ret, h.inside, ?_⟩
    · rw [hs]
      exact .again line _ unread hc
    · intro h10
      exact absurd h10 hlt.ne

theorem sound_step (hl : input.length < ringBufferSize) {f : Frame} (hg : f.readIndex < input.length)
    (h : Sound input (.ok f)) : Sound input (parseStep input f) := by
  obtain ⟨seen, unread, h⟩ := h
  cases unread with
  | nil =>
    have hs := congrArg List.length h.split
    rw [List.append_nil] at hs
    have hi := h.readIndex
    omega
  | cons c unread =>
    have ht := h.tracks
    generalize hst : f.state = st at ht
    generalize hci : f.commandIndex = ci at ht
    generalize hs : scanner.after .idle seen = s at ht
    generalize hrow : f.parser.row f.parser.commandCount = row at ht
    cases ht with
    | idle => exact idle_step h hst hci (by simp [hs, Progress.emit]) (by rw [hs, Progress.step])
    | again line _ _ hc =>
      exact idle_step h hst hci (by simp [hs, Progress.emit, hc]) (by simp [hs, Progress.step, hc])
    | sawA _ hp => exact at_step h hst hci hs (hrow ▸ hp)
    | body _ hp => exact cmd_step h hl hst hci hs (hrow ▸ hp)
    | sawCR _ hp => exact cr_step h hl hst hci hs (hrow ▸ hp)

private theorem parsing_start (p : CavATCommandParser) (input : List Byte) :
    Parsing input [] input (parseStart p) where
  split := rfl
  readIndex := rfl
  count := rfl
  rows k m h := by simp [commandsIn] at h
  tracks := .idle _ _
  ret := by simp [parseStart, commandsIn]
  inside := Nat.zero_le _
  full h := by cases h

/-- The whole loop: it reads all of the input, or fails at an eleventh command. -/
theorem sound_run (p : CavATCommandParser) (hl : input.length < ringBufferSize) :
    Sound input ((parseLoop input).run (.ok (parseStart p))) ∧
      parseGuard input ((parseLoop input).run (.ok (parseStart p))) = false := by
  refine (parseLoop input).run_invariant (Sound input) ?_ ⟨[], input, parsing_start p input⟩
  intro r hg h
  cases r with
  | error e => cases hg
  | ok f => exact sound_step hl (by simpa [parseLoop, parseGuard] using hg) h

private theorem parsing_end (h : Sound input (.ok f)) (hg : parseGuard input (.ok f) = false) :
    Parsing input input [] f := by
  obtain ⟨seen, unread, h⟩ := h
  simp only [parseGuard, decide_eq_false_iff_not, not_lt] at hg
  have hs := congrArg List.length h.split
  rw [List.length_append, ← h.readIndex] at hs
  obtain rfl : unread = [] := List.eq_nil_of_length_eq_zero (by omega)
  obtain rfl : input = seen := by simpa using h.split
  exact h

/-- What a run that never leaves the array reports, row by row. -/
theorem parseData_ok {p q : CavATCommandParser} {r : ParseResult}
    (hl : input.length < ringBufferSize) (h : parseData p input = .ok (q, r)) :
    q.commandCount = (commandsIn input).length ∧ q.commandCount ≤ maxCmdSupport ∧
      (∀ k m, (commandsIn input)[k]? = some m → m ++ [0] <+: q.row k) ∧
      (r = .validAt ↔ commandsIn input ≠ []) := by
  obtain ⟨hs, hg⟩ := sound_run p hl
  obtain ⟨f, hf, he⟩ := bind_eq_ok.mp h
  cases he
  rw [hf] at hs hg
  have hp := parsing_end hs hg
  exact ⟨hp.count, hp.inside, hp.rows, hp.ret⟩

/-- The stores stay inside the array exactly if no `A` follows a tenth command. -/
theorem parseData_isOk_iff (p : CavATCommandParser) (hl : input.length < ringBufferSize) :
    (∃ q r, parseData p input = .ok (q, r)) ↔
      ∀ ms rest, Matches IsCommand input ms rest → ms.length = maxCmdSupport → chA ∉ rest := by
  obtain ⟨hs, hg⟩ := sound_run p hl
  constructor
  · rintro ⟨q, r, h⟩ ms rest hm h10
    obtain ⟨f, hf, -⟩ := bind_eq_ok.mp h
    rw [hf] at hs hg
    have hp := parsing_end hs hg
    have hle := (allMatches_commandsIn input).starts isCommand_endsOnce hm
    have hcount : f.parser.commandCount = maxCmdSupport := by
      have h1 := hle.length_le
      have h2 := hp.count
      have h3 := hp.inside
      omega
    obtain ⟨-, since, hm', ha⟩ := hp.full hcount
    obtain ⟨ks, hk, hks⟩ := hm.comparable isCommand_endsOnce hm' hle.length_le
    have h0 : ks = [] := by
      have hlen := congrArg List.length hk
      have h2 := hp.count
      rw [List.length_append] at hlen
      exact List.eq_nil_of_length_eq_zero (by omega)
    subst h0
    cases hks
    simpa using ha
  · intro hno
    cases hf : (parseLoop input).run (.ok (parseStart p)) with
    | error e =>
      rw [hf] at hs
      obtain ⟨ms, rest, hm, h10, ha⟩ := hs
      exact absurd ha (hno ms rest hm h10)
    | ok f => exact ⟨f.parser, f.ret, bind_eq_ok.mpr ⟨f, hf, rfl⟩⟩

theorem parseData_of_le (p : CavATCommandParser) (hl : input.length < ringBufferSize)
    (h9 : (commandsIn input).length ≤ 9) : ∃ q r, parseData p input = .ok (q, r) := by
  apply (parseData_isOk_iff p hl).mpr
  intro ns rest hn h10
  have hle := ((allMatches_commandsIn input).starts isCommand_endsOnce hn).length_le
  rw [h10] at hle
  exact absurd (hle.trans h9) (by decide)

/-- Without NUL in the input the rows hold the commands as C strings. -/
theorem strings_of_parseData {p q : CavATCommandParser} {r : ParseResult}
    (hl : input.length < ringBufferSize) (h0 : 0 ∉ input) (h : parseData p input = .ok (q, r)) :
    q.strings = commandsIn input := by
  obtain ⟨hn, -, hrows, -⟩ := parseData_ok hl h
  apply List.ext_getElem (by simp [CavATCommandParser.strings, hn])
  intro k hk hk'
  obtain ⟨t, ht⟩ := hrows k _ (List.getElem?_eq_getElem hk')
  have hnul : 0 ∉ (commandsIn input)[k] := by
    intro hmem
    exact h0 ((isCommand_of_mem (List.getElem_mem hk')).2.mem hmem)
  rw [List.append_assoc, List.singleton_append] at ht
  simp [CavATCommandParser.strings, ← ht, cString_append_zero hnul]

/-- A freshly cleared parser is filled inside its bounds exactly if no `A` follows the
tenth complete command. -/
theorem parseData_memory_safe_iff (p : CavATCommandParser) (input : List Byte)
    (hl : input.length ≤ 511) :
    (∃ q r, parseData (cleanParserData p) input = .ok (q, r) ∧ q.commandCount ≤ maxCmdSupport) ↔
      ∀ ms rest, Matches IsCommand input ms rest → ms.length = maxCmdSupport → chA ∉ rest := by
  have hlt : input.length < ringBufferSize := Nat.lt_succ_of_le hl
  rw [← parseData_isOk_iff (cleanParserData p) hlt]
  constructor
  · rintro ⟨q, r, h, -⟩
    exact ⟨q, r, h⟩
  · rintro ⟨q, r, h⟩
    exact ⟨q, r, h, (parseData_ok hlt h).2.1⟩

/-- Ten commands, as many as the array has rows. -/
def tenCommands : List Byte := (List.replicate maxCmdSupport (text "AT\r\n")).flatten

/-- Behind the tenth command there is text, but no `A`. -/
theorem parseData_memory_safe_ten :
    ∃ q r, parseData (cleanParserData default) (tenCommands ++ text "T\r\n") = .ok (q, r) ∧
      q.commandCount ≤ maxCmdSupport := by
  apply (parseData_memory_safe_iff default (tenCommands ++ text "T\r\n") (by decide)).mpr
  intro ms rest hm h10 hA
  have hms : ms = commandsIn (tenCommands ++ text "T\r\n") :=
    ((allMatches_commandsIn _).starts isCommand_endsOnce hm).eq_of_length (h10.trans (by decide))
  have hvol : ms.flatten.length = 40 := by
    rw [hms]
    decide
  have hlen : (tenCommands ++ text "T\r\n").length = 43 := by decide
  have hvolume := hm.volume_le
  have hsuffix : rest <:+ text "T\r\n" :=
    List.suffix_of_suffix_length_le hm.suffix (List.suffix_append _ _)
      (by change rest.length ≤ 3; omega)
  exact absurd (hsuffix.subset hA) (by decide)

theorem parseData_eleventh_row : ¬ ∀ (p : CavATCommandParser) (input : List Byte),
    input.length ≤ 511 → ∃ q r, parseData (cleanParserData p) input = .ok (q, r) ∧
      q.commandCount ≤ maxCmdSupport := by
  intro h
  obtain ⟨q, r, hok, -⟩ := h default (tenCommands ++ [chA]) (by decide)
  have hno := (parseData_isOk_iff _ (by decide)).mp ⟨q, r, hok⟩
  obtain ⟨-, skipped, hm, -⟩ := scanned tenCommands
  exact hno _ _ (hm.append isCommand_endsOnce [chA]) (by decide) (by simp)

/-- With at most nine commands the parser reports all leftmost matches of the grammar and
nothing else, whatever its rows held before. -/
theorem parseData_recognises (p : CavATCommandParser) (input : List Byte) (h0 : 0 ∉ input)
    (hl : input.length ≤ 511) (ms : List (List Byte)) (hm : AllMatches IsCommand input ms)
    (h9 : ms.length ≤ 9) :
    parseGuard input ((parseLoop input).run (.ok (parseStart p))) = false ∧
    ∃ q r, parseData p input = .ok (q, r) ∧ q.commandCount = ms.length ∧ q.strings = ms ∧
      (r = .validAt ↔ ms ≠ []) := by
  have hlt : input.length < ringBufferSize := Nat.lt_succ_of_le hl
  obtain rfl := allMatches_iff.mp hm
  refine ⟨(sound_run p hlt).2, ?_⟩
  obtain ⟨q, r, hok⟩ := parseData_of_le p hlt h9
  obtain ⟨hn, -, -, hr⟩ := parseData_ok hlt hok
  exact ⟨q, r, hok, hn, strings_of_parseData hlt h0 hok, hr⟩

theorem parseData_recognises_stale :
    ∃ q r, parseData default (text "ATx\rAAT+LED\r\n\rAT") = .ok (q, r) ∧ q.commandCount = 1 ∧
      q.strings = [text "AT+LED\r\n"] ∧ r = .validAt := by
  obtain ⟨-, q, r, hok, hn, hs, hr⟩ := parseData_recognises default
    (text "ATx\rAAT+LED\r\n\rAT") (by decide) (by decide) [text "AT+LED\r\n"]
    (allMatches_iff.mpr (by decide)) (by decide)
  exact ⟨q, r, hok, hn, hs, hr.mpr (by decide)⟩

/-- Behind a line end the parser reports what it would report for the rest alone, whatever
came before it and whatever the parsers' rows held. -/
theorem parseData_resynchronises (p p₁ p₂ : CavATCommandParser) (x y : List Byte) (hx : 0 ∉ x)
    (hy : 0 ∉ y) (hl : x.length + 2 + y.length ≤ 511)
    (h9 : (commandsIn (x ++ [chCR, chLF] ++ y)).length ≤ 9) :
    ∃ q q₁ q₂ r r₁ r₂, parseData p (x ++ [chCR, chLF] ++ y) = .ok (q, r) ∧
      parseData p₁ (x ++ [chCR, chLF]) = .ok (q₁, r₁) ∧ parseData p₂ y = .ok (q₂, r₂) ∧
      q.strings = q₁.strings ++ q₂.strings := by
  have hsplit : commandsIn (x ++ [chCR, chLF] ++ y) =
      commandsIn (x ++ [chCR, chLF]) ++ commandsIn y := output_crlf .idle x y
  have hx' : 0 ∉ x ++ [chCR, chLF] := by
    simp only [List.mem_append, not_or]
    exact ⟨hx, by decide⟩
  have hxy : 0 ∉ x ++ [chCR, chLF] ++ y := by
    simp only [List.mem_append (s := x ++ [chCR, chLF]), not_or]
    exact ⟨hx', hy⟩
  have hlen : (x ++ [chCR, chLF] ++ y).length < ringBufferSize := by
    simp only [List.length_append, List.length_cons, List.length_nil, ringBufferSize]
    omega
  have hlen₁ : (x ++ [chCR, chLF]).length < ringBufferSize := by
    simp only [List.length_append, List.length_cons, List.length_nil, ringBufferSize]
    omega
  have hlen₂ : y.length < ringBufferSize := by
    simp only [ringBufferSize]
    omega
  have h9' := h9
  rw [hsplit, List.length_append] at h9'
  obtain ⟨q, r, hok⟩ := parseData_of_le p hlen h9
  obtain ⟨q₁, r₁, hok₁⟩ := parseData_of_le p₁ hlen₁ (by omega)
  obtain ⟨q₂, r₂, hok₂⟩ := parseData_of_le p₂ hlen₂ (by omega)
  refine ⟨q, q₁, q₂, r, r₁, r₂, hok, hok₁, hok₂, ?_⟩
  rw [strings_of_parseData hlen hxy hok, strings_of_parseData hlen₁ hx' hok₁,
    strings_of_parseData hlen₂ hy hok₂, hsplit]

theorem parseData_resynchronises_truncated :
    ∃ q q₁ q₂ r r₁ r₂, parseData default (text "ATx\rAA\r\nAT\r\n") = .ok (q, r) ∧
      parseData default (text "ATx\rAA\r\n") = .ok (q₁, r₁) ∧
      parseData default (text "AT\r\n") = .ok (q₂, r₂) ∧ q.strings = q₁.strings ++ q₂.strings :=
  parseData_resynchronises default default default (text "ATx\rAA") (text "AT\r\n") (by decide)
    (by decide) (by decide) (by decide)

end UsbCdc.ParseDataCorrectness
