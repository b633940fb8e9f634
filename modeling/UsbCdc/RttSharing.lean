import UsbCdc.LabelledRuns
import UsbCdc.SeggerRttRefinement

/-! # The target writes while the host reads

Between the target and the host there is no lock. The writer loads `RdOff` once for each
stretch that it copies, the reader loads `WrOff` once for each call; each byte that is
copied and each offset that is stored is a step of its own. -/
namespace UsbCdc.RttSharing
open CStrings CyclicChunks CyclicWindows LabelledRuns SeggerRtt

variable {n : ℕ}

/-- Where `SEGGER_RTT_WriteNoLock` stands, with its local `WrOff`, the bytes of the stretch
that are not copied yet, and what is left for further stretches. -/
inductive Writer (n : ℕ)
  | idle
  | loop (pBuffer : List Byte)
  | copying (wrOff : Fin n) (chunk rest : List Byte)

/-- Where the read stands, with its local `RdOff`, the number of bytes still to copy, and
what it has copied. -/
inductive Reader (n : ℕ)
  | idle
  | copying (rdOff : Fin n) (left : ℕ) (got : List Byte)

/-- The buffer and both parties, with logs of what the calls have accepted and of what the
finished reads have returned. -/
structure State (n : ℕ) where
  ring : Ring n
  writer : Writer n
  reader : Reader n
  sent : List Byte
  received : List Byte

inductive Action
  | write (pData : List Byte)
  | writer
  | read (bufferSize : ℕ)
  | reader

/-- `SEGGER_RTT_WriteNoLock` up to the load of `RdOff`, or to the loop of `_WriteBlocking`. -/
def beginWrite (s : State n) (pData : List Byte) : State n :=
  let avail := getAvailWriteSpace s.ring
  if s.ring.flags = noBlockSkip then
    if avail < pData.length then s
    else { s with writer := .copying s.ring.wrOff pData [], sent := s.sent ++ pData }
  else if s.ring.flags = noBlockTrim then
    let status := if avail < pData.length then avail else pData.length
    { s with
      writer := .copying s.ring.wrOff (pData.take status) []
      sent := s.sent ++ pData.take status }
  else if s.ring.flags = blockIfFifoFull then
    { s with writer := .loop pData, sent := s.sent ++ pData }
  else s

def writerStep (s : State n) : Option (State n) :=
  match s.writer with
  | .idle => none
  | .loop pBuffer =>
    let numBytesToWrite := chunkLength s.ring pBuffer.length
    some { s with
      writer := .copying s.ring.wrOff (pBuffer.take numBytesToWrite) (pBuffer.drop numBytesToWrite) }
  | .copying wrOff (c :: chunk) rest =>
    some { s with
      ring := { s.ring with buffer := s.ring.buffer.set wrOff c wrOff.isLt }
      writer := .copying (next wrOff) chunk rest }
  | .copying wrOff [] rest =>
    some { s with
      ring := { s.ring with wrOff }
      writer := if rest = [] then .idle else .loop rest }

def readerStep (s : State n) : Option (State n) :=
  match s.reader with
  | .idle => none
  | .copying rdOff (left + 1) got =>
    some { s with
      reader := .copying (next rdOff) left (got ++ [getElem s.ring.buffer rdOff rdOff.isLt]) }
  | .copying rdOff 0 got =>
    some { s with
      ring := { s.ring with rdOff }
      reader := .idle
      received := s.received ++ got }

def step (s : State n) : Action → Option (State n)
  | .write pData =>
    match s.writer with
    | .idle => some (beginWrite s pData)
    | _ => none
  | .writer => writerStep s
  | .read bufferSize =>
    match s.reader with
    | .idle =>
      some { s with reader := .copying s.ring.rdOff (min bufferSize s.ring.contents.length) [] }
    | _ => none
  | .reader => readerStep s

/-! ## The invariant -/

namespace Writer

/-- Where the next byte goes. -/
def position (r : Ring n) : Writer n → Fin n
  | copying wrOff _ _ => wrOff
  | _ => r.wrOff

def chunk : Writer n → List Byte
  | copying _ chunk _ => chunk
  | _ => []

def rest : Writer n → List Byte
  | idle => []
  | loop pBuffer => pBuffer
  | copying _ _ rest => rest

end Writer

namespace Reader

def got : Reader n → List Byte
  | idle => []
  | copying _ _ got => got

def left : Reader n → ℕ
  | idle => 0
  | copying _ left _ => left

/-- Where the next byte comes from. -/
def position (r : Ring n) : Reader n → Fin n
  | idle => r.rdOff
  | copying rdOff _ _ => rdOff

end Reader

namespace State

def position (s : State n) : Fin n := s.writer.position s.ring

/-- The bytes from the reader's stored offset up to where the writer is. -/
def window (s : State n) : List Byte := between s.ring.buffer s.ring.rdOff s.position

end State

/-- What neither party can break for the other, whatever the order of their steps. -/
structure Shared (s : State n) : Prop where
  behind : distance s.ring.rdOff s.ring.wrOff ≤ distance s.ring.rdOff s.position
  room : distance s.ring.rdOff s.position + s.writer.chunk.length < n
  sent : s.sent = s.received ++ s.window ++ s.writer.chunk ++ s.writer.rest
  got : s.reader.got = pops s.ring.buffer s.ring.rdOff s.reader.got.length
  place : s.reader.position s.ring = next^[s.reader.got.length] s.ring.rdOff
  left : s.reader.got.length + s.reader.left ≤ distance s.ring.rdOff s.ring.wrOff

private theorem room_of_le {r : Ring n} {k : ℕ} (h : k ≤ getAvailWriteSpace r) :
    distance r.rdOff r.wrOff + k < n := by
  have ha := getAvailWriteSpace_eq r
  rw [Ring.length_contents] at ha
  omega

/-- A party that goes to another place in its code leaves the rest of the invariant. -/
private theorem Shared.writer {s : State n} (hs : Shared s) (hidle : s.position = s.ring.wrOff)
    {w : Writer n} {sent : List Byte} (hpos : w.position s.ring = s.ring.wrOff)
    (hfit : w.chunk.length ≤ getAvailWriteSpace s.ring)
    (hsent : sent = s.received ++ s.window ++ w.chunk ++ w.rest) :
    Shared { s with writer := w, sent := sent } := by
  have hplace : ({ s with writer := w, sent := sent } : State n).position = s.ring.wrOff := hpos
  refine ⟨?_, ?_, ?_, hs.got, hs.place, hs.left⟩
  · rw [hplace]
  · rw [hplace]
    exact room_of_le hfit
  · rw [State.window, hplace, ← hidle]
    exact hsent

private theorem Shared.beginWrite {s : State n} (hs : Shared s) (hw : s.writer = .idle)
    (pData : List Byte) : Shared (beginWrite s pData) := by
  have hidle : s.position = s.ring.wrOff := by rw [State.position, hw]; rfl
  have hsent : s.sent = s.received ++ s.window := by
    have h := hs.sent
    rw [hw] at h
    simpa [Writer.chunk, Writer.rest] using h
  simp only [RttSharing.beginWrite]
  by_cases hskip : s.ring.flags = noBlockSkip
  · rw [if_pos hskip]
    by_cases hlt : getAvailWriteSpace s.ring < pData.length
    · rw [if_pos hlt]
      exact hs
    · rw [if_neg hlt]
      apply hs.writer hidle (w := .copying s.ring.wrOff pData []) rfl (not_lt.mp hlt)
      rw [hsent]
      exact (List.append_nil _).symm
  rw [if_neg hskip]
  by_cases htrim : s.ring.flags = noBlockTrim
  · rw [if_pos htrim]
    apply hs.writer hidle (w := .copying s.ring.wrOff _ []) rfl
    · change (pData.take _).length ≤ _
      rw [List.length_take]
      split <;> omega
    · rw [hsent]
      exact (List.append_nil _).symm
  rw [if_neg htrim]
  by_cases hblock : s.ring.flags = blockIfFifoFull
  · rw [if_pos hblock]
    apply hs.writer hidle (w := .loop pData) rfl (Nat.zero_le _)
    rw [hsent]
    exact congrArg (· ++ pData) (List.append_nil _).symm
  · rw [if_neg hblock]
    exact hs

private theorem Shared.store {s : State n} (hs : Shared s) {wrOff : Fin n} {c : Byte}
    {chunk rest : List Byte} (hw : s.writer = .copying wrOff (c :: chunk) rest) :
    Shared { s with
      ring := { s.ring with buffer := s.ring.buffer.set wrOff c wrOff.isLt }
      writer := .copying (next wrOff) chunk rest } := by
  have hpos : s.position = wrOff := by rw [State.position, hw]; rfl
  have hroom := hs.room
  have hbehind := hs.behind
  have hsent := hs.sent
  have hleft := hs.left
  rw [hw] at hroom hsent
  rw [State.window] at hsent
  rw [hpos] at hroom hbehind hsent
  simp only [Writer.chunk, Writer.rest, List.length_cons] at hroom hsent
  have hnext : next wrOff ≠ s.ring.rdOff := by
    intro he
    have hf := distance_full.mp he
    omega
  have hd := distance_push hnext
  refine ⟨?_, ?_, ?_, ?_, hs.place, hleft⟩
  · change distance s.ring.rdOff s.ring.wrOff ≤ distance s.ring.rdOff (next wrOff)
    omega
  · change distance s.ring.rdOff (next wrOff) + chunk.length < n
    omega
  · change s.sent = s.received ++
      between (s.ring.buffer.set wrOff c) s.ring.rdOff (next wrOff) ++ chunk ++ rest
    rw [between_push c hnext, hsent]
    simp only [List.append_assoc, List.singleton_append]
  · change s.reader.got = pops (s.ring.buffer.set wrOff c) s.ring.rdOff s.reader.got.length
    rw [pops_set (by omega)]
    exact hs.got

private theorem Shared.publish {s : State n} (hs : Shared s) {wrOff : Fin n} {rest : List Byte}
    (hw : s.writer = .copying wrOff [] rest) :
    Shared { s with
      ring := { s.ring with wrOff }
      writer := if rest = [] then .idle else .loop rest } := by
  have hpos : s.position = wrOff := by rw [State.position, hw]; rfl
  have hroom := hs.room
  have hbehind := hs.behind
  have hsent := hs.sent
  have hleft := hs.left
  rw [hw] at hroom hsent
  rw [State.window] at hsent
  rw [hpos] at hroom hbehind hsent
  have hplace : (State.mk { s.ring with wrOff := wrOff } (if rest = [] then .idle else .loop rest)
      s.reader s.sent s.received).position = wrOff := by
    rw [State.position]
    split <;> rfl
  have hchunk : (if rest = [] then Writer.idle else Writer.loop (n := n) rest).chunk = [] := by
    split <;> rfl
  have hrest : (if rest = [] then Writer.idle else Writer.loop (n := n) rest).rest = rest := by
    split
    · rename_i hnil
      exact hnil.symm
    · rfl
  refine ⟨?_, ?_, ?_, hs.got, ?_, hleft.trans hbehind⟩
  · rw [hplace]
  · rw [hplace, hchunk]
    exact hroom
  · rw [State.window, hplace, hchunk, hrest]
    exact hsent
  · have h := hs.place
    cases hr : s.reader with
    | idle => rfl
    | copying rdOff left got =>
      rw [hr] at h
      exact h

private theorem Shared.writerStep {s t : State n} (hs : Shared s)
    (h : RttSharing.writerStep s = some t) : Shared t := by
  rw [RttSharing.writerStep.eq_def] at h
  cases hw : s.writer with
  | idle =>
    rw [hw] at h
    cases h
  | loop pBuffer =>
    rw [hw] at h
    cases h
    have hidle : s.position = s.ring.wrOff := by rw [State.position, hw]; rfl
    have hsent := hs.sent
    rw [hw] at hsent
    apply hs.writer hidle (w := .copying s.ring.wrOff _ _) rfl
    · change (pBuffer.take _).length ≤ _
      rw [List.length_take, chunkLength_eq]
      omega
    · change s.sent = s.received ++ s.window ++ pBuffer.take _ ++ pBuffer.drop _
      rw [List.append_assoc (s.received ++ s.window), List.take_append_drop, hsent]
      exact congrArg (· ++ pBuffer) (List.append_nil _)
  | copying wrOff chunk rest =>
    cases chunk with
    | nil =>
      rw [hw] at h
      cases h
      exact hs.publish hw
    | cons c chunk =>
      rw [hw] at h
      cases h
      exact hs.store hw

private theorem Shared.beginRead {s : State n} (hs : Shared s) (bufferSize : ℕ) :
    Shared { s with
      reader := .copying s.ring.rdOff (min bufferSize s.ring.contents.length) [] } := by
  refine ⟨hs.behind, hs.room, hs.sent, rfl, rfl, ?_⟩
  change 0 + min bufferSize s.ring.contents.length ≤ distance s.ring.rdOff s.ring.wrOff
  rw [Ring.length_contents]
  omega

private theorem Shared.readerStep {s t : State n} (hs : Shared s)
    (h : RttSharing.readerStep s = some t) : Shared t := by
  rw [RttSharing.readerStep.eq_def] at h
  cases hr : s.reader with
  | idle =>
    rw [hr] at h
    cases h
  | copying rdOff left got =>
    have hgot := hs.got
    have hplace := hs.place
    have hleft := hs.left
    rw [hr] at hgot hplace hleft
    simp only [Reader.got, Reader.position, Reader.left] at hgot hplace hleft
    cases left with
    | succ left =>
      rw [hr] at h
      cases h
      refine ⟨hs.behind, hs.room, hs.sent, ?_, ?_, ?_⟩
      · change got ++ [s.ring.buffer[rdOff]] =
          pops s.ring.buffer s.ring.rdOff (got ++ [s.ring.buffer[rdOff]]).length
        rw [List.length_append, List.length_singleton, pops_concat, ← hgot]
        exact congrArg (fun p : Fin n => got ++ [s.ring.buffer[p]]) hplace
      · change next rdOff = next^[(got ++ [s.ring.buffer[rdOff]]).length] s.ring.rdOff
        rw [List.length_append, List.length_singleton, Function.iterate_succ_apply', hplace]
      · change (got ++ [s.ring.buffer[rdOff]]).length + left ≤ distance s.ring.rdOff s.ring.wrOff
        rw [List.length_append, List.length_singleton]
        omega
    | zero =>
      rw [hr] at h
      cases h
      have hbehind := hs.behind
      have hwr := distance_iterate hleft
      have hpos := distance_iterate (hleft.trans hbehind)
      have hwindow := @between_pops _ _ s.ring.buffer _ _ _ (hleft.trans hbehind)
      simp only [Nat.add_zero, ← hplace, ← hgot] at hwr hpos hwindow
      have hsame : s.writer.position { s.ring with rdOff := rdOff } = s.position := by
        rw [State.position]
        cases s.writer with
        | idle => rfl
        | loop pBuffer => rfl
        | copying wrOff chunk rest => rfl
      refine ⟨?_, ?_, ?_, rfl, rfl, Nat.zero_le _⟩
      · change distance rdOff s.ring.wrOff ≤
          distance rdOff (s.writer.position { s.ring with rdOff := rdOff })
        rw [hsame, hwr, hpos]
        exact Nat.sub_le_sub_right hbehind _
      · change distance rdOff (s.writer.position { s.ring with rdOff := rdOff }) +
          s.writer.chunk.length < n
        have hroom := hs.room
        rw [hsame, hpos]
        omega
      · change s.sent = s.received ++ got ++
          between s.ring.buffer rdOff (s.writer.position { s.ring with rdOff := rdOff }) ++
            s.writer.chunk ++ s.writer.rest
        rw [hsame, hs.sent, State.window, hwindow]
        simp only [List.append_assoc]

theorem Shared.step {s t : State n} {a : Action} (h : step s a = some t) (hs : Shared s) :
    Shared t := by
  cases a with
  | write pData =>
    simp only [RttSharing.step] at h
    split at h
    · rename_i hw
      cases h
      exact hs.beginWrite hw pData
    · cases h
  | writer => exact hs.writerStep h
  | read bufferSize =>
    simp only [RttSharing.step] at h
    split at h
    · cases h
      exact hs.beginRead bufferSize
    · cases h
  | reader => exact hs.readerStep h

/-- Both parties outside of their calls; what the buffer holds counts as sent. -/
def initialState (r : Ring n) : State n := ⟨r, .idle, .idle, r.contents, []⟩

theorem shared_initialState (r : Ring n) : Shared (initialState r) := by
  have hl := distance_lt r.rdOff r.wrOff
  refine ⟨le_rfl, hl, ?_, rfl, rfl, Nat.zero_le _⟩
  change r.contents = [] ++ r.contents ++ [] ++ []
  simp only [List.nil_append, List.append_nil]

theorem shared_run {r : Ring n} {s : State n} {as : List Action}
    (h : run step (initialState r) as = some s) : Shared s :=
  run_invariant (A := fun _ => True) (fun _ _ _ _ hst hs => hs.step hst) (fun _ _ => trivial)
    (shared_initialState r) h

/-- In every order of the parties' steps the host gets the accepted bytes in order: what it
has read and what it can read next begin them, what it is copying is at the front, and only
with its offset does the writer change what there is to read. -/
theorem shared_in_order (r : Ring n) (as : List Action) (s : State n)
    (h : run step (initialState r) as = some s) :
    s.received ++ s.ring.contents <+: s.sent ∧ s.reader.got <+: s.ring.contents ∧
    (s.writer = .idle → s.sent = s.received ++ s.ring.contents) ∧
    (∀ wrOff c chunk rest, s.writer = .copying wrOff (c :: chunk) rest → ∀ t,
      step s .writer = some t → t.ring.contents = s.ring.contents) := by
  have hs := shared_run h
  have hwindow := @between_pops _ _ s.ring.buffer _ _ _ hs.behind
  refine ⟨?_, ?_, fun hw => ?_, ?_⟩
  · rw [hs.sent, State.window, hwindow]
    simp only [List.append_assoc]
    exact (List.prefix_append_right_inj _).mpr (List.prefix_append _ _)
  · have hle : s.reader.got.length ≤ distance s.ring.rdOff s.ring.wrOff :=
      (Nat.le_add_right _ _).trans hs.left
    rw [Ring.contents, between_pops hle, hs.got, length_pops]
    exact List.prefix_append _ _
  · have hsent := hs.sent
    rw [State.window, State.position, hw] at hsent
    simp only [Writer.chunk, Writer.rest, List.append_nil] at hsent
    exact hsent
  · intro wrOff c chunk rest hw t ht
    rw [step, writerStep.eq_def, hw] at ht
    cases ht
    have hbehind := hs.behind
    rw [State.position, hw] at hbehind
    exact pops_set hbehind c

/-- A buffer with room for three bytes; writes wait. -/
def fourCells : Ring 4 := ⟨Vector.replicate 4 0, 0, 0, blockIfFifoFull, by decide⟩

/-- The host reads while the second stretch is copied. -/
def fourBytes : List Action :=
  [.write (text "abcd"), .writer, .writer, .writer, .writer, .writer, .read 2, .reader, .reader,
    .reader, .writer, .read 1, .writer, .reader]

theorem shared_in_order_fourBytes : ∃ s, run step (initialState fourCells) fourBytes = some s ∧
    s.received ++ s.ring.contents <+: s.sent ∧ s.reader.got <+: s.ring.contents ∧
    (s.writer = .idle → s.sent = s.received ++ s.ring.contents) ∧
    (∀ wrOff c chunk rest, s.writer = .copying wrOff (c :: chunk) rest → ∀ t,
      step s .writer = some t → t.ring.contents = s.ring.contents) :=
  ⟨_, rfl, shared_in_order fourCells fourBytes _ rfl⟩

/-! ## Uninterrupted calls -/

private theorem reaches_copy {s : State n} {wrOff : Fin n} {chunk rest : List Byte}
    (hw : s.writer = .copying wrOff chunk rest) :
    Reaches step (· = .writer) s { s with
      ring := { s.ring with buffer := (pushes (s.ring.buffer, wrOff) chunk).1 }
      writer := .copying (pushes (s.ring.buffer, wrOff) chunk).2 [] rest } := by
  induction chunk generalizing s wrOff with
  | nil =>
    rw [pushes_nil, ← hw]
    exact Reaches.refl s
  | cons c chunk ih =>
    have hst : step s .writer = some { s with
        ring := { s.ring with buffer := s.ring.buffer.set wrOff c }
        writer := .copying (next wrOff) chunk rest } := by
      rw [step, writerStep.eq_def, hw]
    have hrest := ih (s := { s with
      ring := { s.ring with buffer := s.ring.buffer.set wrOff c }
      writer := .copying (next wrOff) chunk rest }) rfl
    exact (Reaches.of_step (A := (· = Action.writer)) rfl hst).trans hrest

/-- A stretch copied and its offset stored. -/
private theorem reaches_stretch {s : State n} {chunk rest : List Byte}
    (hw : s.writer = .copying s.ring.wrOff chunk rest) :
    Reaches step (· = .writer) s { s with
      ring := s.ring.push chunk
      writer := if rest = [] then .idle else .loop rest } := by
  have hcopy := reaches_copy hw
  refine hcopy.trans (Reaches.of_step (A := (· = Action.writer)) (a := .writer) rfl ?_)
  rw [step, writerStep.eq_def]
  rfl

/-- The loop of `_WriteBlocking` until it is done or waits. -/
private theorem reaches_loop {s : State n} {pBuffer : List Byte} (hw : s.writer = .loop pBuffer) :
    Reaches step (· = .writer) s { s with
      ring := s.ring.push (pBuffer.take (getAvailWriteSpace s.ring))
      writer := if pBuffer.length ≤ getAvailWriteSpace s.ring then .idle
        else .loop (pBuffer.drop (getAvailWriteSpace s.ring)) } := by
  induction hl : pBuffer.length using Nat.strong_induction_on generalizing s pBuffer with
  | _ l ih =>
    have hk := chunkLength_eq s.ring pBuffer.length
    have hwr := s.ring.wrOff.isLt
    have hst : step s .writer = some { s with
        writer := .copying s.ring.wrOff (pBuffer.take (chunkLength s.ring pBuffer.length))
          (pBuffer.drop (chunkLength s.ring pBuffer.length)) } := by
      rw [step, writerStep.eq_def, hw]
    have hgo := (Reaches.of_step (A := (· = Action.writer)) rfl hst).trans (reaches_stretch rfl)
    by_cases hdone : pBuffer.length ≤ chunkLength s.ring pBuffer.length
    · have hle : pBuffer.length ≤ getAvailWriteSpace s.ring := by omega
      rw [if_pos (List.drop_of_length_le hdone), List.take_of_length_le hdone] at hgo
      rw [if_pos (hl ▸ hle), List.take_of_length_le hle]
      exact hgo
    · by_cases hzero : chunkLength s.ring pBuffer.length = 0
      · have hfull : getAvailWriteSpace s.ring = 0 := by omega
        have hlt : ¬ l ≤ 0 := by omega
        rw [hfull, if_neg hlt, List.take_zero, Ring.push_nil, List.drop_zero, ← hw]
        exact Reaches.refl s
      · have hne : pBuffer.drop (chunkLength s.ring pBuffer.length) ≠ [] := by
          rw [Ne, List.drop_eq_nil_iff]
          exact hdone
        rw [if_neg hne] at hgo
        have hlen := length_take_chunkLength s.ring pBuffer
        have hspace := chunkLength_le s.ring pBuffer.length
        have hfit := hlen.trans_le hspace
        have hiff : (pBuffer.drop (chunkLength s.ring pBuffer.length)).length ≤
            getAvailWriteSpace s.ring - chunkLength s.ring pBuffer.length ↔
              l ≤ getAvailWriteSpace s.ring := by
          rw [List.length_drop]
          omega
        have hrest := ih _ (by rw [List.length_drop]; omega)
          (s := { s with
            ring := s.ring.push (pBuffer.take (chunkLength s.ring pBuffer.length))
            writer := .loop (pBuffer.drop (chunkLength s.ring pBuffer.length)) }) rfl rfl
        simp only [getAvailWriteSpace_push hfit, hlen, ← Ring.push_append, ← List.take_add,
          List.drop_drop, Nat.add_sub_cancel' hspace, hiff] at hrest
        exact hgo.trans hrest

private theorem reaches_read {s : State n} {rdOff : Fin n} {left : ℕ} {got : List Byte}
    (hr : s.reader = .copying rdOff left got) :
    Reaches step (· = .reader) s { s with
      ring := { s.ring with rdOff := next^[left] rdOff }
      reader := .idle
      received := s.received ++ (got ++ pops s.ring.buffer rdOff left) } := by
  induction left generalizing s rdOff got with
  | zero =>
    refine Reaches.of_step (A := (· = Action.reader)) (a := .reader) rfl ?_
    rw [step, readerStep.eq_def, hr]
    change _ = some { s with
      ring := { s.ring with rdOff := rdOff }
      reader := .idle
      received := s.received ++ (got ++ []) }
    rw [List.append_nil]
  | succ left ih =>
    have hst : step s .reader = some { s with
        reader := .copying (next rdOff) left (got ++ [s.ring.buffer[rdOff]]) } := by
      rw [step, readerStep.eq_def, hr]
    have hrest := ih (s := { s with
      reader := .copying (next rdOff) left (got ++ [s.ring.buffer[rdOff]]) }) rfl
    rw [pops_succ, Function.iterate_succ_apply, List.append_cons]
    exact (Reaches.of_step (A := (· = Action.reader)) rfl hst).trans hrest

/-- Where a call leaves the writer. -/
def Writer.after : Outcome (Ring n) → Writer n
  | .returns _ _ => .idle
  | .waits _ rest => .loop rest

/-- How a call leaves the buffer. -/
def ringAfter : Outcome (Ring n) → Ring n
  | .returns _ r => r
  | .waits r _ => r

private theorem reaches_write {s : State n} (hw : s.writer = .idle) (pData : List Byte) :
    ∃ o u, writeNoLock s.ring pData = some o ∧
      Reaches step (· = .writer) (beginWrite s pData) u ∧
      u.ring = ringAfter o ∧ u.writer = .after o := by
  rw [writeNoLock_eq]
  simp only [beginWrite]
  by_cases hskip : s.ring.flags = noBlockSkip
  · rw [if_pos hskip, if_pos hskip]
    by_cases hle : pData.length ≤ getAvailWriteSpace s.ring
    · rw [if_pos hle, if_neg (not_lt.mpr hle)]
      exact ⟨_, _, rfl, reaches_stretch rfl, rfl, rfl⟩
    · rw [if_neg hle, if_pos (not_le.mp hle)]
      exact ⟨_, _, rfl, Reaches.refl s, rfl, hw⟩
  rw [if_neg hskip, if_neg hskip]
  by_cases htrim : s.ring.flags = noBlockTrim
  · have hstatus : (if getAvailWriteSpace s.ring < pData.length then getAvailWriteSpace s.ring
        else pData.length) = min (getAvailWriteSpace s.ring) pData.length := by
      split <;> omega
    rw [if_pos htrim, if_pos htrim, hstatus, ← List.take_eq_take_min]
    exact ⟨_, _, rfl, reaches_stretch rfl, rfl, rfl⟩
  rw [if_neg htrim, if_neg htrim]
  by_cases hblock : s.ring.flags = blockIfFifoFull
  · rw [if_pos hblock, if_pos hblock]
    by_cases hle : pData.length ≤ getAvailWriteSpace s.ring
    · rw [if_pos hle]
      refine ⟨_, _, rfl, reaches_loop rfl, ?_, if_pos hle⟩
      change s.ring.push (pData.take (getAvailWriteSpace s.ring)) = s.ring.push pData
      rw [List.take_of_length_le hle]
    · rw [if_neg hle]
      exact ⟨_, _, rfl, reaches_loop rfl, rfl, if_neg hle⟩
  · rw [if_neg hblock, if_neg hblock]
    exact ⟨_, _, rfl, Reaches.refl s, rfl, hw⟩

private theorem reaches_readNoLock {s : State n} (hr : s.reader = .idle) (bufferSize : ℕ) :
    ∃ t, step s (.read bufferSize) = some t ∧ Reaches step (· = .reader) t { s with
      ring := s.ring.pop (min bufferSize s.ring.contents.length)
      reader := .idle
      received := s.received ++ s.ring.contents.take bufferSize } := by
  have hst : step s (.read bufferSize) = some { s with
      reader := .copying s.ring.rdOff (min bufferSize s.ring.contents.length) [] } := by
    rw [step, hr]
  have htake : s.ring.contents.take bufferSize =
      [] ++ pops s.ring.buffer s.ring.rdOff (min bufferSize s.ring.contents.length) := by
    rw [List.nil_append, ← (contents_pop (min_le_right _ _)).1, List.take_eq_take_min]
  refine ⟨_, hst, ?_⟩
  rw [htake]
  exact reaches_read rfl

/-- A call that the other party does not interrupt does to the buffer what the code of the
call says, and where it waits the writer stands in the loop with the same rest. -/
theorem calls_uninterrupted (s : State n) (pData : List Byte) (bufferSize : ℕ) :
    (s.writer = .idle → ∃ o t u, writeNoLock s.ring pData = some o ∧
      step s (.write pData) = some t ∧ Reaches step (· = .writer) t u ∧
      u.ring = ringAfter o ∧ u.writer = .after o) ∧
    (s.reader = .idle → ∃ bytes r t, readNoLock s.ring bufferSize = some (bytes, r) ∧
      step s (.read bufferSize) = some t ∧ Reaches step (· = .reader) t
        { s with ring := r, reader := .idle, received := s.received ++ bytes }) := by
  constructor
  · intro hw
    obtain ⟨o, u, ho, hreach, hu⟩ := reaches_write hw pData
    have hst : step s (.write pData) = some (beginWrite s pData) := by
      rw [step, hw]
    exact ⟨o, _, u, ho, hst, hreach, hu⟩
  · intro hr
    obtain ⟨t, hst, hreach⟩ := reaches_readNoLock hr bufferSize
    exact ⟨_, _, t, readNoLock_eq s.ring bufferSize, hst, hreach⟩

theorem calls_uninterrupted_fourCells :
    (∃ o t u, writeNoLock fourCells (text "abcd") = some o ∧
      step (initialState fourCells) (.write (text "abcd")) = some t ∧
      Reaches step (· = .writer) t u ∧ u.ring = ringAfter o ∧ u.writer = .after o) ∧
    (∃ bytes r t, readNoLock fourCells 2 = some (bytes, r) ∧
      step (initialState fourCells) (.read 2) = some t ∧ Reaches step (· = .reader) t
        { initialState fourCells with ring := r, reader := .idle, received := [] ++ bytes }) :=
  ⟨(calls_uninterrupted (initialState fourCells) (text "abcd") 2).1 rfl,
    (calls_uninterrupted (initialState fourCells) (text "abcd") 2).2 rfl⟩

/-! ## Everything accepted can be read -/

/-- The steps of the calls that are under way, and reads with a buffer of the given size. -/
def Serves (bufferSize : ℕ) (a : Action) : Prop :=
  a = .writer ∨ a = .read bufferSize ∨ a = .reader

private theorem reaches_read_serves {s : State n} (hr : s.reader = .idle) (bufferSize : ℕ) :
    Reaches step (Serves bufferSize) s { s with
      ring := s.ring.pop (min bufferSize s.ring.contents.length)
      reader := .idle
      received := s.received ++ s.ring.contents.take bufferSize } := by
  obtain ⟨t, hst, hreach⟩ := reaches_readNoLock hr bufferSize
  have hread : Reaches step (Serves bufferSize) s t := Reaches.of_step (Or.inr (Or.inl rfl)) hst
  exact hread.trans (hreach.mono fun _ h => Or.inr (Or.inr h))

/-- Reads of any size but zero empty the buffer. -/
private theorem reaches_empty {s : State n} (hr : s.reader = .idle) {bufferSize : ℕ}
    (hb : 0 < bufferSize) :
    Reaches step (Serves bufferSize) s { s with
      ring := s.ring.pop s.ring.contents.length
      received := s.received ++ s.ring.contents } := by
  induction hl : s.ring.contents.length using Nat.strong_induction_on generalizing s with
  | _ l ih =>
    by_cases hle : l ≤ bufferSize
    · have hread := reaches_read_serves hr bufferSize
      rw [hl, min_eq_right hle, List.take_of_length_le (hl.trans_le hle), ← hr] at hread
      exact hread
    · have hlt : bufferSize < l := not_le.mp hle
      have hread := reaches_read_serves hr bufferSize
      rw [hl, min_eq_left hlt.le] at hread
      have hpop : (s.ring.pop bufferSize).contents = s.ring.contents.drop bufferSize :=
        (contents_pop (hl.symm ▸ hlt.le)).2
      have hlen : (s.ring.pop bufferSize).contents.length = l - bufferSize := by
        rw [hpop, List.length_drop, hl]
      have hrest := ih (l - bufferSize) (by omega) (s := { s with
        ring := s.ring.pop bufferSize
        reader := .idle
        received := s.received ++ s.ring.contents.take bufferSize }) rfl hlen
      simp only [hpop, Ring.pop_pop, List.append_assoc, List.take_append_drop,
        Nat.add_sub_cancel' hlt.le] at hrest
      rw [← hr] at hread hrest
      exact hread.trans hrest

theorem Shared.reaches {s t : State n} {A : Action → Prop} (h : Reaches RttSharing.step A s t)
    (hs : Shared s) : Shared t :=
  h.invariant (fun _ _ _ _ hst hs => hs.step hst) hs

/-- Nothing is under way and nothing is left to read. -/
def Served (sent : List Byte) (t : State n) : Prop :=
  t.writer = .idle ∧ t.reader = .idle ∧ t.sent = sent ∧ t.received = sent

private theorem Shared.reaches_served_idle {s : State n} (hs : Shared s) (hw : s.writer = .idle)
    (hr : s.reader = .idle) {bufferSize : ℕ} (hb : 0 < bufferSize) :
    ∃ t, Reaches RttSharing.step (Serves bufferSize) s t ∧ Served s.sent t := by
  refine ⟨_, reaches_empty hr hb, hw, hr, rfl, ?_⟩
  have hsent := hs.sent
  rw [State.window, State.position, hw] at hsent
  simp only [Writer.chunk, Writer.rest, List.append_nil] at hsent
  exact hsent.symm

private theorem Shared.reaches_served_loop {s : State n} (hs : Shared s) {pBuffer : List Byte}
    (hw : s.writer = .loop pBuffer) (hr : s.reader = .idle) (hn : 1 < n) {bufferSize : ℕ}
    (hb : 0 < bufferSize) : ∃ t, Reaches RttSharing.step (Serves bufferSize) s t ∧ Served s.sent t := by
  induction hl : pBuffer.length using Nat.strong_induction_on generalizing s pBuffer with
  | _ l ih =>
    have hdrain := reaches_empty hr hb
    set u : State n := { s with
      ring := s.ring.pop s.ring.contents.length
      received := s.received ++ s.ring.contents } with hu
    -- with the buffer empty the loop gets on
    have hspace : getAvailWriteSpace u.ring = n - 1 := by
      have ha := getAvailWriteSpace_eq u.ring
      have hempty : u.ring.contents = [] := by
        rw [hu, (contents_pop le_rfl).2, List.drop_length]
      rw [hempty, List.length_nil] at ha
      omega
    have hloop := (reaches_loop (s := u) hw).mono (B := Serves bufferSize) (fun _ h => Or.inl h)
    rw [hspace] at hloop
    have hreach := hdrain.trans hloop
    by_cases hle : pBuffer.length ≤ n - 1
    · rw [if_pos hle] at hreach
      obtain ⟨t, ht, hserved⟩ := (hs.reaches hreach).reaches_served_idle rfl hr hb
      exact ⟨t, hreach.trans ht, hserved⟩
    · rw [if_neg hle] at hreach
      obtain ⟨t, ht, hserved⟩ := ih (pBuffer.drop (n - 1)).length (by rw [List.length_drop]; omega)
        (hs.reaches hreach) rfl hr rfl
      exact ⟨t, hreach.trans ht, hserved⟩

private theorem reaches_reader_idle (s : State n) :
    ∃ ring received, Reaches step (· = .reader) s
      { s with ring := ring, reader := .idle, received := received } := by
  cases hr : s.reader with
  | idle =>
    refine ⟨s.ring, s.received, ?_⟩
    rw [← hr]
    exact Reaches.refl s
  | copying rdOff left got => exact ⟨_, _, reaches_read hr⟩

/-- A stretch under way is finished. -/
private theorem reaches_writer_out (s : State n) :
    ∃ ring writer, Reaches step (· = .writer) s { s with ring := ring, writer := writer } ∧
      (writer = .idle ∨ ∃ pBuffer, writer = .loop pBuffer) := by
  cases hw : s.writer with
  | idle => exact ⟨s.ring, s.writer, Reaches.refl s, Or.inl hw⟩
  | loop pBuffer => exact ⟨s.ring, s.writer, Reaches.refl s, Or.inr ⟨pBuffer, hw⟩⟩
  | copying wrOff chunk rest =>
    refine ⟨_, if rest = [] then .idle else .loop rest, (reaches_copy hw).trans
      (Reaches.of_step (A := (· = Action.writer)) (a := .writer) rfl rfl), ?_⟩
    split
    · exact Or.inl rfl
    · exact Or.inr ⟨rest, rfl⟩

/-- Whatever the calls have accepted, the steps of both parties and reads of any size but
zero bring all of it to the host. -/
theorem sent_can_be_received (hn : 1 < n) {bufferSize : ℕ} (hb : 0 < bufferSize) (r : Ring n)
    (as : List Action) (s : State n) (h : run step (initialState r) as = some s) :
    ∃ t, Reaches step (Serves bufferSize) s t ∧ Served s.sent t := by
  have hs := shared_run h
  obtain ⟨ring, received, hread⟩ := reaches_reader_idle s
  obtain ⟨ring', writer, hwrite, hout⟩ :=
    reaches_writer_out { s with ring := ring, reader := .idle, received := received }
  have hreach := (hread.mono (B := Serves bufferSize) (fun _ h => Or.inr (Or.inr h))).trans
    (hwrite.mono (B := Serves bufferSize) (fun _ h => Or.inl h))
  rcases hout with rfl | ⟨pBuffer, rfl⟩
  · obtain ⟨t, ht, hserved⟩ := (hs.reaches hreach).reaches_served_idle rfl rfl hb
    exact ⟨t, hreach.trans ht, hserved⟩
  · obtain ⟨t, ht, hserved⟩ := (hs.reaches hreach).reaches_served_loop rfl rfl hn hb
    exact ⟨t, hreach.trans ht, hserved⟩

theorem sent_can_be_received_fourBytes :
    ∃ s, run step (initialState fourCells) fourBytes = some s ∧
      ∃ t, Reaches step (Serves 1) s t ∧ Served s.sent t :=
  ⟨_, rfl, sent_can_be_received (by decide) (by decide) fourCells fourBytes _ rfl⟩

end UsbCdc.RttSharing
