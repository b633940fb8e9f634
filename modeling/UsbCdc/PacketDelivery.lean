import UsbCdc.ReadTokens

/-! # From the packets to the ring

`usb_pcdc_task` arms the next read before it has copied `g_usb_buf` and clears the buffer
afterwards. What is still in the buffer is safe as long as nothing is stored over it and
nobody clears it. -/
namespace UsbCdc.PacketDelivery
open CStrings CommandSupport DropOldestFifo LabelledRuns ReadTokens RingBuf UsbPcdc

def bufString (d : Device) : List Byte := cString d.usbBuf.toList

/-- `writeData` is done with the buffer and `memset` is not. -/
def Copied (d : Device) : Prop := d.task = .xSemaphoreGive ∨ d.task = .memset

instance (d : Device) : Decidable (Copied d) := inferInstanceAs (Decidable (_ ∨ _))

/-- The bytes in `g_usb_buf` that `writeData` has not seen yet. -/
def pending (d : Device) : List Byte := if Copied d then [] else bufString d

/-- All bytes that the device has got hold of. -/
def kept (d : Device) : List Byte := d.appended ++ pending d

/-- No packet is stored over bytes that are still to be copied, or into a buffer that is
about to be cleared, and no `SUSPEND` clears bytes that are still to be copied. -/
def BufferFree (d : Device) : DeviceAction → Prop
  | .packet p => p = [] ∨ bufString d = [] ∧ ¬ Copied d
  | .event .SUSPEND => bufString d = [] ∨ Copied d
  | _ => True

/-- NUL-free packets that leave room for a terminator, and no `DETACH`. -/
def InScope : DeviceAction → Prop
  | .packet p => 0 ∉ p ∧ p.length ≤ 511
  | .event e => e ≠ .DETACH
  | _ => True

instance : (a : DeviceAction) → Decidable (InScope a)
  | .packet p => inferInstanceAs (Decidable (0 ∉ p ∧ p.length ≤ 511))
  | .event e => inferInstanceAs (Decidable (e ≠ .DETACH))
  | .task => isTrue trivial
  | .process _ => isTrue trivial

/-- A terminated string and nothing but zeros behind it. -/
structure Holds (buf : Vector Byte readBufSize) (w : List Byte) : Prop where
  padded : buf.toList = w ++ 0 :: List.replicate (511 - w.length) 0
  noNul : 0 ∉ w
  short : w.length ≤ 511

theorem Holds.cString_eq {buf : Vector Byte readBufSize} {w : List Byte} (h : Holds buf w) :
    cString buf.toList = w := by
  rw [h.padded, cString_append_zero h.noNul]

theorem holds_clearedBuf : Holds clearedBuf [] := by
  refine ⟨?_, List.not_mem_nil, Nat.zero_le _⟩
  rw [clearedBuf, Vector.toList_replicate, List.nil_append, ← List.replicate_succ]
  rfl

/-- A packet is stored over the beginning of the string in the buffer. -/
theorem Holds.storePacket {buf : Vector Byte readBufSize} {w p : List Byte} (h : Holds buf w)
    (h0 : 0 ∉ p) (hl : p.length ≤ 511) :
    Holds (storePacket buf p) (p ++ w.drop p.length) := by
  obtain ⟨hpad, hz, hs⟩ := h
  refine ⟨?_, ?_, ?_⟩
  · rw [toList_storePacket (hl.trans (by decide)), hpad, List.append_assoc, List.drop_append]
    have hn : 511 - w.length + 1 - (p.length - w.length) =
        511 - (p ++ w.drop p.length).length + 1 := by
      rw [List.length_append, List.length_drop]
      omega
    rw [← List.replicate_succ, ← List.replicate_succ, List.drop_replicate, hn]
  · intro hm
    rcases List.mem_append.mp hm with hm | hm
    · exact h0 hm
    · exact hz (List.mem_of_mem_drop hm)
  · simp only [List.length_append, List.length_drop]
    omega

/-- The buffer between two steps. -/
structure Receiving (d : Device) : Prop where
  oneToken : OneToken d
  started : d.usbStatus ≠ .CONFIGURED
  link : d.linkUp = true
  buffer : Holds d.usbBuf (bufString d)
  idle : d.task = .xSemaphoreTake → d.usbReadCptSem = false → bufString d = []

/-- What a step does to the bytes; `p` is what the driver delivers in it. -/
structure Transfers (d : Device) (a : DeviceAction) (t : Device) (p : List Byte) : Prop where
  delivered : t.delivered.flatten = d.delivered.flatten ++ p
  kept : BufferFree d a → kept t = kept d ++ p
  lost : ¬ BufferFree d a → (PacketDelivery.kept t).length < (PacketDelivery.kept d).length + p.length

variable {d t : Device} {a : DeviceAction}

/-- Steps that move no byte between the host and the ring. -/
private theorem Transfers.quiet (hb : BufferFree d a) (hd : t.delivered = d.delivered)
    (hk : PacketDelivery.kept t = PacketDelivery.kept d) : Transfers d a t [] := by
  refine ⟨by rw [hd, List.append_nil], fun _ => by rw [hk, List.append_nil], fun h => absurd hb h⟩

/-- Steps that do not touch the buffer. -/
private theorem Receiving.of_eq (h : Receiving d) (ho : OneToken t)
    (hs : t.usbStatus ≠ .CONFIGURED) (hl : t.linkUp = true) (hbuf : t.usbBuf = d.usbBuf)
    (hi : t.task = .xSemaphoreTake → t.usbReadCptSem = false → bufString t = []) :
    Receiving t := by
  refine ⟨ho, hs, hl, ?_, hi⟩
  rw [bufString, hbuf]
  exact h.buffer

private theorem packet_transfers {p : List Byte} (hp : Copied t ↔ Copied d)
    (happ : t.appended = d.appended) (hd : t.delivered = d.delivered ++ [p])
    (hstr : bufString t = p ++ (bufString d).drop p.length) : Transfers d (.packet p) t p := by
  refine ⟨by simp [hd], ?_, ?_⟩
  · rintro (rfl | ⟨hempty, hc⟩)
    · simp [kept, pending, happ, hp, hstr]
    · simp [kept, pending, happ, hp, hstr, hempty, hc]
  · intro hfree
    simp only [BufferFree, not_or, not_and, not_not] at hfree
    obtain ⟨hne, hc⟩ := hfree
    have hpos := List.length_pos_of_ne_nil hne
    simp only [kept, pending, happ, hp, hstr, List.length_append]
    split
    · omega
    · rename_i hnc
      have hw := List.length_pos_of_ne_nil (fun he => hnc (hc he))
      rw [List.length_append, List.length_drop]
      omega

private theorem suspend_transfers (hk : PacketDelivery.kept t = d.appended)
    (hd : t.delivered = d.delivered) : Transfers d (.event .SUSPEND) t [] := by
  refine ⟨by simp [hd], ?_, ?_⟩
  · rintro (hempty | hc)
    · rw [hk]
      simp [kept, pending, hempty]
    · rw [hk]
      simp [kept, pending, hc]
  · intro hfree
    simp only [BufferFree, not_or] at hfree
    have hpos := List.length_pos_of_ne_nil hfree.1
    rw [hk]
    simp only [kept, pending, if_neg hfree.2, List.length_append, List.length_nil]
    omega

/-- The buffer and the bytes after one step. -/
theorem step_transfers {char : PlainChar} (h : Receiving d) (ha : InScope a)
    (hst : step char d a = some t) : ∃ p, Receiving t ∧ Transfers d a t p := by
  have ho : OneToken t := h.oneToken.step (fun _ hc => absurd hc h.started) hst
  have hclear := holds_clearedBuf.cString_eq
  cases (effect_of_step hst).2 with
  | take htask _ =>
    refine ⟨[], h.of_eq ho h.started h.link rfl nofun, .quiet trivial rfl ?_⟩
    simp [kept, pending, Copied, htask, bufString]
  | read htask _ =>
    refine ⟨[], h.of_eq ho h.started h.link rfl nofun, .quiet trivial rfl ?_⟩
    simp [kept, pending, Copied, htask, bufString]
  | readRefused htask harm => exact absurd htask (h.oneToken.of_armed harm).2
  | write htask =>
    refine ⟨[], h.of_eq ho h.started h.link rfl nofun, .quiet trivial rfl ?_⟩
    simp [kept, pending, Copied, htask, bufString]
  | give htask =>
    refine ⟨[], h.of_eq ho h.started h.link rfl nofun, .quiet trivial rfl ?_⟩
    simp [kept, pending, Copied, htask]
  | clear htask =>
    refine ⟨[], ⟨ho, h.started, h.link, ?_, fun _ _ => hclear⟩, .quiet trivial rfl ?_⟩
    · simp only [bufString, hclear]
      exact holds_clearedBuf
    · simp [kept, pending, Copied, htask, bufString, hclear]
  | @packet p _ _ =>
    have hbuf := h.buffer.storePacket ha.1 ha.2
    refine ⟨p, ⟨ho, h.started, h.link, ?_, nofun⟩, packet_transfers Iff.rfl rfl rfl hbuf.cString_eq⟩
    simp only [bufString, hbuf.cString_eq]
    exact hbuf
  | configured hl =>
    rw [h.link] at hl
    cases hl
  | arm hs _ => exact absurd hs h.started
  | armRefused hs _ => exact absurd hs h.started
  | detach => exact absurd rfl ha
  | suspend =>
    refine ⟨[], ⟨ho, h.started, h.link, ?_, fun _ _ => hclear⟩, suspend_transfers ?_ rfl⟩
    · simp only [bufString, hclear]
      exact holds_clearedBuf
    · simp [kept, pending, bufString, hclear]
  | requestComplete | request | other => exact ⟨[], h, .quiet trivial rfl rfl⟩
  | resume | welcome | writeComplete | process =>
    exact ⟨[], h.of_eq ho h.started h.link rfl h.idle, .quiet trivial rfl rfl⟩

private theorem Receiving.step {char : PlainChar} (ha : InScope a)
    (hst : step char d a = some t) (h : Receiving d) : Receiving t := by
  obtain ⟨_, ht, -⟩ := step_transfers h ha hst
  exact ht

section Ring

private theorem step_ring {char : PlainChar} (hst : step char d a = some t)
    (h : d.ringBuffer.fifo = Fifo.empty.pushAll d.appended) :
    t.ringBuffer.fifo = Fifo.empty.pushAll t.appended := by
  cases (effect_of_step hst).2 with
  | write htask => simp only [fifo_writeData, h, Fifo.pushAll_append]
  | _ => exact h

/-- The history of appended bytes is what went through the ring. -/
theorem ring_appended {char : PlainChar} {as : List DeviceAction}
    (hr : run (step char) initialDevice as = some d) :
    d.ringBuffer.fifo = Fifo.empty.pushAll d.appended :=
  run_invariant (I := fun d => d.ringBuffer.fifo = Fifo.empty.pushAll d.appended)
    (A := fun _ => True) (fun _ _ _ _ => step_ring) (fun _ _ => trivial)
    (fifo_initRingBuffer default) hr

end Ring

def missing (d : Device) : ℤ := (d.delivered.flatten.length : ℤ) - (kept d).length

private theorem missing_le {char : PlainChar} (ha : InScope a) (hst : step char d a = some t)
    (h : Receiving d) : missing d ≤ missing t ∧ (¬ BufferFree d a → missing d < missing t) := by
  obtain ⟨p, -, hd, hk, hl⟩ := step_transfers h ha hst
  have hdl := congrArg List.length hd
  rw [List.length_append] at hdl
  simp only [missing]
  by_cases hf : BufferFree d a
  · have hkl := congrArg List.length (hk hf)
    rw [List.length_append] at hkl
    exact ⟨by omega, fun hn => absurd hf hn⟩
  · have hlt := hl hf
    exact ⟨by omega, fun _ => by omega⟩

private theorem bufString_configured : bufString configuredDevice = [] :=
  holds_clearedBuf.cString_eq

theorem receiving_configured : Receiving configuredDevice := by
  refine ⟨⟨by decide, by decide⟩, by decide, rfl, ?_, fun _ _ => bufString_configured⟩
  rw [bufString_configured]
  exact holds_clearedBuf

theorem kept_configured : kept configuredDevice = configuredDevice.delivered.flatten := by
  rw [kept, pending, bufString_configured, ite_self]
  rfl

/-- `usb_pcdc_task` waits for a packet. -/
def Blocked (d : Device) : Prop := d.task = .xSemaphoreTake ∧ d.usbReadCptSem = false

theorem kept_of_blocked (h : Receiving d) (hb : Blocked d) : kept d = d.appended := by
  have he := h.idle hb.1 hb.2
  simp [kept, pending, he]

/-- While the buffer is free at every step, no byte gets lost. -/
private theorem stream_run {char : PlainChar} {as : List DeviceAction} (ha : ∀ a ∈ as, InScope a)
    (hf : Along (step char) BufferFree configuredDevice as)
    (hr : run (step char) configuredDevice as = some d) : kept d = d.delivered.flatten := by
  have hc := hf.and (along_of_forall configuredDevice ha)
  refine (hc.invariant (I := fun d => Receiving d ∧ kept d = d.delivered.flatten) ?_
    ⟨receiving_configured, kept_configured⟩ hr).2
  rintro s a t ⟨hfree, hscope⟩ hst ⟨hrec, hk⟩
  obtain ⟨p, ht, hp⟩ := step_transfers hrec hscope hst
  exact ⟨ht, by rw [hp.kept hfree, hk, hp.delivered]⟩

/-- The bytes in the ring are the start of the stream, and all of it once the task waits,
as long as the buffer is free whenever something happens to it. Once the task waits, this
is the only way in which the ring has got the whole stream. -/
theorem delivery_iff (char : PlainChar) (as : List DeviceAction) (ha : ∀ a ∈ as, InScope a) (d : Device)
    (h : run (step char) initialDevice (.event .CONFIGURED :: .event .REQUEST_COMPLETE :: as) =
      some d) :
    (Along (step char) BufferFree configuredDevice as → d.appended <+: d.delivered.flatten) ∧
      (Blocked d → (d.appended = d.delivered.flatten ↔
        Along (step char) BufferFree configuredDevice as)) := by
  have hrun : run (step char) configuredDevice as = some d := by
    obtain ⟨u, hu, hd⟩ := run_append_eq_some.mp
      (show run (step char) initialDevice ([.event .CONFIGURED, .event .REQUEST_COMPLETE] ++ as) =
        some d from h)
    rw [run_configured] at hu
    rwa [← Option.some.inj hu] at hd
  have hrec : Receiving d := run_invariant (fun _ _ _ => Receiving.step) ha receiving_configured hrun
  have hback : missing d ≤ missing configuredDevice →
      Along (step char) BufferFree configuredDevice as := by
    refine (along_of_le ?_ ?_ ?_ ha receiving_configured hrun).2
    · exact fun _ _ _ => Receiving.step
    · exact fun _ _ _ ha hst h => (missing_le ha hst h).1
    · exact fun _ _ _ ha hst h => (missing_le ha hst h).2
  constructor
  · intro hf
    exact ⟨pending d, stream_run ha hf hrun⟩
  · intro hb
    have hk := kept_of_blocked hrec hb
    constructor
    · intro he
      apply hback
      rw [missing, missing, hk, he, kept_configured]
      omega
    · intro hf
      rw [← hk, stream_run ha hf hrun]

/-- Two packets, each copied before the next one comes. -/
def twoPackets : List DeviceAction :=
  .packet (text "A") :: List.replicate 5 .task ++ .packet (text "T") :: List.replicate 5 .task

theorem delivery_iff_two : ∃ d, run (step .signed) initialDevice
    (.event .CONFIGURED :: .event .REQUEST_COMPLETE :: twoPackets) = some d ∧ Blocked d ∧
      (Along (step .signed) BufferFree configuredDevice twoPackets →
        d.appended <+: d.delivered.flatten) ∧
      (Blocked d → (d.appended = d.delivered.flatten ↔
        Along (step .signed) BufferFree configuredDevice twoPackets)) :=
  ⟨_, rfl, ⟨rfl, rfl⟩, delivery_iff .signed twoPackets (by decide) _ rfl⟩

/-- A packet that arrives between `R_USB_Read` and `writeData` replaces the one before. -/
theorem delivery_overwritten : ¬ ∀ (char : PlainChar) (as : List DeviceAction), (∀ a ∈ as, InScope a) →
    ∀ d, run (step char) initialDevice (.event .CONFIGURED :: .event .REQUEST_COMPLETE :: as) =
      some d → d.appended <+: d.delivered.flatten ∧
        (Blocked d → d.appended = d.delivered.flatten) := by
  intro h
  have hrun := h .signed [.packet (text "A"), .task, .task, .packet (text "B"), .task]
    (by decide) _ rfl
  have hbuf := (holds_clearedBuf.storePacket (p := text "A") (by decide) (by decide)).storePacket
    (p := text "B") (by decide) (by decide)
  have happ : cString (storePacket (storePacket clearedBuf (text "A")) (text "B")).toList =
      text "B" := hbuf.cString_eq
  have hpre := hrun.1
  change [] ++ cString (storePacket (storePacket clearedBuf (text "A")) (text "B")).toList <+:
    [text "A", text "B"].flatten at hpre
  rw [happ] at hpre
  exact absurd hpre (by decide)

end UsbCdc.PacketDelivery
