import UsbCdc.CommandGrammar

/-! # Cutting a byte stream

What the commands of a stream have to do with the commands of its pieces, each scanned
on its own. A cut changes the commands exactly if one of them straddles it. -/
namespace UsbCdc.CommandCuts
open CStrings CommandGrammar LeftmostMatches Transducers

/-- A command begins before the cut between `x` and `y` and ends behind it. -/
def Straddles (x y : List Byte) : Prop :=
  ∃ u v, u <:+ x ∧ v <+: y ∧ u ≠ [] ∧ v ≠ [] ∧ IsCommand (u ++ v)

/-- The text pending in state `s` becomes a command at the start of `y`. -/
def Completes (s : Progress) (y : List Byte) : Prop :=
  s.pending ≠ [] ∧ ∃ v, v <+: y ∧ IsCommand (s.pending ++ v)

def volume (ms : List (List Byte)) : ℕ := ms.flatten.length

theorem volume_commandsIn_le (s : List Byte) : volume (commandsIn s) ≤ s.length := by
  obtain ⟨rest, hm, -⟩ := allMatches_commandsIn s
  have h := hm.volume_le
  rw [volume]
  omega

theorem output_idle (s : List Byte) : scanner.output .idle s = commandsIn s := rfl

theorem step_eq (s : Progress) (c : Byte) : scanner.step s c = s.step c := rfl

theorem emit_eq (s : Progress) (c : Byte) : scanner.emit s c = s.emit c := rfl

/-- A carriage return ends whatever is under way, up to its line feed. -/
theorem after_crlf (s : Progress) (w : List Byte) :
    scanner.after s (w ++ [chCR, chLF]) = .idle := by
  rw [Transducer.after_append]
  generalize scanner.after s w = t
  cases t <;> rfl

theorem output_crlf (s : Progress) (w rest : List Byte) :
    scanner.output s (w ++ [chCR, chLF] ++ rest) =
      scanner.output s (w ++ [chCR, chLF]) ++ commandsIn rest := by
  rw [Transducer.output_append, after_crlf]
  rfl

/-- The rest of a line whose `AT` has been read. -/
theorem output_body {b : List Byte} (hb : chCR ∉ b) (line : List Byte) :
    scanner.output (.body line) (b ++ [chCR, chLF]) =
      [chA :: chT :: (line ++ b ++ [chCR, chLF])] := by
  induction b generalizing line with
  | nil => simp [step_eq, emit_eq, Progress.step, Progress.emit]
  | cons c b ih =>
    have hc : c ≠ chCR := fun h => hb (h ▸ List.mem_cons_self)
    have hb' : chCR ∉ b := fun h => hb (List.mem_cons_of_mem c h)
    simp [step_eq, emit_eq, Progress.step, Progress.emit, hc, ih hb']

private theorem rest_of_body {line v : List Byte} (hl : chCR ∉ line)
    (hv : IsCommand (chA :: chT :: line ++ v)) : ∃ b, chCR ∉ b ∧ v = b ++ [chCR, chLF] := by
  have hl' : chCR ∉ chA :: chT :: line := by
    simp [hl, chA_ne_chCR.symm, chT_ne_chCR.symm]
  have hmem : chCR ∈ v := (List.mem_append.mp hv.chCR_mem).resolve_left hl'
  obtain ⟨b, z, rfl, hb⟩ := List.eq_append_cons_of_mem hmem
  have hw : chCR ∉ chA :: chT :: line ++ b := by
    simp only [List.mem_append, not_or]
    exact ⟨hl', hb⟩
  obtain ⟨-, rfl⟩ := hv.line (r := []) (z := z) hw (by simp)
  exact ⟨b, hb, rfl⟩

/-- The bytes that complete the pending text make the scanner emit it and start afresh,
and on their own they leave nothing pending either. -/
theorem completion {s : Progress} (hs : s.Clean) (hp : s.pending ≠ []) {v : List Byte}
    (hv : IsCommand (s.pending ++ v)) :
    scanner.output s v = [s.pending ++ v] ∧ scanner.after s v = .idle ∧
      scanner.after .idle v = .idle := by
  cases s with
  | idle => exact absurd rfl hp
  | sawA =>
    obtain ⟨b, hb, he⟩ := hv
    obtain ⟨-, rfl⟩ := List.cons_eq_cons.mp he
    refine ⟨?_, after_crlf _ (chT :: b), after_crlf _ (chT :: b)⟩
    have ho := output_body hb []
    simpa [step_eq, emit_eq, Progress.step, Progress.emit, Progress.pending] using ho
  | body line =>
    obtain ⟨b, hb, rfl⟩ := rest_of_body hs hv
    refine ⟨?_, after_crlf _ b, after_crlf _ b⟩
    rw [output_body hb line]
    simp [Progress.pending]
  | sawCR line =>
    have hl : chCR ∉ chA :: chT :: line := by
      have hs' : chCR ∉ line := hs
      simp [hs', chA_ne_chCR.symm, chT_ne_chCR.symm]
    obtain ⟨-, rfl⟩ := hv.line (r := []) (z := v) hl (by simp [Progress.pending])
    refine ⟨?_, rfl, rfl⟩
    simp [step_eq, emit_eq, Progress.step, Progress.emit, Progress.pending]

theorem output_completion {s : Progress} (hs : s.Clean) (hp : s.pending ≠ []) {v : List Byte}
    (hv : IsCommand (s.pending ++ v)) (rest : List Byte) :
    scanner.output s (v ++ rest) = (s.pending ++ v) :: commandsIn rest := by
  obtain ⟨ho, ha, -⟩ := completion hs hp hv
  rw [Transducer.output_append, ho, ha]
  rfl

/-- A command on its own is recognised, and scanning goes on behind it. -/
theorem commandsIn_command {c : List Byte} (hc : IsCommand c) (rest : List Byte) :
    commandsIn (c ++ rest) = c :: commandsIn rest := by
  obtain ⟨b, hb, rfl⟩ := hc
  have ho := output_completion (s := .sawA) trivial (by simp [Progress.pending])
    (v := chT :: (b ++ [chCR, chLF])) ⟨b, hb, rfl⟩ rest
  exact ho

theorem commandsIn_flatten {cs : List (List Byte)} (hcs : ∀ c ∈ cs, IsCommand c) :
    commandsIn cs.flatten = cs := by
  induction cs with
  | nil => rfl
  | cons c cs ih =>
    rw [List.flatten_cons, commandsIn_command (hcs c List.mem_cons_self),
      ih (fun d hd => hcs d (List.mem_cons_of_mem c hd))]

private theorem Completes.cons {s t : Progress} {c : Byte} {y : List Byte}
    (ht : t.pending = s.pending ++ [c]) (hs : s.pending ≠ []) (h : Completes t y) :
    Completes s (c :: y) := by
  obtain ⟨-, v, ⟨r, rfl⟩, hv⟩ := h
  refine ⟨hs, c :: v, ⟨r, rfl⟩, ?_⟩
  rwa [ht, List.append_assoc] at hv

private theorem Completes.inside {line y : List Byte} (hl : chCR ∉ line)
    (h : Completes .sawA y) : Completes (.body (line ++ [chA])) y := by
  obtain ⟨-, v, hv, b, hb, he⟩ := h
  obtain ⟨-, rfl⟩ := List.cons_eq_cons.mp he
  refine ⟨by simp [Progress.pending], _, hv, line ++ chA :: chT :: b, ?_, ?_⟩
  · simp [hl, hb, chA_ne_chCR.symm, chT_ne_chCR.symm]
  · simp [Progress.pending]

/-- Text that never becomes a command leaves no trace. -/
theorem output_of_not_completes {s : Progress} (hs : s.Clean) {y : List Byte}
    (hc : ¬ Completes s y) : scanner.output s y = commandsIn y := by
  induction y generalizing s with
  | nil => rfl
  | cons c y ih =>
    change s.emit c ++ scanner.output (s.step c) y = scanner.output (Progress.restart c) y
    cases s with
    | idle => rfl
    | sawA =>
      by_cases ht : c = chT
      · subst ht
        exact ih (s := .body []) (by simp [Progress.Clean])
          (fun h => hc (h.cons rfl (by simp [Progress.pending])))
      · simp [Progress.emit, Progress.step, ht]
    | body line =>
      by_cases hr : c = chCR
      · subst hr
        exact ih (s := .sawCR line) hs (fun h => hc (h.cons rfl (by simp [Progress.pending])))
      · have hl : (Progress.body (line ++ [c])).Clean := by
          have hs' : chCR ∉ line := hs
          simp [Progress.Clean, hs', Ne.symm hr]
        have hn : ¬ Completes (.body (line ++ [c])) y :=
          fun h => hc (h.cons rfl (by simp [Progress.pending]))
        have hb := ih hl hn
        simp only [Progress.emit, Progress.step, if_neg hr, List.nil_append, hb, Progress.restart]
        by_cases ha : c = chA
        · -- the same `A` may begin a command that the longer pending text would contain
          subst ha
          rw [if_pos rfl]
          exact (ih (s := .sawA) trivial (fun h => hn (Completes.inside hs h))).symm
        · rw [if_neg ha]
          rfl
    | sawCR line =>
      by_cases hf : c = chLF
      · subst hf
        refine absurd ⟨by simp [Progress.pending], [chLF], ⟨y, rfl⟩, line, hs, ?_⟩ hc
        simp [Progress.pending]
      · simp [Progress.emit, Progress.step, hf]

/-- A cut through a command loses volume, also if the part behind the cut still
contains a shorter command. -/
theorem volume_completes {s : Progress} (hs : s.Clean) {y : List Byte} (hc : Completes s y) :
    volume (commandsIn y) < volume (scanner.output s y) := by
  obtain ⟨hp, v, ⟨rest, rfl⟩, hv⟩ := hc
  have hlost : 0 < s.pending.length := List.length_pos_of_ne_nil hp
  have hle := volume_commandsIn_le v
  rw [output_completion hs hp hv, commandsIn, Transducer.output_append, (completion hs hp hv).2.2]
  simp only [volume, output_idle, List.flatten_append, List.flatten_cons, List.length_append] at hle ⊢
  omega

theorem volume_le {s : Progress} (hs : s.Clean) (y : List Byte) :
    volume (commandsIn y) ≤ volume (scanner.output s y) := by
  by_cases hc : Completes s y
  · exact (volume_completes hs hc).le
  · rw [output_of_not_completes hs hc]

/-- Every command takes a carriage return of the text. -/
theorem length_commandsIn_le (s : List Byte) : (commandsIn s).length ≤ s.count chCR := by
  obtain ⟨rest, hm, -⟩ := allMatches_commandsIn s
  generalize commandsIn s = ms at hm
  induction hm with
  | nil s => simp
  | cons first more ih =>
    obtain ⟨pre, rfl, hc, -⟩ := first
    have hpos := List.count_pos_iff.mpr hc.chCR_mem
    simp only [List.length_cons, List.count_append]
    omega

theorem length_le {s : Progress} (hs : s.Clean) (y : List Byte) :
    (commandsIn y).length ≤ (scanner.output s y).length := by
  by_cases hc : Completes s y
  · obtain ⟨hp, v, ⟨rest, rfl⟩, hv⟩ := hc
    have hle := length_commandsIn_le v
    have hone : v.count chCR ≤ 1 := by
      obtain ⟨b, hb, he⟩ := hv
      have hcount := congrArg (List.count chCR) he
      simp [List.count_eq_zero_of_not_mem hb, chA_ne_chCR, chT_ne_chCR, chCR_ne_chLF.symm] at hcount
      omega
    rw [output_completion hs hp hv, commandsIn, Transducer.output_append, (completion hs hp hv).2.2]
    simp only [output_idle, List.length_append, List.length_cons]
    omega
  · rw [output_of_not_completes hs hc]

private theorem pending_suffix (x : List Byte) : (scanner.after .idle x).pending <:+ x := by
  obtain ⟨-, skipped, hm, -⟩ := scanned x
  exact (List.suffix_append _ _).trans hm.suffix

theorem straddles_of_completes {x y : List Byte} (h : Completes (scanner.after .idle x) y) :
    Straddles x y := by
  obtain ⟨hp, v, hv, hc⟩ := h
  refine ⟨_, v, pending_suffix x, hv, hp, ?_, hc⟩
  rintro rfl
  have ho := (completion (scanned x).1 hp hc).1
  cases ho

private theorem Completes.extend {s : Progress} {v y : List Byte} (h : Completes s v)
    (hv : v <+: y) : Completes s y := by
  obtain ⟨hp, w, hw, hc⟩ := h
  exact ⟨hp, w, hw.trans hv, hc⟩

/-- Part of a line read behind an `AT` is completed by the rest of the line. -/
private theorem completes_body {u v b line : List Byte} (hl : chCR ∉ line) (hb : chCR ∉ b)
    (he : u ++ v = b ++ [chCR, chLF]) (hv : v ≠ []) :
    Completes (scanner.after (.body line) u) v := by
  induction u generalizing line b with
  | nil =>
    obtain rfl : v = b ++ [chCR, chLF] := he
    refine ⟨by simp [Progress.pending], _, List.prefix_refl _, line ++ b, ?_, ?_⟩
    · simp [hl, hb]
    · simp [Progress.pending]
  | cons c u ih =>
    cases b with
    | nil =>
      obtain ⟨rfl, hu⟩ := List.cons_eq_cons.mp he
      obtain ⟨rfl, rfl⟩ : u = [] ∧ v = [chLF] := by
        rcases List.append_eq_singleton_iff.mp hu with h | ⟨-, h⟩
        · exact h
        · exact absurd h hv
      refine ⟨by simp [step_eq, Progress.step, Progress.pending], [chLF], List.prefix_refl _, ?_⟩
      exact ⟨line, hl, by simp [step_eq, Progress.step, Progress.pending]⟩
    | cons d b =>
      obtain ⟨rfl, hu⟩ := List.cons_eq_cons.mp he
      have hc : c ≠ chCR := fun h => hb (h ▸ List.mem_cons_self)
      have hb' : chCR ∉ b := fun h => hb (List.mem_cons_of_mem c h)
      rw [Transducer.after_cons, step_eq, Progress.step, if_neg hc]
      refine ih ?_ hb' hu
      simp [hl, Ne.symm hc]

private theorem completes_sawA {u v b : List Byte} (hb : chCR ∉ b)
    (he : u ++ v = chT :: (b ++ [chCR, chLF])) (hv : v ≠ []) :
    Completes (scanner.after .sawA u) v := by
  cases u with
  | nil =>
    obtain rfl : v = chT :: (b ++ [chCR, chLF]) := he
    exact ⟨by simp [Progress.pending], _, List.prefix_refl _, b, hb, rfl⟩
  | cons c u =>
    obtain ⟨rfl, hu⟩ := List.cons_eq_cons.mp he
    rw [Transducer.after_cons, step_eq, Progress.step, if_pos rfl]
    exact completes_body (by simp) hb hu hv

/-- From any state, the beginning of a command is remembered until the rest arrives. -/
theorem completes_of_straddles {x y : List Byte} (h : Straddles x y) :
    Completes (scanner.after .idle x) y := by
  obtain ⟨u, v, ⟨x', rfl⟩, hvy, hu, hv, b, hb, he⟩ := h
  refine Completes.extend ?_ hvy
  rw [Transducer.after_append]
  have hs := (scanned x').1
  generalize scanner.after .idle x' = s at hs ⊢
  cases u with
  | nil => exact absurd rfl hu
  | cons c u =>
    obtain ⟨rfl, hr⟩ := List.cons_eq_cons.mp he
    rw [Transducer.after_cons, step_eq]
    cases s with
    | body line =>
      have hl : chCR ∉ line ++ [chA] := by
        have hs' : chCR ∉ line := hs
        simp [hs', chA_ne_chCR.symm]
      rw [Progress.step, if_neg chA_ne_chCR]
      exact completes_body hl (b := chT :: b) (by simp [hb, chT_ne_chCR.symm]) hr hv
    | idle => exact completes_sawA hb hr hv
    | sawA => exact completes_sawA hb hr hv
    | sawCR line => exact completes_sawA hb hr hv

/-- One cut: scanning the two parts apart gives the same commands unless one straddles. -/
theorem commandsIn_append {x y : List Byte} (h : ¬ Straddles x y) :
    commandsIn (x ++ y) = commandsIn x ++ commandsIn y := by
  rw [commandsIn, Transducer.output_append, output_of_not_completes (scanned x).1
    (fun hc => h (straddles_of_completes hc))]
  rfl

private theorem volume_append (ms ns : List (List Byte)) :
    volume (ms ++ ns) = volume ms + volume ns := by simp [volume]

theorem volume_packets_le (packets : List (List Byte)) :
    volume (packets.flatMap commandsIn) ≤ volume (commandsIn packets.flatten) := by
  induction packets with
  | nil => exact Nat.le_refl _
  | cons p ps ih =>
    rw [List.flatMap_cons, List.flatten_cons, commandsIn.eq_def (p ++ ps.flatten),
      Transducer.output_append, volume_append, volume_append]
    exact Nat.add_le_add_left (ih.trans (volume_le (scanned p).1 _)) _

theorem length_packets_le (packets : List (List Byte)) :
    (packets.flatMap commandsIn).length ≤ (commandsIn packets.flatten).length := by
  induction packets with
  | nil => exact Nat.le_refl _
  | cons p ps ih =>
    rw [List.flatMap_cons, List.flatten_cons, commandsIn.eq_def (p ++ ps.flatten),
      Transducer.output_append, List.length_append, List.length_append]
    exact Nat.add_le_add_left (ih.trans (length_le (scanned p).1 _)) _

private theorem Straddles.back {p x y : List Byte} (h : Straddles (p ++ x) y) :
    Straddles x y ∨ Straddles p (x ++ y) := by
  obtain ⟨u, v, ⟨w, hw⟩, hv, hu0, hv0, hc⟩ := h
  rcases List.append_eq_append_iff.mp hw with ⟨a, rfl, ha⟩ | ⟨a, rfl, ha⟩
  · cases a with
    | nil => exact Or.inl ⟨u, v, ⟨[], by simpa using ha⟩, hv, hu0, hv0, hc⟩
    | cons c a =>
      refine Or.inr ⟨c :: a, x ++ v, ⟨w, rfl⟩, ?_, by simp, by simp [hv0], ?_⟩
      · exact List.prefix_append_right_inj x |>.mpr hv
      · rw [ha] at hc
        simpa using hc
  · exact Or.inl ⟨u, v, ⟨a, ha.symm⟩, hv, hu0, hv0, hc⟩

private theorem Straddles.forward {p x y : List Byte} (h : Straddles x y) :
    Straddles (p ++ x) y := by
  obtain ⟨u, v, hu, hv, rest⟩ := h
  exact ⟨u, v, hu.trans (List.suffix_append p x), hv, rest⟩

/-- Scanning packets one by one gives the commands of the whole stream exactly if no
command straddles a cut. -/
theorem packets_iff (packets : List (List Byte)) :
    packets.flatMap commandsIn = commandsIn packets.flatten ↔
      ∀ ps qs, packets = ps ++ qs → ¬ Straddles ps.flatten qs.flatten := by
  induction packets with
  | nil =>
    refine ⟨fun _ ps qs h hs => ?_, fun _ => rfl⟩
    obtain ⟨u, v, hu, -, hu0, -⟩ := hs
    obtain ⟨rfl, rfl⟩ := List.append_eq_nil_iff.mp h.symm
    exact hu0 (List.suffix_nil.mp hu)
  | cons p ps ih =>
    have hclean := (scanned p).1
    have hwhole : commandsIn (p :: ps).flatten =
        commandsIn p ++ scanner.output (scanner.after .idle p) ps.flatten := by
      rw [List.flatten_cons, commandsIn, Transducer.output_append]
      rfl
    rw [List.flatMap_cons, hwhole, List.append_cancel_left_eq]
    constructor
    · intro h as bs hsplit hs
      have hn : ¬ Completes (scanner.after .idle p) ps.flatten := by
        intro hc
        have hlt := volume_completes hclean hc
        rw [← h] at hlt
        exact absurd (volume_packets_le ps) (by omega)
      rw [output_of_not_completes hclean hn] at h
      cases as with
      | nil =>
        obtain ⟨u, v, hu, -, hu0, -⟩ := hs
        exact hu0 (List.suffix_nil.mp hu)
      | cons q as =>
        obtain ⟨rfl, rfl⟩ := List.cons_eq_cons.mp hsplit
        rcases Straddles.back hs with hs | hs
        · exact ih.mp h as bs rfl hs
        · rw [← List.flatten_append] at hs
          exact hn (completes_of_straddles hs)
    · intro h
      have hn : ¬ Completes (scanner.after .idle p) ps.flatten := by
        intro hc
        have hs := straddles_of_completes hc
        exact h [p] ps rfl (by simpa using hs)
      rw [output_of_not_completes hclean hn]
      refine ih.mpr (fun as bs hsplit hs => ?_)
      exact h (p :: as) bs (by rw [hsplit, List.cons_append]) (Straddles.forward hs)

end UsbCdc.CommandCuts
