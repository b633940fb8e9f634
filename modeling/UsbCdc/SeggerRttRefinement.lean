import UsbCdc.SeggerRtt

/-! # The buffers as bounded queues

However a write is cut into pieces, it stores the same bytes at the same places as if they
were stored one by one, and a read takes the same bytes as if they were taken one by one. -/
namespace UsbCdc.SeggerRtt
open BoundedLoops CStrings CyclicChunks CyclicWindows

variable {n : ℕ} {r : Ring n}

namespace Ring

/-- The bytes that wait for the reader. -/
def contents (r : Ring n) : List Byte := between r.buffer r.rdOff r.wrOff

def push (r : Ring n) (xs : List Byte) : Ring n :=
  { r with
    buffer := (pushes (r.buffer, r.wrOff) xs).1
    wrOff := (pushes (r.buffer, r.wrOff) xs).2 }

def pop (r : Ring n) (k : ℕ) : Ring n := { r with rdOff := next^[k] r.rdOff }

@[simp] theorem push_nil (r : Ring n) : r.push [] = r := rfl

theorem push_append (r : Ring n) (xs ys : List Byte) : r.push (xs ++ ys) = (r.push xs).push ys := by
  simp only [push, pushes_append]

theorem pop_pop (r : Ring n) (j k : ℕ) : (r.pop j).pop k = r.pop (j + k) := by
  simp only [pop, ← Function.iterate_add_apply, Nat.add_comm]

theorem wrOff_push (r : Ring n) (xs : List Byte) :
    ((r.push xs).wrOff : ℕ) = (r.wrOff + xs.length) % n := by
  rw [push, pushes_snd, next_iterate_val]

/-- The part up to the end of the buffer leaves the offset at its start. -/
theorem wrOff_push_take (r : Ring n) {xs : List Byte} (h : n - r.wrOff ≤ xs.length) :
    ((r.push (xs.take (n - r.wrOff))).wrOff : ℕ) = 0 := by
  have hw := r.wrOff.isLt
  rw [wrOff_push, List.length_take, min_eq_left h, Nat.add_sub_cancel' hw.le, Nat.mod_self]

theorem push_take_drop (r : Ring n) (xs : List Byte) (k : ℕ) :
    (r.push (xs.take k)).push (xs.drop k) = r.push xs := by
  rw [← push_append, List.take_append_drop]

theorem rdOff_pop (r : Ring n) (k : ℕ) : ((r.pop k).rdOff : ℕ) = (r.rdOff + k) % n := by
  rw [pop, next_iterate_val]

theorem length_contents (r : Ring n) : r.contents.length = distance r.rdOff r.wrOff := by
  rw [contents, length_between]

end Ring

/-- What is free and what is used add up to the buffer but for one byte. -/
theorem getAvailWriteSpace_eq (r : Ring n) : getAvailWriteSpace r + r.contents.length + 1 = n := by
  have hr := r.rdOff.isLt
  have hw := r.wrOff.isLt
  rw [Ring.length_contents, distance_eq, getAvailWriteSpace]
  simp only [Fin.le_def]
  split <;> omega

theorem contents_push {xs : List Byte} (h : xs.length ≤ getAvailWriteSpace r) :
    (r.push xs).contents = r.contents ++ xs := by
  have ha := getAvailWriteSpace_eq r
  rw [Ring.length_contents] at ha
  have hlt : distance r.rdOff r.wrOff + xs.length < n := by omega
  exact between_pushes hlt

theorem getAvailWriteSpace_push {xs : List Byte} (h : xs.length ≤ getAvailWriteSpace r) :
    getAvailWriteSpace (r.push xs) = getAvailWriteSpace r - xs.length := by
  have ha := getAvailWriteSpace_eq r
  have hb := getAvailWriteSpace_eq (r.push xs)
  rw [contents_push h, List.length_append] at hb
  omega

theorem contents_pop {k : ℕ} (h : k ≤ r.contents.length) :
    r.contents.take k = pops r.buffer r.rdOff k ∧ (r.pop k).contents = r.contents.drop k := by
  rw [Ring.length_contents] at h
  have hb := @between_pops _ _ r.buffer _ _ _ h
  have hl := length_pops r.buffer r.rdOff k
  rw [Ring.contents, hb]
  constructor
  · exact List.take_left' hl
  · exact (List.drop_left' hl).symm

theorem offset_eq {w : Fin n} {k : ℕ} (h : (w : ℕ) = k) : offset k = some w := by
  subst h
  rw [offset, dif_pos w.isLt]

private theorem blit_push {off : ℕ} {xs : List Byte} (hoff : off = r.wrOff)
    (h : off + xs.length ≤ n) : blit r.buffer off xs = some (r.push xs).buffer := by
  subst hoff
  exact blit_eq_pushes h

/-! ## Writing -/

theorem writeNoCheck_eq {pData : List Byte} (h : pData.length ≤ getAvailWriteSpace r) :
    writeNoCheck r pData = some (r.push pData) := by
  have ha := getAvailWriteSpace_eq r
  have hw := r.wrOff.isLt
  have hv := r.wrOff_push pData
  by_cases hlt : (r.wrOff : ℕ) + pData.length < n
  · rw [Nat.mod_eq_of_lt hlt] at hv
    simp only [writeNoCheck]
    rw [if_pos (by omega), blit_push rfl hlt.le, offset_eq hv]
    rfl
  · have htake : (pData.take (n - r.wrOff)).length = n - r.wrOff := by
      rw [List.length_take]
      omega
    have hdrop : (pData.drop (n - r.wrOff)).length = pData.length - (n - r.wrOff) :=
      List.length_drop
    have hmid := @Ring.wrOff_push_take n r pData (by omega)
    have hsplit := r.push_take_drop pData (n - r.wrOff)
    have hend : ((r.push pData).wrOff : ℕ) = pData.length - (n - r.wrOff) := by
      rw [← hsplit, Ring.wrOff_push, hmid, hdrop, Nat.zero_add, Nat.mod_eq_of_lt (by omega)]
    simp only [writeNoCheck]
    rw [if_neg (by omega), blit_push rfl (by omega)]
    simp only [Option.bind_eq_bind, Option.bind_some]
    rw [blit_push hmid.symm (by omega), offset_eq hend, ← hsplit]
    rfl

theorem chunkLength_eq (r : Ring n) (numBytes : ℕ) :
    chunkLength r numBytes = min (min (getAvailWriteSpace r) (n - r.wrOff)) numBytes := by
  have hr := r.rdOff.isLt
  have hw := r.wrOff.isLt
  rw [chunkLength, getAvailWriteSpace]
  simp only [gt_iff_lt, Fin.lt_def, Fin.le_def]
  split <;> split <;> omega

theorem chunkLength_le (r : Ring n) (numBytes : ℕ) :
    chunkLength r numBytes ≤ getAvailWriteSpace r := by
  rw [chunkLength_eq]
  exact (Nat.min_le_left _ _).trans (Nat.min_le_left _ _)

theorem length_take_chunkLength (r : Ring n) (pBuffer : List Byte) :
    (pBuffer.take (chunkLength r pBuffer.length)).length = chunkLength r pBuffer.length := by
  rw [List.length_take]
  exact min_eq_left (Nat.min_le_right _ _)

private theorem postChunk_eq (r : Ring n) (pBuffer : List Byte) :
    postChunk r pBuffer = some (r.push (pBuffer.take (chunkLength r pBuffer.length)),
      pBuffer.drop (chunkLength r pBuffer.length)) := by
  have hw := r.wrOff.isLt
  have hk := chunkLength_eq r pBuffer.length
  have hlen := length_take_chunkLength r pBuffer
  have hend : ((r.push (pBuffer.take (chunkLength r pBuffer.length))).wrOff : ℕ) =
      wrap n (r.wrOff + chunkLength r pBuffer.length) := by
    rw [Ring.wrOff_push, hlen, wrap_eq_mod (by omega)]
  simp only [postChunk]
  rw [blit_push rfl (by omega), offset_eq hend]
  rfl

private theorem blockingLoop_run (r : Ring n) (pBuffer : List Byte) :
    blockingLoop.run (some (r, pBuffer)) =
      some (r.push (pBuffer.take (getAvailWriteSpace r)), pBuffer.drop (getAvailWriteSpace r)) := by
  suffices H : ∀ f : Option (Ring n × List Byte), ∀ r pBuffer, f = some (r, pBuffer) →
      blockingLoop.run f = some (r.push (pBuffer.take (getAvailWriteSpace r)),
        pBuffer.drop (getAvailWriteSpace r)) from H _ r pBuffer rfl
  intro f
  refine blockingLoop.induction (P := fun f => ∀ r pBuffer, f = some (r, pBuffer) →
    blockingLoop.run f = some (r.push (pBuffer.take (getAvailWriteSpace r)),
      pBuffer.drop (getAvailWriteSpace r))) ?_ ?_ f
  · rintro f hg r pBuffer rfl
    rw [Loop.run_exit _ hg]
    have hk : ¬ 0 < chunkLength r pBuffer.length := of_decide_eq_false hg
    rw [chunkLength_eq] at hk
    have hw := r.wrOff.isLt
    -- the ring is full, or nothing is left
    by_cases ha : getAvailWriteSpace r = 0
    · simp [ha]
    · have hnil : pBuffer = [] := List.eq_nil_of_length_eq_zero (by omega)
      simp [hnil]
  · rintro f hg ih r pBuffer rfl
    have hbody : blockingLoop.body (some (r, pBuffer)) =
        some (r.push (pBuffer.take (chunkLength r pBuffer.length)),
          pBuffer.drop (chunkLength r pBuffer.length)) := postChunk_eq r pBuffer
    have hlen := length_take_chunkLength r pBuffer
    have hspace := chunkLength_le r pBuffer.length
    rw [Loop.run_step _ hg, ih _ _ hbody, getAvailWriteSpace_push (hlen.trans_le hspace), hlen,
      ← Ring.push_append, List.drop_drop, ← List.take_add, Nat.add_sub_cancel' hspace]

/-- The blocking write posts what there is room for and waits with the rest. -/
theorem writeBlocking_eq (r : Ring n) (pBuffer : List Byte) :
    writeBlocking r pBuffer =
      some (r.push (pBuffer.take (getAvailWriteSpace r)), pBuffer.drop (getAvailWriteSpace r)) := by
  have hlen := length_take_chunkLength r pBuffer
  have hspace := chunkLength_le r pBuffer.length
  rw [writeBlocking, postChunk_eq, blockingLoop_run,
    getAvailWriteSpace_push (hlen.trans_le hspace), hlen, ← Ring.push_append, List.drop_drop,
    ← List.take_add, Nat.add_sub_cancel' hspace]

/-- What each mode makes of the room that there is. -/
theorem writeNoLock_eq (r : Ring n) (pData : List Byte) :
    writeNoLock r pData =
      if r.flags = noBlockSkip then
        if pData.length ≤ getAvailWriteSpace r then some (.returns pData.length (r.push pData))
        else some (.returns 0 r)
      else if r.flags = noBlockTrim then
        some (.returns (min (getAvailWriteSpace r) pData.length : ℕ)
          (r.push (pData.take (getAvailWriteSpace r))))
      else if r.flags = blockIfFifoFull then
        if pData.length ≤ getAvailWriteSpace r then some (.returns pData.length (r.push pData))
        else some (.waits (r.push (pData.take (getAvailWriteSpace r)))
          (pData.drop (getAvailWriteSpace r)))
      else some (.returns 0 r) := by
  simp only [writeNoLock]
  by_cases hle : pData.length ≤ getAvailWriteSpace r
  · have hlt : ¬ getAvailWriteSpace r < pData.length := not_lt.mpr hle
    have hdrop : pData.drop (getAvailWriteSpace r) = [] := List.drop_of_length_le hle
    have htake : pData.take (getAvailWriteSpace r) = pData := List.take_of_length_le hle
    simp only [hlt, hle, if_true, if_false, writeNoCheck_eq hle, writeBlocking_eq, htake, hdrop,
      List.take_length, min_eq_right hle, Option.map_some]
  · have hlt : getAvailWriteSpace r < pData.length := not_le.mp hle
    have hdrop : pData.drop (getAvailWriteSpace r) ≠ [] := by
      rw [Ne, List.drop_eq_nil_iff]
      exact hle
    have hlen : (pData.take (getAvailWriteSpace r)).length ≤ getAvailWriteSpace r :=
      List.length_take_le _ _
    simp only [hlt, hle, if_true, if_false, writeNoCheck_eq hlen, writeBlocking_eq, hdrop,
      min_eq_left hlt.le, Option.map_some]

/-- The five cases of the skipping write are one. -/
theorem writeSkipNoLock_eq (r : Ring n) (pData : List Byte) :
    writeSkipNoLock r pData =
      if pData.length ≤ getAvailWriteSpace r then some (.returns 1 (r.push pData))
      else some (.returns 0 r) := by
  have hr := r.rdOff.isLt
  have hw := r.wrOff.isLt
  have hv := r.wrOff_push pData
  have ha : getAvailWriteSpace r = if (r.rdOff : ℕ) ≤ r.wrOff then n - 1 - r.wrOff + r.rdOff
      else r.rdOff - r.wrOff - 1 := rfl
  have hone : (r.wrOff : ℕ) + pData.length < n →
      (do
        let buffer ← blit r.buffer r.wrOff pData
        let wrOff ← offset (r.wrOff + pData.length)
        some (Outcome.returns 1 { r with buffer, wrOff })) = some (.returns 1 (r.push pData)) := by
    intro hlt
    rw [Nat.mod_eq_of_lt hlt] at hv
    rw [blit_push rfl hlt.le, offset_eq hv]
    rfl
  simp only [writeSkipNoLock, Fin.le_def]
  by_cases hle : (r.rdOff : ℕ) ≤ r.wrOff
  · rw [if_pos hle] at ha ⊢
    by_cases h1 : pData.length ≤ n - r.wrOff - 1
    · rw [if_pos h1, if_pos (by omega)]
      exact hone (by omega)
    rw [if_neg h1]
    by_cases h2 : pData.length ≤ getAvailWriteSpace r
    · rw [if_pos (by omega), if_pos h2]
      have htake : (pData.take (n - r.wrOff)).length = n - r.wrOff := by
        rw [List.length_take]
        omega
      have hdrop : (pData.drop (n - r.wrOff)).length = pData.length - (n - r.wrOff) :=
        List.length_drop
      have hmid := @Ring.wrOff_push_take n r pData (by omega)
      have hsplit := r.push_take_drop pData (n - r.wrOff)
      have hend : ((r.push pData).wrOff : ℕ) = (pData.drop (n - r.wrOff)).length := by
        rw [← hsplit, Ring.wrOff_push, hmid, Nat.zero_add, Nat.mod_eq_of_lt (by omega)]
      rw [blit_push rfl (by omega)]
      simp only [Option.bind_eq_bind, Option.bind_some]
      -- the second copy is left out where nothing remains
      split
      · rename_i hnil
        rw [offset_eq hend]
        rw [hnil, Ring.push_nil] at hsplit
        rw [← hsplit]
        rfl
      · rw [blit_push hmid.symm (by omega), offset_eq hend, ← hsplit]
        rfl
    · rw [if_neg (by omega), if_neg h2]
  · rw [if_neg hle] at ha ⊢
    by_cases h1 : pData.length ≤ r.rdOff - r.wrOff - 1
    · rw [if_pos h1, if_pos (by omega)]
      exact hone (by omega)
    · rw [if_neg h1, if_neg (by omega)]

/-- The place after the next byte is free if there is room at all. -/
private theorem next_eq_rdOff_iff (r : Ring n) :
    next r.wrOff = r.rdOff ↔ getAvailWriteSpace r = 0 := by
  have ha := getAvailWriteSpace_eq r
  rw [Ring.length_contents] at ha
  rw [distance_full]
  omega

private theorem offset_next (r : Ring n) : offset (wrap n (r.wrOff + 1)) = some (next r.wrOff) := by
  apply offset_eq
  rw [wrap_eq_mod r.wrOff.isLt]
  rfl

theorem putCharSkip_eq (r : Ring n) (c : Byte) :
    putCharSkip r c =
      if getAvailWriteSpace r = 0 then some (.returns 0 r) else some (.returns 1 (r.push [c])) := by
  simp only [putCharSkip, offset_next, Option.bind_eq_bind, Option.bind_some, ne_eq,
    next_eq_rdOff_iff, ite_not]
  rfl

theorem putChar_eq (r : Ring n) (c : Byte) :
    putChar r c =
      if getAvailWriteSpace r = 0 then
        if r.flags = blockIfFifoFull then some (.waits r [c]) else some (.returns 0 r)
      else some (.returns 1 (r.push [c])) := by
  simp only [putChar, offset_next, Option.bind_eq_bind, Option.bind_some, ne_eq,
    next_eq_rdOff_iff, ite_not]
  by_cases hs : getAvailWriteSpace r = 0
  · simp only [hs, and_true, if_true]
  · simp only [hs, and_false, if_false]
    rfl

/-! ## Reading -/

private theorem readToEnd_eq (r : Ring n) (bufferSize : ℕ) :
    ∃ k, k ≤ min bufferSize r.contents.length ∧
      (bufferSize - k = 0 ∨ ((r.pop k).rdOff : ℕ) ≤ r.wrOff) ∧
      readToEnd r bufferSize = some (pops r.buffer r.rdOff k, ((r.pop k).rdOff : ℕ)) := by
  have hr := r.rdOff.isLt
  have hlen := r.length_contents
  rw [distance_eq] at hlen
  by_cases h : r.rdOff > r.wrOff
  · have hlt : (r.wrOff : ℕ) < r.rdOff := h
    rw [if_neg (by omega)] at hlen
    refine ⟨min (n - r.rdOff) bufferSize, by omega, ?_, ?_⟩
    · by_cases hk : n - r.rdOff ≤ bufferSize
      · right
        rw [Ring.rdOff_pop, min_eq_left hk, Nat.add_sub_cancel' hr.le, Nat.mod_self]
        exact Nat.zero_le _
      · left
        omega
    · simp only [readToEnd]
      rw [if_pos h, slice_eq_pops (by omega), Ring.rdOff_pop, ← wrap_eq_mod (by omega)]
      rfl
  · refine ⟨0, Nat.zero_le _, Or.inr (not_lt.mp h), ?_⟩
    simp only [readToEnd]
    rw [if_neg h]
    rfl

private theorem readRemaining_eq (r : Ring n) (bufferSize : ℕ)
    (h : bufferSize = 0 ∨ (r.rdOff : ℕ) ≤ r.wrOff) :
    readRemaining r r.rdOff bufferSize =
      some (pops r.buffer r.rdOff (min bufferSize r.contents.length),
        ((r.pop (min bufferSize r.contents.length)).rdOff : ℕ)) := by
  have hw := r.wrOff.isLt
  have hn := r.sizeOfBuffer
  have hlen := r.length_contents
  rw [distance_eq] at hlen
  simp only [readRemaining]
  rcases h with rfl | hle
  · rw [Nat.min_zero, if_neg (Nat.lt_irrefl 0), Nat.zero_min]
    rfl
  · rw [if_pos hle] at hlen
    have hsub : unsignedSub r.wrOff r.rdOff = r.contents.length := by
      rw [unsignedSub, Nat.add_sub_assoc hle, Nat.add_mod_left, Nat.mod_eq_of_lt (by omega), hlen]
    rw [hsub, min_comm]
    by_cases hk : 0 < min bufferSize r.contents.length
    · rw [if_pos hk, slice_eq_pops (by omega), Ring.rdOff_pop, Nat.mod_eq_of_lt (by omega)]
      rfl
    · rw [if_neg hk, Nat.eq_zero_of_not_pos hk]
      rfl

/-- A read in one or two pieces takes the oldest bytes. -/
theorem readNoLock_eq (r : Ring n) (bufferSize : ℕ) :
    readNoLock r bufferSize =
      some (r.contents.take bufferSize, r.pop (min bufferSize r.contents.length)) := by
  obtain ⟨k, hk, hor, hfirst⟩ := readToEnd_eq r bufferSize
  have hlen : (r.pop k).contents.length = r.contents.length - k := by
    rw [(contents_pop (hk.trans (min_le_right _ _))).2, List.length_drop]
  have hsecond := readRemaining_eq (r.pop k) (bufferSize - k) hor
  rw [hlen, Ring.pop_pop] at hsecond
  have hsum : k + min (bufferSize - k) (r.contents.length - k) =
      min bufferSize r.contents.length := by omega
  have htake : r.contents.take bufferSize =
      pops r.buffer r.rdOff (min bufferSize r.contents.length) := by
    rw [← (contents_pop (min_le_right _ _)).1, List.take_eq_take_min]
  have hbytes : pops r.buffer r.rdOff k ++ pops r.buffer (r.pop k).rdOff
      (min (bufferSize - k) (r.contents.length - k)) = r.contents.take bufferSize := by
    rw [htake, ← hsum, pops_add]
    rfl
  rw [hsum] at hsecond
  simp only [readNoLock, hfirst, Option.bind_eq_bind, Option.bind_some, length_pops]
  have hsecond' : readRemaining r (r.pop k).rdOff (bufferSize - k) =
      some (pops r.buffer (r.pop k).rdOff (min (bufferSize - k) (r.contents.length - k)),
        ((r.pop (min bufferSize r.contents.length)).rdOff : ℕ)) := hsecond
  rw [hsecond']
  simp only [Option.bind_some, hbytes]
  split
  · rw [offset_eq rfl]
    rfl
  · rename_i hnil
    have hzero : min bufferSize r.contents.length = 0 := by
      have hl := congrArg List.length (not_not.mp hnil)
      rw [List.length_take] at hl
      exact hl
    rw [not_not.mp hnil, hzero]
    rfl

theorem hasKey_eq (r : Ring n) : hasKey r = if r.contents = [] then 0 else 1 := by
  have hiff : r.contents = [] ↔ r.rdOff = r.wrOff := between_eq_nil
  rw [hasKey]
  simp only [hiff, ne_eq, ite_not]

/-- Where the contents do not go on at the start, their length; else a difference that has
wrapped around. -/
theorem hasData_eq (r : Ring n) :
    hasData r = if r.rdOff ≤ r.wrOff then r.contents.length
      else 2 ^ 32 - n + r.contents.length := by
  have hr := r.rdOff.isLt
  have hw := r.wrOff.isLt
  have hn := r.sizeOfBuffer
  rw [hasData, unsignedSub, Ring.length_contents, distance_eq]
  by_cases h : r.rdOff ≤ r.wrOff
  · have hle : (r.rdOff : ℕ) ≤ r.wrOff := h
    rw [if_pos h, if_pos hle]
    omega
  · have hle : ¬ (r.rdOff : ℕ) ≤ r.wrOff := h
    rw [if_neg h, if_neg hle]
    omega

theorem hasData_eq_zero_iff (r : Ring n) : hasData r = 0 ↔ r.contents = [] := by
  have hn := r.sizeOfBuffer
  rw [hasData_eq]
  split
  · exact List.length_eq_zero_iff
  · rename_i h
    have hne : r.contents ≠ [] := fun hnil => h (Fin.le_of_eq (between_eq_nil.mp hnil))
    exact iff_of_false (by omega) hne

/-- The subtraction is the wrong way round where the contents go on at the start. -/
theorem getBytesInBuffer_eq_iff (r : Ring n) :
    getBytesInBuffer r = r.contents.length ↔ r.rdOff ≤ r.wrOff := by
  have hr := r.rdOff.isLt
  have hw := r.wrOff.isLt
  have hn := r.sizeOfBuffer
  rw [getBytesInBuffer, unsignedSub, unsignedSub, Ring.length_contents, distance_eq]
  simp only [Fin.le_def]
  split <;> omega

/-! ## The paths for single cases -/

private theorem writeNoLock_full {r : Ring n} (h : getAvailWriteSpace r = 0) (c : Byte) :
    writeNoLock r [c] =
      if r.flags = blockIfFifoFull then some (.waits r [c]) else some (.returns 0 r) := by
  have hne : ¬ ([c] : List Byte).length ≤ 0 := by simp
  have hmode : blockIfFifoFull ≠ noBlockSkip ∧ blockIfFifoFull ≠ noBlockTrim := by decide
  have hzero : ((0 : ℕ) : ℤ) = 0 := rfl
  simp only [writeNoLock_eq, h, hne, if_false, List.take_zero, List.drop_zero, Ring.push_nil,
    Nat.zero_min, hzero]
  by_cases hb : r.flags = blockIfFifoFull
  · simp only [hb, hmode.1, hmode.2, if_true, if_false]
  · simp only [hb, if_false, ite_self]

private theorem writeNoLock_free {r : Ring n} (h : getAvailWriteSpace r ≠ 0) (c : Byte) :
    writeNoLock r [c] =
      if r.flags = noBlockSkip ∨ r.flags = noBlockTrim ∨ r.flags = blockIfFifoFull then
        some (.returns 1 (r.push [c]))
      else some (.returns 0 r) := by
  have hle : ([c] : List Byte).length ≤ getAvailWriteSpace r := Nat.one_le_iff_ne_zero.mpr h
  have hmin : min (getAvailWriteSpace r) ([c] : List Byte).length = 1 := min_eq_right hle
  rw [writeNoLock_eq, if_pos hle, if_pos hle, hmin, List.take_of_length_le hle]
  by_cases hs : r.flags = noBlockSkip
  · simp [hs]
  by_cases ht : r.flags = noBlockTrim
  · simp [ht]
  by_cases hb : r.flags = blockIfFifoFull
  · simp [hb]
  · simp [hs, ht, hb]

/-- The write for skipping buffers does what the general one does there, and a single byte
is put as the general write puts it, except that it does not check for unknown modes. -/
theorem writeNoLock_paths (r : Ring n) (pData : List Byte) (c : Byte) :
    (r.flags = noBlockSkip → ∃ t : Ring n, ∃ stored : Bool,
      writeSkipNoLock r pData = some (.returns (if stored then 1 else 0) t) ∧
      writeNoLock r pData = some (.returns (if stored then pData.length else 0) t)) ∧
    (r.flags = noBlockSkip ∨ r.flags = noBlockTrim → putCharSkip r c = writeNoLock r [c]) ∧
    (putChar r c = writeNoLock r [c] ↔
      r.flags = noBlockSkip ∨ r.flags = noBlockTrim ∨ r.flags = blockIfFifoFull ∨
        getAvailWriteSpace r = 0) := by
  refine ⟨fun h => ?_, fun h => ?_, ?_⟩
  · rw [writeSkipNoLock_eq, writeNoLock_eq, if_pos h]
    by_cases hle : pData.length ≤ getAvailWriteSpace r
    · exact ⟨_, true, if_pos hle, if_pos hle⟩
    · exact ⟨_, false, if_neg hle, if_neg hle⟩
  · have hb : r.flags ≠ blockIfFifoFull := by
      rcases h with h | h
      · rw [h]
        decide
      · rw [h]
        decide
    rw [putCharSkip_eq]
    by_cases hs : getAvailWriteSpace r = 0
    · rw [if_pos hs, writeNoLock_full hs, if_neg hb]
    · rw [if_neg hs, writeNoLock_free hs, if_pos (h.imp_right Or.inl)]
  · rw [putChar_eq]
    by_cases hs : getAvailWriteSpace r = 0
    · rw [if_pos hs, writeNoLock_full hs]
      exact iff_of_true rfl (Or.inr (Or.inr (Or.inr hs)))
    · rw [if_neg hs, writeNoLock_free hs]
      constructor
      · intro h
        by_contra hmode
        rw [if_neg (fun hm => hmode (by tauto))] at h
        cases h
      · intro h
        rw [if_pos (by tauto)]

/-! ## Runs of calls -/

inductive Call
  | write (pData : List Byte)
  | writeSkip (pData : List Byte)
  | putChar (c : Byte)
  | putCharSkip (c : Byte)
  | read (bufferSize : ℕ)
  | getKey

inductive Answer
  | status (status : ℤ)
  | waits (rest : List Byte)
  | bytes (bytes : List Byte)
  | key (r : ℤ)

def Outcome.answer : Outcome (Ring n) → Answer × Ring n
  | .returns status r => (.status status, r)
  | .waits r rest => (.waits rest, r)

def perform (r : Ring n) : Call → Option (Answer × Ring n)
  | .write pData => (writeNoLock r pData).map Outcome.answer
  | .writeSkip pData => (writeSkipNoLock r pData).map Outcome.answer
  | .putChar c => (putChar r c).map Outcome.answer
  | .putCharSkip c => (putCharSkip r c).map Outcome.answer
  | .read bufferSize => (readNoLock r bufferSize).map fun p => (.bytes p.1, p.2)
  | .getKey => (getKey r).map fun p => (.key p.1, p.2)

end UsbCdc.SeggerRtt
