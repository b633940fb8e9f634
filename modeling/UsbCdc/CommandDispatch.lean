import UsbCdc.CommandGrammar
import UsbCdc.CommandSupport

/-! # Which handler a command runs

The lookup never compares texts. It finds the entry of a command as long as the hashes
of the table are distinct, and it finds the entry of a colliding command as well. -/
namespace UsbCdc.CommandDispatch
open CStrings CommandGrammar CommandSupport

/-- The handler that `process_data_task` calls, or `none` where it reports the command
as not supported. -/
def dispatch (char : PlainChar) (table : List CDC_Commands_Type) (cmd : List Byte) :
    Option Handler :=
  let index := hashTableLookup char table cmd
  if index ≠ 0 then
    table[index.toNat - 1]?.map CDC_Commands_Type.pfunc
  else
    none

section Table
variable (char : PlainChar) {table : List CDC_Commands_Type} (cmd : List Byte)

private theorem findIdx_hash (table : List CDC_Commands_Type) :
    (initHashTable char table).findIdx? (fun e => hashFunc char (some cmd) == e.hash) =
      table.findIdx? (fun e => decide (hashValue char cmd = hashValue char e.cmd)) := by
  rw [initHashTable, List.findIdx?_map]
  congr 1
  funext e
  rw [Bool.eq_iff_iff, decide_eq_true_eq, ← hashFunc_inj char]
  exact beq_iff_eq

private theorem toUInt8_succ {i : ℕ} (h : i < 255) : (i.toUInt8 + 1).toNat = i + 1 := by
  rw [UInt8.toNat_add, Nat.toUInt8, UInt8.toNat_ofNat', UInt8.toNat_one]
  omega

/-- No entry is found exactly if no entry collides with the command. -/
theorem hashTableLookup_eq_zero (hlen : table.length < 256) :
    hashTableLookup char (initHashTable char table) cmd = 0 ↔
      ∀ e ∈ table, hashValue char cmd ≠ hashValue char e.cmd := by
  simp only [hashTableLookup, findIdx_hash]
  cases hf : table.findIdx? (fun e => decide (hashValue char cmd = hashValue char e.cmd)) with
  | none =>
    have hn := List.findIdx?_eq_none_iff.mp hf
    exact iff_of_true rfl (fun e he => of_decide_eq_false (hn e he))
  | some i =>
    obtain ⟨hi, he, -⟩ := List.findIdx?_eq_some_iff_getElem.mp hf
    have hs := toUInt8_succ (show i < 255 by omega)
    refine iff_of_false ?_ (fun h => h table[i] (List.getElem_mem hi) (of_decide_eq_true he))
    intro h0
    rw [show i.toUInt8 + 1 = 0 from h0] at hs
    exact absurd hs (by simp)

/-- Entry `i` is found exactly if it collides with the command, where no two entries
collide with each other. -/
theorem hashTableLookup_eq_succ (hlen : table.length < 256)
    (hd : (table.map (fun e => hashValue char e.cmd)).Nodup) {i : ℕ} (hi : i < table.length) :
    hashTableLookup char (initHashTable char table) cmd = i.toUInt8 + 1 ↔
      hashValue char cmd = hashValue char table[i].cmd := by
  simp only [hashTableLookup, findIdx_hash]
  have hs := toUInt8_succ (show i < 255 by omega)
  cases hf : table.findIdx? (fun e => decide (hashValue char cmd = hashValue char e.cmd)) with
  | none =>
    have hn := List.findIdx?_eq_none_iff.mp hf
    refine iff_of_false ?_ (of_decide_eq_false (hn _ (List.getElem_mem hi)))
    intro h0
    rw [show i.toUInt8 + 1 = 0 from h0.symm] at hs
    exact absurd hs (by simp)
  | some j =>
    obtain ⟨hj, he, -⟩ := List.findIdx?_eq_some_iff_getElem.mp hf
    have hej : hashValue char cmd = hashValue char table[j].cmd := of_decide_eq_true he
    have hsj := toUInt8_succ (show j < 255 by omega)
    constructor
    · intro h
      have hij := congrArg UInt8.toNat (show j.toUInt8 + 1 = i.toUInt8 + 1 from h)
      rw [hs, hsj] at hij
      obtain rfl : j = i := by omega
      exact hej
    · intro h
      have he' : table[j] = table[i] := List.inj_on_of_nodup_map hd (List.getElem_mem hj)
        (List.getElem_mem hi) (hej.symm.trans h)
      rw [(List.Nodup.getElem_inj_iff (List.Nodup.of_map _ hd)).mp he']

end Table

theorem hashValues_table (char : PlainChar) :
    CDC_Command_Table.map (fun e => hashValue char e.cmd) = [9296, 22240, 15156] := by
  cases char <;> rfl

/-- The lookup names the entry with the text of the command and no other. -/
structure Exact (char : PlainChar) (cmd : List Byte) : Prop where
  index : ∀ (i : ℕ) (hi : i < CDC_Command_Table.length),
    hashTableLookup char (initHashTable char CDC_Command_Table) cmd = i.toUInt8 + 1 ↔
      cmd = CDC_Command_Table[i].cmd
  absent : hashTableLookup char (initHashTable char CDC_Command_Table) cmd = 0 ↔
    ∀ e ∈ CDC_Command_Table, cmd ≠ e.cmd
  handler : ∀ e ∈ CDC_Command_Table,
    dispatch char (initHashTable char CDC_Command_Table) cmd = some e.pfunc → cmd = e.cmd

private theorem table_nodup (char : PlainChar) :
    (CDC_Command_Table.map (fun e => hashValue char e.cmd)).Nodup := by
  rw [hashValues_table]
  decide

private theorem table_pfunc_nodup : (CDC_Command_Table.map CDC_Commands_Type.pfunc).Nodup := by
  decide

/-- A handler runs only where the lookup names its entry. -/
private theorem hashTableLookup_of_dispatch {char : PlainChar} {cmd : List Byte}
    {e : CDC_Commands_Type} (he : e ∈ CDC_Command_Table)
    (h : dispatch char (initHashTable char CDC_Command_Table) cmd = some e.pfunc) :
    ∃ i, ∃ hi : i < CDC_Command_Table.length, CDC_Command_Table[i] = e ∧
      hashTableLookup char (initHashTable char CDC_Command_Table) cmd = i.toUInt8 + 1 := by
  unfold dispatch at h
  generalize hashTableLookup char (initHashTable char CDC_Command_Table) cmd = index at h ⊢
  by_cases h0 : index = 0
  · simp [h0] at h
  · simp only [ne_eq, h0, not_false_eq_true, if_true, Option.map_eq_some_iff,
      List.getElem?_eq_some_iff] at h
    obtain ⟨e', ⟨hj, rfl⟩, hp⟩ := h
    have hi : index.toNat - 1 < CDC_Command_Table.length := by simpa [initHashTable] using hj
    refine ⟨index.toNat - 1, hi, ?_, ?_⟩
    · apply List.inj_on_of_nodup_map table_pfunc_nodup (List.getElem_mem hi) he
      simpa [initHashTable] using hp
    · have hpos : index.toNat ≠ 0 := fun hz => h0 (UInt8.toNat_inj.mp hz)
      apply UInt8.toNat_inj.mp
      rw [toUInt8_succ (hi.trans (by decide))]
      omega

private theorem table_length : CDC_Command_Table.length < 256 := by decide

private theorem hashValue_mem_iff (char : PlainChar) (cmd : List Byte) :
    hashValue char cmd ∉ ([9296, 22240, 15156] : List ℤ) ↔
      ∀ e ∈ CDC_Command_Table, hashValue char cmd ≠ hashValue char e.cmd := by
  rw [← hashValues_table char, List.mem_map]
  push Not
  exact forall₂_congr (fun e _ => ne_comm)

private theorem exact_of_mem (char : PlainChar) {e : CDC_Commands_Type}
    (he : e ∈ CDC_Command_Table) : Exact char e.cmd := by
  obtain ⟨k, hk, rfl⟩ := List.getElem_of_mem he
  have hfound (i : ℕ) (hi : i < CDC_Command_Table.length) :
      hashTableLookup char (initHashTable char CDC_Command_Table) CDC_Command_Table[k].cmd =
        i.toUInt8 + 1 ↔ CDC_Command_Table[k].cmd = CDC_Command_Table[i].cmd := by
    rw [hashTableLookup_eq_succ char _ table_length (table_nodup char) hi]
    constructor
    · intro h
      rw [List.inj_on_of_nodup_map (table_nodup char) (List.getElem_mem hk) (List.getElem_mem hi) h]
    · intro h
      rw [h]
  constructor
  · exact hfound
  · rw [hashTableLookup_eq_zero char _ table_length]
    exact iff_of_false (fun h => h _ he rfl) (fun h => h _ he rfl)
  · intro e he hd
    obtain ⟨i, hi, rfl, hf⟩ := hashTableLookup_of_dispatch he hd
    exact (hfound i hi).mp hf

private theorem exact_of_distinct {char : PlainChar} {cmd : List Byte}
    (h : ∀ e ∈ CDC_Command_Table, hashValue char cmd ≠ hashValue char e.cmd) :
    Exact char cmd := by
  have hne : ∀ e ∈ CDC_Command_Table, cmd ≠ e.cmd := fun e he hc => h e he (by rw [hc])
  constructor
  · intro i hi
    rw [hashTableLookup_eq_succ char cmd table_length (table_nodup char) hi]
    exact iff_of_false (h _ (List.getElem_mem hi)) (hne _ (List.getElem_mem hi))
  · rw [hashTableLookup_eq_zero char cmd table_length]
    exact iff_of_true h hne
  · intro e he hd
    obtain ⟨i, hi, rfl, hf⟩ := hashTableLookup_of_dispatch he hd
    exact absurd ((hashTableLookup_eq_succ char cmd table_length (table_nodup char) hi).mp hf)
      (h _ he)

private theorem hashValue_of_notMem (char : PlainChar) {cmd : List Byte} (h0 : 0 ∉ cmd) :
    hashValue char cmd = (∑ j ∈ Finset.range (cmd.length % 256),
      (j : ℤ) * char.value (cmd.getD j 0)) * ((cmd.length % 256 : ℕ) : ℤ) := by
  rw [hashValue, weightedSum, hashedLength, strlen, cString_of_notMem h0]

/-- Dispatch is exact on the commands of the table, and on every other command whose
position-weighted sum times length is not that of a command of the table. -/
theorem exact_iff (char : PlainChar) (cmd : List Byte) (hcmd : IsCommand cmd) (h0 : 0 ∉ cmd)
    (hl : cmd.length ≤ 511) :
    Exact char cmd ↔ (∃ e ∈ CDC_Command_Table, cmd = e.cmd) ∨
      (∑ j ∈ Finset.range (cmd.length % 256), (j : ℤ) * char.value (cmd.getD j 0)) *
        ((cmd.length % 256 : ℕ) : ℤ) ∉ ([9296, 22240, 15156] : List ℤ) := by
  rw [← hashValue_of_notMem char h0, hashValue_mem_iff]
  constructor
  · intro h
    by_contra hn
    push Not at hn
    obtain ⟨hne, e, he, hv⟩ := hn
    obtain ⟨i, hi, rfl⟩ := List.getElem_of_mem he
    have hf := (hashTableLookup_eq_succ char cmd table_length (table_nodup char) hi).mpr hv
    exact hne _ he ((h.index i hi).mp hf)
  · rintro (⟨e, he, rfl⟩ | h)
    · exact exact_of_mem char he
    · exact exact_of_distinct h

theorem exact_iff_led : Exact .signed (text "AT+LED\r\n") ↔
    (∃ e ∈ CDC_Command_Table, text "AT+LED\r\n" = e.cmd) ∨
      (∑ j ∈ Finset.range ((text "AT+LED\r\n").length % 256),
          (j : ℤ) * PlainChar.signed.value ((text "AT+LED\r\n").getD j 0)) *
        (((text "AT+LED\r\n").length % 256 : ℕ) : ℤ) ∉ ([9296, 22240, 15156] : List ℤ) :=
  exact_iff .signed (text "AT+LED\r\n") ⟨text "+LED", by decide, by decide⟩ (by decide) (by decide)

/-- `AT+PBD\r\n` has the hash of `AT+LED\r\n`. -/
theorem pbd_runs_led : ¬ ∀ (char : PlainChar) (cmd : List Byte), IsCommand cmd → 0 ∉ cmd →
    cmd.length ≤ 511 → Exact char cmd := by
  intro h
  have hx := h .signed (text "AT+PBD\r\n") ⟨text "+PBD", by decide, by decide⟩ (by decide)
    (by decide)
  have he := (hx.index 0 (by decide)).mp (by rfl)
  exact absurd he (by decide)

end UsbCdc.CommandDispatch
