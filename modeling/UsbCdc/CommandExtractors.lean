import UsbCdc.CheckUserInputCorrectness
import UsbCdc.ParseDataCorrectness

/-! # The two command extractors agree

`checkUserInput` cuts at every `AT` and `parseData` at every line end. On lines that each
are `AT`, a text without these marks, and a line end, both find the lines. -/
namespace UsbCdc.CommandExtractors
open CStrings CheckUserInput CheckUserInputCorrectness CommandCuts CommandGrammar ParseData
  ParseDataCorrectness RingBuf Substrings UsbPcdc

/-- The text of one command. -/
def command (body : List Byte) : List Byte := text "AT" ++ body ++ text "\r\n"

def rendering (bodies : List (List Byte)) : List Byte := (bodies.map command).flatten

/-- A body that neither function can take for a border between commands. -/
def IsBody (body : List Byte) : Prop := 0 ∉ body ∧ chCR ∉ body ∧ ¬ text "AT" <:+: body

instance (body : List Byte) : Decidable (IsBody body) := inferInstanceAs (Decidable (_ ∧ _))

variable {body : List Byte} {bodies : List (List Byte)}

theorem isCommand_command (hb : IsBody body) : IsCommand (command body) := ⟨body, hb.2.1, rfl⟩

/-- No `AT` arises where the body meets the prefix or the line end. -/
theorem isCommandText_command (hb : IsBody body) : IsCommandText (command body) := by
  refine ⟨⟨body ++ text "\r\n", rfl⟩, fun h => ?_⟩
  change text "AT" <:+: chT :: (body ++ chCR :: [chLF]) at h
  rcases List.infix_cons_iff.mp h with hp | hi
  · exact absurd (List.cons_prefix_cons.mp hp).1 (by decide)
  · rcases infix_append_cons text_AT_ne_nil (by decide) hi with hi | hi
    · exact hb.2.2 hi
    · exact absurd hi (by decide)

section Rendering
variable (hb : ∀ b ∈ bodies, IsBody b)
include hb

private theorem forall_command {P : List Byte → Prop} (h : ∀ b, IsBody b → P (command b)) :
    ∀ m ∈ bodies.map command, P m := by
  intro m hm
  obtain ⟨b, hbm, rfl⟩ := List.mem_map.mp hm
  exact h b (hb b hbm)

theorem zero_notMem_rendering : 0 ∉ rendering bodies := by
  intro h
  obtain ⟨m, hm, h0⟩ := List.mem_flatten.mp h
  obtain ⟨b, hbm, rfl⟩ := List.mem_map.mp hm
  rw [command, List.mem_append, List.mem_append] at h0
  rcases h0 with (h0 | h0) | h0
  · exact absurd h0 (by decide)
  · exact (hb b hbm).1 h0
  · exact absurd h0 (by decide)

theorem commandsIn_rendering : commandsIn (rendering bodies) = bodies.map command :=
  commandsIn_flatten (forall_command hb (fun _ => isCommand_command))

theorem segments_rendering (hne : bodies ≠ []) :
    segments (text "AT") (rendering bodies) = bodies.map command :=
  segments_flatten chA_notMem_chT (by simpa using hne)
    (forall_command hb (fun _ => isCommandText_command))

/-- Nothing is trimmed: the first command begins the text, and its body does not begin with
another `AT`. -/
theorem trimmed_rendering (hne : bodies ≠ []) : trimmed (rendering bodies) = rendering bodies := by
  obtain ⟨b, bs, rfl⟩ := List.exists_cons_of_ne_nil hne
  have hs : rendering (b :: bs) = chA :: chT :: (b ++ chCR :: chLF :: rendering bs) := by
    rw [rendering, List.map_cons, List.flatten_cons, command, List.append_assoc, List.append_assoc]
    rfl
  have hspace : (rendering (b :: bs)).dropWhile isSpace = rendering (b :: bs) := by
    rw [hs, List.dropWhile_cons_of_neg (by decide)]
  rw [trimmed, hspace]
  refine if_neg (fun h => ?_)
  have hat := (startsWith_atat.mp h).2
  rw [hs] at hat
  exact (hb b List.mem_cons_self).2.2 (prefix_of_prefix_append_cons (by decide) hat).isInfix

omit hb in
theorem accepted_rendering (hne : bodies ≠ []) : Accepted (rendering bodies) := by
  constructor
  · obtain ⟨b, bs, rfl⟩ := List.exists_cons_of_ne_nil hne
    exact ⟨b ++ text "\r\n" ++ rendering bs, by
      simp only [rendering, List.map_cons, List.flatten_cons, command, List.append_assoc]⟩
  · obtain ⟨bs, b, rfl⟩ := (List.eq_nil_or_concat' bodies).resolve_left hne
    have hs : rendering (bs ++ [b]) = rendering bs ++ text "AT" ++ b ++ [chCR] ++ [chLF] := by
      simp only [rendering, List.map_append, List.map_singleton, List.flatten_append,
        List.flatten_singleton, command, List.append_assoc]
      rfl
    rw [hs, List.rdropWhile_concat_neg _ _ _ (by decide)]
    exact ⟨rendering bs ++ text "AT" ++ b, by
      rw [List.append_assoc (rendering bs ++ text "AT" ++ b)]
      rfl⟩

/-- The rows of the substring splitter: all lines, the last one without its end. -/
theorem checkUserInput_rendering {bs : List (List Byte)} {b : List Byte} (hbs : bodies = bs ++ [b])
    (hl : (rendering bodies).length < readBufSize) {buffSize : ℕ} (hbuf : buffSize ≠ 0)
    {out : List OutRow} (hout : bodies.length ≤ out.length) :
    ∃ rows, rows.map rowString = bs.map command ++ [text "AT" ++ b] ∧
      rows.length = bodies.length ∧
      checkUserInput (some (rendering bodies)) buffSize out =
        .ok (bodies.length, rows ++ out.drop rows.length) := by
  have hne : bodies ≠ [] := by
    rw [hbs]
    exact List.append_ne_nil_of_right_ne_nil _ (List.cons_ne_nil b [])
  have htrim := trimmed_rendering hb hne
  have hacc := accepted_rendering hne
  have hseg := segments_rendering hb hne
  have hocc := length_segments text_AT_ne_nil hacc.1
  rw [hseg, List.length_map] at hocc
  obtain ⟨pieces, cs, k, rows, hpieces, hk, hstrings, -, hrun⟩ :=
    rows_of_accepted (zero_notMem_rendering hb) hl hbuf (htrim.symm ▸ hacc)
      (by rw [htrim, ← hocc]; exact hout)
  rw [htrim, hseg, hbs, List.map_append, List.map_singleton] at hpieces
  obtain ⟨rfl, hlast⟩ := List.append_inj' hpieces rfl
  obtain rfl : chT :: (b ++ text "\r\n") = cs :=
    (List.cons_eq_cons.mp (List.singleton_inj.mp hlast)).2
  have hcr : chCR ∉ chT :: b := by
    rw [List.mem_cons, not_or]
    exact ⟨chT_ne_chCR.symm, (hb b (hbs ▸ List.mem_append_right bs List.mem_cons_self)).2.1⟩
  have hfirst : firstIndex (text "\r\n") (chT :: (b ++ text "\r\n")) = some (chT :: b).length :=
    firstIndex_append_cons hcr (List.prefix_refl (text "\r\n"))
  obtain rfl := Option.some.inj (hfirst.symm.trans hk)
  have htake : (chT :: (b ++ text "\r\n")).take (chT :: b).length = chT :: b := List.take_left
  rw [htake] at hstrings
  have hcount : rows.length = bodies.length := by
    rw [length_of_strings hstrings, List.length_map, hbs, List.length_append, List.length_singleton]
  exact ⟨rows, hstrings, hcount, by rw [hrun, hcount]⟩

end Rendering

/-- Both functions find every command of a rendering, in order; the last row of the substring
splitter lacks the line end. -/
theorem extractors_agree (bodies : List (List Byte)) (p : CavATCommandParser) (buffSize : ℕ)
    (out : List OutRow) (hne : bodies ≠ []) (h9 : bodies.length ≤ 9)
    (hb : ∀ b ∈ bodies, 0 ∉ b ∧ chCR ∉ b ∧ ¬ text "AT" <:+: b)
    (hl : (rendering bodies).length ≤ 511) (hbuf : buffSize ≠ 0)
    (hout : bodies.length ≤ out.length) :
    ∃ q r ret out', parseData p (rendering bodies) = .ok (q, r) ∧
      checkUserInput (some (rendering bodies)) buffSize out = .ok (ret, out') ∧
      q.commandCount = bodies.length ∧ ret = bodies.length ∧
      q.strings = bodies.map command ∧
      ∃ init last, q.strings = init ++ [last ++ text "\r\n"] ∧
        (out'.take bodies.length).map rowString = init ++ [last] := by
  have hlt : (rendering bodies).length < ringBufferSize := Nat.lt_succ_of_le hl
  have hcommands := commandsIn_rendering hb
  obtain ⟨q, r, hparse⟩ := parseData_of_le p hlt (by rw [hcommands, List.length_map]; exact h9)
  have hstrings := strings_of_parseData hlt (zero_notMem_rendering hb) hparse
  have hcount := (parseData_ok hlt hparse).1
  rw [hcommands] at hstrings hcount
  obtain ⟨bs, b, hbs⟩ := (List.eq_nil_or_concat' bodies).resolve_left hne
  obtain ⟨rows, hrows, hlen, hcheck⟩ :=
    checkUserInput_rendering hb hbs (Nat.lt_succ_of_le hl) hbuf hout
  refine ⟨q, r, bodies.length, _, hparse, hcheck, by rw [hcount, List.length_map], rfl, hstrings,
    bs.map command, text "AT" ++ b, ?_, ?_⟩
  · rw [hstrings, hbs, List.map_append, List.map_singleton, command]
  · rw [← hlen, List.take_left, hrows]

theorem extractors_agree_two :
    ∃ q r ret out', parseData default (rendering [text "+LED A", text ""]) = .ok (q, r) ∧
      checkUserInput (some (rendering [text "+LED A", text ""])) 512
        (List.replicate 10 (Vector.replicate readBufSize 0)) = .ok (ret, out') ∧
      q.commandCount = 2 ∧ ret = 2 ∧ q.strings = [text "AT+LED A\r\n", text "AT\r\n"] ∧
      ∃ init last, q.strings = init ++ [last ++ text "\r\n"] ∧
        (out'.take 2).map rowString = init ++ [last] :=
  extractors_agree [text "+LED A", text ""] default 512
    (List.replicate 10 (Vector.replicate readBufSize 0)) (by decide) (by decide) (by decide)
    (by decide) (by decide) (by rw [List.length_replicate]; decide)

end UsbCdc.CommandExtractors
