import Mcpi.Lib.Utf8
import Mcpi.Session.Jsonl.Codec

/-!
# Torn tails

The bytes that failed appends leave behind the last newline of a session file: part of a
line, and possibly parts of other lines after it, each cut anywhere, even inside a
character. However they were cut, the text they decode to is no JSON, because the object
the first part opened stays open.
-/

namespace Mcpi.Session.Jsonl

variable {ν : Type} [JsonNumber ν]

/-- Bytes that begin with part of a mutation line, neither empty nor all of it, and go on with
parts of further lines. -/
inductive Torn (ν : Type) [JsonNumber ν] : List UInt8 → Prop
  | first {m : SessionMutation ν} {p : List UInt8} : p <+: Utf8.encode (mutationLine m) →
      p ≠ [] → p ≠ Utf8.encode (mutationLine m) → Torn ν p
  | more {m : SessionMutation ν} {t p : List UInt8} : Torn ν t →
      p <+: Utf8.encode (mutationLine m) → Torn ν (t ++ p)

/-- What cut text decodes to: `text` where the bytes are followed by ASCII or by nothing. -/
def DecodesTo (p : List UInt8) (text : List Char) : Prop :=
  ∀ rest, Utf8.NotContinued rest → Utf8.decode (p ++ rest) = text ++ Utf8.decode rest

variable {p : List UInt8}

theorem DecodesTo.decode {text : List Char} (h : DecodesTo p text) : Utf8.decode p = text := by
  have := h [] (by simp [Utf8.NotContinued])
  simpa using this

theorem head_mutationLine (m : SessionMutation ν) : ∃ rest, mutationLine m = '{' :: rest := by
  rw [mutationLine, Json.stringify]
  exact ⟨_, rfl⟩

variable {m : SessionMutation ν}

/-- Part of a line: a prefix of its text, or that and one character that was cut. -/
theorem decodesTo_part (h : p <+: Utf8.encode (mutationLine m)) :
    (∃ front, front <+: mutationLine m ∧ p = Utf8.encode front ∧ DecodesTo p front) ∨
      ∃ front ds, front ≠ [] ∧ ds ≠ [] ∧ front ++ ds = mutationLine m ∧ DecodesTo p (front ++ [Utf8.replacement]) := by
  rcases Utf8.prefix_encode h with ⟨front, hfront, rfl⟩ | ⟨front, c, torn, hfront, rfl, htorn⟩
  · exact Or.inl ⟨front, hfront, rfl, fun rest _ => Utf8.decode_encode_append front rest⟩
  · obtain ⟨ds, hds⟩ := hfront
    refine Or.inr ⟨front, c :: ds, ?_, List.cons_ne_nil c ds, by simpa using hds, ?_⟩
    · -- the brace is a whole character
      rintro rfl
      obtain ⟨rest, hrest⟩ := head_mutationLine m
      rw [hrest] at hds
      have hc : c = '{' := by simpa using (List.cons.inj hds).1
      have := htorn.not_ascii
      rw [hc] at this
      revert this
      decide
    · intro rest hrest
      rw [List.append_assoc, Utf8.decode_encode_append, htorn.decode_append hrest]
      simp

omit [JsonNumber ν] in
theorem replacement_closes_nothing : Utf8.replacement ≠ ']' ∧ Utf8.replacement ≠ '}' := by
  decide

omit [JsonNumber ν] in
theorem newline_not_mem_concat {front : List Char} (h : '\n' ∉ front) : '\n' ∉ front ++ [Utf8.replacement] := by
  intro hn
  rcases List.mem_append.mp hn with hn | hn
  · exact h hn
  · revert hn
    decide

theorem newline_not_mem_part {cs : List Char}
    (h : p <+: Utf8.encode (mutationLine m)) (hcs : DecodesTo p cs) : '\n' ∉ cs := by
  have hline := newline_not_mem_mutationLine m
  rw [← hcs.decode]
  rcases decodesTo_part h with ⟨front, hfront, -, hdec⟩ | ⟨front, ds, -, -, hsplit, hdec⟩
  · rw [hdec.decode]
    exact fun hn => hline (hfront.subset hn)
  · rw [hdec.decode]
    exact newline_not_mem_concat fun hn => hline (hsplit ▸ List.mem_append_left _ hn)

/-- A line that goes on after something open does not close it. -/
theorem run_part_open {cs : List Char} {r : Json.Reader ν} (ho : r.Open) (hs : r.Sound)
    (h : p <+: Utf8.encode (mutationLine m)) (hcs : DecodesTo p cs) :
    ∀ q, Json.run r cs = some q → q.Open := by
  have hglued : ∀ front, front <+: mutationLine m → ∀ q, Json.run r front = some q → q.Open :=
    fun front hfront q hrun => Json.run_glued ho hs (mutationLine_opens m) hfront hrun
  rw [← hcs.decode]
  rcases decodesTo_part h with ⟨front, hfront, -, hdec⟩ | ⟨front, ds, -, -, hline, hdec⟩
  · rw [hdec.decode]
    exact hglued front hfront
  · rw [hdec.decode]
    exact fun q hrun =>
      Json.run_concat_open hs (hglued front ⟨ds, hline⟩) replacement_closes_nothing hrun

/-- **A torn tail is no JSON.** It decodes to some text without newlines that leaves the object
it opened open, and it stays apart from what follows. -/
theorem Torn.decodes {t : List UInt8} (h : Torn ν t) :
    ∃ cs, DecodesTo t cs ∧ cs ≠ [] ∧ '\n' ∉ cs ∧ ∀ q, Json.run (.initial : Json.Reader ν) cs = some q → q.Open := by
  induction h with
  | @first m p hp hne hall =>
    rcases decodesTo_part hp with ⟨front, hfront, rfl, hdec⟩ | ⟨front, ds, hnil, hds, hline, hdec⟩
    · obtain ⟨ds, hline⟩ := hfront
      have hds : ds ≠ [] := by
        rintro rfl
        exact hall (by rw [← hline, List.append_nil])
      have hnil : front ≠ [] := by
        rintro rfl
        exact hne rfl
      exact ⟨front, hdec, hnil, newline_not_mem_part hp hdec, fun q hrun =>
        Json.run_initial_cut hline hnil hds hrun⟩
    · exact ⟨_, hdec, by simp, newline_not_mem_part hp hdec, fun q hrun =>
        Json.run_concat_open Json.Reader.initial_sound (fun q' hrun' => Json.run_initial_cut hline hnil hds hrun')
          replacement_closes_nothing hrun⟩
  | @more m t p ht hp ih =>
    obtain ⟨cs, hdec, hne, hnl, hopen⟩ := ih
    -- a further line starts with a brace, so what was cut before it stays cut
    have hhead : ∀ rest, Utf8.NotContinued rest → Utf8.NotContinued (p ++ rest) := by
      intro rest hrest
      cases p with
      | nil => exact hrest
      | cons b p =>
        intro b' hb'
        obtain ⟨line, hline⟩ := head_mutationLine m
        rw [hline, Utf8.encode_cons] at hp
        have hb : b = 0x7B := (List.cons_prefix_cons.mp hp).1
        have : b' = b := by simpa using hb'.symm
        rw [this, hb]
        decide
    obtain ⟨ds, hds⟩ : ∃ ds, DecodesTo p ds := by
      rcases decodesTo_part hp with ⟨front, -, -, h⟩ | ⟨front, _, -, -, -, h⟩
      · exact ⟨_, h⟩
      · exact ⟨_, h⟩
    have hdec' : DecodesTo (t ++ p) (cs ++ ds) := by
      intro rest hrest
      rw [List.append_assoc, hdec _ (hhead rest hrest), hds rest hrest, List.append_assoc]
    refine ⟨cs ++ ds, hdec', by simp [hne], ?_, ?_⟩
    · intro hn
      rcases List.mem_append.mp hn with hn | hn
      · exact hnl hn
      · exact newline_not_mem_part hp hds hn
    · intro q hrun
      rw [Json.run_append] at hrun
      obtain ⟨r, hr, hrun⟩ := Option.bind_eq_some_iff.mp hrun
      exact run_part_open (hopen r hr) (Json.run_sound Json.Reader.initial_sound hr) hp hds q hrun

theorem Torn.ne_nil {t : List UInt8} (h : Torn ν t) : t ≠ [] := by
  induction h with
  | first _ hne _ => exact hne
  | more _ _ ih => exact fun hnil => ih (List.append_eq_nil_iff.mp hnil).1

theorem newline_not_mem_cut (h : p <+: Utf8.encode (mutationLine m)) : 0x0A ∉ p :=
  fun hn => Utf8.newline_not_mem_encode (newline_not_mem_mutationLine m) (h.subset hn)

theorem Torn.newline_not_mem {t : List UInt8} (h : Torn ν t) : 0x0A ∉ t := by
  induction h with
  | first hp _ _ => exact newline_not_mem_cut hp
  | more _ hp ih =>
    rw [List.mem_append]
    exact fun hn => hn.elim ih (newline_not_mem_cut hp)

end Mcpi.Session.Jsonl
