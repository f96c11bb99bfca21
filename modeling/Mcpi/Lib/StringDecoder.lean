import Mcpi.Lib.DecodedChunks
import Mcpi.Lib.Utf8Tail
import Mathlib.Data.List.TakeWhile

/-!
# The string decoder

Decoding UTF-8 bytes that come in chunks the way `StringDecoder` does it: a chunk gives its text
up to the last first byte that announces more bytes than have come, and what is held back goes
before the next chunk. Wherever the chunks are cut, the texts together are the text of all bytes.
-/

namespace Utf8

/-! ## Cuts that do not show -/

/-- The bytes that are still to come, within what a character can need. -/
def Decoder.Needs : Decoder → Nat → Prop
  | .start, n => n = 0
  | .pending _ needed lower upper, n => needed = n ∧ 0 < n ∧ 0x80 ≤ lower ∧ upper ≤ 0xBF

/-- How many bytes a first byte announces, where they are more than one. -/
def announced (b : UInt8) : Nat :=
  if b.toNat / 32 = 6 then 2
  else if b.toNat / 16 = 14 then 3
  else if b.toNat / 8 = 30 then 4
  else 0

/-- A first byte leaves needed what it announces, or nothing where it starts no character. -/
theorem needs_lead (b : UInt8) : ∃ n, (lead b.toNat).2.Needs n ∧ (n = 0 ∨ n + 1 = announced b) := by
  have hb := b.toNat_lt
  rw [lead]
  split
  · exact ⟨0, rfl, .inl rfl⟩
  split
  · refine ⟨1, ⟨rfl, Nat.one_pos, Nat.le_refl _, Nat.le_refl _⟩, .inr ?_⟩
    rw [announced, if_pos (by omega)]
  split
  · refine ⟨2, ⟨rfl, Nat.two_pos, ?_, ?_⟩, .inr ?_⟩
    · split <;> omega
    · split <;> omega
    · rw [announced, if_neg (by omega), if_pos (by omega)]
  split
  · refine ⟨3, ⟨rfl, by omega, ?_, ?_⟩, .inr ?_⟩
    · split <;> omega
    · split <;> omega
    · rw [announced, if_neg (by omega), if_neg (by omega), if_pos (by omega)]
  · exact ⟨0, rfl, .inl rfl⟩

variable {d : Decoder} {n : Nat} {b : UInt8}

/-- A continuation byte is the next that was needed, or ends the character. -/
theorem needs_step_continuation (hd : d.Needs n) (hb : isContinuation b = true) :
    ∃ m, (step d b.toNat).2.Needs m ∧ (m = 0 ∨ m + 1 = n) ∧ (n ≠ 1 → ∀ c ∈ (step d b.toNat).1, c = replacement) := by
  have hrange : 0x80 ≤ b.toNat ∧ b.toNat ≤ 0xBF := by
    simp only [isContinuation, decide_eq_true_eq] at hb
    omega
  have hlead : lead b.toNat = ([replacement], .start) := by
    rw [lead, if_neg (by omega), if_neg (by omega), if_neg (by omega), if_neg (by omega)]
  cases d with
  | start =>
    rw [step, hlead]
    exact ⟨0, rfl, .inl rfl, fun _ c hc => List.mem_singleton.mp hc⟩
  | pending codePoint needed lower upper =>
    obtain ⟨rfl, hpos, -, -⟩ := hd
    rw [step]
    split
    · split
      next hone => exact ⟨0, rfl, .inl rfl, fun h => absurd hone h⟩
      next hmore =>
        refine ⟨needed - 1, ⟨rfl, by omega, Nat.le_refl _, Nat.le_refl _⟩, .inr (by omega), ?_⟩
        exact fun _ c hc => absurd hc List.not_mem_nil
    · rw [hlead]
      exact ⟨0, rfl, .inl rfl, fun _ c hc => by simpa using hc⟩

theorem step_of_not_continuation (hd : d.Needs n) (hb : isContinuation b = false) :
    (step d b.toNat).1 = decodeFrom d [] ++ (lead b.toNat).1 ∧ (step d b.toNat).2 = (lead b.toNat).2 := by
  cases d with
  | start => exact ⟨rfl, rfl⟩
  | pending codePoint needed lower upper =>
    obtain ⟨-, -, hlower, hupper⟩ := hd
    have hb' : ¬ (lower ≤ b.toNat ∧ b.toNat ≤ upper) := by
      simp only [isContinuation, decide_eq_false_iff_not] at hb
      omega
    rw [step, if_neg hb']
    exact ⟨rfl, rfl⟩

theorem needs_feed (hd : d.Needs n) (bytes : List UInt8) : ∃ m, (feed d bytes).2.Needs m := by
  induction bytes generalizing d n with
  | nil => exact ⟨n, hd⟩
  | cons b bytes ih =>
    cases hb : isContinuation b with
    | true =>
      obtain ⟨m, hm, -, -⟩ := needs_step_continuation hd hb
      exact ih hm
    | false =>
      obtain ⟨m, hm, -⟩ := needs_lead b
      rw [← (step_of_not_continuation hd hb).2] at hm
      exact ih hm

theorem needs_feed_continuations (hd : d.Needs n) {bytes : List UInt8} (hbytes : ∀ b ∈ bytes, isContinuation b = true) :
    ∃ m, (feed d bytes).2.Needs m ∧ m ≤ n - bytes.length := by
  induction bytes generalizing d n with
  | nil => exact ⟨n, hd, Nat.le_refl _⟩
  | cons b bytes ih =>
    obtain ⟨m, hm, hmn, -⟩ := needs_step_continuation hd (hbytes b List.mem_cons_self)
    obtain ⟨k, hk, hkm⟩ := ih hm fun c hc => hbytes c (List.mem_cons_of_mem b hc)
    refine ⟨k, hk, ?_⟩
    rw [List.length_cons]
    omega

/-- Continuation bytes that complete nothing read as U+FFFD. -/
theorem decodeFrom_continuations (hd : d.Needs n) {bytes : List UInt8}
    (hbytes : ∀ b ∈ bytes, isContinuation b = true) (hlength : n = 0 ∨ bytes.length < n) :
    ∀ c ∈ decodeFrom d bytes, c = replacement := by
  induction bytes generalizing d n with
  | nil =>
    cases d with
    | start => exact fun c hc => absurd hc List.not_mem_nil
    | pending => exact fun c hc => List.mem_singleton.mp hc
  | cons b bytes ih =>
    obtain ⟨m, hm, hmn, htext⟩ := needs_step_continuation hd (hbytes b List.mem_cons_self)
    rw [List.length_cons] at hlength
    intro c hc
    rw [decodeFrom_cons] at hc
    rcases List.mem_append.mp hc with hc | hc
    · exact htext (by omega) c hc
    · exact ih hm (fun b' hb' => hbytes b' (List.mem_cons_of_mem b hb')) (by omega) c hc

theorem eq_start_of_needs_zero (h : d.Needs 0) : d = .start := by
  cases d with
  | start => rfl
  | pending => exact absurd h.2.1 (Nat.lt_irrefl 0)

theorem needs_start : Decoder.start.Needs 0 := rfl

theorem decode_append_of_feed {a : List UInt8} (h : (feed .start a).2 = .start) (rest : List UInt8) :
    decode (a ++ rest) = decode a ++ decode rest := by
  have hself := feed_decodeFrom .start a []
  rw [List.append_nil, h] at hself
  rw [decode, feed_decodeFrom, h]
  show _ = decodeFrom .start a ++ _
  rw [hself, decodeFrom, List.append_nil]
  rfl

/-- **A cut before a first byte** does not show. -/
theorem decode_append_of_not_continuation (a rest : List UInt8) (hb : isContinuation b = false) :
    decode (a ++ b :: rest) = decode a ++ decode (b :: rest) := by
  obtain ⟨n, hn⟩ := needs_feed needs_start a
  obtain ⟨htext, hnext⟩ := step_of_not_continuation hn hb
  have hself := feed_decodeFrom .start a []
  rw [List.append_nil] at hself
  rw [decode, feed_decodeFrom, decodeFrom_cons, htext, hnext]
  show _ = decodeFrom .start a ++ decodeFrom .start (b :: rest)
  rw [hself, decodeFrom_cons, step]
  simp only [List.append_assoc]

/-- Bytes that complete what their last first byte announces leave nothing pending. -/
theorem feed_completed {a conts : List UInt8} {first : UInt8} (hfirst : isContinuation first = false)
    (hconts : ∀ b ∈ conts, isContinuation b = true) (hlength : announced first ≤ conts.length + 1) :
    (feed .start (a ++ first :: conts)).2 = .start := by
  obtain ⟨n, hn⟩ := needs_feed needs_start a
  obtain ⟨m, hm, hmle⟩ := needs_lead first
  rw [← (step_of_not_continuation hn hfirst).2] at hm
  obtain ⟨k, hk, hkle⟩ := needs_feed_continuations hm hconts
  obtain rfl : k = 0 := by omega
  rw [feed_append]
  exact eq_start_of_needs_zero hk

theorem feed_continuations {conts : List UInt8} (hconts : ∀ b ∈ conts, isContinuation b = true) :
    (feed .start conts).2 = .start := by
  obtain ⟨m, hm, hle⟩ := needs_feed_continuations needs_start hconts
  obtain rfl : m = 0 := by omega
  exact eq_start_of_needs_zero hm

/-! ## The decoder -/

/-- `new StringDecoder("utf8")`: what is held back of a character, and how many bytes it lacks. -/
structure StringDecoder where
  buffered : List UInt8
  missing : Nat
  deriving DecidableEq

namespace StringDecoder

def init : StringDecoder := ⟨[], 0⟩

/-- Go on with the character that is held back: its text where it is complete or broken off by
a first byte, the decoder then, and the bytes that are left. -/
def finish (decoder : StringDecoder) (data : List UInt8) : List Char × StringDecoder × List UInt8 :=
  let wanted := data.take decoder.missing
  let found := wanted.takeWhile isContinuation
  let rest := data.drop found.length
  if found.length < wanted.length ∨ found.length = decoder.missing then
    (decode (decoder.buffered ++ found), init, rest)
  else
    ([], ⟨decoder.buffered ++ found, decoder.missing - found.length⟩, rest)

/-- The bytes at the end that a character lacks bytes behind, and how many it lacks. -/
def incomplete (data : List UInt8) : Nat × Nat :=
  let trailing := (data.reverse.takeWhile isContinuation).length
  match data.reverse[trailing]? with
  | some first =>
    if trailing + 1 < announced first then (trailing + 1, announced first - (trailing + 1)) else (0, 0)
  | none => (0, 0)

/-- Hold back what is incomplete. -/
def body (data : List UInt8) : List Char × StringDecoder :=
  let (held, missing) := incomplete data
  let cut := data.length - held
  (decode (data.take cut), ⟨data.drop cut, missing⟩)

/-- `decoder.write(data)` -/
def write (decoder : StringDecoder) (data : List UInt8) : List Char × StringDecoder :=
  let (prepended, decoder, data) := decoder.finish data
  if data = [] then (prepended, decoder)
  else
    let (text, decoder) := body data
    (prepended ++ text, decoder)

/-- `decoder.end()` -/
def finalText (decoder : StringDecoder) : List Char := decode decoder.buffered

/-! ## What is held back -/

/-- Nothing, or the beginning of a character that lacks bytes. -/
inductive Holds : StringDecoder → Prop
  | nothing : Holds init
  | beginning {first : UInt8} {conts : List UInt8} {missing : Nat} :
      isContinuation first = false → (∀ b ∈ conts, isContinuation b = true) → 0 < missing →
      conts.length + 1 + missing = announced first → Holds ⟨first :: conts, missing⟩

/-- The text of all that is still to come. -/
def remaining (decoder : StringDecoder) (rest : List UInt8) : List Char :=
  decode (decoder.buffered ++ rest)

variable {decoder : StringDecoder}

@[simp] theorem remaining_init (rest : List UInt8) : init.remaining rest = decode rest := rfl

/-- The continuation bytes in front, and what comes behind them. -/
theorem exists_continuations (data : List UInt8) :
    ∃ conts rest, data = conts ++ rest ∧ data.takeWhile isContinuation = conts ∧
      (∀ b ∈ conts, isContinuation b = true) ∧
      (rest = [] ∨ ∃ first tail, rest = first :: tail ∧ isContinuation first = false) := by
  refine ⟨_, _, List.takeWhile_append_dropWhile.symm, rfl, fun b => List.mem_takeWhile_imp, ?_⟩
  cases hrest : data.dropWhile isContinuation with
  | nil => exact .inl rfl
  | cons first tail =>
    right
    refine ⟨first, tail, rfl, ?_⟩
    have hhead := List.head?_dropWhile_not isContinuation data
    rw [hrest] at hhead
    simpa using hhead

theorem incomplete_append {before conts : List UInt8} {first : UInt8}
    (hfirst : isContinuation first = false) (hconts : ∀ b ∈ conts, isContinuation b = true) :
    incomplete (before ++ first :: conts) =
      if conts.length + 1 < announced first then
        (conts.length + 1, announced first - (conts.length + 1))
      else (0, 0) := by
  have hreverse : (before ++ first :: conts).reverse = conts.reverse ++ first :: before.reverse := by
    simp
  have htrailing : (before ++ first :: conts).reverse.takeWhile isContinuation = conts.reverse := by
    rw [hreverse, List.takeWhile_append_of_pos (by simpa using hconts),
      List.takeWhile_cons_of_neg (by simp [hfirst]), List.append_nil]
  rw [incomplete, htrailing, hreverse]
  simp

theorem incomplete_continuations {conts : List UInt8} (hconts : ∀ b ∈ conts, isContinuation b = true) :
    incomplete conts = (0, 0) := by
  have htrailing : conts.reverse.takeWhile isContinuation = conts.reverse := by
    rw [List.takeWhile_eq_self_iff]
    simpa using hconts
  rw [incomplete, htrailing]
  simp

/-- A chunk that leaves nothing pending is given whole. -/
theorem body_of_complete {data : List UInt8} (h : incomplete data = (0, 0)) : body data = (decode data, init) := by
  rw [body, h]
  simp [init]

/-- A chunk gives its text up to what is held back. -/
theorem body_spec (data rest : List UInt8) :
    decode (data ++ rest) = (body data).1 ++ (body data).2.remaining rest ∧ (body data).2.Holds := by
  obtain ⟨conts, before, hdata, -, hconts, hbefore⟩ := exists_continuations data.reverse
  have hconts' : ∀ b ∈ conts.reverse, isContinuation b = true := fun b hb =>
    hconts b (List.mem_reverse.mp hb)
  rcases hbefore with rfl | ⟨first, before, rfl, hfirst⟩
  · obtain rfl : data = conts.reverse := by
      rw [← List.reverse_reverse data, hdata, List.append_nil]
    rw [body_of_complete (incomplete_continuations hconts')]
    exact ⟨decode_append_of_feed (feed_continuations hconts') rest, .nothing⟩
  · obtain rfl : data = before.reverse ++ first :: conts.reverse := by
      rw [← List.reverse_reverse data, hdata]
      simp
    have hincomplete : incomplete (before.reverse ++ first :: conts.reverse) = _ :=
      incomplete_append hfirst hconts'
    by_cases hlacks : conts.reverse.length + 1 < announced first
    · rw [if_pos hlacks] at hincomplete
      have hbody : body (before.reverse ++ first :: conts.reverse) = (decode before.reverse,
            ⟨first :: conts.reverse, announced first - (conts.reverse.length + 1)⟩) := by
        rw [body, hincomplete]
        simp
      rw [hbody, List.append_assoc, List.cons_append]
      refine ⟨decode_append_of_not_continuation _ _ hfirst, .beginning hfirst hconts' ?_ ?_⟩
      · omega
      · omega
    · rw [if_neg hlacks] at hincomplete
      rw [body_of_complete hincomplete]
      refine ⟨decode_append_of_feed ?_ rest, .nothing⟩
      exact feed_completed hfirst hconts' (Nat.le_of_not_lt hlacks)

/-- What goes on with a character gives its text once it is known where it ends. -/
theorem finish_spec (h : decoder.Holds) (data rest : List UInt8) :
    decoder.remaining (data ++ rest) = (decoder.finish data).1 ++
          (decoder.finish data).2.1.remaining ((decoder.finish data).2.2 ++ rest) ∧
      (decoder.finish data).2.1.Holds ∧
      ((decoder.finish data).2.2 ≠ [] → (decoder.finish data).2.1 = init) := by
  cases h with
  | nothing => exact ⟨rfl, .nothing, fun _ => rfl⟩
  | @beginning first conts missing hfirst hconts hmissing hlength =>
    obtain ⟨found, behind, hwanted, hfound, hcont, hbehind⟩ := exists_continuations (data.take missing)
    have hsplit : data = found ++ (behind ++ data.drop missing) := by
      rw [← List.append_assoc, ← hwanted, List.take_append_drop]
    have hdrop : data.drop found.length = behind ++ data.drop missing := by
      conv_lhs => rw [hsplit]
      rw [List.drop_left]
    have hlengths : (data.take missing).length = found.length + behind.length := by
      rw [hwanted, List.length_append]
    have hle : found.length + behind.length ≤ missing := by
      rw [← hlengths]
      exact List.length_take_le _ _
    have hall : ∀ b ∈ conts ++ found, isContinuation b = true := fun b hb =>
      (List.mem_append.mp hb).elim (hconts b) (hcont b)
    rw [finish]
    dsimp only
    rw [hfound, hlengths, hdrop]
    split
    next hends =>
      refine ⟨?_, .nothing, fun _ => rfl⟩
      have htext : (first :: conts) ++ (data ++ rest) =
          (first :: conts ++ found) ++ (behind ++ data.drop missing ++ rest) := by
        conv_lhs => rw [hsplit]
        simp only [List.append_assoc]
      rw [remaining, htext, remaining_init]
      rcases hbehind with rfl | ⟨b, tail, rfl, hb⟩
      · -- all bytes that were missing have come
        apply decode_append_of_feed
        apply feed_completed (a := []) hfirst hall
        rw [List.length_append]
        simp only [List.length_nil] at hends
        omega
      · exact decode_append_of_not_continuation _ _ hb
    next hgoes =>
      obtain rfl : behind = [] := List.eq_nil_of_length_eq_zero (by omega)
      have hnone : data.drop missing = [] := by
        rw [List.drop_eq_nil_iff]
        have hlen := hlengths
        rw [List.length_take, List.length_nil] at hlen
        omega
      rw [hnone]
      refine ⟨?_, .beginning hfirst hall (by omega) ?_, fun h => absurd rfl h⟩
      · rw [hnone, List.append_nil, List.append_nil] at hsplit
        rw [hsplit]
        simp only [remaining, List.nil_append, List.append_assoc, List.cons_append]
      · show (conts ++ found).length + 1 + (missing - found.length) = announced first
        rw [List.length_append]
        omega

/-- **The streaming law**: what a chunk gives and what remains are what remained before it. -/
theorem write_spec (h : decoder.Holds) (data rest : List UInt8) :
    decoder.remaining (data ++ rest) = (decoder.write data).1 ++ (decoder.write data).2.remaining rest ∧
      (decoder.write data).2.Holds := by
  obtain ⟨htext, hholds, hinit⟩ := finish_spec h data rest
  rw [write]
  dsimp only
  split
  next hnil =>
    rw [hnil, List.nil_append] at htext
    exact ⟨htext, hholds⟩
  next hleft =>
    obtain ⟨hbody, hheld⟩ := body_spec (decoder.finish data).2.2 rest
    refine ⟨?_, hheld⟩
    rw [htext, hinit hleft, List.append_assoc, ← hbody]
    rfl

theorem remaining_nil (decoder : StringDecoder) : decoder.remaining [] = decoder.finalText := by
  rw [remaining, List.append_nil]
  rfl

theorem finalText_eq (h : decoder.Holds) : ∀ c ∈ decoder.finalText, c = replacement := by
  cases h with
  | nothing => exact fun c hc => absurd hc List.not_mem_nil
  | @beginning first conts missing hfirst hconts hmissing hlength =>
    obtain ⟨n, hn, hneeds⟩ := needs_lead first
    have hlead : ∀ c ∈ (lead first.toNat).1, c = replacement := by
      have hannounced : announced first ≠ 0 := by omega
      rw [lead]
      split
      next hascii =>
        rw [announced, if_neg (by omega), if_neg (by omega), if_neg (by omega)] at hannounced
        exact absurd rfl hannounced
      next => split_ifs <;> simp
    intro c hc
    rw [finalText, decode, decodeFrom_cons, step] at hc
    rcases List.mem_append.mp hc with hc | hc
    · exact hlead c hc
    · exact decodeFrom_continuations hn hconts (by omega) c hc

end StringDecoder

end Utf8
