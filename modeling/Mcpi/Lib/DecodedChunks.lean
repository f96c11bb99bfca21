import Mcpi.Lib.TextDecoder

/-!
# The texts of a stream of chunks

What a streaming decoder gives for each chunk of a stream. Together the texts are the text that the bytes encode, and
they are cut where the chunks are cut, up to a character that is cut itself.
-/

namespace Utf8

/-- The texts of the chunks, and what comes at the end of the stream. -/
def TextDecoder.decodeChunks (t : TextDecoder) : List (List UInt8) → List (List Char) × List Char
  | [] => ([], t.decodeEnd)
  | data :: chunks =>
    let (text, t) := t.decodeStream data
    let (texts, last) := t.decodeChunks chunks
    (text :: texts, last)

variable {c : Char} {d : Decoder} {text before : List Char} {chunks : List (List UInt8)}

/-! ## What bytes complete -/

theorem feed_append (d : Decoder) (a b : List UInt8) :
    feed d (a ++ b) = ((feed d a).1 ++ (feed (feed d a).2 b).1, (feed (feed d a).2 b).2) := by
  induction a generalizing d with
  | nil => rfl
  | cons x a ih =>
    rw [List.cons_append, feed, feed]
    dsimp only
    rw [ih, List.append_assoc]

theorem Spells.feed_eq {bytes : List UInt8} (h : Spells d bytes c) : feed d bytes = ([c], .start) := by
  induction h with
  | last hstep =>
    rw [feed, hstep]
    rfl
  | more hstep _ _ ih =>
    rw [feed, hstep]
    dsimp only
    rw [ih]
    rfl

theorem Spells.feed_torn {bytes p q : List UInt8} (h : Spells d bytes c) (hpq : p ++ q = bytes) (hq : q ≠ []) :
    (feed d p).1 = [] := by
  induction h generalizing p with
  | last hstep =>
    cases p with
    | nil => rfl
    | cons x p =>
      obtain ⟨-, hnil⟩ := List.cons.inj hpq
      exact absurd (List.append_eq_nil_iff.mp hnil).2 hq
  | more hstep _ _ ih =>
    cases p with
    | nil => rfl
    | cons x p =>
      obtain ⟨rfl, hrest⟩ := List.cons.inj hpq
      rw [feed, hstep]
      dsimp only
      rw [ih hrest]
      rfl

theorem feed_encode (text : List Char) : feed .start (encode text) = (text, .start) := by
  induction text with
  | nil => rfl
  | cons c text ih => rw [encode_cons, feed_append, (spells_utf8EncodeChar c).feed_eq, ih, List.singleton_append]

theorem feed_encode_torn {torn : List UInt8} (h : Torn c torn) : (feed .start (encode text ++ torn)).1 = text := by
  obtain ⟨-, rest, hrest, heq⟩ := h
  rw [feed_append, feed_encode, (spells_utf8EncodeChar c).feed_torn heq hrest, List.append_nil]

/-! ## What chunks give -/

/-- The decoder after some chunks. -/
def TextDecoder.after (t : TextDecoder) : List (List UInt8) → TextDecoder
  | [] => t
  | data :: chunks => (t.decodeStream data).2.after chunks

namespace TextDecoder

variable {t : TextDecoder}

theorem decodeChunks_append (t : TextDecoder) (taken rest : List (List UInt8)) :
    t.decodeChunks (taken ++ rest) =
      ((t.decodeChunks taken).1 ++ ((t.after taken).decodeChunks rest).1, ((t.after taken).decodeChunks rest).2) := by
  induction taken generalizing t with
  | nil => rfl
  | cons data taken ih =>
    rw [List.cons_append, decodeChunks, decodeChunks]
    dsimp only
    rw [ih]
    rfl

theorem length_decodeChunks (t : TextDecoder) (chunks : List (List UInt8)) :
    (t.decodeChunks chunks).1.length = chunks.length := by
  induction chunks generalizing t with
  | nil => rfl
  | cons data chunks ih => exact congrArg (· + 1) (ih _)

theorem flatten_decodeChunks (t : TextDecoder) (chunks : List (List UInt8)) :
    (t.decodeChunks chunks).1.flatten = (stripBom t.bomSeen (feed t.decoder chunks.flatten).1).1 := by
  induction chunks generalizing t with
  | nil => rfl
  | cons data chunks ih =>
    rw [List.flatten_cons, feed_append, stripBom_append]
    exact congrArg (_ ++ ·) (ih _)

theorem last_decodeChunks (t : TextDecoder) (chunks : List (List UInt8)) :
    (t.decodeChunks chunks).2 = (t.after chunks).decodeEnd := by
  induction chunks generalizing t with
  | nil => rfl
  | cons data chunks ih => exact ih _

theorem decoder_after (t : TextDecoder) (chunks : List (List UInt8)) :
    (t.after chunks).decoder = (feed t.decoder chunks.flatten).2 := by
  induction chunks generalizing t with
  | nil => rfl
  | cons data chunks ih =>
    rw [List.flatten_cons, feed_append]
    exact ih _

end TextDecoder

open TextDecoder

theorem stripBom_of_head {text : List Char} (h : text.head? ≠ some '\uFEFF') : (stripBom false text).1 = text := by
  cases text with
  | nil => rfl
  | cons c text =>
    rw [stripBom, if_neg]
    intro hbom
    rw [Bool.not_false, Bool.true_and, decide_eq_true_eq] at hbom
    exact h (congrArg some hbom)

theorem decodeChunks_encode (hbom : text.head? ≠ some '\uFEFF') (h : chunks.flatten = encode text) :
    (init.decodeChunks chunks).1.flatten = text ∧ (init.decodeChunks chunks).2 = [] := by
  constructor
  · rw [flatten_decodeChunks, h]
    show (stripBom false (feed .start (encode text)).1).1 = text
    rw [feed_encode, stripBom_of_head hbom]
  · have hstart : (init.after chunks).decoder = .start := by
      rw [decoder_after, h]
      show (feed .start (encode text)).2 = .start
      rw [feed_encode]
    rw [last_decodeChunks, decodeEnd, remaining, hstart]
    rfl

/-- Chunks end where texts end, before an ASCII character. -/
theorem cut_decodeChunks_iff {more : List Char} (hascii : c.toNat ≤ 0x7F)
    (hbom : (before ++ [c]).head? ≠ some '\uFEFF') (h : chunks.flatten = encode (before ++ c :: more)) :
    (∃ taken rest, (init.decodeChunks chunks).1 = taken ++ rest ∧ taken.flatten = before) ↔
      ∃ taken rest, chunks = taken ++ rest ∧ taken.flatten = encode before := by
  have hstrip : ∀ text, text <+: before → (stripBom false text).1 = text := by
    intro text hprefix
    apply stripBom_of_head
    cases text with
    | nil => exact fun h => nomatch h
    | cons b text =>
      obtain ⟨tail, rfl⟩ := hprefix
      exact hbom
  constructor
  · rintro ⟨taken, rest, heq, htaken⟩
    have hlen : taken.length ≤ chunks.length := by
      rw [← length_decodeChunks init chunks, heq, List.length_append]
      omega
    refine ⟨chunks.take taken.length, chunks.drop taken.length, (List.take_append_drop _ _).symm, ?_⟩
    have hsplit := decodeChunks_append init (chunks.take taken.length) (chunks.drop taken.length)
    rw [List.take_append_drop] at hsplit
    have hfirst : (init.decodeChunks (chunks.take taken.length)).1 = taken := by
      have hpair := congrArg Prod.fst hsplit
      rw [heq] at hpair
      refine (List.append_inj hpair ?_).1.symm
      rw [length_decodeChunks, List.length_take]
      omega
    have htext := flatten_decodeChunks init (chunks.take taken.length)
    rw [hfirst, htaken] at htext
    have hcut : (chunks.take taken.length).flatten <+: encode (before ++ c :: more) := by
      rw [← h]
      refine ⟨(chunks.drop taken.length).flatten, ?_⟩
      rw [← List.flatten_append, List.take_append_drop]
    -- the bytes so far complete what comes before
    have hfront : ∀ front, front <+: before ++ c :: more → before = (stripBom false front).1 → before = front := by
      intro front hprefix heq
      rw [heq]
      apply stripBom_of_head
      intro hhead
      cases front with
      | nil => cases hhead
      | cons b front =>
        obtain ⟨tail, htail⟩ := hprefix
        apply hbom
        rw [← hhead]
        cases before with
        | nil =>
          obtain ⟨rfl, -⟩ := List.cons.inj htail
          rfl
        | cons b' before =>
          obtain ⟨rfl, -⟩ := List.cons.inj htail
          rfl
    rcases prefix_encode hcut with ⟨front, hprefix, hbytes⟩ | ⟨front, char, torn, hprefix, hbytes, htorn⟩
    · rw [hbytes] at htext ⊢
      have hfeed : (feed init.decoder (encode front)).1 = front := by
        show (feed .start (encode front)).1 = front
        rw [feed_encode]
      rw [hfeed] at htext
      rw [hfront front hprefix htext]
    · rw [hbytes] at htext
      have hfeed : (feed init.decoder (encode front ++ torn)).1 = front := feed_encode_torn htorn
      rw [hfeed] at htext
      obtain rfl := hfront front ((List.prefix_append _ _).trans hprefix) htext
      obtain ⟨tail, htail⟩ := hprefix
      rw [List.append_assoc] at htail
      obtain ⟨rfl, -⟩ := List.cons.inj (List.append_cancel_left htail)
      exact absurd htorn.not_ascii (by omega)
  · rintro ⟨taken, rest, rfl, htaken⟩
    refine ⟨_, _, congrArg Prod.fst (decodeChunks_append init taken rest), ?_⟩
    rw [flatten_decodeChunks, htaken]
    show (stripBom false (feed .start (encode before)).1).1 = before
    rw [feed_encode, hstrip before (List.prefix_refl before)]

end Utf8
