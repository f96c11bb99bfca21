import Mcpi.Tui.InputReader

/-!
# Input in chunks

How the input is cut into chunks matters where a sequence is complete before the text that follows it says
otherwise: two escapes of which the second begins a sequence, and a sequence that ends inside the start of a
paste. Input without such a place is read in the same way in any chunks, any other one is not.
-/

namespace Mcpi.Tui

namespace StdinBuffer

/-- The text up to the start of a paste: it ends with the first start in it, and no sequence is complete
before that. -/
structure LeadsToPaste (before : Text) : Prop where
  incomplete : ∀ k, 0 < k → k < before.length + bracketedPasteStart.length →
    isCompleteSequence ((before ++ bracketedPasteStart).take k) = .incomplete
  first : ∀ j < before.length, ¬ bracketedPasteStart <+: (before ++ bracketedPasteStart).drop j

/-- The content of a paste: the end that follows it is the first one. -/
def IsContent (content : Text) : Prop :=
  ∀ j < content.length, ¬ bracketedPasteEnd <+: (content ++ bracketedPasteEnd).drop j

/-- A sequence that the text behind it leaves as it is: no paste starts in it, and it is not two escapes of
which the second begins another one. -/
structure Stands (sequence rest : Text) : Prop where
  isSequence : IsSequence sequence
  noStart : ∀ j < sequence.length, ¬ bracketedPasteStart <+: (sequence ++ rest).drop j
  noEscape : ¬ (sequence = [esc, esc] ∧ introduces rest.head? = true)

/-- **Unambiguous input**, in paste mode or out of it: a sequence that is complete stands. -/
inductive Unambiguous : Bool → Text → Prop
  | nil : Unambiguous false []
  | char {c : UInt16} {rest : Text} : c ≠ esc → Unambiguous false rest → Unambiguous false (c :: rest)
  | sequence {sequence rest : Text} : Stands sequence rest → Unambiguous false rest →
      Unambiguous false (sequence ++ rest)
  | incomplete {text : Text} : Incomplete text →
      Search.indexOf bracketedPasteStart text = none → Unambiguous false text
  | pasteStart {before rest : Text} : LeadsToPaste before → Unambiguous true rest →
      Unambiguous false (before ++ bracketedPasteStart ++ rest)
  | pasteOpen {text : Text} : Search.indexOf bracketedPasteEnd text = none → Unambiguous true text
  | pasteEnd {content rest : Text} : IsContent content → Unambiguous false rest →
      Unambiguous true (content ++ bracketedPasteEnd ++ rest)

/-! ## Reading the beginning of a text -/

/-- What begins in a text, and ends in the first part of it, begins in that part. -/
theorem begins_of_append {pattern text text' : Text} {j : Nat}
    (h : pattern <+: (text ++ text').drop j) (hle : j + pattern.length ≤ text.length) :
    pattern <+: text.drop j := by
  rw [List.drop_append_of_le_length (by omega)] at h
  refine List.prefix_of_prefix_length_le h (List.prefix_append _ _) ?_
  rw [List.length_drop]
  omega

/-- A marker that is the first one in a text stays it when more text comes. -/
theorem indexOf_marker {marker before : Text}
    (hfirst : ∀ j < before.length, ¬ marker <+: (before ++ marker).drop j) (rest : Text) :
    Search.indexOf marker (before ++ marker ++ rest) = some before.length := by
  rw [Search.indexOf_eq_some]
  refine ⟨?_, ?_, fun j hj hbegins => ?_⟩
  · rw [List.append_assoc, List.drop_left]
    exact List.prefix_append _ _
  · rw [List.append_assoc, List.length_append]
    exact Nat.le_add_right _ _
  · refine hfirst j hj (begins_of_append hbegins ?_)
    rw [List.length_append]
    omega

theorem drop_marker (before marker rest : Text) :
    (before ++ marker ++ rest).drop (before.length + marker.length) = rest := by
  rw [← List.length_append, List.drop_left]

theorem read_char {c : UInt16} (hc : c ≠ esc) (rest : Text) :
    read false (c :: rest) = (read false rest).after [.sequence [c]] := by
  have hindex : Search.indexOf bracketedPasteStart (c :: rest) =
      (Search.indexOf bracketedPasteStart rest).map (· + 1) := by
    refine @Search.indexOf_append _ _ bracketedPasteStart [c] rest fun j hj hbegins => ?_
    obtain rfl : j = 0 := Nat.lt_one_iff.mp hj
    exact hc (List.cons_prefix_cons.mp hbegins).1.symm
  cases hstart : Search.indexOf bracketedPasteStart rest with
  | none =>
    rw [hstart] at hindex
    rw [read_sequences hindex, read_sequences hstart, extract_char hc]
    rfl
  | some startIndex =>
    rw [hstart] at hindex
    rw [read_start hindex, read_start hstart, List.take_succ_cons, extract_char hc,
      show startIndex + 1 + bracketedPasteStart.length = startIndex + bracketedPasteStart.length + 1 by omega]
    rfl

theorem read_sequence {sequence rest : Text} (h : Stands sequence rest) :
    read false (sequence ++ rest) = (read false rest).after [.sequence sequence] := by
  have hindex := Search.indexOf_append h.noStart
  cases hstart : Search.indexOf bracketedPasteStart rest with
  | none =>
    rw [hstart] at hindex
    rw [read_sequences hindex, read_sequences hstart, extract_sequence h.isSequence h.noEscape]
    rfl
  | some startIndex =>
    rw [hstart] at hindex
    have htake : (sequence ++ rest).take (startIndex + sequence.length) = sequence ++ rest.take startIndex := by
      rw [Nat.add_comm, List.take_length_add_append]
    have hdrop : (sequence ++ rest).drop (startIndex + sequence.length + bracketedPasteStart.length) =
          rest.drop (startIndex + bracketedPasteStart.length) := by
      rw [show startIndex + sequence.length + bracketedPasteStart.length =
        sequence.length + (startIndex + bracketedPasteStart.length) by omega,
        List.drop_length_add_append]
    have hescape : ¬ (sequence = [esc, esc] ∧ introduces (rest.take startIndex).head? = true) := by
      rintro ⟨htwo, hintro⟩
      cases startIndex with
      | zero =>
        rw [List.take_zero] at hintro
        cases hintro
      | succ startIndex =>
        cases rest with
        | nil => cases hintro
        | cons c rest => exact h.noEscape ⟨htwo, hintro⟩
    rw [read_start hindex, read_start hstart, htake, hdrop, extract_sequence h.isSequence hescape]
    rfl

theorem read_incomplete {text : Text} (h : Incomplete text) (hstart : Search.indexOf bracketedPasteStart text = none) :
    read false text = ([], false, text) := by
  rw [read_sequences hstart, extract_incomplete h]
  rfl

theorem LeadsToPaste.incomplete_before {before : Text} (h : LeadsToPaste before) : Incomplete before := by
  intro k hpos hle
  have hk := h.incomplete k hpos (by
    have hmarker : 0 < bracketedPasteStart.length := by decide
    omega)
  rwa [List.take_append_of_le_length hle] at hk

theorem read_pasteStart {before : Text} (h : LeadsToPaste before) (rest : Text) :
    read false (before ++ bracketedPasteStart ++ rest) = (read true rest).after [.pasteStart] := by
  rw [read_start (indexOf_marker h.first rest), drop_marker, List.append_assoc, List.take_left,
    extract_incomplete h.incomplete_before]
  rfl

theorem read_pasteEnd {content : Text} (h : IsContent content) (rest : Text) :
    read true (content ++ bracketedPasteEnd ++ rest) = (read false rest).after [.paste content] := by
  rw [read_paste (indexOf_marker h rest), drop_marker, List.append_assoc, List.take_left]

/-! ## Two parts -/

/-- Reading two parts of a text one after the other. -/
structure ReadsInParts (pasteMode : Bool) (text text' : Text) : Prop where
  eq : read pasteMode (text ++ text') = (read (read pasteMode text).2.1 ((read pasteMode text).2.2 ++ text')).after
      (read pasteMode text).1
  unambiguous : Unambiguous (read pasteMode text).2.1 ((read pasteMode text).2.2 ++ text')

variable {text text' : Text}

theorem ReadsInParts.of_held {pasteMode : Bool}
    (h : Unambiguous pasteMode (text ++ text')) (hheld : read pasteMode text = ([], pasteMode, text)) :
    ReadsInParts pasteMode text text' := by
  refine ⟨?_, ?_⟩
  · rw [hheld]
    rfl
  · rw [hheld]
    exact h

/-- The beginning of the first part is read in the same way with and without the second one. -/
theorem ReadsInParts.after {pasteMode pasteMode' : Bool} {text text' rest : Text}
    {pieces : List Piece} (h : ReadsInParts pasteMode' rest text')
    (hfirst : read pasteMode text = (read pasteMode' rest).after pieces)
    (hboth : read pasteMode (text ++ text') = (read pasteMode' (rest ++ text')).after pieces) :
    ReadsInParts pasteMode text text' := by
  refine ⟨?_, ?_⟩
  · rw [hboth, hfirst, h.eq]
    unfold Reading.after
    rw [List.append_assoc]
  · rw [hfirst]
    exact h.unambiguous

theorem Incomplete.of_append (h : Incomplete (text ++ text')) : Incomplete text := by
  intro k hpos hle
  have hk := h k hpos (by rw [List.length_append]; omega)
  rwa [List.take_append_of_le_length hle] at hk

theorem indexOf_none_of_append {marker text text' : Text}
    (h : Search.indexOf marker (text ++ text') = none) : Search.indexOf marker text = none := by
  rw [Search.indexOf_eq_none] at h ⊢
  intro j hj hbegins
  exact h j (by rw [List.length_append]; omega) (Search.begins_append hbegins hj)

/-- A marker that has not been read to its end is not found. -/
theorem indexOf_none_of_short {marker before text text' : Text}
    (hfirst : ∀ j < before.length, ¬ marker <+: (before ++ marker).drop j)
    (htext : text ++ text' = before ++ marker) (hshort : text' ≠ []) :
    Search.indexOf marker text = none := by
  rw [Search.indexOf_eq_none]
  intro j hj hbegins
  have hlength := congrArg List.length htext
  rw [List.length_append, List.length_append] at hlength
  have hpos := List.length_pos_iff.mpr hshort
  have hfits := hbegins.length_le
  rw [List.length_drop] at hfits
  refine hfirst j (by omega) ?_
  rw [← htext]
  exact Search.begins_append hbegins hj

theorem Stands.of_append {sequence rest rest' : Text} (h : Stands sequence (rest ++ rest')) : Stands sequence rest := by
  refine ⟨h.isSequence, fun j hj hbegins => ?_, fun hescape => ?_⟩
  · refine h.noStart j hj ?_
    rw [← List.append_assoc]
    exact Search.begins_append hbegins (by rw [List.length_append]; omega)
  · refine h.noEscape ⟨hescape.1, ?_⟩
    cases rest with
    | nil => cases hescape.2
    | cons c rest => exact hescape.2

theorem Stands.read_short {sequence rest text text' : Text} (h : Stands sequence rest)
    (htext : sequence = text ++ text') (hshort : text' ≠ []) :
    read false text = ([], false, text) := by
  have hpos := List.length_pos_iff.mpr hshort
  apply read_incomplete
  · intro k hk hle
    have hfirst := h.isSequence.first k hk (by rw [htext, List.length_append]; omega)
    rwa [htext, List.take_append_of_le_length hle] at hfirst
  · rw [Search.indexOf_eq_none]
    intro j hj hbegins
    refine h.noStart j (by rw [htext, List.length_append]; omega) ?_
    rw [htext, List.append_assoc]
    exact Search.begins_append hbegins hj

/-- **Unambiguous input can be cut anywhere.** -/
theorem readsInParts {pasteMode : Bool} {whole : Text} (h : Unambiguous pasteMode whole)
    (hwhole : text ++ text' = whole) : ReadsInParts pasteMode text text' := by
  induction h generalizing text text' with
  | nil =>
    obtain ⟨rfl, rfl⟩ := List.append_eq_nil_iff.mp hwhole
    exact .of_held .nil rfl
  | @char c rest hc hrest ih =>
    cases text with
    | nil =>
      obtain rfl : text' = c :: rest := hwhole
      exact .of_held (.char hc hrest) (read_nil _)
    | cons c' text =>
      obtain ⟨rfl, hrest'⟩ := List.cons.inj hwhole
      exact (ih hrest').after (read_char hc text) (read_char hc (text ++ text'))
  | @sequence sequence rest hstands hrest ih =>
    -- the cut is in the sequence, or behind it
    rcases List.append_eq_append_iff.mp hwhole with ⟨more, hsequence, htext'⟩ | ⟨more, htext, hmore⟩
    · by_cases hshort : more = []
      · subst hshort
        rw [List.append_nil] at hsequence
        rw [List.nil_append] at htext'
        subst hsequence htext'
        have hread := read_sequence (@Stands.of_append _ [] _ hstands)
        rw [List.append_nil] at hread
        exact (ih (List.nil_append text')).after hread (read_sequence hstands)
      · -- a sequence that is cut is held back
        refine .of_held ?_ (hstands.read_short hsequence hshort)
        rw [hwhole]
        exact .sequence hstands hrest
    · subst htext hmore
      refine (ih rfl).after (read_sequence hstands.of_append) ?_
      rw [List.append_assoc]
      exact read_sequence hstands
  | @incomplete whole hincomplete hstart =>
    subst hwhole
    exact .of_held (.incomplete hincomplete hstart)
      (read_incomplete hincomplete.of_append (indexOf_none_of_append hstart))
  | @pasteStart before rest hleads hrest ih =>
    -- the cut is before the end of the start marker, or behind it
    rcases List.append_eq_append_iff.mp hwhole with ⟨more, hbefore, htext'⟩ | ⟨more, htext, hmore⟩
    · by_cases hshort : more = []
      · subst hshort
        rw [List.append_nil] at hbefore
        rw [List.nil_append] at htext'
        subst htext'
        have hread := read_pasteStart hleads []
        rw [List.append_nil, hbefore] at hread
        refine (ih (List.nil_append text')).after hread ?_
        rw [← hbefore]
        exact read_pasteStart hleads text'
      · refine .of_held ?_ (read_incomplete ?_ (indexOf_none_of_short hleads.first hbefore.symm hshort))
        · rw [hwhole]
          exact .pasteStart hleads hrest
        · have hlength := congrArg List.length hbefore
          rw [List.length_append, List.length_append] at hlength
          have hpos := List.length_pos_iff.mpr hshort
          intro k hk hle
          have hbegin := hleads.incomplete k hk (by omega)
          rwa [hbefore, List.take_append_of_le_length hle] at hbegin
    · subst htext hmore
      refine (ih rfl).after (read_pasteStart hleads more) ?_
      rw [List.append_assoc]
      exact read_pasteStart hleads (more ++ text')
  | @pasteOpen whole hend =>
    subst hwhole
    exact .of_held (.pasteOpen hend) (read_open (indexOf_none_of_append hend))
  | @pasteEnd content rest hcontent hrest ih =>
    -- the cut is in the paste or its end marker, or behind them
    rcases List.append_eq_append_iff.mp hwhole with ⟨more, hbefore, htext'⟩ | ⟨more, htext, hmore⟩
    · by_cases hshort : more = []
      · subst hshort
        rw [List.append_nil] at hbefore
        rw [List.nil_append] at htext'
        subst htext'
        have hread := read_pasteEnd hcontent []
        rw [List.append_nil, hbefore] at hread
        refine (ih (List.nil_append text')).after hread ?_
        rw [← hbefore]
        exact read_pasteEnd hcontent text'
      · refine .of_held ?_ (read_open (indexOf_none_of_short hcontent hbefore.symm hshort))
        rw [hwhole]
        exact .pasteEnd hcontent hrest
    · subst htext hmore
      refine (ih rfl).after (read_pasteEnd hcontent more) ?_
      rw [List.append_assoc]
      exact read_pasteEnd hcontent (more ++ text')

/-! ## Ambiguous input -/

/-- **Ambiguous input**: after some unambiguous text a sequence is complete, and does not stand. -/
inductive Ambiguous : Bool → Text → Prop
  | escape {rest : Text} : introduces rest.head? = true → ¬ bracketedPasteStart <+: esc :: rest →
      Ambiguous false (esc :: esc :: rest)
  | inStart {sequence rest : Text} {j : Nat} : IsSequence sequence → 0 < j → j < sequence.length →
      sequence.length < j + bracketedPasteStart.length →
        Search.indexOf bracketedPasteStart (sequence ++ rest) = some j → Ambiguous false (sequence ++ rest)
  | char {c : UInt16} {rest : Text} : c ≠ esc → Ambiguous false rest → Ambiguous false (c :: rest)
  | sequence {sequence rest : Text} : Stands sequence rest → Ambiguous false rest →
      Ambiguous false (sequence ++ rest)
  | pasteStart {before rest : Text} : LeadsToPaste before → Ambiguous true rest →
      Ambiguous false (before ++ bracketedPasteStart ++ rest)
  | pasteEnd {content rest : Text} : IsContent content → Ambiguous false rest →
      Ambiguous true (content ++ bracketedPasteEnd ++ rest)

/-- The text in three parts, at the first start of a paste. -/
theorem first_of_indexOf {marker text : Text} {i : Nat} (h : Search.indexOf marker text = some i) :
    ∃ before rest, text = before ++ marker ++ rest ∧ before.length = i ∧
      ∀ j < before.length, ¬ marker <+: (before ++ marker).drop j := by
  obtain ⟨-, hle, hnone⟩ := Search.indexOf_eq_some.mp h
  have hsplit := Search.split_of_indexOf h
  have hlength : (text.take i).length = i := by
    rw [List.length_take]
    omega
  refine ⟨text.take i, _, hsplit.symm, hlength, fun j hj hbegins => ?_⟩
  refine hnone j (hlength ▸ hj) ?_
  rw [← hsplit]
  exact Search.begins_append hbegins (by rw [List.length_append]; omega)

/-! ### Where a text begins -/

/-- Unambiguous or not -/
def Told (pasteMode : Bool) (text : Text) : Prop := Unambiguous pasteMode text ∨ Ambiguous pasteMode text

theorem told_pasteEnd {content rest : Text} (hcontent : IsContent content) (hrest : Told false rest) :
    Told true (content ++ bracketedPasteEnd ++ rest) :=
  hrest.imp (.pasteEnd hcontent) (.pasteEnd hcontent)

theorem told_pasteStart {before rest : Text} (hbefore : LeadsToPaste before) (hrest : Told true rest) :
    Told false (before ++ bracketedPasteStart ++ rest) :=
  hrest.imp (.pasteStart hbefore) (.pasteStart hbefore)

/-- A paste starts where no sequence is complete before the end of its marker. -/
theorem leadsToPaste {before rest : Text}
    (hfirst : ∀ j < before.length, ¬ bracketedPasteStart <+: (before ++ bracketedPasteStart).drop j)
    (hincomplete : ∀ k, 0 < k → k < before.length + bracketedPasteStart.length →
      isCompleteSequence ((before ++ bracketedPasteStart ++ rest).take k) = .incomplete) : LeadsToPaste before := by
  refine ⟨fun k hpos hlt => ?_, hfirst⟩
  have hk := hincomplete k hpos hlt
  rwa [List.take_append_of_le_length (by
    rw [List.length_append]
    exact Nat.le_of_lt hlt)] at hk

/-- A sequence is complete before a paste starts. -/
theorem told_stands {sequence rest : Text} (hsequence : IsSequence sequence)
    (hnone : ∀ j < sequence.length, ¬ bracketedPasteStart <+: (sequence ++ rest).drop j)
    (hrest : Told false rest) : Told false (sequence ++ rest) := by
  by_cases hescape : sequence = [esc, esc] ∧ introduces rest.head? = true
  · obtain ⟨rfl, hintro⟩ := hescape
    exact .inr (.escape hintro (hnone 1 (by decide)))
  · exact hrest.imp (.sequence ⟨hsequence, hnone, hescape⟩) (.sequence ⟨hsequence, hnone, hescape⟩)

/-- No beginning of the marker of a paste is a sequence. -/
theorem not_isSequence_marker {sequence rest rest' : Text} (hsequence : IsSequence sequence)
    (htext : sequence ++ rest = bracketedPasteStart ++ rest') : bracketedPasteStart.length ≤ sequence.length := by
  by_contra hshort
  have hpart : ∀ k < bracketedPasteStart.length, 0 < k →
      isCompleteSequence (bracketedPasteStart.take k) = .incomplete := by
    decide
  apply hsequence.complete
  have htake := congrArg (List.take sequence.length) htext
  rw [List.take_left, List.take_append_of_le_length (by omega)] at htake
  rw [htake]
  exact hpart _ (by omega) (List.length_pos_iff.mpr hsequence.nonempty)

/-- A text begins with a sequence, and so may a paste in it. -/
theorem told_sequence {sequence rest : Text} (hsequence : IsSequence sequence)
    (hshorter : ∀ pasteMode (rest' : Text), rest'.length < (sequence ++ rest).length → Told pasteMode rest') :
    Told false (sequence ++ rest) := by
  have hpos := List.length_pos_iff.mpr hsequence.nonempty
  have hrest : Told false rest := hshorter false rest (by
    rw [List.length_append]
    omega)
  cases hstart : Search.indexOf bracketedPasteStart (sequence ++ rest) with
  | none =>
    exact told_stands hsequence (fun j hj => Search.indexOf_eq_none.mp hstart j (by
      rw [List.length_append]
      omega)) hrest
  | some i =>
    obtain ⟨-, -, hnone⟩ := Search.indexOf_eq_some.mp hstart
    by_cases hin : i < sequence.length
    · obtain ⟨before, later, htext, hlength, hfirst⟩ := first_of_indexOf hstart
      by_cases hinside : sequence.length < i + bracketedPasteStart.length
      · refine .inr (.inStart hsequence (Nat.pos_of_ne_zero ?_) hin hinside hstart)
        rintro rfl
        obtain rfl := List.length_eq_zero_iff.mp hlength
        have hlong := not_isSequence_marker hsequence htext
        omega
      · rw [htext] at hshorter ⊢
        refine told_pasteStart (@leadsToPaste _ later hfirst fun k hk hlt => ?_) (hshorter true later (by
          rw [List.length_append, List.length_append]
          have hmarker : 0 < bracketedPasteStart.length := by decide
          omega))
        rw [← htext, List.take_append_of_le_length (by omega)]
        exact hsequence.first k hk (by omega)
    · exact told_stands hsequence (fun j hj => hnone j (by omega)) hrest

/-- An escape begins a sequence, or a paste starts before one is complete. -/
theorem told_escape {rest : Text}
    (hshorter : ∀ pasteMode (rest' : Text), rest'.length < (esc :: rest).length → Told pasteMode rest') :
    Told false (esc :: rest) := by
  cases hend : sequenceEnd (esc :: rest) with
  | none =>
    have hincomplete := sequenceEnd_eq_none.mp hend
    cases hstart : Search.indexOf bracketedPasteStart (esc :: rest) with
    | none => exact .inl (.incomplete hincomplete hstart)
    | some i =>
      obtain ⟨before, after, htext, -, hfirst⟩ := first_of_indexOf hstart
      rw [htext] at hshorter hincomplete ⊢
      refine told_pasteStart (@leadsToPaste _ after hfirst fun k hk hlt => ?_) (hshorter true after (by
        rw [List.length_append, List.length_append]
        have hmarker : 0 < bracketedPasteStart.length := by decide
        omega))
      refine hincomplete k hk ?_
      rw [List.length_append, List.length_append]
      omega
  | some k =>
    obtain ⟨hpos, hle, hcomplete, hbefore⟩ := sequenceEnd_eq_some.mp hend
    obtain ⟨sequence, after, htext, hlength⟩ : ∃ sequence after,
        esc :: rest = sequence ++ after ∧ sequence.length = k := by
      refine ⟨(esc :: rest).take k, (esc :: rest).drop k, (List.take_append_drop k _).symm, ?_⟩
      rw [List.length_take]
      omega
    have hsequence : IsSequence sequence := by
      rw [htext] at hcomplete hbefore
      refine ⟨List.length_pos_iff.mp (by omega), ?_, fun j hj hlt => ?_, ?_⟩
      · rwa [← hlength, List.take_left] at hcomplete
      · have hj' := hbefore j hj (by omega)
        rwa [List.take_append_of_le_length (Nat.le_of_lt hlt)] at hj'
      · cases sequence with
        | nil => exact absurd hlength (by simp only [List.length_nil]; omega)
        | cons c tail => exact congrArg some (List.cons.inj htext).1.symm
    rw [htext] at hshorter ⊢
    exact told_sequence hsequence hshorter

/-- **Input is either unambiguous or ambiguous.** -/
theorem unambiguous_or_ambiguous (pasteMode : Bool) (text : Text) : Told pasteMode text := by
  induction hn : text.length using Nat.strong_induction_on generalizing pasteMode text with
  | _ n ih =>
    subst hn
    cases pasteMode with
    | true =>
      cases hend : Search.indexOf bracketedPasteEnd text with
      | none => exact .inl (.pasteOpen hend)
      | some i =>
        obtain ⟨content, rest, rfl, -, hcontent⟩ := first_of_indexOf hend
        refine told_pasteEnd hcontent (ih _ ?_ false rest rfl)
        rw [List.length_append, List.length_append]
        have hmarker : 0 < bracketedPasteEnd.length := by decide
        omega
    | false =>
      cases text with
      | nil => exact .inl .nil
      | cons c rest =>
        by_cases hc : c = esc
        · subst hc
          exact told_escape fun pasteMode rest' hlt => ih _ hlt pasteMode rest' rfl
        · exact (ih rest.length (Nat.lt_succ_self _) false rest rfl).imp (.char hc) (.char hc)

end StdinBuffer

end Mcpi.Tui
