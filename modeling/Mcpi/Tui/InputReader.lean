import Mcpi.Tui.StdinBuffer

/-!
# Reading input

What `process` does with the text it holds and a chunk depends on both together and on the mode only: it
reads pieces and holds back the rest. Reading is described by one equation for each way a text begins.
-/

namespace Mcpi.Tui

namespace StdinBuffer

/-! ## Sequences -/

variable {text : Text}

theorem extractFrom_fuel {fuel : Nat} (h : text.length ≤ fuel) :
    extractFrom fuel text = extractCompleteSequences text := by
  have henough : ∀ n m : Nat, ∀ text : Text, text.length ≤ n → text.length ≤ m →
      extractFrom n text = extractFrom m text := by
    intro n
    induction n with
    | zero =>
      intro m text hn _
      obtain rfl := List.length_eq_zero_iff.mp (Nat.le_zero.mp hn)
      cases m <;> rfl
    | succ n ih =>
      intro m text hn hm
      cases text with
      | nil => cases m <;> rfl
      | cons c rest =>
        cases m with
        | zero => cases hm
        | succ m =>
          have hrest := ih m rest (Nat.le_of_succ_le_succ hn) (Nat.le_of_succ_le_succ hm)
          unfold extractFrom
          split
          · split
            · rfl
            next seqEnd hend =>
              have hpos : 1 ≤ seqEnd := by
                have hmem := List.mem_of_find?_eq_some hend
                rw [List.mem_range'_1] at hmem
                exact hmem.1
              have hdrop := ih m ((c :: rest).drop seqEnd)
                (by rw [List.length_drop]; simp only [List.length_cons] at hn ⊢; omega)
                (by rw [List.length_drop]; simp only [List.length_cons] at hm ⊢; omega)
              rw [hrest, hdrop]
          · rw [hrest]
  exact henough _ _ text h (Nat.le_refl _)

/-- No beginning of the text is a complete sequence. -/
def Incomplete (text : Text) : Prop :=
  ∀ k, 0 < k → k ≤ text.length → isCompleteSequence (text.take k) = .incomplete

/-- A sequence that is complete, and was not before. -/
structure IsSequence (sequence : Text) : Prop where
  nonempty : sequence ≠ []
  complete : isCompleteSequence sequence ≠ .incomplete
  first : ∀ k, 0 < k → k < sequence.length → isCompleteSequence (sequence.take k) = .incomplete
  escape : sequence.head? = some esc

theorem sequenceEnd_eq_none : sequenceEnd text = none ↔ Incomplete text := by
  unfold sequenceEnd Incomplete
  rw [List.find?_eq_none]
  constructor
  · intro h k hpos hle
    have hk := h k (List.mem_range'_1.mpr ⟨hpos, by omega⟩)
    simpa using hk
  · intro h k hk
    rw [List.mem_range'_1] at hk
    simpa using h k hk.1 (by omega)

theorem sequenceEnd_eq_some {k : Nat} : sequenceEnd text = some k ↔
    0 < k ∧ k ≤ text.length ∧ isCompleteSequence (text.take k) ≠ .incomplete ∧
      ∀ j, 0 < j → j < k → isCompleteSequence (text.take j) = .incomplete := by
  unfold sequenceEnd
  rw [List.find?_range'_eq_some]
  simp only [List.mem_range'_1, decide_eq_true_eq, ne_eq, Bool.not_eq_eq_eq_not, Bool.not_true,
    decide_eq_false_iff_not, not_not]
  constructor
  · rintro ⟨hk, ⟨hpos, hlt⟩, hbefore⟩
    exact ⟨hpos, by omega, hk, fun j hj hlt' => hbefore j hj hlt'⟩
  · rintro ⟨hpos, hle, hk, hbefore⟩
    exact ⟨hk, ⟨hpos, by omega⟩, fun j hj hlt => hbefore j hj hlt⟩

theorem sequenceEnd_append {sequence : Text} (h : IsSequence sequence) (rest : Text) :
    sequenceEnd (sequence ++ rest) = some sequence.length := by
  rw [sequenceEnd_eq_some]
  refine ⟨List.length_pos_iff.mpr h.nonempty, ?_, ?_, fun j hj hlt => ?_⟩
  · rw [List.length_append]
    exact Nat.le_add_right _ _
  · rw [List.take_left]
    exact h.complete
  · rw [List.take_append_of_le_length (Nat.le_of_lt hlt)]
    exact h.first j hj hlt

theorem extract_char {c : UInt16} (hc : c ≠ esc) (rest : Text) :
    extractCompleteSequences (c :: rest) =
      ([c] :: (extractCompleteSequences rest).1, (extractCompleteSequences rest).2) := by
  show extractFrom (rest.length + 1) (c :: rest) = _
  rw [extractFrom, if_neg hc]
  rfl

theorem extract_incomplete (h : Incomplete text) : extractCompleteSequences text = ([], text) := by
  cases text with
  | nil => rfl
  | cons c rest =>
    show extractFrom (rest.length + 1) (c :: rest) = _
    have hc : c = esc := by
      by_contra hne
      have hstatus := h 1 Nat.one_pos (Nat.succ_le_succ (Nat.zero_le _))
      rw [List.take_succ_cons, List.take_zero, isCompleteSequence, if_pos] at hstatus
      · cases hstatus
      · intro hbegins
        exact hne (List.cons_prefix_cons.mp hbegins).1.symm
    rw [extractFrom, if_pos hc, sequenceEnd_eq_none.mpr h]

/-- A sequence is taken, unless it is two escapes of which the second begins another one. -/
theorem extract_sequence {sequence : Text} (h : IsSequence sequence) {rest : Text}
    (hintro : ¬ (sequence = [esc, esc] ∧ introduces rest.head? = true)) :
    extractCompleteSequences (sequence ++ rest) =
      (sequence :: (extractCompleteSequences rest).1, (extractCompleteSequences rest).2) := by
  have hend := sequenceEnd_append h rest
  cases hcase : sequence with
  | nil => exact absurd hcase h.nonempty
  | cons c tail =>
    have hc : c = esc := by
      have hhead := h.escape
      rw [hcase] at hhead
      exact Option.some.inj hhead
    rw [hcase] at hend hintro
    show extractFrom ((tail ++ rest).length + 1) (c :: (tail ++ rest)) = _
    change sequenceEnd (c :: (tail ++ rest)) = _ at hend
    have htake : (c :: (tail ++ rest)).take (c :: tail).length = c :: tail := List.take_left
    have hdrop : (c :: (tail ++ rest)).drop (c :: tail).length = rest := List.drop_left
    have hnext : (c :: (tail ++ rest))[(c :: tail).length]? = rest.head? := by
      rw [show c :: (tail ++ rest) = c :: tail ++ rest from rfl,
        List.getElem?_append_right (Nat.le_refl _), Nat.sub_self, List.head?_eq_getElem?]
    rw [extractFrom, if_pos hc, hend]
    dsimp only
    rw [htake, hnext, if_neg hintro, hdrop, extractFrom_fuel (by
      rw [List.length_append]
      exact Nat.le_add_left _ _)]

/-- Two escapes of which the second begins a sequence. -/
theorem extract_escape {rest : Text} (h : introduces rest.head? = true) :
    extractCompleteSequences (esc :: esc :: rest) = ([esc] :: (extractCompleteSequences (esc :: rest)).1,
        (extractCompleteSequences (esc :: rest)).2) := by
  have hend : sequenceEnd (esc :: esc :: rest) = some 2 := by
    rw [sequenceEnd_eq_some]
    refine ⟨Nat.two_pos, by simp, ?_, fun j hj hlt => ?_⟩
    · show isCompleteSequence [esc, esc] ≠ _
      decide
    · obtain rfl : j = 1 := by omega
      rfl
  show extractFrom ((esc :: rest).length + 1) (esc :: esc :: rest) = _
  rw [extractFrom, if_pos rfl, hend]
  dsimp only
  rw [if_pos ⟨rfl, by
    rw [List.getElem?_cons_succ, List.getElem?_cons_succ, ← List.head?_eq_getElem?]
    exact h⟩]
  rfl

theorem extract_flatten (text : Text) :
    (extractCompleteSequences text).1.flatten ++ (extractCompleteSequences text).2 = text := by
  have hfuel : ∀ fuel text, (extractFrom fuel text).1.flatten ++ (extractFrom fuel text).2 = text := by
    intro fuel
    induction fuel with
    | zero =>
      intro text
      cases text <;> rfl
    | succ fuel ih =>
      intro text
      cases text with
      | nil => rfl
      | cons c rest =>
        unfold extractFrom
        split
        next hc =>
          split
          · rfl
          next seqEnd hend =>
            dsimp only
            split
            · rw [List.flatten_cons, List.append_assoc, ih, hc]
              rfl
            · rw [List.flatten_cons, List.append_assoc, ih, List.take_append_drop]
        · dsimp only
          rw [List.flatten_cons, List.append_assoc, ih]
          rfl
  exact hfuel _ text

/-! ## Pieces -/

/-- What is read of the input: a sequence, the start of a paste, or the content of one up to its end. -/
inductive Piece
  | sequence (sequence : Text)
  | pasteStart
  | paste (content : Text)
  deriving DecidableEq

def Emitted.piece (emitted : Emitted) : Piece → Emitted
  | .sequence sequence => emitted.emitDataSequence sequence
  | .pasteStart => emitted.clearPending
  | .paste content => emitted.emitPaste content

/-- The pieces of a text, the mode after it and the text that is held back. -/
abbrev Reading := List Piece × Bool × Text

def Reading.after (pieces : List Piece) (reading : Reading) : Reading :=
  (pieces ++ reading.1, reading.2)

def readFrom : Nat → Bool → Text → Reading
  | 0, pasteMode, text => ([], pasteMode, text)
  | fuel + 1, false, text =>
    match Search.indexOf bracketedPasteStart text with
    | some startIndex =>
      (readFrom fuel true (text.drop (startIndex + bracketedPasteStart.length))).after
        ((extractCompleteSequences (text.take startIndex)).1.map .sequence ++ [.pasteStart])
    | none =>
      ((extractCompleteSequences text).1.map .sequence, false, (extractCompleteSequences text).2)
  | fuel + 1, true, text =>
    match Search.indexOf bracketedPasteEnd text with
    | some endIndex =>
      (readFrom fuel false (text.drop (endIndex + bracketedPasteEnd.length))).after [.paste (text.take endIndex)]
    | none => ([], true, text)

/-- Read a text in paste mode or out of it. -/
def read (pasteMode : Bool) (text : Text) : Reading := readFrom (text.length + 1) pasteMode text

theorem length_after_marker {marker text : Text} {i : Nat} (hmarker : marker ≠ [])
    (h : Search.indexOf marker text = some i) :
    (text.drop (i + marker.length)).length < text.length := by
  have hle := Search.indexOf_lt hmarker h
  have hpos := List.length_pos_iff.mpr hmarker
  rw [List.length_drop]
  omega

theorem readFrom_fuel {fuel : Nat} {pasteMode : Bool} (h : text.length < fuel) :
    readFrom fuel pasteMode text = read pasteMode text := by
  have henough : ∀ n m : Nat, ∀ (pasteMode : Bool) (text : Text), text.length < n → text.length < m →
      readFrom n pasteMode text = readFrom m pasteMode text := by
    intro n
    induction n with
    | zero =>
      intro m pasteMode text hn
      cases hn
    | succ n ih =>
      intro m pasteMode text hn hm
      cases m with
      | zero => cases hm
      | succ m =>
        cases pasteMode with
        | false =>
          unfold readFrom
          split
          next startIndex hstart =>
            have hshorter := length_after_marker (by decide) hstart
            rw [ih m true _ (by omega) (by omega)]
          · rfl
        | true =>
          unfold readFrom
          split
          next endIndex hend =>
            have hshorter := length_after_marker (by decide) hend
            rw [ih m false _ (by omega) (by omega)]
          · rfl
  exact henough _ _ pasteMode text h (Nat.lt_succ_self _)

theorem read_start {startIndex : Nat} (h : Search.indexOf bracketedPasteStart text = some startIndex) :
    read false text = (read true (text.drop (startIndex + bracketedPasteStart.length))).after
      ((extractCompleteSequences (text.take startIndex)).1.map .sequence ++ [.pasteStart]) := by
  have hshorter := length_after_marker (by decide) h
  rw [read, readFrom, h]
  dsimp only
  rw [readFrom_fuel hshorter]

theorem read_sequences (h : Search.indexOf bracketedPasteStart text = none) :
    read false text = ((extractCompleteSequences text).1.map .sequence, false, (extractCompleteSequences text).2) := by
  rw [read, readFrom, h]

theorem read_paste {endIndex : Nat} (h : Search.indexOf bracketedPasteEnd text = some endIndex) :
    read true text = (read false (text.drop (endIndex + bracketedPasteEnd.length))).after
      [.paste (text.take endIndex)] := by
  have hshorter := length_after_marker (by decide) h
  rw [read, readFrom, h]
  dsimp only
  rw [readFrom_fuel hshorter]

theorem read_open (h : Search.indexOf bracketedPasteEnd text = none) : read true text = ([], true, text) := by
  rw [read, readFrom, h]

@[simp] theorem read_nil (pasteMode : Bool) : read pasteMode [] = ([], pasteMode, []) := by
  cases pasteMode <;> rfl

/-! ## Processing a chunk -/

/-- The text that is held back. -/
def held (b : StdinBuffer) : Text := if b.pasteMode then b.pasteBuffer else b.buffer

/-- One of the two buffers is used at a time. -/
def Separate (b : StdinBuffer) : Prop := if b.pasteMode then b.buffer = [] else b.pasteBuffer = []

/-- The buffer after a reading. -/
def settle (emitted : Emitted) (reading : Reading) : StdinBuffer :=
  { buffer := if reading.2.1 then [] else reading.2.2
    timeout := !reading.2.1 && decide (reading.2.2.length > 0)
    pasteMode := reading.2.1
    pasteBuffer := if reading.2.1 then reading.2.2 else []
    emitted := reading.1.foldl Emitted.piece emitted }

theorem settle_after (emitted : Emitted) (pieces : List Piece) (reading : Reading) :
    settle emitted (reading.after pieces) = settle (pieces.foldl Emitted.piece emitted) reading := by
  unfold settle Reading.after
  rw [List.foldl_append]

@[simp] theorem held_settle (emitted : Emitted) (reading : Reading) : (settle emitted reading).held = reading.2.2 := by
  unfold held settle
  split <;> rfl

theorem separate_settle (emitted : Emitted) (reading : Reading) : (settle emitted reading).Separate := by
  unfold Separate settle
  split <;> rfl

theorem foldl_sequences (emitted : Emitted) (sequences : List Text) :
    (sequences.map Piece.sequence).foldl Emitted.piece emitted = sequences.foldl Emitted.emitDataSequence emitted := by
  rw [List.foldl_map]
  rfl

/-- What `processFrom` does with the text of a paste. -/
def pasteRead (fuel : Nat) (b : StdinBuffer) : StdinBuffer :=
  match Search.indexOf bracketedPasteEnd b.pasteBuffer with
  | none => b
  | some endIndex =>
    if (b.pasteBuffer.drop (endIndex + bracketedPasteEnd.length)).length > 0 then
      processFrom fuel
        { b with pasteMode := false, pasteBuffer := [], emitted := b.emitted.emitPaste (b.pasteBuffer.take endIndex) }
        (b.pasteBuffer.drop (endIndex + bracketedPasteEnd.length))
    else
      { b with pasteMode := false, pasteBuffer := [], emitted := b.emitted.emitPaste (b.pasteBuffer.take endIndex) }

/-- **Processing a chunk** reads what is held back together with the chunk. -/
theorem process_eq {b : StdinBuffer} (hseparate : b.Separate) {str : Text} (hstr : str ≠ []) :
    b.process str = settle b.emitted (read b.pasteMode (b.held ++ str)) := by
  have hfuel : ∀ fuel (b : StdinBuffer) (str : Text), b.Separate → str ≠ [] → (b.held ++ str).length < fuel →
        processFrom fuel b str = settle b.emitted (read b.pasteMode (b.held ++ str)) := by
    intro fuel
    induction fuel with
    | zero =>
      intro b str _ _ h
      cases h
    | succ fuel ih =>
      intro b str hseparate hstr hlength
      have hnonempty : str.length ≠ 0 := fun hzero => hstr (List.length_eq_zero_iff.mp hzero)
      have hnot : ¬ (str.length = 0 ∧ b.buffer.length = 0) := fun hboth => hnonempty hboth.1
      -- a paste that is read to its end, and what comes after it
      have hpaste : ∀ (b' : StdinBuffer), b'.pasteMode = true → b'.buffer = [] →
          b'.timeout = false → b'.pasteBuffer.length ≤ fuel →
            pasteRead fuel b' = settle b'.emitted (read true b'.pasteBuffer) := by
        rintro ⟨buffer, timeout, pasteMode, pasteBuffer, emitted⟩ rfl rfl rfl hle
        unfold pasteRead
        dsimp only at hle ⊢
        cases hend : Search.indexOf bracketedPasteEnd pasteBuffer with
        | none =>
          rw [read_open hend]
          rfl
        | some endIndex =>
          rw [read_paste hend, settle_after]
          have hshorter := length_after_marker (by decide) hend
          dsimp only
          generalize pasteBuffer.drop (endIndex + bracketedPasteEnd.length) = remaining at *
          by_cases hremaining : remaining.length > 0
          · rw [if_pos hremaining]
            exact ih _ remaining rfl (List.length_pos_iff.mp hremaining)
              (by show ([] ++ remaining).length < fuel; rw [List.nil_append]; omega)
          · rw [if_neg hremaining]
            obtain rfl := List.length_eq_zero_iff.mp (Nat.le_zero.mp (Nat.le_of_not_lt hremaining))
            rw [read_nil]
            rfl
      unfold processFrom
      rw [if_neg hnot]
      cases hmode : b.pasteMode with
      | true =>
        have hbuffer : b.buffer = [] := by
          unfold Separate at hseparate
          rwa [hmode, if_pos rfl] at hseparate
        have hheld : b.held = b.pasteBuffer := by
          unfold held
          rw [hmode, if_pos rfl]
        rw [hheld] at hlength ⊢
        rw [if_pos rfl, hbuffer, List.nil_append]
        exact hpaste { b with
          timeout := false, buffer := [], pasteMode := true
          pasteBuffer := b.pasteBuffer ++ str } rfl rfl rfl (Nat.le_of_lt_succ hlength)
      | false =>
        have hbuffer : b.pasteBuffer = [] := by
          unfold Separate at hseparate
          rwa [hmode, if_neg Bool.false_ne_true] at hseparate
        have hheld : b.held = b.buffer := by
          unfold held
          rw [hmode, if_neg Bool.false_ne_true]
        rw [hheld] at hlength ⊢
        rw [if_neg Bool.false_ne_true]
        cases hstart : Search.indexOf bracketedPasteStart (b.buffer ++ str) with
        | none =>
          rw [read_sequences hstart]
          unfold settle
          rw [foldl_sequences, hbuffer]
          rfl
        | some startIndex =>
          rw [read_start hstart, settle_after, List.foldl_append, foldl_sequences]
          have hshorter := length_after_marker (by decide) hstart
          refine (hpaste { b with
            timeout := false, buffer := [], pasteMode := true
            pasteBuffer := (b.buffer ++ str).drop (startIndex + bracketedPasteStart.length)
            emitted := _ } rfl rfl rfl (by
              dsimp only
              omega)).trans ?_
          congr 1
          show Emitted.clearPending _ = Emitted.clearPending _
          by_cases hpos : startIndex > 0
          · rw [if_pos hpos]
          · rw [if_neg hpos]
            obtain rfl := Nat.le_zero.mp (Nat.le_of_not_lt hpos)
            rfl
  refine hfuel _ b str hseparate hstr ?_
  unfold held
  split
  · rw [List.length_append]
    omega
  · rw [List.length_append]
    omega

end StdinBuffer

end Mcpi.Tui
