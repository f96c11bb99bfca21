import Mcpi.Tui.InputReader
import Mcpi.Lib.Transition

/-!
# Input is conserved

The events, with what is held back, account for the input, except for a character that follows its own key
sequence. What `process` loses is an incomplete sequence in front of a paste: where there is none, in no
chunk, nothing is lost.
-/

namespace Mcpi.Tui

namespace StdinBuffer

/-- Events that account for a text. The last argument is the code point of the key sequence that has just
been emitted. -/
inductive Accounts : List Event → Text → Option Nat → Prop
  | nil : Accounts [] [] none
  | data {events : List Event} {text : Text} {codepoint : Option Nat} (sequence : Text) :
      Accounts events text codepoint → Accounts (events ++ [.data sequence]) (text ++ sequence)
          (parseUnmodifiedKittyPrintableCodepoint sequence)
  | paste {events : List Event} {text : Text} {codepoint : Option Nat} (content : Text) :
      Accounts events text codepoint → Accounts (events ++ [.paste content])
          (text ++ (bracketedPasteStart ++ content ++ bracketedPasteEnd)) none
  | dropped {events : List Event} {text : Text} (c : UInt16) :
      Accounts events text (some c.toNat) → Accounts events (text ++ [c]) none
  | later {events : List Event} {text : Text} {codepoint : Option Nat} :
      Accounts events text codepoint → Accounts events text none

/-- What is still buffered. The start of an open paste has been read. -/
def buffered (b : StdinBuffer) : Text :=
  if b.pasteMode then bracketedPasteStart ++ b.pasteBuffer else b.buffer

/-! ## Pieces -/

variable {emitted : Emitted} {text : Text}

theorem Accounts.emitDataSequence
    (h : Accounts emitted.events text emitted.pendingKittyPrintableCodepoint) (sequence : Text) :
    Accounts (emitted.emitDataSequence sequence).events (text ++ sequence)
      (emitted.emitDataSequence sequence).pendingKittyPrintableCodepoint := by
  unfold Emitted.emitDataSequence
  split
  next hdropped =>
    obtain ⟨hsome, hpending⟩ := hdropped
    unfold rawCodepoint at hsome hpending
    by_cases hlength : sequence.length = 1
    · obtain ⟨c, rfl⟩ := List.length_eq_one_iff.mp hlength
      rw [← hpending] at h
      exact Accounts.dropped c h
    · rw [if_neg hlength] at hsome
      exact absurd rfl hsome
  · exact h.data sequence

theorem Accounts.clearPending (h : Accounts emitted.events text emitted.pendingKittyPrintableCodepoint) :
    Accounts emitted.clearPending.events text emitted.clearPending.pendingKittyPrintableCodepoint :=
  h.later

theorem Accounts.emitPaste (h : Accounts emitted.events text emitted.pendingKittyPrintableCodepoint) (content : Text) :
    Accounts (emitted.emitPaste content).events (text ++ (bracketedPasteStart ++ content ++ bracketedPasteEnd))
      (emitted.emitPaste content).pendingKittyPrintableCodepoint :=
  h.paste content

theorem Accounts.sequences (h : Accounts emitted.events text emitted.pendingKittyPrintableCodepoint)
    (sequences : List Text) :
    Accounts (sequences.foldl Emitted.emitDataSequence emitted).events (text ++ sequences.flatten)
      (sequences.foldl Emitted.emitDataSequence emitted).pendingKittyPrintableCodepoint := by
  induction sequences generalizing emitted text with
  | nil => simpa using h
  | cons sequence sequences ih =>
    rw [List.flatten_cons, ← List.append_assoc]
    exact ih (h.emitDataSequence sequence)

/-- Every paste in the text starts behind complete sequences. -/
def losesNothing : Nat → Bool → Text → Bool
  | 0, _, _ => true
  | fuel + 1, false, text =>
    match Search.indexOf bracketedPasteStart text with
    | some startIndex =>
      (extractCompleteSequences (text.take startIndex)).2.isEmpty &&
        losesNothing fuel true (text.drop (startIndex + bracketedPasteStart.length))
    | none => true
  | fuel + 1, true, text =>
    match Search.indexOf bracketedPasteEnd text with
    | some endIndex =>
      losesNothing fuel false (text.drop (endIndex + bracketedPasteEnd.length))
    | none => true

/-- The start of an open paste. -/
def started (pasteMode : Bool) : Text := if pasteMode then bracketedPasteStart else []

/-- **Reading conserves the text.** -/
theorem Accounts.read {fuel : Nat} {pasteMode : Bool} {text consumed : Text}
    (h : Accounts emitted.events consumed emitted.pendingKittyPrintableCodepoint)
    (hlossless : losesNothing fuel pasteMode text = true) :
    ∃ consumed', Accounts ((readFrom fuel pasteMode text).1.foldl Emitted.piece emitted).events consumed'
        ((readFrom fuel pasteMode text).1.foldl Emitted.piece emitted).pendingKittyPrintableCodepoint ∧
      consumed ++ (started pasteMode ++ text) = consumed' ++ (started (readFrom fuel pasteMode text).2.1 ++
          (readFrom fuel pasteMode text).2.2) := by
  induction fuel generalizing pasteMode text consumed emitted with
  | zero => exact ⟨consumed, h, rfl⟩
  | succ fuel ih =>
    cases pasteMode with
    | false =>
      unfold readFrom
      unfold losesNothing at hlossless
      cases hstart : Search.indexOf bracketedPasteStart text with
      | none =>
        rw [foldl_sequences]
        refine ⟨_, h.sequences _, ?_⟩
        show consumed ++ text = _ ++ (extractCompleteSequences text).2
        rw [List.append_assoc, extract_flatten]
      | some startIndex =>
        rw [hstart] at hlossless
        rw [Bool.and_eq_true, List.isEmpty_iff] at hlossless
        unfold Reading.after
        rw [List.foldl_append, List.foldl_append, foldl_sequences]
        obtain ⟨consumed', hrest, htext⟩ := ih (h.sequences _).clearPending hlossless.2
        refine ⟨consumed', hrest, ?_⟩
        rw [← htext]
        have hbefore := extract_flatten (text.take startIndex)
        rw [hlossless.1, List.append_nil] at hbefore
        rw [hbefore, List.append_assoc, ← List.append_assoc (text.take startIndex)]
        show consumed ++ text = consumed ++ (text.take startIndex ++ bracketedPasteStart ++ _)
        rw [Search.split_of_indexOf hstart]
    | true =>
      unfold readFrom
      unfold losesNothing at hlossless
      cases hend : Search.indexOf bracketedPasteEnd text with
      | none => exact ⟨consumed, h, rfl⟩
      | some endIndex =>
        rw [hend] at hlossless
        unfold Reading.after
        rw [List.foldl_append]
        obtain ⟨consumed', hrest, htext⟩ := ih (h.emitPaste (text.take endIndex))
          hlossless
        refine ⟨consumed', hrest, ?_⟩
        rw [← htext]
        show consumed ++ (bracketedPasteStart ++ text) =
          consumed ++ (bracketedPasteStart ++ text.take endIndex ++ bracketedPasteEnd) ++
            text.drop (endIndex + bracketedPasteEnd.length)
        rw [List.append_assoc, List.append_assoc, List.append_assoc,
          ← List.append_assoc (text.take endIndex), Search.split_of_indexOf hend]

/-! ## Runs -/

inductive Input
  | chunk (str : Text) (nonempty : str ≠ [])
  | timeout
  | flush

/-- The buffer and all chunks so far. -/
structure Terminal where
  stdin : StdinBuffer
  input : Text

def Terminal.step (terminal : Terminal) : Input → Option Terminal
  | .chunk str _ => some ⟨terminal.stdin.process str, terminal.input ++ str⟩
  | .timeout =>
    if terminal.stdin.timeout then some { terminal with stdin := terminal.stdin.timedOut } else none
  | .flush => some { terminal with stdin := terminal.stdin.flushed }

/-- **Conservation**: what has been emitted, followed by what is buffered, is the input. -/
def Terminal.Conserved (terminal : Terminal) : Prop :=
  ∃ consumed codepoint, Accounts terminal.stdin.emitted.events consumed codepoint ∧
    consumed ++ terminal.stdin.buffered = terminal.input

/-- No paste starts behind an incomplete sequence in what is held back and the chunk. -/
def Terminal.NothingLost (terminal : Terminal) : Input → Prop
  | .chunk str _ =>
    losesNothing ((terminal.stdin.held ++ str).length + 1) terminal.stdin.pasteMode (terminal.stdin.held ++ str) = true
  | _ => True

instance (terminal : Terminal) (input : Input) : Decidable (terminal.NothingLost input) := by
  unfold Terminal.NothingLost
  split <;> infer_instance

/-- The invariant: the events account for what is not buffered, and a character that may be dropped follows
its key sequence. -/
structure Terminal.Sound (terminal : Terminal) : Prop where
  separate : terminal.stdin.Separate
  accounts : ∃ consumed, Accounts terminal.stdin.emitted.events consumed
    terminal.stdin.emitted.pendingKittyPrintableCodepoint ∧ consumed ++ terminal.stdin.buffered = terminal.input

theorem buffered_eq (b : StdinBuffer) : b.buffered = started b.pasteMode ++ b.held := by
  unfold buffered started held
  split
  · rfl
  · rfl

variable {terminal : Terminal}

theorem Terminal.Sound.chunk (h : terminal.Sound) {str : Text}
    (nonempty : str ≠ []) (hlost : terminal.NothingLost (.chunk str nonempty)) :
    Terminal.Sound ⟨terminal.stdin.process str, terminal.input ++ str⟩ := by
  obtain ⟨consumed, haccounts, hinput⟩ := h.accounts
  obtain ⟨consumed', haccounts', htext⟩ := haccounts.read hlost
  have hprocess := process_eq h.separate nonempty
  refine ⟨?_, consumed', ?_, ?_⟩
  · rw [hprocess]
    exact separate_settle _ _
  · show Accounts (terminal.stdin.process str).emitted.events _ _
    rw [hprocess]
    exact haccounts'
  · show consumed' ++ (terminal.stdin.process str).buffered = terminal.input ++ str
    rw [hprocess, buffered_eq, held_settle, ← hinput, buffered_eq]
    rw [List.append_assoc, List.append_assoc]
    exact htext.symm

/-- `flush` has something to return out of a paste only. -/
theorem flush_eq {b : StdinBuffer} (h : b.Separate) :
    b.flush = ([], { b with timeout := false }) ∨ b.pasteMode = false ∧ b.flush = ([b.buffer],
        { b with timeout := false, buffer := [], emitted := b.emitted.clearPending }) := by
  unfold flush
  by_cases hempty : b.buffer.length = 0
  · rw [if_pos hempty]
    exact .inl rfl
  · rw [if_neg hempty]
    refine .inr ⟨?_, rfl⟩
    unfold Separate at h
    cases hmode : b.pasteMode with
    | false => rfl
    | true =>
      rw [hmode, if_pos rfl] at h
      rw [h] at hempty
      exact absurd rfl hempty

/-- What was buffered out of a paste is handed on. -/
theorem Terminal.Sound.emptied {consumed : Text} (h : terminal.stdin.Separate)
    (hinput : consumed ++ terminal.stdin.buffered = terminal.input) (hmode : terminal.stdin.pasteMode = false)
    (haccounts : Accounts emitted.events (consumed ++ terminal.stdin.buffer) emitted.pendingKittyPrintableCodepoint) :
    Terminal.Sound { terminal with stdin := { terminal.stdin with timeout := false, buffer := [], emitted } } := by
  unfold Separate at h
  rw [hmode] at h
  refine ⟨?_, consumed ++ terminal.stdin.buffer, haccounts, ?_⟩
  · unfold Separate
    rw [hmode]
    exact h
  · unfold buffered at hinput ⊢
    rw [hmode, if_neg Bool.false_ne_true] at hinput ⊢
    rw [List.append_nil]
    exact hinput

theorem Terminal.Sound.timeout (h : terminal.Sound) :
    Terminal.Sound { terminal with stdin := terminal.stdin.timedOut } := by
  obtain ⟨consumed, haccounts, hinput⟩ := h.accounts
  unfold timedOut
  rcases flush_eq h.separate with hflush | ⟨hmode, hflush⟩
  · rw [hflush]
    exact ⟨h.separate, consumed, haccounts, hinput⟩
  · rw [hflush]
    exact .emptied h.separate hinput hmode (haccounts.clearPending.emitDataSequence terminal.stdin.buffer)

theorem Terminal.Sound.flush (h : terminal.Sound) :
    Terminal.Sound { terminal with stdin := terminal.stdin.flushed } := by
  obtain ⟨consumed, haccounts, hinput⟩ := h.accounts
  unfold flushed
  rcases flush_eq h.separate with hflush | ⟨hmode, hflush⟩
  · rw [hflush]
    refine ⟨h.separate, consumed, ?_, hinput⟩
    show Accounts (terminal.stdin.emitted.events ++ []) _ _
    rw [List.append_nil]
    exact haccounts
  · rw [hflush]
    exact .emptied h.separate hinput hmode (haccounts.data terminal.stdin.buffer).later

/-- **No input is lost or invented** along the runs in which no paste starts behind an incomplete
sequence. -/
theorem input_conserved (inputs : List Input)
    (h : Transition.Clean Terminal.step Terminal.NothingLost ⟨new, []⟩ inputs) :
    Transition.Always Terminal.step Terminal.Conserved ⟨new, []⟩ inputs := by
  have hstart : Terminal.Sound ⟨new, []⟩ := ⟨rfl, [], Accounts.nil, rfl⟩
  refine Transition.always_of_clean ?_ ?_ hstart h
  · intro terminal hsound
    obtain ⟨consumed, haccounts, hinput⟩ := hsound.accounts
    exact ⟨consumed, _, haccounts, hinput⟩
  · intro terminal input terminal' hsound hclean hstep
    cases input with
    | chunk str nonempty =>
      cases hstep
      exact hsound.chunk nonempty hclean
    | timeout =>
      by_cases harmed : terminal.stdin.timeout = true
      · rw [Terminal.step, if_pos harmed] at hstep
        cases hstep
        exact hsound.timeout
      · rw [Terminal.step, if_neg harmed] at hstep
        cases hstep
    | flush =>
      cases hstep
      exact hsound.flush

/-- A key, its release, a paste in two chunks and a lone escape. -/
theorem input_conserved_paste : Transition.Always Terminal.step Terminal.Conserved ⟨new, []⟩
    [.chunk [esc, unit '[', unit '9', unit '7', unit 'u', unit 'a'] (by decide),
      .chunk (bracketedPasteStart ++ [unit 'x']) (by decide),
      .chunk (bracketedPasteEnd ++ [esc]) (by decide), .timeout] :=
  input_conserved _ (by decide +kernel)

/-- Where no sequence has been emitted the pastes are all there is. -/
theorem Accounts.pastes {events : List Event} {codepoint : Option Nat}
    (h : Accounts events text codepoint) (hpastes : ∀ sequence, Event.data sequence ∉ events) :
    codepoint = none ∧ text = events.flatMap fun
      | .data sequence => sequence
      | .paste content => bracketedPasteStart ++ content ++ bracketedPasteEnd := by
  induction h with
  | nil => exact ⟨rfl, rfl⟩
  | data sequence h ih => exact absurd List.mem_concat_self (hpastes sequence)
  | paste content h ih =>
    obtain ⟨-, htext⟩ := ih fun sequence hmem =>
      hpastes sequence (List.mem_append_left _ hmem)
    refine ⟨rfl, ?_⟩
    rw [List.flatMap_append, ← htext]
    simp
  | dropped c h ih => cases (ih hpastes).1
  | later h ih => exact ⟨rfl, (ih hpastes).2⟩

/-- An escape in front of a paste is lost. -/
theorem escape_before_paste_lost : ∃ inputs, ¬ Transition.Always Terminal.step Terminal.Conserved ⟨new, []⟩ inputs := by
  refine ⟨[.chunk [esc] (by decide),
    .chunk (bracketedPasteStart ++ [unit 'x'] ++ bracketedPasteEnd) (by decide)], fun h => ?_⟩
  obtain ⟨consumed, codepoint, haccounts, hinput⟩ := h _ (List.prefix_refl _) _ rfl
  have hevents : (process (process new [esc])
      (bracketedPasteStart ++ [unit 'x'] ++ bracketedPasteEnd)).emitted.events = [.paste [unit 'x']] := by
    decide +kernel
  have hbuffered : (process (process new [esc])
      (bracketedPasteStart ++ [unit 'x'] ++ bracketedPasteEnd)).buffered = [] := by
    decide +kernel
  change Accounts (process (process new [esc])
      (bracketedPasteStart ++ [unit 'x'] ++ bracketedPasteEnd)).emitted.events _ _ at haccounts
  change consumed ++ (process (process new [esc])
      (bracketedPasteStart ++ [unit 'x'] ++ bracketedPasteEnd)).buffered = _ at hinput
  rw [hevents] at haccounts
  rw [hbuffered, List.append_nil, (haccounts.pastes (by simp)).2] at hinput
  have hlength := congrArg List.length hinput
  revert hlength
  decide

end StdinBuffer

end Mcpi.Tui
