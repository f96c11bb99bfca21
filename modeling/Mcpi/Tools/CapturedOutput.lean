import Mcpi.Tools.CapturedText

/-!
# Captured output does not depend on its chunks

What holds of the counters, of the end that is kept and of the file after any chunks and writes, and so of what
`executeShellWithCapture` returns.
-/

namespace Mcpi.Tools.ShellOutput

open Truncate (TruncationResult DEFAULT_MAX_LINES DEFAULT_MAX_BYTES utf8ByteLength splitLinesForCounting)
open Utf8 (byteLength)

variable {whole text : List Char} {s s' : State}

/-! ## The counters -/

/-- The counters and the end that is kept are those of an output. -/
structure Counts (whole : List Char) (s : State) : Prop where
  kept : Kept whole s.tailOutput
  totalBytes : s.totalBytes = byteLength whole
  completedLines : s.completedLines = whole.count '\n'
  hasOpenLine : s.hasOpenLine = decide (lastLine whole ≠ [])
  currentLineBytes : s.currentLineBytes = byteLength (lastLine whole)

/-- The output exceeds a limit. -/
def Exceeds (whole : List Char) : Prop := ¬ Truncate.Within DEFAULT_MAX_LINES DEFAULT_MAX_BYTES (Utf16.encode whole)

theorem Counts.totalLines_eq (h : Counts whole s) :
    s.totalLines = (splitLinesForCounting (Utf16.encode whole)).length := by
  rw [State.totalLines, h.completedLines, h.hasOpenLine, length_splitLinesForCounting]
  simp only [decide_eq_true_eq]

theorem Counts.exceeds_iff (h : Counts whole s) : s.exceeds = true ↔ Exceeds whole := by
  rw [State.exceeds, h.totalLines_eq, h.totalBytes, Exceeds, Truncate.Within, utf8ByteLength_encode, not_and_or,
    Bool.or_eq_true, decide_eq_true_eq, decide_eq_true_eq, Nat.not_le, Nat.not_le]

/-- What is reported of an output that exceeds a limit. -/
theorem report_of_exceeds (h : Exceeds whole) :
    (report whole).truncated = true ∧ ∃ truncatedBy, (report whole).truncatedBy = some truncatedBy := by
  rw [report_eq, Truncate.truncateTailWith, if_neg (Truncate.within_iff.not.mpr h)]
  exact ⟨rfl, _, rfl⟩

theorem report_of_within (h : ¬ Exceeds whole) :
    (report whole).truncated = false ∧ (report whole).truncatedBy = none ∧
      (report whole).content = Utf16.encode whole := by
  rw [report_eq, Truncate.truncateTailWith, if_pos (Truncate.within_iff.mpr (not_not.mp h))]
  exact ⟨rfl, rfl, rfl⟩

/-- The counters say what `truncateTail` says of the whole output. -/
theorem Counts.createProgress_eq (h : Counts whole s) :
    s.createProgress = ⟨(report whole).content, report whole, s.fullOutputPath, byteLength (lastLine whole)⟩ := by
  have hreport := report_kept h.kept
  rw [← h.totalLines_eq, ← h.totalBytes] at hreport
  have hline := h.currentLineBytes
  by_cases hexceeds : Exceeds whole
  · have htrue := h.exceeds_iff.mpr hexceeds
    obtain ⟨htruncated, truncatedBy, hby⟩ := report_of_exceeds hexceeds
    rw [hreport] at htruncated hby
    have htail : (report s.tailOutput).truncated = true := htruncated
    have htailBy : (report s.tailOutput).truncatedBy = some truncatedBy := hby
    rw [hreport, ← hline, State.createProgress, htrue]
    show ShellCaptureProgress.mk (report s.tailOutput).content
      { report s.tailOutput with
        truncated := true
        truncatedBy := some ((report s.tailOutput).truncatedBy.getD _)
        totalLines := s.totalLines
        totalBytes := s.totalBytes } _ _ = _
    rw [htailBy, Option.getD_some, ← htailBy, ← htail]
    rfl
  · have hfalse := Bool.eq_false_iff.mpr (h.exceeds_iff.not.mpr hexceeds)
    have hsame : s.tailOutput = whole := by
      apply h.kept.eq_of_le
      rw [← utf8ByteLength_encode]
      exact (not_not.mp hexceeds).2
    obtain ⟨htruncated, hby, hcontent⟩ := report_of_within hexceeds
    subst hsame
    have htail : (report s.tailOutput).truncated = false := htruncated
    rw [State.createProgress, hfalse]
    show ShellCaptureProgress.mk (Utf16.encode s.tailOutput)
      { report s.tailOutput with
        truncated := false
        truncatedBy := none
        totalLines := s.totalLines
        totalBytes := s.totalBytes } _ _ = _
    rw [← hcontent, ← hby, ← htail, ← hline]
    conv_rhs => rw [hreport]
    rfl

theorem counts_initial : Counts [] State.initial := ⟨⟨[], rfl, .inl rfl⟩, rfl, rfl, rfl, rfl⟩

theorem Counts.count (h : Counts whole s) (text : List Char) :
    Counts (whole ++ text)
      { s.count text with tailOutput := trimToLastUtf8Bytes (s.tailOutput ++ text) maxOutputBytes } := by
  have hlines : (List.splitOn '\n' text).length - 1 = text.count '\n' := by
    rw [Separated.length_split, Nat.add_sub_cancel]
  have hline := lastLine_append whole text
  refine ⟨h.kept.append text, ?_, ?_, ?_, ?_⟩
  · rw [Utf8.byteLength_append, ← h.totalBytes, State.count]
    split
    · rfl
    · split <;> rfl
  · rw [List.count_append, ← h.completedLines, ← hlines, State.count]
    split
    · rfl
    · split <;> rfl
  · rw [hline, State.count]
    cases htrailing : trailingText text with
    | some rest => rfl
    | none =>
      dsimp only
      by_cases htext : text = []
      · rw [htext, List.append_nil]
        exact h.hasOpenLine
      · rw [if_pos (List.length_pos_iff.mpr htext)]
        simp [htext]
  · rw [hline, State.count]
    cases htrailing : trailingText text with
    | some rest => rfl
    | none =>
      rw [Utf8.byteLength_append, ← h.currentLineBytes]
      by_cases htext : text = []
      · rw [htext]
        rfl
      · rw [if_pos (List.length_pos_iff.mpr htext)]

theorem count_pos_of_trailingText {rest : List Char} (h : trailingText text = some rest) : 0 < text.count '\n' := by
  induction text generalizing rest with
  | nil => cases h
  | cons c text ih =>
    by_cases hc : c = '\n'
    · rw [hc, List.count_cons_self]
      exact Nat.succ_pos _
    · rw [List.count_cons_of_ne hc]
      rw [trailingText, if_neg hc, Option.or_none] at h
      exact ih h

/-- An output that exceeds a limit still does when more comes. -/
theorem Exceeds.append (h : Exceeds whole) (text : List Char) : Exceeds (whole ++ text) := by
  intro hwithin
  apply h
  rw [Truncate.Within, length_splitLinesForCounting, utf8ByteLength_encode] at hwithin ⊢
  rw [List.count_append, Utf8.byteLength_append] at hwithin
  have hlines : (if lastLine whole ≠ [] then 1 else 0) ≤
      text.count '\n' + if lastLine (whole ++ text) ≠ [] then 1 else 0 := by
    rw [lastLine_append]
    cases htrailing : trailingText text with
    | some rest =>
      have hcount := count_pos_of_trailingText htrailing
      split <;> omega
    | none =>
      by_cases hline : lastLine whole = []
      · rw [if_neg (not_not_intro hline)]
        exact Nat.zero_le _
      · rw [if_pos hline, if_pos (List.append_ne_nil_of_left_ne_nil hline text)]
        exact Nat.le_add_left _ _
  omega

/-! ## The file -/

/-- What has been written and what is still to be written are the output. -/
inductive Saved (whole : List Char) (s : State) : Prop
  | notRequested : s.fullOutputRequested = false → s.writeChain = [] → s.fullOutputPath = none → Saved whole s
  | notCreated (initialContent : List Char) (rest : List (List Char)) : s.fullOutputRequested = true →
      s.fullOutputPath = none → s.writeChain = .createTempFile initialContent :: rest.map .appendFile →
      whole = initialContent ++ rest.flatten → Saved whole s
  | created (path : String) (rest : List (List Char)) : s.fullOutputRequested = true →
      s.fullOutputPath = some path → s.writeChain = rest.map .appendFile →
      whole = s.fullOutput ++ rest.flatten → Saved whole s

/-- What holds after the chunks of an output and any of the writes. -/
structure Inv (whole : List Char) (s : State) : Prop where
  counts : Counts whole s
  accepting : s.acceptingOutput = s.outcome.isNone
  requested : s.captureError = none → (s.fullOutputRequested = true ↔ Exceeds whole)
  saved : s.captureError = none → s.writeError = none → Saved whole s

theorem inv_initial : Inv [] State.initial where
  counts := counts_initial
  accepting := rfl
  requested _ := iff_of_false Bool.false_ne_true (not_not_intro ⟨Nat.zero_le _, Nat.zero_le _⟩)
  saved _ _ := .notRequested rfl rfl rfl

theorem State.save_eq (s : State) (text : List Char) : s.save text = { s with
    fullOutputRequested := (s.save text).fullOutputRequested
    writeChain := (s.save text).writeChain } := by
  rw [State.save, State.ensureFullOutputFile, State.appendFullOutput, State.chain, State.chain]
  split
  · split
    · rfl
    · split <;> rfl
  · split
    · split
      · rfl
      · split <;> rfl
    · rfl

theorem State.save_requested (text : List Char) (hcapture : s.captureError = none) :
    (s.save text).fullOutputRequested = (s.fullOutputRequested || s.exceeds) := by
  cases hrequested : s.fullOutputRequested <;> cases hexceeds : s.exceeds <;> cases hwrite : s.writeError <;>
    simp [State.save, State.ensureFullOutputFile, State.appendFullOutput, State.chain, hrequested, hexceeds, hwrite,
      hcapture]

theorem State.save_writeChain (text : List Char) (hcapture : s.captureError = none) (hwrite : s.writeError = none) :
    (s.save text).writeChain = s.writeChain ++
      if s.fullOutputRequested then [.appendFile text]
      else if s.exceeds then [.createTempFile s.tailOutput]
      else [] := by
  cases hrequested : s.fullOutputRequested <;> cases hexceeds : s.exceeds <;>
    simp [State.save, State.ensureFullOutputFile, State.appendFullOutput, State.chain, hrequested, hexceeds, hwrite,
      hcapture]

theorem State.save_fullOutputPath (s : State) (text : List Char) : (s.save text).fullOutputPath = s.fullOutputPath := by
  rw [State.save_eq]

theorem State.save_fullOutput (s : State) (text : List Char) : (s.save text).fullOutput = s.fullOutput := by
  rw [State.save_eq]

/-- Saving a text that the counters and the tail already have. -/
theorem Saved.save (h : Saved whole s) (htail : s.fullOutputRequested = false → s.tailOutput = whole ++ text)
    (hcapture : s.captureError = none) (hwrite : s.writeError = none) : Saved (whole ++ text) (s.save text) := by
  have hnext := State.save_requested text hcapture
  have hlinks := State.save_writeChain text hcapture hwrite
  have hsamePath := State.save_fullOutputPath s text
  have hsameFile := State.save_fullOutput s text
  cases h with
  | notRequested hrequested hchain hpath =>
    rw [hrequested, Bool.false_or] at hnext
    rw [hchain, hrequested, if_neg Bool.false_ne_true, List.nil_append, htail hrequested] at hlinks
    cases hexceeds : s.exceeds with
    | true =>
      rw [hexceeds, if_pos rfl] at hlinks
      exact .notCreated (whole ++ text) [] (hnext.trans hexceeds) (hsamePath.trans hpath) hlinks
        (List.append_nil _).symm
    | false =>
      rw [hexceeds, if_neg Bool.false_ne_true] at hlinks
      exact .notRequested (hnext.trans hexceeds) hlinks (hsamePath.trans hpath)
  | notCreated initialContent rest hrequested hpath hchain hwhole =>
    rw [hrequested, Bool.true_or] at hnext
    rw [hchain, hrequested, if_pos rfl] at hlinks
    refine .notCreated initialContent (rest ++ [text]) hnext (hsamePath.trans hpath) ?_ ?_
    · rw [hlinks, List.map_append]
      rfl
    · rw [hwhole, List.flatten_append, List.flatten_singleton, List.append_assoc]
  | created path rest hrequested hpath hchain hwhole =>
    rw [hrequested, Bool.true_or] at hnext
    rw [hchain, hrequested, if_pos rfl] at hlinks
    refine .created path (rest ++ [text]) hnext (hsamePath.trans hpath) ?_ ?_
    · rw [hlinks, List.map_append]
      rfl
    · rw [hwhole, hsameFile, List.flatten_append, List.flatten_singleton, List.append_assoc]

/-! ## Steps -/

/-- The text that an event adds to the output. -/
def received (s : State) : Event → List Char
  | .chunk chunk _ => if s.acceptingOutput then sanitized chunk else []
  | _ => []

theorem State.count_eq (s : State) (text : List Char) : s.count text = { s with
    totalBytes := (s.count text).totalBytes
    completedLines := (s.count text).completedLines
    hasOpenLine := (s.count text).hasOpenLine
    currentLineBytes := (s.count text).currentLineBytes } := by
  rw [State.count]
  split
  · rfl
  · split <;> rfl

/-- Only the fields that the file depends on matter. -/
theorem Saved.congr (h : Saved whole s) (hrequested : s'.fullOutputRequested = s.fullOutputRequested)
    (hpath : s'.fullOutputPath = s.fullOutputPath) (hchain : s'.writeChain = s.writeChain)
    (hfile : s'.fullOutput = s.fullOutput) : Saved whole s' := by
  cases h with
  | notRequested h₁ h₂ h₃ => exact .notRequested (hrequested.trans h₁) (hchain.trans h₂) (hpath.trans h₃)
  | notCreated initialContent rest h₁ h₂ h₃ h₄ =>
    exact .notCreated initialContent rest (hrequested.trans h₁) (hpath.trans h₂) (hchain.trans h₃) h₄
  | created path rest h₁ h₂ h₃ h₄ =>
    refine .created path rest (hrequested.trans h₁) (hpath.trans h₂) (hchain.trans h₃) ?_
    rw [hfile]
    exact h₄

theorem Counts.congr (h : Counts whole s) (htail : s'.tailOutput = s.tailOutput)
    (hbytes : s'.totalBytes = s.totalBytes) (hlines : s'.completedLines = s.completedLines)
    (hopen : s'.hasOpenLine = s.hasOpenLine)
    (hlast : s'.currentLineBytes = s.currentLineBytes) : Counts whole s' :=
  ⟨by rw [htail]; exact h.kept, hbytes.trans h.totalBytes, hlines.trans h.completedLines,
    hopen.trans h.hasOpenLine, hlast.trans h.currentLineBytes⟩

theorem Inv.receive (h : Inv whole s) (text : List Char) : Inv (whole ++ text) (s.receive text) := by
  have hcounted := h.counts.count text
  have hcount := State.count_eq s text
  rw [State.receive]
  generalize s.count text = counted at hcounted hcount
  obtain ⟨htail, hrequested, hchain, hwrite, hcapture, hpath, hfile, haccepting, houtcome⟩ :
      counted.tailOutput = s.tailOutput ∧ counted.fullOutputRequested = s.fullOutputRequested ∧
        counted.writeChain = s.writeChain ∧ counted.writeError = s.writeError ∧
        counted.captureError = s.captureError ∧ counted.fullOutputPath = s.fullOutputPath ∧
        counted.fullOutput = s.fullOutput ∧ counted.acceptingOutput = s.acceptingOutput ∧
        counted.outcome = s.outcome := by
    rw [hcount]
    exact ⟨rfl, rfl, rfl, rfl, rfl, rfl, rfl, rfl, rfl⟩
  have hexceeds : counted.exceeds = true ↔ Exceeds (whole ++ text) := hcounted.exceeds_iff
  rw [htail]
  generalize hready : ({ counted with tailOutput := s.tailOutput ++ text } : State) = ready
  have hsaveEq := State.save_eq ready text
  have hreadyExceeds : ready.exceeds = counted.exceeds := by
    rw [← hready]
    rfl
  have hreadyRequested : ready.fullOutputRequested = s.fullOutputRequested := by
    rw [← hready]
    exact hrequested
  have hreadyCapture : ready.captureError = s.captureError := by
    rw [← hready]
    exact hcapture
  have hreadyWrite : ready.writeError = s.writeError := by
    rw [← hready]
    exact hwrite
  have hsaveCapture : (ready.save text).captureError = s.captureError := by
    rw [hsaveEq]
    exact hreadyCapture
  have hsaveWrite : (ready.save text).writeError = s.writeError := by
    rw [hsaveEq]
    exact hreadyWrite
  refine ⟨?_, ?_, ?_, ?_⟩
  · apply hcounted.congr
    · show trimToLastUtf8Bytes (ready.save text).tailOutput maxOutputBytes = _
      rw [hsaveEq, ← hready]
    all_goals rw [hsaveEq, ← hready]
  · show (ready.save text).acceptingOutput = (ready.save text).outcome.isNone
    rw [hsaveEq, ← hready]
    show counted.acceptingOutput = counted.outcome.isNone
    rw [haccepting, houtcome]
    exact h.accepting
  · intro hnone
    have hold : s.captureError = none := hsaveCapture.symm.trans hnone
    show (ready.save text).fullOutputRequested = true ↔ _
    rw [State.save_requested text (hreadyCapture.trans hold), hreadyRequested, hreadyExceeds, Bool.or_eq_true,
      h.requested hold, hexceeds]
    exact or_iff_right_of_imp fun hbefore => hbefore.append text
  · intro hnone hwritten
    have hold : s.captureError = none := hsaveCapture.symm.trans hnone
    have hwrittenOld : s.writeError = none := hsaveWrite.symm.trans hwritten
    have hready' : Saved whole ready := by
      apply (h.saved hold hwrittenOld).congr hreadyRequested
      all_goals rw [← hready]
      · exact hpath
      · exact hchain
      · exact hfile
    have hsaved : Saved (whole ++ text) (ready.save text) := by
      apply hready'.save _ (hreadyCapture.trans hold) (hreadyWrite.trans hwrittenOld)
      intro hfalse
      -- the file was not asked for, so nothing was cut from the tail
      have hwithin : ¬ Exceeds whole := by
        rw [← h.requested hold, ← hreadyRequested, hfalse]
        exact Bool.false_ne_true
      have hwhole : s.tailOutput = whole := by
        apply h.counts.kept.eq_of_le
        rw [← utf8ByteLength_encode]
        exact (not_not.mp hwithin).2
      rw [← hready]
      show s.tailOutput ++ text = _
      rw [hwhole]
    exact hsaved.congr rfl rfl rfl rfl

theorem Inv.onChunk (h : Inv whole s) (chunk : List Char) (thrown : Option String) :
    Inv (whole ++ received s (.chunk chunk thrown)) (s.onChunk chunk thrown) := by
  rw [State.onChunk, received]
  split
  · have hreceived := h.receive (sanitized chunk)
    cases thrown with
    | none => exact hreceived
    | some message =>
      exact ⟨hreceived.counts.congr rfl rfl rfl rfl rfl, hreceived.accepting, nofun, nofun⟩
  · rw [List.append_nil]
    exact h

theorem Inv.failWrite (h : Inv whole s) (error : ExecutionError) : Inv whole (s.failWrite error) :=
  ⟨h.counts.congr rfl rfl rfl rfl rfl, h.accepting, h.requested, fun _ hnone => nomatch hnone⟩

theorem Inv.created {initialContent : List Char} {rest : List Write} (h : Inv whole s)
    (hchain : s.writeChain = .createTempFile initialContent :: rest) (path : String) :
    Inv whole { s with
      fullOutputPath := some path, fullOutput := [], writeChain := .appendFile initialContent :: rest } := by
  refine ⟨h.counts.congr rfl rfl rfl rfl rfl, h.accepting, h.requested, fun hcapture hwrite => ?_⟩
  cases h.saved hcapture hwrite with
  | notRequested _ hnil _ =>
    rw [hchain] at hnil
    cases hnil
  | notCreated content texts hrequested _ hlinks hwhole =>
    rw [hchain] at hlinks
    obtain ⟨⟨⟩, rfl⟩ := List.cons.inj hlinks
    exact .created path (initialContent :: texts) hrequested rfl rfl hwhole
  | created _ texts _ _ hlinks _ =>
    rw [hchain] at hlinks
    cases texts with
    | nil => cases hlinks
    | cons text texts => cases (List.cons.inj hlinks).1

theorem Inv.appended {rest : List Write} {text : List Char} (h : Inv whole s)
    (hchain : s.writeChain = .appendFile text :: rest) :
    Inv whole { s with fullOutput := s.fullOutput ++ text, writeChain := rest } := by
  refine ⟨h.counts.congr rfl rfl rfl rfl rfl, h.accepting, h.requested, fun hcapture hwrite => ?_⟩
  cases h.saved hcapture hwrite with
  | notRequested _ hnil _ =>
    rw [hchain] at hnil
    cases hnil
  | notCreated content texts _ _ hlinks _ =>
    rw [hchain] at hlinks
    cases (List.cons.inj hlinks).1
  | created path texts hrequested hpath hlinks hwhole =>
    rw [hchain] at hlinks
    cases texts with
    | nil => cases hlinks
    | cons first texts =>
      obtain ⟨⟨⟩, rfl⟩ := List.cons.inj hlinks
      refine .created path texts hrequested hpath rfl ?_
      rw [hwhole, List.flatten_cons, List.append_assoc]

/-- When the command has ended the file has been asked for if it is needed. -/
theorem Inv.exited (h : Inv whole s) (outcome : ExecOutcome) :
    Inv whole { s with acceptingOutput := false, outcome := some outcome } :=
  ⟨h.counts.congr rfl rfl rfl rfl rfl, rfl, h.requested, fun hcapture hwrite =>
    (h.saved hcapture hwrite).congr rfl rfl rfl rfl⟩

theorem Inv.ensure_eq (h : Inv whole s) (initialContent : List Char) :
    (if s.exceeds && !s.fullOutputRequested then s.ensureFullOutputFile initialContent else s) = s := by
  rw [State.ensureFullOutputFile]
  cases hcapture : s.captureError with
  | some error => simp
  | none =>
    rw [if_neg]
    rw [Bool.and_eq_true, h.counts.exceeds_iff, ← h.requested hcapture]
    simp

variable {event : Event}

theorem Inv.step (h : Inv whole s) (hstep : step s event = some s') : Inv (whole ++ received s event) s' := by
  cases event with
  | chunk chunk thrown =>
    cases hstep
    exact h.onChunk chunk thrown
  | created result =>
    show Inv (whole ++ []) s'
    rw [List.append_nil]
    unfold ShellOutput.step at hstep
    dsimp only at hstep
    split at hstep
    next path hchain =>
      cases hstep
      exact h.created hchain path
    · cases hstep
      exact h.failWrite _
    · cases hstep
  | appended result left =>
    show Inv (whole ++ []) s'
    rw [List.append_nil]
    unfold ShellOutput.step at hstep
    dsimp only at hstep
    split at hstep
    · cases hstep
      exact h.failWrite _
    next path hchain hpath =>
      cases hstep
      exact h.appended hchain
    · cases hstep
      exact ⟨h.counts.congr rfl rfl rfl rfl rfl, h.accepting, h.requested, fun _ hnone => nomatch hnone⟩
    · cases hstep
  | exited outcome =>
    show Inv (whole ++ []) s'
    rw [List.append_nil]
    unfold ShellOutput.step at hstep
    dsimp only at hstep
    split at hstep
    · cases hstep
    · have hexited := h.exited outcome
      cases outcome with
      | thrown error =>
        cases hstep
        exact hexited
      | exitCode exitCode =>
        cases hstep
        rw [hexited.ensure_eq]
        exact hexited
      | error error =>
        cases hstep
        rw [hexited.ensure_eq]
        exact hexited

/-! ## Runs -/

/-- The chunks that come before the command has ended. -/
def delivered : List Event → List (List Char)
  | [] => []
  | .chunk chunk _ :: events => chunk :: delivered events
  | .exited _ :: _ => []
  | _ :: events => delivered events

/-- The whole sanitized output. -/
def output (events : List Event) : List Char := sanitized (delivered events).flatten

theorem sanitized_append (a b : List Char) : sanitized (a ++ b) = sanitized a ++ sanitized b := by
  rw [sanitized, sanitizeBinaryOutput, List.filter_append, List.filter_append]
  rfl

theorem onChunk_acceptingOutput (s : State) (chunk : List Char) (thrown : Option String) :
    (s.onChunk chunk thrown).acceptingOutput = s.acceptingOutput := by
  have hreceive : (s.receive (sanitized chunk)).acceptingOutput = s.acceptingOutput := by
    show (State.save _ _).acceptingOutput = _
    rw [State.save_eq]
    show (s.count _).acceptingOutput = _
    rw [State.count_eq]
  rw [State.onChunk]
  split
  · cases thrown <;> exact hreceive
  · rfl

theorem step_acceptingOutput (hstep : step s event = some s') :
    s'.acceptingOutput = match event with
      | .exited _ => false
      | _ => s.acceptingOutput := by
  cases event with
  | chunk chunk thrown =>
    cases hstep
    exact onChunk_acceptingOutput s chunk thrown
  | created result =>
    unfold ShellOutput.step at hstep
    dsimp only at hstep
    split at hstep <;> cases hstep <;> rfl
  | appended result left =>
    unfold ShellOutput.step at hstep
    dsimp only at hstep
    split at hstep <;> cases hstep <;> rfl
  | exited outcome =>
    have hensure : ∀ (s : State) (initialContent : List Char),
        (s.ensureFullOutputFile initialContent).acceptingOutput = s.acceptingOutput := by
      intro s initialContent
      rw [State.ensureFullOutputFile, State.chain]
      split
      · rfl
      · split <;> rfl
    unfold ShellOutput.step at hstep
    dsimp only at hstep
    split at hstep
    · cases hstep
    · split at hstep
      · cases hstep
        rfl
      · cases hstep
        split
        · rw [hensure]
        · rfl

/-- What an event and the ones after it add to the output. -/
theorem received_append (hstep : step s event = some s') (events : List Event) :
    (received s event ++ if s'.acceptingOutput then output events else []) =
      if s.acceptingOutput then output (event :: events) else [] := by
  rw [step_acceptingOutput hstep]
  cases event with
  | chunk chunk thrown =>
    have houtput : output (.chunk chunk thrown :: events) = sanitized chunk ++ output events := by
      rw [output, delivered, List.flatten_cons, sanitized_append, output]
    rw [houtput, received]
    cases s.acceptingOutput <;> rfl
  | created result => rfl
  | appended result left => rfl
  | exited outcome => cases s.acceptingOutput <;> rfl

theorem inv_of_run {events : List Event} (h : Inv whole s) (hrun : Transition.run step s events = some s') :
    Inv (whole ++ if s.acceptingOutput then output events else []) s' := by
  induction events generalizing s whole with
  | nil =>
    obtain rfl := Option.some.inj hrun
    have hnone : output [] = [] := rfl
    rw [hnone, ite_self, List.append_nil]
    exact h
  | cons event events ih =>
    obtain ⟨next, hstep, hrun⟩ := Transition.run_cons.mp hrun
    have hnext := ih (h.step hstep) hrun
    rw [List.append_assoc, received_append hstep] at hnext
    exact hnext

/-! ## Results -/

/-- What the end of the command adds to the report. -/
def ending (outcome : ExecOutcome) (aborted returnExecutionErrors : Bool) :
    Except ExecutionError (Option Int × Bool × Option ExecutionError) :=
  match outcome with
  | .exitCode exitCode => .ok (if aborted then none else some exitCode, aborted, none)
  | .error error =>
    if error.code = "aborted" || aborted then .ok (none, true, none)
    else if returnExecutionErrors then .ok (none, false, some error)
    else .error error
  | .thrown error => .error error

/-- A command that returns is waited for until the writes are done, and its result is the progress
with the ending unless a write or the capture failed. -/
theorem result_returned {outcome : ExecOutcome} (houtcome : s.outcome = some outcome)
    (hreturned : ∀ error, outcome ≠ .thrown error) (aborted returnExecutionErrors : Bool) :
    s.result aborted returnExecutionErrors =
      if s.writeChain ≠ [] then none
      else
        match s.writeError, s.captureError with
        | some error, _ => some (.error error)
        | none, some error => some (.error error)
        | none, none => some (match ending outcome aborted returnExecutionErrors with
            | .ok (exitCode, cancelled, executionError) =>
              .ok (s.createProgress.toResult exitCode cancelled executionError)
            | .error error => .error error) := by
  rw [State.result.eq_def, houtcome]
  cases outcome with
  | exitCode exitCode => rfl
  | error error =>
    rw [ending]
    cases s.writeError with
    | some writeError => rfl
    | none =>
      cases s.captureError with
      | some captureError => rfl
      | none =>
        dsimp only
        split
        · rfl
        · split
          · rfl
          · split <;> rfl
  | thrown error => exact absurd rfl (hreturned error)

/-- Once the writes are done a result is the progress with the ending. -/
theorem result_eq {outcome : ExecOutcome} (houtcome : s.outcome = some outcome) (hchain : s.writeChain = [])
    (hwrite : s.writeError = none) (hcapture : s.captureError = none) (aborted returnExecutionErrors : Bool) :
    s.result aborted returnExecutionErrors = some (match ending outcome aborted returnExecutionErrors with
      | .ok (exitCode, cancelled, executionError) =>
        .ok (s.createProgress.toResult exitCode cancelled executionError)
      | .error error => .error error) := by
  by_cases hthrown : ∃ error, outcome = .thrown error
  · obtain ⟨error, rfl⟩ := hthrown
    rw [State.result.eq_def, houtcome]
    rfl
  · rw [result_returned houtcome (fun error heq => hthrown ⟨error, heq⟩),
      if_neg (not_not_intro hchain), hwrite, hcapture]

variable {aborted returnExecutionErrors : Bool}

theorem result_ok {result : ShellCaptureResult} (h : s.result aborted returnExecutionErrors = some (.ok result)) :
    s.writeChain = [] ∧ s.writeError = none ∧ s.captureError = none ∧
      ∃ outcome exitCode cancelled executionError, s.outcome = some outcome ∧
        ending outcome aborted returnExecutionErrors = .ok (exitCode, cancelled, executionError) ∧
        result = s.createProgress.toResult exitCode cancelled executionError := by
  obtain ⟨outcome, houtcome, hthrown⟩ : ∃ outcome, s.outcome = some outcome ∧ ∀ error, outcome ≠ .thrown error := by
    rw [State.result.eq_def] at h
    cases houtcome : s.outcome with
    | none =>
      rw [houtcome] at h
      cases h
    | some outcome =>
      refine ⟨outcome, rfl, ?_⟩
      rintro error rfl
      rw [houtcome] at h
      cases h
  rw [result_returned houtcome hthrown] at h
  obtain ⟨hchain, h⟩ := Option.ite_none_left_eq_some.mp h
  cases hwrite : s.writeError with
  | some error => rw [hwrite] at h; cases h
  | none =>
    cases hcapture : s.captureError with
    | some error => rw [hwrite, hcapture] at h; cases h
    | none =>
      refine ⟨not_not.mp hchain, rfl, rfl, outcome, ?_⟩
      rw [hwrite, hcapture] at h
      cases hending : ending outcome aborted returnExecutionErrors with
      | error error =>
        rw [hending] at h
        cases h
      | ok rest =>
        obtain ⟨exitCode, cancelled, executionError⟩ := rest
        rw [hending] at h
        exact ⟨exitCode, cancelled, executionError, houtcome, rfl, (Except.ok.inj (Option.some.inj h)).symm⟩

/-- What is reported is what `truncateTail` makes of the whole output, and the file has the whole output. -/
structure Captured (whole fullOutput : List Char) (result : ShellCaptureResult) : Prop where
  truncation : result.truncation = report whole
  output : result.output = (report whole).content
  truncated : result.truncated = (report whole).truncated
  lastLineBytes : result.lastLineBytes = byteLength (lastLine whole)
  reported : result.fullOutputPath.isSome = (report whole).truncated
  file : ∀ path, result.fullOutputPath = some path → fullOutput = whole

theorem Inv.captured {result : ShellCaptureResult} (h : Inv whole s)
    (hresult : s.result aborted returnExecutionErrors = some (.ok result)) : Captured whole s.fullOutput result := by
  obtain ⟨hchain, hwrite, hcapture, outcome, exitCode, cancelled, executionError, -, -, rfl⟩ := result_ok hresult
  have hprogress := h.counts.createProgress_eq
  rw [hprogress]
  have htruncated : (report whole).truncated = s.fullOutputRequested := by
    rw [Bool.eq_iff_iff, h.requested hcapture]
    constructor
    · intro htrue
      by_contra hwithin
      rw [(report_of_within hwithin).1] at htrue
      cases htrue
    · exact fun hexceeds => (report_of_exceeds hexceeds).1
  have hfile : s.fullOutputPath.isSome = s.fullOutputRequested ∧
      ∀ path, s.fullOutputPath = some path → s.fullOutput = whole := by
    cases h.saved hcapture hwrite with
    | notRequested hrequested _ hpath =>
      rw [hrequested, hpath]
      exact ⟨rfl, nofun⟩
    | notCreated _ _ _ _ hlinks _ =>
      rw [hchain] at hlinks
      cases hlinks
    | created path texts hrequested hpath hlinks hwhole =>
      rw [hchain] at hlinks
      obtain rfl := List.map_eq_nil_iff.mp hlinks.symm
      rw [hrequested, hpath]
      refine ⟨rfl, fun _ _ => ?_⟩
      rw [hwhole, List.flatten_nil, List.append_nil]
  exact ⟨rfl, rfl, rfl, rfl, hfile.1.trans htruncated.symm, hfile.2⟩

/-- Something other than the output goes wrong: the callback, a write or the command. -/
def Event.Fails : Event → Prop
  | .chunk _ thrown => thrown ≠ none
  | .created result => ∃ message, result = .error message
  | .appended result _ => ∃ message, result = .error message
  | .exited outcome => ∀ exitCode, outcome ≠ .exitCode exitCode

/-- Nothing has gone wrong so far. -/
def State.Fine (s : State) : Prop :=
  s.captureError = none ∧ s.writeError = none ∧
    ∀ outcome, s.outcome = some outcome → ∃ exitCode, outcome = .exitCode exitCode

theorem State.receive_eq (s : State) (text : List Char) : (s.receive text).captureError = s.captureError ∧
    (s.receive text).writeError = s.writeError ∧ (s.receive text).outcome = s.outcome := by
  have hsave := State.save_eq ({ s.count text with tailOutput := (s.count text).tailOutput ++ text }) text
  have hcount := State.count_eq s text
  rw [State.receive]
  refine ⟨?_, ?_, ?_⟩
  · rw [hsave]
    show (s.count text).captureError = _
    rw [hcount]
  · rw [hsave]
    show (s.count text).writeError = _
    rw [hcount]
  · rw [hsave]
    show (s.count text).outcome = _
    rw [hcount]

theorem Inv.fine_step (h : Inv whole s) (hfine : s.Fine) (hevent : ¬ event.Fails)
    (hstep : ShellOutput.step s event = some s') : s'.Fine := by
  cases event with
  | chunk chunk thrown =>
    cases hstep
    obtain rfl : thrown = none := not_not.mp hevent
    obtain ⟨hcapture, hwrite, houtcome⟩ := s.receive_eq (sanitized chunk)
    rw [State.onChunk]
    split
    · refine ⟨hcapture.trans hfine.1, hwrite.trans hfine.2.1, ?_⟩
      exact fun outcome hsome => hfine.2.2 outcome (houtcome.symm.trans hsome)
    · exact hfine
  | created result =>
    unfold ShellOutput.step at hstep
    dsimp only at hstep
    split at hstep
    · cases hstep
      exact hfine
    · exact absurd ⟨_, rfl⟩ hevent
    · cases hstep
  | appended result left =>
    unfold ShellOutput.step at hstep
    dsimp only at hstep
    split at hstep
    next hchain hpath =>
      -- a link that appends comes after the one that creates the file
      cases h.saved hfine.1 hfine.2.1 with
      | notRequested _ hnil _ =>
        rw [hchain] at hnil
        cases hnil
      | notCreated _ _ _ _ hlinks _ =>
        rw [hchain] at hlinks
        cases (List.cons.inj hlinks).1
      | created path _ _ hsome _ _ =>
        rw [hpath] at hsome
        cases hsome
    · cases hstep
      exact hfine
    · exact absurd ⟨_, rfl⟩ hevent
    · cases hstep
  | exited outcome =>
    obtain ⟨exitCode, rfl⟩ : ∃ exitCode, outcome = .exitCode exitCode := by
      by_contra hnone
      exact hevent fun exitCode heq => hnone ⟨exitCode, heq⟩
    unfold ShellOutput.step at hstep
    dsimp only at hstep
    split at hstep
    · cases hstep
    · cases hstep
      rw [(h.exited (.exitCode exitCode)).ensure_eq]
      refine ⟨hfine.1, hfine.2.1, ?_⟩
      rintro outcome ⟨⟩
      exact ⟨exitCode, rfl⟩

theorem fine_of_run {events : List Event} (h : Inv whole s) (hfine : s.Fine)
    (hevents : ∀ event ∈ events, ¬ event.Fails) (hrun : Transition.run step s events = some s') : s'.Fine := by
  induction events generalizing s whole with
  | nil =>
    obtain rfl := Option.some.inj hrun
    exact hfine
  | cons event events ih =>
    obtain ⟨next, hstep, hrun⟩ := Transition.run_cons.mp hrun
    have hnext := h.fine_step hfine (hevents event List.mem_cons_self) hstep
    exact ih (h.step hstep) hnext (fun other hother => hevents other (List.mem_cons_of_mem _ hother)) hrun

/-- The results of two runs that captured one output and ended in one way differ in the file's name only. -/
theorem result_unique {other : State} {result result' : ShellCaptureResult}
    (h : Inv whole s) (hother : Inv whole other) (houtcome : other.outcome = s.outcome)
    (hresult : s.result aborted returnExecutionErrors = some (.ok result))
    (hresult' : other.result aborted returnExecutionErrors = some (.ok result')) :
    { result' with fullOutputPath := result.fullOutputPath } = result := by
  obtain ⟨-, -, -, outcome, exitCode, cancelled, executionError, hsome, hending, rfl⟩ := result_ok hresult
  obtain ⟨-, -, -, outcome', exitCode', cancelled', executionError', hsome', hending', rfl⟩ := result_ok hresult'
  obtain rfl : outcome' = outcome := Option.some.inj (hsome'.symm.trans (houtcome.trans hsome))
  obtain ⟨rfl, rfl, rfl⟩ : exitCode' = exitCode ∧ cancelled' = cancelled ∧ executionError' = executionError := by
    have hsame := Except.ok.inj (hending'.symm.trans hending)
    simpa using hsame
  rw [h.counts.createProgress_eq, hother.counts.createProgress_eq]
  rfl

/-- **Captured output does not depend on its chunks.** The report is that of the whole output and the file has the
whole output; the chunks at once give the same; and no result is missing unless something else fails. -/
theorem captures_whole_output (events : List Event) (s : State)
    (hrun : Transition.run step State.initial events = some s) (aborted returnExecutionErrors : Bool) :
    (∀ result, s.result aborted returnExecutionErrors = some (.ok result) →
      Captured (output events) s.fullOutput result ∧
        ∀ atOnce s' result', delivered atOnce = [(delivered events).flatten] →
          Transition.run step State.initial atOnce = some s' → s'.outcome = s.outcome →
          s'.result aborted returnExecutionErrors = some (.ok result') →
          { result' with fullOutputPath := result.fullOutputPath } = result ∧
            result'.fullOutputPath.isSome = result.fullOutputPath.isSome ∧
            (result.fullOutputPath.isSome = true → s'.fullOutput = s.fullOutput)) ∧
      ((∀ event ∈ events, ¬ event.Fails) → s.outcome ≠ none → s.writeChain = [] →
        ∃ result, s.result aborted returnExecutionErrors = some (.ok result)) := by
  have hinv : Inv (output events) s := by
    have hreached := inv_of_run inv_initial hrun
    rwa [List.nil_append] at hreached
  constructor
  · intro result hresult
    have hcaptured := hinv.captured hresult
    refine ⟨hcaptured, ?_⟩
    intro atOnce s' result' hdelivered hrun' houtcome hresult'
    have hsame : output atOnce = output events := by
      rw [output, hdelivered, List.flatten_singleton, output]
    have hinv' : Inv (output events) s' := by
      have hreached := inv_of_run inv_initial hrun'
      rw [List.nil_append] at hreached
      rw [← hsame]
      exact hreached
    have hcaptured' := hinv'.captured hresult'
    have hreported : result'.fullOutputPath.isSome = result.fullOutputPath.isSome :=
      hcaptured'.reported.trans hcaptured.reported.symm
    refine ⟨result_unique hinv hinv' houtcome hresult hresult', hreported, ?_⟩
    intro hsome
    obtain ⟨path, hpath⟩ := Option.isSome_iff_exists.mp hsome
    obtain ⟨path', hpath'⟩ := Option.isSome_iff_exists.mp (hreported.trans hsome)
    rw [hcaptured'.file path' hpath', hcaptured.file path hpath]
  · intro hevents hended hchain
    have hfine : s.Fine := fine_of_run inv_initial ⟨rfl, rfl, nofun⟩ hevents hrun
    obtain ⟨hcapture, hwrite, hcode⟩ := hfine
    obtain ⟨outcome, houtcome⟩ := Option.ne_none_iff_exists'.mp hended
    obtain ⟨exitCode, rfl⟩ := hcode outcome houtcome
    exact ⟨_, result_eq houtcome hchain hwrite hcapture aborted returnExecutionErrors⟩

section Example

/-- Two chunks, and the command ends. -/
def twoChunks : List Event :=
  [.chunk ['a', '\r'] none, .chunk ['b', '\n'] none, .exited (.exitCode 0)]

theorem captures_two_chunks : ∃ s result, Transition.run step State.initial twoChunks = some s ∧
    s.result false false = some (.ok result) ∧ Captured ['a', 'b', '\n'] s.fullOutput result := by
  obtain ⟨s, hrun⟩ : ∃ s, Transition.run step State.initial twoChunks = some s :=
    Option.isSome_iff_exists.mp (by decide +kernel)
  have houtput : output twoChunks = ['a', 'b', '\n'] := by decide +kernel
  have hready : s.outcome ≠ none ∧ s.writeChain = [] := by
    have hall : (Transition.run step State.initial twoChunks).all fun s =>
        decide (s.outcome ≠ none ∧ s.writeChain = []) := by decide +kernel
    rw [hrun] at hall
    exact of_decide_eq_true hall
  have hfine : ∀ event ∈ twoChunks, ¬ event.Fails := by
    simp [twoChunks, Event.Fails]
  obtain ⟨hcaptured, hreturns⟩ := captures_whole_output twoChunks s hrun false false
  obtain ⟨result, hresult⟩ := hreturns hfine hready.1 hready.2
  have hresultCaptured := (hcaptured result hresult).1
  rw [houtput] at hresultCaptured
  exact ⟨s, result, hrun, hresult, hresultCaptured⟩

end Example

end Mcpi.Tools.ShellOutput
