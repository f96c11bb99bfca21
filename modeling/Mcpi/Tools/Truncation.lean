import Mcpi.Tools.TruncateLines

/-!
# Truncation is maximal and reported

What is shown of a content that exceeds a limit, and what is said of it.
-/

namespace Mcpi.Tools.Truncate

open Utf16 (points pointBytes repaired Point Boundary Lone Paired)

variable {maxLines maxBytes : Nat} {content : Text}

/-- The two files. -/
inductive Implementation
  | codingAgent
  | harness

def Implementation.truncateHead : Implementation → Text → TruncationOptions → TruncationResult
  | .codingAgent => CodingAgent.truncateHead
  | .harness => Harness.truncateHead

def Implementation.truncateTail : Implementation → Text → TruncationOptions → TruncationResult
  | .codingAgent => CodingAgent.truncateTail
  | .harness => Harness.truncateTail

def TruncationOptions.lineLimit (options : TruncationOptions) : Nat := options.maxLines.getD DEFAULT_MAX_LINES

def TruncationOptions.byteLimit (options : TruncationOptions) : Nat := options.maxBytes.getD DEFAULT_MAX_BYTES

/-! ## What the result should be -/

/-- No other of the lists that fits has more lines. -/
def Longest (isPart : List Text → Prop) (maxLines maxBytes : Nat) (kept : List Text) : Prop :=
  isPart kept ∧ Fits maxLines maxBytes kept ∧
    ∀ other, isPart other → Fits maxLines maxBytes other → other.length ≤ kept.length

/-- What the line limit alone leaves is too large. -/
def StoppedByBytes (kept : List Text) (maxLines maxBytes : Nat) (content : Text) : Prop :=
  if (splitLinesForCounting content).length ≤ maxLines then maxBytes < utf8ByteLength content
  else maxBytes < linesBytes kept

/-- The report fits the content and what is shown of it; `limited` are the lines that the line limit alone leaves. -/
structure Reported (maxLines maxBytes : Nat) (content : Text) (limited : List Text) (result : TruncationResult) :
    Prop where
  truncated : result.truncated = true ↔ ¬ Within maxLines maxBytes content
  outputBytes : result.outputBytes = utf8ByteLength result.content
  lines : result.truncatedBy = some .lines → maxLines < (splitLinesForCounting content).length
  bytes : result.truncatedBy = some .bytes → StoppedByBytes limited maxLines maxBytes content

/-- Only these lines are shown. -/
def Shows (kept : List Text) (result : TruncationResult) : Prop :=
  result.content = List.intercalate [newline] kept ∧ result.outputLines = kept.length

/-- The content is shown as it is. -/
def ShowsAll (content : Text) (result : TruncationResult) : Prop :=
  result.content = content ∧ result.outputLines = (splitLinesForCounting content).length

structure HeadTruncated (maxLines maxBytes : Nat) (content : Text) (result : TruncationResult) : Prop where
  within : Within maxLines maxBytes content → ShowsAll content result
  exceeds : ¬ Within maxLines maxBytes content →
    ∃ kept, Longest (· <+: splitLinesForCounting content) maxLines maxBytes kept ∧ Shows kept result
  reported : Reported maxLines maxBytes content ((splitLinesForCounting content).take maxLines) result

/-- The last line alone is too long. -/
def LastLineTooLong (maxBytes : Nat) (content last : Text) : Prop :=
  (splitLinesForCounting content).getLast? = some last ∧ maxBytes < utf8ByteLength last

/-- An end of a line, cut between two characters, that fits. -/
def FittingEnd (maxBytes : Nat) (line ending : Text) : Prop :=
  ∃ before, line = before ++ ending ∧ Boundary before ending ∧ utf8ByteLength ending ≤ maxBytes

/-- One line is shown, the longest end of it that fits. -/
def ShowsEnd (maxBytes : Nat) (line : Text) (result : TruncationResult) : Prop :=
  FittingEnd maxBytes line result.content ∧
    (∀ ending, FittingEnd maxBytes line ending → ending.length ≤ result.content.length) ∧ result.outputLines = 1

structure TailTruncated (maxLines maxBytes : Nat) (content : Text) (result : TruncationResult) : Prop where
  within : Within maxLines maxBytes content → ShowsAll content result
  tooLong : ∀ last, LastLineTooLong maxBytes content last → ShowsEnd maxBytes last result
  exceeds : ¬ Within maxLines maxBytes content → (∀ last, ¬ LastLineTooLong maxBytes content last) →
    ∃ kept, Longest (· <:+ splitLinesForCounting content) maxLines maxBytes kept ∧ Shows kept result
  reported : Reported maxLines maxBytes content ((splitLinesForCounting content).rtake maxLines) result

/-! ## When it is -/

/-- All lines fit, and only the newline at the end is too much. -/
def OnlyFinalNewline (maxLines maxBytes : Nat) (content : Text) : Prop :=
  Fits maxLines maxBytes (splitLinesForCounting content) ∧ maxBytes < utf8ByteLength content

/-- One line may be shown, and the content is one line that is too long. -/
def OneLongLine (maxLines maxBytes : Nat) (content : Text) : Prop :=
  maxLines = 1 ∧ ∃ line, splitLinesForCounting content = [line] ∧ maxBytes < utf8ByteLength line

/-- Surrogates without their partners are in the end of the last line. -/
def LoneInEnd (maxBytes : Nat) (content : Text) : Prop :=
  ∃ last ending, LastLineTooLong maxBytes content last ∧ FittingEnd maxBytes last ending ∧ ¬ Paired ending

/-! ## Lines that were taken -/

/-- What both functions return of the lines that a loop took. -/
structure ReportsTaken (taken : List Text) (truncatedBy : TruncatedBy) (result : TruncationResult) : Prop where
  shows : Shows taken result
  truncated : result.truncated = true
  truncatedBy : result.truncatedBy = some truncatedBy
  outputBytes : result.outputBytes = utf8ByteLength result.content

section Taken

variable {walk taken : List Text} {truncatedBy : TruncatedBy} {collected : Collected} {result : TruncationResult}

theorem Stopped.finalTruncatedBy (h : Stopped maxLines maxBytes walk taken collected.truncatedBy)
    (hlength : taken.length = collected.outputLinesArr.length) :
    collected.finalTruncatedBy maxLines maxBytes = collected.truncatedBy := by
  obtain ⟨rest, -, hstop⟩ := h.rest
  rw [Collected.finalTruncatedBy]
  cases hby : collected.truncatedBy with
  | lines => split <;> rfl
  | bytes =>
    rw [hby] at hstop
    obtain ⟨next, more, -, hless, -⟩ := hstop
    rw [if_neg]
    rw [Bool.and_eq_true, decide_eq_true_eq, ← hlength]
    exact fun hall => absurd hall.1 (Nat.not_le.mpr hless)

theorem reportsTaken (h : Stopped maxLines maxBytes walk taken collected.truncatedBy)
    (hlength : taken.length = collected.outputLinesArr.length) :
    ReportsTaken collected.outputLinesArr collected.truncatedBy
      (truncatedTo utf8ByteLength maxLines maxBytes content collected) :=
  ⟨⟨rfl, rfl⟩, rfl, congrArg some (h.finalTruncatedBy hlength), rfl⟩

/-- The walk goes over the lines of the content. -/
def WalkOf (content : Text) (walk : List Text) : Prop :=
  walk.length = (splitLinesForCounting content).length ∧ linesBytes walk = linesBytes (splitLinesForCounting content)

theorem Stopped.length_gt (h : Stopped maxLines maxBytes walk taken .lines) (hwalk : WalkOf content walk)
    (hexceeds : ¬ Within maxLines maxBytes content) (hnewline : ¬ OnlyFinalNewline maxLines maxBytes content) :
    maxLines < (splitLinesForCounting content).length := by
  by_contra hlength
  have hall : walk = taken := by
    obtain ⟨rest, heq, hstop⟩ := h.rest
    rcases hstop with hnil | hlimit
    · rw [heq, hnil, List.append_nil]
    · have hwhole := congrArg List.length heq
      rw [List.length_append, hwalk.1] at hwhole
      have hnil : rest = [] := List.eq_nil_of_length_eq_zero (by omega)
      rw [heq, hnil, List.append_nil]
  have hfits := h.fits
  rw [← hall, Fits, hwalk.1, hwalk.2] at hfits
  apply hnewline
  refine ⟨hfits, ?_⟩
  by_contra hbytes
  exact hexceeds ⟨hfits.1, Nat.not_lt.mp hbytes⟩

theorem Stopped.limited_gt (h : Stopped maxLines maxBytes walk taken .bytes) :
    maxBytes < linesBytes (walk.take maxLines) := by
  obtain ⟨rest, rfl, next, more, rfl, hless, hlarge⟩ := h.rest
  apply Nat.lt_of_lt_of_le hlarge
  apply linesBytes_le_of_prefix
  apply List.prefix_take_iff.mpr
  refine ⟨⟨more, by rw [List.append_assoc]; rfl⟩, ?_⟩
  rw [List.length_append, List.length_singleton]
  omega

theorem stoppedByBytes {kept : List Text} (hkept : maxBytes < linesBytes kept)
    (hle : linesBytes kept ≤ linesBytes (splitLinesForCounting content)) :
    StoppedByBytes kept maxLines maxBytes content := by
  have hcontent := linesBytes_le_content content
  rw [StoppedByBytes]
  split
  · omega
  · exact hkept

theorem Stopped.reported {kept limited : List Text} (h : Stopped maxLines maxBytes walk taken truncatedBy)
    (hresult : ReportsTaken kept truncatedBy result) (hwalk : WalkOf content walk)
    (hlimited : linesBytes limited = linesBytes (walk.take maxLines))
    (hexceeds : ¬ Within maxLines maxBytes content) (hnewline : ¬ OnlyFinalNewline maxLines maxBytes content) :
    Reported maxLines maxBytes content limited result where
  truncated := iff_of_true hresult.truncated hexceeds
  outputBytes := hresult.outputBytes
  lines := by
    rw [hresult.truncatedBy]
    rintro ⟨⟩
    exact h.length_gt hwalk hexceeds hnewline
  bytes := by
    rw [hresult.truncatedBy]
    rintro ⟨⟩
    apply stoppedByBytes
    · rw [hlimited]
      exact h.limited_gt
    · rw [hlimited, ← hwalk.2]
      exact linesBytes_le_of_prefix (List.take_prefix maxLines walk)

/-- Where only the newline is too much, the line limit is named. -/
theorem Stopped.lines_of_newline (h : Stopped maxLines maxBytes walk taken truncatedBy) (hwalk : WalkOf content walk)
    (hnewline : OnlyFinalNewline maxLines maxBytes content) : truncatedBy = .lines := by
  cases truncatedBy with
  | lines => rfl
  | bytes =>
    have hlarge := h.limited_gt
    have hle := linesBytes_le_of_prefix (List.take_prefix maxLines walk)
    have hfits := hnewline.1.2
    rw [← hwalk.2] at hfits
    omega

theorem Reported.not_newline {kept limited : List Text} (h : Reported maxLines maxBytes content limited result)
    (hstopped : Stopped maxLines maxBytes walk taken truncatedBy) (hresult : ReportsTaken kept truncatedBy result)
    (hwalk : WalkOf content walk) : ¬ OnlyFinalNewline maxLines maxBytes content := by
  intro hnewline
  rw [hstopped.lines_of_newline hwalk hnewline] at hresult
  exact Nat.not_lt.mpr hnewline.1.1 (h.lines hresult.truncatedBy)

end Taken

theorem untruncated_reported (h : Within maxLines maxBytes content) (limited : List Text) :
    Reported maxLines maxBytes content limited (untruncated utf8ByteLength maxLines maxBytes content) where
  truncated := iff_of_false Bool.false_ne_true (not_not_intro h)
  outputBytes := rfl
  lines := nofun
  bytes := nofun

theorem within_iff :
    ((splitLinesForCounting content).length ≤ maxLines && utf8ByteLength content ≤ maxBytes) = true ↔
      Within maxLines maxBytes content := by
  rw [Bool.and_eq_true, decide_eq_true_eq, decide_eq_true_eq, Within]

/-! ## The first lines -/

theorem walkOf_lines (content : Text) : WalkOf content (splitLinesForCounting content) := ⟨rfl, rfl⟩

/-- `truncateHead` returns the lines that its loop took, and none where the first is too long. -/
theorem truncateHeadWith_stopped (hlines : 0 < maxLines) (hexceeds : ¬ Within maxLines maxBytes content) :
    ∃ taken truncatedBy, Stopped maxLines maxBytes (splitLinesForCounting content) taken truncatedBy ∧
      ReportsTaken taken truncatedBy (truncateHeadWith utf8ByteLength maxLines maxBytes content) := by
  have hfits : Fits maxLines maxBytes [] := ⟨Nat.zero_le _, Nat.zero_le _⟩
  rw [truncateHeadWith, if_neg (within_iff.not.mpr hexceeds)]
  split
  next hfirst =>
    cases hall : splitLinesForCounting content with
    | nil =>
      rw [hall] at hfirst
      exact absurd hfirst (Nat.not_lt_zero _)
    | cons first lines =>
      rw [hall] at hfirst
      have hstopped : Stopped maxLines maxBytes (first :: lines) [] .bytes :=
        ⟨hfits, first :: lines, rfl, first, lines, rfl, hlines, by simpa using hfirst⟩
      exact ⟨[], .bytes, hstopped, ⟨rfl, rfl⟩, rfl, rfl, rfl⟩
  · obtain ⟨hstopped, -, -⟩ := collectHead_stopped (splitLinesForCounting content) [] hfits
    exact ⟨_, _, hstopped, reportsTaken hstopped rfl⟩

theorem truncateHeadWith_iff (hlines : 0 < maxLines) :
    HeadTruncated maxLines maxBytes content (truncateHeadWith utf8ByteLength maxLines maxBytes content) ↔
      ¬ OnlyFinalNewline maxLines maxBytes content := by
  by_cases hwithin : Within maxLines maxBytes content
  · have hresult : truncateHeadWith utf8ByteLength maxLines maxBytes content =
        untruncated utf8ByteLength maxLines maxBytes content := by
      rw [truncateHeadWith, if_pos (within_iff.mpr hwithin)]
    rw [hresult]
    apply iff_of_true
    · exact ⟨fun _ => ⟨rfl, rfl⟩, fun hexceeds => absurd hwithin hexceeds, untruncated_reported hwithin _⟩
    · exact fun hnewline => Nat.not_lt.mpr hwithin.2 hnewline.2
  · obtain ⟨taken, truncatedBy, hstopped, hresult⟩ := truncateHeadWith_stopped hlines hwithin
    have hwalk := walkOf_lines content
    constructor
    · exact fun h => h.reported.not_newline hstopped hresult hwalk
    · intro hnewline
      refine ⟨fun h => absurd h hwithin, fun _ => ⟨taken, ⟨hstopped.prefix_walk, hstopped.fits, ?_⟩, hresult.shows⟩, ?_⟩
      · exact fun other hother hfits => hstopped.longest hother hfits
      · exact hstopped.reported hresult hwalk rfl hwithin hnewline

/-! ## The last lines -/

theorem walkOf_reverse (content : Text) : WalkOf content (splitLinesForCounting content).reverse :=
  ⟨List.length_reverse, linesBytes_reverse _⟩

/-- What both implementations cut a line that is too long to. -/
def Cuts (cut : Text → Nat → Text) : Prop :=
  ∀ line n, n < utf8ByteLength line → cut line n = ((lastPoints n line).map repaired).flatten

section Cut

variable {cut : Text → Nat → Text} {last : Text}

theorem truncateTailWith_stopped (cut : Text → Nat → Text) (hexceeds : ¬ Within maxLines maxBytes content)
    (hlast : ∀ last, ¬ LastLineTooLong maxBytes content last) :
    ∃ taken truncatedBy, Stopped maxLines maxBytes (splitLinesForCounting content).reverse taken.reverse truncatedBy ∧
        ReportsTaken taken truncatedBy (truncateTailWith utf8ByteLength maxLines maxBytes cut content) := by
  have hfits : Fits maxLines maxBytes (List.reverse []) := ⟨Nat.zero_le _, Nat.zero_le _⟩
  rw [truncateTailWith, if_neg (within_iff.not.mpr hexceeds)]
  obtain ⟨hstopped, -, -⟩ := collectTail_stopped cut (splitLinesForCounting content).reverse [] hfits <| by
    intro _ last hhead
    rw [List.head?_reverse] at hhead
    by_contra hlong
    exact hlast last ⟨hhead, Nat.not_le.mp hlong⟩
  exact ⟨_, _, hstopped, reportsTaken hstopped List.length_reverse⟩

theorem LastLineTooLong.lt (h : LastLineTooLong maxBytes content last) (hlines : 0 < maxLines) :
    maxBytes < linesBytes ((splitLinesForCounting content).rtake maxLines) := by
  obtain ⟨hmem, hlong⟩ := h
  obtain ⟨lines, hall⟩ := List.getLast?_eq_some_iff.mp hmem
  obtain ⟨n, rfl⟩ := Nat.exists_eq_add_one_of_ne_zero (Nat.ne_of_gt hlines)
  rw [hall, List.rtake_concat_succ, linesBytes_concat]
  omega

theorem LastLineTooLong.exceeds (h : LastLineTooLong maxBytes content last) :
    maxBytes < linesBytes (splitLinesForCounting content) := by
  obtain ⟨hmem, hlong⟩ := h
  obtain ⟨lines, hall⟩ := List.getLast?_eq_some_iff.mp hmem
  rw [hall, linesBytes_concat]
  omega

theorem LastLineTooLong.not_within (h : LastLineTooLong maxBytes content last) :
    ¬ Within maxLines maxBytes content := by
  have hle := linesBytes_le_content content
  have hlt := h.exceeds
  exact fun hwithin => Nat.not_lt.mpr hwithin.2 (Nat.lt_of_lt_of_le hlt hle)

theorem LastLineTooLong.not_newline (h : LastLineTooLong maxBytes content last) :
    ¬ OnlyFinalNewline maxLines maxBytes content :=
  fun hnewline => Nat.not_lt.mpr hnewline.1.2 h.exceeds

theorem truncateTailWith_tooLong (cut : Text → Nat → Text) (hlines : 0 < maxLines)
    (hlast : LastLineTooLong maxBytes content last) :
    truncateTailWith utf8ByteLength maxLines maxBytes cut content = truncatedTo utf8ByteLength maxLines maxBytes content
        ⟨[cut last maxBytes], utf8ByteLength (cut last maxBytes), .bytes, true⟩ := by
  obtain ⟨lines, hall⟩ := List.getLast?_eq_some_iff.mp hlast.1
  rw [truncateTailWith, if_neg (within_iff.not.mpr hlast.not_within), hall, List.reverse_concat, collectTail,
    if_pos (show ([] : List Text).length < maxLines from hlines)]
  have hlong := hlast.2
  rw [if_pos]
  · rfl
  · show 0 + (utf8ByteLength last + 0) > maxBytes
    omega

/-! ## The end of the last line -/

theorem fittingEnd_lastPoints (maxBytes : Nat) (line : Text) :
    FittingEnd maxBytes line (lastPoints maxBytes line).flatten := by
  obtain ⟨before, hbefore⟩ := Fitting.exists_lastFit pointBytes maxBytes (points line)
  refine ⟨before.flatten, ?_, (Utf16.boundary_of_points hbefore).1, utf8ByteLength_flatten_lastPoints maxBytes line⟩
  rw [lastPoints, ← List.flatten_append, ← hbefore, Utf16.flatten_points]

theorem FittingEnd.points_suffix {line ending : Text} (h : FittingEnd maxBytes line ending) :
    points ending <:+ lastPoints maxBytes line := by
  obtain ⟨before, rfl, hboundary, hfits⟩ := h
  rw [utf8ByteLength_eq] at hfits
  exact Fitting.lastFit_longest (Utf16.points_append hboundary) hfits

theorem FittingEnd.length_le {line ending : Text} (h : FittingEnd maxBytes line ending) :
    ending.length ≤ (lastPoints maxBytes line).flatten.length := by
  obtain ⟨before, hbefore⟩ := h.points_suffix
  rw [← hbefore, List.flatten_append, Utf16.flatten_points, List.length_append]
  exact Nat.le_add_left _ _

theorem length_repaired {list : List Text} (h : ∀ point ∈ list, Point point) :
    (list.map repaired).flatten.length = list.flatten.length := by
  rw [List.length_flatten, List.length_flatten, List.map_map]
  congr 1
  apply List.map_congr_left
  intro point hpoint
  show (repaired point).length = point.length
  cases h point hpoint with
  | single u =>
    rw [repaired]
    split <;> rfl
  | pair u v => rfl

theorem repaired_of_flatten {list : List Text} (h : ∀ point ∈ list, Point point)
    (heq : (list.map repaired).flatten = list.flatten) : ∀ point ∈ list, repaired point = point := by
  induction list with
  | nil => exact nofun
  | cons first list ih =>
    have hrest := fun point hpoint => h point (List.mem_cons_of_mem first hpoint)
    have hlength : (repaired first).length = first.length := by
      have hone : ([first].map repaired).flatten.length = [first].flatten.length := by
        apply length_repaired
        intro point hpoint
        rw [List.mem_singleton.mp hpoint]
        exact h first List.mem_cons_self
      simpa using hone
    rw [List.map_cons, List.flatten_cons, List.flatten_cons] at heq
    obtain ⟨hfirst, hflatten⟩ := List.append_inj heq hlength
    intro point hpoint
    rcases List.mem_cons.mp hpoint with rfl | hmem
    · exact hfirst
    · exact ih hrest hflatten point hmem

theorem not_lone_of_repaired {point : Text} (h : repaired point = point) : ¬ Lone point := by
  rintro ⟨u, rfl, hlone⟩
  rw [repaired, if_pos hlone] at h
  obtain rfl : 0xfffd = u := (List.cons.inj h).1
  exact absurd hlone (by decide)

theorem showsEnd_iff (hcut : Cuts cut) (hlines : 0 < maxLines) (hlast : LastLineTooLong maxBytes content last) :
    ShowsEnd maxBytes last (truncateTailWith utf8ByteLength maxLines maxBytes cut content) ↔
      ∀ ending, FittingEnd maxBytes last ending → Paired ending := by
  have hpoint : ∀ point ∈ lastPoints maxBytes last, Point point := fun point => point_of_mem_lastPoints
  rw [truncateTailWith_tooLong cut hlines hlast]
  have hcontent : (truncatedTo utf8ByteLength maxLines maxBytes content
      ⟨[cut last maxBytes], utf8ByteLength (cut last maxBytes), .bytes, true⟩).content =
        ((lastPoints maxBytes last).map repaired).flatten := by
    show List.intercalate [newline] [cut last maxBytes] = _
    rw [List.intercalate_singleton]
    exact hcut last maxBytes hlast.2
  rw [ShowsEnd, hcontent]
  constructor
  · rintro ⟨⟨before, heq, -⟩, hlongest, -⟩ ending hending
    -- the end that is shown and the longest that fits are equally long ends of one line
    obtain ⟨before', heq', -⟩ := fittingEnd_lastPoints maxBytes last
    have hsame : ((lastPoints maxBytes last).map repaired).flatten = (lastPoints maxBytes last).flatten :=
      (List.append_inj' (heq.symm.trans heq') (length_repaired hpoint)).2
    intro point hmem
    apply not_lone_of_repaired
    exact repaired_of_flatten hpoint hsame point (hending.points_suffix.subset hmem)
  · intro hpaired
    have hlone := hpaired _ (fittingEnd_lastPoints maxBytes last)
    rw [Paired, points_flatten_lastPoints] at hlone
    have hsame : (lastPoints maxBytes last).map repaired = lastPoints maxBytes last := by
      rw [← List.map_id (lastPoints maxBytes last), List.map_map]
      apply List.map_congr_left
      intro point hmem
      exact Utf16.repaired_of_not_lone (hlone point hmem) (hpoint point hmem)
    rw [hsame]
    exact ⟨fittingEnd_lastPoints maxBytes last, fun ending hending => hending.length_le, rfl⟩

/-- Which limit is named for a line that is too long. -/
theorem truncatedBy_tooLong (hcut : Cuts cut) (hlines : 0 < maxLines) (hlast : LastLineTooLong maxBytes content last) :
    (truncateTailWith utf8ByteLength maxLines maxBytes cut content).truncatedBy =
      some (if maxLines = 1 then .lines else .bytes) := by
  have hfits : utf8ByteLength (cut last maxBytes) ≤ maxBytes := by
    rw [hcut last maxBytes hlast.2]
    exact utf8ByteLength_repaired_le hlast.2
  rw [truncateTailWith_tooLong cut hlines hlast]
  show some (Collected.finalTruncatedBy maxLines maxBytes _) = _
  rw [Collected.finalTruncatedBy]
  by_cases hone : maxLines = 1
  · rw [if_pos hone, if_pos]
    rw [Bool.and_eq_true, decide_eq_true_eq, decide_eq_true_eq]
    exact ⟨Nat.le_of_eq hone, hfits⟩
  · rw [if_neg hone, if_neg]
    rw [Bool.and_eq_true, decide_eq_true_eq]
    show ¬ (1 ≥ maxLines ∧ _)
    omega

/-- Of a line that is too long the report is right unless the content has no other and one may be shown. -/
theorem reported_tooLong_iff (hcut : Cuts cut) (hlines : 0 < maxLines) (hlast : LastLineTooLong maxBytes content last) :
    Reported maxLines maxBytes content ((splitLinesForCounting content).rtake maxLines)
        (truncateTailWith utf8ByteLength maxLines maxBytes cut content) ↔
      ¬ OneLongLine maxLines maxBytes content := by
  have hby := truncatedBy_tooLong hcut hlines hlast
  have hresult := truncateTailWith_tooLong cut hlines hlast
  constructor
  · rintro h ⟨hone, line, hall, -⟩
    have hlength := h.lines (by rw [hby, if_pos hone])
    rw [hall, hone] at hlength
    exact Nat.lt_irrefl 1 hlength
  · intro hnot
    refine ⟨?_, ?_, ?_, ?_⟩
    · rw [hresult]
      exact iff_of_true rfl hlast.not_within
    · rw [hresult]
      rfl
    · rw [hby]
      intro heq
      split at heq
      next hone =>
        obtain ⟨lines, hall⟩ := List.getLast?_eq_some_iff.mp hlast.1
        cases lines with
        | nil => exact absurd ⟨hone, last, hall, hlast.2⟩ hnot
        | cons first lines =>
          rw [hall, hone, List.length_append]
          simp
      · cases heq
    · rw [hby]
      intro _
      apply stoppedByBytes (hlast.lt hlines)
      rw [List.rtake_eq_reverse_take_reverse, linesBytes_reverse, ← (walkOf_reverse content).2]
      exact linesBytes_le_of_prefix (List.take_prefix _ _)

theorem truncateTailWith_iff (hcut : Cuts cut) (hlines : 0 < maxLines) :
    TailTruncated maxLines maxBytes content (truncateTailWith utf8ByteLength maxLines maxBytes cut content) ↔
      ¬ OnlyFinalNewline maxLines maxBytes content ∧ ¬ OneLongLine maxLines maxBytes content ∧
        ¬ LoneInEnd maxBytes content := by
  by_cases htooLong : ∃ last, LastLineTooLong maxBytes content last
  · obtain ⟨last, hlast⟩ := htooLong
    have hunique : ∀ other, LastLineTooLong maxBytes content other → other = last :=
      fun other hother => Option.some.inj (hother.1.symm.trans hlast.1)
    have hend := showsEnd_iff hcut hlines hlast
    constructor
    · intro h
      refine ⟨hlast.not_newline, (reported_tooLong_iff hcut hlines hlast).mp h.reported, ?_⟩
      rintro ⟨other, ending, hother, hending, hlone⟩
      rw [hunique other hother] at hending
      exact hlone (hend.mp (h.tooLong last hlast) ending hending)
    · rintro ⟨-, hone, hlone⟩
      refine ⟨fun h => absurd h hlast.not_within, ?_, fun _ h => absurd hlast (h last),
        (reported_tooLong_iff hcut hlines hlast).mpr hone⟩
      intro other hother
      rw [hunique other hother]
      apply hend.mpr
      intro ending hending
      by_contra hnot
      exact hlone ⟨last, ending, hlast, hending, hnot⟩
  · have hnone : ∀ last, ¬ LastLineTooLong maxBytes content last := fun last hlast => htooLong ⟨last, hlast⟩
    have hone : ¬ OneLongLine maxLines maxBytes content := by
      rintro ⟨-, line, hall, hlong⟩
      exact hnone line ⟨by rw [hall]; rfl, hlong⟩
    have hlone : ¬ LoneInEnd maxBytes content := by
      rintro ⟨last, ending, hlast, -⟩
      exact hnone last hlast
    by_cases hwithin : Within maxLines maxBytes content
    · have hresult : truncateTailWith utf8ByteLength maxLines maxBytes cut content =
          untruncated utf8ByteLength maxLines maxBytes content := by
        rw [truncateTailWith, if_pos (within_iff.mpr hwithin)]
      rw [hresult]
      apply iff_of_true
      · exact ⟨fun _ => ⟨rfl, rfl⟩, fun last hlast => absurd hlast (hnone last),
          fun hexceeds => absurd hwithin hexceeds, untruncated_reported hwithin _⟩
      · exact ⟨fun hnewline => Nat.not_lt.mpr hwithin.2 hnewline.2, hone, hlone⟩
    · obtain ⟨taken, truncatedBy, hstopped, hresult⟩ := truncateTailWith_stopped cut hwithin hnone
      have hwalk := walkOf_reverse content
      constructor
      · exact fun h => ⟨h.reported.not_newline hstopped hresult hwalk, hone, hlone⟩
      · rintro ⟨hnewline, -, -⟩
        have hfits : Fits maxLines maxBytes taken := by
          have hreverse := hstopped.fits
          rwa [Fits, List.length_reverse, linesBytes_reverse] at hreverse
        refine ⟨fun h => absurd h hwithin, fun last hlast => absurd hlast (hnone last),
          fun _ _ => ⟨taken, ⟨List.reverse_prefix.mp hstopped.prefix_walk, hfits, ?_⟩, hresult.shows⟩, ?_⟩
        · intro other hother hotherFits
          have hreverse : Fits maxLines maxBytes other.reverse := by
            rw [Fits, List.length_reverse, linesBytes_reverse]
            exact hotherFits
          have hle := hstopped.longest (List.reverse_prefix.mpr hother) hreverse
          rwa [List.length_reverse, List.length_reverse] at hle
        · apply hstopped.reported hresult hwalk _ hwithin hnewline
          rw [List.rtake_eq_reverse_take_reverse, linesBytes_reverse]

end Cut

/-! ## Both implementations -/

theorem codingAgent_cuts : Cuts CodingAgent.truncateStringToBytesFromEnd := by
  intro line n h
  rw [← bufferByteLength_eq] at h
  exact CodingAgent.truncateStringToBytesFromEnd_eq h

theorem harness_cuts : Cuts Harness.truncateStringToBytesFromEnd :=
  fun line n _ => Harness.truncateStringToBytesFromEnd_eq line n

/-- Both functions return the most lines that fit and report them, unless only the newline at the end is too much,
the content is one long line where one may be shown, or surrogates without partners are where the last line is cut. -/
theorem truncates_iff (implementation : Implementation) (content : Text) (options : TruncationOptions)
    (hlines : 0 < options.lineLimit) :
    (HeadTruncated options.lineLimit options.byteLimit content (implementation.truncateHead content options) ∧
      TailTruncated options.lineLimit options.byteLimit content (implementation.truncateTail content options)) ↔
      ¬ OnlyFinalNewline options.lineLimit options.byteLimit content ∧
        ¬ OneLongLine options.lineLimit options.byteLimit content ∧ ¬ LoneInEnd options.byteLimit content := by
  have hhead : implementation.truncateHead content options =
      truncateHeadWith utf8ByteLength options.lineLimit options.byteLimit content := by
    cases implementation with
    | codingAgent =>
      rw [← bufferByteLength_eq]
      rfl
    | harness => rfl
  have htail : ∃ cut, Cuts cut ∧ implementation.truncateTail content options =
      truncateTailWith utf8ByteLength options.lineLimit options.byteLimit cut content := by
    cases implementation with
    | codingAgent =>
      refine ⟨CodingAgent.truncateStringToBytesFromEnd, codingAgent_cuts, ?_⟩
      rw [← bufferByteLength_eq]
      rfl
    | harness => exact ⟨Harness.truncateStringToBytesFromEnd, harness_cuts, rfl⟩
  obtain ⟨cut, hcut, hresult⟩ := htail
  rw [hhead, hresult, truncateHeadWith_iff hlines, truncateTailWith_iff hcut hlines]
  constructor
  · exact fun h => h.2
  · exact fun h => ⟨h.1, h⟩

section Example

/-- `"ab\ncd"` -/
def twoLines : Text := [0x61, 0x62, newline, 0x63, 0x64]

/-- One of two lines may be shown, and three bytes. -/
theorem truncates_two_lines :
    HeadTruncated 1 3 twoLines (Implementation.harness.truncateHead twoLines ⟨some 1, some 3⟩) ∧
      TailTruncated 1 3 twoLines (Implementation.harness.truncateTail twoLines ⟨some 1, some 3⟩) := by
  have hlast : ∀ last, ¬ LastLineTooLong 3 twoLines last := by
    rintro last ⟨heq, hlong⟩
    obtain rfl : [0x63, 0x64] = last := Option.some.inj heq
    exact absurd hlong (by decide)
  apply (truncates_iff .harness twoLines ⟨some 1, some 3⟩ (by decide)).mpr
  refine ⟨?_, ?_, ?_⟩
  · rintro ⟨⟨hlines, -⟩, -⟩
    exact absurd hlines (by decide)
  · rintro ⟨-, line, hall, -⟩
    have hlength : (splitLinesForCounting twoLines).length = 1 := congrArg List.length hall
    exact absurd hlength (by decide)
  · rintro ⟨last, ending, htooLong, -⟩
    exact hlast last htooLong

/-- `"abc\n"` -/
def finalNewline : Text := [0x61, 0x62, 0x63, newline]

/-- **The wrong limit is named** for one line of three bytes and a newline, where 2000 lines and three bytes may be
shown. -/
theorem final_newline_is_no_line :
    ¬ HeadTruncated 2000 3 finalNewline (Implementation.codingAgent.truncateHead finalNewline ⟨none, some 3⟩) ∧
      ¬ TailTruncated 2000 3 finalNewline (Implementation.harness.truncateTail finalNewline ⟨none, some 3⟩) := by
  have hone : (splitLinesForCounting finalNewline).length = 1 := by decide
  have hhead : (Implementation.codingAgent.truncateHead finalNewline ⟨none, some 3⟩).truncatedBy = some .lines := by
    decide +kernel
  have htail : (Implementation.harness.truncateTail finalNewline ⟨none, some 3⟩).truncatedBy = some .lines := by
    decide +kernel
  constructor
  · intro h
    have hmore := h.reported.lines hhead
    omega
  · intro h
    have hmore := h.reported.lines htail
    omega

end Example

end Mcpi.Tools.Truncate
