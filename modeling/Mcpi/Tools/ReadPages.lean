import Mcpi.Tools.Truncation

/-!
# Pages of a file

The `read` tool on a text file, and what a reader sees that follows its offsets.
-/

namespace Mcpi.Tools.Read

open Truncate

/-- What is said in brackets behind the text of the file. -/
inductive Notice
  | lineExceedsLimit (startLineDisplay : Nat)
  | showing (startLineDisplay endLineDisplay totalFileLines nextOffset : Nat) (truncatedBy : Option TruncatedBy)
  | moreLines (remaining nextOffset : Nat)
  deriving DecidableEq

/-- The text of a result, less its notice -/
structure Page where
  content : Text
  notice : Option Notice
  deriving DecidableEq

def Page.nextOffset (page : Page) : Option Nat :=
  match page.notice with
  | some (.showing _ _ _ nextOffset _) => some nextOffset
  | some (.moreLines _ nextOffset) => some nextOffset
  | _ => none

/-- `Offset ... is beyond end of file (... lines total)` -/
structure BeyondEnd where
  offset : Option Nat
  lines : Nat
  deriving DecidableEq

def execute (textContent : Text) (offset limit : Option Nat) : Except BeyondEnd Page :=
  let allLines := List.splitOn newline textContent
  let startLine := offset.getD 0 - 1
  if startLine ≥ allLines.length then .error ⟨offset, allLines.length⟩
  else
    let userLimitedLines := limit.map fun limit => min (startLine + limit) allLines.length - startLine
    let selectedContent :=
      List.intercalate [newline] (match userLimitedLines with
          | some count => (allLines.drop startLine).take count
          | none => allLines.drop startLine)
    let truncation := CodingAgent.truncateHead selectedContent ⟨none, none⟩
    if truncation.firstLineExceedsLimit then .ok ⟨[], some (.lineExceedsLimit (startLine + 1))⟩
    else if truncation.truncated then
      let endLineDisplay := startLine + 1 + truncation.outputLines - 1
      .ok ⟨truncation.content, some (.showing (startLine + 1) endLineDisplay allLines.length (endLineDisplay + 1)
        truncation.truncatedBy)⟩
    else
      match userLimitedLines with
      | some count =>
        if startLine + count < allLines.length then
          .ok ⟨truncation.content, some (.moreLines (allLines.length - (startLine + count)) (startLine + count + 1))⟩
        else .ok ⟨truncation.content, none⟩
      | none => .ok ⟨truncation.content, none⟩

/-- The calls from one offset on, up to one that suggests no further offset: none where a call is refused. -/
def follow (textContent : Text) (limits : Nat → Option Nat) : (fuel call : Nat) → Option Nat → Option (List Page)
  | 0, _, _ => none
  | fuel + 1, call, offset =>
    match execute textContent offset (limits call) with
    | .error _ => none
    | .ok page =>
      match page.nextOffset with
      | none => some [page]
      | some nextOffset => (follow textContent limits fuel (call + 1) (some nextOffset)).map (page :: ·)

/-! ## What the pages should be -/

/-- The notice is about `count` lines from `start` on. -/
def Notice.Fits (total start count : Nat) : Notice → Prop
  | .lineExceedsLimit _ => False
  | .showing startLineDisplay endLineDisplay totalFileLines nextOffset _ =>
    startLineDisplay = start + 1 ∧ endLineDisplay = start + count ∧ totalFileLines = total ∧
      nextOffset = start + count + 1
  | .moreLines remaining nextOffset => remaining = total - (start + count) ∧ nextOffset = start + count + 1

/-- A page of `count` lines: it has a notice if there are more. -/
structure PageOf (allLines : List Text) (start count : Nat) (page : Page) : Prop where
  pos : 0 < count
  le : start + count ≤ allLines.length
  content : page.content = List.intercalate [newline] ((allLines.drop start).take count)
  notice : ∀ notice, page.notice = some notice → notice.Fits allLines.length start count
  more : start + count < allLines.length ↔ page.notice.isSome = true

/-- Pages that follow each other up to the last line -/
inductive Pages (allLines : List Text) : Nat → List Page → Prop
  | last {start count : Nat} {page : Page} (h : PageOf allLines start count page)
      (hlast : start + count = allLines.length) : Pages allLines start [page]
  | more {start count : Nat} {page : Page} {pages : List Page} (h : PageOf allLines start count page)
      (hpages : Pages allLines (start + count) pages) : Pages allLines start (page :: pages)

/-! ## Truncation of the lines that are selected -/

section Selected

variable {maxLines maxBytes : Nat} {content : Text}

theorem Stopped.length_lt {taken : List Text} {truncatedBy : TruncatedBy}
    (h : Stopped maxLines maxBytes (splitLinesForCounting content) taken truncatedBy)
    (hexceeds : ¬ Within maxLines maxBytes content) :
    taken <+: List.splitOn newline content ∧ taken.length < (List.splitOn newline content).length := by
  have htaken := h.prefix_walk
  have hlength := htaken.length_le
  have hpos := List.length_pos_iff.mpr (List.splitOn_ne_nil newline content)
  have hwithin : Within maxLines maxBytes content ↔
      (splitLinesForCounting content).length ≤ maxLines ∧ utf8ByteLength content ≤ maxBytes := Iff.rfl
  rw [splitLinesForCounting] at htaken hlength hwithin
  split at htaken
  next hnil =>
    rw [if_pos hnil] at hlength
    rw [List.prefix_nil.mp htaken]
    exact ⟨List.nil_prefix, hpos⟩
  next hne =>
    rw [if_neg hne] at hlength hwithin
    split at htaken
    next hlast =>
      rw [if_pos hlast, List.length_dropLast] at hlength
      exact ⟨htaken.trans (List.dropLast_prefix _), by omega⟩
    next hlast =>
      rw [if_neg hlast] at hlength hwithin
      refine ⟨htaken, Nat.lt_of_le_of_ne hlength fun heq => hexceeds (hwithin.mpr ?_)⟩
      have hall := htaken.eq_of_length heq
      refine ⟨heq ▸ h.fits.1, ?_⟩
      have hbytes := h.fits.2
      rw [linesBytes, hall, List.intercalate_splitOn] at hbytes
      exact hbytes

theorem Stopped.pos {taken : List Text} {truncatedBy : TruncatedBy}
    (h : Stopped maxLines maxBytes (splitLinesForCounting content) taken truncatedBy) (hlines : 0 < maxLines)
    (hexceeds : ¬ Within maxLines maxBytes content)
    (hline : ∀ line ∈ splitLinesForCounting content, utf8ByteLength line ≤ maxBytes) : 0 < taken.length := by
  apply Nat.pos_of_ne_zero
  intro hzero
  obtain rfl := List.length_eq_zero_iff.mp hzero
  obtain ⟨rest, hwalk, hstop⟩ := h.rest
  cases truncatedBy with
  | lines =>
    rcases hstop with rfl | hlimit
    · have hcontent : content = [] := by
        have hbytes := linesBytes_le_content content
        rcases content_eq content with heq | heq
        · rw [hwalk] at heq
          exact heq
        · -- A newline alone is a line.
          rw [hwalk] at heq
          rw [heq] at hwalk
          cases hwalk
      rw [hcontent] at hexceeds
      exact hexceeds ⟨Nat.zero_le _, Nat.zero_le _⟩
    · exact absurd hlimit (Nat.ne_of_lt hlines)
  | bytes =>
    obtain ⟨next, more, rfl, -, hlarge⟩ := hstop
    have hnext := hline next (by rw [hwalk]; exact List.mem_cons_self)
    exact absurd hlarge (Nat.not_lt.mpr (by simpa using hnext))

end Selected

/-! ## One call -/

section Call

variable {textContent : Text} {offset limit : Option Nat}

theorem truncateHead_eq (content : Text) : CodingAgent.truncateHead content ⟨none, none⟩ =
    truncateHeadWith utf8ByteLength DEFAULT_MAX_LINES DEFAULT_MAX_BYTES content := by
  rw [← bufferByteLength_eq]
  rfl

theorem firstLineExceedsLimit_eq {maxLines maxBytes : Nat} {content : Text}
    (hline : ∀ line ∈ splitLinesForCounting content, utf8ByteLength line ≤ maxBytes) :
    (truncateHeadWith utf8ByteLength maxLines maxBytes content).firstLineExceedsLimit = false := by
  rw [truncateHeadWith]
  split
  · rfl
  · split
    next hfirst =>
      cases hall : splitLinesForCounting content with
      | nil =>
        rw [hall] at hfirst
        exact absurd hfirst (Nat.not_lt_zero _)
      | cons first lines =>
        rw [hall] at hfirst hline
        exact absurd hfirst (Nat.not_lt.mpr (hline first List.mem_cons_self))
    · rfl

/-- The lines that the limit of the call leaves -/
structure Selected (allLines lines : List Text) (start : Nat) (userLimitedLines : Option Nat) (m : Nat) : Prop where
  pos : 0 < m
  le : start + m ≤ allLines.length
  lines : lines = (allLines.drop start).take m
  limited : ∀ count, userLimitedLines = some count → count = m
  unlimited : userLimitedLines = none → start + m = allLines.length

theorem selected (allLines : List Text) {start : Nat} (hstart : start < allLines.length) (hlimit : ∀ n ∈ limit, 0 < n) :
    let userLimitedLines := limit.map fun limit => min (start + limit) allLines.length - start
    ∃ m, Selected allLines (match userLimitedLines with
      | some count => (allLines.drop start).take count
      | none => allLines.drop start) start userLimitedLines m := by
  cases limit with
  | none =>
    refine ⟨allLines.length - start, by omega, by omega, ?_, nofun, fun _ => by omega⟩
    exact (List.take_of_length_le (Nat.le_of_eq List.length_drop)).symm
  | some n =>
    have hn := hlimit n rfl
    exact ⟨min (start + n) allLines.length - start, by omega, by omega, rfl,
      fun count heq => (Option.some.inj heq).symm, nofun⟩

/-- **A call from a line of the file returns lines from there on.** -/
theorem execute_page (hbytes : ∀ line ∈ List.splitOn newline textContent, bufferByteLength line ≤ DEFAULT_MAX_BYTES)
    (hstart : offset.getD 0 - 1 < (List.splitOn newline textContent).length)
    (hlimit : ∀ n ∈ limit, 0 < n) :
    ∃ page count, execute textContent offset limit = .ok page ∧
      PageOf (List.splitOn newline textContent) (offset.getD 0 - 1) count page := by
  rw [bufferByteLength_eq] at hbytes
  have hnewline := Separated.not_mem_split newline textContent
  unfold execute
  generalize List.splitOn newline textContent = allLines at hbytes hstart hnewline ⊢
  generalize offset.getD 0 - 1 = start at hstart ⊢
  rw [if_neg (Nat.not_le.mpr hstart)]
  dsimp only
  rw [truncateHead_eq]
  obtain ⟨m, hselected⟩ := selected allLines hstart hlimit
  generalize (limit.map fun limit => min (start + limit) allLines.length - start) = userLimitedLines at hselected ⊢
  generalize (match userLimitedLines with
    | some count => (allLines.drop start).take count
    | none => allLines.drop start) = lines at hselected ⊢
  have hlength : lines.length = m := by
    rw [hselected.lines, List.length_take, List.length_drop]
    have hle := hselected.le
    omega
  have hmem : ∀ line ∈ lines, line ∈ allLines := fun line hline => by
    rw [hselected.lines] at hline
    exact List.mem_of_mem_drop (List.mem_of_mem_take hline)
  -- the text that is cut has the selected lines
  have hsplit : List.splitOn newline (List.intercalate [newline] lines) = lines := by
    refine List.splitOn_intercalate newline (fun line hline => hnewline line (hmem line hline)) ?_
    rintro rfl
    exact absurd hselected.pos (by rw [← hlength]; exact Nat.lt_irrefl 0)
  -- none of them is too long to be shown
  have hfirst : ∀ line ∈ splitLinesForCounting (List.intercalate [newline] lines),
      utf8ByteLength line ≤ DEFAULT_MAX_BYTES := by
    intro line hline
    apply hbytes line (hmem line _)
    rw [← hsplit]
    rw [splitLinesForCounting] at hline
    split at hline
    · cases hline
    · split at hline
      · exact List.mem_of_mem_dropLast hline
      · exact hline
  rw [if_neg (by rw [firstLineExceedsLimit_eq hfirst]; exact Bool.false_ne_true)]
  -- all of them are shown, or the limits end the page
  by_cases hwithin : Within DEFAULT_MAX_LINES DEFAULT_MAX_BYTES (List.intercalate [newline] lines)
  · have huntruncated : truncateHeadWith utf8ByteLength DEFAULT_MAX_LINES DEFAULT_MAX_BYTES
        (List.intercalate [newline] lines) =
          untruncated utf8ByteLength DEFAULT_MAX_LINES DEFAULT_MAX_BYTES (List.intercalate [newline] lines) := by
      rw [truncateHeadWith, if_pos (within_iff.mpr hwithin)]
    rw [if_neg (by rw [huntruncated]; exact Bool.false_ne_true), huntruncated]
    cases userLimitedLines with
    | none =>
      refine ⟨_, m, rfl, hselected.pos, hselected.le, congrArg (List.intercalate [newline]) hselected.lines,
        by rintro _ ⟨⟩, ?_⟩
      exact iff_of_false (Nat.not_lt.mpr (hselected.unlimited rfl).ge) (by rintro ⟨⟩)
    | some count =>
      obtain rfl := hselected.limited count rfl
      dsimp only
      split
      next hmore =>
        refine ⟨_, count, rfl, hselected.pos, hselected.le, congrArg (List.intercalate [newline]) hselected.lines,
          ?_, iff_of_true hmore rfl⟩
        rintro notice ⟨⟩
        exact ⟨rfl, rfl⟩
      next hmore =>
        exact ⟨_, count, rfl, hselected.pos, hselected.le, congrArg (List.intercalate [newline]) hselected.lines,
          by rintro _ ⟨⟩,
          iff_of_false hmore (by rintro ⟨⟩)⟩
  · obtain ⟨taken, truncatedBy, hstopped, hreports⟩ := truncateHeadWith_stopped (by decide) hwithin
    obtain ⟨htaken, hless⟩ := Stopped.length_lt hstopped hwithin
    have hpos := Stopped.pos hstopped (by decide) hwithin hfirst
    rw [hsplit] at htaken hless
    have hle := hselected.le
    rw [if_pos hreports.truncated, hreports.shows.1, hreports.shows.2]
    refine ⟨_, taken.length, rfl, hpos, by omega, ?_, ?_, iff_of_true (by omega) rfl⟩
    · have htaken := List.prefix_iff_eq_take.mp htaken
      rw [hselected.lines, List.take_take, Nat.min_eq_left (by omega)] at htaken
      exact congrArg (List.intercalate [newline]) htaken
    · rintro notice ⟨⟩
      exact ⟨rfl, by omega, rfl, by omega⟩

end Call

/-! ## All calls -/

theorem join_append {a b : List Text} (ha : a ≠ []) (hb : b ≠ []) :
    List.intercalate [newline] (a ++ b) = List.intercalate [newline] a ++ newline :: List.intercalate [newline] b := by
  induction a with
  | nil => exact absurd rfl ha
  | cons line lines ih =>
    by_cases hnil : lines = []
    · rw [hnil, List.singleton_append, Separated.join_cons hb, List.intercalate_singleton]
    · rw [List.cons_append, Separated.join_cons (by simp [hnil]), ih hnil, Separated.join_cons hnil,
        List.append_assoc, List.cons_append]

variable {allLines : List Text}

theorem Pages.ne_nil {start : Nat} {pages : List Page} (h : Pages allLines start pages) : pages ≠ [] := by
  cases h <;> exact List.cons_ne_nil _ _

/-- The pages are the file from their first line on. -/
theorem Pages.join {start : Nat} {pages : List Page} (h : Pages allLines start pages) :
    start < allLines.length ∧
      List.intercalate [newline] (pages.map (·.content)) = List.intercalate [newline] (allLines.drop start) := by
  induction h with
  | @last start count page h hlast =>
    have hpos := h.pos
    refine ⟨by omega, ?_⟩
    rw [List.map_singleton, List.intercalate_singleton, h.content, List.take_of_length_le]
    rw [List.length_drop]
    omega
  | @more start count page pages h hpages ih =>
    have hpos := h.pos
    obtain ⟨hmore, ih⟩ := ih
    refine ⟨by omega, ?_⟩
    rw [List.map_cons, Separated.join_cons (by simpa using hpages.ne_nil), ih, h.content, ← join_append,
      ← List.drop_drop, List.take_append_drop]
    · exact List.ne_nil_of_length_pos (by rw [List.length_take, List.length_drop]; omega)
    · exact List.ne_nil_of_length_pos (by rw [List.length_drop]; omega)

theorem PageOf.nextOffset {start count : Nat} {page : Page} (h : PageOf allLines start count page) :
    page.nextOffset = if start + count < allLines.length then some (start + count + 1) else none := by
  have hmore := h.more
  have hfits := h.notice
  rw [Page.nextOffset]
  cases hnotice : page.notice with
  | none =>
    rw [hnotice] at hmore
    rw [if_neg (fun hless => Bool.false_ne_true (hmore.mp hless))]
  | some notice =>
    rw [hnotice] at hmore
    rw [if_pos (hmore.mpr rfl)]
    have hfits := hfits notice hnotice
    cases notice with
    | lineExceedsLimit _ => exact hfits.elim
    | showing _ _ _ _ _ => exact congrArg some hfits.2.2.2
    | moreLines _ _ => exact congrArg some hfits.2

/-- **Following the offsets reads the file**, with no more calls than it has lines. -/
theorem follow_reads_file (textContent : Text) (limits : Nat → Option Nat)
    (hbytes : ∀ line ∈ List.splitOn newline textContent, bufferByteLength line ≤ DEFAULT_MAX_BYTES)
    (hlimits : ∀ call n, limits call = some n → 0 < n) :
    ∃ pages, follow textContent limits (List.splitOn newline textContent).length 0 none = some pages ∧
      Pages (List.splitOn newline textContent) 0 pages ∧
      List.intercalate [newline] (pages.map (·.content)) = textContent := by
  have hrun : ∀ (fuel call : Nat) (offset : Option Nat),
      offset.getD 0 - 1 < (List.splitOn newline textContent).length →
      (List.splitOn newline textContent).length ≤ offset.getD 0 - 1 + fuel →
      ∃ pages, follow textContent limits fuel call offset = some pages ∧
        Pages (List.splitOn newline textContent) (offset.getD 0 - 1) pages := by
    intro fuel
    induction fuel with
    | zero => exact fun call offset hstart hfuel => absurd hstart (Nat.not_lt.mpr hfuel)
    | succ fuel ih =>
      intro call offset hstart hfuel
      obtain ⟨page, count, hpage, hof⟩ := @execute_page textContent offset (limits call) hbytes hstart (hlimits call)
      have hpos := hof.pos
      have hnext := hof.nextOffset
      rw [follow, hpage]
      dsimp only
      split at hnext
      next hmore =>
        obtain ⟨pages, hpages, hrest⟩ := ih (call + 1) (some (offset.getD 0 - 1 + count + 1)) hmore (by
          rw [Option.getD_some]
          omega)
        rw [hnext]
        dsimp only
        rw [hpages]
        exact ⟨page :: pages, rfl, .more hof hrest⟩
      next hmore =>
        rw [hnext]
        exact ⟨[page], rfl, .last hof (Nat.le_antisymm hof.le (Nat.not_lt.mp hmore))⟩
  have hpos := List.length_pos_iff.mpr (List.splitOn_ne_nil newline textContent)
  obtain ⟨pages, hpages, hof⟩ := hrun _ 0 none hpos (Nat.le_add_left _ _)
  exact ⟨pages, hpages, hof, hof.join.2.trans (List.intercalate_splitOn _)⟩

/-- `"a\n\n"`, a line at a time -/
theorem follow_reads_file_by_lines :
    ∃ pages, follow [0x61, newline, newline] (fun _ => some 1) 3 0 none = some pages ∧ Pages [[0x61], [], []] 0 pages ∧
      List.intercalate [newline] (pages.map (·.content)) = [0x61, newline, newline] :=
  follow_reads_file [0x61, newline, newline] (fun _ => some 1) (by decide)
    (fun _ _ h => Option.some.inj h ▸ Nat.zero_lt_one)

end Mcpi.Tools.Read
