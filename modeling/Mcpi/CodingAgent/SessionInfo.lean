import Mathlib.Algebra.Ring.Nat
import Mathlib.Order.Lattice
import Mcpi.CodingAgent.SessionReaders
import Mcpi.Lib.Separated

/-!
# The list of sessions

`buildSessionInfo` reads a session file once more, line by line with `readline`, and sums up what its entries say.
Its lines also end at CR, U+2028 and U+2029, where those of `loadEntriesFromFile` do not.
-/

namespace Mcpi.CodingAgent.SessionFile

open Utf8

/-! ## Entries -/

inductive Role
  | user
  | assistant
  | other
  deriving DecidableEq

/-- A string, or blocks of which those of type `text` have one -/
inductive Content
  | text (text : List Char)
  | blocks (blocks : List (Option (List Char)))

/-- `content` is none where `isMessageWithContent` fails; `entryTime` is the time of the entry, if it has a
valid one. -/
structure SessionMessage (τ : Type) where
  content : Option Content
  role : Role
  timestamp : Option τ
  entryTime : Option τ

/-- An entry, by its type -/
inductive Line (τ : Type)
  | session_info (name : Option (List Char))
  | message (message : SessionMessage τ)
  | other

/-- What is read of the value of a line. `isSession` is `type === "session"`; `line` is none where its fields are not
what they should be and reading them throws. -/
structure SessionFields (ε τ : Type) extends LineValues ε where
  isSession : ε → Bool
  line : ε → Option (Line τ)
  isSession_of_isSessionHeader : ∀ entry, isSessionHeader entry = true → isSession entry = true

variable {ε τ : Type} [LinearOrder τ] [Zero τ] (fields : SessionFields ε τ)

/-! ## Lines of `readline` -/

/-- The ends of lines that are no newlines -/
def isBreak (c : Char) : Bool := c = '\r' || c = '\u2028' || c = '\u2029'

/-- CR LF ends one line. -/
def readlineLines (line : List Char) : List Char → List (List Char)
  | [] => [line]
  | '\r' :: '\n' :: text => line :: readlineLines [] text
  | c :: text =>
    if c = '\n' ∨ isBreak c = true then line :: readlineLines [] text else readlineLines (line ++ [c]) text

/-! ## The summary -/

def extractTextContent : Content → List Char
  | .text text => text
  | .blocks blocks => List.intercalate [' '] (blocks.filterMap id)

def getMessageActivityTime (message : SessionMessage τ) : Option τ :=
  if message.content.isNone ∨ message.role = .other then none else message.timestamp <|> message.entryTime

structure Scan (ε τ : Type) where
  header : Option ε
  messageCount : Nat
  firstMessage : List Char
  allMessages : List (List Char)
  name : Option (List Char)
  lastActivityTime : Option τ

/-- A line after the header -/
def Scan.add (state : Scan ε τ) : Line τ → Scan ε τ
  | .session_info name => { state with name := (name.map SessionManager.trim).filter (· ≠ []) }
  | .message message =>
    let state := { state with
      messageCount := state.messageCount + 1
      lastActivityTime :=
        match getMessageActivityTime message with
        | some time => some (max (state.lastActivityTime.getD 0) time)
        | none => state.lastActivityTime }
    match message.content with
    | none => state
    | some content =>
      let textContent := extractTextContent content
      if message.role = .other ∨ textContent = [] then state
      else
        { state with
          allMessages := state.allMessages ++ [textContent]
          firstMessage :=
            if state.firstMessage = [] ∧ message.role = .user then textContent else state.firstMessage }
  | .other => state

/-- No state where `buildSessionInfo` returns null. -/
def scanEntry (state : Scan ε τ) (entry : ε) : Option (Scan ε τ) :=
  match state.header with
  | none => if fields.isSession entry then some { state with header := some entry } else none
  | some _ => (fields.line entry).map state.add

/-- The fields that are read of the header are its own. -/
structure SessionInfo (ε τ : Type) where
  header : ε
  name : Option (List Char)
  messageCount : Nat
  firstMessage : List Char
  allMessagesText : List Char
  lastActivityTime : Option τ

def NO_MESSAGES : List Char := "(no messages)".toList

def Scan.info (state : Scan ε τ) (header : ε) : SessionInfo ε τ where
  header
  name := state.name
  messageCount := state.messageCount
  firstMessage := if state.firstMessage = [] then NO_MESSAGES else state.firstMessage
  allMessagesText := List.intercalate [' '] state.allMessages
  lastActivityTime := state.lastActivityTime

/-- `content` is what the file holds, if there is one. -/
def buildSessionInfo (content : Option (List UInt8)) : Option (SessionInfo ε τ) := do
  let content ← content
  let entries := (readlineLines [] (decode content)).filterMap (entryOf fields.toLineValues)
  let state ← entries.foldlM (scanEntry fields) ⟨none, 0, [], [], none, none⟩
  let header ← state.header
  some (state.info header)

/-! ## What it should be -/

/-- The text of a message of the user or the assistant that has one -/
def Line.text? : Line τ → Option (Role × List Char)
  | .message sent =>
    sent.content.bind fun content =>
      if sent.role = .other ∨ extractTextContent content = [] then none
      else some (sent.role, extractTextContent content)
  | _ => none

def Line.activity? : Line τ → Option τ
  | .message sent => getMessageActivityTime sent
  | _ => none

def Line.name? : Line τ → Option (Option (List Char))
  | .session_info name => some ((name.map SessionManager.trim).filter (· ≠ []))
  | _ => none

def Line.isMessage : Line τ → Bool
  | .message _ => true
  | _ => false

/-- `Math.max` over all times, none without any -/
def lastTime (times : List τ) : Option τ := if times = [] then none else some (times.foldl max 0)

/-- The last name, all texts, the first one of the user, and the last time. -/
def summary (header : ε) (lines : List (Line τ)) : SessionInfo ε τ where
  header
  name := ((lines.filterMap Line.name?).getLast?).join
  messageCount := lines.countP Line.isMessage
  firstMessage := (((lines.filterMap Line.text?).find? fun text => text.1 = .user).map Prod.snd).getD NO_MESSAGES
  allMessagesText := List.intercalate [' '] ((lines.filterMap Line.text?).map Prod.snd)
  lastActivityTime := lastTime (lines.filterMap Line.activity?)

/-- A session is listed with what the loaded entries say, and a file that is rejected is not listed. -/
def Agrees (content : Option (List UInt8)) : Prop :=
  match loadEntriesFromFile fields.toLineValues content with
  | [] => buildSessionInfo fields content = none
  | header :: entries => ∃ lines, entries.mapM fields.line = some lines ∧
    buildSessionInfo fields content = some (summary header lines)

/-- Cutting a line at the other ends of lines leaves the entry that it holds. -/
def Uncut (line : List Char) : Prop :=
  (line.splitOnP isBreak).filterMap (entryOf fields.toLineValues) = (entryOf fields.toLineValues line).toList

/-- `buildSessionInfo` reads on behind such entries: the first is a session, and the fields of all others can
be read. -/
def ReadsOn (entries : List ε) : Prop :=
  ∀ header rest, entries = header :: rest →
    fields.isSession header = true ∧ ∀ entry ∈ rest, (fields.line entry).isSome = true

/-- No line is cut, as far as `buildSessionInfo` reads. -/
def UncutRead (content : List UInt8) : Prop :=
  ∀ before line after, fileLines content = before ++ line :: after →
    ReadsOn fields (before.filterMap (entryOf fields.toLineValues)) → Uncut fields line

/-- A first entry of type `session` has an id just if all entries after it can be read. -/
def Listable (content : List UInt8) : Prop :=
  ∀ header entries, wholeFileEntries fields.toLineValues content = header :: entries → fields.isSession header = true →
      (fields.isSessionHeader header = true ↔ ∀ entry ∈ entries, (fields.line entry).isSome = true)

/-! ## The lines -/

variable {content : List UInt8}

section Lines

variable {values : LineValues ε} {line text : List Char}

/-- What cannot end a line stays in it. -/
theorem splitOnP_append {p : Char → Bool} (h : ∀ c ∈ line, p c = false) :
    (line ++ text).splitOnP p = (text.splitOnP p).modifyHead (line ++ ·) := by
  induction line with
  | nil => cases hsplit : text.splitOnP p <;> simp [hsplit]
  | cons c line ih =>
    rw [List.cons_append, List.splitOnP_cons_eq_if_modifyHead, h c List.mem_cons_self, if_neg Bool.false_ne_true,
      ih fun c hc => h c (List.mem_cons_of_mem _ hc), List.modifyHead_modifyHead]
    rfl

/-- The ends of all lines of `readline` -/
def isLineEnd (c : Char) : Bool := c = '\n' || isBreak c

/-- A CR before an LF only adds an empty line. -/
theorem entries_readlineLines (line text : List Char) (h : ∀ c ∈ line, isLineEnd c = false) :
    (readlineLines line text).filterMap (entryOf values) =
      ((line ++ text).splitOnP isLineEnd).filterMap (entryOf values) := by
  rw [splitOnP_append h]
  fun_induction readlineLines line text with
  | case1 line => simp
  | case2 line text ih =>
    have hempty := ih nofun
    have hends : ('\r' :: '\n' :: text).splitOnP isLineEnd = [] :: [] :: text.splitOnP isLineEnd := by
      rw [List.splitOnP_cons_eq_if_modifyHead, show isLineEnd '\r' = true from rfl, if_pos rfl,
        List.splitOnP_cons_eq_if_modifyHead, show isLineEnd '\n' = true from rfl, if_pos rfl]
    rw [List.filterMap_cons, hempty, hends]
    cases hsplit : text.splitOnP isLineEnd <;> simp [entryOf_nil, List.filterMap_cons]
  | case3 line c text hnext hend ih =>
    have hempty := ih nofun
    rw [List.filterMap_cons, hempty, List.splitOnP_cons_eq_if_modifyHead, if_pos (by simpa [isLineEnd] using hend)]
    cases hsplit : text.splitOnP isLineEnd <;> simp [List.filterMap_cons]
  | case4 line c text hnext hend ih =>
    have hc : isLineEnd c = false := by simpa [isLineEnd] using hend
    rw [ih fun d hd => (List.mem_append.mp hd).elim (h d) fun hd => List.mem_singleton.mp hd ▸ hc,
      List.splitOnP_cons_eq_if_modifyHead, hc, if_neg Bool.false_ne_true, List.modifyHead_modifyHead]
    cases hsplit : text.splitOnP isLineEnd <;> simp

/-- The lines of `readline` are those of the newlines, cut at the other ends. -/
theorem splitOnP_isLineEnd (text : List Char) :
    text.splitOnP isLineEnd = (List.splitOn '\n' text).flatMap (·.splitOnP isBreak) := by
  induction text with
  | nil => rfl
  | cons c text ih =>
    rw [List.splitOnP_cons_eq_if_modifyHead, List.splitOn_cons_eq_if_modifyHead, ih]
    by_cases hnewline : c = '\n'
    · rw [if_pos (by rw [isLineEnd, hnewline]; rfl), if_pos (beq_iff_eq.mpr hnewline)]
      rfl
    · have hend : isLineEnd c = isBreak c := by rw [isLineEnd, decide_eq_false hnewline, Bool.false_or]
      rw [hend, if_neg (mt beq_iff_eq.mp hnewline)]
      cases hsplit : List.splitOn '\n' text with
      | nil => exact absurd hsplit (List.splitOn_ne_nil _ text)
      | cons first rest =>
        rw [List.modifyHead_cons, List.flatMap_cons, List.flatMap_cons, List.splitOnP_cons_eq_if_modifyHead]
        split
        · rfl
        · cases hfirst : first.splitOnP isBreak with
          | nil => exact absurd hfirst (List.splitOnP_ne_nil _ _)
          | cons part parts => rfl

end Lines

/-! ## The summary of the entries -/

section Summary

variable {fields} {header : ε} {lines : List (Line τ)} {state : Scan ε τ}

/-- What the scan has summed up of the lines after the header -/
def summed (header : ε) (lines : List (Line τ)) : Scan ε τ where
  header := some header
  messageCount := lines.countP Line.isMessage
  firstMessage := (((lines.filterMap Line.text?).find? fun text => text.1 = .user).map Prod.snd).getD []
  allMessages := (lines.filterMap Line.text?).map Prod.snd
  name := ((lines.filterMap Line.name?).getLast?).join
  lastActivityTime := lastTime (lines.filterMap Line.activity?)

omit [LinearOrder τ] [Zero τ] in
theorem text?_nonempty {line : Line τ} {text : Role × List Char} (h : line.text? = some text) : text.2 ≠ [] := by
  cases line with
  | message sent =>
    obtain ⟨content, -, htext⟩ := Option.bind_eq_some_iff.mp h
    obtain ⟨hnot, ⟨⟩⟩ := Option.ite_none_left_eq_some.mp htext
    exact fun hnil => hnot (.inr hnil)
  | _ => cases h

/-- A line adds its text, its time and its name. -/
theorem add_eq (state : Scan ε τ) (line : Line τ) : state.add line =
    { header := state.header
      messageCount := if line.isMessage then state.messageCount + 1 else state.messageCount
      firstMessage :=
        match line.text? with
        | some text => if state.firstMessage = [] ∧ text.1 = .user then text.2 else state.firstMessage
        | none => state.firstMessage
      allMessages := state.allMessages ++ line.text?.toList.map Prod.snd
      name := line.name?.getD state.name
      lastActivityTime :=
        match line.activity? with
        | some time => some (max (state.lastActivityTime.getD 0) time)
        | none => state.lastActivityTime } := by
  cases line with
  | session_info name => simp [Scan.add, Line.text?, Line.isMessage, Line.activity?, Line.name?]
  | other => simp [Scan.add, Line.text?, Line.isMessage, Line.activity?, Line.name?]
  | message sent =>
    dsimp only [Scan.add, Line.text?, Line.isMessage, Line.activity?, Line.name?]
    cases hcontent : sent.content with
    | none => simp
    | some content =>
      dsimp only [Option.bind_some]
      split <;> simp

omit [LinearOrder τ] [Zero τ] in
theorem filterMap_concat {β : Type} (f : Line τ → Option β) (lines : List (Line τ)) (line : Line τ) :
    (lines ++ [line]).filterMap f = lines.filterMap f ++ (f line).toList := by
  rw [List.filterMap_append, List.filterMap_cons]
  cases f line <;> rfl

theorem lastTime_concat (times : List τ) (time : τ) :
    lastTime (times ++ [time]) = some (max ((lastTime times).getD 0) time) := by
  rw [lastTime, if_neg (by simp), List.foldl_append, lastTime]
  split
  next hnil => rw [hnil]; rfl
  next => rfl

theorem summed_concat (header : ε) (lines : List (Line τ)) (line : Line τ) :
    summed header (lines ++ [line]) = (summed header lines).add line := by
  rw [add_eq, summed, summed]
  congr 1
  · rw [List.countP_append, List.countP_singleton]
    cases line.isMessage <;> rfl
  · rw [filterMap_concat, List.find?_append]
    cases hfind : (lines.filterMap Line.text?).find? fun text => text.1 = .user with
    | some text =>
      obtain ⟨first, -, htext⟩ := List.mem_filterMap.mp (List.mem_of_find?_eq_some hfind)
      have hnonempty := text?_nonempty htext
      cases line.text? <;> simp [hnonempty]
    | none =>
      cases line.text? with
      | none => rfl
      | some text => by_cases huser : text.1 = .user <;> simp [huser]
  · rw [filterMap_concat, List.map_append]
  · rw [filterMap_concat, List.getLast?_append]
    cases line.name? <;> simp
  · rw [filterMap_concat]
    cases line.activity? with
    | none => rw [Option.toList_none, List.append_nil]
    | some time => exact lastTime_concat _ time

/-- **The scan of the lines after a header** sums them up. -/
theorem foldl_add (header : ε) (lines : List (Line τ)) :
    lines.foldl Scan.add ⟨some header, 0, [], [], none, none⟩ = summed header lines := by
  induction lines using List.reverseRecOn with
  | nil => rfl
  | append_singleton lines line ih => rw [List.foldl_append, ih, summed_concat, List.foldl_cons, List.foldl_nil]

theorem info_summed (header : ε) (lines : List (Line τ)) :
    (summed header lines).info header = summary header lines := by
  rw [Scan.info, summary, summed]
  cases hfind : (lines.filterMap Line.text?).find? fun text => text.1 = .user with
  | none => rfl
  | some text =>
    obtain ⟨first, -, htext⟩ := List.mem_filterMap.mp (List.mem_of_find?_eq_some hfind)
    have hnonempty := text?_nonempty htext
    simp [hnonempty]

/-- Entries after the header are added as long as they can be read. -/
theorem foldlM_scanEntry (entries : List ε) (hstate : state.header.isSome = true) :
    entries.foldlM (scanEntry fields) state =
      (entries.mapM fields.line).map fun lines => lines.foldl Scan.add state := by
  induction entries generalizing state with
  | nil => rfl
  | cons entry entries ih =>
    obtain ⟨header, hheader⟩ := Option.isSome_iff_exists.mp hstate
    rw [List.foldlM_cons, List.mapM_cons, scanEntry, hheader]
    cases hline : fields.line entry with
    | none => rfl
    | some line =>
      have hnext : (state.add line).header.isSome = true := by rw [add_eq, hheader]; rfl
      change entries.foldlM (scanEntry fields) (state.add line) = _
      rw [ih hnext]
      cases entries.mapM fields.line <;> rfl

omit [LinearOrder τ] [Zero τ] in
theorem mapM_isSome_iff (fields : SessionFields ε τ) (entries : List ε) :
    (entries.mapM fields.line).isSome = true ↔ ∀ entry ∈ entries, (fields.line entry).isSome = true := by
  induction entries with
  | nil => exact iff_of_true rfl nofun
  | cons entry entries ih =>
    rw [List.mapM_cons, List.forall_mem_cons, ← ih]
    cases fields.line entry with
    | none => simp
    | some line => cases entries.mapM fields.line <;> simp

/-- The scan before the first entry -/
def unscanned : Scan ε τ := ⟨none, 0, [], [], none, none⟩

theorem foldlM_header (header : ε) (entries : List ε) :
    (header :: entries).foldlM (scanEntry fields) unscanned =
      if fields.isSession header = true then
        (entries.mapM fields.line).map fun lines => lines.foldl Scan.add ⟨some header, 0, [], [], none, none⟩
      else none := by
  rw [List.foldlM_cons, scanEntry, unscanned]
  cases fields.isSession header with
  | false => rfl
  | true =>
    rw [if_pos rfl, if_pos rfl]
    change entries.foldlM (scanEntry fields) ⟨some header, 0, [], [], none, none⟩ = _
    exact foldlM_scanEntry entries rfl

theorem readsOn_iff (entries : List ε) :
    ReadsOn fields entries ↔ (entries.foldlM (scanEntry fields) unscanned).isSome = true := by
  cases entries with
  | nil => exact iff_of_true nofun rfl
  | cons header entries =>
    rw [foldlM_header]
    have hreads : ReadsOn fields (header :: entries) ↔
        fields.isSession header = true ∧ ∀ entry ∈ entries, (fields.line entry).isSome = true := by
      refine ⟨fun h => h header entries rfl, ?_⟩
      rintro h _ _ heq
      obtain ⟨rfl, rfl⟩ := List.cons.inj heq
      exact h
    rw [hreads, ← mapM_isSome_iff]
    cases fields.isSession header with
    | false => exact iff_of_false (fun h => Bool.false_ne_true h.1) Bool.false_ne_true
    | true => rw [if_pos rfl, Option.isSome_map, and_iff_right rfl]

/-- **The scan of the lines that are listed**, where no entry that is read is lost with its line -/
theorem foldlM_listed (state : Scan ε τ) (lines : List (List Char))
    (huncut : ∀ before line after, lines = before ++ line :: after →
      ((before.filterMap (entryOf fields.toLineValues)).foldlM (scanEntry fields) state).isSome = true →
        Uncut fields line) :
    ((lines.flatMap (·.splitOnP isBreak)).filterMap (entryOf fields.toLineValues)).foldlM (scanEntry fields) state =
      (lines.filterMap (entryOf fields.toLineValues)).foldlM (scanEntry fields) state := by
  induction lines generalizing state with
  | nil => rfl
  | cons line lines ih =>
    have hline : _ = _ := huncut [] line lines rfl rfl
    rw [List.flatMap_cons, List.filterMap_append, hline, List.filterMap_cons]
    cases hentry : entryOf fields.toLineValues line with
    | none =>
      refine ih state fun before line' after hlines hreads => ?_
      refine huncut (line :: before) line' after (by rw [hlines]; rfl) ?_
      rwa [List.filterMap_cons_none hentry]
    | some entry =>
      rw [Option.toList_some, List.singleton_append, List.foldlM_cons, List.foldlM_cons]
      cases hscan : scanEntry fields state entry with
      | none => rfl
      | some next =>
        refine ih next fun before line' after hlines hreads => ?_
        refine huncut (line :: before) line' after (by rw [hlines]; rfl) ?_
        rw [List.filterMap_cons_some hentry, List.foldlM_cons, hscan]
        exact hreads

theorem buildSessionInfo_eq (huncut : UncutRead fields content) :
    buildSessionInfo fields (some content) = (((wholeFileEntries fields.toLineValues content).foldlM (scanEntry fields)
      unscanned).bind fun state => state.header.bind fun header => some (state.info header)) := by
  have hscan := foldlM_listed unscanned (fileLines content) fun before line after hlines hreads =>
    huncut before line after hlines ((readsOn_iff _).mpr hreads)
  have hlisted : (readlineLines [] (decode content)).filterMap (entryOf fields.toLineValues) =
      ((fileLines content).flatMap (·.splitOnP isBreak)).filterMap (entryOf fields.toLineValues) := by
    rw [entries_readlineLines [] _ nofun, List.nil_append, splitOnP_isLineEnd]
    rfl
  rw [← hlisted] at hscan
  exact congrArg (Option.bind · _) hscan

/-- What is built of a file that begins with an entry -/
theorem buildSessionInfo_cons {entries : List ε} (huncut : UncutRead fields content)
    (hwhole : wholeFileEntries fields.toLineValues content = header :: entries) :
    buildSessionInfo fields (some content) = if fields.isSession header = true then
      (entries.mapM fields.line).map fun lines => summary header lines else none := by
  rw [buildSessionInfo_eq huncut, hwhole, foldlM_header]
  split
  · cases entries.mapM fields.line with
    | none => rfl
    | some lines =>
      rw [Option.map_some, foldl_add, Option.bind_some, Option.map_some, ← info_summed]
      rfl
  · rfl

end Summary

/-- **A session is listed as it is loaded**, where no line that is read is cut, just if `Listable` holds. -/
theorem buildSessionInfo_agrees_iff {content : List UInt8} (huncut : UncutRead fields content) :
    Agrees fields (some content) ↔ Listable fields content := by
  have hload : loadEntriesFromFile fields.toLineValues (some content) =
      validated fields.toLineValues (wholeFileEntries fields.toLineValues content) := by
    rw [← readEntries_eq (show 0 < SESSION_READ_BUFFER_SIZE by decide)]
    rfl
  rw [Agrees, hload, Listable]
  cases hwhole : wholeFileEntries fields.toLineValues content with
  | nil =>
    have hbuild := buildSessionInfo_eq huncut
    rw [hwhole] at hbuild
    exact iff_of_true hbuild nofun
  | cons header entries =>
    have hbuild := buildSessionInfo_cons huncut hwhole
    have hread := mapM_isSome_iff fields entries
    rw [validated]
    cases hheader : fields.isSessionHeader header with
    | true =>
      rw [fields.isSession_of_isSessionHeader header hheader, if_pos rfl] at hbuild
      rw [if_pos rfl]
      constructor
      · rintro ⟨lines, hlines, -⟩ _ _ heq -
        obtain ⟨rfl, rfl⟩ := List.cons.inj heq
        exact iff_of_true hheader (hread.mp (Option.isSome_iff_exists.mpr ⟨lines, hlines⟩))
      · intro h
        have hall := (h header entries rfl (fields.isSession_of_isSessionHeader header hheader)).mp hheader
        obtain ⟨lines, hlines⟩ := Option.isSome_iff_exists.mp (hread.mpr hall)
        exact ⟨lines, hlines, by rw [hbuild, hlines]; rfl⟩
    | false =>
      rw [if_neg Bool.false_ne_true]
      show buildSessionInfo fields (some content) = none ↔ _
      rw [hbuild]
      constructor
      · rintro hnone _ _ heq hsession
        obtain ⟨rfl, rfl⟩ := List.cons.inj heq
        rw [if_pos hsession, Option.map_eq_none_iff] at hnone
        rw [hheader, ← hread, hnone]
        exact iff_of_false Bool.false_ne_true Bool.false_ne_true
      · intro h
        split
        next hsession =>
          have hnot := (h header entries rfl hsession).not.mp (by rw [hheader]; exact Bool.false_ne_true)
          rw [← hread, Bool.not_eq_true, Option.isSome_eq_false_iff, Option.isNone_iff_eq_none] at hnot
          rw [hnot]
          rfl
        next => rfl

/-! ## A line separator in a message -/

private def headerLine : List Char := "\x7b\"type\":\"session\",\"id\":\"a\"\x7d".toList

private def messageLine : List Char :=
  "\x7b\"type\":\"message\",\"message\":\x7b\"role\":\"user\",\"content\":\"a\u2028b\"\x7d\x7d".toList

private def sampleFields : SessionFields (List Char) Nat where
  parse line := if line = headerLine ∨ line = messageLine then some line else none
  truthy _ := true
  isSessionHeader entry := entry = headerLine
  isSession entry := entry = headerLine
  line entry := some (if entry = messageLine then
    .message ⟨some (.text ['a', '\u2028', 'b']), .user, none, none⟩ else .other)
  isSession_of_isSessionHeader _ h := h

theorem buildSessionInfo_agrees_header : Agrees sampleFields (some (encode (headerLine ++ ['\n']))) ↔
    Listable sampleFields (encode (headerLine ++ ['\n'])) := by
  have hlines : fileLines (encode (headerLine ++ ['\n'])) = [headerLine, []] := by decide +kernel
  have huncut : ∀ line ∈ fileLines (encode (headerLine ++ ['\n'])), Uncut sampleFields line := by
    rw [hlines, List.forall_mem_cons, List.forall_mem_singleton, Uncut, Uncut]
    decide +kernel
  refine buildSessionInfo_agrees_iff sampleFields fun before line after hsplit _ => huncut line ?_
  rw [hsplit]
  exact List.mem_append_right _ List.mem_cons_self

/-- The message is loaded and not listed. -/
theorem buildSessionInfo_loses_message :
    ¬ Agrees sampleFields (some (encode (headerLine ++ '\n' :: messageLine ++ ['\n']))) := by
  have hloaded : loadEntriesFromFile sampleFields.toLineValues (some (encode
      (headerLine ++ '\n' :: messageLine ++ ['\n']))) = [headerLine, messageLine] := by
    show validated _ (readEntries _ SESSION_READ_BUFFER_SIZE _) = _
    rw [readEntries_eq (by decide)]
    decide +kernel
  have hcount : (buildSessionInfo sampleFields (some (encode (headerLine ++ '\n' :: messageLine ++ ['\n'])))).map
      SessionInfo.messageCount = some 0 := by
    decide +kernel
  rw [Agrees, hloaded]
  rintro ⟨lines, hlines, hinfo⟩
  obtain rfl := Option.some.inj hlines
  rw [hinfo] at hcount
  exact absurd hcount (by decide +kernel)

end Mcpi.CodingAgent.SessionFile
