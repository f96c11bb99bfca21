import Mcpi.Lib.Search
import Mcpi.Lib.Separated
import Mathlib.Data.List.DropRight
import Mathlib.Data.List.Sort

/-!
# Edits of a text

`edit-diff.ts`, which the edit tools of the agent and of the coding agent share: the matching of old texts, as
they are or in a normalized copy of the content, and their replacement. A text is a list of UTF-16 code units.
-/

namespace Mcpi.Tools

abbrev Text := List UInt16

/-- The code unit of an ASCII character. -/
def unit (c : Char) : UInt16 := UInt16.ofNat c.toNat

def newline : UInt16 := 0x0a

def carriageReturn : UInt16 := 0x0d

/-- What `trim` takes for whitespace. -/
def isWhitespace (u : UInt16) : Bool :=
  u ∈ ([0x09, 0x0a, 0x0b, 0x0c, 0x0d, 0x20, 0xa0, 0x1680, 0x2028, 0x2029, 0x202f, 0x205f, 0x3000, 0xfeff] :
    List UInt16) || (0x2000 ≤ u && u ≤ 0x200a)

namespace EditDiff

/-! ## Line ends -/

inductive LineEnding
  | crlf
  | lf
  deriving DecidableEq

def detectLineEnding (content : Text) : LineEnding :=
  let crlfIdx := Search.indexOf [carriageReturn, newline] content
  let lfIdx := Search.indexOf [newline] content
  match lfIdx, crlfIdx with
  | none, _ => .lf
  | _, none => .lf
  | some lfIdx, some crlfIdx => if crlfIdx < lfIdx then .crlf else .lf

/-- Two replacements, of `\r\n` and of `\r`. -/
def normalizeToLF : Text → Text
  | [] => []
  | [u] => if u = carriageReturn then [newline] else [u]
  | u :: v :: text =>
    if u = carriageReturn then
      if v = newline then newline :: normalizeToLF text else newline :: normalizeToLF (v :: text)
    else u :: normalizeToLF (v :: text)

def restoreLineEndings (text : Text) (ending : LineEnding) : Text :=
  match ending with
  | .crlf => text.flatMap fun u => if u = newline then [carriageReturn, newline] else [u]
  | .lf => text

def byteOrderMark : UInt16 := 0xfeff

/-- The mark, if there is one, and the text without it. -/
def stripBom (content : Text) : Text × Text :=
  match content with
  | [] => ([], [])
  | u :: text => if u = byteOrderMark then ([byteOrderMark], text) else ([], u :: text)

/-! ## The normalized copy -/

/-- A quote, dash or space as its ASCII equivalent. -/
def toAscii (u : UInt16) : UInt16 :=
  if u ∈ ([0x2018, 0x2019, 0x201a, 0x201b] : List UInt16) then unit '\''
  else if u ∈ ([0x201c, 0x201d, 0x201e, 0x201f] : List UInt16) then unit '"'
  else if u ∈ ([0x2010, 0x2011, 0x2012, 0x2013, 0x2014, 0x2015, 0x2212] : List UInt16) then unit '-'
  else if u = 0xa0 || (0x2002 ≤ u && u ≤ 0x200a) || u = 0x202f || u = 0x205f || u = 0x3000 then unit ' '
  else u

/-- `String.prototype.normalize("NFKC")`: what its standard says of newlines, of texts that are normalized
already and of their parts, and of ASCII. A quote, dash or space composes with nothing, nor does its ASCII
equivalent. -/
structure Nfkc where
  normalize : Text → Text
  overNewline : ∀ a b, normalize (a ++ newline :: b) = normalize a ++ newline :: normalize b
  clean : ∀ a, newline ∉ a → newline ∉ normalize a
  idempotent : ∀ a, normalize (normalize a) = normalize a
  beginning : ∀ a b, normalize (a ++ b) = a ++ b → normalize a = a
  ascii : ∀ a, normalize a = a → normalize (a.map toAscii) = a.map toAscii
  plain : ∀ a, (∀ u ∈ a, u < 0x80) → normalize a = a

def trimEnd (line : Text) : Text := line.rdropWhile isWhitespace

variable (nfkc : Nfkc)

def normalizeForFuzzyMatch (text : Text) : Text :=
  (List.intercalate [newline] ((List.splitOn newline (nfkc.normalize text)).map trimEnd)).map toAscii

/-! ## Lines -/

def splitLinesWithEndings (content : Text) : List Text := Separated.pieces newline content

structure LineSpan where
  start : Nat
  stop : Nat
  deriving DecidableEq

def spansFrom : Nat → List Text → List LineSpan
  | _, [] => []
  | offset, line :: lines => ⟨offset, offset + line.length⟩ :: spansFrom (offset + line.length) lines

def getLineSpans (content : Text) : List LineSpan := spansFrom 0 (splitLinesWithEndings content)

structure MatchedEdit where
  editIndex : Nat
  matchIndex : Nat
  matchLength : Nat
  newText : Text
  deriving DecidableEq

def outsideError : String := "Replacement range is outside the base content."

/-- The lines that a replacement touches: the first of them, and the one after the last. -/
def getReplacementLineRange (lines : List LineSpan) (replacement : MatchedEdit) : Except String (Nat × Nat) :=
  let replacementStart := replacement.matchIndex
  let replacementEnd := replacement.matchIndex + replacement.matchLength
  match lines.findIdx? fun line => line.start ≤ replacementStart && replacementStart < line.stop with
  | none => .error outsideError
  | some startLine =>
    match (lines.drop startLine).findIdx? fun line => replacementEnd ≤ line.stop with
    | none => .error outsideError
    | some more => .ok (startLine, startLine + more + 1)

def applyReplacements (content : Text) (replacements : List MatchedEdit) (offset : Nat) : Text :=
  replacements.foldr (fun replacement result =>
      let matchIndex := replacement.matchIndex - offset
      result.take matchIndex ++ replacement.newText ++ result.drop (matchIndex + replacement.matchLength))
    content

structure Group where
  startLine : Nat
  endLine : Nat
  replacements : List MatchedEdit
  deriving DecidableEq

/-- A replacement joins the last group if it touches a line of it; the last group is the first of the list. -/
def groupReplacement (lines : List LineSpan) (groups : List Group) (replacement : MatchedEdit) :
    Except String (List Group) := do
  let (startLine, endLine) ← getReplacementLineRange lines replacement
  match groups with
  | current :: others =>
    if startLine < current.endLine then
      return ⟨current.startLine, max current.endLine endLine, current.replacements ++ [replacement]⟩ :: others
    else return ⟨startLine, endLine, [replacement]⟩ :: groups
  | [] => return [⟨startLine, endLine, [replacement]⟩]

def sortByIndex (edits : List MatchedEdit) : List MatchedEdit :=
  edits.insertionSort fun a b => a.matchIndex ≤ b.matchIndex

/-- The lines between the groups come from the original, and those of a group from the base content. -/
def overlay (originalLines : List Text) (baseContent : Text) (baseLines : List LineSpan) :
    (originalLineIndex : Nat) → List Group → Text
  | originalLineIndex, [] => (originalLines.drop originalLineIndex).flatten
  | originalLineIndex, group :: groups =>
    let groupStartOffset := (baseLines.getD group.startLine ⟨0, 0⟩).start
    let groupEndOffset := (baseLines.getD (group.endLine - 1) ⟨0, 0⟩).stop
    ((originalLines.take group.startLine).drop originalLineIndex).flatten ++
      applyReplacements ((baseContent.take groupEndOffset).drop groupStartOffset) group.replacements groupStartOffset ++
      overlay originalLines baseContent baseLines group.endLine groups

def lineCountError : String :=
  "Cannot preserve unchanged lines because the base content has a different line count."

def applyReplacementsPreservingUnchangedLines (originalContent baseContent : Text)
    (replacements : List MatchedEdit) : Except String Text :=
  let originalLines := splitLinesWithEndings originalContent
  let baseLines := getLineSpans baseContent
  if originalLines.length ≠ baseLines.length then .error lineCountError
  else do
    let groups ← (sortByIndex replacements).foldlM (groupReplacement baseLines) []
    return overlay originalLines baseContent baseLines 0 groups.reverse

/-! ## Matches -/

/-- What `fuzzyFindText` finds. -/
structure FuzzyMatch where
  index : Nat
  matchLength : Nat
  usedFuzzyMatch : Bool
  deriving DecidableEq

def fuzzyFindText (content oldText : Text) : Option FuzzyMatch :=
  match Search.indexOf oldText content with
  | some exactIndex => some ⟨exactIndex, oldText.length, false⟩
  | none =>
    let fuzzyContent := normalizeForFuzzyMatch nfkc content
    let fuzzyOldText := normalizeForFuzzyMatch nfkc oldText
    (Search.indexOf fuzzyOldText fuzzyContent).map fun fuzzyIndex => ⟨fuzzyIndex, fuzzyOldText.length, true⟩

/-- The number of parts of `text.split(separator)`, for a separator that is not empty; `skip` units belong to
the last separator. -/
def countParts (separator : Text) : (skip : Nat) → Text → Nat
  | _, [] => 1
  | skip + 1, _ :: text => countParts separator skip text
  | 0, u :: text =>
    if separator <+: u :: text then countParts separator (separator.length - 1) text + 1
    else countParts separator 0 text

/-- An empty separator cuts a text into its units. -/
def countOccurrences (content oldText : Text) : Int :=
  let fuzzyContent := normalizeForFuzzyMatch nfkc content
  let fuzzyOldText := normalizeForFuzzyMatch nfkc oldText
  if fuzzyOldText = [] then fuzzyContent.length - 1 else countParts fuzzyOldText 0 fuzzyContent - 1

/-! ## Errors -/

def getNotFoundError (path : String) (editIndex totalEdits : Nat) : String :=
  if totalEdits = 1 then
    s!"Could not find the exact text in {path}. The old text must match exactly including all whitespace and newlines."
  else
    s!"Could not find edits[{editIndex}] in {path}. The oldText must match exactly including all whitespace and newlines."

def getDuplicateError (path : String) (editIndex totalEdits : Nat) (occurrences : Int) : String :=
  if totalEdits = 1 then
    s!"Found {occurrences} occurrences of the text in {path}. The text must be unique. Please provide more context to make it unique."
  else
    s!"Found {occurrences} occurrences of edits[{editIndex}] in {path}. Each oldText must be unique. Please provide more context to make it unique."

def getEmptyOldTextError (path : String) (editIndex totalEdits : Nat) : String :=
  if totalEdits = 1 then s!"oldText must not be empty in {path}."
  else s!"edits[{editIndex}].oldText must not be empty in {path}."

def getNoChangeError (path : String) (totalEdits : Nat) : String :=
  if totalEdits = 1 then
    s!"No changes made to {path}. The replacement produced identical content. This might indicate an issue with special characters or the text not existing as expected."
  else s!"No changes made to {path}. The replacements produced identical content."

def overlapError (path : String) (previous current : Nat) : String :=
  s!"edits[{previous}] and edits[{current}] overlap in {path}. Merge them into one edit or target disjoint regions."

/-! ## Applying edits -/

structure Edit where
  oldText : Text
  newText : Text
  deriving DecidableEq

structure AppliedEditsResult where
  baseContent : Text
  newContent : Text
  deriving DecidableEq

def Edit.normalized (edit : Edit) : Edit := ⟨normalizeToLF edit.oldText, normalizeToLF edit.newText⟩

/-- The matches of the edits from the one with number `i` on. -/
def matchEdits (baseContent : Text) (path : String) (totalEdits : Nat) :
    (i : Nat) → List Edit → Except String (List MatchedEdit)
  | _, [] => .ok []
  | i, edit :: edits =>
    match fuzzyFindText nfkc baseContent edit.oldText with
    | none => .error (getNotFoundError path i totalEdits)
    | some found =>
      let occurrences := countOccurrences nfkc baseContent edit.oldText
      if occurrences > 1 then .error (getDuplicateError path i totalEdits occurrences)
      else do
        let others ← matchEdits baseContent path totalEdits (i + 1) edits
        return ⟨i, found.index, found.matchLength, edit.newText⟩ :: others

/-- The first two matches, one after the other, that overlap. -/
def findOverlap : List MatchedEdit → Option (MatchedEdit × MatchedEdit)
  | previous :: current :: edits =>
    if previous.matchIndex + previous.matchLength > current.matchIndex then some (previous, current)
    else findOverlap (current :: edits)
  | _ => none

def usesFuzzyMatch (content : Text) (edits : List Edit) : Bool :=
  edits.any fun edit => (fuzzyFindText nfkc content edit.oldText).any (·.usedFuzzyMatch)

/-- The content that all edits are matched against. -/
def replacementBase (content : Text) (edits : List Edit) : Text :=
  if usesFuzzyMatch nfkc content edits then normalizeForFuzzyMatch nfkc content else content

def applyEditsToNormalizedContent (normalizedContent : Text) (edits : List Edit) (path : String) :
    Except String AppliedEditsResult :=
  let normalizedEdits := edits.map Edit.normalized
  match normalizedEdits.findIdx? fun edit => edit.oldText = [] with
  | some i => .error (getEmptyOldTextError path i normalizedEdits.length)
  | none => do
      let replacementBaseContent := replacementBase nfkc normalizedContent normalizedEdits
      let unsorted ← matchEdits nfkc replacementBaseContent path normalizedEdits.length 0 normalizedEdits
      let matchedEdits := sortByIndex unsorted
      match findOverlap matchedEdits with
      | some (previous, current) => throw (overlapError path previous.editIndex current.editIndex)
      | none =>
        let newContent ←
          if usesFuzzyMatch nfkc normalizedContent normalizedEdits then
            applyReplacementsPreservingUnchangedLines normalizedContent replacementBaseContent matchedEdits
          else pure (applyReplacements replacementBaseContent matchedEdits 0)
        if normalizedContent = newContent then throw (getNoChangeError path normalizedEdits.length)
        else return ⟨normalizedContent, newContent⟩

/-- The text that the edit tool writes back. -/
def editText (rawContent : Text) (edits : List Edit) (path : String) : Except String Text := do
  let (bom, content) := stripBom rawContent
  let originalEnding := detectLineEnding content
  let result ← applyEditsToNormalizedContent nfkc (normalizeToLF content) edits path
  return bom ++ restoreLineEndings result.newContent originalEnding

end EditDiff

end Mcpi.Tools
