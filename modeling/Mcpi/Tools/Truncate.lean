import Mcpi.Lib.Fitting
import Mcpi.Lib.Utf16
import Mcpi.Lib.Utf8Tail
import Mcpi.Tools.EditDiff

/-!
# Truncation of tool outputs

`truncateHead` and `truncateTail` of the coding agent's `truncate.ts` and of the harness's, which differ in how they
count the bytes of a string and cut a line. A string is a list of UTF-16 code units, and its surrogates need not
come in pairs.
-/

namespace Mcpi.Tools.Truncate

open Utf16 (isHigh isLow)

def DEFAULT_MAX_LINES : Nat := 2000

def DEFAULT_MAX_BYTES : Nat := 50 * 1024

inductive TruncatedBy
  | lines
  | bytes
  deriving DecidableEq

structure TruncationResult where
  content : Text
  truncated : Bool
  truncatedBy : Option TruncatedBy
  totalLines : Nat
  totalBytes : Nat
  outputLines : Nat
  outputBytes : Nat
  lastLinePartial : Bool
  firstLineExceedsLimit : Bool
  maxLines : Nat
  maxBytes : Nat
  deriving DecidableEq

structure TruncationOptions where
  maxLines : Option Nat
  maxBytes : Option Nat

/-! ## Bytes -/

/-- The bytes of a code unit that is not half of a pair. -/
def unitBytes (code : UInt16) : Nat := if code ≤ 0x7f then 1 else if code ≤ 0x7ff then 2 else 3

/-- The harness counts by itself where there is no `Buffer`. -/
def utf8ByteLength : Text → Nat
  | [] => 0
  | [code] => unitBytes code
  | code :: next :: text =>
    if isHigh code && isLow next then 4 + utf8ByteLength text
    else unitBytes code + utf8ByteLength (next :: text)

/-- `Buffer.byteLength(content, "utf-8")` -/
def bufferByteLength (content : Text) : Nat := (Utf8.encode (Utf16.decode content)).length

/-! ## Lines -/

def splitLinesForCounting (content : Text) : List Text :=
  if content = [] then []
  else if content.getLast? = some newline then (List.splitOn newline content).dropLast
  else List.splitOn newline content

/-- The variables of the loops. -/
structure Collected where
  outputLinesArr : List Text
  outputBytesCount : Nat
  truncatedBy : TruncatedBy
  lastLinePartial : Bool
  deriving DecidableEq

section Loops

variable (byteLength : Text → Nat) (maxLines maxBytes : Nat)

/-- The loop of `truncateHead`, from line `i` on. -/
def collectHead : (i : Nat) → List Text → List Text → Nat → Collected
  | _, [], outputLinesArr, outputBytesCount => ⟨outputLinesArr, outputBytesCount, .lines, false⟩
  | i, line :: lines, outputLinesArr, outputBytesCount =>
    if i < maxLines then
      let lineBytes := byteLength line + if i > 0 then 1 else 0
      if outputBytesCount + lineBytes > maxBytes then ⟨outputLinesArr, outputBytesCount, .bytes, false⟩
      else collectHead (i + 1) lines (outputLinesArr ++ [line]) (outputBytesCount + lineBytes)
    else ⟨outputLinesArr, outputBytesCount, .lines, false⟩

/-- The loop of `truncateTail`, over the lines from the last one on. -/
def collectTail (truncateStringToBytesFromEnd : Text → Nat → Text) : List Text → List Text → Nat → Collected
  | [], outputLinesArr, outputBytesCount => ⟨outputLinesArr, outputBytesCount, .lines, false⟩
  | line :: lines, outputLinesArr, outputBytesCount =>
    if outputLinesArr.length < maxLines then
      let lineBytes := byteLength line + if outputLinesArr.length > 0 then 1 else 0
      if outputBytesCount + lineBytes > maxBytes then
        if outputLinesArr.length = 0 then
          let truncatedLine := truncateStringToBytesFromEnd line maxBytes
          ⟨truncatedLine :: outputLinesArr, byteLength truncatedLine, .bytes, true⟩
        else ⟨outputLinesArr, outputBytesCount, .bytes, false⟩
      else
        collectTail truncateStringToBytesFromEnd lines (line :: outputLinesArr) (outputBytesCount + lineBytes)
    else ⟨outputLinesArr, outputBytesCount, .lines, false⟩

/-- Both functions look again whether the line limit ended the loop. -/
def Collected.finalTruncatedBy (collected : Collected) : TruncatedBy :=
  if collected.outputLinesArr.length ≥ maxLines && collected.outputBytesCount ≤ maxBytes then .lines
  else collected.truncatedBy

/-- The result where no truncation is needed. -/
def untruncated (content : Text) : TruncationResult where
  content
  truncated := false
  truncatedBy := none
  totalLines := (splitLinesForCounting content).length
  totalBytes := byteLength content
  outputLines := (splitLinesForCounting content).length
  outputBytes := byteLength content
  lastLinePartial := false
  firstLineExceedsLimit := false
  maxLines
  maxBytes

/-- The result of the lines that were collected. -/
def truncatedTo (content : Text) (collected : Collected) : TruncationResult where
  content := List.intercalate [newline] collected.outputLinesArr
  truncated := true
  truncatedBy := some (collected.finalTruncatedBy maxLines maxBytes)
  totalLines := (splitLinesForCounting content).length
  totalBytes := byteLength content
  outputLines := collected.outputLinesArr.length
  outputBytes := byteLength (List.intercalate [newline] collected.outputLinesArr)
  lastLinePartial := collected.lastLinePartial
  firstLineExceedsLimit := false
  maxLines
  maxBytes

/-- The result where the first line alone is too long. -/
def firstLineTooLong (content : Text) : TruncationResult where
  content := []
  truncated := true
  truncatedBy := some .bytes
  totalLines := (splitLinesForCounting content).length
  totalBytes := byteLength content
  outputLines := 0
  outputBytes := 0
  lastLinePartial := false
  firstLineExceedsLimit := true
  maxLines
  maxBytes

/-- A content that is not within the limits has a first line. -/
def truncateHeadWith (content : Text) : TruncationResult :=
  let lines := splitLinesForCounting content
  if lines.length ≤ maxLines && byteLength content ≤ maxBytes then untruncated byteLength maxLines maxBytes content
  else if byteLength (lines.headD []) > maxBytes then firstLineTooLong byteLength maxLines maxBytes content
  else truncatedTo byteLength maxLines maxBytes content (collectHead byteLength maxLines maxBytes 0 lines [] 0)

def truncateTailWith (truncateStringToBytesFromEnd : Text → Nat → Text) (content : Text) : TruncationResult :=
  let lines := splitLinesForCounting content
  if lines.length ≤ maxLines && byteLength content ≤ maxBytes then untruncated byteLength maxLines maxBytes content
  else truncatedTo byteLength maxLines maxBytes content
    (collectTail byteLength maxLines maxBytes truncateStringToBytesFromEnd lines.reverse [] 0)

end Loops

/-! ## The coding agent -/

namespace CodingAgent

def truncateStringToBytesFromEnd (str : Text) (maxBytes : Nat) : Text :=
  let buf := Utf8.encode (Utf16.decode str)
  if buf.length ≤ maxBytes then str
  else Utf16.encode (Utf8.decode (buf.drop (Utf8.boundaryFrom buf (buf.length - maxBytes))))

def truncateHead (content : Text) (options : TruncationOptions) : TruncationResult :=
  truncateHeadWith bufferByteLength (options.maxLines.getD DEFAULT_MAX_LINES)
    (options.maxBytes.getD DEFAULT_MAX_BYTES) content

def truncateTail (content : Text) (options : TruncationOptions) : TruncationResult :=
  truncateTailWith bufferByteLength (options.maxLines.getD DEFAULT_MAX_LINES)
    (options.maxBytes.getD DEFAULT_MAX_BYTES) truncateStringToBytesFromEnd content

end CodingAgent

/-! ## The harness -/

namespace Harness

def replaceUnpairedSurrogates : Text → Text
  | [] => []
  | [code] => if isHigh code || isLow code then [0xfffd] else [code]
  | code :: next :: text =>
    if isHigh code && isLow next then code :: next :: replaceUnpairedSurrogates text
    else (if isHigh code || isLow code then 0xfffd else code) :: replaceUnpairedSurrogates (next :: text)

/-- The loop that goes back from the end: the output so far, and whether a surrogate in it has no partner. -/
def takeFromEnd (maxBytes : Nat) : Text → (outputBytes : Nat) → (output : Text) → (needsReplacement : Bool) →
    Text × Bool
  | [], _, output, needsReplacement => (output, needsReplacement)
  | [code], outputBytes, output, needsReplacement =>
    if outputBytes + unitBytes code > maxBytes then (output, needsReplacement)
    else (code :: output, needsReplacement || isHigh code || isLow code)
  | code :: previous :: text, outputBytes, output, needsReplacement =>
    if isLow code && isHigh previous then
      if outputBytes + 4 > maxBytes then (output, needsReplacement)
      else takeFromEnd maxBytes text (outputBytes + 4) (previous :: code :: output) needsReplacement
    else if outputBytes + unitBytes code > maxBytes then (output, needsReplacement)
    else takeFromEnd maxBytes (previous :: text) (outputBytes + unitBytes code) (code :: output)
      (needsReplacement || isHigh code || isLow code)

def truncateStringToBytesFromEnd (str : Text) (maxBytes : Nat) : Text :=
  if maxBytes = 0 then []
  else
    let (output, needsReplacement) := takeFromEnd maxBytes str.reverse 0 [] false
    if needsReplacement then replaceUnpairedSurrogates output else output

def truncateHead (content : Text) (options : TruncationOptions) : TruncationResult :=
  truncateHeadWith utf8ByteLength (options.maxLines.getD DEFAULT_MAX_LINES)
    (options.maxBytes.getD DEFAULT_MAX_BYTES) content

def truncateTail (content : Text) (options : TruncationOptions) : TruncationResult :=
  truncateTailWith utf8ByteLength (options.maxLines.getD DEFAULT_MAX_LINES)
    (options.maxBytes.getD DEFAULT_MAX_BYTES) truncateStringToBytesFromEnd content

end Harness

end Mcpi.Tools.Truncate
