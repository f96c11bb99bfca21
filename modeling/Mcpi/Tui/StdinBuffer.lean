import Mcpi.Lib.Search
import Mathlib.Data.List.Basic

/-!
# The input buffer

`StdinBuffer` cuts what the terminal sends into key sequences and pastes. A text is a list of UTF-16 code
units, as a string is. The events are collected in the order in which they are emitted.
-/

namespace Mcpi.Tui

abbrev Text := List UInt16

/-- The code unit of an ASCII character. -/
def unit (c : Char) : UInt16 := UInt16.ofNat c.toNat

namespace StdinBuffer

def esc : UInt16 := 0x1b

def bel : UInt16 := 0x07

def bracketedPasteStart : Text := [esc, unit '[', unit '2', unit '0', unit '0', unit '~']

def bracketedPasteEnd : Text := [esc, unit '[', unit '2', unit '0', unit '1', unit '~']

/-! ## Sequences -/

inductive Completeness
  | complete
  | incomplete
  | notEscape
  deriving DecidableEq

def isDigit (u : UInt16) : Bool := unit '0' ≤ u && u ≤ unit '9'

/-- `^<\d+;\d+;\d+[Mm]$`. The check of the parts that follows the regular expression accepts the same. -/
def isSgrMouse (payload : Text) : Bool :=
  let parts := (payload.drop 1).dropLast.splitOn (unit ';')
  payload.head? = some (unit '<') && (payload.getLast? = some (unit 'M') || payload.getLast? = some (unit 'm')) &&
    parts.length = 3 && parts.all fun part => part ≠ [] && part.all isDigit

def isCompleteCsiSequence (data : Text) : Completeness :=
  if data.length < 3 then .incomplete
  else
    let payload := data.drop 2
    let lastCharCode := payload.getLastD 0
    if 0x40 ≤ lastCharCode ∧ lastCharCode ≤ 0x7e then
      if payload.head? = some (unit '<') then
        if isSgrMouse payload then .complete else .incomplete
      else .complete
    else .incomplete

def isCompleteOscSequence (data : Text) : Completeness :=
  if [esc, unit '\\'] <:+ data ∨ [bel] <:+ data then .complete else .incomplete

/-- `isCompleteDcsSequence` and `isCompleteApcSequence` -/
def endsWithStringTerminator (data : Text) : Completeness :=
  if [esc, unit '\\'] <:+ data then .complete else .incomplete

def isCompleteDcsSequence (data : Text) : Completeness := endsWithStringTerminator data

def isCompleteApcSequence (data : Text) : Completeness := endsWithStringTerminator data

def isCompleteSequence (data : Text) : Completeness :=
  if ¬ [esc] <+: data then .notEscape
  else if data.length = 1 then .incomplete
  else
    let afterEsc := data.drop 1
    if [unit '['] <+: afterEsc then
      if [unit '[', unit 'M'] <+: afterEsc then
        if data.length ≥ 6 then .complete else .incomplete
      else isCompleteCsiSequence data
    else if [unit ']'] <+: afterEsc then isCompleteOscSequence data
    else if [unit 'P'] <+: afterEsc then isCompleteDcsSequence data
    else if [unit '_'] <+: afterEsc then isCompleteApcSequence data
    else if [unit 'O'] <+: afterEsc then
      if afterEsc.length ≥ 2 then .complete else .incomplete
    else .complete

/-- `^\x1b\[(\d+)(?::\d*)?(?::\d+)?u$`, where the code point is at least 32. -/
def parseUnmodifiedKittyPrintableCodepoint (sequence : Text) : Option Nat :=
  if ¬ [esc, unit '['] <+: sequence then none
  else
    let digits := (sequence.drop 2).takeWhile isDigit
    let rest := (sequence.drop 2).dropWhile isDigit
    let afterShifted := (rest.drop 1).dropWhile isDigit
    let base := (afterShifted.drop 1).takeWhile isDigit
    let matched :=
      digits ≠ [] ∧ (rest = [unit 'u'] ∨ rest.head? = some (unit ':') ∧ (afterShifted = [unit 'u'] ∨
              afterShifted.head? = some (unit ':') ∧ base ≠ [] ∧ (afterShifted.drop 1).dropWhile isDigit = [unit 'u']))
    let codepoint := digits.foldl (fun n u => 10 * n + (u - unit '0').toNat) 0
    if matched ∧ codepoint ≥ 32 then some codepoint else none

/-- The character after two escapes begins a sequence. -/
def introduces (nextChar : Option UInt16) : Bool :=
  nextChar = some (unit '[') || nextChar = some (unit ']') || nextChar = some (unit 'O') ||
    nextChar = some (unit 'P') || nextChar = some (unit '_')

/-- The inner loop: the length of the first candidate that is not incomplete. -/
def sequenceEnd (remaining : Text) : Option Nat :=
  (List.range' 1 remaining.length).find? fun seqEnd =>
    isCompleteSequence (remaining.take seqEnd) ≠ .incomplete

/-- The outer loop. -/
def extractFrom : Nat → Text → List Text × Text
  | 0, remaining => ([], remaining)
  | _, [] => ([], [])
  | fuel + 1, c :: rest =>
    if c = esc then
      match sequenceEnd (c :: rest) with
      | none => ([], c :: rest)
      | some seqEnd =>
        let candidate := (c :: rest).take seqEnd
        -- the first escape is a key of its own
        if candidate = [esc, esc] ∧ introduces (c :: rest)[seqEnd]? then
          let (sequences, remainder) := extractFrom fuel rest
          ([esc] :: sequences, remainder)
        else
          let (sequences, remainder) := extractFrom fuel ((c :: rest).drop seqEnd)
          (candidate :: sequences, remainder)
    else
      let (sequences, remainder) := extractFrom fuel rest
      ([c] :: sequences, remainder)

def extractCompleteSequences (buffer : Text) : List Text × Text := extractFrom buffer.length buffer

/-! ## Events -/

inductive Event
  | data (sequence : Text)
  | paste (content : Text)
  deriving DecidableEq

/-- What has been emitted, and the raw character that may follow a key sequence and is to be dropped. -/
structure Emitted where
  pendingKittyPrintableCodepoint : Option Nat
  events : List Event
  deriving DecidableEq

def rawCodepoint (sequence : Text) : Option Nat :=
  if sequence.length = 1 then sequence.head?.map UInt16.toNat else none

def Emitted.emitDataSequence (emitted : Emitted) (sequence : Text) : Emitted :=
  if rawCodepoint sequence ≠ none ∧ rawCodepoint sequence = emitted.pendingKittyPrintableCodepoint then
    { emitted with pendingKittyPrintableCodepoint := none }
  else
    { pendingKittyPrintableCodepoint := parseUnmodifiedKittyPrintableCodepoint sequence
      events := emitted.events ++ [.data sequence] }

def Emitted.emitPaste (emitted : Emitted) (content : Text) : Emitted :=
  { pendingKittyPrintableCodepoint := none, events := emitted.events ++ [.paste content] }

def Emitted.clearPending (emitted : Emitted) : Emitted :=
  { emitted with pendingKittyPrintableCodepoint := none }

end StdinBuffer

/-! ## The buffer -/

open StdinBuffer in
/-- `StdinBuffer`. `timeout` is set while a timer runs. -/
structure StdinBuffer where
  buffer : Text
  timeout : Bool
  pasteMode : Bool
  pasteBuffer : Text
  emitted : Emitted
  deriving DecidableEq

namespace StdinBuffer

def new : StdinBuffer :=
  { buffer := [], timeout := false, pasteMode := false, pasteBuffer := []
    emitted := { pendingKittyPrintableCodepoint := none, events := [] } }

/-- `process`. A chunk of bytes has been decoded. A paste that ends is read in the same way whether it has
started in this chunk or before it. -/
def processFrom : Nat → StdinBuffer → Text → StdinBuffer
  | 0, b, _ => b
  | fuel + 1, b, str =>
    let b := { b with timeout := false }
    let endPaste (b : StdinBuffer) : StdinBuffer :=
      match Search.indexOf bracketedPasteEnd b.pasteBuffer with
      | none => b
      | some endIndex =>
        let pastedContent := b.pasteBuffer.take endIndex
        let remaining := b.pasteBuffer.drop (endIndex + bracketedPasteEnd.length)
        let b :=
          { b with
            pasteMode := false
            pasteBuffer := []
            emitted := b.emitted.emitPaste pastedContent }
        if remaining.length > 0 then processFrom fuel b remaining else b
    if str.length = 0 ∧ b.buffer.length = 0 then
      { b with emitted := b.emitted.emitDataSequence [] }
    else
      let buffer := b.buffer ++ str
      if b.pasteMode then endPaste { b with buffer := [], pasteBuffer := b.pasteBuffer ++ buffer }
      else
        match Search.indexOf bracketedPasteStart buffer with
        | some startIndex =>
          let emitted :=
            if startIndex > 0 then
              (extractCompleteSequences (buffer.take startIndex)).1.foldl Emitted.emitDataSequence b.emitted
            else b.emitted
          endPaste { b with
            buffer := []
            pasteMode := true
            pasteBuffer := buffer.drop (startIndex + bracketedPasteStart.length)
            emitted := emitted.clearPending }
        | none =>
          let (sequences, remainder) := extractCompleteSequences buffer
          { b with
            buffer := remainder
            timeout := remainder.length > 0
            emitted := sequences.foldl Emitted.emitDataSequence b.emitted }

def process (b : StdinBuffer) (str : Text) : StdinBuffer :=
  processFrom (b.pasteBuffer.length + b.buffer.length + str.length + 1) b str

/-- `flush`, and the sequences that it returns. -/
def flush (b : StdinBuffer) : List Text × StdinBuffer :=
  if b.buffer.length = 0 then ([], { b with timeout := false })
  else
    ([b.buffer],
      { b with timeout := false, buffer := [], emitted := b.emitted.clearPending })

/-- The callback of the timer. -/
def timedOut (b : StdinBuffer) : StdinBuffer :=
  let (flushed, b) := b.flush
  { b with emitted := flushed.foldl Emitted.emitDataSequence b.emitted }

/-- What `flush` returns is handed on as data. -/
def flushed (b : StdinBuffer) : StdinBuffer :=
  let (sequences, b) := b.flush
  { b with
    emitted := { b.emitted with events := b.emitted.events ++ sequences.map Event.data } }

end StdinBuffer

end Mcpi.Tui
