import Mcpi.Lib.TextDecoder
import Mcpi.Lib.Transition
import Mcpi.Tools.Truncate

/-!
# Capturing the output of a command

`executeShellWithCapture` keeps the end of a command's output, counts lines and bytes, and writes the whole of an
output that exceeds the limits to a file. Chunks come while the file is written; the writes wait for one another. A
chunk is text that was decoded from UTF-8, so it is a list of characters.
-/

namespace Mcpi.Tools.ShellOutput

open Truncate (TruncationResult DEFAULT_MAX_LINES DEFAULT_MAX_BYTES)

structure ExecutionError where
  code : String
  message : String
  deriving DecidableEq

/-- `toExecutionError` of what is not an `ExecutionError` -/
def toExecutionError (message : String) : ExecutionError := ⟨"unknown", message⟩

structure ShellCaptureProgress where
  output : Text
  truncation : TruncationResult
  fullOutputPath : Option String
  lastLineBytes : Nat
  deriving DecidableEq

structure ShellCaptureResult extends ShellCaptureProgress where
  exitCode : Option Int
  cancelled : Bool
  truncated : Bool
  executionError : Option ExecutionError
  deriving DecidableEq

/-! ## Text -/

def keepsChar (char : Char) : Bool :=
  let code := char.toNat
  if code = 0x09 || code = 0x0a || code = 0x0d then true
  else if code ≤ 0x1f then false
  else if 0xfff9 ≤ code && code ≤ 0xfffb then false
  else true

def sanitizeBinaryOutput (str : List Char) : List Char := str.filter keepsChar

/-- The text that is captured of a chunk. -/
def sanitized (chunk : List Char) : List Char := (sanitizeBinaryOutput chunk).filter (· ≠ '\r')

def trimToLastUtf8Bytes (text : List Char) (maxBytes : Nat) : List Char :=
  let bytes := Utf8.encode text
  if bytes.length ≤ maxBytes then text
  else Utf8.decodeText (bytes.drop (Utf8.boundaryFrom bytes (bytes.length - maxBytes)))

/-- `text.slice(text.lastIndexOf("\n") + 1)`, where there is a newline. -/
def trailingText : List Char → Option (List Char)
  | [] => none
  | char :: text => (trailingText text).or (if char = '\n' then some text else none)

/-! ## State -/

/-- What a link of the write chain does. -/
inductive Write
  | createTempFile (initialContent : List Char)
  | appendFile (text : List Char)
  deriving DecidableEq

/-- How `env.exec` ends. -/
inductive ExecOutcome
  | exitCode (exitCode : Int)
  | error (error : ExecutionError)
  | thrown (error : ExecutionError)
  deriving DecidableEq

structure State where
  tailOutput : List Char
  totalBytes : Nat
  completedLines : Nat
  hasOpenLine : Bool
  currentLineBytes : Nat
  fullOutputPath : Option String
  fullOutputRequested : Bool
  acceptingOutput : Bool
  /-- The links of the write chain that are not done. -/
  writeChain : List Write
  /-- The error that the chain hands on. -/
  writeError : Option ExecutionError
  captureError : Option ExecutionError
  outcome : Option ExecOutcome
  /-- What is in the temporary file. -/
  fullOutput : List Char
  deriving DecidableEq

def State.initial : State where
  tailOutput := []
  totalBytes := 0
  completedLines := 0
  hasOpenLine := false
  currentLineBytes := 0
  fullOutputPath := none
  fullOutputRequested := false
  acceptingOutput := true
  writeChain := []
  writeError := none
  captureError := none
  outcome := none
  fullOutput := []

def maxOutputBytes : Nat := DEFAULT_MAX_BYTES * 2

/-- `writeChain = writeChain.then(…)`: a link after one that failed does nothing. -/
def State.chain (s : State) (write : Write) : State :=
  if s.writeError.isSome then s else { s with writeChain := s.writeChain ++ [write] }

def State.appendFullOutput (s : State) (text : List Char) : State :=
  if !s.fullOutputRequested || s.captureError.isSome then s else s.chain (.appendFile text)

def State.ensureFullOutputFile (s : State) (initialContent : List Char) : State :=
  if s.fullOutputRequested || s.captureError.isSome then s
  else { s with fullOutputRequested := true }.chain (.createTempFile initialContent)

def State.totalLines (s : State) : Nat := s.completedLines + if s.hasOpenLine then 1 else 0

def State.exceeds (s : State) : Bool := s.totalLines > DEFAULT_MAX_LINES || s.totalBytes > DEFAULT_MAX_BYTES

def State.createProgress (s : State) : ShellCaptureProgress :=
  let tailTruncation := Truncate.Harness.truncateTail (Utf16.encode s.tailOutput) ⟨none, none⟩
  let truncated := s.exceeds
  let truncation : TruncationResult := { tailTruncation with
    truncated
    truncatedBy :=
      if truncated then
        some (tailTruncation.truncatedBy.getD (if s.totalBytes > DEFAULT_MAX_BYTES then .bytes else .lines))
      else none
    totalLines := s.totalLines
    totalBytes := s.totalBytes }
  { output := if truncated then truncation.content else Utf16.encode s.tailOutput
    truncation
    fullOutputPath := s.fullOutputPath
    lastLineBytes := s.currentLineBytes }

/-! ## Steps -/

/-- The counters after a text. -/
def State.count (s : State) (text : List Char) : State :=
  let textBytes := Utf8.byteLength text
  let s := { s with
    totalBytes := s.totalBytes + textBytes
    completedLines := s.completedLines + ((List.splitOn '\n' text).length - 1) }
  match trailingText text with
  | some trailingText =>
    { s with currentLineBytes := Utf8.byteLength trailingText, hasOpenLine := trailingText ≠ [] }
  | none =>
    if text.length > 0 then { s with currentLineBytes := s.currentLineBytes + textBytes, hasOpenLine := true }
    else s

/-- The output so far goes to the file once it exceeds a limit, and what comes later is appended. -/
def State.save (s : State) (text : List Char) : State :=
  if s.exceeds && !s.fullOutputRequested then s.ensureFullOutputFile s.tailOutput
  else if s.fullOutputRequested then s.appendFullOutput text
  else s

/-- A text is counted, put at the end of the tail and saved. -/
def State.receive (s : State) (text : List Char) : State :=
  let s := s.count text
  let s := { s with tailOutput := s.tailOutput ++ text }
  let s := s.save text
  { s with tailOutput := trimToLastUtf8Bytes s.tailOutput maxOutputBytes }

/-- `thrown` is what the caller's own callback throws. -/
def State.onChunk (s : State) (chunk : List Char) (thrown : Option String) : State :=
  if s.acceptingOutput then
    let s := s.receive (sanitized chunk)
    match thrown with
    | some message => { s with captureError := some (toExecutionError message) }
    | none => s
  else s

/-- A link of the chain fails: the ones after it hand the error on. -/
def State.failWrite (s : State) (error : ExecutionError) : State :=
  { s with writeChain := [], writeError := some error }

/-- What happens while the command runs and after it has ended. -/
inductive Event
  | chunk (chunk : List Char) (thrown : Option String)
  | created (result : Except String String)
  /-- An append that fails may leave anything in the file. -/
  | appended (result : Except String Unit) (left : List Char)
  | exited (outcome : ExecOutcome)

def step (s : State) : Event → Option State
  | .chunk chunk thrown => some (s.onChunk chunk thrown)
  | .created result =>
    match s.writeChain, result with
    | .createTempFile initialContent :: rest, .ok path =>
      some { s with
        fullOutputPath := some path, fullOutput := [], writeChain := .appendFile initialContent :: rest }
    | .createTempFile _ :: _, .error message => some (s.failWrite (toExecutionError message))
    | _, _ => none
  | .appended result left =>
    match s.writeChain, s.fullOutputPath, result with
    | .appendFile _ :: _, none, _ =>
      some (s.failWrite (toExecutionError "Full output path was not created"))
    | .appendFile text :: rest, some _, .ok () =>
      some { s with fullOutput := s.fullOutput ++ text, writeChain := rest }
    | .appendFile _ :: _, some _, .error message =>
      some ({ s with fullOutput := left }.failWrite (toExecutionError message))
    | _, _, _ => none
  | .exited outcome =>
    match s.outcome with
    | some _ => none
    | none =>
      let s := { s with acceptingOutput := false, outcome := some outcome }
      match outcome with
      | .thrown _ => some s
      | _ => some (if s.exceeds && !s.fullOutputRequested then s.ensureFullOutputFile s.tailOutput else s)

/-- The report with how the command ended. -/
def ShellCaptureProgress.toResult (progress : ShellCaptureProgress) (exitCode : Option Int) (cancelled : Bool)
    (executionError : Option ExecutionError) : ShellCaptureResult :=
  { progress with exitCode, cancelled, truncated := progress.truncation.truncated, executionError }

/-- What `executeShellWithCapture` returns once the writes are done; `aborted` is the abort signal's. -/
def State.result (s : State) (aborted returnExecutionErrors : Bool) :
    Option (Except ExecutionError ShellCaptureResult) :=
  match s.outcome with
  | none => none
  | some (.thrown error) => some (.error error)
  | some outcome =>
    if s.writeChain ≠ [] then none
    else
      match s.writeError, s.captureError with
      | some error, _ => some (.error error)
      | none, some error => some (.error error)
      | none, none =>
        let progress := s.createProgress
        match outcome with
        | .error error =>
          if error.code = "aborted" || aborted then some (.ok (progress.toResult none true none))
          else if returnExecutionErrors then some (.ok (progress.toResult none false (some error)))
          else some (.error error)
        | .exitCode exitCode =>
          some (.ok (progress.toResult (if aborted then none else some exitCode) aborted none))
        | .thrown error => some (.error error)

end Mcpi.Tools.ShellOutput
