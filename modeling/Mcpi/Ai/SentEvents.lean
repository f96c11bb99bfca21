import Mcpi.Ai.ServerSentEvents
import Mcpi.Lib.LineBreaks

/-!
# Server-sent events as they are written

An event is a line with its name, a line with its payload, and a blank line.
-/

namespace Mcpi.Ai

open LineBreaks

variable {ν : Type} [JsonNumber ν]

/-- An event whose payload is a JSON object on one line. -/
structure SentEvent (ν : Type) [JsonNumber ν] where
  name : List Char
  data : List Char
  members : List (String × Json ν)
  name_line : OneLine name
  data_line : OneLine data
  begins : data.head? = some '{'
  ends : data.getLast? = some '}'
  parses : Json.parse data = some (.obj members)

namespace SentEvent

def payload (event : SentEvent ν) : Json ν := .obj event.members

def eventLine (event : SentEvent ν) : List Char := "event: ".toList ++ event.name

def dataLine (event : SentEvent ν) : List Char := "data: ".toList ++ event.data

theorem eventLine_line (event : SentEvent ν) : OneLine event.eventLine :=
  OneLine.append (by decide +kernel) event.name_line

theorem dataLine_line (event : SentEvent ν) : OneLine event.dataLine :=
  OneLine.append (by decide +kernel) event.data_line

end SentEvent

/-- The text of events; the blank line after the last may be missing. -/
def written (lineEnd : LineEnd) (finalBlankLine : Bool) : List (SentEvent ν) → List Char
  | [] => []
  | event :: events =>
    event.eventLine ++ (lineEnd.chars ++ (event.dataLine ++ (lineEnd.chars ++
      ((if events = [] ∧ finalBlankLine = false then [] else lineEnd.chars) ++ written lineEnd finalBlankLine events))))

theorem head_written (lineEnd : LineEnd) (finalBlankLine : Bool) (events : List (SentEvent ν)) :
    (written lineEnd finalBlankLine events).head? = none ∨
    (written lineEnd finalBlankLine events).head? = some 'e' := by
  cases events with
  | nil => exact .inl rfl
  | cons event events => exact .inr rfl

theorem written_append {lineEnd : LineEnd} {finalBlankLine : Bool} (earlier : List (SentEvent ν))
    (event : SentEvent ν) (events : List (SentEvent ν)) :
    written lineEnd finalBlankLine (earlier ++ event :: events) =
      written lineEnd true earlier ++ written lineEnd finalBlankLine (event :: events) := by
  induction earlier with
  | nil => rfl
  | cons first earlier ih =>
    have hne : ¬ (earlier ++ event :: events = [] ∧ finalBlankLine = false) := fun h => by simp at h
    have htrue : ¬ (earlier = [] ∧ true = false) := fun h => nomatch h.2
    rw [List.cons_append, written, written, ih, if_neg hne, if_neg htrue]
    simp only [List.append_assoc]

end Mcpi.Ai
