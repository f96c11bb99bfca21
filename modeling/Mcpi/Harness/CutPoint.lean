import Mcpi.CodingAgent.CutPoint
import Mcpi.Harness.Compaction

/-!
# Where the compactions cut

The harness has its own `findCutPoint`. It counts messages only, moves the cut back over everything that
is neither a message nor a compaction, branch summaries included, and takes a turn for whole only where a
user message is kept first. What is said of cuts and of split turns is said of both copies.
-/

namespace Mcpi.Harness

open CodingAgent (ArgumentReader)

variable {δ : Type}

/-! ## Positions -/

/-- The entry contributes messages to the context. -/
def Entry.visible (entry : Entry δ) : Bool := !(sessionEntryToContextMessages entry).isEmpty

variable {args : ArgumentReader δ} {entries : List (Entry δ)} {startIndex endIndex : Nat} {keepRecentTokens : Int}

/-- What `findCutPoint` makes of the place that the cut has moved to -/
def resultAt (entries : List (Entry δ)) (startIndex place : Nat) : CutPointResult :=
  let isUserMessage := At entries isUserMessage place
  let turnStartIndex := if isUserMessage then none else findTurnStartIndex entries place startIndex
  ⟨place, turnStartIndex, !isUserMessage && turnStartIndex.isSome⟩

theorem findCutPoint_eq : findCutPoint args entries startIndex endIndex keepRecentTokens =
    CutPoints.cut (cutRange args entries startIndex endIndex keepRecentTokens) (At entries isMetadata)
      ⟨startIndex, none, false⟩ (resultAt entries startIndex) := by
  have hpoints : findValidCutPoints entries startIndex endIndex =
      CutPoints.legalPlaces (cutRange args entries startIndex endIndex keepRecentTokens) := rfl
  rw [findCutPoint, hpoints, CutPoints.cut]
  cases CutPoints.legalPlaces (cutRange args entries startIndex endIndex keepRecentTokens) <;> rfl

theorem findCutPoint_of_chosen {c place : Nat}
    (hchosen : CutPoints.Chosen (cutRange args entries startIndex endIndex keepRecentTokens) c)
    (hplace : CutPoints.MovesTo (At entries isMetadata) startIndex c place) :
    findCutPoint args entries startIndex endIndex keepRecentTokens = resultAt entries startIndex place :=
  findCutPoint_eq.trans (CutPoints.cut_of_chosen hchosen hplace)

theorem findCutPoint_of_none
    (hnone : ∀ c, ¬ CutPoints.Legal (cutRange args entries startIndex endIndex keepRecentTokens) c) :
    findCutPoint args entries startIndex endIndex keepRecentTokens = ⟨startIndex, none, false⟩ :=
  findCutPoint_eq.trans (CutPoints.cut_of_none hnone)

/-- A split turn is one that has started before the cut. -/
theorem resultAt_split {place : Nat} : (resultAt entries startIndex place).isSplitTurn = true ↔
    At entries isUserMessage place = false ∧
      ∃ t, CutPoints.Newest (At entries isTurnStartEntry) startIndex place t ∧
        (resultAt entries startIndex place).turnStartIndex = some t :=
  CutPoints.isSome_iff_newest

/-! ## Entries -/

variable {entry : Entry δ}

theorem cutPoint_of_turnStart (h : isTurnStartEntry entry = true) : isCutPointEntry entry = true := by
  obtain ⟨id, seq, parentId, timestamp, body⟩ := entry
  cases body with
  | message message => cases message <;> first | rfl | cases h
  | branch_summary => rfl
  | _ => cases h

/-- A user message starts a turn, and the context shows it. -/
theorem userMessage_facts (h : isUserMessage entry = true) :
    isTurnStartEntry entry = true ∧ entry.visible = true := by
  obtain ⟨id, seq, parentId, timestamp, body⟩ := entry
  cases body with
  | message message =>
    cases message with
    | user => exact ⟨rfl, rfl⟩
    | _ => cases h
  | _ => cases h

/-- The ids of the tool calls of an assistant message -/
def toolCallIds (entry : Entry δ) : List String :=
  match entry.body with
  | .message (.assistant content ..) => content.filterMap fun
      | .toolCall id .. => some id
      | _ => none
  | _ => []

/-- The id of the call a tool result is for -/
def toolResultFor? (entry : Entry δ) : Option String :=
  match entry.body with
  | .message (.toolResult toolCallId ..) => some toolCallId
  | _ => none

/-- An entry that is neither a message nor a summary of any kind -/
def isSilent (entry : Entry δ) : Bool :=
  match entry.body with
  | .message .. | .compaction .. | .branch_summary .. => false
  | _ => true

/-- The tool result at `i` belongs to a call at `k`: no message but tool results, and no summary, is between
them. -/
def CallOf (entries : List (Entry δ)) : Nat → Nat → Prop :=
  CutPoints.CallOf entries toolCallIds toolResultFor? isSilent

theorem not_cutPoint_between (h : ((toolResultFor? entry).isSome || isSilent entry) = true) :
    isCutPointEntry entry = false := by
  obtain ⟨id, seq, parentId, timestamp, body⟩ := entry
  cases body with
  | message message => cases message <;> first | rfl | cases h
  | branch_summary => cases h
  | _ => rfl

theorem not_metadata_of_toolResult (h : (toolResultFor? entry).isSome = true) : isMetadata entry = false := by
  obtain ⟨id, seq, parentId, timestamp, body⟩ := entry
  cases body with
  | message message => rfl
  | _ => cases h

/-! ## Both copies -/

/-- **Both cuts are the nearest legal ones.** The coding agent's moves back over entries that the context
does not show, the harness's over those that are neither messages nor compactions. -/
theorem findCutPoint_nearest :
    (∀ (args : ArgumentReader δ) (entries : List (CodingAgent.SessionEntry δ)) (startIndex endIndex : Nat)
      (keepRecentTokens : Int),
      (∃ c, CutPoints.Legal (CodingAgent.cutRange args entries startIndex endIndex keepRecentTokens) c) →
      ∃ c, CutPoints.CutsNearest (CodingAgent.cutRange args entries startIndex endIndex keepRecentTokens)
        (fun j => !CodingAgent.At entries CodingAgent.SessionEntry.visible j) (CodingAgent.CallOf entries)
        (CodingAgent.findCutPoint args entries startIndex endIndex keepRecentTokens).firstKeptEntryIndex c) ∧
    ∀ (args : ArgumentReader δ) (entries : List (Entry δ)) (startIndex endIndex : Nat) (keepRecentTokens : Int),
      (∃ c, CutPoints.Legal (cutRange args entries startIndex endIndex keepRecentTokens) c) →
      ∃ c, CutPoints.CutsNearest (cutRange args entries startIndex endIndex keepRecentTokens)
        (At entries isMetadata) (CallOf entries)
        (findCutPoint args entries startIndex endIndex keepRecentTokens).firstKeptEntryIndex c := by
  refine ⟨CodingAgent.cutsNearest_findCutPoint, fun args entries startIndex endIndex keepRecentTokens hlegal => ?_⟩
  obtain ⟨c, place, hchosen, hplace⟩ := CutPoints.exists_chosen hlegal (At entries isMetadata)
  rw [findCutPoint_of_chosen hchosen hplace]
  refine ⟨c, CutPoints.cutsNearest hchosen hplace.le hplace.skipped fun k i hcall => ?_⟩
  obtain ⟨⟨entry, hentry, hresult⟩, hlegal⟩ := hcall.not_legal fun _ => not_cutPoint_between
  refine ⟨?_, hlegal⟩
  rw [At, hentry, Option.any_some]
  exact not_metadata_of_toolResult hresult

/-- The place that the nearest cut of the harness moves to is a user message, or what the context shows
first from it on tells whether it splits a turn. -/
def TellingCut (args : ArgumentReader δ) (entries : List (Entry δ)) (startIndex endIndex : Nat)
    (keepRecentTokens : Int) : Prop :=
  ∀ c place, CutPoints.Chosen (cutRange args entries startIndex endIndex keepRecentTokens) c →
    CutPoints.MovesTo (At entries isMetadata) startIndex c place → At entries isUserMessage place = false →
    CutPoints.Telling (At entries isTurnStartEntry) (At entries Entry.visible) startIndex endIndex place

theorem splitTurn_iff (args : ArgumentReader δ) (entries : List (Entry δ)) (startIndex endIndex : Nat)
    (keepRecentTokens : Int) :
    let result := findCutPoint args entries startIndex endIndex keepRecentTokens
    CutPoints.SplitReported (At entries isTurnStartEntry) (At entries Entry.visible) startIndex endIndex
        result.firstKeptEntryIndex result.isSplitTurn result.turnStartIndex ↔
      TellingCut args entries startIndex endIndex keepRecentTokens := by
  intro result
  have hresult : result = CutPoints.cut _ _ _ _ := findCutPoint_eq
  have hlegal : ∀ t, At entries isTurnStartEntry t = true → At entries isCutPointEntry t = true :=
    fun _ => CutPoints.at_mono fun _ => cutPoint_of_turnStart
  rw [hresult]
  refine CutPoints.splitReported_cut_iff (cutRange args entries startIndex endIndex keepRecentTokens)
    CutPointResult.firstKeptEntryIndex CutPointResult.isSplitTurn CutPointResult.turnStartIndex
    ⟨rfl, rfl, rfl⟩ (fun _ => ⟨rfl, rfl, rfl⟩) hlegal fun place huser => ?_
  exact ⟨CutPoints.at_mono (fun _ h => (userMessage_facts h).1) huser,
    CutPoints.at_mono (fun _ h => (userMessage_facts h).2) huser⟩

/-- **When split turns are reported right**, by both copies. -/
theorem turnReported_iff :
    (∀ (args : ArgumentReader δ) (entries : List (CodingAgent.SessionEntry δ)) (startIndex endIndex : Nat)
      (keepRecentTokens : Int),
      let result := CodingAgent.findCutPoint args entries startIndex endIndex keepRecentTokens
      CutPoints.SplitReported (CodingAgent.At entries CodingAgent.isTurnStartEntry)
          (CodingAgent.At entries CodingAgent.SessionEntry.visible) startIndex endIndex
          result.firstKeptEntryIndex result.isSplitTurn result.turnStartIndex ↔
        ¬ CodingAgent.CutBehindMetadata args entries startIndex endIndex keepRecentTokens) ∧
    ∀ (args : ArgumentReader δ) (entries : List (Entry δ)) (startIndex endIndex : Nat) (keepRecentTokens : Int),
      let result := findCutPoint args entries startIndex endIndex keepRecentTokens
      CutPoints.SplitReported (At entries isTurnStartEntry) (At entries Entry.visible) startIndex endIndex
          result.firstKeptEntryIndex result.isSplitTurn result.turnStartIndex ↔
        TellingCut args entries startIndex endIndex keepRecentTokens :=
  ⟨CodingAgent.splitTurn_iff, splitTurn_iff⟩

section Example

open CodingAgent (longOutput promptAndReply turnsApart)

def sampleArguments : ArgumentReader Unit := ⟨fun _ => "\x7b\x7d", fun _ => none⟩

def sampleEntry (id : String) (body : EntryBody Unit) : Entry Unit := ⟨id, 1, none, 1, body⟩

def samplePrompt : AgentMessage Unit := .user (.text "go") 1

def sampleReply (stopReason : StopReason) : AgentMessage Unit :=
  .assistant [.text "ok"] "p" "m" ⟨0, 0, 0, 0, 0⟩ stopReason 1

/-- A prompt, and another with a branch summary in front of it -/
def summaryBetween : List (Entry Unit) :=
  [sampleEntry "a" (.message samplePrompt), sampleEntry "b" (.branch_summary "x" "s"),
    sampleEntry "c" (.message (.user (.text "thirty characters of a prompt.") 1))]

/-- A turn, and a command that the user has run -/
def commandAfterTurn : List (Entry Unit) :=
  [sampleEntry "a" (.message samplePrompt), sampleEntry "b" (.message (sampleReply .stop)),
    sampleEntry "c" (.message (.bashExecution "ls" "thirty characters of output..." 1))]

theorem findCutPoint_nearest_longOutput :
    (∃ c, CutPoints.CutsNearest (CodingAgent.cutRange CodingAgent.sampleArguments longOutput 0 3 20)
      (fun j => !CodingAgent.At longOutput CodingAgent.SessionEntry.visible j) (CodingAgent.CallOf longOutput)
      (CodingAgent.findCutPoint CodingAgent.sampleArguments longOutput 0 3 20).firstKeptEntryIndex c) ∧
    ∃ c, CutPoints.CutsNearest (cutRange sampleArguments summaryBetween 0 3 5)
      (At summaryBetween isMetadata) (CallOf summaryBetween)
      (findCutPoint sampleArguments summaryBetween 0 3 5).firstKeptEntryIndex c :=
  ⟨findCutPoint_nearest.1 _ longOutput 0 3 20 ⟨0, by decide, by decide, by decide⟩,
    findCutPoint_nearest.2 _ summaryBetween 0 3 5 ⟨0, by decide, by decide, by decide⟩⟩

theorem legal_cases {entries : List (CodingAgent.SessionEntry Unit)} {stop : Nat} {keep : Int} {points : List Nat}
    (hpoints : CodingAgent.findValidCutPoints entries 0 stop = points) {c : Nat}
    (hc : CutPoints.Legal (CodingAgent.cutRange CodingAgent.sampleArguments entries 0 stop keep) c) : c ∈ points :=
  hpoints ▸ CutPoints.mem_legalPlaces_iff.mpr hc

/-- Nothing may be summarized though the entries before the last legal cut point hold the budget:
the nearest one is the first, or none is behind the entry where the budget is reached and the first
is taken. And the harness moves the cut back over a branch summary that the context shows. -/
theorem findCutPoint_keeps_all :
    ((CodingAgent.findCutPoint CodingAgent.sampleArguments promptAndReply 0 2 3).firstKeptEntryIndex = 0 ∧
      CutPoints.Legal (CodingAgent.cutRange CodingAgent.sampleArguments promptAndReply 0 2 3) 1 ∧
      (∀ c, CutPoints.Legal (CodingAgent.cutRange CodingAgent.sampleArguments promptAndReply 0 2 3) c → c ≤ 1) ∧
      3 ≤ CutPoints.suffixTokens (CodingAgent.tokensAt CodingAgent.sampleArguments promptAndReply) 1 0) ∧
    ((CodingAgent.findCutPoint CodingAgent.sampleArguments longOutput 0 3 5).firstKeptEntryIndex = 0 ∧
      CutPoints.NewestReaching (CodingAgent.cutRange CodingAgent.sampleArguments longOutput 0 3 5) 2 ∧
      CutPoints.Legal (CodingAgent.cutRange CodingAgent.sampleArguments longOutput 0 3 5) 1 ∧
      ∀ c, CutPoints.Legal (CodingAgent.cutRange CodingAgent.sampleArguments longOutput 0 3 5) c → c < 2) ∧
    CutPoints.Legal (cutRange sampleArguments summaryBetween 0 3 5) 2 ∧
      CutPoints.NewestReaching (cutRange sampleArguments summaryBetween 0 3 5) 2 ∧
      (findCutPoint sampleArguments summaryBetween 0 3 5).firstKeptEntryIndex = 1 ∧
      At summaryBetween Entry.visible 1 = true := by
  refine ⟨⟨by decide, ⟨by decide, by decide, by decide⟩, ?_, by decide⟩, ⟨by decide, ?_,
    ⟨by decide, by decide, by decide⟩, ?_⟩, ⟨by decide, by decide, by decide⟩, ?_, by decide, by decide⟩
  · intro c hc
    have hmem := legal_cases (by decide : CodingAgent.findValidCutPoints promptAndReply 0 2 = [0, 1]) hc
    simp at hmem
    omega
  · exact ⟨⟨by decide, by decide, by decide, by decide⟩, fun j hj => Nat.le_of_lt_succ hj.lt_stop⟩
  · intro c hc
    have hmem := legal_cases (by decide : CodingAgent.findValidCutPoints longOutput 0 3 = [0, 1]) hc
    simp at hmem
    omega
  · exact ⟨⟨by decide, by decide, by decide, by decide⟩, fun j hj => Nat.le_of_lt_succ hj.lt_stop⟩

/-- A cut behind a whole turn is reported to split it: by the coding agent, since a change of the model is
before it, and by the harness, since what it keeps first is no user message. -/
theorem turn_before_cut_split :
    (CodingAgent.findCutPoint CodingAgent.sampleArguments turnsApart 0 4 5 = ⟨2, some 0, true⟩ ∧
      ¬ CutPoints.SplitReported (CodingAgent.At turnsApart CodingAgent.isTurnStartEntry)
        (CodingAgent.At turnsApart CodingAgent.SessionEntry.visible) 0 4 2 true (some 0)) ∧
    findCutPoint sampleArguments commandAfterTurn 0 3 5 = ⟨2, some 2, true⟩ ∧
      ¬ CutPoints.SplitReported (At commandAfterTurn isTurnStartEntry) (At commandAfterTurn Entry.visible)
        0 3 2 true (some 2) := by
  refine ⟨⟨by decide, fun hreported => ?_⟩, by decide, fun hreported => ?_⟩
  · obtain ⟨m, hm, hnot, -⟩ := hreported.split_iff.mp rfl
    have hle : 2 ≤ m := hm.le
    have hlt := hm.lt
    obtain rfl | rfl : m = 2 ∨ m = 3 := by omega
    · exact absurd hm.holds (by decide)
    · exact absurd hnot (by decide)
  · obtain ⟨m, hm, hnot, -⟩ := hreported.split_iff.mp rfl
    have hle : 2 ≤ m := hm.le
    have hlt := hm.lt
    obtain rfl : m = 2 := by omega
    exact absurd hnot (by decide)

end Example

end Mcpi.Harness
