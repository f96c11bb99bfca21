import Mcpi.Lib.Pairing
import Mcpi.Ai.TransformMessages

/-!
# Tool calls of a replayed transcript

What matters to the pairing of calls and results is which ids a message carries. The second pass
replays these as `Pairing.replay` does; the first one rewrites them.
-/

namespace Mcpi.Ai

open Pairing (Item)

variable {δ : Type}

/-! ## Transcripts as items -/

/-- A message as the pairing sees it. -/
def Message.item : Message δ → Item String
  | .user .. => .interrupt
  | .assistant message =>
    if message.failed then .failed else .calls (message.toolCalls.map ToolCall.id)
  | .toolResult message => .answer message.toolCallId

/-- **Calls and results are paired**: every call of an assistant message has one result before the
next assistant or user message, and every result is to a call of the closest assistant message. -/
def ToolCallsPaired (messages : List (Message δ)) : Prop :=
  Pairing.Paired [] (messages.map Message.item)

instance (messages : List (Message δ)) : Decidable (ToolCallsPaired messages) :=
  inferInstanceAs (Decidable (Pairing.Paired _ _))

/-- A transcript whose results answer calls that are still open: those of the last message that did
not fail and of the failed ones after it. -/
def WellFormed (opened : List String) : List (Message δ) → Prop
  | [] => True
  | .user .. :: rest => WellFormed opened rest
  | .toolResult message :: rest =>
    message.toolCallId ∈ opened ∧ WellFormed (opened.erase message.toolCallId) rest
  | .assistant message :: rest =>
    (message.toolCalls.map ToolCall.id).Nodup ∧
      WellFormed ((if message.failed then opened else []) ++ message.toolCalls.map ToolCall.id) rest

instance WellFormed.decide : ∀ (opened : List String) (messages : List (Message δ)),
    Decidable (WellFormed opened messages)
  | _, [] => .isTrue trivial
  | opened, .user .. :: rest => WellFormed.decide opened rest
  | opened, .toolResult message :: rest =>
    have := WellFormed.decide (opened.erase message.toolCallId) rest
    inferInstanceAs (Decidable (_ ∧ _))
  | opened, .assistant message :: rest =>
    have := WellFormed.decide ((if message.failed then opened else []) ++ message.toolCalls.map ToolCall.id) rest
    inferInstanceAs (Decidable (_ ∧ _))

/-- Different ids stay different. -/
def Injective (normalizeToolCallId : Normalizer δ) : Prop :=
  ∀ normalize, normalizeToolCallId = some normalize → ∀ model source, ∀ id id',
    normalize id model source = normalize id' model source → id = id'

section Ids

variable (model : Model) (normalizeToolCallId : Normalizer δ)

/-- The id with which a call is replayed: a call of another model is given a normalized id. -/
def replayedId (message : AssistantMessage δ) (id : String) : String :=
  if isSameModel model message then id
  else
    match normalizeToolCallId with
    | none => id
    | some normalize => normalize id model message

/-- An id that is replayed as another is recorded, for all messages that follow. -/
def recordId (message : AssistantMessage δ) (map : ToolCallIdMap) (toolCall : ToolCall δ) :
    ToolCallIdMap :=
  if replayedId model normalizeToolCallId message toolCall.id = toolCall.id then map
  else map.set toolCall.id (replayedId model normalizeToolCallId message toolCall.id)

def recordIds (map : ToolCallIdMap) (message : AssistantMessage δ) : ToolCallIdMap :=
  message.toolCalls.foldl (recordId model normalizeToolCallId message) map

/-- The calls of a transcript with the ids that they are replayed with, and the results with those
that were last recorded for theirs. -/
def replayedItems : ToolCallIdMap → List (Message δ) → List (Item String)
  | _, [] => []
  | map, .user .. :: rest => .interrupt :: replayedItems map rest
  | map, .toolResult message :: rest =>
    .answer (resultId map message.toolCallId) :: replayedItems map rest
  | map, .assistant message :: rest =>
    (if message.failed then .failed
      else .calls (message.toolCalls.map fun toolCall =>
        replayedId model normalizeToolCallId message toolCall.id)) ::
      replayedItems (recordIds model normalizeToolCallId map message) rest

end Ids

/-! ## The first pass -/

section FirstPass

variable {model : Model} {normalizeToolCallId : Normalizer δ}

theorem transformToolCall_spec (model : Model) (normalizeToolCallId : Normalizer δ)
    (message : AssistantMessage δ) (map : ToolCallIdMap)
    (toolCall : ToolCall δ) :
    (transformToolCall model normalizeToolCallId message map toolCall).1.id =
        replayedId model normalizeToolCallId message toolCall.id ∧
      (transformToolCall model normalizeToolCallId message map toolCall).2 =
        recordId model normalizeToolCallId message map toolCall := by
  unfold transformToolCall recordId replayedId
  cases isSameModel model message with
  | true => exact ⟨rfl, (if_pos rfl).symm⟩
  | false =>
    have hunsigned : (if truthy toolCall.thoughtSignature then
        { toolCall with thoughtSignature := none } else toolCall).id = toolCall.id := by
      split <;> rfl
    cases normalizeToolCallId with
    | none => exact ⟨hunsigned, (if_pos rfl).symm⟩
    | some normalize =>
      simp only [Bool.false_eq_true, if_false]
      by_cases hsame : normalize toolCall.id model message = toolCall.id
      · simp [hsame, hunsigned]
      · simp [hsame]

theorem transformThinking_toolCalls (sameModel : Bool) (thinking : String)
    (thinkingSignature : Option String) (redacted : Bool) :
    (transformThinking (δ := δ) sameModel thinking thinkingSignature redacted).filterMap
      AssistantBlock.toolCall? = [] := by
  unfold transformThinking
  split
  · split <;> rfl
  · split
    · rfl
    · split
      · rfl
      · split <;> rfl

/-- The blocks of a message keep its calls, with the ids they are replayed with. -/
theorem transformBlocks_spec (model : Model) (normalizeToolCallId : Normalizer δ)
    (message : AssistantMessage δ) (map : ToolCallIdMap)
    (blocks : List (AssistantBlock δ)) :
    (((transformBlocks model normalizeToolCallId message map blocks).1.filterMap
        AssistantBlock.toolCall?).map ToolCall.id =
      (blocks.filterMap AssistantBlock.toolCall?).map fun toolCall =>
        replayedId model normalizeToolCallId message toolCall.id) ∧
      (transformBlocks model normalizeToolCallId message map blocks).2 =
        (blocks.filterMap AssistantBlock.toolCall?).foldl (recordId model normalizeToolCallId message) map := by
  induction blocks generalizing map with
  | nil => exact ⟨rfl, rfl⟩
  | cons block rest ih =>
    cases block with
    | text text textSignature => exact ih map
    | thinking thinking thinkingSignature redacted =>
      obtain ⟨hids, hmap⟩ := ih map
      refine ⟨?_, hmap⟩
      show ((transformThinking _ _ _ _ ++ _).filterMap _).map _ = _
      rw [List.filterMap_append, transformThinking_toolCalls, List.nil_append]
      exact hids
    | toolCall toolCall =>
      obtain ⟨hid, hrecord⟩ := transformToolCall_spec model normalizeToolCallId message map toolCall
      obtain ⟨hids, hmap⟩ := ih (recordId model normalizeToolCallId message map toolCall)
      rw [← hrecord] at hids hmap
      refine ⟨congrArg₂ List.cons hid hids, hmap.trans ?_⟩
      rw [hrecord]
      rfl

theorem transformAssistant_spec (model : Model) (normalizeToolCallId : Normalizer δ)
    (map : ToolCallIdMap) (message : AssistantMessage δ) :
    (Message.assistant (transformAssistant model normalizeToolCallId map message).1).item =
        (if message.failed then .failed
          else .calls (message.toolCalls.map fun toolCall =>
            replayedId model normalizeToolCallId message toolCall.id)) ∧
      (transformAssistant model normalizeToolCallId map message).2 =
        recordIds model normalizeToolCallId map message := by
  obtain ⟨hids, hmap⟩ := transformBlocks_spec model normalizeToolCallId message map (message.content.getD [])
  refine ⟨?_, hmap⟩
  show (if message.failed then Item.failed else .calls _) = _
  split
  · rfl
  · exact congrArg Item.calls hids

variable (map : ToolCallIdMap) (messages : List (Message δ))

/-- **The first pass** gives every message the ids it is replayed with. -/
theorem firstPass_items :
    (firstPass model normalizeToolCallId map messages).map Message.item =
      replayedItems model normalizeToolCallId map messages := by
  induction messages generalizing map with
  | nil => rfl
  | cons message rest ih =>
    cases message with
    | user content timestamp => exact congrArg (List.cons _) (ih map)
    | toolResult message => exact congrArg (List.cons _) (ih map)
    | assistant message =>
      obtain ⟨hitem, hmap⟩ := transformAssistant_spec model normalizeToolCallId map message
      rw [firstPass, List.map_cons, replayedItems, ih, hitem, hmap]

theorem normalizeContent_items :
    replayedItems model normalizeToolCallId map (messages.map normalizeContent) =
      replayedItems model normalizeToolCallId map messages := by
  induction messages generalizing map with
  | nil => rfl
  | cons message rest ih =>
    cases message with
    | user content timestamp => exact congrArg (List.cons _) (ih map)
    | toolResult message => exact congrArg (List.cons _) (ih map)
    | assistant message =>
      obtain ⟨content, api, provider, name, stopReason, providerReplay, timestamp⟩ := message
      cases content with
      | none => exact congrArg (List.cons _) (ih map)
      | some content => exact congrArg (List.cons _) (ih _)

theorem downgradeUnsupportedImages_items :
    replayedItems model normalizeToolCallId map (downgradeUnsupportedImages messages model) =
      replayedItems model normalizeToolCallId map messages := by
  unfold downgradeUnsupportedImages
  split
  · rfl
  · induction messages generalizing map with
    | nil => rfl
    | cons message rest ih =>
      cases message with
      | user content timestamp =>
        rcases content with _ | _ | _ <;> exact congrArg (List.cons _) (ih map)
      | toolResult message => exact congrArg (List.cons _) (ih map)
      | assistant message => exact congrArg (List.cons _) (ih _)

end FirstPass

/-! ## The second pass -/

section SecondPass

variable {now : Nat → Nat}

@[simp] theorem SecondPass.push_result (pass : SecondPass δ) (message : Message δ) :
    (pass.push message).result = pass.result ++ [message] := rfl

@[simp] theorem SecondPass.push_pendingToolCalls (pass : SecondPass δ) (message : Message δ) :
    (pass.push message).pendingToolCalls = pass.pendingToolCalls := rfl

theorem foldl_synthetic (pending : List (ToolCall δ)) (pass : SecondPass δ) :
    (pending.foldl (SecondPass.insertSyntheticToolResult now) pass).result.map Message.item =
      pass.result.map Message.item ++ Pairing.synthetic (pending.map ToolCall.id) pass.existingToolResultIds := by
  induction pending generalizing pass with
  | nil => simp [Pairing.synthetic]
  | cons toolCall pending ih =>
    rw [List.foldl_cons, ih, SecondPass.insertSyntheticToolResult]
    split
    next hmem =>
      rw [List.map_cons, Pairing.synthetic, Pairing.synthetic, List.filter_cons_of_neg (by simpa using hmem)]
    next hmem =>
      rw [List.map_cons, Pairing.synthetic, Pairing.synthetic,
        List.filter_cons_of_pos (by simpa using hmem), SecondPass.push_result, List.map_append,
        List.append_assoc]
      rfl

theorem insertSynthetic_spec (now : Nat → Nat) (pass : SecondPass δ) :
    ((SecondPass.insertSyntheticToolResults now pass).result.map Message.item = pass.result.map Message.item ++
        Pairing.synthetic (pass.pendingToolCalls.map ToolCall.id) pass.existingToolResultIds) ∧
      (SecondPass.insertSyntheticToolResults now pass).pendingToolCalls = [] := by
  unfold SecondPass.insertSyntheticToolResults
  split
  next hnone =>
    rw [List.isEmpty_iff] at hnone
    simp [hnone, Pairing.synthetic]
  · exact ⟨foldl_synthetic _ _, rfl⟩

/-- **The second pass** replays the messages. -/
theorem secondPass_items (messages : List (Message δ)) (pass : SecondPass δ) :
    (SecondPass.insertSyntheticToolResults now (messages.foldl (SecondPass.step now) pass)).result.map Message.item =
      pass.result.map Message.item ++ Pairing.replay (pass.pendingToolCalls.map ToolCall.id) pass.existingToolResultIds
          (messages.map Message.item) := by
  induction messages generalizing pass with
  | nil => exact (insertSynthetic_spec now pass).1
  | cons message messages ih =>
    obtain ⟨hresult, hpending⟩ := insertSynthetic_spec now pass
    rw [List.foldl_cons, ih, List.map_cons]
    cases message with
    | user content timestamp =>
      rw [SecondPass.step, SecondPass.push_pendingToolCalls, hpending, List.map_nil,
        Pairing.replay_nil, SecondPass.push_result, List.map_append, hresult]
      simp [Message.item, Pairing.replay]
    | toolResult message => simp [SecondPass.step, Message.item, Pairing.replay]
    | assistant message =>
      rw [SecondPass.step]
      cases hfailed : message.failed with
      | true =>
        simp only [if_true]
        rw [hpending, List.map_nil, Pairing.replay_nil, hresult]
        simp [Message.item, hfailed, Pairing.replay]
      | false =>
        by_cases hcalls : message.toolCalls = []
        · simp only [hcalls, List.isEmpty_nil, Bool.false_eq_true, if_false, if_true]
          rw [SecondPass.push_pendingToolCalls, hpending, List.map_nil, Pairing.replay_nil,
            SecondPass.push_result, List.map_append, hresult]
          simp [Message.item, hfailed, hcalls, Pairing.replay]
        · have hempty : message.toolCalls.isEmpty = false := by simpa using hcalls
          simp only [hempty, Bool.false_eq_true, if_false]
          rw [SecondPass.push_result, List.map_append, hresult]
          simp [Message.item, hfailed, Pairing.replay]

end SecondPass

/-! ## Both passes -/

section Transform

variable {model : Model} {normalizeToolCallId : Normalizer δ}

theorem replayedId_injective (model : Model) (hinjective : Injective normalizeToolCallId)
    (message : AssistantMessage δ) :
    Function.Injective (replayedId model normalizeToolCallId message) := by
  intro id id' hsame
  unfold replayedId at hsame
  split at hsame
  · exact hsame
  · cases hnormalize : normalizeToolCallId with
    | none =>
      rw [hnormalize] at hsame
      exact hsame
    | some normalize =>
      rw [hnormalize] at hsame
      exact hinjective normalize hnormalize model message id id' hsame

/-- The ids that the calls of a message are replayed with are distinct. -/
theorem replayedItems_distinct (hinjective : Injective normalizeToolCallId) {opened : List String}
    {messages : List (Message δ)} (hwell : WellFormed opened messages) (map : ToolCallIdMap) :
    Pairing.DistinctCalls (replayedItems model normalizeToolCallId map messages) := by
  induction messages generalizing opened map with
  | nil => exact fun _ h => nomatch h
  | cons message rest ih =>
    intro ids hids
    cases message with
    | user content timestamp =>
      rcases List.mem_cons.mp hids with hids | hids
      · cases hids
      · exact ih hwell map ids hids
    | toolResult message =>
      rcases List.mem_cons.mp hids with hids | hids
      · cases hids
      · exact ih hwell.2 map ids hids
    | assistant message =>
      rcases List.mem_cons.mp hids with hids | hids
      · split at hids
        · cases hids
        · obtain rfl := Item.calls.inj hids
          have hnodup := hwell.1.map (replayedId_injective model hinjective message)
          rwa [List.map_map] at hnodup
      · exact ih hwell.2 _ ids hids

/-- **The replay of a well-formed transcript is paired** exactly if every result carries, by the id
last recorded for its own, the id of a call of the closest message that did not fail, and neither a
failed message nor another result for the call stands between them before a user message does. -/
theorem tool_pairing_survives (now : Nat → Nat) (messages : List (Message δ)) (model : Model)
    (normalizeToolCallId : Normalizer δ) (hwell : WellFormed [] messages)
    (hinjective : Injective normalizeToolCallId) :
    ToolCallsPaired (transformMessages now messages model normalizeToolCallId) ↔ Pairing.Answerable [] .interrupted
        (replayedItems model normalizeToolCallId (fun _ => none) messages) := by
  have hitems : (transformMessages now messages model normalizeToolCallId).map Message.item =
      Pairing.replay [] [] (replayedItems model normalizeToolCallId (fun _ => none) messages) := by
    unfold transformMessages
    rw [secondPass_items, firstPass_items, downgradeUnsupportedImages_items, normalizeContent_items]
    rfl
  rw [ToolCallsPaired, hitems]
  exact Pairing.paired_replay _ (replayedItems_distinct hinjective hwell _)

end Transform

section Example

def exampleModel : Model := ⟨"m", "anthropic-messages", "anthropic", true⟩

/-- Ids that are valid for the target stay as they are, others get a suffix. -/
def exampleNormalizer : Normalizer Unit := some fun id _ _ => id ++ "_"

def callBy (model id : String) (stopReason : StopReason) : Message Unit :=
  .assistant ⟨some [.toolCall ⟨id, "read", (), none, none⟩], "anthropic-messages", "anthropic", model,
    stopReason, none, 0⟩

def resultOf (id : String) : Message Unit := .toolResult ⟨id, "read", some [], none, false, 0⟩

theorem exampleNormalizer_injective : Injective exampleNormalizer := by
  rintro _ ⟨⟩ _ _ id id' hsame
  exact String.toList_inj.mp (by simpa using congrArg String.toList hsame)

/-- Each of two models answers its own call, under its own id. -/
theorem tool_pairing_survives_mixed :
    ToolCallsPaired (transformMessages id
      [callBy "other" "a" .toolUse, resultOf "a", callBy "m" "b" .toolUse, resultOf "b"]
      exampleModel exampleNormalizer) :=
  (tool_pairing_survives id _ exampleModel exampleNormalizer (by decide +kernel)
    exampleNormalizer_injective).mpr (by decide +kernel)

/-- An id that the target model uses again, after another model. -/
def repeatedId : List (Message Unit) :=
  [callBy "other" "a" .toolUse, resultOf "a", callBy "m" "a" .toolUse, resultOf "a"]

/-- **The second result is rewritten although its call is not**: the call gets a made up one. -/
theorem tool_pairing_lost :
    WellFormed [] repeatedId ∧ Injective exampleNormalizer ∧
      (transformMessages id repeatedId exampleModel exampleNormalizer).map Message.item =
        [.calls ["a_"], .answer "a_", .calls ["a"], .answer "a_", .answer "a"] ∧
      ¬ ToolCallsPaired (transformMessages id repeatedId exampleModel exampleNormalizer) := by
  have hitems : (transformMessages id repeatedId exampleModel exampleNormalizer).map Message.item =
      [.calls ["a_"], .answer "a_", .calls ["a"], .answer "a_", .answer "a"] := by
    decide +kernel
  refine ⟨by decide +kernel, exampleNormalizer_injective, hitems, ?_⟩
  rw [ToolCallsPaired, hitems]
  decide +kernel

/-- The same of the result of a call of a message that was aborted. -/
example :
    WellFormed [] [callBy "m" "a" .aborted, resultOf "a"] ∧
      ¬ ToolCallsPaired (transformMessages id [callBy "m" "a" .aborted, resultOf "a"] exampleModel
        exampleNormalizer) := by
  decide +kernel

end Example

end Mcpi.Ai
