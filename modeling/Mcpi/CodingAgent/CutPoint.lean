import Mcpi.CodingAgent.Compaction
import Mcpi.Lib.CutPoints

/-!
# Where compaction cuts

`findCutPoint` walks back from the newest entry until the estimates reach `keepRecentTokens`,
takes the nearest legal cut point at or behind that entry, and then moves the cut back over the
metadata in front of it. Whether the cut splits a turn is decided by the entry it has moved to.
-/

namespace Mcpi.CodingAgent

variable {δ : Type}

/-! ## Positions -/

/-- The entry contributes messages to the context. -/
def SessionEntry.visible (entry : SessionEntry δ) : Bool :=
  !(sessionEntryToContextMessages entry).isEmpty

/-- The estimate of the entry at an index. -/
def tokensAt (args : ArgumentReader δ) (entries : List (SessionEntry δ)) (i : Nat) : Nat :=
  (entries[i]?.map (entryTokens args)).getD 0

/-- The entry at an index has a property. -/
def At (entries : List (SessionEntry δ)) (p : SessionEntry δ → Bool) (i : Nat) : Bool :=
  entries[i]?.any p

/-- The entries from `startIndex` to before `endIndex`, as a range to cut -/
def cutRange (args : ArgumentReader δ) (entries : List (SessionEntry δ)) (startIndex endIndex : Nat)
    (keepRecentTokens : Int) : CutPoints.Range where
  start := startIndex
  stop := endIndex
  tokens := tokensAt args entries
  counts i := tokensAt args entries i ≠ 0
  legal := At entries isCutPointEntry
  keep := keepRecentTokens

variable {args : ArgumentReader δ} {entries : List (SessionEntry δ)} {startIndex endIndex : Nat}
  {keepRecentTokens : Int}

theorem budgetIndex_eq (i accumulatedTokens : Nat) :
    budgetIndex args entries startIndex keepRecentTokens i accumulatedTokens =
      CutPoints.walkBack (cutRange args entries startIndex endIndex keepRecentTokens) i
        accumulatedTokens := by
  induction i generalizing accumulatedTokens with
  | zero => rfl
  | succ i ih =>
    have hcounts : (cutRange args entries startIndex endIndex keepRecentTokens).counts i = true ↔
        (entries[i]?.map (entryTokens args)).getD 0 ≠ 0 := decide_eq_true_iff
    rw [budgetIndex, CutPoints.walkBack]
    simp only [ih, hcounts]
    rfl

theorem absorbMetadata_eq (cut : Nat) :
    absorbMetadata entries startIndex cut = CutPoints.back (At entries isMetadata) startIndex cut := by
  induction cut with
  | zero => rfl
  | succ cut ih =>
    rw [CutPoints.back, ← ih]
    rfl

theorem findTurnStartIndex_eq (i : Nat) :
    findTurnStartIndex entries i startIndex = CutPoints.newest? (At entries isTurnStartEntry) startIndex i := by
  induction i with
  | zero =>
    rw [findTurnStartIndex, CutPoints.newest?]
    rfl
  | succ i ih =>
    rw [findTurnStartIndex, CutPoints.newest?, ih]
    rfl

/-- What `findCutPoint` makes of the place that the cut has moved to -/
def resultAt (entries : List (SessionEntry δ)) (startIndex place : Nat) : CutPointResult :=
  let startsTurn := At entries isTurnStartEntry place
  let turnStartIndex := if startsTurn then none else
    CutPoints.newest? (At entries isTurnStartEntry) startIndex place
  ⟨place, turnStartIndex, !startsTurn && turnStartIndex.isSome⟩

/-- A split turn is one that has started before the cut. -/
theorem resultAt_split {place : Nat} : (resultAt entries startIndex place).isSplitTurn = true ↔
    At entries isTurnStartEntry place = false ∧
      ∃ t, CutPoints.Newest (At entries isTurnStartEntry) startIndex place t ∧
        (resultAt entries startIndex place).turnStartIndex = some t :=
  CutPoints.isSome_iff_newest

/-- `findCutPoint` cuts at the chosen place, moved back over metadata. -/
theorem findCutPoint_eq : findCutPoint args entries startIndex endIndex keepRecentTokens =
    CutPoints.cut (cutRange args entries startIndex endIndex keepRecentTokens) (At entries isMetadata)
      ⟨startIndex, none, false⟩ (resultAt entries startIndex) := by
  have hpoints : findValidCutPoints entries startIndex endIndex =
      CutPoints.legalPlaces (cutRange args entries startIndex endIndex keepRecentTokens) := rfl
  have hwalk : budgetIndex args entries startIndex keepRecentTokens endIndex 0 = CutPoints.walkBack
      (cutRange args entries startIndex endIndex keepRecentTokens) endIndex 0 := budgetIndex_eq _ _
  rw [findCutPoint, hpoints, CutPoints.cut, hwalk]
  cases CutPoints.legalPlaces (cutRange args entries startIndex endIndex keepRecentTokens) with
  | nil => rfl
  | cons first others =>
    show _ = resultAt entries startIndex (CutPoints.back (At entries isMetadata) startIndex
      (CutPoints.nearest first others
        (CutPoints.walkBack (cutRange args entries startIndex endIndex keepRecentTokens) endIndex 0)))
    dsimp only
    rw [absorbMetadata_eq, findTurnStartIndex_eq]
    cases CutPoints.walkBack (cutRange args entries startIndex endIndex keepRecentTokens) endIndex 0 <;> rfl

theorem findCutPoint_of_chosen {c place : Nat}
    (hchosen : CutPoints.Chosen (cutRange args entries startIndex endIndex keepRecentTokens) c)
    (hplace : CutPoints.MovesTo (At entries isMetadata) startIndex c place) :
    findCutPoint args entries startIndex endIndex keepRecentTokens = resultAt entries startIndex place :=
  findCutPoint_eq.trans (CutPoints.cut_of_chosen hchosen hplace)

theorem findCutPoint_of_none
    (hnone : ∀ c, ¬ CutPoints.Legal (cutRange args entries startIndex endIndex keepRecentTokens) c) :
    findCutPoint args entries startIndex endIndex keepRecentTokens = ⟨startIndex, none, false⟩ :=
  findCutPoint_eq.trans (CutPoints.cut_of_none hnone)

/-! ## Entries at the cut -/

variable {entry : SessionEntry δ}

theorem visible_of_cutPoint (h : isCutPointEntry entry = true) : entry.visible = true := by
  rw [isCutPointEntry, Bool.and_eq_true] at h
  obtain ⟨message, hmem, -⟩ := List.any_eq_true.mp h.2
  rw [SessionEntry.visible, Bool.not_eq_true', List.isEmpty_eq_false_iff]
  exact List.ne_nil_of_mem hmem

theorem not_visible_of_metadata (h : isMetadata entry = true) : entry.visible = false := by
  rw [isMetadata, Bool.and_eq_true] at h
  rw [SessionEntry.visible, h.2]
  rfl

theorem cutPoint_of_turnStart (h : isTurnStartEntry entry = true) : isCutPointEntry entry = true := by
  rw [isTurnStartEntry, Bool.and_eq_true] at h
  rw [isCutPointEntry, Bool.and_eq_true]
  refine ⟨h.1, ?_⟩
  obtain ⟨message, hmem, hstarts⟩ := List.any_eq_true.mp h.2
  refine List.any_eq_true.mpr ⟨message, hmem, ?_⟩
  cases message <;> first | rfl | cases hstarts

theorem at_false {p q : SessionEntry δ → Bool} {i : Nat}
    (hpq : ∀ entry, p entry = true → q entry = false) (h : At entries p i = true) :
    At entries q i = false := by
  rw [At, Option.any_eq_true] at h
  obtain ⟨entry, hentry, hp⟩ := h
  rw [At, hentry]
  exact hpq entry hp

theorem not_turnStart_of_metadata {i : Nat} (h : At entries isMetadata i = true) :
    At entries isTurnStartEntry i = false := by
  refine at_false (fun entry hmetadata => ?_) h
  cases hstarts : isTurnStartEntry entry with
  | false => rfl
  | true =>
    have hvisible := visible_of_cutPoint (cutPoint_of_turnStart hstarts)
    rw [not_visible_of_metadata hmetadata] at hvisible
    cases hvisible

/-- The first entry the context shows from the place of the cut on is the one it was chosen for. -/
theorem firstShown_moved {c place m : Nat}
    (hchosen : CutPoints.Chosen (cutRange args entries startIndex endIndex keepRecentTokens) c)
    (hplace : CutPoints.MovesTo (At entries isMetadata) startIndex c place) :
    CutPoints.FirstShown (At entries SessionEntry.visible) endIndex place m ↔ m = c := by
  have hc : CutPoints.FirstShown (At entries SessionEntry.visible) endIndex place c :=
    ⟨hplace.le, hchosen.lt_stop, CutPoints.at_mono (fun _ => visible_of_cutPoint) hchosen.legal,
      fun j hj hlt => at_false (fun _ => not_visible_of_metadata) (hplace.skipped j hj hlt)⟩
  exact ⟨fun h => h.unique hc, fun h => h ▸ hc⟩

/-! ## Split turns -/

/-- The nearest cut is at a turn start that has metadata in front of it and another turn before. -/
def CutBehindMetadata (args : ArgumentReader δ) (entries : List (SessionEntry δ))
    (startIndex endIndex : Nat) (keepRecentTokens : Int) : Prop :=
  ∃ c, CutPoints.Chosen (cutRange args entries startIndex endIndex keepRecentTokens) c ∧
    At entries isTurnStartEntry c = true ∧ startIndex < c ∧
    At entries isMetadata (c - 1) = true ∧
    ∃ t, startIndex ≤ t ∧ t < c ∧ At entries isTurnStartEntry t = true

/-- A place that the cut has moved to tells of splits unless it has moved from a turn's start. -/
theorem telling_iff {c place : Nat}
    (hchosen : CutPoints.Chosen (cutRange args entries startIndex endIndex keepRecentTokens) c)
    (hplace : CutPoints.MovesTo (At entries isMetadata) startIndex c place) :
    (At entries isTurnStartEntry place = false →
        CutPoints.Telling (At entries isTurnStartEntry) (At entries SessionEntry.visible) startIndex endIndex place) ↔
      ¬ CutBehindMetadata args entries startIndex endIndex keepRecentTokens := by
  have hshown : ∀ m, _ ↔ m = c := fun m => firstShown_moved hchosen hplace
  have hskipped : ∀ j, place ≤ j → j < c → At entries isTurnStartEntry j = false := fun j hj hlt =>
    not_turnStart_of_metadata (hplace.skipped j hj hlt)
  have hle := hplace.le
  constructor
  · rintro htelling ⟨c', hchosen', hstarts, hlt, hmetadata, t, ht, htc, hturn⟩
    obtain rfl := hchosen.unique hchosen'
    have hmoved : place < c := by
      refine lt_of_le_of_ne hle ?_
      rintro rfl
      rw [hplace.maximal hlt] at hmetadata
      cases hmetadata
    have hbefore : t ≤ place := by
      by_contra hnot
      rw [hskipped t (le_of_lt (not_le.mp hnot)) htc] at hturn
      cases hturn
    obtain ⟨m, hm, hfalse⟩ := (htelling (hskipped place (le_refl _) hmoved)).inside t ht hbefore hturn
    rw [(hshown m).mp hm, hstarts] at hfalse
    cases hfalse
  · intro hnot hplaceStarts
    refine ⟨fun m hm _ j hj hjm => hskipped j (le_of_lt hj) ((hshown m).mp hm ▸ hjm), fun t ht htp hturn => ?_⟩
    refine ⟨c, (hshown c).mpr rfl, ?_⟩
    by_contra hstarts
    rw [Bool.not_eq_false] at hstarts
    have hmoved : place < c := by
      refine lt_of_le_of_ne hle ?_
      rintro rfl
      rw [hstarts] at hplaceStarts
      cases hplaceStarts
    have hstart := hplace.start_le
    exact hnot ⟨c, hchosen, hstarts, lt_of_le_of_lt hstart hmoved, hplace.skipped (c - 1) (by omega) (by omega),
      t, ht, lt_of_le_of_lt htp hmoved, hturn⟩

/-- Splits are reported right unless the cut moves back over metadata from a turn's start. -/
theorem splitTurn_iff (args : ArgumentReader δ) (entries : List (SessionEntry δ))
    (startIndex endIndex : Nat) (keepRecentTokens : Int) :
    let result := findCutPoint args entries startIndex endIndex keepRecentTokens
    CutPoints.SplitReported (At entries isTurnStartEntry) (At entries SessionEntry.visible) startIndex endIndex
        result.firstKeptEntryIndex result.isSplitTurn result.turnStartIndex ↔
      ¬ CutBehindMetadata args entries startIndex endIndex keepRecentTokens := by
  intro result
  have hresult : result = CutPoints.cut _ _ _ _ := findCutPoint_eq
  have hwhole : ∀ place, At entries isTurnStartEntry place = true →
      At entries isTurnStartEntry place = true ∧ At entries SessionEntry.visible place = true := fun place hstarts =>
    ⟨hstarts, CutPoints.at_mono (fun _ h => visible_of_cutPoint (cutPoint_of_turnStart h)) hstarts⟩
  have hlegal : ∀ t, At entries isTurnStartEntry t = true → At entries isCutPointEntry t = true :=
    fun _ => CutPoints.at_mono fun _ => cutPoint_of_turnStart
  rw [hresult]
  refine (CutPoints.splitReported_cut_iff (cutRange args entries startIndex endIndex keepRecentTokens)
    CutPointResult.firstKeptEntryIndex CutPointResult.isSplitTurn CutPointResult.turnStartIndex
    ⟨rfl, rfl, rfl⟩ (fun _ => ⟨rfl, rfl, rfl⟩) hlegal hwhole).trans ?_
  refine ⟨?_, fun hnot c place hchosen hplace => (telling_iff hchosen hplace).mpr hnot⟩
  rintro htelling ⟨c, hchosen, hbehind⟩
  have hplace := @CutPoints.movesTo_back (At entries isMetadata) _ _ hchosen.start_le
  exact (telling_iff hchosen hplace).mp (htelling _ _ hchosen hplace) ⟨c, hchosen, hbehind⟩

/-! ## What the cut keeps -/

/-- The ids of the tool calls of an assistant message -/
def toolCallIds (entry : SessionEntry δ) : List String :=
  match entry.body with
  | .message (.assistant (some content) ..) => content.filterMap fun
      | .toolCall id .. => some id
      | _ => none
  | _ => []

/-- The id of the call a tool result is for -/
def toolResultFor? (entry : SessionEntry δ) : Option String :=
  match entry.body with
  | .message (.toolResult toolCallId ..) => some toolCallId
  | _ => none

/-- The tool result at `i` belongs to a call at `k`: nothing but tool results is between them in
the context. -/
def CallOf (entries : List (SessionEntry δ)) : Nat → Nat → Prop :=
  CutPoints.CallOf entries toolCallIds toolResultFor? fun entry => !entry.visible

theorem toolResult_facts (h : (toolResultFor? entry).isSome = true) :
    isCutPointEntry entry = false ∧ entry.visible = true := by
  unfold toolResultFor? at h
  split at h
  next toolCallId toolName content isError timestamp hbody =>
    unfold isCutPointEntry SessionEntry.visible sessionEntryToContextMessages
    rw [hbody]
    cases content <;> exact ⟨Bool.and_false _, rfl⟩
  · cases h

theorem not_cutPoint_between
    (h : ((toolResultFor? entry).isSome || !entry.visible) = true) : isCutPointEntry entry = false := by
  rcases Bool.or_eq_true_iff.mp h with hresult | hinvisible
  · exact (toolResult_facts hresult).1
  · cases hlegal : isCutPointEntry entry with
    | false => rfl
    | true =>
      rw [visible_of_cutPoint hlegal] at hinvisible
      cases hinvisible

/-- What a compaction keeps and what it summarizes. -/
theorem cutsNearest_findCutPoint (args : ArgumentReader δ) (entries : List (SessionEntry δ))
    (startIndex endIndex : Nat) (keepRecentTokens : Int)
    (hlegal : ∃ c, CutPoints.Legal (cutRange args entries startIndex endIndex keepRecentTokens) c) :
    ∃ c, CutPoints.CutsNearest (cutRange args entries startIndex endIndex keepRecentTokens)
      (fun j => !At entries SessionEntry.visible j) (CallOf entries)
      (findCutPoint args entries startIndex endIndex keepRecentTokens).firstKeptEntryIndex c := by
  obtain ⟨c, place, hchosen, hplace⟩ := CutPoints.exists_chosen hlegal (At entries isMetadata)
  rw [findCutPoint_of_chosen hchosen hplace]
  refine ⟨c, CutPoints.cutsNearest hchosen hplace.le (fun j hj hlt => ?_) fun k i hcall => ?_⟩
  · rw [at_false (fun _ => not_visible_of_metadata) (hplace.skipped j hj hlt)]
    rfl
  · obtain ⟨⟨entry, hentry, hresult⟩, hlegal⟩ := hcall.not_legal fun _ => not_cutPoint_between
    refine ⟨?_, hlegal⟩
    rw [At, hentry, Option.any_some, (toolResult_facts hresult).2]
    rfl

section Samples

def sampleArguments : ArgumentReader Unit := ⟨fun _ => "\x7b\x7d", fun _ => none⟩

def samplePrompt (id : String) (parentId : Option String) (text : String) : SessionEntry Unit where
  id := some id
  parentId := parentId
  timestamp := "2026-01-01T00:00:00.000Z"
  body := .message (.user (some (.text text)) (.ms 1))

def sampleReply (id : String) (content : List (ContentBlock Unit)) : SessionEntry Unit where
  id := some id
  parentId := none
  timestamp := "2026-01-01T00:00:00.000Z"
  body := .message (.assistant (some content) "p" "m" none .stop (.ms 1))

def sampleOutput (id text : String) : SessionEntry Unit where
  id := some id
  parentId := none
  timestamp := "2026-01-01T00:00:00.000Z"
  body := .message (.toolResult "call" "read" (some (.text text)) false (.ms 1))

/-- A metadata entry -/
def sampleModelChange (id : String) : SessionEntry Unit where
  id := some id
  parentId := none
  timestamp := "2026-01-01T00:00:00.000Z"
  body := .model_change "p" "m"

/-- A long prompt and a short reply -/
def promptAndReply : List (SessionEntry Unit) :=
  [samplePrompt "a" none "an earlier prompt", sampleReply "b" [.text "ok"]]

/-- A tool result that is longer than what is to be kept -/
def longOutput : List (SessionEntry Unit) :=
  [samplePrompt "a" none "go", sampleReply "b" [.toolCall "call" "read" ()],
    sampleOutput "c" "thirty characters of a output."]

/-- Two turns with a change of the model between them -/
def turnsApart : List (SessionEntry Unit) :=
  [samplePrompt "a" none "go", sampleReply "b" [.text "ok"], sampleModelChange "c",
    samplePrompt "d" none "thirty characters of a prompt."]

end Samples

end Mcpi.CodingAgent
