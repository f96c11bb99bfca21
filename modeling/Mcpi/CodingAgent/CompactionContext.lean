import Mcpi.CodingAgent.CutPoint
import Mcpi.CodingAgent.Paths

/-!
# What a compaction does to the context

The messages of a path, without those of its compactions, are handed over at the cut: what
is before it goes into the summary requests, what is behind it stays. The summary of the
previous compaction goes with the history request, if there is one. That accounts for
everything as long as the cut lies behind the previous compaction and there is a history.
-/

namespace Mcpi.CodingAgent

variable {δ : Type} {path : List (SessionEntry δ)}

/-- The messages of some entries, without the summaries of compactions. -/
def visibleMessages (entries : List (SessionEntry δ)) : List (AgentMessage δ) :=
  (entries.filter fun entry => !entry.isCompaction).flatMap sessionEntryToContextMessages

/-- The summaries of the compactions among some entries. -/
def summaries (entries : List (SessionEntry δ)) : List String :=
  entries.filterMap fun entry => entry.compaction?.map CompactionFields.summary

@[simp] theorem visibleMessages_nil : visibleMessages ([] : List (SessionEntry δ)) = [] := rfl

@[simp] theorem visibleMessages_append (a b : List (SessionEntry δ)) :
    visibleMessages (a ++ b) = visibleMessages a ++ visibleMessages b := by
  simp [visibleMessages]

@[simp] theorem summaries_append (a b : List (SessionEntry δ)) : summaries (a ++ b) = summaries a ++ summaries b :=
  List.filterMap_append

theorem summaries_eq_nil {entries : List (SessionEntry δ)} :
    summaries entries = [] ↔ ∀ e ∈ entries, e.compaction? = none := by
  simp [summaries, List.filterMap_eq_nil_iff]

theorem getMessage_toList (entry : SessionEntry δ) :
    (getMessageFromEntryForCompaction entry).toList = visibleMessages [entry] := by
  rw [getMessageFromEntryForCompaction, visibleMessages]
  cases hentry : entry.isCompaction with
  | true => simp [hentry]
  | false =>
    simp only [hentry, List.filter_cons, Bool.not_false, if_true, List.filter_nil,
      List.flatMap_cons, List.flatMap_nil, List.append_nil, Bool.false_eq_true, if_false]
    unfold sessionEntryToContextMessages
    split <;> first | rfl | (split <;> rfl)

theorem filterMap_getMessage (entries : List (SessionEntry δ)) :
    entries.filterMap getMessageFromEntryForCompaction = visibleMessages entries := by
  induction entries with
  | nil => rfl
  | cons entry entries ih =>
    rw [← List.singleton_append, List.filterMap_append, ih, visibleMessages_append, ← getMessage_toList]
    cases h : getMessageFromEntryForCompaction entry <;> simp [h]

theorem messagesBetween_eq (start stop : Nat) :
    messagesBetween path start stop = visibleMessages ((path.take stop).drop start) :=
  filterMap_getMessage _

theorem messagesBetween_append {start middle stop : Nat} (hle : start ≤ middle) (hle' : middle ≤ stop) :
    messagesBetween path start middle ++ messagesBetween path middle stop = messagesBetween path start stop := by
  simp only [messagesBetween_eq, ← visibleMessages_append]
  have hsplit : path.take stop = path.take middle ++ (path.take stop).drop middle := by
    conv_lhs => rw [← List.take_append_drop middle (path.take stop)]
    rw [List.take_take, Nat.min_eq_left hle']
  have hdrop : ((path.take middle ++ (path.take stop).drop middle)).drop start =
      (path.take middle).drop start ++ (path.take stop).drop middle := by
    rw [List.drop_append]
    congr 1
    rcases Nat.lt_or_ge middle path.length with hlt | hge
    · rw [List.length_take, Nat.min_eq_left (Nat.le_of_lt hlt), Nat.sub_eq_zero_of_le hle, List.drop_zero]
    · have hnil : (path.take stop).drop middle = [] :=
        List.drop_eq_nil_of_le (Nat.le_trans (List.length_take_le' _ _) hge)
      rw [hnil, List.drop_nil]
  rw [← hdrop, ← hsplit]

/-! ## The cut point -/

section CutPoint

/-- The cut lies in the range, and so does the turn start of a split turn, before it. -/
theorem findCutPoint_bounds (args : ArgumentReader δ) (entries : List (SessionEntry δ))
    (start stop : Nat) (keep : Int) :
    let cutPoint := findCutPoint args entries start stop keep
    start ≤ cutPoint.firstKeptEntryIndex ∧
      (cutPoint.isSplitTurn = true → ∃ t, cutPoint.turnStartIndex = some t ∧ start ≤ t ∧
        t ≤ cutPoint.firstKeptEntryIndex) := by
  intro cutPoint
  by_cases hlegal : ∃ c, CutPoints.Legal (cutRange args entries start stop keep) c
  · obtain ⟨c, place, hchosen, hplace⟩ := CutPoints.exists_chosen hlegal (At entries isMetadata)
    have hresult : cutPoint = resultAt entries start place := findCutPoint_of_chosen hchosen hplace
    rw [hresult]
    refine ⟨hplace.start_le, fun hsplit => ?_⟩
    obtain ⟨-, t, ht⟩ := resultAt_split.mp hsplit
    exact ⟨t, ht.2, ht.1.start_le, ht.1.le⟩
  · rw [not_exists] at hlegal
    have hresult : cutPoint = ⟨start, none, false⟩ := findCutPoint_of_none hlegal
    rw [hresult]
    exact ⟨Nat.le_refl _, fun h => absurd h Bool.false_ne_true⟩

end CutPoint

/-! ## The previous compaction -/

section Previous

variable {before after : List (SessionEntry δ)} {compaction : SessionEntry δ} {fields : CompactionFields}

theorem prevCompactionIndex_append (a b : List (SessionEntry δ)) :
    prevCompactionIndex (a ++ b) = ((prevCompactionIndex b).map (a.length + ·)).or (prevCompactionIndex a) := by
  have hshift : ∀ n : Nat, ((b.zipIdx n).filter fun p => p.1.isCompaction).map Prod.snd =
      (((b.zipIdx).filter fun p => p.1.isCompaction).map Prod.snd).map (n + ·) := by
    intro n
    rw [List.zipIdx_eq_map_add, List.filter_map, List.map_map, List.map_map]
    simp [Function.comp_def]
  rw [prevCompactionIndex, List.zipIdx_append, List.filter_append, List.map_append,
    List.getLast?_append, Nat.zero_add, hshift a.length, List.getLast?_map]
  rfl

theorem prevCompactionIndex_of_none {l : List (SessionEntry δ)}
    (h : ∀ e ∈ l, e.compaction? = none) : prevCompactionIndex l = none := by
  induction l with
  | nil => rfl
  | cons entry l ih =>
    rw [← List.singleton_append, prevCompactionIndex_append, ih fun e he => h e (by simp [he])]
    simp [prevCompactionIndex, SessionEntry.isCompaction, h entry (by simp)]

theorem prevCompactionIndex_split (before : List (SessionEntry δ)) (hfields : compaction.compaction? = some fields)
    (hafter : ∀ e ∈ after, e.compaction? = none) :
    prevCompactionIndex (before ++ compaction :: after) = some before.length := by
  rw [prevCompactionIndex_append, ← List.singleton_append, prevCompactionIndex_append,
    prevCompactionIndex_of_none hafter]
  simp [prevCompactionIndex, SessionEntry.isCompaction, hfields]

section

variable (hfields : compaction.compaction? = some fields) (hafter : ∀ e ∈ after, e.compaction? = none)
include hfields hafter

theorem prevCompaction_split :
    prevCompaction (before ++ compaction :: after) = some fields := by
  rw [prevCompaction, prevCompactionIndex_split before hfields hafter]
  simp [hfields]

theorem boundaryStart_split :
    boundaryStart (before ++ compaction :: after) =
      ((before ++ compaction :: after).findIdx? fun e => e.id = fields.firstKeptEntryId).getD (before.length + 1) := by
  rw [boundaryStart, prevCompactionIndex_split before hfields hafter, prevCompaction_split hfields hafter]

/-- What the previous compaction keeps of the entries before it, by the index `prepareCompaction`
starts from. -/
theorem keptFrom_boundary :
    keptFrom fields.firstKeptEntryId before = before.drop (boundaryStart (before ++ compaction :: after)) := by
  rw [boundaryStart_split hfields hafter, List.findIdx?_append, keptFrom]
  cases hfound : before.findIdx? fun e => e.id = fields.firstKeptEntryId with
  | some f =>
    obtain ⟨hlt, hf, hbefore⟩ := List.findIdx?_eq_some_iff_getElem.mp hfound
    rw [Option.some_or, Option.getD_some, List.dropWhile_eq_drop_findIdx_not]
    congr 1
    rw [List.findIdx_eq hlt]
    exact ⟨by simpa using hf, fun j hj => by simpa using hbefore j hj⟩
  | none =>
    have hnone := List.findIdx?_eq_none_iff.mp hfound
    rw [Option.none_or]
    have hge : before.length ≤ (((compaction :: after).findIdx? fun e =>
        e.id = fields.firstKeptEntryId).map (· + before.length)).getD (before.length + 1) := by
      cases (compaction :: after).findIdx? fun e => e.id = fields.firstKeptEntryId <;> simp
    rw [List.drop_eq_nil_of_le hge, List.dropWhile_eq_nil_iff]
    exact fun e he => by simpa using hnone e he

end

/-- Between the previous compaction and the start of the range no message may be passed over. -/
theorem visible_boundary (before after : List (SessionEntry δ))
    (hfields : compaction.compaction? = some fields) (b : Nat) :
    visibleMessages (before.drop b ++ after) = visibleMessages ((before ++ compaction :: after).drop b) ↔
      visibleMessages (((before ++ compaction :: after).take b).drop (before.length + 1)) = [] := by
  have hnone : visibleMessages [compaction] = [] := by
    simp [visibleMessages, SessionEntry.isCompaction, hfields]
  rcases Nat.lt_or_ge before.length b with hlt | hge
  · -- the range starts behind the compaction
    obtain ⟨k, rfl⟩ := Nat.exists_eq_add_of_lt hlt
    have hbefore : before.drop (before.length + k + 1) = [] := List.drop_eq_nil_of_le (by omega)
    have hdrop : (before ++ compaction :: after).drop (before.length + k + 1) = after.drop k := by
      rw [List.drop_append, hbefore, List.nil_append]
      simp [Nat.add_assoc]
    have htake : ((before ++ compaction :: after).take (before.length + k + 1)).drop
        (before.length + 1) = after.take k := by
      rw [List.drop_take, List.drop_append, List.drop_eq_nil_of_le (by omega)]
      simp [Nat.add_sub_add_right]
    rw [hbefore, List.nil_append, hdrop, htake]
    conv_lhs => rw [← List.take_append_drop k after, visibleMessages_append]
    simp
  · -- it starts at the compaction or before it
    have htake : ((before ++ compaction :: after).take b).drop (before.length + 1) = [] :=
      List.drop_eq_nil_of_le (Nat.le_trans (List.length_take_le _ _) (Nat.le_succ_of_le hge))
    have hdrop : (before ++ compaction :: after).drop b = before.drop b ++ [compaction] ++ after := by
      rw [List.drop_append, Nat.sub_eq_zero_of_le hge, List.drop_zero, List.append_assoc]
      rfl
    rw [htake, hdrop]
    simp only [visibleMessages_append, hnone, List.append_nil, visibleMessages_nil]

end Previous

/-! ## Requests -/

def SummaryRequest.messages : SummaryRequest δ → List (AgentMessage δ)
  | .history messages _ => messages
  | .turnPrefix messages => messages

def SummaryRequest.previousSummary : SummaryRequest δ → Option String
  | .history _ previousSummary => previousSummary
  | .turnPrefix _ => none

/-- The requests of a preparation, in the order in which they are made. -/
def requestsOf (preparation : CompactionPreparation δ) : List (SummaryRequest δ) :=
  if preparation.isSplitTurn && !preparation.turnPrefixMessages.isEmpty then
    (if preparation.messagesToSummarize.isEmpty then []
      else [.history preparation.messagesToSummarize preparation.previousSummary]) ++
      [.turnPrefix preparation.turnPrefixMessages]
  else
    [.history preparation.messagesToSummarize preparation.previousSummary]

section Compact

variable {answer : SummaryRequest δ → Except String (String × Usage)}
  {preparation : CompactionPreparation δ} {requests : List (SummaryRequest δ)}
  {result : CompactionResult}

theorem ask_ok {request : SummaryRequest δ} {made : List (SummaryRequest δ)} {r : String × Usage} :
    (ask answer request).run made = .ok (r, requests) ↔ answer request = .ok r ∧ requests = made ++ [request] := by
  simp only [ask, modify, modifyGet, MonadStateOf.modifyGet, StateT.run, StateT.modifyGet, bind,
    StateT.bind, Except.bind, pure, Except.pure]
  cases answer request with
  | error message => simp [throw, throwThe, MonadExceptOf.throw, StateT.lift, bind, Except.bind]
  | ok result =>
    show (Except.ok (result, made ++ [request]) : Except _ _) = _ ↔ _
    simp [eq_comm]

theorem summarize_ok {r : String × Usage} (h : (summarize answer preparation).run [] = .ok (r, requests)) :
    requests = requestsOf preparation := by
  unfold summarize at h
  unfold requestsOf
  split at h
  next hsplit =>
    rw [if_pos hsplit]
    split at h
    next hempty =>
      obtain ⟨a, s₁, hask, hpure⟩ := Except.run_bind_ok.mp h
      obtain ⟨-, rfl⟩ := Except.run_pure_ok.mp hpure
      rw [if_pos hempty, (ask_ok.mp hask).2]
    next hhistory =>
      obtain ⟨a, s₁, hask, hrest⟩ := Except.run_bind_ok.mp h
      obtain ⟨b, s₂, hask', hpure⟩ := Except.run_bind_ok.mp hrest
      obtain ⟨-, rfl⟩ := Except.run_pure_ok.mp hpure
      rw [if_neg hhistory, (ask_ok.mp hask').2, (ask_ok.mp hask).2, List.nil_append]
  next hsplit =>
    rw [if_neg hsplit, (ask_ok.mp h).2, List.nil_append]

/-- A compaction that succeeds has made the requests of its preparation, and refers to the entry
that the preparation keeps first. -/
theorem compact_ok (h : (compact answer preparation).run [] = .ok (result, requests)) :
    requests = requestsOf preparation ∧ result.firstKeptEntryId = preparation.firstKeptEntryId := by
  obtain ⟨r, s₁, hsummarize, hrest⟩ := Except.run_bind_ok.mp h
  obtain rfl := summarize_ok hsummarize
  dsimp only at hrest
  split at hrest
  · cases hrest
  · obtain ⟨rfl, rfl⟩ := Except.run_pure_ok.mp hrest
    exact ⟨rfl, rfl⟩

end Compact

/-! ## Preparations -/

/-- The cut that `prepareCompaction` makes. -/
abbrev cutPointOf (args : ArgumentReader δ) (path : List (SessionEntry δ))
    (settings : CompactionSettings) : CutPointResult :=
  findCutPoint args path (boundaryStart path) path.length settings.keepRecentTokens

/-- What `prepareCompaction` has found when it returns a preparation. -/
structure Prepared (args : ArgumentReader δ) (path : List (SessionEntry δ))
    (settings : CompactionSettings) (preparation : CompactionPreparation δ) : Prop where
  firstKept : ∃ entry, path[(cutPointOf args path settings).firstKeptEntryIndex]? = some entry ∧
    entry.id = some preparation.firstKeptEntryId
  split : preparation.isSplitTurn = (cutPointOf args path settings).isSplitTurn
  history : preparation.messagesToSummarize =
    messagesBetween path (boundaryStart path) (cutPointOf args path settings).historyEnd
  turn : preparation.turnPrefixMessages =
    if preparation.isSplitTurn then
      messagesBetween path (cutPointOf args path settings).historyEnd
        (cutPointOf args path settings).firstKeptEntryIndex
    else []
  something : preparation.messagesToSummarize ≠ [] ∨ preparation.turnPrefixMessages ≠ []
  previousSummary : preparation.previousSummary = (prevCompaction path).map CompactionFields.summary

theorem prepared {args : ArgumentReader δ} {settings : CompactionSettings} {preparation : CompactionPreparation δ}
    (h : prepareCompaction args path settings = some preparation) :
    Prepared args path settings preparation := by
  simp only [prepareCompaction, bind, Option.bind_eq_some_iff, Option.guard_eq_some', pure, Option.some.injEq] at h
  obtain ⟨-, -, context, -, entry, hentry, id, hid, -, hsome, rfl⟩ := h
  refine ⟨⟨entry, hentry, (Option.filter_eq_some_iff.mp hid).1⟩, rfl, rfl, ?_, ?_, rfl⟩
  · show (if _ then _ else _) = _
    split
    next hsplit => simp only [CutPointResult.historyEnd, hsplit, if_true]
    · rfl
  · rw [Bool.not_eq_true', Bool.and_eq_false_iff] at hsome
    exact hsome.imp List.isEmpty_eq_false_iff.mp List.isEmpty_eq_false_iff.mp

section Prepared

variable {args : ArgumentReader δ} {settings : CompactionSettings} {preparation : CompactionPreparation δ}

section

variable (h : Prepared args path settings preparation)
include h

/-- The requests hand over everything between the start of the range and the cut, in order. -/
theorem Prepared.messages :
    (requestsOf preparation).flatMap SummaryRequest.messages = messagesBetween path (boundaryStart path)
        (cutPointOf args path settings).firstKeptEntryIndex := by
  obtain ⟨hle, hturn⟩ := findCutPoint_bounds args path (boundaryStart path) path.length
    settings.keepRecentTokens
  have hall : preparation.messagesToSummarize ++ preparation.turnPrefixMessages =
      messagesBetween path (boundaryStart path) (cutPointOf args path settings).firstKeptEntryIndex := by
    rw [h.history, h.turn, h.split]
    cases hsplit : (cutPointOf args path settings).isSplitTurn with
    | false => simp [CutPointResult.historyEnd, hsplit]
    | true =>
      obtain ⟨t, ht, hge, hle'⟩ := hturn hsplit
      have hend : (cutPointOf args path settings).historyEnd = t := by
        simp [CutPointResult.historyEnd, hsplit, ht]
      rw [if_pos rfl, hend]
      exact messagesBetween_append hge hle'
  rw [← hall, requestsOf]
  split
  · split
    next hempty => simp [SummaryRequest.messages, List.isEmpty_iff.mp hempty]
    · simp [SummaryRequest.messages]
  next hwhole =>
    -- no turn prefix is asked for, so there is none
    have hnone : preparation.turnPrefixMessages = [] := by
      cases hsplit : preparation.isSplitTurn with
      | false => rw [h.turn, hsplit]; rfl
      | true => simpa [hsplit] using hwhole
    simp [SummaryRequest.messages, hnone]

/-- The previous summary goes with the history, so not into a turn prefix alone. -/
theorem Prepared.previousSummary_once {summary : String}
    (hprevious : preparation.previousSummary = some summary) :
    (requestsOf preparation).filterMap SummaryRequest.previousSummary =
      if preparation.isSplitTurn = true ∧ preparation.messagesToSummarize = [] then []
      else [summary] := by
  rw [requestsOf]
  by_cases hempty : preparation.messagesToSummarize = []
  · have hturn : preparation.turnPrefixMessages ≠ [] := h.something.resolve_left (fun hne => hne hempty)
    have hsplit : preparation.isSplitTurn = true := by
      by_contra hnot
      exact hturn (by rw [h.turn, if_neg hnot])
    simp [hempty, hturn, hsplit, SummaryRequest.previousSummary]
  · split <;> simp [hempty, SummaryRequest.previousSummary, hprevious]

/-- There is a cut: without one nothing would be summarized. -/
theorem Prepared.exists_chosen :
    ∃ c place, CutPoints.Chosen
        (cutRange args path (boundaryStart path) path.length settings.keepRecentTokens) c ∧
      CutPoints.MovesTo (At path isMetadata) (boundaryStart path) c place := by
  refine CutPoints.exists_chosen ?_ _
  by_contra hnone
  rw [not_exists] at hnone
  have hcut : cutPointOf args path settings = ⟨boundaryStart path, none, false⟩ := findCutPoint_of_none hnone
  rcases h.something with hhistory | hturn
  · apply hhistory
    rw [h.history, hcut, messagesBetween_eq]
    exact congrArg visibleMessages (List.drop_eq_nil_of_le (List.length_take_le _ _))
  · apply hturn
    rw [h.turn, h.split, hcut]
    rfl

/-- The previous summary is lost where the turn that the cut splits is all there is to summarize. -/
theorem Prepared.split_alone_iff {place : Nat}
    (hcut : cutPointOf args path settings = resultAt path (boundaryStart path) place) :
    preparation.isSplitTurn = true ∧ preparation.messagesToSummarize = [] ↔
      At path isTurnStartEntry place = false ∧
        ∃ t, CutPoints.Newest (At path isTurnStartEntry) (boundaryStart path) place t ∧
          visibleMessages ((path.take t).drop (boundaryStart path)) = [] := by
  have hhistory : ∀ t, (resultAt path (boundaryStart path) place).isSplitTurn = true →
      (resultAt path (boundaryStart path) place).turnStartIndex = some t →
      preparation.messagesToSummarize = visibleMessages ((path.take t).drop (boundaryStart path)) := by
    intro t hsplit ht
    rw [h.history, hcut, CutPointResult.historyEnd, if_pos hsplit, ht, Option.getD_some, messagesBetween_eq]
  rw [h.split, hcut]
  constructor
  · rintro ⟨hsplit, hempty⟩
    obtain ⟨hstarts, t, hnewest, ht⟩ := resultAt_split.mp hsplit
    exact ⟨hstarts, t, hnewest, (hhistory t hsplit ht).symm.trans hempty⟩
  · rintro ⟨hstarts, t, hnewest, hempty⟩
    have hresult : (resultAt path (boundaryStart path) place).turnStartIndex = some t := by
      rw [resultAt, hstarts]
      exact hnewest.newest?
    have hsplit := resultAt_split.mpr ⟨hstarts, t, hnewest, hresult⟩
    exact ⟨hsplit, (hhistory t hsplit hresult).trans hempty⟩

end

theorem previousSummary_none (hprevious : preparation.previousSummary = none) :
    (requestsOf preparation).filterMap SummaryRequest.previousSummary = [] := by
  rw [requestsOf]
  split
  · split <;> simp [SummaryRequest.previousSummary, hprevious]
  · simp [SummaryRequest.previousSummary, hprevious]

end Prepared

/-! ## Conservation -/

/-- The entry that `appendCompaction` makes of a result. -/
def compactionEntry (id : String) (parentId : Option String) (timestamp : String)
    (result : CompactionResult) : SessionEntry δ where
  id := some id
  parentId := parentId
  timestamp := timestamp
  body := (SessionManager.AppendBody.compaction result.summary result.firstKeptEntryId
    result.tokensBefore (some result.details) false (some result.usage)).entryBody

/-- The context of a path is accounted for by some requests and the context of a new path, which
begins with the summary of its last compaction. -/
structure Conserves (path newPath : List (SessionEntry δ)) (compaction : SessionEntry δ)
    (requests : List (SummaryRequest δ)) : Prop where
  /-- Every message is handed over or kept, once and in order. -/
  messages : visibleMessages (contextEntries path) =
    requests.flatMap SummaryRequest.messages ++ visibleMessages (contextEntries newPath)
  /-- The summary of an earlier compaction is handed over, once. -/
  previousSummary : summaries (contextEntries path) = requests.filterMap SummaryRequest.previousSummary
  /-- No older summary is in the new context. -/
  newest : ∃ kept, contextEntries newPath = compaction :: kept ∧ summaries kept = []

/-- The latest compaction of a path is at `p`, and what has not been summarized yet begins at `start`: at the
entry that the compaction keeps first, and behind it if the path has no such entry. -/
structure BeginsAt (path : List (SessionEntry δ)) (p start : Nat) : Prop where
  latest : ∀ j, p < j → At path SessionEntry.isCompaction j = false
  start : ∃ fields, path[p]?.bind SessionEntry.compaction? = some fields ∧
    (path.findIdx? fun e => e.id = fields.firstKeptEntryId).getD (p + 1) = start

/-- **The condition**, where there is a previous compaction: the nearest cut moves to a place behind it, it
keeps no compaction itself and starts at or before what follows it, and a turn that has started before the
cut is not all there is to summarize. -/
def CutsAfterPrevious (args : ArgumentReader δ) (path : List (SessionEntry δ)) (settings : CompactionSettings) : Prop :=
  ∀ p start c place, BeginsAt path p start →
    CutPoints.Chosen (cutRange args path start path.length settings.keepRecentTokens) c →
    CutPoints.MovesTo (At path isMetadata) start c place →
    p < place ∧ summaries ((path.take p).drop start) = [] ∧ visibleMessages ((path.take start).drop (p + 1)) = [] ∧
      (At path isTurnStartEntry place = false → ∀ t, CutPoints.Newest (At path isTurnStartEntry) start place t →
        visibleMessages ((path.take t).drop start) ≠ [])

theorem beginsAt_iff {p start : Nat} :
    BeginsAt path p start ↔ prevCompactionIndex path = some p ∧ boundaryStart path = start := by
  rcases compaction_cases path with hnone | ⟨before, previous, fields, after, rfl, hprevious, hafter⟩
  · have hindex := prevCompactionIndex_of_none hnone
    refine iff_of_false ?_ fun h => nomatch hindex.symm.trans h.1
    rintro ⟨-, fields, hfields, -⟩
    obtain ⟨entry, hentry, hcompaction⟩ := Option.bind_eq_some_iff.mp hfields
    rw [hnone entry (List.mem_of_getElem? hentry)] at hcompaction
    cases hcompaction
  · have hindex := prevCompactionIndex_split before hprevious hafter
    have hcompaction : (before ++ previous :: after)[before.length]?.bind SessionEntry.compaction? = some fields := by
      simp [hprevious]
    have hstart : boundaryStart (before ++ previous :: after) = _ := boundaryStart_split hprevious hafter
    constructor
    · rintro ⟨hlatest, fields', hfields, hstart'⟩
      have hp : before.length = p := by
        rcases lt_trichotomy before.length p with hlt | heq | hgt
        · obtain ⟨entry, hentry, hthis⟩ := Option.bind_eq_some_iff.mp hfields
          rw [List.getElem?_append_right (le_of_lt hlt)] at hentry
          obtain ⟨k, hk⟩ := Nat.exists_eq_add_of_lt (Nat.sub_pos_of_lt hlt)
          rw [hk, Nat.zero_add, List.getElem?_cons_succ] at hentry
          rw [hafter entry (List.mem_of_getElem? hentry)] at hthis
          cases hthis
        · exact heq
        · have hfalse := hlatest before.length hgt
          simp [At, SessionEntry.isCompaction, hprevious] at hfalse
      subst hp
      obtain rfl := Option.some.inj (hcompaction.symm.trans hfields)
      exact ⟨hindex, hstart.trans hstart'⟩
    · rintro ⟨hp, rfl⟩
      obtain rfl := Option.some.inj (hindex.symm.trans hp)
      refine ⟨fun j hj => ?_, fields, hcompaction, hstart.symm⟩
      rw [At, Option.any_eq_false]
      intro entry hentry
      rw [List.getElem?_append_right (le_of_lt hj)] at hentry
      obtain ⟨k, hk⟩ := Nat.exists_eq_add_of_lt (Nat.sub_pos_of_lt hj)
      rw [hk, Nat.zero_add, List.getElem?_cons_succ] at hentry
      simp [SessionEntry.isCompaction, hafter entry (List.mem_of_getElem? hentry)]

/-- The context after a compaction: its summary, and the path from the first kept entry on. -/
theorem contextEntries_compacted {i : Nat} {entry compaction : SessionEntry δ}
    {fields : CompactionFields} (hids : ((path ++ [compaction]).map SessionEntry.id).Nodup)
    (hentry : path[i]? = some entry) (hfields : compaction.compaction? = some fields)
    (hkept : fields.firstKeptEntryId = entry.id) :
    contextEntries (path ++ [compaction]) = compaction :: path.drop i := by
  rw [List.map_append, List.nodup_append] at hids
  rw [contextEntries_split hfields (by simp) fun e he hsame =>
      hids.2.2 _ (List.mem_map_of_mem he) _ (by simp) hsame,
    hkept, keptFrom_getElem hids.1 hentry, List.append_nil]

section Conserves

variable {args : ArgumentReader δ} {settings : CompactionSettings}
  {preparation : CompactionPreparation δ} {compaction : SessionEntry δ}

theorem visibleMessages_compaction {fields : CompactionFields} {rest : List (SessionEntry δ)}
    (hfields : compaction.compaction? = some fields) :
    visibleMessages (compaction :: rest) = visibleMessages rest := by
  simp [visibleMessages, SessionEntry.isCompaction, hfields]

theorem summaries_compaction {fields : CompactionFields} {rest : List (SessionEntry δ)}
    (hfields : compaction.compaction? = some fields) :
    summaries (compaction :: rest) = fields.summary :: summaries rest := by
  simp [summaries, hfields]

/-- The two halves of the range: what is handed over and what stays. -/
theorem messagesBetween_append_drop (path : List (SessionEntry δ)) {start cut : Nat} (hle : start ≤ cut) :
    messagesBetween path start cut ++ visibleMessages (path.drop cut) = visibleMessages (path.drop start) := by
  rcases Nat.lt_or_ge cut path.length with hlt | hge
  · have hend : messagesBetween path cut path.length = visibleMessages (path.drop cut) := by
      rw [messagesBetween_eq, List.take_length]
    rw [← hend, messagesBetween_append hle (Nat.le_of_lt hlt), messagesBetween_eq, List.take_length]
  · rw [messagesBetween_eq, List.take_of_length_le hge, List.drop_eq_nil_of_le hge,
      visibleMessages_nil, List.append_nil]

/-- No compaction is among the last entries exactly if they begin behind the latest one. -/
theorem summaries_drop_iff (before : List (SessionEntry δ)) {after : List (SessionEntry δ)} {fields : CompactionFields}
    (hfields : compaction.compaction? = some fields)
    (hafter : ∀ e ∈ after, e.compaction? = none) (cut : Nat) :
    summaries ((before ++ compaction :: after).drop cut) = [] ↔ before.length < cut := by
  rcases Nat.lt_or_ge before.length cut with hlt | hge
  · refine ⟨fun _ => hlt, fun _ => summaries_eq_nil.mpr fun e he => hafter e ?_⟩
    rw [← List.singleton_append, ← List.append_assoc, List.drop_append] at he
    rw [List.drop_eq_nil_of_le (by rw [List.length_append]; exact hlt), List.nil_append] at he
    exact List.mem_of_mem_drop he
  · refine ⟨fun hnil => ?_, fun hlt => absurd hlt (Nat.not_lt.mpr hge)⟩
    have hnone := summaries_eq_nil.mp hnil compaction (by
      rw [List.drop_append, Nat.sub_eq_zero_of_le hge]
      simp)
    rw [hfields] at hnone
    cases hnone

/-- The compaction of a preparation conserves the context exactly under the condition. -/
theorem conserves_iff {fields : CompactionFields} (h : Prepared args path settings preparation)
    (hids : ((path ++ [compaction]).map SessionEntry.id).Nodup)
    (hfields : compaction.compaction? = some fields)
    (hkept : fields.firstKeptEntryId = some preparation.firstKeptEntryId) :
    Conserves path (path ++ [compaction]) compaction (requestsOf preparation) ↔
      CutsAfterPrevious args path settings := by
  obtain ⟨entry, hentry, hid⟩ := h.firstKept
  have hnew := contextEntries_compacted hids hentry hfields (hkept.trans hid.symm)
  have hhanded := h.messages
  have hle := (findCutPoint_bounds args path (boundaryStart path) path.length settings.keepRecentTokens).1
  have hsplit := messagesBetween_append_drop path hle
  -- the messages that are not handed over or kept are those before the range
  have hmessages : visibleMessages (contextEntries path) = (requestsOf preparation).flatMap SummaryRequest.messages ++
          visibleMessages (contextEntries (path ++ [compaction])) ↔
      visibleMessages (contextEntries path) = visibleMessages (path.drop (boundaryStart path)) := by
    rw [hnew, visibleMessages_compaction hfields, hhanded, hsplit]
  rcases compaction_cases path with hnone | ⟨before, previous, previousFields, after, rfl, hprevious, hafter⟩
  · -- without a previous compaction the range is the whole path
    have hindex := prevCompactionIndex_of_none hnone
    have hstart : boundaryStart path = 0 := by simp [boundaryStart, hindex]
    have hold := contextEntries_of_none hnone
    refine ⟨fun _ p start c place hbegins => ?_, fun _ => ⟨?_, ?_, _, hnew, ?_⟩⟩
    · cases hindex.symm.trans (beginsAt_iff.mp hbegins).1
    · rw [hmessages, hold, hstart, List.drop_zero]
    · rw [hold, summaries_eq_nil.mpr hnone, previousSummary_none]
      rw [h.previousSummary, prevCompaction, hindex]
      rfl
    · exact summaries_eq_nil.mpr fun e he => hnone e (List.mem_of_mem_drop he)
  · -- with one, the old context is its summary, what it keeps, and what follows it
    have hindex := prevCompactionIndex_split before hprevious hafter
    have hold : contextEntries (before ++ previous :: after) =
        previous :: (before.drop (boundaryStart (before ++ previous :: after)) ++ after) := by
      rw [contextEntries_split hprevious hafter ?_, keptFrom_boundary hprevious hafter]
      · rfl
      · intro e he hsame
        rw [List.map_append, List.nodup_append, List.map_append, List.nodup_append] at hids
        exact hids.1.2.2 _ (List.mem_map_of_mem he) _ (by simp) hsame
    have hsummary : preparation.previousSummary = some previousFields.summary := by
      rw [h.previousSummary, prevCompaction_split hprevious hafter]
      rfl
    have hrange := visible_boundary before after hprevious (boundaryStart (before ++ previous :: after))
    have hkeeps : summaries (contextEntries (before ++ previous :: after)) = previousFields.summary ::
          summaries (before.drop (boundaryStart (before ++ previous :: after))) := by
      rw [hold, summaries_compaction hprevious, summaries_append, summaries_eq_nil.mpr hafter, List.append_nil]
    have hnewest := summaries_drop_iff before hprevious hafter
      (cutPointOf args (before ++ previous :: after) settings).firstKeptEntryIndex
    constructor
    · rintro ⟨hall, honce, kept, hkept', hclear⟩ p start c place hbegins hchosen hplace
      obtain ⟨hp, rfl⟩ := beginsAt_iff.mp hbegins
      obtain rfl := Option.some.inj (hindex.symm.trans hp)
      have hcut : cutPointOf args (before ++ previous :: after) settings = resultAt _ _ place :=
        findCutPoint_of_chosen hchosen hplace
      rw [hkeeps, h.previousSummary_once hsummary] at honce
      have hhistory : ¬ (preparation.isSplitTurn = true ∧ preparation.messagesToSummarize = []) := by
        intro hlost
        rw [if_pos hlost] at honce
        cases honce
      rw [if_neg hhistory, List.cons.injEq] at honce
      refine ⟨?_, by rw [List.take_left]; exact honce.2, hrange.mp ?_, fun hstarts t ht hempty => ?_⟩
      · rw [hnew, List.cons.injEq] at hkept'
        have hbehind := hnewest.mp (hkept'.2 ▸ hclear)
        rwa [hcut] at hbehind
      · rw [hmessages, hold, visibleMessages_compaction hprevious] at hall
        exact hall
      · exact hhistory ((h.split_alone_iff hcut).mpr ⟨hstarts, t, ht, hempty⟩)
    · intro hcondition
      obtain ⟨c, place, hchosen, hplace⟩ := h.exists_chosen
      have hcut : cutPointOf args (before ++ previous :: after) settings = resultAt _ _ place :=
        findCutPoint_of_chosen hchosen hplace
      obtain ⟨hbehind, hclear, hreached, hhistory⟩ := hcondition before.length _ c place
        (beginsAt_iff.mpr ⟨hindex, rfl⟩) hchosen hplace
      rw [List.take_left] at hclear
      refine ⟨?_, ?_, _, hnew, hnewest.mpr (by rw [hcut]; exact hbehind)⟩
      · rw [hmessages, hold, visibleMessages_compaction hprevious]
        exact hrange.mpr hreached
      · rw [hkeeps, h.previousSummary_once hsummary, hclear, if_neg]
        intro hlost
        obtain ⟨hstarts, t, ht, hempty⟩ := (h.split_alone_iff hcut).mp hlost
        exact hhistory hstarts t ht hempty

end Conserves

/-- **A compaction conserves the context** exactly if, where there was one before, it cuts behind
it and has a history to pass its summary on with. -/
theorem compaction_conserves (args : ArgumentReader δ)
    (answer : SummaryRequest δ → Except String (String × Usage)) (path : List (SessionEntry δ))
    (settings : CompactionSettings) (preparation : CompactionPreparation δ)
    (requests : List (SummaryRequest δ)) (result : CompactionResult)
    (id timestamp : String) (parentId : Option String)
    (hids : (path.map SessionEntry.id ++ [some id]).Nodup)
    (hprepare : prepareCompaction args path settings = some preparation)
    (hcompact : (compact answer preparation).run [] = .ok (result, requests)) :
    Conserves path (path ++ [compactionEntry id parentId timestamp result])
        (compactionEntry id parentId timestamp result) requests ↔
      CutsAfterPrevious args path settings := by
  obtain ⟨rfl, hkept⟩ := compact_ok hcompact
  refine conserves_iff (prepared hprepare) ?_ rfl (congrArg some hkept)
  rw [List.map_append]
  exact hids

section Example

def sampleUsage : Usage := ⟨1, 1, 0, 0, 2⟩

/-- A model that answers every request with one letter. -/
def sampleAnswer : SummaryRequest Unit → Except String (String × Usage) :=
  fun _ => .ok ("s", sampleUsage)

def sampleResult (firstKeptEntryId : String) : CompactionResult :=
  ⟨"s", firstKeptEntryId, 20, sampleUsage, ⟨[], []⟩⟩

/-- Three prompts and a compaction that keeps the last two of them. -/
def samplePath : List (SessionEntry Unit) :=
  [samplePrompt "a" none "an earlier prompt", samplePrompt "b" (some "a") "thirty characters of a prompt.",
    samplePrompt "c" (some "b") "thirty characters of a prompt.",
    compactionEntry "d" (some "c") "2026-01-01T00:00:01.000Z" (sampleResult "b")]

/-- Keep about that many tokens; ten are a bit more than one of the long prompts. -/
def keeping (keepRecentTokens : Int) : CompactionSettings := ⟨true, 16384, keepRecentTokens⟩

example : (prepareCompaction sampleArguments (samplePath.take 3) (keeping 10)).map
    CompactionPreparation.firstKeptEntryId = some "b" := by decide

/-- The path after one more prompt. -/
def longerPath : List (SessionEntry Unit) := samplePath ++ [samplePrompt "e" (some "d") "go"]

/-- What a second compaction prepares there that keeps the entries from `firstKeptEntryId` on. -/
def secondPreparation (settings : CompactionSettings) (firstKeptEntryId : String)
    (prompts : List String) : CompactionPreparation Unit where
  firstKeptEntryId := firstKeptEntryId
  messagesToSummarize := prompts.map fun text => .user (some (.text text)) (.ms 1)
  turnPrefixMessages := []
  isSplitTurn := false
  tokensBefore := 18
  previousSummary := some "s"
  fileOps := createFileOps
  settings := settings

/-- The entry of a second compaction. -/
def secondCompaction (firstKeptEntryId : String) : SessionEntry Unit :=
  compactionEntry "f" (some "e") "2026-01-01T00:00:02.000Z"
    ⟨"s", firstKeptEntryId, 18, sampleUsage, ⟨[], []⟩⟩

/-- A second compaction that keeps the newest prompt only. -/
theorem compaction_conserves_second :
    Conserves longerPath (longerPath ++ [secondCompaction "e"]) (secondCompaction "e")
      (requestsOf (secondPreparation (keeping 1) "e"
        ["thirty characters of a prompt.", "thirty characters of a prompt."])) := by
  refine (compaction_conserves sampleArguments sampleAnswer longerPath (keeping 1) (secondPreparation (keeping 1) "e"
      ["thirty characters of a prompt.", "thirty characters of a prompt."]) _ _ _ _ _
    (by decide) (by decide) (by rfl)).mpr fun p start c place hbegins hchosen hplace => ?_
  obtain ⟨hp, rfl⟩ := beginsAt_iff.mp hbegins
  obtain rfl := Option.some.inj ((by decide : prevCompactionIndex longerPath = some 3).symm.trans hp)
  have hcut : (findCutPoint sampleArguments longerPath (boundaryStart longerPath) 5 1).firstKeptEntryIndex = place :=
    congrArg CutPointResult.firstKeptEntryIndex (findCutPoint_of_chosen hchosen hplace)
  obtain rfl := (by decide : (findCutPoint sampleArguments longerPath (boundaryStart longerPath) 5
    1).firstKeptEntryIndex = 4).symm.trans hcut
  exact ⟨by decide, by decide, by decide, fun h => absurd h (by decide)⟩

/-- **An older summary stays**: with the settings of the first compaction the second one cuts
before it, and its summary is passed on as well as kept. -/
theorem compaction_keeps_older_summary :
    prepareCompaction sampleArguments longerPath (keeping 10) =
        some (secondPreparation (keeping 10) "c" ["thirty characters of a prompt."]) ∧
      (compact sampleAnswer (secondPreparation (keeping 10) "c"
          ["thirty characters of a prompt."])).run [] =
        .ok (⟨"s", "c", 18, sampleUsage, ⟨[], []⟩⟩,
          requestsOf (secondPreparation (keeping 10) "c" ["thirty characters of a prompt."])) ∧
      ¬ Conserves longerPath (longerPath ++ [secondCompaction "c"]) (secondCompaction "c")
        (requestsOf (secondPreparation (keeping 10) "c" ["thirty characters of a prompt."])) := by
  refine ⟨by decide, by rfl, fun h => ?_⟩
  obtain ⟨kept, hkept, hclear⟩ := h.newest
  obtain rfl := (List.cons.inj hkept).2
  exact absurd hclear (by decide)

end Example

end Mcpi.CodingAgent
