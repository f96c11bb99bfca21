import Mcpi.Harness.CutPoint

/-!
# What a compaction of the harness does with the history

The cut divides the messages since the previous compaction: what is before it goes into the
summaries, what is behind it is retained. Two things escape it. An entry can have a message that
the context does not show, and the summary of the previous compaction goes with the history
request, which is left out where a split turn has nothing before it.
-/

namespace Mcpi.Harness

open CodingAgent (ArgumentReader CompactionSettings ContentBlock FileOperations Usage addTo
  extractFileOpsFromBlock truthy)

variable {δ : Type} {path : List (Entry δ)}

/-! ## The context since the previous compaction -/

/-- The entries behind the latest compaction -/
def entriesSince (pathEntries : List (Entry δ)) : List (Entry δ) := (splitAtCompaction pathEntries).2

/-- The messages of the context since the previous compaction, first those it has retained -/
def contextSince (pathEntries : List (Entry δ)) : List (AgentMessage δ) :=
  ((prevCompaction pathEntries).map CompactionFields.retainedTail).getD [] ++
    (entriesSince pathEntries).flatMap sessionEntryToContextMessages

theorem entriesSince_no_compaction : ∀ entry ∈ entriesSince path, entry.compaction? = none := by
  unfold entriesSince
  induction path with
  | nil => nofun
  | cons entry path ih =>
    rw [splitAtCompaction]
    cases hsplit : splitAtCompaction path with
    | mk compaction behind =>
      rw [hsplit] at ih
      cases compaction with
      | some compaction => exact ih
      | none =>
        dsimp only
        cases hfields : entry.compaction? with
        | some fields => exact ih
        | none =>
          intro e he
          rcases List.mem_cons.mp he with rfl | he
          · exact hfields
          · exact ih e he

/-- An entry with a message that the context does not show: a deferred answer, or a branch summary
without text -/
def isHidden (entry : Entry δ) : Bool :=
  match entry.body with
  | .message (.assistant _ _ _ _ .deferred _) => true
  | .branch_summary _ summary => summary = ""
  | _ => false

theorem getMessage_toList {entry : Entry δ} (h : entry.compaction? = none) :
    (getMessageFromEntryForCompaction entry).toList.length =
        (sessionEntryToContextMessages entry).length + (if isHidden entry then 1 else 0) ∧
      (isHidden entry = false →
        (getMessageFromEntryForCompaction entry).toList = sessionEntryToContextMessages entry) := by
  obtain ⟨id, seq, parentId, timestamp, body⟩ := entry
  unfold getMessageFromEntryForCompaction sessionEntryToContextMessages isHidden
  cases body with
  | message message =>
    cases message with
    | assistant content provider model usage stopReason timestamp =>
      cases stopReason <;> exact ⟨rfl, fun h => by first | rfl | cases h⟩
    | _ => exact ⟨rfl, fun _ => rfl⟩
  | branch_summary fromId summary =>
    by_cases hsummary : summary = "" <;> simp [hsummary]
  | compaction fields => cases h
  | _ => exact ⟨rfl, fun _ => rfl⟩

variable {entries : List (Entry δ)}

theorem filterMap_getMessage_length (h : ∀ entry ∈ entries, entry.compaction? = none) :
    (entries.filterMap getMessageFromEntryForCompaction).length =
      (entries.flatMap sessionEntryToContextMessages).length + entries.countP isHidden := by
  induction entries with
  | nil => rfl
  | cons entry entries ih =>
    have hentry := (getMessage_toList (h entry List.mem_cons_self)).1
    have htail := ih fun e he => h e (List.mem_cons_of_mem _ he)
    rw [List.flatMap_cons, List.length_append, List.countP_cons, ← List.singleton_append,
      List.filterMap_append, List.length_append, htail]
    have hsingle : ([entry].filterMap getMessageFromEntryForCompaction).length =
        (getMessageFromEntryForCompaction entry).toList.length := by
      rw [List.filterMap_cons]
      cases getMessageFromEntryForCompaction entry <;> rfl
    rw [hsingle, hentry]
    omega

/-- The messages a compaction takes are those of the context where none is hidden. -/
theorem filterMap_getMessage_eq_iff (h : ∀ entry ∈ entries, entry.compaction? = none) :
    entries.filterMap getMessageFromEntryForCompaction = entries.flatMap sessionEntryToContextMessages ↔
      ∀ entry ∈ entries, isHidden entry = false := by
  constructor
  · intro heq entry hentry
    have hlength := filterMap_getMessage_length h
    rw [heq] at hlength
    have hnone : entries.countP isHidden = 0 := by omega
    exact Bool.eq_false_iff.mpr (List.countP_eq_zero.mp hnone entry hentry)
  · intro hshown
    induction entries with
    | nil => rfl
    | cons entry entries ih =>
      have htail := ih (fun e he => h e (List.mem_cons_of_mem _ he)) fun e he => hshown e (List.mem_cons_of_mem _ he)
      have hentry := (getMessage_toList (h entry List.mem_cons_self)).2 (hshown entry List.mem_cons_self)
      rw [List.flatMap_cons, List.filterMap_cons, ← htail, ← hentry]
      cases getMessageFromEntryForCompaction entry <;> rfl

/-! ## The ranges -/

theorem messagesBetween_append {start middle stop : Nat} (hle : start ≤ middle) (hle' : middle ≤ stop) :
    messagesBetween entries start middle ++ messagesBetween entries middle stop =
      messagesBetween entries start stop := by
  rw [messagesBetween, messagesBetween, messagesBetween, ← List.filterMap_append]
  congr 1
  have htake : entries.take middle = (entries.take stop).take middle := by
    rw [List.take_take, Nat.min_eq_left hle']
  rw [htake, List.drop_take, ← Nat.add_sub_cancel' hle, ← List.drop_drop, Nat.add_sub_cancel_left,
    List.take_append_drop]

theorem messagesBetween_all (entries : List (Entry δ)) :
    messagesBetween entries 0 entries.length = entries.filterMap getMessageFromEntryForCompaction := by
  rw [messagesBetween, List.take_length, List.drop_zero]

/-- The cut is within the entries, and a split turn starts at or before it with an entry that
starts turns. -/
theorem findCutPoint_bounds (args : ArgumentReader δ) (entries : List (Entry δ)) (stop : Nat) (keep : Int) :
    (findCutPoint args entries 0 stop keep).firstKeptEntryIndex ≤ stop ∧
      ((findCutPoint args entries 0 stop keep).isSplitTurn = true →
        ∃ t, (findCutPoint args entries 0 stop keep).turnStartIndex = some t ∧
          CutPoints.Newest (At entries isTurnStartEntry) 0
            (findCutPoint args entries 0 stop keep).firstKeptEntryIndex t) := by
  by_cases hlegal : ∃ c, CutPoints.Legal (cutRange args entries 0 stop keep) c
  · obtain ⟨c, place, hchosen, hplace⟩ := CutPoints.exists_chosen hlegal (At entries isMetadata)
    rw [findCutPoint_of_chosen hchosen hplace]
    refine ⟨hplace.le.trans (le_of_lt hchosen.lt_stop), fun hsplit => ?_⟩
    obtain ⟨-, t, hnewest, ht⟩ := resultAt_split.mp hsplit
    exact ⟨t, ht, hnewest⟩
  · rw [findCutPoint_of_none (not_exists.mp hlegal)]
    exact ⟨Nat.zero_le _, nofun⟩

/-- The compactable entries are the retained messages, as entries, and what is since. -/
theorem filterMap_compactable (path : List (Entry δ)) :
    (compactableEntries path).filterMap getMessageFromEntryForCompaction =
      ((prevCompaction path).map CompactionFields.retainedTail).getD [] ++
        (entriesSince path).filterMap getMessageFromEntryForCompaction := by
  rw [compactableEntries, prevCompaction, entriesSince]
  cases splitAtCompaction path with
  | mk found behind =>
    cases found with
    | none => rfl
    | some found =>
      rw [List.filterMap_append]
      congr 1
      show (virtualRetainedEntries found.1 found.2.retainedTail).filterMap
        getMessageFromEntryForCompaction = found.2.retainedTail
      rw [virtualRetainedEntries, List.mapIdx_eq_zipIdx_map, List.filterMap_map]
      show (found.2.retainedTail.zipIdx.filterMap fun p => some p.1) = _
      rw [show (fun (p : AgentMessage δ × Nat) => some p.1) = some ∘ Prod.fst from rfl,
        List.filterMap_eq_map, List.zipIdx_map_fst]

/-! ## File operations -/

/-- What a tool call does to a file is among the operations. -/
def CoversBlock (args : ArgumentReader δ) (fileOps : FileOperations) : ContentBlock δ → Prop
  | .toolCall _ name arguments => ∀ p, truthy (args.path arguments) = some p →
      (name = "read" → p ∈ fileOps.read) ∧ (name = "write" → p ∈ fileOps.written) ∧
        (name = "edit" → p ∈ fileOps.edited)
  | _ => True

/-- What the tool calls of a message do to files is among the operations. -/
def Covers (args : ArgumentReader δ) (fileOps : FileOperations) : AgentMessage δ → Prop
  | .assistant content .. => ∀ block ∈ content, CoversBlock args fileOps block
  | _ => True

/-- One set of operations has all of another. -/
structure Extends (fileOps more : FileOperations) : Prop where
  read : fileOps.read ⊆ more.read
  written : fileOps.written ⊆ more.written
  edited : fileOps.edited ⊆ more.edited

theorem Extends.refl (fileOps : FileOperations) : Extends fileOps fileOps :=
  ⟨List.Subset.refl _, List.Subset.refl _, List.Subset.refl _⟩

theorem Extends.trans {a b c : FileOperations} (h : Extends a b) (h' : Extends b c) : Extends a c :=
  ⟨List.Subset.trans h.read h'.read, List.Subset.trans h.written h'.written, List.Subset.trans h.edited h'.edited⟩

theorem mem_addTo {set : List String} {value p : String} : p ∈ addTo set value ↔ p ∈ set ∨ p = value := by
  rw [addTo]
  split
  next hmem =>
    refine ⟨Or.inl, ?_⟩
    rintro (h | rfl)
    · exact h
    · exact hmem
  · simp

theorem mem_foldl_addTo {values set : List String} {p : String} :
    p ∈ values.foldl addTo set ↔ p ∈ set ∨ p ∈ values := by
  induction values generalizing set with
  | nil => simp
  | cons value values ih => rw [List.foldl_cons, ih, mem_addTo, List.mem_cons, or_assoc]

theorem subset_addTo {set : List String} {value : String} : set ⊆ addTo set value :=
  fun _ h => mem_addTo.mpr (.inl h)

variable {args : ArgumentReader δ}

variable (args) in
theorem extractFileOpsFromBlock_spec (fileOps : FileOperations) (block : ContentBlock δ) :
    Extends fileOps (extractFileOpsFromBlock args fileOps block) ∧
      CoversBlock args (extractFileOpsFromBlock args fileOps block) block := by
  cases block with
  | toolCall id name arguments =>
    unfold extractFileOpsFromBlock CoversBlock
    dsimp only
    cases hpath : truthy (args.path arguments) with
    | none => exact ⟨Extends.refl fileOps, nofun⟩
    | some p =>
      have hself : ∀ set : List String, p ∈ addTo set p := fun set => mem_addTo.mpr (.inr rfl)
      dsimp only
      split
      next hname =>
        subst hname
        refine ⟨⟨subset_addTo, List.Subset.refl _, List.Subset.refl _⟩, ?_⟩
        rintro _ ⟨⟩
        exact ⟨fun _ => hself _, fun h => absurd h (by decide), fun h => absurd h (by decide)⟩
      next hread =>
        split
        next hname =>
          subst hname
          refine ⟨⟨List.Subset.refl _, subset_addTo, List.Subset.refl _⟩, ?_⟩
          rintro _ ⟨⟩
          exact ⟨fun h => absurd h hread, fun _ => hself _, fun h => absurd h (by decide)⟩
        next hwrite =>
          split
          next hname =>
            subst hname
            refine ⟨⟨List.Subset.refl _, List.Subset.refl _, subset_addTo⟩, ?_⟩
            rintro _ ⟨⟩
            exact ⟨fun h => absurd h hread, fun h => absurd h hwrite, fun _ => hself _⟩
          next hedit =>
            refine ⟨Extends.refl fileOps, ?_⟩
            rintro _ ⟨⟩
            exact ⟨fun h => absurd h hread, fun h => absurd h hwrite, fun h => absurd h hedit⟩
  | _ => exact ⟨Extends.refl fileOps, trivial⟩

theorem CoversBlock.mono {fileOps more : FileOperations} (hmore : Extends fileOps more)
    {block : ContentBlock δ} (h : CoversBlock args fileOps block) : CoversBlock args more block := by
  cases block with
  | toolCall id name arguments =>
    intro p hp
    obtain ⟨hread, hwrite, hedit⟩ := h p hp
    exact ⟨fun hname => hmore.read (hread hname), fun hname => hmore.written (hwrite hname),
      fun hname => hmore.edited (hedit hname)⟩
  | _ => trivial

variable (args) in
theorem extractFileOpsFromBlocks_spec (content : List (ContentBlock δ)) (fileOps : FileOperations) :
    Extends fileOps (content.foldl (extractFileOpsFromBlock args) fileOps) ∧
      ∀ block ∈ content, CoversBlock args (content.foldl (extractFileOpsFromBlock args) fileOps)
        block := by
  induction content generalizing fileOps with
  | nil => exact ⟨Extends.refl fileOps, nofun⟩
  | cons block content ih =>
    obtain ⟨hmore, hblock⟩ := extractFileOpsFromBlock_spec args fileOps block
    obtain ⟨hrest, hcovers⟩ := ih (extractFileOpsFromBlock args fileOps block)
    refine ⟨hmore.trans hrest, ?_⟩
    intro b hb
    rcases List.mem_cons.mp hb with rfl | hb
    · exact hblock.mono hrest
    · exact hcovers b hb

theorem Covers.mono {fileOps more : FileOperations} (hmore : Extends fileOps more)
    {message : AgentMessage δ} (h : Covers args fileOps message) : Covers args more message := by
  cases message with
  | assistant content provider model usage stopReason timestamp =>
    exact fun block hblock => (h block hblock).mono hmore
  | _ => trivial

variable (args) in
/-- Going over messages adds their operations and loses none. -/
theorem extractFileOpsFromMessages_spec (messages : List (AgentMessage δ)) (fileOps : FileOperations) :
    Extends fileOps (messages.foldl (extractFileOpsFromMessage args) fileOps) ∧ ∀ message ∈ messages, Covers args
        (messages.foldl (extractFileOpsFromMessage args) fileOps) message := by
  induction messages generalizing fileOps with
  | nil => exact ⟨Extends.refl fileOps, nofun⟩
  | cons message messages ih =>
    have hmessage : Extends fileOps (extractFileOpsFromMessage args fileOps message) ∧
        Covers args (extractFileOpsFromMessage args fileOps message) message := by
      cases message with
      | assistant content provider model usage stopReason timestamp =>
        exact extractFileOpsFromBlocks_spec args content fileOps
      | _ => exact ⟨Extends.refl fileOps, trivial⟩
    obtain ⟨hrest, hcovers⟩ := ih (extractFileOpsFromMessage args fileOps message)
    refine ⟨hmessage.1.trans hrest, ?_⟩
    intro m hm
    rcases List.mem_cons.mp hm with rfl | hm
    · exact hmessage.2.mono hrest
    · exact hcovers m hm

/-! ## Requests -/

/-- The calls a compaction makes that succeeds -/
def requestsOf (preparation : CompactionPreparation δ) (customInstructions : Option String) : List (SummaryRequest δ) :=
  if preparation.isSplitTurn && !preparation.turnPrefixMessages.isEmpty then
    if preparation.messagesToSummarize.isEmpty then
      [.turnPrefix preparation.turnPrefixMessages]
    else
      [.history preparation.messagesToSummarize customInstructions preparation.previousSummary,
        .turnPrefix preparation.turnPrefixMessages]
  else
    [.history preparation.messagesToSummarize customInstructions preparation.previousSummary]

section Compact

variable {answer : SummaryRequest δ → Except CompactionError (String × Usage)}
  {preparation : CompactionPreparation δ} {customInstructions : Option String}

theorem ask_ok {request : SummaryRequest δ} {made requests : List (SummaryRequest δ)} {r : String × Usage} :
    (ask answer request).run made = .ok (r, requests) ↔ answer request = .ok r ∧ requests = made ++ [request] := by
  simp only [ask, modify, modifyGet, MonadStateOf.modifyGet, StateT.run, StateT.modifyGet, bind,
    StateT.bind, Except.bind, pure, Except.pure]
  cases answer request with
  | error error => simp [throw, throwThe, MonadExceptOf.throw, StateT.lift, bind, Except.bind]
  | ok result =>
    show (Except.ok (result, made ++ [request]) : Except _ _) = _ ↔ _
    simp [eq_comm]

theorem compact_ok {result : CompactResult δ} {requests : List (SummaryRequest δ)}
    (h : (compact answer preparation customInstructions).run [] = .ok (result, requests)) :
    requests = requestsOf preparation customInstructions := by
  obtain ⟨r, s₁, hsummarize, hrest⟩ := Except.run_bind_ok.mp h
  obtain ⟨-, rfl⟩ := Except.run_pure_ok.mp hrest
  unfold summarize at hsummarize
  unfold requestsOf
  split at hsummarize
  next hsplit =>
    rw [if_pos hsplit]
    split at hsummarize
    next hempty =>
      obtain ⟨a, s₂, hask, hpure⟩ := Except.run_bind_ok.mp hsummarize
      obtain ⟨-, rfl⟩ := Except.run_pure_ok.mp hpure
      rw [if_pos hempty, (ask_ok.mp hask).2, List.nil_append]
    next hhistory =>
      obtain ⟨a, s₂, hask, hrest⟩ := Except.run_bind_ok.mp hsummarize
      obtain ⟨b, s₃, hask', hpure⟩ := Except.run_bind_ok.mp hrest
      obtain ⟨-, rfl⟩ := Except.run_pure_ok.mp hpure
      rw [if_neg hhistory, (ask_ok.mp hask').2, (ask_ok.mp hask).2, List.nil_append]
      rfl
  next hsplit => rw [if_neg hsplit, (ask_ok.mp hsummarize).2, List.nil_append]

/-- Where every call is answered, a compaction succeeds. -/
theorem compact_answered (hanswer : ∀ request, ∃ r, answer request = .ok r) :
    ∃ result requests, (compact answer preparation customInstructions).run [] = .ok (result, requests) := by
  have hsummarize : ∃ r requests, (summarize answer preparation customInstructions).run [] = .ok (r, requests) := by
    unfold summarize
    obtain ⟨r, hr⟩ := hanswer (.turnPrefix preparation.turnPrefixMessages)
    obtain ⟨r', hr'⟩ := hanswer
      (.history preparation.messagesToSummarize customInstructions preparation.previousSummary)
    split
    · split
      · exact ⟨_, _, Except.run_bind_ok.mpr ⟨r, _, ask_ok.mpr ⟨hr, rfl⟩, Except.run_pure_ok.mpr ⟨rfl, rfl⟩⟩⟩
      · exact ⟨_, _, Except.run_bind_ok.mpr ⟨r', _, ask_ok.mpr ⟨hr', rfl⟩, Except.run_bind_ok.mpr
          ⟨r, _, ask_ok.mpr ⟨hr, rfl⟩, Except.run_pure_ok.mpr ⟨rfl, rfl⟩⟩⟩⟩
    · exact ⟨_, _, ask_ok.mpr ⟨hr', rfl⟩⟩
  obtain ⟨r, requests, hrun⟩ := hsummarize
  exact ⟨_, _, Except.run_bind_ok.mpr ⟨r, requests, hrun, Except.run_pure_ok.mpr ⟨rfl, rfl⟩⟩⟩

end Compact

/-! ## Partition -/

/-- A compaction divides the messages since the previous one, tracks the files that what it
summarizes and the previous compaction name, and passes the previous summary on. -/
structure KeepsHistory (args : ArgumentReader δ) (path : List (Entry δ))
    (preparation : CompactionPreparation δ) : Prop where
  messages : preparation.messagesToSummarize ++ preparation.turnPrefixMessages ++
    preparation.retainedTail = contextSince path
  operations : ∀ message ∈ preparation.messagesToSummarize ++ preparation.turnPrefixMessages,
    Covers args preparation.fileOps message
  recorded : ∀ fields details, prevCompaction path = some fields → fields.details = some details →
    details.readFiles.getD [] ⊆ preparation.fileOps.read ∧ details.modifiedFiles.getD [] ⊆ preparation.fileOps.edited
  summary : ∀ (answer : SummaryRequest δ → Except CompactionError (String × Usage)) customInstructions result requests,
    (compact answer preparation customInstructions).run [] = .ok (result, requests) →
    ∀ fields, prevCompaction path = some fields →
      ∃ messages, .history messages customInstructions (some fields.summary) ∈ requests

/-- Where the nearest cut moves to something else than a user message, behind the newest turn start before
it, a message that is compacted comes before that turn start. -/
def HistoryBefore (args : ArgumentReader δ) (path : List (Entry δ)) (settings : CompactionSettings) : Prop :=
  ∀ c place t,
    CutPoints.Chosen (cutRange args (compactableEntries path) 0 (compactableEntries path).length
      settings.keepRecentTokens) c →
    CutPoints.MovesTo (At (compactableEntries path) isMetadata) 0 c place →
    At (compactableEntries path) isUserMessage place = false →
    CutPoints.Newest (At (compactableEntries path) isTurnStartEntry) 0 place t → t < place →
    ((compactableEntries path).take t).filterMap getMessageFromEntryForCompaction ≠ []

theorem historyBefore_iff {settings : CompactionSettings} : HistoryBefore args path settings ↔
    ∀ t, (cutPointOf args path settings).isSplitTurn = true → (cutPointOf args path settings).turnStartIndex = some t →
      t < (cutPointOf args path settings).firstKeptEntryIndex →
      messagesBetween (compactableEntries path) 0 t ≠ [] := by
  constructor
  · intro h t hsplit ht hlt
    by_cases hlegal : ∃ c, CutPoints.Legal (cutRange args (compactableEntries path) 0
        (compactableEntries path).length settings.keepRecentTokens) c
    · obtain ⟨c, place, hchosen, hplace⟩ := CutPoints.exists_chosen hlegal (At (compactableEntries path) isMetadata)
      have hcut : cutPointOf args path settings = resultAt (compactableEntries path) 0 place :=
        findCutPoint_of_chosen hchosen hplace
      rw [hcut] at hsplit ht hlt
      obtain ⟨huser, t', hnewest, ht'⟩ := resultAt_split.mp hsplit
      obtain rfl := Option.some.inj (ht.symm.trans ht')
      exact h c place t hchosen hplace huser hnewest hlt
    · have hcut : cutPointOf args path settings = ⟨0, none, false⟩ := findCutPoint_of_none (not_exists.mp hlegal)
      rw [hcut] at hsplit
      cases hsplit
  · intro h c place t hchosen hplace huser hnewest hlt
    have hcut : cutPointOf args path settings = resultAt (compactableEntries path) 0 place :=
      findCutPoint_of_chosen hchosen hplace
    have hturn : (resultAt (compactableEntries path) 0 place).turnStartIndex = some t := by
      rw [resultAt, huser]
      exact hnewest.newest?
    rw [hcut] at h
    exact h t (resultAt_split.mpr ⟨huser, t, hnewest, hturn⟩) hturn hlt

/-- What `prepareCompaction` returns. -/
structure Prepared (args : ArgumentReader δ) (path : List (Entry δ)) (settings : CompactionSettings)
    (preparation : CompactionPreparation δ) : Prop where
  split : preparation.isSplitTurn = (cutPointOf args path settings).isSplitTurn
  history : preparation.messagesToSummarize =
    messagesBetween (compactableEntries path) 0 (cutPointOf args path settings).historyEnd
  turn : preparation.turnPrefixMessages =
    if preparation.isSplitTurn then
      messagesBetween (compactableEntries path) ((cutPointOf args path settings).turnStartIndex.getD 0)
        (cutPointOf args path settings).firstKeptEntryIndex
    else []
  tail : preparation.retainedTail = messagesBetween (compactableEntries path)
    (cutPointOf args path settings).firstKeptEntryIndex (compactableEntries path).length
  previousSummary : preparation.previousSummary = (prevCompaction path).map CompactionFields.summary
  fileOps : preparation.fileOps = preparation.turnPrefixMessages.foldl (extractFileOpsFromMessage args)
    (extractFileOperations args preparation.messagesToSummarize (prevCompaction path))

theorem cutPointOf_bounds (args : ArgumentReader δ) (path : List (Entry δ)) (settings : CompactionSettings) :
    (cutPointOf args path settings).firstKeptEntryIndex ≤ (compactableEntries path).length ∧
      ((cutPointOf args path settings).isSplitTurn = true →
        ∃ t, (cutPointOf args path settings).turnStartIndex = some t ∧
          CutPoints.Newest (At (compactableEntries path) isTurnStartEntry) 0
            (cutPointOf args path settings).firstKeptEntryIndex t) :=
  findCutPoint_bounds args (compactableEntries path) (compactableEntries path).length
    settings.keepRecentTokens

section Prepared

variable {settings : CompactionSettings} {preparation : CompactionPreparation δ}

theorem prepared (h : prepareCompaction args path settings = some preparation) :
    Prepared args path settings preparation := by
  obtain ⟨-, ⟨⟩⟩ := Option.ite_none_left_eq_some.mp h
  exact ⟨rfl, rfl, rfl, rfl, rfl, rfl⟩

theorem Prepared.ranges (h : Prepared args path settings preparation) :
    preparation.messagesToSummarize ++ preparation.turnPrefixMessages ++ preparation.retainedTail =
      (compactableEntries path).filterMap getMessageFromEntryForCompaction := by
  obtain ⟨hle, hturn⟩ := cutPointOf_bounds args path settings
  rw [h.history, h.turn, h.tail, h.split, CutPointResult.historyEnd]
  cases hsplit : (cutPointOf args path settings).isSplitTurn with
  | true =>
    obtain ⟨t, ht, hnewest⟩ := hturn hsplit
    rw [ht, if_pos rfl, if_pos rfl, Option.getD_some, messagesBetween_append (Nat.zero_le t) hnewest.le,
      messagesBetween_append (Nat.zero_le _) hle, messagesBetween_all]
  | false =>
    rw [if_neg Bool.false_ne_true, if_neg Bool.false_ne_true, List.append_nil,
      messagesBetween_append (Nat.zero_le _) hle, messagesBetween_all]

theorem Prepared.covers (h : Prepared args path settings preparation) :
    Extends (recordedFileOps (prevCompaction path)) preparation.fileOps ∧
      ∀ message ∈ preparation.messagesToSummarize ++ preparation.turnPrefixMessages,
        Covers args preparation.fileOps message := by
  rw [h.fileOps, extractFileOperations]
  obtain ⟨hhistory, hcovers⟩ := extractFileOpsFromMessages_spec args
    preparation.messagesToSummarize (recordedFileOps (prevCompaction path))
  obtain ⟨hturn, hcovers'⟩ := extractFileOpsFromMessages_spec args
    preparation.turnPrefixMessages (preparation.messagesToSummarize.foldl
      (extractFileOpsFromMessage args) (recordedFileOps (prevCompaction path)))
  refine ⟨hhistory.trans hturn, ?_⟩
  intro message hmessage
  rcases List.mem_append.mp hmessage with hmem | hmem
  · exact (hcovers message hmem).mono hturn
  · exact hcovers' message hmem

theorem Prepared.recorded (h : Prepared args path settings preparation)
    {fields : CompactionFields δ} {details : StoredDetails}
    (hfields : prevCompaction path = some fields) (hdetails : fields.details = some details) :
    details.readFiles.getD [] ⊆ preparation.fileOps.read ∧
      details.modifiedFiles.getD [] ⊆ preparation.fileOps.edited := by
  have hmore := h.covers.1
  have hrecorded : recordedFileOps (prevCompaction path) =
      { CodingAgent.createFileOps with
        read := (details.readFiles.getD []).foldl addTo []
        edited := (details.modifiedFiles.getD []).foldl addTo [] } := by
    rw [recordedFileOps, hfields, Option.bind_some, hdetails]
  rw [hrecorded] at hmore
  exact ⟨fun p hp => hmore.read (mem_foldl_addTo.mpr (.inr hp)),
    fun p hp => hmore.edited (mem_foldl_addTo.mpr (.inr hp))⟩

/-- A split turn that starts before the cut has messages to summarize. -/
theorem turnPrefix_ne_nil {t : Nat} (h : Prepared args path settings preparation)
    (hsplit : (cutPointOf args path settings).isSplitTurn = true)
    (ht : (cutPointOf args path settings).turnStartIndex = some t)
    (hlt : t < (cutPointOf args path settings).firstKeptEntryIndex) :
    preparation.turnPrefixMessages ≠ [] := by
  obtain ⟨t', ht', hnewest⟩ := (cutPointOf_bounds args path settings).2 hsplit
  obtain rfl : t = t' := Option.some.inj (ht.symm.trans ht')
  rw [h.turn, h.split, hsplit, if_pos rfl, ht, Option.getD_some, messagesBetween]
  have hstarts := hnewest.holds
  rw [At, Option.any_eq_true] at hstarts
  obtain ⟨entry, hentry, hstarts⟩ := hstarts
  have hmem : entry ∈ ((compactableEntries path).take (cutPointOf args path settings).firstKeptEntryIndex).drop t := by
    apply List.mem_of_getElem? (i := 0)
    rw [List.getElem?_drop, Nat.add_zero, List.getElem?_take_of_lt hlt]
    exact hentry
  obtain ⟨message, hmessage⟩ : ∃ message, getMessageFromEntryForCompaction entry = some message := by
    unfold isTurnStartEntry at hstarts
    unfold getMessageFromEntryForCompaction
    split at hstarts
    next hbody => exact ⟨_, by rw [hbody]⟩
    next hbody => exact ⟨_, by rw [hbody]⟩
    next hbody => exact ⟨_, by rw [hbody]⟩
    · cases hstarts
  exact List.ne_nil_of_mem (List.mem_filterMap.mpr ⟨entry, hmem, hmessage⟩)

/-- Which calls a compaction makes: one for the history, unless a turn is split that has nothing
before it. -/
theorem history_mem_requestsOf {customInstructions : Option String} (h : Prepared args path settings preparation) :
    (∃ messages, .history messages customInstructions preparation.previousSummary ∈
      requestsOf preparation customInstructions) ↔ HistoryBefore args path settings := by
  rw [historyBefore_iff]
  unfold requestsOf
  constructor
  · rintro ⟨messages, hmem⟩ t hsplit ht hlt hnone
    have hprefix := turnPrefix_ne_nil h hsplit ht hlt
    have hempty : preparation.messagesToSummarize = [] := by
      rw [h.history, CutPointResult.historyEnd, hsplit, if_pos rfl, ht]
      exact hnone
    rw [h.split, hsplit, Bool.true_and, if_pos (by simpa using hprefix), hempty] at hmem
    cases List.mem_singleton.mp hmem
  · intro hbefore
    split
    next hsplit =>
      rw [Bool.and_eq_true, h.split] at hsplit
      split
      next hempty =>
        exfalso
        have hnil : preparation.messagesToSummarize = [] := List.isEmpty_iff.mp hempty
        obtain ⟨t, ht, -⟩ := (cutPointOf_bounds args path settings).2 hsplit.1
        have hprefix : preparation.turnPrefixMessages ≠ [] := by
          simpa using hsplit.2
        have hlt : t < (cutPointOf args path settings).firstKeptEntryIndex := by
          by_contra hnot
          apply hprefix
          rw [h.turn, h.split, hsplit.1, if_pos rfl, ht, Option.getD_some, messagesBetween,
            List.drop_eq_nil_of_le, List.filterMap_nil]
          exact (List.length_take_le _ _).trans (not_lt.mp hnot)
        apply hbefore t hsplit.1 ht hlt
        rw [h.history, CutPointResult.historyEnd, hsplit.1, if_pos rfl, ht] at hnil
        exact hnil
      · exact ⟨_, List.mem_cons_self⟩
    · exact ⟨_, List.mem_cons_self⟩

end Prepared

/-- A compaction of the harness keeps the history unless an entry since the previous compaction has
a message that the context does not show, or a turn is split that has nothing before it since. -/
theorem keepsHistory_iff {settings : CompactionSettings} {preparation : CompactionPreparation δ}
    (h : prepareCompaction args path settings = some preparation) :
    KeepsHistory args path preparation ↔ (∀ entry ∈ entriesSince path, isHidden entry = false) ∧
        ((prevCompaction path).isSome = true → HistoryBefore args path settings) := by
  have hp := prepared h
  have hmessages : preparation.messagesToSummarize ++ preparation.turnPrefixMessages ++
      preparation.retainedTail = contextSince path ↔ ∀ entry ∈ entriesSince path, isHidden entry = false := by
    rw [hp.ranges, filterMap_compactable, contextSince, List.append_right_inj]
    exact filterMap_getMessage_eq_iff entriesSince_no_compaction
  constructor
  · intro hkeeps
    refine ⟨hmessages.mp hkeeps.messages, ?_⟩
    intro hprevious
    obtain ⟨fields, hfields⟩ := Option.isSome_iff_exists.mp hprevious
    -- a model that answers every call
    let answer : SummaryRequest δ → Except CompactionError (String × Usage) :=
      fun _ => .ok ("", ⟨0, 0, 0, 0, 0⟩)
    obtain ⟨result, requests, hrun⟩ : ∃ result requests,
        (compact answer preparation none).run [] = .ok (result, requests) :=
      compact_answered fun _ => ⟨_, rfl⟩
    obtain ⟨messages, hmem⟩ := hkeeps.summary answer none result requests hrun fields hfields
    rw [compact_ok hrun] at hmem
    have hhistory : ∃ messages, .history messages none preparation.previousSummary ∈ requestsOf preparation none := by
      rw [hp.previousSummary, hfields]
      exact ⟨messages, hmem⟩
    exact (history_mem_requestsOf hp).mp hhistory
  · rintro ⟨hshown, hbefore⟩
    refine ⟨hmessages.mpr hshown, hp.covers.2, fun fields details => hp.recorded, ?_⟩
    intro answer customInstructions result requests hrun fields hfields
    have hprevious := hbefore (by rw [hfields]; rfl)
    obtain ⟨messages, hmem⟩ := (history_mem_requestsOf hp).mpr hprevious
    rw [hp.previousSummary, hfields] at hmem
    rw [compact_ok hrun]
    exact ⟨messages, hmem⟩

section Example

def sampleUsage : Usage := ⟨0, 0, 0, 0, 0⟩

/-- A turn behind a compaction that has retained some messages -/
def compactedPath (retainedTail : List (AgentMessage Unit)) (stopReason : StopReason) : List (Entry Unit) :=
  [sampleEntry "a" (.compaction ⟨"s", retainedTail, 10, none⟩),
    sampleEntry "b" (.message samplePrompt), sampleEntry "c" (.message (sampleReply stopReason))]

/-- Keep about one token. -/
def keepOne : CompactionSettings := ⟨true, 16384, 1⟩

def samplePreparation (retainedTail : List (AgentMessage Unit)) (stopReason : StopReason)
    (tokensBefore : Nat) : CompactionPreparation Unit where
  messagesToSummarize := retainedTail
  turnPrefixMessages := [samplePrompt]
  retainedTail := [sampleReply stopReason]
  isSplitTurn := true
  tokensBefore := tokensBefore
  previousSummary := some "s"
  fileOps := CodingAgent.createFileOps
  settings := keepOne

theorem keepsHistory_retained :
    KeepsHistory sampleArguments (compactedPath [samplePrompt] .stop) (samplePreparation [samplePrompt] .stop 4) ↔
      (∀ entry ∈ entriesSince (compactedPath [samplePrompt] .stop), isHidden entry = false) ∧
        ((prevCompaction (compactedPath [samplePrompt] .stop)).isSome = true →
          HistoryBefore sampleArguments (compactedPath [samplePrompt] .stop) keepOne) :=
  keepsHistory_iff (by decide)

/-- The summary of the previous compaction is passed to no call where the cut splits the first turn
behind it, and a deferred answer is retained though the context does not show it. -/
theorem compaction_drops_summary :
    prepareCompaction sampleArguments (compactedPath [] .stop) keepOne = some (samplePreparation [] .stop 3) ∧
      ¬ KeepsHistory sampleArguments (compactedPath [] .stop) (samplePreparation [] .stop 3) ∧
      prepareCompaction sampleArguments (compactedPath [samplePrompt] .deferred) keepOne =
        some (samplePreparation [samplePrompt] .deferred 3) ∧
      ¬ KeepsHistory sampleArguments (compactedPath [samplePrompt] .deferred)
        (samplePreparation [samplePrompt] .deferred 3) := by
  have hfirst : prepareCompaction sampleArguments (compactedPath [] .stop) keepOne =
      some (samplePreparation [] .stop 3) := by decide
  refine ⟨hfirst, ?_, by decide, ?_⟩
  · intro hkeeps
    let answer : SummaryRequest Unit → Except CompactionError (String × Usage) :=
      fun _ => .ok ("", sampleUsage)
    obtain ⟨result, requests, hrun⟩ : ∃ result requests,
        (compact answer (samplePreparation [] .stop 3) none).run [] = .ok (result, requests) :=
      compact_answered fun _ => ⟨_, rfl⟩
    obtain ⟨messages, hmem⟩ := hkeeps.summary answer none result requests hrun ⟨"s", [], 10, none⟩ rfl
    rw [compact_ok hrun] at hmem
    cases List.mem_singleton.mp hmem
  · intro hkeeps
    exact absurd hkeeps.messages (by decide)

end Example

end Mcpi.Harness
