import Mathlib.Data.List.TakeWhile
import Mathlib.Data.Option.Basic
import Mcpi.CodingAgent.Compaction
import Mcpi.CodingAgent.Paths

/-!
# Branched sessions

`createBranchedSession` copies the path of a leaf into a session of its own. Label entries are
left out and written anew behind the path, and the others are linked past them. The context
of the copy is the context of the source, unless the latest compaction refers to its first
kept entry by the id of a label entry: then nothing it kept is found again.
-/

namespace Mcpi.CodingAgent

variable {δ : Type}

namespace SessionManager

/-- Walk from an entry to the root, all entries in path order. -/
def getBranch (core : Core δ) (fromId : Option String) : Option (List (SessionEntry δ)) :=
  (walk core.byId core.byId.fuel (follow core.byId (fromId.or core.leafId.join))).map List.reverse

/-- The loop over the path: labels are left out, the rest is linked past them. -/
def withoutLabels (pathParentId : Option String) : List (SessionEntry δ) → List (SessionEntry δ)
  | [] => []
  | entry :: rest =>
    if entry.isLabel then withoutLabels pathParentId rest
    else { entry with parentId := pathParentId } :: withoutLabels entry.id rest

/-- The labels of the entries with some ids: target, label and timestamp. -/
def labelsToWrite (core : Core δ) (pathEntryIds : List (Option String)) : List (String × String × String) :=
  core.labelsById.toList.filterMap fun (targetId, label) =>
    if some targetId ∈ pathEntryIds then
      some (targetId, label, (core.labelTimestampsById.get? targetId).getD "")
    else
      none

/-- The label entries, one the child of the other. `randomUUID` has the answers for each id that
is generated, one after another. -/
def labelEntries (randomUUID : Nat → Nat → String) (pathEntryIds : List (Option String))
    (parentId : Option String) (generated : Nat) :
    List (String × String × String) → List (SessionEntry δ)
  | [] => []
  | (targetId, label, timestamp) :: rest =>
    let id := generateId (randomUUID generated) fun id => some id ∈ pathEntryIds
    ⟨some id, parentId, timestamp, .label targetId (some label)⟩ ::
      labelEntries randomUUID (pathEntryIds ++ [some id]) (some id) (generated + 1) rest

/-- The new session. There is none where the path does not end or has no entry: the code runs on
forever, or throws. -/
def createBranchedSession (core : Core δ) (header : SessionHeader)
    (randomUUID : Nat → Nat → String) (leafId : String) : Option (Core δ) := do
  let path ← getBranch core (some leafId)
  guard !path.isEmpty
  let pathWithoutLabels := withoutLabels none path
  let pathEntryIds := pathWithoutLabels.map SessionEntry.id
  let labels := labelEntries randomUUID pathEntryIds (truthy pathEntryIds.getLast?.join) 0
    (labelsToWrite core pathEntryIds)
  return _buildIndex (.session header :: (pathWithoutLabels ++ labels).map .entry)

/-! ## Labels left out -/

section Labels

variable {path entries : List (SessionEntry δ)} {entry : SessionEntry δ} {parentId : Option String}

theorem isLabel_messages (h : entry.isLabel = true) : sessionEntryToContextMessages entry = [] := by
  obtain ⟨id, parentId, timestamp, body⟩ := entry
  cases body <;> first | rfl | cases h

theorem isLabel_compaction (h : entry.isLabel = true) : entry.compaction? = none := by
  obtain ⟨id, parentId, timestamp, body⟩ := entry
  cases body <;> first | rfl | cases h

theorem isLabel_settings (h : entry.isLabel = true) (settings : ContextSettings) : settings.after entry = settings := by
  obtain ⟨id, parentId, timestamp, body⟩ := entry
  cases body <;> first | rfl | cases h

/-- The entries of a path without its labels, but for their links. -/
theorem withoutLabels_unlinked (parentId : Option String) (path : List (SessionEntry δ)) :
    (withoutLabels parentId path).map SessionEntry.unlinked =
      (path.filter fun e => !e.isLabel).map SessionEntry.unlinked := by
  induction path generalizing parentId with
  | nil => rfl
  | cons entry path ih =>
    rw [withoutLabels]
    cases hlabel : entry.isLabel with
    | true => simp [hlabel, ih]
    | false => simp [hlabel, ih, SessionEntry.unlinked]

theorem withoutLabels_ids (parentId : Option String) (path : List (SessionEntry δ)) :
    (withoutLabels parentId path).map SessionEntry.id = (path.filter fun e => !e.isLabel).map SessionEntry.id := by
  have h := congrArg (List.map SessionEntry.id) (withoutLabels_unlinked parentId path)
  simpa [Function.comp_def, SessionEntry.unlinked] using h

/-- An id that a parent id can refer to. -/
def Referable (entry : SessionEntry δ) : Prop := ∃ id, entry.id = some id ∧ id ≠ ""

theorem chained_withoutLabels (parentId : Option String) (hids : ∀ e ∈ path, Referable e) :
    Chained parentId (withoutLabels parentId path) := by
  induction path generalizing parentId with
  | nil => trivial
  | cons entry path ih =>
    rw [withoutLabels]
    split
    · exact ih parentId fun e he => hids e (by simp [he])
    · exact ⟨rfl, hids entry (by simp), ih _ fun e he => hids e (by simp [he])⟩

theorem labels_settings (l : List (SessionEntry δ)) (settings : ContextSettings) :
    (l.filter fun e => !e.isLabel).foldl ContextSettings.after settings = l.foldl ContextSettings.after settings := by
  induction l generalizing settings with
  | nil => rfl
  | cons entry l ih =>
    cases hlabel : entry.isLabel with
    | true => simp [hlabel, ih, isLabel_settings hlabel]
    | false => simp [hlabel, ih]

theorem labels_messages (l : List (SessionEntry δ)) :
    (l.filter fun e => !e.isLabel).flatMap sessionEntryToContextMessages = l.flatMap sessionEntryToContextMessages := by
  induction l with
  | nil => rfl
  | cons entry l ih =>
    cases hlabel : entry.isLabel with
    | true => simp [hlabel, ih, isLabel_messages hlabel]
    | false => simp [hlabel, ih]

theorem labels_none {l : List (SessionEntry δ)} (h : ∀ e ∈ l, e.isLabel = true) : l.filter (fun e => !e.isLabel) = [] :=
  List.filter_eq_nil_iff.mpr fun e he => by simp [h e he]

/-- Where no label has the id, leaving out labels does not change what is kept. -/
theorem keptFrom_withoutLabels {key : Option String} (h : ∀ e ∈ entries, e.isLabel = true → e.id ≠ key) :
    keptFrom key (entries.filter fun e => !e.isLabel) = (keptFrom key entries).filter fun e => !e.isLabel := by
  induction entries with
  | nil => rfl
  | cons entry entries ih =>
    have ih := ih fun e he => h e (by simp [he])
    simp only [keptFrom, ne_eq, decide_not] at ih ⊢
    by_cases hkey : entry.id = key
    · -- the first kept entry is no label
      have hlabel : entry.isLabel = false := by
        cases hlabel : entry.isLabel with
        | false => rfl
        | true => exact absurd hkey (h entry (by simp) hlabel)
      simp [hlabel, hkey]
    · cases hlabel : entry.isLabel <;> simp [hlabel, hkey, ih]

/-- Where a label has the id, nothing that is kept is found without it. -/
theorem keptFrom_label {label : SessionEntry δ} (hids : (entries.map SessionEntry.id).Nodup)
    (hmem : label ∈ entries) (hlabel : label.isLabel = true) :
    keptFrom label.id (entries.filter fun e => !e.isLabel) = [] := by
  rw [keptFrom, List.dropWhile_eq_nil_iff]
  intro e he
  obtain ⟨he, hkept⟩ := List.mem_filter.mp he
  rw [decide_eq_true_iff]
  intro hsame
  obtain rfl := List.inj_on_of_nodup_map hids he hmem hsame
  rw [hlabel] at hkept
  cases hkept

end Labels

/-! ## The context of the copy -/

/-- **What goes wrong**: the latest compaction of the path refers to its first kept entry by the id
of a label entry, and keeps a message. -/
def KeepsByLabel (path : List (SessionEntry δ)) : Prop :=
  ∃ before compaction fields after label, path = before ++ compaction :: after ∧
    compaction.compaction? = some fields ∧ (∀ e ∈ after, e.compaction? = none) ∧
    label ∈ before ∧ label.isLabel = true ∧ fields.firstKeptEntryId = label.id ∧
    (keptFrom label.id before).flatMap sessionEntryToContextMessages ≠ []

section Copy

variable {path labels : List (SessionEntry δ)}

theorem copy_settings (hlabels : ∀ e ∈ labels, e.isLabel = true) :
    getSessionContextSettings (path.filter (fun e => !e.isLabel) ++ labels) = getSessionContextSettings path := by
  rw [getSessionContextSettings, List.foldl_append, labels_settings, ← labels_settings labels, labels_none hlabels]
  rfl

/-- The messages of a path and of its copy, with a compaction in it: they differ in what the
compaction keeps. -/
theorem copy_messages {before after : List (SessionEntry δ)} {compaction : SessionEntry δ}
    {fields : CompactionFields} (hfields : compaction.compaction? = some fields)
    (hafter : ∀ e ∈ after, e.compaction? = none)
    (hids : ((before ++ compaction :: after).map SessionEntry.id).Nodup)
    (hlabels : ∀ e ∈ labels, e.isLabel = true) :
    (contextEntries ((before ++ compaction :: after).filter (fun e => !e.isLabel) ++ labels)).flatMap
          sessionEntryToContextMessages =
        (contextEntries (before ++ compaction :: after)).flatMap sessionEntryToContextMessages ↔
      (keptFrom fields.firstKeptEntryId (before.filter fun e => !e.isLabel)).flatMap sessionEntryToContextMessages =
        (keptFrom fields.firstKeptEntryId before).flatMap sessionEntryToContextMessages := by
  have hkind : compaction.isLabel = false := by
    cases hlabel : compaction.isLabel with
    | false => rfl
    | true => rw [isLabel_compaction hlabel] at hfields; cases hfields
  have hbefore : ∀ e ∈ before, e.id ≠ compaction.id := by
    intro e he hsame
    rw [List.map_append, List.nodup_append] at hids
    exact hids.2.2 _ (List.mem_map_of_mem he) _ (by simp) hsame
  have hcopy : (before ++ compaction :: after).filter (fun e => !e.isLabel) ++ labels =
      before.filter (fun e => !e.isLabel) ++ compaction :: (after.filter (fun e => !e.isLabel) ++ labels) := by
    simp [hkind]
  have hnone : ∀ e ∈ after.filter (fun e => !e.isLabel) ++ labels, e.compaction? = none := by
    intro e he
    rcases List.mem_append.mp he with he | he
    · exact hafter e (List.mem_of_mem_filter he)
    · exact isLabel_compaction (hlabels e he)
  have hempty : labels.flatMap sessionEntryToContextMessages = [] := by
    rw [← labels_messages, labels_none hlabels, List.flatMap_nil]
  rw [hcopy, contextEntries_split hfields hnone fun e he => hbefore e (List.mem_of_mem_filter he),
    contextEntries_split hfields hafter hbefore]
  simp only [List.cons_append, List.flatMap_cons, List.flatMap_append, labels_messages, hempty,
    List.append_nil, List.append_cancel_left_eq, List.append_cancel_right_eq]

/-- The copy has the context of the path exactly if nothing is kept by way of a label. -/
theorem copy_context (labels : List (SessionEntry δ)) (hids : (path.map SessionEntry.id).Nodup)
    (hlabels : ∀ e ∈ labels, e.isLabel = true) :
    pathContext (path.filter (fun e => !e.isLabel) ++ labels) = pathContext path ↔ ¬ KeepsByLabel path := by
  rw [pathContext, pathContext, SessionContext.mk.injEq, copy_settings hlabels, and_iff_left rfl]
  constructor
  · rintro heq ⟨before, compaction, fields, after, label, rfl, hfields, hafter, hmem, hlabel, hkept, hsome⟩
    have hnodup : (before.map SessionEntry.id).Nodup := by
      rw [List.map_append] at hids
      exact hids.of_append_left
    have hboth := (copy_messages hfields hafter hids hlabels).mp heq
    rw [hkept, keptFrom_label hnodup hmem hlabel] at hboth
    exact hsome hboth.symm
  · intro hnot
    rcases compaction_cases path with hnone | ⟨before, compaction, fields, after, rfl, hfields, hafter⟩
    · have hcopy : ∀ e ∈ path.filter (fun e => !e.isLabel) ++ labels, e.compaction? = none := by
        intro e he
        rcases List.mem_append.mp he with he | he
        · exact hnone e (List.mem_of_mem_filter he)
        · exact isLabel_compaction (hlabels e he)
      rw [contextEntries_of_none hcopy, contextEntries_of_none hnone, List.flatMap_append,
        labels_messages, ← labels_messages labels, labels_none hlabels]
      simp
    · apply (copy_messages hfields hafter hids hlabels).mpr
      by_cases hlabel : ∃ label ∈ before, label.isLabel = true ∧ label.id = fields.firstKeptEntryId
      · -- the label keeps no message, so there is nothing to lose
        obtain ⟨label, hmem, hlabel, hid⟩ := hlabel
        have hnodup : (before.map SessionEntry.id).Nodup := by
          rw [List.map_append] at hids
          exact hids.of_append_left
        rw [← hid, keptFrom_label hnodup hmem hlabel]
        by_contra hne
        exact hnot ⟨before, compaction, fields, after, label, rfl, hfields, hafter, hmem, hlabel,
          hid.symm, fun hnil => hne hnil.symm⟩
      · push Not at hlabel
        rw [keptFrom_withoutLabels hlabel, labels_messages]

end Copy

/-! ## The copy of a branch -/

/-- What `randomUUID` promises for a number of ids: a UUID is not empty, and the whole UUID that is
taken after a hundred collisions is no id of the session and none generated before. -/
structure UniqueUUIDs (randomUUID : Nat → Nat → String) (taken : List (Option String))
    (count : Nat) : Prop where
  nonempty : ∀ n < count, ∀ i, ((randomUUID n i).take 8).toString ≠ "" ∧ randomUUID n i ≠ ""
  fresh : ∀ n < count, some (randomUUID n 100) ∉ taken
  distinct : ∀ n < count, ∀ m < n, randomUUID n 100 ≠ randomUUID m 100 ∧
    ∀ i, randomUUID n 100 ≠ ((randomUUID m i).take 8).toString

section Generated

variable {randomUUID : Nat → Nat → String} {taken used : List (Option String)}
  {labels : List (String × String × String)} {parentId : Option String} {n count : Nat}

theorem generateId_cases (uuids : Nat → String) (has : String → Bool) :
    (∃ i, generateId uuids has = ((uuids i).take 8).toString ∧ has (generateId uuids has) = false) ∨
      generateId uuids has = uuids 100 := by
  unfold generateId
  split
  next i hfind =>
    have hfree := List.find?_some hfind
    exact .inl ⟨i, rfl, by simpa using hfree⟩
  · exact .inr rfl

theorem labelEntries_isLabel : ∀ e ∈ labelEntries (δ := δ) randomUUID used parentId n labels, e.isLabel = true := by
  induction labels generalizing used parentId n with
  | nil => exact fun e he => absurd he List.not_mem_nil
  | cons label labels ih =>
    intro e he
    rcases List.mem_cons.mp he with rfl | he
    · rfl
    · exact ih e he

/-- The generated ids are new and distinct, and each label is the child of the one before. -/
theorem labelEntries_chained (labels : List (String × String × String)) (parentId : Option String)
    (n : Nat) (hunique : UniqueUUIDs randomUUID taken count)
    (hcount : n + labels.length ≤ count)
    (hused : ∀ m, n ≤ m → m < count → some (randomUUID m 100) ∉ used) :
    Chained parentId (labelEntries (δ := δ) randomUUID used parentId n labels) ∧
      ((labelEntries (δ := δ) randomUUID used parentId n labels).map SessionEntry.id).Nodup ∧
      ∀ e ∈ labelEntries (δ := δ) randomUUID used parentId n labels, e.id ∉ used := by
  induction labels generalizing used parentId n with
  | nil => exact ⟨trivial, List.nodup_nil, fun e he => absurd he List.not_mem_nil⟩
  | cons label labels ih =>
    obtain ⟨targetId, text, timestamp⟩ := label
    rw [List.length_cons] at hcount
    have hn : n < count := by omega
    have hcases := generateId_cases (randomUUID n) fun id => some id ∈ used
    rw [labelEntries]
    generalize generateId (randomUUID n) (fun id => some id ∈ used) = id at hcases ⊢
    have hfree : some id ∉ used := by
      rcases hcases with ⟨i, -, hfree⟩ | rfl
      · simpa using hfree
      · exact hused n (Nat.le_refl n) hn
    have hne : id ≠ "" := by
      rcases hcases with ⟨i, rfl, -⟩ | rfl
      · exact (hunique.nonempty n hn i).1
      · exact (hunique.nonempty n hn 100).2
    have hlater : ∀ m, n + 1 ≤ m → m < count → some (randomUUID m 100) ∉ used ++ [some id] := by
      intro m hm hlt hmem
      rcases List.mem_append.mp hmem with hmem | hmem
      · exact hused m (Nat.le_of_succ_le hm) hlt hmem
      · have hsame : randomUUID m 100 = id := by simpa using hmem
        rcases hcases with ⟨i, rfl, -⟩ | rfl
        · exact (hunique.distinct m hlt n hm).2 i hsame
        · exact (hunique.distinct m hlt n hm).1 hsame
    obtain ⟨hchain, hnodup, hnew⟩ := ih (some id) (n + 1) (by omega) hlater
    refine ⟨⟨rfl, ⟨id, rfl, hne⟩, hchain⟩, List.nodup_cons.mpr ⟨fun hmem => ?_, hnodup⟩, ?_⟩
    · obtain ⟨e, he, hid⟩ := List.mem_map.mp hmem
      exact hnew e he (by simp [hid])
    · intro e he
      rcases List.mem_cons.mp he with rfl | he
      · exact hfree
      · exact fun hmem => hnew e he (List.mem_append_left _ hmem)

end Generated

section Branch

variable {core : Core δ} {leafId : String} {path : List (SessionEntry δ)}

/-- The branch of an entry: the path that `buildSessionContext` takes there, of entries with
distinct ids that parent ids can refer to. -/
theorem getBranch_spec (hcore : Indexed core) (hbranch : getBranch core (some leafId) = some path) (hsome : path ≠ []) :
    contextAt core (some (some leafId)) = some (pathContext path) ∧
      (path.map SessionEntry.id).Nodup ∧ ∀ e ∈ path, Referable e := by
  rw [getBranch, Option.some_or, Option.map_eq_some_iff] at hbranch
  obtain ⟨l, hwalk, rfl⟩ := hbranch
  cases hleaf : follow core.byId (some leafId) with
  | none =>
    rw [hleaf] at hwalk
    cases hfuel : core.byId.fuel <;> rw [hfuel] at hwalk <;> cases hwalk <;> exact absurd rfl hsome
  | some leaf =>
    rw [hleaf] at hwalk
    have hcontext : contextAt core (some (some leafId)) = some (pathContext l.reverse) := by
      rw [contextAt, buildSessionContext, buildSessionPath, leafEntry, hleaf, Option.some_or, hwalk]
      rfl
    rw [Indexed] at hcore
    rw [hcore] at hwalk hleaf
    obtain ⟨hpath, -⟩ := walk_eq_some.mp hwalk
    obtain ⟨id, -, hne, hget⟩ := follow_eq_some.mp hleaf
    obtain ⟨hstored, hid⟩ := stored_of_get? hget
    refine ⟨hcontext, ?_, fun e he => ?_⟩
    · rw [List.map_reverse, List.nodup_reverse]
      exact nodup_ids hpath hstored
    · refine hpath.forall_mem Referable (fun e p _ hparent => ?_) ⟨id, hid, hne⟩ e (List.mem_reverse.mp he)
      obtain ⟨id, -, hne, hget⟩ := follow_eq_some.mp hparent
      exact ⟨id, (stored_of_get? hget).2, hne⟩

/-- The last id of a chain is the parent id of what is appended. -/
theorem truthy_last {parentId : Option String} {entries : List (SessionEntry δ)} (hchain : Chained parentId entries) :
    truthy (entries.map SessionEntry.id).getLast?.join = (entries.getLast?.map SessionEntry.id).getD none := by
  cases hlast : entries.getLast? with
  | none =>
    obtain rfl := List.getLast?_eq_none_iff.mp hlast
    rfl
  | some last =>
    obtain ⟨init, rfl⟩ := List.getLast?_eq_some_iff.mp hlast
    obtain ⟨-, -, ⟨id, hid, hne⟩, -⟩ := chained_append.mp hchain
    simp [hid, truthy, Option.filter, hne]

/-- **A branched session has the context of its leaf** exactly if the latest compaction on the path
keeps no message by way of a label entry. -/
theorem branched_context (core : Core δ) (hcore : Indexed core) (header : SessionHeader)
    (randomUUID : Nat → Nat → String) (leafId : String) (path : List (SessionEntry δ))
    (hpath : getBranch core (some leafId) = some path) (branched : Core δ)
    (hbranched : createBranchedSession core header randomUUID leafId = some branched)
    (hunique : UniqueUUIDs randomUUID (path.map SessionEntry.id) core.labelsById.toList.length) :
    contextAt branched branched.leafId = contextAt core (some (some leafId)) ↔ ¬ KeepsByLabel path := by
  rw [createBranchedSession, hpath] at hbranched
  simp only [bind, Option.bind_some, Option.bind_eq_some_iff, Option.guard_eq_some', pure,
    Option.some.injEq] at hbranched
  obtain ⟨-, hsome, rfl⟩ := hbranched
  obtain ⟨hcontext, hids, hrefer⟩ := getBranch_spec hcore hpath (by rintro rfl; cases hsome)
  have hpathIds := withoutLabels_ids none path
  have hsub : List.Sublist ((path.filter fun e => !e.isLabel).map SessionEntry.id)
      (path.map SessionEntry.id) := List.filter_sublist.map _
  have hpathChain := chained_withoutLabels none hrefer
  obtain ⟨hchain, hnodup, hnew⟩ := labelEntries_chained (δ := δ)
    (labelsToWrite core ((withoutLabels none path).map SessionEntry.id))
    (truthy ((withoutLabels none path).map SessionEntry.id).getLast?.join) 0 hunique
    (by rw [Nat.zero_add]; exact List.length_filterMap_le _ _)
    (fun m _ hlt hmem => hunique.fresh m hlt (hsub.subset (hpathIds ▸ hmem)))
  rw [contextAt_chained (getEntries_session _ _) ?_ ?_, hcontext, Option.some.injEq]
  · rw [← pathContext_unlinked, List.map_append, withoutLabels_unlinked, ← List.map_append, pathContext_unlinked]
    exact copy_context _ hids labelEntries_isLabel
  · rw [List.map_append, List.nodup_append]
    refine ⟨?_, hnodup, fun id hid id' hid' hsame => ?_⟩
    · rw [hpathIds]
      exact List.Nodup.sublist hsub hids
    · obtain ⟨e, he, rfl⟩ := List.mem_map.mp hid'
      exact hnew e he (hsame ▸ hid)
  · refine chained_append.mpr ⟨hpathChain, ?_⟩
    rw [← truthy_last hpathChain]
    exact hchain

end Branch

section Example

def exampleHeader : SessionHeader := ⟨some 3, "s1", "2026-01-01T00:00:00.000Z", "/work", none⟩

def exampleEntry (id : String) (parentId : Option String) (body : EntryBody Unit) :
    SessionEntry Unit := ⟨some id, parentId, "2026-01-01T00:00:00.000Z", body⟩

def prompt (text : String) : EntryBody Unit := .message (.user (some (.text text)) (.ms 1))

/-- Two prompts, and between them a label that was set on the first. -/
def labelledPath : List (SessionEntry Unit) :=
  [exampleEntry "a" none (prompt "an earlier prompt"),
    exampleEntry "b" (some "a") (.label "a" (some "start")),
    exampleEntry "c" (some "b") (prompt "the latest prompt")]

/-- What `prepareCompaction` cuts at, if it is to keep the latest prompt: the label before it. -/
example : (prepareCompaction ⟨fun _ => "\x7b\x7d", fun _ => none⟩ labelledPath ⟨true, 16384, 5⟩).map
    CompactionPreparation.firstKeptEntryId = some "b" := by decide +kernel

/-- The path with a compaction that keeps the entries from an id on. -/
def compactedPath (firstKeptEntryId : String) : List (SessionEntry Unit) :=
  labelledPath ++ [exampleEntry "d" (some "c")
    (.compaction ⟨"s", some firstKeptEntryId, none, 9, none, none, false⟩)]

def compactedSession (firstKeptEntryId : String) : Core Unit :=
  _buildIndex (.session exampleHeader :: (compactedPath firstKeptEntryId).map .entry)

def exampleUUID (_ _ : Nat) : String := "0f7a3c52-9d1e-4b6f-8a20-5c3d7e9b1f04"

theorem exampleUUID_unique :
    UniqueUUIDs exampleUUID ((compactedPath "c").map SessionEntry.id) 1 where
  nonempty _ _ _ := by
    show ("0f7a3c52-9d1e-4b6f-8a20-5c3d7e9b1f04".take 8).toString ≠ "" ∧
      "0f7a3c52-9d1e-4b6f-8a20-5c3d7e9b1f04" ≠ ""
    decide +kernel
  fresh _ _ := by
    show some "0f7a3c52-9d1e-4b6f-8a20-5c3d7e9b1f04" ∉ _
    decide +kernel
  distinct n hn m hm := by omega

/-- The context is that of the leaf where the compaction refers to the prompt. -/
theorem branched_context_prompt :
    ∃ branched, createBranchedSession (compactedSession "c") exampleHeader exampleUUID "d" =
        some branched ∧
      contextAt branched branched.leafId = contextAt (compactedSession "c") (some (some "d")) := by
  have hsome : (createBranchedSession (compactedSession "c") exampleHeader exampleUUID "d").isSome := by
    decide +kernel
  obtain ⟨branched, hbranched⟩ := Option.isSome_iff_exists.mp hsome
  refine ⟨branched, hbranched, (branched_context (compactedSession "c") (indexed_buildIndex _)
    exampleHeader exampleUUID "d" (compactedPath "c") (by decide +kernel) branched hbranched
    exampleUUID_unique).mpr ?_⟩
  have hlabels : ∀ e ∈ ([] : List (SessionEntry Unit)), e.isLabel = true :=
    fun e he => absurd he List.not_mem_nil
  exact (copy_context [] (by decide +kernel) hlabels).mp (by decide +kernel)

/-- **Nothing the compaction kept is in the context** where it refers to the label. -/
theorem branched_loses_kept :
    ((createBranchedSession (compactedSession "b") exampleHeader exampleUUID "d").map fun branched =>
        (contextAt branched branched.leafId).map SessionContext.messages) =
      some (some [.compactionSummary "s" 9 (.parsed "2026-01-01T00:00:00.000Z")]) ∧
    (contextAt (compactedSession "b") (some (some "d"))).map SessionContext.messages =
      some [.compactionSummary "s" 9 (.parsed "2026-01-01T00:00:00.000Z"),
        .user (some (.text "the latest prompt")) (.ms 1)] := by
  decide +kernel

end Example

end SessionManager

end Mcpi.CodingAgent
