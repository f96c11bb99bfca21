import Mcpi.CodingAgent.Paths

/-!
# Migrations and forks

Opening a session file of an older version migrates its entries: version 1 had neither ids nor
links, and named the first kept entry of a compaction by its index in the file; version 2 had
another name for the role of custom messages. `forkFrom` copies the entries as they are under
a header of the current version, so nothing migrates the copy. Its context is that of the
source where the migration would not have shown.
-/

namespace Mcpi.CodingAgent.SessionManager

variable {δ : Type}

/-! ## Migrations -/

/-- `entries[index]` -/
def entryAt (entries : List (FileEntry δ)) (index : Int) : Option (FileEntry δ) :=
  if index < 0 then none else entries[index.toNat]?

/-- Convert `firstKeptEntryIndex` to `firstKeptEntryId`. The entries behind the one at hand have
not been given their ids yet. -/
def resolveFirstKept (entries : List (FileEntry δ)) (entry : SessionEntry δ) : SessionEntry δ :=
  match entry.body with
  | .compaction fields =>
    match fields.firstKeptEntryIndex with
    | none => entry
    | some index =>
      let firstKeptEntryId :=
        match entryAt entries index with
        | some (.entry target) => target.id
        | _ => fields.firstKeptEntryId
      { entry with body := .compaction { fields with firstKeptEntryId, firstKeptEntryIndex := none } }
  | _ => entry

/-- An id of `migrateV1ToV2`: the set that `generateId` looks into stays empty. -/
def migratedId (randomUUID : Nat → Nat → String) (n : Nat) : String :=
  generateId (randomUUID n) fun _ => false

/-- The loop of `migrateV1ToV2`, at an entry with the ones before it migrated. -/
def migrateV1ToV2Loop (randomUUID : Nat → Nat → String) (done : List (FileEntry δ))
    (prevId : Option String) (generated : Nat) : List (FileEntry δ) → List (FileEntry δ)
  | [] => done
  | .session header :: rest =>
    migrateV1ToV2Loop randomUUID (done ++ [.session { header with version := some 2 }]) prevId generated rest
  | .entry e :: rest =>
    let id := migratedId randomUUID generated
    let linked := { e with id := some id, parentId := prevId }
    let resolved := resolveFirstKept (done ++ .entry linked :: rest) linked
    migrateV1ToV2Loop randomUUID (done ++ [.entry resolved]) (some id) (generated + 1) rest

def migrateV1ToV2 (randomUUID : Nat → Nat → String) (entries : List (FileEntry δ)) : List (FileEntry δ) :=
  migrateV1ToV2Loop randomUUID [] none 0 entries

/-- `message.role = "custom"` where it was `"hookMessage"`. -/
def renameRole : AgentMessage δ → AgentMessage δ
  | .hookMessage customType content display details timestamp =>
    .custom customType content display details timestamp
  | message => message

def renameEntry (entry : SessionEntry δ) : SessionEntry δ :=
  match entry.body with
  | .message message => { entry with body := .message (renameRole message) }
  | _ => entry

def migrateV2ToV3 (entries : List (FileEntry δ)) : List (FileEntry δ) :=
  entries.map fun
    | .session header => .session { header with version := some 3 }
    | .entry e => .entry (renameEntry e)

/-- The version in the first header; version 1 wrote none. -/
def fileVersion (entries : List (FileEntry δ)) : Nat :=
  ((entries.findSome? fun
    | .session header => some header
    | .entry _ => none).bind SessionHeader.version).getD 1

def migrateToCurrentVersion (randomUUID : Nat → Nat → String) (entries : List (FileEntry δ)) : List (FileEntry δ) :=
  if CURRENT_SESSION_VERSION ≤ fileVersion entries then entries
  else migrateV2ToV3 (if fileVersion entries < 2 then migrateV1ToV2 randomUUID entries else entries)

/-! ## Opening and forking -/

/-- `loadEntriesFromFile` on the entries that the lines of a file parse to: a file that does not
begin with a header is no session. -/
def loadEntriesFromFile : List (FileEntry δ) → Option (List (FileEntry δ))
  | .session header :: rest => some (.session header :: rest)
  | _ => none

/-- The session as `_setSessionFile` loads it. -/
def openFile (randomUUID : Nat → Nat → String) (file : List (FileEntry δ)) : Option (Core δ) :=
  (loadEntriesFromFile file).map fun entries => _buildIndex (migrateToCurrentVersion randomUUID entries)

/-- The file that `forkFrom` writes. `newHeader` is of the current version. -/
def forkFile (newHeader : SessionHeader) (file : List (FileEntry δ)) : Option (List (FileEntry δ)) :=
  (loadEntriesFromFile file).map fun sourceEntries =>
    .session { newHeader with version := some CURRENT_SESSION_VERSION } :: (getEntries sourceEntries).map .entry

/-- Fork a session from another project directory. -/
def forkFrom (randomUUID : Nat → Nat → String) (newHeader : SessionHeader)
    (file : List (FileEntry δ)) : Option (Core δ) :=
  (forkFile newHeader file).bind (openFile randomUUID)

/-- The context of a session at its leaf. -/
def context (core : Core δ) : Option (SessionContext δ) := contextAt core core.leafId

/-! ## What the versions mean -/

/-- A list of entries cut at the latest compaction. -/
def splitAtLatest : List (FileEntry δ) →
    Option (List (FileEntry δ) × SessionEntry δ × CompactionFields × List (FileEntry δ))
  | [] => none
  | item :: rest =>
    match splitAtLatest rest with
    | some (before, compaction, fields, after) => some (item :: before, compaction, fields, after)
    | none =>
      match item with
      | .entry e => e.compaction?.map fun fields => ([], e, fields, rest)
      | .session _ => none

/-- What a compaction of version 1 keeps of the file before it: all from the entry on that its
index names. -/
def keptFromIndex (before : List (FileEntry δ)) (index : Option Int) : List (SessionEntry δ) :=
  match index with
  | none => []
  | some index =>
    match entryAt before index with
    | some (.entry _) => getEntries (before.drop index.toNat)
    | _ => []

/-- **The conversation of a version 1 file**: its entries in the order of the file, from the latest
compaction on. -/
def listedEntries (file : List (FileEntry δ)) : List (SessionEntry δ) :=
  match splitAtLatest file with
  | none => getEntries file
  | some (before, compaction, fields, after) =>
    compaction :: (keptFromIndex before fields.firstKeptEntryIndex ++ getEntries after)

def listedContext (file : List (FileEntry δ)) : SessionContext δ where
  messages := ((listedEntries file).flatMap sessionEntryToContextMessages).map renameRole
  settings := getSessionContextSettings (getEntries file)

/-- What a parent id names: of the entries with that id the last. An empty id names none. -/
structure Names (entries : List (SessionEntry δ)) (reference : Option String) (target : SessionEntry δ) : Prop where
  id : ∃ id, reference = some id ∧ id ≠ "" ∧ target.id = some id
  last : ∃ before after, entries = before ++ target :: after ∧ ∀ later ∈ after, later.id ≠ target.id

/-- The entries from a root to `leaf`, each named by the parent id of the one after it. -/
inductive LeadsTo (entries : List (SessionEntry δ)) : List (SessionEntry δ) → SessionEntry δ → Prop
  | root {leaf : SessionEntry δ} (hroot : ∀ target, ¬ Names entries leaf.parentId target) : LeadsTo entries [leaf] leaf
  | child {path : List (SessionEntry δ)} {parent leaf : SessionEntry δ} (hpath : LeadsTo entries path parent)
      (hparent : Names entries leaf.parentId parent) : LeadsTo entries (path ++ [leaf]) leaf

/-- The path to the last entry of a file. Parent ids that run in a circle leave none. -/
inductive PathOf : List (SessionEntry δ) → List (SessionEntry δ) → Prop
  | empty : PathOf [] []
  | last {before path : List (SessionEntry δ)} {leaf : SessionEntry δ} (hpath : LeadsTo (before ++ [leaf]) path leaf) :
      PathOf (before ++ [leaf]) path

/-- The entries that a path shows: the latest compaction, from the entry on that it keeps first what was
before it, and what follows it. -/
inductive Shows : List (SessionEntry δ) → List (SessionEntry δ) → Prop
  | all {path : List (SessionEntry δ)} (hnone : ∀ e ∈ path, e.compaction? = none) : Shows path path
  | cut {dropped kept after : List (SessionEntry δ)} {compaction : SessionEntry δ} {fields : CompactionFields}
      (hfields : compaction.compaction? = some fields) (hafter : ∀ e ∈ after, e.compaction? = none)
      (hdropped : ∀ e ∈ dropped, e.id ≠ fields.firstKeptEntryId)
      (hkept : ∀ e, kept.head? = some e → e.id = fields.firstKeptEntryId) :
      Shows (dropped ++ kept ++ compaction :: after) (compaction :: kept ++ after)

/-- A message of the role that version 3 renamed. -/
def isHookMessage : AgentMessage δ → Bool
  | .hookMessage .. => true
  | _ => false

/-- An entry with such a message. -/
def hasHookMessage (entry : SessionEntry δ) : Bool :=
  match entry.body with
  | .message message => isHookMessage message
  | _ => false

/-- The parent ids that stand in a version 1 file lead to entries that say what the file lists. -/
structure SpellsOut (file : List (FileEntry δ)) (path shown : List (SessionEntry δ)) : Prop where
  linked : PathOf (getEntries file) path
  shows : Shows path shown
  messages : shown.flatMap sessionEntryToContextMessages =
    ((listedEntries file).flatMap sessionEntryToContextMessages).map renameRole
  settings : getSessionContextSettings path = getSessionContextSettings (getEntries file)

/-- **The condition.** In a file of version 3 nothing is to migrate. In one of version 2 no entry that the
path to the last one shows has a message of the old role. In one of version 1 the parent ids that happen to
stand in the file spell out the conversation that it lists. -/
def MigratesUnseen (file : List (FileEntry δ)) : Prop :=
  if CURRENT_SESSION_VERSION ≤ fileVersion file then True
  else if fileVersion file = 2 then
    ∀ path shown, PathOf (getEntries file) path → Shows path shown → ∀ e ∈ shown, hasHookMessage e = false
  else ∃ path shown, SpellsOut file path shown

/-! ## Paths by parent ids -/

section Linked

variable {entries path shown : List (SessionEntry δ)} {target leaf : SessionEntry δ} {reference : Option String}

theorem get?_eq_some_iff {key : Option String} : (buildEntryIndex entries).get? key = some target ↔
    target.id = key ∧ ∃ before after, entries = before ++ target :: after ∧ ∀ later ∈ after, later.id ≠ key := by
  rw [buildEntryIndex, OrderedMap.get?_ofValues, List.getLast?_filter, List.find?_eq_some_iff_append]
  simp only [decide_eq_true_eq, Bool.not_eq_true', decide_eq_false_iff_not]
  refine and_congr_right fun _ => ⟨fun ⟨after, before, hsplit, hlater⟩ => ?_, fun ⟨before, after, hsplit, hlater⟩ => ?_⟩
  · refine ⟨before.reverse, after.reverse, ?_, by simpa using hlater⟩
    rw [← List.reverse_reverse entries, hsplit]
    simp
  · exact ⟨after.reverse, before.reverse, by simp [hsplit], by simpa using hlater⟩

theorem names_iff : Names entries reference target ↔ follow (buildEntryIndex entries) reference = some target := by
  rw [follow_eq_some]
  constructor
  · rintro ⟨⟨id, href, hne, hid⟩, hlast⟩
    exact ⟨id, href, hne, get?_eq_some_iff.mpr ⟨hid, hid ▸ hlast⟩⟩
  · rintro ⟨id, href, hne, hget⟩
    obtain ⟨hid, hlast⟩ := get?_eq_some_iff.mp hget
    exact ⟨⟨id, href, hne, hid⟩, hid ▸ hlast⟩

theorem leadsTo_iff : LeadsTo entries path leaf ↔ RootPath (parent (buildEntryIndex entries)) leaf path.reverse := by
  constructor
  · intro h
    induction h with
    | root hroot => exact .root (Option.eq_none_iff_forall_ne_some.mpr fun target h => hroot target (names_iff.mpr h))
    | child _ hparent ih =>
      rw [List.reverse_append]
      exact .step (names_iff.mp hparent) ih
  · intro h
    rw [← List.reverse_reverse path]
    generalize path.reverse = upwards at h
    induction h with
    | root hroot => exact .root fun target h => nomatch hroot.symm.trans (names_iff.mp h)
    | step hparent _ ih =>
      rw [List.reverse_cons]
      exact .child ih (names_iff.mpr hparent)

theorem pathOf_concat {before : List (SessionEntry δ)} :
    PathOf (before ++ [leaf]) path ↔ LeadsTo (before ++ [leaf]) path leaf := by
  constructor
  · intro hpath
    generalize hentries : before ++ [leaf] = entries at hpath
    cases hpath with
    | empty => simp at hentries
    | last hpath =>
      obtain ⟨rfl, rfl⟩ := List.append_inj' hentries rfl |>.imp id List.singleton_inj.mp
      exact hpath
  · exact .last

/-- In a path with distinct ids, what is shown is what the context is made of. -/
theorem shows_iff (hids : (path.map SessionEntry.id).Nodup) : Shows path shown ↔ shown = contextEntries path := by
  constructor
  · intro h
    cases h with
    | all hnone => exact (contextEntries_of_none hnone).symm
    | @cut dropped kept after compaction fields hfields hafter hdropped hkept =>
      rw [contextEntries_split hfields hafter (id_ne_of_nodup hids), keptFrom,
        List.dropWhile_append_of_pos (by simpa using hdropped)]
      cases kept with
      | nil => rfl
      | cons e kept => rw [List.dropWhile_cons_of_neg (by simpa using hkept e rfl)]
  · rintro rfl
    rcases compaction_cases path with hnone | ⟨before, compaction, fields, after, rfl, hfields, hafter⟩
    · rw [contextEntries_of_none hnone]
      exact .all hnone
    · rw [contextEntries_split hfields hafter (id_ne_of_nodup hids)]
      have hsplit : before.takeWhile (fun e => e.id ≠ fields.firstKeptEntryId) ++
          keptFrom fields.firstKeptEntryId before = before := List.takeWhile_append_dropWhile
      conv => enter [1]; rw [← hsplit]
      refine .cut hfields hafter (fun e he => by simpa using List.mem_takeWhile_imp he) fun e he => ?_
      have hhead := List.head?_dropWhile_not (fun e : SessionEntry δ => decide (e.id ≠ fields.firstKeptEntryId)) before
      rw [show before.dropWhile _ = keptFrom fields.firstKeptEntryId before from rfl, he] at hhead
      simpa using hhead

/-- The context by the ids and parent ids as they stand in the file. -/
def linkedContext (file : List (FileEntry δ)) : Option (SessionContext δ) :=
  context (_buildIndex file)

/-- **The context of a file as it stands**: what the path to its last entry shows and sets. -/
theorem linkedContext_iff {file : List (FileEntry δ)} {context : SessionContext δ} :
    linkedContext file = some context ↔ ∃ path shown, PathOf (getEntries file) path ∧ Shows path shown ∧
      context = ⟨shown.flatMap sessionEntryToContextMessages, getSessionContextSettings path⟩ := by
  rw [linkedContext, SessionManager.context, contextAt, buildIndex_fileEntries, buildIndex_byId, buildIndex_leafId]
  rcases (getEntries file).eq_nil_or_concat' with hnil | ⟨before, leaf, hlast⟩
  · rw [hnil]
    constructor
    · rintro ⟨⟩
      exact ⟨[], [], .empty, .all (by simp), rfl⟩
    · rintro ⟨path, shown, hpath, hshown, rfl⟩
      generalize hentries : ([] : List (SessionEntry δ)) = entries at hpath
      cases hpath with
      | empty => rw [(shows_iff (by simp)).mp hshown]; rfl
      | last => simp at hentries
  · rw [hlast, List.getLast?_concat]
    have hstored : Stored (buildEntryIndex (before ++ [leaf])) leaf :=
      get?_eq_some_iff.mpr ⟨rfl, before, [], rfl, by simp⟩
    have hleaf : leafEntry (before ++ [leaf]) leaf.id (buildEntryIndex (before ++ [leaf])) = some leaf := by
      rw [leafEntry, List.getLast?_concat]
      cases hfollow : follow (buildEntryIndex (before ++ [leaf])) leaf.id with
      | none => rfl
      | some e =>
        obtain ⟨id, hid, -, hget⟩ := follow_eq_some.mp hfollow
        rw [← hid, show (buildEntryIndex (before ++ [leaf])).get? leaf.id = some leaf from hstored] at hget
        rw [hget]
        rfl
    have hpaths : ∀ path, PathOf (before ++ [leaf]) path ↔
        walk (buildEntryIndex (before ++ [leaf])) (buildEntryIndex (before ++ [leaf])).fuel (some leaf) =
          some path.reverse := by
      intro path
      rw [walk_eq_some, ← leadsTo_iff, pathOf_concat]
      exact (and_iff_left_of_imp fun hpath => length_le_fuel (leadsTo_iff.mp hpath) hstored).symm
    rw [Option.map_some, buildSessionContext, buildSessionPath, hleaf]
    constructor
    · intro h
      obtain ⟨path, hpath, rfl⟩ := Option.map_eq_some_iff.mp h
      obtain ⟨upwards, hwalk, heq⟩ := Option.map_eq_some_iff.mp hpath
      subst heq
      have hids : (upwards.reverse.map SessionEntry.id).Nodup := by
        rw [List.map_reverse, List.nodup_reverse]
        exact nodup_ids (walk_eq_some.mp hwalk).1 hstored
      exact ⟨upwards.reverse, _, (hpaths _).mpr (by rw [hwalk, List.reverse_reverse]), (shows_iff hids).mpr rfl, rfl⟩
    · rintro ⟨path, shown, hpath, hshown, rfl⟩
      have hwalk := (hpaths path).mp hpath
      have hids : (path.map SessionEntry.id).Nodup := by
        have hids := nodup_ids (walk_eq_some.mp hwalk).1 hstored
        rwa [List.map_reverse, List.nodup_reverse] at hids
      rw [hwalk, (shows_iff hids).mp hshown, Option.map_some, Option.map_some, List.reverse_reverse]
      rfl

end Linked

/-! ## Renaming -/

section Rename

variable {entry : SessionEntry δ} {path : List (SessionEntry δ)}

@[simp] theorem renameEntry_id (entry : SessionEntry δ) : (renameEntry entry).id = entry.id := by
  rw [renameEntry]
  split <;> rfl

@[simp] theorem renameEntry_parentId (entry : SessionEntry δ) : (renameEntry entry).parentId = entry.parentId := by
  rw [renameEntry]
  split <;> rfl

@[simp] theorem renameEntry_compaction (entry : SessionEntry δ) :
    (renameEntry entry).compaction? = entry.compaction? := by
  obtain ⟨id, parentId, timestamp, body⟩ := entry
  cases body <;> rfl

theorem renameEntry_messages (entry : SessionEntry δ) :
    sessionEntryToContextMessages (renameEntry entry) = (sessionEntryToContextMessages entry).map renameRole := by
  obtain ⟨id, parentId, timestamp, body⟩ := entry
  cases body with
  | message m => cases m with
    | user content => cases content <;> rfl
    | assistant content => cases content <;> rfl
    | toolResult id name content => cases content <;> rfl
    | _ => rfl
  | branch_summary fromId summary =>
    show (if summary = "" then _ else _) = List.map renameRole (if summary = "" then _ else _)
    split <;> rfl
  | _ => rfl

theorem renameEntry_settings (settings : ContextSettings) (entry : SessionEntry δ) :
    settings.after (renameEntry entry) = settings.after entry := by
  obtain ⟨id, parentId, timestamp, body⟩ := entry
  cases body with
  | message m => cases m <;> rfl
  | _ => rfl

theorem getEntries_migrateV2ToV3 (entries : List (FileEntry δ)) :
    getEntries (migrateV2ToV3 entries) = (getEntries entries).map renameEntry := by
  induction entries with
  | nil => rfl
  | cons item entries ih =>
    rw [migrateV2ToV3, List.map_cons]
    cases item with
    | session header => exact ih
    | entry e => exact congrArg (renameEntry e :: ·) ih

theorem contextEntries_renameEntry (path : List (SessionEntry δ)) :
    contextEntries (path.map renameEntry) = (contextEntries path).map renameEntry := by
  have hlatest : latestCompaction (path.map renameEntry) = (latestCompaction path).map renameEntry := by
    have hkind : SessionEntry.isCompaction ∘ renameEntry = SessionEntry.isCompaction (δ := δ) := by
      funext e
      simp [SessionEntry.isCompaction]
    rw [latestCompaction, latestCompaction, List.filter_map, List.getLast?_map, hkind]
  rw [contextEntries, contextEntries, hlatest]
  cases latestCompaction path with
  | none => rfl
  | some compaction =>
    simp [keptFrom, List.findIdx_map, Function.comp_def, List.dropWhile_map, ← List.map_take, ← List.map_drop]

/-- Renaming the role of the entries of a path renames it in the messages of the context. -/
def renameContext (context : SessionContext δ) : SessionContext δ :=
  { context with messages := context.messages.map renameRole }

theorem pathContext_renameEntry (path : List (SessionEntry δ)) :
    pathContext (path.map renameEntry) = renameContext (pathContext path) := by
  have hmessages : (contextEntries (path.map renameEntry)).flatMap sessionEntryToContextMessages =
      ((contextEntries path).flatMap sessionEntryToContextMessages).map renameRole := by
    rw [contextEntries_renameEntry, List.flatMap_map, List.map_flatMap]
    exact List.flatMap_congr fun e _ => renameEntry_messages e
  have hsettings : getSessionContextSettings (path.map renameEntry) = getSessionContextSettings path := by
    rw [getSessionContextSettings, List.foldl_map]
    simp only [renameEntry_settings]
    rfl
  rw [pathContext, hmessages, hsettings]
  rfl

section

variable (entries : List (SessionEntry δ))

theorem get?_renameEntry (key : Option String) :
    (buildEntryIndex (entries.map renameEntry)).get? key = ((buildEntryIndex entries).get? key).map renameEntry := by
  rw [OrderedMap.get?, OrderedMap.get?, buildEntryIndex,
    OrderedMap.toList_ofValues_map renameEntry_id, OrderedMap.lookupIn_map]
  rfl

theorem fuel_renameEntry :
    (buildEntryIndex (entries.map renameEntry)).fuel = (buildEntryIndex entries).fuel := by
  rw [EntryIndex.fuel, buildEntryIndex, OrderedMap.toList_ofValues_map renameEntry_id, List.length_map]
  rfl

theorem follow_renameEntry (reference : Option String) :
    follow (buildEntryIndex (entries.map renameEntry)) reference =
      (follow (buildEntryIndex entries) reference).map renameEntry := by
  rw [follow, follow]
  cases truthy reference with
  | none => rfl
  | some id => exact get?_renameEntry entries (some id)

theorem walk_renameEntry (fuel : Nat) (start : Option (SessionEntry δ)) :
    walk (buildEntryIndex (entries.map renameEntry)) fuel (start.map renameEntry) =
      (walk (buildEntryIndex entries) fuel start).map (List.map renameEntry) := by
  induction fuel generalizing start with
  | zero => cases start <;> rfl
  | succ fuel ih =>
    cases start with
    | none => rfl
    | some e =>
      rw [Option.map_some, walk, walk, renameEntry_parentId, follow_renameEntry, ih, Option.map_map, Option.map_map]
      rfl

end

/-- Version 3 reads the same context, with the new name of the role. -/
theorem context_migrateV2ToV3 (entries : List (FileEntry δ)) :
    context (_buildIndex (migrateV2ToV3 entries)) = (context (_buildIndex entries)).map renameContext := by
  simp only [context, contextAt, buildIndex_fileEntries, buildIndex_byId, buildIndex_leafId,
    getEntries_migrateV2ToV3, List.getLast?_map, Option.map_map]
  have hid : (SessionEntry.id ∘ renameEntry : SessionEntry δ → Option String) = SessionEntry.id :=
    funext renameEntry_id
  rw [hid]
  cases hlast : (getEntries entries).getLast? with
  | none => rfl
  | some leaf =>
    have hleaf : leafEntry ((getEntries entries).map renameEntry) leaf.id
        (buildEntryIndex ((getEntries entries).map renameEntry)) =
        (leafEntry (getEntries entries) leaf.id (buildEntryIndex (getEntries entries))).map
          renameEntry := by
      rw [leafEntry, leafEntry, follow_renameEntry, List.getLast?_map]
      cases follow (buildEntryIndex (getEntries entries)) leaf.id <;> rfl
    simp only [Option.map_some, buildSessionContext, buildSessionPath, hleaf, fuel_renameEntry,
      walk_renameEntry, Option.map_map]
    congr 1
    funext l
    exact (congrArg pathContext List.map_reverse.symm).trans (pathContext_renameEntry l.reverse)

end Rename

/-! ## Ids and links -/

/-- An entry without its id and link, and without the reference of a compaction. -/
def content (entry : SessionEntry δ) : SessionEntry δ where
  id := none
  parentId := none
  timestamp := entry.timestamp
  body :=
    match entry.body with
    | .compaction fields =>
      .compaction { fields with firstKeptEntryId := none, firstKeptEntryIndex := none }
    | body => body

def fileContent : FileEntry δ → FileEntry δ
  | .session header => .session { header with version := none }
  | .entry e => .entry (content e)

section Content

variable {entry : SessionEntry δ}

theorem content_messages (entry : SessionEntry δ) :
    sessionEntryToContextMessages (content entry) = sessionEntryToContextMessages entry := by
  obtain ⟨id, parentId, timestamp, body⟩ := entry
  cases body <;> rfl

theorem content_settings (settings : ContextSettings) (entry : SessionEntry δ) :
    settings.after (content entry) = settings.after entry := by
  obtain ⟨id, parentId, timestamp, body⟩ := entry
  cases body <;> rfl

theorem content_compaction (entry : SessionEntry δ) :
    (content entry).compaction? = none ↔ entry.compaction? = none := by
  obtain ⟨id, parentId, timestamp, body⟩ := entry
  cases body <;> simp [content, SessionEntry.compaction?, EntryBody.compaction?]

variable {a b : List (SessionEntry δ)}

/-- Entries with the same content have the same messages. -/
theorem messages_of_content (h : a.map content = b.map content) :
    a.flatMap sessionEntryToContextMessages = b.flatMap sessionEntryToContextMessages := by
  have hmap : ∀ l : List (SessionEntry δ), l.flatMap sessionEntryToContextMessages =
      (l.map content).flatMap sessionEntryToContextMessages := by
    intro l
    rw [List.flatMap_map]
    exact List.flatMap_congr fun e _ => (content_messages e).symm
  rw [hmap a, hmap b, h]

theorem settings_of_content (h : a.map content = b.map content) :
    getSessionContextSettings a = getSessionContextSettings b := by
  have hmap : ∀ l : List (SessionEntry δ), getSessionContextSettings l = getSessionContextSettings (l.map content) := by
    intro l
    rw [getSessionContextSettings, getSessionContextSettings, List.foldl_map]
    simp only [content_settings]
  rw [hmap a, hmap b, h]

theorem compaction_of_content (h : a.map content = b.map content)
    (hnone : ∀ e ∈ b, e.compaction? = none) : ∀ e ∈ a, e.compaction? = none := by
  intro e he
  have hmem : content e ∈ b.map content := h ▸ List.mem_map_of_mem he
  obtain ⟨e', he', hsame⟩ := List.mem_map.mp hmem
  rw [← content_compaction, ← hsame, content_compaction]
  exact hnone e' he'

theorem getEntries_of_content {a b : List (FileEntry δ)} (h : a.map fileContent = b.map fileContent) :
    (getEntries a).map content = (getEntries b).map content := by
  have hmap : ∀ l : List (FileEntry δ), (getEntries l).map content = getEntries (l.map fileContent) := by
    intro l
    induction l with
    | nil => rfl
    | cons item l ih =>
      cases item with
      | session header => exact ih
      | entry e => exact congrArg (content e :: ·) ih
  rw [hmap a, hmap b, h]

theorem resolveFirstKept_spec (entries : List (FileEntry δ)) (entry : SessionEntry δ) :
    (resolveFirstKept entries entry).id = entry.id ∧ (resolveFirstKept entries entry).parentId = entry.parentId ∧
      content (resolveFirstKept entries entry) = content entry := by
  obtain ⟨id, parentId, timestamp, body⟩ := entry
  cases body with
  | compaction fields =>
    obtain ⟨summary, firstKeptEntryId, index, tokensBefore, details, usage, fromHook⟩ := fields
    cases index <;> exact ⟨rfl, rfl, rfl⟩
  | _ => exact ⟨rfl, rfl, rfl⟩

end Content

/-! ## The migration of version 1 -/

section Loop

variable {randomUUID : Nat → Nat → String} {done rest : List (FileEntry δ)} {prevId : Option String} {n : Nat}

/-- What the loop makes of the rest of the file: the same contents, in one chain, with the ids it
generates. -/
theorem migrateLoop_spec (rest done : List (FileEntry δ)) (prevId : Option String) (n : Nat)
    (hne : ∀ k, n ≤ k → k < n + (getEntries rest).length → migratedId randomUUID k ≠ "") :
    ∃ tail, migrateV1ToV2Loop randomUUID done prevId n rest = done ++ tail ∧
      tail.map fileContent = rest.map fileContent ∧ Chained prevId (getEntries tail) ∧
      (getEntries tail).map SessionEntry.id =
        (List.range' n (getEntries rest).length).map fun k => some (migratedId randomUUID k) := by
  induction rest generalizing done prevId n with
  | nil => exact ⟨[], by simp [migrateV1ToV2Loop], rfl, trivial, rfl⟩
  | cons item rest ih =>
    cases item with
    | session header =>
      obtain ⟨tail, hloop, hcontent, hchain, hids⟩ := ih
        (done ++ [.session { header with version := some 2 }]) prevId n hne
      refine ⟨.session { header with version := some 2 } :: tail, ?_, ?_, hchain, hids⟩
      · rw [migrateV1ToV2Loop, hloop, List.append_assoc]
        rfl
      · rw [List.map_cons, List.map_cons, hcontent]
        rfl
    | entry e =>
      have hlength : (getEntries (.entry e :: rest)).length = (getEntries rest).length + 1 := rfl
      rw [hlength] at hne
      rw [migrateV1ToV2Loop]
      generalize hlinked : ({ e with id := some (migratedId randomUUID n), parentId := prevId } :
        SessionEntry δ) = linked
      obtain ⟨hid, hparent, hsame⟩ := resolveFirstKept_spec (done ++ .entry linked :: rest) linked
      generalize resolveFirstKept (done ++ .entry linked :: rest) linked = resolved at hid hparent hsame
      subst hlinked
      obtain ⟨tail, hloop, hcontent, hchain, hids⟩ := ih (done ++ [.entry resolved])
        (some (migratedId randomUUID n)) (n + 1)
        fun k hk hlt => hne k (by omega) (by omega)
      refine ⟨.entry resolved :: tail, ?_, ?_, ⟨hparent, ⟨_, hid, hne n (by omega) (by omega)⟩, ?_⟩, ?_⟩
      · rw [hloop, List.append_assoc]
        rfl
      · rw [List.map_cons, List.map_cons, hcontent, fileContent, hsame]
        rfl
      · rw [hid]
        exact hchain
      · rw [hlength, List.range'_succ, List.map_cons, ← hids]
        exact congrArg (· :: _) hid

/-- The loop comes to any part of the file with the entries before it migrated. -/
theorem migrateLoop_reaches (randomUUID : Nat → Nat → String) (first rest done : List (FileEntry δ))
    (prevId : Option String)
    (n : Nat) :
    ∃ migrated prevId' n', migrated.map fileContent = first.map fileContent ∧
      migrateV1ToV2Loop randomUUID done prevId n (first ++ rest) =
        migrateV1ToV2Loop randomUUID (done ++ migrated) prevId' n' rest := by
  induction first generalizing done prevId n with
  | nil => exact ⟨[], prevId, n, rfl, by rw [List.append_nil, List.nil_append]⟩
  | cons item first ih =>
    cases item with
    | session header =>
      obtain ⟨migrated, prevId', n', hcontent, hloop⟩ :=
        ih (done ++ [.session { header with version := some 2 }]) prevId n
      refine ⟨.session { header with version := some 2 } :: migrated, prevId', n', ?_, ?_⟩
      · rw [List.map_cons, List.map_cons, hcontent]
        rfl
      · rw [List.cons_append, migrateV1ToV2Loop, hloop, List.append_assoc]
        rfl
    | entry e =>
      rw [List.cons_append, migrateV1ToV2Loop]
      generalize hlinked : ({ e with id := some (migratedId randomUUID n), parentId := prevId } :
        SessionEntry δ) = linked
      obtain ⟨-, -, hsame⟩ := resolveFirstKept_spec (done ++ .entry linked :: (first ++ rest)) linked
      generalize resolveFirstKept (done ++ .entry linked :: (first ++ rest)) linked = resolved at hsame
      subst hlinked
      obtain ⟨migrated, prevId', n', hcontent, hloop⟩ :=
        ih (done ++ [.entry resolved]) (some (migratedId randomUUID n)) (n + 1)
      refine ⟨.entry resolved :: migrated, prevId', n', ?_, ?_⟩
      · rw [List.map_cons, List.map_cons, hcontent, fileContent, hsame]
        rfl
      · rw [hloop, List.append_assoc]
        rfl

end Loop

/-- What the migration relies on of `randomUUID`, of which it takes the first characters: no id is
empty or drawn twice, and none is mentioned in the file already. -/
structure DistinctIds (randomUUID : Nat → Nat → String) (file : List (FileEntry δ)) : Prop where
  nonempty : ∀ n < (getEntries file).length, migratedId randomUUID n ≠ ""
  distinct : ∀ n < (getEntries file).length, ∀ m < n, migratedId randomUUID m ≠ migratedId randomUUID n
  new : ∀ n < (getEntries file).length, ∀ e ∈ getEntries file, e.id ≠ some (migratedId randomUUID n) ∧
    ∀ fields, e.compaction? = some fields → fields.firstKeptEntryId ≠ some (migratedId randomUUID n)

theorem splitAtLatest_eq_none {file : List (FileEntry δ)} (h : splitAtLatest file = none) :
    ∀ e ∈ getEntries file, e.compaction? = none := by
  induction file with
  | nil => exact fun e he => absurd he List.not_mem_nil
  | cons item file ih =>
    unfold splitAtLatest at h
    cases hrest : splitAtLatest file with
    | some split => rw [hrest] at h; cases h
    | none =>
      rw [hrest] at h
      cases item with
      | session header => exact ih hrest
      | entry e =>
        intro e' he'
        rcases List.mem_cons.mp he' with rfl | he'
        · exact Option.map_eq_none_iff.mp h
        · exact ih hrest e' he'

theorem splitAtLatest_eq_some {file before after : List (FileEntry δ)} {compaction : SessionEntry δ}
    {fields : CompactionFields}
    (h : splitAtLatest file = some (before, compaction, fields, after)) :
    file = before ++ .entry compaction :: after ∧ compaction.compaction? = some fields ∧
      ∀ e ∈ getEntries after, e.compaction? = none := by
  induction file generalizing before with
  | nil => cases h
  | cons item file ih =>
    unfold splitAtLatest at h
    cases hrest : splitAtLatest file with
    | some split =>
      obtain ⟨before', compaction', fields', after'⟩ := split
      rw [hrest] at h
      cases h
      obtain ⟨rfl, hfields, hafter⟩ := ih hrest
      exact ⟨rfl, hfields, hafter⟩
    | none =>
      rw [hrest] at h
      cases item with
      | session header => cases h
      | entry e =>
        obtain ⟨fields', hfields, heq⟩ := Option.map_eq_some_iff.mp h
        cases heq
        exact ⟨rfl, hfields, splitAtLatest_eq_none hrest⟩

variable {entries : List (FileEntry δ)}

theorem resolveFirstKept_none {entry : SessionEntry δ}
    {fields : CompactionFields} (hfields : entry.compaction? = some fields)
    (hindex : fields.firstKeptEntryIndex = none) : resolveFirstKept entries entry = entry := by
  obtain ⟨id, parentId, timestamp, body⟩ := entry
  cases body with
  | compaction fields' =>
    cases hfields
    rw [resolveFirstKept]
    simp only [hindex]
  | _ => rfl

theorem resolveFirstKept_some {entry : SessionEntry δ}
    {fields fields' : CompactionFields} {index : Int} (hfields : entry.compaction? = some fields)
    (hindex : fields.firstKeptEntryIndex = some index)
    (hfields' : (resolveFirstKept entries entry).compaction? = some fields') :
    fields'.firstKeptEntryId =
      match entryAt entries index with
      | some (.entry target) => target.id
      | _ => fields.firstKeptEntryId := by
  obtain ⟨id, parentId, timestamp, body⟩ := entry
  cases body with
  | compaction fields₀ =>
    cases hfields
    simp only [resolveFirstKept, hindex] at hfields'
    cases hfields'
    rfl
  | _ => cases hfields

section Linear

variable {randomUUID : Nat → Nat → String} {file : List (FileEntry δ)}

theorem migrateV1ToV2_spec (hids : DistinctIds randomUUID file) :
    (migrateV1ToV2 randomUUID file).map fileContent = file.map fileContent ∧
      Chained none (getEntries (migrateV1ToV2 randomUUID file)) ∧
      ((getEntries (migrateV1ToV2 randomUUID file)).map SessionEntry.id).Nodup ∧
      ∀ e ∈ getEntries (migrateV1ToV2 randomUUID file),
        ∃ n < (getEntries file).length, e.id = some (migratedId randomUUID n) := by
  obtain ⟨tail, hloop, hcontent, hchain, hall⟩ := migrateLoop_spec file [] none 0
    fun k _ hlt => hids.nonempty k (by simpa using hlt)
  have htail : migrateV1ToV2 randomUUID file = tail := hloop
  rw [htail]
  refine ⟨hcontent, hchain, ?_, fun e he => ?_⟩
  · rw [hall, ← List.range_eq_range']
    refine List.Nodup.map_on (fun m hm n hn hsame => ?_) List.nodup_range
    rw [List.mem_range] at hm hn
    rw [Option.some.injEq] at hsame
    rcases Nat.lt_trichotomy m n with hlt | heq | hgt
    · exact absurd hsame (hids.distinct n hn m hlt)
    · exact heq
    · exact absurd hsame.symm (hids.distinct m hm n hgt)
  · have hmem : e.id ∈ (getEntries tail).map SessionEntry.id := List.mem_map_of_mem he
    rw [hall] at hmem
    obtain ⟨k, hk, hid⟩ := List.mem_map.mp hmem
    rw [List.mem_range'_1, Nat.zero_add] at hk
    exact ⟨k, hk.2, hid.symm⟩

/-- From an entry of a file on, by its id or by its index. -/
theorem keptFrom_target {target : SessionEntry δ} {i : Nat}
    (hnodup : ((getEntries entries).map SessionEntry.id).Nodup) (hlt : i < entries.length)
    (htarget : entries[i] = .entry target) :
    keptFrom target.id (getEntries entries) = getEntries (entries.drop i) := by
  have hdrop : getEntries (entries.drop i) = target :: getEntries (entries.drop (i + 1)) := by
    rw [List.drop_eq_getElem_cons hlt, htarget]
    rfl
  have hsplit : getEntries entries = getEntries (entries.take i) ++ getEntries (entries.drop i) := by
    rw [← getEntries_append, List.take_append_drop]
  have hget : (getEntries entries)[(getEntries (entries.take i)).length]? = some target := by
    rw [hsplit, hdrop]
    simp
  rw [keptFrom_getElem hnodup hget]
  conv_lhs => rw [hsplit]
  exact List.drop_left

/-- What the resolved reference of a compaction keeps of the migrated entries before it is what its
index names. -/
theorem keptFrom_resolved {before after migrated : List (FileEntry δ)} {compaction : SessionEntry δ}
    {fields fields' : CompactionFields} (hcontent : migrated.map fileContent = before.map fileContent)
    (hnodup : ((getEntries migrated).map SessionEntry.id).Nodup)
    (hfields : compaction.compaction? = some fields)
    (hfields' : (resolveFirstKept (migrated ++ .entry compaction :: after) compaction).compaction? = some fields')
    (hself : ∀ e ∈ getEntries migrated, e.id ≠ compaction.id)
    (hlater : ∀ e ∈ getEntries migrated, ∀ e' ∈ getEntries after, e.id ≠ e'.id)
    (hraw : ∀ e ∈ getEntries migrated, e.id ≠ fields.firstKeptEntryId) :
    (keptFrom fields'.firstKeptEntryId (getEntries migrated)).map content =
      (keptFromIndex before fields.firstKeptEntryIndex).map content := by
  have hnil : ∀ key, (∀ e ∈ getEntries migrated, e.id ≠ key) →
      (keptFrom key (getEntries migrated)).map content = [] := fun key h => by
    rw [keptFrom_eq_nil h, List.map_nil]
  have hlength : migrated.length = before.length := by
    simpa using congrArg List.length hcontent
  cases hindex : fields.firstKeptEntryIndex with
  | none =>
    have hsame : fields' = fields := by
      rw [resolveFirstKept_none hfields hindex, hfields] at hfields'
      exact (Option.some.inj hfields').symm
    rw [hsame, hnil _ hraw]
    rfl
  | some index =>
    rw [resolveFirstKept_some hfields hindex hfields']
    by_cases hneg : index < 0
    · -- no entry has a negative index
      simp only [entryAt, hneg, if_true, keptFromIndex]
      exact hnil _ hraw
    · simp only [entryAt, hneg, if_false, keptFromIndex]
      rcases Nat.lt_or_ge index.toNat migrated.length with hlt | hge
      · have hlt' : index.toNat < before.length := hlength ▸ hlt
        have hitem : fileContent migrated[index.toNat] = fileContent before[index.toNat] := by
          have hget := congrArg (·[index.toNat]?) hcontent
          simpa [List.getElem?_eq_getElem hlt, List.getElem?_eq_getElem hlt'] using hget
        have hdrop : (migrated.drop index.toNat).map fileContent = (before.drop index.toNat).map fileContent := by
          rw [List.map_drop, List.map_drop, hcontent]
        rw [List.getElem?_append_left hlt, List.getElem?_eq_getElem hlt, List.getElem?_eq_getElem hlt']
        cases hx : migrated[index.toNat] with
        | session header =>
          cases hy : before[index.toNat] with
          | session header' => exact hnil _ hraw
          | entry e => rw [hx, hy] at hitem; cases hitem
        | entry target =>
          cases hy : before[index.toNat] with
          | session header' => rw [hx, hy] at hitem; cases hitem
          | entry e =>
            rw [← getEntries_of_content hdrop, keptFrom_target hnodup hlt hx]
      · -- the index names the compaction itself or an entry behind it: nothing before it
        have hbefore : before[index.toNat]? = none :=
          List.getElem?_eq_none (hlength ▸ hge)
        rw [hbefore, List.getElem?_append_right hge, List.map_nil]
        cases hk : index.toNat - migrated.length with
        | zero => exact hnil _ hself
        | succ k =>
          rw [List.getElem?_cons_succ]
          cases hitem : after[k]? with
          | none => exact hnil _ hraw
          | some item =>
            cases item with
            | session header => exact hnil _ hraw
            | entry target =>
              have hmem : target ∈ getEntries after :=
                List.mem_filterMap.mpr ⟨_, List.mem_of_getElem? hitem, rfl⟩
              exact hnil _ fun e he => hlater e he target hmem

/-- **The migration of version 1** makes the conversation that the file lists the context. -/
theorem context_migrateV1ToV2 (hids : DistinctIds randomUUID file) :
    (context (_buildIndex (migrateV1ToV2 randomUUID file))).map renameContext = some (listedContext file) := by
  obtain ⟨hcontent, hchain, hnodup, hnew⟩ := migrateV1ToV2_spec hids
  have hentries := getEntries_of_content hcontent
  rw [context, contextAt_chained rfl hnodup hchain, Option.map_some, Option.some.injEq]
  have hmessages : (contextEntries (getEntries (migrateV1ToV2 randomUUID file))).flatMap
      sessionEntryToContextMessages = (listedEntries file).flatMap sessionEntryToContextMessages := by
    cases hsplit : splitAtLatest file with
    | none =>
      rw [contextEntries_of_none (compaction_of_content hentries (splitAtLatest_eq_none hsplit)),
        messages_of_content hentries, listedEntries, hsplit]
    | some split =>
      obtain ⟨before, compaction, fields, after⟩ := split
      obtain ⟨rfl, hfields, hafter⟩ := splitAtLatest_eq_some hsplit
      rw [listedEntries, hsplit]
      -- the loop comes to the compaction, resolves its reference, and goes on
      obtain ⟨migrated, prevId, n, hbefore, hloop⟩ := migrateLoop_reaches
        randomUUID before (.entry compaction :: after) [] none 0
      rw [List.nil_append, migrateV1ToV2Loop] at hloop
      generalize hlinked : ({ compaction with id := some (migratedId randomUUID n), parentId := prevId } :
        SessionEntry δ) = linked at hloop
      have hlinkedFields : linked.compaction? = some fields := by
        rw [← hlinked]
        exact hfields
      have hlinkedContent : content linked = content compaction := by
        rw [← hlinked]
        rfl
      obtain ⟨hid, -, hsame⟩ := resolveFirstKept_spec (migrated ++ .entry linked :: after) linked
      have hresolved : ∃ fields', (resolveFirstKept (migrated ++ .entry linked :: after)
          linked).compaction? = some fields' := by
        rw [← Option.ne_none_iff_exists', ne_eq, ← content_compaction, hsame, content_compaction, hlinkedFields]
        exact nofun
      obtain ⟨fields', hfields'⟩ := hresolved
      obtain ⟨tail, prevId', n', htail, hrest⟩ := migrateLoop_reaches randomUUID after []
        (migrated ++ [.entry (resolveFirstKept (migrated ++ .entry linked :: after) linked)])
        (some (migratedId randomUUID n)) (n + 1)
      rw [List.append_nil, migrateV1ToV2Loop] at hrest
      rw [hrest] at hloop
      have hall : getEntries (migrateV1ToV2 randomUUID (before ++ .entry compaction :: after)) =
          getEntries migrated ++ resolveFirstKept (migrated ++ .entry linked :: after) linked :: getEntries tail := by
        rw [migrateV1ToV2, hloop, List.append_assoc, getEntries_append, getEntries_append]
        rfl
      rw [hall] at hnodup hnew ⊢
      have hafter' := compaction_of_content (getEntries_of_content htail) hafter
      have hself : ∀ e ∈ getEntries migrated, e.id ≠ linked.id := hid ▸ id_ne_of_nodup hnodup
      rw [List.map_append, List.nodup_append] at hnodup
      rw [contextEntries_split hfields' hafter' fun e he => hid ▸ hself e he]
      have hmem : ∀ e ∈ getEntries after, e ∈ getEntries (before ++ .entry compaction :: after) := by
        intro e he
        rw [getEntries_append]
        exact List.mem_append_right _ (List.mem_cons_of_mem _ he)
      have hcompaction : compaction ∈ getEntries (before ++ .entry compaction :: after) := by
        rw [getEntries_append]
        exact List.mem_append_right _ List.mem_cons_self
      have hkept := keptFrom_resolved hbefore hnodup.1 hlinkedFields hfields' hself (fun e he e' he' heq => by
          obtain ⟨k, hk, hke⟩ := hnew e (List.mem_append_left _ he)
          exact (hids.new k hk e' (hmem e' he')).1 (heq.symm.trans hke))
        (fun e he heq => by
          obtain ⟨k, hk, hke⟩ := hnew e (List.mem_append_left _ he)
          exact (hids.new k hk compaction hcompaction).2 fields hfields (heq.symm.trans hke))
      refine messages_of_content ?_
      rw [List.cons_append, List.map_cons, List.map_append, hkept, hsame, hlinkedContent,
        getEntries_of_content htail, List.map_cons, List.map_append]
  rw [renameContext, pathContext, hmessages, settings_of_content hentries]
  rfl

end Linear

/-! ## Forks -/

theorem renameRole_eq (message : AgentMessage δ) : renameRole message = message ↔ isHookMessage message = false := by
  cases message <;> simp [renameRole, isHookMessage]

theorem renameContext_eq (context : SessionContext δ) :
    renameContext context = context ↔ ∀ m ∈ context.messages, isHookMessage m = false := by
  obtain ⟨messages, settings⟩ := context
  simp only [renameContext, SessionContext.mk.injEq, and_true]
  rw [show (messages.map renameRole = messages ↔ ∀ m ∈ messages, renameRole m = m) from by
    conv_lhs => rw [← List.map_id messages, List.map_map]
    rw [List.map_inj_left]
    simp]
  simp only [renameRole_eq]

/-- What a fork is opened with: the ids and links as they stand in the source. -/
theorem context_forkFrom (randomUUID : Nat → Nat → String) (newHeader header : SessionHeader)
    (rest : List (FileEntry δ)) :
    (forkFrom randomUUID newHeader (.session header :: rest)).bind context =
      linkedContext (.session header :: rest) := by
  have hversion : fileVersion (.session { newHeader with version := some CURRENT_SESSION_VERSION } ::
      (getEntries (.session header :: rest)).map .entry) = CURRENT_SESSION_VERSION := rfl
  simp only [forkFrom, forkFile, loadEntriesFromFile, Option.map_some, Option.bind_some, openFile,
    migrateToCurrentVersion, hversion, Nat.le_refl, if_true]
  exact contextAt_congr (getEntries_session _ _)

theorem hasHookMessage_eq_false (entry : SessionEntry δ) : hasHookMessage entry = false ↔
    ∀ m ∈ sessionEntryToContextMessages entry, isHookMessage m = false := by
  obtain ⟨id, parentId, timestamp, body⟩ := entry
  cases body with
  | message m => cases m with
    | user content => cases content <;> simp [hasHookMessage, sessionEntryToContextMessages, withContent, isHookMessage]
    | assistant content =>
      cases content <;> simp [hasHookMessage, sessionEntryToContextMessages, withContent, isHookMessage]
    | toolResult id name content =>
      cases content <;> simp [hasHookMessage, sessionEntryToContextMessages, withContent, isHookMessage]
    | _ => simp [hasHookMessage, sessionEntryToContextMessages, withContent, isHookMessage]
  | branch_summary fromId summary =>
    by_cases hsummary : summary = "" <;>
      simp [hasHookMessage, sessionEntryToContextMessages, isHookMessage, hsummary]
  | _ => simp [hasHookMessage, sessionEntryToContextMessages, isHookMessage]

theorem noHookMessage_iff (shown : List (SessionEntry δ)) : (∀ e ∈ shown, hasHookMessage e = false) ↔
    ∀ m ∈ shown.flatMap sessionEntryToContextMessages, isHookMessage m = false := by
  simp only [hasHookMessage_eq_false, List.mem_flatMap]
  exact ⟨fun h m ⟨e, he, hm⟩ => h e he m hm, fun h e he m hm => h m ⟨e, he, hm⟩⟩

/-- **A fork has the context of its source** exactly if the migration of the source would not have
shown. -/
theorem fork_keeps_context (randomUUID : Nat → Nat → String) (newHeader : SessionHeader)
    (file : List (FileEntry δ)) (hloads : (loadEntriesFromFile file).isSome = true)
    (hids : DistinctIds randomUUID file) :
    (forkFrom randomUUID newHeader file).bind context = (openFile randomUUID file).bind context ↔
      MigratesUnseen file := by
  cases file with
  | nil => cases hloads
  | cons item rest =>
    cases item with
    | entry e => cases hloads
    | session header =>
      rw [context_forkFrom, MigratesUnseen]
      simp only [openFile, loadEntriesFromFile, Option.map_some, Option.bind_some, migrateToCurrentVersion]
      split
      · exact iff_of_true rfl trivial
      next hold =>
        rw [context_migrateV2ToV3]
        by_cases hversion : fileVersion (.session header :: rest) = 2
        · -- version 2: only the role is renamed
          rw [if_pos hversion, if_neg (by omega)]
          change linkedContext _ = (linkedContext _).map renameContext ↔ _
          cases hcontext : linkedContext (.session header :: rest) with
          | none =>
            refine iff_of_true rfl fun path shown hpath hshown => ?_
            cases hcontext.symm.trans (linkedContext_iff.mpr ⟨path, shown, hpath, hshown, rfl⟩)
          | some context =>
            rw [Option.map_some, Option.some.injEq, eq_comm, renameContext_eq]
            constructor
            · intro h path shown hpath hshown
              cases hcontext.symm.trans (linkedContext_iff.mpr ⟨path, shown, hpath, hshown, rfl⟩)
              exact (noHookMessage_iff shown).mpr h
            · intro h
              obtain ⟨path, shown, hpath, hshown, rfl⟩ := linkedContext_iff.mp hcontext
              exact (noHookMessage_iff shown).mp (h path shown hpath hshown)
        · -- version 1: the links of the file against its list
          rw [if_neg hversion, if_pos (by simp only [CURRENT_SESSION_VERSION] at hold; omega),
            context_migrateV1ToV2 hids, linkedContext_iff]
          constructor
          · rintro ⟨path, shown, hpath, hshown, hcontext⟩
            obtain ⟨hmessages, hsettings⟩ := SessionContext.mk.injEq .. ▸ hcontext
            exact ⟨path, shown, hpath, hshown, hmessages.symm, hsettings.symm⟩
          · rintro ⟨path, shown, hpath, hshown, hmessages, hsettings⟩
            refine ⟨path, shown, hpath, hshown, ?_⟩
            rw [hmessages, hsettings]
            rfl

theorem contextEntries_singleton (entry : SessionEntry δ) : contextEntries [entry] = [entry] := by
  cases hentry : entry.compaction? with
  | none => exact contextEntries_of_none (by simpa using hentry)
  | some fields =>
    show contextEntries ([] ++ entry :: []) = [entry]
    exact contextEntries_split hentry (by simp) (by simp)

/-- Version 1 wrote no parent ids: the last entry is all that is linked, and has to say what the file
lists. -/
theorem spellsOut_unlinked {file : List (FileEntry δ)} {before : List (SessionEntry δ)} {last : SessionEntry δ}
    (hlast : getEntries file = before ++ [last]) (hunlinked : last.parentId = none) :
    (∃ path shown, SpellsOut file path shown) ↔
      ⟨sessionEntryToContextMessages last, getSessionContextSettings [last]⟩ = listedContext file := by
  have hroot : ∀ target, ¬ Names (before ++ [last]) last.parentId target := fun target h => by
    obtain ⟨id, hid, -⟩ := h.id
    cases hunlinked.symm.trans hid
  constructor
  · rintro ⟨path, shown, hpath, hshown, hmessages, hsettings⟩
    rw [hlast, pathOf_concat] at hpath
    cases hpath with
    | child _ hparent => exact absurd hparent (hroot _)
    | root =>
      rw [(shows_iff (by simp)).mp hshown, contextEntries_singleton, List.flatMap_singleton] at hmessages
      rw [hmessages, hsettings]
      rfl
  · intro h
    obtain ⟨hmessages, hsettings⟩ := SessionContext.mk.injEq .. ▸ h
    refine ⟨[last], [last], hlast ▸ .last (.root hroot), (shows_iff (by simp)).mpr (contextEntries_singleton last).symm,
      ?_, hsettings⟩
    rw [List.flatMap_singleton]
    exact hmessages

section Example

/-- The UUIDs of two migrated entries. -/
def twoUUIDs (n _ : Nat) : String :=
  if n = 0 then "0f7a3c52-9d1e-4b6f-8a20-5c3d7e9b1f04" else "b81d04e6-2c57-4f90-b3ad-16e8c07f5d29"

def fileHeader (version : Option Nat) : SessionHeader :=
  ⟨version, "s1", "2026-01-01T00:00:00.000Z", "/work", none⟩

def forkHeader : SessionHeader :=
  ⟨some 3, "s2", "2026-01-02T00:00:00.000Z", "/other", some "/sessions/s1.jsonl"⟩

def userEntry (id parentId : Option String) (text : String) (timestamp : Nat) : SessionEntry Unit :=
  ⟨id, parentId, "2026-01-01T00:00:01.000Z", .message (.user (some (.text text)) (.ms timestamp))⟩

/-- A conversation as version 2 wrote it. -/
def version2File : List (FileEntry Unit) :=
  [.session (fileHeader (some 2)), .entry (userEntry (some "a") none "hi" 1),
    .entry (userEntry (some "b") (some "a") "go on" 2)]

theorem distinctIds_version2 : DistinctIds twoUUIDs version2File where
  nonempty := by decide
  distinct := by decide
  new n hn e he := by
    have hkind : ∀ e ∈ getEntries version2File, e.compaction? = none := by decide
    have hids : ∀ n < (getEntries version2File).length, ∀ e ∈ getEntries version2File,
        e.id ≠ some (migratedId twoUUIDs n) := by decide
    exact ⟨hids n hn e he, fun fields h => nomatch (hkind e he).symm.trans h⟩

/-- Without a message of the old role a file of version 2 is forked as it is read. -/
theorem fork_keeps_context_version2 :
    (forkFrom twoUUIDs forkHeader version2File).bind context = (openFile twoUUIDs version2File).bind context :=
  (fork_keeps_context twoUUIDs forkHeader version2File rfl distinctIds_version2).mpr (by
    show ∀ path shown, PathOf (getEntries version2File) path → Shows path shown → ∀ e ∈ shown, hasHookMessage e = false
    intro path shown hpath hshown
    have hlinked : linkedContext version2File = some
        ⟨[.user (some (.text "hi")) (.ms 1), .user (some (.text "go on")) (.ms 2)], ⟨"off", none⟩⟩ := by
      decide
    have hcontext := linkedContext_iff.mpr ⟨path, shown, hpath, hshown, rfl⟩
    obtain ⟨hmessages, -⟩ := SessionContext.mk.injEq .. ▸ Option.some.inj (hcontext.symm.trans hlinked)
    rw [noHookMessage_iff, hmessages]
    decide)

/-- The same conversation as version 1 wrote it. -/
def version1File : List (FileEntry Unit) :=
  [.session (fileHeader none), .entry (userEntry none none "hi" 1),
    .entry (userEntry none none "go on" 2)]

/-- **A fork of a version 1 file** has the last message of the conversation only. -/
theorem fork_loses_conversation :
    (forkFrom twoUUIDs forkHeader version1File).bind context =
        some ⟨[.user (some (.text "go on")) (.ms 2)], ⟨"off", none⟩⟩ ∧
      (openFile twoUUIDs version1File).bind context = some
        ⟨[.user (some (.text "hi")) (.ms 1), .user (some (.text "go on")) (.ms 2)],
          ⟨"off", none⟩⟩ := by
  decide

end Example

end Mcpi.CodingAgent.SessionManager
