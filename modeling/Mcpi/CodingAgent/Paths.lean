import Mcpi.CodingAgent.SessionManager
import Mcpi.Lib.RootPath
import Mathlib.Data.List.Perm.Subperm
import Mathlib.Data.List.TakeWhile

/-!
# Paths

The walk of `buildSessionPath` as a root path of the forest that the parent ids span, and
the context of a path by its parts: what comes before the latest compaction, the compaction,
and what comes after it.
-/

namespace Mcpi.CodingAgent

variable {δ : Type} {index : EntryIndex δ} {entries path : List (SessionEntry δ)} {entry leaf : SessionEntry δ}

/-! ## Walks -/

/-- The entry a parent id leads to. -/
def parent (index : EntryIndex δ) (entry : SessionEntry δ) : Option (SessionEntry δ) :=
  follow index entry.parentId

theorem walk_eq_some {fuel : Nat} {l : List (SessionEntry δ)} :
    walk index fuel (some entry) = some l ↔ RootPath (parent index) entry l ∧ l.length ≤ fuel := by
  induction fuel generalizing entry l with
  | zero =>
    refine ⟨nofun, fun ⟨hpath, hlength⟩ => ?_⟩
    exact absurd (List.eq_nil_of_length_eq_zero (Nat.le_zero.mp hlength)) hpath.ne_nil
  | succ fuel ih =>
    rw [walk, Option.map_eq_some_iff]
    cases hparent : parent index entry with
    | none =>
      rw [show follow index entry.parentId = none from hparent]
      constructor
      · rintro ⟨rest, hrest, rfl⟩
        cases fuel <;> cases hrest <;> exact ⟨.root hparent, by simp⟩
      · rintro ⟨hpath, -⟩
        obtain rfl := hpath.unique (.root hparent)
        cases fuel <;> exact ⟨[], rfl, rfl⟩
    | some p =>
      rw [show follow index entry.parentId = some p from hparent]
      constructor
      · rintro ⟨rest, hrest, rfl⟩
        obtain ⟨hpath, hlength⟩ := ih.mp hrest
        exact ⟨.step hparent hpath, Nat.succ_le_succ hlength⟩
      · rintro ⟨hpath, hlength⟩
        cases hpath with
        | root hnone => rw [hparent] at hnone; cases hnone
        | step hsome hrest =>
          obtain rfl := Option.some.inj (hparent.symm.trans hsome)
          exact ⟨_, ih.mpr ⟨hrest, Nat.le_of_succ_le_succ hlength⟩, rfl⟩

/-- The index finds an entry under its own id. -/
def Stored (index : EntryIndex δ) (entry : SessionEntry δ) : Prop :=
  index.get? entry.id = some entry

theorem follow_eq_some {reference : Option String} :
    follow index reference = some entry ↔ ∃ id, reference = some id ∧ id ≠ "" ∧ index.get? (some id) = some entry := by
  simp [follow, truthy, Option.bind_eq_some_iff, Option.filter_eq_some_iff, and_assoc]

theorem follow_some {id : String} (hid : id ≠ "") : follow index (some id) = index.get? (some id) := by
  simp [follow, truthy, Option.filter, hid]

theorem stored_of_get? {key : Option String} (h : (buildEntryIndex entries).get? key = some entry) :
    Stored (buildEntryIndex entries) entry ∧ entry.id = key := by
  have hmem := List.mem_of_getLast? ((OrderedMap.get?_ofValues _ _ _).symm.trans h)
  have hid : entry.id = key := by simpa using (List.mem_filter.mp hmem).2
  exact ⟨by rw [Stored, hid]; exact h, hid⟩

section Stored

variable (hpath : RootPath (parent (buildEntryIndex entries)) leaf path) (hleaf : Stored (buildEntryIndex entries) leaf)

include hpath hleaf

theorem stored_of_path : ∀ e ∈ path, Stored (buildEntryIndex entries) e := by
  refine hpath.forall_mem _ (fun e p _ hparent => ?_) hleaf
  obtain ⟨id, -, -, hget⟩ := follow_eq_some.mp hparent
  exact (stored_of_get? hget).1

theorem nodup_ids : (path.map SessionEntry.id).Nodup := by
  refine List.Nodup.map_on (fun a ha b hb hab => ?_) hpath.nodup
  have hstored := stored_of_path hpath hleaf a ha
  rw [Stored, hab, stored_of_path hpath hleaf b hb] at hstored
  exact (Option.some.inj hstored).symm

theorem length_le_fuel : path.length ≤ (buildEntryIndex entries).fuel := by
  have hsub : path ⊆ (buildEntryIndex entries).values := fun e he =>
    OrderedMap.mem_values_of_get? (stored_of_path hpath hleaf e he)
  have hle := (hpath.nodup.subperm hsub).length_le
  rw [OrderedMap.values, List.length_map] at hle
  exact Nat.le_succ_of_le hle

theorem walk_of_path : walk (buildEntryIndex entries) (buildEntryIndex entries).fuel (some leaf) = some path :=
  walk_eq_some.mpr ⟨hpath, length_le_fuel hpath hleaf⟩

end Stored

/-! ## Chains -/

/-- Every entry is the child of the one before it, from `parentId` on, and has an id to refer to. -/
def Chained : Option String → List (SessionEntry δ) → Prop
  | _, [] => True
  | parentId, entry :: rest =>
    entry.parentId = parentId ∧ (∃ id, entry.id = some id ∧ id ≠ "") ∧ Chained entry.id rest

theorem chained_append {parentId : Option String} {rest : List (SessionEntry δ)} :
    Chained parentId (entries ++ rest) ↔
      Chained parentId entries ∧ Chained ((entries.getLast?.map SessionEntry.id).getD parentId) rest := by
  induction entries generalizing parentId with
  | nil => simp [Chained]
  | cons entry entries ih =>
    rw [List.cons_append, Chained, ih, Chained]
    simp [List.getLast?_cons, and_assoc]

/-- In a session that is one chain, the path from the last entry is the whole session. -/
theorem rootPath_of_chained (hids : (entries.map SessionEntry.id).Nodup)
    (hstored : ∀ e ∈ entries, Stored index e) (hchain : Chained none entries)
    (hlast : entries.getLast? = some leaf) : RootPath (parent index) leaf entries.reverse := by
  induction entries using List.reverseRecOn generalizing leaf with
  | nil => cases hlast
  | append_singleton init last ih =>
    obtain rfl : last = leaf := by simpa using hlast
    obtain ⟨hinit, hparent, -, -⟩ := chained_append.mp hchain
    rw [List.reverse_append, List.reverse_singleton, List.singleton_append]
    cases hprevious : init.getLast? with
    | none =>
      obtain rfl := List.getLast?_eq_none_iff.mp hprevious
      refine .root ?_
      rw [parent, hparent]
      rfl
    | some previous =>
      rw [hprevious] at hparent
      have hmem : previous ∈ init := List.mem_of_getLast? hprevious
      have hprev : parent index last = some previous := by
        obtain ⟨before, rfl⟩ := List.getLast?_eq_some_iff.mp hprevious
        obtain ⟨-, -, ⟨id, hid, hne⟩, -⟩ := chained_append.mp hinit
        have hget : Stored index previous := hstored previous (by simp)
        rw [Stored, hid] at hget
        rw [parent, hparent, Option.map_some, Option.getD_some, hid, follow_some hne]
        exact hget
      refine .step hprev (ih ?_ (fun e he => hstored e (by simp [he])) hinit hprevious)
      exact List.Nodup.sublist ((List.sublist_append_left init [last]).map _) hids

/-! ## The context of a path -/

/-- What a path is apart from its links. -/
def SessionEntry.unlinked (entry : SessionEntry δ) : SessionEntry δ := { entry with parentId := none }

theorem latestCompaction_unlinked (path : List (SessionEntry δ)) :
    latestCompaction (path.map SessionEntry.unlinked) = (latestCompaction path).map SessionEntry.unlinked := by
  rw [latestCompaction, latestCompaction, List.filter_map, List.getLast?_map]
  rfl

theorem contextEntries_unlinked (path : List (SessionEntry δ)) :
    contextEntries (path.map SessionEntry.unlinked) = (contextEntries path).map SessionEntry.unlinked := by
  rw [contextEntries, contextEntries, latestCompaction_unlinked]
  cases latestCompaction path with
  | none => rfl
  | some compaction =>
    simp only [Option.map_some, List.map_append, List.map_cons, List.findIdx_map,
      ← List.map_take, ← List.map_drop, keptFrom, List.dropWhile_map]
    rfl

theorem pathContext_unlinked (path : List (SessionEntry δ)) :
    pathContext (path.map SessionEntry.unlinked) = pathContext path := by
  simp only [pathContext, contextEntries_unlinked, List.flatMap_map, getSessionContextSettings, List.foldl_map]
  rfl

section Split

variable {before after : List (SessionEntry δ)} {compaction : SessionEntry δ} {fields : CompactionFields}

/-- A path without a compaction, or cut at its latest one. -/
theorem compaction_cases (path : List (SessionEntry δ)) :
    (∀ e ∈ path, e.compaction? = none) ∨ ∃ before compaction fields after, path = before ++ compaction :: after ∧
        compaction.compaction? = some fields ∧ ∀ e ∈ after, e.compaction? = none := by
  induction path with
  | nil => exact .inl (by simp)
  | cons entry path ih =>
    rcases ih with hnone | ⟨before, compaction, fields, after, rfl, hfields, hafter⟩
    · cases hentry : entry.compaction? with
      | none => exact .inl (by simpa [hentry] using hnone)
      | some fields => exact .inr ⟨[], entry, fields, path, rfl, hentry, hnone⟩
    · exact .inr ⟨entry :: before, compaction, fields, after, rfl, hfields, hafter⟩

theorem filter_isCompaction_eq_nil {l : List (SessionEntry δ)}
    (h : ∀ e ∈ l, e.compaction? = none) : l.filter SessionEntry.isCompaction = [] :=
  List.filter_eq_nil_iff.mpr fun e he => by simp [SessionEntry.isCompaction, h e he]

theorem contextEntries_of_none (h : ∀ e ∈ path, e.compaction? = none) : contextEntries path = path := by
  rw [contextEntries, latestCompaction, filter_isCompaction_eq_nil h]
  rfl

theorem latestCompaction_split (hfields : compaction.compaction? = some fields)
    (hafter : ∀ e ∈ after, e.compaction? = none) :
    latestCompaction (before ++ compaction :: after) = some compaction := by
  rw [latestCompaction, List.filter_append, List.filter_cons_of_pos (by
    simp [SessionEntry.isCompaction, hfields]), filter_isCompaction_eq_nil hafter]
  simp

/-- **The context of a path with a compaction**: the compaction, what it keeps, what follows. -/
theorem contextEntries_split (hfields : compaction.compaction? = some fields)
    (hafter : ∀ e ∈ after, e.compaction? = none)
    (hid : ∀ e ∈ before, e.id ≠ compaction.id) :
    contextEntries (before ++ compaction :: after) =
      compaction :: keptFrom fields.firstKeptEntryId before ++ after := by
  have hidx : (before ++ compaction :: after).findIdx (fun e => e.id = compaction.id) =
      before.length := by
    rw [List.findIdx_append, List.findIdx_eq_length_of_false (by simpa using hid)]
    simp [List.findIdx_cons]
  rw [contextEntries, latestCompaction_split hfields hafter]
  simp only [hidx, hfields, Option.bind_some, List.take_left', List.cons_append]
  rw [List.drop_append, List.drop_eq_nil_of_le (Nat.le_succ _), Nat.add_sub_cancel_left]
  simp

end Split

theorem id_ne_of_nodup {before after : List (SessionEntry δ)}
    (hids : ((before ++ entry :: after).map SessionEntry.id).Nodup) : ∀ e ∈ before, e.id ≠ entry.id := by
  rw [List.map_append, List.nodup_append] at hids
  exact fun e he => hids.2.2 _ (List.mem_map_of_mem he) _ (by simp)

/-- What is kept from an entry on, in a path with distinct ids. -/
theorem keptFrom_getElem {i : Nat} {entry : SessionEntry δ} (hids : (path.map SessionEntry.id).Nodup)
    (hentry : path[i]? = some entry) : keptFrom entry.id path = path.drop i := by
  obtain ⟨before, after, rfl, rfl⟩ : ∃ before after, path = before ++ entry :: after ∧ before.length = i := by
    obtain ⟨hlt, rfl⟩ := List.getElem?_eq_some_iff.mp hentry
    exact ⟨path.take i, path.drop (i + 1), by simp, List.length_take_of_le (Nat.le_of_lt hlt)⟩
  rw [keptFrom, List.dropWhile_append_of_pos (by simpa using id_ne_of_nodup hids),
    List.dropWhile_cons_of_neg (by simp), List.drop_left]

theorem keptFrom_eq_nil {key : Option String} (h : ∀ e ∈ path, e.id ≠ key) : keptFrom key path = [] := by
  rw [keptFrom, List.dropWhile_eq_nil_iff]
  simpa using h

/-! ## Sessions -/

namespace SessionManager

/-- `buildSessionContext` at a leaf of the session. -/
def contextAt (core : Core δ) (leafId : LeafId) : Option (SessionContext δ) :=
  buildSessionContext (getEntries core.fileEntries) leafId core.byId

/-- The index has the entries of the session, by their ids. -/
def Indexed (core : Core δ) : Prop := core.byId = buildEntryIndex (getEntries core.fileEntries)

theorem foldl_indexEntry (entries : List (SessionEntry δ)) (core : Core δ) :
    (entries.foldl indexEntry core).fileEntries = core.fileEntries ∧ (entries.foldl indexEntry core).byId =
        entries.foldl (fun byId entry => byId.set entry.id entry) core.byId ∧
      (entries.foldl indexEntry core).leafId = (entries.getLast?.map fun entry => some entry.id).getD core.leafId := by
  induction entries generalizing core with
  | nil => exact ⟨rfl, rfl, rfl⟩
  | cons entry entries ih =>
    have hstep : (indexEntry core entry).fileEntries = core.fileEntries ∧
        (indexEntry core entry).byId = core.byId.set entry.id entry ∧
        (indexEntry core entry).leafId = some entry.id := by
      rw [indexEntry]
      split <;> exact ⟨rfl, rfl, rfl⟩
    obtain ⟨hfiles, hbyId, hleaf⟩ := ih (indexEntry core entry)
    rw [List.foldl_cons, List.foldl_cons]
    refine ⟨hfiles.trans hstep.1, by rw [hbyId, hstep.2.1], ?_⟩
    rw [hleaf, hstep.2.2, List.getLast?_cons]
    cases entries.getLast? <;> rfl

@[simp] theorem buildIndex_fileEntries (fileEntries : List (FileEntry δ)) :
    (_buildIndex fileEntries).fileEntries = fileEntries :=
  (foldl_indexEntry _ _).1

theorem buildIndex_byId (fileEntries : List (FileEntry δ)) :
    (_buildIndex fileEntries).byId = buildEntryIndex (getEntries fileEntries) :=
  (foldl_indexEntry _ _).2.1

theorem buildIndex_leafId (fileEntries : List (FileEntry δ)) :
    (_buildIndex fileEntries).leafId = (getEntries fileEntries).getLast?.map SessionEntry.id := by
  rw [_buildIndex, (foldl_indexEntry _ _).2.2]
  cases (getEntries fileEntries).getLast? <;> rfl

theorem indexed_buildIndex (fileEntries : List (FileEntry δ)) : Indexed (_buildIndex fileEntries) := by
  rw [Indexed, buildIndex_byId, buildIndex_fileEntries]

/-- The context of a loaded session is that of its entries. -/
theorem contextAt_congr {fileEntries fileEntries' : List (FileEntry δ)}
    (h : getEntries fileEntries = getEntries fileEntries') :
    contextAt (_buildIndex fileEntries) (_buildIndex fileEntries).leafId =
      contextAt (_buildIndex fileEntries') (_buildIndex fileEntries').leafId := by
  simp only [contextAt, buildIndex_fileEntries, buildIndex_byId, buildIndex_leafId, h]

theorem getEntries_session (header : SessionHeader) (entries : List (SessionEntry δ)) :
    getEntries (.session header :: entries.map .entry) = entries := by
  rw [getEntries, List.filterMap_cons_none rfl, List.filterMap_map]
  exact List.filterMap_some

/-- **The context of a session that is one chain** is the context of all its entries. -/
theorem contextAt_chained {fileEntries : List (FileEntry δ)} {entries : List (SessionEntry δ)}
    (hentries : getEntries fileEntries = entries) (hids : (entries.map SessionEntry.id).Nodup)
    (hchain : Chained none entries) :
    contextAt (_buildIndex fileEntries) (_buildIndex fileEntries).leafId = some (pathContext entries) := by
  rw [contextAt, buildIndex_fileEntries, buildIndex_byId, buildIndex_leafId, hentries]
  cases hlast : entries.getLast? with
  | none =>
    obtain rfl := List.getLast?_eq_none_iff.mp hlast
    rfl
  | some leaf =>
    have hstored : ∀ e ∈ entries, Stored (buildEntryIndex entries) e := fun e he =>
      (OrderedMap.get?_ofValues_eq_some hids).mpr ⟨he, rfl⟩
    have hleaf : leafEntry entries leaf.id (buildEntryIndex entries) = some leaf := by
      obtain ⟨init, rfl⟩ := List.getLast?_eq_some_iff.mp hlast
      obtain ⟨-, -, ⟨id, hid, hne⟩, -⟩ := chained_append.mp hchain
      have hget := hstored leaf (by simp)
      rw [Stored, hid] at hget
      rw [leafEntry, hid, follow_some hne, hget]
      rfl
    have hpath := rootPath_of_chained hids hstored hchain hlast
    rw [buildSessionContext, Option.map_some, buildSessionPath, hleaf,
      walk_of_path hpath (hstored leaf (List.mem_of_getLast? hlast)), Option.map_some,
      List.reverse_reverse]
    rfl

end SessionManager

end Mcpi.CodingAgent
