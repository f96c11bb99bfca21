import Mcpi.Session.Jsonl.RepoRuns

/-!
# Which sessions a working directory and an id address

A listing shows the sessions whose directory is called like that of the working directory, and an id is taken where
the name of a file in that directory ends with it. So sessions are addressed by their own working directory and id
exactly where no other session shares the name of the directory or the end of the id.
-/

namespace Mcpi.Session.Jsonl

variable {ν : Type} [JsonNumber ν] {repo : JsonlSessionRepo} {disk : Disk} {cwd id : String}

/-- A session with this id has been created for a resolved working directory. -/
def HasSession (ν : Type) [JsonNumber ν] (disk : Disk) (cwd id : String) : Prop :=
  ∃ (path : String) (header : JsonlV4Header ν), Stored disk.files path header ∧ header.id = id ∧ header.cwd = cwd

/-- A file in the directory of a resolved working directory has the name of a session whose id is this one or ends
with it, after an underscore. -/
def IdTaken (root : String) (disk : Disk) (cwd id : String) : Prop :=
  ∃ cwd' createdAt id', SESSION_ID_PATTERN id'.toList = true ∧
    (disk.files (sessionPath root cwd' createdAt id')).isSome ∧
    jsonlSessionDirectoryName cwd' = jsonlSessionDirectoryName cwd ∧ (id' = id ∨ '_' :: id.toList <:+ id'.toList)

namespace Disk.Sound

variable {root : String}

theorem stored_path (h : disk.Sound ν root) {path : String} {header : JsonlV4Header ν}
    (hstored : Stored disk.files path header) : (disk.files path).isSome ∧
      path = sessionPath root header.cwd header.createdAt header.id ∧
      SESSION_ID_PATTERN header.id.toList = true := by
  obtain ⟨rest, hfile, hpath, hid⟩ := (stored_iff (h.content path)).mp hstored
  exact ⟨by rw [hfile]; rfl, hpath, hid⟩

theorem directory_mem (h : disk.Sound ν root) {createdAt : Nat} (hid : SESSION_ID_PATTERN id.toList = true)
    (hfile : (disk.files (sessionPath root cwd createdAt id)).isSome) :
    sessionDirectory root cwd ∈ disk.directories := by
  obtain ⟨cwd', createdAt', id', hid', hpath, hdirectory⟩ := h.placed _ (h.listed _ hfile)
  rw [sessionDirectory, (sessionPath_inj hid hid' hpath).1]
  exact hdirectory

/-- The files that `listDir` shows in the directory of a working directory. -/
theorem mem_listDir (h : disk.Sound ν root) {entry : DirEntry} (hkind : entry.kind ≠ .directory) :
    entry ∈ disk.listDir (sessionDirectory root cwd) ↔ ∃ cwd' createdAt id', SESSION_ID_PATTERN id'.toList = true ∧
      (disk.files (sessionPath root cwd' createdAt id')).isSome ∧
      jsonlSessionDirectoryName cwd' = jsonlSessionDirectoryName cwd ∧
      entry = ⟨sessionFileName createdAt id', sessionPath root cwd' createdAt id', .file⟩ := by
  rw [listDir, List.mem_append, List.mem_filterMap]
  constructor
  · rintro (⟨path, hlisted, hentry⟩ | hdirectory)
    · split at hentry
      next hsome =>
        obtain ⟨cwd', createdAt, id', hid, rfl, -⟩ := h.placed path hlisted
        obtain ⟨name, hname, rfl⟩ := Option.map_eq_some_iff.mp hentry
        obtain ⟨hdirectory, rfl⟩ := (entryName_sessionPath hid).mp hname
        exact ⟨cwd', createdAt, id', hid, hsome, hdirectory, rfl⟩
      · cases hentry
    · obtain ⟨path, -, hentry⟩ := List.mem_filterMap.mp hdirectory
      obtain ⟨name, -, rfl⟩ := Option.map_eq_some_iff.mp hentry
      exact absurd rfl hkind
  · rintro ⟨cwd', createdAt, id', hid, hsome, hdirectory, rfl⟩
    refine .inl ⟨_, h.listed _ hsome, ?_⟩
    rw [if_pos hsome, (entryName_sessionPath hid).mpr ⟨hdirectory, rfl⟩]
    rfl

/-- An id counts as existing where a file name ends with it. -/
theorem sessionIdExists_iff (h : disk.Sound ν repo.root) :
    sessionIdExists repo disk id cwd = true ↔ IdTaken repo.root disk cwd id := by
  rw [sessionIdExists]
  constructor
  · intro hexists
    split at hexists
    · obtain ⟨entry, hentry, hname⟩ := List.any_eq_true.mp hexists
      rw [Bool.and_eq_true, decide_eq_true_eq, decide_eq_true_eq] at hname
      obtain ⟨cwd', createdAt, id', hid, hsome, hdirectory, rfl⟩ := (h.mem_listDir hname.1).mp hentry
      exact ⟨cwd', createdAt, id', hid, hsome, hdirectory, (endsWith_sessionFileName_iff createdAt id id').mp hname.2⟩
    · cases hexists
  · rintro ⟨cwd', createdAt, id', hid, hsome, hdirectory, hends⟩
    have hmade : disk.exists (sessionDirectory repo.root cwd) = true := by
      have hmem := h.directory_mem hid hsome
      rw [sessionDirectory, hdirectory] at hmem
      rw [Disk.exists, Bool.or_eq_true, decide_eq_true_eq]
      exact .inr hmem
    rw [if_pos hmade, List.any_eq_true]
    refine ⟨_, (h.mem_listDir (by rintro ⟨⟩)).mpr ⟨cwd', createdAt, id', hid, hsome, hdirectory, rfl⟩, ?_⟩
    rw [Bool.and_eq_true, decide_eq_true_eq, decide_eq_true_eq]
    exact ⟨by rintro ⟨⟩, (endsWith_sessionFileName_iff createdAt id id').mpr hends⟩

theorem idTaken_of_hasSession (h : disk.Sound ν root) (hsession : HasSession ν disk cwd id) :
    IdTaken root disk cwd id ∧ SESSION_ID_PATTERN id.toList = true := by
  obtain ⟨path, header, hstored, rfl, rfl⟩ := hsession
  obtain ⟨hsome, rfl, hid⟩ := h.stored_path hstored
  exact ⟨⟨_, _, _, hid, hsome, rfl, .inl rfl⟩, hid⟩

/-! ## Listing -/

theorem readMetadata_eq_some {mtimeMs : String → Nat} {file : DirEntry} {metadata : JsonlSessionMetadata ν} :
    readMetadata disk mtimeMs file = some metadata ↔ Stored disk.files file.path metadata.header ∧
      metadata.path = file.path ∧ metadata.modifiedAt = mtimeMs file.path := by
  rw [readMetadata]
  constructor
  · intro h
    split at h
    · cases h
    · cases h
    next firstLine _ hread =>
      split at h
      · cases h
      next header hparse =>
        cases h
        exact ⟨⟨firstLine, hread, hparse⟩, rfl, rfl⟩
  · cases metadata with
    | mk header path modifiedAt =>
      rintro ⟨⟨line, hread, hparse⟩, rfl, rfl⟩
      rw [hread]
      cases line with
      | nil => cases hparse
      | cons c line =>
        dsimp only
        rw [hparse]

theorem exists_sessionDirectory (h : disk.Sound ν root) {createdAt : Nat}
    (hid : SESSION_ID_PATTERN id.toList = true) (hfile : (disk.files (sessionPath root cwd createdAt id)).isSome) :
    disk.exists (sessionDirectory root cwd) = true := by
  rw [Disk.exists, Bool.or_eq_true, decide_eq_true_eq]
  exact .inr (h.directory_mem hid hfile)

/-- A listing shows the sessions whose directories are called the same. -/
theorem mem_list (h : disk.Sound ν repo.root) (mtimeMs : String → Nat) (metadata : JsonlSessionMetadata ν) :
    metadata ∈ list repo disk mtimeMs (some cwd) ↔ Stored disk.files metadata.path metadata.header ∧
      jsonlSessionDirectoryName metadata.header.cwd = jsonlSessionDirectoryName (repo.absolutePath cwd) ∧
      metadata.modifiedAt = mtimeMs metadata.path := by
  rw [list, List.mem_mergeSort, List.mem_flatMap]
  constructor
  · rintro ⟨directory, hdirectory, hmem⟩
    have hdirectory : directory = sessionDirectory repo.root (repo.absolutePath cwd) := by
      rw [jsonlSessionDirectories] at hdirectory
      split at hdirectory
      · exact List.mem_singleton.mp hdirectory
      · cases hdirectory
    subst hdirectory
    obtain ⟨entry, hentry, hread⟩ := List.mem_filterMap.mp hmem
    obtain ⟨hentry, hfile⟩ := List.mem_filter.mp hentry
    rw [isSessionFile, Bool.and_eq_true, decide_eq_true_eq] at hfile
    obtain ⟨cwd', createdAt, id', hid, -, hname, rfl⟩ := (h.mem_listDir hfile.1).mp hentry
    obtain ⟨hstored, hpath, hmodified⟩ := readMetadata_eq_some.mp hread
    obtain ⟨-, hplace, hid'⟩ := h.stored_path hstored
    rw [hpath]
    exact ⟨hstored, (sessionPath_inj hid hid' hplace).1.symm.trans hname, hmodified⟩
  · rintro ⟨hstored, hname, hmodified⟩
    obtain ⟨hsome, hpath, hid⟩ := h.stored_path hstored
    have hmade := h.exists_sessionDirectory hid (hpath ▸ hsome)
    rw [sessionDirectory, hname] at hmade
    refine ⟨sessionDirectory repo.root (repo.absolutePath cwd), ?_, ?_⟩
    · rw [jsonlSessionDirectories]
      rw [sessionDirectory, if_pos hmade]
      exact List.mem_singleton_self _
    · rw [List.mem_filterMap]
      refine ⟨⟨sessionFileName metadata.header.createdAt metadata.header.id, metadata.path, .file⟩, ?_,
        readMetadata_eq_some.mpr ⟨hstored, rfl, hmodified⟩⟩
      rw [List.mem_filter]
      refine ⟨(h.mem_listDir (by rintro ⟨⟩)).mpr ⟨_, _, _, hid, hpath ▸ hsome, hname, by rw [← hpath]⟩, ?_⟩
      rw [isSessionFile, Bool.and_eq_true, decide_eq_true_eq, decide_eq_true_eq, toList_sessionFileName]
      exact ⟨by rintro ⟨⟩, List.suffix_append _ _⟩

theorem filterMap_map_sublist {α β γ : Type} {f : α → Option β} {g : β → γ} {h : α → γ}
    (hsame : ∀ a b, f a = some b → g b = h a) (items : List α) :
    ((items.filterMap f).map g).Sublist (items.map h) := by
  induction items with
  | nil => exact List.Sublist.slnil
  | cons a items ih =>
    cases hf : f a with
    | none =>
      rw [List.filterMap_cons_none hf]
      exact ih.cons _
    | some b =>
      rw [List.filterMap_cons_some hf, List.map_cons, List.map_cons, hsame a b hf]
      exact ih.cons_cons _

theorem list_nodup (h : disk.Sound ν root) (mtimeMs : String → Nat) :
    ((list repo disk mtimeMs (some cwd) : List (JsonlSessionMetadata ν)).map (·.path)).Nodup := by
  have hdirectory : ∀ directory : String, ((((disk.listDir directory).filter isSessionFile).filterMap
      (readMetadata (ν := ν) disk mtimeMs)).map (·.path)).Sublist disk.paths := by
    intro directory
    have hread := filterMap_map_sublist (f := readMetadata (ν := ν) disk mtimeMs) (g := (·.path))
      (h := (DirEntry.path ·)) (fun entry metadata hread => (readMetadata_eq_some.mp hread).2.1)
      ((disk.listDir directory).filter isSessionFile)
    have hfiles : (((disk.listDir directory).filter isSessionFile).map (DirEntry.path ·)).Sublist disk.paths := by
      have hnone : ((disk.directories.filterMap fun path =>
          (entryName directory path).map (⟨·, path, FileKind.directory⟩)).filter isSessionFile) = [] := by
        rw [List.filter_eq_nil_iff]
        intro entry hentry
        obtain ⟨path, -, hname⟩ := List.mem_filterMap.mp hentry
        obtain ⟨name, -, rfl⟩ := Option.map_eq_some_iff.mp hname
        exact Bool.false_ne_true
      rw [Disk.listDir, List.filter_append, hnone, List.append_nil]
      refine (List.filter_sublist.map _).trans ?_
      have hpaths := filterMap_map_sublist (h := id) (g := DirEntry.path) (f := fun path =>
        if (disk.files path).isSome then (entryName directory path).map (⟨·, path, FileKind.file⟩) else none)
        (fun path entry hentry => ?_) disk.paths
      · rw [List.map_id] at hpaths
        exact hpaths
      · split at hentry
        · obtain ⟨name, -, rfl⟩ := Option.map_eq_some_iff.mp hentry
          rfl
        · cases hentry
    exact hread.trans hfiles
  rw [list]
  have hperm := List.mergeSort_perm ((jsonlSessionDirectories repo disk (some cwd)).flatMap fun directory =>
    ((disk.listDir directory).filter isSessionFile).filterMap (readMetadata (ν := ν) disk mtimeMs))
      (fun left right => right.modifiedAt ≤ left.modifiedAt)
  rw [(hperm.map _).nodup_iff, jsonlSessionDirectories]
  split
  · rw [List.flatMap_singleton]
    exact (hdirectory _).nodup h.once
  · exact List.nodup_nil

end Disk.Sound

end Mcpi.Session.Jsonl
