import Mcpi.Session.Jsonl.SessionAddresses

/-!
# Sessions with names of their own

Listing by working directory, creating and forking with an id, opening and deleting concern the sessions of that
working directory and id, exactly where no other session has a directory of that name or an id with that end.
-/

namespace Mcpi.Session.Jsonl

variable {ν : Type} [JsonNumber ν] {repo : JsonlSessionRepo} {disk : Disk} {cwd id : String}

/-! ## When a destination is taken -/

/-- A call fails with a code. -/
def FailsWith {α : Type} (code : SessionErrorCode) (result : Except SessionError α) : Prop :=
  ∃ error, result = .error error ∧ error.code = code

def LoadFailsWith {α : Type} (code : SessionErrorCode) (result : Except LoadFailure α) : Prop :=
  ∃ error, result = .error (.session error) ∧ error.code = code

omit [JsonNumber ν] in
theorem prepareCreate_cases (repo : JsonlSessionRepo) (disk : Disk) (id cwd : String)
    (options : CreateOptions ν) (now : SafeNat) :
    (sessionIdExists repo disk id cwd = true ∧ prepareCreate repo disk id cwd options now = .error (alreadyExists id)) ∨
    (sessionIdExists repo disk id cwd = false ∧
      ∃ prepared, prepareCreate repo disk id cwd options now = .ok prepared) := by
  rw [prepareCreate]
  cases hexists : sessionIdExists repo disk id cwd with
  | true => exact .inl ⟨rfl, if_pos rfl⟩
  | false => exact .inr ⟨rfl, _, if_neg Bool.false_ne_true⟩

theorem validateSessionId_cases (id : String) :
    (SESSION_ID_PATTERN id.toList = true ∧ validateSessionId id = .ok ()) ∨
      (¬ SESSION_ID_PATTERN id.toList = true ∧ ∃ error, validateSessionId id = .error error ∧
        error.code = .invalid_payload) := by
  rw [validateSessionId]
  split
  next hid => exact .inl ⟨hid, rfl⟩
  next hid => exact .inr ⟨hid, _, rfl, rfl⟩

section Calls

variable [Zero ν]

variable {options : CreateOptions ν}

/-- Creating fails because something exists where the id is taken. -/
theorem create_fails_iff (h : disk.Sound ν repo.root) (uuid : String) (now : SafeNat)
    (hid : options.id = some id) : FailsWith .already_exists (repo.create disk options uuid now).1 ↔
      SESSION_ID_PATTERN id.toList = true ∧ IdTaken repo.root disk (repo.absolutePath options.cwd) id := by
  rw [JsonlSessionRepo.create, hid, Option.getD_some]
  rcases validateSessionId_cases id with ⟨hpattern, hvalid⟩ | ⟨hpattern, error, hvalid, hcode⟩
  · rw [hvalid]
    rcases prepareCreate_cases repo disk id (repo.absolutePath options.cwd) options now with
      ⟨hexists, hprepare⟩ | ⟨hexists, prepared, hprepare⟩
    · rw [hprepare]
      exact iff_of_true ⟨_, rfl, rfl⟩ ⟨hpattern, h.sessionIdExists_iff.mp hexists⟩
    · rw [hprepare]
      refine iff_of_false (by rintro ⟨error, ⟨⟩, -⟩) (fun hboth => ?_)
      rw [h.sessionIdExists_iff.mpr hboth.2] at hexists
      cases hexists
  · rw [hvalid]
    refine iff_of_false ?_ (fun hboth => hpattern hboth.1)
    rintro ⟨_, ⟨⟩, hexists⟩
    rw [hcode] at hexists
    cases hexists

/-- What is created is a session for the working directory, with the id. -/
theorem create_stored {uuid : String} {now : SafeNat} {storage : JsonlSessionStorage ν}
    (h : (repo.create disk options uuid now).1 = .ok storage) :
    Stored (repo.create disk options uuid now).2.files storage.path storage.header ∧
      storage.header.cwd = repo.absolutePath options.cwd ∧ storage.header.id = options.id.getD uuid ∧
      ∀ path, path ≠ storage.path → (repo.create disk options uuid now).2.files path = disk.files path := by
  rw [JsonlSessionRepo.create] at h ⊢
  revert h
  split
  · rintro ⟨⟩
  · split
    · rintro ⟨⟩
    next header path disk' hprepare =>
      obtain ⟨-, hid, hcwd, -, -, rfl⟩ := prepareCreate_ok hprepare
      rintro ⟨⟩
      have hfile : (disk.createDir repo.root
          (sessionDirectory repo.root (repo.absolutePath options.cwd))).files.writeFile path
          (Utf8.encode (encodeHeader header)) path = some (Utf8.encode (encodeHeader header) ++ []) := by
        rw [List.append_nil]
        exact Function.update_self _ _ _
      exact ⟨⟨_, readFirstLine_line (oneLine_headerLine header) hfile,
        parseHeader_headerLine header⟩, hcwd, hid, fun p hp => Function.update_of_ne hp _ _⟩

variable [Add ν]

theorem loadJsonlSessionStorage_isSome (h : disk.Sound ν repo.root) (metadata : JsonlSessionMetadata ν)
    (path : String) : ((loadJsonlSessionStorage disk metadata).2.files path).isSome = (disk.files path).isSome := by
  obtain ⟨files, hdisk, hkeeps⟩ := loadJsonlSessionStorage_keeps h metadata
  rw [hdisk]
  by_cases hpath : path = metadata.path
  · rw [hpath]
    exact hkeeps.present
  · exact congrArg Option.isSome (hkeeps.other path hpath)

/-- Forking a session that loads fails because something exists where the id is taken. -/
theorem fork_fails_iff (h : disk.Sound ν repo.root) {source : JsonlSessionMetadata ν}
    {storage : JsonlSessionStorage ν} (hsource : (loadJsonlSessionStorage disk source).1 = .ok storage)
    (forkOptions : ForkOptions) (uuid : String) (now : SafeNat) (hid : options.id = some id) :
    LoadFailsWith .already_exists (repo.fork disk source options forkOptions uuid now).1 ↔
      SESSION_ID_PATTERN id.toList = true ∧ IdTaken repo.root disk (repo.absolutePath options.cwd) id := by
  have hsame : IdTaken repo.root (loadJsonlSessionStorage disk source).2 (repo.absolutePath options.cwd) id ↔
      IdTaken repo.root disk (repo.absolutePath options.cwd) id := by
    rw [IdTaken, IdTaken]
    simp only [loadJsonlSessionStorage_isSome h source]
  rw [← hsame, JsonlSessionRepo.fork]
  have hloaded := (open_opens h source).sound
  generalize hresult : loadJsonlSessionStorage disk source = result at hsource hloaded
  obtain ⟨result, disk'⟩ := result
  obtain rfl : result = .ok storage := hsource
  dsimp only
  rw [hid, Option.getD_some]
  rcases validateSessionId_cases id with ⟨hpattern, hvalid⟩ | ⟨hpattern, error, hvalid, hcode⟩
  · rw [hvalid]
    rcases prepareCreate_cases repo disk' id (repo.absolutePath options.cwd)
        { options with id := some id, parentSessionId := options.parentSessionId.or (some source.header.id) } now with
      ⟨hexists, hprepare⟩ | ⟨hexists, ⟨header, path, disk''⟩, hprepare⟩
    · rw [hprepare]
      exact iff_of_true ⟨_, rfl, rfl⟩ ⟨hpattern, hloaded.sessionIdExists_iff.mp hexists⟩
    · rw [hprepare]
      refine iff_of_false ?_ (fun hboth => ?_)
      · rintro ⟨error, herror, hcode⟩
        exact fork_other herror error rfl hcode
      · rw [hloaded.sessionIdExists_iff.mpr hboth.2] at hexists
        cases hexists
  · rw [hvalid]
    refine iff_of_false ?_ (fun hboth => hpattern hboth.1)
    rintro ⟨_, ⟨⟩, hexists⟩
    rw [hcode] at hexists
    cases hexists

end Calls

/-! ## Sessions of their own -/

theorem stored_congr {files files' : Files} {path : String} {header : JsonlV4Header ν} (h : files' path = files path)
    (hstored : Stored files path header) : Stored files' path header := by
  obtain ⟨line, hread, hparse⟩ := hstored
  refine ⟨line, ?_, hparse⟩
  rw [Files.readFirstLine, h]
  exact hread

theorem stored_unique {files : Files} {path : String} {header header' : JsonlV4Header ν}
    (h : Stored files path header) (h' : Stored files path header') : header = header' := by
  obtain ⟨line, hread, hparse⟩ := h
  obtain ⟨line', hread', hparse'⟩ := h'
  obtain rfl := Option.some.inj (hread.symm.trans hread')
  exact Except.ok.inj (hparse.symm.trans hparse')

/-- The calls for a working directory and an id concern the sessions of that working directory and id. -/
structure Addressed (ν : Type) [JsonNumber ν] [Add ν] [Zero ν] (repo : JsonlSessionRepo) (disk : Disk)
    (cwd id : String) : Prop where
  list_exact : ∀ mtimeMs (metadata : JsonlSessionMetadata ν), metadata ∈ list repo disk mtimeMs (some cwd) ↔
    Stored disk.files metadata.path metadata.header ∧ metadata.header.cwd = repo.absolutePath cwd ∧
      metadata.modifiedAt = mtimeMs metadata.path
  list_once : ∀ mtimeMs, ((list repo disk mtimeMs (some cwd) : List (JsonlSessionMetadata ν)).map (·.path)).Nodup
  create_exact : ∀ (options : CreateOptions ν) uuid now, options.id = some id → options.cwd = cwd →
    (FailsWith .already_exists (repo.create disk options uuid now).1 ↔ HasSession ν disk (repo.absolutePath cwd) id)
  fork_exact : ∀ source (options : CreateOptions ν) forkOptions uuid now storage,
    (loadJsonlSessionStorage disk source).1 = .ok storage → options.id = some id → options.cwd = cwd →
    (LoadFailsWith .already_exists (repo.fork disk source options forkOptions uuid now).1 ↔
      HasSession ν disk (repo.absolutePath cwd) id)
  open_only : ∀ (metadata : JsonlSessionMetadata ν) path, path ≠ metadata.path →
    (loadJsonlSessionStorage disk metadata).2.files path = disk.files path
  open_stored : ∀ (metadata : JsonlSessionMetadata ν) path (header : JsonlV4Header ν),
    Stored disk.files path header → Stored (loadJsonlSessionStorage disk metadata).2.files path header
  delete_only : ∀ (metadata : JsonlSessionMetadata ν) path, path ≠ metadata.path →
    (disk.remove metadata.path).files path = disk.files path
  delete_itself : ∀ metadata : JsonlSessionMetadata ν, (disk.remove metadata.path).files metadata.path = none

/-- No session of another working directory has the directory of this one, and the id is taken by a session of this
working directory at most. -/
structure OwnNames (ν : Type) [JsonNumber ν] (repo : JsonlSessionRepo) (disk : Disk) (cwd id : String) : Prop where
  directory : ∀ path (header : JsonlV4Header ν), Stored disk.files path header →
    jsonlSessionDirectoryName header.cwd = jsonlSessionDirectoryName (repo.absolutePath cwd) →
    header.cwd = repo.absolutePath cwd
  id : SESSION_ID_PATTERN id.toList = true → IdTaken repo.root disk (repo.absolutePath cwd) id →
    HasSession ν disk (repo.absolutePath cwd) id

section Addressed

/-- A listing is exact where no other working directory has that directory. -/
theorem list_exact_iff (h : disk.Sound ν repo.root) :
    (∀ mtimeMs (metadata : JsonlSessionMetadata ν), metadata ∈ list repo disk mtimeMs (some cwd) ↔
      Stored disk.files metadata.path metadata.header ∧ metadata.header.cwd = repo.absolutePath cwd ∧
        metadata.modifiedAt = mtimeMs metadata.path) ↔
    ∀ path (header : JsonlV4Header ν), Stored disk.files path header →
      jsonlSessionDirectoryName header.cwd = jsonlSessionDirectoryName (repo.absolutePath cwd) →
      header.cwd = repo.absolutePath cwd := by
  constructor
  · intro hexact path header hstored hname
    have hlisted := (h.mem_list (fun _ => 0) ⟨header, path, 0⟩).mpr ⟨hstored, hname, rfl⟩
    exact ((hexact _ _).mp hlisted).2.1
  · intro hdirectory mtimeMs metadata
    rw [h.mem_list]
    apply and_congr_right
    intro hstored
    apply and_congr_left
    intro _
    constructor
    · exact hdirectory metadata.path metadata.header hstored
    · exact fun hcwd => congrArg jsonlSessionDirectoryName hcwd

/-- Failing where the id is taken is failing where there is the session, unless the id is taken by others. -/
theorem taken_iff_hasSession (h : disk.Sound ν repo.root) :
    (SESSION_ID_PATTERN id.toList = true ∧ IdTaken repo.root disk cwd id ↔ HasSession ν disk cwd id) ↔
      (SESSION_ID_PATTERN id.toList = true → IdTaken repo.root disk cwd id → HasSession ν disk cwd id) := by
  constructor
  · exact fun hiff hid htaken => hiff.mp ⟨hid, htaken⟩
  · refine fun htaken => ⟨fun hboth => htaken hboth.1 hboth.2, fun hsession => ?_⟩
    have hboth := h.idTaken_of_hasSession hsession
    exact ⟨hboth.2, hboth.1⟩

variable [Add ν] [Zero ν]

theorem addressed_of_ownNames (h : disk.Sound ν repo.root) (hown : OwnNames ν repo disk cwd id) :
    Addressed ν repo disk cwd id where
  list_exact := (list_exact_iff h).mpr hown.directory
  list_once := fun mtimeMs => h.list_nodup mtimeMs
  create_exact := by
    rintro options uuid now hid rfl
    exact (create_fails_iff h uuid now hid).trans ((taken_iff_hasSession h).mpr hown.id)
  fork_exact := by
    rintro source options forkOptions uuid now storage hsource hid rfl
    exact (fork_fails_iff h hsource forkOptions uuid now hid).trans ((taken_iff_hasSession h).mpr hown.id)
  open_only := by
    intro metadata path hpath
    obtain ⟨files, hdisk, hkeeps⟩ := loadJsonlSessionStorage_keeps h metadata
    rw [hdisk]
    exact hkeeps.other path hpath
  open_stored := by
    intro metadata path header hstored
    obtain ⟨files, hdisk, hkeeps⟩ := loadJsonlSessionStorage_keeps h metadata
    rw [hdisk]
    by_cases hpath : path = metadata.path
    · subst hpath
      exact hkeeps.stored header hstored
    · exact stored_congr (hkeeps.other path hpath) hstored
  delete_only := fun metadata path hpath => Function.update_of_ne hpath _ _
  delete_itself := fun metadata => Function.update_self _ _ _

theorem ownNames_of_addressed (h : disk.Sound ν repo.root) (haddressed : Addressed ν repo disk cwd id) :
    OwnNames ν repo disk cwd id where
  directory := (list_exact_iff h).mp haddressed.list_exact
  id := by
    have hexact := haddressed.create_exact ⟨some id, cwd, none, none⟩ "" ⟨0, Nat.zero_le _⟩ rfl rfl
    rw [create_fails_iff h "" ⟨0, Nat.zero_le _⟩ rfl] at hexact
    exact (taken_iff_hasSession h).mp hexact

/-- **When sessions are addressed by their working directory and id**, after any run of a repository. -/
theorem addressed_iff_ownNames (repo : JsonlSessionRepo) (calls : List (Call ν)) (s : Repository ν)
    (h : Transition.run (step repo) Repository.initial calls = some s) (cwd id : String) :
    Addressed ν repo s.disk cwd id ↔ OwnNames ν repo s.disk cwd id :=
  ⟨ownNames_of_addressed (run_sound h).disk, addressed_of_ownNames (run_sound h).disk⟩

end Addressed

/-! ## Two working directories with one directory -/

/-- A repository where paths are absolute as they are written. -/
def absoluteRepo : JsonlSessionRepo := ⟨"/sessions", fun path => path⟩

/-- A session `a` for `/a/b`. -/
def nestedSession : CreateOptions Int := ⟨some "a", "/a/b", none, none⟩

def afterNested : Repository Int :=
  Repository.initial.opened (absoluteRepo.create Disk.empty nestedSession "" ⟨0, Nat.zero_le _⟩)

theorem run_nested : Transition.run (step absoluteRepo) Repository.initial
    [.create nestedSession "" ⟨0, Nat.zero_le _⟩] = some afterNested := rfl

theorem nested_stored : ∃ path header, Stored (ν := Int) afterNested.disk.files path header ∧
    header.cwd = "/a/b" ∧ header.id = "a" ∧ ∀ p, p ≠ path → afterNested.disk.files p = none := by
  obtain ⟨storage, hcreate⟩ : ∃ storage,
      (absoluteRepo.create Disk.empty nestedSession "" ⟨0, Nat.zero_le _⟩).1 = .ok storage := ⟨_, rfl⟩
  obtain ⟨hstored, hcwd, hid, hother⟩ := create_stored hcreate
  exact ⟨storage.path, storage.header, hstored, hcwd, hid, hother⟩

/-- One session has names of its own. -/
theorem addressed_nested : Addressed Int absoluteRepo afterNested.disk "/a/b" "a" := by
  apply (addressed_iff_ownNames absoluteRepo _ afterNested run_nested "/a/b" "a").mpr
  obtain ⟨path, header, hstored, hcwd, hid, hother⟩ := nested_stored
  refine ⟨fun path' header' hstored' _ => ?_, fun _ _ => ⟨path, header, hstored, hid, hcwd⟩⟩
  have hpath : path' = path := by
    by_contra hne
    obtain ⟨line, hread, -⟩ := hstored'
    rw [Files.readFirstLine, hother path' hne] at hread
    cases hread
  subst hpath
  rw [stored_unique hstored' hstored]
  exact hcwd

/-- The directory of `/a/b` is that of `/a-b`. -/
theorem nested_listed_elsewhere :
    ¬ ∀ (repo : JsonlSessionRepo) (calls : List (Call Int)) (s : Repository Int),
      Transition.run (step repo) Repository.initial calls = some s → ∀ cwd id, Addressed Int repo s.disk cwd id := by
  intro hall
  have haddressed := hall absoluteRepo _ afterNested run_nested "/a-b" "a"
  obtain ⟨path, header, hstored, hcwd, -, -⟩ := nested_stored
  have hsame : jsonlSessionDirectoryName "/a/b" = jsonlSessionDirectoryName "/a-b" := by decide +kernel
  have helsewhere := (ownNames_of_addressed (run_sound run_nested).disk haddressed).directory path header hstored
    (by rw [hcwd]; exact hsame)
  rw [hcwd] at helsewhere
  revert helsewhere
  show "/a/b" ≠ "/a-b"
  decide

end Mcpi.Session.Jsonl
