import Mcpi.Session.Jsonl.RepoFiles

/-!
# Runs of a repository

What every call of the repository keeps: each file is where its session belongs.
-/

namespace Mcpi.Session.Jsonl

variable {ν : Type} [JsonNumber ν] {repo : JsonlSessionRepo} {disk : Disk}

/-- What holds of a repository in any run. -/
structure Repository.Sound (root : String) (s : Repository ν) : Prop where
  disk : s.disk.Sound ν root
  sessions : ∀ storage ∈ s.sessions, storage.path ∈ s.disk.paths

/-- A call has left the file system sound, and gives a session that is there. -/
structure Opens {ε : Type} (root : String) (disk : Disk) (result : Except ε (JsonlSessionStorage ν) × Disk) :
    Prop where
  sound : result.2.Sound ν root
  paths : disk.paths ⊆ result.2.paths
  session : ∀ storage, result.1 = .ok storage → storage.path ∈ result.2.paths

theorem Repository.Sound.opened {ε : Type} {root : String} {s : Repository ν}
    {result : Except ε (JsonlSessionStorage ν) × Disk} (h : s.Sound root) (hopens : Opens root s.disk result) :
    (s.opened result).Sound root := by
  refine ⟨hopens.sound, ?_⟩
  obtain ⟨result, disk'⟩ := result
  cases result with
  | error error => exact fun storage hstorage => hopens.paths (h.sessions storage hstorage)
  | ok opened =>
    intro storage hstorage
    rcases List.mem_append.mp hstorage with hstorage | hstorage
    · exact hopens.paths (h.sessions storage hstorage)
    · rw [List.mem_singleton.mp hstorage]
      exact hopens.session opened rfl

theorem Disk.subset_paths_written (disk : Disk) (files : Files) (path : String) :
    disk.paths ⊆ (disk.written files path).paths := by
  rw [Disk.written]
  split
  · exact List.Subset.refl _
  · exact List.subset_append_left _ _

theorem Disk.mem_paths_written (disk : Disk) (files : Files) (path : String) :
    path ∈ (disk.written files path).paths := by
  rw [Disk.written]
  split
  · assumption
  · exact List.mem_append_right _ List.mem_cons_self

/-! ## Creating -/

theorem validateSessionId_ok {id : String} (h : validateSessionId id = .ok ()) :
    SESSION_ID_PATTERN id.toList = true := by
  rw [validateSessionId] at h
  split at h
  · assumption
  · cases h

omit [JsonNumber ν] in
theorem prepareCreate_ok {id cwd path : String} {options : CreateOptions ν} {now : SafeNat}
    {header : JsonlV4Header ν} {disk' : Disk}
    (h : prepareCreate repo disk id cwd options now = .ok (header, path, disk')) :
    sessionIdExists repo disk id cwd = false ∧ header.id = id ∧ header.cwd = cwd ∧ header.createdAt = now ∧
      path = sessionPath repo.root cwd now id ∧
      disk' = disk.createDir repo.root (sessionDirectory repo.root cwd) := by
  rw [prepareCreate] at h
  split at h
  · cases h
  next hexists =>
    cases h
    exact ⟨Bool.not_eq_true _ ▸ hexists, rfl, rfl, rfl, rfl, rfl⟩

theorem placed_createDir {id cwd : String} (hid : SESSION_ID_PATTERN id.toList = true) (createdAt : Nat) :
    Placed repo.root (disk.createDir repo.root (sessionDirectory repo.root cwd)).directories
      (sessionPath repo.root cwd createdAt id) := by
  refine ⟨cwd, createdAt, id, hid, rfl, ?_⟩
  rw [Disk.createDir]
  by_cases hmade : sessionDirectory repo.root cwd ∈ disk.directories
  · exact List.mem_append_right _ hmade
  · apply List.mem_append_left
    rw [List.mem_dedup, List.mem_filter]
    exact ⟨by simp, by simpa using hmade⟩

section Calls

variable [Zero ν]

theorem create_opens (h : disk.Sound ν repo.root) (options : CreateOptions ν) (uuid : String) (now : SafeNat) :
    Opens repo.root disk (repo.create disk options uuid now) := by
  rw [JsonlSessionRepo.create]
  split
  · exact ⟨h, List.Subset.refl _, nofun⟩
  next hvalid =>
    split
    · exact ⟨h, List.Subset.refl _, nofun⟩
    next header path disk' hprepare =>
      obtain ⟨-, hid, hcwd, hnow, rfl, rfl⟩ := prepareCreate_ok hprepare
      have hpattern := validateSessionId_ok hvalid
      refine ⟨(h.createDir _ _).written (fun p hp => Function.update_of_ne hp _ _) ?_
        (placed_createDir hpattern now), ?_, ?_⟩
      · intro bytes hbytes
        have hbytes := (Function.update_self _ _ _).symm.trans hbytes
        obtain rfl := Option.some.inj hbytes
        rw [← hid, ← hcwd, ← hnow, ← List.append_nil (Utf8.encode (encodeHeader header))]
        exact .session header [] (hid ▸ hpattern)
      · exact fun p hp => Disk.subset_paths_written (disk.createDir repo.root _) _ _ hp
      · rintro storage ⟨⟩
        exact Disk.mem_paths_written _ _ _

variable [Add ν]

theorem loadJsonlSessionStorage_keeps (h : disk.Sound ν repo.root) (metadata : JsonlSessionMetadata ν) :
    ∃ files, (loadJsonlSessionStorage disk metadata).2 = { disk with files } ∧
      LoadKeeps ν repo.root metadata.path disk.files files := by
  rw [loadJsonlSessionStorage]
  have hload := h.load metadata.path
  split
  · split
    next heq =>
      rw [heq] at hload
      exact ⟨_, rfl, hload⟩
    next heq =>
      rw [heq] at hload
      split
      · exact ⟨_, rfl, hload⟩
      · exact ⟨_, rfl, hload⟩
  · exact ⟨disk.files, rfl, LoadKeeps.refl (h.content _)⟩

theorem load_ok {files : Files} {path : String} {storage : JsonlSessionStorage ν}
    (h : (load files path).1 = .ok storage) : storage.path = path ∧ (files path).isSome := by
  rw [load] at h
  split at h
  · cases h
  next hfile =>
    refine ⟨?_, by rw [hfile]; rfl⟩
    rw [loadContent] at h
    split at h
    · cases h
    · cases h
    · split at h
      · cases h
      · split at h
        · cases h
        · cases h
          rfl
        · split at h <;> cases h <;> rfl

theorem open_opens (h : disk.Sound ν repo.root) (metadata : JsonlSessionMetadata ν) :
    Opens repo.root disk (loadJsonlSessionStorage disk metadata) := by
  obtain ⟨files, hdisk, hkeeps⟩ := loadJsonlSessionStorage_keeps h metadata
  refine ⟨hdisk ▸ h.keeps hkeeps, by rw [hdisk]; exact List.Subset.refl _, fun storage hok => ?_⟩
  rw [hdisk]
  rw [loadJsonlSessionStorage] at hok
  split at hok
  · split at hok
    · cases hok
    next storage' files' heq =>
      split at hok
      · cases hok
      · cases hok
        obtain ⟨hpath, hsome⟩ := load_ok (congrArg Prod.fst heq)
        rw [hpath]
        exact h.listed _ hsome
  · cases hok

theorem fork_keeps (storage : JsonlSessionStorage ν) {header : JsonlV4Header ν} (options : ForkOptions)
    (h : disk.Sound ν repo.root) (hid : SESSION_ID_PATTERN header.id.toList = true) {path : String}
    (hpath : path = sessionPath repo.root header.cwd header.createdAt header.id) :
    (∀ p, p ≠ path → (fork storage disk.files path header options).2 p = disk.files p) ∧
      ∀ bytes, (fork storage disk.files path header options).2 path = some bytes → Content ν repo.root path bytes := by
  have htmp := h.tmp_none path
  rw [fork]
  split
  · exact ⟨fun _ _ => rfl, h.content path⟩
  · split
    · have hsame : Function.update disk.files (path ++ ".tmp") none = disk.files := by
        rw [← htmp, Function.update_eq_self]
      rw [hsame]
      exact ⟨fun _ _ => rfl, h.content path⟩
    next mutations _ _ _ _ =>
      have hself := Files.publishFileAtomically_self disk.files path
        (Utf8.encode (encodeHeader header ++ mutations.flatMap encodeMutation))
      have hcontent : ∀ bytes, disk.files.publishFileAtomically path
          (Utf8.encode (encodeHeader header ++ mutations.flatMap encodeMutation)) path = some bytes →
          Content ν repo.root path bytes := by
        intro bytes hbytes
        obtain rfl := Option.some.inj (hself.symm.trans hbytes)
        rw [Utf8.encode_append, hpath]
        exact .session header _ hid
      have hkeeps := load_keeps (ν := ν) hcontent (Function.update_self _ _ _)
      exact ⟨fun p hp => (hkeeps.other p hp).trans (publishFileAtomically_other hp htmp _), hkeeps.content⟩

theorem fork_opens (h : disk.Sound ν repo.root) (source : JsonlSessionMetadata ν) (options : CreateOptions ν)
    (forkOptions : ForkOptions) (uuid : String) (now : SafeNat) :
    Opens repo.root disk (repo.fork disk source options forkOptions uuid now) := by
  obtain ⟨files, hdisk, hkeeps⟩ := loadJsonlSessionStorage_keeps h source
  rw [JsonlSessionRepo.fork]
  split
  next error disk' heq =>
    rw [heq] at hdisk
    obtain rfl : disk' = { disk with files } := hdisk
    exact ⟨h.keeps hkeeps, List.Subset.refl _, nofun⟩
  next sourceStorage disk' heq =>
    rw [heq] at hdisk
    obtain rfl : disk' = { disk with files } := hdisk
    have hloaded := h.keeps hkeeps
    dsimp only
    split
    · exact ⟨hloaded, List.Subset.refl _, nofun⟩
    next hvalid =>
      split
      · exact ⟨hloaded, List.Subset.refl _, nofun⟩
      next header path disk'' hprepare =>
        obtain ⟨-, hid, hcwd, hnow, hpath, rfl⟩ := prepareCreate_ok hprepare
        have hpattern := validateSessionId_ok hvalid
        have hmade := hloaded.createDir repo.root (sessionDirectory repo.root (repo.absolutePath options.cwd))
        have hplace : path = sessionPath repo.root header.cwd header.createdAt header.id := by
          rw [hpath, hid, hcwd, hnow]
        have hfork := fork_keeps sourceStorage forkOptions hmade (hid ▸ hpattern) hplace
        refine ⟨hmade.written hfork.1 hfork.2 (hpath ▸ placed_createDir hpattern now), ?_, ?_⟩
        · exact fun p hp => Disk.subset_paths_written (Disk.createDir _ repo.root _) _ _ hp
        intro storage hstorage
        have hresult : storage.path = path := by
          rw [fork] at hstorage
          split at hstorage
          · cases hstorage
          · split at hstorage
            · cases hstorage
            · exact (load_ok hstorage).1
        rw [hresult]
        exact Disk.mem_paths_written _ _ _

end Calls

/-! ## Writing -/

/-- A write puts a line at the end of a file, or makes the file with the line. -/
theorem appendFile_sound (h : disk.Sound ν repo.root) {path : String} (hpath : path ∈ disk.paths)
    (mutation : SessionMutation ν) :
    (disk.written (disk.files.appendFile path (Utf8.encode (encodeMutation mutation))) path).Sound ν repo.root := by
  have hplaced := h.placed path hpath
  refine h.written (fun p hp => Function.update_of_ne hp _ _) ?_ hplaced
  intro bytes hbytes
  have hbytes := (Function.update_self _ _ _).symm.trans hbytes
  obtain rfl := Option.some.inj hbytes
  cases hfile : disk.files path with
  | some old => exact (h.content path old hfile).append _
  | none =>
    obtain ⟨cwd, createdAt, id, hid, rfl, -⟩ := hplaced
    rw [Option.getD_none, List.nil_append, ← List.append_nil (Utf8.encode (encodeMutation mutation))]
    exact .leftover cwd createdAt id mutation [] hid

variable [Add ν]

theorem perform_files (storage : JsonlSessionStorage ν) (files : Files) (now : SafeNat) (op : Operation ν) :
    (perform storage files now .success op).2.1.path = storage.path ∧
      ((perform storage files now .success op).2.2 = files ∨ ∃ mutation : SessionMutation ν,
        (perform storage files now .success op).2.2 =
          files.appendFile storage.path (Utf8.encode (encodeMutation mutation))) := by
  rw [perform]
  split
  · exact ⟨rfl, .inl rfl⟩
  next mutation _ =>
    rw [commit]
    split
    · exact ⟨rfl, .inr ⟨mutation, rfl⟩⟩
    · exact ⟨rfl, .inr ⟨mutation, rfl⟩⟩

variable [Zero ν]

/-- **What each call keeps.** -/
theorem step_sound {s s' : Repository ν} {call : Call ν} (h : s.Sound repo.root)
    (hstep : step repo s call = some s') : s'.Sound repo.root := by
  cases call with
  | create options uuid now =>
    cases hstep
    exact h.opened (create_opens h.disk options uuid now)
  | fork source options forkOptions uuid now =>
    cases hstep
    exact h.opened (fork_opens h.disk source options forkOptions uuid now)
  | «open» metadata =>
    cases hstep
    exact h.opened (open_opens h.disk metadata)
  | delete metadata =>
    cases hstep
    exact ⟨h.disk.remove metadata.path, h.sessions⟩
  | write session now op =>
    rw [step] at hstep
    split at hstep
    · cases hstep
    next storage hsession =>
      obtain rfl : s' = ⟨s.disk.written (perform storage s.disk.files now .success op).2.2 storage.path,
        s.sessions.set session (perform storage s.disk.files now .success op).2.1⟩ :=
          (Option.some.inj hstep).symm
      have hpath := h.sessions storage (List.mem_of_getElem? hsession)
      obtain ⟨hsame, hfiles⟩ := perform_files storage s.disk.files now op
      refine ⟨?_, fun other hother => ?_⟩
      · rcases hfiles with hfiles | ⟨mutation, hfiles⟩
        · rw [hfiles]
          exact h.disk.written (fun _ _ => rfl) (h.disk.content storage.path) (h.disk.placed _ hpath)
        · rw [hfiles]
          exact appendFile_sound h.disk hpath mutation
      · apply Disk.subset_paths_written
        rcases List.mem_or_eq_of_mem_set hother with hother | rfl
        · exact h.sessions other hother
        · rw [hsame]
          exact hpath

/-- **What holds after any run.** -/
theorem run_sound {calls : List (Call ν)} {s : Repository ν}
    (h : Transition.run (step repo) Repository.initial calls = some s) : s.Sound repo.root := by
  have hinitial : (Repository.initial : Repository ν).Sound repo.root :=
    ⟨Disk.Sound.empty _, fun _ hstorage => absurd hstorage List.not_mem_nil⟩
  exact Transition.invariant (fun _ _ _ => step_sound) hinitial h

end Mcpi.Session.Jsonl
