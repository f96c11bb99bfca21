import Mcpi.Session.Jsonl.Recovery
import Mcpi.Session.Jsonl.RepoErrors

/-!
# What the files of a repository begin with

Each file of the repository is where the session of its header belongs, and begins with that header, unless it was
written after its session had been deleted. Loading a file and publishing one keep that.
-/

namespace Mcpi.Session.Jsonl

variable {ν : Type} [JsonNumber ν]

/-- A session on disk: the header that a file begins with. -/
def Stored (files : Files) (path : String) (header : JsonlV4Header ν) : Prop :=
  ∃ line, files.readFirstLine path = some line ∧ parseHeader line = .ok header

/-! ## What files begin with -/

/-- What is in the file at a path: a session, or what was written after it had been deleted. -/
inductive Content (ν : Type) [JsonNumber ν] (root : String) : String → List UInt8 → Prop
  | session (header : JsonlV4Header ν) (rest : List UInt8) : SESSION_ID_PATTERN header.id.toList = true →
      Content ν root (sessionPath root header.cwd header.createdAt header.id)
        (Utf8.encode (encodeHeader header) ++ rest)
  | leftover (cwd : String) (createdAt : Nat) (id : String) (mutation : SessionMutation ν) (rest : List UInt8) :
      SESSION_ID_PATTERN id.toList = true →
      Content ν root (sessionPath root cwd createdAt id) (Utf8.encode (encodeMutation mutation) ++ rest)

variable {root path : String} {bytes rest : List UInt8} {files : Files} {header : JsonlV4Header ν}

theorem Content.placed (h : Content ν root path bytes) :
    ∃ cwd createdAt id, SESSION_ID_PATTERN id.toList = true ∧ path = sessionPath root cwd createdAt id := by
  cases h with
  | session header rest hid => exact ⟨_, _, _, hid, rfl⟩
  | leftover cwd createdAt id mutation rest hid => exact ⟨_, _, _, hid, rfl⟩

theorem Content.append (h : Content ν root path bytes) (more : List UInt8) : Content ν root path (bytes ++ more) := by
  cases h with
  | session header rest hid =>
    rw [List.append_assoc]
    exact .session header (rest ++ more) hid
  | leftover cwd createdAt id mutation rest hid =>
    rw [List.append_assoc]
    exact .leftover cwd createdAt id mutation (rest ++ more) hid

theorem readFirstLine_line {line : List Char} (hline : LineBreaks.OneLine line)
    (h : files path = some (Utf8.encode (line ++ ['\n']) ++ rest)) : files.readFirstLine path = some line := by
  have htext : Utf8.decode (Utf8.encode (line ++ ['\n']) ++ rest) = line ++ '\n' :: Utf8.decode rest := by
    rw [Utf8.decode_encode_append, List.append_assoc]
    rfl
  rw [Files.readFirstLine, h]
  dsimp only
  rw [htext, LineBreaks.splitLines_line hline, LineBreaks.splitLines_lf]
  dsimp only
  rw [List.append_nil]

theorem oneLine_headerLine (header : JsonlV4Header ν) : LineBreaks.OneLine (headerLine header) :=
  ⟨Json.lineBreak_not_mem_stringify (.inl rfl) _, Json.lineBreak_not_mem_stringify (.inr rfl) _⟩

theorem oneLine_mutationLine (mutation : SessionMutation ν) : LineBreaks.OneLine (mutationLine mutation) :=
  ⟨Json.lineBreak_not_mem_stringify (.inl rfl) _, Json.lineBreak_not_mem_stringify (.inr rfl) _⟩

theorem parseHeader_mutationLine (mutation : SessionMutation ν) : parseHeader (mutationLine mutation) ≠ .ok header := by
  intro h
  have hkind : (Json.member? "kind" (mutationMembers mutation)).bind Json.str? ≠ some "header" := by
    rw [(member?_mutationMembers mutation).2]
    cases mutation <;> simp
  rw [parseHeader, decodeHeader, mutationLine, parseObject_stringify] at h
  simp only [bind, Except.bind, check, hkind, decide_false, Bool.false_eq_true, if_false, schemaError] at h
  cases h

/-- A file that begins with a header is that session, where it belongs. -/
theorem stored_iff (h : ∀ bytes, files path = some bytes → Content ν root path bytes) :
    Stored files path header ↔ ∃ rest, files path = some (Utf8.encode (encodeHeader header) ++ rest) ∧
      path = sessionPath root header.cwd header.createdAt header.id ∧
      SESSION_ID_PATTERN header.id.toList = true := by
  constructor
  · rintro ⟨line, hread, hparse⟩
    cases hfile : files path with
    | none =>
      rw [Files.readFirstLine, hfile] at hread
      cases hread
    | some bytes =>
      cases h bytes hfile with
      | session header' rest hid =>
        have hfirst := readFirstLine_line (oneLine_headerLine header') hfile
        obtain rfl := Option.some.inj (hread.symm.trans hfirst)
        rw [parseHeader_headerLine] at hparse
        obtain rfl := Except.ok.inj hparse
        exact ⟨rest, rfl, rfl, hid⟩
      | leftover cwd createdAt id mutation rest hid =>
        have hfirst := readFirstLine_line (oneLine_mutationLine mutation) hfile
        obtain rfl := Option.some.inj (hread.symm.trans hfirst)
        exact absurd hparse (parseHeader_mutationLine mutation)
  · rintro ⟨rest, hfile, -, -⟩
    exact ⟨_, readFirstLine_line (oneLine_headerLine header) hfile, parseHeader_headerLine header⟩

/-! ## Loading -/

/-- Loading a file keeps what it begins with, and any other file. -/
structure LoadKeeps (ν : Type) [JsonNumber ν] (root path : String) (files files' : Files) : Prop where
  other : ∀ p, p ≠ path → files' p = files p
  content : ∀ bytes, files' path = some bytes → Content ν root path bytes
  present : (files' path).isSome = (files path).isSome
  stored : ∀ header : JsonlV4Header ν, Stored files path header → Stored files' path header

section Load

theorem LoadKeeps.refl (h : ∀ bytes, files path = some bytes → Content ν root path bytes) :
    LoadKeeps ν root path files files := ⟨fun _ _ => rfl, h, rfl, fun _ hstored => hstored⟩

variable [Add ν]

/-- The lines that are kept of a torn file begin with the first. -/
theorem replay_before {path : String} {before lines valid : List (List Char)} {s state : SessionState ν}
    (h : replay path before s lines = .torn valid state) : ∃ more, valid = before ++ more := by
  fun_induction replay path before s lines with
  | case1 => cases h
  | case2 =>
    cases h
    exact ⟨[], (List.append_nil _).symm⟩
  | case3 => cases h
  | case4 before s line rest mutation _ s' _ ih =>
    obtain ⟨more, rfl⟩ := ih h
    exact ⟨line :: more, by rw [List.append_assoc, List.singleton_append]⟩
  | case5 => cases h
  | case6 => cases h

variable [Zero ν]

omit [Add ν] [Zero ν] in
theorem physicalLines_first {line : List Char} (h : '\n' ∉ line) (text : List Char) :
    ∃ lines, physicalLines (line ++ '\n' :: text) = line :: lines := by
  rw [physicalLines, List.splitOn_append_cons_self_of_not_mem h]
  split
  · cases hsplit : List.splitOn '\n' text with
    | nil => exact absurd hsplit (List.splitOn_ne_nil _ text)
    | cons first lines => exact ⟨_, rfl⟩
  · exact ⟨_, rfl⟩

omit [JsonNumber ν] [Add ν] [Zero ν] in
/-- Publishing a file changes that file only, where nothing is staged. -/
theorem publishFileAtomically_other {p : String} (hp : p ≠ path) (htmp : files (path ++ ".tmp") = none)
    (bytes : List UInt8) : files.publishFileAtomically path bytes p = files p := by
  rw [Files.publishFileAtomically, Files.renameFile, Files.writeFile]
  by_cases htmpPath : p = path ++ ".tmp"
  · rw [htmpPath, htmp, Function.update_self]
  · rw [Function.update_of_ne htmpPath, Function.update_of_ne hp, Function.update_of_ne htmpPath]

theorem load_keeps (h : ∀ bytes, files path = some bytes → Content ν root path bytes)
    (htmp : files (path ++ ".tmp") = none) :
    LoadKeeps ν root path files (load files path : Except LoadFailure (JsonlSessionStorage ν) × Files).2 := by
  rw [load]
  split
  · exact LoadKeeps.refl h
  next bytes hfile =>
    cases h bytes hfile with
    | leftover cwd createdAt id mutation rest hid =>
      obtain ⟨lines, hlines⟩ := physicalLines_first (newline_not_mem_mutationLine mutation) (Utf8.decode rest)
      have htext : Utf8.decode (Utf8.encode (encodeMutation mutation) ++ rest) =
          mutationLine mutation ++ '\n' :: Utf8.decode rest := by
        rw [Utf8.decode_encode_append, encodeMutation, List.append_assoc]
        rfl
      rw [htext, loadContent, hlines]
      split
      · exact LoadKeeps.refl h
      · exact LoadKeeps.refl h
      next first lines' _ heq =>
        obtain ⟨rfl, rfl⟩ := List.cons.inj heq
        split
        · exact LoadKeeps.refl h
        next hparse => exact absurd hparse (parseHeader_mutationLine mutation)
    | session header rest hid =>
      obtain ⟨lines, hlines⟩ := physicalLines_first (newline_not_mem_headerLine header) (Utf8.decode rest)
      have htext : Utf8.decode (Utf8.encode (encodeHeader header) ++ rest) =
          headerLine header ++ '\n' :: Utf8.decode rest := by
        rw [Utf8.decode_encode_append, encodeHeader, List.append_assoc]
        rfl
      -- what is written begins with the same header
      have hwritten : ∀ files' : Files, (∀ p, p ≠ sessionPath root header.cwd header.createdAt header.id →
          files' p = files p) → ∀ rest', files' (sessionPath root header.cwd header.createdAt header.id) =
            some (Utf8.encode (encodeHeader header) ++ rest') →
          LoadKeeps ν root (sessionPath root header.cwd header.createdAt header.id) files files' := by
        intro files' hother rest' hfile'
        refine ⟨hother, ?_, by rw [hfile', hfile]; rfl, ?_⟩
        · intro bytes hbytes
          obtain rfl := Option.some.inj (hfile'.symm.trans hbytes)
          exact .session header rest' hid
        · rintro header' ⟨line, hread, hparse⟩
          have hfirst := readFirstLine_line (oneLine_headerLine header) hfile
          obtain rfl := Option.some.inj (hread.symm.trans hfirst)
          exact ⟨_, readFirstLine_line (oneLine_headerLine header) hfile', hparse⟩
      rw [htext, loadContent_eq hlines]
      split
      · exact LoadKeeps.refl h
      next valid state hreplay =>
        obtain ⟨more, rfl⟩ := replay_before hreplay
        have hbytes : Utf8.encode (List.intercalate ['\n'] ([headerLine header] ++ more) ++ ['\n']) =
            Utf8.encode (encodeHeader header) ++ Utf8.encode (Lines.terminated more) := by
          rw [List.singleton_append, Lines.join_newline (List.cons_ne_nil _ _), ← Utf8.encode_append,
            encodeHeader, List.append_assoc, Lines.terminated_cons, List.singleton_append]
        exact hwritten _ (fun p hp => publishFileAtomically_other hp htmp _) _
          ((Files.publishFileAtomically_self _ _ _).trans (congrArg some hbytes))
      · split
        · exact LoadKeeps.refl h
        · refine hwritten _ (fun p hp => Function.update_of_ne hp _ _) (rest ++ Utf8.encode ['\n']) ?_
          exact (Files.appendFile_self hfile _).trans (congrArg some (List.append_assoc _ _ _))

end Load

/-! ## Repositories -/

/-- A path of a session, in a directory that has been made. -/
def Placed (root : String) (directories : List String) (path : String) : Prop :=
  ∃ cwd createdAt id, SESSION_ID_PATTERN id.toList = true ∧ path = sessionPath root cwd createdAt id ∧
    sessionDirectory root cwd ∈ directories

/-- What holds of the file system in any run. -/
structure Disk.Sound (ν : Type) [JsonNumber ν] (root : String) (disk : Disk) : Prop where
  content : ∀ path bytes, disk.files path = some bytes → Content ν root path bytes
  listed : ∀ path, (disk.files path).isSome → path ∈ disk.paths
  placed : ∀ path ∈ disk.paths, Placed root disk.directories path
  once : disk.paths.Nodup

variable {disk : Disk} {directories : List String}

theorem Placed.mono {directories' : List String} (h : Placed root directories path)
    (hsubset : directories ⊆ directories') : Placed root directories' path := by
  obtain ⟨cwd, createdAt, id, hid, hpath, hdirectory⟩ := h
  exact ⟨cwd, createdAt, id, hid, hpath, hsubset hdirectory⟩

theorem Disk.Sound.empty (root : String) : Disk.empty.Sound ν root :=
  ⟨nofun, nofun, fun _ h => absurd h List.not_mem_nil, List.nodup_nil⟩

namespace Disk.Sound

theorem tmp_none (h : disk.Sound ν root) (path : String) : disk.files (path ++ ".tmp") = none := by
  cases hfile : disk.files (path ++ ".tmp") with
  | none => rfl
  | some bytes =>
    obtain ⟨cwd, createdAt, id, -, hpath⟩ := (h.content _ _ hfile).placed
    exact absurd hpath.symm (sessionPath_ne_tmp _ _ _ _ _)

theorem remove (h : disk.Sound ν root) (path : String) : (disk.remove path).Sound ν root := by
  have hsub : ∀ p bytes, (disk.remove path).files p = some bytes → disk.files p = some bytes := by
    intro p bytes hfile
    have hfile : Function.update disk.files path none p = some bytes := hfile
    rw [Function.update_apply] at hfile
    obtain ⟨-, hfile⟩ := Option.ite_none_left_eq_some.mp hfile
    exact hfile
  refine ⟨fun p bytes hfile => h.content p bytes (hsub p bytes hfile), fun p hsome => ?_, h.placed, h.once⟩
  obtain ⟨bytes, hbytes⟩ := Option.isSome_iff_exists.mp hsome
  exact h.listed p (by rw [hsub p bytes hbytes]; rfl)

theorem createDir (h : disk.Sound ν root) (sessionsRoot directory : String) :
    (disk.createDir sessionsRoot directory).Sound ν root :=
  ⟨h.content, h.listed, fun path hpath => (h.placed path hpath).mono (List.subset_append_right _ _), h.once⟩

/-- Only a file at a path of a session has been written. -/
theorem written {files : Files} (h : disk.Sound ν root) (hother : ∀ p, p ≠ path → files p = disk.files p)
    (hcontent : ∀ bytes, files path = some bytes → Content ν root path bytes)
    (hplaced : Placed root disk.directories path) : (disk.written files path).Sound ν root := by
  refine ⟨fun p bytes hfile => ?_, fun p hsome => ?_, fun p hp => ?_, ?_⟩
  · by_cases hp : p = path
    · subst hp
      exact hcontent bytes hfile
    · exact h.content p bytes ((hother p hp).symm.trans hfile)
  · rw [Disk.written]
    by_cases hp : p = path
    · subst hp
      split
      · assumption
      · exact List.mem_append_right _ List.mem_cons_self
    · have hlisted := h.listed p (by rw [← hother p hp]; exact hsome)
      split
      · exact hlisted
      · exact List.mem_append_left _ hlisted
  · rw [Disk.written] at hp
    split at hp
    · exact h.placed p hp
    · rcases List.mem_append.mp hp with hp | hp
      · exact h.placed p hp
      · rw [List.mem_singleton.mp hp]
        exact hplaced
  · rw [Disk.written]
    split
    · exact h.once
    next hnot =>
      rw [← List.concat_eq_append]
      exact List.Nodup.concat hnot h.once

theorem keeps {files : Files} (h : disk.Sound ν root) (hkeeps : LoadKeeps ν root path disk.files files) :
    ({ disk with files } : Disk).Sound ν root := by
  refine ⟨fun p bytes hfile => ?_, fun p hsome => ?_, h.placed, h.once⟩
  · by_cases hp : p = path
    · subst hp
      exact hkeeps.content bytes hfile
    · exact h.content p bytes ((hkeeps.other p hp).symm.trans hfile)
  · by_cases hp : p = path
    · subst hp
      exact h.listed p (hkeeps.present ▸ hsome)
    · exact h.listed p (by rw [← hkeeps.other p hp]; exact hsome)

theorem load [Add ν] [Zero ν] (h : disk.Sound ν root) (path : String) : LoadKeeps ν root path disk.files
    (Jsonl.load disk.files path : Except LoadFailure (JsonlSessionStorage ν) × Files).2 :=
  load_keeps (h.content path) (h.tmp_none path)

end Disk.Sound

end Mcpi.Session.Jsonl
