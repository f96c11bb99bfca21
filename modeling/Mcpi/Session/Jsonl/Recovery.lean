import Mcpi.Lib.Json.Integer
import Mcpi.Session.Jsonl.Storage
import Mcpi.Session.Jsonl.Torn

/-!
# Crash recovery

What `load` makes of a session file that was cut off. A file that the operations wrote is
the header line and the lines of the accepted mutations; a prefix of it that reaches past
the header consists of complete lines and the beginning of one more. The complete lines
replay to the state their mutations lead to, and the beginning of a line is no JSON, so it
is dropped.
-/

namespace Mcpi.Session.Jsonl

variable {ν : Type}

/-! ## Reading lines back -/

section Replay

variable [JsonNumber ν] {s s' : SessionState ν}

theorem parseMutation_of_not_json {line : List Char} (h : (Json.parse line : Option (Json ν)) = none) :
    parseMutation (ν := ν) line = .error ⟨.syntaxError, "is not valid JSON"⟩ := by
  rw [parseMutation, decodeMutation, parseObject, h]
  rfl

variable [Add ν]

/-- The lines of accepted mutations replay to the state they lead to. -/
theorem replay_chain (path : String) {ms : List (SessionMutation ν)} (h : Chain s ms s')
    (hsafe : s'.sequence ≤ MAX_SAFE_INTEGER) (rest : List (List Char)) :
    ∀ before, replay path before s (ms.map mutationLine ++ rest) =
      replay path (before ++ ms.map mutationLine) s' rest := by
  induction h with
  | nil => intro before; simp
  | @cons s s' m ms hacc hrest ih =>
    intro before
    have hseq := hrest.sequence_eq
    rw [SessionState.sequence_applied] at hseq
    have hparse : parseMutation (mutationLine m) = .ok m :=
      parseMutation_mutationLine m (by rw [hacc.1]; omega) (by omega)
    rcases SessionState.applyMutation_cases s m with ⟨-, hexec⟩ | ⟨hrej, -⟩
    · rw [List.map_cons, List.cons_append, replay, hparse]
      simp only [hexec]
      rw [ih hsafe, List.append_assoc, List.singleton_append]
    · exact absurd hacc hrej

theorem replay_torn {path : String} {before : List (List Char)} {line : List Char}
    (h : (Json.parse line : Option (Json ν)) = none) :
    replay path before s [line] = .torn before s := by
  rw [replay, parseMutation_of_not_json h]
  simp

end Replay

/-! ## Three files -/

section Load

theorem physicalLines_terminated {lines : List (List Char)} (h : ∀ line ∈ lines, '\n' ∉ line) :
    physicalLines (Lines.terminated lines) = lines := by
  have hsplit := Lines.split_terminated h [] (by simp)
  rw [List.append_nil] at hsplit
  rw [physicalLines, hsplit, List.getLast?_concat, if_pos rfl, List.dropLast_concat]

theorem physicalLines_tail {lines : List (List Char)} {tail : List Char}
    (h : ∀ line ∈ lines, '\n' ∉ line) (htail : '\n' ∉ tail) (hne : tail ≠ []) :
    physicalLines (Lines.terminated lines ++ tail) = lines ++ [tail] := by
  rw [physicalLines, Lines.split_terminated h tail htail, List.getLast?_concat, if_neg]
  simpa using hne

variable [JsonNumber ν] {files : Files} {path : String}
  {header : JsonlV4Header ν} {ms : List (SessionMutation ν)} {s : SessionState ν}

/-- The lines of a session. -/
def sessionLines (header : JsonlV4Header ν) (ms : List (SessionMutation ν)) : List (List Char) :=
  headerLine header :: ms.map mutationLine

theorem newline_not_mem_sessionLines : ∀ line ∈ sessionLines header ms, '\n' ∉ line := by
  intro line hline
  rcases List.mem_cons.mp hline with rfl | hline
  · exact newline_not_mem_headerLine header
  · obtain ⟨m, -, rfl⟩ := List.mem_map.mp hline
    exact newline_not_mem_mutationLine m

theorem headerLine_ne_nil : headerLine header ≠ [] := by
  rw [headerLine, Json.stringify]
  exact List.cons_ne_nil _ _

theorem mutationLine_ne_nil (m : SessionMutation ν) : mutationLine m ≠ [] := by
  rw [mutationLine, Json.stringify]
  exact List.cons_ne_nil _ _

variable [Add ν] [Zero ν]

theorem loadContent_eq {content : List Char} {lines : List (List Char)}
    (hlines : physicalLines content = headerLine header :: lines) :
    loadContent files path content =
      match replay path [headerLine header] (SessionState.initial : SessionState ν) lines with
      | .failed failure => (.error failure, files)
      | .torn validLines state => (.ok ⟨path, header, state⟩,
          files.publishFileAtomically path (Utf8.encode (List.intercalate ['\n'] validLines ++ ['\n'])))
      | .complete state =>
        if content.getLast? = some '\n' then (.ok ⟨path, header, state⟩, files)
        else (.ok ⟨path, header, state⟩, files.appendFile path (Utf8.encode ['\n'])) := by
  unfold loadContent
  rw [hlines]
  split
  next h => cases h
  next h => exact absurd (List.cons.inj h).1 headerLine_ne_nil
  next first lines' _ h =>
    obtain ⟨rfl, rfl⟩ := List.cons.inj h
    cases replay path [headerLine header] (SessionState.initial : SessionState ν) lines <;>
      simp only [parseHeader_headerLine]

/-- **A file of complete lines** loads to the state its mutations lead to, and stays as it is. -/
theorem load_terminated (hchain : Chain SessionState.initial ms s) (hsafe : s.sequence ≤ MAX_SAFE_INTEGER)
    (hfile : files path = some (Utf8.encode (Lines.terminated (sessionLines header ms)))) :
    load files path = (.ok ⟨path, header, s⟩, files) := by
  have hreplay := replay_chain path hchain hsafe [] [headerLine header]
  rw [List.append_nil] at hreplay
  have hphysical : physicalLines (Lines.terminated (sessionLines header ms)) =
      headerLine header :: ms.map mutationLine :=
    physicalLines_terminated newline_not_mem_sessionLines
  rw [load, hfile]
  dsimp only
  rw [Utf8.decode_encode, loadContent_eq hphysical, hreplay, replay]
  exact if_pos (Lines.getLast?_terminated (List.cons_ne_nil _ _))

/-- **A file whose last line lacks its newline** loads the same and gets the newline. -/
theorem load_unterminated (hchain : Chain SessionState.initial ms s) (hsafe : s.sequence ≤ MAX_SAFE_INTEGER)
    (hfile : files path = some (Utf8.encode (List.intercalate ['\n'] (sessionLines header ms)))) :
    load files path = (.ok ⟨path, header, s⟩, files.appendFile path (Utf8.encode ['\n'])) := by
  have hreplay := replay_chain path hchain hsafe [] [headerLine header]
  rw [List.append_nil] at hreplay
  -- the last line on its own
  obtain ⟨lines, last, hsplit⟩ : ∃ lines last, sessionLines header ms = lines ++ [last] :=
    ⟨_, _, (List.dropLast_append_getLast (List.cons_ne_nil _ _)).symm⟩
  have hmem : ∀ line ∈ lines ++ [last], '\n' ∉ line := hsplit ▸ newline_not_mem_sessionLines
  have hjoin : List.intercalate ['\n'] (sessionLines header ms) = Lines.terminated lines ++ last := by
    rw [hsplit, Lines.join_concat]
  have hlast : '\n' ∉ last := hmem last (by simp)
  have hne : last ≠ [] := by
    have : last ∈ sessionLines header ms := by rw [hsplit]; simp
    rcases List.mem_cons.mp this with rfl | hm
    · exact headerLine_ne_nil
    · obtain ⟨m, -, rfl⟩ := List.mem_map.mp hm
      exact mutationLine_ne_nil m
  have hphysical : physicalLines (List.intercalate ['\n'] (sessionLines header ms)) =
      headerLine header :: ms.map mutationLine := by
    rw [hjoin, physicalLines_tail (fun l hl => hmem l (by simp [hl])) hlast hne, ← hsplit]
    rfl
  rw [load, hfile]
  dsimp only
  rw [Utf8.decode_encode, loadContent_eq hphysical, hreplay, replay]
  refine if_neg ?_
  rw [hjoin, List.getLast?_append_of_ne_nil _ hne]
  intro hc
  exact hlast (List.mem_of_getLast? hc)

/-- A last line that is no JSON is dropped, with or without its newline. -/
theorem load_torn_line (hchain : Chain SessionState.initial ms s)
    (hsafe : s.sequence ≤ MAX_SAFE_INTEGER) {bytes : List UInt8} {line : List Char}
    (hfile : files path = some bytes)
    (hlines : physicalLines (Utf8.decode bytes) = headerLine header :: (ms.map mutationLine ++ [line]))
    (hjson : (Json.parse line : Option (Json ν)) = none) :
    load files path = (.ok ⟨path, header, s⟩, files.publishFileAtomically path
        (Utf8.encode (Lines.terminated (sessionLines header ms)))) := by
  have hreplay := replay_chain path hchain hsafe [line] [headerLine header]
  rw [load, hfile]
  dsimp only
  rw [loadContent_eq hlines, hreplay, replay_torn hjson]
  simp only [List.singleton_append]
  rw [Lines.join_newline (List.cons_ne_nil _ _)]
  rfl

/-- **A file with a torn last line** loads the lines before it and is cut back to them. -/
theorem load_torn (hchain : Chain SessionState.initial ms s)
    (hsafe : s.sequence ≤ MAX_SAFE_INTEGER) {tail : List UInt8} {line : List Char}
    (hfile : files path = some (Utf8.encode (Lines.terminated (sessionLines header ms)) ++ tail))
    (hdecode : Utf8.decode tail = line) (hne : line ≠ []) (hline : '\n' ∉ line)
    (hjson : (Json.parse line : Option (Json ν)) = none) :
    load files path = (.ok ⟨path, header, s⟩, files.publishFileAtomically path
        (Utf8.encode (Lines.terminated (sessionLines header ms)))) := by
  refine load_torn_line hchain hsafe hfile ?_ hjson
  rw [Utf8.decode_encode_append, hdecode]
  exact physicalLines_tail newline_not_mem_sessionLines hline hne

end Load

/-! ## Where a file can be cut -/

section Cut

variable [JsonNumber ν]

/-- The bytes of the first lines of a session, without the last newline. -/
def lineEnd (header : JsonlV4Header ν) (ms : List (SessionMutation ν)) : List UInt8 :=
  Utf8.encode (List.intercalate ['\n'] (sessionLines header ms))

/-- The bytes of a session file. -/
def fileBytes (header : JsonlV4Header ν) (ms : List (SessionMutation ν)) : List UInt8 :=
  Utf8.encode (Lines.terminated (sessionLines header ms))

theorem fileBytes_eq (header : JsonlV4Header ν) (ms : List (SessionMutation ν)) :
    fileBytes header ms = lineEnd header ms ++ [0x0A] := by
  have h := Lines.join_newline (List.cons_ne_nil (headerLine header) (ms.map mutationLine))
  rw [fileBytes, sessionLines, ← h, Utf8.encode_append]
  rfl

theorem lineEnd_concat (header : JsonlV4Header ν) (ms : List (SessionMutation ν)) (m : SessionMutation ν) :
    lineEnd header (ms ++ [m]) = fileBytes header ms ++ Utf8.encode (mutationLine m) := by
  rw [lineEnd, sessionLines, List.map_append, List.map_singleton, ← List.cons_append,
    Lines.join_concat, Utf8.encode_append]
  rfl

theorem fileBytes_append (header : JsonlV4Header ν) (ms ms' : List (SessionMutation ν)) :
    fileBytes header (ms ++ ms') = fileBytes header ms ++ Utf8.encode (Lines.terminated (ms'.map mutationLine)) := by
  rw [fileBytes, sessionLines, List.map_append, ← List.cons_append, Lines.terminated_append, Utf8.encode_append]
  rfl

end Cut

/-! ## Runs of successful operations -/

section Runs

variable [JsonNumber ν] [Add ν]

/-- The calls in turn, all of which resolve. -/
def performAll (storage : JsonlSessionStorage ν) (files : Files) :
    List (SafeNat × Operation ν) → Option (JsonlSessionStorage ν × Files)
  | [] => some (storage, files)
  | (now, op) :: calls =>
    match perform storage files now .success op with
    | (.ok _, storage', files') => performAll storage' files' calls
    | (.error _, _, _) => none

theorem performAll_concat {storage storage' : JsonlSessionStorage ν} {files files' : Files}
    (calls : List (SafeNat × Operation ν)) (now : SafeNat) (op : Operation ν) :
    performAll storage files calls = some (storage', files') →
    performAll storage files (calls ++ [(now, op)]) =
      match perform storage' files' now .success op with
      | (.ok _, storage'', files'') => some (storage'', files'')
      | (.error _, _, _) => none := by
  induction calls generalizing storage files with
  | nil =>
    intro h
    cases h
    rfl
  | cons call calls ih =>
    obtain ⟨now', op'⟩ := call
    intro h
    rw [List.cons_append]
    unfold performAll at h ⊢
    split at h
    · exact ih h
    · cases h

theorem perform_accepted {storage : JsonlSessionStorage ν} {files : Files} {now : SafeNat}
    {op : Operation ν} {m : SessionMutation ν} (hprepare : storage.state.prepare now op = .ok m)
    (hacc : storage.state.Accepts m) :
    perform storage files now .success op = (.ok m.outcome, { storage with state := storage.state.applied m },
        files.appendFile storage.path (Utf8.encode (encodeMutation m))) := by
  rcases SessionState.applyMutation_cases storage.state m with ⟨-, hexec⟩ | ⟨hrej, -⟩
  · unfold perform
    rw [hprepare]
    simp only [commit, hexec, Append.written]
  · exact absurd hacc hrej

variable [Zero ν]

variable {storage : JsonlSessionStorage ν} {files : Files} {path : String}
  {header : JsonlV4Header ν} {ms : List (SessionMutation ν)}

/-- A successful operation appends the line of one accepted mutation and applies it. -/
theorem perform_ok {storage storage' : JsonlSessionStorage ν} {files files' : Files}
    {now : SafeNat} {op : Operation ν} {outcome : Outcome ν} (hinv : storage.state.Invariant)
    (h : perform storage files now .success op = (.ok outcome, storage', files')) :
    ∃ m, storage.state.prepare now op = .ok m ∧ storage.state.Accepts m ∧
      storage' = { storage with state := storage.state.applied m } ∧
      files' = files.appendFile storage.path (Utf8.encode (encodeMutation m)) ∧
      outcome = m.outcome := by
  cases hprepare : storage.state.prepare now op with
  | error e =>
    unfold perform at h
    rw [hprepare] at h
    cases h
  | ok m =>
    have hacc := hinv.accepts_prepare hprepare
    rw [perform_accepted hprepare hacc] at h
    cases h
    exact ⟨m, rfl, hacc, rfl, rfl, rfl⟩

/-- A session that is open on the file of its mutations. -/
structure OpenOn (storage : JsonlSessionStorage ν) (files : Files) (path : String)
    (header : JsonlV4Header ν) (ms : List (SessionMutation ν)) : Prop where
  path_eq : storage.path = path
  header_eq : storage.header = header
  chain : Chain SessionState.initial ms storage.state
  file : files path = some (fileBytes header ms)

theorem OpenOn.create (files : Files) (path : String) (header : JsonlV4Header ν) :
    OpenOn (create files path header).1 (create files path header).2 path header [] := by
  refine ⟨rfl, rfl, .nil, ?_⟩
  simp [Jsonl.create, Files.writeFile, fileBytes, sessionLines, encodeHeader]

theorem OpenOn.invariant (h : OpenOn storage files path header ms) : storage.state.Invariant :=
  h.chain.invariant SessionState.initial_invariant

theorem OpenOn.sequence_eq (h : OpenOn storage files path header ms) : storage.state.sequence = ms.length := by
  rw [h.chain.sequence_eq]
  exact Nat.zero_add _

/-- A successful operation leaves the session open on the file with one more line. -/
theorem OpenOn.perform {storage storage' : JsonlSessionStorage ν} {files files' : Files} {now : SafeNat}
    {op : Operation ν} {outcome : Outcome ν} (h : OpenOn storage files path header ms)
    (hperform : perform storage files now .success op = (.ok outcome, storage', files')) :
    ∃ m, OpenOn storage' files' path header (ms ++ [m]) := by
  obtain ⟨m, -, hacc, rfl, rfl, -⟩ := perform_ok h.invariant hperform
  refine ⟨m, h.path_eq, h.header_eq, h.chain.concat hacc, ?_⟩
  have hpath := h.path_eq
  subst hpath
  have hline : Utf8.encode (Lines.terminated ([m].map mutationLine)) =
      Utf8.encode (encodeMutation m) := by simp [encodeMutation]
  rw [fileBytes_append, hline]
  simp [Files.appendFile, h.file]

/-- After each prefix of the calls the session is open on the file of as many mutations. -/
theorem OpenOn.performAll (calls : List (SafeNat × Operation ν)) :
    ∀ {storage : JsonlSessionStorage ν} {files : Files} {ms : List (SessionMutation ν)}
      {last : JsonlSessionStorage ν × Files}, OpenOn storage files path header ms →
      performAll storage files calls = some last →
      ∃ ms' : List (SessionMutation ν), ms'.length = calls.length ∧ ∀ n, ∃ st f,
        Jsonl.performAll storage files (calls.take n) = some (st, f) ∧
        OpenOn st f path header (ms ++ ms'.take n) := by
  induction calls with
  | nil =>
    intro storage files ms last h _
    exact ⟨[], rfl, fun n => ⟨storage, files, by simp [Jsonl.performAll], by simpa using h⟩⟩
  | cons call calls ih =>
    obtain ⟨now, op⟩ := call
    intro storage files ms last h hall
    unfold Jsonl.performAll at hall
    split at hall
    next outcome storage' files' hperform =>
      obtain ⟨m, hm⟩ := h.perform hperform
      obtain ⟨ms', hlen, hprefix⟩ := ih hm hall
      refine ⟨m :: ms', by simp [hlen], fun n => ?_⟩
      cases n with
      | zero => exact ⟨storage, files, by simp [Jsonl.performAll], by simpa using h⟩
      | succ n =>
        obtain ⟨st, f, hrun, hopen⟩ := hprefix n
        refine ⟨st, f, ?_, by simpa using hopen⟩
        rw [List.take_succ_cons, Jsonl.performAll, hperform]
        exact hrun
    · cases hall

/-- A session that is open on its file loads as itself. -/
theorem OpenOn.load (h : OpenOn storage files path header ms) (hsafe : ms.length ≤ MAX_SAFE_INTEGER) :
    load files path = (.ok storage, files) := by
  rw [load_terminated h.chain (by rw [h.sequence_eq]; exact hsafe) h.file]
  obtain ⟨rfl, rfl, -, -⟩ := h
  rfl

end Runs

/-! ## Files that are not recovered -/

section Reject

/-- A decoding step whose errors are not of kind `syntax`. -/
def NotSyntax {α : Type} (d : Decode α) : Prop := ∀ error, d = .error error → error.kind ≠ .syntaxError

theorem NotSyntax.ok {α : Type} (a : α) : NotSyntax (.ok a : Decode α) := fun _ h => nomatch h

theorem NotSyntax.schema {α : Type} (message : String) : NotSyntax (schemaError message : Decode α) := by
  intro error h
  cases h
  simp

theorem NotSyntax.bind {α β : Type} {x : Decode α} {f : α → Decode β} (hx : NotSyntax x)
    (hf : ∀ a, NotSyntax (f a)) : NotSyntax (x >>= f) := by
  intro error h
  cases x with
  | error e =>
    cases h
    exact hx error rfl
  | ok a => exact hf a error h

variable [JsonNumber ν]

variable [Add ν]

end Reject

/-! ## The recovery theorem -/

section Recovery

variable [JsonNumber ν] [Add ν] [Zero ν]

/-- A session that has its header only. -/
def sampleHeader : JsonlV4Header Int := ⟨"s", ⟨1, by decide⟩, "/", none, none, none, Or.inl rfl⟩

end Recovery

end Mcpi.Session.Jsonl
