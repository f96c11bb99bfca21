import Mcpi.Session.Jsonl.Recovery

/-!
# Appends that fail

The operations of an open `JsonlSessionStorage` wait for one another on `tail`, and a failed
one does not stop the next. What a failed `fs.appendFile` wrote stays in the file, though,
behind the last newline. As long as only failures follow, `load` drops it. Two steps lead
out of that: an append that succeeds joins its line to the part before it, and a failed
append that wrote the whole line but the newline has committed its mutation. `Clean` says
that a step is neither, and a run of clean steps, and no other, keeps the file loadable as
the operations that resolved.
-/

namespace Mcpi.Session.Jsonl

variable {ν : Type}

/-! ## The queue -/

/-- A write operation that is through: when it ran and how it ended. -/
structure Settled (ν : Type) where
  now : SafeNat
  op : Operation ν
  result : Except SessionError (Outcome ν)

/-- An open storage, the operations that wait on its `tail` and those that are through. -/
@[ext]
structure WriteQueue (ν : Type) where
  storage : JsonlSessionStorage ν
  files : Files
  pending : List (Operation ν)
  settled : List (Settled ν)

/-- What happens next: a caller issues an operation, or the oldest waiting one runs. -/
inductive WriteEvent (ν : Type) where
  | enqueue (op : Operation ν)
  | settle (now : SafeNat) (append : Append)

/-- The call that resolved. -/
def Settled.resolved? (call : Settled ν) : Option (SafeNat × Operation ν) :=
  match call.result with
  | .ok _ => some (call.now, call.op)
  | .error _ => none

/-- The operation an event issues. -/
def WriteEvent.enqueued? : WriteEvent ν → Option (Operation ν)
  | .enqueue op => some op
  | .settle _ _ => none

theorem Append.written_prefix [JsonNumber ν] {append : Append} (happend : append ≠ .success) (m : SessionMutation ν) :
    append.written (Utf8.encode (encodeMutation m)) <+: Utf8.encode (mutationLine m) := by
  cases append with
  | success => exact absurd rfl happend
  | failure notFound n =>
    have hline : Utf8.encode (encodeMutation m) = Utf8.encode (mutationLine m) ++ [0x0A] := by
      rw [encodeMutation, Utf8.encode_append]
      rfl
    rw [Append.written, hline, List.dropLast_concat]
    exact List.take_prefix n _

namespace WriteQueue

/-- The calls that resolved, in the order they ran. -/
def resolved (q : WriteQueue ν) : List (SafeNat × Operation ν) :=
  q.settled.filterMap Settled.resolved?

/-- The file ends with a newline. -/
def Terminated (q : WriteQueue ν) : Prop :=
  ∃ bytes, q.files q.storage.path = some (bytes ++ [0x0A])

variable [JsonNumber ν] [Add ν]

/-- `enqueue`, and the continuation of `tail`. -/
def step (q : WriteQueue ν) : WriteEvent ν → WriteQueue ν
  | .enqueue op => { q with pending := q.pending ++ [op] }
  | .settle now append =>
    match q.pending with
    | [] => q
    | op :: rest =>
      match perform q.storage q.files now append op with
      | (result, storage, files) => ⟨storage, files, rest, q.settled ++ [⟨now, op, result⟩]⟩

/-- A run of events. -/
def run (q : WriteQueue ν) (events : List (WriteEvent ν)) : WriteQueue ν := events.foldl step q

/-- The append of a mutation neither ends a torn line with a newline nor fails on nothing but
its own newline. -/
def CleanAppend (q : WriteQueue ν) (m : SessionMutation ν) : Append → Prop
  | .success => q.Terminated
  | .failure notFound n => q.Terminated →
      (Append.failure notFound n).written (Utf8.encode (encodeMutation m)) ≠ Utf8.encode (mutationLine m)

/-- If the step appends, the append is clean. -/
def Clean (q : WriteQueue ν) : WriteEvent ν → Prop
  | .enqueue _ => True
  | .settle now append =>
    ∀ op ∈ q.pending.head?, ∀ m, q.storage.state.prepare now op = .ok m → q.CleanAppend m append

/-- Every step of the run is clean. -/
def CleanRun (q : WriteQueue ν) : List (WriteEvent ν) → Prop
  | [] => True
  | event :: events => q.Clean event ∧ CleanRun (q.step event) events

variable [Zero ν]

/-- The queue of a new session. -/
def create (files : Files) (path : String) (header : JsonlV4Header ν) : WriteQueue ν :=
  ⟨(Jsonl.create files path header).1, (Jsonl.create files path header).2, [], []⟩

/-- The file loads as what the resolved calls alone make of a new session, and becomes the file
they leave. -/
def Reproduces (q₀ q : WriteQueue ν) : Prop :=
  ∃ f f', performAll q₀.storage q₀.files q.resolved = some (q.storage, f) ∧
    load q.files q₀.storage.path = (.ok q.storage, f') ∧ f' q₀.storage.path = f q₀.storage.path

/-- The operations run one by one in the order they were issued, a failed append rejects its
operation and leaves the state alone, and the file reproduces the operations that resolved. -/
structure Unpoisoned (q₀ : WriteQueue ν) (events : List (WriteEvent ν)) (q : WriteQueue ν) :
    Prop where
  order : q.settled.map Settled.op ++ q.pending = events.filterMap WriteEvent.enqueued?
  settles : ∀ now append op rest, q.pending = op :: rest → ∃ result, (q.step (.settle now append)).pending = rest ∧
    (q.step (.settle now append)).settled = q.settled ++ [⟨now, op, result⟩] ∧
    (append ≠ .success → (∃ error, result = .error error) ∧ (q.step (.settle now append)).storage = q.storage)
  reproduces : q₀.Reproduces q

/-! ## One step -/

section Step

variable {q : WriteQueue ν} {now : SafeNat} {append : Append} {op : Operation ν} {rest : List (Operation ν)}

omit [Zero ν] in
theorem step_idle (hpending : q.pending = []) : q.step (.settle now append) = q := by
  unfold step
  rw [hpending]

omit [Zero ν] in
theorem step_settle (hpending : q.pending = op :: rest) :
    q.step (.settle now append) =
      ⟨(perform q.storage q.files now append op).2.1, (perform q.storage q.files now append op).2.2,
        rest, q.settled ++ [⟨now, op, (perform q.storage q.files now append op).1⟩]⟩ := by
  unfold step
  rw [hpending]

theorem step_cases (now : SafeNat) (append : Append) (hinv : q.storage.state.Invariant)
    (hpending : q.pending = op :: rest) :
    (∃ error, q.storage.state.prepare now op = .error error ∧ q.step (.settle now append) =
        { q with pending := rest, settled := q.settled ++ [⟨now, op, .error error⟩] }) ∨
    ∃ m, q.storage.state.prepare now op = .ok m ∧ q.storage.state.Accepts m ∧
      ((∃ error, append ≠ .success ∧ q.step (.settle now append) = ⟨q.storage, q.files.appendFile q.storage.path
          (append.written (Utf8.encode (encodeMutation m))), rest,
          q.settled ++ [⟨now, op, .error error⟩]⟩) ∨
      (append = .success ∧ q.step (.settle now append) = ⟨{ q.storage with state := q.storage.state.applied m },
          q.files.appendFile q.storage.path (Utf8.encode (encodeMutation m)), rest,
          q.settled ++ [⟨now, op, .ok m.outcome⟩]⟩)) := by
  rw [step_settle hpending]
  unfold perform
  cases hprepare : q.storage.state.prepare now op with
  | error error => exact Or.inl ⟨error, rfl, rfl⟩
  | ok m =>
    have hacc := hinv.accepts_prepare hprepare
    refine Or.inr ⟨m, rfl, hacc, ?_⟩
    cases append with
    | failure notFound n =>
      exact Or.inl ⟨appendError q.storage.path notFound, Append.noConfusion, rfl⟩
    | success =>
      refine Or.inr ⟨rfl, ?_⟩
      have : perform q.storage q.files now .success op = _ := perform_accepted hprepare hacc
      unfold perform at this
      rw [hprepare] at this
      rw [this]

omit [Zero ν] in
/-- Every settled operation leaves the queue, and a failed append rejects it and nothing else. -/
theorem step_settles (hpending : q.pending = op :: rest) : ∃ result, (q.step (.settle now append)).pending = rest ∧
    (q.step (.settle now append)).settled = q.settled ++ [⟨now, op, result⟩] ∧
    (append ≠ .success → (∃ error, result = .error error) ∧ (q.step (.settle now append)).storage = q.storage) := by
  rw [step_settle hpending]
  refine ⟨_, rfl, rfl, fun happend => ?_⟩
  unfold perform
  cases q.storage.state.prepare now op with
  | error error => exact ⟨⟨error, rfl⟩, rfl⟩
  | ok m =>
    cases append with
    | success => exact absurd rfl happend
    | failure notFound n => exact ⟨⟨_, rfl⟩, rfl⟩

omit [Zero ν] in
/-- The operations stay in the order they were issued. -/
theorem step_order (q : WriteQueue ν) (event : WriteEvent ν) :
    (q.step event).settled.map Settled.op ++ (q.step event).pending =
      q.settled.map Settled.op ++ q.pending ++ event.enqueued?.toList := by
  cases event with
  | enqueue op => simp [step, WriteEvent.enqueued?]
  | settle now append =>
    cases hpending : q.pending with
    | nil => simp [step, hpending, WriteEvent.enqueued?]
    | cons op rest =>
      rw [step_settle hpending]
      simp [WriteEvent.enqueued?]

end Step

omit [Zero ν] in
theorem run_order (q : WriteQueue ν) (events : List (WriteEvent ν)) :
    (q.run events).settled.map Settled.op ++ (q.run events).pending =
      q.settled.map Settled.op ++ q.pending ++ events.filterMap WriteEvent.enqueued? := by
  induction events generalizing q with
  | nil => simp [run]
  | cons event events ih =>
    have hrun : q.run (event :: events) = (q.step event).run events := rfl
    rw [hrun, ih, step_order, List.append_assoc, List.filterMap_cons]
    cases event.enqueued? <;> rfl

omit [Zero ν] in
theorem run_concat (q : WriteQueue ν) (events : List (WriteEvent ν)) (event : WriteEvent ν) :
    q.run (events ++ [event]) = (q.run events).step event := by
  rw [run, run, List.foldl_concat]

omit [Zero ν] in
theorem cleanRun_append {q : WriteQueue ν} {before after : List (WriteEvent ν)} :
    q.CleanRun (before ++ after) ↔ q.CleanRun before ∧ (q.run before).CleanRun after := by
  induction before generalizing q with
  | nil => simp [CleanRun, run]
  | cons event before ih =>
    rw [List.cons_append, CleanRun, CleanRun, ih, and_assoc]
    rfl

/-! ## What clean steps keep -/

/-- The file holds the lines of the mutations that resolved, and what failed appends left. -/
structure Intact (q₀ q : WriteQueue ν) (header : JsonlV4Header ν) (ms : List (SessionMutation ν))
    (tail : List UInt8) : Prop where
  path_eq : q.storage.path = q₀.storage.path
  header_eq : q.storage.header = header
  chain : Chain SessionState.initial ms q.storage.state
  file : q.files q₀.storage.path = some (fileBytes header ms ++ tail)
  tail_torn : tail = [] ∨ Torn ν tail
  replayed : ∃ f, performAll q₀.storage q₀.files q.resolved = some (q.storage, f) ∧
    f q₀.storage.path = some (fileBytes header ms)
  length_eq : ms.length = q.resolved.length

variable {q' : WriteQueue ν}

namespace Intact

variable {q₀ q : WriteQueue ν} {header : JsonlV4Header ν} {ms : List (SessionMutation ν)} {tail : List UInt8}

theorem initial (files : Files) (path : String) (header : JsonlV4Header ν) :
    Intact (create files path header) (create files path header) header [] [] := by
  obtain ⟨hpath, hheader, hchain, hfile⟩ := OpenOn.create files path header
  exact ⟨rfl, hheader, hchain, by rw [List.append_nil]; exact hfile, Or.inl rfl, ⟨_, rfl, hfile⟩, rfl⟩

theorem invariant (h : Intact q₀ q header ms tail) : q.storage.state.Invariant :=
  h.chain.invariant SessionState.initial_invariant

theorem sequence_eq (h : Intact q₀ q header ms tail) : q.storage.state.sequence = ms.length := by
  rw [h.chain.sequence_eq]
  exact Nat.zero_add _

/-- The file is terminated exactly when no failed append left anything. -/
theorem terminated_iff (h : Intact q₀ q header ms tail) : q.Terminated ↔ tail = [] := by
  unfold Terminated
  rw [h.path_eq, h.file]
  constructor
  · rintro ⟨bytes, hbytes⟩
    rcases h.tail_torn with hnil | htorn
    · exact hnil
    · rw [Option.some.injEq] at hbytes
      have hlast := congrArg List.getLast? hbytes
      rw [List.getLast?_append_of_ne_nil _ htorn.ne_nil, List.getLast?_concat] at hlast
      exact absurd (List.mem_of_getLast? hlast) htorn.newline_not_mem
  · rintro rfl
    exact ⟨lineEnd header ms, by rw [List.append_nil, fileBytes_eq]⟩

theorem appended (h : Intact q₀ q header ms tail) {f : Files} {old : List UInt8}
    (hf : f q₀.storage.path = some old) (bytes : List UInt8) :
    f.appendFile q.storage.path bytes q₀.storage.path = some (old ++ bytes) := by
  rw [h.path_eq]
  exact Files.appendFile_self hf bytes

/-- Only what is settled last changes what resolved. -/
theorem of_rejected {tail' : List UInt8} {now : SafeNat} {op : Operation ν}
    {error : SessionError} (h : Intact q₀ q header ms tail)
    (hstorage : q'.storage = q.storage)
    (hsettled : q'.settled = q.settled ++ [⟨now, op, .error error⟩])
    (hfile : q'.files q₀.storage.path = some (fileBytes header ms ++ tail'))
    (htail : tail' = [] ∨ Torn ν tail') : Intact q₀ q' header ms tail' := by
  have hresolved : q'.resolved = q.resolved := by
    rw [resolved, resolved, hsettled, List.filterMap_append]
    simp [Settled.resolved?]
  refine ⟨hstorage ▸ h.path_eq, hstorage ▸ h.header_eq, hstorage ▸ h.chain, hfile, htail, ?_, ?_⟩
  · rw [hresolved, hstorage]
    exact h.replayed
  · rw [hresolved]
    exact h.length_eq

/-- An append that succeeds on a terminated file adds a line. -/
theorem succeeded {now : SafeNat} {op : Operation ν} {rest : List (Operation ν)}
    {m : SessionMutation ν} (h : Intact q₀ q header ms [])
    (hprepare : q.storage.state.prepare now op = .ok m) (hacc : q.storage.state.Accepts m)
    (hstep : q.step (.settle now .success) = ⟨{ q.storage with state := q.storage.state.applied m },
        q.files.appendFile q.storage.path (Utf8.encode (encodeMutation m)), rest,
        q.settled ++ [⟨now, op, .ok m.outcome⟩]⟩) :
    Intact q₀ (q.step (.settle now .success)) header (ms ++ [m]) [] := by
  have hresolved : (q.step (.settle now .success)).resolved = q.resolved ++ [(now, op)] := by
    rw [hstep, resolved, resolved, List.filterMap_append]
    rfl
  have hbytes : fileBytes header (ms ++ [m]) = fileBytes header ms ++ Utf8.encode (encodeMutation m) := by
    rw [fileBytes_append]
    simp [encodeMutation]
  obtain ⟨f, hall, hf⟩ := h.replayed
  have hperform : perform q.storage f now .success op =
      (.ok m.outcome, { q.storage with state := q.storage.state.applied m },
        f.appendFile q.storage.path (Utf8.encode (encodeMutation m))) :=
    perform_accepted hprepare hacc
  refine ⟨?_, ?_, ?_, ?_, Or.inl rfl, ?_, ?_⟩
  · rw [hstep]
    exact h.path_eq
  · rw [hstep]
    exact h.header_eq
  · rw [hstep]
    exact h.chain.concat hacc
  · rw [hstep, hbytes, List.append_nil]
    exact h.appended (by rw [h.file, List.append_nil]) _
  · rw [hresolved, performAll_concat _ _ _ hall, hperform, hstep]
    refine ⟨_, rfl, ?_⟩
    rw [hbytes]
    exact h.appended hf _
  · rw [hresolved, List.length_append, List.length_append, h.length_eq]
    rfl

/-- **A clean step** keeps the file in order. -/
theorem step (h : Intact q₀ q header ms tail) {event : WriteEvent ν} (hclean : q.Clean event) :
    ∃ ms' tail', Intact q₀ (q.step event) header ms' tail' := by
  cases event with
  | enqueue op =>
    exact ⟨ms, tail, h.path_eq, h.header_eq, h.chain, h.file, h.tail_torn, h.replayed, h.length_eq⟩
  | settle now append =>
    cases hpending : q.pending with
    | nil =>
      rw [step_idle hpending]
      exact ⟨ms, tail, h⟩
    | cons op rest =>
      have hhead : op ∈ q.pending.head? := by rw [hpending]; rfl
      rcases step_cases now append h.invariant hpending with
        ⟨error, -, hstep⟩ | ⟨m, hprepare, hacc, ⟨error, happend, hstep⟩ | ⟨rfl, hstep⟩⟩
      · rw [hstep]
        exact ⟨ms, tail, h.of_rejected rfl rfl h.file h.tail_torn⟩
      · have hpart := append.written_prefix happend m
        have htail : tail ++ append.written (Utf8.encode (encodeMutation m)) = [] ∨
            Torn ν (tail ++ append.written (Utf8.encode (encodeMutation m))) := by
          rcases h.tail_torn with rfl | htorn
          · -- the part of the line is torn unless it is empty
            refine or_iff_not_imp_left.mpr fun hne => .first hpart hne ?_
            have := hclean op hhead m hprepare
            cases append with
            | success => exact absurd rfl happend
            | failure notFound n => exact this (h.terminated_iff.mpr rfl)
          · exact Or.inr (.more htorn hpart)
        rw [hstep]
        refine ⟨ms, _, h.of_rejected rfl rfl ?_ htail⟩
        rw [← List.append_assoc]
        exact h.appended h.file _
      · obtain rfl : tail = [] := h.terminated_iff.mp (hclean op hhead m hprepare)
        exact ⟨ms ++ [m], [], h.succeeded hprepare hacc hstep⟩

/-- **The file of an intact queue** loads as the operations that resolved. -/
theorem reproduces (h : Intact q₀ q header ms tail) (hsafe : ms.length ≤ MAX_SAFE_INTEGER) : q₀.Reproduces q := by
  obtain ⟨f, hall, hf⟩ := h.replayed
  have hseq : q.storage.state.sequence ≤ MAX_SAFE_INTEGER := by rw [h.sequence_eq]; exact hsafe
  have hstorage : q.storage = ⟨q₀.storage.path, header, q.storage.state⟩ := by
    rw [← h.path_eq, ← h.header_eq]
  rcases h.tail_torn with rfl | htorn
  · have hfile := h.file
    rw [List.append_nil] at hfile
    refine ⟨f, q.files, hall, ?_, by rw [hfile, hf]⟩
    rw [load_terminated h.chain hseq hfile, ← hstorage]
  · obtain ⟨cs, hdec, hcs, hnl, hrun⟩ := htorn.decodes
    refine ⟨f, q.files.publishFileAtomically q₀.storage.path (fileBytes header ms), hall, ?_, ?_⟩
    · rw [load_torn h.chain hseq h.file hdec.decode hcs hnl (Json.parse_eq_none hrun), ← hstorage]
      rfl
    · rw [Files.publishFileAtomically_self, hf]

end Intact

/-! ## What other steps do -/

section Poisoned

variable {q₀ q : WriteQueue ν} {header : JsonlV4Header ν} {ms : List (SessionMutation ν)}
  {tail : List UInt8} {now : SafeNat} {op : Operation ν} {rest : List (Operation ν)}
  {m : SessionMutation ν}

theorem not_reproduces {s : SessionState ν} {f : Files}
    (hload : load q'.files q₀.storage.path = (.ok ⟨q₀.storage.path, header, s⟩, f))
    (hne : s.sequence ≠ q'.storage.state.sequence) : ¬ q₀.Reproduces q' := by
  rintro ⟨f₁, f₂, -, hload', -⟩
  rw [hload, Prod.mk.injEq, Except.ok.injEq] at hload'
  exact hne (by rw [← hload'.1])

/-- A failed append that wrote a whole line has committed its mutation. -/
theorem Intact.committed (h : Intact q₀ q header ms []) (hsafe : ms.length < MAX_SAFE_INTEGER)
    (hacc : q.storage.state.Accepts m) (hstorage : q'.storage = q.storage)
    (hfile : q'.files q₀.storage.path =
      some (fileBytes header ms ++ Utf8.encode (mutationLine m))) : ¬ q₀.Reproduces q' := by
  have hseq : (q.storage.state.applied m).sequence = ms.length + 1 := by
    rw [SessionState.sequence_applied, hacc.1, h.sequence_eq]
  have hline : fileBytes header ms ++ Utf8.encode (mutationLine m) =
      lineEnd header (ms ++ [m]) := (lineEnd_concat header ms m).symm
  rw [hline] at hfile
  refine not_reproduces (load_unterminated (h.chain.concat hacc) (by omega) hfile) ?_
  rw [hseq, hstorage, h.sequence_eq]
  omega

/-- An append that succeeds behind a torn tail is lost. -/
theorem Intact.lost (h : Intact q₀ q header ms tail) (hsafe : ms.length < MAX_SAFE_INTEGER)
    (htorn : Torn ν tail) (hacc : q.storage.state.Accepts m)
    (hstorage : q'.storage.state = q.storage.state.applied m)
    (hfile : q'.files q₀.storage.path = some (fileBytes header ms ++ tail ++ Utf8.encode (encodeMutation m))) :
    ¬ q₀.Reproduces q' := by
  obtain ⟨cs, hdec, hcs, hnl, hrun⟩ :=
    (Torn.more htorn (List.prefix_refl (Utf8.encode (mutationLine m)))).decodes
  have hlines : physicalLines (Utf8.decode (fileBytes header ms ++ tail ++ Utf8.encode (encodeMutation m))) =
      headerLine header :: (ms.map mutationLine ++ [cs]) := by
    have hsplit : fileBytes header ms ++ tail ++ Utf8.encode (encodeMutation m) =
        fileBytes header ms ++ ((tail ++ Utf8.encode (mutationLine m)) ++ Utf8.encode ['\n']) := by
      rw [encodeMutation, Utf8.encode_append]
      simp
    have hterminated : Lines.terminated (sessionLines header ms) ++ (cs ++ ['\n']) =
        Lines.terminated (sessionLines header ms ++ [cs]) := by
      simp
    have hnewline : Utf8.NotContinued (Utf8.encode ['\n']) := by
      intro b hb
      obtain rfl : (0x0A : UInt8) = b := Option.some.inj hb
      decide
    rw [hsplit, fileBytes, Utf8.decode_encode_append, hdec _ hnewline, Utf8.decode_encode,
      hterminated, physicalLines_terminated]
    · rfl
    · intro line hline
      rcases List.mem_append.mp hline with hline | hline
      · exact newline_not_mem_sessionLines line hline
      · rw [List.mem_singleton.mp hline]
        exact hnl
  refine not_reproduces (load_torn_line h.chain (by rw [h.sequence_eq]; omega) hfile hlines
    (Json.parse_eq_none hrun)) ?_
  rw [hstorage, SessionState.sequence_applied, hacc.1]
  omega

/-- **A step that is not clean** leaves a file that does not reproduce what resolved. -/
theorem Intact.poisoned (h : Intact q₀ q header ms tail) (hsafe : ms.length < MAX_SAFE_INTEGER)
    {event : WriteEvent ν} (hclean : ¬ q.Clean event) : ¬ q₀.Reproduces (q.step event) := by
  cases event with
  | enqueue op => exact absurd trivial hclean
  | settle now append =>
    simp only [Clean, not_forall] at hclean
    obtain ⟨op, hop, m, hprepare, hdirty⟩ := hclean
    obtain ⟨rest, hpending⟩ : ∃ rest, q.pending = op :: rest :=
      List.head?_eq_some_iff.mp hop
    rcases step_cases now append h.invariant hpending with
      ⟨error, herror, -⟩ | ⟨m', hprepare', hacc, hstep⟩
    · rw [hprepare] at herror
      cases herror
    obtain rfl : m = m' := Except.ok.inj (hprepare.symm.trans hprepare')
    cases append with
    | success =>
      rcases hstep with ⟨_, hne, -⟩ | ⟨-, hstep⟩
      · exact absurd rfl hne
      rcases h.tail_torn with htail | htorn
      · exact absurd (h.terminated_iff.mpr htail) hdirty
      · rw [hstep]
        exact h.lost hsafe htorn hacc rfl (h.appended h.file _)
    | failure notFound n =>
      rcases hstep with ⟨error, -, hstep⟩ | ⟨hsuccess, -⟩
      · simp only [CleanAppend, not_forall, not_not] at hdirty
        obtain ⟨hterminated, hwritten⟩ := hdirty
        obtain rfl : tail = [] := h.terminated_iff.mp hterminated
        rw [hstep, hwritten]
        refine h.committed hsafe hacc rfl ?_
        have := h.appended h.file (Utf8.encode (mutationLine m))
        rwa [List.append_nil] at this
      · cases hsuccess

end Poisoned

/-! ## Runs -/

section Run

variable {q₀ : WriteQueue ν} {header : JsonlV4Header ν}

theorem CleanRun.intact {events : List (WriteEvent ν)} {q : WriteQueue ν}
    {ms : List (SessionMutation ν)} {tail : List UInt8} (hq : Intact q₀ q header ms tail)
    (h : q.CleanRun events) : ∃ ms' tail', Intact q₀ (q.run events) header ms' tail' := by
  induction events generalizing q ms tail with
  | nil => exact ⟨ms, tail, hq⟩
  | cons event events ih =>
    obtain ⟨ms', tail', hstep⟩ := hq.step h.1
    exact ih hstep h.2

theorem Intact.length_le {events : List (WriteEvent ν)} {ms : List (SessionMutation ν)}
    {tail : List UInt8} (hempty : q₀.settled = [] ∧ q₀.pending = [])
    (h : Intact q₀ (q₀.run events) header ms tail) : ms.length ≤ events.length := by
  have horder := congrArg List.length (run_order q₀ events)
  have hresolved : (q₀.run events).resolved.length ≤ (q₀.run events).settled.length :=
    List.length_filterMap_le _ _
  have henqueued := List.length_filterMap_le WriteEvent.enqueued? events
  rw [hempty.1, hempty.2] at horder
  simp only [List.length_append, List.length_map, List.map_nil, List.length_nil] at horder
  rw [h.length_eq]
  omega

/-- **Failed appends.** From a new session on, the operations run in the order they were issued,
a failed append rejects its operation and leaves the state alone, and the file loads as the
operations that resolved, all along a run exactly if every step of it is clean. -/
theorem append_failures (files : Files) (path : String) (header : JsonlV4Header ν)
    (events : List (WriteEvent ν)) (hlen : events.length < MAX_SAFE_INTEGER) :
    (∀ before, before <+: events →
        Unpoisoned (create files path header) before ((create files path header).run before)) ↔
      (create files path header).CleanRun events := by
  have hinitial := Intact.initial files path header
  constructor
  · intro h
    induction events using List.reverseRecOn with
    | nil => trivial
    | append_singleton events event ih =>
      rw [List.length_append, List.length_singleton] at hlen
      have hrun := ih (by omega) fun before hbefore =>
        h before (hbefore.trans (List.prefix_append events [event]))
      refine cleanRun_append.mpr ⟨hrun, ?_, trivial⟩
      -- the first step that is not clean would show in the file
      by_contra hclean
      obtain ⟨ms, tail, hintact⟩ := hrun.intact hinitial
      have hle := hintact.length_le ⟨rfl, rfl⟩
      refine hintact.poisoned (by omega) hclean ?_
      have := (h (events ++ [event]) (List.prefix_refl _)).reproduces
      rwa [run_concat] at this
  · rintro h before ⟨after, rfl⟩
    rw [List.length_append] at hlen
    obtain ⟨ms, tail, hintact⟩ := (cleanRun_append.mp h).1.intact hinitial
    have hle := hintact.length_le ⟨rfl, rfl⟩
    refine ⟨?_, fun now append op rest hpending => step_settles hpending, hintact.reproduces (by omega)⟩
    rw [run_order]
    simp [create]

end Run

/-- A name whose line was cut after three bytes is dropped when the file is loaded. -/
theorem append_failures_setName :
    let q₀ := create (ν := Int) (fun _ => none) "s.jsonl"
      ⟨"s", ⟨1, by decide⟩, "/", none, none, none, Or.inl rfl⟩
    let events := [.enqueue (.setName (some "a")), .settle ⟨2, by decide⟩ (.failure false 3)]
    Unpoisoned q₀ events (q₀.run events) := by
  intro q₀ events
  refine (append_failures _ _ _ events (by decide)).mpr ⟨trivial, ?_, trivial⟩ events (List.prefix_refl _)
  intro op hop m hm _
  obtain rfl := Option.some.inj hop
  cases hm
  decide +kernel

/-- A name that resolved after another one's line was cut is lost when the file is loaded. -/
theorem append_failures_lost_name :
    let q₀ := create (ν := Int) (fun _ => none) "s.jsonl"
      ⟨"s", ⟨1, by decide⟩, "/", none, none, none, Or.inl rfl⟩
    let events := [.enqueue (.setName (some "a")), .enqueue (.setName (some "b")),
      .settle ⟨2, by decide⟩ (.failure false 3), .settle ⟨3, by decide⟩ .success]
    ¬ Unpoisoned q₀ events (q₀.run events) := by
  intro q₀ events h
  obtain ⟨f, f', -, hload, -⟩ := h.reproduces
  have hname : (q₀.run events).storage.state.name = some "b" := by decide +kernel
  have hloaded : ((load (ν := Int) (q₀.run events).files q₀.storage.path).1.toOption.map
      fun storage => storage.state.name) = some none := by decide +kernel
  rw [hload] at hloaded
  simp [Except.toOption, hname] at hloaded

end WriteQueue
end Mcpi.Session.Jsonl
