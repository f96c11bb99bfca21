import Mcpi.Lib.Transition

/-!
# The file mutation queue

Calls of `withFileMutationQueue` are registered one after another under a key that is read off the
file system, and each waits for the calls that were registered under its key before it. A promise
is the list of the calls that have to release before it resolves.
-/

namespace Mcpi.CodingAgent.MutationQueue

variable {σ φ : Type}

/-! ## Keys -/

/-- The error codes that the key lookup tells apart: `ENOENT` and `ENOTDIR`, and the others. -/
inductive RealpathError where
  | missing
  | other
  deriving DecidableEq

structure NodeFs (σ : Type) where
  resolve : String → String
  realpath : σ → String → Except RealpathError String

inductive FileErrorCode where
  | not_found
  | not_supported
  | other
  deriving DecidableEq

structure ExecutionEnv (σ : Type) where
  absolutePath : σ → String → Except FileErrorCode String
  canonicalPath : σ → String → Except FileErrorCode String

/-- The two implementations of the queue differ in where the key comes from. -/
inductive KeySource (σ : Type) where
  | node (fs : NodeFs σ)
  | env (env : ExecutionEnv σ)

/-- `getMutationQueueKey`; it throws on what is not an error about a missing path. -/
def getMutationQueueKey (source : KeySource σ) (disk : σ) (filePath : String) : Option String :=
  match source with
  | .node fs =>
    let resolvedPath := fs.resolve filePath
    match fs.realpath disk resolvedPath with
    | .ok realpath => some realpath
    | .error .missing => some resolvedPath
    | .error .other => none
  | .env env =>
    match env.absolutePath disk filePath with
    | .error _ => none
    | .ok absolutePath =>
      match env.canonicalPath disk absolutePath with
      | .ok canonicalPath => some canonicalPath
      | .error .not_found | .error .not_supported => some absolutePath
      | .error .other => none

/-! ## The queue -/

inductive Status where
  | waiting
  | running
  | finished
  deriving DecidableEq

/-- A registered call. It waits for the calls of `currentQueue` to release. -/
structure Call where
  filePath : String
  key : String
  currentQueue : List Nat
  status : Status
  deriving DecidableEq

/-- `registering` are the calls whose registration has not run to its end, in the order in which they
were made; `lookup` is what the key lookup of the first of them came to. -/
structure State (σ : Type) where
  disk : σ
  registering : List String
  lookup : Option (Option String)
  calls : List Call
  queues : String → Option (List Nat)

def State.init (disk : σ) : State σ := ⟨disk, [], none, [], fun _ => none⟩

inductive Event (σ : Type) where
  | call (filePath : String)
  | lookUp
  | register
  | start (n : Nat)
  | mutate (n : Nat) (disk : σ)
  | finish (n : Nat) (threw : Bool)

/-- Every call that the promise waits for has released. -/
def resolved (calls : List Call) (promise : List Nat) : Bool :=
  promise.all fun m => (calls[m]?.map Call.status) = some .finished

/-- `fileMutationQueues.get(key) ?? Promise.resolve()` -/
def State.currentQueue (s : State σ) (key : String) : List Nat := (s.queues key).getD []

def setQueue (queues : String → Option (List Nat)) (key : String) (queue : Option (List Nat)) :
    String → Option (List Nat) :=
  fun k => if k = key then queue else queues k

def State.setStatus (s : State σ) (n : Nat) (c : Call) (status : Status) : State σ :=
  { s with calls := s.calls.set n { c with status } }

/-- A registration: the call is entered as the last of its queue. -/
def State.enter (s : State σ) (filePath key : String) (rest : List String) : State σ :=
  let currentQueue := s.currentQueue key
  { s with
    registering := rest
    lookup := none
    calls := s.calls ++ [⟨filePath, key, currentQueue, .waiting⟩]
    queues := setQueue s.queues key (some (currentQueue ++ [s.calls.length])) }

/-- The `finally` of a call: the next one is released, and an entry of its own is removed. -/
def State.leave (s : State σ) (n : Nat) (c : Call) : State σ :=
  { s.setStatus n c .finished with
    queues :=
      if s.queues c.key = some (c.currentQueue ++ [n]) then setQueue s.queues c.key none
      else s.queues }

def step (source : KeySource σ) (s : State σ) : Event σ → Option (State σ)
  | .call filePath => some { s with registering := s.registering ++ [filePath] }
  | .lookUp =>
    match s.registering, s.lookup with
    | filePath :: _, none =>
      some { s with lookup := some (getMutationQueueKey source s.disk filePath) }
    | _, _ => none
  | .register =>
    match s.registering, s.lookup with
    | filePath :: rest, some (some key) => some (s.enter filePath key rest)
    | _ :: rest, some none => some { s with registering := rest, lookup := none }
    | _, _ => none
  | .start n =>
    s.calls[n]?.bind fun c =>
      if c.status = .waiting ∧ resolved s.calls c.currentQueue = true then
        some (s.setStatus n c .running)
      else none
  | .mutate n disk =>
    s.calls[n]?.bind fun c => if c.status = .running then some { s with disk := disk } else none
  -- `finally` makes no difference between a return and a throw
  | .finish n _ =>
    s.calls[n]?.bind fun c => if c.status = .running then some (s.leave n c) else none

/-! ## What is expected of it -/

/-- The paths denote one file. -/
def SameFile (fileOf : σ → String → φ) (disk : σ) (c c' : Call) : Prop :=
  fileOf disk c.filePath = fileOf disk c'.filePath

/-- **Mutations of one file are serialized** in a state. -/
structure Serialized (source : KeySource σ) (fileOf : σ → String → φ) (s : State σ) : Prop where
  /-- No call runs while one that was registered before it for the same file has not finished. -/
  inOrder : ∀ (i j : Nat) (c c' : Call), i < j → s.calls[i]? = some c → s.calls[j]? = some c' →
    c'.status = .running → c.status ≠ .finished → ¬ SameFile fileOf s.disk c c'
  /-- No two functions on the same file run at once. -/
  exclusive : ∀ (i j : Nat) (c c' : Call), i ≠ j → s.calls[i]? = some c → s.calls[j]? = some c' →
    c.status = .running → c'.status = .running → ¬ SameFile fileOf s.disk c c'
  /-- However the calls before it under its key finished, a call can start. -/
  unblocked : ∀ (j : Nat) (c' : Call), s.calls[j]? = some c' → c'.status = .waiting →
    (∀ (i : Nat) (c : Call), i < j → s.calls[i]? = some c → c.key = c'.key → c.status = .finished) →
      ∃ s', step source s (.start j) = some s'
  /-- Registration goes on, whatever the lookups before came to. -/
  registers : s.registering ≠ [] → ∃ s', step source s .lookUp = some s' ∨ step source s .register = some s'
  /-- When no call is pending, the map is empty. -/
  empty : (∀ c ∈ s.calls, c.status = .finished) → ∀ key, s.queues key = none

/-- The pending calls that denote one file have one key. -/
def KeysAgree (fileOf : σ → String → φ) (disk : σ) (calls : List Call) : Prop :=
  ∀ c ∈ calls, ∀ c' ∈ calls, c.status ≠ .finished → c'.status ≠ .finished → SameFile fileOf disk c c' → c.key = c'.key

/-- **The condition**: a call is registered under the key of the pending calls for its file, and no
change of the file system makes pending calls with different keys denote one file. -/
def OneKeyPerFile (fileOf : σ → String → φ) (s : State σ) : Event σ → Prop
  | .register => ∀ filePath ∈ s.registering.head?, ∀ key ∈ s.lookup.join, ∀ c ∈ s.calls,
      c.status ≠ .finished → fileOf s.disk c.filePath = fileOf s.disk filePath → c.key = key
  | .mutate _ disk => KeysAgree fileOf disk s.calls
  | _ => True

instance [DecidableEq φ] (fileOf : σ → String → φ) (disk : σ) (calls : List Call) :
    Decidable (KeysAgree fileOf disk calls) :=
  inferInstanceAs (Decidable (∀ c ∈ calls, ∀ c' ∈ calls, c.status ≠ .finished →
    c'.status ≠ .finished → fileOf disk c.filePath = fileOf disk c'.filePath → c.key = c'.key))

instance [DecidableEq φ] (fileOf : σ → String → φ) (s : State σ) :
    ∀ e, Decidable (OneKeyPerFile fileOf s e)
  | .register =>
    inferInstanceAs (Decidable (∀ filePath ∈ s.registering.head?, ∀ key ∈ s.lookup.join,
      ∀ c ∈ s.calls, c.status ≠ .finished → fileOf s.disk c.filePath = fileOf s.disk filePath → c.key = key))
  | .mutate _ disk => inferInstanceAs (Decidable (KeysAgree fileOf disk s.calls))
  | .call _ | .lookUp | .start _ | .finish .. => inferInstanceAs (Decidable True)

/-- What the map and the promises say about the calls. -/
structure Inv (calls : List Call) (queues : String → Option (List Nat)) : Prop where
  /-- A promise waits for earlier calls with the key. -/
  waits : ∀ (n : Nat) (c : Call), calls[n]? = some c → ∀ m ∈ c.currentQueue,
    m < n ∧ ∀ c', calls[m]? = some c' → c'.key = c.key
  /-- Earlier calls with the key that are not waited for have finished. -/
  covers : ∀ (m n : Nat) (c c' : Call), m < n → calls[m]? = some c → calls[n]? = some c' →
    c.key = c'.key → m ∉ c'.currentQueue → c.status = .finished
  /-- A call that has started has waited. -/
  waited : ∀ (n : Nat) (c : Call), calls[n]? = some c → c.status ≠ .waiting →
    ∀ m ∈ c.currentQueue, ∀ c', calls[m]? = some c' → c'.status = .finished
  /-- An entry of the map is the promise of the last call with the key, which has not finished. -/
  entry : ∀ key queue, queues key = some queue → ∃ (n : Nat) (c : Call), calls[n]? = some c ∧
    c.key = key ∧ c.status ≠ .finished ∧ queue = c.currentQueue ++ [n] ∧
      ∀ (m : Nat) (c' : Call), n < m → calls[m]? = some c' → c'.key ≠ key
  /-- Calls without an entry have finished. -/
  noEntry : ∀ key, queues key = none → ∀ c ∈ calls, c.key = key → c.status = .finished

section Invariant

variable {source : KeySource σ} {fileOf : σ → String → φ} {s s' : State σ} {e : Event σ}
  {calls : List Call} {queues : String → Option (List Nat)} {c : Call} {n : Nat}

theorem inv_init : Inv [] fun _ => none := by
  constructor <;> simp

/-- Calls with one key have run one after the other. -/
theorem Inv.ordered (h : Inv calls queues) {m n : Nat} {c c' : Call} (hlt : m < n)
    (hm : calls[m]? = some c) (hn : calls[n]? = some c') (hkey : c.key = c'.key)
    (hstarted : c'.status ≠ .waiting) : c.status = .finished := by
  by_cases hmem : m ∈ c'.currentQueue
  · exact h.waited n c' hn hstarted m hmem c hm
  · exact h.covers m n c c' hlt hm hn hkey hmem

theorem resolved_iff {promise : List Nat} :
    resolved calls promise = true ↔ ∀ m ∈ promise, ∃ c, calls[m]? = some c ∧ c.status = .finished := by
  simp [resolved, Option.map_eq_some_iff]

theorem Inv.currentQueue_spec (h : Inv calls queues) (key : String) :
    (∀ m ∈ (queues key).getD [], m < calls.length ∧ ∀ c, calls[m]? = some c → c.key = key) ∧
      ∀ (m : Nat) (c : Call), calls[m]? = some c → c.key = key → m ∉ (queues key).getD [] → c.status = .finished := by
  cases hqueue : queues key with
  | none =>
    refine ⟨nofun, fun m c hm hkey _ => h.noEntry key hqueue c (List.mem_of_getElem? hm) hkey⟩
  | some queue =>
    obtain ⟨n, last, hlast, hkey, -, rfl, hlatest⟩ := h.entry key queue hqueue
    have hn : n < calls.length := (List.getElem?_eq_some_iff.mp hlast).1
    refine ⟨fun m hm => ?_, fun m c hm hsame hnot => ?_⟩
    · rcases List.mem_append.mp hm with hm | hm
      · obtain ⟨hlt, hall⟩ := h.waits n last hlast m hm
        exact ⟨hlt.trans hn, fun c hc => (hall c hc).trans hkey⟩
      · obtain rfl := List.mem_singleton.mp hm
        refine ⟨hn, fun c hc => ?_⟩
        obtain rfl := Option.some.inj (hlast.symm.trans hc)
        exact hkey
    · simp only [Option.getD_some, List.mem_append, List.mem_singleton, not_or] at hnot
      rcases Nat.lt_trichotomy m n with hlt | heq | hgt
      · exact h.covers m n c last hlt hm hlast (hsame.trans hkey.symm) hnot.1
      · exact absurd heq hnot.2
      · exact absurd hsame (hlatest m c hgt hm)

theorem getElem?_snoc_cases {last : Call} {m : Nat} (h : (calls ++ [last])[m]? = some c) :
    calls[m]? = some c ∨ m = calls.length ∧ c = last := by
  rcases Nat.lt_trichotomy m calls.length with hlt | heq | hgt
  · rw [List.getElem?_append_left hlt] at h
    exact .inl h
  · subst heq
    rw [List.getElem?_concat_length] at h
    exact .inr ⟨rfl, (Option.some.inj h).symm⟩
  · rw [List.getElem?_eq_none (by simp; omega)] at h
    cases h

theorem Inv.enter (h : Inv calls queues) (filePath key : String) :
    Inv (calls ++ [⟨filePath, key, (queues key).getD [], .waiting⟩])
      (setQueue queues key (some ((queues key).getD [] ++ [calls.length]))) := by
  obtain ⟨hwaits, hcovers⟩ := h.currentQueue_spec key
  have hlt : ∀ {m : Nat} {c : Call}, calls[m]? = some c → m < calls.length :=
    fun hm => (List.getElem?_eq_some_iff.mp hm).1
  constructor
  · intro n c hn m hm
    rcases getElem?_snoc_cases hn with hn | ⟨rfl, rfl⟩
    · refine ⟨(h.waits n c hn m hm).1, fun c' hc' => ?_⟩
      rcases getElem?_snoc_cases hc' with hc' | ⟨rfl, rfl⟩
      · exact (h.waits n c hn m hm).2 c' hc'
      · exact absurd ((h.waits n c hn _ hm).1.trans (hlt hn)) (Nat.lt_irrefl _)
    · refine ⟨(hwaits m hm).1, fun c' hc' => ?_⟩
      rcases getElem?_snoc_cases hc' with hc' | ⟨rfl, rfl⟩
      · exact (hwaits m hm).2 c' hc'
      · rfl
  · intro m n c c' hmn hm hn hkey hnot
    rcases getElem?_snoc_cases hn with hn | ⟨rfl, rfl⟩
    · rcases getElem?_snoc_cases hm with hm | ⟨rfl, rfl⟩
      · exact h.covers m n c c' hmn hm hn hkey hnot
      · exact absurd (hmn.trans (hlt hn)) (Nat.lt_irrefl _)
    · rcases getElem?_snoc_cases hm with hm | ⟨rfl, rfl⟩
      · exact hcovers m c hm hkey hnot
      · exact absurd hmn (Nat.lt_irrefl _)
  · intro n c hn hstarted m hm c' hc'
    rcases getElem?_snoc_cases hn with hn | ⟨rfl, rfl⟩
    · rcases getElem?_snoc_cases hc' with hc' | ⟨rfl, rfl⟩
      · exact h.waited n c hn hstarted m hm c' hc'
      · exact absurd ((h.waits n c hn _ hm).1.trans (hlt hn)) (Nat.lt_irrefl _)
    · exact absurd rfl hstarted
  · intro k queue hqueue
    unfold setQueue at hqueue
    split at hqueue
    next heq =>
      cases hqueue
      subst heq
      refine ⟨calls.length, _, List.getElem?_concat_length, rfl, nofun, rfl, fun m c hm hc => ?_⟩
      rcases getElem?_snoc_cases hc with hc | ⟨rfl, -⟩
      · exact absurd (hm.trans (hlt hc)) (Nat.lt_irrefl _)
      · exact absurd hm (Nat.lt_irrefl _)
    next hne =>
      obtain ⟨n, c, hn, hkey, hpending, hpromise, hlatest⟩ := h.entry k queue hqueue
      refine ⟨n, c, by rw [List.getElem?_append_left (hlt hn)]; exact hn, hkey, hpending, hpromise,
        fun m c' hm hc' => ?_⟩
      rcases getElem?_snoc_cases hc' with hc' | ⟨rfl, rfl⟩
      · exact hlatest m c' hm hc'
      · exact Ne.symm hne
  · intro k hnone c hc hkey
    unfold setQueue at hnone
    split at hnone
    · cases hnone
    next hne =>
      rcases List.mem_append.mp hc with hc | hc
      · exact h.noEntry k hnone c hc hkey
      · obtain rfl := List.mem_singleton.mp hc
        exact absurd hkey (Ne.symm hne)

variable {status : Status}

theorem getElem?_set_cases {m : Nat} {c' : Call} (hn : calls[n]? = some c)
    (h : (calls.set n { c with status })[m]? = some c') :
    ∃ c₀, calls[m]? = some c₀ ∧ c'.key = c₀.key ∧ c'.currentQueue = c₀.currentQueue ∧
      (m = n ∧ c₀ = c ∧ c'.status = status ∨ m ≠ n ∧ c' = c₀) := by
  by_cases hm : m = n
  · subst hm
    rw [List.getElem?_set_self (List.getElem?_eq_some_iff.mp hn).1] at h
    cases h
    exact ⟨c, hn, rfl, rfl, .inl ⟨rfl, rfl, rfl⟩⟩
  · rw [List.getElem?_set_ne (Ne.symm hm)] at h
    exact ⟨c', h, rfl, rfl, .inr ⟨hm, rfl⟩⟩

/-- What a change of status keeps, where the call has waited and nothing that has finished is
taken back. -/
theorem Inv.setStatus (h : Inv calls queues) (hn : calls[n]? = some c)
    (hwaited : ∀ m ∈ c.currentQueue, ∀ c', calls[m]? = some c' → c'.status = .finished)
    (hfinished : c.status = .finished → status = .finished)
    {queues' : String → Option (List Nat)}
    (hentry : ∀ key queue, queues' key = some queue → queues key = some queue ∧
      (status = .finished → queue ≠ c.currentQueue ++ [n]))
    (hnoEntry : ∀ key, queues' key = none → queues key = none ∨
      ∀ m c', calls[m]? = some c' → c'.key = key → c'.status = .finished ∨ m = n ∧ status = .finished) :
    Inv (calls.set n { c with status }) queues' := by
  -- what has finished is finished in the new list too
  have hkeeps : ∀ {m : Nat} {c₀ c' : Call}, c₀.status = .finished →
      (m = n ∧ c₀ = c ∧ c'.status = status ∨ m ≠ n ∧ c' = c₀) → c'.status = .finished := by
    rintro m c₀ c' hc₀ (⟨-, rfl, hstatus⟩ | ⟨-, rfl⟩)
    · exact hstatus.trans (hfinished hc₀)
    · exact hc₀
  constructor
  · intro m c₁ hm k hk
    obtain ⟨c₀, hm, hkey, hqueue, -⟩ := getElem?_set_cases hn hm
    rw [hqueue] at hk
    obtain ⟨hlt, hall⟩ := h.waits m c₀ hm k hk
    refine ⟨hlt, fun c' hc' => ?_⟩
    obtain ⟨c₀', hc', hkey', -, -⟩ := getElem?_set_cases hn hc'
    rw [hkey', hkey]
    exact hall c₀' hc'
  · intro m k c₁ c₂ hmk hm hk hsame hnot
    obtain ⟨c₀, hm, hkey, -, hcases⟩ := getElem?_set_cases hn hm
    obtain ⟨c₀', hk, hkey', hqueue, -⟩ := getElem?_set_cases hn hk
    rw [hqueue] at hnot
    rw [hkey, hkey'] at hsame
    exact hkeeps (h.covers m k c₀ c₀' hmk hm hk hsame hnot) hcases
  · intro m c₁ hm hstarted k hk c' hc'
    obtain ⟨c₀, hm, -, hqueue, hcases⟩ := getElem?_set_cases hn hm
    obtain ⟨c₀', hwaitedFor, -, -, hcases'⟩ := getElem?_set_cases hn hc'
    rw [hqueue] at hk
    refine hkeeps ?_ hcases'
    rcases hcases with ⟨-, heq, -⟩ | ⟨-, heq⟩
    · rw [heq] at hk
      exact hwaited k hk c₀' hwaitedFor
    · rw [heq] at hstarted
      exact h.waited m c₀ hm hstarted k hk c₀' hwaitedFor
  · intro key queue hqueue
    obtain ⟨hqueue, hown⟩ := hentry key queue hqueue
    obtain ⟨m, c₀, hm, hkey, hpending, rfl, hlatest⟩ := h.entry key queue hqueue
    have hlatest' : ∀ (k : Nat) (c' : Call), m < k → (calls.set n { c with status })[k]? = some c' → c'.key ≠ key := by
      intro k c' hk hc'
      obtain ⟨c₀', hc', hkey', -, -⟩ := getElem?_set_cases hn hc'
      rw [hkey']
      exact hlatest k c₀' hk hc'
    by_cases hmn : m = n
    · subst hmn
      obtain rfl := Option.some.inj (hn.symm.trans hm)
      refine ⟨m, _, List.getElem?_set_self (List.getElem?_eq_some_iff.mp hn).1, hkey, ?_, rfl, hlatest'⟩
      exact fun hstatus => hown hstatus rfl
    · exact ⟨m, c₀, by rw [List.getElem?_set_ne (Ne.symm hmn)]; exact hm, hkey, hpending, rfl, hlatest'⟩
  · intro key hnone c' hc' hkey
    obtain ⟨m, hm⟩ := List.getElem?_of_mem hc'
    obtain ⟨c₀, hm, hkey', -, hcases⟩ := getElem?_set_cases hn hm
    rw [hkey'] at hkey
    rcases hnoEntry key hnone with hnone | hall
    · exact hkeeps (h.noEntry key hnone c₀ (List.mem_of_getElem? hm) hkey) hcases
    · rcases hall m c₀ hm hkey with hfin | ⟨rfl, hstatus⟩
      · exact hkeeps hfin hcases
      · rcases hcases with ⟨-, -, hc'⟩ | ⟨hne, -⟩
        · exact hc'.trans hstatus
        · exact absurd rfl hne

theorem Inv.start (h : Inv calls queues) (hn : calls[n]? = some c) (hwaiting : c.status = .waiting)
    (hresolved : resolved calls c.currentQueue = true) :
    Inv (calls.set n { c with status := .running }) queues := by
  refine h.setStatus hn (fun m hm c' hc' => ?_) (fun hfin => ?_) (fun _ _ hqueue => ⟨hqueue, nofun⟩)
    fun _ hnone => .inl hnone
  · obtain ⟨c₀, hc₀, hfin⟩ := resolved_iff.mp hresolved m hm
    obtain rfl := Option.some.inj (hc₀.symm.trans hc')
    exact hfin
  · rw [hwaiting] at hfin
    cases hfin

/-- An entry that is a call's own promise is under its key, and no later call has the key. -/
theorem Inv.own (h : Inv calls queues) (hn : calls[n]? = some c) {key : String}
    (hown : queues key = some (c.currentQueue ++ [n])) :
    c.key = key ∧ ∀ (m : Nat) (c' : Call), n < m → calls[m]? = some c' → c'.key ≠ key := by
  obtain ⟨m, c', hm, hkey, -, hpromise, hlatest⟩ := h.entry key _ hown
  have hlast := congrArg List.getLast? hpromise
  obtain rfl : n = m := by simpa using hlast
  obtain rfl := Option.some.inj (hn.symm.trans hm)
  exact ⟨hkey, hlatest⟩

theorem Inv.finish (h : Inv calls queues) (hn : calls[n]? = some c) (hrunning : c.status = .running) :
    Inv (calls.set n { c with status := .finished })
      (if queues c.key = some (c.currentQueue ++ [n]) then setQueue queues c.key none else queues) := by
  have hstarted : c.status ≠ .waiting := by
    rw [hrunning]
    exact nofun
  refine h.setStatus hn (h.waited n c hn hstarted) (fun _ => rfl) (fun key queue hqueue => ?_) fun key hnone => ?_
  · split at hqueue
    · unfold setQueue at hqueue
      obtain ⟨hne, hqueue⟩ := Option.ite_none_left_eq_some.mp hqueue
      exact ⟨hqueue, fun _ hown => hne (h.own hn (hown ▸ hqueue)).1.symm⟩
    next hnot =>
      refine ⟨hqueue, fun _ hown => hnot ?_⟩
      rw [← hown, (h.own hn (hown ▸ hqueue)).1]
      exact hqueue
  · split at hnone
    next hown =>
      unfold setQueue at hnone
      split at hnone
      next heq =>
        subst heq
        -- the entry was this call's: it is the last one with the key
        refine .inr fun m c' hm hkey => ?_
        rcases Nat.lt_trichotomy m n with hlt | rfl | hgt
        · exact .inl (h.ordered hlt hm hn hkey hstarted)
        · exact .inr ⟨rfl, rfl⟩
        · exact absurd hkey ((h.own hn hown).2 m c' hgt hm)
      · exact .inl hnone
    · exact .inl hnone

/-- What a run keeps while one file has one key. -/
structure RunInv (fileOf : σ → String → φ) (s : State σ) : Prop where
  queue : Inv s.calls s.queues
  keys : KeysAgree fileOf s.disk s.calls

theorem runInv_init (disk : σ) : RunInv fileOf (State.init disk) :=
  ⟨inv_init, fun _ h => nomatch h⟩

/-- A pending call after a change of status was pending before it. -/
theorem KeysAgree.setStatus {disk : σ} (h : KeysAgree fileOf disk calls)
    (hn : calls[n]? = some c) (hpending : c.status ≠ .finished) :
    KeysAgree fileOf disk (calls.set n { c with status }) := by
  have hbefore : ∀ c' ∈ calls.set n { c with status }, c'.status ≠ .finished →
      ∃ c₀ ∈ calls, c₀.status ≠ .finished ∧ c₀.filePath = c'.filePath ∧ c₀.key = c'.key := by
    intro c' hc' hstatus
    rcases List.mem_or_eq_of_mem_set hc' with hc' | rfl
    · exact ⟨c', hc', hstatus, rfl, rfl⟩
    · exact ⟨c, List.mem_of_getElem? hn, hpending, rfl, rfl⟩
  intro c₁ hc₁ c₂ hc₂ hpending₁ hpending₂ hsame
  obtain ⟨d₁, hd₁, hp₁, hpath₁, hkey₁⟩ := hbefore c₁ hc₁ hpending₁
  obtain ⟨d₂, hd₂, hp₂, hpath₂, hkey₂⟩ := hbefore c₂ hc₂ hpending₂
  rw [← hkey₁, ← hkey₂]
  refine h d₁ hd₁ d₂ hd₂ hp₁ hp₂ ?_
  unfold SameFile
  rw [hpath₁, hpath₂]
  exact hsame

theorem KeysAgree.enter {disk : σ} {filePath key : String} {currentQueue : List Nat} (h : KeysAgree fileOf disk calls)
    (hone : ∀ c ∈ calls, c.status ≠ .finished → fileOf disk c.filePath = fileOf disk filePath → c.key = key) :
    KeysAgree fileOf disk (calls ++ [⟨filePath, key, currentQueue, .waiting⟩]) := by
  intro c₁ hc₁ c₂ hc₂ hpending₁ hpending₂ hsame
  rcases List.mem_append.mp hc₁ with hc₁ | hc₁ <;> rcases List.mem_append.mp hc₂ with hc₂ | hc₂
  · exact h c₁ hc₁ c₂ hc₂ hpending₁ hpending₂ hsame
  · obtain rfl := List.mem_singleton.mp hc₂
    exact hone c₁ hc₁ hpending₁ hsame
  · obtain rfl := List.mem_singleton.mp hc₁
    exact (hone c₂ hc₂ hpending₂ hsame.symm).symm
  · rw [List.mem_singleton.mp hc₁, List.mem_singleton.mp hc₂]

/-- **A step that meets the condition keeps the invariant.** -/
theorem RunInv.step (hinv : RunInv fileOf s) (hok : OneKeyPerFile fileOf s e)
    (hstep : step source s e = some s') : RunInv fileOf s' := by
  obtain ⟨hqueue, hkeys⟩ := hinv
  cases e with
  | call filePath =>
    cases hstep
    exact ⟨hqueue, hkeys⟩
  | lookUp =>
    simp only [MutationQueue.step] at hstep
    split at hstep <;> cases hstep
    exact ⟨hqueue, hkeys⟩
  | register =>
    simp only [MutationQueue.step] at hstep
    split at hstep <;> cases hstep
    next filePath rest key hregistering hlookup =>
      refine ⟨hqueue.enter filePath key, hkeys.enter (hok filePath ?_ key ?_)⟩
      · rw [hregistering]
        rfl
      · rw [hlookup]
        rfl
    · exact ⟨hqueue, hkeys⟩
  | start n =>
    obtain ⟨c, hn, hstep⟩ := Option.bind_eq_some_iff.mp hstep
    split at hstep <;> cases hstep
    next hcan =>
      refine ⟨hqueue.start hn hcan.1 hcan.2, hkeys.setStatus hn ?_⟩
      rw [hcan.1]
      exact nofun
  | mutate n disk =>
    obtain ⟨c, hn, hstep⟩ := Option.bind_eq_some_iff.mp hstep
    split at hstep <;> cases hstep
    exact ⟨hqueue, hok⟩
  | finish n threw =>
    obtain ⟨c, hn, hstep⟩ := Option.bind_eq_some_iff.mp hstep
    split at hstep <;> cases hstep
    next hrunning =>
      refine ⟨hqueue.finish hn hrunning, hkeys.setStatus hn ?_⟩
      rw [hrunning]
      exact nofun

theorem RunInv.serialized (hinv : RunInv fileOf s) : Serialized source fileOf s := by
  obtain ⟨hqueue, hkeys⟩ := hinv
  have hinOrder : ∀ (i j : Nat) (c c' : Call), i < j → s.calls[i]? = some c → s.calls[j]? = some c' →
      c'.status = .running → c.status ≠ .finished → ¬ SameFile fileOf s.disk c c' := by
    intro i j c c' hlt hi hj hrunning hpending hsame
    have hkey : c.key = c'.key := by
      refine hkeys c (List.mem_of_getElem? hi) c' (List.mem_of_getElem? hj) hpending ?_ hsame
      rw [hrunning]
      exact nofun
    refine hpending (hqueue.ordered hlt hi hj hkey ?_)
    rw [hrunning]
    exact nofun
  constructor
  · exact hinOrder
  · intro i j c c' hne hi hj hrunning hrunning' hsame
    rcases Nat.lt_or_gt_of_ne hne with hlt | hgt
    · exact hinOrder i j c c' hlt hi hj hrunning' (by rw [hrunning]; exact nofun) hsame
    · exact hinOrder j i c' c hgt hj hi hrunning (by rw [hrunning']; exact nofun) hsame.symm
  · intro j c' hj hwaiting hbefore
    have hresolved : resolved s.calls c'.currentQueue = true := by
      refine resolved_iff.mpr fun m hm => ?_
      obtain ⟨hlt, hkey⟩ := hqueue.waits j c' hj m hm
      have hm' := List.getElem?_eq_getElem (hlt.trans (List.getElem?_eq_some_iff.mp hj).1)
      exact ⟨_, hm', hbefore m _ hlt hm' (hkey _ hm')⟩
    refine ⟨s.setStatus j c' .running, ?_⟩
    show s.calls[j]?.bind _ = _
    rw [hj]
    exact if_pos ⟨hwaiting, hresolved⟩
  · intro hregistering
    obtain ⟨filePath, rest, hcons⟩ := List.exists_cons_of_ne_nil hregistering
    simp only [MutationQueue.step, hcons]
    rcases s.lookup with _ | _ | key
    · exact ⟨_, .inl rfl⟩
    · exact ⟨_, .inr rfl⟩
    · exact ⟨_, .inr rfl⟩
  · intro hall key
    by_contra hsome
    obtain ⟨queue, hentry⟩ := Option.ne_none_iff_exists'.mp hsome
    obtain ⟨n, c, hn, -, hpending, -⟩ := hqueue.entry key queue hentry
    exact hpending (hall c (List.mem_of_getElem? hn))

end Invariant

/-- **File mutations are serialized** in every state of a run along which pending calls for one file
have one key. -/
theorem mutations_serialized (source : KeySource σ) (fileOf : σ → String → φ) (disk : σ) (events : List (Event σ))
    (hclean : Transition.Clean (step source) (OneKeyPerFile fileOf) (State.init disk) events) :
    Transition.Always (step source) (Serialized source fileOf) (State.init disk) events :=
  Transition.always_of_clean (fun _ h => h.serialized) (fun _ _ _ hinv hok hstep => hinv.step hok hstep)
    (runInv_init disk) hclean

section Example

/-- One directory and a link to it. The state says whether the file in it exists. -/
def linkedFs : NodeFs Bool where
  resolve path := path
  realpath exists? path :=
    if exists? ∧ (path = "/link/a" ∨ path = "/dir/a") then .ok "/dir/a" else .error .missing

def linkedFile (_ : Bool) (path : String) : String :=
  if path = "/link/a" then "/dir/a" else path

/-- Two calls for a file that exists, by different paths; the first one throws. -/
theorem mutations_serialized_linked :
    Transition.Always (step (.node linkedFs)) (Serialized (.node linkedFs) linkedFile) (State.init true)
      [.call "/link/a", .lookUp, .register, .call "/dir/a", .lookUp, .register, .start 0,
        .mutate 0 true, .finish 0 true, .start 1, .finish 1 false] :=
  mutations_serialized (.node linkedFs) linkedFile true _ (by decide +kernel)

/-- Two calls by one path to a file that the first one creates. -/
def creatingRun : List (Event Bool) :=
  [.call "/link/a", .lookUp, .register, .start 0, .mutate 0 true,
    .call "/link/a", .lookUp, .register, .start 1]

/-- The two calls, registered under different keys. -/
def byPath : Call := ⟨"/link/a", "/link/a", [], .running⟩

def byCanonicalPath : Call := ⟨"/link/a", "/dir/a", [], .running⟩

/-- **Both functions run at once**: the path is the key of the first call, and the canonical path
that of the second one. -/
theorem mutations_overlap :
    ((Transition.run (step (.node linkedFs)) (State.init false) creatingRun).map State.calls) =
        some [byPath, byCanonicalPath] ∧
      ¬ Transition.Always (step (.node linkedFs)) (Serialized (.node linkedFs) linkedFile)
        (State.init false) creatingRun := by
  have hrun : (Transition.run (step (.node linkedFs)) (State.init false) creatingRun).map State.calls =
      some [byPath, byCanonicalPath] := by
    decide +kernel
  refine ⟨hrun, fun h => ?_⟩
  obtain ⟨s, hs, hcalls⟩ := Option.map_eq_some_iff.mp hrun
  refine (h creatingRun (List.prefix_refl _) s hs).exclusive 0 1 byPath byCanonicalPath
    Nat.zero_ne_one ?_ ?_ rfl rfl rfl
  · rw [hcalls]
    rfl
  · rw [hcalls]
    rfl

end Example

end Mcpi.CodingAgent.MutationQueue
