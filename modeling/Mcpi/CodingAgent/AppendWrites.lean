import Mcpi.CodingAgent.SessionManager
import Mcpi.Lib.Transition

/-!
# Appends under write failures

`_appendEntry` pushes, indexes and moves the leaf before it writes, and nothing undoes that
when the write throws. As long as every write goes through, the file of a flushed session
holds the header and the entries in memory, and a call that throws (for an id that does not
exist) has changed nothing. A write that throws leaves an entry behind in memory.
-/

namespace Mcpi.CodingAgent.SessionManager

variable {δ : Type}

/-! ## Writes -/

section Writes

variable {stringify : FileEntry δ → String} {sm : SessionManager δ} {entry : SessionEntry δ} {outcome : Outcome}

@[simp] theorem hasAssistant_append (a b : List (FileEntry δ)) :
    hasAssistant (a ++ b) = (hasAssistant a || hasAssistant b) := by
  simp [hasAssistant]

@[simp] theorem hasAssistant_entry (entry : SessionEntry δ) : hasAssistant [.entry entry] = entry.isAssistant := by
  simp [hasAssistant, getEntries, FileEntry.entry?]

theorem lines_append (a b : List (FileEntry δ)) :
    lines stringify (a ++ b) = lines stringify a ++ lines stringify b := by
  simp [lines, String.join_append]

@[simp] theorem push_fileEntries : (sm.push entry).fileEntries = sm.fileEntries ++ [.entry entry] :=
  rfl

/-- What holds of a persisted session and its file between two calls. -/
structure FileInvariant (stringify : FileEntry δ → String) (sm : SessionManager δ) : Prop where
  persisted : sm.persist = true
  /-- After the first flush the file holds what the memory holds. -/
  written : sm.flushed = true → sm.file = some (lines stringify sm.fileEntries)
  /-- Before it there is no file, and no assistant message that asks for one. -/
  pending : sm.flushed = false → sm.file = none ∧ hasAssistant sm.fileEntries = false

/-- Appending an entry comes to a write: the session is flushed, or this entry flushes it. -/
def writesEntry (sm : SessionManager δ) (isAssistant : Bool) : Bool :=
  sm.flushed || isAssistant

/-- An append that writes nothing, or whose write goes through, returns. -/
theorem appendEntry_returns (entry : SessionEntry δ) (outcome : Outcome) (hinv : FileInvariant stringify sm)
    (hdone : writesEntry sm entry.isAssistant = true → outcome = .done) :
    (_appendEntry stringify sm entry outcome).2 = true ∧
      (_appendEntry stringify sm entry outcome).1.toCore = (sm.push entry).toCore ∧
      FileInvariant stringify (_appendEntry stringify sm entry outcome).1 := by
  have hpersist : (sm.push entry).persist = true := hinv.persisted
  cases hflushed : sm.flushed with
  | true =>
    -- one line is appended to what the file holds
    obtain rfl := hdone (by simp [writesEntry, hflushed])
    have hfile : (sm.push entry).file = some (lines stringify sm.fileEntries) :=
      hinv.written hflushed
    have hflushed' : (sm.push entry).flushed = true := hflushed
    simp only [_appendEntry, _persist, hpersist, hflushed', appendFile, hfile, write, if_true,
      Bool.not_true, Bool.and_false, Bool.false_eq_true, if_false, Option.getD_some]
    refine ⟨trivial, trivial, rfl, fun _ => ?_, nofun⟩
    exact congrArg some (lines_append sm.fileEntries [.entry entry]).symm
  | false =>
    obtain ⟨hfile, hnone⟩ := hinv.pending hflushed
    have hfile' : (sm.push entry).file = none := hfile
    have hflushed' : (sm.push entry).flushed = false := hflushed
    cases hassistant : entry.isAssistant with
    | true =>
      -- the first assistant message writes the whole history
      obtain rfl := hdone (by simp [writesEntry, hassistant])
      simp only [_appendEntry, _persist, hpersist, hflushed', push_fileEntries,
        hasAssistant_append, hasAssistant_entry, hassistant, createFile, hfile', write,
        Bool.or_true, Bool.not_false, Bool.and_true, if_true, String.empty_append]
      exact ⟨trivial, trivial, rfl, fun _ => rfl, nofun⟩
    | false =>
      simp only [_appendEntry, _persist, hpersist, hflushed', push_fileEntries,
        hasAssistant_append, hasAssistant_entry, hassistant, hnone, Bool.or_false,
        Bool.false_and, Bool.false_eq_true, if_true, if_false]
      refine ⟨trivial, trivial, hpersist, fun h => ?_, fun _ => ⟨hfile, ?_⟩⟩
      · exact absurd (hflushed'.symm.trans h) Bool.false_ne_true
      · simp [hnone, hassistant]

theorem appendEntry_throws (entry : SessionEntry δ) (hinv : FileInvariant stringify sm)
    (hwrites : writesEntry sm entry.isAssistant = true) (hthrows : outcome ≠ .done) :
    (_appendEntry stringify sm entry outcome).2 = false ∧ (_appendEntry stringify sm entry outcome).1.fileEntries =
        sm.fileEntries ++ [.entry entry] := by
  have hpersist : (sm.push entry).persist = true := hinv.persisted
  cases hflushed : sm.flushed with
  | true =>
    have hfile : (sm.push entry).file = some (lines stringify sm.fileEntries) :=
      hinv.written hflushed
    have hflushed' : (sm.push entry).flushed = true := hflushed
    cases outcome with
    | done => exact absurd rfl hthrows
    | openFails | fails =>
      simp [_appendEntry, _persist, hpersist, hflushed', appendFile, hfile, write]
  | false =>
    obtain ⟨hfile, -⟩ := hinv.pending hflushed
    have hfile' : (sm.push entry).file = none := hfile
    have hflushed' : (sm.push entry).flushed = false := hflushed
    have hassistant : entry.isAssistant = true := by
      simpa [writesEntry, hflushed] using hwrites
    cases outcome with
    | done => exact absurd rfl hthrows
    | openFails | fails =>
      simp [_appendEntry, _persist, hpersist, hflushed', createFile, hfile', write, hassistant]

end Writes

/-! ## Runs -/

/-- A manager between two calls: what it knew before the last one, and whether that returned. -/
structure Run (δ : Type) where
  sm : SessionManager δ
  before : Core δ
  returned : Bool

/-- A call, what it takes from its surroundings and what becomes of its writes. -/
structure Call (δ : Type) where
  stamp : Stamp
  outcome : Outcome
  operation : Operation δ

/-- The next call of a run. -/
def Run.step (stringify : FileEntry δ → String) (run : Run δ) (next : Call δ) : Option (Run δ) :=
  let (sm, returned) := call stringify run.sm next.stamp next.outcome next.operation
  some ⟨sm, run.sm.toCore, returned⟩

/-- A flushed session is what its file holds, and a call that threw changed nothing in memory. -/
structure Run.Consistent (stringify : FileEntry δ → String) (run : Run δ) : Prop where
  file : run.sm.flushed = true → run.sm.file = some (lines stringify run.sm.fileEntries)
  undone : run.returned = false → run.sm.toCore = run.before

/-- A session without an assistant message, as `newSession` and `createBranchedSession` leave it:
the file is put off until one arrives. -/
def pendingSession (fileEntries : List (FileEntry δ)) : SessionManager δ :=
  { _buildIndex fileEntries with persist := true, flushed := false, file := none }

/-- A session as `_setSessionFile` leaves it, from a file of the lines of its entries. -/
def openedSession (stringify : FileEntry δ → String) (fileEntries : List (FileEntry δ)) : SessionManager δ :=
  { _buildIndex fileEntries with
    persist := true
    flushed := true
    file := some (lines stringify fileEntries) }

/-- Where a run begins. -/
inductive Starts (stringify : FileEntry δ → String) : SessionManager δ → Prop
  | pending (fileEntries : List (FileEntry δ)) (hnone : hasAssistant fileEntries = false) :
      Starts stringify (pendingSession fileEntries)
  | opened (fileEntries : List (FileEntry δ)) :
      Starts stringify (openedSession stringify fileEntries)

/-- A run before its first call. -/
def Run.start (sm : SessionManager δ) : Run δ := ⟨sm, sm.toCore, true⟩

/-- What an operation appends, if it gets that far, is an assistant message. -/
def Operation.appendsAssistant : Operation δ → Bool
  | .append (.message (.assistant ..)) => true
  | _ => false

/-- The operation appends an entry: it is no plain move, and the id it names exists. -/
def Operation.appends (sm : SessionManager δ) : Operation δ → Bool
  | .append _ => true
  | .appendLabelChange targetId _ => sm.known (some targetId)
  | .branch _ | .resetLeaf => false
  | .branchWithSummary branchFromId .. => sm.known branchFromId

/-- **The condition**: no write of the call throws. -/
def WritesSucceed (run : Run δ) (next : Call δ) : Prop :=
  (next.operation.appends run.sm && writesEntry run.sm next.operation.appendsAssistant) = true → next.outcome = .done

instance (run : Run δ) (next : Call δ) : Decidable (WritesSucceed run next) :=
  inferInstanceAs (Decidable (_ → _))

/-! ## Calls -/

section Runs

variable {stringify : FileEntry δ → String} {sm : SessionManager δ} {run run' : Run δ} {next : Call δ}

@[simp] theorem fileEntries_buildIndex (fileEntries : List (FileEntry δ)) :
    (_buildIndex fileEntries).fileEntries = fileEntries := by
  have hkeeps : ∀ (entries : List (SessionEntry δ)) (core : Core δ),
      (entries.foldl indexEntry core).fileEntries = core.fileEntries := by
    intro entries
    induction entries with
    | nil => exact fun _ => rfl
    | cons entry entries ih =>
      intro core
      rw [List.foldl_cons, ih, indexEntry]
      split <;> rfl
  exact hkeeps _ _

theorem Starts.fileInvariant (h : Starts stringify sm) : FileInvariant stringify sm := by
  cases h with
  | pending fileEntries hnone =>
    refine ⟨rfl, nofun, fun _ => ⟨rfl, ?_⟩⟩
    show hasAssistant (_buildIndex fileEntries).fileEntries = false
    rw [fileEntries_buildIndex]
    exact hnone
  | opened fileEntries =>
    refine ⟨rfl, fun _ => ?_, nofun⟩
    show some _ = some (lines stringify (_buildIndex fileEntries).fileEntries)
    rw [fileEntries_buildIndex]

/-- The message of an appended body decides whether it is an assistant's. -/
theorem isAssistant_append (stamp : Stamp) (parentId : LeafId) (body : AppendBody δ) :
    (sm.newEntry stamp parentId body.entryBody).isAssistant = (Operation.append body).appendsAssistant := by
  cases body with
  | message sent => cases sent <;> rfl
  | _ => rfl

/-- Moving the leaf and setting labels leave the file alone. -/
theorem FileInvariant.congr {sm' : SessionManager δ} (hinv : FileInvariant stringify sm)
    (hpersist : sm'.persist = sm.persist) (hflushed : sm'.flushed = sm.flushed)
    (hfile : sm'.file = sm.file) (hentries : sm'.fileEntries = sm.fileEntries) :
    FileInvariant stringify sm' := by
  obtain ⟨h₁, h₂, h₃⟩ := hinv
  exact ⟨hpersist.trans h₁, by rwa [hflushed, hfile, hentries], by rwa [hflushed, hfile, hentries]⟩

/-- **A call all of whose writes succeed** keeps the file the memory's, and throws only where
nothing has changed. -/
theorem call_succeeds (hinv : FileInvariant stringify run.sm) (hok : WritesSucceed run next)
    (hstep : run.step stringify next = some run') :
    FileInvariant stringify run'.sm ∧ (run'.returned = false → run'.sm.toCore = run'.before) := by
  obtain ⟨stamp, outcome, operation⟩ := next
  cases hstep
  cases operation with
  | append body =>
    obtain ⟨hreturns, -, hinv'⟩ := appendEntry_returns (run.sm.newEntry stamp run.sm.leafId body.entryBody) outcome hinv
      (fun h => hok (by rw [isAssistant_append] at h; simpa [Operation.appends] using h))
    exact ⟨hinv', fun h => absurd (h.symm.trans hreturns) Bool.false_ne_true⟩
  | appendLabelChange targetId label =>
    simp only [appendLabelChange]
    split
    next hknown =>
      obtain ⟨hreturns, -, hinv'⟩ := appendEntry_returns
        (run.sm.newEntry stamp run.sm.leafId (.label targetId label)) outcome hinv
        (fun h => hok (Bool.and_eq_true_iff.mpr ⟨hknown, h⟩))
      split
      next hresult =>
        rw [hresult] at hinv'
        exact ⟨hinv'.congr rfl rfl rfl rfl, nofun⟩
      next hresult =>
        rw [hresult] at hreturns
        exact absurd hreturns Bool.false_ne_true
    · exact ⟨hinv, fun _ => rfl⟩
  | branch branchFromId =>
    simp only [branch]
    split
    · exact ⟨hinv.congr rfl rfl rfl rfl, nofun⟩
    · exact ⟨hinv, fun _ => rfl⟩
  | resetLeaf => exact ⟨hinv.congr rfl rfl rfl rfl, nofun⟩
  | branchWithSummary branchFromId summary details fromHook =>
    simp only [branchWithSummary]
    split
    next hknown =>
      have hmoved : FileInvariant stringify
          { run.sm with leafId := branchFromId.map some } := hinv.congr rfl rfl rfl rfl
      obtain ⟨hreturns, -, hinv'⟩ := appendEntry_returns
        (newEntry { run.sm with leafId := branchFromId.map some } stamp (branchFromId.map some)
          (.branch_summary (branchFromId.getD "root") summary details fromHook))
        outcome hmoved (fun h => hok (Bool.and_eq_true_iff.mpr ⟨hknown, h⟩))
      exact ⟨hinv', fun h => absurd (h.symm.trans hreturns) Bool.false_ne_true⟩
    · exact ⟨hinv, fun _ => rfl⟩

/-- **A call whose write throws** leaves one more entry in memory. -/
theorem call_throws (hinv : FileInvariant stringify run.sm) (hthrows : ¬ WritesSucceed run next)
    (hstep : run.step stringify next = some run') :
    run'.returned = false ∧ ∃ entry, run'.sm.fileEntries = run.sm.fileEntries ++ [.entry entry] := by
  obtain ⟨stamp, outcome, operation⟩ := next
  simp only [WritesSucceed, Classical.not_imp, Bool.and_eq_true] at hthrows
  obtain ⟨⟨happends, hwrites⟩, houtcome⟩ := hthrows
  cases hstep
  cases operation with
  | append body =>
    obtain ⟨hfalse, hentries⟩ := appendEntry_throws (run.sm.newEntry stamp run.sm.leafId body.entryBody) hinv
      (by rwa [isAssistant_append]) houtcome
    exact ⟨hfalse, _, hentries⟩
  | appendLabelChange targetId label =>
    have hknown : run.sm.known (some targetId) = true := happends
    obtain ⟨hfalse, hentries⟩ := appendEntry_throws
      (run.sm.newEntry stamp run.sm.leafId (.label targetId label)) hinv hwrites houtcome
    simp only [appendLabelChange, hknown, if_true]
    split
    next hresult =>
      rw [hresult] at hfalse
      exact absurd hfalse.symm Bool.false_ne_true
    next hresult =>
      rw [hresult] at hentries
      exact ⟨rfl, _, hentries⟩
  | branch | resetLeaf => exact absurd happends Bool.false_ne_true
  | branchWithSummary branchFromId summary details fromHook =>
    have hknown : run.sm.known branchFromId = true := happends
    have hmoved : FileInvariant stringify
        { run.sm with leafId := branchFromId.map some } := hinv.congr rfl rfl rfl rfl
    obtain ⟨hfalse, hentries⟩ := appendEntry_throws (newEntry { run.sm with leafId := branchFromId.map some } stamp
        (branchFromId.map some)
        (.branch_summary (branchFromId.getD "root") summary details fromHook))
      hmoved hwrites houtcome
    simp only [branchWithSummary, hknown, if_true]
    exact ⟨hfalse, _, hentries⟩

end Runs

/-- What a run keeps while its writes succeed. -/
def Inv (stringify : FileEntry δ → String) (run : Run δ) : Prop :=
  FileInvariant stringify run.sm ∧ (run.returned = false → run.sm.toCore = run.before)

/-- **Appends are consistent** in every state along a run exactly if no write throws. -/
theorem appends_consistent (stringify : FileEntry δ → String) (sm : SessionManager δ)
    (hstart : Starts stringify sm) (calls : List (Call δ)) (run : Run δ)
    (hrun : Transition.run (Run.step stringify) (Run.start sm) calls = some run) :
    Transition.Always (Run.step stringify) (Run.Consistent stringify) (Run.start sm) calls ↔
      Transition.Clean (Run.step stringify) WritesSucceed (Run.start sm) calls := by
  have hinv : Inv stringify (Run.start sm) := ⟨hstart.fileInvariant, nofun⟩
  refine Transition.always_iff_clean (fun _ h => ⟨h.1.written, h.2⟩)
    (fun _ _ _ hinv hok hstep => call_succeeds hinv.1 hok hstep)
    (fun run next run' hinv hthrows hstep hgood => ?_) hinv hrun
  obtain ⟨hfalse, entry, hentries⟩ := call_throws hinv.1 hthrows hstep
  have hsame : run'.sm.fileEntries = run'.before.fileEntries :=
    congrArg Core.fileEntries (hgood.undone hfalse)
  have hbefore : run'.before = run.sm.toCore := by
    cases hstep
    rfl
  rw [hbefore, hentries] at hsame
  simpa using congrArg List.length hsame

section Example

/-- A new session, with the identifiers its calls get. -/
def sampleHeader : SessionHeader := ⟨some 3, "s1", "2026-01-01T00:00:00.000Z", "/work", none⟩

def sampleSession : SessionManager Unit := pendingSession [.session sampleHeader]

def userStamp : Stamp :=
  ⟨fun _ => "0f7a3c52-9d1e-4b6f-8a20-5c3d7e9b1f04", "2026-01-01T00:00:01.000Z"⟩

def assistantStamp : Stamp :=
  ⟨fun _ => "b81d04e6-2c57-4f90-b3ad-16e8c07f5d29", "2026-01-01T00:00:02.000Z"⟩

def userText : Operation Unit :=
  .append (.message (.user (some (.text "hi")) (.ms 1)))

def assistantText : Operation Unit :=
  .append (.message (.assistant (some [.text "hello"]) "openai" "gpt" none .stop (.ms 2)))

/-- `JSON.stringify` on the lines of the sample. -/
def sampleLine : FileEntry Unit → String
  | .session _ =>
    "\x7b\"type\":\"session\",\"version\":3,\"id\":\"s1\",\"timestamp\":\"2026-01-01T00:00:00.000Z\",\"cwd\":\"/work\"\x7d"
  | .entry ⟨_, _, _, .message (.user ..)⟩ =>
    "\x7b\"type\":\"message\",\"id\":\"0f7a3c52\",\"parentId\":null,\"timestamp\":\"2026-01-01T00:00:01.000Z\"," ++
      "\"message\":\x7b\"role\":\"user\",\"content\":\"hi\",\"timestamp\":1\x7d\x7d"
  | .entry _ =>
    "\x7b\"type\":\"message\",\"id\":\"b81d04e6\",\"parentId\":\"0f7a3c52\",\"timestamp\":\"2026-01-01T00:00:02.000Z\"," ++
      "\"message\":\x7b\"role\":\"assistant\",\"content\":[\x7b\"type\":\"text\",\"text\":\"hello\"\x7d],\"provider\":\"openai\"," ++
      "\"model\":\"gpt\",\"stopReason\":\"stop\",\"timestamp\":2\x7d\x7d"

/-- A prompt and its answer, whose flush goes through. -/
theorem appends_consistent_flush :
    Transition.Always (Run.step sampleLine) (Run.Consistent sampleLine) (Run.start sampleSession)
      [⟨userStamp, .openFails, userText⟩, ⟨assistantStamp, .done, assistantText⟩] := by
  refine (appends_consistent _ _ (.pending _ rfl) _ _ rfl).mpr ?_
  refine ⟨nofun, fun run hrun => ?_⟩
  cases hrun
  exact ⟨fun _ => rfl, fun _ _ => trivial⟩

/-- **An append that throws is not undone**: the answer whose flush fails stays in memory. -/
theorem appends_inconsistent :
    ¬ Transition.Always (Run.step sampleLine) (Run.Consistent sampleLine) (Run.start sampleSession)
      [⟨userStamp, .done, userText⟩, ⟨assistantStamp, .openFails, assistantText⟩] := by
  intro h
  have hundone := (h _ (List.prefix_refl _) _ rfl).undone rfl
  have hlengths := congrArg (fun core => core.fileEntries.length) hundone
  exact absurd hlengths (by decide)

end Example

end Mcpi.CodingAgent.SessionManager
