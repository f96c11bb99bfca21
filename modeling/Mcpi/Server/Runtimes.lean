import Mcpi.Server.RuntimeInvariant

/-!
# Runtimes of sessions

One runtime of a session at a time, and one disposal of each.
-/

namespace Mcpi.Server.Sessions

namespace LiveSessionManager

/-! ## `close` -/

section Close

variable {manager : LiveSessionManager}

theorem Inv.close (h : manager.Inv) (hclosing : manager.closing = true)
    (hconnections : ∀ connection ∈ manager.connections, connection.disconnected = true) :
    ({ manager with closeAwaits := some manager.openings } : LiveSessionManager).Inv := by
  refine ⟨?_, h.unique, h.live, h.resumes, h.opened, h.order, fun _ => ⟨hclosing, hconnections⟩, h.forgotten⟩
  intro k creation hat
  have hkept := h.kept k creation hat
  refine ⟨hkept.opening, hkept.registered, hkept.queued, hkept.disposals, hkept.disposing,
    hkept.disposed, fun hstage => ⟨(hkept.awaited hstage).1, ?_⟩⟩
  rintro awaits heq
  obtain rfl := Option.some.inj heq
  have hat : manager.creations[k]? = some creation := hat
  have hlt := (List.getElem?_eq_some_iff.mp hat).1
  have hopening := hkept.opening (by rw [hstage]; rfl)
  rw [openings, List.mem_filter, hat]
  simp [hlt, hopening]

/-- `close` takes the live sessions and disposes those that are not disposing. -/
theorem Inv.continueClose (h : manager.Inv) {awaits : List Nat}
    (hawaits : manager.closeAwaits = some awaits) (hsettled : manager.settled awaits = true) :
    manager.continueClose.Inv := by
  have hclosing := h.closing (.inl (by simp [hawaits]))
  -- each creation is what it was, but for its disposals
  have hback : ∀ {k : Nat} {creation' : Creation},
      manager.continueClose.creations[k]? = some creation' → ∃ creation : Creation,
        manager.creations[k]? = some creation ∧ creation' = (if manager.liveSessions creation.id =
          some k ∧ creation.disposing = false then
            { creation with disposals := creation.disposals + 1 } else creation) := by
    intro k creation' hat
    rw [LiveSessionManager.continueClose, List.getElem?_mapIdx, Option.map_eq_some_iff] at hat
    obtain ⟨creation, hcreation, rfl⟩ := hat
    exact ⟨creation, hcreation, rfl⟩
  have hsame : ∀ {k : Nat} {creation' : Creation},
      manager.continueClose.creations[k]? = some creation' → ∃ creation : Creation,
        manager.creations[k]? = some creation ∧ creation'.id = creation.id ∧
          creation'.stage = creation.stage ∧ creation'.disposed = creation.disposed ∧
          creation'.disposing = creation.disposing := by
    intro k creation' hat
    obtain ⟨creation, hcreation, rfl⟩ := hback hat
    refine ⟨creation, hcreation, ?_⟩
    split <;> exact ⟨rfl, rfl, rfl, rfl⟩
  refine ⟨?_, ?_, by rintro _ _ ⟨⟩, ?_, ?_, h.order, fun _ => hclosing, fun _ _ => rfl⟩
  · intro k creation' hat
    obtain ⟨creation, hcreation, heq⟩ := hback hat
    obtain ⟨old, hold, hid, hstage, hdisposed, hdisposing⟩ := hsame hat
    obtain rfl := Option.some.inj (hcreation.symm.trans hold)
    have hkept := h.kept k creation hcreation
    refine ⟨?_, fun _ _ => .inr rfl, ?_, ?_, ?_, ?_, ?_⟩
    · rw [hid, hstage]
      exact hkept.opening
    · rw [hid, hstage]
      exact hkept.queued
    · have hdisposals := hkept.disposals
      show creation'.disposals = creation'.disposalsOf true
      by_cases hlive : creation.stage = .live
      · simp only [Creation.disposalsOf, hstage, hlive] at hdisposals ⊢
        rw [heq]
        split
        · rename_i hregistered
          have hopen : manager.closed = false := by
            by_contra hclosed
            rw [h.forgotten (by simpa using hclosed)] at hregistered
            cases hregistered.1
          simp [hregistered.2, hopen] at hdisposals
          simp [hdisposals]
        · rename_i hnot
          have hdone : creation.disposing = true ∨ manager.closed = true := by
            by_contra hneither
            simp only [not_or, Bool.not_eq_true] at hneither
            have hnow : creation.disposed = false := Bool.eq_false_iff.mpr fun hdisposed => by
              simpa [hneither] using (hkept.disposed hdisposed).2
            rcases hkept.registered hlive hnow with hregistered | hclosed
            · exact hnot ⟨hregistered, hneither.1⟩
            · simp [hneither.2] at hclosed
          rw [hdisposals]
          rcases hdone with hdone | hdone
          · simp [hdone]
          · simp [hdone]
      · have hunregistered := h.unregistered hcreation hlive creation.id
        rw [if_neg fun hboth => hunregistered hboth.1] at heq
        rw [heq, hdisposals]
        cases hcase : creation.stage <;> simp_all [Creation.disposalsOf]
    · rw [hdisposing, hstage]
      exact hkept.disposing
    · rw [hdisposed, hstage]
      exact fun hnow => ⟨(hkept.disposed hnow).1, .inr rfl⟩
    · intro hsnapshot
      rw [hstage] at hsnapshot
      have hmem := (hkept.awaited hsnapshot).2 awaits hawaits
      have hdone := List.all_eq_true.mp hsettled k hmem
      simp [hcreation, hsnapshot, CreationStage.pending] at hdone
  · intro k k' creation creation' hat hat' hun hun' heq
    obtain ⟨old, hold, hid, hstage, hdisposed, -⟩ := hsame hat
    obtain ⟨old', hold', hid', hstage', hdisposed', -⟩ := hsame hat'
    rw [Creation.unfinished, hstage, hdisposed] at hun
    rw [Creation.unfinished, hstage', hdisposed'] at hun'
    exact h.unique k k' old old' hold hold' hun hun' (hid.symm.trans (heq.trans hid'))
  · intro id r hjob k creation' hat hid' hun
    obtain ⟨old, hold, hid, hstage, hdisposed, -⟩ := hsame hat
    rw [Creation.unfinished, hstage, hdisposed] at hun
    rw [hstage]
    exact h.resumes id r hjob k old hold (hid.symm.trans hid') hun
  · intro id k hjob
    obtain ⟨creation, hcreation, hstage, hid⟩ := h.opened id k hjob
    have hlt := (List.getElem?_eq_some_iff.mp hcreation).1
    have hlt' : k < manager.continueClose.creations.length := by
      simpa [LiveSessionManager.continueClose] using hlt
    have hat := List.getElem?_eq_getElem hlt'
    obtain ⟨old, hold, hid', hstage', -⟩ := hsame hat
    obtain rfl := Option.some.inj (hcreation.symm.trans hold)
    exact ⟨_, hat, hstage'.trans hstage, hid'.trans hid⟩

end Close

/-! ## Every step -/

section Steps

variable {manager manager' : LiveSessionManager}

variable {connection connection' : ConnectionState}

theorem disconnected_set {connections : List ConnectionState} {c : Nat} (hat : connections[c]? = some connection)
    (hdisconnected : connection.disconnected = true → connection'.disconnected = true)
    (hall : ∀ connection ∈ connections, connection.disconnected = true) :
    ∀ connection ∈ connections.set c connection', connection.disconnected = true := by
  intro other hother
  rcases List.mem_or_eq_of_mem_set hother with hother | rfl
  · exact hall other hother
  · exact hdisconnected (hall connection (List.mem_of_getElem? hat))

theorem Inv.setConnection (h : manager.Inv) {c : Nat} (hat : manager.connections[c]? = some connection)
    (hdisconnected : connection.disconnected = true → connection'.disconnected = true) :
    (manager.setConnection c connection').Inv :=
  h.frame rfl rfl rfl rfl rfl rfl rfl (disconnected_set hat hdisconnected)

theorem touched_removeConnection (closing : Bool) (c : Nat) (live : Creation) :
    Touched closing live (({ live with connections := live.connections.filter (· ≠ c) } : Creation).maybeDispose
        closing) :=
  Touched.maybeDispose ⟨rfl, rfl, rfl, .inl ⟨rfl, rfl⟩⟩ ⟨rfl, rfl⟩

/-- A connection is removed from some of its sessions. -/
theorem Inv.removeConnection (h : manager.Inv) {c : Nat}
    (hat : manager.connections[c]? = some connection) (ids : List String)
    (hdisconnected : connection.disconnected = true → connection'.disconnected = true) :
    ({ manager.setConnection c connection' with
      creations := manager.removeConnection c ids } : LiveSessionManager).Inv := by
  refine h.touch (Updates.related_mapIdx fun k live _ => ?_) rfl rfl rfl rfl rfl rfl
    (disconnected_set hat hdisconnected)
  split
  · exact touched_removeConnection _ c live
  · exact .refl _ _

theorem Inv.attach (h : manager.Inv) {r c k : Nat} {connection : ConnectionState} {live : Creation}
    (hconnection : manager.connections[c]? = some connection)
    (hlive : manager.creations[k]? = some live) :
    (manager.attach r c k connection live).Inv := by
  unfold LiveSessionManager.attach
  split
  · have hset : (manager.setConnection c
        { connection with sessionIds := connection.sessionIds.insert live.id }).Inv :=
      h.setConnection hconnection fun hdisconnected => hdisconnected
    have htouched : Touched manager.closing live
        { live with connections := live.connections.insert c } := ⟨rfl, rfl, rfl, .inl ⟨rfl, rfl⟩⟩
    exact (hset.touchOne hlive htouched).setRequest ..
  · refine Inv.setRequest (h.touchOne hlive ?_) ..
    exact Touched.maybeDispose (.refl _ _) ⟨rfl, rfl⟩

theorem Inv.startOperation (h : manager.Inv) (connection : ConnectionState) (id : String) :
    (manager.startOperation connection id).Inv := by
  unfold LiveSessionManager.startOperation
  split
  · split
    · rename_i live hlive
      split
      · exact h.touchOne hlive ⟨rfl, rfl, rfl, .inl ⟨rfl, rfl⟩⟩
      · exact h
    · exact h
  · exact h

theorem Inv.step (h : manager.Inv) {event : Event} (hstep : manager.step event = some manager') : manager'.Inv := by
  cases moves_of_step hstep with
  | accept hopen =>
    exact ⟨fun k creation hat => (h.kept k creation hat).frame rfl rfl rfl rfl rfl, h.unique,
      h.live, h.resumes, h.opened, h.order,
      fun hclose => absurd (h.closing hclose).1 (ne_true_of_eq_false hopen), h.forgotten⟩
  | ready hat => exact h.setConnection hat fun hdisconnected => hdisconnected
  | closeConnection stage transport hat =>
    exact h.setConnection hat fun hdisconnected => hdisconnected
  | disconnect hat =>
    unfold LiveSessionManager.disconnect
    split
    · exact h
    · exact h.removeConnection hat _ (fun _ => rfl)
  | @acquire c connection id hat hready =>
    -- A connection that handles requests is not closed, so the manager is not.
    have hopen : manager.closed = false := by
      by_contra hclosed
      have hall := (h.closing (.inr (by simpa using hclosed))).2
      have hgone := hall connection (List.mem_of_getElem? hat)
      simp [ConnectionState.handlesRequests, hgone] at hready
    have hadded : ({ manager with
        requests := manager.requests ++ [{ connection := c, stage := .awaitingDisposal }] } :
          LiveSessionManager).Inv := h.frame rfl rfl rfl rfl rfl rfl rfl (fun hall => hall)
    exact hadded.acquire (hadded.free hopen) ..
  | resume hjobs => exact h.resume hjobs _
  | continueCreate hjobs hat => exact h.continueCreate hjobs hat
  | opened idle hat hstage => exact h.runtimeOpened hat hstage idle
  | openFailed hat hstage => exact h.openFailed hat hstage
  | snapshotTaken ok terminal hat hstage =>
    unfold LiveSessionManager.snapshotTaken
    split
    · exact h.register hat hstage terminal
    · exact h.discard hat hstage
  | discarded hat hstage => exact h.discarded hat hstage
  | openingSettled _ hat hsettled => exact h.openingSettled hat hsettled
  | attach _ hconnection hlive => exact h.attach hconnection hlive
  | resolve => exact h.frame rfl rfl rfl rfl rfl rfl rfl (fun hall => hall)
  | resolveFailed => exact h.setRequest ..
  | detach id hat =>
    unfold LiveSessionManager.detach
    split
    · refine h.removeConnection hat [id] ?_
      exact fun hdisconnected => hdisconnected
    · exact h
  | @startOperation c connection id => exact h.startOperation connection id
  | finishOperation hat =>
    exact h.touchOne hat (Touched.maybeDispose ⟨rfl, rfl, rfl, .inl ⟨rfl, rfl⟩⟩ ⟨rfl, rfl⟩)
  | maybeDispose hat => exact h.touchOne hat (Touched.maybeDispose (.refl _ _) ⟨rfl, rfl⟩)
  | terminate hat => exact h.touchOne hat ⟨rfl, rfl, rfl, .inl ⟨rfl, rfl⟩⟩
  | phase idle hat => exact h.touchOne hat ⟨rfl, rfl, rfl, .inl ⟨rfl, rfl⟩⟩
  | disposed ok hat hdisposing hdisposed => exact h.disposed hat hdisposing hdisposed ok
  | closeDisposed hat hclosed hstage => exact h.closeDisposed hat hclosed hstage
  | closing =>
    exact ⟨fun k creation hat => (h.kept k creation hat).frame rfl rfl rfl rfl rfl, h.unique,
      h.live, h.resumes, h.opened, h.order, fun hclose => ⟨rfl, (h.closing hclose).2⟩, h.forgotten⟩
  | close hclosing _ hgone => exact h.close hclosing hgone
  | continueClose hawaits hsettled => exact h.continueClose hawaits hsettled

end Steps

end LiveSessionManager

/-! ## What is called in a step -/

/-- A runtime may be disposed: no connection is attached to it, no operation is running and it is
idle, or it is terminal, or the manager is closing, or its acquisition has failed. -/
def Creation.Disposable (closing : Bool) (creation : Creation) : Prop :=
  creation.connections = [] ∧ creation.operationCount = 0 ∧ creation.idle = true ∨
    creation.terminal = true ∨ closing = true ∨ creation.stage = .discarding

/-- `acquireRuntime` is called once, or `dispose` on runtimes that may be disposed. -/
def Grows (closing : Bool) (creations creations' : List Creation) : Prop :=
  (∃ id, creations' = creations ++ [({ id } : Creation)]) ∨ creations'.length = creations.length ∧
    ∀ (k : Nat) (creation creation' : Creation), creations[k]? = some creation →
      creations'[k]? = some creation' → creation.disposals < creation'.disposals → creation'.Disposable closing

section Grows

variable {closing : Bool} {creations : List Creation}

theorem Grows.mapIdx {f : Nat → Creation → Creation} (hf : ∀ k creation, creations[k]? = some creation →
      creation.disposals < (f k creation).disposals → (f k creation).Disposable closing) :
    Grows closing creations (creations.mapIdx f) := by
  refine .inr ⟨by simp, fun k creation creation' hat hat' hmore => ?_⟩
  rw [List.getElem?_mapIdx, hat] at hat'
  obtain rfl := Option.some.inj hat'
  exact hf k creation hat hmore

theorem Grows.set {k : Nat} {creation creation' : Creation} (hat : creations[k]? = some creation)
    (hnew : creation.disposals < creation'.disposals → creation'.Disposable closing) :
    Grows closing creations (creations.set k creation') := by
  refine .inr ⟨by simp, fun j old new hold hget hmore => ?_⟩
  rcases Updates.set_cases hget with ⟨rfl, rfl⟩ | ⟨-, hget⟩
  · obtain rfl := Option.some.inj (hat.symm.trans hold)
    exact hnew hmore
  · obtain rfl := Option.some.inj (hold.symm.trans hget)
    exact absurd hmore (Nat.lt_irrefl _)

theorem Grows.refl (closing : Bool) (creations : List Creation) : Grows closing creations creations :=
  .inr ⟨rfl, fun k creation creation' hat hat' hmore => by
    obtain rfl := Option.some.inj (hat.symm.trans hat')
    exact absurd hmore (Nat.lt_irrefl _)⟩

theorem Creation.maybeDispose_disposable {live : Creation}
    (hmore : live.disposals < (live.maybeDispose closing).disposals) :
    (live.maybeDispose closing).Disposable closing := by
  unfold Creation.maybeDispose at hmore ⊢
  split
  · rename_i hnot
    rw [if_pos hnot] at hmore
    exact absurd hmore (Nat.lt_irrefl _)
  · rename_i hmay
    simp only [Bool.or_eq_true, not_or, Bool.not_eq_true, Decidable.not_not, decide_eq_true_eq] at hmay
    obtain ⟨⟨⟨-, hconnections⟩, hoperations⟩, hidle⟩ := hmay
    by_cases hterminal : live.terminal = true
    · exact .inr (.inl hterminal)
    · have hidle : live.idle = true := by simpa [hterminal] using hidle
      exact .inl ⟨hconnections, Nat.eq_zero_of_not_pos hoperations, hidle⟩

end Grows

namespace LiveSessionManager

section Grows

variable {manager manager' : LiveSessionManager}

theorem acquire_grows (manager : LiveSessionManager) (closing : Bool) (id : String) (r connection : Nat) :
    Grows closing manager.creations (manager.acquire id r connection).creations := by
  unfold acquire
  split
  · split
    · rename_i existing hexisting
      split
      · exact .refl _ _
      · split
        · exact .set hexisting fun hmore => absurd hmore (Nat.lt_irrefl _)
        · exact .refl _ _
    · exact .refl _ _
  · split
    · exact .refl _ _
    · exact .inl ⟨id, rfl⟩

theorem removeConnection_grows (manager : LiveSessionManager) (c : Nat) (ids : List String) :
    Grows manager.closing manager.creations (manager.removeConnection c ids) := by
  refine .mapIdx fun k live _ hmore => ?_
  split
  · rename_i hregistered
    rw [if_pos hregistered] at hmore
    exact Creation.maybeDispose_disposable hmore
  · rename_i hnot
    rw [if_neg hnot] at hmore
    exact absurd hmore (Nat.lt_irrefl _)

theorem step_grows (h : manager.Inv) {event : Event} (hstep : manager.step event = some manager') :
    Grows manager'.closing manager.creations manager'.creations := by
  -- most moves leave all disposals as they are
  cases moves_of_step hstep with
  | accept => exact .refl _ _
  | ready => exact .refl _ _
  | closeConnection => exact .refl _ _
  | @disconnect c =>
    unfold disconnect
    split
    · exact .refl _ _
    · exact removeConnection_grows manager c _
  | @acquire c _ id => exact acquire_grows { manager with requests := _ } _ id _ c
  | resume => exact acquire_grows { manager with jobs := _ } _ _ _ _
  | continueCreate _ hat =>
    unfold continueCreate
    split
    · exact .set hat fun _ => .inr (.inr (.inr rfl))
    · exact .set hat fun hmore => absurd hmore (Nat.lt_irrefl _)
  | opened idle hat => exact .set hat fun hmore => absurd hmore (Nat.lt_irrefl _)
  | openFailed hat => exact .set hat fun hmore => absurd hmore (Nat.lt_irrefl _)
  | snapshotTaken ok terminal hat =>
    unfold snapshotTaken
    split
    · exact .set hat fun hmore => absurd hmore (Nat.lt_irrefl _)
    · exact .set hat fun _ => .inr (.inr (.inr rfl))
  | discarded hat => exact .set hat fun hmore => absurd hmore (Nat.lt_irrefl _)
  | openingSettled _ _ hsettled =>
    obtain ⟨-, ⟨⟩⟩ := Option.ite_none_left_eq_some.mp hsettled
    dsimp only [setRequest]
    split <;> exact .refl _ _
  | attach _ _ hlive =>
    unfold attach
    split
    · exact .set hlive fun hmore => absurd hmore (Nat.lt_irrefl _)
    · exact .set hlive Creation.maybeDispose_disposable
  | resolve => exact .refl _ _
  | resolveFailed => exact .refl _ _
  | @detach c =>
    unfold detach
    split
    · exact removeConnection_grows manager c _
    · exact .refl _ _
  | startOperation =>
    unfold startOperation
    split
    · split
      · rename_i live hlive
        split
        · exact .set hlive fun hmore => absurd hmore (Nat.lt_irrefl _)
        · exact .refl _ _
      · exact .refl _ _
    · exact .refl _ _
  | finishOperation hat => exact .set hat fun hmore => Creation.maybeDispose_disposable hmore
  | maybeDispose hat => exact .set hat Creation.maybeDispose_disposable
  | terminate hat => exact .set hat fun hmore => absurd hmore (Nat.lt_irrefl _)
  | phase idle hat => exact .set hat fun hmore => absurd hmore (Nat.lt_irrefl _)
  | disposed ok hat => exact .set hat fun hmore => absurd hmore (Nat.lt_irrefl _)
  | closeDisposed hat => exact .set hat fun hmore => absurd hmore (Nat.lt_irrefl _)
  | closing => exact .refl _ _
  | close => exact .refl _ _
  | continueClose hawaits =>
    have hclosing := (h.closing (.inl (by simp [hawaits]))).1
    exact .mapIdx fun _ _ _ _ => .inr (.inr (.inl hclosing))

end Grows

/-! ## Every run -/

/-- No runtime is disposed twice, and each is once where nothing is left to do after `close`. -/
structure DisposedOnce (manager : LiveSessionManager) : Prop where
  atMostOnce : ∀ creation ∈ manager.creations, creation.disposals ≤ 1
  exactlyOnce : manager.closed = true → manager.jobs = [] → ∀ creation ∈ manager.creations,
    creation.stage.hasRuntime = true → creation.disposals = 1

/-- What the steps from a state call: `acquireRuntime` where no earlier runtime of the session is
unfinished, and `dispose` on a runtime that may be disposed. -/
structure CallsWell (manager : LiveSessionManager) : Prop where
  calls : ∀ event manager', manager.step event = some manager' → ∀ (k : Nat) (new : Creation),
    manager.creations.length ≤ k → manager'.creations[k]? = some new →
      ∀ creation ∈ manager.creations, creation.id = new.id → creation.unfinished = false
  disposals : ∀ event manager', manager.step event = some manager' →
    ∀ (k : Nat) (creation creation' : Creation), manager.creations[k]? = some creation →
      manager'.creations[k]? = some creation' → creation.disposals < creation'.disposals →
        creation'.Disposable manager'.closing

theorem Inv.disposedOnce {manager : LiveSessionManager} (h : manager.Inv) : manager.DisposedOnce := by
  constructor
  · intro creation hmem
    obtain ⟨k, hat⟩ := List.mem_iff_getElem?.mp hmem
    rw [(h.kept k creation hat).disposals, Creation.disposalsOf]
    split
    · exact Nat.zero_le _
    · exact Nat.zero_le _
    · exact Nat.zero_le _
    · exact Nat.zero_le _
    · exact Nat.le_refl _
    · exact Nat.le_refl _
    · split
      · exact Nat.le_refl _
      · exact Nat.zero_le _
  · intro hclosed hjobs creation hmem hruntime
    obtain ⟨k, hat⟩ := List.mem_iff_getElem?.mp hmem
    have hkept := h.kept k creation hat
    rw [hkept.disposals, Creation.disposalsOf]
    cases hstage : creation.stage with
    | calling => simp [hstage, CreationStage.hasRuntime] at hruntime
    | rejected => simp [hstage, CreationStage.hasRuntime] at hruntime
    | opened => simpa [hjobs] using hkept.queued hstage
    | awaitingSnapshot => simpa [hclosed] using (hkept.awaited hstage).1
    | discarding => rfl
    | discarded => rfl
    | live => simp [hclosed]

theorem Inv.callsWell {manager : LiveSessionManager} (h : manager.Inv) : manager.CallsWell := by
  constructor
  · intro event manager' hstep k new hk hnew creation hmem hid
    obtain ⟨j, hat⟩ := List.mem_iff_getElem?.mp hmem
    have hj := (List.getElem?_eq_some_iff.mp hat).1
    rcases step_grows h hstep with ⟨id, hcreations⟩ | ⟨hlength, -⟩
    · have hat' : manager'.creations[j]? = some creation := by
        rw [hcreations, List.getElem?_append_left hj, hat]
      have hlt := (List.getElem?_eq_some_iff.mp hnew).1
      rw [hcreations, List.length_append, List.length_singleton] at hlt
      obtain rfl : k = manager.creations.length := by omega
      have hcalling : new.unfinished = true := by
        rw [hcreations, List.getElem?_concat_length] at hnew
        rw [← Option.some.inj hnew]
        rfl
      by_contra hun
      have := (h.step hstep).unique j _ creation new hat' hnew (by simpa using hun) hcalling hid
      omega
    · have hlt := (List.getElem?_eq_some_iff.mp hnew).1
      omega
  · intro event manager' hstep k creation creation' hat hat' hmore
    rcases step_grows h hstep with ⟨id, hcreations⟩ | ⟨-, hdisposals⟩
    · rw [hcreations, List.getElem?_append_left (List.getElem?_eq_some_iff.mp hat).1, hat] at hat'
      obtain rfl := Option.some.inj hat'
      exact absurd hmore (Nat.lt_irrefl _)
    · exact hdisposals k creation creation' hat hat' hmore

/-- **One runtime at a time**, and one disposal of each that was opened. -/
theorem one_runtime (events : List Event) (manager : LiveSessionManager)
    (hrun : Transition.run step {} events = some manager) :
    manager.DisposedOnce ∧ manager.CallsWell := by
  have hinv : manager.Inv := Transition.invariant (fun _ _ _ h hstep => h.step hstep) Inv.start hrun
  exact ⟨hinv.disposedOnce, hinv.callsWell⟩

/-- A session is attached to, detached from and attached to again while it is disposed. -/
theorem one_runtime_reopened :
    let events : List Event := [.accept, .ready 0, .acquire 0 "s", .opened 0 true, .job,
      .snapshotTaken 0 true false, .openingSettled 0, .attach 0, .detach 0 "s", .acquire 0 "s",
      .disposed 0 true, .job, .opened 1 true]
    ∃ manager, Transition.run step {} events = some manager ∧ manager.creations.length = 2 ∧
      manager.DisposedOnce ∧ manager.CallsWell := by
  intro events
  have hrun : (Transition.run step {} events).isSome = true := by decide
  refine ⟨_, (Option.some_get hrun).symm, rfl, ?_⟩
  exact one_runtime events _ (Option.some_get hrun).symm

/-- A runtime that is not idle is disposed where its snapshot fails. -/
theorem disposed_not_idle :
    ((Transition.run step {} [.accept, .ready 0, .acquire 0 "s", .opened 0 false, .job,
      .snapshotTaken 0 false false]).map fun manager =>
        (manager.closing, manager.creations.map fun creation =>
          (creation.disposals, creation.idle, creation.terminal))) =
    some (false, [(1, false, false)]) := by
  decide

end LiveSessionManager

end Mcpi.Server.Sessions
