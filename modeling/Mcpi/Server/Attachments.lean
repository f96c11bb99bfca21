import Mcpi.Server.Runtimes

/-!
# Attachments to live sessions

Between the return of `acquire` and the call of `attach`, another attach may start the disposal of
the live session, or its runtime may report an error. Neither is tested for by `attach`. As long as
it is not called then, the sets of the connections and the live sessions agree.
-/

namespace Mcpi.Server.Sessions

namespace LiveSessionManager

/-! ## The properties -/

/-- What holds of attachments. -/
structure Attachments (manager : LiveSessionManager) : Prop where
  members : ∀ (c k : Nat) (connection : ConnectionState) (live : Creation),
    manager.connections[c]? = some connection → manager.creations[k]? = some live →
      live.stage = .live → (c ∈ live.connections ↔
        live.id ∈ connection.sessionIds ∧ manager.liveSessions live.id = some k)
  resolutions : ∀ resolution ∈ manager.resolutions, resolution.disconnected = false →
    resolution.disposing = false ∧ resolution.terminal = false

/-- An attach or a create of a connection awaits the snapshot of a live session. -/
def Awaits (manager : LiveSessionManager) (c k : Nat) : Prop :=
  ∃ request ∈ manager.requests, request.connection = c ∧ request.stage = .awaitingSnapshot k

instance (manager : LiveSessionManager) (c k : Nat) : Decidable (manager.Awaits c k) :=
  inferInstanceAs (Decidable (∃ request ∈ manager.requests, _))

/-- What an attach may find: the live session is neither disposing nor terminal. -/
def MayAttach (manager : LiveSessionManager) (request : Request) : Prop :=
  match request.stage with
  | .acquired k =>
    ∀ connection ∈ manager.connections[request.connection]?, connection.attachable = true →
      ∀ live ∈ manager.creations[k]?, live.disposing = false ∧ live.terminal = false
  | _ => True

instance (manager : LiveSessionManager) (request : Request) : Decidable (manager.MayAttach request) := by
  unfold MayAttach
  split <;> infer_instance

/-- `attach` is called for a live session that is neither disposing nor terminal, and while it goes
on to the response, the runtime reports no error and the connection does not detach. -/
def Settled (manager : LiveSessionManager) : Event → Prop
  | .attach r => ∀ request ∈ manager.requests[r]?, manager.MayAttach request
  | .terminate k => ∀ request ∈ manager.requests, request.stage = .awaitingSnapshot k →
      ∀ connection ∈ manager.connections[request.connection]?, connection.disconnected = true
  | .detach c id => ∀ k ∈ manager.liveSessions id, ¬ manager.Awaits c k
  | _ => True

instance (manager : LiveSessionManager) (event : Event) : Decidable (manager.Settled event) := by
  unfold Settled
  split <;> infer_instance

/-! ## The invariant -/

/-- What the steps keep. -/
structure AttachInv (manager : LiveSessionManager) : Prop where
  attached : ∀ (k : Nat) (live : Creation), manager.creations[k]? = some live →
    ∀ c ∈ live.connections, manager.liveSessions live.id = some k ∧ ∃ connection : ConnectionState,
      manager.connections[c]? = some connection ∧ live.id ∈ connection.sessionIds
  listed : ∀ (c : Nat) (connection : ConnectionState), manager.connections[c]? = some connection →
    ∀ id ∈ connection.sessionIds, ∃ (k : Nat) (live : Creation), manager.liveSessions id = some k ∧
      manager.creations[k]? = some live ∧ c ∈ live.connections
  gone : ∀ connection ∈ manager.connections, connection.disconnected = true → connection.sessionIds = []
  disposing : ∀ live ∈ manager.creations, live.disposing = true → live.connections = []
  bounded : ∀ request ∈ manager.requests, request.connection < manager.connections.length
  acquired : ∀ request ∈ manager.requests, ∀ k, request.stage = .acquired k →
    ∃ live : Creation, manager.creations[k]? = some live ∧ live.stage = .live
  awaiting : ∀ c k, manager.Awaits c k → ∀ connection : ConnectionState,
    manager.connections[c]? = some connection → connection.disconnected = false →
      ∃ live : Creation, manager.creations[k]? = some live ∧ c ∈ live.connections ∧ live.terminal = false
  resolutions : ∀ resolution ∈ manager.resolutions, resolution.disconnected = false →
    resolution.disposing = false ∧ resolution.terminal = false

theorem AttachInv.start : AttachInv {} :=
  ⟨by simp, by simp, by simp, by simp, by simp, by simp, by simp [Awaits], by simp⟩

theorem AttachInv.attachments {manager : LiveSessionManager} (h : manager.AttachInv) :
    manager.Attachments where
  members := by
    intro c k connection live hconnection hlive _
    constructor
    · intro hmem
      obtain ⟨hregistered, old, hold, hid⟩ := h.attached k live hlive c hmem
      obtain rfl := Option.some.inj (hconnection.symm.trans hold)
      exact ⟨hid, hregistered⟩
    · rintro ⟨hid, hregistered⟩
      obtain ⟨k', live', hregistered', hlive', hmem⟩ := h.listed c connection hconnection live.id hid
      obtain rfl := Option.some.inj (hregistered.symm.trans hregistered')
      obtain rfl := Option.some.inj (hlive.symm.trans hlive')
      exact hmem
  resolutions := h.resolutions

/-! ## Steps that leave the attachments -/

section Frames

variable {manager manager' : LiveSessionManager} {creation creation' live : Creation} {k : Nat}

theorem AttachInv.frame (h : manager.AttachInv) (openingSessions : String → Option Nat) (jobs : List Job)
    (closing : Bool) (closeAwaits : Option (List Nat)) (closed : Bool) :
    ({ manager with openingSessions, jobs, closing, closeAwaits, closed } : LiveSessionManager).AttachInv :=
  ⟨h.attached, h.listed, h.gone, h.disposing, h.bounded, h.acquired, h.awaiting, h.resolutions⟩

/-- Connections keep their sessions, and a new one has none. -/
theorem AttachInv.withConnections (h : manager.AttachInv) {connections : List ConnectionState}
    (hbefore : ∀ (c : Nat) (new : ConnectionState), connections[c]? = some new →
      (∃ old : ConnectionState, manager.connections[c]? = some old ∧ new.sessionIds = old.sessionIds ∧
        new.disconnected = old.disconnected) ∨ manager.connections.length ≤ c ∧ new.sessionIds = [])
    (hafter : ∀ (c : Nat) (old : ConnectionState), manager.connections[c]? = some old →
      ∃ new : ConnectionState, connections[c]? = some new ∧ new.sessionIds = old.sessionIds) :
    ({ manager with connections } : LiveSessionManager).AttachInv := by
  refine ⟨?_, ?_, ?_, h.disposing, ?_, h.acquired, ?_, h.resolutions⟩
  · intro k live hlive c hmem
    obtain ⟨hregistered, old, hold, hid⟩ := h.attached k live hlive c hmem
    obtain ⟨new, hnew, hsame⟩ := hafter c old hold
    exact ⟨hregistered, new, hnew, hsame.symm ▸ hid⟩
  · intro c new hnew id hid
    rcases hbefore c new hnew with ⟨old, hold, hsame, -⟩ | ⟨-, hnone⟩
    · exact h.listed c old hold id (hsame ▸ hid)
    · rw [hnone] at hid
      cases hid
  · intro new hmem hgone
    obtain ⟨c, hnew⟩ := List.mem_iff_getElem?.mp hmem
    rcases hbefore c new hnew with ⟨old, hold, hsame, hsame'⟩ | ⟨-, hnone⟩
    · exact hsame.trans (h.gone old (List.mem_of_getElem? hold) (hsame' ▸ hgone))
    · exact hnone
  · intro request hrequest
    obtain ⟨new, hnew, -⟩ := hafter _ _ (List.getElem?_eq_getElem (h.bounded request hrequest))
    exact (List.getElem?_eq_some_iff.mp hnew).1
  · intro c k hawaits new hnew hopen
    rcases hbefore c new hnew with ⟨old, hold, -, hsame⟩ | ⟨hle, -⟩
    · exact h.awaiting c k hawaits old hold (hsame ▸ hopen)
    · obtain ⟨request, hrequest, hc, -⟩ := hawaits
      have hlt := h.bounded request hrequest
      omega

/-- A request is one that was there, or has acquired a live session, if any, and awaits no snapshot. -/
theorem AttachInv.withRequests (h : manager.AttachInv) {requests : List Request}
    (hrequests : ∀ request ∈ requests, request ∈ manager.requests ∨
      request.connection < manager.connections.length ∧
        (∀ k, request.stage = .acquired k →
          ∃ live : Creation, manager.creations[k]? = some live ∧ live.stage = .live) ∧
        ∀ k, request.stage ≠ .awaitingSnapshot k) :
    ({ manager with requests } : LiveSessionManager).AttachInv := by
  refine ⟨h.attached, h.listed, h.gone, h.disposing, ?_, ?_, ?_, h.resolutions⟩
  · intro request hrequest
    rcases hrequests request hrequest with hold | ⟨hbounded, -⟩
    · exact h.bounded request hold
    · exact hbounded
  · intro request hrequest
    rcases hrequests request hrequest with hold | ⟨-, hacquired, -⟩
    · exact h.acquired request hold
    · exact hacquired
  · rintro c k ⟨request, hrequest, hc, hk⟩
    rcases hrequests request hrequest with hold | ⟨-, -, hsnapshot⟩
    · exact h.awaiting c k ⟨request, hold, hc, hk⟩
    · exact absurd hk (hsnapshot k)

/-- A creation is changed, but not its attachments. -/
structure Calm (manager : LiveSessionManager) (k : Nat) (creation creation' : Creation) : Prop where
  connections : creation'.connections = creation.connections
  stage : creation.stage = .live → creation'.stage = .live
  attached : creation.connections = [] ∨ creation'.id = creation.id ∧
    (creation'.disposing = true → creation.disposing = true) ∧
    (creation'.terminal = creation.terminal ∨ ∀ (c : Nat) (connection : ConnectionState),
      manager.connections[c]? = some connection → connection.disconnected = false → ¬ manager.Awaits c k)

theorem Calm.refl (k : Nat) (creation : Creation) : Calm manager k creation creation :=
  ⟨rfl, fun hstage => hstage, .inr ⟨rfl, fun hdisposing => hdisposing, .inl rfl⟩⟩

theorem Calm.maybeDispose (closing : Bool) (h : Calm manager k creation creation') :
    Calm manager k creation (creation'.maybeDispose closing) := by
  unfold Creation.maybeDispose
  split
  · exact h
  · rename_i hmay
    simp only [Bool.or_eq_true, not_or, Bool.not_eq_true, Decidable.not_not, decide_eq_true_eq] at hmay
    exact ⟨h.connections, h.stage, .inl (h.connections ▸ hmay.1.1.2)⟩

/-- Creations are changed, but not their attachments; a new one has none. -/
theorem AttachInv.calm (h : manager.AttachInv) {creations : List Creation} {liveSessions : String → Option Nat}
    (hbefore : ∀ (k : Nat) (new : Creation), creations[k]? = some new →
      (∃ old : Creation, manager.creations[k]? = some old ∧ Calm manager k old new) ∨
        new.connections = [])
    (hafter : ∀ (k : Nat) (old : Creation), manager.creations[k]? = some old →
      ∃ new : Creation, creations[k]? = some new ∧ Calm manager k old new)
    (hregistered : ∀ id k live c, manager.creations[k]? = some live → c ∈ live.connections →
      manager.liveSessions id = some k → liveSessions id = some k) :
    ({ manager with creations, liveSessions } : LiveSessionManager).AttachInv := by
  refine ⟨?_, ?_, h.gone, ?_, h.bounded, ?_, ?_, h.resolutions⟩
  · intro k new hnew c hmem
    rcases hbefore k new hnew with ⟨old, hold, hcalm⟩ | hempty
    · rw [hcalm.connections] at hmem
      obtain ⟨hlive, hconnection⟩ := h.attached k old hold c hmem
      rcases hcalm.attached with hempty | ⟨hid, -⟩
      · rw [hempty] at hmem
        cases hmem
      · rw [hid]
        exact ⟨hregistered old.id k old c hold hmem hlive, hconnection⟩
    · rw [hempty] at hmem
      cases hmem
  · intro c connection hconnection id hid
    obtain ⟨k, old, hlive, hold, hmem⟩ := h.listed c connection hconnection id hid
    obtain ⟨new, hnew, hcalm⟩ := hafter k old hold
    exact ⟨k, new, hregistered id k old c hold hmem hlive, hnew, hcalm.connections.symm ▸ hmem⟩
  · intro new hmem hdisposing
    obtain ⟨k, hnew⟩ := List.mem_iff_getElem?.mp hmem
    rcases hbefore k new hnew with ⟨old, hold, hcalm⟩ | hempty
    · rw [hcalm.connections]
      rcases hcalm.attached with hempty | ⟨-, hbefore, -⟩
      · exact hempty
      · exact h.disposing old (List.mem_of_getElem? hold) (hbefore hdisposing)
    · exact hempty
  · intro request hrequest k hacquired
    obtain ⟨old, hold, hstage⟩ := h.acquired request hrequest k hacquired
    obtain ⟨new, hnew, hcalm⟩ := hafter k old hold
    exact ⟨new, hnew, hcalm.stage hstage⟩
  · intro c k hawaits connection hconnection hopen
    obtain ⟨old, hold, hmem, hterminal⟩ := h.awaiting c k hawaits connection hconnection hopen
    obtain ⟨new, hnew, hcalm⟩ := hafter k old hold
    refine ⟨new, hnew, hcalm.connections.symm ▸ hmem, ?_⟩
    rcases hcalm.attached with hempty | ⟨-, -, hsame | hnone⟩
    · rw [hempty] at hmem
      cases hmem
    · exact hsame.trans hterminal
    · exact absurd hawaits (hnone c connection hconnection hopen)

theorem AttachInv.calmAll (h : manager.AttachInv) {creations : List Creation} {liveSessions : String → Option Nat}
    (hcalm : Updates.Related (Calm manager) manager.creations creations)
    (hregistered : ∀ id k live c, manager.creations[k]? = some live → c ∈ live.connections →
      manager.liveSessions id = some k → liveSessions id = some k) :
    ({ manager with creations, liveSessions } : LiveSessionManager).AttachInv :=
  h.calm (fun k new hnew => .inl (hcalm.before k new hnew)) hcalm.after hregistered

theorem AttachInv.calmOne (h : manager.AttachInv) (hat : manager.creations[k]? = some creation)
    (hcalm : Calm manager k creation creation') : (manager.setCreation k creation').AttachInv :=
  h.calmAll (Updates.related_set Calm.refl hat hcalm) fun _ _ _ _ _ _ hlive => hlive

/-- The stage of a connection changes, or whether its transport is closed. -/
theorem AttachInv.setConnection (h : manager.AttachInv) {c : Nat}
    {connection connection' : ConnectionState} (hat : manager.connections[c]? = some connection)
    (hids : connection'.sessionIds = connection.sessionIds)
    (hdisconnected : connection'.disconnected = connection.disconnected) :
    (manager.setConnection c connection').AttachInv := by
  have hrelated : Updates.Related (fun _ old new => new.sessionIds = old.sessionIds ∧
      new.disconnected = old.disconnected) manager.connections (manager.connections.set c connection') :=
    Updates.related_set (fun _ _ => ⟨rfl, rfl⟩) hat ⟨hids, hdisconnected⟩
  refine h.withConnections (fun c new hnew => .inl (hrelated.before c new hnew)) fun c old hold => ?_
  obtain ⟨new, hnew, hsame, -⟩ := hrelated.after c old hold
  exact ⟨new, hnew, hsame⟩

theorem AttachInv.accept (h : manager.AttachInv) :
    ({ manager with connections := manager.connections ++ [{}] } : LiveSessionManager).AttachInv := by
  refine h.withConnections (fun c new hnew => ?_) fun c old hold => ⟨old, Updates.concat_of_some hold, rfl⟩
  rcases Updates.concat_cases hnew with hold | ⟨rfl, rfl⟩
  · exact .inl ⟨new, hold, rfl, rfl⟩
  · exact .inr ⟨Nat.le_refl _, rfl⟩

theorem AttachInv.setRequest (h : manager.AttachInv) (r : Nat) {connection : Nat}
    {stage : RequestStage} (hbounded : connection < manager.connections.length)
    (hacquired : ∀ k, stage = .acquired k → ∃ live : Creation, manager.creations[k]? = some live ∧ live.stage = .live)
    (hsnapshot : ∀ k, stage ≠ .awaitingSnapshot k) :
    (manager.setRequest r connection stage).AttachInv :=
  h.withRequests (Updates.forall_mem_set (fun _ => .inl) (.inr ⟨hbounded, hacquired, hsnapshot⟩))

theorem AttachInv.call (h : manager.AttachInv) (id : String) (openingSessions : String → Option Nat) :
    ({ manager with creations := manager.creations ++ [{ id }], openingSessions } : LiveSessionManager).AttachInv := by
  have hcalled : ({ manager with creations := manager.creations ++ [{ id }] } : LiveSessionManager).AttachInv := by
    refine h.calm (fun k new hnew => ?_) (fun k old hold => ⟨old, Updates.concat_of_some hold, .refl k old⟩)
      fun _ _ _ _ _ _ hlive => hlive
    rcases Updates.concat_cases hnew with hold | ⟨-, rfl⟩
    · exact .inl ⟨new, hold, .refl k new⟩
    · exact .inr rfl
  exact hcalled.frame ..

theorem AttachInv.acquire (h : manager.AttachInv) (hinv : manager.Inv) (id : String) (r : Nat)
    {connection : Nat} (hbounded : connection < manager.connections.length) :
    (manager.acquire id r connection).AttachInv := by
  unfold LiveSessionManager.acquire
  split
  · rename_i k hregistered
    split
    · rename_i existing hexisting
      have hstage : existing.stage = .live := by
        obtain ⟨old, hat, hstage, -⟩ := hinv.live id k hregistered
        obtain rfl := Option.some.inj (hexisting.symm.trans hat)
        exact hstage
      split
      · exact h.setRequest r hbounded nofun nofun
      · split
        · have hcalm : Calm manager k existing { existing with waiters := existing.waiters ++ [r] } :=
            ⟨rfl, fun hstage => hstage, .inr ⟨rfl, fun hdisposing => hdisposing, .inl rfl⟩⟩
          exact (h.calmOne hexisting hcalm).setRequest r hbounded nofun nofun
        · refine h.setRequest r hbounded (fun j hj => ?_) nofun
          obtain rfl := RequestStage.acquired.inj hj
          exact ⟨existing, hexisting, hstage⟩
    · exact h
  · split
    · exact h.setRequest r hbounded nofun nofun
    · exact (h.call id _).setRequest r hbounded nofun nofun

theorem AttachInv.openingSettled (h : manager.AttachInv) {r connection k : Nat} {own : Bool}
    (hbounded : connection < manager.connections.length)
    (hat : manager.creations[k]? = some creation)
    (hstep : manager.openingSettled r connection k own creation = some manager') :
    manager'.AttachInv := by
  obtain ⟨-, ⟨⟩⟩ := Option.ite_none_left_eq_some.mp hstep
  have hframe : ∀ openingSessions, ({ manager with openingSessions } : LiveSessionManager).AttachInv :=
    fun _ => h.frame ..
  have hacquired : ∀ j, (if creation.stage = .live then RequestStage.acquired k else .failed) = .acquired j →
      ∃ live : Creation, manager.creations[j]? = some live ∧ live.stage = .live := by
    intro j hj
    split at hj
    next hstage =>
      obtain rfl := RequestStage.acquired.inj hj
      exact ⟨creation, hat, hstage⟩
    · cases hj
  have hsnapshot : ∀ j,
      (if creation.stage = .live then RequestStage.acquired k else .failed) ≠ .awaitingSnapshot j := by
    intro j
    split <;> nofun
  split
  · exact (hframe _).setRequest r hbounded hacquired hsnapshot
  · exact h.setRequest r hbounded hacquired hsnapshot

theorem AttachInv.register (h : manager.AttachInv) (hinv : manager.Inv) (hat : manager.creations[k]? = some creation)
    (hstage : creation.stage = .awaitingSnapshot) (terminal : Bool) :
    ({ manager.setCreation k { creation with stage := .live, terminal } with
      liveSessions := Function.update manager.liveSessions creation.id (some k) } : LiveSessionManager).AttachInv := by
  -- before it, no session of the id is registered
  have hnone : manager.liveSessions creation.id = none := by
    cases hregistered : manager.liveSessions creation.id with
    | none => rfl
    | some j =>
      obtain ⟨other, hother, hlive, hid, hdisposed⟩ := hinv.live creation.id j hregistered
      have hun : other.unfinished = true := by simp [Creation.unfinished, hlive, hdisposed]
      have hun' : creation.unfinished = true := by
        simp [Creation.unfinished, hstage, CreationStage.pending]
      obtain rfl := hinv.unique j k other creation hother hat hun hun' hid
      obtain rfl := Option.some.inj (hat.symm.trans hother)
      simp [hstage] at hlive
  have hempty : creation.connections = [] := by
    refine List.eq_nil_iff_forall_not_mem.mpr fun c hmem => ?_
    have := (h.attached k creation hat c hmem).1
    rw [hnone] at this
    cases this
  have hcalm : Calm manager k creation { creation with stage := .live, terminal } := ⟨rfl, fun _ => rfl, .inl hempty⟩
  refine h.calmAll (Updates.related_set Calm.refl hat hcalm) fun id j live c _ _ hregistered => ?_
  have hid : id ≠ creation.id := by
    rintro rfl
    rw [hnone] at hregistered
    cases hregistered
  exact (Function.update_of_ne hid ..).trans hregistered

/-- A disposal is settled: nothing is attached to its session. -/
theorem AttachInv.disposed (h : manager.AttachInv) (hat : manager.creations[k]? = some creation)
    (hdisposing : creation.disposing = true) (ok : Bool) :
    (manager.disposed k creation ok).AttachInv := by
  have hempty := h.disposing creation (List.mem_of_getElem? hat) hdisposing
  have hcalm : Calm manager k creation { creation with disposed := true, waiters := [] } :=
    ⟨rfl, fun hstage => hstage, .inl hempty⟩
  have hsettled : ({ manager with
      creations := (manager.disposed k creation ok).creations
      liveSessions := (manager.disposed k creation ok).liveSessions } : LiveSessionManager).AttachInv := by
    refine h.calmAll (Updates.related_set Calm.refl hat hcalm) fun id j live c hlive hmem hregistered => ?_
    show (if manager.liveSessions creation.id = some k then _ else _ : String → Option Nat) id = _
    split
    · rename_i hself
      have hid : id ≠ creation.id := by
        rintro rfl
        obtain rfl := Option.some.inj (hregistered.symm.trans hself)
        obtain rfl := Option.some.inj (hat.symm.trans hlive)
        rw [hempty] at hmem
        cases hmem
      exact (Function.update_of_ne hid ..).trans hregistered
    · exact hregistered
  have hrequests : ({ manager with
      creations := (manager.disposed k creation ok).creations
      liveSessions := (manager.disposed k creation ok).liveSessions
      requests := (manager.disposed k creation ok).requests } : LiveSessionManager).AttachInv := by
    refine hsettled.withRequests fun request hrequest => ?_
    obtain ⟨r, hr⟩ := List.mem_iff_getElem?.mp hrequest
    rw [LiveSessionManager.disposed, List.getElem?_mapIdx, Option.map_eq_some_iff] at hr
    obtain ⟨old, hold, rfl⟩ := hr
    have hold := List.mem_of_getElem? hold
    split
    · exact .inr ⟨h.bounded old hold, nofun, nofun⟩
    · exact .inl hold
  exact hrequests.frame ..

/-- `close` takes the live sessions: no connection is left. -/
theorem AttachInv.continueClose (h : manager.AttachInv) (hinv : manager.Inv) {awaits : List Nat}
    (hawaits : manager.closeAwaits = some awaits) : manager.continueClose.AttachInv := by
  have hall := (hinv.closing (.inl (by simp [hawaits]))).2
  have hempty : ∀ (k : Nat) (live : Creation), manager.creations[k]? = some live → live.connections = [] := by
    intro k live hlive
    refine List.eq_nil_iff_forall_not_mem.mpr fun c hmem => ?_
    obtain ⟨-, connection, hconnection, hid⟩ := h.attached k live hlive c hmem
    have hmember := List.mem_of_getElem? hconnection
    rw [h.gone connection hmember (hall connection hmember)] at hid
    cases hid
  have hcalm : Updates.Related (Calm manager) manager.creations manager.continueClose.creations := by
    refine Updates.related_mapIdx fun k live hlive => ?_
    split <;> exact ⟨rfl, fun hstage => hstage, .inl (hempty k live hlive)⟩
  have hnone : ({ manager with
      creations := manager.continueClose.creations
      liveSessions := fun _ => none } : LiveSessionManager).AttachInv := by
    refine h.calmAll hcalm fun id k live c hlive hmem => ?_
    rw [hempty k live hlive] at hmem
    cases hmem
  exact hnone.frame ..

/-- The runtime reports an error, and no attach to it is under way. -/
theorem AttachInv.terminate (h : manager.AttachInv) (hlive : manager.creations[k]? = some live)
    (hawaits : ∀ request ∈ manager.requests, request.stage = .awaitingSnapshot k →
      ∀ connection ∈ manager.connections[request.connection]?, connection.disconnected = true) :
    (manager.setCreation k { live with terminal := true }).AttachInv := by
  refine h.calmOne hlive ⟨rfl, fun hstage => hstage, .inr ⟨rfl, fun hdisposing => hdisposing, .inr ?_⟩⟩
  rintro c connection hconnection hopen ⟨request, hrequest, rfl, hstage⟩
  rw [hawaits request hrequest hstage connection hconnection] at hopen
  cases hopen

/-! ## Steps that attach and detach -/

/-- A connection is attached to a live session that is registered and not terminal. -/
theorem AttachInv.attach (h : manager.AttachInv) {r c k : Nat} {connection : ConnectionState}
    (hconnection : manager.connections[c]? = some connection)
    (hlive : manager.creations[k]? = some live) (hopen : connection.disconnected = false)
    (hregistered : manager.liveSessions live.id = some k)
    (hdisposing : live.disposing = false) (hterminal : live.terminal = false) :
    (((manager.setConnection c
      { connection with sessionIds := connection.sessionIds.insert live.id }).setCreation k
        { live with connections := live.connections.insert c }).setRequest r c (.awaitingSnapshot k)).AttachInv := by
  have hltc := (List.getElem?_eq_some_iff.mp hconnection).1
  have hltk := (List.getElem?_eq_some_iff.mp hlive).1
  -- what was there is there, with more ids and more connections
  have hconnections : Updates.Related (fun _ (old new : ConnectionState) => old.sessionIds ⊆ new.sessionIds)
      manager.connections (manager.connections.set c { connection with
        sessionIds := connection.sessionIds.insert live.id }) :=
    Updates.related_set (fun _ _ => List.Subset.refl _) hconnection fun id hid => List.mem_insert_of_mem hid
  have hcreations : Updates.Related (fun _ (old new : Creation) => old.connections ⊆ new.connections ∧
      new.terminal = old.terminal ∧ new.stage = old.stage) manager.creations (manager.creations.set k { live with
        connections := live.connections.insert c }) :=
    Updates.related_set (fun _ _ => ⟨List.Subset.refl _, rfl, rfl⟩) hlive
      ⟨fun d hd => List.mem_insert_of_mem hd, rfl, rfl⟩
  have hself : ∃ new : ConnectionState, (manager.connections.set c { connection with
      sessionIds := connection.sessionIds.insert live.id })[c]? = some new ∧
        live.id ∈ new.sessionIds := ⟨_, List.getElem?_set_self hltc, List.mem_insert_self⟩
  refine ⟨?_, ?_, ?_, ?_, ?_, ?_, ?_, h.resolutions⟩
  · intro j new hnew d hmem
    rcases Updates.set_cases hnew with ⟨rfl, rfl⟩ | ⟨-, hold⟩
    · rcases List.mem_insert_iff.mp hmem with rfl | hmem
      · exact ⟨hregistered, hself⟩
      · obtain ⟨-, old, hold, hid⟩ := h.attached j live hlive d hmem
        obtain ⟨new, hnew, hsubset⟩ := hconnections.after d old hold
        exact ⟨hregistered, new, hnew, hsubset hid⟩
    · obtain ⟨hregistered', old, hat, hid⟩ := h.attached j new hold d hmem
      obtain ⟨new', hnew', hsubset⟩ := hconnections.after d old hat
      exact ⟨hregistered', new', hnew', hsubset hid⟩
  · intro d new hnew id hid
    have hold : d = c ∧ id = live.id ∨ ∃ old : ConnectionState,
        manager.connections[d]? = some old ∧ id ∈ old.sessionIds := by
      rcases Updates.set_cases hnew with ⟨rfl, rfl⟩ | ⟨-, hold⟩
      · rcases List.mem_insert_iff.mp hid with rfl | hid
        · exact .inl ⟨rfl, rfl⟩
        · exact .inr ⟨connection, hconnection, hid⟩
      · exact .inr ⟨new, hold, hid⟩
    rcases hold with ⟨rfl, rfl⟩ | ⟨old, hold, hid⟩
    · exact ⟨k, _, hregistered, List.getElem?_set_self hltk, List.mem_insert_self⟩
    · obtain ⟨j, other, hregistered', hother, hmem⟩ := h.listed d old hold id hid
      obtain ⟨new', hnew', hsubset, -⟩ := hcreations.after j other hother
      exact ⟨j, new', hregistered', hnew', hsubset hmem⟩
  · refine Updates.forall_mem_set h.gone fun hgone => ?_
    rw [show connection.disconnected = true from hgone] at hopen
    cases hopen
  · refine Updates.forall_mem_set h.disposing fun hnow => ?_
    rw [show live.disposing = true from hnow] at hdisposing
    cases hdisposing
  · intro request hrequest
    show request.connection < (manager.connections.set c _).length
    rw [List.length_set]
    exact Updates.forall_mem_set h.bounded hltc request hrequest
  · refine Updates.forall_mem_set (fun request hrequest j hacquired => ?_) nofun
    obtain ⟨other, hother, hstage'⟩ := h.acquired request hrequest j hacquired
    obtain ⟨new, hnew, -, -, hsame⟩ := hcreations.after j other hother
    exact ⟨new, hnew, hsame.trans hstage'⟩
  · rintro d j ⟨request, hrequest, hd, hj⟩ new hnew hnot
    rcases List.mem_or_eq_of_mem_set hrequest with hrequest | rfl
    · have hold : ∃ old : ConnectionState, manager.connections[d]? = some old ∧ old.disconnected = false := by
        rcases Updates.set_cases hnew with ⟨rfl, rfl⟩ | ⟨-, hold⟩
        · exact ⟨connection, hconnection, hopen⟩
        · exact ⟨new, hold, hnot⟩
      obtain ⟨old, hold, hnot⟩ := hold
      obtain ⟨other, hother, hmem, hterminal'⟩ := h.awaiting d j ⟨request, hrequest, hd, hj⟩ old hold hnot
      obtain ⟨new', hnew', hsubset, hsame, -⟩ := hcreations.after j other hother
      exact ⟨new', hnew', hsubset hmem, hsame.trans hterminal'⟩
    · obtain rfl := RequestStage.awaitingSnapshot.inj hj
      obtain rfl : c = d := hd
      exact ⟨_, List.getElem?_set_self hltk, List.mem_insert_self, hterminal⟩

/-- What becomes of a creation when a connection is removed from some sessions -/
structure Removed (manager : LiveSessionManager) (c : Nat) (ids : List String) (k : Nat)
    (live live' : Creation) : Prop where
  id : live'.id = live.id
  stage : live'.stage = live.stage
  terminal : live'.terminal = live.terminal
  members : ∀ d, d ∈ live'.connections ↔ d ∈ live.connections ∧
    ¬ (d = c ∧ live.id ∈ ids ∧ manager.liveSessions live.id = some k)
  disposing : live'.disposing = true → live.disposing = true ∨ live'.connections = []

theorem maybeDispose_same (closing : Bool) (live : Creation) :
    let live' := live.maybeDispose closing
    live'.id = live.id ∧ live'.stage = live.stage ∧ live'.terminal = live.terminal ∧
      live'.connections = live.connections ∧
      (live'.disposing = true → live.disposing = true ∨ live'.connections = []) := by
  unfold Creation.maybeDispose
  split
  · exact ⟨rfl, rfl, rfl, rfl, .inl⟩
  · rename_i hmay
    simp only [Bool.or_eq_true, not_or, Bool.not_eq_true, Decidable.not_not, decide_eq_true_eq] at hmay
    exact ⟨rfl, rfl, rfl, rfl, fun _ => .inr hmay.1.1.2⟩

theorem removed_removeConnection (manager : LiveSessionManager) (c : Nat) (ids : List String) :
    Updates.Related (Removed manager c ids) manager.creations (manager.removeConnection c ids) := by
  refine Updates.related_mapIdx fun k live _ => ?_
  split
  next hregistered =>
    obtain ⟨hid, hstage, hterminal, hconnections, hdisposing⟩ :=
      maybeDispose_same manager.closing { live with connections := live.connections.filter (· ≠ c) }
    refine ⟨hid, hstage, hterminal, fun d => ?_, hdisposing⟩
    rw [hconnections]
    simp [hregistered]
  next hnot =>
    refine ⟨rfl, rfl, rfl, fun d => ⟨fun hmem => ⟨hmem, fun hall => hnot hall.2⟩, And.left⟩, .inl⟩

/-- A connection is removed from some sessions, and awaits the snapshot of none of them. -/
theorem AttachInv.removeConnection (h : manager.AttachInv) (hinv : manager.Inv) {c : Nat}
    {connection connection' : ConnectionState} (hat : manager.connections[c]? = some connection)
    (ids : List String)
    (hids : ∀ id, id ∈ connection'.sessionIds ↔ id ∈ connection.sessionIds ∧ id ∉ ids)
    (hgone : connection'.disconnected = true → connection'.sessionIds = [])
    (hdisconnected : connection.disconnected = true → connection'.disconnected = true)
    (hawaits : connection'.disconnected = false → ∀ id ∈ ids, ∀ k, manager.liveSessions id = some k →
      ¬ manager.Awaits c k) :
    ({ manager.setConnection c connection' with
      creations := manager.removeConnection c ids } : LiveSessionManager).AttachInv := by
  have hremoved := removed_removeConnection manager c ids
  refine ⟨?_, ?_, Updates.forall_mem_set h.gone hgone, ?_, ?_, ?_, ?_, h.resolutions⟩
  · -- who is attached lists the session
    intro k new hnew d hmem
    obtain ⟨live, hlive, hnew⟩ := hremoved.before k new hnew
    obtain ⟨hmem, hkept⟩ := (hnew.members d).mp hmem
    obtain ⟨hregistered, other, hother, hlisted⟩ := h.attached k live hlive d hmem
    rw [hnew.id]
    refine ⟨hregistered, ?_⟩
    by_cases hd : c = d
    · subst hd
      obtain rfl := Option.some.inj (hat.symm.trans hother)
      have hlt := (List.getElem?_eq_some_iff.mp hat).1
      refine ⟨connection', List.getElem?_set_self hlt, (hids live.id).mpr ⟨hlisted, fun hin => ?_⟩⟩
      exact hkept ⟨rfl, hin, hregistered⟩
    · exact ⟨other, (List.getElem?_set_ne hd).trans hother, hlisted⟩
  · -- and the other way round
    intro d other hother id hlisted
    have hold : ∃ old : ConnectionState, manager.connections[d]? = some old ∧
        id ∈ old.sessionIds ∧ ¬ (d = c ∧ id ∈ ids) := by
      rcases Updates.set_cases hother with ⟨rfl, rfl⟩ | ⟨hd, hold⟩
      · obtain ⟨hin, hkept⟩ := (hids id).mp hlisted
        exact ⟨connection, hat, hin, fun hboth => hkept hboth.2⟩
      · exact ⟨other, hold, hlisted, fun hboth => hd hboth.1⟩
    obtain ⟨old, hold, hin, hkept⟩ := hold
    obtain ⟨k, live, hregistered, hlive, hmem⟩ := h.listed d old hold id hin
    obtain ⟨same, hsame, -, hid, -⟩ := hinv.live id k hregistered
    obtain rfl := Option.some.inj (hlive.symm.trans hsame)
    obtain ⟨new, hget, hnew⟩ := hremoved.after k live hlive
    refine ⟨k, new, hregistered, hget, (hnew.members d).mpr ⟨hmem, ?_⟩⟩
    rintro ⟨hd, hremoved, -⟩
    exact hkept ⟨hd, hid ▸ hremoved⟩
  · intro new hmem hnow
    obtain ⟨live, hlive, k, hnew⟩ := hremoved.mem_before hmem
    rcases hnew.disposing hnow with hbefore | hempty
    · have hempty := h.disposing live hlive hbefore
      refine List.eq_nil_iff_forall_not_mem.mpr fun d hd => ?_
      have := ((hnew.members d).mp hd).1
      rw [hempty] at this
      cases this
    · exact hempty
  · intro request hrequest
    show request.connection < (manager.connections.set c _).length
    rw [List.length_set]
    exact h.bounded request hrequest
  · intro request hrequest k hacquired
    obtain ⟨live, hlive, hstage⟩ := h.acquired request hrequest k hacquired
    obtain ⟨new, hget, hnew⟩ := hremoved.after k live hlive
    exact ⟨new, hget, hnew.stage.trans hstage⟩
  · -- who awaits a snapshot is still attached
    intro d k hwaits other hother hopen
    have hold : ∃ old : ConnectionState, manager.connections[d]? = some old ∧
        old.disconnected = false ∧ (d = c → connection'.disconnected = false) := by
      rcases Updates.set_cases hother with ⟨rfl, rfl⟩ | ⟨hd, hold⟩
      · refine ⟨connection, hat, ?_, fun _ => hopen⟩
        by_contra hnot
        rw [hdisconnected (by simpa using hnot)] at hopen
        cases hopen
      · exact ⟨other, hold, hopen, fun heq => absurd heq hd⟩
    obtain ⟨old, hold, hnot, hself⟩ := hold
    obtain ⟨live, hlive, hmem, hterminal⟩ := h.awaiting d k hwaits old hold hnot
    obtain ⟨new, hget, hnew⟩ := hremoved.after k live hlive
    refine ⟨new, hget, (hnew.members d).mpr ⟨hmem, ?_⟩, hnew.terminal.trans hterminal⟩
    rintro ⟨rfl, hin, hregistered⟩
    exact hawaits (hself rfl) live.id hin k hregistered hwaits

/-- An attach or a create resolves: its session is neither disposing nor terminal. -/
theorem AttachInv.resolve (h : manager.AttachInv) {r c k : Nat} {connection : ConnectionState}
    (hconnection : manager.connections[c]? = some connection)
    (hlive : manager.creations[k]? = some live) (hawaits : manager.Awaits c k) :
    (manager.resolve r c connection live).AttachInv := by
  have hresolved : (manager.setRequest r c .resolved).AttachInv :=
    h.setRequest r (List.getElem?_eq_some_iff.mp hconnection).1 nofun nofun
  refine ⟨hresolved.attached, hresolved.listed, hresolved.gone, hresolved.disposing,
    hresolved.bounded, hresolved.acquired, hresolved.awaiting, ?_⟩
  intro resolution hmem hopen
  rcases List.mem_append.mp hmem with hold | hnew
  · exact h.resolutions resolution hold hopen
  · rw [List.mem_singleton.mp hnew] at hopen ⊢
    obtain ⟨same, hsame, hmember, hterminal⟩ := h.awaiting c k hawaits connection hconnection hopen
    obtain rfl := Option.some.inj (hlive.symm.trans hsame)
    refine ⟨Bool.eq_false_iff.mpr fun hdisposing => ?_, hterminal⟩
    rw [h.disposing live (List.mem_of_getElem? hlive) hdisposing] at hmember
    cases hmember

/-- The stage of a creation that is not live changes: nothing is attached to it. -/
theorem AttachInv.setStage (h : manager.AttachInv) (hat : manager.creations[k]? = some creation)
    (hstage : creation.stage ≠ .live) (hconnections : creation'.connections = creation.connections)
    (hsame : creation'.id = creation.id ∧ creation'.disposing = creation.disposing ∧
      creation'.terminal = creation.terminal) : (manager.setCreation k creation').AttachInv :=
  h.calmOne hat ⟨hconnections, fun hlive => absurd hlive hstage,
    .inr ⟨hsame.1, fun hdisposing => hsame.2.1.symm.trans hdisposing, .inl hsame.2.2⟩⟩

/-- An attach of an acquired session, neither disposing nor terminal when it is called. -/
theorem AttachInv.attachAcquired (h : manager.AttachInv) (hinv : manager.Inv) {r c k : Nat}
    {connection : ConnectionState} (hsettled : manager.Settled (.attach r))
    (hrequest : manager.requests[r]? = some { connection := c, stage := .acquired k })
    (hconnection : manager.connections[c]? = some connection)
    (hlive : manager.creations[k]? = some live) : (manager.attach r c k connection live).AttachInv := by
  unfold LiveSessionManager.attach
  split
  next hattachable =>
    obtain ⟨hdisposing, hterminal⟩ := hsettled _ hrequest connection hconnection hattachable live hlive
    have hopen : connection.disconnected = false := by
      simp [ConnectionState.attachable, ConnectionState.handlesRequests] at hattachable
      exact hattachable.1.1
    have hstage : live.stage = .live := by
      obtain ⟨same, hsame, hstage⟩ := h.acquired _ (List.mem_of_getElem? hrequest) k rfl
      obtain rfl := Option.some.inj (hlive.symm.trans hsame)
      exact hstage
    -- `close` has closed every connection, and this one is open
    have hnotClosed : manager.closed ≠ true := by
      intro hclosed
      have hgone := (hinv.closing (.inr hclosed)).2 connection (List.mem_of_getElem? hconnection)
      rw [hgone] at hopen
      cases hopen
    have hkept := hinv.kept k live hlive
    have hdisposed : live.disposed = false := Bool.eq_false_iff.mpr fun hdisposed => by
      rcases (hkept.disposed hdisposed).2 with hnow | hclosed
      · rw [hnow] at hdisposing
        cases hdisposing
      · exact hnotClosed hclosed
    have hregistered := (hkept.registered hstage hdisposed).resolve_right hnotClosed
    exact h.attach hconnection hlive hopen hregistered hdisposing hterminal
  next =>
    have hcalm := (Calm.refl k live : Calm manager k live live).maybeDispose manager.closing
    exact (h.calmOne hlive hcalm).setRequest r (List.getElem?_eq_some_iff.mp hconnection).1 (by simp) (by simp)

/-- A connection detaches from a session, whose snapshot it does not await. -/
theorem AttachInv.detach (h : manager.AttachInv) (hinv : manager.Inv) {c : Nat} {id : String}
    {connection : ConnectionState} (hsettled : manager.Settled (.detach c id))
    (hat : manager.connections[c]? = some connection) : (manager.detach c connection id).AttachInv := by
  unfold LiveSessionManager.detach
  split
  · refine h.removeConnection hinv hat [id] (by simp) (fun hgone => ?_) (fun hgone => hgone) ?_
    · simp [h.gone connection (List.mem_of_getElem? hat) hgone]
    · intro _ id' hid k hregistered
      obtain rfl := List.mem_singleton.mp hid
      exact hsettled k hregistered
  · exact h

theorem AttachInv.startOperation (h : manager.AttachInv) (connection : ConnectionState) (id : String) :
    (manager.startOperation connection id).AttachInv := by
  unfold LiveSessionManager.startOperation
  split
  · split
    next live hlive =>
      split
      · exact h.calmOne hlive ⟨rfl, fun hstage => hstage, .inr ⟨rfl, fun hdisposing => hdisposing, .inl rfl⟩⟩
      · exact h
    · exact h
  · exact h

end Frames

/-! ## Every run -/

theorem AttachInv.step {manager manager' : LiveSessionManager} {event : Event}
    (h : manager.AttachInv) (hinv : manager.Inv) (hsettled : manager.Settled event)
    (hstep : manager.step event = some manager') : manager'.AttachInv := by
  cases moves_of_step hstep with
  | accept => exact h.accept
  | ready hat => exact h.setConnection hat rfl rfl
  | closeConnection stage transport hat => exact h.setConnection hat rfl rfl
  | disconnect hat =>
    unfold LiveSessionManager.disconnect
    split
    · exact h
    · exact h.removeConnection hinv hat _ (by simp) (fun _ => rfl) (fun _ => rfl) (by simp)
  | @acquire c connection id hat =>
    -- the request comes first, and waits for a disposal
    have hlt := (List.getElem?_eq_some_iff.mp hat).1
    have hadded : ({ manager with
        requests := manager.requests ++ [{ connection := c, stage := .awaitingDisposal }] } :
          LiveSessionManager).AttachInv :=
      h.withRequests (Updates.forall_mem_concat (fun _ => .inl) (.inr ⟨hlt, nofun, nofun⟩))
    have hframe : ({ manager with
        requests := manager.requests ++ [{ connection := c, stage := .awaitingDisposal }] } :
          LiveSessionManager).Inv := hinv.frame rfl rfl rfl rfl rfl rfl rfl (fun hall => hall)
    exact hadded.acquire hframe id _ hlt
  | @resume id r jobs request hjobs hrequest =>
    have hpopped : ({ manager with jobs } : LiveSessionManager).AttachInv := h.frame ..
    exact hpopped.acquire (hinv.pop hjobs) id r (h.bounded request (List.mem_of_getElem? hrequest))
  | @continueCreate id k jobs creation hjobs hat =>
    have hstage : creation.stage ≠ .live := by
      obtain ⟨old, hold, hstage, -⟩ := hinv.opened id k (by simp [hjobs])
      obtain rfl := Option.some.inj (hat.symm.trans hold)
      rw [hstage]
      nofun
    have hpopped : ({ manager with jobs } : LiveSessionManager).AttachInv := h.frame ..
    unfold continueCreate
    split <;> exact hpopped.setStage hat hstage rfl ⟨rfl, rfl, rfl⟩
  | @opened k creation idle hat hstage =>
    have hset : (manager.setCreation k { creation with stage := .opened, idle }).AttachInv :=
      h.setStage hat (by simp [hstage]) rfl ⟨rfl, rfl, rfl⟩
    exact hset.frame ..
  | openFailed hat hstage => exact h.setStage hat (by simp [hstage]) rfl ⟨rfl, rfl, rfl⟩
  | snapshotTaken ok terminal hat hstage =>
    unfold LiveSessionManager.snapshotTaken
    split
    · exact h.register hinv hat hstage terminal
    · exact h.setStage hat (by simp [hstage]) rfl ⟨rfl, rfl, rfl⟩
  | discarded hat hstage => exact h.setStage hat (by simp [hstage]) rfl ⟨rfl, rfl, rfl⟩
  | openingSettled hrequest hat hopening =>
    exact h.openingSettled (h.bounded _ (List.mem_of_getElem? hrequest)) hat hopening
  | attach hrequest hconnection hlive => exact h.attachAcquired hinv hsettled hrequest hconnection hlive
  | resolve hrequest hconnection hlive =>
    exact h.resolve hconnection hlive ⟨_, List.mem_of_getElem? hrequest, rfl, rfl⟩
  | @resolveFailed r c k hrequest =>
    exact h.setRequest r (h.bounded _ (List.mem_of_getElem? hrequest)) nofun nofun
  | detach id hat => exact h.detach hinv hsettled hat
  | startOperation => exact h.startOperation ..
  | @finishOperation k live hat =>
    have hcalm : Calm manager k live { live with operationCount := live.operationCount - 1 } :=
      ⟨rfl, fun hstage => hstage, .inr ⟨rfl, fun hdisposing => hdisposing, .inl rfl⟩⟩
    exact h.calmOne hat (hcalm.maybeDispose _)
  | maybeDispose hat => exact h.calmOne hat ((Calm.refl _ _).maybeDispose _)
  | terminate hat => exact h.terminate hat hsettled
  | phase idle hat =>
    exact h.calmOne hat ⟨rfl, fun hstage => hstage, .inr ⟨rfl, fun hdisposing => hdisposing, .inl rfl⟩⟩
  | disposed ok hat hdisposing => exact h.disposed hat hdisposing ok
  | closeDisposed hat =>
    exact h.calmOne hat ⟨rfl, fun hstage => hstage, .inr ⟨rfl, fun hdisposing => hdisposing, .inl rfl⟩⟩
  | closing => exact h.frame ..
  | close => exact h.frame ..
  | continueClose hawaits => exact h.continueClose hinv hawaits

/-- **Attachments are consistent** along the runs all of whose events are settled. -/
theorem attachments_consistent (events : List Event) (hsettled : Transition.Clean step Settled {} events) :
    Transition.Always step Attachments {} events := by
  have hgood : ∀ manager : LiveSessionManager, manager.Inv ∧ manager.AttachInv →
      manager.Attachments := fun _ h => h.2.attachments
  have hstep : ∀ (manager : LiveSessionManager) (event : Event) (manager' : LiveSessionManager),
      manager.Inv ∧ manager.AttachInv → manager.Settled event →
        manager.step event = some manager' → manager'.Inv ∧ manager'.AttachInv :=
    fun _ _ _ h hclean hstep => ⟨h.1.step hstep, h.2.step h.1 hclean hstep⟩
  exact Transition.always_of_clean hgood hstep ⟨Inv.start, AttachInv.start⟩ hsettled

/-- Two connections attach to a session, then one disconnects. -/
theorem attachments_consistent_shared :
    Transition.Always step Attachments {} [.accept, .accept, .ready 0, .ready 1, .acquire 0 "s",
      .acquire 1 "s", .opened 0 true, .job, .snapshotTaken 0 true false, .openingSettled 0,
      .openingSettled 1, .attach 0, .attach 1, .resolve 0 true, .resolve 1 true, .disconnect 0] :=
  attachments_consistent _ (by decide)

/-- Two connections wait for one session to be opened, and the first disconnects. Its attach starts
the disposal of the session, and the second attaches to it all the same. -/
theorem attached_while_disposing :
    ¬ Transition.Always step Attachments {} [.accept, .accept, .ready 0, .ready 1, .acquire 0 "s",
      .acquire 1 "s", .opened 0 true, .job, .disconnect 0, .snapshotTaken 0 true false,
      .openingSettled 0, .openingSettled 1, .attach 0, .attach 1, .resolve 1 true] := by
  intro h
  have hrun : (Transition.run step {} [.accept, .accept, .ready 0, .ready 1, .acquire 0 "s",
      .acquire 1 "s", .opened 0 true, .job, .disconnect 0, .snapshotTaken 0 true false,
      .openingSettled 0, .openingSettled 1, .attach 0, .attach 1, .resolve 1 true]).isSome = true := by
    decide
  have hattachments := h _ (List.prefix_refl _) _ (Option.some_get hrun).symm
  have hresolution := hattachments.resolutions
    { disconnected := false, disposing := true, terminal := false } (List.mem_of_getElem? (i := 0) rfl)
    rfl
  exact nomatch hresolution.1

end LiveSessionManager

end Mcpi.Server.Sessions
