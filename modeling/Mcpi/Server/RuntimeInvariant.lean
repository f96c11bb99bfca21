import Mcpi.Lib.Updates
import Mcpi.Server.LiveSessions

/-!
# What holds of runtimes

A runtime that is not disposed is found: by `openingSessions` while it is being acquired, by
`liveSessions` until its disposal is settled. Only `close` forgets live sessions, and after it no
request comes. The requests that wait for a disposal are in the queue before the runtime that one of
them opens, so none of them finds the session of such a runtime forgotten.
-/

namespace Mcpi.Server.Sessions

/-! ## The invariant -/

/-- How often `dispose` was called. -/
def Creation.disposalsOf (closed : Bool) (creation : Creation) : Nat :=
  match creation.stage with
  | .calling | .rejected | .opened | .awaitingSnapshot => 0
  | .discarding | .discarded => 1
  | .live => if creation.disposing || closed then 1 else 0

/-- What waits for a disposal goes on before the runtime of the same session. -/
def Job.Before : Job → Job → Prop
  | .opened id _, .resume id' _ => id ≠ id'
  | .opened _ k, .opened _ k' => k ≠ k'
  | .resume .., _ => True

namespace LiveSessionManager

/-- What holds of a creation. -/
structure Kept (manager : LiveSessionManager) (k : Nat) (creation : Creation) : Prop where
  opening : creation.stage.pending = true → manager.openingSessions creation.id = some k
  registered : creation.stage = .live → creation.disposed = false →
    manager.liveSessions creation.id = some k ∨ manager.closed = true
  queued : creation.stage = .opened → .opened creation.id k ∈ manager.jobs
  disposals : creation.disposals = creation.disposalsOf manager.closed
  disposing : creation.disposing = true → creation.stage = .live
  disposed : creation.disposed = true → creation.stage = .live ∧ (creation.disposing = true ∨ manager.closed = true)
  awaited : creation.stage = .awaitingSnapshot → manager.closed = false ∧
    ∀ awaits, manager.closeAwaits = some awaits → k ∈ awaits

/-- What the steps keep. -/
structure Inv (manager : LiveSessionManager) : Prop where
  kept : ∀ k creation, manager.creations[k]? = some creation → manager.Kept k creation
  unique : ∀ (k k' : Nat) (creation creation' : Creation), manager.creations[k]? = some creation →
    manager.creations[k']? = some creation' → creation.unfinished = true →
    creation'.unfinished = true → creation.id = creation'.id → k = k'
  live : ∀ id k, manager.liveSessions id = some k → ∃ creation : Creation,
    manager.creations[k]? = some creation ∧ creation.stage = .live ∧ creation.id = id ∧ creation.disposed = false
  resumes : ∀ id r, .resume id r ∈ manager.jobs → ∀ (k : Nat) (creation : Creation),
    manager.creations[k]? = some creation → creation.id = id → creation.unfinished = true →
    creation.stage = .calling ∨ creation.stage = .opened
  opened : ∀ id k, .opened id k ∈ manager.jobs → ∃ creation : Creation,
    manager.creations[k]? = some creation ∧ creation.stage = .opened ∧ creation.id = id
  order : manager.jobs.Pairwise Job.Before
  closing : manager.closeAwaits ≠ none ∨ manager.closed = true →
    manager.closing = true ∧ ∀ connection ∈ manager.connections, connection.disconnected = true
  forgotten : manager.closed = true → ∀ id, manager.liveSessions id = none

theorem Kept.frame {manager manager' : LiveSessionManager} {k : Nat} {creation : Creation}
    (h : manager.Kept k creation) (hopening : manager'.openingSessions = manager.openingSessions)
    (hlive : manager'.liveSessions = manager.liveSessions) (hjobs : manager'.jobs = manager.jobs)
    (hawaits : manager'.closeAwaits = manager.closeAwaits)
    (hclosed : manager'.closed = manager.closed) : manager'.Kept k creation := by
  refine ⟨?_, ?_, ?_, ?_, h.disposing, ?_, ?_⟩
  · rw [hopening]
    exact h.opening
  · rw [hlive, hclosed]
    exact h.registered
  · rw [hjobs]
    exact h.queued
  · rw [hclosed]
    exact h.disposals
  · rw [hclosed]
    exact h.disposed
  · rw [hclosed, hawaits]
    exact h.awaited

theorem Kept.fresh {manager : LiveSessionManager} {k : Nat} {creation : Creation}
    (h : manager.Kept k creation) (hstage : creation.stage ≠ .live) :
    creation.disposing = false ∧ creation.disposed = false :=
  ⟨Bool.eq_false_iff.mpr fun hdisposing => hstage (h.disposing hdisposing),
    Bool.eq_false_iff.mpr fun hdisposed => hstage (h.disposed hdisposed).1⟩

theorem Inv.start : Inv {} :=
  ⟨by simp, by simp, nofun, nofun, nofun, .nil, by simp, by simp⟩

/-! ## Steps that leave the stages -/

/-- A creation is changed, but not how far it is. Its disposal may start. -/
structure Touched (closing : Bool) (creation creation' : Creation) : Prop where
  id : creation'.id = creation.id
  stage : creation'.stage = creation.stage
  disposed : creation'.disposed = creation.disposed
  disposal : creation'.disposing = creation.disposing ∧ creation'.disposals = creation.disposals ∨
    closing = false ∧ creation.stage = .live ∧ creation.disposing = false ∧
      creation'.disposing = true ∧ creation'.disposals = creation.disposals + 1

theorem Touched.refl (closing : Bool) (creation : Creation) : Touched closing creation creation :=
  ⟨rfl, rfl, rfl, .inl ⟨rfl, rfl⟩⟩

variable {closing : Bool}

theorem Touched.unfinished {creation creation' : Creation}
    (h : Touched closing creation creation') : creation'.unfinished = creation.unfinished := by
  rw [Creation.unfinished, Creation.unfinished, h.stage, h.disposed]

theorem Touched.maybeDispose {creation creation' : Creation} (h : Touched closing creation creation')
    (hsame : creation'.disposing = creation.disposing ∧ creation'.disposals = creation.disposals) :
    Touched closing creation (creation'.maybeDispose closing) := by
  unfold Creation.maybeDispose
  split
  · exact h
  · rename_i hmay
    simp only [Bool.or_eq_true, not_or, Bool.not_eq_true, Decidable.not_not, decide_eq_true_eq] at hmay
    exact ⟨h.id, h.stage, h.disposed, .inr ⟨hmay.1.1.1.1.1, h.stage ▸ hmay.1.1.1.1.2,
      hsame.1 ▸ hmay.1.1.1.2, rfl, congrArg (· + 1) hsame.2⟩⟩

/-- What the invariant says is kept where creations are only touched. -/
theorem Inv.touch {manager manager' : LiveSessionManager} (h : manager.Inv)
    (hcreations : Updates.Related (fun _ => Touched manager.closing) manager.creations manager'.creations)
    (hlive : manager'.liveSessions = manager.liveSessions)
    (hopening : manager'.openingSessions = manager.openingSessions)
    (hjobs : manager'.jobs = manager.jobs) (hclosing : manager'.closing = manager.closing)
    (hawaits : manager'.closeAwaits = manager.closeAwaits)
    (hclosed : manager'.closed = manager.closed)
    (hconnections : (∀ connection ∈ manager.connections, connection.disconnected = true) →
      ∀ connection ∈ manager'.connections, connection.disconnected = true) : manager'.Inv := by
  refine ⟨?_, ?_, ?_, ?_, ?_, ?_, ?_, ?_⟩
  · intro k creation' hcreation'
    -- what is kept of the old creation is kept of the touched one
    obtain ⟨creation, hcreation, htouched⟩ := hcreations.before k creation' hcreation'
    have hkept := h.kept k creation hcreation
    refine ⟨?_, ?_, ?_, ?_, ?_, ?_, ?_⟩
    · rw [htouched.stage, hopening, htouched.id]
      exact hkept.opening
    · rw [htouched.stage, htouched.disposed, hlive, htouched.id, hclosed]
      exact hkept.registered
    · rw [htouched.stage, htouched.id, hjobs]
      exact hkept.queued
    · rw [hclosed]
      rcases htouched.disposal with ⟨hdisposing, hdisposals⟩ | ⟨hopen, hstage, hidle, hnow, hnext⟩
      · rw [hdisposals, hkept.disposals, Creation.disposalsOf, Creation.disposalsOf, htouched.stage, hdisposing]
      · -- a disposal that starts now starts before the manager has closed
        have hopen : manager.closed = false := by
          by_contra hclosed
          have := (h.closing (.inr (by simpa using hclosed))).1
          simp [hopen] at this
        rw [hnext, hkept.disposals]
        simp [Creation.disposalsOf, htouched.stage, hstage, hidle, hnow, hopen]
    · intro hdisposing
      rw [htouched.stage]
      rcases htouched.disposal with ⟨hsame, -⟩ | ⟨-, hstage, -⟩
      · exact hkept.disposing (hsame ▸ hdisposing)
      · exact hstage
    · rw [htouched.stage, htouched.disposed, hclosed]
      intro hdisposed
      rcases htouched.disposal with ⟨hsame, -⟩ | ⟨-, hstage, -, hnow, -⟩
      · rw [hsame]
        exact hkept.disposed hdisposed
      · exact ⟨hstage, .inl hnow⟩
    · rw [htouched.stage, hclosed, hawaits]
      exact hkept.awaited
  · intro k k' creation' creation'' hcreation' hcreation'' hunfinished' hunfinished'' hid
    obtain ⟨creation, hcreation, htouched⟩ := hcreations.before k creation' hcreation'
    obtain ⟨other, hother, htouched'⟩ := hcreations.before k' creation'' hcreation''
    rw [htouched.unfinished] at hunfinished'
    rw [htouched'.unfinished] at hunfinished''
    rw [htouched.id, htouched'.id] at hid
    exact h.unique k k' creation other hcreation hother hunfinished' hunfinished'' hid
  · intro id k hk
    obtain ⟨creation, hcreation, hstage, hid, hdisposed⟩ := h.live id k (hlive ▸ hk)
    obtain ⟨creation', hcreation', htouched⟩ := hcreations.after k creation hcreation
    exact ⟨creation', hcreation', htouched.stage.trans hstage, htouched.id.trans hid, htouched.disposed.trans hdisposed⟩
  · intro id r hjob k creation' hcreation' hid hunfinished
    obtain ⟨creation, hcreation, htouched⟩ := hcreations.before k creation' hcreation'
    rw [htouched.stage]
    exact h.resumes id r (hjobs ▸ hjob) k creation hcreation (htouched.id ▸ hid) (htouched.unfinished ▸ hunfinished)
  · intro id k hjob
    obtain ⟨creation, hcreation, hstage, hid⟩ := h.opened id k (hjobs ▸ hjob)
    obtain ⟨creation', hcreation', htouched⟩ := hcreations.after k creation hcreation
    exact ⟨creation', hcreation', htouched.stage.trans hstage, htouched.id.trans hid⟩
  · rw [hjobs]
    exact h.order
  · rw [hawaits, hclosed, hclosing]
    exact fun hclose => ⟨(h.closing hclose).1, hconnections (h.closing hclose).2⟩
  · rw [hclosed, hlive]
    exact h.forgotten

/-! ## Steps of one creation -/

variable {jobs : List Job}

section Advance

variable {manager manager' : LiveSessionManager} {k : Nat} {creation creation' : Creation}

/-- A creation gets on, and no creation becomes unfinished. -/
theorem Inv.advance (h : manager.Inv) (hcreation : manager.creations[k]? = some creation)
    (hcreations : manager'.creations = manager.creations.set k creation')
    (hid : creation'.id = creation.id)
    (hunfinished : creation'.unfinished = true → creation.unfinished = true)
    (hkept : manager'.Kept k creation')
    (hothers : ∀ j other, j ≠ k → manager.creations[j]? = some other → manager.Kept j other → manager'.Kept j other)
    (hlive : ∀ id j, manager'.liveSessions id = some j → j ≠ k → manager.liveSessions id = some j)
    (hself : ∀ id, manager'.liveSessions id = some k →
      creation'.stage = .live ∧ creation'.id = id ∧ creation'.disposed = false)
    (hresumes : ∀ id r, .resume id r ∈ manager'.jobs → ∀ (j : Nat) (other : Creation),
      manager'.creations[j]? = some other → other.id = id → other.unfinished = true →
      other.stage = .calling ∨ other.stage = .opened)
    (hopened : ∀ id j, .opened id j ∈ manager'.jobs → j = k ∧ creation'.stage = .opened ∧
      creation'.id = id ∨ j ≠ k ∧ .opened id j ∈ manager.jobs)
    (horder : manager'.jobs.Pairwise Job.Before)
    (hclosing : manager'.closeAwaits ≠ none ∨ manager'.closed = true → manager'.closing = true ∧
      ∀ connection ∈ manager'.connections, connection.disconnected = true)
    (hforgotten : manager'.closed = true → ∀ id, manager'.liveSessions id = none) :
    manager'.Inv := by
  have hlt := (List.getElem?_eq_some_iff.mp hcreation).1
  have hset : manager'.creations[k]? = some creation' := by
    rw [hcreations, List.getElem?_set_self hlt]
  have hother : ∀ {j : Nat}, j ≠ k → manager'.creations[j]? = manager.creations[j]? := by
    intro j hj
    rw [hcreations, List.getElem?_set_ne (Ne.symm hj)]
  refine ⟨?_, ?_, ?_, hresumes, ?_, horder, hclosing, hforgotten⟩
  · intro j other hat
    rw [hcreations] at hat
    rcases Updates.set_cases hat with ⟨rfl, rfl⟩ | ⟨hj, hat⟩
    · exact hkept
    · exact hothers j other hj hat (h.kept j other hat)
  · -- the old creation stands for the new one
    have hold : ∀ {j : Nat} {other : Creation}, manager'.creations[j]? = some other →
        other.unfinished = true → ∃ old : Creation, manager.creations[j]? = some old ∧
          old.unfinished = true ∧ old.id = other.id := by
      intro j other hat hun
      rw [hcreations] at hat
      rcases Updates.set_cases hat with ⟨rfl, rfl⟩ | ⟨-, hat⟩
      · exact ⟨creation, hcreation, hunfinished hun, hid.symm⟩
      · exact ⟨other, hat, hun, rfl⟩
    intro j j' one two hone htwo hunfinishedOne hunfinishedTwo heq
    obtain ⟨old, hat, hun, hid₁⟩ := hold hone hunfinishedOne
    obtain ⟨old', hat', hun', hid₂⟩ := hold htwo hunfinishedTwo
    exact h.unique j j' old old' hat hat' hun hun' (hid₁.trans (heq.trans hid₂.symm))
  · intro id j hj
    by_cases hjk : j = k
    · subst hjk
      exact ⟨creation', hset, hself id hj⟩
    · obtain ⟨other, hat, hstage⟩ := h.live id j (hlive id j hj hjk)
      exact ⟨other, (hother hjk).trans hat, hstage⟩
  · intro id j hjob
    rcases hopened id j hjob with ⟨rfl, hstage, hid'⟩ | ⟨hjk, hjob⟩
    · exact ⟨creation', hset, hstage, hid'⟩
    · obtain ⟨other, hat, hstage⟩ := h.opened id j hjob
      exact ⟨other, (hother hjk).trans hat, hstage⟩

theorem Inv.setStage (h : manager.Inv) (hcreation : manager.creations[k]? = some creation)
    (hid : creation'.id = creation.id)
    (hunfinished : creation'.unfinished = true → creation.unfinished = true)
    (hkept : manager.Kept k creation') (hopened : creation.stage ≠ .opened)
    (hcalling : creation.stage = .calling → creation'.unfinished = false)
    (hunregistered : ∀ id, manager.liveSessions id ≠ some k) :
    (manager.setCreation k creation').Inv := by
  refine h.advance hcreation rfl hid hunfinished (hkept.frame rfl rfl rfl rfl rfl) ?_ ?_ ?_ ?_ ?_
    h.order h.closing h.forgotten
  · exact fun j other _ _ hother => hother.frame rfl rfl rfl rfl rfl
  · exact fun id j hj _ => hj
  · exact fun id hk => absurd hk (hunregistered id)
  · intro id r hjob j other hat hother hun
    rcases Updates.set_cases hat with ⟨rfl, rfl⟩ | ⟨-, hat⟩
    · rcases h.resumes id r hjob j creation hcreation (hid ▸ hother) (hunfinished hun) with hold | hold
      · rw [hcalling hold] at hun
        cases hun
      · exact absurd hold hopened
    · exact h.resumes id r hjob j other hat hother hun
  · intro id j hjob
    refine .inr ⟨?_, hjob⟩
    rintro rfl
    obtain ⟨old, hat, hstage, -⟩ := h.opened id j hjob
    obtain rfl := Option.some.inj (hcreation.symm.trans hat)
    exact hopened hstage

theorem Inv.unregistered (h : manager.Inv) (hcreation : manager.creations[k]? = some creation)
    (hstage : creation.stage ≠ .live) (id : String) : manager.liveSessions id ≠ some k := by
  intro hk
  obtain ⟨old, hat, hlive, -⟩ := h.live id k hk
  obtain rfl := Option.some.inj (hcreation.symm.trans hat)
  exact hstage hlive

theorem Inv.openFailed (h : manager.Inv) (hcreation : manager.creations[k]? = some creation)
    (hstage : creation.stage = .calling) :
    (manager.setCreation k { creation with stage := .rejected }).Inv := by
  have hkept := h.kept k creation hcreation
  have hfresh := hkept.fresh (by simp [hstage])
  refine h.setStage hcreation rfl nofun ⟨nofun, nofun, nofun, ?_, ?_, ?_, nofun⟩ (by simp [hstage])
    (fun _ => rfl) (h.unregistered hcreation (by simp [hstage]))
  · simpa [Creation.disposalsOf, hstage] using hkept.disposals
  · simp [hfresh]
  · simp [hfresh]

/-- The acquisition fails, and the runtime is disposed. -/
theorem Inv.discard (h : manager.Inv) (hcreation : manager.creations[k]? = some creation)
    (hstage : creation.stage = .awaitingSnapshot) :
    (manager.setCreation k
      { creation with stage := .discarding, disposals := creation.disposals + 1 }).Inv := by
  have hkept := h.kept k creation hcreation
  have hfresh := hkept.fresh (by simp [hstage])
  refine h.setStage hcreation rfl ?_ ⟨?_, nofun, nofun, ?_, ?_, ?_, nofun⟩ (by simp [hstage])
    (by simp [hstage]) (h.unregistered hcreation (by simp [hstage]))
  · simp [Creation.unfinished, hstage, CreationStage.pending]
  · exact fun _ => hkept.opening (by rw [hstage]; rfl)
  · have hdisposals := hkept.disposals
    simp only [Creation.disposalsOf, hstage] at hdisposals
    simp [Creation.disposalsOf, hdisposals]
  · simp [hfresh]
  · simp [hfresh]

theorem Inv.discarded (h : manager.Inv) (hcreation : manager.creations[k]? = some creation)
    (hstage : creation.stage = .discarding) :
    (manager.setCreation k { creation with stage := .discarded }).Inv := by
  have hkept := h.kept k creation hcreation
  have hfresh := hkept.fresh (by simp [hstage])
  refine h.setStage hcreation rfl nofun ⟨nofun, nofun, nofun, ?_, ?_, ?_, nofun⟩ (by simp [hstage])
    (by simp [hstage]) (h.unregistered hcreation (by simp [hstage]))
  · simpa [Creation.disposalsOf, hstage] using hkept.disposals
  · simp [hfresh]
  · simp [hfresh]

theorem Inv.closeDisposed (h : manager.Inv) (hcreation : manager.creations[k]? = some creation)
    (hclosed : manager.closed = true) (hstage : creation.stage = .live) :
    (manager.setCreation k { creation with disposed := true }).Inv := by
  have hkept := h.kept k creation hcreation
  refine h.setStage hcreation rfl ?_ ⟨?_, nofun, ?_, ?_, ?_, ?_, ?_⟩ (by simp [hstage]) (by simp [hstage]) ?_
  · simp [Creation.unfinished, hstage, CreationStage.pending]
  · simp [hstage, CreationStage.pending]
  · simp [hstage]
  · simpa [Creation.disposalsOf, hstage] using hkept.disposals
  · exact fun _ => hstage
  · exact fun _ => ⟨hstage, .inr hclosed⟩
  · simp [hstage]
  · intro id
    rw [h.forgotten hclosed id]
    nofun

/-- The runtime is opened, and `create` gets into the queue. -/
theorem Inv.runtimeOpened (h : manager.Inv) (hcreation : manager.creations[k]? = some creation)
    (hstage : creation.stage = .calling) (idle : Bool) :
    ({ manager.setCreation k { creation with stage := .opened, idle } with
      jobs := manager.jobs ++ [.opened creation.id k] } : LiveSessionManager).Inv := by
  have hkept := h.kept k creation hcreation
  have hfresh := hkept.fresh (by simp [hstage])
  have hnotQueued : ∀ id j, .opened id j ∈ manager.jobs → j ≠ k := by
    rintro id j hjob rfl
    obtain ⟨old, hat, hold, -⟩ := h.opened id j hjob
    obtain rfl := Option.some.inj (hcreation.symm.trans hat)
    simp [hstage] at hold
  refine h.advance hcreation rfl rfl ?_ ⟨?_, nofun, ?_, ?_, ?_, ?_, nofun⟩ ?_ ?_ ?_ ?_ ?_ ?_ h.closing h.forgotten
  · simp [Creation.unfinished, hstage, CreationStage.pending]
  · exact fun _ => hkept.opening (by rw [hstage]; rfl)
  · simp
  · simpa [Creation.disposalsOf, hstage] using hkept.disposals
  · simp [hfresh]
  · simp [hfresh]
  · intro j other _ _ hother
    refine ⟨hother.opening, hother.registered, fun hold => ?_, hother.disposals, hother.disposing,
      hother.disposed, hother.awaited⟩
    exact List.mem_append_left _ (hother.queued hold)
  · exact fun id j hj _ => hj
  · exact fun id hk => absurd hk (h.unregistered hcreation (by simp [hstage]) id)
  · intro id r hjob j other hat hid hun
    have hjob : .resume id r ∈ manager.jobs := by simpa using hjob
    rcases Updates.set_cases hat with ⟨rfl, rfl⟩ | ⟨-, hat⟩
    · exact .inr rfl
    · exact h.resumes id r hjob j other hat hid hun
  · intro id j hjob
    rcases List.mem_append.mp hjob with hjob | hjob
    · exact .inr ⟨hnotQueued id j hjob, hjob⟩
    · cases List.mem_singleton.mp hjob
      exact .inl ⟨rfl, rfl, rfl⟩
  · refine List.pairwise_append.mpr ⟨h.order, List.pairwise_singleton _ _, fun job hjob new hnew => ?_⟩
    rw [List.mem_singleton.mp hnew]
    cases job with
    | resume => trivial
    | opened id j => exact hnotQueued id j hjob

theorem Inv.continueCreate (h : manager.Inv) {id : String} (hjobs : manager.jobs = .opened id k :: jobs)
    (hcreation : manager.creations[k]? = some creation) :
    (({ manager with jobs } : LiveSessionManager).continueCreate k creation).Inv := by
  have hkept := h.kept k creation hcreation
  obtain ⟨hstage, rfl⟩ : creation.stage = .opened ∧ creation.id = id := by
    obtain ⟨old, hat, hstage, hid⟩ := h.opened id k (by simp [hjobs])
    obtain rfl := Option.some.inj (hcreation.symm.trans hat)
    exact ⟨hstage, hid⟩
  have hfresh := hkept.fresh (by simp [hstage])
  have hdisposals : creation.disposals = 0 := by
    simpa [Creation.disposalsOf, hstage] using hkept.disposals
  have horder := h.order
  rw [hjobs, List.pairwise_cons] at horder
  have hmem : ∀ job ∈ jobs, job ∈ manager.jobs := fun job hjob => by
    rw [hjobs]
    exact List.mem_cons_of_mem _ hjob
  -- what is common to both branches
  have hnext : ∀ creation' : Creation, creation'.id = creation.id →
      creation'.stage = .discarding ∨ creation'.stage = .awaitingSnapshot →
      ({ manager with jobs } : LiveSessionManager).Kept k creation' →
      (({ manager with jobs } : LiveSessionManager).setCreation k creation').Inv := by
    intro creation' hid hstage' hkept'
    refine h.advance hcreation rfl hid ?_ (hkept'.frame rfl rfl rfl rfl rfl) ?_ ?_ ?_ ?_ ?_ horder.2
      h.closing h.forgotten
    · simp [Creation.unfinished, hstage, CreationStage.pending]
    · intro j other hj _ hother
      refine ⟨hother.opening, hother.registered, fun hold => ?_, hother.disposals, hother.disposing,
        hother.disposed, hother.awaited⟩
      have hqueued := hother.queued hold
      rw [hjobs] at hqueued
      rcases List.mem_cons.mp hqueued with heq | hqueued
      · exact absurd (Job.opened.inj heq).2 hj
      · exact hqueued
    · exact fun id j hj _ => hj
    · exact fun id hk => absurd hk (h.unregistered hcreation (by simp [hstage]) id)
    · intro id r hjob j other hat hother hun
      rcases Updates.set_cases hat with ⟨rfl, rfl⟩ | ⟨-, hat⟩
      · exact absurd (hid.symm.trans hother) (horder.1 _ hjob)
      · exact h.resumes id r (hmem _ hjob) j other hat hother hun
    · intro id j hjob
      refine .inr ⟨?_, hmem _ hjob⟩
      rintro rfl
      exact horder.1 _ hjob rfl
  unfold LiveSessionManager.continueCreate
  split
  · refine hnext _ rfl (.inl rfl) ⟨?_, nofun, nofun, ?_, ?_, ?_, nofun⟩
    · exact fun _ => hkept.opening (by rw [hstage]; rfl)
    · simp [Creation.disposalsOf, hdisposals]
    · simp [hfresh]
    · simp [hfresh]
  · rename_i hopen
    refine hnext _ rfl (.inr rfl) ⟨?_, nofun, nofun, ?_, ?_, ?_, ?_⟩
    · exact fun _ => hkept.opening (by rw [hstage]; rfl)
    · simp [Creation.disposalsOf, hdisposals]
    · simp [hfresh]
    · simp [hfresh]
    · intro _
      have hnot : ¬ (manager.closeAwaits ≠ none ∨ manager.closed = true) :=
        fun hclose => hopen (h.closing hclose).1
      simp only [not_or, ne_eq, Decidable.not_not, Bool.not_eq_true] at hnot
      exact ⟨hnot.2, fun awaits hawaits => by rw [hnot.1] at hawaits; cases hawaits⟩

theorem Inv.register (h : manager.Inv) (hcreation : manager.creations[k]? = some creation)
    (hstage : creation.stage = .awaitingSnapshot) (terminal : Bool) :
    ({ manager.setCreation k { creation with stage := .live, terminal } with
      liveSessions := Function.update manager.liveSessions creation.id (some k) } : LiveSessionManager).Inv := by
  have hkept := h.kept k creation hcreation
  have hopen := (hkept.awaited hstage).1
  have hfresh := hkept.fresh (by simp [hstage])
  have hunfinished : creation.unfinished = true := by
    simp [Creation.unfinished, hstage, CreationStage.pending]
  refine h.advance hcreation rfl rfl (fun _ => hunfinished) ⟨nofun, ?_, nofun, ?_, fun _ => rfl, ?_,
    nofun⟩ ?_ ?_ ?_ ?_ ?_ h.order h.closing ?_
  · exact fun _ _ => .inl (Function.update_self ..)
  · have hdisposals := hkept.disposals
    simp only [Creation.disposalsOf, hstage] at hdisposals
    simp [Creation.disposalsOf, hdisposals, hfresh, hopen, LiveSessionManager.setCreation]
  · simp [hfresh]
  · intro j other hj hat hother
    refine ⟨hother.opening, fun hlive hnot => ?_, hother.queued, hother.disposals, hother.disposing,
      hother.disposed, hother.awaited⟩
    by_cases hid : other.id = creation.id
    · have hun : other.unfinished = true := by simp [Creation.unfinished, hlive, hnot]
      exact absurd (h.unique j k other creation hat hcreation hun hunfinished hid) hj
    · refine (hother.registered hlive hnot).imp_left fun hregistered => ?_
      exact (Function.update_of_ne hid ..).trans hregistered
  · intro id j hlive hj
    by_cases hid : id = creation.id
    · subst hid
      have hk : Function.update manager.liveSessions creation.id (some k) creation.id = some j := hlive
      rw [Function.update_self] at hk
      exact absurd (Option.some.inj hk).symm hj
    · exact (Function.update_of_ne hid ..).symm.trans hlive
  · intro id hlive
    by_cases hid : id = creation.id
    · exact ⟨rfl, hid.symm, hfresh.2⟩
    · exact absurd ((Function.update_of_ne hid ..).symm.trans hlive) (h.unregistered hcreation (by simp [hstage]) id)
  · intro id r hjob j other hat hother hun
    rcases Updates.set_cases hat with ⟨rfl, rfl⟩ | ⟨-, hat⟩
    · rcases h.resumes id r hjob j creation hcreation hother hunfinished with hold | hold
      · simp [hstage] at hold
      · simp [hstage] at hold
    · exact h.resumes id r hjob j other hat hother hun
  · intro id j hjob
    refine .inr ⟨?_, hjob⟩
    rintro rfl
    obtain ⟨old, hat, hold, -⟩ := h.opened id j hjob
    obtain rfl := Option.some.inj (hcreation.symm.trans hat)
    simp [hstage] at hold
  · intro hclosed
    have hclosed : manager.closed = true := hclosed
    rw [hopen] at hclosed
    cases hclosed

/-- A disposal is settled, and what waits for it gets into the queue. -/
theorem Inv.disposed (h : manager.Inv) (hcreation : manager.creations[k]? = some creation)
    (hdisposing : creation.disposing = true) (hdisposed : creation.disposed = false) (ok : Bool) :
    (manager.disposed k creation ok).Inv := by
  have hkept := h.kept k creation hcreation
  have hstage := hkept.disposing hdisposing
  have hunfinished : creation.unfinished = true := by
    simp [Creation.unfinished, hstage, hdisposed]
  -- the session is forgotten if it is registered with this runtime
  have hsessions : ∀ id, (manager.disposed k creation ok).liveSessions id =
      if manager.liveSessions id = some k then none else manager.liveSessions id := by
    intro id
    show (if manager.liveSessions creation.id = some k then _ else _ : String → Option Nat) id = _
    by_cases hid : id = creation.id
    · subst hid
      split
      · simp
      · rfl
    · have hnot : manager.liveSessions id ≠ some k := by
        intro hk
        obtain ⟨old, hat, -, hold, -⟩ := h.live id k hk
        obtain rfl := Option.some.inj (hcreation.symm.trans hat)
        exact hid hold.symm
      rw [if_neg hnot]
      split
      · exact Function.update_of_ne hid ..
      · rfl
  -- what is new in the queue are the requests that have waited
  have hjobs : ∀ job, job ∈ (manager.disposed k creation ok).jobs → job ∈ manager.jobs ∨
      ∃ r, job = .resume creation.id r := by
    intro job hjob
    have hjob : job ∈ if ok then manager.jobs ++ creation.waiters.map (.resume creation.id)
      else manager.jobs := hjob
    split at hjob
    · rcases List.mem_append.mp hjob with hold | hnew
      · exact .inl hold
      · obtain ⟨r, -, rfl⟩ := List.mem_map.mp hnew
        exact .inr ⟨r, rfl⟩
    · exact .inl hjob
  have hkeeps : ∀ job ∈ manager.jobs, job ∈ (manager.disposed k creation ok).jobs := by
    intro job hjob
    show job ∈ if ok then manager.jobs ++ creation.waiters.map (.resume creation.id)
      else manager.jobs
    split
    · exact List.mem_append_left _ hjob
    · exact hjob
  -- no other creation has the id and is unfinished
  refine h.advance hcreation rfl rfl (fun _ => hunfinished) ⟨?_, nofun, ?_, ?_, fun _ => hstage, ?_,
    ?_⟩ ?_ ?_ ?_ ?_ ?_ ?_ h.closing ?_
  · simp [hstage, CreationStage.pending]
  · simp [hstage]
  · exact hkept.disposals
  · exact fun _ => ⟨hstage, .inl hdisposing⟩
  · simp [hstage]
  · intro j other hj hat hother
    refine ⟨hother.opening, fun hlive hnot => ?_, fun hold => hkeeps _ (hother.queued hold),
      hother.disposals, hother.disposing, hother.disposed, hother.awaited⟩
    refine (hother.registered hlive hnot).imp_left fun hregistered => ?_
    rw [hsessions, hregistered, if_neg (by simpa using hj)]
  · intro id j hlive hj
    rw [hsessions] at hlive
    obtain ⟨-, hlive⟩ := Option.ite_none_left_eq_some.mp hlive
    exact hlive
  · intro id hlive
    rw [hsessions] at hlive
    split at hlive
    · cases hlive
    · contradiction
  · intro id r hjob j other hat hother hun
    rcases Updates.set_cases hat with ⟨rfl, rfl⟩ | ⟨hj, hat⟩
    · simp [Creation.unfinished, hstage, CreationStage.pending] at hun
    · rcases hjobs _ hjob with hold | ⟨r', hnew⟩
      · exact h.resumes id r hold j other hat hother hun
      · obtain ⟨rfl, -⟩ := Job.resume.inj hnew
        exact absurd (h.unique j k other creation hat hcreation hun hunfinished hother) hj
  · intro id j hjob
    rcases hjobs _ hjob with hold | ⟨r, hnew⟩
    · refine .inr ⟨?_, hold⟩
      rintro rfl
      obtain ⟨old, hat, hopened, -⟩ := h.opened id j hold
      obtain rfl := Option.some.inj (hcreation.symm.trans hat)
      simp [hstage] at hopened
    · cases hnew
  · show List.Pairwise Job.Before (if ok then manager.jobs ++
      creation.waiters.map (.resume creation.id) else manager.jobs)
    split
    · refine List.pairwise_append.mpr ⟨h.order, ?_, ?_⟩
      · exact List.pairwise_map.mpr (List.pairwise_of_forall fun _ _ => trivial)
      · intro job hjob new hnew
        obtain ⟨r, -, rfl⟩ := List.mem_map.mp hnew
        cases job with
        | resume => trivial
        | opened id j =>
          rintro rfl
          obtain ⟨old, hat, hopened, hid⟩ := h.opened _ j hjob
          have hun : old.unfinished = true := by
            simp [Creation.unfinished, hopened, CreationStage.pending]
          obtain rfl := h.unique j k old creation hat hcreation hun hunfinished hid
          obtain rfl := Option.some.inj (hcreation.symm.trans hat)
          simp [hstage] at hopened
    · exact h.order
  · intro hclosed id
    rw [hsessions, h.forgotten hclosed id]
    rfl

end Advance

/-! ## Requests and the queue -/

section Acquire

variable {manager : LiveSessionManager} {id : String}

/-- What changes neither creations nor maps keeps the invariant. -/
theorem Inv.frame {manager' : LiveSessionManager} (h : manager.Inv)
    (hcreations : manager'.creations = manager.creations)
    (hlive : manager'.liveSessions = manager.liveSessions)
    (hopening : manager'.openingSessions = manager.openingSessions)
    (hjobs : manager'.jobs = manager.jobs) (hclosing : manager'.closing = manager.closing)
    (hawaits : manager'.closeAwaits = manager.closeAwaits)
    (hclosed : manager'.closed = manager.closed)
    (hconnections : (∀ connection ∈ manager.connections, connection.disconnected = true) →
      ∀ connection ∈ manager'.connections, connection.disconnected = true) : manager'.Inv := by
  refine h.touch ?_ hlive hopening hjobs hclosing hawaits hclosed hconnections
  rw [hcreations]
  exact Updates.related_refl (fun _ => .refl _) _

theorem Inv.setRequest (h : manager.Inv) (r connection : Nat) (stage : RequestStage) :
    (manager.setRequest r connection stage).Inv :=
  h.frame rfl rfl rfl rfl rfl rfl rfl (fun hall => hall)

theorem Inv.touchOne (h : manager.Inv) {k : Nat} {creation creation' : Creation}
    (hcreation : manager.creations[k]? = some creation)
    (htouched : Touched manager.closing creation creation') :
    (manager.setCreation k creation').Inv :=
  h.touch (Updates.related_set (fun _ => .refl _) hcreation htouched) rfl rfl rfl rfl rfl rfl (fun hall => hall)

/-- `acquireRuntime` is called, and no runtime of the session is unfinished. -/
theorem Inv.call (h : manager.Inv) (hfree : ∀ (k : Nat) (creation : Creation),
      manager.creations[k]? = some creation → creation.id = id → creation.unfinished = false)
    (requests : List Request) :
    ({ manager with
      creations := manager.creations ++ [{ id }]
      openingSessions :=
        Function.update manager.openingSessions id (some manager.creations.length)
      requests } : LiveSessionManager).Inv := by
  refine ⟨?_, ?_, ?_, ?_, ?_, h.order, h.closing, h.forgotten⟩
  · intro k creation hat
    rcases Updates.concat_cases hat with hat | ⟨rfl, rfl⟩
    · have hkept := h.kept k creation hat
      refine ⟨fun hpending => ?_, hkept.registered, hkept.queued, hkept.disposals, hkept.disposing,
        hkept.disposed, hkept.awaited⟩
      have hid : creation.id ≠ id := by
        intro hid
        have hdone := hfree k creation hat hid
        simp [Creation.unfinished, hpending] at hdone
      exact (Function.update_of_ne hid ..).trans (hkept.opening hpending)
    · exact ⟨fun _ => Function.update_self .., nofun, nofun, rfl, nofun, nofun, nofun⟩
  · intro k k' creation creation' hat hat' hun hun' hid
    rcases Updates.concat_cases hat with hat | ⟨rfl, rfl⟩
    · rcases Updates.concat_cases hat' with hat' | ⟨rfl, rfl⟩
      · exact h.unique k k' creation creation' hat hat' hun hun' hid
      · rw [hfree k creation hat hid] at hun
        cases hun
    · rcases Updates.concat_cases hat' with hat' | ⟨rfl, rfl⟩
      · rw [hfree k' creation' hat' hid.symm] at hun'
        cases hun'
      · rfl
  · intro id' k hlive
    obtain ⟨creation, hat, hcreation⟩ := h.live id' k hlive
    exact ⟨creation, Updates.concat_of_some hat, hcreation⟩
  · intro id' r hjob k creation hat hid hun
    rcases Updates.concat_cases hat with hat | ⟨rfl, rfl⟩
    · exact h.resumes id' r hjob k creation hat hid hun
    · exact .inl rfl
  · intro id' k hjob
    obtain ⟨creation, hat, hcreation⟩ := h.opened id' k hjob
    exact ⟨creation, Updates.concat_of_some hat, hcreation⟩

/-- A turn of the loop of `acquire`. It only calls `acquireRuntime` where nothing is unfinished. -/
theorem Inv.acquire (h : manager.Inv) (hfree : manager.liveSessions id = none → manager.openingSessions id = none →
      ∀ (k : Nat) (creation : Creation), manager.creations[k]? = some creation →
        creation.id = id → creation.unfinished = false) (r connection : Nat) :
    (manager.acquire id r connection).Inv := by
  unfold LiveSessionManager.acquire
  split
  · split
    · rename_i existing hexisting
      split
      · exact h.setRequest ..
      · split
        · refine Inv.setRequest (h.touchOne hexisting ?_) ..
          exact ⟨rfl, rfl, rfl, .inl ⟨rfl, rfl⟩⟩
        · exact h.setRequest ..
    · exact h
  · rename_i hlive
    split
    · exact h.setRequest ..
    · rename_i hopening
      exact h.call (hfree hlive hopening) _

/-- Before `close` has taken the live sessions, what is unfinished is found. -/
theorem Inv.free (h : manager.Inv) (hopen : manager.closed = false)
    (hlive : manager.liveSessions id = none) (hopening : manager.openingSessions id = none)
    (k : Nat) (creation : Creation) (hcreation : manager.creations[k]? = some creation)
    (hid : creation.id = id) : creation.unfinished = false := by
  have hkept := h.kept k creation hcreation
  by_contra hun
  simp only [Bool.not_eq_false, Creation.unfinished, Bool.or_eq_true, Bool.and_eq_true,
    decide_eq_true_eq, Bool.not_eq_true'] at hun
  rcases hun with hpending | ⟨hstage, hdisposed⟩
  · have := hkept.opening hpending
    rw [hid, hopening] at this
    cases this
  · rcases hkept.registered hstage hdisposed with hregistered | hclosed
    · rw [hid, hlive] at hregistered
      cases hregistered
    · rw [hopen] at hclosed
      cases hclosed

theorem Inv.pop (h : manager.Inv) {r : Nat} (hjobs : manager.jobs = .resume id r :: jobs) :
    ({ manager with jobs } : LiveSessionManager).Inv := by
  have hmem : ∀ job ∈ jobs, job ∈ manager.jobs := fun job hjob => by
    rw [hjobs]
    exact List.mem_cons_of_mem _ hjob
  have horder := h.order
  rw [hjobs, List.pairwise_cons] at horder
  refine ⟨?_, h.unique, h.live, ?_, ?_, horder.2, h.closing, h.forgotten⟩
  · intro k creation hat
    have hkept := h.kept k creation hat
    refine ⟨hkept.opening, hkept.registered, fun hstage => ?_, hkept.disposals, hkept.disposing,
      hkept.disposed, hkept.awaited⟩
    have hqueued := hkept.queued hstage
    rw [hjobs] at hqueued
    rcases List.mem_cons.mp hqueued with heq | hqueued
    · cases heq
    · exact hqueued
  · exact fun id' r' hjob => h.resumes id' r' (hmem _ hjob)
  · exact fun id' k hjob => h.opened id' k (hmem _ hjob)

/-- What resumes finds what is unfinished, also after `close`. -/
theorem Inv.resume (h : manager.Inv) {r : Nat} (hjobs : manager.jobs = .resume id r :: jobs) (connection : Nat) :
    (({ manager with jobs } : LiveSessionManager).acquire id r connection).Inv := by
  refine (h.pop hjobs).acquire (fun _ hopening k creation hat hid => ?_) r connection
  by_contra hun
  have hstage := h.resumes id r (by simp [hjobs]) k creation hat hid (by simpa using hun)
  have hpending : creation.stage.pending = true := by
    rcases hstage with hstage | hstage
    · rw [hstage]
      rfl
    · rw [hstage]
      rfl
  have hfound := (h.kept k creation hat).opening hpending
  rw [hid, hopening] at hfound
  cases hfound

theorem Inv.openingSettled (h : manager.Inv) {r connection k : Nat} {own : Bool}
    {creation : Creation} {manager' : LiveSessionManager}
    (hcreation : manager.creations[k]? = some creation)
    (hstep : manager.openingSettled r connection k own creation = some manager') :
    manager'.Inv := by
  unfold LiveSessionManager.openingSettled at hstep
  split at hstep
  · cases hstep
  · rename_i hsettled
    cases hstep
    refine Inv.setRequest ?_ ..
    split
    · rename_i hown
      refine ⟨?_, h.unique, h.live, h.resumes, h.opened, h.order, h.closing, h.forgotten⟩
      intro j other hat
      have hkept := h.kept j other hat
      refine ⟨fun hpending => ?_, hkept.registered, hkept.queued, hkept.disposals, hkept.disposing,
        hkept.disposed, hkept.awaited⟩
      have hopening := hkept.opening hpending
      have hid : other.id ≠ creation.id := by
        intro hid
        rw [hid] at hopening
        simp only [Bool.and_eq_true, decide_eq_true_eq, hopening] at hown
        obtain rfl := Option.some.inj hown.2
        obtain rfl := Option.some.inj (hcreation.symm.trans hat)
        exact hsettled hpending
      exact (Function.update_of_ne hid ..).trans hopening
    · exact h

end Acquire

end LiveSessionManager

end Mcpi.Server.Sessions
