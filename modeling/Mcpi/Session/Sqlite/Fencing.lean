import Mcpi.Session.Sqlite.RowsKept

/-!
# Fencing

The lease row of one session under any interleaving of the transactions of any number of owners, each
with its own clock. Whoever acquires the lease is a holder from then on, whatever becomes of the row.
`log` records what has committed.
-/

namespace Mcpi.Session.Sqlite

variable {ν : Type}

/-! ## The transactions -/

variable {row : WriterLeaseRow}

section Transactions

/-- What an acquisition leaves: a lease, and its row. -/
def Claimed (result : WriterLease × SessionRows ν) : Prop :=
  ∃ row, result.2.writer_lease = some row ∧ result.1.holds row = true

variable {rows : SessionRows ν} {lease : WriterLease}

theorem Granted.claimed {expiresAtMs : Int} {result : WriterLease × SessionRows ν} (h : Granted expiresAtMs result) :
    Claimed result := by
  obtain ⟨row, hrow, hholds, -⟩ := h
  exact ⟨row, hrow, hholds⟩

theorem claimed_claimWriterLease (rows : SessionRows ν) (uuidv7 : String) (now ttlMs : Int) :
    Ensures (claimWriterLease rows uuidv7 now ttlMs) fun result =>
      Claimed result ∧ result.1.ownerId = uuidv7 := by
  intro result h
  obtain ⟨hgranted, howner⟩ := granted_claimWriterLease rows uuidv7 now ttlMs result h
  exact ⟨hgranted.claimed, howner⟩

theorem claimed_claimStorage (rows : SessionRows ν) (uuidv7 : String) (now ttlMs : Int) :
    Ensures (claimStorage rows uuidv7 now ttlMs) Claimed :=
  fun result h => (granted_claimStorage rows uuidv7 now ttlMs result h).claimed

theorem claimed_createTransaction [Zero ν] (rows : SessionRows ν) (uuidv7 : String) (now ttlMs : Int) :
    Ensures (createTransaction rows uuidv7 now ttlMs) Claimed :=
  fun result h => (granted_createTransaction rows uuidv7 now ttlMs result h).claimed

theorem claimed_forkTransaction [Zero ν] [JsonNumber ν] (rows : SessionRows ν) (options : ForkOptions)
    (source : ForkSource) (name : Option (List Char)) (labels : List FactRow) (uuidv7 : Nat → String)
    (now ttlMs : Int) :
    Ensures (forkTransaction rows options source name labels uuidv7 now ttlMs) Claimed := by
  unfold forkTransaction
  refine ensures_read fun _ => ensures_read fun _ => ensures_read fun _ => ensures_read fun _ => ?_
  refine ensures_read fun _ => ensures_read fun _ => ensures_read fun _ => ensures_read fun rows => ?_
  exact fun result h => (claimed_claimWriterLease rows _ now ttlMs result h).1

theorem claimed_fork [Zero ν] [JsonNumber ν] (source target : SessionRows ν) (options : ForkOptions)
    (uuidv7 : Nat → String) (now ttlMs : Int) :
    Ensures (fork source target options uuidv7 now ttlMs) Claimed := by
  unfold fork
  refine ensures_read fun _ => ?_
  dsimp only
  split
  · exact ensures_throw
  · refine ensures_read fun forkSource => ?_
    split
    next result hfork => exact ensures_pure (claimed_forkTransaction _ _ _ _ _ _ _ _ _ hfork)
    · exact ensures_error
    · exact ensures_error

theorem releaseWriterLease_holds (hrow : rows.writer_lease = some row)
    (hholds : lease.holds row = true) : (releaseWriterLease rows lease).writer_lease = none := by
  unfold releaseWriterLease
  rw [if_pos (by rw [hrow]; exact hholds)]

theorem releaseWriterLease_not_holds (hrow : rows.writer_lease = some row)
    (hholds : lease.holds row = false) : releaseWriterLease rows lease = rows := by
  unfold releaseWriterLease
  rw [if_neg]
  rw [hrow]
  simpa using hholds

theorem releaseWriterLease_cases (rows : SessionRows ν) (lease : WriterLease) :
    (releaseWriterLease rows lease).writer_lease = none ∨ releaseWriterLease rows lease = rows := by
  unfold releaseWriterLease
  split
  · exact .inl rfl
  · exact .inr rfl

theorem free_repairTransaction [JsonNumber ν] (rows : SessionRows ν) (uuidv7 : Nat → String)
    (now ttlMs : Int) : Ensures (repairTransaction rows uuidv7 now ttlMs) fun rows' => rows'.writer_lease = none := by
  unfold repairTransaction
  refine ensures_bind (claimed_claimWriterLease rows _ now ttlMs) fun result hclaimed => ?_
  obtain ⟨⟨row, hrow, hholds⟩, -⟩ := hclaimed
  refine ensures_read fun _ => ?_
  refine ensures_bind (ensures_buildCachedBranches _ _ 0 _) fun rebuilt hrebuilt => ?_
  exact ensures_pure (releaseWriterLease_holds (hrebuilt.1.trans hrow) hholds)

theorem free_deleteTransaction (rows : SessionRows ν) (uuidv7 : String) (now ttlMs : Int) :
    Ensures (deleteTransaction rows uuidv7 now ttlMs) fun rows' => rows'.writer_lease = none := by
  unfold deleteTransaction
  split
  · exact ensures_ok rfl
  · exact ensures_read fun _ => ensures_pure rfl

theorem renewable_iff (rows : SessionRows ν) (lease : WriterLease) (now : Int) :
    renewable rows lease now = true ↔
      ∃ row, rows.writer_lease = some row ∧ lease.holds row = true ∧ now < row.expires_at_ms := by
  unfold renewable
  cases rows.writer_lease with
  | none => simp
  | some row => simp

theorem renewWriterLease_cases (rows : SessionRows ν) (lease : WriterLease) (now expiresAtMs : Int) :
    (renewWriterLease rows lease now expiresAtMs = (false, lease, rows)) ∨
      ∃ row, rows.writer_lease = some row ∧ lease.holds row = true ∧
        renewWriterLease rows lease now expiresAtMs = (true, { lease with expiresAtMs },
          { rows with writer_lease := some { row with expires_at_ms := expiresAtMs } }) := by
  unfold renewWriterLease
  split
  next hrenewable =>
    obtain ⟨row, hrow, hholds, -⟩ := (renewable_iff rows lease now).mp hrenewable
    refine .inr ⟨row, hrow, hholds, ?_⟩
    rw [hrow]
    rfl
  · exact .inl rfl

/-- **A write** commits only under the lease that it renews. -/
theorem writeTransaction_spec [JsonNumber ν] [Add ν] (rows : SessionRows ν) (lease : WriterLease)
    (now ttlMs : Int) (timestamp : SafeNat) (uuidv7 : String) (operation : Operation ν) :
    Ensures (writeTransaction rows lease now ttlMs fun rows =>
      performRows rows timestamp uuidv7 operation) fun result =>
        ∃ row, rows.writer_lease = some row ∧ lease.holds row = true ∧
          result.2.2.writer_lease = some { row with expires_at_ms := now + ttlMs } := by
  unfold writeTransaction
  rcases renewWriterLease_cases rows lease now (now + ttlMs) with hfalse | ⟨row, hrow, hholds, htrue⟩
  · rw [hfalse]
    exact ensures_error
  · rw [htrue]
    exact ensures_bind (leased_performRows _ timestamp uuidv7 operation)
      fun result hresult => ensures_pure ⟨row, hrow, hholds, hresult⟩

end Transactions

/-! ## Interleavings -/

/-- What has committed: an acquisition, or a write of an owner. -/
inductive Committed where
  | acquired (ownerId : String)
  | wrote (ownerId : String)
  deriving DecidableEq

structure LeaseWorld (ν : Type) where
  rows : SessionRows ν
  holders : List WriterLease
  log : List Committed

/-- A transaction on the session, with what it reads of the clock and the ids that it draws. A holder
is the storage of an earlier acquisition. -/
inductive LeaseStep (ν : Type) where
  | create (uuidv7 : String) (now ttlMs : Int)
  | claim (uuidv7 : String) (now ttlMs : Int)
  | fork (source : SessionRows ν) (options : ForkOptions) (uuidv7 : Nat → String) (now ttlMs : Int)
  | repair (uuidv7 : Nat → String) (now ttlMs : Int)
  | delete (uuidv7 : String) (now ttlMs : Int)
  | write (holder : Nat) (now ttlMs : Int) (timestamp : SafeNat) (uuidv7 : String)
      (operation : Operation ν)
  | heartbeat (holder : Nat) (now ttlMs : Int)
  | release (holder : Nat)

namespace LeaseWorld

def start (session_id : String) : LeaseWorld ν := ⟨SessionRows.none session_id, [], []⟩

/-- A transaction that acquires the lease for a storage. -/
def acquire (world : LeaseWorld ν) : Attempt (WriterLease × SessionRows ν) → LeaseWorld ν
  | .ok (lease, rows) =>
    { rows, holders := world.holders ++ [lease], log := world.log ++ [.acquired lease.ownerId] }
  | .error _ => world

variable [Zero ν] [Add ν] [JsonNumber ν]

/-- One transaction; one that throws changes nothing. -/
def perform (world : LeaseWorld ν) : LeaseStep ν → LeaseWorld ν
  | .create uuidv7 now ttlMs => world.acquire (createTransaction world.rows uuidv7 now ttlMs)
  | .claim uuidv7 now ttlMs => world.acquire (claimStorage world.rows uuidv7 now ttlMs)
  | .fork source options uuidv7 now ttlMs =>
    world.acquire (Sqlite.fork source world.rows options uuidv7 now ttlMs)
  | .repair uuidv7 now ttlMs =>
    match repairTransaction world.rows uuidv7 now ttlMs with
    | .ok rows => { world with rows, log := world.log ++ [.acquired (uuidv7 0)] }
    | .error _ => world
  | .delete uuidv7 now ttlMs =>
    match deleteTransaction world.rows uuidv7 now ttlMs with
    | .ok rows =>
      { world with
        rows
        log := if sessionExists world.rows then world.log ++ [.acquired uuidv7] else world.log }
    | .error _ => world
  | .write holder now ttlMs timestamp uuidv7 operation =>
    match world.holders[holder]? with
    | none => world
    | some lease =>
      match writeTransaction world.rows lease now ttlMs fun rows =>
        performRows rows timestamp uuidv7 operation with
      | .ok (_, renewed, rows) =>
        { rows
          holders := world.holders.set holder renewed
          log := world.log ++ [.wrote lease.ownerId] }
      | .error _ => world
  | .heartbeat holder now ttlMs =>
    match world.holders[holder]? with
    | none => world
    | some lease =>
      match renewWriterLease world.rows lease now (now + ttlMs) with
      | (_, renewed, rows) => { world with rows, holders := world.holders.set holder renewed }
  | .release holder =>
    match world.holders[holder]? with
    | none => world
    | some lease => { world with rows := releaseWriterLease world.rows lease }

end LeaseWorld

/-! ## The invariant -/

/-- The owners of the acquisitions, in order. -/
def acquirers (log : List Committed) : List String :=
  log.filterMap fun
    | .acquired ownerId => some ownerId
    | .wrote _ => none

/-- After the acquisition of one owner no other owner writes, unless it has acquired again. -/
def Fenced (log : List Committed) : Prop :=
  ∀ before between after owner other, log = before ++ .acquired other :: between ++ .wrote owner :: after →
    owner ≠ other → .acquired owner ∈ between

/-- The lease row is that of the last acquisition. -/
structure LeaseInv (world : LeaseWorld ν) : Prop where
  last : ∀ row, world.rows.writer_lease = some row → (acquirers world.log).getLast? = some row.owner_id
  fenced : Fenced world.log

section Log

variable {log : List Committed} {owner : String}

theorem acquirers_append (log log' : List Committed) : acquirers (log ++ log') = acquirers log ++ acquirers log' := by
  rw [acquirers, List.filterMap_append]
  rfl

theorem mem_acquirers : owner ∈ acquirers log ↔ .acquired owner ∈ log := by
  unfold acquirers
  rw [List.mem_filterMap]
  constructor
  · rintro ⟨committed, hmem, heq⟩
    cases committed with
    | acquired ownerId =>
      obtain rfl := Option.some.inj heq
      exact hmem
    | wrote ownerId => cases heq
  · exact fun hmem => ⟨_, hmem, rfl⟩

theorem Fenced.acquired (h : Fenced log) (owner : String) : Fenced (log ++ [.acquired owner]) := by
  intro before between after writer other heq hne
  rcases List.eq_nil_or_concat after with rfl | ⟨init, last, rfl⟩
  · have hlast := congrArg List.getLast? heq
    rw [List.getLast?_concat, List.getLast?_append_cons] at hlast
    cases hlast
  · have hsplit : before ++ .acquired other :: between ++ .wrote writer :: init.concat last =
        (before ++ .acquired other :: between ++ .wrote writer :: init) ++ [last] := by simp
    obtain ⟨hlog, -⟩ := List.append_inj' (heq.trans hsplit) rfl
    exact h before between init writer other hlog hne

theorem Fenced.wrote (h : Fenced log) (hlast : (acquirers log).getLast? = some owner) :
    Fenced (log ++ [.wrote owner]) := by
  intro before between after writer other heq hne
  rcases List.eq_nil_or_concat after with rfl | ⟨init, last, rfl⟩
  · obtain ⟨hlog, hwrote⟩ := List.append_inj' heq rfl
    cases hwrote
    rw [hlog, acquirers_append] at hlast
    have hcons : acquirers (.acquired other :: between) = other :: acquirers between := rfl
    rw [hcons, List.getLast?_append_cons] at hlast
    -- the last acquisition is not the other owner's
    cases hbetween : acquirers between with
    | nil =>
      rw [hbetween] at hlast
      exact absurd (Option.some.inj hlast).symm hne
    | cons first rest =>
      rw [hbetween, List.getLast?_cons_cons, ← hbetween] at hlast
      exact mem_acquirers.mp (List.mem_of_getLast? hlast)
  · have hsplit : before ++ .acquired other :: between ++ .wrote writer :: init.concat last =
        (before ++ .acquired other :: between ++ .wrote writer :: init) ++ [last] := by simp
    obtain ⟨hlog, -⟩ := List.append_inj' (heq.trans hsplit) rfl
    exact h before between init writer other hlog hne

end Log

section Steps

variable {world : LeaseWorld ν}

theorem leaseInv_start (session_id : String) : LeaseInv (LeaseWorld.start session_id : LeaseWorld ν) := by
  refine ⟨nofun, ?_⟩
  intro before between after owner other heq
  exact absurd (congrArg List.length heq) (by simp [LeaseWorld.start])

theorem LeaseInv.acquire (h : LeaseInv world) {x : Attempt (WriterLease × SessionRows ν)}
    (hx : Ensures x Claimed) : LeaseInv (world.acquire x) := by
  cases hcase : x with
  | error e => exact h
  | ok result =>
    obtain ⟨lease, rows⟩ := result
    obtain ⟨row, hrow, hholds⟩ := hx _ hcase
    refine ⟨?_, h.fenced.acquired lease.ownerId⟩
    intro row' hrow'
    obtain rfl := Option.some.inj (hrow.symm.trans hrow')
    show (acquirers (world.log ++ [_])).getLast? = _
    have howner : row.owner_id = lease.ownerId := by
      have hboth := (Bool.and_eq_true _ _).mp hholds
      exact of_decide_eq_true hboth.1
    rw [acquirers_append, howner]
    exact List.getLast?_concat

theorem LeaseInv.free (h : LeaseInv world) {rows : SessionRows ν} (hrows : rows.writer_lease = none) :
    LeaseInv { world with rows } := by
  refine ⟨fun row hrow => ?_, h.fenced⟩
  cases hrows.symm.trans hrow

theorem LeaseInv.renewed (h : LeaseInv world) {rows : SessionRows ν}
    {expiresAtMs : Int} (hrow : world.rows.writer_lease = some row)
    (hrows : rows.writer_lease = some { row with expires_at_ms := expiresAtMs })
    (holders : List WriterLease) : LeaseInv { world with rows, holders } := by
  refine ⟨fun row' hrow' => ?_, h.fenced⟩
  obtain rfl := Option.some.inj (hrows.symm.trans hrow')
  exact h.last row hrow

variable [Zero ν] [Add ν] [JsonNumber ν]

/-- **One transaction.** -/
theorem LeaseInv.perform (h : LeaseInv world) (step : LeaseStep ν) : LeaseInv (world.perform step) := by
  cases step with
  | create uuidv7 now ttlMs => exact h.acquire (claimed_createTransaction _ _ _ _)
  | claim uuidv7 now ttlMs => exact h.acquire (claimed_claimStorage _ _ _ _)
  | fork source options uuidv7 now ttlMs => exact h.acquire (claimed_fork _ _ _ _ _ _)
  | repair uuidv7 now ttlMs =>
    unfold LeaseWorld.perform
    dsimp only
    split
    next rows hrepair =>
      -- a repair releases the lease that it has acquired
      have hfree := free_repairTransaction _ _ _ _ _ hrepair
      refine ⟨fun row hrow => ?_, h.fenced.acquired _⟩
      cases hfree.symm.trans hrow
    · exact h
  | delete uuidv7 now ttlMs =>
    unfold LeaseWorld.perform
    dsimp only
    split
    next rows hdelete =>
      have hfree := free_deleteTransaction _ _ _ _ _ hdelete
      refine ⟨fun row hrow => ?_, ?_⟩
      · cases hfree.symm.trans hrow
      · show Fenced (if _ then _ else _)
        split
        · exact h.fenced.acquired uuidv7
        · exact h.fenced
    · exact h
  | write holder now ttlMs timestamp uuidv7 operation =>
    unfold LeaseWorld.perform
    dsimp only
    split
    · exact h
    next lease hlease =>
      split
      next result renewed rows hwrite =>
        obtain ⟨row, hrow, hholds, hrows⟩ := writeTransaction_spec _ _ _ _ _ _ _ _ hwrite
        -- the row is that of the lease, so its owner is the last to acquire
        have howner : row.owner_id = lease.ownerId := by
          have hboth := (Bool.and_eq_true _ _).mp hholds
          exact of_decide_eq_true hboth.1
        have hlast := h.last row hrow
        refine ⟨fun row' hrow' => ?_, h.fenced.wrote (howner ▸ hlast)⟩
        obtain rfl := Option.some.inj (hrows.symm.trans hrow')
        show (acquirers (world.log ++ [_])).getLast? = _
        rw [acquirers_append]
        show (acquirers world.log ++ []).getLast? = _
        rw [List.append_nil]
        exact hlast
      · exact h
  | heartbeat holder now ttlMs =>
    unfold LeaseWorld.perform
    dsimp only
    split
    · exact h
    next lease hlease =>
      rcases renewWriterLease_cases world.rows lease now (now + ttlMs) with
        hfalse | ⟨row, hrow, -, htrue⟩
      · rw [hfalse]
        exact ⟨h.last, h.fenced⟩
      · rw [htrue]
        exact h.renewed hrow rfl _
  | release holder =>
    unfold LeaseWorld.perform
    dsimp only
    split
    · exact h
    next lease hlease =>
      rcases releaseWriterLease_cases world.rows lease with hfree | hsame
      · exact h.free hfree
      · rw [hsame]
        exact h

theorem LeaseInv.run (h : LeaseInv world) (steps : List (LeaseStep ν)) :
    LeaseInv (steps.foldl LeaseWorld.perform world) := by
  induction steps generalizing world with
  | nil => exact h
  | cons step steps ih => exact ih (h.perform step)

/-- **Fencing.** In every interleaving no write of an owner commits after another owner's acquisition,
unless the owner has acquired again; at most one owner passes the check of a write; and a holder whose
lease does not hold the row neither extends nor removes it. -/
theorem writer_leases_fence (session_id : String) (steps : List (LeaseStep ν)) :
    Fenced (steps.foldl LeaseWorld.perform (LeaseWorld.start session_id)).log ∧
    (∀ lease lease' now now',
      renewable (steps.foldl LeaseWorld.perform (LeaseWorld.start session_id)).rows lease now = true →
      renewable (steps.foldl LeaseWorld.perform (LeaseWorld.start session_id)).rows lease' now' = true →
        lease.ownerId = lease'.ownerId) ∧
    ∀ holder lease row, (steps.foldl LeaseWorld.perform (LeaseWorld.start session_id)).holders[holder]? = some lease →
      (steps.foldl LeaseWorld.perform (LeaseWorld.start session_id)).rows.writer_lease = some row →
      lease.holds row = false → (∀ now ttlMs, ((steps.foldl LeaseWorld.perform (LeaseWorld.start session_id)).perform
          (.heartbeat holder now ttlMs)).rows.writer_lease = some row) ∧
        ((steps.foldl LeaseWorld.perform (LeaseWorld.start session_id)).perform
          (.release holder)).rows.writer_lease = some row := by
  generalize hworld : steps.foldl LeaseWorld.perform (LeaseWorld.start session_id) = world
  have hinv : LeaseInv world := hworld ▸ (leaseInv_start session_id).run steps
  refine ⟨hinv.fenced, ?_, ?_⟩
  · intro lease lease' now now' h h'
    obtain ⟨row, hrow, hholds, -⟩ := (renewable_iff _ _ _).mp h
    obtain ⟨row', hrow', hholds', -⟩ := (renewable_iff _ _ _).mp h'
    obtain rfl := Option.some.inj (hrow.symm.trans hrow')
    have howner := of_decide_eq_true ((Bool.and_eq_true _ _).mp hholds).1
    have howner' := of_decide_eq_true ((Bool.and_eq_true _ _).mp hholds').1
    exact howner.symm.trans howner'
  · intro holder lease row hlease hrow hholds
    constructor
    · intro now ttlMs
      unfold LeaseWorld.perform
      dsimp only
      rw [hlease]
      rcases renewWriterLease_cases world.rows lease now (now + ttlMs) with
        hfalse | ⟨row', hrow', hholds', -⟩
      · dsimp only
        rw [hfalse]
        exact hrow
      · obtain rfl := Option.some.inj (hrow.symm.trans hrow')
        cases hholds.symm.trans hholds'
    · unfold LeaseWorld.perform
      dsimp only
      rw [hlease]
      dsimp only
      rw [releaseWriterLease_not_holds hrow hholds]
      exact hrow

end Steps

end Mcpi.Session.Sqlite
