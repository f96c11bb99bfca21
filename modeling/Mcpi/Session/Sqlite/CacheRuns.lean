import Mcpi.Lib.Json.Integer
import Mcpi.Session.Sqlite.CacheForks

/-!
# Runs of the database

The sessions of a database under any sequence of transactions: sessions are created, opened, written,
closed, forked from one another, repaired and deleted. Every session that is reached has the cache of its
tree, so its branch query is the walk to the root.
-/

namespace Mcpi.Session.Sqlite

open SessionState

variable {ν : Type}

/-- The sessions, and how many ids `uuidv7` has given out. -/
structure CacheWorld (ν : Type) where
  database : Database ν
  drawn : Nat

/-- A transaction, with what it reads of the clock. An entry that is appended has the properties its type
declares. -/
inductive CacheStep (ν : Type) [DecidableEq ν] where
  | create (id : String) (now ttlMs : Int)
  | open (id : String) (now ttlMs : Int)
  | release (id : String) (lease : WriterLease)
  | write (id : String) (lease : WriterLease) (now ttlMs : Int) (timestamp : SafeNat)
      (operation : Operation ν) (declared : operation.Declared)
  | fork (source target : String) (options : ForkOptions) (now ttlMs : Int)
  | repair (id : String) (now ttlMs : Int)
  | delete (id : String) (now ttlMs : Int)

namespace CacheWorld

def start : CacheWorld ν := ⟨Database.empty, 0⟩

/-- What a transaction on a session leaves; one that throws changes nothing. No transaction draws more ids
than one and one for each branch. -/
def commit (world : CacheWorld ν) (id : String) : Attempt (SessionRows ν) → CacheWorld ν
  | .ok rows => ⟨Function.update world.database id rows, world.drawn + 1 + rows.branch_tips.length⟩
  | .error _ => world

variable [Zero ν] [Add ν] [JsonNumber ν] [DecidableEq ν]

def perform (uuidv7 : Nat → String) (world : CacheWorld ν) : CacheStep ν → CacheWorld ν
  | .create id now ttlMs =>
    world.commit id ((createTransaction (world.database id) (uuidv7 world.drawn) now ttlMs).map Prod.snd)
  | .open id now ttlMs =>
    world.commit id ((claimStorage (world.database id) (uuidv7 world.drawn) now ttlMs).map Prod.snd)
  | .release id lease => world.commit id (.ok (releaseWriterLease (world.database id) lease))
  | .write id lease now ttlMs timestamp operation _ =>
    world.commit id ((writeTransaction (world.database id) lease now ttlMs fun rows =>
      performRows rows timestamp (uuidv7 world.drawn) operation).map fun result => result.2.2)
  | .fork source target options now ttlMs =>
    world.commit target ((Sqlite.fork (world.database source) (world.database target) options
      (fun n => uuidv7 (world.drawn + n)) now ttlMs).map Prod.snd)
  | .repair id now ttlMs =>
    world.commit id (repairTransaction (world.database id) (fun n => uuidv7 (world.drawn + n)) now ttlMs)
  | .delete id now ttlMs =>
    world.commit id (deleteTransaction (world.database id) (uuidv7 world.drawn) now ttlMs)

/-- The database after a sequence of transactions. -/
def run (uuidv7 : Nat → String) (steps : List (CacheStep ν)) : CacheWorld ν :=
  steps.foldl (perform uuidv7) start

end CacheWorld

/-! ## The invariant -/

section Runs

variable [JsonNumber ν] [DecidableEq ν] {uuidv7 : Nat → String}

/-- Every session has the cache of its tree. -/
def DatabaseInvariant (uuidv7 : Nat → String) (world : CacheWorld ν) : Prop :=
  ∀ id, ∃ tree : SessionState ν, SessionInvariant uuidv7 world.drawn tree (world.database id)

theorem databaseInvariant_start [Zero ν] (uuidv7 : Nat → String) :
    DatabaseInvariant uuidv7 (CacheWorld.start : CacheWorld ν) :=
  fun _ => ⟨emptyTree, sessionInvariant_empty uuidv7 0 rfl rfl rfl nofun fun _ => rfl⟩

variable {world : CacheWorld ν}

theorem DatabaseInvariant.commit (h : DatabaseInvariant uuidv7 world) (id : String)
    {x : Attempt (SessionRows ν)} (hx : Ensures x fun rows => ∃ tree : SessionState ν,
      SessionInvariant uuidv7 (world.drawn + 1 + rows.branch_tips.length) tree rows) :
    DatabaseInvariant uuidv7 (world.commit id x) := by
  cases hcase : x with
  | error e => exact h
  | ok rows =>
    intro other
    show ∃ tree : SessionState ν, SessionInvariant uuidv7
      (world.drawn + 1 + rows.branch_tips.length) tree (Function.update world.database id rows other)
    by_cases hid : other = id
    · subst hid
      rw [Function.update_self]
      exact hx rows hcase
    · rw [Function.update_of_ne hid]
      obtain ⟨tree, htree⟩ := h other
      exact ⟨tree, htree.drawn_le (by omega)⟩

omit [JsonNumber ν] [DecidableEq ν] in
theorem ensures_map {α β : Type} {x : Attempt α} {f : α → β} {post : β → Prop}
    (h : Ensures x fun a => post (f a)) : Ensures (x.map f) post := by
  intro b hb
  cases hx : x with
  | error e =>
    rw [hx] at hb
    cases hb
  | ok a =>
    rw [hx] at hb
    cases hb
    exact h a hx

/-- **One transaction** keeps the invariant. -/
theorem DatabaseInvariant.perform [Zero ν] [Add ν] (h : DatabaseInvariant uuidv7 world)
    (hinj : Function.Injective uuidv7) (step : CacheStep ν) :
    DatabaseInvariant uuidv7 (world.perform uuidv7 step) := by
  cases step with
  | create id now ttlMs =>
    obtain ⟨tree, htree⟩ := h id
    refine h.commit id (ensures_map fun result hresult => ⟨emptyTree, ?_⟩)
    exact (sessionInvariant_createTransaction htree _ now ttlMs result hresult).drawn_le (by omega)
  | «open» id now ttlMs =>
    obtain ⟨tree, htree⟩ := h id
    refine h.commit id (ensures_map fun result hresult => ⟨tree, ?_⟩)
    exact (sessionInvariant_claimStorage htree _ now ttlMs result hresult).drawn_le (by omega)
  | release id lease =>
    obtain ⟨tree, htree⟩ := h id
    refine h.commit id (ensures_ok ⟨tree, ?_⟩)
    exact (htree.kept (CacheKept.releaseWriterLease _ lease)).drawn_le (by omega)
  | write id lease now ttlMs timestamp operation declared =>
    obtain ⟨tree, htree⟩ := h id
    refine h.commit id (ensures_map fun result hresult => ?_)
    obtain ⟨tree', htree'⟩ :=
      htree.writeTransaction hinj lease now ttlMs timestamp operation declared result hresult
    exact ⟨tree', htree'.drawn_le (by omega)⟩
  | fork source target options now ttlMs =>
    obtain ⟨sourceTree, hsource⟩ := h source
    obtain ⟨targetTree, htarget⟩ := h target
    exact h.commit target (ensures_map (sessionInvariant_fork hsource htarget hinj options now ttlMs))
  | repair id now ttlMs =>
    obtain ⟨tree, htree⟩ := h id
    refine h.commit id fun rows hrows => ⟨tree, ?_⟩
    exact sessionInvariant_repairTransaction htree hinj now ttlMs rows hrows
  | delete id now ttlMs =>
    obtain ⟨tree, htree⟩ := h id
    refine h.commit id fun rows hrows => ?_
    obtain ⟨tree', htree'⟩ := sessionInvariant_deleteTransaction htree _ now ttlMs rows hrows
    exact ⟨tree', htree'.drawn_le (by omega)⟩

/-- **Every run** keeps it. -/
theorem databaseInvariant_run [Zero ν] [Add ν] (hinj : Function.Injective uuidv7)
    (steps : List (CacheStep ν)) : DatabaseInvariant uuidv7 (CacheWorld.run uuidv7 steps) := by
  have hfold : ∀ world : CacheWorld ν, DatabaseInvariant uuidv7 world →
      DatabaseInvariant uuidv7 (steps.foldl (CacheWorld.perform uuidv7) world) := by
    induction steps with
    | nil => exact fun world h => h
    | cons step steps ih => exact fun world h => ih _ (h.perform hinj step)
  exact hfold _ (databaseInvariant_start uuidv7)

/-! ## The cache and the walk -/

/-- The cache that belongs to a tree: the rows of a branch are the path from the root to its tip, every
entry is on a branch, and branches that share an entry agree on what is below it. -/
structure BranchCacheOf (tree : SessionState ν) (rows : SessionRows ν) : Prop where
  paths : ∀ tip ∈ rows.branch_tips, ∃ entry path, entry ∈ tree.entries ∧ entry.id = tip.tip_id ∧
    RootPath tree.parentOf entry path ∧
    (rows.branch_entries.filter fun row => row.branch_id = tip.branch_id) = path.reverse.map (branchRow tip.branch_id)
  covered : ∀ entry ∈ tree.entries, ∃ row ∈ rows.branch_entries, row.entry_id = entry.id
  agree : ∀ row ∈ rows.branch_entries, ∀ row' ∈ rows.branch_entries, row.entry_id = row'.entry_id →
    (rows.branch_entries.filter fun below =>
        below.branch_id = row.branch_id && below.entry_seq ≤ row.entry_seq).map
      BranchEntryRow.entry_id =
    (rows.branch_entries.filter fun below =>
        below.branch_id = row'.branch_id && below.entry_seq ≤ row'.entry_seq).map
      BranchEntryRow.entry_id

omit [JsonNumber ν] [DecidableEq ν] in
theorem branchCacheOf {tree : SessionState ν} {rows : SessionRows ν} (hb : Branches tree rows)
    (hcovered : Covered tree rows)
    (htree : EntriesInvariant tree.sequence tree.entries tree.entriesById) : BranchCacheOf tree rows where
  paths := hb.paths
  covered := hcovered
  agree := by
    -- both are the ids of the entry's root path
    have hthrough : ∀ row ∈ rows.branch_entries, ∀ entry ∈ tree.entries, ∀ path,
        RootPath tree.parentOf entry path → row.entry_id = entry.id →
        (rows.branch_entries.filter fun below =>
            below.branch_id = row.branch_id && below.entry_seq ≤ row.entry_seq).map
          BranchEntryRow.entry_id = path.reverse.map Entry.id := by
      intro row hrow entry hentry path hpath hid
      obtain ⟨heq, hrows⟩ := hb.rows_through htree hentry hpath hrow hid
      have hseq : row.entry_seq = entry.seq := by
        rw [heq]
        rfl
      rw [hseq, hrows, List.map_map]
      rfl
    intro row hrow row' hrow' hid
    obtain ⟨tip, -, leaf, path, entry, hleaf, -, hpath, -, hon, rfl⟩ := hb.row_cases hrow
    have hentry := htree.path_mem hleaf hpath entry hon
    obtain ⟨rootPath, hrootPath⟩ := htree.exists_path hentry
    exact (hthrough _ hrow entry hentry rootPath hrootPath rfl).trans
      (hthrough row' hrow' entry hentry rootPath hrootPath hid.symm).symm

/-- The arguments that `SessionState` accepts: a positive limit, a cursor that is not negative. -/
def ValidArguments (query : BranchQuery) : Prop :=
  (∀ limit ∈ query.limit, 0 < limit) ∧ ∀ afterSeq ∈ query.cursor, 0 ≤ afterSeq

omit [JsonNumber ν] [DecidableEq ν] in
theorem findEntriesOnBranch_invalid (tree : SessionState ν) {query : BranchQuery} (h : ¬ ValidArguments query) :
    ∃ message, tree.findEntriesOnBranch query = .error ⟨.invalid_query, message⟩ := by
  unfold SessionState.findEntriesOnBranch
  by_cases hlimit : ∀ limit ∈ query.limit, 0 < limit
  · obtain ⟨afterSeq, hafter, hnegative⟩ : ∃ afterSeq, query.cursor = some afterSeq ∧ afterSeq < 0 := by
      by_contra hnone
      refine h ⟨hlimit, fun afterSeq hafter => ?_⟩
      by_contra hlt
      exact hnone ⟨afterSeq, hafter, by omega⟩
    have hvalid : assertValidLimit query.limit = .ok () := by
      cases hl : query.limit with
      | none => rfl
      | some limit => exact if_neg (by have := hlimit limit hl; omega)
    have hcursor : assertValidCursor query.cursor =
        .error ⟨.invalid_query, "cursor sequence must be a non-negative integer"⟩ := by
      rw [hafter]
      exact if_pos hnegative
    refine ⟨"cursor sequence must be a non-negative integer", ?_⟩
    rw [hvalid, hcursor]
    rfl
  · obtain ⟨limit, hsome, hle⟩ : ∃ limit, query.limit = some limit ∧ limit ≤ 0 := by
      by_contra hnone
      refine hlimit fun limit hsome => ?_
      by_contra hle
      exact hnone ⟨limit, hsome, by omega⟩
    have hinvalid : assertValidLimit query.limit = .error ⟨.invalid_query, "limit must be a positive integer"⟩ := by
      rw [hsome]
      exact if_pos hle
    refine ⟨"limit must be a positive integer", ?_⟩
    rw [hinvalid]
    rfl

/-- **The branch cache agrees with the walk to the root**, in every session that is reached. -/
theorem branch_query_is_walk [Zero ν] [Add ν] (uuidv7 : Nat → String) (hinj : Function.Injective uuidv7)
    (steps : List (CacheStep ν)) (id : String) :
    let rows := (CacheWorld.run uuidv7 steps).database id
    ∃ tree : SessionState ν, Holds tree rows ∧ BranchCacheOf tree rows ∧
      ∀ query : BranchQuery, (∃ entry ∈ tree.entries, entry.id = query.start) →
        (ValidArguments query → ∃ entries, findEntriesOnBranch rows query = .ok entries ∧
          tree.findEntriesOnBranch query = .ok entries) ∧
        (¬ ValidArguments query → (∃ entries, findEntriesOnBranch rows query = .ok entries) ∧
          ∃ message, tree.findEntriesOnBranch query = .error ⟨.invalid_query, message⟩) := by
  obtain ⟨tree, h⟩ := databaseInvariant_run hinj steps id
  refine ⟨tree, h.holds, branchCacheOf h.branches h.covered h.holds.tree, ?_⟩
  rintro query ⟨entry, hmem, hstart⟩
  constructor
  · rintro ⟨hlimit, hcursor⟩
    exact h.holds.findEntriesOnBranch_walk h.branches h.covered hmem hstart hlimit hcursor
  · intro hinvalid
    obtain ⟨path, hpath⟩ := h.holds.tree.exists_path hmem
    refine ⟨⟨_, h.holds.findEntriesOnBranch_eq h.branches h.covered hmem hstart hpath⟩, ?_⟩
    exact findEntriesOnBranch_invalid tree hinvalid

end Runs

/-! ## A session with one entry -/

section Example

/-- Ids that differ in their lengths. -/
def unaryId (n : Nat) : String := String.ofList (List.replicate n 'u')

theorem unaryId_injective : Function.Injective unaryId := by
  intro a b hab
  have hlength := congrArg (fun id => id.toList.length) hab
  simpa [unaryId] using hlength

/-- An entry that sets the thinking level. -/
def levelEntry : ProvisionedEntry Int where
  id := "e"
  type := .thinking_level_change
  payload := ⟨[("thinkingLevel", .str "high")], by decide⟩
  typed := by decide

theorem levelEntry_declared : EntryPayload.Declared levelEntry.type levelEntry.payload := by decide

/-- A session is created and gets its entry. -/
def oneEntry : List (CacheStep Int) :=
  [.create "s" 0 100,
    .write "s" ⟨unaryId 0, 1, 100⟩ 1 100 ⟨0, Nat.zero_le _⟩ (.appendEntry levelEntry "main") levelEntry_declared]

theorem oneEntry_ids : ((CacheWorld.run unaryId oneEntry).database "s").entries.map EntryRow.id = ["e"] := by
  decide

/-- The walk rejects a limit that is not positive, the statement returns what it finds. -/
theorem zero_limit_disagrees :
    ¬ ∀ (steps : List (CacheStep Int)) (id : String) (tree : SessionState Int),
      Holds tree ((CacheWorld.run unaryId steps).database id) →
      ∀ query : BranchQuery, (∃ entry ∈ tree.entries, entry.id = query.start) → ∃ entries,
          findEntriesOnBranch ((CacheWorld.run unaryId steps).database id) query = .ok entries ∧
          tree.findEntriesOnBranch query = .ok entries := by
  intro hagree
  obtain ⟨tree, h⟩ := databaseInvariant_run unaryId_injective oneEntry "s"
  have hids : tree.entries.map Entry.id = ["e"] := by
    have hrows := oneEntry_ids
    rw [h.holds.entries, List.map_map] at hrows
    exact hrows
  have hmem : "e" ∈ tree.entries.map Entry.id := by
    rw [hids]
    exact List.mem_singleton_self _
  obtain ⟨entries, -, hwalk⟩ := hagree oneEntry "s" tree h.holds
    { start := "e", limit := some 0 } (List.mem_map.mp hmem)
  obtain ⟨message, hinvalid⟩ := @findEntriesOnBranch_invalid Int tree
    { start := "e", limit := some 0 } fun hvalid => absurd (hvalid.1 0 rfl) (Int.lt_irrefl 0)
  rw [hwalk] at hinvalid
  cases hinvalid

/-- The query on the session with one entry. -/
theorem one_entry_walk :
    Function.Injective unaryId ∧
    ∃ tree : SessionState Int, Holds tree ((CacheWorld.run unaryId oneEntry).database "s") ∧
      ∃ entries, findEntriesOnBranch ((CacheWorld.run unaryId oneEntry).database "s") { start := "e" } =
          .ok entries ∧
        tree.findEntriesOnBranch { start := "e" } = .ok entries := by
  obtain ⟨tree, hholds, -, hquery⟩ := branch_query_is_walk unaryId unaryId_injective oneEntry "s"
  have hids : tree.entries.map Entry.id = ["e"] := by
    have hrows := oneEntry_ids
    rw [hholds.entries, List.map_map] at hrows
    exact hrows
  have hmem : "e" ∈ tree.entries.map Entry.id := by
    rw [hids]
    exact List.mem_singleton_self _
  refine ⟨unaryId_injective, tree, hholds, ?_⟩
  exact (hquery { start := "e" } (List.mem_map.mp hmem)).1 ⟨nofun, nofun⟩

end Example

end Mcpi.Session.Sqlite
