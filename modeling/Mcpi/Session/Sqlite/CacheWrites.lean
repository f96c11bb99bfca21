import Mcpi.Session.Sqlite.BranchQuery
import Mcpi.Session.Sqlite.RowsKept

/-!
# Writes and the branch cache

What each transaction on a session does to the entries and to the cache. Most of them touch neither. An
append extends both, a repair derives the cache anew, and `create` and `delete` leave a session without
entries.
-/

namespace Mcpi.Session

variable {ν : Type}

/-- An entry that is appended has the properties its type declares. -/
def Operation.Declared [DecidableEq ν] : Operation ν → Prop
  | .appendEntry newEntry _ => EntryPayload.Declared newEntry.type newEntry.payload
  | _ => True

namespace Sqlite

open SessionState

/-! ## The invariant of a session -/

section Invariant

variable [JsonNumber ν] [DecidableEq ν]

/-- The cache of a session is that of its tree, and the ids of its branches have been drawn. A session
that does not exist has no rows. -/
structure SessionInvariant (uuidv7 : Nat → String) (drawn : Nat) (tree : SessionState ν)
    (rows : SessionRows ν) : Prop where
  holds : Holds tree rows
  branches : Branches tree rows
  covered : Covered tree rows
  next : ∀ seq ∈ rows.next_seq, tree.sequence < seq
  ids : ∀ tip ∈ rows.branch_tips, ∃ k < drawn, tip.branch_id = uuidv7 k
  absent : rows.session = false →
    rows.next_seq = none ∧ rows.entries = [] ∧ rows.branch_entries = [] ∧ rows.branch_tips = []

/-- A tree without entries. -/
def emptyTree [Zero ν] : SessionState ν := initial

variable {uuidv7 : Nat → String} {drawn : Nat} {tree : SessionState ν} {rows rows' : SessionRows ν}

theorem holds_congr (h : Holds tree rows) (hentries : rows'.entries = rows.entries) : Holds tree rows' :=
  ⟨hentries.trans h.entries, h.declared, h.tree⟩

omit [JsonNumber ν] [DecidableEq ν] in
theorem branches_congr (h : Branches tree rows) (hentries : rows'.branch_entries = rows.branch_entries)
    (htips : rows'.branch_tips = rows.branch_tips) : Branches tree rows' where
  branch_ids := by rw [htips]; exact h.branch_ids
  tip_ids := by rw [htips]; exact h.tip_ids
  paths := by rw [htips, hentries]; exact h.paths
  tipped := by rw [htips, hentries]; exact h.tipped

omit [JsonNumber ν] [DecidableEq ν] in
theorem covered_congr (h : Covered tree rows) (hentries : rows'.branch_entries = rows.branch_entries) :
    Covered tree rows' := by
  rw [Covered, hentries]
  exact h

namespace SessionInvariant

theorem kept (h : SessionInvariant uuidv7 drawn tree rows) (hkept : CacheKept rows rows') :
    SessionInvariant uuidv7 drawn tree rows' where
  holds := holds_congr h.holds hkept.entries
  branches := branches_congr h.branches hkept.branch_entries hkept.branch_tips
  covered := covered_congr h.covered hkept.branch_entries
  next := by rw [hkept.next_seq]; exact h.next
  ids := by rw [hkept.branch_tips]; exact h.ids
  absent := by
    rw [hkept.session, hkept.next_seq, hkept.entries, hkept.branch_entries, hkept.branch_tips]
    exact h.absent

theorem drawn_le (h : SessionInvariant uuidv7 drawn tree rows) {drawn' : Nat} (hle : drawn ≤ drawn') :
    SessionInvariant uuidv7 drawn' tree rows := by
  refine { h with ids := fun tip htip => ?_ }
  obtain ⟨k, hk, hid⟩ := h.ids tip htip
  exact ⟨k, Nat.lt_of_lt_of_le hk hle, hid⟩

theorem setNextSequence (h : SessionInvariant uuidv7 drawn tree rows) {seq : Nat} (hseq : tree.sequence < seq) :
    SessionInvariant uuidv7 drawn tree (setNextSequence rows seq) where
  holds := holds_congr h.holds rfl
  branches := branches_congr h.branches rfl rfl
  covered := covered_congr h.covered rfl
  next := by
    intro next hnext
    obtain ⟨_, -, rfl⟩ := Option.map_eq_some_iff.mp hnext
    exact hseq
  ids := h.ids
  absent := by
    intro habsent
    obtain ⟨hnone, hrest⟩ := h.absent habsent
    refine ⟨?_, hrest⟩
    show rows.next_seq.map _ = none
    rw [hnone]
    rfl

theorem fresh (h : SessionInvariant uuidv7 drawn tree rows) (hinj : Function.Injective uuidv7) {k : Nat}
    (hk : drawn ≤ k) : FreshBranch rows (uuidv7 k) := by
  have htips : ∀ tip ∈ rows.branch_tips, tip.branch_id ≠ uuidv7 k := by
    intro tip htip heq
    obtain ⟨j, hj, hid⟩ := h.ids tip htip
    have := hinj (hid.symm.trans heq)
    omega
  refine ⟨fun row hrow heq => ?_, htips⟩
  obtain ⟨tip, htip, hbranch⟩ := h.branches.tipped row hrow
  exact htips tip htip (hbranch.trans heq)

end SessionInvariant

theorem sessionInvariant_empty [Zero ν] (uuidv7 : Nat → String) (drawn : Nat)
    (hentries : rows.entries = []) (hbranch : rows.branch_entries = []) (htips : rows.branch_tips = [])
    (hnext : ∀ seq ∈ rows.next_seq, 0 < seq) (habsent : rows.session = false → rows.next_seq = none) :
    SessionInvariant uuidv7 drawn (emptyTree : SessionState ν) rows where
  holds := ⟨hentries, nofun, ⟨rfl, nofun, List.Pairwise.nil, nofun⟩⟩
  branches := .empty hbranch htips
  covered := nofun
  next := hnext
  ids := by
    rw [htips]
    exact nofun
  absent := fun h => ⟨habsent h, hentries, hbranch, htips⟩

end Invariant

/-! ## Appending -/

section Append

variable {uuidv7 : Nat → String} {drawn : Nat}
  {tree : SessionState ν} {rows : SessionRows ν}

theorem ensures_readLaneHead (rows : SessionRows ν) (lane : String) :
    Ensures (readLaneHead rows lane) fun parentId =>
      ∀ p ∈ parentId, ∃ row ∈ rows.entries, row.id = p := by
  unfold readLaneHead
  split
  · exact ensures_error
  next row _ =>
    split
    next hexists =>
      refine ensures_ok fun p hp => ?_
      rw [Option.mem_def] at hp
      rw [leafExists, hp] at hexists
      obtain ⟨entry, hentry, hid⟩ := List.any_eq_true.mp hexists
      exact ⟨entry, hentry, by simpa using hid⟩
    · exact ensures_error

theorem ensures_assertUnusedId (rows : SessionRows ν) (id : String) :
    Ensures (assertUnusedId rows id) fun _ => ∀ row ∈ rows.entries, row.id ≠ id := by
  unfold assertUnusedId
  split
  · exact ensures_error
  next hfree =>
    refine ensures_ok fun row hrow heq => hfree ?_
    have hsome : idExistsInEntries rows id = true := by
      rw [idExistsInEntries, List.find?_isSome]
      exact ⟨row, hrow, by simpa using heq⟩
    rw [hsome, Bool.true_or]

variable [JsonNumber ν] [DecidableEq ν]

/-- The tree with one more entry. -/
def growTree (tree : SessionState ν) (entry : Entry ν) : SessionState ν :=
  { tree with
    sequence := entry.seq
    entries := tree.entries ++ [entry]
    entriesById := tree.entriesById.set entry.id entry }

theorem SessionInvariant.advanced {rows' : SessionRows ν}
    (h : SessionInvariant uuidv7 drawn tree rows) (hadvanced : Advanced rows rows') :
    SessionInvariant uuidv7 drawn tree rows' := by
  obtain ⟨seq, rows₁, hseq, hkept, rfl⟩ := hadvanced
  have hlt : tree.sequence < seq := h.next seq hseq
  exact (h.kept hkept.toCacheKept).setNextSequence (by omega)

/-- **An append** keeps the invariant, with the tree that has the new entry. -/
theorem SessionInvariant.appendEntryRows (h : SessionInvariant uuidv7 drawn tree rows)
    (hinj : Function.Injective uuidv7) (now : SafeNat) (entry : ProvisionedEntry ν) (lane : String)
    (hdeclared : EntryPayload.Declared entry.type entry.payload) :
    Ensures (appendEntryRows rows now (uuidv7 drawn) entry lane) fun result =>
      ∃ tree' : SessionState ν, SessionInvariant uuidv7 (drawn + 1) tree' result.2 := by
  unfold Sqlite.appendEntryRows
  refine ensures_bind (ensures_readLaneHead rows lane) fun parentId hparent => ?_
  refine ensures_bind (ensures_assertUnusedId rows entry.id) fun _ hunused => ?_
  refine ensures_bind (ensures_getNextSequence rows) fun seq hseq => ?_
  dsimp only
  generalize hcommitted : entry.toEntry parentId seq now = committed
  refine ensures_bind (ensures_insertEntryRow rows _) fun rows₁ h₁ => ?_
  refine ensures_bind (RowsKept.setLaneLeaf rows₁ _ _) fun rows₂ h₂ => ?_
  have hid : committed.id = entry.id := by rw [← hcommitted]; rfl
  have hcommittedSeq : committed.seq = seq := by rw [← hcommitted]; rfl
  have hcommittedParent : committed.parentId = parentId := by rw [← hcommitted]; rfl
  have hcommittedDeclared : EntryPayload.Declared committed.type committed.payload := by
    rw [← hcommitted]
    exact hdeclared
  have hentries := h.holds.entries
  have hfreshId : committed.id ∉ tree.entries.map Entry.id := by
    intro hmem
    obtain ⟨e, he, heq⟩ := List.mem_map.mp hmem
    refine hunused (entryRow e) ?_ (heq.trans hid)
    rw [hentries]
    exact List.mem_map_of_mem he
  have hlt : tree.sequence < committed.seq := by
    rw [hcommittedSeq]
    exact h.next seq hseq
  have hhas : ∀ p ∈ committed.parentId, tree.entriesById.has p := by
    intro p hp
    rw [hcommittedParent] at hp
    obtain ⟨row, hrow, rfl⟩ := hparent p hp
    rw [hentries] at hrow
    obtain ⟨e, he, rfl⟩ := List.mem_map.mp hrow
    exact h.holds.tree.has_iff.mpr (List.mem_map_of_mem he)
  have htree' := h.holds.tree.push hfreshId hlt hhas
  -- the rows in front of the cache
  have hrows₂ : rows₂.branch_entries = rows.branch_entries ∧ rows₂.branch_tips = rows.branch_tips ∧
      rows₂.next_seq = rows.next_seq ∧ rows₂.session = rows.session := by
    rw [h₂.branch_entries, h₂.branch_tips, h₂.next_seq, h₂.session, h₁]
    exact ⟨rfl, rfl, rfl, rfl⟩
  obtain ⟨hbranchEntries, hbranchTips, hnext, hsession⟩ := hrows₂
  have hfreshBranch : FreshBranch rows₂ (uuidv7 drawn) := by
    have hfresh := h.fresh hinj (Nat.le_refl drawn)
    rw [FreshBranch, hbranchEntries, hbranchTips]
    exact hfresh
  obtain ⟨rows₃, happend, hsame, hbranches, hcovered⟩ := appendEntryToBranchCache_ok
    (branches_congr h.branches hbranchEntries hbranchTips) (covered_congr h.covered hbranchEntries)
    h.holds.tree (show EntriesInvariant (growTree tree committed).sequence _ _ from htree') rfl hfreshBranch
  have hholds : Holds (growTree tree committed) rows₃ := by
    refine ⟨?_, ?_, htree'⟩
    · rw [hsame, h₂.entries, h₁, hentries]
      show tree.entries.map entryRow ++ [entryRow committed] = (tree.entries ++ [committed]).map entryRow
      rw [List.map_append, List.map_singleton]
    · intro e he
      rcases List.mem_append.mp he with he | he
      · exact h.holds.declared e he
      · rw [List.mem_singleton.mp he]
        exact hcommittedDeclared
  have htips := (tipsFrom_appendEntryToBranchCache _ _ _ _ _ _ _ rows₃ happend).branch_tips
  have hexists : rows.session ≠ false := by
    intro habsent
    rw [(h.absent habsent).1] at hseq
    cases hseq
  have hinvariant : ∀ rows₄, CacheKept rows₃ rows₄ →
      SessionInvariant uuidv7 (drawn + 1) (growTree tree committed) (advanceSequence rows₄ seq) := by
    intro rows₄ hkept
    refine ⟨holds_congr hholds hkept.entries, branches_congr hbranches hkept.branch_entries
      hkept.branch_tips, covered_congr hcovered hkept.branch_entries, ?_, ?_, ?_⟩
    · intro next hnext'
      obtain ⟨_, -, rfl⟩ := Option.map_eq_some_iff.mp hnext'
      show committed.seq < seq + 1
      omega
    · intro tip htip
      have htip : tip ∈ rows₄.branch_tips := htip
      rw [hkept.branch_tips] at htip
      rcases htips tip htip with ⟨tip₀, htip₀, heq⟩ | heq
      · rw [hbranchTips] at htip₀
        obtain ⟨k, hk, hdrawn⟩ := h.ids tip₀ htip₀
        exact ⟨k, by omega, heq.symm.trans hdrawn⟩
      · exact ⟨drawn, Nat.lt_succ_self drawn, heq⟩
    · intro habsent
      have hsession' : rows₄.session = rows.session := by
        rw [hkept.session, hsame]
        exact hsession
      exact absurd (hsession'.symm.trans habsent) hexists
  refine ensures_bind (fun rows' hrows' => ?_) fun rows₄ (h₄ : rows₄ = rows₃) => ?_
  · exact (Except.ok.inj (happend.symm.trans (hcommittedSeq ▸ hrows'))).symm
  subst h₄
  split
  · refine ensures_bind (RowsKept.incrementMessageCount rows₄) fun rows₅ h₅ => ?_
    exact ensures_pure ⟨_, hinvariant rows₅ h₅.toCacheKept⟩
  · exact ensures_pure ⟨_, hinvariant rows₄ (.refl rows₄)⟩

/-- **A write** keeps the invariant. -/
theorem SessionInvariant.performRows [Add ν] (h : SessionInvariant uuidv7 drawn tree rows)
    (hinj : Function.Injective uuidv7) (now : SafeNat) (operation : Operation ν)
    (hdeclared : operation.Declared) :
    Ensures (performRows rows now (uuidv7 drawn) operation) fun result =>
      ∃ tree' : SessionState ν, SessionInvariant uuidv7 (drawn + 1) tree' result.2 := by
  have hkept : ∀ {x : Attempt (Outcome ν × SessionRows ν)},
      Ensures x (fun result => Advanced rows result.2) → Ensures x fun result =>
        ∃ tree' : SessionState ν, SessionInvariant uuidv7 (drawn + 1) tree' result.2 :=
    fun hx result hresult =>
      ⟨tree, (h.advanced (hx result hresult)).drawn_le (Nat.le_succ drawn)⟩
  cases operation with
  | createLane lane leafId => exact hkept (advanced_createLaneRows rows lane leafId)
  | moveLane lane leafId => exact hkept (advanced_moveLaneRows rows lane leafId)
  | appendEntry newEntry lane => exact h.appendEntryRows hinj now newEntry lane hdeclared
  | appendRecord newRecord => exact hkept (advanced_appendRecordRows rows now newRecord)
  | setName name => exact hkept (advanced_setNameRows rows name)
  | setLabel id label => exact hkept (advanced_setLabelRows rows id label)

end Append

/-! ## The other transactions on one session -/

section Transactions

variable {uuidv7 : Nat → String} {drawn : Nat}
  {tree : SessionState ν} {rows : SessionRows ν}

theorem ensures_insertSessionRow (rows : SessionRows ν) :
    Ensures (insertSessionRow rows) fun rows' =>
      rows.session = false ∧ rows' = { rows with session := true } := by
  unfold insertSessionRow
  split
  · exact ensures_error
  next hsession => exact ensures_ok ⟨by simpa using hsession, rfl⟩

theorem ensures_createSequence (rows : SessionRows ν) :
    Ensures (createSequence rows) fun rows' => rows' = { rows with next_seq := some 1 } := by
  unfold createSequence
  split
  · exact ensures_error
  · exact ensures_ok rfl

theorem ensures_requireSessionRow (rows : SessionRows ν) :
    Ensures (requireSessionRow rows) fun _ => rows.session = true := by
  unfold requireSessionRow
  split
  next hsession => exact ensures_ok hsession
  · exact ensures_error

variable [JsonNumber ν] [DecidableEq ν]

theorem SessionInvariant.writeTransaction [Add ν] (h : SessionInvariant uuidv7 drawn tree rows)
    (hinj : Function.Injective uuidv7) (lease : WriterLease) (now ttlMs : Int) (timestamp : SafeNat)
    (operation : Operation ν) (hdeclared : operation.Declared) :
    Ensures (writeTransaction rows lease now ttlMs fun rows =>
        Sqlite.performRows rows timestamp (uuidv7 drawn) operation) fun result =>
      ∃ tree' : SessionState ν, SessionInvariant uuidv7 (drawn + 1) tree' result.2.2 := by
  unfold Sqlite.writeTransaction
  have hkept := CacheKept.renewWriterLease rows lease now (now + ttlMs)
  revert hkept
  generalize renewWriterLease rows lease now (now + ttlMs) = renewed
  obtain ⟨held, lease, rows₁⟩ := renewed
  intro hkept
  cases held with
  | false => exact ensures_error
  | true =>
    refine ensures_bind ((h.kept hkept).performRows hinj timestamp operation hdeclared) fun result hresult => ?_
    exact ensures_pure hresult

theorem sessionInvariant_createTransaction [Zero ν] (h : SessionInvariant uuidv7 drawn tree rows)
    (id : String) (now ttlMs : Int) :
    Ensures (createTransaction rows id now ttlMs) fun result =>
      SessionInvariant uuidv7 drawn (emptyTree : SessionState ν) result.2 := by
  unfold createTransaction
  refine ensures_bind (ensures_insertSessionRow rows) fun rows₁ ⟨habsent, h₁⟩ => ?_
  obtain ⟨-, hentries, hbranch, htips⟩ := h.absent habsent
  refine ensures_bind (ensures_createSequence rows₁) fun rows₂ h₂ => ?_
  have hempty : SessionInvariant uuidv7 drawn (emptyTree : SessionState ν) rows₂ := by
    subst h₂ h₁
    refine sessionInvariant_empty uuidv7 drawn hentries hbranch htips ?_ nofun
    rintro seq ⟨⟩
    exact Nat.one_pos
  refine ensures_bind (RowsKept.createStats rows₂ 0) fun rows₃ h₃ => ?_
  refine ensures_bind (RowsKept.insertLaneRow rows₃ _) fun rows₄ h₄ => ?_
  intro result hresult
  exact hempty.kept ((h₃.trans h₄).toCacheKept.trans (CacheKept.claimWriterLease rows₄ id now ttlMs result hresult))

theorem sessionInvariant_claimStorage (h : SessionInvariant uuidv7 drawn tree rows) (id : String) (now ttlMs : Int) :
    Ensures (claimStorage rows id now ttlMs) fun result => SessionInvariant uuidv7 drawn tree result.2 := by
  unfold claimStorage
  refine ensures_read fun _ => ?_
  refine ensures_bind (CacheKept.claimWriterLease rows id now ttlMs) fun result hkept => ?_
  exact ensures_read fun _ => ensures_read fun _ => ensures_pure (h.kept hkept)

theorem sessionInvariant_deleteTransaction [Zero ν] (h : SessionInvariant uuidv7 drawn tree rows)
    (id : String) (now ttlMs : Int) :
    Ensures (deleteTransaction rows id now ttlMs) fun rows' =>
      ∃ tree' : SessionState ν, SessionInvariant uuidv7 drawn tree' rows' := by
  unfold deleteTransaction
  split
  · exact ensures_ok ⟨tree, h.kept ⟨rfl, rfl, rfl, rfl, rfl⟩⟩
  · refine ensures_read fun result => ensures_pure ⟨emptyTree, ?_⟩
    exact sessionInvariant_empty uuidv7 drawn rfl rfl rfl nofun fun _ => rfl

/-- **A repair** derives the cache of the same tree. It draws an id for the lease and one for each
branch. -/
theorem sessionInvariant_repairTransaction (h : SessionInvariant uuidv7 drawn tree rows)
    (hinj : Function.Injective uuidv7) (now ttlMs : Int) :
    Ensures (repairTransaction rows (fun n => uuidv7 (drawn + n)) now ttlMs) fun rows' =>
      SessionInvariant uuidv7 (drawn + 1 + rows'.branch_tips.length) tree rows' := by
  unfold repairTransaction
  refine ensures_bind (CacheKept.claimWriterLease rows _ now ttlMs) fun result hkept => ?_
  obtain ⟨lease, rows₁⟩ := result
  have h₁ := h.kept hkept
  refine ensures_bind (ensures_requireSessionRow rows₁) fun _ hexists => ?_
  have hinj' : Function.Injective fun n => uuidv7 (drawn + (n + 1)) := fun a b hab => by
    have := hinj hab
    omega
  obtain ⟨rows₂, hbuild, hsame, hbranches, hcovered⟩ := h₁.holds.rebuildBranchCache_ok hinj'
  obtain ⟨-, hlength, hids⟩ := ensures_buildCachedBranches (fun n => uuidv7 (drawn + (n + 1))) _ 0
    (deleteBranchCache rows₁) rows₂ hbuild
  have hrebuilt : SessionInvariant uuidv7 (drawn + 1 + rows₂.branch_tips.length) tree rows₂ := by
    have hsession : rows₂.session = rows₁.session := by rw [hsame]
    have hnext : rows₂.next_seq = rows₁.next_seq := by rw [hsame]
    have hentries : rows₂.entries = rows₁.entries := by rw [hsame]
    refine ⟨holds_congr h₁.holds hentries, hbranches, hcovered, ?_, fun tip htip => ?_, ?_⟩
    · rw [hnext]
      exact h₁.next
    · rcases hids tip htip with hold | ⟨k, hk, hid⟩
      · exact absurd hold List.not_mem_nil
      · refine ⟨drawn + (k + 1), ?_, by rw [hid, Nat.zero_add]⟩
        rw [hlength]
        omega
    · intro habsent
      rw [hsession, hexists] at habsent
      cases habsent
  refine ensures_bind (fun rows' hrows' => ?_) fun rows₃ (h₃ : rows₃ = rows₂) => ?_
  · exact (Except.ok.inj (hbuild.symm.trans hrows')).symm
  subst h₃
  have hrelease := CacheKept.releaseWriterLease rows₃ lease
  refine ensures_pure ?_
  rw [hrelease.branch_tips]
  exact hrebuilt.kept hrelease

end Transactions

end Sqlite

end Mcpi.Session
