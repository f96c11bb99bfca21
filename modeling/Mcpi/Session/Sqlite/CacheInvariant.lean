import Mcpi.Session.Sqlite.Repository

/-!
# The invariant of the branch cache

The cache of a session against the entry tree it was derived from, the tree being the
entries of a `SessionState`: each branch holds the root path of its tip (`Branches`), and
every entry is on some branch (`Covered`). One lemma for each function of `branch-cache.ts`
says which rows it adds and that they keep this.
-/

namespace Mcpi.Session.Sqlite

open SessionState

variable {ν : Type}

section Rows

variable [JsonNumber ν]

/-! ## Entries and their rows -/

/-- The columns of `branch_entries` for an entry on a branch. -/
def branchRow (branchId : String) (entry : Entry ν) : BranchEntryRow :=
  ⟨branchId, entry.id, entry.seq, entry.type,
    if entry.type = .custom then entry.customType else none⟩

/-- The entries of `s` are what the table holds. -/
structure Holds [DecidableEq ν] (s : SessionState ν) (rows : SessionRows ν) : Prop where
  entries : rows.entries = s.entries.map entryRow
  declared : ∀ entry ∈ s.entries, EntryPayload.Declared entry.type entry.payload
  tree : EntriesInvariant s.sequence s.entries s.entriesById

theorem customTypeFromPayload_row (entry : Entry ν) :
    customTypeFromPayload (ν := ν) (entryRow entry) =
      .ok (if entry.type = .custom then entry.customType else none) := by
  unfold customTypeFromPayload
  rw [entryRow_type, entryRow_payload, readObjectPayload_entryPayload]
  by_cases h : entry.type = .custom
  · obtain ⟨customType, hcustom⟩ := Option.isSome_iff_exists.mp (entry.typed h)
    have hmember : (Json.member? "customType" entry.payload.members).bind Json.str? =
        some customType := hcustom
    rw [if_neg (not_not.mpr h), if_pos h, Entry.customType, hcustom]
    simp only [hmember]
  · rw [if_pos h, if_neg h]

namespace Holds

variable [DecidableEq ν] {s : SessionState ν} {rows : SessionRows ν} (h : Holds s rows)
include h

omit h [DecidableEq ν] in
theorem find?_map_entryRow (entries : List (Entry ν)) (id : String) :
    (entries.map entryRow).find? (fun row => row.id = id) =
      (entries.find? fun entry => entry.id = id).map entryRow := by
  rw [List.find?_map]
  rfl

/-- `readEntryRow` finds the row of the entry `getEntry` finds. -/
theorem readEntryRow_eq (id : String) : readEntryRow rows id = (s.entriesById.get? id).map entryRow := by
  rw [readEntryRow, h.entries, find?_map_entryRow]
  congr 1
  cases hfind : s.entries.find? fun entry => entry.id = id with
  | some entry =>
    have hid : entry.id = id := by simpa using List.find?_some hfind
    exact (h.tree.get?_iff.mpr ⟨List.mem_of_find?_eq_some hfind, hid⟩).symm
  | none =>
    symm
    rw [Option.eq_none_iff_forall_ne_some]
    intro entry hget
    obtain ⟨hmem, hid⟩ := h.tree.get?_iff.mp hget
    exact absurd hid (by simpa using List.find?_eq_none.mp hfind entry hmem)

theorem decode_row {entry : Entry ν} (hmem : entry ∈ s.entries) :
    decodeEntry (entryRow entry) = .ok entry := decodeEntry_row (h.declared entry hmem)

theorem decodeAll_rows {entries : List (Entry ν)} (hmem : ∀ entry ∈ entries, entry ∈ s.entries) :
    decodeAll decodeEntry (entries.map entryRow) = .ok entries := by
  unfold decodeAll
  induction entries with
  | nil => rfl
  | cons entry entries ih =>
    rw [List.map_cons, List.mapM_cons, h.decode_row (hmem entry (by simp)), ih fun e he => hmem e (by simp [he])]
    rfl

theorem pathRows_eq {entry : Entry ν} {path : List (Entry ν)} (hmem : entry ∈ s.entries)
    (hpath : RootPath s.parentOf entry path) :
    ∀ seen : List String, (path.map Entry.id).Nodup → (∀ e ∈ path, e.id ∉ seen) →
      pathRows rows seen entry.id = .ok (path.map entryRow) := by
  induction hpath with
  | @root entry hroot =>
    intro seen _ hseen
    have hparent : entry.parentId = none := by
      cases hp : entry.parentId with
      | none => rfl
      | some p =>
        obtain ⟨parent, hmem', rfl, -⟩ := h.tree.parents entry hmem p hp
        simp [parentOf, hp, h.tree.get?_iff.mpr ⟨hmem', rfl⟩] at hroot
    have hread : readEntryRow rows entry.id = some (entryRow entry) := by
      rw [h.readEntryRow_eq, h.tree.get?_iff.mpr ⟨hmem, rfl⟩]
      rfl
    unfold pathRows
    rw [dif_neg (hseen entry (by simp))]
    split
    next hnone => rw [hread] at hnone; cases hnone
    next row hrow =>
      obtain rfl : entryRow entry = row := Option.some.inj (hread.symm.trans hrow)
      have hcol : (entryRow entry).parent_id = none := hparent
      rw [hcol]
      rfl
  | @step entry parent path hstep hrest ih =>
    intro seen hnodup hseen
    rw [List.map_cons, List.nodup_cons] at hnodup
    have hparent := (h.tree.parentOf_rank hmem hstep).1
    obtain ⟨p, hp, hget⟩ := Option.bind_eq_some_iff.mp hstep
    obtain rfl : parent.id = p := (h.tree.get?_iff.mp hget).2
    have hread : readEntryRow rows entry.id = some (entryRow entry) := by
      rw [h.readEntryRow_eq, h.tree.get?_iff.mpr ⟨hmem, rfl⟩]
      rfl
    have hih := ih hparent (entry.id :: seen) hnodup.2 fun e he => by
      rw [List.mem_cons, not_or]
      exact ⟨fun heq => hnodup.1 (List.mem_map.mpr ⟨e, he, heq⟩), hseen e (by simp [he])⟩
    unfold pathRows
    rw [dif_neg (hseen entry (by simp))]
    split
    next hnone => rw [hread] at hnone; cases hnone
    next row hrow =>
      obtain rfl : entryRow entry = row := Option.some.inj (hread.symm.trans hrow)
      have hcol : (entryRow entry).parent_id = some parent.id := hp
      rw [hcol]
      simp only [hih]
      rfl

end Holds

end Rows

/-! ## The invariant -/

/-- Each branch holds the path from the root to its tip, and each row is on a branch. -/
structure Branches (s : SessionState ν) (rows : SessionRows ν) : Prop where
  branch_ids : (rows.branch_tips.map BranchTipRow.branch_id).Nodup
  tip_ids : (rows.branch_tips.map BranchTipRow.tip_id).Nodup
  paths : ∀ tip ∈ rows.branch_tips, ∃ entry path, entry ∈ s.entries ∧ entry.id = tip.tip_id ∧
    RootPath s.parentOf entry path ∧
    rows.branch_entries.filter (fun row => row.branch_id = tip.branch_id) = path.reverse.map (branchRow tip.branch_id)
  tipped : ∀ row ∈ rows.branch_entries, ∃ tip ∈ rows.branch_tips, tip.branch_id = row.branch_id

/-- Every entry is on some branch. -/
def Covered (s : SessionState ν) (rows : SessionRows ν) : Prop :=
  ∀ entry ∈ s.entries, ∃ row ∈ rows.branch_entries, row.entry_id = entry.id

/-- No row has the branch id. -/
def FreshBranch (rows : SessionRows ν) (branchId : String) : Prop :=
  (∀ row ∈ rows.branch_entries, row.branch_id ≠ branchId) ∧ ∀ tip ∈ rows.branch_tips, tip.branch_id ≠ branchId

/-! ## Adding branches -/

theorem insertBranchEntry_eq (rows : SessionRows ν) (branch : BranchEntryRow)
    (hfresh : ∀ row ∈ rows.branch_entries, row.branch_id = branch.branch_id → row.entry_id ≠ branch.entry_id) :
    insertBranchEntry rows branch = .ok { rows with branch_entries := rows.branch_entries ++ [branch] } := by
  unfold insertBranchEntry
  rw [if_neg]
  simp only [List.any_eq_true, not_exists, Bool.and_eq_true, decide_eq_true_eq]
  rintro row ⟨hrow, hbranch, hentry⟩
  exact hfresh row hrow hbranch hentry

theorem insertPath_eq [JsonNumber ν] (branchId : String) (path : List (Entry ν)) :
    ∀ rows : SessionRows ν, (path.map Entry.id).Nodup →
      (∀ row ∈ rows.branch_entries, row.branch_id = branchId → row.entry_id ∉ path.map Entry.id) →
      insertPath branchId (path.map entryRow) rows =
        .ok { rows with branch_entries := rows.branch_entries ++ path.map (branchRow branchId) } := by
  induction path with
  | nil =>
    intro rows _ _
    simp [insertPath]
  | cons entry path ih =>
    intro rows hnodup hfresh
    rw [List.map_cons, List.nodup_cons] at hnodup
    have hinsert : insertBranchEntry rows (branchRow branchId entry) =
        .ok { rows with branch_entries := rows.branch_entries ++ [branchRow branchId entry] } :=
      insertBranchEntry_eq rows _ fun row hrow hbranch hentry =>
        hfresh row hrow hbranch (by rw [hentry]; simp [branchRow])
    have hrest := ih { rows with branch_entries :=
        rows.branch_entries ++ [branchRow branchId entry] } hnodup.2 (by
      intro row hrow hbranch hmem
      rcases List.mem_append.mp hrow with hrow | hrow
      · exact hfresh row hrow hbranch (List.mem_cons_of_mem _ hmem)
      · rw [List.mem_singleton.mp hrow] at hmem
        exact hnodup.1 hmem)
    rw [List.map_cons, insertPath, customTypeFromPayload_row]
    show (insertBranchEntry rows (branchRow branchId entry) >>= _) = _
    rw [hinsert]
    show insertPath branchId (path.map entryRow) _ = _
    rw [hrest]
    simp

section Step

variable {s s' : SessionState ν} {rows rows' : SessionRows ν} {branchId : String}
  {entry : Entry ν} {path : List (Entry ν)}

theorem Branches.grow (h : Branches s rows) (hentries : ∀ e ∈ s.entries, e ∈ s'.entries)
    (htree : EntriesInvariant s.sequence s.entries s.entriesById)
    (hparent : ∀ e ∈ s.entries, s'.parentOf e = s.parentOf e) : Branches s' rows where
  branch_ids := h.branch_ids
  tip_ids := h.tip_ids
  tipped := h.tipped
  paths := by
    intro tip htip
    obtain ⟨entry, path, hmem, hid, hpath, hrows⟩ := h.paths tip htip
    exact ⟨entry, path, hentries entry hmem, hid,
      hpath.congr fun e he => hparent e (htree.path_mem hmem hpath e he), hrows⟩

theorem Branches.add (h : Branches s rows) (hfresh : FreshBranch rows branchId)
    (hmem : entry ∈ s.entries) (hpath : RootPath s.parentOf entry path)
    (htip : entry.id ∉ rows.branch_tips.map BranchTipRow.tip_id)
    (hentries : rows'.branch_entries = rows.branch_entries ++ path.reverse.map (branchRow branchId))
    (htips : rows'.branch_tips = rows.branch_tips ++ [⟨branchId, entry.id⟩]) :
    Branches s rows' where
  branch_ids := by
    rw [htips, List.map_append, List.nodup_append]
    refine ⟨h.branch_ids, List.nodup_singleton _, ?_⟩
    intro id hid id' hid' heq
    obtain ⟨tip, htip, rfl⟩ := List.mem_map.mp hid
    rw [List.map_singleton, List.mem_singleton] at hid'
    exact hfresh.2 tip htip (heq.trans hid')
  tip_ids := by
    rw [htips, List.map_append, List.nodup_append]
    refine ⟨h.tip_ids, List.nodup_singleton _, ?_⟩
    intro id hid id' hid' heq
    rw [List.map_singleton, List.mem_singleton] at hid'
    obtain rfl : id = entry.id := heq.trans hid'
    exact htip hid
  paths := by
    intro tip ht
    rw [htips, List.mem_append, List.mem_singleton] at ht
    rw [hentries, List.filter_append]
    rcases ht with ht | rfl
    · -- no row of the new branch is on an old one
      obtain ⟨e, p, he, hid, hp, hrows⟩ := h.paths tip ht
      refine ⟨e, p, he, hid, hp, ?_⟩
      have hnone : (path.reverse.map (branchRow branchId)).filter (fun row => row.branch_id = tip.branch_id) = [] := by
        rw [List.filter_eq_nil_iff]
        intro row hrow
        obtain ⟨e', -, rfl⟩ := List.mem_map.mp hrow
        rw [decide_eq_true_eq]
        exact (hfresh.2 tip ht).symm
      rw [hrows, hnone, List.append_nil]
    · refine ⟨entry, path, hmem, rfl, hpath, ?_⟩
      have hnone : rows.branch_entries.filter (fun row => row.branch_id = branchId) = [] := by
        rw [List.filter_eq_nil_iff]
        intro row hrow
        simpa using hfresh.1 row hrow
      have hall : (path.reverse.map (branchRow branchId)).filter
          (fun row => row.branch_id = branchId) = path.reverse.map (branchRow branchId) := by
        rw [List.filter_eq_self]
        intro row hrow
        obtain ⟨e', -, rfl⟩ := List.mem_map.mp hrow
        simp [branchRow]
      rw [hnone, hall, List.nil_append]
  tipped := by
    intro row hrow
    rw [hentries, List.mem_append] at hrow
    rw [htips]
    rcases hrow with hrow | hrow
    · obtain ⟨tip, ht, heq⟩ := h.tipped row hrow
      exact ⟨tip, List.mem_append_left _ ht, heq⟩
    · obtain ⟨e', -, rfl⟩ := List.mem_map.mp hrow
      exact ⟨⟨branchId, entry.id⟩, List.mem_append_right _ (List.mem_singleton_self _), rfl⟩

/-- The tip table after the tip of one branch moved. -/
def movedTips (tips : List BranchTipRow) (branchId oldTipId newTipId : String) : List BranchTipRow :=
  tips.map fun row =>
    if row.branch_id = branchId && row.tip_id = oldTipId then { row with tip_id := newTipId }
    else row

theorem Branches.tip_unique (h : Branches s rows) {tip tip' : BranchTipRow}
    (htip : tip ∈ rows.branch_tips) (htip' : tip' ∈ rows.branch_tips)
    (heq : tip.branch_id = tip'.branch_id) : tip = tip' :=
  List.inj_on_of_nodup_map h.branch_ids htip htip' heq

theorem mem_movedTips {tips : List BranchTipRow} {oldTipId newTipId : String} {row : BranchTipRow}
    (hunique : ∀ tip ∈ tips, tip.branch_id = branchId → tip.tip_id = oldTipId)
    (hrow : row ∈ movedTips tips branchId oldTipId newTipId) :
    (row.branch_id ≠ branchId ∧ row ∈ tips) ∨ (row = ⟨branchId, newTipId⟩ ∧ ⟨branchId, oldTipId⟩ ∈ tips) := by
  obtain ⟨tip, htip, rfl⟩ := List.mem_map.mp hrow
  by_cases hb : tip.branch_id = branchId
  · have hold := hunique tip htip hb
    obtain ⟨b, t⟩ := tip
    subst hb hold
    simp [htip]
  · exact Or.inl (by simp [hb, htip])

theorem Branches.extend (h : Branches s rows) {parent : Entry ν} (hmem : entry ∈ s.entries)
    (hparent : s.parentOf entry = some parent) (hparentMem : parent ∈ s.entries)
    (htree : EntriesInvariant s.sequence s.entries s.entriesById)
    (htip : ⟨branchId, parent.id⟩ ∈ rows.branch_tips)
    (hfresh : entry.id ∉ rows.branch_tips.map BranchTipRow.tip_id)
    (hentries : rows'.branch_entries = rows.branch_entries ++ [branchRow branchId entry])
    (htips : rows'.branch_tips = movedTips rows.branch_tips branchId parent.id entry.id) :
    Branches s rows' := by
  have hunique : ∀ tip ∈ rows.branch_tips, tip.branch_id = branchId → tip.tip_id = parent.id :=
    fun tip ht hb => by rw [h.tip_unique ht htip hb]
  refine ⟨?_, ?_, ?_, ?_⟩
  · have hids : (movedTips rows.branch_tips branchId parent.id entry.id).map
        BranchTipRow.branch_id = rows.branch_tips.map BranchTipRow.branch_id := by
      rw [movedTips, List.map_map]
      refine List.map_congr_left fun tip _ => ?_
      show (if _ then _ else _ : BranchTipRow).branch_id = _
      split <;> rfl
    rw [htips, hids]
    exact h.branch_ids
  · -- the moved tip gets an id no tip had
    rw [htips, movedTips, List.map_map]
    refine (List.Nodup.of_map _ h.tip_ids).map_on fun tip ht tip' ht' heq => ?_
    have hne : ∀ t ∈ rows.branch_tips, t.tip_id ≠ entry.id := fun t ht heq =>
      hfresh (List.mem_map.mpr ⟨t, ht, heq⟩)
    simp only [Function.comp_apply] at heq
    split at heq <;> split at heq
    next h₁ h₂ =>
      simp only [Bool.and_eq_true, decide_eq_true_eq] at h₁ h₂
      exact h.tip_unique ht ht' (h₁.1.trans h₂.1.symm)
    · exact absurd heq.symm (hne tip' ht')
    · exact absurd heq (hne tip ht)
    · exact List.inj_on_of_nodup_map h.tip_ids ht ht' heq
  · intro tip ht
    rw [htips] at ht
    rw [hentries, List.filter_append]
    rcases mem_movedTips hunique ht with ⟨hb, ht⟩ | ⟨rfl, -⟩
    · obtain ⟨e, p, he, hid, hp, hrows⟩ := h.paths tip ht
      refine ⟨e, p, he, hid, hp, ?_⟩
      rw [hrows]
      simp [branchRow, Ne.symm hb]
    · obtain ⟨e, p, he, hid, hp, hrows⟩ := h.paths _ htip
      obtain rfl : e = parent := List.inj_on_of_nodup_map htree.ids_nodup he hparentMem hid
      refine ⟨entry, entry :: p, hmem, rfl, .step hparent hp, ?_⟩
      rw [hrows]
      simp [branchRow]
  · intro row hrow
    rw [hentries, List.mem_append, List.mem_singleton] at hrow
    rw [htips]
    have hkeep : ∀ tip ∈ rows.branch_tips, ∃ tip' ∈ movedTips rows.branch_tips branchId parent.id
        entry.id, tip'.branch_id = tip.branch_id := fun tip ht => by
      refine ⟨_, List.mem_map_of_mem ht, ?_⟩
      split <;> rfl
    rcases hrow with hrow | rfl
    · obtain ⟨tip, ht, heq⟩ := h.tipped row hrow
      obtain ⟨tip', ht', heq'⟩ := hkeep tip ht
      exact ⟨tip', ht', heq'.trans heq⟩
    · exact hkeep _ htip

end Step

/-! ## `branch-cache.ts` -/

section Build

variable {s : SessionState ν} {rows : SessionRows ν} {entry : Entry ν} {path : List (Entry ν)}

theorem FreshBranch.not_on {branchId : String} (h : FreshBranch rows branchId) (ids : List String) :
    ∀ row ∈ rows.branch_entries, row.branch_id = branchId → row.entry_id ∉ ids :=
  fun row hrow heq => absurd heq (h.1 row hrow)

theorem insertBranchTip_eq (rows : SessionRows ν) (tip : BranchTipRow)
    (hfresh : ∀ row ∈ rows.branch_tips, row.branch_id ≠ tip.branch_id)
    (htip : tip.tip_id ∉ rows.branch_tips.map BranchTipRow.tip_id) :
    insertBranchTip rows tip = .ok { rows with branch_tips := rows.branch_tips ++ [tip] } := by
  unfold insertBranchTip
  rw [if_neg]
  simp only [List.any_eq_true, not_exists, Bool.or_eq_true, decide_eq_true_eq, not_and, not_or]
  exact fun row hrow => ⟨fun heq => htip (List.mem_map.mpr ⟨row, hrow, heq⟩), hfresh row hrow⟩

variable [JsonNumber ν] [DecidableEq ν]

theorem Holds.buildCachedBranch_eq (h : Holds s rows) {branchId : String}
    (hmem : entry ∈ s.entries) (hpath : RootPath s.parentOf entry path)
    (hfresh : FreshBranch rows branchId)
    (htip : entry.id ∉ rows.branch_tips.map BranchTipRow.tip_id) :
    buildCachedBranch rows branchId entry.id = .ok { rows with
      branch_entries := rows.branch_entries ++ path.reverse.map (branchRow branchId)
      branch_tips := rows.branch_tips ++ [⟨branchId, entry.id⟩] } := by
  have hnodup := h.tree.path_ids_nodup hmem hpath
  have hrows : pathRows rows [] entry.id = .ok (path.map entryRow) :=
    h.pathRows_eq hmem hpath [] hnodup (by simp)
  have hinsert : insertPath branchId (path.map entryRow).reverse rows = .ok { rows with
      branch_entries := rows.branch_entries ++ path.reverse.map (branchRow branchId) } := by
    rw [← List.map_reverse]
    refine insertPath_eq branchId path.reverse rows ?_ (hfresh.not_on _)
    rw [List.map_reverse, List.nodup_reverse]
    exact hnodup
  have htipRow := insertBranchTip_eq { rows with
      branch_entries := rows.branch_entries ++ path.reverse.map (branchRow branchId) }
    ⟨branchId, entry.id⟩ hfresh.2 htip
  have hbuild : buildBranch rows branchId entry.id = .ok _ :=
    Except.bind_ok.mpr ⟨_, Except.bind_ok.mpr ⟨_, hrows, hinsert⟩, htipRow⟩
  rw [buildCachedBranch, hbuild]

/-- The rows of a session are its canonical rows and those of the cache. -/
def SameButCache (rows rows' : SessionRows ν) : Prop :=
  rows' = { rows with branch_entries := rows'.branch_entries, branch_tips := rows'.branch_tips }

/-- Branches for several tips at once; what they reach is covered. -/
theorem Holds.buildCachedBranches_eq {uuidv7 : Nat → String} (hinj : Function.Injective uuidv7) (tips : List String) :
    ∀ (n : Nat) (rows : SessionRows ν), Holds s rows → Branches s rows →
      (∀ k, n ≤ k → FreshBranch rows (uuidv7 k)) → tips.Nodup →
      (∀ id ∈ tips, id ∉ rows.branch_tips.map BranchTipRow.tip_id) →
      (∀ id ∈ tips, s.entriesById.has id) →
      ∃ rows', buildCachedBranches uuidv7 n tips rows = .ok rows' ∧ SameButCache rows rows' ∧
        Branches s rows' ∧ (∀ row ∈ rows.branch_entries, row ∈ rows'.branch_entries) ∧
        ∀ id ∈ tips, ∀ tip path, tip ∈ s.entries → tip.id = id → RootPath s.parentOf tip path →
          ∀ e ∈ path, ∃ row ∈ rows'.branch_entries, row.entry_id = e.id := by
  induction tips with
  | nil =>
    intro n rows _ hb _ _ _ _
    exact ⟨rows, rfl, rfl, hb, fun row hrow => hrow, by simp⟩
  | cons id tips ih =>
    intro n rows h hb hfresh hnodup htips hmem
    rw [List.nodup_cons] at hnodup
    obtain ⟨tip, hget⟩ := OrderedMap.has_iff.mp (hmem id (by simp))
    obtain ⟨htip, rfl⟩ := h.tree.get?_iff.mp hget
    obtain ⟨path, hpath⟩ := h.tree.exists_path htip
    have hbuild := h.buildCachedBranch_eq htip hpath (hfresh n (Nat.le_refl n)) (htips tip.id (by simp))
    let rows₁ : SessionRows ν := { rows with
      branch_entries := rows.branch_entries ++ path.reverse.map (branchRow (uuidv7 n))
      branch_tips := rows.branch_tips ++ [⟨uuidv7 n, tip.id⟩] }
    have hb₁ : Branches s rows₁ :=
      hb.add (hfresh n (Nat.le_refl n)) htip hpath (htips tip.id (by simp)) rfl rfl
    -- the next ids are still fresh
    have hfresh₁ : ∀ k, n + 1 ≤ k → FreshBranch rows₁ (uuidv7 k) := by
      intro k hk
      have hne : uuidv7 n ≠ uuidv7 k := fun heq => by
        have := hinj heq
        omega
      refine ⟨fun row hrow => ?_, fun row hrow => ?_⟩
      · rcases List.mem_append.mp hrow with hrow | hrow
        · exact (hfresh k (by omega)).1 row hrow
        · obtain ⟨e, -, rfl⟩ := List.mem_map.mp hrow
          exact hne
      · rcases List.mem_append.mp hrow with hrow | hrow
        · exact (hfresh k (by omega)).2 row hrow
        · rw [List.mem_singleton.mp hrow]
          exact hne
    have htips₁ : ∀ id ∈ tips, id ∉ rows₁.branch_tips.map BranchTipRow.tip_id := by
      intro id hid
      show id ∉ (rows.branch_tips ++ [_]).map BranchTipRow.tip_id
      rw [List.map_append, List.mem_append, not_or]
      refine ⟨htips id (by simp [hid]), fun heq => ?_⟩
      rw [List.map_singleton, List.mem_singleton] at heq
      obtain rfl : id = tip.id := heq
      exact hnodup.1 hid
    obtain ⟨rows', hrest, hsame, hbranches, hkept, hcovered⟩ := ih (n + 1) rows₁
      ⟨h.entries, h.declared, h.tree⟩ hb₁ hfresh₁ hnodup.2 htips₁
      fun id hid => hmem id (by simp [hid])
    refine ⟨rows', Except.bind_ok.mpr ⟨_, hbuild, hrest⟩, ?_, hbranches,
      fun row hrow => hkept row (List.mem_append_left _ hrow), ?_⟩
    · rw [SameButCache] at hsame ⊢
      rw [hsame]
    · intro id hid tip' path' htip' heq hpath' e he
      rcases List.mem_cons.mp hid with rfl | hid
      · obtain rfl : tip' = tip := List.inj_on_of_nodup_map h.tree.ids_nodup htip' htip heq
        obtain rfl := hpath'.unique hpath
        refine ⟨branchRow (uuidv7 n) e, hkept _ (List.mem_append_right _ ?_), rfl⟩
        exact List.mem_map_of_mem (List.mem_reverse.mpr he)
      · exact hcovered id hid tip' path' htip' heq hpath' e he

end Build

end Mcpi.Session.Sqlite
