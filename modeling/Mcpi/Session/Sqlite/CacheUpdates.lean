import Mcpi.Session.Sqlite.CacheInvariant

/-!
# Appending to the cache and rebuilding it

The three ways an append changes the cache (a root, a child of a tip, a child of anything
else) and the rebuild from the parent links. None of them fails on a cache that meets its
invariant, and all of them keep it.
-/

namespace Mcpi.Session.Sqlite

open SessionState

variable {ν : Type}

section Rows

variable {s s' : SessionState ν} {rows : SessionRows ν} {entry : Entry ν} {path : List (Entry ν)}

/-- A row of the cache is an entry on the path of a tip. -/
theorem Branches.row_cases (hb : Branches s rows) {row : BranchEntryRow}
    (hrow : row ∈ rows.branch_entries) : ∃ tip ∈ rows.branch_tips, ∃ leaf path e,
      leaf ∈ s.entries ∧ leaf.id = tip.tip_id ∧ RootPath s.parentOf leaf path ∧
      rows.branch_entries.filter (fun row => row.branch_id = tip.branch_id) =
        path.reverse.map (branchRow tip.branch_id) ∧
      e ∈ path ∧ row = branchRow tip.branch_id e := by
  obtain ⟨tip, htip, hbranch⟩ := hb.tipped row hrow
  obtain ⟨leaf, path, hleaf, hid, hpath, hrows⟩ := hb.paths tip htip
  have hmem : row ∈ rows.branch_entries.filter (fun row => row.branch_id = tip.branch_id) :=
    List.mem_filter.mpr ⟨hrow, by simpa using hbranch.symm⟩
  rw [hrows] at hmem
  obtain ⟨e, he, rfl⟩ := List.mem_map.mp hmem
  exact ⟨tip, htip, leaf, path, e, hleaf, hid, hpath, hrows, List.mem_reverse.mp he, rfl⟩

theorem Branches.not_cached (hb : Branches s rows)
    (htree : EntriesInvariant s.sequence s.entries s.entriesById) {id : String}
    (hfresh : id ∉ s.entries.map Entry.id) :
    (∀ row ∈ rows.branch_entries, row.entry_id ≠ id) ∧ id ∉ rows.branch_tips.map BranchTipRow.tip_id := by
  constructor
  · rintro row hrow rfl
    obtain ⟨tip, -, leaf, path, e, hleaf, -, hpath, -, he, rfl⟩ := hb.row_cases hrow
    exact hfresh (List.mem_map_of_mem (htree.path_mem hleaf hpath e he))
  · intro hmem
    obtain ⟨tip, htip, rfl⟩ := List.mem_map.mp hmem
    obtain ⟨leaf, path, hleaf, hid, -⟩ := hb.paths tip htip
    exact hfresh (List.mem_map.mpr ⟨leaf, hleaf, hid⟩)

/-- **Whatever branch an entry is on**, up to that entry it is the entry's own root path. -/
theorem Branches.rows_through (hb : Branches s rows)
    (htree : EntriesInvariant s.sequence s.entries s.entriesById) (hmem : entry ∈ s.entries)
    (hpath : RootPath s.parentOf entry path) {row : BranchEntryRow} (hrow : row ∈ rows.branch_entries)
    (hid : row.entry_id = entry.id) :
    row = branchRow row.branch_id entry ∧
      rows.branch_entries.filter (fun row' => row'.branch_id = row.branch_id && row'.entry_seq ≤ entry.seq) =
        path.reverse.map (branchRow row.branch_id) := by
  -- it is the row of the entry on the path of some tip
  obtain ⟨tip, -, leaf, path', e, hleaf, -, hpath', hrows, he, rfl⟩ := hb.row_cases hrow
  obtain rfl : e = entry :=
    List.inj_on_of_nodup_map htree.ids_nodup (htree.path_mem hleaf hpath' e he) hmem hid
  refine ⟨rfl, ?_⟩
  show rows.branch_entries.filter (fun row => row.branch_id = tip.branch_id && row.entry_seq ≤ e.seq) =
    path.reverse.map (branchRow tip.branch_id)
  obtain ⟨pre, post, rfl, hpost⟩ := hpath'.of_mem he
  obtain rfl := hpost.unique hpath
  have hsorted := htree.path_sorted hleaf hpath'
  have hpre : (pre.reverse.map (branchRow tip.branch_id)).filter (fun row => row.entry_seq ≤ e.seq) = [] := by
    rw [List.filter_eq_nil_iff]
    intro row hrow
    obtain ⟨a, ha, rfl⟩ := List.mem_map.mp hrow
    have := (List.pairwise_append.mp hsorted).2.2 a (List.mem_reverse.mp ha) e hpath.mem_self
    show ¬ decide (a.seq ≤ e.seq) = true
    rw [decide_eq_true_eq]
    omega
  have hpost' : (post.reverse.map (branchRow tip.branch_id)).filter
      (fun row => row.entry_seq ≤ e.seq) = post.reverse.map (branchRow tip.branch_id) := by
    rw [List.filter_eq_self]
    intro row hrow
    obtain ⟨a, ha, rfl⟩ := List.mem_map.mp hrow
    rw [List.mem_reverse] at ha
    have hle : a.seq ≤ e.seq := by
      obtain rfl | hlt := eq_or_ne a e
      · exact Nat.le_refl _
      · exact Nat.le_of_lt (htree.path_seq_lt hmem hpath ha hlt)
    exact decide_eq_true hle
  calc rows.branch_entries.filter (fun row => row.branch_id = tip.branch_id && row.entry_seq ≤ e.seq)
      = (rows.branch_entries.filter fun row => row.branch_id = tip.branch_id).filter
          (fun row => row.entry_seq ≤ e.seq) := by
        rw [List.filter_filter]
        exact List.filter_congr fun row _ => Bool.and_comm _ _
    _ = post.reverse.map (branchRow tip.branch_id) := by
        rw [hrows, List.reverse_append, List.map_append, List.filter_append, hpre, hpost', List.append_nil]

/-- The cache finds an entry on one of its branches. -/
theorem Branches.readCachedBranch_eq (hb : Branches s rows) (hcovered : Covered s rows)
    (htree : EntriesInvariant s.sequence s.entries s.entriesById) (hmem : entry ∈ s.entries)
    (hpath : RootPath s.parentOf entry path) :
    ∃ branchId, readCachedBranch rows entry.id = some ⟨branchId, entry.seq⟩ ∧
      rows.branch_entries.filter (fun row => row.branch_id = branchId && row.entry_seq ≤ entry.seq) =
        path.reverse.map (branchRow branchId) := by
  -- the statement finds a row
  obtain ⟨row, hselect⟩ : ∃ row, (Sql.select rows.branch_entries (fun row => row.entry_id = entry.id)
      BranchEntryRow.branch_id .asc (some 1)).head? = some row := by
    rw [← Option.ne_none_iff_exists', Ne, List.head?_eq_none_iff, Sql.select, Sql.limit_one_eq_nil]
    obtain ⟨row, hrow, hid⟩ := hcovered entry hmem
    exact List.ne_nil_of_mem (Sql.mem_orderBy.mpr (List.mem_filter.mpr ⟨hrow, by simpa using hid⟩))
  have hrow : row ∈ rows.branch_entries ∧ row.entry_id = entry.id := by
    have hmem' := Sql.limit_subset _ _ (List.mem_of_mem_head? hselect)
    rw [Sql.mem_orderBy, List.mem_filter, decide_eq_true_eq] at hmem'
    exact hmem'
  obtain ⟨heq, hrows⟩ := hb.rows_through htree hmem hpath hrow.1 hrow.2
  refine ⟨row.branch_id, ?_, hrows⟩
  have hseq : row.entry_seq = entry.seq := by rw [heq]; rfl
  rw [readCachedBranch, hselect, Option.map_some, hseq]

end Rows

/-! ## `appendEntryToBranchCache` -/

section Append

variable {s s' : SessionState ν} {rows : SessionRows ν} {entry : Entry ν} {path : List (Entry ν)}

theorem parentOf_grow (htree : EntriesInvariant s.sequence s.entries s.entriesById)
    (htree' : EntriesInvariant s'.sequence s'.entries s'.entriesById)
    (hsub : ∀ e ∈ s.entries, e ∈ s'.entries) :
    ∀ e ∈ s.entries, s'.parentOf e = s.parentOf e := by
  intro e he
  rw [parentOf, parentOf]
  cases hp : e.parentId with
  | none => rfl
  | some p =>
    obtain ⟨parent, hparent, rfl, -⟩ := htree.parents e he p hp
    show s'.entriesById.get? parent.id = s.entriesById.get? parent.id
    rw [htree.get?_iff.mpr ⟨hparent, rfl⟩, htree'.get?_iff.mpr ⟨hsub parent hparent, rfl⟩]

theorem Covered.append (hcovered : Covered s rows) {rows' : SessionRows ν}
    (hentries : s'.entries = s.entries ++ [entry])
    (hkept : ∀ row ∈ rows.branch_entries, row ∈ rows'.branch_entries)
    (hnew : ∃ row ∈ rows'.branch_entries, row.entry_id = entry.id) : Covered s' rows' := by
  intro e he
  rw [hentries, List.mem_append, List.mem_singleton] at he
  rcases he with he | rfl
  · obtain ⟨row, hrow, hid⟩ := hcovered e he
    exact ⟨row, hkept row hrow, hid⟩
  · exact hnew

theorem updateBranchTip_eq (rows : SessionRows ν) {branchId oldTipId newTipId : String}
    (hnodup : (rows.branch_tips.map BranchTipRow.branch_id).Nodup)
    (htip : ⟨branchId, oldTipId⟩ ∈ rows.branch_tips)
    (hfresh : newTipId ∉ rows.branch_tips.map BranchTipRow.tip_id) :
    updateBranchTip rows branchId oldTipId newTipId =
      .ok ({ rows with branch_tips := movedTips rows.branch_tips branchId oldTipId newTipId }, true) := by
  have hcount : rows.branch_tips.countP (fun row => row.branch_id = branchId && row.tip_id = oldTipId) = 1 := by
    rw [← List.count_eq_one_of_mem (List.Nodup.of_map _ hnodup) htip, List.count_eq_countP]
    refine List.countP_congr fun row _ => ?_
    obtain ⟨b, t⟩ := row
    simp
  unfold updateBranchTip
  rw [if_neg]
  · simp only [hcount]
    rfl
  · simp only [Bool.and_eq_true, List.any_eq_true, not_and, not_exists, decide_eq_true_eq]
    intro _ row hrow hid _
    exact hfresh (List.mem_map.mpr ⟨row, hrow, hid⟩)

/-- The copy is the part of the source up to its leaf, under a new branch id. -/
theorem copyBranchEntriesThroughSeq_eq {uuidv7 : String} (source : CachedBranch) (hfresh : FreshBranch rows uuidv7)
    (hrows : rows.branch_entries.filter (fun row => row.branch_id = source.branchId && row.entry_seq ≤ source.leafSeq) =
      path.reverse.map (branchRow source.branchId)) :
    copyBranchEntriesThroughSeq rows uuidv7 source = .ok { rows with
      branch_entries := rows.branch_entries ++ path.reverse.map (branchRow uuidv7) } := by
  have hcopies : (path.reverse.map (branchRow source.branchId)).map
      (fun row => { row with branch_id := uuidv7 }) = path.reverse.map (branchRow uuidv7) := by
    rw [List.map_map]
    rfl
  unfold copyBranchEntriesThroughSeq
  rw [hrows, hcopies]
  rw [if_neg]
  simp only [List.any_eq_true, not_exists, not_and, Bool.and_eq_true, decide_eq_true_eq]
  intro copy hcopy row hrow hbranch
  obtain ⟨e, -, rfl⟩ := List.mem_map.mp hcopy
  exact absurd hbranch (hfresh.1 row hrow)

/-- **An append finds its place in the cache and keeps the invariant.** -/
theorem appendEntryToBranchCache_ok {uuidv7 : String} (hb : Branches s rows)
    (hcovered : Covered s rows) (htree : EntriesInvariant s.sequence s.entries s.entriesById)
    (htree' : EntriesInvariant s'.sequence s'.entries s'.entriesById)
    (hentries : s'.entries = s.entries ++ [entry]) (hfresh : FreshBranch rows uuidv7) :
    ∃ rows', appendEntryToBranchCache rows uuidv7 entry.id entry.seq entry.type
        (if entry.type = .custom then entry.customType else none) entry.parentId = .ok rows' ∧
      SameButCache rows rows' ∧ Branches s' rows' ∧ Covered s' rows' := by
  have hsub : ∀ e ∈ s.entries, e ∈ s'.entries := fun e he => by
    rw [hentries]
    exact List.mem_append_left _ he
  have hmem : entry ∈ s'.entries := by
    rw [hentries]
    exact List.mem_append_right _ (List.mem_singleton_self entry)
  have hgrow := parentOf_grow htree htree' hsub
  have hb' : Branches s' rows := hb.grow hsub htree hgrow
  have hid : entry.id ∉ s.entries.map Entry.id := by
    have hnodup := htree'.ids_nodup
    rw [hentries, List.map_append, List.nodup_append] at hnodup
    exact fun h => hnodup.2.2 _ h _ (by simp) rfl
  obtain ⟨hnoRow, hnoTip⟩ := hb.not_cached htree hid
  cases hparent : entry.parentId with
  | none =>
    -- a root is a branch of its own
    have hpath : RootPath s'.parentOf entry [entry] := .root (by simp [parentOf, hparent])
    have hinsert := insertBranchEntry_eq rows (branchRow uuidv7 entry) fun row hrow _ => hnoRow row hrow
    have htip := insertBranchTip_eq { rows with
      branch_entries := rows.branch_entries ++ [branchRow uuidv7 entry] }
      ⟨uuidv7, entry.id⟩ hfresh.2 hnoTip
    refine ⟨_, Except.bind_ok.mpr ⟨_, hinsert, htip⟩, rfl, hb'.add hfresh hmem hpath hnoTip rfl rfl, ?_⟩
    exact hcovered.append hentries (fun row hrow => List.mem_append_left _ hrow)
      ⟨branchRow uuidv7 entry, List.mem_append_right _ (List.mem_singleton_self _), rfl⟩
  | some p =>
    obtain ⟨parent, hparentMem', rfl, hlt⟩ := htree'.parents entry hmem p hparent
    have hparentMem : parent ∈ s.entries := by
      rw [hentries, List.mem_append, List.mem_singleton] at hparentMem'
      rcases hparentMem' with h | rfl
      · exact h
      · exact absurd hlt (Nat.lt_irrefl _)
    have hparentOf : s'.parentOf entry = some parent := by
      rw [parentOf, hparent]
      exact htree'.get?_iff.mpr ⟨hparentMem', rfl⟩
    unfold appendEntryToBranchCache
    dsimp only
    cases hread : readBranchTipBranchId rows parent.id with
    | some branchId =>
      -- the branch of the tip grows
      have htip : ⟨branchId, parent.id⟩ ∈ rows.branch_tips := by
        obtain ⟨⟨b, t⟩, hfind, rfl⟩ := Option.map_eq_some_iff.mp hread
        obtain rfl : t = parent.id := by simpa using List.find?_some hfind
        exact List.mem_of_find?_eq_some hfind
      have hinsert := insertBranchEntry_eq rows (branchRow branchId entry) fun row hrow _ => hnoRow row hrow
      have hupdate := updateBranchTip_eq { rows with
        branch_entries := rows.branch_entries ++ [branchRow branchId entry] }
        hb.branch_ids htip hnoTip
      refine ⟨_, Except.bind_ok.mpr ⟨_, hinsert, Except.bind_ok.mpr ⟨_, hupdate, rfl⟩⟩, rfl,
        hb'.extend hmem hparentOf hparentMem' htree' htip hnoTip rfl rfl, ?_⟩
      exact hcovered.append hentries (fun row hrow => List.mem_append_left _ hrow)
        ⟨branchRow branchId entry, List.mem_append_right _ (List.mem_singleton_self _), rfl⟩
    | none =>
      -- a new branch starts with a copy of the parent's
      obtain ⟨path, hpath⟩ := htree.exists_path hparentMem
      obtain ⟨source, hsource, hrows⟩ :=
        hb.readCachedBranch_eq hcovered htree hparentMem hpath
      have hpath' : RootPath s'.parentOf entry (entry :: path) :=
        .step hparentOf (hpath.congr fun e he => hgrow e (htree.path_mem hparentMem hpath e he))
      have hcopy := copyBranchEntriesThroughSeq_eq ⟨source, parent.seq⟩ hfresh hrows
      have hinsert := insertBranchEntry_eq { rows with
          branch_entries := rows.branch_entries ++ path.reverse.map (branchRow uuidv7) }
          (branchRow uuidv7 entry) (by
        intro row hrow _ heq
        rcases List.mem_append.mp hrow with hrow | hrow
        · exact hnoRow row hrow heq
        · obtain ⟨e, he, rfl⟩ := List.mem_map.mp hrow
          have he' := htree.path_mem hparentMem hpath e (List.mem_reverse.mp he)
          exact hid (List.mem_map.mpr ⟨e, he', heq⟩))
      have htip := insertBranchTip_eq { rows with
        branch_entries := rows.branch_entries ++ path.reverse.map (branchRow uuidv7) ++
          [branchRow uuidv7 entry] } ⟨uuidv7, entry.id⟩ hfresh.2 hnoTip
      rw [show readBranchContainingEntry rows parent.id = _ from hsource]
      refine ⟨_, Except.bind_ok.mpr ⟨_, hcopy, Except.bind_ok.mpr ⟨_, hinsert, htip⟩⟩, rfl,
        hb'.add hfresh hmem hpath' hnoTip ?_ rfl, ?_⟩
      · simp
      · exact hcovered.append hentries (fun row hrow => List.mem_append_left _ (List.mem_append_left _ hrow))
          ⟨branchRow uuidv7 entry, List.mem_append_right _ (List.mem_singleton_self _), rfl⟩

end Append

/-! ## Building from the parent links -/

section Rebuild

variable {s : SessionState ν} {rows : SessionRows ν}

theorem Branches.empty (hentries : rows.branch_entries = []) (htips : rows.branch_tips = []) :
    Branches s rows where
  branch_ids := by simp [htips]
  tip_ids := by simp [htips]
  paths := by simp [htips]
  tipped := by simp [hentries]

theorem FreshBranch.empty (hentries : rows.branch_entries = []) (htips : rows.branch_tips = [])
    (branchId : String) : FreshBranch rows branchId := by
  simp [FreshBranch, hentries, htips]

/-- Nobody's parent. -/
def childless (s : SessionState ν) (entry : Entry ν) : Bool :=
  !s.entries.any fun child => child.parentId = some entry.id

/-- Every entry is on the path of a childless one. The induction climbs from parent to child,
that is along rising sequence numbers. -/
theorem exists_childless (htree : EntriesInvariant s.sequence s.entries s.entriesById)
    {entry : Entry ν} (hmem : entry ∈ s.entries) : ∃ tip ∈ s.entries, childless s tip = true ∧
      ∃ path, RootPath s.parentOf tip path ∧ entry ∈ path := by
  induction hn : s.sequence - entry.seq using Nat.strongRecOn generalizing entry with
  | ind n ih =>
    cases hchildless : childless s entry with
    | true =>
      obtain ⟨path, hpath⟩ := htree.exists_path hmem
      exact ⟨entry, hmem, hchildless, path, hpath, hpath.mem_self⟩
    | false =>
      obtain ⟨child, hchild, hparent⟩ : ∃ child ∈ s.entries, child.parentId = some entry.id := by
        simpa [childless] using hchildless
      have hparentOf : s.parentOf child = some entry := by
        rw [parentOf, hparent]
        exact htree.get?_iff.mpr ⟨hmem, rfl⟩
      have hlt := (htree.parentOf_rank hchild hparentOf).2
      have hle := htree.seq_le child hchild
      obtain ⟨tip, htip, hleaf, path, hpath, hon⟩ := ih _ (by omega) hchild rfl
      -- the path goes on from the child to its parent
      obtain ⟨pre, post, rfl, hpost⟩ := hpath.of_mem hon
      refine ⟨tip, htip, hleaf, _, hpath, List.mem_append_right _ ?_⟩
      cases hpost with
      | root hroot => rw [hparentOf] at hroot; cases hroot
      | step hstep hrest =>
        obtain rfl := Option.some.inj (hparentOf.symm.trans hstep)
        exact List.mem_cons_of_mem _ hrest.mem_self

variable [JsonNumber ν] [DecidableEq ν]

theorem Holds.ascending (h : Holds s rows) : Sql.Ascending EntryRow.seq rows.entries := by
  rw [h.entries, Sql.Ascending, List.pairwise_map]
  exact h.tree.sorted

theorem Holds.childlessIds_eq (h : Holds s rows) :
    childlessIds rows = (s.entries.filter (childless s)).map Entry.id := by
  rw [childlessIds, Sql.select, Sql.limit_none, (h.ascending.filter _).orderBy_asc, h.entries,
    List.filter_map, List.map_map]
  congr 1
  refine List.filter_congr fun entry _ => ?_
  rw [childless, Function.comp_apply, List.any_map]
  rfl

/-- **The rebuilt cache meets the invariant**, whatever the cache was before. -/
theorem Holds.rebuildBranchCache_ok (h : Holds s rows) {uuidv7 : Nat → String} (hinj : Function.Injective uuidv7) :
    ∃ rows', rebuildBranchCache rows uuidv7 = .ok rows' ∧ SameButCache rows rows' ∧
      Branches s rows' ∧ Covered s rows' := by
  have hids := h.tree.ids_nodup
  have hmemIds : ∀ id ∈ (s.entries.filter (childless s)).map Entry.id, s.entriesById.has id := by
    intro id hid
    exact h.tree.has_iff.mpr ((List.filter_sublist.map Entry.id).subset hid)
  obtain ⟨rows', hbuild, hsame, hbranches, -, hcovered⟩ :=
    Holds.buildCachedBranches_eq hinj ((s.entries.filter (childless s)).map Entry.id) 0
      (deleteBranchCache rows) ⟨h.entries, h.declared, h.tree⟩ (.empty rfl rfl)
      (fun k _ => .empty rfl rfl _) (hids.sublist (List.filter_sublist.map _)) (by
        intro id _
        exact List.not_mem_nil) hmemIds
  refine ⟨rows', ?_, ?_, hbranches, ?_⟩
  · rw [rebuildBranchCache, h.childlessIds_eq, hbuild]
  · rw [SameButCache] at hsame ⊢
    rw [hsame]
    rfl
  · intro entry hentry
    obtain ⟨tip, htip, hleaf, path, hpath, hon⟩ := exists_childless h.tree hentry
    refine hcovered tip.id ?_ tip path htip rfl hpath entry hon
    exact List.mem_map_of_mem (List.mem_filter.mpr ⟨htip, hleaf⟩)

end Rebuild

end Mcpi.Session.Sqlite
