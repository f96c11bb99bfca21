import Mcpi.Session.Sqlite.CacheWrites

/-!
# Forks and the branch cache

A fork copies some entries of its source under new sequence numbers, the ids and the parents as they were,
and builds a branch for each tip of what it has copied. The copied entries are closed under parents, so
they are a tree again, and each of them is on the path of a tip.
-/

namespace Mcpi.Session.Sqlite

open SessionState

variable {ν : Type}

/-! ## Numbering entries anew -/

section Renumber

/-- The entries under the sequence numbers of a fork. -/
def renumber (entries : List (Entry ν)) : List (Entry ν) :=
  entries.mapIdx fun i entry => { entry with seq := 1 + i }

variable {entries : List (Entry ν)}

theorem ids_renumber (entries : List (Entry ν)) : (renumber entries).map Entry.id = entries.map Entry.id := by
  refine List.ext_getElem (by simp [renumber]) fun i _ _ => ?_
  simp [renumber]

theorem mem_renumber {entry' : Entry ν} : entry' ∈ renumber entries ↔
    ∃ (i : Nat) (hi : i < entries.length), entry' = { entries[i] with seq := 1 + i } := by
  rw [renumber, List.mem_mapIdx]
  exact exists_congr fun i => exists_congr fun hi => eq_comm

/-- The tree of the copied entries. -/
def forkedTree [Zero ν] (entries : List (Entry ν)) (hids : (entries.map Entry.id).Nodup) : SessionState ν :=
  { (initial : SessionState ν) with
    sequence := entries.length
    entries := renumber entries
    entriesById :=
      ⟨(renumber entries).map fun entry => (entry.id, entry), by
        rw [List.map_map]
        show ((renumber entries).map Entry.id).Nodup
        rw [ids_renumber]
        exact hids⟩ }

theorem map_renumber {α : Type} (f : Entry ν → α) (entries : List (Entry ν)) :
    (renumber entries).map f = entries.mapIdx fun i entry => f { entry with seq := 1 + i } := by
  refine List.ext_getElem (by simp [renumber]) fun i _ _ => ?_
  simp [renumber]

variable [JsonNumber ν]

theorem ensures_copyEntries (entries : List (Entry ν)) :
    ∀ (seq : Nat) (rows : SessionRows ν), Ensures (copyEntries seq (entries.map entryRow) rows) fun rows' =>
        rows' = { rows with
          entries := rows.entries ++ entries.mapIdx fun i entry => entryRow { entry with seq := seq + i } } := by
  induction entries with
  | nil =>
    intro seq rows
    refine ensures_ok ?_
    rw [List.mapIdx_nil, List.append_nil]
  | cons entry entries ih =>
    intro seq rows
    refine ensures_bind (ensures_insertEntryRow rows _) fun rows₁ h₁ => ?_
    intro rows₂ h₂
    rw [ih (seq + 1) rows₁ rows₂ h₂, h₁, List.mapIdx_cons]
    simp only [List.append_assoc, List.singleton_append, Nat.add_zero]
    have hshift : (fun (i : Nat) (entry : Entry ν) => entryRow { entry with seq := seq + 1 + i }) =
        fun i entry => entryRow { entry with seq := seq + (i + 1) } := by
      funext i entry
      rw [Nat.add_assoc, Nat.add_comm 1 i]
    rw [hshift]
    rfl

end Renumber

/-! ## What a fork copies -/

/-- The entries a fork copies are a part of the tree that is closed under parents, each on the path of a
tip. -/
structure ForkPart [JsonNumber ν] (tree : SessionState ν) (source : ForkSource)
    (entries : List (Entry ν)) : Prop where
  rows : source.entries = entries.map entryRow
  mem : ∀ entry ∈ entries, entry ∈ tree.entries
  sorted : entries.Pairwise fun a b => a.seq < b.seq
  tips_nodup : source.branchTips.Nodup
  tips : ∀ id ∈ source.branchTips, id ∈ entries.map Entry.id
  reached : ∀ entry ∈ entries, ∃ tip path, tip.id ∈ source.branchTips ∧
    RootPath tree.parentOf tip path ∧ entry ∈ path ∧ ∀ a ∈ path, a ∈ entries

namespace ForkPart

variable [JsonNumber ν] [Zero ν] {tree : SessionState ν} {source : ForkSource} {entries : List (Entry ν)}

omit [Zero ν] in
theorem ids_nodup (h : ForkPart tree source entries)
    (htree : EntriesInvariant tree.sequence tree.entries tree.entriesById) :
    (entries.map Entry.id).Nodup := by
  have hnodup : entries.Nodup := h.sorted.imp fun hlt heq => by
    rw [heq] at hlt
    exact Nat.lt_irrefl _ hlt
  exact hnodup.map_on fun a ha b hb heq =>
    List.inj_on_of_nodup_map htree.ids_nodup (h.mem a ha) (h.mem b hb) heq

omit [Zero ν] in
theorem parent_mem (h : ForkPart tree source entries) {entry parent : Entry ν} (hentry : entry ∈ entries)
    (hparent : tree.parentOf entry = some parent) : parent ∈ entries := by
  obtain ⟨tip, path, -, hpath, hon, hall⟩ := h.reached entry hentry
  obtain ⟨pre, post, rfl, hpost⟩ := hpath.of_mem hon
  cases hpost with
  | root hroot =>
    rw [hparent] at hroot
    cases hroot
  | step hstep hrest =>
    obtain rfl := Option.some.inj (hparent.symm.trans hstep)
    exact hall _ (List.mem_append_right _ (List.mem_cons_of_mem _ hrest.mem_self))

/-- **The copied entries are a tree.** -/
theorem invariant (h : ForkPart tree source entries)
    (htree : EntriesInvariant tree.sequence tree.entries tree.entriesById) :
    EntriesInvariant (forkedTree entries (h.ids_nodup htree)).sequence (forkedTree entries (h.ids_nodup htree)).entries
      (forkedTree entries (h.ids_nodup htree)).entriesById where
  byId := rfl
  seq_le := by
    intro entry' hentry'
    obtain ⟨i, hi, rfl⟩ := mem_renumber.mp hentry'
    show 1 + i ≤ entries.length
    omega
  sorted := by
    show (renumber entries).Pairwise _
    rw [List.pairwise_iff_getElem]
    intro i j hi hj hij
    simp only [renumber, List.getElem_mapIdx]
    omega
  parents := by
    intro entry' hentry' p hp
    obtain ⟨i, hi, rfl⟩ := mem_renumber.mp hentry'
    have hmem := List.getElem_mem hi
    obtain ⟨parent, hparent, rfl, hlt⟩ := htree.parents _ (h.mem _ hmem) p hp
    have hparentOf : tree.parentOf entries[i] = some parent := by
      rw [parentOf, show entries[i].parentId = some parent.id from hp]
      exact htree.get?_iff.mpr ⟨hparent, rfl⟩
    obtain ⟨j, hj, rfl⟩ := List.getElem_of_mem (h.parent_mem hmem hparentOf)
    have hji : j < i := by
      by_contra hle
      rcases Nat.lt_or_eq_of_le (Nat.not_lt.mp hle) with hij | rfl
      · have := List.pairwise_iff_getElem.mp h.sorted i j hi hj hij
        omega
      · exact Nat.lt_irrefl _ hlt
    refine ⟨{ entries[j] with seq := 1 + j }, mem_renumber.mpr ⟨j, hj, rfl⟩, rfl, ?_⟩
    show 1 + j < 1 + i
    omega

/-- A copied entry is found by its id, with its parent. -/
theorem copy (h : ForkPart tree source entries)
    (htree : EntriesInvariant tree.sequence tree.entries tree.entriesById) {entry : Entry ν}
    (hentry : entry ∈ entries) : ∃ entry',
      (forkedTree entries (h.ids_nodup htree)).entriesById.get? entry.id = some entry' ∧
      entry'.id = entry.id ∧ entry'.parentId = entry.parentId := by
  obtain ⟨i, hi, rfl⟩ := List.getElem_of_mem hentry
  refine ⟨{ entries[i] with seq := 1 + i }, ?_, rfl, rfl⟩
  exact (h.invariant htree).get?_iff.mpr ⟨mem_renumber.mpr ⟨i, hi, rfl⟩, rfl⟩

/-- **A path is copied as it is.** -/
theorem path (h : ForkPart tree source entries)
    (htree : EntriesInvariant tree.sequence tree.entries tree.entriesById) {entry : Entry ν}
    {path : List (Entry ν)} (hpath : RootPath tree.parentOf entry path) (hall : ∀ a ∈ path, a ∈ entries) :
    ∃ entry' path', (forkedTree entries (h.ids_nodup htree)).entriesById.get? entry.id = some entry' ∧
      RootPath (forkedTree entries (h.ids_nodup htree)).parentOf entry' path' ∧
      path'.map Entry.id = path.map Entry.id := by
  induction hpath with
  | @root entry hroot =>
    obtain ⟨entry', hget, hid, hparent⟩ := h.copy htree (hall entry (by simp))
    have hnone : entry.parentId = none := by
      cases hp : entry.parentId with
      | none => rfl
      | some p =>
        obtain ⟨parent, hmem, rfl, -⟩ := htree.parents entry (h.mem _ (hall entry (by simp))) p hp
        rw [parentOf, hp, Option.bind_some] at hroot
        rw [show tree.entriesById.get? parent.id = some parent from
          htree.get?_iff.mpr ⟨hmem, rfl⟩] at hroot
        cases hroot
    refine ⟨entry', [entry'], hget, .root ?_, by simp [hid]⟩
    rw [parentOf, hparent, hnone]
    rfl
  | @step entry parent path hstep hrest ih =>
    obtain ⟨parent', path', hgetParent, hpath', hids⟩ := ih fun a ha => hall a (by simp [ha])
    obtain ⟨entry', hget, hid, hparent⟩ := h.copy htree (hall entry (by simp))
    obtain ⟨p, hp, hgetP⟩ := Option.bind_eq_some_iff.mp hstep
    obtain rfl := (htree.get?_iff.mp hgetP).2
    refine ⟨entry', entry' :: path', hget, .step ?_ hpath', by simp [hid, hids]⟩
    rw [parentOf, hparent, hp]
    exact hgetParent

end ForkPart

/-! ## The reads of a fork -/

section Reads

variable {tree : SessionState ν} {rows : SessionRows ν}

theorem perm_readBranchTipIds (rows : SessionRows ν) :
    (readBranchTipIds rows).Perm (rows.branch_tips.map BranchTipRow.tip_id) := by
  rw [readBranchTipIds, Sql.select, Sql.limit_none, List.filter_eq_self.mpr fun _ _ => rfl]
  exact (Sql.perm_orderBy _ _ _).map _

theorem Branches.mem_of_cached (hb : Branches tree rows)
    (htree : EntriesInvariant tree.sequence tree.entries tree.entriesById) {id : String}
    {cached : CachedBranch} (hread : readCachedBranch rows id = some cached) :
    ∃ entry ∈ tree.entries, entry.id = id := by
  obtain ⟨row, hselect, -⟩ := Option.map_eq_some_iff.mp hread
  have hmem := Sql.limit_subset _ _ (List.mem_of_mem_head? hselect)
  rw [Sql.mem_orderBy, List.mem_filter, decide_eq_true_eq] at hmem
  obtain ⟨tip, -, leaf, path, e, hleaf, -, hpath, -, he, rfl⟩ := hb.row_cases hmem.1
  exact ⟨e, htree.path_mem hleaf hpath e he, hmem.2⟩

variable [JsonNumber ν]

theorem forkPart_empty (tree : SessionState ν) (lanes : List LanePointer) :
    ForkPart tree ⟨[], lanes, []⟩ [] where
  rows := rfl
  mem := nofun
  sorted := List.Pairwise.nil
  tips_nodup := List.nodup_nil
  tips := nofun
  reached := nofun

variable [DecidableEq ν]

theorem forkPart_tree (hholds : Holds tree rows) (hb : Branches tree rows) (hcovered : Covered tree rows)
    (lanes : List LanePointer) :
    ForkPart tree ⟨readEntryRows rows none none none (some .oldestFirst) none, lanes, readBranchTipIds rows⟩
      tree.entries where
  rows := by
    show Sql.select rows.entries _ EntryRow.seq .asc none = _
    have hall : rows.entries.filter (fun row =>
        ((none : Option Int).all fun afterSeq => (row.seq : Int) > afterSeq) &&
        ((none : Option Int).all fun afterSeq =>
          if some EntryOrder.oldestFirst = some EntryOrder.oldestFirst then (row.seq : Int) > afterSeq
          else (row.seq : Int) < afterSeq) &&
        ((none : Option EntryType).all fun type => row.type = type)) = rows.entries :=
      List.filter_eq_self.mpr fun _ _ => rfl
    rw [Sql.select, Sql.limit_none, hall, hholds.ascending.orderBy_asc, hholds.entries]
  mem := fun _ h => h
  sorted := hholds.tree.sorted
  tips_nodup := (perm_readBranchTipIds rows).nodup_iff.mpr hb.tip_ids
  tips := by
    intro id hid
    obtain ⟨tip, htip, rfl⟩ := List.mem_map.mp ((perm_readBranchTipIds rows).mem_iff.mp hid)
    obtain ⟨entry, path, hentry, heq, -⟩ := hb.paths tip htip
    exact List.mem_map.mpr ⟨entry, hentry, heq⟩
  reached := by
    intro entry hentry
    obtain ⟨row, hrow, hid⟩ := hcovered entry hentry
    obtain ⟨tip, htip, leaf, path, e, hleaf, hleafId, hpath, -, he, rfl⟩ := hb.row_cases hrow
    have hon := hholds.tree.path_mem hleaf hpath
    obtain rfl : e = entry := List.inj_on_of_nodup_map hholds.tree.ids_nodup (hon e he) hentry hid
    refine ⟨leaf, path, ?_, hpath, he, hon⟩
    exact (perm_readBranchTipIds rows).mem_iff.mpr (List.mem_map.mpr ⟨tip, htip, hleafId.symm⟩)

theorem forkPart_branch (hholds : Holds tree rows) (hb : Branches tree rows)
    (hcovered : Covered tree rows) {targetId : String} {cached : CachedBranch}
    (hread : readCachedBranch rows targetId = some cached) (lanes : List LanePointer) :
    ∃ entries, ForkPart tree
      ⟨queryCachedBranchRows rows cached { order := some .oldestFirst } {}, lanes, [targetId]⟩ entries := by
  obtain ⟨target, htarget, rfl⟩ := hb.mem_of_cached hholds.tree hread
  obtain ⟨path, hpath⟩ := hholds.tree.exists_path htarget
  obtain ⟨branchId, hread', hrows⟩ := hb.readCachedBranch_eq hcovered hholds.tree htarget hpath
  obtain rfl := Option.some.inj (hread'.symm.trans hread)
  have hon := hholds.tree.path_mem htarget hpath
  have hsorted := hholds.tree.path_sorted htarget hpath
  have hhead : ∀ e ∈ path, e.seq ≤ target.seq := by
    intro e he
    obtain rfl | hne := eq_or_ne e target
    · exact Nat.le_refl _
    · exact Nat.le_of_lt (hholds.tree.path_seq_lt htarget hpath he hne)
  refine ⟨path.reverse, ⟨?_, fun e he => hon e (List.mem_reverse.mp he),
    List.pairwise_reverse.mpr hsorted, List.nodup_singleton _, ?_, fun e he => ?_⟩⟩
  · show queryCachedBranchRows rows _ _ _ = _
    rw [hholds.queryCachedBranchRows_eq hon hsorted hhead hrows, Sql.limit_none, selected_all rfl rfl rfl]
    rfl
  · intro id hid
    rw [List.mem_singleton.mp hid]
    exact List.mem_map_of_mem (List.mem_reverse.mpr hpath.mem_self)
  · exact ⟨target, path, List.mem_singleton_self _, hpath, List.mem_reverse.mp he, fun a ha => List.mem_reverse.mpr ha⟩

/-- **What a fork reads** is a part of the tree. -/
theorem ensures_readForkSource (hholds : Holds tree rows) (hb : Branches tree rows)
    (hcovered : Covered tree rows) (options : ForkOptions) :
    Ensures (readForkSource rows options) fun source => ∃ entries, ForkPart tree source entries := by
  cases options with
  | tree =>
    refine ensures_read fun lanes => ensures_pure ?_
    exact ⟨tree.entries, forkPart_tree hholds hb hcovered _⟩
  | branch entryId position =>
    refine ensures_read fun target => ?_
    cases target with
    | none => exact ensures_pure ⟨[], forkPart_empty tree _⟩
    | some targetId =>
      dsimp only
      cases hread : readCachedBranch rows targetId with
      | none => exact ensures_error
      | some cached => exact ensures_pure (forkPart_branch hholds hb hcovered hread _)

end Reads

/-! ## The transaction -/

section Transaction

theorem ensures_copyLanes (lanes : List LanePointer) : ∀ (seq : Nat) (rows : SessionRows ν),
    Ensures (copyLanes seq lanes rows) (RowsKept rows) := by
  induction lanes with
  | nil => exact fun seq rows => ensures_ok (.refl rows)
  | cons lane lanes ih =>
    intro seq rows
    refine ensures_bind (RowsKept.createLane rows seq _ _) fun rows₁ h₁ => ?_
    exact fun rows₂ h₂ => h₁.trans (ih (seq + 1) rows₁ rows₂ h₂)

theorem ensures_copyLabels (labels : List FactRow) : ∀ (seq : Nat) (rows : SessionRows ν),
    Ensures (copyLabels seq labels rows) (RowsKept rows) := by
  induction labels with
  | nil => exact fun seq rows => ensures_ok (.refl rows)
  | cons label labels ih =>
    intro seq rows
    refine ensures_bind (RowsKept.appendFact rows seq _ _ _) fun rows₁ h₁ => ?_
    exact fun rows₂ h₂ => h₁.trans (ih (seq + 1) rows₁ rows₂ h₂)

theorem ensures_forkLanes (options : ForkOptions) (source : ForkSource) (nextSeq : Nat)
    (rows : SessionRows ν) : Ensures (forkLanes options source nextSeq rows) fun result =>
      nextSeq ≤ result.1 ∧ RowsKept rows result.2 := by
  unfold forkLanes
  cases options with
  | tree =>
    refine ensures_bind (ensures_copyLanes source.lanes nextSeq rows) fun rows₁ h₁ => ?_
    exact ensures_pure ⟨Nat.le_add_right _ _, h₁⟩
  | branch entryId position =>
    refine ensures_bind (RowsKept.insertLaneRow rows _) fun rows₁ h₁ => ?_
    exact ensures_pure ⟨Nat.le_refl _, h₁⟩

theorem ensures_forkName (name : Option (List Char)) (nextSeq : Nat) (rows : SessionRows ν) :
    Ensures (forkName name nextSeq rows) fun result => nextSeq ≤ result.1 ∧ RowsKept rows result.2 := by
  unfold forkName
  cases name with
  | none => exact ensures_pure ⟨Nat.le_refl _, .refl rows⟩
  | some value =>
    refine ensures_bind (RowsKept.appendFact rows _ _ _ _) fun rows₁ h₁ => ?_
    exact ensures_pure ⟨Nat.le_succ _, h₁⟩

variable [JsonNumber ν] [Zero ν] [DecidableEq ν]
  {uuidv7 : Nat → String} {drawn : Nat} {tree : SessionState ν} {rows : SessionRows ν}

/-- **The cache of a fork** is that of the copied entries. -/
theorem ForkPart.buildCachedBranches {source : ForkSource} {entries : List (Entry ν)} (h : ForkPart tree source entries)
    (htree : EntriesInvariant tree.sequence tree.entries tree.entriesById)
    (hdeclared : ∀ entry ∈ tree.entries, EntryPayload.Declared entry.type entry.payload)
    (hinj : Function.Injective uuidv7) (hentries : rows.entries = (renumber entries).map entryRow)
    (hbranchEntries : rows.branch_entries = []) (hbranchTips : rows.branch_tips = []) :
    ∃ rows', buildCachedBranches uuidv7 0 source.branchTips rows = .ok rows' ∧
      SameButCache rows rows' ∧ Holds (forkedTree entries (h.ids_nodup htree)) rows' ∧
      Branches (forkedTree entries (h.ids_nodup htree)) rows' ∧
      Covered (forkedTree entries (h.ids_nodup htree)) rows' := by
  have hinvariant := h.invariant htree
  have hholds : Holds (forkedTree entries (h.ids_nodup htree)) rows := by
    refine ⟨hentries, fun entry' hentry' => ?_, hinvariant⟩
    obtain ⟨i, hi, rfl⟩ := mem_renumber.mp hentry'
    show EntryPayload.Declared entries[i].type entries[i].payload
    exact hdeclared _ (h.mem _ (List.getElem_mem hi))
  have hhas : ∀ id ∈ source.branchTips, (forkedTree entries (h.ids_nodup htree)).entriesById.has id := by
    intro id hid
    have hmem := h.tips id hid
    rw [← ids_renumber] at hmem
    exact hinvariant.has_iff.mpr hmem
  obtain ⟨rows', hbuild, hsame, hbranches, -, hreached⟩ :=
    Holds.buildCachedBranches_eq hinj source.branchTips 0 rows hholds (.empty hbranchEntries hbranchTips)
      (fun k _ => .empty hbranchEntries hbranchTips _) h.tips_nodup (by
        rw [hbranchTips]
        exact fun _ _ => List.not_mem_nil) hhas
  refine ⟨rows', hbuild, hsame, holds_congr hholds (by rw [hsame]), hbranches, ?_⟩
  intro entry' hentry'
  obtain ⟨i, hi, rfl⟩ := mem_renumber.mp hentry'
  obtain ⟨tip, path, htip, hpath, hon, hall⟩ := h.reached _ (List.getElem_mem hi)
  obtain ⟨tip', path', hget, hpath', hids⟩ := h.path htree hpath hall
  obtain ⟨htip', hid⟩ := hinvariant.get?_iff.mp hget
  have hmem : entries[i].id ∈ path'.map Entry.id := by
    rw [hids]
    exact List.mem_map_of_mem hon
  obtain ⟨a, ha, heq⟩ := List.mem_map.mp hmem
  obtain ⟨row, hrow, hrowId⟩ := hreached tip.id htip tip' path' htip' hid hpath' a ha
  exact ⟨row, hrow, hrowId.trans heq⟩

theorem ForkPart.forkTransaction {source : ForkSource} {entries : List (Entry ν)} (h : ForkPart tree source entries)
    (htree : EntriesInvariant tree.sequence tree.entries tree.entriesById)
    (hdeclared : ∀ entry ∈ tree.entries, EntryPayload.Declared entry.type entry.payload)
    (hinj : Function.Injective uuidv7) {targetTree : SessionState ν}
    (htarget : SessionInvariant uuidv7 drawn targetTree rows) (options : ForkOptions)
    (name : Option (List Char)) (labels : List FactRow) (now ttlMs : Int) :
    Ensures (forkTransaction rows options source name labels (fun n => uuidv7 (drawn + n)) now ttlMs)
      fun result => SessionInvariant uuidv7 (drawn + 1 + result.2.branch_tips.length)
        (forkedTree entries (h.ids_nodup htree)) result.2 := by
  unfold Sqlite.forkTransaction
  refine ensures_bind (ensures_insertSessionRow rows) fun rows₁ ⟨habsent, h₁⟩ => ?_
  obtain ⟨-, hentries, hbranch, htips⟩ := htarget.absent habsent
  refine ensures_bind (ensures_createSequence rows₁) fun rows₂ h₂ => ?_
  refine ensures_bind (RowsKept.createStats rows₂ _) fun rows₃ h₃ => ?_
  rw [h.rows]
  refine ensures_bind (ensures_copyEntries entries 1 rows₃) fun rows₄ h₄ => ?_
  refine ensures_bind (ensures_forkLanes options source _ rows₄) fun ⟨seq₅, rows₅⟩ ⟨hseq₅, h₅⟩ => ?_
  refine ensures_bind (ensures_forkName name seq₅ rows₅) fun ⟨seq₆, rows₆⟩ ⟨hseq₆, h₆⟩ => ?_
  refine ensures_bind (ensures_copyLabels labels seq₆ rows₆) fun rows₇ h₇ => ?_
  have hkept := (h₅.trans h₆).trans h₇
  -- the rows the branches are built from
  have hrows : rows₇.entries = (renumber entries).map entryRow ∧ rows₇.branch_entries = [] ∧
      rows₇.branch_tips = [] ∧ rows₇.session = true := by
    rw [hkept.entries, hkept.branch_entries, hkept.branch_tips, hkept.session, h₄]
    refine ⟨?_, ?_, ?_, ?_⟩
    · show rows₃.entries ++ _ = _
      rw [h₃.entries, h₂, h₁]
      show rows.entries ++ _ = _
      rw [hentries, List.nil_append, map_renumber]
    · show rows₃.branch_entries = []
      rw [h₃.branch_entries, h₂, h₁]
      exact hbranch
    · show rows₃.branch_tips = []
      rw [h₃.branch_tips, h₂, h₁]
      exact htips
    · show rows₃.session = true
      rw [h₃.session, h₂, h₁]
  obtain ⟨hentries₇, hbranch₇, htips₇, hsession₇⟩ := hrows
  have hinj' : Function.Injective fun n => uuidv7 (drawn + n) := fun a b hab => by
    have := hinj hab
    omega
  obtain ⟨rows₈, hbuild, hsame, hholds, hbranches, hcovered⟩ := @ForkPart.buildCachedBranches ν _ _ _
    _ tree (Sqlite.setNextSequence rows₇ (seq₆ + labels.length)) source entries h htree hdeclared hinj'
    hentries₇ hbranch₇ htips₇
  obtain ⟨-, hlength, hids⟩ := ensures_buildCachedBranches (fun n => uuidv7 (drawn + n)) source.branchTips 0
    _ rows₈ hbuild
  have hforked : SessionInvariant uuidv7 (drawn + 1 + rows₈.branch_tips.length)
      (forkedTree entries (h.ids_nodup htree)) rows₈ := by
    refine ⟨hholds, hbranches, hcovered, ?_, fun tip htip => ?_, fun hgone => ?_⟩
    · intro seq hseq
      rw [hsame] at hseq
      obtain ⟨_, -, rfl⟩ := Option.map_eq_some_iff.mp hseq
      show entries.length < seq₆ + labels.length
      rw [List.length_map] at hseq₅
      have hle₅ : 1 + entries.length ≤ seq₅ := hseq₅
      have hle₆ : seq₅ ≤ seq₆ := hseq₆
      omega
    · rcases hids tip htip with hold | ⟨k, hk, hid⟩
      · have hold : tip ∈ rows₇.branch_tips := hold
        rw [htips₇] at hold
        exact absurd hold List.not_mem_nil
      · refine ⟨drawn + k, ?_, by rw [hid, Nat.zero_add]⟩
        rw [hlength]
        omega
    · have hsession : rows₈.session = true := by
        rw [hsame]
        exact hsession₇
      rw [hsession] at hgone
      cases hgone
  refine ensures_bind (fun rows' hrows' => ?_) fun rows₉ (h₉ : rows₉ = rows₈) => ?_
  · exact (Except.ok.inj (hbuild.symm.trans hrows')).symm
  subst h₉
  intro result hresult
  have hclaim := CacheKept.claimWriterLease rows₉ _ now ttlMs result hresult
  rw [hclaim.branch_tips]
  exact hforked.kept hclaim

/-- **A fork** has the cache of its own tree. -/
theorem sessionInvariant_fork {source : SessionRows ν} {sourceTree targetTree : SessionState ν}
    {drawn₀ : Nat} (hsource : SessionInvariant uuidv7 drawn₀ sourceTree source)
    (htarget : SessionInvariant uuidv7 drawn targetTree rows) (hinj : Function.Injective uuidv7)
    (options : ForkOptions) (now ttlMs : Int) :
    Ensures (fork source rows options (fun n => uuidv7 (drawn + n)) now ttlMs) fun result =>
      ∃ tree' : SessionState ν, SessionInvariant uuidv7 (drawn + 1 + result.2.branch_tips.length) tree' result.2 := by
  unfold fork
  refine ensures_read fun _ => ?_
  dsimp only
  split
  · exact ensures_throw
  · refine ensures_bind (ensures_readForkSource hsource.holds hsource.branches hsource.covered options)
      fun forkSource hread => ?_
    obtain ⟨entries, hpart⟩ := hread
    have htransaction := fun name labels => hpart.forkTransaction hsource.holds.tree
      hsource.holds.declared hinj htarget options name labels now ttlMs
    split
    next result hresult => exact ensures_pure ⟨_, htransaction _ _ result hresult⟩
    · exact ensures_error
    · exact ensures_error

end Transaction

end Mcpi.Session.Sqlite
