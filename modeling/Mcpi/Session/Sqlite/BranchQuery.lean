import Mathlib.Data.List.Chain
import Mcpi.Session.Sqlite.CacheUpdates

/-!
# The branch query

`queryCachedBranchRows` and what `findEntriesOnBranch` makes of its rows. On a cache that
meets its invariant the statement returns the rows of the entries that the walk from the
start selects, in the walk's order, `validateCachedBranchRows` finds nothing to object to,
and filtering and cutting once more changes nothing.
-/

namespace Mcpi.Session.Sqlite

open SessionState

variable {ν : Type}

/-- The root path of an entry in the order of a query. -/
def inOrder (order : Option EntryOrder) (path : List (Entry ν)) : List (Entry ν) :=
  if order = some .oldestFirst then path.reverse else path

section Select

variable {entry : Entry ν} {path : List (Entry ν)} {branchId : String}

@[simp] theorem stopsAt_branchRow (bounds : BranchBounds) (entry : Entry ν) :
    stopsAt bounds (branchRow branchId entry) = reachesBound entry bounds := by
  rw [stopsAt, reachesBound, Bool.or_comm]
  rfl

theorem not_reachesBound {bounds : BranchBounds}
    (h : (bounds.stopAtType.isSome || bounds.stopAtId.isSome) = false) (entry : Entry ν) :
    reachesBound entry bounds = false := by
  rw [Bool.or_eq_false_iff, Option.isSome_eq_false_iff, Option.isSome_eq_false_iff,
    Option.isNone_iff_eq_none, Option.isNone_iff_eq_none] at h
  simp [reachesBound, h.1, h.2]

/-- The comparison with the boundary, as the statement makes it. -/
def withinBoundary (rows : SessionRows ν) (branch : CachedBranch) (order : Option EntryOrder)
    (bounds : BranchBounds) (row : BranchEntryRow) : Bool :=
  !(bounds.stopAtType.isSome || bounds.stopAtId.isSome) ||
    if order = some .oldestFirst then row.entry_seq ≤ boundary rows branch order bounds
    else row.entry_seq ≥ boundary rows branch order bounds

/-- **Comparing with the boundary is walking to the bound.** -/
theorem filter_withinBoundary {rows : SessionRows ν} {bounds : BranchBounds}
    {order : Option EntryOrder} (hsorted : path.Pairwise fun a b => b.seq < a.seq)
    (hhead : ∀ e ∈ path, e.seq ≤ entry.seq)
    (hrows : rows.branch_entries.filter (fun row => row.branch_id = branchId && row.entry_seq ≤ entry.seq) =
      path.reverse.map (branchRow branchId)) :
    (inOrder order path).filter
        (fun e => withinBoundary rows ⟨branchId, entry.seq⟩ order bounds (branchRow branchId e)) =
      Scan.upTo (reachesBound · bounds) (inOrder order path) := by
  cases hstops : bounds.stopAtType.isSome || bounds.stopAtId.isSome with
  | false =>
    rw [Scan.upTo_eq_self fun e _ => not_reachesBound hstops e, List.filter_eq_self]
    intro e _
    simp [withinBoundary, hstops]
  | true =>
    have hasc : Sql.Ascending Entry.seq path.reverse := List.pairwise_reverse.mpr hsorted
    -- the stops of the statement are those of the walk
    have hseqs : (rows.branch_entries.filter fun row => row.branch_id = branchId &&
        row.entry_seq ≤ entry.seq && stopsAt bounds row).map BranchEntryRow.entry_seq =
        (path.reverse.filter (reachesBound · bounds)).map Entry.seq := by
      calc _ = ((rows.branch_entries.filter fun row => row.branch_id = branchId &&
              row.entry_seq ≤ entry.seq).filter (stopsAt bounds)).map
                BranchEntryRow.entry_seq := by
            rw [List.filter_filter]
            refine congrArg _ (List.filter_congr fun row _ => ?_)
            rw [Bool.and_comm]
        _ = _ := by
            rw [hrows, List.filter_map, List.map_map]
            refine congrArg _ (List.filter_congr fun e _ => ?_)
            exact stopsAt_branchRow bounds e
    by_cases horder : order = some .oldestFirst
    · have hboundary : boundary rows ⟨branchId, entry.seq⟩ order bounds =
          ((path.reverse.filter (reachesBound · bounds)).map Entry.seq).min?.getD entry.seq := by
        unfold boundary
        rw [hseqs, if_pos horder]
      rw [inOrder, if_pos horder, hasc.upTo_min fun e he => hhead e (List.mem_reverse.mp he), ← hboundary]
      refine List.filter_congr fun e _ => ?_
      simp [withinBoundary, hstops, horder, branchRow]
    · have hboundary : boundary rows ⟨branchId, entry.seq⟩ order bounds =
          ((path.reverse.filter (reachesBound · bounds)).map Entry.seq).max?.getD 0 := by
        unfold boundary
        rw [hseqs, if_neg horder]
      have hwalk : Scan.upTo (reachesBound · bounds) path.reverse.reverse = _ := hasc.upTo_max
      rw [List.reverse_reverse, ← hboundary] at hwalk
      rw [inOrder, if_neg horder, hwalk]
      refine List.filter_congr fun e _ => ?_
      simp [withinBoundary, hstops, horder, branchRow]

end Select

section Query

variable {s : SessionState ν} {rows : SessionRows ν} {entry : Entry ν}
  {path : List (Entry ν)} {branchId : String}

/-- What the statement asks of a row beside its branch. -/
def selects (rows : SessionRows ν) (branch : CachedBranch) (query : EntryQuery)
    (bounds : BranchBounds) (row : BranchEntryRow) : Bool :=
  withinBoundary rows branch query.order bounds row &&
  (query.cursor.all fun afterSeq =>
    if query.order = some .oldestFirst then (row.entry_seq : Int) > afterSeq
    else (row.entry_seq : Int) < afterSeq) &&
  (query.type.all fun type => row.entry_type = type) &&
  (query.customType.all fun customType => row.custom_type = some customType)

/-- What the query selects before it is cut, of the walk from its start. -/
def selected (query : EntryQuery) (bounds : BranchBounds) (path : List (Entry ν)) : List (Entry ν) :=
  (Scan.upTo (reachesBound · bounds) (inOrder query.order path)).filter (matchesEntryQuery · query)

theorem selects_branchRow (branch : CachedBranch) (query : EntryQuery) (bounds : BranchBounds) (e : Entry ν) :
    selects rows branch query bounds (branchRow branchId e) = (matchesEntryQuery e query &&
        withinBoundary rows branch query.order bounds (branchRow branchId e)) := by
  have hcustom : ∀ customType : String, decide ((branchRow branchId e).custom_type = some customType) =
        (decide (e.type = .custom) && decide (e.customType = some customType)) := by
    intro customType
    by_cases htype : e.type = .custom <;> simp [branchRow, htype]
  unfold selects matchesEntryQuery
  simp only [hcustom]
  show (_ && _ && (query.type.all fun type => e.type = type) && _) = _
  generalize (query.type.all fun type => decide (e.type = type)) = byType
  generalize (query.customType.all fun _ => _) = byCustomType
  show (_ && (query.cursor.all fun afterSeq =>
    if query.order = some .oldestFirst then (e.seq : Int) > afterSeq else (e.seq : Int) < afterSeq) &&
      _ && _) = _
  generalize (query.cursor.all fun _ => _) = byCursor
  generalize withinBoundary rows branch query.order bounds (branchRow branchId e) = within
  cases within <;> cases byType <;> cases byCustomType <;> cases byCursor <;> rfl

/-- A condition on the cache row alone comes before the join. -/
theorem filter_branchJoin (rows : SessionRows ν) (condition : BranchEntryRow → Bool) :
    (branchJoin rows).filter (fun row => condition row.1) = (rows.branch_entries.filter condition).flatMap fun b =>
        (rows.entries.filter fun e => e.id = b.entry_id).map fun e => (b, e) := by
  unfold branchJoin
  induction rows.branch_entries with
  | nil => rfl
  | cons b rest ih =>
    rw [List.flatMap_cons, List.filter_append, ih]
    cases hb : condition b with
    | true =>
      rw [List.filter_cons_of_pos hb, List.flatMap_cons, List.filter_eq_self.mpr]
      intro row hrow
      obtain ⟨e, -, rfl⟩ := List.mem_map.mp hrow
      exact hb
    | false =>
      rw [List.filter_cons_of_neg (by simp [hb]), List.filter_eq_nil_iff.mpr, List.nil_append]
      intro row hrow
      obtain ⟨e, -, rfl⟩ := List.mem_map.mp hrow
      simp [hb]

theorem selected_sublist (query : EntryQuery) (bounds : BranchBounds) (path : List (Entry ν)) :
    (selected query bounds path).Sublist (inOrder query.order path) :=
  List.filter_sublist.trans (Scan.upTo_prefix _ _).sublist

/-- Without filters the query selects a section of the walk. -/
theorem selected_section {query : EntryQuery} (htype : query.type = none)
    (hcustom : query.customType = none) (bounds : BranchBounds)
    (hsorted : path.Pairwise fun a b => b.seq < a.seq) :
    selected query bounds path <:+: inOrder query.order path := by
  have hcursor : ∀ e : Entry ν, matchesEntryQuery e query = query.cursor.all fun afterSeq =>
      if query.order = some .oldestFirst then (e.seq : Int) > afterSeq else (e.seq : Int) < afterSeq := by
    intro e
    simp only [matchesEntryQuery, htype, hcustom, Option.all_none, Bool.true_and]
  have hmono : (inOrder query.order path).Pairwise fun a b =>
      matchesEntryQuery a query = true → matchesEntryQuery b query = true := by
    simp only [hcursor]
    cases query.cursor with
    | none => exact List.pairwise_of_forall fun _ _ _ => rfl
    | some afterSeq =>
      unfold inOrder
      by_cases horder : query.order = some .oldestFirst
      · simp only [if_pos horder, Option.all_some, decide_eq_true_eq]
        refine (List.pairwise_reverse.mpr hsorted).imp fun {a b} hab ha => ?_
        omega
      · simp only [if_neg horder, Option.all_some, decide_eq_true_eq]
        refine hsorted.imp fun {a b} hab ha => ?_
        omega
  have hsub := hmono.sublist (Scan.upTo_prefix (reachesBound · bounds) _).sublist
  exact (Scan.filter_suffix hsub).isInfix.trans (Scan.upTo_prefix _ _).isInfix

/-- Without bounds, filters and a cursor it selects the whole walk. -/
theorem selected_all {query : EntryQuery} (htype : query.type = none)
    (hcustom : query.customType = none) (hcursor : query.cursor = none) :
    selected query {} path = inOrder query.order path := by
  have hupTo : Scan.upTo (reachesBound · {}) (inOrder query.order path) = inOrder query.order path :=
    Scan.upTo_eq_self fun e _ => by simp [reachesBound]
  rw [selected, hupTo, List.filter_eq_self]
  intro e _
  simp [matchesEntryQuery, htype, hcustom, hcursor]

theorem slice_limit {limit : Option Int} (hlimit : ∀ n ∈ limit, 0 < n) (entries : List (Entry ν)) :
    slice limit (Sql.limit limit entries) = Scan.limited limit entries := by
  cases limit with
  | none => rfl
  | some n =>
    have hn : ¬ n < 0 := by
      have := hlimit n rfl
      omega
    simp only [slice, Sql.limit, Scan.limited, if_neg hn, List.take_take, Nat.min_self]

variable [JsonNumber ν] [DecidableEq ν]

theorem Holds.filter_id (h : Holds s rows) {e : Entry ν} (he : e ∈ s.entries) :
    rows.entries.filter (fun row => row.id = e.id) = [entryRow e] := by
  have hids := h.tree.ids_nodup
  rw [h.entries, List.filter_map]
  have hone : ∀ entries : List (Entry ν), (entries.map Entry.id).Nodup → e ∈ entries →
      entries.filter (fun x => x.id = e.id) = [e] := by
    intro entries
    induction entries with
    | nil => exact fun _ hmem => absurd hmem List.not_mem_nil
    | cons x rest ih =>
      intro hnodup hmem
      rw [List.map_cons, List.nodup_cons] at hnodup
      by_cases hx : x.id = e.id
      · have hnone : rest.filter (fun x => x.id = e.id) = [] := by
          rw [List.filter_eq_nil_iff]
          intro y hy
          rw [decide_eq_true_eq]
          exact fun hid => hnodup.1 (List.mem_map.mpr ⟨y, hy, hid.trans hx.symm⟩)
        rw [List.filter_cons_of_pos (by simpa using hx), hnone]
        rcases List.mem_cons.mp hmem with rfl | hrest
        · rfl
        · exact absurd (List.mem_map.mpr ⟨e, hrest, hx.symm⟩) hnodup.1
      · rw [List.filter_cons_of_neg (by simpa using hx)]
        rcases List.mem_cons.mp hmem with rfl | hrest
        · exact absurd rfl hx
        · exact ih hnodup.2 hrest
  exact congrArg (List.map entryRow) (hone s.entries hids he)

/-- **The statement selects what the walk selects**, in the order of the walk. -/
theorem Holds.queryCachedBranchRows_eq (h : Holds s rows) (hpath : ∀ e ∈ path, e ∈ s.entries)
    (hsorted : path.Pairwise fun a b => b.seq < a.seq) (hhead : ∀ e ∈ path, e.seq ≤ entry.seq)
    (hrows : rows.branch_entries.filter (fun row => row.branch_id = branchId && row.entry_seq ≤ entry.seq) =
      path.reverse.map (branchRow branchId)) (query : EntryQuery) (bounds : BranchBounds) :
    queryCachedBranchRows rows ⟨branchId, entry.seq⟩ query bounds =
      (Sql.limit query.limit (selected query bounds path)).map entryRow := by
  let keep := fun e : Entry ν => selects rows ⟨branchId, entry.seq⟩ query bounds (branchRow branchId e)
  let joined := fun e : Entry ν => (branchRow branchId e, entryRow e)
  have hjoin : (branchJoin rows).filter (fun row =>
      (row.1.branch_id = branchId && row.1.entry_seq ≤ entry.seq) &&
        selects rows ⟨branchId, entry.seq⟩ query bounds row.1) = (path.reverse.filter keep).map joined := by
    calc _ = ((rows.branch_entries.filter fun row => row.branch_id = branchId && row.entry_seq ≤ entry.seq).filter
                (selects rows ⟨branchId, entry.seq⟩ query bounds)).flatMap fun b =>
          (rows.entries.filter fun e => e.id = b.entry_id).map fun e => (b, e) := by
          rw [filter_branchJoin rows fun row => (row.branch_id = branchId &&
            row.entry_seq ≤ entry.seq) && selects rows ⟨branchId, entry.seq⟩ query bounds row,
            List.filter_filter]
          refine congrArg (List.flatMap _) (List.filter_congr fun row _ => ?_)
          rw [Bool.and_comm]
      _ = (path.reverse.filter keep).flatMap fun e =>
          (rows.entries.filter fun row => row.id = e.id).map fun row => (branchRow branchId e, row) := by
          rw [hrows, List.filter_map, List.flatMap_map]
          rfl
      _ = (path.reverse.filter keep).flatMap fun e => [joined e] := by
          refine List.flatMap_congr fun e he => ?_
          rw [h.filter_id (hpath e (List.mem_reverse.mp (List.mem_of_mem_filter he)))]
          rfl
      _ = _ := List.map_eq_flatMap.symm
  have hasc : Sql.Ascending (fun row : BranchEntryRow × EntryRow => row.1.entry_seq)
      ((path.reverse.filter keep).map joined) := by
    rw [Sql.Ascending, List.pairwise_map]
    exact List.Pairwise.filter keep (List.pairwise_reverse.mpr hsorted)
  have horder : (Sql.orderBy (fun row : BranchEntryRow × EntryRow => row.1.entry_seq)
      (direction query.order) ((path.reverse.filter keep).map joined)) =
        ((inOrder query.order path).filter keep).map joined := by
    unfold direction inOrder
    split
    · exact hasc.orderBy_asc
    · rw [hasc.orderBy_desc, ← List.map_reverse, ← List.filter_reverse, List.reverse_reverse]
  have hwalk : (inOrder query.order path).filter keep =
      (Scan.upTo (reachesBound · bounds) (inOrder query.order path)).filter (matchesEntryQuery · query) := by
    rw [← filter_withinBoundary hsorted hhead hrows, List.filter_filter]
    exact List.filter_congr fun e _ => selects_branchRow _ query bounds e
  calc queryCachedBranchRows rows ⟨branchId, entry.seq⟩ query bounds
      = (Sql.limit query.limit (Sql.orderBy (fun row : BranchEntryRow × EntryRow => row.1.entry_seq)
          (direction query.order) ((branchJoin rows).filter fun row =>
            (row.1.branch_id = branchId && row.1.entry_seq ≤ entry.seq) &&
              selects rows ⟨branchId, entry.seq⟩ query bounds row.1))).map Prod.snd := by
        refine congrArg (fun rows => (Sql.limit query.limit (Sql.orderBy _ _ rows)).map Prod.snd) ?_
        refine List.filter_congr fun row _ => ?_
        simp only [selects, withinBoundary, Bool.and_assoc]
    _ = _ := by
        rw [hjoin, horder, Sql.limit_map, List.map_map, hwalk, ← Sql.limit_map]
        rfl

/-! ## `validateCachedBranchRows` -/

/-- Each row's parent is the row before it. -/
def Linked (rows : List EntryRow) : Prop :=
  rows.IsChain fun previous current => current.parent_id = some previous.id

omit [JsonNumber ν] [DecidableEq ν] in
theorem validateChain_ok {rows : List EntryRow} (h : Linked rows) : validateChain rows = .ok () := by
  induction rows with
  | nil => rfl
  | cons previous rest ih =>
    cases rest with
    | nil => rfl
    | cons current path =>
      obtain ⟨hparent, hrest⟩ := List.isChain_cons_cons.mp h
      rw [validateChain, if_neg (not_not.mpr hparent)]
      exact ih hrest

omit [DecidableEq ν] in
theorem linked_path (htree : EntriesInvariant s.sequence s.entries s.entriesById)
    (hpath : RootPath s.parentOf entry path) : Linked (path.reverse.map entryRow) := by
  rw [Linked, List.isChain_map, List.isChain_reverse]
  induction hpath with
  | root _ => exact List.isChain_singleton _
  | @step x parent path hstep hrest ih =>
    obtain ⟨tail, rfl⟩ : ∃ tail, path = parent :: tail := by
      cases hrest with
      | root _ => exact ⟨_, rfl⟩
      | step _ _ => exact ⟨_, rfl⟩
    refine List.isChain_cons_cons.mpr ⟨?_, ih⟩
    obtain ⟨p, hp, hget⟩ := Option.bind_eq_some_iff.mp hstep
    obtain rfl := (htree.get?_iff.mp hget).2
    exact hp

omit [DecidableEq ν] in
/-- **The rows of a query are a branch.** -/
theorem validateCachedBranchRows_ok (htree : EntriesInvariant s.sequence s.entries s.entriesById)
    (hmem : entry ∈ s.entries) (hpath : RootPath s.parentOf entry path) (query : EntryQuery)
    (bounds : BranchBounds) :
    validateCachedBranchRows
      ((Sql.limit query.limit (selected query bounds path)).map entryRow) query bounds = .ok () := by
  unfold validateCachedBranchRows
  by_cases hskip : (Sql.limit query.limit (selected query bounds path)).map entryRow = [] ∨
      query.type.isSome ∨ query.customType.isSome
  · rw [if_pos hskip]
  rw [if_neg hskip]
  simp only [not_or, Bool.not_eq_true, Option.isSome_eq_false_iff, Option.isNone_iff_eq_none] at hskip
  obtain ⟨hne, htype, hcustom⟩ := hskip
  have hdesc := htree.path_sorted hmem hpath
  have hsection : Sql.limit query.limit (selected query bounds path) <:+: inOrder query.order path :=
    List.IsInfix.trans (List.IsPrefix.isInfix <| Sql.limit_prefix _ _) (selected_section htype hcustom bounds hdesc)
  -- in ascending order the rows are a section of the path from the root
  obtain ⟨part, hsorted, hwithin, hroot⟩ : ∃ part : List (Entry ν), Sql.orderBy EntryRow.seq .asc
        ((Sql.limit query.limit (selected query bounds path)).map entryRow) = part.map entryRow ∧
      part <:+: path.reverse ∧
      (bounds = {} → query.cursor = none → (query.order = some .oldestFirst ∨ query.limit = none) →
        part <+: path.reverse ∧ part ≠ []) := by
    by_cases horder : query.order = some .oldestFirst
    · have horder' : inOrder query.order path = path.reverse := if_pos horder
      rw [horder'] at hsection
      refine ⟨Sql.limit query.limit (selected query bounds path), ?_, hsection, ?_⟩
      · refine Sql.Ascending.orderBy_asc ?_
        rw [Sql.Ascending, List.pairwise_map]
        exact (List.pairwise_reverse.mpr hdesc).sublist hsection.sublist
      · rintro rfl hcursor -
        refine ⟨?_, fun hnil => hne (by rw [hnil]; rfl)⟩
        rw [selected_all htype hcustom hcursor, horder']
        exact Sql.limit_prefix _ _
    · have horder' : inOrder query.order path = path := if_neg horder
      rw [horder'] at hsection
      refine ⟨(Sql.limit query.limit (selected query bounds path)).reverse, ?_, List.reverse_infix.mpr hsection, ?_⟩
      · have hasc : Sql.Ascending EntryRow.seq
            ((Sql.limit query.limit (selected query bounds path)).reverse.map entryRow) := by
          rw [Sql.Ascending, List.pairwise_map, List.pairwise_reverse]
          exact hdesc.sublist hsection.sublist
        exact hasc.orderBy_perm ((List.reverse_perm _).symm.map entryRow)
      · rintro rfl hcursor hlimit
        have hlimit := hlimit.resolve_left horder
        rw [hlimit, Sql.limit_none, selected_all htype hcustom hcursor, horder']
        refine ⟨List.prefix_refl _, ?_⟩
        rw [Ne, List.reverse_eq_nil_iff]
        exact hpath.ne_nil
  have hchain : validateChain (part.map entryRow) = .ok () :=
    validateChain_ok <| List.IsChain.infix (linked_path htree hpath) (hwithin.map entryRow)
  simp only [hsorted, hchain]
  split
  next parentId hparent =>
    rw [if_neg]
    -- the root has no parent
    intro hroots
    simp only [Bool.and_eq_true, Bool.or_eq_true, Option.isNone_iff_eq_none, decide_eq_true_eq] at hroots
    obtain ⟨⟨⟨hid, htypeBound⟩, hcursor⟩, horder⟩ := hroots
    have hbounds : bounds = {} := by
      obtain ⟨stopAtType, stopAtId⟩ := bounds
      obtain rfl : stopAtId = none := hid
      obtain rfl : stopAtType = none := htypeBound
      rfl
    obtain ⟨⟨rest, hprefix⟩, hnonempty⟩ := hroot hbounds hcursor horder
    obtain ⟨root, hlast, hparentless⟩ := htree.path_root hmem hpath
    obtain ⟨e, tail, rfl⟩ := List.exists_cons_of_ne_nil hnonempty
    rw [← List.head?_reverse, ← hprefix] at hlast
    obtain rfl : e = root := Option.some.inj hlast
    have hcol : e.parentId = some parentId := hparent
    rw [hparentless] at hcol
    cases hcol
  · rfl

/-! ## `findEntriesOnBranch` -/

/-- **The query on a cache that meets its invariant.** -/
theorem Holds.findEntriesOnBranch_eq (h : Holds s rows) (hb : Branches s rows)
    (hcovered : Covered s rows) {query : BranchQuery} (hmem : entry ∈ s.entries)
    (hstart : entry.id = query.start) (hpath : RootPath s.parentOf entry path) :
    findEntriesOnBranch rows query = .ok (slice query.limit (Sql.limit query.limit
      (selected query.toEntryQuery query.toBranchBounds path))) := by
  obtain ⟨branchId, hread, hrows⟩ := hb.readCachedBranch_eq hcovered h.tree hmem hpath
  have hon : ∀ e ∈ path, e ∈ s.entries := h.tree.path_mem hmem hpath
  have hhead : ∀ e ∈ path, e.seq ≤ entry.seq := by
    intro e he
    obtain rfl | hne := eq_or_ne e entry
    · exact Nat.le_refl _
    · exact Nat.le_of_lt (h.tree.path_seq_lt hmem hpath he hne)
  have hquery := h.queryCachedBranchRows_eq hon (h.tree.path_sorted hmem hpath) hhead hrows
    query.toEntryQuery query.toBranchBounds
  have hvalid := validateCachedBranchRows_ok h.tree hmem hpath query.toEntryQuery query.toBranchBounds
  have hlimit := Sql.limit_subset query.limit (selected query.toEntryQuery query.toBranchBounds path)
  have hselected : ∀ e ∈ selected query.toEntryQuery query.toBranchBounds path, e ∈ s.entries := by
    intro e he
    have hwalk := (selected_sublist _ _ _).subset he
    unfold inOrder at hwalk
    split at hwalk
    · exact hon e (List.mem_reverse.mp hwalk)
    · exact hon e hwalk
  have hdecode := h.decodeAll_rows fun e he => hselected e (hlimit he)
  have hagain : (Sql.limit query.limit (selected query.toEntryQuery query.toBranchBounds path)).filter
      (matchesEntryQuery · query.toEntryQuery) =
        Sql.limit query.limit (selected query.toEntryQuery query.toBranchBounds path) :=
    List.filter_eq_self.mpr fun e he => (List.mem_filter.mp (hlimit he)).2
  unfold findEntriesOnBranch
  rw [← hstart, hread]
  simp only [hquery, hvalid]
  show (do
    let entries ← decodeAll decodeEntry _
    return slice query.limit (entries.filter (matchesEntryQuery · query.toEntryQuery))) = _
  rw [hdecode]
  exact congrArg (fun entries => Except.ok (slice query.limit entries)) hagain

/-- **The statement and the walk agree on every query whose arguments the walk accepts.** -/
theorem Holds.findEntriesOnBranch_walk (h : Holds s rows) (hb : Branches s rows)
    (hcovered : Covered s rows) {query : BranchQuery} (hmem : entry ∈ s.entries)
    (hstart : entry.id = query.start) (hlimit : ∀ n ∈ query.limit, 0 < n)
    (hcursor : ∀ afterSeq ∈ query.cursor, 0 ≤ afterSeq) :
    ∃ entries, findEntriesOnBranch rows query = .ok entries ∧ s.findEntriesOnBranch query = .ok entries := by
  obtain ⟨path, hpath⟩ := h.tree.exists_path hmem
  refine ⟨_, h.findEntriesOnBranch_eq hb hcovered hmem hstart hpath, ?_⟩
  have hget : s.getEntry query.start = some entry := h.tree.get?_iff.mpr ⟨hmem, hstart⟩
  rw [h.tree.findEntriesOnBranch_eq hget hpath, slice_limit hlimit]
  have hvalidLimit : assertValidLimit query.limit = .ok () := by
    cases hl : query.limit with
    | none => rfl
    | some n => exact if_neg (by have := hlimit n hl; omega)
  have hvalidCursor : assertValidCursor query.cursor = .ok () := by
    cases hc : query.cursor with
    | none => rfl
    | some n => exact if_neg (by have := hcursor n hc; omega)
  rw [hvalidLimit, hvalidCursor]
  rfl

end Query

end Mcpi.Session.Sqlite
