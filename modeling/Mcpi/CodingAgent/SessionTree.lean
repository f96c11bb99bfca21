import Mcpi.CodingAgent.Paths
import Mcpi.Lib.Traversal

/-!
# The session tree

The loops of the session manager that follow parent ids: `buildSessionPath`, `getBranch` and
`getTree`. Each takes a bound on the number of its turns, and has no result where the bound
does not do; a loop ends if and only if some bound does. `getTime` is
`new Date(text).getTime()`, with no value for `NaN`.
-/

namespace Mcpi.CodingAgent

variable {δ : Type}

/-! ## The entries of a file -/

/-- What stands in the place of an id: nothing vouches for it being there. -/
inductive Reference where
  | null
  | undefined
  | text (id : String)
  deriving DecidableEq

def Reference.text? : Reference → Option String
  | .text id => some id
  | _ => none

/-- An entry with its links as they stand in the file. -/
structure LoadedEntry (δ : Type) where
  id : Reference
  parentId : Reference
  timestamp : String
  body : EntryBody δ
  deriving DecidableEq

/-- The entry as the walks to the root see it, to which `null` and a missing id are one. -/
def LoadedEntry.sessionEntry (entry : LoadedEntry δ) : SessionEntry δ where
  id := entry.id.text?
  parentId := entry.parentId.text?
  timestamp := entry.timestamp
  body := entry.body

/-! ## Paths -/

/-- `buildSessionPath` in at most `fuel` turns; `byId` is the index of the entries where the
caller gives none. -/
def buildSessionPathWithin (fuel : Nat) (entries : List (SessionEntry δ)) (leafId : LeafId)
    (byId : Option (EntryIndex δ)) : Option (List (SessionEntry δ)) :=
  let index := byId.getD (buildEntryIndex entries)
  match leafId with
  | none => some []
  | some leafId => (walk index fuel (leafEntry entries leafId index)).map List.reverse

/-- `getBranch` in at most `fuel` turns. -/
def getBranch (fuel : Nat) (core : Core δ) (fromId : Option String) : Option (List (SessionEntry δ)) :=
  let startId := fromId.or core.leafId.join
  (walk core.byId fuel (follow core.byId startId)).map List.reverse

/-! ## The tree -/

/-- A node of the tree. Nodes are shared objects: the children are named by their keys in the
map of nodes. -/
structure SessionTreeNode (δ : Type) where
  entry : LoadedEntry δ
  children : List Reference
  label : Option String
  labelTimestamp : Option String
  deriving DecidableEq

abbrev NodeMap (δ : Type) := OrderedMap Reference (SessionTreeNode δ)

/-- The roots, and the nodes by their ids. -/
structure SessionTree (δ : Type) where
  roots : List Reference
  nodeMap : NodeMap δ
  deriving DecidableEq

section GetTree

variable (labelsById labelTimestampsById : OrderedMap String String) (getTime : String → Option Int)

def createNode (entry : LoadedEntry δ) : SessionTreeNode δ where
  entry := entry
  children := []
  label := entry.id.text?.bind labelsById.get?
  labelTimestamp := entry.id.text?.bind labelTimestampsById.get?

/-- Of several entries with one id the last makes the node. -/
def createNodes (entries : List (LoadedEntry δ)) : NodeMap δ :=
  OrderedMap.ofValues (fun node => node.entry.id) (entries.map (createNode labelsById labelTimestampsById))

/-- `parent.children.push(node)` -/
def SessionTreeNode.push (parent : SessionTreeNode δ) (key : Reference) : SessionTreeNode δ :=
  { parent with children := parent.children ++ [key] }

/-- The turn of the loop that builds the tree. -/
def linkEntry (tree : SessionTree δ) (entry : LoadedEntry δ) : SessionTree δ :=
  if entry.parentId = .null ∨ entry.parentId = entry.id then
    { tree with roots := tree.roots ++ [entry.id] }
  else
    match tree.nodeMap.get? entry.parentId with
    | some parent => { tree with nodeMap := tree.nodeMap.set entry.parentId (parent.push entry.id) }
    | none => { tree with roots := tree.roots ++ [entry.id] }

def linkEntries (entries : List (LoadedEntry δ)) : SessionTree δ :=
  entries.foldl linkEntry ⟨[], createNodes labelsById labelTimestampsById entries⟩

/-- The time a child is sorted by. -/
def NodeMap.time (nodeMap : NodeMap δ) (key : Reference) : Option Int :=
  (nodeMap.get? key).bind fun node => getTime node.entry.timestamp

/-- `(a, b) => a - b` does not put `b` first: `NaN` counts as equal. -/
def NodeMap.notAfter (nodeMap : NodeMap δ) (a b : Reference) : Bool :=
  match nodeMap.time getTime a, nodeMap.time getTime b with
  | some x, some y => x ≤ y
  | _, _ => true

/-- The turn of the loop that sorts: a node taken off the stack gets its children sorted, and
they go on the stack, the last on top. -/
def sortNode (nodeMap : NodeMap δ) (key : Reference) : List Reference × NodeMap δ :=
  match nodeMap.get? key with
  | some node =>
    let children := node.children.mergeSort (nodeMap.notAfter getTime)
    (children.reverse, nodeMap.set key { node with children := children })
  | none => ([], nodeMap)

/-- `getTree`, its last loop in at most `fuel` turns. -/
def getTree (fuel : Nat) (entries : List (LoadedEntry δ)) : Option (SessionTree δ) :=
  let tree := linkEntries labelsById labelTimestampsById entries
  (Traversal.visitAll (sortNode getTime) fuel tree.roots.reverse tree.nodeMap).map fun nodeMap =>
    ⟨tree.roots, nodeMap⟩

end GetTree

/-- Some bound on the turns does. -/
def Terminates {α : Type} (run : Nat → Option α) : Prop := ∃ fuel result, run fuel = some result

/-! ## Links between entries -/

/-- The entry a parent id leads to. -/
def ParentLink (index : EntryIndex δ) (above entry : SessionEntry δ) : Prop :=
  parent index entry = some above

/-- Where `buildSessionPath` starts. -/
def pathStart (entries : List (SessionEntry δ)) (leafId : LeafId) (index : EntryIndex δ) : Option (SessionEntry δ) :=
  leafId.bind fun leafId => leafEntry entries leafId index

/-- Where `getBranch` starts. -/
def branchStart (core : Core δ) (fromId : Option String) : Option (SessionEntry δ) :=
  follow core.byId (fromId.or core.leafId.join)

/-- `path` is the chain of parents of `start`, from its root on. -/
def ChainTo (index : EntryIndex δ) : Option (SessionEntry δ) → List (SessionEntry δ) → Prop
  | none, path => path = []
  | some leaf, path => RootPath (parent index) leaf path.reverse

/-- `child` is put below `parent`: it names it, is not `parent` itself, and `parent` is there. -/
def TreeLink (entries : List (LoadedEntry δ)) (child parent : Reference) : Prop :=
  ∃ entry ∈ entries, entry.id = child ∧ entry.parentId = parent ∧ parent ≠ .null ∧ parent ≠ child ∧
    ∃ other ∈ entries, other.id = parent

/-- An id is a root: with no parent, with itself for its parent, or with one that is not there. -/
def TreeRoot (entries : List (LoadedEntry δ)) (key : Reference) : Prop :=
  ∃ entry ∈ entries, entry.id = key ∧ (entry.parentId = .null ∨ entry.parentId = key ∨
    ∀ other ∈ entries, other.id ≠ entry.parentId)

/-! ## Walks end on chains without a cycle -/

section Walk

variable {index : EntryIndex δ} {start : Option (SessionEntry δ)} {path : List (SessionEntry δ)}

theorem exists_walk_iff :
    (∃ fuel, (walk index fuel start).map List.reverse = some path) ↔ ChainTo index start path := by
  cases start with
  | none =>
    constructor
    · rintro ⟨fuel, h⟩
      cases fuel <;> exact (Option.some.inj h).symm
    · rintro rfl
      exact ⟨0, rfl⟩
  | some leaf =>
    show _ ↔ RootPath (parent index) leaf path.reverse
    constructor
    · rintro ⟨fuel, h⟩
      obtain ⟨l, hl, rfl⟩ := Option.map_eq_some_iff.mp h
      rw [List.reverse_reverse]
      exact (walk_eq_some.mp hl).1
    · intro h
      refine ⟨path.reverse.length, ?_⟩
      rw [walk_eq_some.mpr ⟨h, Nat.le_refl _⟩, Option.map_some, List.reverse_reverse]

/-- From an entry only entries of the index are reached. -/
theorem finite_ancestors (index : EntryIndex δ) (leaf : SessionEntry δ) :
    {entry | Relation.ReflTransGen (ParentLink index) entry leaf}.Finite := by
  apply ((leaf :: index.values).finite_toSet).subset
  intro entry h
  rcases Relation.ReflTransGen.cases_head h with rfl | ⟨below, hlink, -⟩
  · exact List.mem_cons_self
  · obtain ⟨id, -, -, hget⟩ := follow_eq_some.mp hlink
    exact List.mem_cons_of_mem _ (OrderedMap.mem_values_of_get? hget)

/-- **A walk ends** if and only if no entry of its chain is its own ancestor. -/
theorem terminates_walk_iff :
    Terminates (fun fuel => (walk index fuel start).map List.reverse) ↔
      ∀ leaf ∈ start, Traversal.NoCycleFrom (ParentLink index) leaf := by
  have hswap : Terminates (fun fuel => (walk index fuel start).map List.reverse) ↔
      ∃ path, ChainTo index start path := by
    simp only [Terminates, ← exists_walk_iff]
    exact exists_comm
  rw [hswap]
  cases start with
  | none => exact ⟨fun _ leaf h => absurd h (by simp), fun _ => ⟨[], rfl⟩⟩
  | some leaf =>
    have hchain : (∃ path, ChainTo index (some leaf) path) ↔ ∃ l, RootPath (parent index) leaf l := by
      constructor
      · rintro ⟨path, h⟩
        exact ⟨path.reverse, h⟩
      · rintro ⟨l, h⟩
        exact ⟨l.reverse, by rwa [ChainTo, List.reverse_reverse]⟩
    rw [hchain, RootPath.exists_iff_acc]
    show Acc (ParentLink index) leaf ↔ _
    rw [Traversal.acc_iff_noCycleFrom (finite_ancestors index leaf)]
    simp

/-- A walk that comes to an entry that is its own parent does not end. -/
theorem not_terminates_walk {entry : SessionEntry δ} (h : ParentLink index entry entry) :
    ¬ Terminates (fun fuel => (walk index fuel (some entry)).map List.reverse) := fun hends =>
  terminates_walk_iff.mp hends entry rfl entry .refl (.single h)

end Walk

/-! ## What the tree links -/

section Links

variable {entries done : List (LoadedEntry δ)} {tree : SessionTree δ}
  {labelsById labelTimestampsById : OrderedMap String String} {getTime : String → Option Int}

/-- The tree once the entries `done` are linked. -/
structure LinkedUpTo (entries done : List (LoadedEntry δ)) (tree : SessionTree δ) : Prop where
  has_iff : ∀ key, tree.nodeMap.has key = true ↔ ∃ entry ∈ entries, entry.id = key
  mem_children : ∀ key node, tree.nodeMap.get? key = some node → ∀ child, child ∈ node.children ↔
      ∃ entry ∈ done, entry.id = child ∧ entry.parentId = key ∧ key ≠ .null ∧ key ≠ child
  mem_roots : ∀ key, key ∈ tree.roots ↔
    ∃ entry ∈ done, entry.id = key ∧ (entry.parentId = .null ∨ entry.parentId = key ∨
      ∀ other ∈ entries, other.id ≠ entry.parentId)

theorem linkedUpTo_nil :
    LinkedUpTo entries [] ⟨[], createNodes labelsById labelTimestampsById entries⟩ where
  has_iff key := by
    rw [createNodes, OrderedMap.has_ofValues]
    simp [createNode]
  mem_children key node hnode child := by
    rw [createNodes, OrderedMap.get?_ofValues] at hnode
    obtain ⟨entry, -, rfl⟩ : ∃ entry ∈ entries, createNode labelsById labelTimestampsById entry = node := by
      simpa using (List.mem_filter.mp (List.mem_of_getLast? hnode)).1
    simp [createNode]
  mem_roots key := by simp

theorem LinkedUpTo.root (h : LinkedUpTo entries done tree) {entry : LoadedEntry δ}
    (hroot : entry.parentId = .null ∨ entry.parentId = entry.id ∨ ∀ other ∈ entries, other.id ≠ entry.parentId) :
    LinkedUpTo entries (done ++ [entry]) { tree with roots := tree.roots ++ [entry.id] } where
  has_iff := h.has_iff
  mem_children key node hnode child := by
    rw [h.mem_children key node hnode child]
    have hkey : ∃ other ∈ entries, other.id = key :=
      (h.has_iff key).mp (OrderedMap.has_iff.mpr ⟨node, hnode⟩)
    grind
  mem_roots key := by
    rw [List.mem_append, h.mem_roots key]
    grind

theorem LinkedUpTo.child (h : LinkedUpTo entries done tree) {entry : LoadedEntry δ}
    {parent : SessionTreeNode δ} (hroot : ¬ (entry.parentId = .null ∨ entry.parentId = entry.id))
    (hparent : tree.nodeMap.get? entry.parentId = some parent) :
    LinkedUpTo entries (done ++ [entry])
      { tree with nodeMap := tree.nodeMap.set entry.parentId (parent.push entry.id) } where
  has_iff key := by
    rw [← h.has_iff key, OrderedMap.has, OrderedMap.has, OrderedMap.get?_set]
    split
    next hkey => rw [← hkey, hparent]; rfl
    next => rfl
  mem_children key node hnode child := by
    simp only [OrderedMap.get?_set] at hnode
    split at hnode
    next hkey =>
      obtain rfl := Option.some.inj hnode
      subst hkey
      rw [SessionTreeNode.push, List.mem_append, h.mem_children _ parent hparent child]
      grind
    next hkey =>
      rw [h.mem_children key node hnode child]
      grind
  mem_roots key := by
    rw [h.mem_roots key]
    have hthere : ∃ other ∈ entries, other.id = entry.parentId :=
      (h.has_iff _).mp (OrderedMap.has_iff.mpr ⟨parent, hparent⟩)
    grind

theorem LinkedUpTo.linkEntry (h : LinkedUpTo entries done tree) (entry : LoadedEntry δ) :
    LinkedUpTo entries (done ++ [entry]) (linkEntry tree entry) := by
  rw [Mcpi.CodingAgent.linkEntry]
  split
  next hroot =>
    apply h.root
    exact hroot.imp_right .inl
  next hroot =>
    split
    next parent hparent => exact h.child hroot hparent
    next hnone =>
      apply h.root
      refine .inr (.inr fun other hother hid => ?_)
      have hhas := (h.has_iff entry.parentId).mpr ⟨other, hother, hid⟩
      rw [OrderedMap.has, hnone] at hhas
      cases hhas

theorem linkedUpTo_linkEntries (labelsById labelTimestampsById : OrderedMap String String)
    (entries : List (LoadedEntry δ)) :
    LinkedUpTo entries entries (linkEntries labelsById labelTimestampsById entries) := by
  have hrun : ∀ rest done (tree : SessionTree δ), LinkedUpTo entries done tree →
      LinkedUpTo entries (done ++ rest) (rest.foldl Mcpi.CodingAgent.linkEntry tree) := by
    intro rest
    induction rest with
    | nil => exact fun done tree h => by rwa [List.append_nil]
    | cons entry rest ih =>
      intro done tree h
      rw [List.foldl_cons, List.append_cons]
      exact ih _ _ (h.linkEntry entry)
  exact hrun entries [] _ linkedUpTo_nil

end Links

/-! ## The loop that sorts -/

section SortNodes

variable {entries : List (LoadedEntry δ)} {nodeMap : NodeMap δ} {getTime : String → Option Int}

/-- The children of the nodes are what the entries link. -/
def HasLinks (entries : List (LoadedEntry δ)) (nodeMap : NodeMap δ) : Prop :=
  ∀ child key, (∃ node, nodeMap.get? key = some node ∧ child ∈ node.children) ↔ TreeLink entries child key

theorem LinkedUpTo.hasLinks {tree : SessionTree δ} (h : LinkedUpTo entries entries tree) :
    HasLinks entries tree.nodeMap := by
  intro child key
  constructor
  · rintro ⟨node, hnode, hchild⟩
    obtain ⟨entry, hentry, hid, hparent, hnull, hself⟩ := (h.mem_children key node hnode child).mp hchild
    have hthere := (h.has_iff key).mp (OrderedMap.has_iff.mpr ⟨node, hnode⟩)
    exact ⟨entry, hentry, hid, hparent, hnull, hself, hthere⟩
  · rintro ⟨entry, hentry, hid, hparent, hnull, hself, hthere⟩
    obtain ⟨node, hnode⟩ := OrderedMap.has_iff.mp ((h.has_iff key).mpr hthere)
    exact ⟨node, hnode, (h.mem_children key node hnode child).mpr ⟨entry, hentry, hid, hparent, hnull, hself⟩⟩

theorem hasLinks_sortNode (h : HasLinks entries nodeMap) (key : Reference) :
    HasLinks entries (sortNode getTime nodeMap key).2 := by
  intro child other
  rw [← h child other, sortNode]
  split
  next node hnode =>
    simp only [OrderedMap.get?_set]
    split
    next hkey =>
      subst hkey
      simp [hnode]
    next => rfl
  next => rfl

theorem mem_sortNode (h : HasLinks entries nodeMap) (key child : Reference) :
    child ∈ (sortNode getTime nodeMap key).1 ↔ TreeLink entries child key := by
  rw [← h child key, sortNode]
  split
  next node hnode => simp [hnode]
  next hnone => simp [hnone]

theorem visitsLinked_sortNode :
    Traversal.VisitsLinked (sortNode getTime) (TreeLink entries) (HasLinks entries) where
  preserved key h := hasLinks_sortNode h key
  mem_iff key child h := mem_sortNode h key child

theorem finite_descendants (entries : List (LoadedEntry δ)) (key : Reference) :
    {child | Relation.ReflTransGen (TreeLink entries) child key}.Finite := by
  apply ((key :: entries.map LoadedEntry.id).finite_toSet).subset
  intro child h
  rcases Relation.ReflTransGen.cases_head h with rfl | ⟨above, ⟨entry, hentry, rfl, -⟩, -⟩
  · exact List.mem_cons_self
  · exact List.mem_cons_of_mem _ (List.mem_map_of_mem hentry)

/-- **`getTree` ends** if and only if no id below a root is below itself. -/
theorem terminates_getTree_iff {labelsById labelTimestampsById : OrderedMap String String} :
    Terminates (fun fuel => getTree labelsById labelTimestampsById getTime fuel entries) ↔
      ∀ key, TreeRoot entries key → Traversal.NoCycleFrom (TreeLink entries) key := by
  have hlinked := linkedUpTo_linkEntries labelsById labelTimestampsById entries
  have hloop : Terminates (fun fuel => getTree labelsById labelTimestampsById getTime fuel entries) ↔
      ∃ fuel nodeMap, Traversal.visitAll (sortNode getTime) fuel
        (linkEntries labelsById labelTimestampsById entries).roots.reverse
        (linkEntries labelsById labelTimestampsById entries).nodeMap = some nodeMap := by
    simp [Terminates, getTree, Option.map_eq_some_iff]
  rw [hloop, Traversal.exists_visitAll_iff visitsLinked_sortNode hlinked.hasLinks]
  refine forall_congr' fun key => ?_
  rw [List.mem_reverse, hlinked.mem_roots key, Traversal.acc_iff_noCycleFrom (finite_descendants entries key)]
  rfl

end SortNodes

/-! ## Which calls end -/

/-- **Path building** ends exactly where the links it follows do not lead into a cycle, and what
`buildSessionPath` returns is the chain of parents of the leaf, from the root on. -/
theorem pathBuilding_terminates_iff (entries : List (LoadedEntry δ)) (byId : Option (EntryIndex δ))
    (leafId : LeafId) (core : Core δ) (fromId : Option String)
    (labelsById labelTimestampsById : OrderedMap String String) (getTime : String → Option Int) :
    let sessionEntries := entries.map LoadedEntry.sessionEntry
    let index := byId.getD (buildEntryIndex sessionEntries)
    let start := pathStart sessionEntries leafId index
    (Terminates (fun fuel => buildSessionPathWithin fuel sessionEntries leafId byId) ↔
        ∀ leaf ∈ start, Traversal.NoCycleFrom (ParentLink index) leaf) ∧
      (∀ path, (∃ fuel, buildSessionPathWithin fuel sessionEntries leafId byId = some path) ↔
        ChainTo index start path) ∧
      (Terminates (fun fuel => getBranch fuel core fromId) ↔
        ∀ entry ∈ branchStart core fromId, Traversal.NoCycleFrom (ParentLink core.byId) entry) ∧
      (Terminates (fun fuel => getTree labelsById labelTimestampsById getTime fuel entries) ↔
        ∀ key, TreeRoot entries key → Traversal.NoCycleFrom (TreeLink entries) key) := by
  intro sessionEntries index start
  have hwithin : ∀ fuel, buildSessionPathWithin fuel sessionEntries leafId byId =
      (walk index fuel start).map List.reverse := by
    intro fuel
    cases leafId with
    | none => cases fuel <;> rfl
    | some leafId => rfl
  simp only [hwithin]
  refine ⟨terminates_walk_iff, fun path => exists_walk_iff, ?_, terminates_getTree_iff⟩
  exact terminates_walk_iff

/-- A message entry with its links. -/
def linked (id parentId : Reference) : LoadedEntry Unit where
  id := id
  parentId := parentId
  timestamp := "2025-01-01T00:00:00Z"
  body := .message (.user (some (.text "hi")) (.ms 0))

/-- An entry that is its own parent keeps `buildSessionPath` and `getBranch` going for ever, and
an id that is a root and its own grandchild keeps `getTree` going. -/
theorem pathBuilding_not_terminating :
    let header : SessionHeader := ⟨some 3, "s", "2025-01-01T00:00:00Z", "/", none⟩
    let loop := [linked (.text "a") (.text "a")]
    let entries := loop.map LoadedEntry.sessionEntry
    let twice := [linked (.text "a") .null, linked (.text "b") (.text "a"),
      linked (.text "a") (.text "b")]
    ¬ Terminates (fun fuel => buildSessionPathWithin fuel entries (some (some "a")) none) ∧
      ¬ Terminates (fun fuel => getBranch fuel
        (SessionManager._buildIndex (.session header :: entries.map .entry)) (some "a")) ∧
      ¬ Terminates (fun fuel => getTree .empty .empty (fun _ => some 0) fuel twice) := by
  intro header loop entries twice
  have hself : ParentLink (buildEntryIndex entries) (linked (.text "a") (.text "a")).sessionEntry
      (linked (.text "a") (.text "a")).sessionEntry := by rfl
  refine ⟨not_terminates_walk hself, not_terminates_walk hself, fun hends => ?_⟩
  have hroot : TreeRoot twice (.text "a") := ⟨_, List.mem_cons_self, rfl, .inl rfl⟩
  have hab : TreeLink twice (.text "b") (.text "a") := by simp [TreeLink, twice, linked]
  have hba : TreeLink twice (.text "a") (.text "b") := by simp [TreeLink, twice, linked]
  exact terminates_getTree_iff.mp hends _ hroot _ .refl (.tail (.single hba) hab)

end Mcpi.CodingAgent
