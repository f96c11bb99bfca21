import Mcpi.Lib.RootPath
import Mcpi.Lib.Scan
import Mcpi.Session.State

/-!
# What the queries return

Every list query is a loop that pushes matches and stops at the limit. Each of them is
rewritten here as "filter, then cut", without a hypothesis: the argument checks in front
of a loop reject exactly the limits for which the loop would behave otherwise. The branch
query is described by the root path of its start, as far as there is one.
-/

namespace Mcpi.Session.SessionState

variable {ν : Type}

/-! ## The shared loop -/

/-- A limit that lets the loop push at least one more result. -/
def HasRoom (limit : Option Int) (count : Nat) : Prop := ∀ n ∈ limit, (count : Int) < n

variable {limit : Option Int}

theorem hasRoom_zero_of_valid (h : assertValidLimit limit = .ok ()) : HasRoom limit 0 := by
  intro n hn
  rw [Option.mem_def] at hn
  subst hn
  by_contra hle
  have hle' : n ≤ 0 := by omega
  simp [assertValidLimit, hle'] at h

/-- One more result leaves room unless the limit is reached. -/
theorem HasRoom.succ {count : Nat} (h : HasRoom limit count)
    (hne : limit ≠ some ((count + 1 : Nat) : Int)) : HasRoom limit (count + 1) := by
  intro n hn
  have hlt := h n hn
  have hne' : n ≠ ((count + 1 : Nat) : Int) := fun hc => hne (hc ▸ hn)
  push_cast at hne' ⊢
  omega

/-- Results that reach the limit are all the limit lets through. -/
theorem limited_eq_left {α : Type} {results rest : List α} :
    Scan.limited (some (results.length : Int)) (results ++ rest) = results := by
  simp [Scan.limited]

theorem limited_of_hasRoom {α : Type} {results : List α}
    (h : HasRoom limit results.length) : Scan.limited limit results = results := by
  cases limit with
  | none => rfl
  | some n =>
    have := h n rfl
    simp only [Scan.limited, List.take_eq_self_iff]
    omega

/-- **The loop filters, then cuts.** -/
theorem collect_eq {α : Type} (accepts : α → Bool) (items results : List α) (h : HasRoom limit results.length) :
    collect accepts limit results items = Scan.limited limit (results ++ items.filter accepts) := by
  induction items generalizing results with
  | nil => rw [collect, List.filter_nil, List.append_nil, limited_of_hasRoom h]
  | cons item items ih =>
    rw [collect]
    split
    next haccepts =>
      rw [List.filter_cons_of_pos haccepts, List.append_cons results item (items.filter accepts)]
      split
      next hlimit => rw [hlimit, limited_eq_left]
      next hlimit =>
        apply ih
        rw [List.length_append, List.length_singleton] at hlimit ⊢
        exact h.succ hlimit
    next haccepts => rw [List.filter_cons_of_neg haccepts, ih results h]

variable (s : SessionState ν)

/-! ## The branch query -/

/-- The entry an entry's `parentId` points to. -/
def parentOf (entry : Entry ν) : Option (Entry ν) := entry.parentId.bind s.entriesById.get?

/-- No entry of `path` points outside the state. -/
def Closed (path : List (Entry ν)) : Prop :=
  ∀ entry ∈ path, ∀ p ∈ entry.parentId, s.entriesById.has p

variable {s}

variable {current : Entry ν} {path : List (Entry ν)}

/-- Along a closed path without repeated ids the walk meets neither a cycle nor a missing
parent: it yields the path up to its bound. -/
theorem walkFrom_eq {bounds : BranchBounds} (hpath : RootPath s.parentOf current path) :
    ∀ (visited : List String) (hcurrent : current ∈ s.entriesById.values),
      s.Closed path → (path.map Entry.id).Nodup → (∀ entry ∈ path, entry.id ∉ visited) →
      s.walkFrom bounds visited current hcurrent = ⟨Scan.upTo (reachesBound · bounds) path, none⟩ := by
  induction hpath with
  | @root current hroot =>
    intro visited hcurrent hclosed _ hvisited
    have hv : current.id ∉ visited := hvisited current (by simp)
    have hparent : current.parentId = none := by
      cases hp : current.parentId with
      | none => rfl
      | some p =>
        obtain ⟨parent, hget⟩ := OrderedMap.has_iff.mp (hclosed current (by simp) p hp)
        simp [parentOf, hp, hget] at hroot
    rw [walkFrom, dif_neg hv, hparent]
    by_cases hb : reachesBound current bounds <;> simp [Scan.upTo, hb]
  | @step current parent path hstep hrest ih =>
    intro visited hcurrent hclosed hnodup hvisited
    have hv : current.id ∉ visited := hvisited current (by simp)
    obtain ⟨p, hp, hget⟩ : ∃ p, current.parentId = some p ∧
        s.entriesById.get? p = some parent := Option.bind_eq_some_iff.mp hstep
    rw [List.map_cons, List.nodup_cons] at hnodup
    have hih := ih (current.id :: visited) (OrderedMap.mem_values_of_get? hget)
      (fun entry he => hclosed entry (by simp [he])) hnodup.2 (fun entry he => by
        rw [List.mem_cons, not_or]
        exact ⟨fun heq => hnodup.1 (List.mem_map.mpr ⟨entry, he, heq⟩), hvisited entry (by simp [he])⟩)
    rw [walkFrom, dif_neg hv]
    by_cases hb : reachesBound current bounds
    · simp [Scan.upTo, hb]
    · rw [if_neg hb]
      split
      next hnone => rw [hp] at hnone; cases hnone
      next p' hp' =>
        rw [hp, Option.some.injEq] at hp'
        subst hp'
        split
        next hmissing => rw [hget] at hmissing; cases hmissing
        next parent' hget' =>
          obtain rfl : parent = parent' := by rw [hget] at hget'; exact Option.some.inj hget'
          simp [Scan.upTo, hb, hih]

theorem walkToRoot_eq {bounds : BranchBounds} {start : String} (hget : s.entriesById.get? start = some current)
    (hpath : RootPath s.parentOf current path) (hclosed : s.Closed path)
    (hnodup : (path.map Entry.id).Nodup) :
    s.walkToRoot (some start) bounds = ⟨Scan.upTo (reachesBound · bounds) path, none⟩ := by
  unfold walkToRoot
  split
  next hnone => cases hnone
  next start' hstart =>
    cases hstart
    split
    next hnone => rw [hget] at hnone; cases hnone
    next current' hget' =>
      obtain rfl : current = current' := by rw [hget] at hget'; exact Option.some.inj hget'
      exact walkFrom_eq hpath [] _ hclosed hnodup (by simp)

/-- A walk that throws nothing is consumed by "filter, then cut". -/
theorem consumeWalk_eq (query : BranchQuery) (walk : Walk ν) (hthrown : walk.thrown = none) (entries : List (Entry ν)) :
    ∀ results : List (Entry ν), HasRoom query.limit results.length →
      consumeWalk query walk results entries = .ok (Scan.limited query.limit
        (results ++ entries.filter (matchesEntryQuery · query.toEntryQuery))) := by
  induction entries with
  | nil =>
    intro results h
    simp only [consumeWalk, hthrown, List.filter_nil, List.append_nil, limited_of_hasRoom h]
  | cons entry entries ih =>
    intro results h
    cases ha : matchesEntryQuery entry query.toEntryQuery with
    | false =>
      have hne : query.limit ≠ some (results.length : Int) := fun hc =>
        absurd (h _ hc) (by omega)
      rw [consumeWalk, ha, List.filter_cons_of_neg (by simp [ha])]
      simp only [Bool.false_eq_true, if_false, if_neg hne]
      exact ih results h
    | true =>
      rw [consumeWalk, ha, List.filter_cons_of_pos (by exact ha), List.append_cons results entry (entries.filter _)]
      simp only [if_true]
      by_cases hlimit : query.limit = some ((results ++ [entry]).length : Int)
      · rw [if_pos hlimit, hlimit, limited_eq_left]
      · rw [if_neg hlimit]
        refine ih _ ?_
        rw [List.length_append, List.length_singleton] at hlimit ⊢
        exact h.succ hlimit

/-- The oldest-first loop stops at the bound and at the limit, whichever comes first. -/
theorem scanBranch_eq (query : BranchQuery) (entries : List (Entry ν)) :
    ∀ results : List (Entry ν), HasRoom query.limit results.length →
      scanBranch query results entries = Scan.limited query.limit
        (results ++ (Scan.upTo (reachesBound · query.toBranchBounds) entries).filter
          (matchesEntryQuery · query.toEntryQuery)) := by
  induction entries with
  | nil =>
    intro results h
    rw [scanBranch, Scan.upTo_nil, List.filter_nil, List.append_nil, limited_of_hasRoom h]
  | cons entry entries ih =>
    intro results h
    have hroom : ¬ query.limit = some (results.length : Int) := fun hc =>
      absurd (h _ hc) (by omega)
    cases ha : matchesEntryQuery entry query.toEntryQuery with
    | false =>
      rw [scanBranch, ha, Scan.upTo]
      simp only [Bool.false_eq_true, if_false, hroom, decide_false, Bool.or_false]
      by_cases hb : reachesBound entry query.toBranchBounds
      · simp [hb, ha, limited_of_hasRoom h]
      · simp [hb, ha, ih results h]
    | true =>
      rw [scanBranch, ha, Scan.upTo]
      simp only [if_true]
      by_cases hlimit : query.limit = some ((results ++ [entry]).length : Int)
      · have hcut : ∀ rest, Scan.limited query.limit (results ++ entry :: rest) = results ++ [entry] := fun rest => by
          rw [hlimit, List.append_cons results entry rest]
          exact limited_eq_left
        rw [if_pos (by rw [hlimit]; simp)]
        by_cases hb : reachesBound entry query.toBranchBounds <;> simp [hb, ha, hcut]
      · by_cases hb : reachesBound entry query.toBranchBounds
        · have hfull : HasRoom query.limit (results ++ [entry]).length := by
            rw [List.length_append, List.length_singleton] at hlimit ⊢
            exact h.succ hlimit
          simp [hb, ha, limited_of_hasRoom hfull]
        · rw [if_neg (by simpa [hb] using hlimit), if_neg hb,
            List.filter_cons_of_pos (by exact ha), List.append_cons results entry (List.filter _ _)]
          refine ih _ ?_
          rw [List.length_append, List.length_singleton] at hlimit ⊢
          exact h.succ hlimit

/-- What `findEntriesOnBranch` selects from the root path of its start. -/
def branchResults (query : BranchQuery) (path : List (Entry ν)) : List (Entry ν) :=
  Scan.limited query.limit ((Scan.upTo (reachesBound · query.toBranchBounds)
        (if query.order = some .oldestFirst then path.reverse else path)).filter
      (matchesEntryQuery · query.toEntryQuery))

/-- **The branch query.** From a start with a closed root path the query fails only on its
arguments, and returns what `branchResults` selects. -/
theorem findEntriesOnBranch_eq {query : BranchQuery} (hget : s.entriesById.get? query.start = some current)
    (hpath : RootPath s.parentOf current path) (hclosed : s.Closed path)
    (hnodup : (path.map Entry.id).Nodup) :
    s.findEntriesOnBranch query = (do
      assertValidLimit query.limit
      assertValidCursor query.cursor
      return branchResults query path) := by
  unfold findEntriesOnBranch
  cases h : assertValidLimit query.limit with
  | error e => rfl
  | ok u =>
    cases hc : assertValidCursor query.cursor with
    | error e => rfl
    | ok v =>
      have hroom : HasRoom query.limit ([] : List (Entry ν)).length := hasRoom_zero_of_valid h
      have hwalk : ∀ bounds, s.walkToRoot (some query.start) bounds =
          ⟨Scan.upTo (reachesBound · bounds) path, none⟩ := fun bounds =>
        walkToRoot_eq hget hpath hclosed hnodup
      show (if _ then _ else _) = Except.ok _
      by_cases horder : query.order = some .oldestFirst
      · -- the unbounded walk yields the whole path
        have hall : Scan.upTo (reachesBound · {}) path = path :=
          Scan.upTo_eq_self fun entry _ => by simp [reachesBound]
        rw [if_pos horder, hwalk, hall, branchResults, if_pos horder]
        exact congrArg Except.ok (scanBranch_eq query path.reverse [] hroom)
      · rw [if_neg horder, hwalk, branchResults, if_neg horder]
        exact consumeWalk_eq query _ rfl _ [] hroom

end Mcpi.Session.SessionState
