import Mathlib.Data.List.Sort
import Mathlib.Data.String.Basic
import Mcpi.Lib.Scan

/-!
# Reading rows

The parts of a `SELECT` on one table: `WHERE` is a filter, `ORDER BY` a stable sort by a
key, `LIMIT` a prefix, and a negative limit is none. Rows that were inserted in the order
of their keys come out in that order, or in its reverse.
-/

namespace Sql

variable {ρ κ : Type*}

/-- `ASC` or `DESC`. -/
inductive Direction where
  | asc
  | desc
  deriving DecidableEq

/-- `LIMIT n` -/
def limit (n : Option Int) (rows : List ρ) : List ρ :=
  match n with
  | none => rows
  | some n => if n < 0 then rows else rows.take n.toNat

section Order

variable [LinearOrder κ]

/-- `ORDER BY key` -/
def orderBy (key : ρ → κ) (direction : Direction) (rows : List ρ) : List ρ :=
  match direction with
  | .asc => rows.insertionSort fun a b => key a ≤ key b
  | .desc => rows.insertionSort fun a b => key b ≤ key a

/-- `SELECT … WHERE … ORDER BY key LIMIT n` -/
def select (rows : List ρ) (condition : ρ → Bool) (key : ρ → κ) (direction : Direction) (n : Option Int) : List ρ :=
  limit n (orderBy key direction (rows.filter condition))

variable {key : ρ → κ} {rows : List ρ}

theorem mem_orderBy {direction : Direction} {row : ρ} : row ∈ orderBy key direction rows ↔ row ∈ rows := by
  cases direction <;> exact List.mem_insertionSort _

theorem perm_orderBy (key : ρ → κ) (direction : Direction) (rows : List ρ) :
    (orderBy key direction rows).Perm rows := by
  cases direction <;> exact List.perm_insertionSort _ _

theorem limit_subset (n : Option Int) (rows : List ρ) : limit n rows ⊆ rows := by
  unfold limit
  split
  · exact List.Subset.refl _
  · split
    · exact List.Subset.refl _
    · exact List.take_subset _ _

theorem limit_map {σ : Type*} (f : ρ → σ) (n : Option Int) (rows : List ρ) :
    (limit n rows).map f = limit n (rows.map f) := by
  unfold limit
  split
  · rfl
  · split
    · rfl
    · exact List.map_take

theorem limit_prefix (n : Option Int) (rows : List ρ) : limit n rows <+: rows := by
  unfold limit
  split
  · exact List.prefix_refl _
  · split
    · exact List.prefix_refl _
    · exact List.take_prefix _ _

@[simp] theorem limit_none (rows : List ρ) : limit none rows = rows := rfl

theorem limit_one_eq_nil : limit (some 1) rows = [] ↔ rows = [] := by
  simp [limit]

/-- Rows in the order of their keys. -/
def Ascending (key : ρ → κ) (rows : List ρ) : Prop := rows.Pairwise fun a b => key a < key b

theorem Ascending.filter (h : Ascending key rows) (condition : ρ → Bool) : Ascending key (rows.filter condition) :=
  List.Pairwise.filter condition h

theorem Ascending.orderBy_asc (h : Ascending key rows) : orderBy key .asc rows = rows :=
  List.Pairwise.insertionSort_eq (h.imp fun hab => le_of_lt hab)

/-- Sorting does not depend on the order the rows are in. -/
theorem Ascending.orderBy_perm {rows rows' : List ρ} (h : Ascending key rows)
    (hperm : rows'.Perm rows) : orderBy key .asc rows' = rows := by
  have hsorted : (orderBy key .asc rows').Pairwise fun a b => key a ≤ key b :=
    List.pairwise_insertionSort (fun a b => key a ≤ key b) rows'
  have hp : (orderBy key .asc rows').Perm rows := (perm_orderBy key .asc rows').trans hperm
  refine hp.eq_of_pairwise (fun a b ha hb hab hba => ?_) hsorted (h.imp fun hab => le_of_lt hab)
  -- two rows with one key are the same row
  have heq : key a = key b := le_antisymm hab hba
  have ha' := hp.subset ha
  by_contra hne
  obtain ⟨i, hi, rfl⟩ := List.getElem_of_mem ha'
  obtain ⟨j, hj, rfl⟩ := List.getElem_of_mem hb
  rcases Nat.lt_trichotomy i j with hij | hij | hij
  · exact absurd heq (ne_of_lt (List.pairwise_iff_getElem.mp h i j hi hj hij))
  · exact hne (by simp only [hij])
  · exact absurd heq (ne_of_gt (List.pairwise_iff_getElem.mp h j i hj hi hij))

theorem Ascending.orderBy_desc (h : Ascending key rows) : orderBy key .desc rows = rows.reverse := by
  -- descending is ascending in the dual order
  have hdual : Ascending (fun r => OrderDual.toDual (key r)) rows.reverse := by
    rw [Ascending, List.pairwise_reverse]
    exact h
  exact hdual.orderBy_perm (List.reverse_perm rows).symm

/-! ## Bounded by a key -/

/-- Scanning rows up to the first stop is comparing them with the key of that stop, or with
anything behind them if none stops. -/
theorem Ascending.upTo_eq (h : Ascending key rows) {stop : ρ → Bool}
    {bound : κ} (hle : ∀ r ∈ rows, stop r → bound ≤ key r)
    (hat : (∃ r ∈ rows, stop r ∧ key r = bound) ∨ ∀ r ∈ rows, key r ≤ bound) :
    Scan.upTo stop rows = rows.filter fun r => key r ≤ bound := by
  induction rows with
  | nil => rfl
  | cons row rows ih =>
    have hrows : ∀ r ∈ rows, key row < key r := fun r hr => List.rel_of_pairwise_cons h hr
    rw [Scan.upTo]
    by_cases hstop : stop row
    · -- the first row is the bound, and nothing after it is below
      have heq : key row = bound := by
        refine le_antisymm ?_ (hle row (by simp) hstop)
        rcases hat with ⟨r, hr, -, rfl⟩ | hall
        · rcases List.mem_cons.mp hr with rfl | hr
          · exact le_refl _
          · exact le_of_lt (hrows r hr)
        · exact hall row (by simp)
      have hnone : rows.filter (fun r => key r ≤ bound) = [] := by
        rw [List.filter_eq_nil_iff]
        intro r hr
        simpa [← heq] using hrows r hr
      rw [if_pos hstop, List.filter_cons_of_pos (by simp [heq]), hnone]
    · have hbelow : key row ≤ bound := by
        rcases hat with ⟨r, hr, hs, rfl⟩ | hall
        · rcases List.mem_cons.mp hr with rfl | hr
          · exact absurd hs hstop
          · exact le_of_lt (hrows r hr)
        · exact hall row (by simp)
      rw [if_neg hstop, List.filter_cons_of_pos (by simpa using hbelow)]
      refine congrArg (row :: ·) (ih h.of_cons (fun r hr => hle r (by simp [hr])) ?_)
      rcases hat with ⟨r, hr, hs, hb⟩ | hall
      · rcases List.mem_cons.mp hr with rfl | hr
        · exact absurd hs hstop
        · exact Or.inl ⟨r, hr, hs, hb⟩
      · exact Or.inr fun r hr => hall r (by simp [hr])

theorem Ascending.upTo_reverse_eq (h : Ascending key rows)
    {stop : ρ → Bool} {bound : κ} (hle : ∀ r ∈ rows, stop r → key r ≤ bound)
    (hat : (∃ r ∈ rows, stop r ∧ key r = bound) ∨ ∀ r ∈ rows, bound ≤ key r) :
    Scan.upTo stop rows.reverse = rows.reverse.filter fun r => bound ≤ key r := by
  have hdual : Ascending (fun r => OrderDual.toDual (key r)) rows.reverse := by
    rw [Ascending, List.pairwise_reverse]
    exact h
  refine @Ascending.upTo_eq ρ κᵒᵈ _ _ _ hdual stop (OrderDual.toDual bound) ?_ ?_
  · exact fun r hr => hle r (List.mem_reverse.mp hr)
  · rcases hat with ⟨r, hr, hs, hb⟩ | hall
    · exact Or.inl ⟨r, List.mem_reverse.mpr hr, hs, hb⟩
    · exact Or.inr fun r hr => hall r (List.mem_reverse.mp hr)

end Order

section Boundary

variable {key : ρ → ℕ} {rows : List ρ} {stop : ρ → Bool}

/-- The bound of an ascending scan is the least key of a stop. -/
theorem Ascending.upTo_min (h : Ascending key rows) {default : ℕ} (hdefault : ∀ r ∈ rows, key r ≤ default) :
    Scan.upTo stop rows = rows.filter fun r => key r ≤ ((rows.filter stop).map key).min?.getD default := by
  cases hmin : ((rows.filter stop).map key).min? with
  | none =>
    rw [List.min?_eq_none_iff, List.map_eq_nil_iff, List.filter_eq_nil_iff] at hmin
    exact h.upTo_eq (fun r hr hs => absurd hs (hmin r hr)) (Or.inr hdefault)
  | some bound =>
    obtain ⟨hmem, hle⟩ := List.min?_eq_some_iff.mp hmin
    obtain ⟨r, hr, rfl⟩ := List.mem_map.mp hmem
    obtain ⟨hr, hs⟩ := List.mem_filter.mp hr
    refine h.upTo_eq (fun r' hr' hs' => hle _ ?_) (Or.inl ⟨r, hr, hs, rfl⟩)
    exact List.mem_map_of_mem (List.mem_filter.mpr ⟨hr', hs'⟩)

/-- The bound of a descending scan is the greatest key of a stop. -/
theorem Ascending.upTo_max (h : Ascending key rows) :
    Scan.upTo stop rows.reverse = rows.reverse.filter fun r => ((rows.filter stop).map key).max?.getD 0 ≤ key r := by
  cases hmax : ((rows.filter stop).map key).max? with
  | none =>
    rw [List.max?_eq_none_iff, List.map_eq_nil_iff, List.filter_eq_nil_iff] at hmax
    exact h.upTo_reverse_eq (fun r hr hs => absurd hs (hmax r hr)) (Or.inr fun r _ => Nat.zero_le _)
  | some bound =>
    obtain ⟨hmem, hle⟩ := List.max?_eq_some_iff.mp hmax
    obtain ⟨r, hr, rfl⟩ := List.mem_map.mp hmem
    obtain ⟨hr, hs⟩ := List.mem_filter.mp hr
    refine h.upTo_reverse_eq (fun r' hr' hs' => hle _ ?_) (Or.inl ⟨r, hr, hs, rfl⟩)
    exact List.mem_map_of_mem (List.mem_filter.mpr ⟨hr', hs'⟩)

end Boundary

end Sql
