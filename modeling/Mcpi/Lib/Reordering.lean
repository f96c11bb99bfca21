import Mcpi.Lib.OrderedMap
import Mcpi.Lib.Stable

/-!
# Lists in another order

A list with distinct keys sorts to the same list, and fills a map with the same lookups, in
whatever order its elements come.
-/

namespace Stable

variable {α : Type*} {key : α → ℕ} {values values' : List α}

theorem sort_eq_of_perm (hkeys : ∀ a ∈ values, ∀ b ∈ values, key a = key b → a = b) (hperm : values.Perm values') :
    sort key values = sort key values' := by
  refine List.Perm.eq_of_pairwise ?_ (sort_sorted key values) (sort_sorted key values') ?_
  · intro a b ha hb hab hba
    apply hkeys a (mem_sort.mp ha) b (hperm.mem_iff.mpr (mem_sort.mp hb))
    exact le_antisymm hab hba
  · exact (perm_sort values).trans (hperm.trans (perm_sort values').symm)

end Stable

namespace OrderedMap

variable {κ α : Type*} [DecidableEq κ] {key : α → κ}

/-- Where keys are distinct, the elements with one key are the same in any order. -/
theorem filter_key_perm {values values' : List α} (hkeys : (values.map key).Nodup)
    (hperm : values.Perm values') (k : κ) :
    (values.filter fun a => key a = k) = values'.filter fun a => key a = k := by
  induction hperm with
  | nil => rfl
  | cons a _ ih =>
    rw [List.map_cons, List.nodup_cons] at hkeys
    rw [List.filter_cons, List.filter_cons, ih hkeys.2]
  | swap a b values =>
    have hne : key b ≠ key a := by
      simp only [List.map_cons, List.nodup_cons, List.mem_cons, not_or] at hkeys
      exact hkeys.1.1
    by_cases ha : key a = k
    · have hb : key b ≠ k := fun hb => hne (hb.trans ha.symm)
      simp [ha, hb]
    · simp [List.filter_cons, ha]
  | trans hperm _ ih ih' =>
    rw [ih hkeys, ih' ((hperm.map key).nodup_iff.mp hkeys)]

theorem get?_ofValues_perm {values values' : List α} (hkeys : (values.map key).Nodup)
    (hperm : values.Perm values') : (ofValues key values).get? = (ofValues key values').get? := by
  funext k
  rw [get?_ofValues, get?_ofValues, filter_key_perm hkeys hperm]

/-- The elements of a second list take the place of those of a first. -/
theorem get?_ofValues_append_perm {first first' second second' : List α}
    (hfirst : (first.map key).Nodup) (hpermFirst : first.Perm first')
    (hsecond : (second.map key).Nodup) (hpermSecond : second.Perm second') :
    (ofValues key (first ++ second)).get? = (ofValues key (first' ++ second')).get? := by
  funext k
  rw [get?_ofValues, get?_ofValues, List.filter_append, List.filter_append,
    filter_key_perm hfirst hpermFirst, filter_key_perm hsecond hpermSecond]

theorem has_congr {m m' : OrderedMap κ α} (h : m.get? = m'.get?) : m.has = m'.has := by
  funext k
  rw [has, has, h]

/-- The same lookups give the same values, in some order. -/
theorem values_perm {m m' : OrderedMap κ α} (h : m.get? = m'.get?) : m.values.Perm m'.values := by
  have hnodup : ∀ m : OrderedMap κ α, m.toList.Nodup := fun m => m.nodup_keys.of_map
  apply List.Perm.map
  rw [List.perm_ext_iff_of_nodup (hnodup m) (hnodup m')]
  rintro ⟨k, a⟩
  rw [← get?_eq_some_iff, ← get?_eq_some_iff, h]

end OrderedMap
