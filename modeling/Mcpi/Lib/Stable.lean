import Mathlib.Data.List.Sort

/-!
# A stable sort by a number

`[...values].sort((left, right) => left.key - right.key)`. ECMAScript's sort is stable, so
dropping elements before or after sorting is the same, and an element behind all others
stays last.
-/

namespace Stable

variable {α : Type*} (key : α → ℕ)

/-- The values in the order of their keys. -/
def sort (values : List α) : List α := values.insertionSort fun a b => key a ≤ key b

variable {key} {values : List α}

theorem perm_sort (values : List α) : (sort key values).Perm values :=
  List.perm_insertionSort _ _

@[simp] theorem mem_sort {a : α} : a ∈ sort key values ↔ a ∈ values :=
  (perm_sort values).mem_iff

theorem sort_sorted (key : α → ℕ) (values : List α) : (sort key values).Pairwise fun a b => key a ≤ key b :=
  List.pairwise_insertionSort (fun a b => key a ≤ key b) values

private theorem insert_of_le {a b : α} {l : List α} (h : key a ≤ key b) :
    (b :: l).orderedInsert (fun a b => key a ≤ key b) a = a :: b :: l :=
  if_pos h

private theorem insert_of_not_le {a b : α} {l : List α} (h : ¬ key a ≤ key b) :
    (b :: l).orderedInsert (fun a b => key a ≤ key b) a = b :: l.orderedInsert (fun a b => key a ≤ key b) a :=
  if_neg h

/-- Inserting into a sorted list and dropping elements commute. -/
private theorem filter_orderedInsert (condition : α → Bool) (a : α) :
    ∀ {l : List α}, l.Pairwise (fun a b => key a ≤ key b) →
      (l.orderedInsert (fun a b => key a ≤ key b) a).filter condition =
        if condition a then
          (l.filter condition).orderedInsert (fun a b => key a ≤ key b) a
        else l.filter condition := by
  intro l
  induction l with
  | nil => intro _; by_cases ha : condition a <;> simp [ha]
  | cons b l ih =>
    intro hl
    have hb : ∀ c ∈ l, key b ≤ key c := fun c hc => List.rel_of_pairwise_cons hl hc
    by_cases hab : key a ≤ key b
    · rw [insert_of_le hab]
      by_cases ha : condition a
      · -- whatever is left of the list starts at `b` or behind it
        rw [List.filter_cons_of_pos ha, if_pos ha]
        cases hf : (b :: l).filter condition with
        | nil => rfl
        | cons c rest =>
          have hc : c ∈ b :: l := (List.mem_filter.mp (hf ▸ List.mem_cons_self)).1
          have hac : key a ≤ key c := by
            rcases List.mem_cons.mp hc with rfl | hc
            · exact hab
            · exact le_trans hab (hb c hc)
          exact (insert_of_le hac).symm
      · rw [List.filter_cons_of_neg ha, if_neg ha]
    · rw [insert_of_not_le hab]
      by_cases hcb : condition b
      · rw [List.filter_cons_of_pos hcb, ih hl.of_cons, List.filter_cons_of_pos hcb]
        by_cases ha : condition a
        · rw [if_pos ha, if_pos ha, insert_of_not_le hab]
        · rw [if_neg ha, if_neg ha]
      · rw [List.filter_cons_of_neg hcb, ih hl.of_cons, List.filter_cons_of_neg hcb]

theorem sort_filter (condition : α → Bool) (values : List α) :
    sort key (values.filter condition) = (sort key values).filter condition := by
  induction values with
  | nil => rfl
  | cons a values ih =>
    have hinsert := filter_orderedInsert condition a (sort_sorted key values)
    show _ = ((sort key values).orderedInsert _ a).filter condition
    rw [hinsert]
    by_cases ha : condition a
    · rw [List.filter_cons_of_pos ha, if_pos ha, ← ih]
      rfl
    · rw [List.filter_cons_of_neg ha, if_neg ha, ih]

/-- What lies behind everything is sorted behind everything. -/
theorem sort_concat {last : α} (h : ∀ a ∈ values, key a ≤ key last) :
    sort key (values ++ [last]) = sort key values ++ [last] := by
  induction values with
  | nil => rfl
  | cons a values ih =>
    have hvalues : ∀ b ∈ values, key b ≤ key last := fun b hb => h b (List.mem_cons_of_mem _ hb)
    show (sort key (values ++ [last])).orderedInsert _ a = (sort key values).orderedInsert _ a ++ _
    rw [ih hvalues]
    generalize sort key values = sorted
    induction sorted with
    | nil => exact insert_of_le (h a List.mem_cons_self)
    | cons b sorted ih' =>
      by_cases hab : key a ≤ key b
      · rw [List.cons_append, insert_of_le hab, insert_of_le hab]
        rfl
      · rw [List.cons_append, insert_of_not_le hab, insert_of_not_le hab, ih']
        rfl

theorem sort_upTo (key : α → ℕ) (bound : ℕ) (values : List α) :
    ∃ rest, sort key values = sort key (values.filter fun a => key a ≤ bound) ++ rest ∧ ∀ a ∈ rest, bound < key a := by
  rw [sort_filter]
  have hsorted := sort_sorted key values
  generalize sort key values = sorted at hsorted
  induction sorted with
  | nil => exact ⟨[], rfl, fun a ha => absurd ha List.not_mem_nil⟩
  | cons b sorted ih =>
    by_cases hb : key b ≤ bound
    · obtain ⟨rest, heq, hrest⟩ := ih hsorted.of_cons
      refine ⟨rest, ?_, hrest⟩
      rw [List.filter_cons_of_pos (by simpa using hb), List.cons_append, ← heq]
    · have hall : ∀ a ∈ b :: sorted, bound < key a := by
        intro a ha
        rcases List.mem_cons.mp ha with rfl | ha
        · exact not_le.mp hb
        · exact lt_of_lt_of_le (not_le.mp hb) (List.rel_of_pairwise_cons hsorted ha)
      refine ⟨b :: sorted, ?_, hall⟩
      rw [List.filter_eq_nil_iff.mpr fun a ha => by simpa using hall a ha]
      rfl

end Stable
