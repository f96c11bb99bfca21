import Mathlib.Data.List.Basic

/-!
# Updates of lists

What is in a list after an item has been set or added, and lists that are related position by position.
-/

namespace Updates

variable {α : Type*} {p : α → Prop} {items items' : List α} {i j : ℕ} {x y a : α}

theorem forall_mem_set (h : ∀ x ∈ items, p x) (ha : p a) : ∀ x ∈ items.set i a, p x := by
  intro x hx
  rcases List.mem_or_eq_of_mem_set hx with hx | rfl
  · exact h x hx
  · exact ha

theorem forall_mem_concat (h : ∀ x ∈ items, p x) (ha : p a) : ∀ x ∈ items ++ [a], p x :=
  List.forall_mem_append.mpr ⟨h, List.forall_mem_singleton.mpr ha⟩

/-- What is at a position is the new item or was there. -/
theorem set_cases (h : (items.set i a)[j]? = some y) : j = i ∧ y = a ∨ j ≠ i ∧ items[j]? = some y := by
  by_cases hj : i = j
  · subst hj
    have hlt := (List.getElem?_eq_some_iff.mp h).1
    rw [List.length_set] at hlt
    rw [List.getElem?_set_self hlt] at h
    exact .inl ⟨rfl, (Option.some.inj h).symm⟩
  · rw [List.getElem?_set_ne hj] at h
    exact .inr ⟨fun heq => hj heq.symm, h⟩

theorem concat_cases (h : (items ++ [a])[j]? = some y) : items[j]? = some y ∨ j = items.length ∧ y = a := by
  by_cases hj : j < items.length
  · exact .inl ((List.getElem?_append_left hj).symm.trans h)
  · have hlt := (List.getElem?_eq_some_iff.mp h).1
    rw [List.length_append, List.length_singleton] at hlt
    obtain rfl : j = items.length := by omega
    exact .inr ⟨rfl, (Option.some.inj (List.getElem?_concat_length.symm.trans h)).symm⟩

theorem concat_of_some (h : items[j]? = some y) : (items ++ [a])[j]? = some y :=
  (List.getElem?_append_left (List.getElem?_eq_some_iff.mp h).1).trans h

/-- Lists of one length, whose items are related -/
structure Related (R : ℕ → α → α → Prop) (items items' : List α) : Prop where
  before : ∀ (j : ℕ) (y : α), items'[j]? = some y → ∃ x, items[j]? = some x ∧ R j x y
  after : ∀ (j : ℕ) (x : α), items[j]? = some x → ∃ y, items'[j]? = some y ∧ R j x y

variable {R : ℕ → α → α → Prop}

theorem related_refl (hR : ∀ j x, R j x x) (items : List α) : Related R items items :=
  ⟨fun j y hy => ⟨y, hy, hR j y⟩, fun j x hx => ⟨x, hx, hR j x⟩⟩

theorem related_set (hR : ∀ j x, R j x x) (hx : items[i]? = some x) (ha : R i x a) :
    Related R items (items.set i a) := by
  refine ⟨fun j y hy => ?_, fun j y hy => ?_⟩
  · rcases set_cases hy with ⟨rfl, rfl⟩ | ⟨-, hy⟩
    · exact ⟨x, hx, ha⟩
    · exact ⟨y, hy, hR j y⟩
  · by_cases hj : i = j
    · subst hj
      obtain rfl := Option.some.inj (hx.symm.trans hy)
      exact ⟨a, List.getElem?_set_self (List.getElem?_eq_some_iff.mp hx).1, ha⟩
    · exact ⟨y, (List.getElem?_set_ne hj).trans hy, hR j y⟩

theorem related_mapIdx {f : ℕ → α → α} (hf : ∀ j x, items[j]? = some x → R j x (f j x)) :
    Related R items (items.mapIdx f) := by
  refine ⟨fun j y hy => ?_, fun j x hx => ⟨f j x, ?_, hf j x hx⟩⟩
  · rw [List.getElem?_mapIdx, Option.map_eq_some_iff] at hy
    obtain ⟨x, hx, rfl⟩ := hy
    exact ⟨x, hx, hf j x hx⟩
  · rw [List.getElem?_mapIdx, hx]
    rfl

theorem Related.mem_before (h : Related R items items') (hy : y ∈ items') : ∃ x ∈ items, ∃ j, R j x y := by
  obtain ⟨j, hj⟩ := List.mem_iff_getElem?.mp hy
  obtain ⟨x, hx, hR⟩ := h.before j y hj
  exact ⟨x, List.mem_of_getElem? hx, j, hR⟩

end Updates
