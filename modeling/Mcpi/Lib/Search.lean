import Mathlib.Data.List.Infix
import Mathlib.Data.Nat.Find

/-!
# The first occurrence of a pattern

Where a pattern first occurs in a list, what a longer list says about it, and what comes before a place
where it does not begin.
-/

namespace Search

variable {α : Type} [DecidableEq α]

/-- The first index where the pattern begins. -/
def indexOf (pattern : List α) : List α → Option Nat
  | [] => if pattern = [] then some 0 else none
  | a :: as => if pattern <+: a :: as then some 0 else (indexOf pattern as).map (· + 1)

variable {pattern text text' : List α} {i j : Nat}

theorem indexOf_eq_some : indexOf pattern text = some i ↔
    pattern <+: text.drop i ∧ i ≤ text.length ∧ ∀ j < i, ¬ pattern <+: text.drop j := by
  induction text generalizing i with
  | nil =>
    unfold indexOf
    constructor
    · intro h
      obtain ⟨hnil, ⟨⟩⟩ := Option.ite_none_right_eq_some.mp h
      subst hnil
      exact ⟨List.nil_prefix, Nat.le_refl _, nofun⟩
    · rintro ⟨hbegins, hle, -⟩
      rw [List.drop_nil, List.prefix_nil] at hbegins
      rw [if_pos hbegins, Nat.le_zero.mp hle]
  | cons a as ih =>
    unfold indexOf
    by_cases hat : pattern <+: a :: as
    · rw [if_pos hat]
      constructor
      · intro h
        cases h
        exact ⟨hat, Nat.zero_le _, nofun⟩
      · rintro ⟨-, -, hnone⟩
        cases i with
        | zero => rfl
        | succ i => exact absurd hat (hnone 0 (Nat.succ_pos i))
    · rw [if_neg hat, Option.map_eq_some_iff]
      constructor
      · rintro ⟨k, hk, rfl⟩
        obtain ⟨hbegins, hle, hnone⟩ := ih.mp hk
        refine ⟨hbegins, Nat.succ_le_succ hle, fun j hj => ?_⟩
        cases j with
        | zero => exact hat
        | succ j => exact hnone j (Nat.lt_of_succ_lt_succ hj)
      · rintro ⟨hbegins, hle, hnone⟩
        cases i with
        | zero => exact absurd hbegins hat
        | succ i =>
          exact ⟨i, ih.mpr ⟨hbegins, Nat.le_of_succ_le_succ hle, fun j hj => hnone (j + 1) (Nat.succ_lt_succ hj)⟩, rfl⟩

theorem indexOf_eq_none : indexOf pattern text = none ↔ ∀ j ≤ text.length, ¬ pattern <+: text.drop j := by
  constructor
  · intro h j hj hbegins
    -- the least such index would have been found
    have hex : ∃ j, j ≤ text.length ∧ pattern <+: text.drop j := ⟨j, hj, hbegins⟩
    have hfound := indexOf_eq_some.mpr ⟨(Nat.find_spec hex).2, (Nat.find_spec hex).1,
      fun k hk hat => Nat.find_min hex hk ⟨Nat.le_trans (Nat.le_of_lt hk) (Nat.find_spec hex).1, hat⟩⟩
    rw [h] at hfound
    cases hfound
  · intro h
    cases hfound : indexOf pattern text with
    | none => rfl
    | some i =>
      obtain ⟨hbegins, hle, -⟩ := indexOf_eq_some.mp hfound
      exact absurd hbegins (h i hle)

/-- The text in three parts: what comes before the pattern, the pattern, and what comes after it. -/
theorem split_of_indexOf (h : indexOf pattern text = some i) :
    text.take i ++ pattern ++ text.drop (i + pattern.length) = text := by
  obtain ⟨⟨rest, hrest⟩, -, -⟩ := indexOf_eq_some.mp h
  have hdrop : text.drop (i + pattern.length) = rest := by
    rw [← List.drop_drop, ← hrest, List.drop_left]
  rw [hdrop, List.append_assoc, hrest, List.take_append_drop]

theorem indexOf_lt (hpattern : pattern ≠ []) (h : indexOf pattern text = some i) :
    i + pattern.length ≤ text.length := by
  have hlength := congrArg List.length (split_of_indexOf h)
  have hle := (indexOf_eq_some.mp h).2.1
  rw [List.length_append, List.length_append, List.length_take, List.length_drop] at hlength
  have hpos := List.length_pos_iff.mpr hpattern
  omega

omit [DecidableEq α] in
/-- Where a pattern begins in the beginning of a text, it begins in the text. -/
theorem begins_append (h : pattern <+: text.drop j) (hj : j ≤ text.length) : pattern <+: (text ++ text').drop j := by
  rw [List.drop_append_of_le_length hj]
  exact List.IsPrefix.trans h (List.prefix_append _ _)

/-- The pattern does not begin in the first part of a text. -/
theorem indexOf_append (h : ∀ j < text.length, ¬ pattern <+: (text ++ text').drop j) :
    indexOf pattern (text ++ text') = (indexOf pattern text').map (· + text.length) := by
  induction text with
  | nil => simp
  | cons a as ih =>
    have hat : ¬ pattern <+: a :: (as ++ text') := h 0 (Nat.succ_pos _)
    have hrest := ih fun j hj => h (j + 1) (Nat.succ_lt_succ hj)
    rw [List.cons_append, indexOf, if_neg hat, hrest, Option.map_map]
    rfl

end Search
