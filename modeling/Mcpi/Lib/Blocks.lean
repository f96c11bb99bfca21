import Mcpi.Lib.Search

/-!
# Blocks that end with a pattern

A list is taken apart at the occurrences of a pattern from its beginning on. What a part of the list gives and what
is left of it with the rest gives is what the whole gives.
-/

namespace Search

variable {α : Type} [DecidableEq α]

/-- The blocks before each occurrence of the pattern, and what is left after the last. -/
def blocks (pattern text : List α) : List (List α) × List α :=
  match _h : indexOf pattern text with
  | none => ([], text)
  | some i =>
    if _hpattern : pattern = [] then ([], text)
    else
      let (more, rest) := blocks pattern (text.drop (i + pattern.length))
      (text.take i :: more, rest)
termination_by text.length
decreasing_by
  have hle := indexOf_lt (by assumption) (by assumption)
  have hpos := List.length_pos_iff.mpr (by assumption : ¬ pattern = [])
  rw [List.length_drop]
  omega

variable {pattern text more rest : List α} {i : Nat}

theorem blocks_of_none (h : indexOf pattern text = none) : blocks pattern text = ([], text) := by
  rw [blocks]
  split
  · rfl
  next heq =>
    rw [h] at heq
    cases heq

theorem blocks_of_some (hpattern : pattern ≠ []) (h : indexOf pattern text = some i) :
    blocks pattern text = (text.take i :: (blocks pattern (text.drop (i + pattern.length))).1,
      (blocks pattern (text.drop (i + pattern.length))).2) := by
  rw [blocks]
  split
  next heq =>
    rw [h] at heq
    cases heq
  next j heq =>
    rw [h] at heq
    obtain rfl : i = j := Option.some.inj heq
    rw [dif_neg hpattern]

theorem indexOf_append_some (h : indexOf pattern text = some i) (rest : List α) :
    indexOf pattern (text ++ rest) = some i := by
  obtain ⟨hbegins, hle, hnone⟩ := indexOf_eq_some.mp h
  refine indexOf_eq_some.mpr ⟨begins_append hbegins hle, by rw [List.length_append]; omega, fun j hj hat => ?_⟩
  by_cases hpattern : pattern = []
  · rw [hpattern] at hnone
    exact hnone j hj List.nil_prefix
  · have hlt := indexOf_lt hpattern h
    apply hnone j hj
    rw [List.drop_append_of_le_length (by omega)] at hat
    apply List.prefix_of_prefix_length_le hat (List.prefix_append _ _)
    rw [List.length_drop]
    omega

/-- **Streaming.** -/
theorem blocks_append (hpattern : pattern ≠ []) (text rest : List α) :
    blocks pattern (text ++ rest) = ((blocks pattern text).1 ++ (blocks pattern ((blocks pattern text).2 ++ rest)).1,
        (blocks pattern ((blocks pattern text).2 ++ rest)).2) := by
  induction hn : text.length using Nat.strongRecOn generalizing text with
  | ind n ih =>
    cases h : indexOf pattern text with
    | none => rw [blocks_of_none h, List.nil_append]
    | some i =>
      have hle := indexOf_lt hpattern h
      have hpos := List.length_pos_iff.mpr hpattern
      rw [blocks_of_some hpattern h, blocks_of_some hpattern (indexOf_append_some h rest),
        List.drop_append_of_le_length hle, List.take_append_of_le_length (by omega),
        ih _ (by rw [List.length_drop]; omega) _ rfl]
      rfl

theorem blocks_rest (hpattern : pattern ≠ []) (text : List α) : indexOf pattern (blocks pattern text).2 = none := by
  induction hn : text.length using Nat.strongRecOn generalizing text with
  | ind n ih =>
    cases h : indexOf pattern text with
    | none =>
      rw [blocks_of_none h]
      exact h
    | some i =>
      have hle := indexOf_lt hpattern h
      have hpos := List.length_pos_iff.mpr hpattern
      rw [blocks_of_some hpattern h]
      exact ih _ (by rw [List.length_drop]; omega) _ rfl

theorem blocks_rest_suffix (pattern text : List α) : (blocks pattern text).2 <:+ text := by
  induction hn : text.length using Nat.strongRecOn generalizing text with
  | ind n ih =>
    cases h : indexOf pattern text with
    | none => rw [blocks_of_none h]
    | some i =>
      by_cases hpattern : pattern = []
      · rw [blocks]
        split
        · exact List.suffix_refl _
        · rw [dif_pos hpattern]
      · have hle := indexOf_lt hpattern h
        have hpos := List.length_pos_iff.mpr hpattern
        rw [blocks_of_some hpattern h]
        exact (ih _ (by rw [List.length_drop]; omega) _ rfl).trans (List.drop_suffix _ _)

end Search
