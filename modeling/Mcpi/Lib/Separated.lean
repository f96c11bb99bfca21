import Mathlib.Data.List.Basic

/-!
# Lists cut at a separator

A list as the parts between the separators in it, and as the pieces that each end with one.
-/

namespace Separated

variable {α : Type} [DecidableEq α]

/-- The pieces that end with a separator, and what comes after the last of them. -/
def pieces (sep : α) : List α → List (List α)
  | [] => []
  | a :: as =>
    if a = sep then [a] :: pieces sep as
    else
      match pieces sep as with
      | [] => [[a]]
      | piece :: rest => (a :: piece) :: rest

variable {sep : α} {text part : List α}

variable {parts : List (List α)}

omit [DecidableEq α] in
theorem join_cons (h : parts ≠ []) (part : List α) :
    List.intercalate [sep] (part :: parts) = part ++ sep :: List.intercalate [sep] parts := by
  rw [List.intercalate_cons_of_ne_nil h, List.append_assoc, List.singleton_append]

omit [DecidableEq α] in
theorem join_concat (h : parts ≠ []) (part : List α) : List.intercalate [sep] (parts ++ [part]) =
    List.intercalate [sep] parts ++ sep :: part := by
  induction parts with
  | nil => exact absurd rfl h
  | cons first parts ih =>
    by_cases hnil : parts = []
    · simp [hnil]
    · rw [List.cons_append, join_cons (by simp), ih hnil, join_cons hnil, List.append_assoc, List.cons_append]

/-- A list is one part, or a part with a separator and more after it. -/
theorem cases_split (sep : α) (text : List α) : sep ∉ text ∨ ∃ part rest, text = part ++ sep :: rest ∧ sep ∉ part := by
  induction text with
  | nil => exact .inl List.not_mem_nil
  | cons a as ih =>
    by_cases ha : a = sep
    · exact .inr ⟨[], as, by rw [ha, List.nil_append], List.not_mem_nil⟩
    · rcases ih with hnone | ⟨part, rest, rfl, hpart⟩
      · refine .inl fun hmem => ?_
        rcases List.mem_cons.mp hmem with heq | hin
        · exact ha heq.symm
        · exact hnone hin
      · refine .inr ⟨a :: part, rest, rfl, fun hmem => ?_⟩
        rcases List.mem_cons.mp hmem with heq | hin
        · exact ha heq.symm
        · exact hpart hin

/-- A property of lists that goes from what is after a separator to the whole. -/
theorem induct {motive : List α → Prop} (sep : α) (last : ∀ part, sep ∉ part → motive part)
    (more : ∀ part rest, sep ∉ part → motive rest → motive (part ++ sep :: rest)) (text : List α) :
    motive text := by
  induction hn : text.length using Nat.strongRecOn generalizing text with
  | ind n ih =>
    rcases cases_split sep text with hnone | ⟨part, rest, rfl, hpart⟩
    · exact last text hnone
    · apply more part rest hpart
      apply ih rest.length _ rest rfl
      rw [← hn, List.length_append, List.length_cons]
      omega

theorem not_mem_split (sep : α) (text : List α) : ∀ part ∈ List.splitOn sep text, sep ∉ part := by
  induction text using induct sep with
  | last part hpart =>
    intro other hother
    rw [List.splitOn_eq_singleton hpart, List.mem_singleton] at hother
    rw [hother]
    exact hpart
  | more part rest hpart ih =>
    intro other hother
    rw [List.splitOn_append_cons_self_of_not_mem hpart] at hother
    rcases List.mem_cons.mp hother with rfl | hrest
    · exact hpart
    · exact ih other hrest

theorem length_split (sep : α) (text : List α) : (List.splitOn sep text).length = text.count sep + 1 := by
  induction text using induct sep with
  | last part hpart => rw [List.splitOn_eq_singleton hpart, List.count_eq_zero.mpr hpart, List.length_singleton]
  | more part rest hpart ih =>
    rw [List.splitOn_append_cons_self_of_not_mem hpart, List.length_cons, ih, List.count_append, List.count_cons_self,
      List.count_eq_zero.mpr hpart, Nat.zero_add]

/-- The parts of two lists one after the other: the last part of one goes on with the first of the other. -/
theorem split_append_parts (sep : α) (a b : List α) : ∃ parts last first more,
    List.splitOn sep a = parts ++ [last] ∧ List.splitOn sep b = first :: more ∧
      List.splitOn sep (a ++ b) = parts ++ (last ++ first) :: more := by
  obtain ⟨first, more, hb⟩ := List.exists_cons_of_ne_nil (List.splitOn_ne_nil sep b)
  induction a using induct sep with
  | last part hpart =>
    refine ⟨[], part, first, more, List.splitOn_eq_singleton hpart, hb, ?_⟩
    have hall := not_mem_split sep b
    have hjoin : List.intercalate [sep] (List.splitOn sep b) = b := List.intercalate_splitOn sep
    rw [hb] at hall hjoin
    have hwhole : List.intercalate [sep] ((part ++ first) :: more) = part ++ b := by
      rw [← hjoin]
      cases more <;> simp
    rw [← hwhole, List.nil_append]
    refine List.splitOn_intercalate sep (List.forall_mem_cons.mpr ⟨fun h => ?_, fun p hp => ?_⟩) (List.cons_ne_nil _ _)
    · exact (List.mem_append.mp h).elim hpart (hall first List.mem_cons_self)
    · exact hall p (List.mem_cons_of_mem _ hp)
  | more part rest hpart ih =>
    obtain ⟨parts, last, first', more', hrest, hb', hwhole⟩ := ih
    refine ⟨part :: parts, last, first', more', ?_, hb', ?_⟩
    · rw [List.splitOn_append_cons_self_of_not_mem hpart, hrest, List.cons_append]
    · rw [List.append_assoc, List.cons_append, List.splitOn_append_cons_self_of_not_mem hpart, hwhole, List.cons_append]

omit [DecidableEq α] in
theorem suffix_join_concat (parts : List (List α)) (part : List α) :
    part <:+ List.intercalate [sep] (parts ++ [part]) := by
  by_cases h : parts = []
  · simp [h]
  · rw [join_concat h]
    exact ⟨List.intercalate [sep] parts ++ [sep], by rw [List.append_assoc, List.singleton_append]⟩

omit [DecidableEq α] in
theorem prefix_join_cons (part : List α) (parts : List (List α)) : part <+: List.intercalate [sep] (part :: parts) := by
  cases parts with
  | nil => simp
  | cons next parts => exact ⟨_, (join_cons (List.cons_ne_nil _ _) part).symm⟩

theorem pieces_part (h : sep ∉ part) : pieces sep part = if part = [] then [] else [part] := by
  induction part with
  | nil => rfl
  | cons a part ih =>
    rw [List.mem_cons, not_or] at h
    rw [pieces, if_neg (Ne.symm h.1), ih h.2, if_neg (List.cons_ne_nil _ _)]
    by_cases hnil : part = []
    · rw [if_pos hnil, hnil]
    · rw [if_neg hnil]

theorem pieces_append (h : sep ∉ part) (rest : List α) :
    pieces sep (part ++ sep :: rest) = (part ++ [sep]) :: pieces sep rest := by
  induction part with
  | nil => rw [List.nil_append, pieces, if_pos rfl, List.nil_append]
  | cons a part ih =>
    rw [List.mem_cons, not_or] at h
    rw [List.cons_append, pieces, if_neg (Ne.symm h.1), ih h.2]
    rfl

@[simp] theorem flatten_pieces (sep : α) (text : List α) : (pieces sep text).flatten = text := by
  induction text using induct sep with
  | last part hpart =>
    rw [pieces_part hpart]
    split
    next hnil => rw [hnil, List.flatten_nil]
    · rw [List.flatten_singleton]
  | more part rest hpart ih =>
    rw [pieces_append hpart, List.flatten_cons, ih, List.append_assoc, List.singleton_append]

/-- There is a piece for every separator, and one more where something comes after the last. -/
theorem length_pieces (sep : α) (text : List α) : (pieces sep text).length =
    (List.splitOn sep text).length - 1 + if (List.splitOn sep text).getLastD [] = [] then 0 else 1 := by
  induction text using induct sep with
  | last part hpart =>
    rw [pieces_part hpart, List.splitOn_eq_singleton hpart, List.getLastD_cons, List.getLastD_nil]
    split <;> rfl
  | more part rest hpart ih =>
    have hpos := List.length_pos_iff.mpr (List.splitOn_ne_nil sep rest)
    have hlast : (List.splitOn sep (part ++ sep :: rest)).getLastD [] = (List.splitOn sep rest).getLastD [] := by
      rw [List.splitOn_append_cons_self_of_not_mem hpart, List.getLastD_cons]
      cases hrest : List.splitOn sep rest with
      | nil => exact absurd hrest (List.splitOn_ne_nil sep rest)
      | cons next parts => rw [List.getLastD_cons, List.getLastD_cons]
    rw [hlast, pieces_append hpart, List.splitOn_append_cons_self_of_not_mem hpart, List.length_cons,
      List.length_cons, ih]
    omega

end Separated
