import Mathlib.Data.List.Basic

/-!
# Lines of a text

Texts that are a sequence of lines each ended by a newline, and the complete lines of any text. A reader that
gets a text in pieces takes the complete lines of what it has and keeps what is behind the last newline for the
next piece.
-/

namespace Lines

/-- The lines, each ended by a newline. -/
def terminated (lines : List (List Char)) : List Char := lines.flatMap (· ++ ['\n'])

@[simp] theorem terminated_nil : terminated [] = [] := rfl

@[simp] theorem terminated_cons (line : List Char) (lines : List (List Char)) :
    terminated (line :: lines) = line ++ '\n' :: terminated lines := by
  simp [terminated]

@[simp] theorem terminated_append (xs ys : List (List Char)) :
    terminated (xs ++ ys) = terminated xs ++ terminated ys := List.flatMap_append

variable {lines : List (List Char)}

/-- Splitting gives back the lines and what follows the last newline. -/
theorem split_terminated (h : ∀ line ∈ lines, '\n' ∉ line)
    (tail : List Char) (htail : '\n' ∉ tail) : List.splitOn '\n' (terminated lines ++ tail) = lines ++ [tail] := by
  induction lines with
  | nil => exact List.splitOn_eq_singleton htail
  | cons line lines ih =>
    rw [terminated_cons, List.append_assoc, List.cons_append,
      List.splitOn_append_cons_self_of_not_mem (h line (by simp)), ih fun l hl => h l (by simp [hl]), List.cons_append]

theorem join_newline (h : lines ≠ []) : List.intercalate ['\n'] lines ++ ['\n'] = terminated lines := by
  induction lines with
  | nil => exact absurd rfl h
  | cons line lines ih =>
    cases lines with
    | nil => simp
    | cons l lines => simp [ih (List.cons_ne_nil l lines)]

theorem join_concat (lines : List (List Char)) (last : List Char) :
    List.intercalate ['\n'] (lines ++ [last]) = terminated lines ++ last := by
  have h := join_newline (List.append_ne_nil_of_right_ne_nil lines (List.cons_ne_nil last []))
  rw [terminated_append, terminated_cons, terminated_nil, ← List.append_assoc] at h
  exact List.append_inj_left' h rfl

theorem getLast?_terminated (h : lines ≠ []) : (terminated lines).getLast? = some '\n' := by
  rw [← join_newline h, List.getLast?_concat]

/-! ## Complete lines -/

/-- The complete lines, and what is behind the last newline. -/
def complete : List Char → List (List Char) × List Char
  | [] => ([], [])
  | c :: text =>
    if c = '\n' then ([] :: (complete text).1, (complete text).2)
    else
      match complete text with
      | ([], rest) => ([], c :: rest)
      | (line :: lines, rest) => ((c :: line) :: lines, rest)

variable {a b : List Char}

theorem complete_cons (c : Char) (text : List Char) : complete (c :: text) =
    if c = '\n' then ([] :: (complete text).1, (complete text).2)
    else
      match complete text with
      | ([], rest) => ([], c :: rest)
      | (line :: lines, rest) => ((c :: line) :: lines, rest) := rfl

theorem split_eq_complete (text : List Char) :
    List.splitOn '\n' text = (complete text).1 ++ [(complete text).2] := by
  induction text with
  | nil => rfl
  | cons c text ih =>
    rw [List.splitOn_cons_eq_if_modifyHead, complete_cons, ih]
    simp only [beq_iff_eq]
    split
    · rfl
    · obtain ⟨lines, rest⟩ := complete text
      cases lines <;> rfl

theorem complete_of_not_mem (h : '\n' ∉ a) : complete a = ([], a) := by
  induction a with
  | nil => rfl
  | cons c a ih =>
    rw [List.mem_cons, not_or] at h
    rw [complete_cons, if_neg (Ne.symm h.1), ih h.2]

theorem not_mem_complete (text : List Char) : '\n' ∉ (complete text).2 := by
  induction text with
  | nil => exact List.not_mem_nil
  | cons c text ih =>
    rw [complete_cons]
    split
    · exact ih
    next hc =>
      generalize complete text = read at ih
      obtain ⟨lines, rest⟩ := read
      cases lines with
      | nil => exact fun h => (List.mem_cons.mp h).elim (fun h => hc h.symm) ih
      | cons line lines => exact ih

theorem complete_append (a b : List Char) :
    complete (a ++ b) = ((complete a).1 ++ (complete ((complete a).2 ++ b)).1, (complete ((complete a).2 ++ b)).2) := by
  induction a with
  | nil => rfl
  | cons c a ih =>
    rw [List.cons_append, complete_cons, complete_cons, ih]
    split
    next => rfl
    next hc =>
      obtain ⟨lines, rest⟩ := complete a
      cases lines with
      | cons line lines => rfl
      | nil =>
        show _ = (complete (c :: (rest ++ b)))
        rw [complete_cons, if_neg hc]
        rfl

theorem split_append_complete (a b : List Char) :
    List.splitOn '\n' (a ++ b) = (complete a).1 ++ List.splitOn '\n' ((complete a).2 ++ b) := by
  rw [split_eq_complete, complete_append, split_eq_complete, List.append_assoc]

theorem complete_append_of_not_mem (h : '\n' ∉ b) : complete (a ++ b) = ((complete a).1, (complete a).2 ++ b) := by
  have hrest : '\n' ∉ (complete a).2 ++ b := fun hmem =>
    (List.mem_append.mp hmem).elim (not_mem_complete a) h
  rw [complete_append, complete_of_not_mem hrest, List.append_nil]

/-- What comes before the first newline is prefixed to the first line. -/
def prefixFirst (a : List Char) : List (List Char) × List Char → List (List Char) × List Char
  | ([], rest) => ([], a ++ rest)
  | (line :: lines, rest) => ((a ++ line) :: lines, rest)

theorem complete_append_left (h : '\n' ∉ a) (b : List Char) : complete (a ++ b) = prefixFirst a (complete b) := by
  induction a with
  | nil =>
    rw [List.nil_append]
    generalize complete b = read
    obtain ⟨lines, rest⟩ := read
    cases lines <;> rfl
  | cons c a ih =>
    rw [List.mem_cons, not_or] at h
    rw [List.cons_append, complete_cons, if_neg (Ne.symm h.1), ih h.2]
    generalize complete b = read
    obtain ⟨lines, rest⟩ := read
    cases lines <;> rfl

end Lines
