import Mathlib.Algebra.Ring.Nat
import Mathlib.Data.List.Basic

/-!
# The longest end of a list within a size

Each element has a size; the longest end is what a walk from the end keeps until the next element would be too
much.
-/

namespace Fitting

variable {α β : Type}

/-- The size of a list. -/
def total (size : α → Nat) (list : List α) : Nat := (list.map size).sum

/-- The longest end of a list of at most size `n`. -/
def lastFit (size : α → Nat) (n : Nat) : List α → List α
  | [] => []
  | a :: list => if total size (a :: list) ≤ n then a :: list else lastFit size n list

variable {size : α → Nat} {n : Nat} {list : List α}

@[simp] theorem total_nil (size : α → Nat) : total size [] = 0 := rfl

@[simp] theorem total_cons (size : α → Nat) (a : α) (list : List α) :
    total size (a :: list) = size a + total size list := by
  rw [total, List.map_cons, List.sum_cons, total]

@[simp] theorem total_append (size : α → Nat) (a b : List α) : total size (a ++ b) = total size a + total size b := by
  rw [total, List.map_append, List.sum_append, total, total]

theorem exists_lastFit (size : α → Nat) (n : Nat) (list : List α) : ∃ before, list = before ++ lastFit size n list := by
  induction list with
  | nil => exact ⟨[], rfl⟩
  | cons a list ih =>
    rw [lastFit]
    split
    · exact ⟨[], rfl⟩
    · obtain ⟨before, hbefore⟩ := ih
      exact ⟨a :: before, by rw [List.cons_append, ← hbefore]⟩

theorem total_lastFit_le (size : α → Nat) (n : Nat) (list : List α) : total size (lastFit size n list) ≤ n := by
  induction list with
  | nil => exact Nat.zero_le _
  | cons a list ih =>
    rw [lastFit]
    split
    · assumption
    · exact ih

theorem lastFit_longest {before after : List α} (h : list = before ++ after) (hfits : total size after ≤ n) :
    after <:+ lastFit size n list := by
  induction list generalizing before with
  | nil =>
    have hnil := (List.append_eq_nil_iff.mp h.symm).2
    rw [hnil]
    exact List.nil_suffix
  | cons a list ih =>
    rw [lastFit]
    split
    · rw [h]
      exact List.suffix_append before after
    next hnot =>
      cases before with
      | nil =>
        rw [List.nil_append] at h
        rw [h] at hnot
        exact absurd hfits hnot
      | cons b before => exact ih (List.cons.inj h).2

/-- A walk from the end: an element that fits is kept, and the rest of the size is for what is before it. -/
theorem lastFit_concat (list : List α) (a : α) : lastFit size n (list ++ [a]) =
    if size a ≤ n then lastFit size (n - size a) list ++ [a] else [] := by
  induction list with
  | nil =>
    show (if total size [a] ≤ n then [a] else []) = _
    rw [total_cons, total_nil, Nat.add_zero]
    split <;> rfl
  | cons b list ih =>
    rw [List.cons_append, lastFit, ih, total_cons, total_append, total_cons, total_nil, Nat.add_zero, lastFit,
      total_cons]
    by_cases ha : size a ≤ n
    · rw [if_pos ha, if_pos ha]
      by_cases hall : size b + total size list ≤ n - size a
      · rw [if_pos hall, if_pos (by omega), List.cons_append]
      · rw [if_neg hall, if_neg (by omega)]
    · rw [if_neg ha, if_neg ha, if_neg (by omega)]

/-- Nothing before an end that is too large is kept. -/
theorem lastFit_append (h : n < total size list) (before : List α) :
    lastFit size n (before ++ list) = lastFit size n list := by
  induction before with
  | nil => rfl
  | cons a before ih =>
    rw [List.cons_append, lastFit, total_cons, total_append, if_neg (by omega), ih]

theorem lastFit_map (f : α → β) {size' : β → Nat} (h : ∀ a ∈ list, size' (f a) = size a) :
    lastFit size' n (list.map f) = (lastFit size n list).map f := by
  induction list with
  | nil => rfl
  | cons a list ih =>
    have hrest := ih fun b hb => h b (List.mem_cons_of_mem _ hb)
    have htotal : total size' (f a :: list.map f) = total size (a :: list) := by
      rw [← List.map_cons, total, total, List.map_map]
      exact congrArg List.sum (List.map_congr_left h)
    rw [List.map_cons, lastFit, lastFit, htotal, hrest]
    split
    · rw [List.map_cons]
    · rfl

end Fitting
