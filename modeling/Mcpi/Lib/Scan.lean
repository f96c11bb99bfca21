import Mathlib.Data.List.Basic
import Mathlib.Data.List.TakeWhile

/-!
# Bounded scans of a list

Three ways a query cuts a list down: up to the first element that meets a bound and
including it, to the elements a test accepts, to a number of results.
-/

namespace Scan

variable {α β : Type*}

/-- The elements up to the first that satisfies `stop`, that one included. -/
def upTo (stop : α → Bool) : List α → List α
  | [] => []
  | a :: as => if stop a then [a] else a :: upTo stop as

/-- At most `limit` elements; no limit keeps all of them. -/
def limited (limit : Option Int) (l : List α) : List α :=
  match limit with
  | none => l
  | some n => l.take n.toNat

@[simp] theorem upTo_nil (stop : α → Bool) : upTo stop [] = [] := rfl

@[simp] theorem limited_none (l : List α) : limited none l = l := rfl

theorem upTo_eq_self {stop : α → Bool} {l : List α} (h : ∀ a ∈ l, stop a = false) : upTo stop l = l := by
  induction l with
  | nil => rfl
  | cons a as ih =>
    have ha : stop a = false := h a (by simp)
    simp [upTo, ha, ih fun b hb => h b (by simp [hb])]

theorem upTo_prefix (stop : α → Bool) (l : List α) : upTo stop l <+: l := by
  induction l with
  | nil => exact List.prefix_refl _
  | cons a as ih =>
    rw [upTo]
    split
    · exact (List.prefix_cons_inj a).mpr List.nil_prefix
    · exact (List.prefix_cons_inj a).mpr ih

/-- What lies on one side of a cursor is one end of an ordered list. -/
theorem filter_suffix {accepts : α → Bool} {l : List α}
    (h : l.Pairwise fun a b => accepts a = true → accepts b = true) :
    l.filter accepts <:+ l := by
  induction l with
  | nil => exact List.suffix_refl _
  | cons a as ih =>
    rw [List.pairwise_cons] at h
    cases ha : accepts a with
    | true =>
      have hall : ∀ b ∈ a :: as, accepts b = true := List.forall_mem_cons.mpr ⟨ha, fun b hb => h.1 b hb ha⟩
      exact (List.filter_eq_self.mpr hall).symm ▸ List.suffix_refl (a :: as)
    | false =>
      rw [List.filter_cons_of_neg (by simp [ha])]
      exact (ih h.2).trans (List.suffix_cons a as)

end Scan
