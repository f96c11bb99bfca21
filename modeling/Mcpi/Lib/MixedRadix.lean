import Mathlib.Algebra.BigOperators.Group.List.Basic
import Mathlib.Algebra.Order.Monoid.Unbundled.Basic

/-!
# Numbers in mixed radix

A number as digits, the most significant first, each below a radix of its own, and digits in codes
of one width. Lists of digits and their codes are ordered as the numbers are.
-/

namespace MixedRadix

/-- The digits of a number that is below the product of the radices. -/
def digits : List Nat → Nat → List Nat
  | [], _ => []
  | _ :: radices, n => n / radices.prod :: digits radices (n % radices.prod)

@[simp] theorem length_digits (radices : List Nat) (n : Nat) : (digits radices n).length = radices.length := by
  induction radices generalizing n with
  | nil => rfl
  | cons r radices ih => rw [digits, List.length_cons, List.length_cons, ih]

/-- **Digits are ordered as numbers are.** -/
theorem digits_lt {radices : List Nat} {n m : Nat} (h : n < m) (hm : m < radices.prod) :
    digits radices n < digits radices m := by
  induction radices generalizing n m with
  | nil =>
    rw [List.prod_nil] at hm
    omega
  | cons r radices ih =>
    rw [List.prod_cons] at hm
    have hpos : 0 < radices.prod := Nat.pos_of_ne_zero fun hzero => by
      rw [hzero, Nat.mul_zero] at hm
      exact Nat.not_lt_zero _ hm
    rw [digits, digits, List.cons_lt_cons_iff]
    rcases Nat.lt_or_eq_of_le (Nat.div_le_div_right (c := radices.prod) h.le) with hlt | heq
    · exact .inl hlt
    · refine .inr ⟨heq, ih ?_ (Nat.mod_lt _ hpos)⟩
      have hn := Nat.div_add_mod n radices.prod
      have hm' := Nat.div_add_mod m radices.prod
      rw [heq] at hn
      omega

section

variable {α β : Type} [LT α] [LT β]

/-- A list before another of its length stays before it with anything behind them. -/
theorem append_lt_append {a b : List α} (h : a < b) (hlength : a.length = b.length)
    (c d : List α) : a ++ c < b ++ d := by
  induction a generalizing b with
  | nil =>
    obtain rfl := List.length_eq_zero_iff.mp hlength.symm
    exact absurd h (List.not_lt_nil _)
  | cons x a ih =>
    cases b with
    | nil => cases hlength
    | cons y b =>
      rw [List.cons_append, List.cons_append, List.cons_lt_cons_iff]
      rcases List.cons_lt_cons_iff.mp h with hxy | ⟨hxy, hab⟩
      · exact .inl hxy
      · exact .inr ⟨hxy, ih hab (Nat.succ.inj hlength)⟩

/-- The codes of the elements of a list, each place with a code of its own. -/
def encode : List (α → List β) → List α → List β
  | code :: codes, x :: xs => code x ++ encode codes xs
  | _, _ => []

/-- **Codes of one width keep the order** of the elements that have them. -/
theorem encode_lt {codes : List (α → List β)} {a b : List α} (h : a < b)
    (hlength : a.length = b.length) (hcodes : b.length ≤ codes.length)
    (hcode : ∀ code ∈ codes, ∀ x ∈ a, ∀ y ∈ b, (code x).length = (code y).length ∧ (x < y → code x < code y)) :
    encode codes a < encode codes b := by
  induction codes generalizing a b with
  | nil =>
    obtain rfl := List.length_eq_zero_iff.mp (Nat.le_zero.mp hcodes)
    exact absurd h (List.not_lt_nil _)
  | cons code codes ih =>
    cases b with
    | nil => exact absurd h (List.not_lt_nil _)
    | cons y b =>
      cases a with
      | nil => cases hlength
      | cons x a =>
        obtain ⟨hwidth, hlt⟩ := hcode code List.mem_cons_self x List.mem_cons_self y
          List.mem_cons_self
        rcases List.cons_lt_cons_iff.mp h with hxy | ⟨rfl, hab⟩
        · exact append_lt_append (hlt hxy) hwidth _ _
        · refine List.append_left_lt (ih hab (Nat.succ.inj hlength)
            (Nat.le_of_succ_le_succ hcodes) fun code' hcode' x' hx y' hy => ?_)
          exact hcode code' (List.mem_cons_of_mem _ hcode') x' (List.mem_cons_of_mem _ hx) y'
            (List.mem_cons_of_mem _ hy)

end

end MixedRadix
