import Mathlib.Algebra.Ring.Int.Defs
import Mcpi.Lib.Json.Text

/-!
# Integers as JSON numbers

The integers written in decimal, as `JSON.stringify` writes them. A number type to evaluate
definitions at: tokens with a fraction or an exponent, which no integer is written as, read
as zero.
-/

namespace Json.Integer

/-- A token as an integer. -/
def value : List Char → Int
  | '-' :: digits => -(Nat.ofDigitChars 10 digits 0 : Int)
  | digits => if digits.all Char.isDigit then (Nat.ofDigitChars 10 digits 0 : Int) else 0

/-- An integer in decimal. -/
def text (n : Int) : List Char :=
  if n < 0 then '-' :: Nat.toDigits 10 n.natAbs else Nat.toDigits 10 n.natAbs

/-- The safe integer from zero on that an integer is. -/
def safeNat? (n : Int) : Option SafeNat :=
  if h : 0 ≤ n ∧ n.toNat ≤ MAX_SAFE_INTEGER then some ⟨n.toNat, h.2⟩ else none

theorem run_digits (digits : List Char) (h : ∀ c ∈ digits, c.isDigit = true) :
    NumberState.int.run digits = some .int := by
  induction digits with
  | nil => rfl
  | cons c digits ih =>
    have hc : NumberState.int.next c = some .int := if_pos (h c (by simp))
    rw [NumberState.run, hc, Option.bind_some, ih fun d hd => h d (by simp [hd])]

/-- The decimal digits of a positive number: none but the first is bound to be other than `0`. -/
theorem toDigits_pos (n : Nat) (hn : 0 < n) :
    ∃ c cs, Nat.toDigits 10 n = c :: cs ∧ c.isDigit = true ∧ c ≠ '0' ∧ ∀ d ∈ cs, d.isDigit = true := by
  induction n using Nat.strongRecOn with
  | ind n ih =>
    by_cases hlt : n < 10
    · refine ⟨n.digitChar, [], Nat.toDigits_of_lt_base hlt, ?_, ?_, by simp⟩
      · rw [Nat.isDigit_digitChar]
        exact decide_eq_true hlt
      · rw [Ne, Nat.digitChar_eq_zero]
        omega
    · obtain ⟨c, cs, hdigits, hc, hne, hcs⟩ := ih (n / 10) (by omega) (by omega)
      refine ⟨c, cs ++ [(n % 10).digitChar], ?_, hc, hne, ?_⟩
      · rw [Nat.toDigits_of_base_le (by omega) (by omega), hdigits]
        rfl
      · intro d hd
        rcases List.mem_append.mp hd with hd | hd
        · exact hcs d hd
        · rw [List.mem_singleton.mp hd, Nat.isDigit_digitChar]
          exact decide_eq_true (Nat.mod_lt n (by omega))

/-- A natural number in decimal is a number token, also behind a minus sign. -/
theorem token_toDigits (n : Nat) :
    ∃ c cs st st', Nat.toDigits 10 n = c :: cs ∧ NumberState.start c = some st ∧
      NumberState.minus.next c = some st ∧ st.run cs = some st' ∧ st'.final = true := by
  rcases Nat.eq_zero_or_pos n with rfl | hn
  · exact ⟨'0', [], .zero, .zero, rfl, rfl, rfl, rfl, rfl⟩
  · obtain ⟨c, cs, hdigits, hc, hne, hcs⟩ := toDigits_pos n hn
    have hminus : c ≠ '-' := by
      rintro rfl
      cases hc
    exact ⟨c, cs, .int, .int, hdigits, by simp [NumberState.start, hminus, hne, hc],
      by simp [NumberState.next, hne, hc], run_digits cs hcs, rfl⟩

theorem isNumberToken_text (n : Int) : IsNumberToken (text n) := by
  obtain ⟨c, cs, st, st', hdigits, hstart, hnext, hrun, hfinal⟩ := token_toDigits n.natAbs
  unfold text
  split
  · refine ⟨'-', c :: cs, .minus, st', by rw [hdigits], rfl, ?_, hfinal⟩
    rw [NumberState.run, hnext, Option.bind_some, hrun]
  · exact ⟨c, cs, st, st', hdigits, hstart, hrun, hfinal⟩

theorem value_text (n : Int) : value (text n) = n := by
  unfold text
  split
  · simp only [value, Nat.ofDigitChars_ten_toDigits]
    omega
  · have hdigit : ∀ c ∈ Nat.toDigits 10 n.natAbs, c.isDigit = true := fun c hc =>
      Nat.isDigit_of_mem_toDigits (by omega) (by omega) hc
    have hvalue : value (Nat.toDigits 10 n.natAbs) = (n.natAbs : Int) := by
      unfold value
      split
      next digits h =>
        have := hdigit '-' (by rw [h]; simp)
        cases this
      · rw [if_pos (List.all_eq_true.mpr hdigit), Nat.ofDigitChars_ten_toDigits]
    rw [hvalue]
    omega

instance : JsonNumber Int where
  text := text
  value := value
  ofNat := Int.ofNat
  safeNat? := safeNat?
  isNumberToken_text := isNumberToken_text
  value_text := value_text
  safeNat?_ofNat k := by simp [safeNat?, k.2]

end Json.Integer
