import Mathlib.Algebra.Ring.Nat
import Mcpi.Lib.Json.Value
import Mcpi.Lib.Utf16

/-!
# JavaScript values on the wire

What the protocol package is handed: strings of UTF-16 code units, numbers, bytes, arrays
and objects. A number is a safe integer or any other double by its bits, so that no number
has two representations. An object lists its own properties the way `Object.keys` does.
Cyclic values and properties named by symbols are left out.
-/

namespace Mcpi.Protocol

/-- A string, by its code units. -/
abbrev JsString := List UInt16

/-! ## Doubles -/

namespace Double

/-- The biased exponent. -/
def exponent (bits : UInt64) : Nat := bits.toNat / 2 ^ 52 % 2 ^ 11

/-- The fraction. -/
def fraction (bits : UInt64) : Nat := bits.toNat % 2 ^ 52

/-- The sign bit. -/
def negative (bits : UInt64) : Bool := bits.toNat / 2 ^ 63 = 1

/-- `Number.isFinite` -/
def isFinite (bits : UInt64) : Bool := exponent bits ≠ 2047

/-- The absolute value of a finite double, in units of the least positive one, `2 ^ -1074`. -/
def magnitude (bits : UInt64) : Nat :=
  if exponent bits = 0 then fraction bits else (2 ^ 52 + fraction bits) * 2 ^ (exponent bits - 1)

/-- `Number.isInteger` -/
def isInteger (bits : UInt64) : Bool := isFinite bits && magnitude bits % 2 ^ 1074 = 0

/-- The value of an integer. -/
def integer (bits : UInt64) : Int :=
  if negative bits then -(magnitude bits / 2 ^ 1074 : Nat) else (magnitude bits / 2 ^ 1074 : Nat)

/-- `Object.is(value, -0)` -/
def isNegativeZero (bits : UInt64) : Bool := bits = 0x8000000000000000

/-- `Number.isSafeInteger` -/
def isSafeInteger (bits : UInt64) : Bool :=
  isInteger bits && (integer bits).natAbs ≤ MAX_SAFE_INTEGER

end Double

/-! ## Numbers -/

/-- The safe integers. -/
abbrev SafeInt := { n : Int // n.natAbs ≤ MAX_SAFE_INTEGER }

/-- The safe integer a double is. Negative zero is none: it is not `0`. -/
def Double.safeInteger? (bits : UInt64) : Option SafeInt :=
  if h : (integer bits).natAbs ≤ MAX_SAFE_INTEGER then
    if isInteger bits && !isNegativeZero bits then some ⟨integer bits, h⟩ else none
  else none

/-- A number. -/
inductive JsNumber where
  | int (n : SafeInt)
  | double (bits : { bits : UInt64 // Double.safeInteger? bits = none })
  deriving DecidableEq

namespace JsNumber

/-- The number with some bits. -/
def ofBits (bits : UInt64) : JsNumber :=
  match h : Double.safeInteger? bits with
  | some n => .int n
  | none => .double ⟨bits, h⟩

/-- `Number.isFinite` -/
def isFinite : JsNumber → Bool
  | .int _ => true
  | .double bits => Double.isFinite bits

/-- `Number.isInteger` -/
def isInteger : JsNumber → Bool
  | .int _ => true
  | .double bits => Double.isInteger bits

/-- `Number.isSafeInteger` -/
def isSafeInteger : JsNumber → Bool
  | .int _ => true
  | .double bits => Double.isSafeInteger bits

/-- `Object.is(value, -0)` -/
def isNegativeZero : JsNumber → Bool
  | .int _ => false
  | .double bits => Double.isNegativeZero bits

@[simp] theorem ofBits_double (bits : { bits : UInt64 // Double.safeInteger? bits = none }) :
    ofBits bits = .double bits := by
  unfold ofBits
  split
  next n hn => rw [bits.2] at hn; cases hn
  · rfl

/-- A safe integer that is kept by its bits is negative zero. -/
theorem isNegativeZero_of_safe {bits : UInt64} (hnone : Double.safeInteger? bits = none)
    (h : Double.isSafeInteger bits = true) : Double.isNegativeZero bits = true := by
  rw [Double.isSafeInteger, Bool.and_eq_true, decide_eq_true_eq] at h
  rw [Double.safeInteger?, dif_pos h.2] at hnone
  simpa [h.1] using hnone

end JsNumber

/-! ## Property keys -/

/-- The decimal digits of a number, as code units. -/
def decimalUnits (n : Nat) : JsString := (toString n).toList.map fun c => UInt16.ofNat c.toNat

/-- The number some digits spell. -/
def readDecimal (key : JsString) : Option Nat :=
  key.foldlM (fun n u => if 48 ≤ u.toNat && u.toNat ≤ 57 then some (n * 10 + (u.toNat - 48)) else none) 0

/-- The array index a key is: keys of this kind come first, in ascending order. -/
def arrayIndex? (key : JsString) : Option Nat :=
  (readDecimal key).filter fun n => decimalUnits n = key && n < 2 ^ 32 - 1

variable {key : JsString}

theorem arrayIndex?_eq {n : Nat} (h : arrayIndex? key = some n) : key = decimalUnits n := by
  rw [arrayIndex?, Option.filter_eq_some_iff, Bool.and_eq_true, decide_eq_true_eq] at h
  exact h.2.1.symm

/-- `key` is listed before `key'` wherever both are. -/
def ListedBefore (key key' : JsString) : Prop :=
  match arrayIndex? key, arrayIndex? key' with
  | some i, some j => i < j
  | some _, none => True
  | none, some _ => False
  | none, none => key ≠ key'

instance (key key' : JsString) : Decidable (ListedBefore key key') := by
  unfold ListedBefore
  split <;> infer_instance

variable {key key' : JsString}

theorem ListedBefore.ne (h : ListedBefore key key') : key ≠ key' := by
  rintro rfl
  unfold ListedBefore at h
  cases hindex : arrayIndex? key with
  | none =>
    rw [hindex] at h
    exact h rfl
  | some i =>
    rw [hindex] at h
    exact Nat.lt_irrefl i h

/-! ## Values -/

/-- `Object.getPrototypeOf`, as far as the protocol looks. -/
inductive Prototype where
  | object
  | null
  | other
  deriving DecidableEq

/-- A value. A hole of an array is `undefined`; `other` is what none of the cases covers, by its
`typeof`. -/
inductive Value where
  | undefined
  | null
  | bool (b : Bool)
  | number (n : JsNumber)
  | string (s : JsString)
  | bytes (bytes : List UInt8)
  | array (items : List Value)
  | object (prototype : Prototype) (entries : List (JsString × Value))
  | other (typeof : String)

namespace Value

/-- `value !== undefined` -/
def isDefined : Value → Bool
  | .undefined => false
  | _ => true

mutual
/-- Every object lists its properties in the order of `Object.keys`. -/
def Listed : Value → Prop
  | .array items => ListedItems items
  | .object _ entries => entries.Pairwise (fun a b => ListedBefore a.1 b.1) ∧ ListedEntries entries
  | _ => True

/-- The same of every item. -/
def ListedItems : List Value → Prop
  | [] => True
  | item :: items => Listed item ∧ ListedItems items

/-- The same of every property. -/
def ListedEntries : List (JsString × Value) → Prop
  | [] => True
  | (_, value) :: entries => Listed value ∧ ListedEntries entries
end

mutual
/-- The value with plain objects that have no `undefined` properties. -/
def stripped : Value → Value
  | .array items => .array (strippedItems items)
  | .object _ entries => .object .object (strippedEntries entries)
  | value => value

/-- The items, stripped. -/
def strippedItems : List Value → List Value
  | [] => []
  | item :: items => stripped item :: strippedItems items

/-- The properties that are not `undefined`, stripped. -/
def strippedEntries : List (JsString × Value) → List (JsString × Value)
  | [] => []
  | (_, .undefined) :: entries => strippedEntries entries
  | (key, value) :: entries => (key, stripped value) :: strippedEntries entries
end

end Value

/-- A JavaScript value. -/
abbrev JsValue := { value : Value // value.Listed }

/-! ## `Object.defineProperty` -/

/-- A new property `key` is listed before the property `key'`. -/
def goesBefore (key key' : JsString) : Bool :=
  match arrayIndex? key, arrayIndex? key' with
  | some i, some j => i < j
  | some _, none => true
  | none, _ => false

/-- Add a property with a new key, or set the one that is there. -/
def defineProperty (entries : List (JsString × Value)) (key : JsString) (value : Value) : List (JsString × Value) :=
  match entries with
  | [] => [(key, value)]
  | (key', value') :: rest =>
    if key' = key then (key, value) :: rest
    else if goesBefore key key' then (key, value) :: (key', value') :: rest
    else (key', value') :: defineProperty rest key value

theorem listedBefore_of_goesBefore (h : goesBefore key key' = true) : ListedBefore key key' := by
  unfold goesBefore at h
  unfold ListedBefore
  cases hi : arrayIndex? key with
  | none => rw [hi] at h; cases h
  | some i =>
    rw [hi] at h
    cases hj : arrayIndex? key' with
    | none => exact trivial
    | some j => rw [hj] at h; simpa using h

theorem listedBefore_of_not_goesBefore (hne : key' ≠ key)
    (h : goesBefore key key' = false) : ListedBefore key' key := by
  unfold goesBefore at h
  unfold ListedBefore
  cases hi : arrayIndex? key with
  | none =>
    cases hj : arrayIndex? key' with
    | none => exact hne
    | some j => exact trivial
  | some i =>
    rw [hi] at h
    cases hj : arrayIndex? key' with
    | none => rw [hj] at h; cases h
    | some j =>
      rw [hj] at h
      simp only [decide_eq_false_iff_not] at h
      have hij : i ≠ j := by
        rintro rfl
        exact hne ((arrayIndex?_eq hj).trans (arrayIndex?_eq hi).symm)
      show j < i
      omega

theorem goesBefore_trans {key key' key'' : JsString} (h : goesBefore key key' = true)
    (h' : ListedBefore key' key'') : ListedBefore key key'' := by
  unfold goesBefore at h
  unfold ListedBefore at h' ⊢
  cases hi : arrayIndex? key with
  | none => rw [hi] at h; cases h
  | some i =>
    rw [hi] at h
    cases hk : arrayIndex? key'' with
    | none => exact trivial
    | some k =>
      rw [hk] at h'
      cases hj : arrayIndex? key' with
      | none => rw [hj] at h'; exact h'.elim
      | some j =>
        rw [hj] at h h'
        simp only [decide_eq_true_eq] at h
        exact Nat.lt_trans h h'

variable {entries : List (JsString × Value)}

theorem defineProperty_last {value : Value} (h : ∀ entry ∈ entries, ListedBefore entry.1 key) :
    defineProperty entries key value = entries ++ [(key, value)] := by
  induction entries with
  | nil => rfl
  | cons entry rest ih =>
    obtain ⟨key', value'⟩ := entry
    have hbefore : ListedBefore key' key := h (key', value') (by simp)
    have hgoes : goesBefore key key' = false := by
      rw [← Bool.not_eq_true]
      intro hgoes
      have hback := listedBefore_of_goesBefore hgoes
      unfold ListedBefore at hback hbefore
      cases hi : arrayIndex? key <;> cases hj : arrayIndex? key' <;>
        simp only [hi, hj, goesBefore, Bool.false_eq_true] at hback hbefore hgoes
      omega
    rw [defineProperty, if_neg hbefore.ne, hgoes]
    simp [ih fun e he => h e (by simp [he])]

theorem perm_defineProperty {value : Value} (hnew : key ∉ entries.map Prod.fst) :
    (defineProperty entries key value).Perm ((key, value) :: entries) := by
  induction entries with
  | nil => exact List.Perm.refl _
  | cons entry rest ih =>
    obtain ⟨key', value'⟩ := entry
    rw [List.map_cons, List.mem_cons, not_or] at hnew
    rw [defineProperty, if_neg (Ne.symm hnew.1)]
    split
    · exact List.Perm.refl _
    · exact ((ih hnew.2).cons _).trans (List.Perm.swap _ _ _)

/-- **A new property keeps the order.** -/
theorem pairwise_defineProperty {value : Value} (hnew : key ∉ entries.map Prod.fst)
    (h : entries.Pairwise fun a b => ListedBefore a.1 b.1) :
    (defineProperty entries key value).Pairwise fun a b => ListedBefore a.1 b.1 := by
  induction entries with
  | nil => exact List.pairwise_singleton _ _
  | cons entry rest ih =>
    obtain ⟨key', value'⟩ := entry
    rw [List.map_cons, List.mem_cons, not_or] at hnew
    rw [List.pairwise_cons] at h
    rw [defineProperty, if_neg (Ne.symm hnew.1)]
    cases hgoes : goesBefore key key' with
    | true =>
      rw [if_pos rfl, List.pairwise_cons]
      refine ⟨fun e he => ?_, List.pairwise_cons.mpr h⟩
      rcases List.mem_cons.mp he with rfl | he
      · exact listedBefore_of_goesBefore hgoes
      · exact goesBefore_trans hgoes (h.1 e he)
    | false =>
      rw [if_neg (by simp), List.pairwise_cons]
      refine ⟨fun e he => ?_, ih hnew.2 h.2⟩
      rcases List.mem_cons.mp ((perm_defineProperty hnew.2).subset he) with rfl | he
      · exact listedBefore_of_not_goesBefore (Ne.symm hnew.1) hgoes
      · exact h.1 e he

end Mcpi.Protocol
