import Mcpi.Lib.Fitting
import Mcpi.Lib.Utf16
import Mcpi.Lib.Utf8Tail

/-!
# The code points of code units

Any code units are code points one after the other: pairs of surrogates, and units that are not half of a pair. A
text may be cut between two of them, and each is some bytes of UTF-8.
-/

namespace Utf16

/-- The code points, each as its units. -/
def points : List UInt16 → List (List UInt16)
  | [] => []
  | [u] => [[u]]
  | u :: v :: text => if isHigh u && isLow v then [u, v] :: points text else [u] :: points (v :: text)

/-- A text is not cut between the halves of a pair. -/
def Boundary (before after : List UInt16) : Prop :=
  ∀ u v, before.getLast? = some u → after.head? = some v → (isHigh u && isLow v) = false

/-- A pair, or one unit. -/
inductive Point : List UInt16 → Prop
  | single (u : UInt16) : Point [u]
  | pair (u v : UInt16) : isHigh u = true → isLow v = true → Point [u, v]

/-- A surrogate without its partner. -/
def Lone (point : List UInt16) : Prop := ∃ u, point = [u] ∧ (isHigh u || isLow u) = true

/-- All surrogates have their partners. -/
def Paired (text : List UInt16) : Prop := ∀ point ∈ points text, ¬ Lone point

variable {u v : UInt16} {text before after : List UInt16}

theorem isHigh_of_isLow (h : isLow u = true) : isHigh u = false := by
  simp only [isLow, isHigh, Bool.and_eq_true, Bool.and_eq_false_iff, decide_eq_true_eq, decide_eq_false_iff_not] at h ⊢
  omega

theorem points_pair (hu : isHigh u = true) (hv : isLow v = true) (text : List UInt16) :
    points (u :: v :: text) = [u, v] :: points text := by
  rw [points, hu, hv]
  rfl

theorem points_cons (h : Boundary [u] text) : points (u :: text) = [u] :: points text := by
  cases text with
  | nil => rfl
  | cons v text => rw [points, h u v rfl rfl, if_neg Bool.false_ne_true]

/-- A property of texts that goes from what is after a code point to the whole. -/
theorem points_induct {motive : List UInt16 → Prop} (nil : motive [])
    (single : ∀ u text, Boundary [u] text → motive text → motive (u :: text))
    (pair : ∀ u v text, isHigh u = true → isLow v = true → motive text → motive (u :: v :: text))
    (text : List UInt16) : motive text := by
  induction hn : text.length using Nat.strongRecOn generalizing text with
  | ind n ih =>
    cases text with
    | nil => exact nil
    | cons u rest =>
      rw [List.length_cons] at hn
      cases rest with
      | nil => exact single u [] (by rintro a b - ⟨⟩) nil
      | cons v more =>
        rw [List.length_cons] at hn
        cases hpair : isHigh u && isLow v with
        | true =>
          obtain ⟨hu, hv⟩ := Bool.and_eq_true_iff.mp hpair
          exact pair u v more hu hv (ih more.length (by omega) more rfl)
        | false =>
          refine single u (v :: more) ?_ (ih (v :: more).length (by rw [List.length_cons]; omega) _ rfl)
          rintro a b ⟨⟩ ⟨⟩
          exact hpair

@[simp] theorem flatten_points (text : List UInt16) : (points text).flatten = text := by
  induction text using points_induct with
  | nil => rfl
  | single u text h ih => rw [points_cons h, List.flatten_cons, ih, List.singleton_append]
  | pair u v text hu hv ih =>
    rw [points_pair hu hv, List.flatten_cons, ih]
    rfl

theorem point_of_mem (text : List UInt16) : ∀ point ∈ points text, Point point := by
  induction text using points_induct with
  | nil => exact nofun
  | single u text h ih =>
    rw [points_cons h]
    intro point hpoint
    rcases List.mem_cons.mp hpoint with rfl | hrest
    · exact .single u
    · exact ih point hrest
  | pair u v text hu hv ih =>
    rw [points_pair hu hv]
    intro point hpoint
    rcases List.mem_cons.mp hpoint with rfl | hrest
    · exact .pair u v hu hv
    · exact ih point hrest

theorem Boundary.of_cons (h : Boundary (u :: before) after) : Boundary before after := by
  intro a b ha hb
  apply h a b _ hb
  rw [List.getLast?_cons, ha]
  rfl

/-- The points of a text that is cut between two of them. -/
theorem points_append (h : Boundary before after) : points (before ++ after) = points before ++ points after := by
  induction before using points_induct with
  | nil => rfl
  | single u rest hrest ih =>
    have hall : Boundary [u] (rest ++ after) := by
      cases rest with
      | nil => exact h
      | cons v rest => exact fun a b ha hb => hrest a b ha hb
    rw [List.cons_append, points_cons hall, points_cons hrest, List.cons_append]
    cases rest with
    | nil => rfl
    | cons v rest => rw [ih h.of_cons]
  | pair u v rest hu hv ih =>
    rw [List.cons_append, List.cons_append, points_pair hu hv, points_pair hu hv, List.cons_append]
    cases rest with
    | nil => rfl
    | cons w rest =>
      rw [ih h.of_cons.of_cons]

theorem boundary_of_points {a b : List (List UInt16)} (h : points text = a ++ b) :
    Boundary a.flatten b.flatten ∧ points a.flatten = a ∧ points b.flatten = b := by
  induction text using points_induct generalizing a with
  | nil =>
    obtain ⟨rfl, rfl⟩ := List.append_eq_nil_iff.mp h.symm
    exact ⟨nofun, rfl, rfl⟩
  | single u text hu ih =>
    rw [points_cons hu] at h
    cases a with
    | nil =>
      rw [List.nil_append] at h
      rw [← h, List.flatten_cons, flatten_points, List.singleton_append]
      exact ⟨nofun, rfl, points_cons hu⟩
    | cons point a =>
      obtain ⟨rfl, htext⟩ := List.cons.inj h
      have hpoints : points text = a ++ b := htext
      obtain ⟨hboundary, ha, hb⟩ := ih hpoints
      have hwhole : text = a.flatten ++ b.flatten := by rw [← List.flatten_append, ← hpoints, flatten_points]
      have hfirst : Boundary [u] a.flatten := by
        intro x y hx hy
        apply hu x y hx
        rw [hwhole, List.head?_append, hy]
        rfl
      refine ⟨?_, ?_, hb⟩
      · intro x y hx hy
        rw [List.flatten_cons, List.singleton_append, List.getLast?_cons] at hx
        cases hlast : a.flatten.getLast? with
        | none =>
          rw [hlast] at hx
          have hnil : a.flatten = [] := List.getLast?_eq_none_iff.mp hlast
          apply hu x y hx
          rw [hwhole, hnil, List.nil_append, hy]
        | some last =>
          rw [hlast] at hx
          exact hboundary x y (hlast.trans hx) hy
      · rw [List.flatten_cons, List.singleton_append, points_cons hfirst, ha]
  | pair u v text hu hv ih =>
    rw [points_pair hu hv] at h
    cases a with
    | nil =>
      rw [List.nil_append] at h
      rw [← h, List.flatten_cons, flatten_points]
      exact ⟨nofun, rfl, points_pair hu hv text⟩
    | cons point a =>
      obtain ⟨rfl, htext⟩ := List.cons.inj h
      obtain ⟨hboundary, ha, hb⟩ := ih htext
      refine ⟨?_, ?_, hb⟩
      · intro x y hx hy
        rw [List.flatten_cons, List.cons_append, List.cons_append, List.nil_append, List.getLast?_cons,
          List.getLast?_cons] at hx
        cases hlast : a.flatten.getLast? with
        | none =>
          rw [hlast] at hx
          obtain rfl : v = x := Option.some.inj hx
          rw [isHigh_of_isLow hv]
          rfl
        | some last =>
          rw [hlast] at hx
          exact hboundary x y (hlast.trans hx) hy
      · rw [List.flatten_cons, List.cons_append, List.cons_append, List.nil_append, points_pair hu hv, ha]

/-! ## Bytes -/

/-- The bytes of a code point; a surrogate without its partner takes those of U+FFFD. -/
def pointBytes (point : List UInt16) : Nat :=
  match point with
  | [u] => if u.toNat ≤ 0x7f then 1 else if u.toNat ≤ 0x7ff then 2 else 3
  | _ => 4

/-- A code point as it is after UTF-8. -/
def repaired (point : List UInt16) : List UInt16 :=
  match point with
  | [u] => if isHigh u || isLow u then [0xfffd] else [u]
  | _ => point

variable {point : List UInt16}

theorem repaired_of_not_lone (h : ¬ Lone point) (hpoint : Point point) : repaired point = point := by
  cases hpoint with
  | single u => exact if_neg fun hlone => h ⟨u, rfl, hlone⟩
  | pair u v => rfl

/-- The character of a code point. -/
def pointChar (point : List UInt16) : Char :=
  match point with
  | [u] => if isHigh u || isLow u then Utf8.replacement else Char.ofNat u.toNat
  | u :: v :: _ => Char.ofNat (0x10000 + (u.toNat - 0xD800) * 0x400 + (v.toNat - 0xDC00))
  | [] => Utf8.replacement

theorem decode_single (h : Boundary [u] text) : decode (u :: text) = pointChar [u] :: decode text := by
  cases text with
  | nil => rfl
  | cons v text =>
    have hpair := h u v rfl rfl
    rw [decode, pointChar]
    cases hu : isHigh u with
    | true =>
      rw [hu, Bool.true_and] at hpair
      rw [hpair]
      rfl
    | false => cases hlow : isLow u <;> rfl

theorem decode_eq (text : List UInt16) : decode text = (points text).map pointChar := by
  induction text using points_induct with
  | nil => rfl
  | single u text h ih => rw [decode_single h, points_cons h, List.map_cons, ih]
  | pair u v text hu hv ih =>
    rw [decode, hu, hv, points_pair hu hv, List.map_cons, ← ih]
    rfl

theorem toNat_ofNat_of_valid {n : Nat} (h : n.isValidChar) : (Char.ofNat n).toNat = n := by
  rw [Char.ofNat, dif_pos h]
  rfl

theorem toNat_single (h : (isHigh u || isLow u) = false) : (Char.ofNat u.toNat).toNat = u.toNat := by
  apply toNat_ofNat_of_valid
  have hlt := u.toNat_lt
  rw [Bool.or_eq_false_iff] at h
  obtain ⟨hhigh, hlow⟩ := h
  simp only [isHigh, isLow, Bool.and_eq_false_iff, decide_eq_false_iff_not] at hhigh hlow
  omega

theorem toNat_pair (hu : isHigh u = true) (hv : isLow v = true) :
    (Char.ofNat (0x10000 + (u.toNat - 0xD800) * 0x400 + (v.toNat - 0xDC00))).toNat =
      0x10000 + (u.toNat - 0xD800) * 0x400 + (v.toNat - 0xDC00) := by
  apply toNat_ofNat_of_valid
  simp only [isHigh, isLow, Bool.and_eq_true, decide_eq_true_eq] at hu hv
  omega

theorem units_pointChar (h : Point point) : units (pointChar point) = repaired point := by
  cases h with
  | single u =>
    rw [pointChar, repaired]
    cases hlone : isHigh u || isLow u with
    | true =>
      show units Utf8.replacement = [0xfffd]
      decide
    | false =>
      have hlt := u.toNat_lt
      rw [if_neg Bool.false_ne_true, if_neg Bool.false_ne_true, units, toNat_single hlone, if_pos (by omega),
        UInt16.ofNat_toNat]
  | pair u v hu hv =>
    have hpair := toNat_pair hu hv
    simp only [isHigh, isLow, Bool.and_eq_true, decide_eq_true_eq] at hu hv
    rw [pointChar, repaired, units, hpair, if_neg (by omega)]
    · have hhigh : 0xD800 + (0x10000 + (u.toNat - 0xD800) * 0x400 + (v.toNat - 0xDC00) - 0x10000) / 0x400 =
          u.toNat := by omega
      have hlow : 0xDC00 + (0x10000 + (u.toNat - 0xD800) * 0x400 + (v.toNat - 0xDC00) - 0x10000) % 0x400 =
          v.toNat := by omega
      rw [hhigh, hlow, UInt16.ofNat_toNat, UInt16.ofNat_toNat]
    · rintro _ ⟨⟩

theorem length_utf8EncodeChar (c : Char) : (String.utf8EncodeChar c).length =
    if c.toNat ≤ 0x7f then 1 else if c.toNat ≤ 0x7ff then 2 else if c.toNat ≤ 0xffff then 3 else 4 := by
  rcases Utf8.utf8EncodeChar_cases c with ⟨b₀, he, -, hle⟩ | ⟨b₀, b₁, he, -, -, hlt, hle⟩ |
      ⟨b₀, b₁, b₂, he, -, -, -, hlt, hle, -⟩ | ⟨b₀, b₁, b₂, b₃, he, -, -, -, -, hlt, -⟩
  · rw [he, if_pos hle]
    rfl
  · rw [he, if_neg (by omega), if_pos hle]
    rfl
  · rw [he, if_neg (by omega), if_neg (by omega), if_pos hle]
    rfl
  · rw [he, if_neg (by omega), if_neg (by omega), if_neg (by omega)]
    rfl

theorem length_utf8_pointChar (h : Point point) :
    (String.utf8EncodeChar (pointChar point)).length = pointBytes point := by
  rw [length_utf8EncodeChar]
  cases h with
  | single u =>
    rw [pointChar, pointBytes]
    cases hlone : isHigh u || isLow u with
    | true =>
      have hrange : 0xD800 ≤ u.toNat := by
        simp only [isHigh, isLow, Bool.or_eq_true, Bool.and_eq_true, decide_eq_true_eq] at hlone
        omega
      have hreplacement : Utf8.replacement.toNat = 0xfffd := by decide
      have hone : ¬ u.toNat ≤ 0x7f := by omega
      have htwo : ¬ u.toNat ≤ 0x7ff := by omega
      rw [if_pos rfl, hreplacement, if_neg hone, if_neg htwo]
      rfl
    | false =>
      have hlt := u.toNat_lt
      rw [if_neg Bool.false_ne_true, toNat_single hlone]
      split
      · rfl
      · split
        · rfl
        · rw [if_pos (by omega)]
  | pair u v hu hv =>
    have hpair := toNat_pair hu hv
    rw [pointChar, hpair, if_neg (by omega), if_neg (by omega), if_neg (by omega)]
    rfl

theorem byteLength_decode (text : List UInt16) :
    Utf8.byteLength (decode text) = Fitting.total pointBytes (points text) := by
  have hmem := point_of_mem text
  rw [decode_eq]
  generalize points text = list at hmem
  induction list with
  | nil => rfl
  | cons point list ih =>
    rw [List.map_cons, Utf8.byteLength_cons, length_utf8_pointChar (hmem point (by simp)),
      ih fun p hp => hmem p (List.mem_cons_of_mem _ hp), Fitting.total_cons]

/-! ## Characters -/

/-- A character is one unit that is no surrogate, or a pair. -/
theorem units_cases (c : Char) :
    (∃ u, units c = [u] ∧ u.toNat = c.toNat ∧ (isHigh u || isLow u) = false) ∨
      ∃ u v, units c = [u, v] ∧ 0xffff < c.toNat ∧ isHigh u = true ∧ isLow v = true := by
  have hvalid : c.toNat < 0xD800 ∨ 0xDFFF < c.toNat ∧ c.toNat < 0x110000 := c.valid
  rw [units]
  split
  next hsmall =>
    left
    have hu : (UInt16.ofNat c.toNat).toNat = c.toNat := by
      rw [UInt16.toNat_ofNat']
      omega
    refine ⟨_, rfl, hu, ?_⟩
    simp only [isHigh, isLow, hu, Bool.or_eq_false_iff, Bool.and_eq_false_iff, decide_eq_false_iff_not]
    omega
  next hlarge =>
    right
    have hu : (UInt16.ofNat (0xD800 + (c.toNat - 0x10000) / 0x400)).toNat = 0xD800 + (c.toNat - 0x10000) / 0x400 := by
      rw [UInt16.toNat_ofNat']
      omega
    have hv : (UInt16.ofNat (0xDC00 + (c.toNat - 0x10000) % 0x400)).toNat = 0xDC00 + (c.toNat - 0x10000) % 0x400 := by
      rw [UInt16.toNat_ofNat']
      omega
    refine ⟨_, _, rfl, by omega, ?_, ?_⟩
    · simp only [isHigh, hu, Bool.and_eq_true, decide_eq_true_eq]
      omega
    · simp only [isLow, hv, Bool.and_eq_true, decide_eq_true_eq]
      omega

theorem encode_append (a b : List Char) : encode (a ++ b) = encode a ++ encode b := List.flatMap_append

theorem encode_cons (c : Char) (text : List Char) : encode (c :: text) = units c ++ encode text := List.flatMap_cons

theorem getLast?_encode_concat (init : List Char) (c : Char) :
    (encode (init ++ [c])).getLast? = (units c).getLast? := by
  rw [encode_append, encode_cons, List.getLast?_append, encode, List.flatMap_nil, List.append_nil]
  rcases units_cases c with ⟨u, hunits, -⟩ | ⟨u, v, hunits, -⟩ <;> rw [hunits] <;> rfl

/-- A text of characters does not end inside a pair. -/
theorem isHigh_getLast?_encode {text : List Char} {u : UInt16} (h : (encode text).getLast? = some u) :
    isHigh u = false := by
  rcases List.eq_nil_or_concat text with rfl | ⟨init, c, rfl⟩
  · cases h
  · rw [List.concat_eq_append, getLast?_encode_concat] at h
    rcases units_cases c with ⟨v, hunits, -, hsurrogate⟩ | ⟨v, w, hunits, -, -, hlow⟩
    · rw [hunits] at h
      obtain rfl : v = u := Option.some.inj h
      exact (Bool.or_eq_false_iff.mp hsurrogate).1
    · rw [hunits] at h
      obtain rfl : w = u := Option.some.inj h
      exact isHigh_of_isLow hlow

theorem boundary_encode (a b : List Char) : Boundary (encode a) (encode b) := by
  intro u v hu _
  rw [isHigh_getLast?_encode hu, Bool.false_and]

end Utf16
