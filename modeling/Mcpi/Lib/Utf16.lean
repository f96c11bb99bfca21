import Mcpi.Lib.Utf8

/-!
# Strings of UTF-16 code units

A text as code units, and the lossy way back that the encoding standard takes before it
encodes a string: a surrogate without its partner reads as U+FFFD.
-/

namespace Utf16

/-- The code units of a character. -/
def units (c : Char) : List UInt16 :=
  if c.toNat < 0x10000 then [UInt16.ofNat c.toNat]
  else
    [UInt16.ofNat (0xD800 + (c.toNat - 0x10000) / 0x400), UInt16.ofNat (0xDC00 + (c.toNat - 0x10000) % 0x400)]

/-- The code units of a text. -/
def encode (text : List Char) : List UInt16 := text.flatMap units

/-- A leading surrogate. -/
def isHigh (u : UInt16) : Bool := 0xD800 ≤ u.toNat && u.toNat ≤ 0xDBFF

/-- A trailing surrogate. -/
def isLow (u : UInt16) : Bool := 0xDC00 ≤ u.toNat && u.toNat ≤ 0xDFFF

/-- The text of some code units. -/
def decode : List UInt16 → List Char
  | [] => []
  | [u] => [if isHigh u || isLow u then Utf8.replacement else Char.ofNat u.toNat]
  | u :: v :: rest =>
    if isHigh u then
      if isLow v then
        Char.ofNat (0x10000 + (u.toNat - 0xD800) * 0x400 + (v.toNat - 0xDC00)) :: decode rest
      else Utf8.replacement :: decode (v :: rest)
    else if isLow u then Utf8.replacement :: decode (v :: rest)
    else Char.ofNat u.toNat :: decode (v :: rest)

theorem decode_cons {u : UInt16} (hhigh : isHigh u = false) (hlow : isLow u = false)
    (rest : List UInt16) : decode (u :: rest) = Char.ofNat u.toNat :: decode rest := by
  cases rest with
  | nil => simp [decode, hhigh, hlow]
  | cons v rest => simp [decode, hhigh, hlow]

/-- A character comes first in what its units and any others decode to. -/
theorem decode_units_append (c : Char) (rest : List UInt16) : decode (units c ++ rest) = c :: decode rest := by
  have hvalid : c.toNat < 0xD800 ∨ 0xDFFF < c.toNat ∧ c.toNat < 0x110000 := c.valid
  unfold units
  by_cases h : c.toNat < 0x10000
  · have hu : (UInt16.ofNat c.toNat).toNat = c.toNat := by
      rw [UInt16.toNat_ofNat']
      omega
    have hhigh : isHigh (UInt16.ofNat c.toNat) = false := by
      rw [isHigh, hu]
      simp only [Bool.and_eq_false_iff, decide_eq_false_iff_not]
      omega
    have hlow : isLow (UInt16.ofNat c.toNat) = false := by
      rw [isLow, hu]
      simp only [Bool.and_eq_false_iff, decide_eq_false_iff_not]
      omega
    rw [if_pos h, List.singleton_append, decode_cons hhigh hlow, hu, Char.ofNat_toNat]
  · rw [if_neg h]
    generalize hv : c.toNat - 0x10000 = v
    have hlt : v < 0x100000 := by omega
    have hu : (UInt16.ofNat (0xD800 + v / 0x400)).toNat = 0xD800 + v / 0x400 := by
      rw [UInt16.toNat_ofNat']
      omega
    have hw : (UInt16.ofNat (0xDC00 + v % 0x400)).toNat = 0xDC00 + v % 0x400 := by
      rw [UInt16.toNat_ofNat']
      omega
    have hhigh : isHigh (UInt16.ofNat (0xD800 + v / 0x400)) = true := by
      rw [isHigh, hu]
      simp only [Bool.and_eq_true, decide_eq_true_eq]
      omega
    have hlow : isLow (UInt16.ofNat (0xDC00 + v % 0x400)) = true := by
      rw [isLow, hw]
      simp only [Bool.and_eq_true, decide_eq_true_eq]
      omega
    have hsum : 0x10000 + (0xD800 + v / 0x400 - 0xD800) * 0x400 + (0xDC00 + v % 0x400 - 0xDC00) =
        c.toNat := by omega
    simp only [List.cons_append, List.nil_append, decode, hhigh, hlow, if_true, hu, hw, hsum, Char.ofNat_toNat]

/-- **Decoding inverts encoding.** -/
theorem decode_encode (text : List Char) : decode (encode text) = text := by
  induction text with
  | nil => rfl
  | cons c text ih =>
    show decode (units c ++ encode text) = c :: text
    rw [decode_units_append, ih]

end Utf16
