import Mathlib.Data.List.Basic

/-!
# Reading UTF-8 bytes as text

Encoding is `String.utf8EncodeChar`, character by character. Decoding is the lossy
decoder of the encoding standard: a machine that reads one byte at a time, collects the
bytes of a character, and puts U+FFFD where a sequence breaks off. It inverts the
encoder, and on a prefix of encoded text that ends inside a character it returns the
complete characters and one U+FFFD.
-/

namespace Utf8

/-- The bytes of a text. -/
def encode (text : List Char) : List UInt8 := text.flatMap String.utf8EncodeChar

@[simp] theorem encode_nil : encode [] = [] := rfl

@[simp] theorem encode_cons (c : Char) (text : List Char) :
    encode (c :: text) = String.utf8EncodeChar c ++ encode text := rfl

@[simp] theorem encode_append (a b : List Char) : encode (a ++ b) = encode a ++ encode b :=
  List.flatMap_append

/-! ## The decoder -/

/-- U+FFFD -/
def replacement : Char := '\uFFFD'

/-- Between characters, or inside one that still needs `needed` bytes, the next of them
between `lower` and `upper`. -/
inductive Decoder where
  | start
  | pending (codePoint needed lower upper : Nat)

/-- A byte between characters. -/
def lead (b : Nat) : List Char × Decoder :=
  if b ≤ 0x7F then ([Char.ofNat b], .start)
  else if 0xC2 ≤ b ∧ b ≤ 0xDF then ([], .pending (b - 0xC0) 1 0x80 0xBF)
  else if 0xE0 ≤ b ∧ b ≤ 0xEF then
    ([], .pending (b - 0xE0) 2 (if b = 0xE0 then 0xA0 else 0x80) (if b = 0xED then 0x9F else 0xBF))
  else if 0xF0 ≤ b ∧ b ≤ 0xF4 then
    ([], .pending (b - 0xF0) 3 (if b = 0xF0 then 0x90 else 0x80) (if b = 0xF4 then 0x8F else 0xBF))
  else ([replacement], .start)

/-- One byte: the characters it completes and where the decoder stands then. A byte that
cannot continue a character is read again as the first of another. -/
def step : Decoder → Nat → List Char × Decoder
  | .start, b => lead b
  | .pending codePoint needed lower upper, b =>
    if lower ≤ b ∧ b ≤ upper then
      if needed = 1 then ([Char.ofNat (codePoint * 64 + (b - 0x80))], .start)
      else ([], .pending (codePoint * 64 + (b - 0x80)) (needed - 1) 0x80 0xBF)
    else (replacement :: (lead b).1, (lead b).2)

/-- The characters of the remaining bytes. -/
def decodeFrom : Decoder → List UInt8 → List Char
  | .start, [] => []
  | .pending _ _ _ _, [] => [replacement]
  | d, b :: bytes => (step d b.toNat).1 ++ decodeFrom (step d b.toNat).2 bytes

/-- The text of some bytes. -/
def decode (bytes : List UInt8) : List Char := decodeFrom .start bytes

@[simp] theorem decode_nil : decode [] = [] := rfl

theorem decodeFrom_cons (d : Decoder) (b : UInt8) (bytes : List UInt8) :
    decodeFrom d (b :: bytes) = (step d b.toNat).1 ++ decodeFrom (step d b.toNat).2 bytes := by
  cases d <;> rfl

/-! ## Decoding what was encoded -/

/-- A continuation byte, with the six bits it carries. -/
theorem toNat_continuation (n : Nat) : (UInt8.ofNat (n % 64 + 0x80)).toNat = n % 64 + 0x80 := by
  rw [UInt8.toNat_ofNat']
  omega

/-- The bytes of a character, read as numbers, by the length of its encoding. -/
theorem utf8EncodeChar_cases (c : Char) :
    (∃ b₀, String.utf8EncodeChar c = [b₀] ∧ b₀.toNat = c.toNat ∧ c.toNat ≤ 0x7F) ∨
    (∃ b₀ b₁, String.utf8EncodeChar c = [b₀, b₁] ∧ b₀.toNat = c.toNat / 64 + 0xC0 ∧ b₁.toNat = c.toNat % 64 + 0x80 ∧
      0x7F < c.toNat ∧ c.toNat ≤ 0x7FF) ∨
    (∃ b₀ b₁ b₂, String.utf8EncodeChar c = [b₀, b₁, b₂] ∧
      b₀.toNat = c.toNat / 4096 + 0xE0 ∧ b₁.toNat = c.toNat / 64 % 64 + 0x80 ∧
      b₂.toNat = c.toNat % 64 + 0x80 ∧
      0x7FF < c.toNat ∧ c.toNat ≤ 0xFFFF ∧ (c.toNat < 0xD800 ∨ 0xDFFF < c.toNat)) ∨
    (∃ b₀ b₁ b₂ b₃, String.utf8EncodeChar c = [b₀, b₁, b₂, b₃] ∧
      b₀.toNat = c.toNat / 262144 + 0xF0 ∧ b₁.toNat = c.toNat / 4096 % 64 + 0x80 ∧
      b₂.toNat = c.toNat / 64 % 64 + 0x80 ∧ b₃.toNat = c.toNat % 64 + 0x80 ∧
      0xFFFF < c.toNat ∧ c.toNat < 0x110000) := by
  have hvalid : c.toNat < 0xD800 ∨ 0xDFFF < c.toNat ∧ c.toNat < 0x110000 := c.valid
  unfold String.utf8EncodeChar
  have hv : c.val.toNat = c.toNat := rfl
  simp only [hv]
  generalize c.toNat = v at *
  by_cases h1 : v ≤ 0x7F
  · left
    rw [if_pos h1]
    exact ⟨_, rfl, by rw [UInt8.toNat_ofNat']; omega, h1⟩
  right
  rw [if_neg h1]
  by_cases h2 : v ≤ 0x7FF
  · left
    rw [if_pos h2]
    exact ⟨_, _, rfl, by rw [UInt8.toNat_ofNat']; omega, toNat_continuation v, by omega, h2⟩
  right
  rw [if_neg h2]
  by_cases h3 : v ≤ 0xFFFF
  · left
    rw [if_pos h3]
    exact ⟨_, _, _, rfl, by rw [UInt8.toNat_ofNat']; omega, toNat_continuation _,
      toNat_continuation v, by omega, h3, by omega⟩
  right
  rw [if_neg h3]
  exact ⟨_, _, _, _, rfl, by rw [UInt8.toNat_ofNat']; omega, toNat_continuation _,
    toNat_continuation _, toNat_continuation v, by omega, by omega⟩

theorem lead_ascii {b : Nat} (h : b ≤ 0x7F) : lead b = ([Char.ofNat b], .start) := if_pos h

theorem lead_two {b : Nat} (h : 0xC2 ≤ b ∧ b ≤ 0xDF) : lead b = ([], .pending (b - 0xC0) 1 0x80 0xBF) := by
  rw [lead, if_neg (by omega), if_pos h]

theorem lead_three {b : Nat} (h : 0xE0 ≤ b ∧ b ≤ 0xEF) :
    lead b = ([], .pending (b - 0xE0) 2 (if b = 0xE0 then 0xA0 else 0x80) (if b = 0xED then 0x9F else 0xBF)) := by
  rw [lead, if_neg (by omega), if_neg (by omega), if_pos h]

theorem lead_four {b : Nat} (h : 0xF0 ≤ b ∧ b ≤ 0xF4) :
    lead b = ([], .pending (b - 0xF0) 3 (if b = 0xF0 then 0x90 else 0x80) (if b = 0xF4 then 0x8F else 0xBF)) := by
  rw [lead, if_neg (by omega), if_neg (by omega), if_neg (by omega), if_pos h]

theorem step_last {codePoint lower upper b : Nat} (h : lower ≤ b ∧ b ≤ upper) :
    step (.pending codePoint 1 lower upper) b = ([Char.ofNat (codePoint * 64 + (b - 0x80))], .start) := by
  rw [step, if_pos h, if_pos rfl]

theorem step_more {codePoint needed lower upper b : Nat} (h : lower ≤ b ∧ b ≤ upper) (hneeded : needed ≠ 1) :
    step (.pending codePoint needed lower upper) b =
      ([], .pending (codePoint * 64 + (b - 0x80)) (needed - 1) 0x80 0xBF) := by
  rw [step, if_pos h, if_neg hneeded]

/-- From `d` the bytes lead, without output before the last of them, to the character `c`. -/
inductive Spells : Decoder → List UInt8 → Char → Prop
  | last {d : Decoder} {b : UInt8} {c : Char} : step d b.toNat = ([c], .start) → Spells d [b] c
  | more {d : Decoder} {b : UInt8} {bs : List UInt8} {c : Char}
      {codePoint needed lower upper : Nat} :
      step d b.toNat = ([], .pending codePoint needed lower upper) → 0x80 ≤ lower →
      Spells (.pending codePoint needed lower upper) bs c → Spells d (b :: bs) c

theorem spells_utf8EncodeChar (c : Char) : Spells .start (String.utf8EncodeChar c) c := by
  have hc : Char.ofNat c.toNat = c := Char.ofNat_toNat c
  -- the last byte completes the code point
  have hlast : ∀ b, b.toNat = c.toNat % 64 + 0x80 → Spells (.pending (c.toNat / 64) 1 0x80 0xBF) [b] c := by
    intro b hb
    refine .last ?_
    rw [step_last (by omega), hb, Nat.add_sub_cancel, Nat.div_add_mod', hc]
  rcases utf8EncodeChar_cases c with ⟨b₀, he, h₀, hle⟩ | ⟨b₀, b₁, he, h₀, h₁, hlo, hhi⟩ |
      ⟨b₀, b₁, b₂, he, h₀, h₁, h₂, hlo, hhi, hsur⟩ |
      ⟨b₀, b₁, b₂, b₃, he, h₀, h₁, h₂, h₃, hlo, hhi⟩
  · rw [he]
    refine .last ?_
    rw [step, h₀, lead_ascii hle, hc]
  · rw [he]
    have s₀ : step .start b₀.toNat = ([], .pending (c.toNat / 64) 1 0x80 0xBF) := by
      rw [step, h₀, lead_two (by omega), Nat.add_sub_cancel]
    exact .more s₀ (Nat.le_refl _) (hlast b₁ h₁)
  · rw [he]
    have s₀ : step .start b₀.toNat = ([], .pending (c.toNat / 4096) 2
        (if b₀.toNat = 0xE0 then 0xA0 else 0x80) (if b₀.toNat = 0xED then 0x9F else 0xBF)) := by
      rw [step, lead_three (by omega), h₀, Nat.add_sub_cancel]
    refine .more s₀ (by split <;> omega) (.more ?_ (Nat.le_refl _) (hlast b₂ h₂))
    rw [step_more (by rw [h₀, h₁]; split <;> split <;> omega) (by omega), h₁,
      show c.toNat / 4096 * 64 + (c.toNat / 64 % 64 + 0x80 - 0x80) = c.toNat / 64 by omega]
  · rw [he]
    have s₀ : step .start b₀.toNat = ([], .pending (c.toNat / 262144) 3
        (if b₀.toNat = 0xF0 then 0x90 else 0x80) (if b₀.toNat = 0xF4 then 0x8F else 0xBF)) := by
      rw [step, lead_four (by omega), h₀, Nat.add_sub_cancel]
    have s₂ : step (.pending (c.toNat / 4096) 2 0x80 0xBF) b₂.toNat = ([], .pending (c.toNat / 64) 1 0x80 0xBF) := by
      rw [step_more (by omega) (by omega), h₂,
        show c.toNat / 4096 * 64 + (c.toNat / 64 % 64 + 0x80 - 0x80) = c.toNat / 64 by omega]
    refine .more s₀ (by split <;> omega) (.more ?_ (Nat.le_refl _) (.more s₂ (Nat.le_refl _) (hlast b₃ h₃)))
    rw [step_more (by rw [h₀, h₁]; split <;> split <;> omega) (by omega), h₁,
      show c.toNat / 262144 * 64 + (c.toNat / 4096 % 64 + 0x80 - 0x80) = c.toNat / 4096 by omega]

variable {c : Char}

theorem Spells.decodeFrom_append {d : Decoder} {bs : List UInt8} (h : Spells d bs c)
    (rest : List UInt8) : decodeFrom d (bs ++ rest) = c :: decode rest := by
  induction h with
  | last hstep => rw [List.singleton_append, decodeFrom_cons, hstep]; rfl
  | more hstep _ _ ih => rw [List.cons_append, decodeFrom_cons, hstep, List.nil_append]; exact ih

/-- No continuation byte follows. -/
def NotContinued (rest : List UInt8) : Prop := ∀ b ∈ rest.head?, b.toNat ≤ 0x7F

theorem decodeFrom_pending {codePoint needed lower upper : Nat} {rest : List UInt8}
    (hlower : 0x80 ≤ lower) (hrest : NotContinued rest) :
    decodeFrom (.pending codePoint needed lower upper) rest = replacement :: decode rest := by
  cases rest with
  | nil => rfl
  | cons b rest =>
    have hb : b.toNat ≤ 0x7F := hrest b rfl
    rw [decodeFrom_cons, step, if_neg (by omega), decode, decodeFrom_cons]
    rfl

/-- Bytes that break off inside a character read as one U+FFFD. -/
theorem Spells.decodeFrom_torn {d : Decoder} {bs : List UInt8} (h : Spells d bs c) :
    ∀ p q rest, p ++ q = bs → p ≠ [] → q ≠ [] → NotContinued rest →
      decodeFrom d (p ++ rest) = replacement :: decode rest := by
  induction h with
  | last hstep =>
    intro p q rest hpq hp hq
    have hlen := congrArg List.length hpq
    have := List.length_pos_of_ne_nil hp
    have := List.length_pos_of_ne_nil hq
    simp only [List.length_append, List.length_singleton] at hlen
    omega
  | @more d b bs c codePoint needed lower upper hstep hlower hbs ih =>
    intro p q rest hpq hp hq hrest
    cases p with
    | nil => exact absurd rfl hp
    | cons a p =>
      rw [List.cons_append, List.cons.injEq] at hpq
      obtain ⟨rfl, hpq⟩ := hpq
      rw [List.cons_append, decodeFrom_cons, hstep, List.nil_append]
      by_cases hp' : p = []
      · subst hp'
        exact decodeFrom_pending hlower hrest
      · exact ih p q rest hpq hp' hq hrest

theorem not_ascii_of_torn {p q : List UInt8} (h : p ++ q = String.utf8EncodeChar c)
    (hp : p ≠ []) (hq : q ≠ []) : 0x7F < c.toNat := by
  rcases utf8EncodeChar_cases c with ⟨b₀, he, -, -⟩ | ⟨_, _, _, _, _, hlo, _⟩ |
      ⟨_, _, _, _, _, _, _, hlo, _⟩ | ⟨_, _, _, _, _, _, _, _, _, hlo, _⟩
  · have hlen := congrArg List.length (h.trans he)
    have := List.length_pos_of_ne_nil hp
    have := List.length_pos_of_ne_nil hq
    simp only [List.length_append, List.length_singleton] at hlen
    omega
  all_goals omega

/-- **Decoding inverts encoding**, whatever bytes follow. -/
theorem decode_encode_append (text : List Char) (rest : List UInt8) :
    decode (encode text ++ rest) = text ++ decode rest := by
  induction text with
  | nil => rfl
  | cons c text ih =>
    rw [encode_cons, List.append_assoc, decode, (spells_utf8EncodeChar c).decodeFrom_append, ih, List.cons_append]

theorem decode_encode (text : List Char) : decode (encode text) = text := by
  have := decode_encode_append text []
  simpa using this

/-- A nonempty strict prefix of the bytes of a character. -/
def Torn (c : Char) (p : List UInt8) : Prop :=
  p ≠ [] ∧ ∃ q, q ≠ [] ∧ p ++ q = String.utf8EncodeChar c

theorem Torn.decode_append {p rest : List UInt8} (h : Torn c p)
    (hrest : NotContinued rest) : decode (p ++ rest) = replacement :: decode rest := by
  obtain ⟨hp, q, hq, hpq⟩ := h
  exact (spells_utf8EncodeChar c).decodeFrom_torn p q rest hpq hp hq hrest

theorem Torn.not_ascii {p : List UInt8} (h : Torn c p) : 0x7F < c.toNat := by
  obtain ⟨hp, q, hq, hpq⟩ := h
  exact not_ascii_of_torn hpq hp hq

variable {text : List Char}

/-- **Cutting encoded text anywhere.** A prefix of the bytes of a text is the bytes of a prefix
of the text, or those and part of one more character. -/
theorem prefix_encode {p : List UInt8} (h : p <+: encode text) :
    (∃ front, front <+: text ∧ p = encode front) ∨
      ∃ front c torn, front ++ [c] <+: text ∧ p = encode front ++ torn ∧ Torn c torn := by
  induction text generalizing p with
  | nil =>
    rw [encode_nil, List.prefix_nil] at h
    exact Or.inl ⟨[], List.nil_prefix, h⟩
  | cons c text ih =>
    rw [encode_cons] at h
    obtain ⟨r, hr⟩ := h
    rcases List.append_eq_append_iff.mp hr with ⟨q, hq, -⟩ | ⟨p', rfl, hp'⟩
    · by_cases hp : p = []
      · exact Or.inl ⟨[], List.nil_prefix, hp⟩
      by_cases hqne : q = []
      · exact Or.inl ⟨[c], List.prefix_iff_eq_append.mpr rfl, by simp [hq, hqne]⟩
      · exact Or.inr ⟨[], c, p, List.prefix_iff_eq_append.mpr rfl, rfl, hp, q, hqne, hq.symm⟩
    · rcases ih ⟨r, hp'.symm⟩ with ⟨front, hfront, rfl⟩ | ⟨front, d, torn, hfront, rfl, htorn⟩
      · exact Or.inl ⟨c :: front, List.cons_prefix_cons.mpr ⟨rfl, hfront⟩, rfl⟩
      · exact Or.inr ⟨c :: front, d, torn, List.cons_prefix_cons.mpr ⟨rfl, hfront⟩, by simp, htorn⟩

/-! ## Refusing what is not UTF-8 -/

/-- The decoder that fails where the other one would put U+FFFD for broken bytes: bytes that no
text encodes to are malformed. -/
def decodeFatal (bytes : List UInt8) : Option (List Char) :=
  if encode (decode bytes) = bytes then some (decode bytes) else none

theorem decodeFatal_eq_some_iff {bytes : List UInt8} : decodeFatal bytes = some text ↔ encode text = bytes := by
  unfold decodeFatal
  constructor
  · intro h
    obtain ⟨hbytes, h⟩ := Option.ite_none_right_eq_some.mp h
    rw [← Option.some.inj h, hbytes]
  · rintro rfl
    rw [decode_encode, if_pos rfl]

/-! ## ASCII bytes -/

theorem toNat_of_mem_utf8EncodeChar {b : UInt8} (h : b ∈ String.utf8EncodeChar c)
    (hb : b.toNat ≤ 0x7F) : b.toNat = c.toNat := by
  rcases utf8EncodeChar_cases c with ⟨b₀, he, h₀, -⟩ | ⟨b₀, b₁, he, h₀, h₁, -⟩ |
      ⟨b₀, b₁, b₂, he, h₀, h₁, h₂, -⟩ | ⟨b₀, b₁, b₂, b₃, he, h₀, h₁, h₂, h₃, -⟩ <;>
    rw [he] at h <;>
    simp only [List.mem_cons, List.not_mem_nil, or_false] at h
  · rw [h, h₀]
  · rcases h with rfl | rfl <;> omega
  · rcases h with rfl | rfl | rfl <;> omega
  · rcases h with rfl | rfl | rfl | rfl <;> omega

theorem newline_not_mem_encode (h : '\n' ∉ text) : 0x0A ∉ encode text := by
  intro hmem
  obtain ⟨c, hc, hb⟩ := List.mem_flatMap.mp hmem
  have hnat := toNat_of_mem_utf8EncodeChar hb (by decide)
  have hchar : c = '\n' := Char.toNat_inj.mp hnat.symm
  exact h (hchar ▸ hc)

end Utf8
