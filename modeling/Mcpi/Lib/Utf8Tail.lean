import Mcpi.Lib.Utf8

/-!
# Tails of encoded text

Cutting the bytes of a text at an index and going on to the next character: what is left encodes
the last characters that fit.
-/

namespace Utf8

/-- `(b & 0xc0) === 0x80` -/
def isContinuation (b : UInt8) : Bool := b.toNat / 64 = 2

/-- `Buffer.byteLength(text, "utf-8")` -/
def byteLength (text : List Char) : Nat := (encode text).length

/-- The first index from `start` on at which a character starts. -/
def boundaryFrom (buffer : List UInt8) (start : Nat) : Nat :=
  start + ((buffer.drop start).takeWhile isContinuation).length

/-- The longest end of a text of at most `n` bytes. -/
def lastChars (n : Nat) : List Char → List Char
  | [] => []
  | c :: text => if byteLength (c :: text) ≤ n then c :: text else lastChars n text

@[simp] theorem byteLength_nil : byteLength [] = 0 := rfl

@[simp] theorem byteLength_append (a b : List Char) : byteLength (a ++ b) = byteLength a + byteLength b := by
  simp [byteLength]

theorem byteLength_cons (c : Char) (text : List Char) :
    byteLength (c :: text) = (String.utf8EncodeChar c).length + byteLength text := by
  simp [byteLength]

/-- A character is a first byte and continuation bytes. -/
theorem utf8EncodeChar_shape (c : Char) :
    ∃ b rest, String.utf8EncodeChar c = b :: rest ∧ isContinuation b = false ∧
      ∀ b' ∈ rest, isContinuation b' = true := by
  have hfirst : ∀ b : UInt8, b.toNat ≤ 0x7F ∨ 0xC0 ≤ b.toNat → isContinuation b = false := by
    intro b hb
    have hlt := b.toNat_lt
    simp only [isContinuation, decide_eq_false_iff_not]
    omega
  have hnext : ∀ (b : UInt8) (n : Nat), b.toNat = n % 64 + 0x80 → isContinuation b = true := by
    intro b n hb
    simp only [isContinuation, decide_eq_true_eq]
    omega
  rcases utf8EncodeChar_cases c with ⟨b₀, he, h₀, hle⟩ | ⟨b₀, b₁, he, h₀, h₁, -⟩ |
      ⟨b₀, b₁, b₂, he, h₀, h₁, h₂, -⟩ | ⟨b₀, b₁, b₂, b₃, he, h₀, h₁, h₂, h₃, -⟩
  · exact ⟨b₀, [], he, hfirst b₀ (by omega), nofun⟩
  · refine ⟨b₀, [b₁], he, hfirst b₀ (by omega), fun b hb => ?_⟩
    obtain rfl := List.mem_singleton.mp hb
    exact hnext _ _ h₁
  · refine ⟨b₀, [b₁, b₂], he, hfirst b₀ (by omega), fun b hb => ?_⟩
    simp only [List.mem_cons, List.not_mem_nil, or_false] at hb
    rcases hb with rfl | rfl
    · exact hnext _ _ h₁
    · exact hnext _ _ h₂
  · refine ⟨b₀, [b₁, b₂, b₃], he, hfirst b₀ (by omega), fun b hb => ?_⟩
    simp only [List.mem_cons, List.not_mem_nil, or_false] at hb
    rcases hb with rfl | rfl | rfl
    · exact hnext _ _ h₁
    · exact hnext _ _ h₂
    · exact hnext _ _ h₃

theorem length_utf8EncodeChar_pos (c : Char) : 0 < (String.utf8EncodeChar c).length := by
  obtain ⟨b, rest, he, -⟩ := utf8EncodeChar_shape c
  rw [he]
  exact Nat.succ_pos _

variable {text : List Char}

theorem byteLength_pos (h : text ≠ []) : 0 < byteLength text := by
  cases text with
  | nil => exact absurd rfl h
  | cons c text =>
    rw [byteLength_cons]
    exact Nat.add_pos_left (length_utf8EncodeChar_pos c) _

/-! ## The last characters -/

theorem lastChars_of_le {n : Nat} (h : byteLength text ≤ n) : lastChars n text = text := by
  cases text with
  | nil => rfl
  | cons c text => exact if_pos h

/-- What comes before does not matter to a text that is too long. -/
theorem lastChars_append {n : Nat} (h : n < byteLength text) (before : List Char) :
    lastChars n (before ++ text) = lastChars n text := by
  induction before with
  | nil => rfl
  | cons c before ih =>
    rw [List.cons_append, lastChars, if_neg, ih]
    rw [byteLength_cons, byteLength_append]
    omega

theorem byteLength_lastChars_le (n : Nat) (text : List Char) : byteLength (lastChars n text) ≤ n := by
  induction text with
  | nil => exact Nat.zero_le n
  | cons c text ih =>
    rw [lastChars]
    split
    · assumption
    · exact ih

/-- The last characters leave out less than one more would take. -/
theorem lastChars_gt {n : Nat} (h : n < byteLength text) : n < byteLength (lastChars n text) + 4 := by
  induction text with
  | nil => exact absurd h (Nat.not_lt_zero n)
  | cons c text ih =>
    rw [lastChars, if_neg (Nat.not_le.mpr h)]
    rcases Nat.lt_or_ge n (byteLength text) with hlt | hge
    · exact ih hlt
    · have hchar : (String.utf8EncodeChar c).length ≤ 4 := by
        rw [String.length_utf8EncodeChar]
        exact c.utf8Size_le_four
      rw [byteLength_cons] at h
      rw [lastChars_of_le hge]
      omega

/-- An encoded text starts with the first byte of a character. -/
theorem takeWhile_encode (text : List Char) : (encode text).takeWhile isContinuation = [] := by
  cases text with
  | nil => rfl
  | cons c text =>
    obtain ⟨b, rest, he, hb, -⟩ := utf8EncodeChar_shape c
    rw [encode_cons, he, List.cons_append, List.takeWhile_cons, hb]
    rfl

/-- **Cutting a text to its last bytes**: going on to the next character leaves its last ones. -/
theorem boundaryFrom_spec {n : Nat} (h : n < byteLength text) :
    ∃ before, text = before ++ lastChars n text ∧ before ≠ [] ∧
      boundaryFrom (encode text) (byteLength text - n) = byteLength before := by
  induction text with
  | nil => exact absurd h (Nat.not_lt_zero n)
  | cons c text ih =>
    have hskip : lastChars n (c :: text) = lastChars n text := if_neg (Nat.not_le.mpr h)
    rw [byteLength_cons] at h ⊢
    rw [hskip, encode_cons]
    rcases Nat.lt_or_ge n (byteLength text) with hlt | hge
    · -- the cut is behind this character
      obtain ⟨before, heq, -, hindex⟩ := ih hlt
      refine ⟨c :: before, by rw [List.cons_append, ← heq], List.cons_ne_nil _ _, ?_⟩
      have hstart : (String.utf8EncodeChar c).length + byteLength text - n =
          (String.utf8EncodeChar c).length + (byteLength text - n) := by omega
      rw [byteLength_cons, ← hindex, hstart, boundaryFrom, boundaryFrom, List.drop_append,
        List.drop_eq_nil_of_le (Nat.le_add_right _ _), List.nil_append, Nat.add_sub_cancel_left,
        Nat.add_assoc]
    · -- the cut is inside this character or right behind it
      refine ⟨[c], by rw [lastChars_of_le hge]; rfl, List.cons_ne_nil _ _, ?_⟩
      obtain ⟨b, rest, he, -, hrest⟩ := utf8EncodeChar_shape c
      obtain ⟨k, hk⟩ : ∃ k, (String.utf8EncodeChar c).length + byteLength text - n = k + 1 :=
        ⟨(String.utf8EncodeChar c).length + byteLength text - n - 1, by omega⟩
      have hle : k ≤ rest.length := by
        rw [he, List.length_cons] at hk
        omega
      have htake : ((rest.drop k) ++ encode text).takeWhile isContinuation = rest.drop k := by
        rw [List.takeWhile_append_of_pos fun b hb => hrest b (List.mem_of_mem_drop hb),
          takeWhile_encode, List.append_nil]
      rw [hk, boundaryFrom, he, List.cons_append, List.drop_succ_cons,
        List.drop_append_of_le_length hle, htake, List.length_drop, byteLength_cons, byteLength_nil,
        he, List.length_cons]
      omega

theorem drop_encode (before text : List Char) : (encode (before ++ text)).drop (byteLength before) = encode text := by
  rw [encode_append]
  exact List.drop_left

/-- The byte before some characters is a newline if the character before them is one. -/
theorem getElem?_encode_newline {before : List Char} (hbefore : before ≠ []) (text : List Char) :
    (encode (before ++ text))[byteLength before - 1]? = some 0x0A ↔ before.getLast? = some '\n' := by
  obtain ⟨init, c, rfl⟩ : ∃ init c, before = init ++ [c] :=
    ⟨before.dropLast, before.getLast hbefore, (List.dropLast_append_getLast hbefore).symm⟩
  have hpos := length_utf8EncodeChar_pos c
  have hlength : byteLength (init ++ [c]) = byteLength init + (String.utf8EncodeChar c).length := by
    rw [byteLength_append, byteLength_cons, byteLength_nil, Nat.add_zero]
  have hindex : (encode (init ++ [c] ++ text))[byteLength (init ++ [c]) - 1]? = (String.utf8EncodeChar c).getLast? := by
    rw [hlength, encode_append, encode_append, encode_cons, encode_nil, List.append_nil,
      List.append_assoc, List.getElem?_append_right (by show (encode init).length ≤ _; exact (by
        show byteLength init ≤ _
        omega)), List.getElem?_append_left (by show _ - byteLength init < _; omega),
      List.getLast?_eq_getElem?]
    show (String.utf8EncodeChar c)[byteLength init + (String.utf8EncodeChar c).length - 1 - byteLength init]? = _
    congr 1
    omega
  rw [hindex, List.getLast?_concat, Option.some.injEq]
  constructor
  · intro hlast
    have hmem := List.mem_of_getLast? hlast
    exact Char.toNat_inj.mp (toNat_of_mem_utf8EncodeChar hmem (by decide)).symm
  · rintro rfl
    rfl

end Utf8
