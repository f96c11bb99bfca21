import Mcpi.Lib.Json.Integer
import Mcpi.Lib.Json.Literals

/-!
# Repair of JSON texts

`repairJson` escapes the raw control characters of string literals and doubles the backslashes that
begin no escape. Its test for four digits after `\u` decides nothing: `u` is among the escapes with
or without them.
-/

namespace Mcpi.Ai

def VALID_JSON_ESCAPES : List Char := ['"', '\\', '/', 'b', 'f', 'n', 'r', 't', 'u']

def isControlCharacter (c : Char) : Bool := c.toNat ≤ 0x1f

def escapeControlCharacter (c : Char) : List Char :=
  if c = '\x08' then ['\\', 'b']
  else if c = '\x0c' then ['\\', 'f']
  else if c = '\n' then ['\\', 'n']
  else if c = '\r' then ['\\', 'r']
  else if c = '\t' then ['\\', 't']
  else '\\' :: 'u' :: List.leftpad 4 '0' (Nat.toDigits 16 c.toNat)

def isHexDigit (c : Char) : Bool :=
  c.isDigit || ('a' ≤ c && c ≤ 'f') || ('A' ≤ c && c ≤ 'F')

/-- `/^[0-9a-fA-F]{4}$/` -/
def isUnicodeDigits (digits : List Char) : Bool := digits.length = 4 && digits.all isHexDigit

/-- The loop, from a character on. -/
def repair : (inString : Bool) → List Char → List Char
  | _, [] => []
  | false, c :: rest => c :: repair (c = '"') rest
  | true, c :: rest =>
    if c = '"' then c :: repair false rest
    else if c = '\\' then
      match rest with
      | [] => ['\\', '\\']
      | next :: rest' =>
        if next = 'u' ∧ isUnicodeDigits (rest'.take 4) then
          '\\' :: 'u' :: (rest'.take 4 ++ repair true (rest'.drop 4))
        else if next ∈ VALID_JSON_ESCAPES then '\\' :: next :: repair true rest'
        else '\\' :: '\\' :: repair true (next :: rest')
    else (if isControlCharacter c then escapeControlCharacter c else [c]) ++ repair true rest
termination_by _ json => json.length
decreasing_by
  all_goals simp only [List.length_cons, List.length_drop]
  all_goals omega

def repairJson (json : List Char) : List Char := repair false json

/-! ## Steps of the loop -/

/-- The characters that a literal has as they are. -/
def Plain (c : Char) : Prop := c ≠ '"' ∧ c ≠ '\\' ∧ isControlCharacter c = false

theorem repair_outside (c : Char) (rest : List Char) :
    repair false (c :: rest) = c :: repair (c = '"') rest := by rw [repair.eq_def]

theorem repair_quote (rest : List Char) : repair true ('"' :: rest) = '"' :: repair false rest := by
  rw [repair.eq_def]
  rfl

theorem repair_last : repair true ['\\'] = ['\\', '\\'] := by
  rw [repair.eq_def]
  rfl

variable {c : Char}

theorem repair_plain (h : Plain c) (rest : List Char) : repair true (c :: rest) = c :: repair true rest := by
  obtain ⟨hquote, hbackslash, hcontrol⟩ := h
  rw [repair.eq_def]
  dsimp only
  rw [if_neg hquote, if_neg hbackslash, hcontrol]
  rfl

theorem repair_control (h : isControlCharacter c = true) (rest : List Char) :
    repair true (c :: rest) = escapeControlCharacter c ++ repair true rest := by
  rw [repair.eq_def]
  dsimp only
  rw [if_neg (by rintro rfl; exact absurd h (by decide)), if_neg (by rintro rfl; exact absurd h (by decide)), if_pos h]

variable {next : Char}

theorem repair_backslash (h : next ∉ VALID_JSON_ESCAPES) (rest : List Char) :
    repair true ('\\' :: next :: rest) = '\\' :: '\\' :: repair true (next :: rest) := by
  have hnot : ¬ (next = 'u' ∧ isUnicodeDigits (rest.take 4) = true) := by
    rintro ⟨rfl, -⟩
    exact h (by decide)
  rw [repair.eq_def]
  dsimp only
  rw [if_neg (by decide), if_pos rfl, if_neg hnot, if_neg h]

/-! ## The test for digits -/

theorem isHexDigit_eq (c : Char) : isHexDigit c = (Json.hexValue? c).isSome := by
  unfold isHexDigit Json.hexValue?
  split
  next h => rw [h]; rfl
  next h =>
    rw [Bool.not_eq_true] at h
    rw [h]
    split
    next h' => simp [h']
    next h' =>
      split
      next h'' => simp [h'']
      next h'' =>
        simp only [not_and] at h' h''
        simp
        grind

theorem ofNat_of_isControlCharacter (h : isControlCharacter c = true) : ∃ n < 32, c = Char.ofNat n :=
  ⟨c.toNat, Nat.lt_succ_of_le (of_decide_eq_true h), (Char.ofNat_toNat c).symm⟩

theorem plain_of_isHexDigit (h : isHexDigit c = true) : Plain c := by
  have hcontrol : ∀ n < 32, isHexDigit (Char.ofNat n) = false := by decide +kernel
  refine ⟨?_, ?_, ?_⟩
  · rintro rfl
    exact absurd h (by decide)
  · rintro rfl
    exact absurd h (by decide)
  · rw [← Bool.not_eq_true]
    intro hc
    obtain ⟨n, hn, rfl⟩ := ofNat_of_isControlCharacter hc
    rw [hcontrol n hn] at h
    cases h

variable {digits : List Char}

theorem repair_digits (h : ∀ c ∈ digits, isHexDigit c = true)
    (rest : List Char) : repair true (digits ++ rest) = digits ++ repair true rest := by
  induction digits with
  | nil => rfl
  | cons c digits ih =>
    rw [List.forall_mem_cons] at h
    rw [List.cons_append, repair_plain (plain_of_isHexDigit h.1), ih h.2, List.cons_append]

/-- **An escape stays as it is**, with the digits of one as with any other characters. -/
theorem repair_escape (h : next ∈ VALID_JSON_ESCAPES) (rest : List Char) :
    repair true ('\\' :: next :: rest) = '\\' :: next :: repair true rest := by
  rw [repair.eq_def]
  dsimp only
  rw [if_neg (by decide), if_pos rfl]
  split
  next hdigits =>
    obtain ⟨rfl, hdigits⟩ := hdigits
    rw [isUnicodeDigits, Bool.and_eq_true, List.all_eq_true] at hdigits
    rw [← repair_digits hdigits.2, List.take_append_drop]
  next => rfl

theorem repair_pair (h : next ∈ VALID_JSON_ESCAPES) (hdigits : ∀ c ∈ digits, isHexDigit c = true) (rest : List Char) :
    repair true ('\\' :: next :: digits ++ rest) = '\\' :: next :: digits ++ repair true rest := by
  rw [List.cons_append, List.cons_append, repair_escape h, repair_digits hdigits]
  rfl

/-! ## What the loop makes of a character -/

theorem escapeControlCharacter_spec (h : isControlCharacter c = true) :
    ∃ next digits, escapeControlCharacter c = '\\' :: next :: digits ∧
      next ∈ VALID_JSON_ESCAPES ∧ (∀ d ∈ digits, isHexDigit d = true) ∧
      Json.Place.run .inside (escapeControlCharacter c) = some .inside := by
  have hall : ∀ n < 32,
      let escaped := escapeControlCharacter (Char.ofNat n)
      escaped = '\\' :: escaped.getD 1 'x' :: escaped.drop 2 ∧
        escaped.getD 1 'x' ∈ VALID_JSON_ESCAPES ∧ (escaped.drop 2).all isHexDigit = true ∧
        Json.Place.run .inside escaped = some .inside := by decide +kernel
  obtain ⟨n, hn, rfl⟩ := ofNat_of_isControlCharacter h
  obtain ⟨heq, hnext, hdigits, hrun⟩ := hall n hn
  exact ⟨_, _, heq, hnext, List.all_eq_true.mp hdigits, hrun⟩

theorem repair_induction {motive : Bool → List Char → Prop} (nil : ∀ inString, motive inString [])
    (outside : ∀ c rest, motive (c = '"') rest → motive false (c :: rest))
    (quote : ∀ rest, motive false rest → motive true ('"' :: rest))
    (last : motive true ['\\'])
    (escape : ∀ next rest, next ∈ VALID_JSON_ESCAPES → motive true rest → motive true ('\\' :: next :: rest))
    (backslash : ∀ next rest, next ∉ VALID_JSON_ESCAPES → motive true (next :: rest) →
      motive true ('\\' :: next :: rest))
    (control : ∀ c rest, isControlCharacter c = true → motive true rest → motive true (c :: rest))
    (plain : ∀ c rest, Plain c → motive true rest → motive true (c :: rest)) (inString : Bool)
    (json : List Char) : motive inString json := by
  induction hlength : json.length using Nat.strongRecOn generalizing inString json with
  | _ n ih =>
    subst hlength
    cases json with
    | nil => exact nil inString
    | cons c rest =>
      have hrest : ∀ inString, motive inString rest :=
        fun inString => ih _ (Nat.lt_succ_self _) inString rest rfl
      cases inString with
      | false => exact outside c rest (hrest _)
      | true =>
        by_cases hquote : c = '"'
        · subst hquote
          exact quote rest (hrest _)
        by_cases hbackslash : c = '\\'
        · subst hbackslash
          cases rest with
          | nil => exact last
          | cons next rest =>
            by_cases hnext : next ∈ VALID_JSON_ESCAPES
            · have hlt : rest.length < rest.length + 1 + 1 := by omega
              exact escape next rest hnext (ih _ hlt true rest rfl)
            · exact backslash next rest hnext (hrest _)
        cases hcontrol : isControlCharacter c with
        | true => exact control c rest hcontrol (hrest _)
        | false => exact plain c rest ⟨hquote, hbackslash, hcontrol⟩ (hrest _)

/-- **What is repaired stays as it is.** -/
theorem repair_repair (inString : Bool) (json : List Char) :
    repair inString (repair inString json) = repair inString json := by
  induction inString, json using repair_induction with
  | nil inString => rw [repair, repair]
  | outside c rest ih => rw [repair_outside, repair_outside, ih]
  | quote rest ih => rw [repair_quote, repair_quote, ih]
  | last =>
      rw [repair_last, repair_escape (by decide), repair]
  | escape next rest hnext ih => rw [repair_escape hnext, repair_escape hnext, ih]
  | backslash next rest hnext ih => rw [repair_backslash hnext, repair_escape (by decide), ih]
  | control c rest hc ih =>
    obtain ⟨next, digits, heq, hnext, hdigits, -⟩ := escapeControlCharacter_spec hc
    rw [repair_control hc, heq, repair_pair hnext hdigits, ih]
  | plain c rest hc ih => rw [repair_plain hc, repair_plain hc, ih]

/-! ## Escapes with digits -/

/-- Every `\u` in a string literal has its four digits. -/
def WellEscaped : (inString : Bool) → List Char → Prop
  | _, [] => True
  | false, c :: rest => WellEscaped (c = '"') rest
  | true, c :: rest =>
    if c = '"' then WellEscaped false rest
    else if c = '\\' then
      match rest with
      | [] => True
      | next :: rest' =>
        if next = 'u' then isUnicodeDigits (rest'.take 4) ∧ WellEscaped true rest'
        else if next ∈ VALID_JSON_ESCAPES then WellEscaped true rest'
        else WellEscaped true (next :: rest')
    else WellEscaped true rest
termination_by _ json => json.length
decreasing_by
  all_goals simp only [List.length_cons]
  all_goals omega

theorem digits_not_plain (n : Nat) {rest : List Char} (h : ¬ Plain c) :
    ¬ ∀ d ∈ (repair true (c :: rest)).take (n + 1), isHexDigit d = true := by
  obtain ⟨c', out, heq, hc'⟩ : ∃ c' out, repair true (c :: rest) = c' :: out ∧ isHexDigit c' = false := by
    by_cases hquote : c = '"'
    · subst hquote
      exact ⟨_, _, repair_quote rest, by decide⟩
    by_cases hbackslash : c = '\\'
    · subst hbackslash
      cases rest with
      | nil => exact ⟨_, _, repair_last, by decide⟩
      | cons next rest =>
        by_cases hnext : next ∈ VALID_JSON_ESCAPES
        · exact ⟨_, _, repair_escape hnext rest, by decide⟩
        · exact ⟨_, _, repair_backslash hnext rest, by decide⟩
    cases hcontrol : isControlCharacter c with
    | true =>
      obtain ⟨next, digits, heq, -⟩ := escapeControlCharacter_spec hcontrol
      exact ⟨_, _, by rw [repair_control hcontrol, heq]; rfl, by decide⟩
    | false => exact absurd ⟨hquote, hbackslash, hcontrol⟩ h
  intro hall
  rw [heq, List.take_succ_cons] at hall
  rw [hall c' List.mem_cons_self] at hc'
  cases hc'

/-- Digits come out of the loop only where they went in. -/
theorem take_repair (n : Nat) {rest : List Char} (h : ∀ c ∈ (repair true rest).take n, isHexDigit c = true) :
    (repair true rest).take n = rest.take n := by
  induction n generalizing rest with
  | zero => rfl
  | succ n ih =>
    cases rest with
    | nil => rw [repair]
    | cons c rest =>
      by_cases hplain : Plain c
      · rw [repair_plain hplain, List.take_succ_cons, List.forall_mem_cons] at h
        rw [repair_plain hplain, List.take_succ_cons, List.take_succ_cons, ih h.2]
      · exact absurd h (digits_not_plain n hplain)

/-! ## Literals -/

theorem isUnicodeDigits_iff (digits : List Char) :
    isUnicodeDigits digits = true ↔ digits.length = 4 ∧ ∀ c ∈ digits, Json.hexValue? c ≠ none := by
  rw [isUnicodeDigits, Bool.and_eq_true, decide_eq_true_eq, List.all_eq_true]
  simp only [isHexDigit_eq, Option.isSome_iff_ne_none]

theorem safe_plain (h : Plain c) (rest : List Char) :
    Json.Place.Safe .inside (c :: rest) ↔ Json.Place.Safe .inside rest := by
  obtain ⟨hquote, hbackslash, hcontrol⟩ := h
  refine Json.Place.safe_cons ?_ rest
  rw [Json.Place.next, if_neg hquote, if_neg hbackslash, if_neg]
  rw [isControlCharacter, decide_eq_false_iff_not] at hcontrol
  omega

theorem safe_digits (h : ∀ c ∈ digits, isHexDigit c = true) (rest : List Char) :
    Json.Place.Safe .inside (digits ++ rest) ↔ Json.Place.Safe .inside rest := by
  induction digits with
  | nil => rfl
  | cons c digits ih =>
    rw [List.forall_mem_cons] at h
    rw [List.cons_append, safe_plain (plain_of_isHexDigit h.1), ih h.2]

/-- A literal goes on safely after `\u` with four digits. -/
theorem safe_unicode (rest : List Char) :
    Json.Place.Safe .inside ('\\' :: 'u' :: rest) ↔
      isUnicodeDigits (rest.take 4) = true ∧ Json.Place.Safe .inside rest := by
  have hbackslash : Json.Place.next .inside '\\' = some .escape := rfl
  have hu : Json.Place.next .escape 'u' = some (.unicode 0) := rfl
  rw [Json.Place.safe_cons hbackslash, Json.Place.safe_cons hu, Json.Place.safe_unicode (by decide),
    isUnicodeDigits_iff, and_assoc]
  refine and_congr_right fun hlength => and_congr_right fun hdigits => ?_
  conv_rhs => rw [← List.take_append_drop 4 rest]
  refine (safe_digits (fun c hc => ?_) _).symm
  rw [isHexDigit_eq, Option.isSome_iff_ne_none]
  exact hdigits c hc

theorem safe_escape (h : next ∈ VALID_JSON_ESCAPES) (hu : next ≠ 'u') (rest : List Char) :
    Json.Place.Safe .inside ('\\' :: next :: rest) ↔ Json.Place.Safe .inside rest := by
  refine @Json.Place.safe_append .inside .inside ['\\', next] ?_ rest
  simp only [VALID_JSON_ESCAPES, List.mem_cons, List.not_mem_nil, or_false, hu] at h
  rcases h with rfl | rfl | rfl | rfl | rfl | rfl | rfl | rfl
  all_goals rfl

theorem isUnicodeDigits_repair (rest : List Char) :
    isUnicodeDigits ((repair true rest).take 4) = isUnicodeDigits (rest.take 4) := by
  rw [Bool.eq_iff_iff]
  constructor
  · intro h
    have hdigits := h
    rw [isUnicodeDigits, Bool.and_eq_true, List.all_eq_true] at hdigits
    rwa [take_repair 4 hdigits.2] at h
  · intro h
    have hdigits := h
    rw [isUnicodeDigits, Bool.and_eq_true, List.all_eq_true, decide_eq_true_eq] at hdigits
    rw [← List.take_append_drop 4 rest, repair_digits hdigits.2, List.take_left' hdigits.1]
    exact h

/-- Where a text stands at the beginning of the loop. -/
def placeOf (inString : Bool) : Json.Place := if inString then .inside else .outside

theorem next_outside (c : Char) : Json.Place.next .outside c = some (placeOf (c = '"')) := by
  by_cases hc : c = '"'
  · rw [decide_eq_true hc]
    exact congrArg some (if_pos hc)
  · rw [decide_eq_false hc]
    exact congrArg some (if_neg hc)

/-- **What is repaired is safe** where every `\u` has its digits, and nowhere else. -/
theorem safe_repair_iff (inString : Bool) (json : List Char) :
    (placeOf inString).Safe (repair inString json) ↔ WellEscaped inString json := by
  induction inString, json using repair_induction with
  | nil inString =>
    rw [repair, WellEscaped]
    refine iff_of_true ?_ trivial
    cases inString
    · exact .inl rfl
    · exact .inr rfl
  | outside c rest ih =>
    rw [repair_outside, WellEscaped.eq_def]
    dsimp only
    rw [← ih]
    exact Json.Place.safe_cons (next_outside c) _
  | quote rest ih =>
    rw [repair_quote, WellEscaped.eq_def]
    exact (Json.Place.safe_cons rfl _).trans ih
  | last =>
    rw [repair_last, WellEscaped.eq_def]
    exact iff_of_true (.inr rfl) trivial
  | escape next rest hnext ih =>
    rw [repair_escape hnext, WellEscaped.eq_def]
    dsimp only
    rw [if_neg (by decide), if_pos rfl]
    by_cases hu : next = 'u'
    · subst hu
      rw [if_pos rfl, placeOf, if_pos rfl, safe_unicode, isUnicodeDigits_repair, ← ih]
      rfl
    · rw [if_neg hu, if_pos hnext, ← ih]
      exact safe_escape hnext hu _
  | backslash next rest hnext ih =>
    rw [repair_backslash hnext, WellEscaped.eq_def]
    dsimp only
    have hu : next ≠ 'u' := fun h => hnext (h ▸ by decide)
    rw [if_neg (by decide), if_pos rfl, if_neg hu, if_neg hnext, ← ih]
    exact safe_escape (by decide) (by decide) _
  | control c rest hc ih =>
    have hquote : c ≠ '"' := by rintro rfl; exact absurd hc (by decide)
    have hbackslash : c ≠ '\\' := by rintro rfl; exact absurd hc (by decide)
    obtain ⟨-, -, -, -, -, hrun⟩ := escapeControlCharacter_spec hc
    rw [repair_control hc, WellEscaped.eq_def]
    dsimp only
    rw [if_neg hquote, if_neg hbackslash, ← ih]
    exact Json.Place.safe_append hrun _
  | plain c rest hc ih =>
    rw [repair_plain hc, WellEscaped.eq_def]
    dsimp only
    rw [if_neg hc.1, if_neg hc.2.1, ← ih]
    exact safe_plain hc _

theorem next_escape_none (h : next ∉ VALID_JSON_ESCAPES) : Json.Place.next .escape next = none := by
  simp only [VALID_JSON_ESCAPES, List.mem_cons, List.not_mem_nil, or_false, not_or] at h
  obtain ⟨hquote, hbackslash, hslash, hb, hf, hn, hr, ht, hu⟩ := h
  simp [Json.Place.next, Json.unescape, hquote, hbackslash, hslash, hb, hf, hn, hr, ht, hu]

theorem next_control_none (h : isControlCharacter c = true) : Json.Place.next .inside c = none := by
  have hall : ∀ n < 32, Json.Place.next .inside (Char.ofNat n) = none := by decide +kernel
  obtain ⟨n, hn, rfl⟩ := ofNat_of_isControlCharacter h
  exact hall n hn

/-- **A safe text is left unchanged.** -/
theorem repair_of_safe {inString : Bool} {json : List Char} (h : (placeOf inString).Safe json) :
    repair inString json = json := by
  induction inString, json using repair_induction with
  | nil inString => rw [repair]
  | outside c rest ih =>
    rw [repair_outside, ih]
    exact (Json.Place.safe_cons (next_outside c) _).mp h
  | quote rest ih =>
    rw [repair_quote, ih]
    exact (Json.Place.safe_cons rfl _).mp h
  | last => exact absurd h (by decide)
  | escape next rest hnext ih =>
    rw [repair_escape hnext, ih]
    by_cases hu : next = 'u'
    · subst hu
      exact ((safe_unicode rest).mp h).2
    · exact (safe_escape hnext hu rest).mp h
  | backslash next rest hnext ih =>
    have hplace : Json.Place.next .inside '\\' = some .escape := rfl
    have hescape := (Json.Place.safe_cons hplace _).mp h
    exact absurd hescape (Json.Place.not_safe_cons (next_escape_none hnext) rest)
  | control c rest hc ih => exact absurd h (Json.Place.not_safe_cons (next_control_none hc) rest)
  | plain c rest hc ih =>
    rw [repair_plain hc, ih]
    exact (safe_plain hc rest).mp h

/-! ## Repair -/

/-- What is asked of a repair: valid texts and repaired ones stay as they are, the literals of what
comes out are safe, and a mistake that is left is outside of them. -/
structure Repaired (ν : Type) [JsonNumber ν] (json : List Char) : Prop where
  unchanged : ∀ v : Json ν, Json.parse json = some v → repairJson json = json
  idempotent : repairJson (repairJson json) = repairJson json
  safe : Json.LiteralsSafe (repairJson json)
  outside : ∀ pre c rest (p : Json.Reader ν), repairJson json = pre ++ c :: rest →
    Json.run .initial pre = some p → Json.step p c = none → p.mode.place = .outside

variable {ν : Type} [JsonNumber ν]

theorem repairJson_of_parse {json : List Char} {v : Json ν} (h : Json.parse json = some v) :
    repairJson json = json := repair_of_safe (Json.literalsSafe_of_parse h)

/-- **A text is repaired** exactly where every `\u` in its literals has its digits. -/
theorem repairJson_repaired_iff (json : List Char) : Repaired ν json ↔ WellEscaped false json := by
  rw [← safe_repair_iff]
  refine ⟨fun h => h.safe, fun hsafe => ⟨fun _ => repairJson_of_parse, repair_repair _ _, hsafe, ?_⟩⟩
  intro pre c rest p heq hrun hstuck
  have hliterals : Json.LiteralsSafe (repairJson json) := hsafe
  rw [heq] at hliterals
  exact Json.outside_of_stuck hliterals hrun hstuck

/-- A path with a backslash before `users`. -/
theorem repairJson_users : ¬ Repaired Int ['"', '\\', 'u', 's', 'e', 'r', 's', '"'] := by
  intro h
  have hescaped : WellEscaped false ['"', '\\', 'u', 's', 'e', 'r', 's', '"'] :=
    (safe_repair_iff false _).mp h.safe
  rw [WellEscaped.eq_def] at hescaped
  dsimp only at hescaped
  rw [decide_eq_true rfl, WellEscaped.eq_def] at hescaped
  dsimp only at hescaped
  rw [if_neg (by decide), if_pos rfl, if_pos rfl] at hescaped
  exact absurd hescaped.1 (by decide)

end Mcpi.Ai
