import Mcpi.Lib.Json.Cut

/-!
# String literals in JSON texts

Where a text stands as to its string literals can be told without reading its values: a literal
goes from quote to quote, past the quotes that are escaped. `Place` is what a scan knows, and the
reader of JSON texts is never anywhere else.
-/

namespace Json

/-- Where a text stands as to its string literals. -/
inductive Place where
  | outside
  /-- in a literal -/
  | inside
  /-- after a backslash -/
  | escape
  /-- after `\u` and `count` hexadecimal digits -/
  | unicode (count : Nat)
  deriving DecidableEq

namespace Place

/-- One more character; none where a literal may not have it. -/
def next : Place → Char → Option Place
  | outside, c => some (if c = '"' then inside else outside)
  | inside, c =>
    if c = '"' then some outside
    else if c = '\\' then some escape
    else if c.toNat < 0x20 then none
    else some inside
  | escape, c => if c = 'u' then some (unicode 0) else (unescape c).map fun _ => inside
  | unicode count, c =>
    (hexValue? c).map fun _ => if count = 3 then inside else unicode (count + 1)

def run (place : Place) : List Char → Option Place
  | [] => some place
  | c :: cs => (place.next c).bind fun place' => place'.run cs

end Place

/-- From a place on no literal has a raw control character, and what a backslash begins in one is
an escape. The last literal may be without an end. -/
def Place.Safe (place : Place) (text : List Char) : Prop :=
  place.run text = some .outside ∨ place.run text = some .inside

instance (place : Place) (text : List Char) : Decidable (place.Safe text) :=
  inferInstanceAs (Decidable (_ ∨ _))

def LiteralsSafe (text : List Char) : Prop := Place.Safe .outside text

instance (text : List Char) : Decidable (LiteralsSafe text) :=
  inferInstanceAs (Decidable (Place.Safe .outside text))

variable {c : Char}

namespace Place

theorem safe_cons {place place' : Place} (h : place.next c = some place')
    (cs : List Char) : place.Safe (c :: cs) ↔ place'.Safe cs := by
  rw [Safe, Safe, run, h]
  rfl

theorem not_safe_cons {place : Place} (h : place.next c = none) (cs : List Char) : ¬ place.Safe (c :: cs) := by
  rw [Safe, run, h]
  rintro (h | h)
  · cases h
  · cases h

theorem run_append (place : Place) (cs ds : List Char) :
    place.run (cs ++ ds) = (place.run cs).bind fun place' => place'.run ds := by
  induction cs generalizing place with
  | nil => rfl
  | cons c cs ih =>
    rw [List.cons_append, Place.run, Place.run, Option.bind_assoc]
    exact congrArg _ (funext fun place' => ih place')

theorem safe_append {place place' : Place} {cs : List Char} (h : place.run cs = some place')
    (ds : List Char) : place.Safe (cs ++ ds) ↔ place'.Safe ds := by
  rw [Safe, Safe, run_append, h]
  rfl

theorem safe_unicode {count : Nat} (hcount : count < 4) (cs : List Char) :
    (unicode count).Safe cs ↔ (cs.take (4 - count)).length = 4 - count ∧
      (∀ c ∈ cs.take (4 - count), hexValue? c ≠ none) ∧ inside.Safe (cs.drop (4 - count)) := by
  induction cs generalizing count with
  | nil =>
    rw [List.take_nil, List.length_nil]
    refine ⟨?_, fun h => absurd h.1 (by omega)⟩
    rintro (h | h)
    · cases h
    · cases h
  | cons c cs ih =>
    rw [show 4 - count = 3 - count + 1 by omega, List.take_succ_cons, List.drop_succ_cons,
      List.forall_mem_cons, List.length_cons]
    cases hdigit : hexValue? c with
    | none =>
      refine iff_of_false (not_safe_cons (by rw [next, hdigit]; rfl) cs) ?_
      rintro ⟨-, ⟨hdigit', -⟩, -⟩
      exact hdigit' rfl
    | some digit =>
      rcases Nat.lt_or_ge count 3 with hlt | hge
      · rw [safe_cons (by rw [next, hdigit, Option.map_some, if_neg (by omega)]) cs,
          ih (by omega), show 4 - (count + 1) = 3 - count by omega]
        simp
      · rw [safe_cons (by rw [next, hdigit, Option.map_some, if_pos (by omega)]) cs,
          show 3 - count = 0 by omega]
        simp

end Place

/-! ## The reader -/

variable {ν : Type}

def Mode.place : Mode ν → Place
  | .string _ _ => .inside
  | .escape _ _ => .escape
  | .hex _ _ count _ => .unicode count
  | _ => .outside

/-- A key is read in an object that waits for one. -/
def Reader.Keyed (p : Reader ν) : Prop :=
  match p.mode with
  | .keyOrClose | .key | .string true _ | .escape true _ | .hex true _ _ _ =>
    ∃ before stack, p.stack = .obj before none :: stack
  | _ => True

variable {γ : List (Frame ν)}

theorem afterValue_place {v : Json ν} {q : Reader ν}
    (h : afterValue γ v c = some q) : c ≠ '"' ∧ q.mode.place = .outside ∧ q.Keyed := by
  unfold afterValue at h
  split at h
  next hwhite =>
    cases h
    refine ⟨?_, rfl, trivial⟩
    rintro rfl
    exact absurd hwhite (by decide)
  split at h
  · split at h
    next hc =>
      cases h
      exact ⟨hc ▸ by decide, rfl, trivial⟩
    obtain ⟨hc, ⟨⟩⟩ := Option.ite_none_right_eq_some.mp h
    exact ⟨hc ▸ by decide, rfl, trivial⟩
  · split at h
    next hc =>
      cases h
      exact ⟨hc ▸ by decide, rfl, _, _, rfl⟩
    obtain ⟨hc, ⟨⟩⟩ := Option.ite_none_right_eq_some.mp h
    exact ⟨hc ▸ by decide, rfl, trivial⟩
  · cases h

theorem startValue_place {q : Reader ν} (h : startValue γ c = some q) :
    q.mode.place = (if c = '"' then .inside else .outside) ∧ q.Keyed := by
  unfold startValue at h
  split at h
  next hc =>
    cases h
    exact ⟨(if_pos hc).symm, trivial⟩
  next hc =>
    rw [if_neg hc]
    split at h
    · cases h; exact ⟨rfl, _, _, rfl⟩
    split at h
    · cases h; exact ⟨rfl, trivial⟩
    split at h
    · cases h; exact ⟨rfl, trivial⟩
    split at h
    · cases h; exact ⟨rfl, trivial⟩
    split at h
    · cases h; exact ⟨rfl, trivial⟩
    · obtain ⟨st, -, rfl⟩ := Option.map_eq_some_iff.mp h
      exact ⟨rfl, trivial⟩

theorem endString_place {isKey : Bool} {text : Text} {q : Reader ν}
    (h : endString γ isKey text = some q) : q.mode.place = .outside ∧ q.Keyed := by
  unfold endString at h
  split at h
  · split at h
    · cases h; exact ⟨rfl, trivial⟩
    · cases h
  · cases h; exact ⟨rfl, trivial⟩

theorem next_quote (st : NumberState) : st.next '"' = none := by cases st <;> rfl

theorem white_ne_quote (h : isWhitespace c = true) : c ≠ '"' := by
  rintro rfl
  exact absurd h (by decide)

/-! ### One character

Outside of a literal a quote begins one, and only where a value or a key may begin. -/

/-- The reader is where the scan goes, and a key is read in an object. -/
def Reader.Follows (q : Reader ν) (place : Place) (c : Char) : Prop :=
  place.next c = some q.mode.place ∧ q.Keyed

section Follows

variable {q : Reader ν} {isKey : Bool} {text : Text}

theorem follows_outside (hc : c ≠ '"') (hplace : q.mode.place = .outside) (hkeyed : q.Keyed) :
    q.Follows .outside c := by
  refine ⟨?_, hkeyed⟩
  rw [Place.next, if_neg hc, hplace]

theorem follows_startValue (h : startValue γ c = some q) : q.Follows .outside c := by
  obtain ⟨hplace, hkeyed⟩ := startValue_place h
  exact ⟨congrArg some hplace.symm, hkeyed⟩

theorem follows_afterValue {v : Json ν} (h : afterValue γ v c = some q) : q.Follows .outside c := by
  obtain ⟨hc, hplace, hkeyed⟩ := afterValue_place h
  exact follows_outside hc hplace hkeyed

variable [JsonNumber ν]

theorem follows_value (h : step ⟨γ, .value⟩ c = some q) : q.Follows .outside c := by
  unfold step at h
  dsimp only at h
  split at h
  next hwhite =>
    cases h
    exact follows_outside (white_ne_quote hwhite) rfl trivial
  next => exact follows_startValue h

theorem follows_valueOrClose (h : step ⟨γ, .valueOrClose⟩ c = some q) : q.Follows .outside c := by
  unfold step at h
  dsimp only at h
  split at h
  next hwhite =>
    cases h
    exact follows_outside (white_ne_quote hwhite) rfl trivial
  split at h
  next hc =>
    split at h
    · cases h
      exact follows_outside (hc ▸ by decide) rfl trivial
    · cases h
  next => exact follows_startValue h

theorem follows_keyOrClose (hk : Reader.Keyed ⟨γ, .keyOrClose⟩) (h : step ⟨γ, .keyOrClose⟩ c = some q) :
    q.Follows .outside c := by
  unfold step at h
  dsimp only at h
  split at h
  next hwhite =>
    cases h
    exact follows_outside (white_ne_quote hwhite) rfl hk
  split at h
  next hc =>
    split at h
    · cases h
      exact follows_outside (hc ▸ by decide) rfl trivial
    · cases h
  obtain ⟨hc, ⟨⟩⟩ := Option.ite_none_right_eq_some.mp h
  exact ⟨congrArg some (if_pos hc), hk⟩

theorem follows_key (hk : Reader.Keyed ⟨γ, .key⟩) (h : step ⟨γ, .key⟩ c = some q) : q.Follows .outside c := by
  unfold step at h
  dsimp only at h
  split at h
  next hwhite =>
    cases h
    exact follows_outside (white_ne_quote hwhite) rfl hk
  obtain ⟨hc, ⟨⟩⟩ := Option.ite_none_right_eq_some.mp h
  exact ⟨congrArg some (if_pos hc), hk⟩

theorem follows_colon (h : step ⟨γ, .colon⟩ c = some q) : q.Follows .outside c := by
  unfold step at h
  dsimp only at h
  split at h
  next hwhite =>
    cases h
    exact follows_outside (white_ne_quote hwhite) rfl trivial
  obtain ⟨hc, ⟨⟩⟩ := Option.ite_none_right_eq_some.mp h
  exact follows_outside (hc ▸ by decide) rfl trivial

theorem follows_string (hk : Reader.Keyed ⟨γ, .string isKey text⟩)
    (h : step ⟨γ, .string isKey text⟩ c = some q) : q.Follows .inside c := by
  rw [step_string] at h
  rw [Reader.Follows, Place.next]
  split at h
  next hc =>
    obtain ⟨hplace, hkeyed⟩ := endString_place h
    rw [if_pos hc, hplace]
    exact ⟨rfl, hkeyed⟩
  next hc =>
    rw [if_neg hc]
    split at h
    next hc' =>
      cases h
      rw [if_pos hc']
      exact ⟨rfl, by cases isKey <;> exact hk⟩
    next hc' =>
      rw [if_neg hc']
      obtain ⟨hc'', ⟨⟩⟩ := Option.ite_none_left_eq_some.mp h
      rw [if_neg hc'']
      exact ⟨rfl, by cases isKey <;> exact hk⟩

theorem follows_escape (hk : Reader.Keyed ⟨γ, .escape isKey text⟩)
    (h : step ⟨γ, .escape isKey text⟩ c = some q) : q.Follows .escape c := by
  rw [step_escape] at h
  rw [Reader.Follows, Place.next]
  split at h
  next hc =>
    cases h
    rw [if_pos hc]
    exact ⟨rfl, by cases isKey <;> exact hk⟩
  next hc =>
    obtain ⟨c', hunescape, rfl⟩ := Option.map_eq_some_iff.mp h
    rw [if_neg hc, hunescape]
    exact ⟨rfl, by cases isKey <;> exact hk⟩

/-- No letter of a name is a quote. -/
theorem follows_literal {rest : List Char} {v : Json ν} (hs : Reader.Sound ⟨γ, .literal rest v⟩)
    (h : step ⟨γ, .literal rest v⟩ c = some q) : q.Follows .outside c := by
  have hletter : ∀ letter ∈ rest, c = letter → c ≠ '"' := by
    rintro _ hmem rfl rfl
    exact absurd (hs _ _ rfl _ hmem) (by decide)
  unfold step at h
  dsimp only at h
  split at h
  · cases h
  next letter =>
    obtain ⟨hc, ⟨⟩⟩ := Option.ite_none_right_eq_some.mp h
    exact follows_outside (hletter letter List.mem_cons_self hc) rfl trivial
  next letter rest _ =>
    obtain ⟨hc, ⟨⟩⟩ := Option.ite_none_right_eq_some.mp h
    exact follows_outside (hletter letter List.mem_cons_self hc) rfl trivial

theorem follows_number {st : NumberState} {token : List Char} (h : step ⟨γ, .number st token⟩ c = some q) :
    q.Follows .outside c := by
  unfold step at h
  dsimp only at h
  split at h
  next st' hnext =>
    cases h
    refine follows_outside ?_ rfl trivial
    rintro rfl
    exact nomatch (next_quote st).symm.trans hnext
  next =>
    obtain ⟨-, h⟩ := Option.ite_none_right_eq_some.mp h
    exact follows_afterValue h

end Follows

variable [JsonNumber ν]

/-- **The reader goes where the scan goes**, in a text without a mistake. -/
theorem step_place {p q : Reader ν} (hs : p.Sound) (hk : p.Keyed) (h : step p c = some q) :
    q.Follows p.mode.place c := by
  obtain ⟨γ, m⟩ := p
  cases m with
  | value => exact follows_value h
  | valueOrClose => exact follows_valueOrClose h
  | keyOrClose => exact follows_keyOrClose hk h
  | key => exact follows_key hk h
  | colon => exact follows_colon h
  | done v => exact follows_afterValue h
  | string isKey text => exact follows_string hk h
  | escape isKey text => exact follows_escape hk h
  | hex isKey text count unit =>
    obtain ⟨digit, hdigit, rfl⟩ := Option.map_eq_some_iff.mp h
    rw [Reader.Follows, Mode.place, Place.next, hdigit, Option.map_some]
    split
    · exact ⟨rfl, by cases isKey <;> exact hk⟩
    · exact ⟨rfl, by cases isKey <;> exact hk⟩
  | literal rest v => exact follows_literal hs h
  | number st token => exact follows_number h

/-- **In a literal the reader stops only where the scan does.** -/
theorem step_ne_none {p : Reader ν} (hk : p.Keyed) (hplace : p.mode.place ≠ .outside)
    (hnext : p.mode.place.next c ≠ none) : step p c ≠ none := by
  obtain ⟨γ, m⟩ := p
  cases m with
  | string isKey text =>
    rw [step_string]
    rw [Mode.place, Place.next] at hnext
    split
    next hc =>
      cases isKey with
      | false => exact Option.some_ne_none _
      | true =>
        obtain ⟨before, stack, rfl⟩ : ∃ before stack, γ = .obj before none :: stack := hk
        exact Option.some_ne_none _
    next hc =>
      rw [if_neg hc] at hnext
      split
      · exact Option.some_ne_none _
      next hc' =>
        rw [if_neg hc'] at hnext
        split
        next hc'' => exact absurd (if_pos hc'') hnext
        · exact Option.some_ne_none _
  | escape isKey text =>
    rw [step_escape]
    rw [Mode.place, Place.next] at hnext
    split
    · exact Option.some_ne_none _
    next hc =>
      rw [if_neg hc, ne_eq, Option.map_eq_none_iff] at hnext
      rw [ne_eq, Option.map_eq_none_iff]
      exact hnext
  | hex isKey text count unit =>
    rw [step_hex]
    rw [Mode.place, Place.next, ne_eq, Option.map_eq_none_iff] at hnext
    rw [ne_eq, Option.map_eq_none_iff]
    exact hnext
  | _ => exact absurd rfl hplace

theorem run_place {p q : Reader ν} {cs : List Char} (hs : p.Sound) (hk : p.Keyed)
    (h : run p cs = some q) : p.mode.place.run cs = some q.mode.place ∧ q.Keyed := by
  induction cs generalizing p with
  | nil =>
    cases h
    exact ⟨rfl, hk⟩
  | cons c cs ih =>
    obtain ⟨p', hstep, hrun⟩ := Option.bind_eq_some_iff.mp h
    obtain ⟨hplace, hk'⟩ := step_place hs hk hstep
    rw [Place.run, hplace]
    exact ih (step_props hs hstep).1 hk' hrun

/-- **The literals of a JSON text are safe.** -/
theorem literalsSafe_of_parse {text : List Char} {v : Json ν} (h : parse text = some v) : LiteralsSafe text := by
  obtain ⟨q, hrun, hfinish⟩ := Option.bind_eq_some_iff.mp h
  obtain ⟨hplace, -⟩ := run_place Reader.initial_sound trivial hrun
  refine .inl (hplace.trans (congrArg some ?_))
  -- What ends a text is a value that is done, or a number.
  unfold finish at hfinish
  split at hfinish
  next hmode => rw [hmode]; rfl
  next hmode => rw [hmode]; rfl
  · cases hfinish

/-- **Where literals are safe a mistake is outside of them.** -/
theorem outside_of_stuck {pre rest : List Char} {p : Reader ν}
    (hsafe : LiteralsSafe (pre ++ c :: rest)) (hrun : run .initial pre = some p)
    (hstuck : step p c = none) : p.mode.place = .outside := by
  obtain ⟨hplace, hk⟩ := run_place Reader.initial_sound trivial hrun
  by_contra hinside
  refine step_ne_none hk hinside (fun hnone => ?_) hstuck
  have hnowhere : Place.run .outside (pre ++ c :: rest) = none := by
    rw [Place.run_append, show Place.run .outside pre = _ from hplace, Option.bind_some, Place.run, hnone]
    rfl
  rcases hsafe with h | h
  · exact nomatch hnowhere.symm.trans h
  · exact nomatch hnowhere.symm.trans h

end Json
