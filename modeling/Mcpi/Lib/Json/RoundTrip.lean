import Mcpi.Lib.Json.Text

/-!
# The reader against the writer

`parse` inverts `stringify`. The induction says more than that: while the text of a value
is read, the stack never falls below the height it had before, and between the braces of
an object it stays above it. A text of an object that is cut off anywhere therefore leaves
the reader inside an open container, from where the end of the text is an error and where
the beginning of another object, read as a continuation, changes nothing.
-/

namespace Json

variable {ν : Type} [JsonNumber ν]

/-! ## Runs -/

/-- From `p` the characters lead to `q`, and after each of them at least `k` containers are
open. -/
inductive Steps (k : Nat) : Reader ν → List Char → Reader ν → Prop
  | nil {p : Reader ν} : Steps k p [] p
  | cons {p p' q : Reader ν} {c : Char} {cs : List Char} : step p c = some p' →
      k ≤ p'.stack.length → Steps k p' cs q → Steps k p (c :: cs) q

theorem Steps.trans {k : Nat} {p q r : Reader ν} {cs ds : List Char} (h : Steps k p cs q)
    (h' : Steps k q ds r) : Steps k p (cs ++ ds) r := by
  induction h with
  | nil => exact h'
  | cons hstep hk _ ih => exact .cons hstep hk (ih h')

variable {p q : Reader ν}

theorem Steps.via {k : Nat} {c : Char} {cs : List Char} (p' : Reader ν)
    (hstep : step p c = some p') (hk : k ≤ p'.stack.length) (h : Steps k p' cs q) :
    Steps k p (c :: cs) q := .cons hstep hk h

theorem Steps.single {k : Nat} {c : Char} (h : step p c = some q)
    (hk : k ≤ q.stack.length) : Steps k p [c] q := .cons h hk .nil

theorem Steps.run_eq {k : Nat} {cs : List Char} (h : Steps k p cs q) : run p cs = some q := by
  induction h with
  | nil => rfl
  | cons hstep _ _ ih => rw [run, hstep, Option.bind_some, ih]

theorem run_append (p : Reader ν) (cs ds : List Char) : run p (cs ++ ds) = (run p cs).bind fun q => run q ds := by
  induction cs generalizing p with
  | nil => rfl
  | cons c cs ih =>
    rw [List.cons_append, run, run]
    cases step p c with
    | none => rfl
    | some p' => exact ih p'

theorem Steps.of_append {k : Nat} {cs ds : List Char} (h : Steps k p (cs ++ ds) q) (hk : k ≤ p.stack.length) :
    ∃ p', run p cs = some p' ∧ k ≤ p'.stack.length := by
  induction cs generalizing p with
  | nil => exact ⟨p, rfl, hk⟩
  | cons c cs ih =>
    cases h with
    | @cons _ p' _ _ _ hstep hle hrest =>
      obtain ⟨p'', hrun, hle'⟩ := ih hrest hle
      exact ⟨p'', by rw [run, hstep, Option.bind_some, hrun], hle'⟩

/-! ## The reader, mode by mode -/

section Modes

variable (γ : List (Frame ν)) (c : Char)

theorem step_done (v : Json ν) : step ⟨γ, .done v⟩ c = afterValue γ v c := rfl

theorem step_string (isKey : Bool) (text : Text) :
    step ⟨γ, .string isKey text⟩ c =
      if c = '"' then endString γ isKey text
      else if c = '\\' then some ⟨γ, .escape isKey text⟩
      else if c.toNat < 0x20 then none
      else some ⟨γ, .string isKey (text.pushChar c)⟩ := rfl

theorem step_escape (isKey : Bool) (text : Text) :
    step ⟨γ, .escape isKey text⟩ c =
      if c = 'u' then some ⟨γ, .hex isKey text 0 0⟩
      else (unescape c).map fun c' => ⟨γ, .string isKey (text.pushChar c')⟩ := rfl

theorem step_hex (isKey : Bool) (text : Text) (count unit : Nat) :
    step ⟨γ, .hex isKey text count unit⟩ c = (hexValue? c).map fun h =>
        if count = 3 then ⟨γ, .string isKey (text.pushUnit (unit * 16 + h))⟩
        else ⟨γ, .hex isKey text (count + 1) (unit * 16 + h)⟩ := rfl

theorem step_number (st : NumberState) (token : List Char) :
    step ⟨γ, .number st token⟩ c =
      match st.next c with
      | some st' => some ⟨γ, .number st' (token ++ [c])⟩
      | none => if st.final then afterValue γ (.num (JsonNumber.value token)) c else none := rfl

end Modes

variable {k : Nat} {γ : List (Frame ν)} {m : Mode ν}

/-! ## Strings -/

theorem hexValue?_hexDigit : ∀ d, d < 16 → hexValue? (hexDigit d) = some d := by decide

theorem Text.pushUnit_control {acc : List Char} {c : Char} (h : c.toNat < 0x20) :
    Text.pushUnit ⟨acc, none⟩ c.toNat = ⟨acc ++ [c], none⟩ := by
  rw [Text.pushUnit, if_neg (by omega), if_neg (by omega), Char.ofNat_toNat]
  simp [Text.pushChar, Text.flush]

theorem pushChar_eq (acc : List Char) (c : Char) : Text.pushChar ⟨acc, none⟩ c = ⟨acc ++ [c], none⟩ := by
  simp [Text.pushChar, Text.flush]

theorem steps_escapeChar (hk : k ≤ γ.length) (isKey : Bool) (acc : List Char) (c : Char) :
    Steps k ⟨γ, .string isKey ⟨acc, none⟩⟩ (escapeChar c) ⟨γ, .string isKey ⟨acc ++ [c], none⟩⟩ := by
  -- a backslash and a letter
  have hshort : ∀ e : Char, e ≠ 'u' → unescape e = some c →
      Steps k ⟨γ, .string isKey ⟨acc, none⟩⟩ ['\\', e] ⟨γ, .string isKey ⟨acc ++ [c], none⟩⟩ := by
    intro e hu he
    refine .via ⟨γ, .escape isKey ⟨acc, none⟩⟩ ?_ hk (.single ?_ hk)
    · rw [step_string, if_neg (by decide), if_pos rfl]
    · rw [step_escape, if_neg hu, he, Option.map_some, pushChar_eq]
  unfold escapeChar
  split
  next h => exact hshort '"' (by decide) (by rw [h]; rfl)
  split
  next h => exact hshort '\\' (by decide) (by rw [h]; rfl)
  split
  next h => exact hshort 'b' (by decide) (by rw [← Char.ofNat_toNat c, h]; rfl)
  split
  next h => exact hshort 'f' (by decide) (by rw [← Char.ofNat_toNat c, h]; rfl)
  split
  next h => exact hshort 'n' (by decide) (by rw [h]; rfl)
  split
  next h => exact hshort 'r' (by decide) (by rw [h]; rfl)
  split
  next h => exact hshort 't' (by decide) (by rw [h]; rfl)
  split
  next h =>
    have hhi : hexValue? (hexDigit (c.toNat / 16)) = some (c.toNat / 16) :=
      hexValue?_hexDigit _ (by omega)
    have hlo : hexValue? (hexDigit (c.toNat % 16)) = some (c.toNat % 16) :=
      hexValue?_hexDigit _ (by omega)
    have hzero : hexValue? '0' = some 0 := rfl
    refine .via ⟨γ, .escape isKey ⟨acc, none⟩⟩ (by rw [step_string, if_neg (by decide), if_pos rfl]) hk ?_
    refine .via ⟨γ, .hex isKey ⟨acc, none⟩ 0 0⟩ (by rw [step_escape, if_pos rfl]) hk ?_
    refine .via ⟨γ, .hex isKey ⟨acc, none⟩ 1 0⟩ (by simp [step_hex, hzero]) hk ?_
    refine .via ⟨γ, .hex isKey ⟨acc, none⟩ 2 0⟩ (by simp [step_hex, hzero]) hk ?_
    refine .via ⟨γ, .hex isKey ⟨acc, none⟩ 3 (c.toNat / 16)⟩ (by simp [step_hex, hhi]) hk ?_
    refine .single ?_ hk
    rw [step_hex, hlo, Option.map_some, if_pos rfl, Nat.div_add_mod', Text.pushUnit_control h]
  next h₁ h₂ _ _ _ _ _ h =>
    refine .single ?_ hk
    rw [step_string, if_neg h₁, if_neg h₂, if_neg h, pushChar_eq]

theorem steps_escaped (hk : k ≤ γ.length) (isKey : Bool) (s : List Char) : ∀ acc : List Char,
    Steps k ⟨γ, .string isKey ⟨acc, none⟩⟩ (s.flatMap escapeChar) ⟨γ, .string isKey ⟨acc ++ s, none⟩⟩ := by
  induction s with
  | nil => intro acc; simpa using Steps.nil
  | cons c s ih =>
    intro acc
    have h := (steps_escapeChar hk isKey acc c).trans (ih (acc ++ [c]))
    rwa [List.append_assoc, List.singleton_append] at h

/-- Reading back a string literal, its closing quote included. -/
theorem steps_stringBody {q : Reader ν} (hk : k ≤ γ.length)
    (isKey : Bool) (s : String) (hend : endString γ isKey ⟨s.toList, none⟩ = some q)
    (hq : k ≤ q.stack.length) :
    Steps k ⟨γ, .string isKey ⟨[], none⟩⟩ (stringBody s.toList) q := by
  refine (steps_escaped hk isKey s.toList []).trans (.single ?_ hq)
  rw [step_string, if_pos rfl, List.nil_append, hend]

theorem ofList_flush (s : String) : String.ofList (Text.flush ⟨s.toList, none⟩) = s := by
  simp [Text.flush]

/-! ## Values -/

/-- The reader has read the value `v` and nothing after it. -/
def Reads (γ : List (Frame ν)) (v : Json ν) (p : Reader ν) : Prop :=
  p = ⟨γ, .done v⟩ ∨ ∃ st token, p = ⟨γ, .number st token⟩ ∧ st.final = true ∧ v = .num (JsonNumber.value token)

/-- Characters that end a value without being white space. -/
def IsCloser (c : Char) : Prop := c = ',' ∨ c = ']' ∨ c = '}'

variable {st : NumberState}

omit [JsonNumber ν] in
theorem next_closer {c : Char} (h : IsCloser c) : st.next c = none := by
  rcases h with rfl | rfl | rfl <;> cases st <;> rfl

theorem Reads.step_eq {v : Json ν} {p : Reader ν} {c : Char}
    (h : Reads γ v p) (hc : IsCloser c) : step p c = afterValue γ v c := by
  rcases h with rfl | ⟨st, token, rfl, hfinal, rfl⟩
  · rfl
  · rw [step_number, next_closer hc]
    exact if_pos hfinal

theorem Reads.finish_eq {v : Json ν} {p : Reader ν} (h : Reads [] v p) : finish p = some v := by
  rcases h with rfl | ⟨st, token, rfl, hfinal, rfl⟩
  · rfl
  · simp [finish, hfinal]

/-- The reader is about to read a value. -/
def Mode.Opens (m : Mode ν) : Prop := m = .value ∨ m = .valueOrClose

/-- The reader is about to read a key. -/
def Mode.OpensKey (m : Mode ν) : Prop := m = .key ∨ m = .keyOrClose

theorem step_opens {c : Char} (hm : m.Opens)
    (hw : isWhitespace c = false) (hc : c ≠ ']') : step ⟨γ, m⟩ c = startValue γ c := by
  rcases hm with rfl | rfl
  · simp [step, hw]
  · simp [step, hw, hc]

theorem step_opensKey (hm : m.OpensKey) : step ⟨γ, m⟩ '"' = some ⟨γ, .string true ⟨[], none⟩⟩ := by
  rcases hm with rfl | rfl <;> rfl

theorem step_openArr (hm : m.Opens) : step ⟨γ, m⟩ '[' = some ⟨.arr [] :: γ, .valueOrClose⟩ := by
  rcases hm with rfl | rfl <;> rfl

theorem step_openObj (hm : m.Opens) : step ⟨γ, m⟩ '{' = some ⟨.obj [] none :: γ, .keyOrClose⟩ := by
  rcases hm with rfl | rfl <;> rfl

theorem steps_stringLiteral (hk : k ≤ γ.length) (hm : m.Opens) (s : String) :
    Steps k ⟨γ, m⟩ (stringLiteral s) ⟨γ, .done (.str s)⟩ := by
  refine .via ⟨γ, .string false ⟨[], none⟩⟩ ?_ hk (steps_stringBody hk false s (by simp [endString, ofList_flush]) hk)
  rw [step_opens hm (by decide) (by decide)]
  rfl

theorem steps_key {before : List (String × Json ν)} (hk : k ≤ γ.length + 1) (hm : m.OpensKey) (key : String) :
    Steps k ⟨.obj before none :: γ, m⟩ (stringLiteral key ++ [':']) ⟨.obj before (some key) :: γ, .value⟩ := by
  have hend : endString (.obj before none :: γ) true ⟨key.toList, none⟩ =
      some ⟨.obj before (some key) :: γ, .colon⟩ := by
    simp only [endString, if_true, ofList_flush]
  exact .cons (step_opensKey hm) hk ((steps_stringBody hk true key hend hk).trans (.single rfl hk))

omit [JsonNumber ν] in
theorem start_char {c : Char} (h : NumberState.start c = some st) : c = '-' ∨ c.isDigit = true := by
  unfold NumberState.start at h
  split at h
  next hc => exact Or.inl hc
  split at h
  next hc => subst hc; exact Or.inr rfl
  split at h
  next hc => exact Or.inr hc
  · cases h

omit [JsonNumber ν] in
theorem startValue_number {c : Char} (h : NumberState.start c = some st) :
    startValue γ c = some ⟨γ, .number st [c]⟩ ∧ isWhitespace c = false ∧ c ≠ ']' := by
  have hne : ∀ d : Char, d ≠ '-' → d.isDigit = false → c ≠ d := by
    rintro d hd hdigit rfl
    rcases start_char h with rfl | hc
    · exact hd rfl
    · rw [hdigit] at hc; cases hc
  refine ⟨?_, ?_, hne _ (by decide) (by decide)⟩
  · rw [startValue, if_neg (hne _ (by decide) (by decide)), if_neg (hne _ (by decide) (by decide)),
      if_neg (hne _ (by decide) (by decide)), if_neg (hne _ (by decide) (by decide)),
      if_neg (hne _ (by decide) (by decide)), if_neg (hne _ (by decide) (by decide)), h]
    rfl
  · simp [isWhitespace, hne ' ' (by decide) (by decide), hne '\t' (by decide) (by decide),
      hne '\n' (by decide) (by decide), hne '\r' (by decide) (by decide)]

theorem steps_token (hk : k ≤ γ.length) (cs : List Char) :
    ∀ (st st' : NumberState) (token : List Char), st.run cs = some st' →
      Steps k ⟨γ, .number st token⟩ cs ⟨γ, .number st' (token ++ cs)⟩ := by
  induction cs with
  | nil =>
    intro st st' token h
    cases h
    simpa using Steps.nil
  | cons c cs ih =>
    intro st st' token h
    obtain ⟨st₁, hnext, hrun⟩ := Option.bind_eq_some_iff.mp h
    refine .via ⟨γ, .number st₁ (token ++ [c])⟩ (by rw [step_number, hnext]) hk ?_
    have := ih st₁ st' (token ++ [c]) hrun
    rwa [List.append_assoc, List.singleton_append] at this

theorem steps_number (hk : k ≤ γ.length) (hm : m.Opens) (n : ν) :
    ∃ p, Steps k ⟨γ, m⟩ (JsonNumber.text n) p ∧ Reads γ (.num n) p := by
  obtain ⟨c, cs, st, st', htext, hstart, hrun, hfinal⟩ := JsonNumber.isNumberToken_text n
  obtain ⟨hvalue, hw, hc⟩ := startValue_number (γ := γ) hstart
  refine ⟨⟨γ, .number st' ([c] ++ cs)⟩, ?_, Or.inr ⟨st', _, rfl, hfinal, ?_⟩⟩
  · rw [htext]
    refine .cons ?_ hk (steps_token hk cs st st' [c] hrun)
    rw [step_opens hm hw hc, hvalue]
  · rw [List.singleton_append, ← htext, JsonNumber.value_text]

theorem steps_literal (hk : k ≤ γ.length) (v : Json ν)
    (cs : List Char) : ∀ c, Steps k ⟨γ, .literal (c :: cs) v⟩ (c :: cs) ⟨γ, .done v⟩ := by
  induction cs with
  | nil => exact fun c => .single (by simp [step]) hk
  | cons c' cs ih =>
    exact fun c => .via ⟨γ, .literal (c' :: cs) v⟩ (by simp [step]) hk (ih c')

mutual
/-- **Reading back a value.** The stack never falls below the height it had before. -/
theorem steps_value {k : Nat} {γ : List (Frame ν)} {m : Mode ν} (hk : k ≤ γ.length)
    (hm : m.Opens) : ∀ v : Json ν, ∃ p, Steps k ⟨γ, m⟩ (stringify v) p ∧ Reads γ v p
  | .null => by
    refine ⟨⟨γ, .done .null⟩, ?_, Or.inl rfl⟩
    exact .cons (by rw [step_opens hm (by decide) (by decide)]; rfl) hk (steps_literal hk _ ['l', 'l'] 'u')
  | .bool true => by
    refine ⟨⟨γ, .done (.bool true)⟩, ?_, Or.inl rfl⟩
    exact .cons (by rw [step_opens hm (by decide) (by decide)]; rfl) hk (steps_literal hk _ ['u', 'e'] 'r')
  | .bool false => by
    refine ⟨⟨γ, .done (.bool false)⟩, ?_, Or.inl rfl⟩
    exact .cons (by rw [step_opens hm (by decide) (by decide)]; rfl) hk (steps_literal hk _ ['l', 's', 'e'] 'a')
  | .num n => steps_number hk hm n
  | .str s => ⟨⟨γ, .done (.str s)⟩, steps_stringLiteral hk hm s, Or.inl rfl⟩
  | .arr [] => by
    refine ⟨⟨γ, .done (.arr [])⟩, ?_, Or.inl rfl⟩
    exact .cons (step_openArr hm) (Nat.le_succ_of_le hk) (.single rfl hk)
  | .arr (v :: vs) => by
    obtain ⟨p, hsteps, hclose⟩ := steps_items (Nat.le_succ_of_le hk) (Or.inr rfl) [] (v :: vs) (List.cons_ne_nil v vs)
    refine ⟨⟨γ, .done (.arr (v :: vs))⟩, ?_, Or.inl rfl⟩
    exact .cons (step_openArr hm) (Nat.le_succ_of_le hk) (hsteps.trans (.single hclose hk))
  | .obj [] => by
    refine ⟨⟨γ, .done (.obj [])⟩, ?_, Or.inl rfl⟩
    exact .cons (step_openObj hm) (Nat.le_succ_of_le hk) (.single rfl hk)
  | .obj (f :: fs) => by
    obtain ⟨p, hsteps, hclose⟩ := steps_members (Nat.le_succ_of_le hk) (Or.inr rfl) [] (f :: fs) (List.cons_ne_nil f fs)
    refine ⟨⟨γ, .done (.obj (f :: fs))⟩, ?_, Or.inl rfl⟩
    exact .cons (step_openObj hm) (Nat.le_succ_of_le hk) (hsteps.trans (.single hclose hk))

/-- The items of an array, up to the closing bracket. -/
theorem steps_items {k : Nat} {γ : List (Frame ν)} {m : Mode ν} (hk : k ≤ γ.length + 1)
    (hm : m.Opens) (before : List (Json ν)) :
    ∀ items : List (Json ν), items ≠ [] → ∃ p, Steps k ⟨.arr before :: γ, m⟩ (stringifyItems items) p ∧
        step p ']' = some ⟨γ, .done (.arr (before ++ items))⟩
  | [], hne => absurd rfl hne
  | [v], _ => by
    obtain ⟨p, hsteps, hreads⟩ := steps_value (γ := .arr before :: γ) hk hm v
    exact ⟨p, hsteps, by rw [hreads.step_eq (Or.inr (Or.inl rfl))]; rfl⟩
  | v :: w :: vs, _ => by
    obtain ⟨p, hsteps, hreads⟩ := steps_value (γ := .arr before :: γ) hk hm v
    obtain ⟨q, hsteps', hclose⟩ := steps_items hk (Or.inl rfl) (before ++ [v]) (w :: vs) (List.cons_ne_nil w vs)
    have hcomma : step p ',' = some ⟨.arr (before ++ [v]) :: γ, .value⟩ := by
      rw [hreads.step_eq (Or.inl rfl)]
      rfl
    exact ⟨q, hsteps.trans (.cons hcomma hk hsteps'), by rw [hclose, ← List.append_cons]⟩

/-- The members of an object, up to the closing brace. -/
theorem steps_members {k : Nat} {γ : List (Frame ν)} {m : Mode ν} (hk : k ≤ γ.length + 1)
    (hm : m.OpensKey) (before : List (String × Json ν)) :
    ∀ members : List (String × Json ν), members ≠ [] →
      ∃ p, Steps k ⟨.obj before none :: γ, m⟩ (stringifyMembers members) p ∧
        step p '}' = some ⟨γ, .done (.obj (before ++ members))⟩
  | [], hne => absurd rfl hne
  | [(key, v)], _ => by
    obtain ⟨p, hsteps, hreads⟩ := steps_value (γ := .obj before (some key) :: γ) hk (Or.inl rfl) v
    refine ⟨p, ?_, by rw [hreads.step_eq (Or.inr (Or.inr rfl))]; rfl⟩
    have h := (steps_key hk hm key).trans hsteps
    rwa [List.append_assoc] at h
  | (key, v) :: f :: fs, _ => by
    obtain ⟨p, hsteps, hreads⟩ := steps_value (γ := .obj before (some key) :: γ) hk (Or.inl rfl) v
    obtain ⟨q, hsteps', hclose⟩ := steps_members hk (Or.inl rfl) (before ++ [(key, v)]) (f :: fs)
      (List.cons_ne_nil f fs)
    refine ⟨q, ?_, by rw [hclose, ← List.append_cons]⟩
    have hcomma : step p ',' = some ⟨.obj (before ++ [(key, v)]) none :: γ, .key⟩ := by
      rw [hreads.step_eq (Or.inl rfl)]
      rfl
    have h := (steps_key hk hm key).trans (hsteps.trans (.cons hcomma hk hsteps'))
    rwa [List.append_assoc] at h
end

/-- **`JSON.parse` inverts `JSON.stringify`.** -/
theorem parse_stringify (v : Json ν) : parse (stringify v) = some v := by
  obtain ⟨p, hsteps, hreads⟩ := steps_value (γ := []) (Nat.le_refl 0) (Or.inl rfl) v
  rw [parse, Reader.initial, hsteps.run_eq, Option.bind_some, hreads.finish_eq]

/-! ## One line -/

section OneLine

variable {lineBreak : Char} (hbreak : lineBreak = '\n' ∨ lineBreak = '\r')

include hbreak

omit [JsonNumber ν] in
theorem lineBreak_not_mem_token {text : List Char} (h : IsNumberToken text) : lineBreak ∉ text := by
  obtain ⟨c, cs, st, st', rfl, hstart, hrun, -⟩ := h
  have hrest : ∀ (cs : List Char) (st st' : NumberState), st.run cs = some st' → lineBreak ∉ cs := by
    intro cs
    induction cs with
    | nil => simp
    | cons c cs ih =>
      intro st st' h hmem
      obtain ⟨st₁, hnext, hrun⟩ := Option.bind_eq_some_iff.mp h
      rcases List.mem_cons.mp hmem with rfl | hmem
      · rcases hbreak with rfl | rfl <;> cases st <;> cases hnext
      · exact ih st₁ st' hrun hmem
  intro hmem
  rcases List.mem_cons.mp hmem with rfl | hmem
  · rcases hbreak with rfl | rfl <;> cases hstart
  · exact hrest cs st st' hrun hmem

omit [JsonNumber ν] in
theorem lineBreak_not_mem_escapeChar (c : Char) : lineBreak ∉ escapeChar c := by
  have hhex : ∀ d, d < 16 → lineBreak ≠ hexDigit d := by rcases hbreak with rfl | rfl <;> decide
  have hchars : lineBreak ∉ ['"', '\\', 'b', 'f', 'n', 'r', 't', 'u', '0'] := by
    rcases hbreak with rfl | rfl <;> decide
  simp only [List.mem_cons, List.not_mem_nil, or_false, not_or] at hchars
  obtain ⟨hquote, hslash, hb, hf, hn, hr, ht, hu, hzero⟩ := hchars
  unfold escapeChar
  split
  · simp [hquote, hslash]
  split
  · simp [hslash]
  split
  · simp [hslash, hb]
  split
  · simp [hslash, hf]
  split
  · simp [hslash, hn]
  split
  · simp [hslash, hr]
  split
  · simp [hslash, ht]
  split
  next h =>
    have h₁ := hhex (c.toNat / 16) (by omega)
    have h₂ := hhex (c.toNat % 16) (by omega)
    simp [hslash, hu, hzero, h₁, h₂]
  next hcr _ _ =>
    -- a line break is always escaped
    rw [List.mem_singleton]
    rintro rfl
    rcases hbreak with rfl | rfl <;> contradiction

omit [JsonNumber ν] in
theorem lineBreak_not_mem_stringLiteral (s : String) : lineBreak ∉ stringLiteral s := by
  have hquote : lineBreak ≠ '"' := by rcases hbreak with rfl | rfl <;> decide
  simp [stringLiteral, stringBody, hquote, lineBreak_not_mem_escapeChar hbreak]

mutual
/-- **A JSON text is one line.** -/
theorem lineBreak_not_mem_stringify : ∀ v : Json ν, lineBreak ∉ stringify v
  | .null => by rcases hbreak with rfl | rfl <;> simp [stringify]
  | .bool true => by rcases hbreak with rfl | rfl <;> simp [stringify]
  | .bool false => by rcases hbreak with rfl | rfl <;> simp [stringify]
  | .num n => lineBreak_not_mem_token hbreak (JsonNumber.isNumberToken_text n)
  | .str s => lineBreak_not_mem_stringLiteral hbreak s
  | .arr items => by
    have hitems := lineBreak_not_mem_items items
    rcases hbreak with rfl | rfl <;> simp [stringify, hitems]
  | .obj members => by
    have hmembers := lineBreak_not_mem_members members
    rcases hbreak with rfl | rfl <;> simp [stringify, hmembers]

theorem lineBreak_not_mem_items : ∀ items : List (Json ν), lineBreak ∉ stringifyItems items
  | [] => by simp [stringifyItems]
  | [v] => lineBreak_not_mem_stringify v
  | v :: w :: vs => by
    have hcomma : lineBreak ≠ ',' := by rcases hbreak with rfl | rfl <;> decide
    simp [stringifyItems, hcomma, lineBreak_not_mem_stringify v, lineBreak_not_mem_items (w :: vs)]

theorem lineBreak_not_mem_members :
    ∀ members : List (String × Json ν), lineBreak ∉ stringifyMembers members
  | [] => by simp [stringifyMembers]
  | [(k, v)] => by
    have hcolon : lineBreak ≠ ':' := by rcases hbreak with rfl | rfl <;> decide
    simp [stringifyMembers, hcolon, lineBreak_not_mem_stringify v, lineBreak_not_mem_stringLiteral hbreak]
  | (k, v) :: f :: fs => by
    have hmarks : lineBreak ≠ ':' ∧ lineBreak ≠ ',' := by rcases hbreak with rfl | rfl <;> decide
    simp [stringifyMembers, hmarks, lineBreak_not_mem_stringify v, lineBreak_not_mem_stringLiteral hbreak,
      lineBreak_not_mem_members (f :: fs)]
end

end OneLine

theorem newline_not_mem_stringify (v : Json ν) : '\n' ∉ stringify v := lineBreak_not_mem_stringify (.inl rfl) v

end Json
