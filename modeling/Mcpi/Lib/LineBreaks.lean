import Mathlib.Data.List.Basic

/-!
# Lines that come in pieces

A reader that ends a line at each CR, LF or CR LF and keeps what comes after the last line break for the next piece.
It takes a CR at the end of a piece for a line break of its own, so an LF that the next piece begins with ends an
empty line.
-/

namespace LineBreaks

/-- How lines end. -/
inductive LineEnd
  | lf
  | crlf
  deriving DecidableEq

def LineEnd.chars : LineEnd → List Char
  | .lf => ['\n']
  | .crlf => ['\r', '\n']

/-- A part of one line. -/
def OneLine (text : List Char) : Prop := '\n' ∉ text ∧ '\r' ∉ text

instance (text : List Char) : Decidable (OneLine text) := inferInstanceAs (Decidable (_ ∧ _))

/-- The lines of a buffer, and what comes after the last line break. -/
def splitLines : List Char → List (List Char) × List Char
  | [] => ([], [])
  | '\r' :: '\n' :: text => ([] :: (splitLines text).1, (splitLines text).2)
  | '\r' :: text => ([] :: (splitLines text).1, (splitLines text).2)
  | '\n' :: text => ([] :: (splitLines text).1, (splitLines text).2)
  | c :: text =>
    match splitLines text with
    | ([], rest) => ([], c :: rest)
    | (line :: lines, rest) => ((c :: line) :: lines, rest)

/-- The lines of all pieces, and what is left in the end. -/
def readPieces (buffer : List Char) : List (List Char) → List (List Char) × List Char
  | [] => ([], buffer)
  | piece :: pieces =>
    let (lines, buffer) := splitLines (buffer ++ piece)
    let (more, rest) := readPieces buffer pieces
    (lines ++ more, rest)

/-! ## Characters and ends of pieces -/

/-- The characters of pieces, with `none` where a piece ends. -/
def tokens (pieces : List (List Char)) : List (Option Char) := pieces.flatMap fun piece => piece.map some ++ [none]

/-- Reading the characters one by one; `afterCR` after a CR of the same piece. -/
def scan (buffer : List Char) (afterCR : Bool) : List (Option Char) → List (List Char) × List Char
  | [] => ([], buffer)
  | none :: tokens => scan buffer false tokens
  | some c :: tokens =>
    if c = '\n' then
      if afterCR then scan buffer false tokens
      else (buffer :: (scan [] false tokens).1, (scan [] false tokens).2)
    else if c = '\r' then (buffer :: (scan [] true tokens).1, (scan [] true tokens).2)
    else scan (buffer ++ [c]) false tokens

variable {buffer piece line text : List Char}

theorem OneLine.append {a b : List Char} (ha : OneLine a) (hb : OneLine b) : OneLine (a ++ b) :=
  ⟨fun h => (List.mem_append.mp h).elim ha.1 hb.1, fun h => (List.mem_append.mp h).elim ha.2 hb.2⟩

theorem OneLine.cons {c : Char} (h : OneLine (c :: line)) : c ≠ '\n' ∧ c ≠ '\r' ∧ OneLine line := by
  obtain ⟨hlf, hcr⟩ := h
  rw [List.mem_cons, not_or] at hlf hcr
  exact ⟨Ne.symm hlf.1, Ne.symm hcr.1, hlf.2, hcr.2⟩

theorem oneLine_nil : OneLine [] := ⟨List.not_mem_nil, List.not_mem_nil⟩

theorem splitLines_lf (text : List Char) :
    splitLines ('\n' :: text) = ([] :: (splitLines text).1, (splitLines text).2) := rfl

theorem splitLines_crlf (text : List Char) :
    splitLines ('\r' :: '\n' :: text) = ([] :: (splitLines text).1, (splitLines text).2) := rfl

theorem splitLines_cr (h : text.head? ≠ some '\n') :
    splitLines ('\r' :: text) = ([] :: (splitLines text).1, (splitLines text).2) := by
  rw [splitLines]
  rintro rest rfl
  exact h rfl

theorem splitLines_char {c : Char} (hlf : c ≠ '\n') (hcr : c ≠ '\r') (text : List Char) :
    splitLines (c :: text) =
      match splitLines text with
      | ([], rest) => ([], c :: rest)
      | (line :: lines, rest) => ((c :: line) :: lines, rest) := by
  rw [splitLines]
  · exact fun _ h _ => hcr h
  · exact hcr
  · exact hlf

/-- What comes before a text belongs to its first line. -/
theorem splitLines_line (h : OneLine line) (text : List Char) :
    splitLines (line ++ text) =
      match splitLines text with
      | ([], rest) => ([], line ++ rest)
      | (first :: lines, rest) => ((line ++ first) :: lines, rest) := by
  induction line with
  | nil =>
    rw [List.nil_append]
    split <;> (next heq => rw [heq]; rfl)
  | cons c line ih =>
    obtain ⟨hlf, hcr, hline⟩ := h.cons
    rw [List.cons_append, splitLines_char hlf hcr, ih hline]
    split <;> split <;> simp_all

/-- The first line of a text, where a buffer is before it. -/
theorem splitLines_buffer {first : List Char} {lines : List (List Char)} {rest : List Char} (h : OneLine buffer)
    (htext : splitLines text = (first :: lines, rest)) :
    splitLines (buffer ++ text) = ((buffer ++ first) :: lines, rest) := by
  rw [splitLines_line h, htext]

/-- The reader after some lines and a rest. -/
def scanFrom (result : List (List Char) × List Char) (later : List (Option Char)) : List (List Char) × List Char :=
  (result.1 ++ (scan result.2 false later).1, (scan result.2 false later).2)

theorem scan_piece (later : List (Option Char)) (piece : List Char) : ∀ buffer, OneLine buffer →
    scan buffer false (piece.map some ++ none :: later) = scanFrom (splitLines (buffer ++ piece)) later := by
  induction hn : piece.length using Nat.strongRecOn generalizing piece with
  | ind n ih =>
    intro buffer hbuffer
    cases piece with
    | nil =>
      have hnil : splitLines [] = ([], []) := rfl
      rw [splitLines_line hbuffer, hnil]
      dsimp only
      rw [List.append_nil]
      rfl
    | cons c text =>
      have hrest : ∀ buffer, OneLine buffer → scan buffer false (text.map some ++ none :: later) =
          scanFrom (splitLines (buffer ++ text)) later :=
        ih text.length (by rw [← hn, List.length_cons]; omega) text rfl
      by_cases hlf : c = '\n'
      · subst hlf
        rw [splitLines_buffer hbuffer (splitLines_lf text), List.map_cons, List.cons_append, scan, if_pos rfl,
          if_neg Bool.false_ne_true, hrest [] oneLine_nil, List.append_nil]
        rfl
      · by_cases hcr : c = '\r'
        · subst hcr
          rw [List.map_cons, List.cons_append, scan, if_neg hlf, if_pos rfl]
          cases text with
          | nil =>
            rw [splitLines_buffer hbuffer (splitLines_cr (by exact nofun)), List.append_nil]
            rfl
          | cons d text =>
            by_cases hd : d = '\n'
            · -- the LF belongs to the CR
              subst hd
              have hshort := ih text.length (by rw [← hn, List.length_cons, List.length_cons]; omega) text rfl
              rw [splitLines_buffer hbuffer (splitLines_crlf text), List.map_cons, List.cons_append, scan,
                if_pos rfl, if_pos rfl, hshort [] oneLine_nil, List.append_nil]
              rfl
            · have hhead : (d :: text).head? ≠ some '\n' := fun h => hd (Option.some.inj h)
              have hsame : ∀ afterCR, scan [] afterCR ((d :: text).map some ++ none :: later) =
                  scan [] false ((d :: text).map some ++ none :: later) := by
                intro afterCR
                rw [List.map_cons, List.cons_append, scan, scan, if_neg hd, if_neg hd]
              rw [splitLines_buffer hbuffer (splitLines_cr hhead), hsame true, hrest [] oneLine_nil, List.append_nil]
              rfl
        · have hone : OneLine (buffer ++ [c]) := by
            apply hbuffer.append
            exact ⟨fun h => hlf (List.mem_singleton.mp h).symm, fun h => hcr (List.mem_singleton.mp h).symm⟩
          rw [List.map_cons, List.cons_append, scan, if_neg hlf, if_neg hcr, hrest _ hone, List.append_assoc]
          rfl

/-- What is left of a buffer is a part of one line. -/
theorem oneLine_splitLines (text : List Char) : OneLine (splitLines text).2 := by
  fun_induction splitLines text with
  | case1 => exact oneLine_nil
  | case2 text ih => exact ih
  | case3 text hhead ih => exact ih
  | case4 text ih => exact ih
  | case5 c text hcrlf hcr hlf rest heq ih =>
    rw [heq] at ih
    exact ⟨fun h => (List.mem_cons.mp h).elim (fun h => hlf h.symm) ih.1,
      fun h => (List.mem_cons.mp h).elim (fun h => hcr h.symm) ih.2⟩
  | case6 c text hcrlf hcr hlf line lines rest heq ih =>
    rw [heq] at ih
    exact ih

theorem readPieces_eq (pieces : List (List Char)) (h : OneLine buffer) :
    readPieces buffer pieces = scan buffer false (tokens pieces) := by
  induction pieces generalizing buffer with
  | nil => rfl
  | cons piece pieces ih =>
    rw [tokens, List.flatMap_cons, List.append_assoc, List.singleton_append, scan_piece _ piece buffer h, readPieces]
    dsimp only
    rw [ih (oneLine_splitLines _)]
    rfl

/-! ## Lines of a text that comes in pieces -/

/-- The characters without the ends of pieces. -/
def chars (tokens : List (Option Char)) : List Char := tokens.filterMap id

/-- A piece ends after these characters. -/
def Cut (tokens : List (Option Char)) (before : List Char) : Prop :=
  ∃ earlier later, tokens = earlier ++ none :: later ∧ chars earlier = before

@[simp] theorem chars_none (tokens : List (Option Char)) : chars (none :: tokens) = chars tokens := rfl

@[simp] theorem chars_some (c : Char) (tokens : List (Option Char)) :
    chars (some c :: tokens) = c :: chars tokens := rfl

theorem chars_append (a b : List (Option Char)) : chars (a ++ b) = chars a ++ chars b := List.filterMap_append

theorem chars_map_some (piece : List Char) : chars (piece.map some) = piece := by
  rw [chars, List.filterMap_map]
  exact List.filterMap_some

theorem tokens_cons (piece : List Char) (pieces : List (List Char)) :
    tokens (piece :: pieces) = piece.map some ++ none :: tokens pieces := by
  rw [tokens, List.flatMap_cons, List.append_assoc]
  rfl

theorem chars_tokens (pieces : List (List Char)) : chars (tokens pieces) = pieces.flatten := by
  induction pieces with
  | nil => rfl
  | cons piece pieces ih =>
    rw [tokens_cons, chars_append, chars_map_some, chars_none, ih, List.flatten_cons]

variable {before : List Char}

theorem cut_tokens_iff {pieces : List (List Char)} (hbefore : before ≠ []) :
    Cut (tokens pieces) before ↔ ∃ taken rest, pieces = taken ++ rest ∧ taken.flatten = before := by
  constructor
  · intro h
    induction pieces generalizing before with
    | nil =>
      obtain ⟨earlier, later, heq, -⟩ := h
      cases earlier <;> cases heq
    | cons piece pieces ih =>
      obtain ⟨earlier, later, heq, rfl⟩ := h
      rw [tokens_cons] at heq
      have hfirst : ∀ middle, earlier = piece.map some ++ middle → chars middle = [] →
          ∃ taken rest, piece :: pieces = taken ++ rest ∧ taken.flatten = chars earlier := by
        rintro middle rfl hnil
        exact ⟨[piece], pieces, rfl, by rw [chars_append, chars_map_some, hnil, List.flatten_singleton,
          List.append_nil]⟩
      rcases List.append_eq_append_iff.mp heq with ⟨middle, hearlier, hlater⟩ | ⟨middle, hpiece, hlater⟩
      · by_cases hnil : chars middle = []
        · exact hfirst middle hearlier hnil
        · cases middle with
          | nil => exact absurd rfl hnil
          | cons token middle =>
            obtain ⟨rfl, hmiddle⟩ := List.cons.inj hlater
            obtain ⟨taken, rest, rfl, htaken⟩ := ih hnil ⟨middle, later, hmiddle, rfl⟩
            refine ⟨piece :: taken, rest, rfl, ?_⟩
            rw [hearlier, chars_append, chars_map_some, List.flatten_cons, htaken]
      · cases middle with
        | nil =>
          rw [List.append_nil] at hpiece
          exact hfirst [] (by rw [hpiece, List.append_nil]) rfl
        | cons token middle =>
          obtain ⟨rfl, -⟩ := List.cons.inj hlater
          have hmem : none ∈ piece.map some := by
            rw [hpiece]
            exact List.mem_append_right _ List.mem_cons_self
          simp at hmem
  · rintro ⟨taken, rest, rfl, rfl⟩
    rcases List.eq_nil_or_concat taken with rfl | ⟨init, last, rfl⟩
    · exact absurd rfl hbefore
    · refine ⟨tokens init ++ last.map some, tokens rest, ?_, ?_⟩
      · rw [tokens, List.flatMap_append, List.concat_eq_append, List.flatMap_append, List.flatMap_singleton,
          ← tokens, ← tokens, List.append_assoc, List.append_assoc, List.append_assoc]
        rfl
      · rw [chars_append, chars_tokens, chars_map_some, List.concat_eq_append, List.flatten_append,
          List.flatten_singleton]

/-- Where characters come first, a piece that ends later ends in the rest. -/
theorem cut_append {earlier later : List (Option Char)} (hbefore : before ≠ []) :
    Cut (earlier ++ later) (chars earlier ++ before) ↔ Cut later before := by
  constructor
  · rintro ⟨earlier', later', heq, hchars⟩
    rcases List.append_eq_append_iff.mp heq with ⟨middle, rfl, hlater⟩ | ⟨middle, rfl, -⟩
    · rw [chars_append] at hchars
      exact ⟨middle, later', hlater, List.append_cancel_left hchars⟩
    · rw [chars_append, List.append_assoc] at hchars
      have hnil := List.self_eq_append_right.mp hchars
      exact absurd (List.append_eq_nil_iff.mp hnil).2 hbefore
  · rintro ⟨middle, later', rfl, rfl⟩
    exact ⟨earlier ++ middle, later', (List.append_assoc _ _ _).symm, chars_append _ _⟩

theorem cut_append_cons (token : Option Char) {later : List (Option Char)}
    (hbefore : before ≠ []) : Cut (token :: later) (chars [token] ++ before) ↔ Cut later before := by
  show Cut ([token] ++ later) (chars [token] ++ before) ↔ Cut later before
  exact cut_append hbefore

variable {tokens : List (Option Char)}

theorem scan_lf (hline : OneLine line) (h : chars tokens = line ++ '\n' :: text) :
    ∃ earlier later, tokens = earlier ++ later ∧ chars earlier = line ++ ['\n'] ∧ chars later = text ∧
      ∀ buffer, scan buffer false tokens = ((buffer ++ line) :: (scan [] false later).1, (scan [] false later).2) := by
  induction tokens generalizing line with
  | nil => exact absurd h.symm (by simp [chars])
  | cons token tokens ih =>
    cases token with
    | none =>
      obtain ⟨earlier, later, rfl, hearlier, hlater, hscan⟩ := ih hline h
      exact ⟨none :: earlier, later, rfl, hearlier, hlater, hscan⟩
    | some c =>
      rw [chars_some] at h
      cases line with
      | nil =>
        obtain ⟨rfl, rfl⟩ := List.cons.inj h
        refine ⟨[some '\n'], tokens, rfl, rfl, rfl, fun buffer => ?_⟩
        rw [scan, if_pos rfl, if_neg Bool.false_ne_true, List.append_nil]
      | cons d line =>
        obtain ⟨rfl, hrest⟩ := List.cons.inj h
        obtain ⟨hlf, hcr, hshort⟩ := hline.cons
        obtain ⟨earlier, later, rfl, hearlier, hlater, hscan⟩ := ih hshort hrest
        refine ⟨some c :: earlier, later, rfl, by rw [chars_some, hearlier, List.cons_append], hlater, ?_⟩
        intro buffer
        rw [scan, if_neg hlf, if_neg hcr, hscan, List.append_assoc, List.singleton_append]

/-- A line that ends with CR LF is read as one line, and an empty one where a piece ends after the CR. -/
theorem scan_crlf (hline : OneLine line) (h : chars tokens = line ++ '\r' :: '\n' :: text) :
    ∃ earlier later, ∃ gap : Bool, tokens = earlier ++ later ∧ chars earlier = line ++ ['\r', '\n'] ∧
      chars later = text ∧
      (∀ buffer, scan buffer false tokens = ((buffer ++ line) :: ((if gap then [[]] else []) ++
        (scan [] false later).1), (scan [] false later).2)) ∧
      (gap = true ↔ Cut tokens (line ++ ['\r'])) := by
  induction tokens generalizing line with
  | nil => exact absurd h.symm (by simp [chars])
  | cons token tokens ih =>
    cases token with
    | none =>
      obtain ⟨earlier, later, gap, rfl, hearlier, hlater, hscan, hgap⟩ := ih hline h
      refine ⟨none :: earlier, later, gap, rfl, hearlier, hlater, hscan, hgap.trans ?_⟩
      exact (cut_append_cons none (by simp)).symm
    | some c =>
      rw [chars_some] at h
      cases line with
      | nil =>
        obtain ⟨rfl, hrest⟩ := List.cons.inj h
        have hscan : ∀ buffer, scan buffer false (some '\r' :: tokens) =
            (buffer :: (scan [] true tokens).1, (scan [] true tokens).2) := by
          intro buffer
          rw [scan, if_neg (by decide), if_pos rfl]
        cases tokens with
        | nil => cases hrest
        | cons token tokens =>
          cases token with
          | none =>
            -- a piece ends behind the CR: the LF ends an empty line
            have hnext : chars tokens = [] ++ '\n' :: text := hrest
            obtain ⟨earlier, later, rfl, hearlier, hlater, hlf⟩ := scan_lf oneLine_nil hnext
            refine ⟨some '\r' :: none :: earlier, later, true, rfl, ?_, hlater, ?_, ?_⟩
            · rw [chars_some, chars_none, hearlier]
              rfl
            · intro buffer
              rw [hscan, scan, hlf, List.append_nil, List.append_nil, if_pos rfl]
              rfl
            · exact iff_of_true rfl ⟨[some '\r'], earlier ++ later, rfl, rfl⟩
          | some d =>
            -- CR and LF are in one piece
            rw [chars_some] at hrest
            obtain ⟨rfl, rfl⟩ := List.cons.inj hrest
            refine ⟨[some '\r', some '\n'], tokens, false, rfl, rfl, rfl, ?_, ?_⟩
            · intro buffer
              rw [hscan, scan, if_pos rfl, if_pos rfl, List.append_nil]
              rfl
            · apply iff_of_false Bool.false_ne_true
              rintro ⟨earlier, later, heq, hchars⟩
              cases earlier with
              | nil => cases heq
              | cons first earlier =>
                obtain ⟨rfl, hnext⟩ := List.cons.inj heq
                cases earlier with
                | nil => cases hnext
                | cons second earlier =>
                  obtain ⟨rfl, -⟩ := List.cons.inj hnext
                  cases hchars
      | cons d line =>
        obtain ⟨rfl, hrest⟩ := List.cons.inj h
        obtain ⟨hlf, hcr, hshort⟩ := hline.cons
        obtain ⟨earlier, later, gap, rfl, hearlier, hlater, hscan, hgap⟩ := ih hshort hrest
        refine ⟨some c :: earlier, later, gap, rfl, by rw [chars_some, hearlier, List.cons_append], hlater, ?_,
          hgap.trans ?_⟩
        · intro buffer
          rw [scan, if_neg hlf, if_neg hcr, hscan, List.append_assoc, List.singleton_append]
        · exact (cut_append_cons (some c) (by simp)).symm

/-- A line is read as one line, and an empty one where a piece ends between the CR and the LF of its end. -/
theorem scan_line (lineEnd : LineEnd) (hline : OneLine line) (h : chars tokens = line ++ (lineEnd.chars ++ text)) :
    ∃ earlier later, ∃ gap : Bool, tokens = earlier ++ later ∧ chars earlier = line ++ lineEnd.chars ∧
      chars later = text ∧
      (∀ buffer, scan buffer false tokens = ((buffer ++ line) :: ((if gap then [[]] else []) ++
        (scan [] false later).1), (scan [] false later).2)) ∧
      (gap = true ↔ lineEnd = .crlf ∧ Cut tokens (line ++ ['\r'])) := by
  cases lineEnd with
  | lf =>
    obtain ⟨earlier, later, htokens, hearlier, hlater, hscan⟩ := scan_lf hline h
    exact ⟨earlier, later, false, htokens, hearlier, hlater, hscan,
      iff_of_false Bool.false_ne_true (fun h => nomatch h.1)⟩
  | crlf =>
    obtain ⟨earlier, later, gap, htokens, hearlier, hlater, hscan, hgap⟩ := scan_crlf hline h
    exact ⟨earlier, later, gap, htokens, hearlier, hlater, hscan, hgap.trans (and_iff_right rfl).symm⟩

theorem scan_end (h : chars tokens = []) (buffer : List Char) : scan buffer false tokens = ([], buffer) := by
  induction tokens with
  | nil => rfl
  | cons token tokens ih =>
    cases token with
    | none => exact ih h
    | some c => cases h

end LineBreaks
