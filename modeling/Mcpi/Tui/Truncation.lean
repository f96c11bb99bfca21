import Mcpi.Tui.CompositedCells

/-!
# Truncating lines

`truncateToWidth` keeps of a line that is too wide the longest part that leaves room for the ellipsis. Lines
are as for compositing, escape codes and graphemes; a tab is a grapheme. The printable lines, the lines without
codes and tabs, and all others have a loop each, and so have the ellipses that are too wide.
-/

namespace Mcpi.Tui

/-- What is given besides: which graphemes are tabs, printable ASCII, or contain an escape character, what
closes the hyperlink that is open behind a line (`getActiveOsc8Close`), and the reset. -/
structure TruncationFunctions (κ γ : Type) extends LineFunctions κ γ where
  isTab : γ → Bool
  isPrintable : γ → Bool
  hasEscape : γ → Bool
  getActiveOsc8Close : List (Token κ γ) → List κ
  reset : κ
  graphemeWidth_tab : ∀ segment, isTab segment = true → graphemeWidth segment = 3
  graphemeWidth_printable : ∀ segment, isPrintable segment = true → graphemeWidth segment = 1

variable {κ γ : Type} (f : TruncationFunctions κ γ)

def isPrintableAscii (text : List (Token κ γ)) : Bool :=
  text.all fun
    | .ansi _ => false
    | .grapheme segment => f.isPrintable segment

/-- `text.includes("\x1b")` -/
def hasAnsi (text : List (Token κ γ)) : Bool :=
  text.any fun
    | .ansi _ => true
    | .grapheme segment => f.hasEscape segment

def hasTabs (text : List (Token κ γ)) : Bool := (graphemes text).any f.isTab

/-- The width that the loops over codes and tabs count for a grapheme. -/
def columns (segment : γ) : Nat := if f.isTab segment then 3 else f.graphemeWidth segment

def padding (pad : Bool) (n : Nat) : List (Token κ γ) := if pad then spaces f.toLineFunctions n else []

/-! ## `truncateFragmentToWidth` -/

structure Fragment (κ γ : Type) where
  result : List (Token κ γ)
  width : Nat
  pendingAnsi : List κ

def fragmentPlain (maxWidth : Nat) (t : Fragment κ γ) : List γ → Fragment κ γ
  | [] => t
  | segment :: text =>
    let w := f.graphemeWidth segment
    if t.width + w > maxWidth then t
    else fragmentPlain maxWidth { t with result := t.result ++ [.grapheme segment], width := t.width + w } text

def fragmentAnsi (maxWidth : Nat) (t : Fragment κ γ) : List (Token κ γ) → Fragment κ γ
  | [] => t
  | .ansi code :: text => fragmentAnsi maxWidth { t with pendingAnsi := t.pendingAnsi ++ [code] } text
  | .grapheme segment :: text =>
    let w := columns f segment
    if t.width + w > maxWidth then t
    else
      fragmentAnsi maxWidth
        { result := t.result ++ codes t.pendingAnsi ++ [.grapheme segment]
          width := t.width + w
          pendingAnsi := [] } text

/-- The text and its width. -/
def truncateFragmentToWidth (text : List (Token κ γ)) (maxWidth : Nat) : List (Token κ γ) × Nat :=
  if maxWidth = 0 ∨ text.length = 0 then ([], 0)
  else if isPrintableAscii f text then (text.take maxWidth, (text.take maxWidth).length)
  else if !hasAnsi f text && !hasTabs f text then
    let t := fragmentPlain f maxWidth ⟨[], 0, []⟩ (graphemes text)
    (t.result, t.width)
  else
    let t := fragmentAnsi f maxWidth ⟨[], 0, []⟩ text
    (t.result, t.width)

def finalizeTruncatedResult (kept : List (Token κ γ)) (keptWidth : Nat) (ellipsis : List (Token κ γ))
    (ellipsisWidth maxWidth : Nat) (pad : Bool) : List (Token κ γ) :=
  let hyperlinkClose := codes (f.getActiveOsc8Close kept)
  let visibleWidth := keptWidth + ellipsisWidth
  let result :=
    if ellipsis.length > 0 then
      kept ++ hyperlinkClose ++ [.ansi f.reset] ++ ellipsis ++ [.ansi f.reset]
    else kept ++ hyperlinkClose ++ [.ansi f.reset]
  result ++ padding f pad (maxWidth - visibleWidth)

/-! ## `truncateToWidth` -/

structure Truncation (κ γ : Type) where
  result : List (Token κ γ)
  pendingAnsi : List κ
  visibleSoFar : Nat
  keptWidth : Nat
  keepContiguousPrefix : Bool
  overflowed : Bool

def Truncation.start : Truncation κ γ := ⟨[], [], 0, 0, true, false⟩

/-- A grapheme of width `width`, with the codes before it. -/
def Truncation.grapheme (maxWidth targetWidth width : Nat) (t : Truncation κ γ) (segment : γ) : Truncation κ γ :=
  let t :=
    if t.keepContiguousPrefix && t.keptWidth + width ≤ targetWidth then
      { t with
        result := t.result ++ codes t.pendingAnsi ++ [.grapheme segment]
        pendingAnsi := []
        keptWidth := t.keptWidth + width }
    else { t with keepContiguousPrefix := false, pendingAnsi := [] }
  { t with
    visibleSoFar := t.visibleSoFar + width
    overflowed := t.visibleSoFar + width > maxWidth }

/-- The loop over a text without codes and tabs. There `pendingAnsi` is empty. -/
def truncatePlain (maxWidth targetWidth : Nat) (t : Truncation κ γ) : List γ → Truncation κ γ
  | [] => t
  | segment :: text =>
    let t := t.grapheme maxWidth targetWidth (f.graphemeWidth segment) segment
    if t.overflowed then t else truncatePlain maxWidth targetWidth t text

/-- The loop over a text with codes and tabs. -/
def truncateAnsi (maxWidth targetWidth : Nat) (t : Truncation κ γ) : List (Token κ γ) → Truncation κ γ
  | [] => t
  | .ansi code :: text =>
    truncateAnsi maxWidth targetWidth { t with pendingAnsi := t.pendingAnsi ++ [code] } text
  | .grapheme segment :: text =>
    let t := t.grapheme maxWidth targetWidth (columns f segment) segment
    if t.overflowed then t else truncateAnsi maxWidth targetWidth t text

section Paths

variable (text : List (Token κ γ)) (maxWidth : Nat) (ellipsis : List (Token κ γ)) (pad : Bool)

def ellipsisWidth : Nat := visibleWidth f.toLineFunctions ellipsis

/-- The ellipsis is as wide as the line. -/
def wideEllipsisPath : List (Token κ γ) :=
  let textWidth := visibleWidth f.toLineFunctions text
  if textWidth ≤ maxWidth then text ++ padding f pad (maxWidth - textWidth)
  else
    let clippedEllipsis := truncateFragmentToWidth f ellipsis maxWidth
    if clippedEllipsis.2 = 0 then padding f pad maxWidth
    else finalizeTruncatedResult f [] 0 clippedEllipsis.1 clippedEllipsis.2 maxWidth pad

def asciiPath : List (Token κ γ) :=
  if text.length ≤ maxWidth then text ++ padding f pad (maxWidth - text.length)
  else
    let targetWidth := maxWidth - ellipsisWidth f ellipsis
    finalizeTruncatedResult f (text.take targetWidth) targetWidth ellipsis (ellipsisWidth f ellipsis) maxWidth
      pad

/-- What follows both loops. The input is exhausted where it has not overflowed. -/
def Truncation.close (t : Truncation κ γ) : List (Token κ γ) :=
  if t.overflowed then
    finalizeTruncatedResult f t.result t.keptWidth ellipsis (ellipsisWidth f ellipsis) maxWidth pad
  else text ++ padding f pad (maxWidth - t.visibleSoFar)

def plainPath : List (Token κ γ) :=
  (truncatePlain f maxWidth (maxWidth - ellipsisWidth f ellipsis) .start (graphemes text)).close f text
    maxWidth ellipsis pad

def ansiPath : List (Token κ γ) :=
  (truncateAnsi f maxWidth (maxWidth - ellipsisWidth f ellipsis) .start text).close f text maxWidth ellipsis
    pad

def truncateToWidth : List (Token κ γ) :=
  if maxWidth = 0 then []
  else if text.length = 0 then padding f pad maxWidth
  else if ellipsisWidth f ellipsis ≥ maxWidth then wideEllipsisPath f text maxWidth ellipsis pad
  else if isPrintableAscii f text then asciiPath f text maxWidth ellipsis pad
  else if !hasAnsi f text && !hasTabs f text then plainPath f text maxWidth ellipsis pad
  else ansiPath f text maxWidth ellipsis pad

end Paths

/-! ## What fits -/

/-- The graphemes that fit into a width with the codes before them, up to the first that does not. -/
def keep (room : Nat) (pendingAnsi : List κ) : List (Token κ γ) → List (Token κ γ)
  | [] => []
  | .ansi code :: text => keep room (pendingAnsi ++ [code]) text
  | .grapheme segment :: text =>
    if f.graphemeWidth segment ≤ room then
      codes pendingAnsi ++ .grapheme segment :: keep (room - f.graphemeWidth segment) [] text
    else []

/-- The longest part of a text that fits: it ends with a grapheme, and the next grapheme does not fit. -/
structure LongestFit (room : Nat) (text kept : List (Token κ γ)) : Prop where
  fits : visibleWidth f.toLineFunctions kept ≤ room
  ends : kept = [] ∨ ∃ init segment, kept = init ++ [.grapheme segment]
  cut : ∃ rest, text = kept ++ rest ∧ ∀ cs segment rest', rest = codes cs ++ .grapheme segment :: rest' →
    room < visibleWidth f.toLineFunctions kept + f.graphemeWidth segment

section Proofs

variable {f} {text kept ellipsis : List (Token κ γ)} {room maxWidth targetWidth : Nat} {pad : Bool}

theorem visibleWidth_append (a b : List (Token κ γ)) :
    visibleWidth f.toLineFunctions (a ++ b) = visibleWidth f.toLineFunctions a + visibleWidth f.toLineFunctions b := by
  rw [visibleWidth, graphemes_append, Cells.widthOf_append]
  rfl

theorem visibleWidth_codes (cs : List κ) : visibleWidth f.toLineFunctions (codes cs : List (Token κ γ)) = 0 := by
  rw [visibleWidth, graphemes_codes]
  rfl

theorem visibleWidth_grapheme (segment : γ) (text : List (Token κ γ)) :
    visibleWidth f.toLineFunctions (.grapheme segment :: text) =
      f.graphemeWidth segment + visibleWidth f.toLineFunctions text := by
  rw [visibleWidth, graphemes_grapheme, Cells.widthOf_cons]
  rfl

theorem visibleWidth_padding (pad : Bool) (n : Nat) :
    visibleWidth f.toLineFunctions (padding f pad n) = if pad then n else 0 := by
  cases pad with
  | true =>
    have hwidth : ∀ n, Cells.widthOf f.graphemeWidth (List.replicate n f.blank) = n := by
      intro n
      induction n with
      | zero => rfl
      | succ n ih =>
        rw [List.replicate_succ, Cells.widthOf_cons, ih, f.graphemeWidth_blank]
        exact Nat.add_comm 1 n
    show visibleWidth _ (spaces f.toLineFunctions n) = n
    rw [visibleWidth, graphemes_spaces, hwidth]
  | false => rfl

theorem columns_eq (segment : γ) : columns f segment = f.graphemeWidth segment := by
  unfold columns
  split
  next htab => exact (f.graphemeWidth_tab segment htab).symm
  next => rfl

theorem codes_append (cs : List κ) (code : κ) :
    (codes (cs ++ [code]) : List (Token κ γ)) = codes cs ++ [.ansi code] := by
  simp [codes]

/-- Codes before a grapheme are followed by that grapheme only. -/
theorem codes_append_inj {cs cs' : List κ} {segment segment' : γ} {rest rest' : List (Token κ γ)}
    (h : codes cs ++ .grapheme segment :: rest = codes cs' ++ .grapheme segment' :: rest') :
    segment = segment' := by
  induction cs generalizing cs' with
  | nil =>
    cases cs' with
    | nil => exact Token.grapheme.inj (List.cons.inj h).1
    | cons code cs' => cases (List.cons.inj h).1
  | cons code cs ih =>
    cases cs' with
    | nil => cases (List.cons.inj h).1
    | cons code' cs' => exact ih (List.cons.inj h).2

/-- **What is kept is the longest part that fits.** -/
theorem longestFit_keep (room : Nat) (pendingAnsi : List κ) (text : List (Token κ γ)) :
    LongestFit f room (codes pendingAnsi ++ text) (keep f room pendingAnsi text) := by
  induction text generalizing room pendingAnsi with
  | nil =>
    refine ⟨Nat.zero_le _, .inl rfl, codes pendingAnsi, List.append_nil _, ?_⟩
    intro cs segment rest h
    have := congrArg graphemes h
    simp at this
  | cons token text ih =>
    cases token with
    | ansi code =>
      have hnext := ih room (pendingAnsi ++ [code])
      rw [codes_append, List.append_assoc] at hnext
      exact hnext
    | grapheme segment =>
      rw [keep]
      split
      next hfits =>
        obtain ⟨hwidth, hends, rest, htext, hcut⟩ := ih (room - f.graphemeWidth segment) []
        have hkept : visibleWidth f.toLineFunctions (codes pendingAnsi ++ .grapheme segment ::
            keep f (room - f.graphemeWidth segment) [] text) = f.graphemeWidth segment +
            visibleWidth f.toLineFunctions (keep f (room - f.graphemeWidth segment) [] text) := by
          rw [visibleWidth_append, visibleWidth_codes, visibleWidth_grapheme, Nat.zero_add]
        refine ⟨?_, .inr ?_, rest, ?_, ?_⟩
        · rw [hkept]
          omega
        · rcases hends with hnil | ⟨init, last, heq⟩
          · exact ⟨codes pendingAnsi, segment, by rw [hnil]⟩
          · exact ⟨codes pendingAnsi ++ .grapheme segment :: init, last, by rw [heq]; simp⟩
        · rw [List.append_assoc, List.cons_append, ← htext]
          rfl
        · intro cs next rest' hrest
          have := hcut cs next rest' hrest
          rw [hkept]
          omega
      next hfits =>
        refine ⟨Nat.zero_le _, .inl rfl, _, rfl, ?_⟩
        intro cs next rest' hrest
        rw [← codes_append_inj hrest]
        show room < 0 + _
        omega

theorem LongestFit.ne_nil {segment : γ} {rest : List (Token κ γ)}
    (h : LongestFit f room (.grapheme segment :: rest) kept) (hfits : f.graphemeWidth segment ≤ room) :
    kept ≠ [] := by
  rintro rfl
  obtain ⟨rest', htext, hcut⟩ := h.cut
  have hlt : room < 0 + f.graphemeWidth segment := hcut [] segment rest htext.symm
  omega

/-! ## The loops over a fragment -/

theorem fragmentAnsi_eq (t : Fragment κ γ) (hwidth : t.width ≤ maxWidth) (text : List (Token κ γ)) :
    (fragmentAnsi f maxWidth t text).result = t.result ++ keep f (maxWidth - t.width) t.pendingAnsi text ∧
      (fragmentAnsi f maxWidth t text).width = t.width +
        visibleWidth f.toLineFunctions (keep f (maxWidth - t.width) t.pendingAnsi text) := by
  induction text generalizing t with
  | nil => exact ⟨(List.append_nil _).symm, rfl⟩
  | cons token text ih =>
    cases token with
    | ansi code => exact ih { t with pendingAnsi := t.pendingAnsi ++ [code] } hwidth
    | grapheme segment =>
      rw [fragmentAnsi, keep, columns_eq]
      split
      next hover =>
        rw [if_neg (by omega)]
        exact ⟨(List.append_nil _).symm, rfl⟩
      next hfits =>
        have hwidth' : t.width + f.graphemeWidth segment ≤ maxWidth := by omega
        obtain ⟨hresult, hsum⟩ := ih ⟨t.result ++ codes t.pendingAnsi ++ [.grapheme segment],
          t.width + f.graphemeWidth segment, []⟩ hwidth'
        rw [if_pos (by omega), hresult, hsum, visibleWidth_append, visibleWidth_codes,
          visibleWidth_grapheme, Nat.sub_sub]
        refine ⟨?_, ?_⟩
        · simp only [List.append_assoc, List.singleton_append]
        · dsimp only
          omega

/-- A text without codes -/
def Uncoded (text : List (Token κ γ)) : Prop := text = (graphemes text).map .grapheme

theorem uncoded_cons {token : Token κ γ} (h : Uncoded (token :: text)) :
    (∃ segment, token = .grapheme segment) ∧ Uncoded text := by
  cases token with
  | ansi code =>
    rw [Uncoded, graphemes_ansi] at h
    cases hgraphemes : graphemes text with
    | nil =>
      rw [hgraphemes] at h
      cases h
    | cons segment rest =>
      rw [hgraphemes] at h
      cases (List.cons.inj h).1
  | grapheme segment =>
    rw [Uncoded, graphemes_grapheme, List.map_cons] at h
    exact ⟨⟨segment, rfl⟩, (List.cons.inj h).2⟩

theorem uncoded_of_hasAnsi (h : hasAnsi f text = false) : Uncoded text := by
  induction text with
  | nil => rfl
  | cons token text ih =>
    rw [hasAnsi, List.any_cons, Bool.or_eq_false_iff] at h
    cases token with
    | ansi code => cases h.1
    | grapheme segment =>
      rw [Uncoded, graphemes_grapheme, List.map_cons, ← ih h.2]

theorem uncoded_of_printable (h : isPrintableAscii f text = true) : Uncoded text := by
  induction text with
  | nil => rfl
  | cons token text ih =>
    rw [isPrintableAscii, List.all_cons, Bool.and_eq_true] at h
    cases token with
    | ansi code => cases h.1
    | grapheme segment => rw [Uncoded, graphemes_grapheme, List.map_cons, ← ih h.2]

/-- Where there are no codes, both loops over a fragment are one. -/
theorem fragmentPlain_eq (h : Uncoded text) (t : Fragment κ γ) (hpending : t.pendingAnsi = []) :
    fragmentPlain f maxWidth t (graphemes text) = fragmentAnsi f maxWidth t text := by
  induction text generalizing t with
  | nil => rfl
  | cons token text ih =>
    obtain ⟨⟨segment, rfl⟩, htext⟩ := uncoded_cons h
    rw [graphemes_grapheme, fragmentPlain, fragmentAnsi, columns_eq, hpending]
    split
    next => rfl
    next =>
      have hcodes : t.result ++ codes [] ++ [Token.grapheme segment] = t.result ++ [.grapheme segment] := by
        rw [codes, List.map_nil, List.append_nil]
      rw [hcodes, ← ih htext _ rfl]

/-- Of a printable text as many characters are kept as there is room. -/
theorem keep_printable (h : isPrintableAscii f text = true) (room : Nat) :
    keep f room [] text = text.take room ∧ visibleWidth f.toLineFunctions text = text.length := by
  induction text generalizing room with
  | nil => exact ⟨List.take_nil.symm, rfl⟩
  | cons token text ih =>
    rw [isPrintableAscii, List.all_cons, Bool.and_eq_true] at h
    cases token with
    | ansi code => cases h.1
    | grapheme segment =>
      have hone : f.graphemeWidth segment = 1 := f.graphemeWidth_printable segment h.1
      rw [keep, visibleWidth_grapheme, hone, (ih h.2 0).2]
      refine ⟨?_, Nat.add_comm _ _⟩
      cases room with
      | zero => rfl
      | succ room =>
        rw [if_pos (Nat.le_add_left 1 room), Nat.add_sub_cancel, (ih h.2 room).1]
        rfl

theorem printable_take (h : isPrintableAscii f text = true) (n : Nat) : isPrintableAscii f (text.take n) = true := by
  rw [isPrintableAscii, List.all_eq_true] at h ⊢
  exact fun token htoken => h token (List.mem_of_mem_take htoken)

/-- **The ellipsis that is too wide** is cut to what fits, in all of its loops. -/
theorem truncateFragmentToWidth_eq (text : List (Token κ γ)) (hmax : 0 < maxWidth) :
    truncateFragmentToWidth f text maxWidth =
      (keep f maxWidth [] text, visibleWidth f.toLineFunctions (keep f maxWidth [] text)) := by
  obtain ⟨hresult, hwidth⟩ := @fragmentAnsi_eq κ γ f maxWidth ⟨[], 0, []⟩ (Nat.zero_le _) text
  rw [List.nil_append] at hresult
  rw [Nat.zero_add] at hwidth
  unfold truncateFragmentToWidth
  split
  next hempty =>
    rw [List.eq_nil_of_length_eq_zero (hempty.resolve_left (by omega))]
    rfl
  next =>
    split
    next hprintable =>
      rw [(keep_printable hprintable maxWidth).1, (keep_printable (printable_take hprintable _) 0).2]
    next =>
      split
      next hplain =>
        rw [Bool.and_eq_true, Bool.not_eq_true', Bool.not_eq_true'] at hplain
        dsimp only
        rw [fragmentPlain_eq (uncoded_of_hasAnsi hplain.1) _ rfl, hresult, hwidth]
        rfl
      next =>
        dsimp only
        rw [hresult, hwidth]
        rfl

/-! ## The loops over a text -/

/-- What a loop does with a text: it keeps a part of it, and overflows where the text is too wide. -/
structure Truncates (f : TruncationFunctions κ γ) (maxWidth : Nat) (t t' : Truncation κ γ)
    (kept text : List (Token κ γ)) : Prop where
  result : t'.result = t.result ++ kept
  keptWidth : t'.keptWidth = t.keptWidth + visibleWidth f.toLineFunctions kept
  overflowed : t'.overflowed = decide (maxWidth < t.visibleSoFar + visibleWidth f.toLineFunctions text)
  visible : t'.overflowed = false → t'.visibleSoFar = t.visibleSoFar + visibleWidth f.toLineFunctions text

/-- The loop goes on behind a grapheme, unless it overflows there. -/
theorem Truncates.cons {t t₁ : Truncation κ γ} {segment : γ} {kept' : List (Token κ γ)}
    (hresult : t₁.result = t.result ++ kept')
    (hkept : t₁.keptWidth = t.keptWidth + visibleWidth f.toLineFunctions kept')
    (hvisible : t₁.visibleSoFar = t.visibleSoFar + f.graphemeWidth segment)
    (hover : t₁.overflowed = decide (maxWidth < t.visibleSoFar + f.graphemeWidth segment))
    (hnothing : t₁.overflowed = true → kept = [])
    (hrest : t₁.overflowed = false → Truncates f maxWidth t₁ (truncateAnsi f maxWidth targetWidth t₁ text) kept text) :
    Truncates f maxWidth t (if t₁.overflowed then t₁ else truncateAnsi f maxWidth targetWidth t₁ text)
      (kept' ++ kept) (.grapheme segment :: text) := by
  split
  next hoverflowed =>
    have hlt : maxWidth < t.visibleSoFar + f.graphemeWidth segment := by
      rw [hoverflowed] at hover
      exact of_decide_eq_true hover.symm
    rw [hnothing hoverflowed, List.append_nil]
    refine ⟨hresult, hkept, ?_, fun hno => absurd (hoverflowed.symm.trans hno) (by decide)⟩
    rw [hoverflowed, visibleWidth_grapheme]
    exact (decide_eq_true (by omega)).symm
  next hfits =>
    have hrest := hrest (Bool.not_eq_true _ ▸ hfits)
    refine ⟨?_, ?_, ?_, fun hno => ?_⟩
    · rw [hrest.result, hresult, List.append_assoc]
    · rw [hrest.keptWidth, hkept, visibleWidth_append, Nat.add_assoc]
    · rw [hrest.overflowed, hvisible, visibleWidth_grapheme, Nat.add_assoc]
    · rw [hrest.visible hno, hvisible, visibleWidth_grapheme, Nat.add_assoc]

theorem grapheme_kept {t : Truncation κ γ} {width : Nat} (hkeep : t.keepContiguousPrefix = true)
    (hfits : t.keptWidth + width ≤ targetWidth) (segment : γ) :
    t.grapheme maxWidth targetWidth width segment =
      { result := t.result ++ (codes t.pendingAnsi ++ [.grapheme segment])
        pendingAnsi := []
        visibleSoFar := t.visibleSoFar + width
        keptWidth := t.keptWidth + width
        keepContiguousPrefix := true
        overflowed := decide (maxWidth < t.visibleSoFar + width) } := by
  unfold Truncation.grapheme
  rw [hkeep, Bool.true_and, if_pos (decide_eq_true hfits), List.append_assoc]

theorem grapheme_dropped {t : Truncation κ γ} {width : Nat}
    (h : t.keepContiguousPrefix = true → ¬ t.keptWidth + width ≤ targetWidth) (segment : γ) :
    t.grapheme maxWidth targetWidth width segment =
      { t with
        pendingAnsi := []
        visibleSoFar := t.visibleSoFar + width
        keepContiguousPrefix := false
        overflowed := decide (maxWidth < t.visibleSoFar + width) } := by
  have hnot : ¬ (t.keepContiguousPrefix && decide (t.keptWidth + width ≤ targetWidth)) = true := by
    rw [Bool.and_eq_true, decide_eq_true_eq]
    exact fun hboth => h hboth.1 hboth.2
  unfold Truncation.grapheme
  rw [if_neg hnot]

/-- Behind the first grapheme that does not fit nothing is kept. -/
theorem truncateAnsi_dropped (t : Truncation κ γ) (hkeep : t.keepContiguousPrefix = false)
    (hover : t.overflowed = false) (hvisible : t.visibleSoFar ≤ maxWidth) (text : List (Token κ γ)) :
    Truncates f maxWidth t (truncateAnsi f maxWidth targetWidth t text) [] text := by
  induction text generalizing t with
  | nil =>
    refine ⟨(List.append_nil _).symm, rfl, ?_, fun _ => rfl⟩
    rw [truncateAnsi, hover]
    exact (decide_eq_false (Nat.not_lt.mpr hvisible)).symm
  | cons token text ih =>
    cases token with
    | ansi code =>
      obtain ⟨hresult, hkept, hoverflowed, hsum⟩ :=
        ih { t with pendingAnsi := t.pendingAnsi ++ [code] } hkeep hover hvisible
      exact ⟨hresult, hkept, hoverflowed, hsum⟩
    | grapheme segment =>
      have hdropped := @grapheme_dropped κ γ maxWidth targetWidth t (f.graphemeWidth segment)
        (fun hyes => absurd (hkeep.symm.trans hyes) (by decide)) segment
      rw [truncateAnsi, columns_eq, hdropped]
      refine @Truncates.cons κ γ f text [] maxWidth targetWidth t _ segment []
        (List.append_nil _).symm rfl rfl rfl (fun _ => rfl) fun hno => ?_
      exact ih _ rfl hno (Nat.not_lt.mp (of_decide_eq_false hno))

/-- **The loop keeps what fits.** -/
theorem truncateAnsi_kept (htarget : targetWidth ≤ maxWidth) (t : Truncation κ γ)
    (hkeep : t.keepContiguousPrefix = true) (hover : t.overflowed = false)
    (hwidth : t.keptWidth ≤ targetWidth) (hvisible : t.visibleSoFar = t.keptWidth)
    (text : List (Token κ γ)) :
    Truncates f maxWidth t (truncateAnsi f maxWidth targetWidth t text)
      (keep f (targetWidth - t.keptWidth) t.pendingAnsi text) text := by
  induction text generalizing t with
  | nil =>
    refine ⟨(List.append_nil _).symm, rfl, ?_, fun _ => rfl⟩
    rw [truncateAnsi, hover, hvisible]
    exact (decide_eq_false (Nat.not_lt.mpr (hwidth.trans htarget))).symm
  | cons token text ih =>
    cases token with
    | ansi code =>
      obtain ⟨hresult, hkept, hoverflowed, hsum⟩ :=
        ih { t with pendingAnsi := t.pendingAnsi ++ [code] } hkeep hover hwidth hvisible
      exact ⟨hresult, hkept, hoverflowed, hsum⟩
    | grapheme segment =>
      rw [truncateAnsi, columns_eq, keep]
      by_cases hfits : t.keptWidth + f.graphemeWidth segment ≤ targetWidth
      · have hkept : visibleWidth f.toLineFunctions (codes t.pendingAnsi ++ [.grapheme segment]) =
            f.graphemeWidth segment := by
          rw [visibleWidth_append, visibleWidth_codes, visibleWidth_grapheme, Nat.zero_add]
          rfl
        have hroom : f.graphemeWidth segment ≤ targetWidth - t.keptWidth := by omega
        rw [if_pos hroom, grapheme_kept hkeep hfits,
          List.append_cons _ _ (keep f (targetWidth - t.keptWidth - f.graphemeWidth segment) [] text)]
        apply Truncates.cons
        · rfl
        · rw [hkept]
        · rfl
        · rfl
        · intro hyes
          have hlt : maxWidth < t.visibleSoFar + f.graphemeWidth segment := of_decide_eq_true hyes
          omega
        · intro hno
          rw [Nat.sub_sub]
          exact ih _ rfl hno hfits (congrArg (· + f.graphemeWidth segment) hvisible)
      · have hroom : ¬ f.graphemeWidth segment ≤ targetWidth - t.keptWidth := by omega
        rw [if_neg hroom, grapheme_dropped fun _ => hfits]
        refine @Truncates.cons κ γ f text [] maxWidth targetWidth t _ segment []
          (List.append_nil _).symm rfl rfl rfl (fun _ => rfl) fun hno => ?_
        exact truncateAnsi_dropped _ rfl hno (Nat.not_lt.mp (of_decide_eq_false hno)) text

/-- Where there are no codes, both loops over a text are one. -/
theorem truncatePlain_eq (h : Uncoded text) (t : Truncation κ γ) (hpending : t.pendingAnsi = []) :
    truncatePlain f maxWidth targetWidth t (graphemes text) = truncateAnsi f maxWidth targetWidth t text := by
  induction text generalizing t with
  | nil => rfl
  | cons token text ih =>
    obtain ⟨⟨segment, rfl⟩, htext⟩ := uncoded_cons h
    rw [graphemes_grapheme, truncatePlain, truncateAnsi, columns_eq]
    split
    next => rfl
    next =>
      apply ih htext
      unfold Truncation.grapheme
      split
      · rfl
      · rfl

/-! ## Truncated lines -/

theorem ansiPath_eq (text : List (Token κ γ)) (pad : Bool) :
    ansiPath f text maxWidth ellipsis pad =
      if visibleWidth f.toLineFunctions text ≤ maxWidth then
        text ++ padding f pad (maxWidth - visibleWidth f.toLineFunctions text)
      else
        let kept := keep f (maxWidth - ellipsisWidth f ellipsis) [] text
        finalizeTruncatedResult f kept (visibleWidth f.toLineFunctions kept) ellipsis
          (ellipsisWidth f ellipsis) maxWidth pad := by
  obtain ⟨hresult, hkept, hover, hvisible⟩ := @truncateAnsi_kept κ γ f maxWidth
    (maxWidth - ellipsisWidth f ellipsis) (Nat.sub_le _ _) .start rfl rfl (Nat.zero_le _) rfl text
  have hzero (n : Nat) : (Truncation.start : Truncation κ γ).visibleSoFar + n = n := Nat.zero_add n
  have hzero' (n : Nat) : (Truncation.start : Truncation κ γ).keptWidth + n = n := Nat.zero_add n
  rw [hzero] at hover hvisible
  rw [hzero'] at hkept
  rw [ansiPath, Truncation.close, hover]
  by_cases hfits : visibleWidth f.toLineFunctions text ≤ maxWidth
  · have hno : decide (maxWidth < visibleWidth f.toLineFunctions text) = false :=
      decide_eq_false (Nat.not_lt.mpr hfits)
    rw [hno, if_neg Bool.false_ne_true, if_pos hfits, hvisible (hover.trans hno)]
  · rw [decide_eq_true (Nat.not_le.mp hfits), if_pos rfl, if_neg hfits, hresult, hkept]
    rfl

theorem plainPath_eq (h : Uncoded text) (pad : Bool) :
    plainPath f text maxWidth ellipsis pad = ansiPath f text maxWidth ellipsis pad := by
  rw [plainPath, ansiPath, truncatePlain_eq h _ rfl]

theorem asciiPath_eq (hroom : ellipsisWidth f ellipsis < maxWidth) (h : isPrintableAscii f text = true)
    (pad : Bool) : asciiPath f text maxWidth ellipsis pad = ansiPath f text maxWidth ellipsis pad := by
  rw [ansiPath_eq, asciiPath, (keep_printable h 0).2]
  split
  next => rfl
  next hover =>
    have hlength : (text.take (maxWidth - ellipsisWidth f ellipsis)).length = maxWidth - ellipsisWidth f ellipsis := by
      rw [List.length_take]
      omega
    dsimp only
    rw [(keep_printable h _).1, (keep_printable (printable_take h _) 0).2, hlength]

theorem wideEllipsisPath_eq (hmax : 0 < maxWidth) (text ellipsis : List (Token κ γ)) (pad : Bool) :
    wideEllipsisPath f text maxWidth ellipsis pad =
      if visibleWidth f.toLineFunctions text ≤ maxWidth then
        text ++ padding f pad (maxWidth - visibleWidth f.toLineFunctions text)
      else
        let shown := keep f maxWidth [] ellipsis
        if visibleWidth f.toLineFunctions shown = 0 then padding f pad maxWidth
        else
          finalizeTruncatedResult f [] 0 shown (visibleWidth f.toLineFunctions shown) maxWidth pad := by
  rw [wideEllipsisPath, truncateFragmentToWidth_eq ellipsis hmax]

theorem truncateToWidth_eq (hmax : 0 < maxWidth) (text ellipsis : List (Token κ γ)) (pad : Bool) :
    truncateToWidth f text maxWidth ellipsis pad =
      if ellipsisWidth f ellipsis ≥ maxWidth then wideEllipsisPath f text maxWidth ellipsis pad
      else ansiPath f text maxWidth ellipsis pad := by
  unfold truncateToWidth
  rw [if_neg (Nat.pos_iff_ne_zero.mp hmax)]
  split
  next hempty =>
    obtain rfl := List.eq_nil_of_length_eq_zero hempty
    have hfits : visibleWidth f.toLineFunctions ([] : List (Token κ γ)) ≤ maxWidth := Nat.zero_le _
    split
    next => exact ((wideEllipsisPath_eq hmax [] ellipsis pad).trans (if_pos hfits)).symm
    next => exact ((ansiPath_eq [] pad).trans (if_pos hfits)).symm
  next =>
    split
    next => rfl
    next hroom =>
      split
      next hprintable => exact asciiPath_eq (Nat.not_le.mp hroom) hprintable pad
      next =>
        split
        next hplain =>
          rw [Bool.and_eq_true, Bool.not_eq_true'] at hplain
          exact plainPath_eq (uncoded_of_hasAnsi hplain.1) pad
        next => rfl

theorem visibleWidth_finalize (kept ellipsis : List (Token κ γ)) (keptWidth width maxWidth : Nat) (pad : Bool) :
    visibleWidth f.toLineFunctions (finalizeTruncatedResult f kept keptWidth ellipsis width maxWidth pad) =
      visibleWidth f.toLineFunctions kept + visibleWidth f.toLineFunctions ellipsis +
        if pad then maxWidth - (keptWidth + width) else 0 := by
  have hreset : visibleWidth f.toLineFunctions [.ansi f.reset] = 0 := rfl
  unfold finalizeTruncatedResult
  rw [visibleWidth_append, visibleWidth_padding]
  split
  · simp only [visibleWidth_append, visibleWidth_codes, hreset, Nat.add_zero]
  next hempty =>
    have hnil : ellipsis = [] := List.eq_nil_of_length_eq_zero (by omega)
    rw [hnil]
    simp only [visibleWidth_append, visibleWidth_codes, hreset, Nat.add_zero]
    rfl

theorem visibleWidth_padded {width : Nat} (pad : Bool) (h : width ≤ maxWidth) :
    width + (if pad then maxWidth - width else 0) ≤ maxWidth ∧
      (pad = true → width + (if pad then maxWidth - width else 0) = maxWidth) := by
  cases pad with
  | true =>
    rw [if_pos rfl]
    exact ⟨by omega, fun _ => by omega⟩
  | false => exact ⟨h, nofun⟩

/-- **A line is as wide as it may be.** -/
theorem visibleWidth_truncateToWidth (hmax : 0 < maxWidth) (text ellipsis : List (Token κ γ)) (pad : Bool) :
    let width := visibleWidth f.toLineFunctions (truncateToWidth f text maxWidth ellipsis pad)
    width ≤ maxWidth ∧ (pad = true → width = maxWidth) := by
  intro width
  have htext (h : visibleWidth f.toLineFunctions text ≤ maxWidth) :
      visibleWidth f.toLineFunctions (text ++ padding f pad (maxWidth - visibleWidth f.toLineFunctions text)) =
        visibleWidth f.toLineFunctions text +
          if pad then maxWidth - visibleWidth f.toLineFunctions text else 0 := by
    rw [visibleWidth_append, visibleWidth_padding]
  show visibleWidth f.toLineFunctions (truncateToWidth f text maxWidth ellipsis pad) ≤ maxWidth ∧
    (pad = true → visibleWidth f.toLineFunctions (truncateToWidth f text maxWidth ellipsis pad) = maxWidth)
  rw [truncateToWidth_eq hmax]
  split
  next =>
    rw [wideEllipsisPath_eq hmax]
    split
    next hfits =>
      rw [htext hfits]
      exact visibleWidth_padded pad hfits
    next =>
      have hshown := (longestFit_keep (f := f) maxWidth [] ellipsis).fits
      dsimp only
      split
      next =>
        rw [visibleWidth_padding]
        have := @visibleWidth_padded maxWidth 0 pad (Nat.zero_le _)
        rwa [Nat.zero_add, Nat.sub_zero] at this
      next =>
        have hnone : visibleWidth f.toLineFunctions ([] : List (Token κ γ)) = 0 := rfl
        rw [visibleWidth_finalize, hnone, Nat.zero_add]
        exact visibleWidth_padded pad hshown
  next hroom =>
    rw [ansiPath_eq]
    split
    next hfits =>
      rw [htext hfits]
      exact visibleWidth_padded pad hfits
    next =>
      have hkept := (longestFit_keep (f := f) (maxWidth - ellipsisWidth f ellipsis) [] text).fits
      rw [visibleWidth_finalize]
      refine visibleWidth_padded pad ?_
      have : visibleWidth f.toLineFunctions ellipsis = ellipsisWidth f ellipsis := rfl
      omega

/-- **A line that is too wide is truncated**: it keeps the longest part that leaves room for the ellipsis. An
ellipsis that is as wide as the line takes all of it, as far as it fits. -/
theorem truncateToWidth_spec (hmax : 0 < maxWidth) (text ellipsis : List (Token κ γ)) (pad : Bool) :
    let result := truncateToWidth f text maxWidth ellipsis pad
    let W := visibleWidth f.toLineFunctions
    (W result ≤ maxWidth ∧ (pad = true → W result = maxWidth)) ∧
    (W text ≤ maxWidth → result = text ++ padding f pad (maxWidth - W text)) ∧
    (maxWidth < W text → W ellipsis < maxWidth → ∃ kept, LongestFit f (maxWidth - W ellipsis) text kept ∧
      result = finalizeTruncatedResult f kept (W kept) ellipsis (W ellipsis) maxWidth pad) ∧
    (maxWidth < W text → maxWidth ≤ W ellipsis → ∃ shown, LongestFit f maxWidth ellipsis shown ∧
      result = if W shown = 0 then padding f pad maxWidth
        else finalizeTruncatedResult f [] 0 shown (W shown) maxWidth pad) ∧
    (W ellipsis < maxWidth → (isPrintableAscii f text = true → asciiPath f text maxWidth ellipsis pad =
          plainPath f text maxWidth ellipsis pad) ∧
        (hasAnsi f text = false → plainPath f text maxWidth ellipsis pad = ansiPath f text maxWidth ellipsis pad)) := by
  intro result W
  have hresult : result = _ := truncateToWidth_eq hmax text ellipsis pad
  refine ⟨visibleWidth_truncateToWidth hmax text ellipsis pad, fun hfits => ?_, fun hover hroom => ?_,
    fun hover hwide => ?_, fun hroom => ⟨fun hprintable => ?_, fun hcodes => ?_⟩⟩
  · rw [hresult]
    split
    · exact (wideEllipsisPath_eq hmax text ellipsis pad).trans (if_pos hfits)
    next => exact (ansiPath_eq text pad).trans (if_pos hfits)
  · refine ⟨_, longestFit_keep _ [] text, hresult.trans ?_⟩
    refine (if_neg (Nat.not_le.mpr hroom)).trans ?_
    exact (ansiPath_eq text pad).trans (if_neg (Nat.not_le.mpr hover))
  · refine ⟨_, longestFit_keep _ [] ellipsis, hresult.trans ?_⟩
    refine (if_pos hwide).trans ?_
    exact (wideEllipsisPath_eq hmax text ellipsis pad).trans (if_neg (Nat.not_le.mpr hover))
  · exact (asciiPath_eq hroom hprintable pad).trans (plainPath_eq (uncoded_of_printable hprintable) pad).symm
  · exact plainPath_eq (uncoded_of_hasAnsi hcodes) pad

end Proofs

/-! ## A combining mark -/

/-- Characters are graphemes, and only the combining acute accent has no width. -/
def markedFunctions : TruncationFunctions Unit Char where
  graphemeWidth segment := if segment = '\t' then 3 else if segment = '\u0301' then 0 else 1
  blank := ' '
  graphemeWidth_blank := rfl
  getActiveCodes := id
  isImageLine _ := false
  SEGMENT_RESET := []
  isTab segment := segment = '\t'
  isPrintable segment := 32 ≤ segment.toNat && segment.toNat ≤ 126
  hasEscape segment := segment = '\x1b'
  getActiveOsc8Close _ := []
  reset := ()
  graphemeWidth_tab segment h := if_pos (of_decide_eq_true h)
  graphemeWidth_printable segment h := by
    rw [Bool.and_eq_true, decide_eq_true_eq, decide_eq_true_eq] at h
    rw [if_neg, if_neg]
    · rintro rfl
      exact absurd h.2 (by decide)
    · rintro rfl
      exact absurd h.1 (by decide)

theorem truncateToWidth_spec_plain :
    let text := "\u0301abc".toList.map (@Token.grapheme Unit Char)
    let result := truncateToWidth markedFunctions text 2 [.grapheme '.'] false
    visibleWidth markedFunctions.toLineFunctions result ≤ 2 ∧ ∃ kept, LongestFit markedFunctions 1 text kept ∧
      result = finalizeTruncatedResult markedFunctions kept (visibleWidth markedFunctions.toLineFunctions kept)
        [.grapheme '.'] 1 2 false := by
  obtain ⟨hwidth, -, hkept, -⟩ := truncateToWidth_spec (f := markedFunctions) Nat.two_pos
    ("\u0301abc".toList.map Token.grapheme) [.grapheme '.'] false
  exact ⟨hwidth.1, hkept (by decide) (by decide)⟩

/-- The accent at the start of the line would leave room for the ellipsis, and is not kept. -/
theorem truncateToWidth_drops_mark :
    let text := "\u0301abcd".toList.map (@Token.grapheme Unit Char)
    let ellipsis := "...".toList.map (@Token.grapheme Unit Char)
    3 < visibleWidth markedFunctions.toLineFunctions text ∧ visibleWidth markedFunctions.toLineFunctions ellipsis = 3 ∧
        ∀ kept, LongestFit markedFunctions (3 - 3) text kept →
          graphemes (truncateToWidth markedFunctions text 3 ellipsis false) ≠ graphemes kept ++ graphemes ellipsis := by
  refine ⟨by decide, by decide, fun kept hkept heq => ?_⟩
  have hne : kept ≠ [] := hkept.ne_nil (Nat.le_refl 0)
  have hresult : graphemes (truncateToWidth markedFunctions ("\u0301abcd".toList.map (@Token.grapheme Unit Char)) 3
      ("...".toList.map (@Token.grapheme Unit Char)) false) = ['.', '.', '.'] := by decide
  rw [hresult] at heq
  rcases hkept.ends with hnil | ⟨init, segment, rfl⟩
  · exact hne hnil
  · have := congrArg List.length heq
    simp [graphemes] at this

end Mcpi.Tui
