import Mathlib.Data.List.Pairwise
import Mcpi.Tools.EditResult

/-!
# The order of the edits

Sorting brings the matches into one order, except for those of blank texts: they are all at the start of the
content, and stay there in the order of the edits.
-/

namespace Mcpi.Tools.EditDiff

open scoped List

variable {nfkc : Nfkc} {base content : Text} {edits : List Edit} {unsorted : List MatchedEdit}
  {result : AppliedEditsResult} {lines : List LineSpan} {groups : List Group} {replacements : List MatchedEdit}

/-! ## Numbers are for messages -/

/-- A match without the number of its edit. -/
def erase (matched : MatchedEdit) : MatchedEdit := { matched with editIndex := 0 }

def Group.erase (group : Group) : Group := { group with replacements := group.replacements.map EditDiff.erase }

theorem applyReplacements_erase (text : Text) (replacements : List MatchedEdit) (offset : Nat) :
    applyReplacements text (replacements.map erase) offset = applyReplacements text replacements offset := by
  rw [applyReplacements, List.foldr_map]
  rfl

theorem groupReplacement_erase (lines : List LineSpan) (groups : List Group) (replacement : MatchedEdit) :
    groupReplacement lines (groups.map Group.erase) (erase replacement) =
      (groupReplacement lines groups replacement).map (List.map Group.erase) := by
  unfold groupReplacement
  rw [show getReplacementLineRange lines (erase replacement) = getReplacementLineRange lines replacement from rfl]
  cases getReplacementLineRange lines replacement with
  | error message => rfl
  | ok range =>
    cases groups with
    | nil => rfl
    | cons current others =>
      show (if range.1 < current.endLine then _ else _ : Except String (List Group)) =
        Except.map _ (if range.1 < current.endLine then _ else _)
      split
      · simp [Except.map, pure, Except.pure, Group.erase]
      · rfl

theorem foldlM_erase (lines : List LineSpan) (groups : List Group) (replacements : List MatchedEdit) :
    (replacements.map erase).foldlM (groupReplacement lines) (groups.map Group.erase) =
      (replacements.foldlM (groupReplacement lines) groups).map (List.map Group.erase) := by
  induction replacements generalizing groups with
  | nil => rfl
  | cons replacement replacements ih =>
    rw [List.map_cons, List.foldlM_cons, List.foldlM_cons, groupReplacement_erase]
    cases groupReplacement lines groups replacement with
    | error message => rfl
    | ok next => exact ih next

theorem overlay_erase (originalLines : List Text) (baseContent : Text) (lines : List LineSpan) (n : Nat)
    (groups : List Group) :
    overlay originalLines baseContent lines n (groups.map Group.erase) =
      overlay originalLines baseContent lines n groups := by
  induction groups generalizing n with
  | nil => rfl
  | cons group groups ih =>
    rw [List.map_cons, overlay, overlay, ← ih]
    show _ ++ applyReplacements _ (group.replacements.map erase) _ ++ _ = _
    rw [applyReplacements_erase]
    rfl

/-- The new content, of sorted matches in one of the two modes. -/
def rewritten (content base : Text) (fuzzy : Bool) (sorted : List MatchedEdit) : Except String Text :=
  if fuzzy then
    (sorted.foldlM (groupReplacement (getLineSpans base)) []).map fun groups =>
      overlay (splitLinesWithEndings content) base (getLineSpans base) 0 groups.reverse
  else .ok (applyReplacements base sorted 0)

theorem rewritten_erase (content base : Text) (fuzzy : Bool) (sorted : List MatchedEdit) :
    rewritten content base fuzzy (sorted.map erase) = rewritten content base fuzzy sorted := by
  unfold rewritten
  cases fuzzy with
  | false => rw [if_neg Bool.false_ne_true, if_neg Bool.false_ne_true, applyReplacements_erase]
  | true =>
    rw [if_pos rfl, if_pos rfl]
    have hfold := foldlM_erase (getLineSpans base) [] sorted
    rw [List.map_nil] at hfold
    rw [hfold]
    cases sorted.foldlM (groupReplacement (getLineSpans base)) [] with
    | error message => rfl
    | ok groups =>
      show Except.ok (overlay _ base _ 0 (groups.map Group.erase).reverse) =
        Except.ok (overlay _ base _ 0 groups.reverse)
      rw [← List.map_reverse, overlay_erase]

/-! ## Blank matches -/

/-- A match of a blank text. -/
def AtStart (matched : MatchedEdit) : Prop := matched.matchIndex = 0 ∧ matched.matchLength = 0

/-- Matches at the start are replaced by their texts, one after the other. -/
theorem applyReplacements_append {blanks : List MatchedEdit} (hblanks : ∀ m ∈ blanks, AtStart m) (text : Text)
    (others : List MatchedEdit) (offset : Nat) : applyReplacements text (blanks ++ others) offset =
      blanks.flatMap MatchedEdit.newText ++ applyReplacements text others offset := by
  induction blanks with
  | nil => rfl
  | cons blank blanks ih =>
    obtain ⟨hindex, hlength⟩ := hblanks blank (by simp)
    have hrest := ih fun m hm => hblanks m (List.mem_cons_of_mem _ hm)
    rw [List.flatMap_cons, List.append_assoc, ← hrest]
    show List.take (blank.matchIndex - offset) (applyReplacements text (blanks ++ others) offset) ++ blank.newText ++
      List.drop (blank.matchIndex - offset + blank.matchLength) (applyReplacements text (blanks ++ others) offset) = _
    rw [hindex, hlength, Nat.zero_sub, List.take_zero, List.drop_zero, List.nil_append]

/-- Which groups there are does not depend on the replacements that the first of them began with. -/
theorem foldlM_uniform (lines : List LineSpan) (others : List Group) (startLine endLine : Nat)
    (more replacements : List MatchedEdit) :
    (∃ message, ∀ first, replacements.foldlM (groupReplacement lines)
        (others ++ [⟨startLine, endLine, first ++ more⟩]) =
      .error message) ∨
    ∃ others' endLine' more', ∀ first,
      replacements.foldlM (groupReplacement lines) (others ++ [⟨startLine, endLine, first ++ more⟩]) =
        .ok (others' ++ [⟨startLine, endLine', first ++ more'⟩]) := by
  induction replacements generalizing others endLine more with
  | nil => exact .inr ⟨others, endLine, more, fun _ => rfl⟩
  | cons replacement replacements ih =>
    simp only [List.foldlM_cons]
    cases hrange : getReplacementLineRange lines replacement with
    | error message =>
      refine .inl ⟨message, fun first => ?_⟩
      rw [groupReplacement, hrange]
      rfl
    | ok range =>
      cases others with
      | nil =>
        by_cases hjoin : range.1 < endLine
        · have hstep : ∀ first, groupReplacement lines ([] ++ [⟨startLine, endLine, first ++ more⟩]) replacement =
              .ok ([] ++ [⟨startLine, max endLine range.2, first ++ (more ++ [replacement])⟩]) := by
            intro first
            rw [groupReplacement, hrange]
            show (if range.1 < endLine then _ else _ : Except String (List Group)) = _
            rw [if_pos hjoin, List.append_assoc]
            rfl
          simp only [hstep]
          exact ih [] _ _
        · have hstep : ∀ first, groupReplacement lines ([] ++ [⟨startLine, endLine, first ++ more⟩]) replacement =
              .ok ([⟨range.1, range.2, [replacement]⟩] ++ [⟨startLine, endLine, first ++ more⟩]) := by
            intro first
            rw [groupReplacement, hrange]
            show (if range.1 < endLine then _ else _ : Except String (List Group)) = _
            rw [if_neg hjoin]
            rfl
          simp only [hstep]
          exact ih _ _ _
      | cons current others =>
        have hstep : ∃ next, ∀ first, groupReplacement lines
            ((current :: others) ++ [⟨startLine, endLine, first ++ more⟩]) replacement =
              .ok (next ++ [⟨startLine, endLine, first ++ more⟩]) := by
          by_cases hjoin : range.1 < current.endLine
          · refine ⟨⟨current.startLine, max current.endLine range.2, current.replacements ++ [replacement]⟩ ::
              others, fun first => ?_⟩
            rw [groupReplacement, hrange]
            show (if range.1 < current.endLine then _ else _ : Except String (List Group)) = _
            rw [if_pos hjoin]
            rfl
          · refine ⟨⟨range.1, range.2, [replacement]⟩ :: current :: others, fun first => ?_⟩
            rw [groupReplacement, hrange]
            show (if range.1 < current.endLine then _ else _ : Except String (List Group)) = _
            rw [if_neg hjoin]
            rfl
        obtain ⟨next, hnext⟩ := hstep
        simp only [hnext]
        exact ih next _ _

theorem lt_of_getReplacementLineRange {replacement : MatchedEdit} {startLine endLine : Nat}
    (h : getReplacementLineRange lines replacement = .ok (startLine, endLine)) : startLine < endLine := by
  unfold getReplacementLineRange at h
  dsimp only at h
  split at h
  · cases h
  · split at h
    · cases h
    · cases h
      omega

theorem getReplacementLineRange_atStart {replacement : MatchedEdit} (h : AtStart replacement) (lines : List LineSpan) :
    getReplacementLineRange lines replacement = getReplacementLineRange lines ⟨0, 0, 0, []⟩ := by
  unfold getReplacementLineRange
  rw [h.1, h.2]

theorem foldlM_blanks {startLine endLine : Nat}
    (hrange : getReplacementLineRange lines ⟨0, 0, 0, []⟩ = .ok (startLine, endLine)) (first : List MatchedEdit)
    {blanks : List MatchedEdit} (hblanks : ∀ m ∈ blanks, AtStart m) :
    blanks.foldlM (groupReplacement lines) [⟨startLine, endLine, first⟩] =
      .ok [⟨startLine, endLine, first ++ blanks⟩] := by
  induction blanks generalizing first with
  | nil =>
    rw [List.append_nil]
    rfl
  | cons blank blanks ih =>
    have hstep : groupReplacement lines [⟨startLine, endLine, first⟩] blank =
        .ok [⟨startLine, endLine, first ++ [blank]⟩] := by
      rw [groupReplacement, getReplacementLineRange_atStart (hblanks blank (by simp)), hrange]
      show (if startLine < endLine then _ else _ : Except String (List Group)) = _
      rw [if_pos (lt_of_getReplacementLineRange hrange), Nat.max_self]
      rfl
    rw [List.foldlM_cons, hstep]
    have hrest := ih (first ++ [blank]) fun m hm => hblanks m (List.mem_cons_of_mem _ hm)
    rw [List.append_assoc, List.singleton_append] at hrest
    exact hrest

theorem overlay_blanks (originalLines : List Text) (base : Text) (lines : List LineSpan)
    (n startLine endLine : Nat) (more : List MatchedEdit) (groups : List Group) :
    ∃ before after, ∀ blanks, (∀ m ∈ blanks, AtStart m) →
      overlay originalLines base lines n (⟨startLine, endLine, blanks ++ more⟩ :: groups) =
        before ++ blanks.flatMap MatchedEdit.newText ++ after := by
  let groupStartOffset := (lines.getD startLine ⟨0, 0⟩).start
  let groupEndOffset := (lines.getD (endLine - 1) ⟨0, 0⟩).stop
  refine ⟨((originalLines.take startLine).drop n).flatten,
    applyReplacements ((base.take groupEndOffset).drop groupStartOffset) more groupStartOffset ++
      overlay originalLines base lines endLine groups, fun blanks hblanks => ?_⟩
  rw [overlay, applyReplacements_append hblanks]
  simp only [List.append_assoc]
  rfl

/-- **Blank matches** put their texts in one place, one after the other. -/
theorem rewritten_blanks (content base : Text) (fuzzy : Bool) (others : List MatchedEdit) :
    (∃ message, ∀ blanks, blanks ≠ [] → (∀ m ∈ blanks, AtStart m) →
      rewritten content base fuzzy (blanks ++ others) = .error message) ∨
    ∃ before after, ∀ blanks, blanks ≠ [] → (∀ m ∈ blanks, AtStart m) →
      rewritten content base fuzzy (blanks ++ others) =
        .ok (before ++ blanks.flatMap MatchedEdit.newText ++ after) := by
  unfold rewritten
  cases fuzzy with
  | false =>
    refine .inr ⟨[], applyReplacements base others 0, fun blanks _ hblanks => ?_⟩
    rw [if_neg Bool.false_ne_true, applyReplacements_append hblanks, List.nil_append]
  | true =>
    simp only [if_true]
    cases hrange : getReplacementLineRange (getLineSpans base) ⟨0, 0, 0, []⟩ with
    | error message =>
      refine .inl ⟨message, fun blanks hne hblanks => ?_⟩
      obtain ⟨blank, more, rfl⟩ := List.exists_cons_of_ne_nil hne
      have hstep : groupReplacement (getLineSpans base) [] blank = .error message := by
        rw [groupReplacement, getReplacementLineRange_atStart (hblanks blank (by simp)), hrange]
        rfl
      rw [List.cons_append, List.foldlM_cons, hstep]
      rfl
    | ok range =>
      obtain ⟨startLine, endLine⟩ := range
      have hgroup : ∀ blanks : List MatchedEdit, blanks ≠ [] → (∀ m ∈ blanks, AtStart m) →
          (blanks ++ others).foldlM (groupReplacement (getLineSpans base)) [] =
            others.foldlM (groupReplacement (getLineSpans base)) ([] ++ [⟨startLine, endLine, blanks ++ []⟩]) := by
        intro blanks hne hblanks
        obtain ⟨blank, more, rfl⟩ := List.exists_cons_of_ne_nil hne
        have hstep : groupReplacement (getLineSpans base) [] blank = .ok [⟨startLine, endLine, [blank]⟩] := by
          rw [groupReplacement, getReplacementLineRange_atStart (hblanks blank (by simp)), hrange]
          rfl
        have hmore := foldlM_blanks hrange [blank] fun m hm => hblanks m (List.mem_cons_of_mem _ hm)
        rw [List.foldlM_append, List.foldlM_cons, hstep]
        show (more.foldlM (groupReplacement (getLineSpans base)) [⟨startLine, endLine, [blank]⟩] >>= fun groups =>
          others.foldlM (groupReplacement (getLineSpans base)) groups) = _
        rw [hmore, List.append_nil]
        rfl
      rcases foldlM_uniform (getLineSpans base) [] startLine endLine [] others with
        ⟨message, herror⟩ | ⟨later, stop, more, hok⟩
      · refine .inl ⟨message, fun blanks hne hblanks => ?_⟩
        rw [hgroup blanks hne hblanks, herror]
        rfl
      · obtain ⟨before, after, hoverlay⟩ := overlay_blanks (splitLinesWithEndings content) base (getLineSpans base) 0
          startLine stop more later.reverse
        refine .inr ⟨before, after, fun blanks hne hblanks => ?_⟩
        rw [hgroup blanks hne hblanks, hok]
        show Except.ok (overlay _ base _ 0 (later ++ [Group.mk startLine stop (blanks ++ more)]).reverse) = _
        rw [List.reverse_append, List.reverse_singleton, List.singleton_append, hoverlay blanks hblanks]

/-! ## Sorted matches -/

/-- Two matches at the start are both of blank texts, and their new texts may be exchanged. -/
def Exchangeable (a b : MatchedEdit) : Prop :=
  a.matchIndex = 0 → b.matchIndex = 0 →
    a.matchLength = 0 ∧ b.matchLength = 0 ∧ a.newText ++ b.newText = b.newText ++ a.newText

theorem Exchangeable.symm {a b : MatchedEdit} (h : Exchangeable a b) : Exchangeable b a := by
  intro hb ha
  obtain ⟨hla, hlb, hnew⟩ := h ha hb
  exact ⟨hlb, hla, hnew.symm⟩

/-- Matches in which blank ones are at the start and nothing else is there with them. -/
structure BlanksAtStart (matched : List MatchedEdit) : Prop where
  exchangeable : matched.Pairwise Exchangeable
  blank : ∀ m ∈ matched, m.matchLength = 0 → m.matchIndex = 0

theorem BlanksAtStart.perm {matched other : List MatchedEdit} (h : BlanksAtStart matched) (hperm : matched ~ other) :
    BlanksAtStart other :=
  ⟨(hperm.pairwise_iff Exchangeable.symm).mp h.exchangeable, fun m hm => h.blank m (hperm.mem_iff.mpr hm)⟩

theorem filter_append_filter {α : Type} (p : α → Bool) {list : List α}
    (h : list.Pairwise fun a b => p b = true → p a = true) :
    list = list.filter p ++ list.filter fun a => !p a := by
  induction list with
  | nil => rfl
  | cons a list ih =>
    obtain ⟨ha, hlist⟩ := List.pairwise_cons.mp h
    cases hpa : p a with
    | true =>
      rw [List.filter_cons_of_pos hpa, List.filter_cons_of_neg (by rw [hpa]; exact Bool.false_ne_true),
        List.cons_append, ← ih hlist]
    | false =>
      have hnone : list.filter p = [] := by
        apply List.filter_eq_nil_iff.mpr
        intro b hb hpb
        rw [ha b hb hpb] at hpa
        cases hpa
      rw [List.filter_cons_of_neg (by rw [hpa]; exact Bool.false_ne_true), List.filter_cons_of_pos (by rw [hpa]; rfl),
        hnone, List.nil_append]
      rw [hnone, List.nil_append] at ih
      rw [← ih hlist]

def isBlank (matched : MatchedEdit) : Bool := matched.matchLength = 0

/-- Sorted matches are blank ones at the start and then the others. -/
theorem BlanksAtStart.blanks_first {sorted : List MatchedEdit} (h : BlanksAtStart sorted)
    (hsorted : sorted.Pairwise fun a b => a.matchIndex ≤ b.matchIndex) :
    sorted = sorted.filter isBlank ++ sorted.filter fun m => !isBlank m := by
  apply filter_append_filter
  refine (hsorted.and h.exchangeable).imp_of_mem fun {a b} ha hb hab hblank => ?_
  obtain ⟨hle, hexchange⟩ := hab
  have hb0 := h.blank b hb (of_decide_eq_true hblank)
  exact decide_eq_true (hexchange (by omega) hb0).1

theorem flatMap_perm {blanks other : List MatchedEdit} (hperm : blanks ~ other) (h : BlanksAtStart blanks)
    (hblanks : ∀ m ∈ blanks, m.matchLength = 0) :
    blanks.flatMap MatchedEdit.newText = other.flatMap MatchedEdit.newText := by
  have hcommute : ∀ a ∈ blanks, ∀ b ∈ blanks, a.newText ++ b.newText = b.newText ++ a.newText := by
    have hsymm : Std.Symm fun a b : MatchedEdit => a.newText ++ b.newText = b.newText ++ a.newText :=
      ⟨fun _ _ h => h.symm⟩
    have hpairs : blanks.Pairwise fun a b => a.newText ++ b.newText = b.newText ++ a.newText := by
      refine h.exchangeable.imp_of_mem fun {a b} ha hb hab => ?_
      exact (hab (h.blank a ha (hblanks a ha)) (h.blank b hb (hblanks b hb))).2.2
    exact fun a ha b hb => @List.Pairwise.forall_of_forall MatchedEdit
      (fun a b => a.newText ++ b.newText = b.newText ++ a.newText) blanks hsymm (fun _ _ => rfl) hpairs a ha b hb
  have hfold : ∀ list : List MatchedEdit, list.flatMap MatchedEdit.newText =
      list.foldr (fun m text => m.newText ++ text) [] := by
    intro list
    induction list with
    | nil => rfl
    | cons m list ih => rw [List.flatMap_cons, List.foldr_cons, ih]
  rw [hfold, hfold]
  apply hperm.foldr_eq'
  intro a ha b hb text
  rw [← List.append_assoc, ← List.append_assoc, hcommute b hb a ha]

variable {sorted other : List MatchedEdit}

/-- Two sorted orders of the same matches differ in the blank ones alone. -/
theorem others_eq (hperm : sorted ~ other) (hsorted : sorted.Pairwise fun a b => a.matchIndex ≤ b.matchIndex)
    (hother : other.Pairwise fun a b => a.matchIndex ≤ b.matchIndex)
    (hapart : sorted.Pairwise fun a b => a.matchIndex + a.matchLength ≤ b.matchIndex) :
    (sorted.filter fun m => !isBlank m) = other.filter fun m => !isBlank m := by
  have hfilter := hperm.filter fun m => !isBlank m
  have hstrict : (sorted.filter fun m => !isBlank m).Pairwise fun a b => a.matchIndex ≠ b.matchIndex := by
    refine (hapart.filter _).imp_of_mem fun {a b} ha hb hab => ?_
    have hlong : ¬ a.matchLength = 0 := by
      have hnot := (List.mem_filter.mp ha).2
      rw [Bool.not_eq_true'] at hnot
      exact of_decide_eq_false hnot
    omega
  have hstrictOther := (hfilter.pairwise_iff fun {a b} h => Ne.symm h).mp hstrict
  refine @List.Perm.eq_of_pairwise MatchedEdit (fun a b => a.matchIndex < b.matchIndex) _ _ ?_ ?_ ?_ hfilter
  · intro a b _ _ hab hba
    omega
  · exact ((hsorted.filter _).and hstrict).imp fun ⟨hle, hne⟩ => by omega
  · exact ((hother.filter _).and hstrictOther).imp fun ⟨hle, hne⟩ => by omega

theorem atStart_of_isBlank {sorted : List MatchedEdit} (h : BlanksAtStart sorted) :
    ∀ m ∈ sorted.filter isBlank, AtStart m := by
  intro m hm
  obtain ⟨hin, hblank⟩ := List.mem_filter.mp hm
  have hlength : m.matchLength = 0 := of_decide_eq_true hblank
  exact ⟨h.blank m hin hlength, hlength⟩

theorem apart_perm (hperm : sorted ~ other) (hseparated : BlanksAtStart sorted)
    (hsorted : sorted.Pairwise fun a b => a.matchIndex ≤ b.matchIndex)
    (hother : other.Pairwise fun a b => a.matchIndex ≤ b.matchIndex)
    (hapart : sorted.Pairwise fun a b => a.matchIndex + a.matchLength ≤ b.matchIndex) :
    other.Pairwise fun a b => a.matchIndex + a.matchLength ≤ b.matchIndex := by
  have hatStart := atStart_of_isBlank (hseparated.perm hperm)
  rw [(hseparated.perm hperm).blanks_first hother, ← others_eq hperm hsorted hother hapart]
  have hblank : ∀ a ∈ other.filter isBlank, ∀ b : MatchedEdit, a.matchIndex + a.matchLength ≤ b.matchIndex := by
    intro a ha b
    rw [(hatStart a ha).1, (hatStart a ha).2]
    exact Nat.zero_le _
  refine List.pairwise_append.mpr ⟨?_, hapart.filter _, fun a ha b _ => hblank a ha b⟩
  exact List.pairwise_of_forall_mem_list fun a ha b _ => hblank a ha b

/-- **Sorted orders of the same matches** have the same result. -/
theorem rewritten_perm (content base : Text) (fuzzy : Bool) (hperm : sorted ~ other)
    (hseparated : BlanksAtStart sorted) (hsorted : sorted.Pairwise fun a b => a.matchIndex ≤ b.matchIndex)
    (hother : other.Pairwise fun a b => a.matchIndex ≤ b.matchIndex)
    (hapart : sorted.Pairwise fun a b => a.matchIndex + a.matchLength ≤ b.matchIndex) :
    rewritten content base fuzzy sorted = rewritten content base fuzzy other := by
  have hparts := hseparated.blanks_first hsorted
  have hotherParts := (hseparated.perm hperm).blanks_first hother
  rw [← others_eq hperm hsorted hother hapart] at hotherParts
  have hblanks := hperm.filter isBlank
  have hatStart := atStart_of_isBlank hseparated
  by_cases hnone : sorted.filter isBlank = []
  · have hnoneOther : other.filter isBlank = [] := by
      rw [hnone] at hblanks
      exact hblanks.symm.eq_nil
    rw [hparts, hotherParts, hnone, hnoneOther]
  · have hsomeOther : other.filter isBlank ≠ [] := fun h => hnone (by
      rw [h] at hblanks
      exact hblanks.eq_nil)
    have htexts : (sorted.filter isBlank).flatMap MatchedEdit.newText =
        (other.filter isBlank).flatMap MatchedEdit.newText := by
      apply flatMap_perm hblanks
      · exact ⟨hseparated.exchangeable.filter _, fun m hm => hseparated.blank m (List.mem_filter.mp hm).1⟩
      · exact fun m hm => (hatStart m hm).2
    have hatStartOther : ∀ m ∈ other.filter isBlank, AtStart m := fun m hm => hatStart m (hblanks.mem_iff.mpr hm)
    rw [hparts, hotherParts]
    rcases rewritten_blanks content base fuzzy (sorted.filter fun m => !isBlank m) with
      ⟨message, herror⟩ | ⟨before, after, hok⟩
    · rw [herror _ hnone hatStart, herror _ hsomeOther hatStartOther]
    · rw [hok _ hnone hatStart, hok _ hsomeOther hatStartOther, htexts]

end Mcpi.Tools.EditDiff
