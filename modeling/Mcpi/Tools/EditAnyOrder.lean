import Mathlib.Data.List.Perm.Basic
import Mcpi.Tools.EditOrder

/-!
# Edits in any order

When a list of edits gives the same result in every order.
-/

namespace Mcpi.Tools.EditDiff

open scoped List

variable {nfkc : Nfkc} {base content : Text} {edits other : List Edit} {unsorted : List MatchedEdit}
  {result : AppliedEditsResult} {path : String} {i : Nat}

/-- Where two edits are both matched at the start of the content, both are blank and their new texts may be
exchanged. -/
def InAnyOrder (nfkc : Nfkc) (base : Text) (a b : Edit) : Prop :=
  sought nfkc base a.oldText <+: base → sought nfkc base b.oldText <+: base →
    sought nfkc base a.oldText = [] ∧ sought nfkc base b.oldText = [] ∧ a.newText ++ b.newText = b.newText ++ a.newText

theorem MatchOf.index_eq_zero {edit : Edit} {matched : MatchedEdit} (h : MatchOf nfkc base edit matched) :
    matched.matchIndex = 0 ↔ sought nfkc base edit.oldText <+: base := by
  obtain ⟨hat, -, hbefore⟩ := Search.indexOf_eq_some.mp h.found
  constructor
  · intro hzero
    rwa [hzero, List.drop_zero] at hat
  · intro hprefix
    by_contra hlater
    exact hbefore 0 (Nat.pos_of_ne_zero hlater) hprefix

theorem MatchOf.length_eq_zero {edit : Edit} {matched : MatchedEdit} (h : MatchOf nfkc base edit matched) :
    matched.matchLength = 0 ↔ sought nfkc base edit.oldText = [] := by
  rw [h.length, List.length_eq_zero_iff]

theorem Applied.blanksAtStart (h : Applied nfkc content edits result unsorted)
    (hfree : edits.Pairwise (InAnyOrder nfkc (replacementBase nfkc content edits))) : BlanksAtStart unsorted := by
  constructor
  · have hpairs : (unsorted.map (editOf edits)).Pairwise (InAnyOrder nfkc (replacementBase nfkc content edits)) := by
      rw [h.map_editOf]
      exact hfree
    rw [List.pairwise_map] at hpairs
    refine hpairs.imp_of_mem fun {a b} ha hb hab ha0 hb0 => ?_
    have hmatchA := (h.matchOf a ha).2
    have hmatchB := (h.matchOf b hb).2
    obtain ⟨hnilA, hnilB, hnew⟩ := hab (hmatchA.index_eq_zero.mp ha0) (hmatchB.index_eq_zero.mp hb0)
    rw [hmatchA.newText, hmatchB.newText]
    exact ⟨hmatchA.length_eq_zero.mpr hnilA, hmatchB.length_eq_zero.mpr hnilB, hnew⟩
  · intro m hm hlength
    have hmatch := (h.matchOf m hm).2
    apply hmatch.index_eq_zero.mpr
    rw [hmatch.length_eq_zero.mp hlength]
    exact List.nil_prefix

theorem applyReplacementsPreservingUnchangedLines_rewritten (content base : Text) (replacements : List MatchedEdit) :
    applyReplacementsPreservingUnchangedLines content base replacements =
      if (splitLinesWithEndings content).length ≠ (splitLinesWithEndings base).length then .error lineCountError
      else rewritten content base true (sortByIndex replacements) := by
  rw [applyReplacementsPreservingUnchangedLines_eq, rewritten, if_pos rfl]

/-- What the matches are rewritten to is the new content. -/
theorem Applied.rewritten (h : Applied nfkc content edits result unsorted) :
    rewritten content (replacementBase nfkc content edits) (usesFuzzyMatch nfkc content edits) (sortByIndex unsorted) =
      .ok result.newContent := by
  cases hfuzzy : usesFuzzyMatch nfkc content edits with
  | false => rw [EditDiff.rewritten, if_neg Bool.false_ne_true, h.exactly hfuzzy]
  | true =>
    have hlines := h.overLines hfuzzy
    rw [applyReplacementsPreservingUnchangedLines_rewritten, sortByIndex_sortByIndex] at hlines
    split at hlines
    · cases hlines
    · exact hlines

/-! ## Matches of the same edits -/

theorem map_sortByIndex (matched : List MatchedEdit) :
    (sortByIndex matched).map erase = sortByIndex (matched.map erase) :=
  List.map_insertionSort _ _ erase matched fun _ _ _ _ => Iff.rfl

/-- Every edit with a match is matched, whatever its number is. -/
theorem exists_matched (h : ∀ edit ∈ edits, ∃ found, fuzzyFindText nfkc base edit.oldText = some found ∧
    countOccurrences nfkc base edit.oldText ≤ 1) (i : Nat) :
    ∃ matched : List MatchedEdit, (edits.zipIdx i).map (matchEdit nfkc base) = matched.map some := by
  induction edits generalizing i with
  | nil => exact ⟨[], rfl⟩
  | cons edit edits ih =>
    obtain ⟨others, hothers⟩ := ih (fun e he => h e (List.mem_cons_of_mem _ he)) (i + 1)
    obtain ⟨found, hfound, hfew⟩ := h edit (by simp)
    refine ⟨⟨i, found.index, found.matchLength, edit.newText⟩ :: others, ?_⟩
    rw [List.zipIdx_cons, List.map_cons, List.map_cons, hothers, matchEdit, hfound]
    dsimp only
    rw [if_neg (Int.not_lt.mpr hfew)]

theorem map_erase_matched (h : (edits.zipIdx i).map (matchEdit nfkc base) = unsorted.map some) :
    (unsorted.map erase).map some = edits.map fun edit => matchEdit nfkc base (edit, 0) := by
  have hnumber : ∀ edit k, (matchEdit nfkc base (edit, k)).map erase = matchEdit nfkc base (edit, 0) := by
    intro edit k
    rw [matchEdit, matchEdit]
    cases fuzzyFindText nfkc base edit.oldText with
    | none => rfl
    | some found =>
      dsimp only
      split <;> rfl
  have herased := congrArg (List.map (Option.map erase)) h
  rw [List.map_map, List.map_map] at herased
  rw [List.map_map, show (some ∘ erase) = (Option.map erase ∘ some) from rfl, ← herased]
  have hfirst : edits = (edits.zipIdx i).map Prod.fst := (List.zipIdx_map_fst i edits).symm
  conv => rhs; rw [hfirst]
  rw [List.map_map]
  exact List.map_congr_left fun numbered _ => hnumber numbered.1 numbered.2

theorem erase_perm {j : Nat} {matched : List MatchedEdit} (hperm : other ~ edits)
    (h : (edits.zipIdx i).map (matchEdit nfkc base) = unsorted.map some)
    (hother : (other.zipIdx j).map (matchEdit nfkc base) = matched.map some) :
    List.Perm (unsorted.map erase) (matched.map erase) := by
  have hmaps : (unsorted.map erase).map some ~ (matched.map erase).map some := by
    rw [map_erase_matched h, map_erase_matched hother]
    exact hperm.symm.map _
  exact (List.map_perm_map_iff (Option.some_injective _)).mp hmaps

theorem usesFuzzyMatch_perm (nfkc : Nfkc) (content : Text) (hperm : other ~ edits) :
    usesFuzzyMatch nfkc content other = usesFuzzyMatch nfkc content edits := hperm.any_eq

theorem replacementBase_perm (nfkc : Nfkc) (content : Text) (hperm : other ~ edits) :
    replacementBase nfkc content other = replacementBase nfkc content edits := by
  rw [replacementBase, replacementBase, usesFuzzyMatch_perm nfkc content hperm]

theorem findOverlap_of_apart {sorted : List MatchedEdit}
    (h : sorted.Pairwise fun a b => a.matchIndex + a.matchLength ≤ b.matchIndex) : findOverlap sorted = none := by
  induction sorted with
  | nil => rfl
  | cons first others ih =>
    cases others with
    | nil => rfl
    | cons second others =>
      obtain ⟨hfirst, hothers⟩ := List.pairwise_cons.mp h
      rw [findOverlap, if_neg (Nat.not_lt.mpr (hfirst second (by simp)))]
      exact ih hothers

/-- Where matches can be exchanged, another order of the edits has the same result. -/
theorem Applied.anyOrder (h : Applied nfkc content edits result unsorted)
    (hfree : edits.Pairwise (InAnyOrder nfkc (replacementBase nfkc content edits))) (hperm : other ~ edits) :
    ∃ matched, Applied nfkc content other result matched := by
  have hfuzzy := usesFuzzyMatch_perm nfkc content hperm
  have hbase := replacementBase_perm nfkc content hperm
  obtain ⟨matched, hmatched⟩ := exists_matched (fun edit hedit => by
    obtain ⟨found, hfound, hfew, -⟩ := exists_of_mem_unsorted h.matched edit (hperm.mem_iff.mp hedit)
    exact ⟨found, hfound, hfew⟩) 0
  have herased : sortByIndex (unsorted.map erase) ~ sortByIndex (matched.map erase) :=
    (sortByIndex_perm _).trans ((erase_perm hperm h.matched hmatched).trans (sortByIndex_perm _).symm)
  have hseparated : BlanksAtStart (sortByIndex (unsorted.map erase)) := by
    have hstart := h.blanksAtStart hfree
    apply BlanksAtStart.perm _ (sortByIndex_perm _).symm
    refine ⟨List.pairwise_map.mpr (hstart.exchangeable.imp fun hab => hab), fun m hm => ?_⟩
    obtain ⟨original, horiginal, rfl⟩ := List.mem_map.mp hm
    exact hstart.blank original horiginal
  have hapart : (sortByIndex (unsorted.map erase)).Pairwise fun a b => a.matchIndex + a.matchLength ≤ b.matchIndex := by
    rw [← map_sortByIndex]
    exact List.pairwise_map.mpr h.disjoint
  have hresult : EditDiff.rewritten content (replacementBase nfkc content edits) (usesFuzzyMatch nfkc content edits)
      (sortByIndex matched) = .ok result.newContent := by
    rw [← h.rewritten, ← rewritten_erase _ _ _ (sortByIndex matched), ← rewritten_erase _ _ _ (sortByIndex unsorted),
      map_sortByIndex, map_sortByIndex]
    exact (rewritten_perm _ _ _ herased hseparated (sortByIndex_pairwise _) (sortByIndex_pairwise _) hapart).symm
  have hapartOther : (sortByIndex matched).Pairwise fun a b => a.matchIndex + a.matchLength ≤ b.matchIndex := by
    have hpairs := apart_perm herased hseparated (sortByIndex_pairwise _) (sortByIndex_pairwise _) hapart
    rw [← map_sortByIndex] at hpairs
    exact List.pairwise_map.mp hpairs
  refine ⟨matched, fun edit hedit => h.notEmpty edit (hperm.mem_iff.mp hedit), ?_, findOverlap_of_apart hapartOther,
    fun hexact => ?_, fun hlines => ?_, h.changed, h.baseContent⟩
  · rw [hbase]
    exact hmatched
  · rw [hfuzzy] at hexact
    rw [hexact, EditDiff.rewritten, if_neg Bool.false_ne_true] at hresult
    rw [hbase]
    exact (Except.ok.inj hresult).symm
  · rw [hfuzzy] at hlines
    rw [hlines] at hresult
    have hwas := h.overLines hlines
    rw [hbase]
    rw [applyReplacementsPreservingUnchangedLines_rewritten] at hwas ⊢
    split at hwas
    · cases hwas
    next hcount => rw [if_neg hcount, sortByIndex_sortByIndex, hresult]

/-! ## Two edits at the start -/

/-- The first two edits of a list that succeeded, both matched at the start: the first is blank, and their texts
come one after the other. -/
theorem Applied.two_at_start {a b : Edit} {rest : List Edit} (h : Applied nfkc content (a :: b :: rest) result unsorted)
    (ha : sought nfkc (replacementBase nfkc content (a :: b :: rest)) a.oldText <+:
      replacementBase nfkc content (a :: b :: rest))
    (hb : sought nfkc (replacementBase nfkc content (a :: b :: rest)) b.oldText <+:
      replacementBase nfkc content (a :: b :: rest)) :
    ∃ first second others, sortByIndex unsorted = first :: second :: sortByIndex others ∧
      MatchOf nfkc (replacementBase nfkc content (a :: b :: rest)) a first ∧
      MatchOf nfkc (replacementBase nfkc content (a :: b :: rest)) b second ∧
      sought nfkc (replacementBase nfkc content (a :: b :: rest)) a.oldText = [] ∧
      (rest.zipIdx 2).map (matchEdit nfkc (replacementBase nfkc content (a :: b :: rest))) = others.map some := by
  have hmatched := h.matched
  rw [List.zipIdx_cons, List.zipIdx_cons, List.map_cons, List.map_cons] at hmatched
  cases hunsorted : unsorted with
  | nil =>
    rw [hunsorted] at hmatched
    cases hmatched
  | cons first more =>
    cases more with
    | nil =>
      rw [hunsorted] at hmatched
      cases (List.cons.inj hmatched).2
    | cons second others =>
      have hedits := h.map_editOf
      rw [hunsorted, List.map_cons, List.map_cons] at hedits
      obtain ⟨hfirst, hedits⟩ := List.cons.inj hedits
      obtain ⟨hsecond, -⟩ := List.cons.inj hedits
      have hmatchFirst := (h.matchOf first (by rw [hunsorted]; simp)).2
      have hmatchSecond := (h.matchOf second (by rw [hunsorted]; simp)).2
      rw [hfirst] at hmatchFirst
      rw [hsecond] at hmatchSecond
      have hfirst0 := hmatchFirst.index_eq_zero.mpr ha
      have hsecond0 := hmatchSecond.index_eq_zero.mpr hb
      have hsorted : sortByIndex (first :: second :: others) = first :: second :: sortByIndex others := by
        have hleast : ∀ m n : MatchedEdit, m.matchIndex = 0 → m.matchIndex ≤ n.matchIndex := by
          intro m n hm
          rw [hm]
          exact Nat.zero_le _
        rw [sortByIndex, List.insertionSort_cons_of_forall_rel _ fun n _ => hleast first n hfirst0,
          List.insertionSort_cons_of_forall_rel _ fun n _ => hleast second n hsecond0, sortByIndex]
      have hapart := h.disjoint
      rw [hunsorted, hsorted] at hapart
      have hlength := (List.pairwise_cons.mp hapart).1 second (by simp)
      have hzero : first.matchLength = 0 := by omega
      rw [hunsorted] at hmatched
      exact ⟨first, second, others, hsorted, hmatchFirst, hmatchSecond, hmatchFirst.length_eq_zero.mp hzero,
        (List.cons.inj (List.cons.inj hmatched).2).2⟩

/-- Two edits at the start that succeed in both orders with one result can be exchanged. -/
theorem inAnyOrder_of_swap {a b : Edit} {rest : List Edit} {swapped : List MatchedEdit}
    (h : Applied nfkc content (a :: b :: rest) result unsorted)
    (hswap : Applied nfkc content (b :: a :: rest) result swapped) :
    InAnyOrder nfkc (replacementBase nfkc content (a :: b :: rest)) a b := by
  have hperm : b :: a :: rest ~ a :: b :: rest := List.Perm.swap a b rest
  have hfuzzy := usesFuzzyMatch_perm nfkc content hperm
  have hbase := replacementBase_perm nfkc content hperm
  intro ha hb
  obtain ⟨first, second, others, hsorted, hfirst, hsecond, hnilA, hothers⟩ := h.two_at_start ha hb
  obtain ⟨second', first', others', hsorted', hsecond', hfirst', hnilB, hothers'⟩ :=
    hswap.two_at_start (by rwa [hbase]) (by rwa [hbase])
  have hresult := h.rewritten
  have hresult' := hswap.rewritten
  rw [hsorted] at hresult
  rw [hbase] at hnilB hothers' hsecond' hfirst'
  rw [hsorted', hbase, hfuzzy] at hresult'
  have hsame : others' = others := by
    rw [hothers] at hothers'
    exact (List.map_injective_iff.mpr (Option.some_injective _)) hothers'.symm
  subst hsame
  have hatStart : ∀ edit m, MatchOf nfkc (replacementBase nfkc content (a :: b :: rest)) edit m →
      sought nfkc (replacementBase nfkc content (a :: b :: rest)) edit.oldText = [] → AtStart m := by
    intro edit m hm hnil
    exact ⟨hm.index_eq_zero.mpr (by rw [hnil]; exact List.nil_prefix), hm.length_eq_zero.mpr hnil⟩
  have hblanks : ∀ m ∈ [first, second], AtStart m := by
    rintro m (_ | ⟨_, _ | ⟨_, ⟨⟩⟩⟩)
    · exact hatStart a first hfirst hnilA
    · exact hatStart b second hsecond hnilB
  have hblanks' : ∀ m ∈ [second', first'], AtStart m := by
    rintro m (_ | ⟨_, _ | ⟨_, ⟨⟩⟩⟩)
    · exact hatStart b second' hsecond' hnilB
    · exact hatStart a first' hfirst' hnilA
  refine ⟨hnilA, hnilB, ?_⟩
  rcases rewritten_blanks content (replacementBase nfkc content (a :: b :: rest))
      (usesFuzzyMatch nfkc content (a :: b :: rest)) (sortByIndex others') with
    ⟨message, herror⟩ | ⟨before, after, hok⟩
  · have hnone := herror [first, second] (List.cons_ne_nil _ _) hblanks
    rw [List.cons_append, List.singleton_append, hresult] at hnone
    cases hnone
  · have hone := hok [first, second] (List.cons_ne_nil _ _) hblanks
    have hother := hok [second', first'] (List.cons_ne_nil _ _) hblanks'
    rw [List.cons_append, List.singleton_append, hresult] at hone
    rw [List.cons_append, List.singleton_append, hresult', Except.ok.inj hone] at hother
    have htexts := List.append_cancel_right (Except.ok.inj hother)
    simpa [List.flatMap_cons, hfirst.newText, hsecond.newText, hfirst'.newText, hsecond'.newText] using htexts

/-! ## Only what is matched changes -/

/-- Edits change only what they match: all at once where every old text is found as it is, else in their lines,
and in any order. -/
structure ChangesOnlyMatches (nfkc : Nfkc) (content : Text) (edits : List Edit) (path : String)
    (result : AppliedEditsResult) : Prop where
  atOnce : (∀ edit ∈ edits.map Edit.normalized, (Search.indexOf edit.oldText content).isSome) →
    ReplacedAtOnce content (edits.map Edit.normalized) result.newContent
  inLines : ¬ (∀ edit ∈ edits.map Edit.normalized, (Search.indexOf edit.oldText content).isSome) →
    ReplacedInLines nfkc content (edits.map Edit.normalized) result.newContent
  anyOrder : ∀ other, other ~ edits → applyEditsToNormalizedContent nfkc content other path = .ok result

/-- **Edits that succeed change only what they match**, and do so in any order exactly where no two of them are
matched at the start, blank ones apart whose new texts can be exchanged. -/
theorem changes_only_matches_iff (h : applyEditsToNormalizedContent nfkc content edits path = .ok result) :
    ChangesOnlyMatches nfkc content edits path result ↔ (edits.map Edit.normalized).Pairwise
        (InAnyOrder nfkc (replacementBase nfkc content (edits.map Edit.normalized))) := by
  obtain ⟨unsorted, happlied⟩ := applyEdits_eq_ok.mp h
  constructor
  · intro hchanges
    rw [List.pairwise_map, List.pairwise_iff_forall_sublist]
    intro a b hsublist
    obtain ⟨rest, hrest⟩ := hsublist.exists_perm_append
    have hperm : a :: b :: rest ~ edits := hrest.symm
    obtain ⟨matched, hmatched⟩ := applyEdits_eq_ok.mp (hchanges.anyOrder (a :: b :: rest) hperm)
    obtain ⟨swapped, hswapped⟩ := applyEdits_eq_ok.mp
      (hchanges.anyOrder (b :: a :: rest) ((List.Perm.swap a b rest).trans hperm))
    rw [← replacementBase_perm nfkc content (hperm.map Edit.normalized)]
    exact inAnyOrder_of_swap hmatched hswapped
  · intro hfree
    refine ⟨fun hexact => happlied.replacedAtOnce hexact, fun hnot => ?_, fun other hperm => ?_⟩
    · apply happlied.replacedInLines
      by_contra hfuzzy
      rw [Bool.not_eq_true] at hfuzzy
      apply hnot
      intro edit hedit
      obtain ⟨found, hfound, -⟩ := exists_of_mem_unsorted happlied.matched edit hedit
      rw [replacementBase_of_exact hfuzzy] at hfound
      exact found_exactly hfuzzy hedit hfound
    · obtain ⟨matched, hmatched⟩ := happlied.anyOrder hfree (hperm.map Edit.normalized)
      exact applyEdits_eq_ok.mpr ⟨matched, hmatched⟩

theorem changes_only_matches_iff_letter :
    ChangesOnlyMatches Nfkc.identity [unit 'a', unit 'b'] [⟨[unit 'a'], [unit 'c']⟩] "letters"
      ⟨[unit 'a', unit 'b'], [unit 'c', unit 'b']⟩ ↔
      ([Edit.mk [unit 'a'] [unit 'c']].map Edit.normalized).Pairwise (InAnyOrder Nfkc.identity
        (replacementBase Nfkc.identity [unit 'a', unit 'b'] ([Edit.mk [unit 'a'] [unit 'c']].map Edit.normalized))) :=
  changes_only_matches_iff (by decide +kernel)

/-- A space and a tab are both matched before the only letter, in the order of their edits. -/
theorem blank_texts_keep_their_order :
    applyEditsToNormalizedContent Nfkc.identity [unit 'x']
      [⟨[unit ' '], [unit 'a']⟩, ⟨[unit '\t'], [unit 'b']⟩] "letters" =
        .ok ⟨[unit 'x'], [unit 'a', unit 'b', unit 'x']⟩ ∧
    ¬ ChangesOnlyMatches Nfkc.identity [unit 'x'] [⟨[unit ' '], [unit 'a']⟩, ⟨[unit '\t'], [unit 'b']⟩] "letters"
      ⟨[unit 'x'], [unit 'a', unit 'b', unit 'x']⟩ := by
  refine ⟨by decide +kernel, fun h => ?_⟩
  have hswapped := h.anyOrder [⟨[unit '\t'], [unit 'b']⟩, ⟨[unit ' '], [unit 'a']⟩] (List.Perm.swap _ _ _)
  have hother : applyEditsToNormalizedContent Nfkc.identity [unit 'x']
      [⟨[unit '\t'], [unit 'b']⟩, ⟨[unit ' '], [unit 'a']⟩] "letters" =
        .ok ⟨[unit 'x'], [unit 'b', unit 'a', unit 'x']⟩ := by decide +kernel
  rw [hother] at hswapped
  exact absurd (Except.ok.inj hswapped) (by decide)

end Mcpi.Tools.EditDiff
