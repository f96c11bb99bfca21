import Mathlib.Algebra.Ring.Nat
import Mathlib.Data.Int.Order.Basic
import Mathlib.Data.List.Range
import Mathlib.Data.Nat.Find

/-!
# Cutting a sequence by a budget

Positions from `start` to before `stop` weigh tokens, and some of them are legal places for a cut.
The cut that keeps about a budget is the earliest legal place at or behind the newest counted
position from which the rest reaches the budget.
-/

namespace CutPoints

/-- The tokens from a position on. -/
def suffixTokens (tokens : ℕ → ℕ) (stop i : ℕ) : ℕ := ((List.range' i (stop - i)).map tokens).sum

theorem suffixTokens_of_lt {tokens : ℕ → ℕ} {stop i : ℕ} (h : i < stop) :
    suffixTokens tokens stop i = tokens i + suffixTokens tokens stop (i + 1) := by
  have hlength : stop - i = (stop - (i + 1)) + 1 := by omega
  rw [suffixTokens, hlength, List.range'_succ, List.map_cons, List.sum_cons, suffixTokens]

theorem suffixTokens_self (tokens : ℕ → ℕ) (stop : ℕ) : suffixTokens tokens stop stop = 0 := by
  rw [suffixTokens, Nat.sub_self]
  rfl

/-- Positions, what they weigh, which of them count for the budget and where one may cut. -/
structure Range where
  start : ℕ
  stop : ℕ
  tokens : ℕ → ℕ
  counts : ℕ → Bool
  legal : ℕ → Bool
  keep : Int

variable (r : Range)

/-- A legal place within the bounds -/
structure Legal (c : ℕ) : Prop where
  start_le : r.start ≤ c
  lt_stop : c < r.stop
  legal : r.legal c = true

/-- The rest from a counted position reaches the budget. -/
structure Reaches (p : ℕ) : Prop where
  start_le : r.start ≤ p
  lt_stop : p < r.stop
  counts : r.counts p = true
  reaches : r.keep ≤ suffixTokens r.tokens r.stop p

/-- The newest position from which the rest reaches the budget -/
structure NewestReaching (p : ℕ) : Prop extends Reaches r p where
  newest : ∀ j, Reaches r j → j ≤ p

/-- The cut: the nearest legal place at or behind that position, and without one the first. -/
structure Chosen (c : ℕ) : Prop extends Legal r c where
  nearest : ∀ p, NewestReaching r p → (∃ c', Legal r c' ∧ p ≤ c') → p ≤ c ∧ ∀ c', Legal r c' → p ≤ c' → c ≤ c'
  first : (∀ p, NewestReaching r p → ∀ c', Legal r c' → c' < p) → ∀ c', Legal r c' → c ≤ c'

variable {r}

theorem NewestReaching.unique {p p' : ℕ} (h : NewestReaching r p) (h' : NewestReaching r p') : p = p' :=
  le_antisymm (h'.newest p h.toReaches) (h.newest p' h'.toReaches)

theorem Chosen.unique {c c' : ℕ} (h : Chosen r c) (h' : Chosen r c') : c = c' := by
  by_cases hfollows : ∃ p, NewestReaching r p ∧ ∃ c', Legal r c' ∧ p ≤ c'
  · obtain ⟨p, hp, hlegal⟩ := hfollows
    obtain ⟨hle, hnearest⟩ := h.nearest p hp hlegal
    obtain ⟨hle', hnearest'⟩ := h'.nearest p hp hlegal
    exact le_antisymm (hnearest c' h'.toLegal hle') (hnearest' c h.toLegal hle)
  · have hnone : ∀ p, NewestReaching r p → ∀ c', Legal r c' → c' < p := by
      intro p hp c' hc'
      by_contra hnot
      exact hfollows ⟨p, hp, c', hc', not_lt.mp hnot⟩
    exact le_antisymm (h.first hnone c' h'.toLegal) (h'.first hnone c h.toLegal)

/-- The first of ascending places at or behind a position, and the first of all without one. -/
def nearest (first : ℕ) (others : List ℕ) : Option ℕ → ℕ
  | none => first
  | some p => ((first :: others).find? (p ≤ ·)).getD first

/-- Where the cut is found: in the ascending list of the legal places, behind what a walk from the
newest position back has found. -/
theorem chosen_nearest {first : ℕ} {others : List ℕ} {reached : Option ℕ}
    (hpoints : ∀ c, c ∈ first :: others ↔ Legal r c)
    (hsorted : (first :: others).Pairwise (· < ·))
    (hnone : reached = none → ∀ p, ¬ Reaches r p)
    (hsome : ∀ p, reached = some p → NewestReaching r p) :
    Chosen r (nearest first others reached) := by
  have hfirst : ∀ c', Legal r c' → first ≤ c' := by
    intro c' hc'
    rcases List.mem_cons.mp ((hpoints c').mpr hc') with rfl | hmem
    · exact le_refl _
    · exact le_of_lt (List.rel_of_pairwise_cons hsorted hmem)
  have hlegal : Legal r first := (hpoints first).mp List.mem_cons_self
  cases reached with
  | none =>
    exact ⟨hlegal, fun p hp => absurd hp.toReaches (hnone rfl p), fun _ => hfirst⟩
  | some p =>
    have hp := hsome p rfl
    show Chosen r (((first :: others).find? (p ≤ ·)).getD first)
    cases hfind : (first :: others).find? (p ≤ ·) with
    | none =>
      rw [Option.getD_none]
      refine ⟨hlegal, ?_, fun _ => hfirst⟩
      rintro p' hp' ⟨c', hc', hle⟩
      obtain rfl := hp.unique hp'
      exact absurd (decide_eq_true hle) (List.find?_eq_none.mp hfind c' ((hpoints c').mpr hc'))
    | some c =>
      rw [Option.getD_some]
      obtain ⟨hle, before, after, hsplit, hbefore⟩ := List.find?_eq_some_iff_append.mp hfind
      have hc : Legal r c := (hpoints c).mp (List.mem_of_find?_eq_some hfind)
      refine ⟨hc, ?_, ?_⟩
      · intro p' hp' _
        obtain rfl := hp.unique hp'
        refine ⟨of_decide_eq_true hle, ?_⟩
        intro c' hc' hle'
        have hmem := (hpoints c').mpr hc'
        rw [hsplit, List.mem_append, List.mem_cons] at hmem
        rw [hsplit] at hsorted
        rcases hmem with hmem | rfl | hmem
        · have hnot := hbefore c' hmem
          simp [hle'] at hnot
        · exact le_refl _
        · have hlater := (List.pairwise_append.mp hsorted).2.1
          exact le_of_lt (List.rel_of_pairwise_cons hlater hmem)
      · intro hbehind
        exact absurd (hbehind p hp c hc) (not_lt.mpr (of_decide_eq_true hle))

/-! ## The walks -/

/-- The walk from before position `i` back, with the tokens behind it -/
def walkBack (r : Range) : ℕ → ℕ → Option ℕ
  | 0, _ => none
  | i + 1, accumulated =>
    if i < r.start then
      none
    else if r.counts i ∧ r.keep ≤ ((accumulated + r.tokens i : ℕ) : Int) then
      some i
    else
      walkBack r i (accumulated + r.tokens i)

theorem walkBack_spec {i : ℕ} (hi : i ≤ r.stop) {reached : Option ℕ}
    (hreached : walkBack r i (suffixTokens r.tokens r.stop i) = reached) :
    (reached = none → ∀ p, p < i → ¬ Reaches r p) ∧
      ∀ p, reached = some p → Reaches r p ∧ ∀ j, j < i → Reaches r j → j ≤ p := by
  induction i generalizing reached with
  | zero =>
    subst hreached
    exact ⟨fun _ p hp => absurd hp (Nat.not_lt_zero p), nofun⟩
  | succ i ih =>
    have hsum : suffixTokens r.tokens r.stop (i + 1) + r.tokens i = suffixTokens r.tokens r.stop i := by
      rw [suffixTokens_of_lt hi, Nat.add_comm]
    rw [walkBack, hsum] at hreached
    split at hreached
    next hbefore =>
      subst hreached
      refine ⟨?_, nofun⟩
      intro _ p hp hreaches
      have hle := hreaches.start_le
      omega
    next hbefore =>
      split at hreached
      next hreaches =>
        subst hreached
        refine ⟨nofun, ?_⟩
        rintro _ ⟨⟩
        refine ⟨⟨not_lt.mp hbefore, hi, hreaches.1, hreaches.2⟩, ?_⟩
        intro j hj _
        exact Nat.le_of_lt_succ hj
      next hnot =>
        obtain ⟨hnone, hsome⟩ := ih (Nat.le_of_succ_le hi) hreached
        have hi' : ¬ Reaches r i := fun hreaches => hnot ⟨hreaches.counts, hreaches.reaches⟩
        refine ⟨?_, ?_⟩
        · intro heq p hp hreaches
          rcases Nat.lt_succ_iff_lt_or_eq.mp hp with hlt | rfl
          · exact hnone heq p hlt hreaches
          · exact hi' hreaches
        · intro p heq
          obtain ⟨hreaches, hnewest⟩ := hsome p heq
          refine ⟨hreaches, ?_⟩
          intro j hj hreachesj
          rcases Nat.lt_succ_iff_lt_or_eq.mp hj with hltj | rfl
          · exact hnewest j hltj hreachesj
          · exact absurd hreachesj hi'

theorem chosen_walkBack {first : ℕ} {others : List ℕ} (hpoints : ∀ c, c ∈ first :: others ↔ Legal r c)
    (hsorted : (first :: others).Pairwise (· < ·)) :
    Chosen r (nearest first others (walkBack r r.stop 0)) := by
  have hwalk : walkBack r r.stop (suffixTokens r.tokens r.stop r.stop) = walkBack r r.stop 0 := by
    rw [suffixTokens_self]
  obtain ⟨hnone, hsome⟩ := walkBack_spec (le_refl r.stop) hwalk
  apply chosen_nearest hpoints hsorted
  · exact fun heq p hp => hnone heq p hp.lt_stop hp
  · intro p heq
    obtain ⟨hreaches, hnewest⟩ := hsome p heq
    exact ⟨hreaches, fun j hj => hnewest j hj.lt_stop hj⟩

/-- The scan that moves a position back over what it skips -/
def back (skips : ℕ → Bool) (start : ℕ) : ℕ → ℕ
  | 0 => 0
  | c + 1 => if start < c + 1 ∧ skips c then back skips start c else c + 1

section Back

variable {skips : ℕ → Bool} {start c i : ℕ}

theorem back_succ : back skips start (c + 1) = if start < c + 1 ∧ skips c then back skips start c else c + 1 := rfl

theorem back_le : back skips start c ≤ c := by
  induction c with
  | zero => exact Nat.le_refl 0
  | succ c ih =>
    rw [back_succ]
    split
    · exact Nat.le_succ_of_le ih
    · exact Nat.le_refl _

theorem le_back (hstart : start ≤ c) : start ≤ back skips start c := by
  induction c with
  | zero => exact hstart
  | succ c ih =>
    rw [back_succ]
    split
    next h => exact ih (Nat.le_of_lt_succ h.1)
    · exact hstart

/-- The scan moves over nothing else, -/
theorem skips_of_back (hle : back skips start c ≤ i) (hlt : i < c) : skips i = true := by
  induction c with
  | zero => exact absurd hlt (Nat.not_lt_zero i)
  | succ c ih =>
    rw [back_succ] at hle
    split at hle
    next h =>
      rcases Nat.lt_succ_iff_lt_or_eq.mp hlt with hlt' | rfl
      · exact ih hle hlt'
      · exact h.2
    · exact absurd (lt_of_le_of_lt hle hlt) (lt_irrefl _)

/-- and over all of it within the bounds. -/
theorem back_maximal (hstart : start < back skips start c) : skips (back skips start c - 1) = false := by
  induction c with
  | zero => exact absurd hstart (Nat.not_lt_zero start)
  | succ c ih =>
    rw [back_succ] at hstart ⊢
    split at hstart
    next h =>
      rw [if_pos h]
      exact ih hstart
    next h =>
      rw [if_neg h, Nat.add_sub_cancel]
      cases hskips : skips c with
      | false => rfl
      | true => exact absurd ⟨hstart, hskips⟩ h

end Back

/-- The newest position at or before another, within the bounds, that has a property -/
structure Newest (p : ℕ → Bool) (start i t : ℕ) : Prop where
  start_le : start ≤ t
  le : t ≤ i
  holds : p t = true
  newest : ∀ j, t < j → j ≤ i → p j = false

/-- The scan back for it -/
def newest? (p : ℕ → Bool) (start i : ℕ) : Option ℕ :=
  if i < start then none
  else if p i then some i
  else match i with
    | 0 => none
    | i + 1 => newest? p start i

section Newest

variable {p : ℕ → Bool} {start i : ℕ}

theorem Newest.unique {t t' : ℕ} (h : Newest p start i t) (h' : Newest p start i t') : t = t' := by
  rcases lt_trichotomy t t' with hlt | heq | hgt
  · have hfalse := h.newest t' hlt h'.le
    rw [h'.holds] at hfalse
    cases hfalse
  · exact heq
  · have hfalse := h'.newest t hgt h.le
    rw [h.holds] at hfalse
    cases hfalse

theorem newest?_eq_none : newest? p start i = none ↔ ∀ j, start ≤ j → j ≤ i → p j = false := by
  induction i with
  | zero =>
    rw [newest?]
    split
    next h =>
      refine ⟨fun _ j hj hle => ?_, fun _ => rfl⟩
      omega
    next h =>
      split
      next hp =>
        refine ⟨nofun, fun hall => ?_⟩
        rw [hall 0 (not_lt.mp h) (le_refl 0)] at hp
        cases hp
      next hp =>
        refine ⟨fun _ j _ hj => ?_, fun _ => rfl⟩
        obtain rfl := Nat.le_zero.mp hj
        exact Bool.eq_false_iff.mpr hp
  | succ i ih =>
    rw [newest?]
    split
    next h =>
      refine ⟨fun _ j hj hle => ?_, fun _ => rfl⟩
      omega
    next h =>
      split
      next hp =>
        refine ⟨nofun, fun hall => ?_⟩
        rw [hall (i + 1) (not_lt.mp h) (le_refl _)] at hp
        cases hp
      next hp =>
        rw [ih]
        constructor
        · intro hall j hj hle
          rcases Nat.eq_or_lt_of_le hle with rfl | hle'
          · exact Bool.eq_false_iff.mpr hp
          · exact hall j hj (Nat.le_of_lt_succ hle')
        · exact fun hall j hj hle => hall j hj (Nat.le_succ_of_le hle)

theorem newest?_eq_some {t : ℕ} (h : newest? p start i = some t) : Newest p start i t := by
  induction i with
  | zero =>
    obtain ⟨hle, h⟩ := Option.ite_none_left_eq_some.mp h
    obtain ⟨hp, ⟨⟩⟩ := Option.ite_none_right_eq_some.mp h
    exact ⟨not_lt.mp hle, le_refl _, hp, fun j hj hj' => by omega⟩
  | succ i ih =>
    obtain ⟨hle, h⟩ := Option.ite_none_left_eq_some.mp h
    split at h
    next hp =>
      cases h
      exact ⟨not_lt.mp hle, le_refl _, hp, fun j hj hj' => by omega⟩
    next hp =>
      obtain ⟨hstart, hle', hp', hnewest⟩ := ih h
      refine ⟨hstart, Nat.le_succ_of_le hle', hp', ?_⟩
      intro j hj hj'
      rcases Nat.eq_or_lt_of_le hj' with rfl | hlt
      · exact Bool.eq_false_iff.mpr hp
      · exact hnewest j hj (Nat.le_of_lt_succ hlt)

theorem Newest.newest? {t : ℕ} (h : Newest p start i t) : newest? p start i = some t := by
  cases hfound : CutPoints.newest? p start i with
  | none =>
    have hfalse := newest?_eq_none.mp hfound t h.start_le h.le
    rw [h.holds] at hfalse
    cases hfalse
  | some t' => rw [h.unique (newest?_eq_some hfound)]

end Newest

/-! ## The place of the cut -/

/-- A position is moved back over what is skipped, as far as the bounds allow. -/
structure MovesTo (skips : ℕ → Bool) (start c place : ℕ) : Prop where
  start_le : start ≤ place
  le : place ≤ c
  skipped : ∀ i, place ≤ i → i < c → skips i = true
  maximal : start < place → skips (place - 1) = false

theorem movesTo_back {skips : ℕ → Bool} {start c : ℕ} (h : start ≤ c) :
    MovesTo skips start c (back skips start c) :=
  ⟨le_back h, back_le, fun _ => skips_of_back, back_maximal⟩

theorem MovesTo.le_other {skips : ℕ → Bool} {start c place place' : ℕ} (h : MovesTo skips start c place)
    (h' : MovesTo skips start c place') : place' ≤ place := by
  by_contra hnot
  have hstart := h.start_le
  have hle := h'.le
  have hskipped := h.skipped (place' - 1) (by omega) (by omega)
  rw [h'.maximal (by omega)] at hskipped
  cases hskipped

theorem MovesTo.unique {skips : ℕ → Bool} {start c place place' : ℕ} (h : MovesTo skips start c place)
    (h' : MovesTo skips start c place') : place = place' :=
  le_antisymm (h'.le_other h) (h.le_other h')

section Cut

/-- The legal places, in order -/
def legalPlaces (r : Range) : List ℕ := (List.range' r.start (r.stop - r.start)).filter r.legal

theorem mem_legalPlaces_iff {c : ℕ} : c ∈ legalPlaces r ↔ Legal r c := by
  rw [legalPlaces, List.mem_filter, List.mem_range'_1]
  constructor
  · rintro ⟨⟨hle, hlt⟩, hlegal⟩
    exact ⟨hle, by omega, hlegal⟩
  · rintro ⟨hle, hlt, hlegal⟩
    exact ⟨⟨hle, by omega⟩, hlegal⟩

theorem chosen_of_legalPlaces {first : ℕ} {others : List ℕ} (hplaces : legalPlaces r = first :: others) :
    Chosen r (nearest first others (walkBack r r.stop 0)) := by
  apply chosen_walkBack
  · intro c
    rw [← hplaces]
    exact mem_legalPlaces_iff
  · rw [← hplaces]
    exact (List.pairwise_lt_range' 1).filter _

/-- What is made of the place that the cut moves to; without a legal place everything is kept. -/
def cut {ρ : Type*} (r : Range) (skips : ℕ → Bool) (keepAll : ρ) (resultAt : ℕ → ρ) : ρ :=
  match legalPlaces r with
  | [] => keepAll
  | first :: others => resultAt (back skips r.start (nearest first others (walkBack r r.stop 0)))

variable {ρ : Type*} {skips : ℕ → Bool} {keepAll : ρ} {resultAt : ℕ → ρ} {c place : ℕ}

/-- There is a cut where a place is legal. -/
theorem exists_chosen (hlegal : ∃ c, Legal r c) (skips : ℕ → Bool) :
    ∃ c place, Chosen r c ∧ MovesTo skips r.start c place := by
  obtain ⟨c, hc⟩ := hlegal
  cases hplaces : legalPlaces r with
  | nil =>
    have hmem := mem_legalPlaces_iff.mpr hc
    rw [hplaces] at hmem
    cases hmem
  | cons first others =>
    have hchosen := chosen_of_legalPlaces hplaces
    exact ⟨_, _, hchosen, movesTo_back hchosen.start_le⟩

/-- **The cut is where the place that is chosen moves to.** -/
theorem cut_of_chosen (hchosen : Chosen r c) (hplace : MovesTo skips r.start c place) :
    cut r skips keepAll resultAt = resultAt place := by
  rw [cut]
  cases hplaces : legalPlaces r with
  | nil =>
    have hmem := mem_legalPlaces_iff.mpr hchosen.toLegal
    rw [hplaces] at hmem
    cases hmem
  | cons first others =>
    have hchosen' := chosen_of_legalPlaces hplaces
    obtain rfl := hchosen.unique hchosen'
    rw [hplace.unique (movesTo_back hchosen.start_le)]

theorem cut_of_none (hnone : ∀ c, ¬ Legal r c) : cut r skips keepAll resultAt = keepAll := by
  rw [cut]
  cases hplaces : legalPlaces r with
  | nil => rfl
  | cons first others => exact absurd (mem_legalPlaces_iff.mp (hplaces ▸ List.mem_cons_self)) (hnone first)

end Cut

/-- A cut keeps about the budget. `callOf k i` says that what is at `i` answers what is at `k`. -/
structure CutsNearest (r : Range) (skips : ℕ → Bool) (callOf : ℕ → ℕ → Prop) (place c : ℕ) : Prop where
  legal : Legal r c
  /-- It is the earliest legal place behind which the budget is reached, if there is one, -/
  nearest : ∀ p, NewestReaching r p → (∃ c', Legal r c' ∧ p ≤ c') → p ≤ c ∧ ∀ c', Legal r c' → p ≤ c' → c ≤ c'
  /-- and the first of all if everything together does not reach it. -/
  first : (∀ p, ¬ Reaches r p) → ∀ c', Legal r c' → c ≤ c'
  le : place ≤ c
  skipped : ∀ j, place ≤ j → j < c → skips j = true
  /-- What is older than where the budget is reached is cut away, unless it is skipped, -/
  cutAway : ∀ p, NewestReaching r p → (∃ c', Legal r c' ∧ p ≤ c') → ∀ j, j < p → skips j = false → j < place
  /-- and no answer is kept without its call. -/
  calls : ∀ k i, callOf k i → place ≤ i → place ≤ k

theorem cutsNearest {skips : ℕ → Bool} {callOf : ℕ → ℕ → Prop} {place c : ℕ} (h : Chosen r c) (hle : place ≤ c)
    (hskipped : ∀ j, place ≤ j → j < c → skips j = true)
    (hcalls : ∀ k i, callOf k i → skips i = false ∧ ∀ j, k < j → j ≤ i → r.legal j = false) :
    CutsNearest r skips callOf place c := by
  refine ⟨h.toLegal, h.nearest, ?_, hle, hskipped, ?_, ?_⟩
  · exact fun hnone => h.first fun p hp => absurd hp.toReaches (hnone p)
  · intro p hp hfollows j hj hkept
    by_contra hnot
    have hlt : j < c := lt_of_lt_of_le hj (h.nearest p hp hfollows).1
    rw [hskipped j (not_lt.mp hnot) hlt] at hkept
    cases hkept
  · intro k i hcall hkept
    obtain ⟨hresult, hbetween⟩ := hcalls k i hcall
    by_contra hnot
    have hk : k < c := lt_of_lt_of_le (not_le.mp hnot) hle
    -- the cut is no answer, and what it has moved over is none
    rcases Nat.lt_or_ge i c with hlt | hge
    · rw [hskipped i hkept hlt] at hresult
      cases hresult
    · have hlegal := h.legal
      rw [hbetween c hk hge] at hlegal
      cases hlegal

/-! ## What the cut splits

Some positions start something, and some are shown.
-/

section Splits

variable (starts shown : ℕ → Bool)

/-- The first position from another on, before `stop`, that is shown -/
structure FirstShown (stop place m : ℕ) : Prop where
  le : place ≤ m
  lt : m < stop
  holds : shown m = true
  first : ∀ j, place ≤ j → j < m → shown j = false

/-- A split is reported where what is shown first does not start anything and something starts before
it, and then with the newest start. -/
structure SplitReported (start stop place : ℕ) (split : Bool) (splitStart : Option ℕ) : Prop where
  split_iff : split = true ↔ ∃ m, FirstShown shown stop place m ∧ starts m = false ∧
    ∃ t, start ≤ t ∧ t < m ∧ starts t = true
  start_of_split : split = true → ∃ m t, FirstShown shown stop place m ∧ splitStart = some t ∧ Newest starts start m t

/-- What is shown first from a place on tells whether it splits something: nothing that is not shown
starts between, and if anything starts at or before the place, it is there and starts nothing. -/
structure Telling (start stop place : ℕ) : Prop where
  between : ∀ m, FirstShown shown stop place m → starts m = false → ∀ j, place < j → j < m → starts j = false
  inside : ∀ t, start ≤ t → t ≤ place → starts t = true → ∃ m, FirstShown shown stop place m ∧ starts m = false

variable {starts shown} {start stop place : ℕ}

theorem FirstShown.unique {m m' : ℕ} (h : FirstShown shown stop place m) (h' : FirstShown shown stop place m') :
    m = m' := by
  rcases lt_trichotomy m m' with hlt | heq | hgt
  · have hshown := h.holds
    rw [h'.first m h.le hlt] at hshown
    cases hshown
  · exact heq
  · have hshown := h'.holds
    rw [h.first m' h'.le hgt] at hshown
    cases hshown

/-- **Splits are reported right** exactly where a place that is not taken for whole is telling. -/
theorem splitReported_iff {whole : Bool} (hle : start ≤ place) (hlt : place < stop)
    (hwhole : whole = true → starts place = true ∧ shown place = true) :
    SplitReported starts shown start stop place
        (!whole && (if whole then none else newest? starts start place).isSome)
        (if whole then none else newest? starts start place) ↔
      (whole = false → Telling starts shown start stop place) := by
  cases whole with
  -- The place is what is shown first, and it starts a turn.
  | true =>
    obtain ⟨hstarts, hshown⟩ := hwhole rfl
    have hplace : FirstShown shown stop place place := ⟨le_refl _, hlt, hshown, fun j hj hj' => by omega⟩
    refine ⟨nofun, fun _ => ⟨⟨nofun, ?_⟩, nofun⟩⟩
    rintro ⟨m, hm, hnot, -⟩
    rw [hm.unique hplace, hstarts] at hnot
    cases hnot
  | false =>
    simp only [Bool.not_false, Bool.true_and, Bool.false_eq_true, if_false, forall_const]
    cases hturn : newest? starts start place with
    -- Only a turn that starts behind the place can be split.
    | none =>
      have hnone := newest?_eq_none.mp hturn
      constructor
      · intro h
        refine ⟨fun m hm hnot j hj hjm => ?_, fun t ht htp hstarts => ?_⟩
        · cases hstarts : starts j with
          | false => rfl
          | true => cases h.split_iff.mpr ⟨m, hm, hnot, j, by omega, hjm, hstarts⟩
        · rw [hnone t ht htp] at hstarts
          cases hstarts
      · intro h
        refine ⟨⟨nofun, ?_⟩, nofun⟩
        rintro ⟨m, hm, hnot, t, ht, htm, hstarts⟩
        have hfalse : starts t = false := by
          rcases Nat.lt_or_ge place t with hbehind | hbefore
          · exact h.between m hm hnot t hbehind htm
          · exact hnone t ht hbefore
        rw [hstarts] at hfalse
        cases hfalse
    | some t =>
      have ht := newest?_eq_some hturn
      constructor
      · intro h
        obtain ⟨m, hm, hnot, -⟩ := h.split_iff.mp rfl
        obtain ⟨m', t', hm', heq, hnewest⟩ := h.start_of_split rfl
        obtain rfl := hm.unique hm'
        obtain rfl := Option.some.inj heq
        refine ⟨fun m'' hm'' _ j hj hjm => ?_, fun _ _ _ _ => ⟨m, hm, hnot⟩⟩
        obtain rfl := hm.unique hm''
        exact hnewest.newest j (by have := ht.le; omega) (le_of_lt hjm)
      · intro h
        obtain ⟨m, hm, hnot⟩ := h.inside t ht.start_le ht.le ht.holds
        have hne : t ≠ m := by
          rintro rfl
          rw [ht.holds] at hnot
          cases hnot
        have htm : t ≤ m := ht.le.trans hm.le
        refine ⟨⟨fun _ => ⟨m, hm, hnot, t, ht.start_le, lt_of_le_of_ne htm hne, ht.holds⟩, fun _ => rfl⟩, fun _ => ?_⟩
        refine ⟨m, t, hm, rfl, ht.start_le, htm, ht.holds, fun j hj hjm => ?_⟩
        rcases Nat.lt_or_ge place j with hbehind | hbefore
        · rcases Nat.eq_or_lt_of_le hjm with rfl | hlt'
          · exact hnot
          · exact h.between m hm hnot j hbehind hlt'
        · exact ht.newest j hj hbefore

theorem isSome_iff_newest {whole : Bool} :
    (!whole && (if whole then none else newest? starts start place).isSome) = true ↔ whole = false ∧
      ∃ t, Newest starts start place t ∧ (if whole then none else newest? starts start place) = some t := by
  cases whole with
  | true => exact iff_of_false Bool.false_ne_true fun h => Bool.noConfusion h.1
  | false =>
    simp only [Bool.not_false, Bool.true_and, Bool.false_eq_true, if_false, true_and, Option.isSome_iff_exists]
    exact exists_congr fun t => ⟨fun h => ⟨newest?_eq_some h, h⟩, And.right⟩

/-- Where nothing is legal, and what starts something would be, there is nothing to report. -/
theorem splitReported_of_none {r : Range} (hnone : ∀ c, ¬ Legal r c)
    (hstarts : ∀ t, starts t = true → r.legal t = true) :
    SplitReported starts shown r.start r.stop r.start false none := by
  refine ⟨⟨nofun, ?_⟩, nofun⟩
  rintro ⟨m, hm, -, t, ht, htm, hstart⟩
  exact absurd ⟨ht, lt_trans htm hm.lt, hstarts t hstart⟩ (hnone t)

/-- **A cut reports splits right** exactly where the place it moves to is taken for whole or is telling. -/
theorem splitReported_cut_iff (r : Range) {ρ : Type*} {skips whole : ℕ → Bool} {keepAll : ρ} {resultAt : ℕ → ρ}
    (placeOf : ρ → ℕ) (splitOf : ρ → Bool) (startOf : ρ → Option ℕ)
    (hall : placeOf keepAll = r.start ∧ splitOf keepAll = false ∧ startOf keepAll = none)
    (hat : ∀ p, let splitStart := if whole p then none else newest? starts r.start p
      placeOf (resultAt p) = p ∧ splitOf (resultAt p) = (!whole p && splitStart.isSome) ∧
        startOf (resultAt p) = splitStart)
    (hstarts : ∀ t, starts t = true → r.legal t = true)
    (hwhole : ∀ p, whole p = true → starts p = true ∧ shown p = true) :
    let result := cut r skips keepAll resultAt
    SplitReported starts shown r.start r.stop (placeOf result) (splitOf result) (startOf result) ↔
      ∀ c p, Chosen r c → MovesTo skips r.start c p → whole p = false → Telling starts shown r.start r.stop p := by
  intro result
  by_cases hlegal : ∃ c, Legal r c
  · obtain ⟨c, p, hchosen, hplace⟩ := exists_chosen hlegal skips
    have hresult : result = resultAt p := cut_of_chosen hchosen hplace
    obtain ⟨hplaceOf, hsplitOf, hstartOf⟩ := hat p
    rw [hresult, hplaceOf, hsplitOf, hstartOf,
      splitReported_iff hplace.start_le (lt_of_le_of_lt hplace.le hchosen.lt_stop) (hwhole p)]
    refine ⟨fun h c' p' hchosen' hplace' => ?_, fun h => h c p hchosen hplace⟩
    obtain rfl := hchosen.unique hchosen'
    rwa [← hplace.unique hplace']
  · rw [not_exists] at hlegal
    have hresult : result = keepAll := cut_of_none hlegal
    obtain ⟨hplaceOf, hsplitOf, hstartOf⟩ := hall
    rw [hresult, hplaceOf, hsplitOf, hstartOf]
    exact iff_of_true (splitReported_of_none hlegal hstarts) fun c p hchosen => absurd hchosen.toLegal (hlegal c)

end Splits

/-! ## Entries -/

section Entries

variable {ε : Type*} {entries : List ε} {p q : ε → Bool} {i : ℕ}

theorem at_mono (hpq : ∀ entry, p entry = true → q entry = true) (h : entries[i]?.any p = true) :
    entries[i]?.any q = true := by
  rw [Option.any_eq_true] at h ⊢
  obtain ⟨entry, hentry, hp⟩ := h
  exact ⟨entry, hentry, hpq entry hp⟩

/-- An answer at `i` is for a call at `k`: what is between is answers, or silent. -/
structure CallOf (entries : List ε) (calls : ε → List String) (answer? : ε → Option String) (silent : ε → Bool)
    (k i : ℕ) : Prop where
  lt : k < i
  call : ∃ id, entries[k]?.any (fun entry => (calls entry).contains id) = true ∧ entries[i]?.bind answer? = some id
  between : ∀ j, k < j → j < i → entries[j]?.any (fun entry => (answer? entry).isSome || silent entry) = true

/-- No answer is a legal place, and none is between it and its call. -/
theorem CallOf.not_legal {calls : ε → List String} {answer? : ε → Option String} {silent legal : ε → Bool} {k : ℕ}
    (h : CallOf entries calls answer? silent k i)
    (hlegal : ∀ entry, ((answer? entry).isSome || silent entry) = true → legal entry = false) :
    (∃ entry, entries[i]? = some entry ∧ (answer? entry).isSome = true) ∧
      ∀ j, k < j → j ≤ i → entries[j]?.any legal = false := by
  obtain ⟨id, -, hanswer⟩ := h.call
  obtain ⟨entry, hentry, hid⟩ := Option.bind_eq_some_iff.mp hanswer
  have hsome : (answer? entry).isSome = true := by rw [hid]; rfl
  refine ⟨⟨entry, hentry, hsome⟩, fun j hj hji => ?_⟩
  have hat : ∃ entry, entries[j]? = some entry ∧ ((answer? entry).isSome || silent entry) = true := by
    rcases Nat.eq_or_lt_of_le hji with rfl | hlt
    · exact ⟨entry, hentry, by rw [hsome]; rfl⟩
    · exact (Option.any_eq_true _ _).mp (h.between j hj hlt)
  obtain ⟨entry', hentry', hbetween⟩ := hat
  rw [hentry']
  exact hlegal entry' hbetween

end Entries

end CutPoints
