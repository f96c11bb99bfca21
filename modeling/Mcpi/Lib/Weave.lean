import Mathlib.Data.List.Basic

/-!
# Replacing parts of a list

A list as parts with gaps between them. Parts that are found at their places and do not overlap are such
parts, and replacing them one after another from the end replaces all of them at once.
-/

namespace Weave

variable {α β : Type}

/-- Gaps, each with a part after it, and what comes after the last part. -/
def weave (part : β → List α) (parts : List (List α × β)) (last : List α) : List α :=
  parts.flatMap (fun gap => gap.1 ++ part gap.2) ++ last

/-- Every part is at its place, counted from `n` on. -/
def Placed (place : β → Nat) (part : β → List α) : Nat → List (List α × β) → Prop
  | _, [] => True
  | n, (gap, b) :: parts => place b = n + gap.length ∧ Placed place part (n + gap.length + (part b).length) parts

/-- The parts do not overlap, and the first of them is not before `n`. -/
def Disjoint (place : β → Nat) (part : β → List α) : Nat → List β → Prop
  | _, [] => True
  | n, b :: bs => n ≤ place b ∧ Disjoint place part (place b + (part b).length) bs

/-- One part after another is replaced, the last one first. -/
def replaceAll (place length : β → Nat) (new : β → List α) (bs : List β) (text : List α) : List α :=
  bs.foldr (fun b result => result.take (place b) ++ new b ++ result.drop (place b + length b)) text

variable {place : β → Nat} {part new : β → List α} {parts : List (List α × β)} {last gap : List α} {n : Nat} {b : β}

@[simp] theorem weave_cons (part : β → List α) (gap : List α) (b : β) (parts : List (List α × β)) (last : List α) :
    weave part ((gap, b) :: parts) last = gap ++ part b ++ weave part parts last := by
  simp [weave]

theorem Disjoint.of_pairwise {bs : List β} (h : bs.Pairwise fun a b => place a + (part a).length ≤ place b)
    (hfrom : ∀ b ∈ bs, n ≤ place b) : Disjoint place part n bs := by
  induction bs generalizing n with
  | nil => trivial
  | cons b bs ih =>
    obtain ⟨hb, hbs⟩ := List.pairwise_cons.mp h
    exact ⟨hfrom b (by simp), ih hbs hb⟩

/-- Parts that begin at their places are parts of the list. -/
theorem exists_weave {text : List α} {bs : List β} (hdisjoint : Disjoint place part n bs)
    (hbegins : ∀ b ∈ bs, part b <+: text.drop (place b - n)) (hle : ∀ b ∈ bs, place b - n ≤ text.length) :
    ∃ parts last, text = weave part parts last ∧ parts.map Prod.snd = bs ∧ Placed place part n parts := by
  induction bs generalizing n text with
  | nil => exact ⟨[], text, rfl, rfl, trivial⟩
  | cons b bs ih =>
    obtain ⟨hn, hrest⟩ := hdisjoint
    obtain ⟨after, hafter⟩ := hbegins b (by simp)
    have hlater : ∀ c ∈ bs, place b + (part b).length ≤ place c := by
      have hsorted : ∀ (cs : List β) (m : Nat), Disjoint place part m cs → ∀ c ∈ cs, m ≤ place c := by
        intro cs
        induction cs with
        | nil => exact fun _ _ _ hc => absurd hc List.not_mem_nil
        | cons first cs ih =>
          intro m h c hc
          rcases List.mem_cons.mp hc with rfl | hin
          · exact h.1
          · have := ih _ h.2 c hin
            have := h.1
            omega
      exact hsorted bs _ hrest
    have hdrop : ∀ c ∈ bs, text.drop (place c - n) = after.drop (place c - (place b + (part b).length)) := by
      intro c hc
      have hsplit : place c - n = (place b - n) + ((part b).length + (place c - (place b + (part b).length))) := by
        have := hlater c hc
        omega
      rw [hsplit, ← List.drop_drop, ← hafter, ← List.drop_drop, List.drop_left]
    have hlength := congrArg List.length hafter
    rw [List.length_append, List.length_drop] at hlength
    have hbefore := hle b (by simp)
    obtain ⟨parts, last, hweave, hmap, hplaced⟩ := ih hrest (fun c hc => hdrop c hc ▸ hbegins c (by simp [hc]))
      (fun c hc => by
        have := hle c (by simp [hc])
        have := hlater c hc
        omega)
    refine ⟨(text.take (place b - n), b) :: parts, last, ?_, by rw [List.map_cons, hmap], ?_, ?_⟩
    · rw [weave_cons, ← hweave, List.append_assoc, hafter, List.take_append_drop]
    · rw [List.length_take]
      omega
    · rw [List.length_take, Nat.min_eq_left hbefore, Nat.add_sub_cancel' hn]
      exact hplaced

/-- **Replacing from the end** replaces every part. -/
theorem replaceAll_weave (length : β → Nat) (hlength : ∀ gap ∈ parts, length gap.2 = (part gap.2).length)
    (before : List α) (hplaced : Placed place part before.length parts) :
    replaceAll place length new (parts.map Prod.snd) (before ++ weave part parts last) =
      before ++ weave new parts last := by
  induction parts generalizing before with
  | nil => rfl
  | cons first parts ih =>
    obtain ⟨gap, b⟩ := first
    obtain ⟨hplace, hrest⟩ := hplaced
    have hnext : (before ++ gap ++ part b).length = before.length + gap.length + (part b).length := by
      rw [List.length_append, List.length_append]
    rw [← hnext] at hrest
    have hrestEq := ih (fun gap hgap => hlength gap (List.mem_cons_of_mem _ hgap)) (before ++ gap ++ part b) hrest
    have hsplit : before ++ weave part ((gap, b) :: parts) last = before ++ gap ++ part b ++ weave part parts last := by
      rw [weave_cons]
      simp only [List.append_assoc]
    show List.take (place b) (replaceAll place length new (parts.map Prod.snd) _) ++ new b ++
      List.drop (place b + length b) (replaceAll place length new (parts.map Prod.snd) _) = _
    rw [hsplit, hrestEq, hlength (gap, b) (by simp), hplace, weave_cons]
    have htake : ((before ++ gap ++ part b) ++ weave new parts last).take (before.length + gap.length) =
        before ++ gap := by
      rw [List.append_assoc, ← List.length_append, List.take_left]
    have hdrop : ((before ++ gap ++ part b) ++ weave new parts last).drop
        (before.length + gap.length + (part b).length) = weave new parts last := by
      rw [← hnext, List.drop_left]
    rw [htake, hdrop]
    simp only [List.append_assoc]

/-! ## Other places and other parts -/

theorem Placed.sub {m : Nat} (h : Placed place part (n + m) parts) : Placed (fun b => place b - m) part n parts := by
  induction parts generalizing n with
  | nil => trivial
  | cons first parts ih =>
    obtain ⟨gap, b⟩ := first
    obtain ⟨hplace, hrest⟩ := h
    refine ⟨?_, ih ?_⟩
    · show place b - m = n + gap.length
      omega
    · rwa [show n + gap.length + (part b).length + m = n + m + gap.length + (part b).length by omega]

theorem weave_map {γ : Type} (part : γ → List α) (f : β → γ) (parts : List (List α × β)) (last : List α) :
    weave part (parts.map fun gap => (gap.1, f gap.2)) last = weave (fun b => part (f b)) parts last := by
  rw [weave, weave, List.flatMap_map]

theorem Placed.map {γ : Type} {place : γ → Nat} {part : γ → List α} {f : β → γ}
    (h : Placed (fun b => place (f b)) (fun b => part (f b)) n parts) :
    Placed place part n (parts.map fun gap => (gap.1, f gap.2)) := by
  induction parts generalizing n with
  | nil => trivial
  | cons first parts ih => exact ⟨h.1, ih h.2⟩

theorem weave_congr {part' : β → List α} (h : ∀ gap ∈ parts, part gap.2 = part' gap.2) :
    weave part parts last = weave part' parts last := by
  induction parts with
  | nil => rfl
  | cons first parts ih =>
    rw [weave_cons, weave_cons, h first (by simp), ih fun gap hgap => h gap (List.mem_cons_of_mem _ hgap)]

theorem Placed.congr {place' : β → Nat} {part' : β → List α} (h : Placed place part n parts)
    (hplace : ∀ gap ∈ parts, place gap.2 = place' gap.2) (hpart : ∀ gap ∈ parts, part gap.2 = part' gap.2) :
    Placed place' part' n parts := by
  induction parts generalizing n with
  | nil => trivial
  | cons first parts ih =>
    obtain ⟨gap, b⟩ := first
    obtain ⟨hat, hrest⟩ := h
    have hb := hpart (gap, b) (by simp)
    refine ⟨(hplace (gap, b) (by simp)).symm.trans hat, ?_⟩
    rw [← hb]
    exact ih hrest (fun gap hgap => hplace gap (List.mem_cons_of_mem _ hgap))
      fun gap hgap => hpart gap (List.mem_cons_of_mem _ hgap)

end Weave
