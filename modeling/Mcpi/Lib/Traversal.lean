import Mcpi.Lib.RootPath
import Mathlib.Order.WellFoundedSet

/-!
# Traversals without a visited set

When a loop that follows links ends, if it does not remember where it has been. `Link y x`
reads "`y` is one link from `x`": a loop that visits all that is linked from `x` ends if and
only if `x` is accessible, and over finitely many nodes that is to say that no node in reach
of `x` lies on a cycle.
-/

open Relation

namespace Traversal

variable {ν : Type*} {Link : ν → ν → Prop} {x y : ν}

/-! ## Cycles -/

/-- No node that is reached from `x` is reached from itself. -/
def NoCycleFrom (Link : ν → ν → Prop) (x : ν) : Prop :=
  ∀ y, ReflTransGen Link y x → ¬ TransGen Link y y

theorem not_transGen_self (h : Acc Link x) : ¬ TransGen Link x x := by
  induction (acc_transGen_iff.mpr h) with
  | intro x _ ih => exact fun hcycle => ih x hcycle ((acc_transGen_iff.mp ⟨x, by assumption⟩)) hcycle

theorem acc_of_reflTransGen (h : Acc Link x) (hy : ReflTransGen Link y x) : Acc Link y := by
  induction hy using ReflTransGen.head_induction_on with
  | refl => exact h
  | head hlink _ ih => exact ih.inv hlink

/-- Over finitely many nodes the accessible ones are those that reach no cycle. -/
theorem acc_iff_noCycleFrom (hfinite : {y | ReflTransGen Link y x}.Finite) : Acc Link x ↔ NoCycleFrom Link x := by
  constructor
  · intro h y hy
    exact not_transGen_self (acc_of_reflTransGen h hy)
  · intro h
    let Below : ν → ν → Prop := fun a b =>
      TransGen Link a b ∧ ReflTransGen Link a x ∧ ReflTransGen Link b x
    have : IsStrictOrder ν Below :=
      { irrefl := fun a ha => h a ha.2.1 ha.1
        trans := fun a b c hab hbc => ⟨hab.1.trans hbc.1, hab.2.1, hbc.2.2⟩ }
    have hbelow : {y | ReflTransGen Link y x}.WellFoundedOn Below := hfinite.wellFoundedOn
    apply (Set.WellFoundedOn.acc_iff_wellFoundedOn.out 0 1).mpr
    exact hbelow.mono' fun a ha b hb hlink => ⟨.single hlink, ha, hb⟩

end Traversal

/-! ## One parent -/

namespace RootPath

variable {α : Type*} {parent : α → Option α} {x : α}

/-- A node has a path to its root if and only if the parents from it on are accessible. -/
theorem exists_iff_acc : (∃ l, RootPath parent x l) ↔ Acc (fun p a => parent a = some p) x := by
  constructor
  · rintro ⟨l, hl⟩
    induction hl with
    | root hx => exact ⟨_, fun p hp => by rw [hx] at hp; cases hp⟩
    | step hx _ ih =>
      refine ⟨_, fun p hp => ?_⟩
      obtain rfl := Option.some.inj (hx.symm.trans hp)
      exact ih
  · intro h
    induction h with
    | intro x _ ih =>
      cases hx : parent x with
      | none => exact ⟨[x], .root hx⟩
      | some p =>
        obtain ⟨l, hl⟩ := ih p hx
        exact ⟨x :: l, .step hx hl⟩

end RootPath

/-! ## A stack -/

namespace Traversal

variable {ν σ : Type*} {Link : ν → ν → Prop}

/-- The loop over a stack, its top first: the node taken off is visited, and what the visit
returns is put on. Without enough fuel there is no result. -/
def visitAll (visit : σ → ν → List ν × σ) : Nat → List ν → σ → Option σ
  | _, [], s => some s
  | 0, _ :: _, _ => none
  | fuel + 1, x :: stack, s => visitAll visit fuel ((visit s x).1 ++ stack) (visit s x).2

section VisitAll

variable {visit : σ → ν → List ν × σ} {s t : σ} {stack rest : List ν}

/-- A state from which every visit returns the nodes that are linked. -/
structure VisitsLinked (visit : σ → ν → List ν × σ) (Link : ν → ν → Prop) (P : σ → Prop) : Prop where
  preserved : ∀ {s} x, P s → P (visit s x).2
  mem_iff : ∀ {s} x y, P s → (y ∈ (visit s x).1 ↔ Link y x)

variable {P : σ → Prop} (hvisit : VisitsLinked visit Link P)

include hvisit

theorem acc_of_visitAll {fuel : Nat} (hs : P s) (h : visitAll visit fuel stack s = some t) :
    ∀ x ∈ stack, Acc Link x := by
  induction fuel generalizing stack s with
  | zero =>
    cases stack with
    | nil => exact fun x hx => absurd hx List.not_mem_nil
    | cons x stack => cases h
  | succ fuel ih =>
    cases stack with
    | nil => exact fun x hx => absurd hx List.not_mem_nil
    | cons x stack =>
      have hacc := ih (hvisit.preserved x hs) h
      intro y hy
      rcases List.mem_cons.mp hy with rfl | hy
      · exact ⟨_, fun z hz => hacc z (List.mem_append_left _ ((hvisit.mem_iff _ z hs).mpr hz))⟩
      · exact hacc y (List.mem_append_right _ hy)

/-- The stack is worked off from every state. -/
def WorksOff (visit : σ → ν → List ν × σ) (P : σ → Prop) (stack : List ν) : Prop :=
  ∀ s, P s → ∃ fuel t, visitAll visit fuel stack s = some t

omit hvisit in
theorem worksOff_append (hrest : WorksOff visit P rest)
    (hstack : ∀ x ∈ stack, ∀ below, WorksOff visit P below → WorksOff visit P (x :: below)) :
    WorksOff visit P (stack ++ rest) := by
  induction stack with
  | nil => exact hrest
  | cons x stack ih =>
    apply hstack x List.mem_cons_self
    exact ih fun y hy => hstack y (List.mem_cons_of_mem x hy)

theorem worksOff_cons {x : ν} (hx : Acc Link x) : ∀ below, WorksOff visit P below → WorksOff visit P (x :: below) := by
  induction hx with
  | intro x _ ih =>
    intro below hbelow s hs
    -- what is below `x` stays on the stack until all that `x` leads to is worked off
    have hnext : WorksOff visit P ((visit s x).1 ++ below) := by
      apply worksOff_append hbelow
      intro y hy
      exact ih y ((hvisit.mem_iff x y hs).mp hy)
    obtain ⟨fuel, t, ht⟩ := hnext _ (hvisit.preserved x hs)
    exact ⟨fuel + 1, t, ht⟩

/-- **A stack is worked off** if and only if all that is on it is accessible. -/
theorem exists_visitAll_iff (hs : P s) :
    (∃ fuel t, visitAll visit fuel stack s = some t) ↔ ∀ x ∈ stack, Acc Link x := by
  constructor
  · rintro ⟨fuel, t, h⟩
    exact acc_of_visitAll hvisit hs h
  · intro hstack
    have hworks : WorksOff visit P (stack ++ []) := by
      apply worksOff_append
      · exact fun s _ => ⟨0, s, rfl⟩
      · exact fun x hx => worksOff_cons hvisit (hstack x hx)
    rw [List.append_nil] at hworks
    exact hworks s hs

end VisitAll

end Traversal
