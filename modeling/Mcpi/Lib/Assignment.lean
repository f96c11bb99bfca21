import Mathlib.Data.List.Nodup
import Mathlib.Data.List.Perm.Subperm

/-!
# Handing out supplies

Each of some jobs needs an item of its kind, and no two jobs the same one. Where no item is of two
kinds this can be done if and only if there are as many items as jobs of each kind.
-/

namespace Assignment

variable {ι κ β : Type*} {jobs : List ι} {kind : ι → κ} {supply : κ → List β}

/-- Every job has an item of its kind, and no other job has it. -/
structure Serves (jobs : List ι) (kind : ι → κ) (supply : κ → List β) (assign : ι → β) : Prop where
  mem : ∀ i ∈ jobs, assign i ∈ supply (kind i)
  injective : ∀ i ∈ jobs, ∀ j ∈ jobs, assign i = assign j → i = j

theorem Serves.length_le [DecidableEq κ] {assign : ι → β} (h : Serves jobs kind supply assign)
    (hjobs : jobs.Nodup) (k : κ) :
    (jobs.filter fun i => kind i = k).length ≤ (supply k).length := by
  have hnodup : ((jobs.filter fun i => kind i = k).map assign).Nodup := by
    apply List.Nodup.map_on ?_ (hjobs.filter _)
    intro i hi j hj
    exact h.injective i (List.mem_of_mem_filter hi) j (List.mem_of_mem_filter hj)
  have hsub : (jobs.filter fun i => kind i = k).map assign ⊆ supply k := by
    intro b hb
    obtain ⟨i, hi, rfl⟩ := List.mem_map.mp hb
    obtain ⟨hi, hk⟩ := List.mem_filter.mp hi
    rw [← of_decide_eq_true hk]
    exact h.mem i hi
  rw [← List.length_map assign]
  exact (hnodup.subperm hsub).length_le

variable [DecidableEq ι] [DecidableEq κ]

/-- The `n`-th job of a kind gets the `n`-th item of that kind. -/
def inTurn (jobs : List ι) (kind : ι → κ) (supply : κ → List β) (default : β) (i : ι) : β :=
  (supply (kind i))[(jobs.filter fun j => kind j = kind i).idxOf i]?.getD default

theorem inTurn_serves (hsupply : ∀ k, (supply k).Nodup) (hapart : ∀ k k' b, b ∈ supply k → b ∈ supply k' → k = k')
    (hlength : ∀ k, (jobs.filter fun i => kind i = k).length ≤ (supply k).length) (default : β) :
    Serves jobs kind supply (inTurn jobs kind supply default) := by
  have hindex : ∀ i ∈ jobs, (jobs.filter fun j => kind j = kind i).idxOf i < (supply (kind i)).length := by
    intro i hi
    apply Nat.lt_of_lt_of_le (List.idxOf_lt_length_of_mem ?_) (hlength (kind i))
    exact List.mem_filter.mpr ⟨hi, decide_eq_true rfl⟩
  have hget : ∀ i ∈ jobs, (supply (kind i))[(jobs.filter fun j => kind j = kind i).idxOf i]? =
      some (inTurn jobs kind supply default i) := by
    intro i hi
    rw [inTurn, List.getElem?_eq_getElem (hindex i hi), Option.getD_some]
  have hmem : ∀ i ∈ jobs, inTurn jobs kind supply default i ∈ supply (kind i) :=
    fun i hi => List.mem_of_getElem? (hget i hi)
  refine ⟨hmem, ?_⟩
  intro i hi j hj heq
  have hkind : kind i = kind j := hapart _ _ _ (hmem i hi) (heq ▸ hmem j hj)
  have hindexed := (hget i hi).trans ((congrArg some heq).trans (hget j hj).symm)
  have hlt := hindex i hi
  rw [hkind] at hindexed hlt
  have hidx := (List.getElem?_inj hlt (hsupply (kind j))).mp hindexed
  exact (List.idxOf_inj (List.mem_filter.mpr ⟨hi, decide_eq_true hkind⟩)).mp hidx

end Assignment
