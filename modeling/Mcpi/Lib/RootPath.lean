import Mathlib.Data.List.Pairwise
import Mathlib.Data.List.Nodup

/-!
# Root paths of a parent-pointer forest

A forest given by a partial function `parent`: the path of a node lists the node, its
parent, its parent's parent, down to a node with no parent. `RootPath parent x l` is that
path as a relation, so that nothing has to be known about termination to speak of it; a
node has at most one, and it has one as soon as some rank strictly falls along `parent`.
-/

/-- Visiting a node that was not visited leaves fewer nodes unvisited. -/
theorem length_unvisited_lt {α κ : Type*} [DecidableEq κ] (key : α → κ) {nodes : List α}
    {visited : List κ} {x : α} (hx : x ∈ nodes) (hv : key x ∉ visited) :
    (nodes.filter fun a => key a ∉ key x :: visited).length < (nodes.filter fun a => key a ∉ visited).length := by
  have hsplit : (nodes.filter fun a => key a ∉ key x :: visited) =
      (nodes.filter fun a => key a ∉ visited).filter fun a => key a ≠ key x := by
    simp [List.filter_filter]
  rw [hsplit, List.length_filter_lt_length_iff_exists]
  exact ⟨x, List.mem_filter.mpr ⟨hx, by simpa using hv⟩, by simp⟩

/-- `l` is the path from `x` to its root. -/
inductive RootPath {α : Type*} (parent : α → Option α) : α → List α → Prop
  | root {x : α} : parent x = none → RootPath parent x [x]
  | step {x p : α} {l : List α} : parent x = some p → RootPath parent p l →
      RootPath parent x (x :: l)

namespace RootPath

variable {α : Type*} {parent : α → Option α} {x y : α} {l l' : List α}

theorem ne_nil (h : RootPath parent x l) : l ≠ [] := by
  cases h <;> simp

theorem head?_eq (h : RootPath parent x l) : l.head? = some x := by
  cases h <;> rfl

theorem mem_self (h : RootPath parent x l) : x ∈ l :=
  List.mem_of_mem_head? (by rw [h.head?_eq]; rfl)

theorem getLast_root (h : RootPath parent x l) : ∃ r, l.getLast? = some r ∧ parent r = none := by
  induction h with
  | root hx => exact ⟨_, rfl, hx⟩
  | @step x p l _ hl ih =>
    obtain ⟨r, hr, hroot⟩ := ih
    cases l with
    | nil => exact absurd rfl hl.ne_nil
    | cons a as => exact ⟨r, by rw [List.getLast?_cons_cons]; exact hr, hroot⟩

theorem unique (h : RootPath parent x l) (h' : RootPath parent x l') : l = l' := by
  induction h generalizing l' with
  | root hx =>
    cases h' with
    | root _ => rfl
    | step hp _ => rw [hx] at hp; cases hp
  | step hp _ ih =>
    cases h' with
    | root hx => rw [hx] at hp; cases hp
    | step hp' hl' =>
      rw [hp] at hp'
      cases hp'
      rw [ih hl']

/-- Every node of a path has the rest of the path as its own. -/
theorem of_mem (h : RootPath parent x l) (hy : y ∈ l) : ∃ pre post, l = pre ++ post ∧ RootPath parent y post := by
  induction h with
  | root hx =>
    rw [List.mem_singleton] at hy
    subst hy
    exact ⟨[], [y], rfl, .root hx⟩
  | @step x p l hp hl ih =>
    rcases List.mem_cons.mp hy with rfl | hy
    · exact ⟨[], y :: l, rfl, .step hp hl⟩
    · obtain ⟨pre, post, rfl, hpost⟩ := ih hy
      exact ⟨x :: pre, post, rfl, hpost⟩

/-- The rest of a path from one of its nodes on is the path of that node. -/
theorem of_append {pre post : List α} (h : RootPath parent x (pre ++ y :: post)) : RootPath parent y (y :: post) := by
  induction pre generalizing x with
  | nil =>
    obtain rfl := Option.some.inj h.head?_eq
    exact h
  | cons a pre ih =>
    rw [List.cons_append] at h
    generalize hrest : pre ++ y :: post = rest at h
    cases h with
    | root _ => exact absurd hrest (by simp)
    | step _ hl => exact ih (hrest ▸ hl)

theorem nodup (h : RootPath parent x l) : l.Nodup := by
  induction h with
  | root _ => exact List.nodup_singleton _
  | @step x p l hp hl ih =>
    refine List.nodup_cons.mpr ⟨fun hmem => ?_, ih⟩
    -- a second visit would have the whole path as a part of itself
    obtain ⟨pre, post, hsplit, hpost⟩ := hl.of_mem hmem
    have hlength := congrArg List.length (hpost.unique (.step hp hl))
    rw [hsplit] at hlength
    simp at hlength
    omega

theorem exists_of_rank (rank : α → ℕ) (P : α → Prop)
    (hrank : ∀ a p, P a → parent a = some p → P p ∧ rank p < rank a) (x : α) (hx : P x) :
    ∃ l, RootPath parent x l := by
  induction hn : rank x using Nat.strongRecOn generalizing x with
  | ind n ih =>
    cases hp : parent x with
    | none => exact ⟨[x], .root hp⟩
    | some p =>
      obtain ⟨hP, hlt⟩ := hrank x p hx hp
      obtain ⟨l, hl⟩ := ih (rank p) (hn ▸ hlt) p hP rfl
      exact ⟨x :: l, .step hp hl⟩

theorem forall_mem (P : α → Prop) (hparent : ∀ a p, P a → parent a = some p → P p)
    (h : RootPath parent x l) (hx : P x) : ∀ a ∈ l, P a := by
  induction h with
  | root _ => simpa using hx
  | step hp _ ih =>
    intro a ha
    rcases List.mem_cons.mp ha with rfl | ha
    · exact hx
    · exact ih (hparent _ _ hx hp) a ha

/-- A rank that falls along `parent` falls along a path. -/
theorem pairwise_rank (rank : α → ℕ) (P : α → Prop) (hrank : ∀ a p, P a → parent a = some p → P p ∧ rank p < rank a)
    (h : RootPath parent x l) (hx : P x) : l.Pairwise fun a b => rank b < rank a := by
  induction h with
  | root _ => exact List.pairwise_singleton _ _
  | @step x p l hp hl ih =>
    obtain ⟨hP, hlt⟩ := hrank x p hx hp
    refine List.pairwise_cons.mpr ⟨fun a ha => ?_, ih hP⟩
    -- the parent heads `l`, so nothing in `l` ranks above it
    cases l with
    | nil => simp at ha
    | cons b bs =>
      have hb : p = b := by simpa using hl.head?_eq.symm
      subst hb
      rcases List.mem_cons.mp ha with rfl | ha
      · exact hlt
      · exact Nat.lt_trans (List.rel_of_pairwise_cons (ih hP) ha) hlt

/-- A path under a forest that agrees on its nodes. -/
theorem congr {parent' : α → Option α} (h : RootPath parent x l)
    (hl : ∀ a ∈ l, parent' a = parent a) : RootPath parent' x l := by
  induction h with
  | root hx => exact .root (by rw [hl _ (by simp), hx])
  | step hp _ ih =>
    exact .step (by rw [hl _ (by simp), hp]) (ih fun a ha => hl a (by simp [ha]))

end RootPath
