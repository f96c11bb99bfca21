import Mathlib.Data.Rat.Floor
import Mathlib.Data.List.Forall2

/-!
# Stack sizes

`allocateStackSizes` of the stack layout: every entry gets its basis within its limits, and what is
left of the space, or missing, is distributed in passes by weight. Numbers that an entry can be
given are rationals or not finite; `Stack.addChild` makes natural numbers of them. The source
computes with doubles: its numbers are the ones here as long as they are safe integers, and `Safe`
is the bound on the inputs that keeps them so.
-/

namespace Mcpi.Tui.Stack

/-! ## Entries -/

inductive Number
  | finite (value : ℚ)
  | notFinite
  deriving DecidableEq

def normalizeSize (value : Option Number) (fallback : Nat) : Nat :=
  match value with
  | some (.finite value) => value.floor.toNat
  | _ => fallback

def MAX_SAFE_INTEGER : Nat := 2 ^ 53 - 1

inductive Basis
  | auto
  | size (value : Nat)
  deriving DecidableEq

structure StackEntryOptions where
  basis : Option Basis
  grow : Option Number
  shrink : Option Number
  minSize : Option Number
  maxSize : Option Number
  deriving DecidableEq

structure StackLayoutEntry where
  basis : Option Basis
  grow : Option Nat
  shrink : Option Nat
  minSize : Option Nat
  maxSize : Option Nat
  deriving DecidableEq

/-- The entry that `addChild` adds for its options. -/
def addChild (options : StackEntryOptions) : StackLayoutEntry :=
  { basis := options.basis
    grow := options.grow.map fun grow => normalizeSize (some grow) 0
    shrink := options.shrink.map fun shrink => normalizeSize (some shrink) 1
    minSize := options.minSize.map fun minSize => normalizeSize (some minSize) 0
    maxSize := options.maxSize.map fun maxSize => normalizeSize (some maxSize) MAX_SAFE_INTEGER }

namespace StackLayoutEntry

variable (entry : StackLayoutEntry)

/-- `entry.minSize ?? 0`, and likewise. -/
def minimum : Nat := entry.minSize.getD 0

def maximum : Nat := entry.maxSize.getD MAX_SAFE_INTEGER

def growth : Nat := entry.grow.getD 0

def shrinkage : Nat := entry.shrink.getD 1

end StackLayoutEntry

/-- The largest size of an entry, which is not below its smallest. -/
def StackLayoutEntry.upper (entry : StackLayoutEntry) : Nat := max entry.minimum entry.maximum

def clampSize (size : Nat) (entry : StackLayoutEntry) : Nat :=
  max entry.minimum (min entry.upper size)

/-! ## Distribution -/

inductive Mode
  | grow
  | shrink
  deriving DecidableEq

namespace Mode

def isCandidate : Mode → StackLayoutEntry → Nat → Bool
  | grow, entry, size => 0 < entry.growth && size < entry.maximum
  | shrink, entry, size => 0 < entry.shrinkage && entry.minimum < size

def weight : Mode → StackLayoutEntry → Nat → Nat
  | grow, entry, _ => entry.growth
  | shrink, entry, size => entry.shrinkage * max 1 size

def capacity : Mode → StackLayoutEntry → Nat → Nat
  | grow, entry, size => entry.maximum - size
  | shrink, entry, size => size - entry.minimum

def change : Mode → Nat → Nat → Nat
  | grow, size, delta => size + delta
  | shrink, size, delta => size - delta

end Mode

/-- Entries and their sizes. -/
abbrev Sizes := List (StackLayoutEntry × Nat)

def candidates (mode : Mode) (sizes : Sizes) : Sizes :=
  sizes.filter fun (entry, size) => mode.isCandidate entry size

def totalWeight (mode : Mode) (sizes : Sizes) : Nat :=
  ((candidates mode sizes).map fun (entry, size) => mode.weight entry size).sum

def delta (mode : Mode) (totalWeight remaining : Nat) (entry : StackLayoutEntry) (size : Nat) :
    Nat :=
  let proposed := max 1 (remaining * mode.weight entry size / totalWeight)
  min remaining (min proposed (mode.capacity entry size))

/-- The loop over the candidates: the sizes and what remains. An entry is a candidate by its size
before the pass, which nothing but its own turn changes. -/
def pass (mode : Mode) (totalWeight : Nat) : (remaining : Nat) → Sizes → Sizes × Nat
  | remaining, [] => ([], remaining)
  | remaining, (entry, size) :: sizes =>
    if remaining = 0 then ((entry, size) :: sizes, 0)
    else if mode.isCandidate entry size then
      let delta := delta mode totalWeight remaining entry size
      let (rest, left) := pass mode totalWeight (remaining - delta) sizes
      ((entry, mode.change size delta) :: rest, left)
    else
      let (rest, left) := pass mode totalWeight remaining sizes
      ((entry, size) :: rest, left)

variable {mode : Mode} {weight remaining : Nat} {sizes : Sizes}

theorem pass_le (mode : Mode) (weight remaining : Nat) (sizes : Sizes) :
    (pass mode weight remaining sizes).2 ≤ remaining := by
  induction sizes generalizing remaining with
  | nil => exact Nat.le_refl _
  | cons head sizes ih =>
    rw [pass]
    split
    · exact Nat.zero_le _
    · split
      · exact (ih _).trans (Nat.sub_le _ _)
      · exact ih _

theorem forall₂_trans {α : Type} {R : α → α → Prop} (htrans : ∀ a b c, R a b → R b c → R a c)
    {l l' l'' : List α} (h : List.Forall₂ R l l') (h' : List.Forall₂ R l' l'') :
    List.Forall₂ R l l'' := by
  induction h generalizing l'' with
  | nil => exact h'
  | cons hhead htail ih =>
    cases h' with
    | cons hhead' htail' => exact .cons (htrans _ _ _ hhead hhead') (ih htail')

theorem exists_of_forall₂ {α β : Type} {R : α → β → Prop} {l : List α} {l' : List β}
    (h : List.Forall₂ R l l') {i : Nat} {a : α} (hat : l[i]? = some a) :
    ∃ b, l'[i]? = some b ∧ R a b := by
  induction h generalizing i with
  | nil => cases hat
  | cons hhead htail ih =>
    cases i with
    | zero =>
      obtain rfl := Option.some.inj hat
      exact ⟨_, rfl, hhead⟩
    | succ i => exact ih hat

/-- `distribute`: passes until nothing remains or nothing can be distributed. -/
def distribute (mode : Mode) (sizes : Sizes) (remaining : Nat) : Sizes :=
  if remaining = 0 then sizes
  else if candidates mode sizes = [] then sizes
  else if (pass mode (totalWeight mode sizes) remaining sizes).2 = remaining then
    (pass mode (totalWeight mode sizes) remaining sizes).1
  else
    distribute mode (pass mode (totalWeight mode sizes) remaining sizes).1
      (pass mode (totalWeight mode sizes) remaining sizes).2
termination_by remaining
decreasing_by
  rename_i hless
  exact Nat.lt_of_le_of_ne (pass_le _ _ _ _) hless

/-- The sizes by basis. -/
def clampedSizes (entries : List StackLayoutEntry) (intrinsicSizes : List Nat) : List Nat :=
  entries.mapIdx fun index entry =>
    clampSize (match entry.basis with
      | some (.size basis) => basis
      | _ => intrinsicSizes[index]?.getD 0) entry

def contentSize (entries : List StackLayoutEntry) (availableSize : ℚ) (gap : Nat) : Nat :=
  (availableSize.floor - ((entries.length - 1) * gap : Nat)).toNat

def allocateStackSizes (entries : List StackLayoutEntry) (intrinsicSizes : List Nat)
    (availableSize : Option ℚ) (gap : Nat) : List Nat :=
  let sizes := clampedSizes entries intrinsicSizes
  match availableSize with
  | none => sizes
  | some availableSize =>
    let content := contentSize entries availableSize gap
    let total := sizes.sum
    if total < content then (distribute .grow (entries.zip sizes) (content - total)).map Prod.snd
    else if total > content then
      (distribute .shrink (entries.zip sizes) (total - content)).map Prod.snd
    else sizes

/-! ## What a pass does -/

/-- The entries that a mode changes have a factor for it. -/
def Mode.factor : Mode → StackLayoutEntry → Nat
  | .grow, entry => entry.growth
  | .shrink, entry => entry.shrinkage

/-- A size is within the limits of its entry. -/
def Within (entry : StackLayoutEntry) (size : Nat) : Prop := entry.minimum ≤ size ∧ size ≤ entry.upper

/-- An entry stays within its limits, and without a factor as it is. -/
structure Adjusted (mode : Mode) (before after : StackLayoutEntry × Nat) : Prop where
  entry : after.1 = before.1
  fixed : mode.factor before.1 = 0 → after.2 = before.2
  within : Within before.1 before.2 → Within before.1 after.2

theorem Adjusted.refl (mode : Mode) (p : StackLayoutEntry × Nat) : Adjusted mode p p :=
  ⟨rfl, fun _ => rfl, fun h => h⟩

theorem Adjusted.trans {p q r : StackLayoutEntry × Nat} (h : Adjusted mode p q)
    (h' : Adjusted mode q r) : Adjusted mode p r := by
  obtain ⟨hentry, hfixed, hwithin⟩ := h
  obtain ⟨hentry', hfixed', hwithin'⟩ := h'
  rw [hentry] at hentry' hfixed' hwithin'
  exact ⟨hentry', fun hzero => (hfixed' hzero).trans (hfixed hzero), fun hin => hwithin' (hwithin hin)⟩

theorem delta_le_capacity (mode : Mode) (weight remaining : Nat) (entry : StackLayoutEntry)
    (size : Nat) : delta mode weight remaining entry size ≤ mode.capacity entry size :=
  (Nat.min_le_right _ _).trans (Nat.min_le_right _ _)

theorem delta_le (mode : Mode) (weight remaining : Nat) (entry : StackLayoutEntry) (size : Nat) :
    delta mode weight remaining entry size ≤ remaining := Nat.min_le_left _ _

theorem delta_pos {entry : StackLayoutEntry} {size : Nat} (hremaining : remaining ≠ 0)
    (hcandidate : mode.isCandidate entry size = true) :
    0 < delta mode weight remaining entry size := by
  have hcapacity : 0 < mode.capacity entry size := by
    cases mode with
    | grow =>
      rw [Mode.isCandidate, Bool.and_eq_true, decide_eq_true_eq, decide_eq_true_eq] at hcandidate
      exact Nat.sub_pos_of_lt hcandidate.2
    | shrink =>
      rw [Mode.isCandidate, Bool.and_eq_true, decide_eq_true_eq, decide_eq_true_eq] at hcandidate
      exact Nat.sub_pos_of_lt hcandidate.2
  exact Nat.lt_min.mpr ⟨Nat.pos_of_ne_zero hremaining,
    Nat.lt_min.mpr ⟨Nat.lt_of_lt_of_le Nat.zero_lt_one (Nat.le_max_left _ _), hcapacity⟩⟩

/-- A candidate is adjusted by no more than its capacity. -/
theorem adjusted_change {entry : StackLayoutEntry} {size d : Nat}
    (hcandidate : mode.isCandidate entry size = true) (hd : d ≤ mode.capacity entry size) :
    Adjusted mode (entry, size) (entry, mode.change size d) := by
  cases mode with
  | grow =>
    rw [Mode.isCandidate, Bool.and_eq_true, decide_eq_true_eq, decide_eq_true_eq] at hcandidate
    refine ⟨rfl, fun hzero => absurd hzero (Nat.ne_of_gt hcandidate.1), fun hin => ?_⟩
    have hcapacity : d ≤ entry.maximum - size := hd
    refine ⟨hin.1.trans (Nat.le_add_right _ _), ?_⟩
    show size + d ≤ entry.upper
    have hupper : entry.maximum ≤ entry.upper := Nat.le_max_right _ _
    omega
  | shrink =>
    rw [Mode.isCandidate, Bool.and_eq_true, decide_eq_true_eq, decide_eq_true_eq] at hcandidate
    refine ⟨rfl, fun hzero => absurd hzero (Nat.ne_of_gt hcandidate.1), fun hin => ?_⟩
    have hcapacity : d ≤ size - entry.minimum := hd
    refine ⟨?_, (Nat.sub_le _ _).trans hin.2⟩
    show entry.minimum ≤ size - d
    omega

theorem pass_adjusted (mode : Mode) (weight remaining : Nat) (sizes : Sizes) :
    List.Forall₂ (Adjusted mode) sizes (pass mode weight remaining sizes).1 := by
  induction sizes generalizing remaining with
  | nil => exact .nil
  | cons head sizes ih =>
    rw [pass]
    split
    · exact List.forall₂_same.mpr fun p _ => .refl mode p
    · split
      next hcandidate => exact .cons (adjusted_change hcandidate (delta_le_capacity ..)) (ih _)
      next => exact .cons (.refl mode _) (ih _)

def total (sizes : Sizes) : Nat := (sizes.map Prod.snd).sum

/-- What is distributed is added to the sizes, or taken from them. -/
def Mode.Conserves (mode : Mode) (total remaining total' left : Nat) : Prop :=
  match mode with
  | .grow => total' + left = total + remaining
  | .shrink => total' + remaining = total + left

theorem pass_conserves (mode : Mode) (weight remaining : Nat) (sizes : Sizes) :
    mode.Conserves (total sizes) remaining (total (pass mode weight remaining sizes).1)
      (pass mode weight remaining sizes).2 := by
  induction sizes generalizing remaining with
  | nil => cases mode <;> rfl
  | cons head sizes ih =>
    obtain ⟨entry, size⟩ := head
    have hcapacity := delta_le_capacity mode weight remaining entry size
    have hremaining := delta_le mode weight remaining entry size
    rw [pass]
    split
    next hzero =>
      rw [hzero]
      cases mode <;> rfl
    next =>
      split
      next =>
        have hrest := ih (remaining - delta mode weight remaining entry size)
        cases mode with
        | grow =>
          simp only [Mode.Conserves, total, Mode.change, List.map_cons, List.sum_cons] at hrest ⊢
          omega
        | shrink =>
          simp only [Mode.Conserves, total, Mode.change, List.map_cons, List.sum_cons] at hrest ⊢
          simp only [Mode.capacity] at hcapacity
          omega
      next =>
        have hrest := ih remaining
        cases mode with
        | grow =>
          simp only [Mode.Conserves, total, List.map_cons, List.sum_cons] at hrest ⊢
          omega
        | shrink =>
          simp only [Mode.Conserves, total, List.map_cons, List.sum_cons] at hrest ⊢
          omega

/-- **A pass distributes something** while there are candidates. -/
theorem pass_lt (hremaining : remaining ≠ 0) (hcandidates : candidates mode sizes ≠ []) :
    (pass mode weight remaining sizes).2 < remaining := by
  induction sizes with
  | nil => exact absurd rfl hcandidates
  | cons head sizes ih =>
    obtain ⟨entry, size⟩ := head
    rw [pass, if_neg hremaining]
    split
    next hcandidate =>
      have hpos := @delta_pos mode weight remaining entry size hremaining hcandidate
      have hle := pass_le mode weight (remaining - delta mode weight remaining entry size) sizes
      dsimp only
      omega
    next hnot =>
      apply ih
      intro hnone
      apply hcandidates
      rw [candidates, List.filter_cons_of_neg (by exact hnot)]
      exact hnone

/-! ## What is distributed -/

theorem distribute_adjusted (mode : Mode) (sizes : Sizes) (remaining : Nat) :
    List.Forall₂ (Adjusted mode) sizes (distribute mode sizes remaining) := by
  have hsame : ∀ sizes : Sizes, List.Forall₂ (Adjusted mode) sizes sizes :=
    fun sizes => List.forall₂_same.mpr fun p _ => .refl mode p
  induction sizes, remaining using distribute.induct mode with
  | case1 sizes =>
    rw [distribute, if_pos rfl]
    exact hsame _
  | case2 sizes remaining hremaining hnone =>
    rw [distribute, if_neg hremaining, if_pos hnone]
    exact hsame _
  | case3 sizes remaining hremaining hsome hstuck =>
    rw [distribute, if_neg hremaining, if_neg hsome, if_pos hstuck]
    exact pass_adjusted ..
  | case4 sizes remaining hremaining hsome hless ih =>
    rw [distribute, if_neg hremaining, if_neg hsome, if_neg hless]
    exact forall₂_trans (R := Adjusted mode) (fun _ _ _ => Adjusted.trans) (pass_adjusted ..) ih

/-- Passes go on until nothing remains or there are no candidates. -/
theorem distribute_conserves (mode : Mode) (sizes : Sizes) (remaining : Nat) :
    ∃ left, mode.Conserves (total sizes) remaining (total (distribute mode sizes remaining)) left ∧
      (left = 0 ∨ candidates mode (distribute mode sizes remaining) = []) := by
  induction sizes, remaining using distribute.induct mode with
  | case1 sizes =>
    rw [distribute, if_pos rfl]
    exact ⟨0, by cases mode <;> rfl, .inl rfl⟩
  | case2 sizes remaining hremaining hnone =>
    rw [distribute, if_neg hremaining, if_pos hnone]
    exact ⟨remaining, by cases mode <;> rfl, .inr hnone⟩
  | case3 sizes remaining hremaining hsome hstuck =>
    exact absurd hstuck (Nat.ne_of_lt (pass_lt hremaining hsome))
  | case4 sizes remaining hremaining hsome hless ih =>
    rw [distribute, if_neg hremaining, if_neg hsome, if_neg hless]
    obtain ⟨left, hconserves, hdone⟩ := ih
    refine ⟨left, ?_, hdone⟩
    have hpass := pass_conserves mode (totalWeight mode sizes) remaining sizes
    cases mode with
    | grow =>
      simp only [Mode.Conserves] at hconserves hpass ⊢
      omega
    | shrink =>
      simp only [Mode.Conserves] at hconserves hpass ⊢
      omega

/-! ## Allocation -/

theorem length_clampedSizes (entries : List StackLayoutEntry) (intrinsicSizes : List Nat) :
    (clampedSizes entries intrinsicSizes).length = entries.length := List.length_mapIdx

theorem clampSize_within (size : Nat) (entry : StackLayoutEntry) : Within entry (clampSize size entry) :=
  ⟨Nat.le_max_left _ _, Nat.max_le.mpr ⟨Nat.le_max_left _ _, Nat.min_le_left _ _⟩⟩

theorem clampedSizes_within {entries : List StackLayoutEntry} {intrinsicSizes : List Nat} {i : Nat}
    {entry : StackLayoutEntry} {size : Nat} (hentry : entries[i]? = some entry)
    (hsize : (clampedSizes entries intrinsicSizes)[i]? = some size) : Within entry size := by
  rw [clampedSizes, List.getElem?_mapIdx, hentry] at hsize
  obtain rfl := Option.some.inj hsize
  exact clampSize_within _ _

theorem distribute_at {entries : List StackLayoutEntry} {before : List Nat}
    (hlength : before.length = entries.length) {i : Nat} {entry : StackLayoutEntry} {size : Nat}
    (hentry : entries[i]? = some entry)
    (hsize : ((distribute mode (entries.zip before) remaining).map Prod.snd)[i]? = some size) :
    ∃ basis, before[i]? = some basis ∧ Adjusted mode (entry, basis) (entry, size) ∧
      (entry, size) ∈ distribute mode (entries.zip before) remaining := by
  obtain ⟨hi, -⟩ := List.getElem?_eq_some_iff.mp hentry
  obtain ⟨basis, hbasis⟩ : ∃ basis, before[i]? = some basis :=
    ⟨before[i], List.getElem?_eq_getElem (hlength ▸ hi)⟩
  have hzip : (entries.zip before)[i]? = some (entry, basis) :=
    List.getElem?_zip_eq_some.mpr ⟨hentry, hbasis⟩
  obtain ⟨⟨entry', size'⟩, hat, hadjusted⟩ :=
    exists_of_forall₂ (distribute_adjusted mode (entries.zip before) remaining) hzip
  obtain rfl : entry' = entry := hadjusted.entry
  rw [List.getElem?_map, hat] at hsize
  obtain rfl := Option.some.inj hsize
  exact ⟨basis, hbasis, hadjusted, List.mem_of_getElem? hat⟩

theorem total_zip (entries : List StackLayoutEntry) (intrinsicSizes : List Nat) :
    total (entries.zip (clampedSizes entries intrinsicSizes)) = (clampedSizes entries intrinsicSizes).sum := by
  rw [total, List.map_snd_zip (length_clampedSizes entries intrinsicSizes).le]

/-! ## Safe integers -/

/-- The weights of all entries together. -/
def load (mode : Mode) (sizes : Sizes) : Nat := (sizes.map fun p => mode.weight p.1 p.2).sum

/-- What is to be distributed. -/
def Mode.amount : Mode → (content total : Nat) → Nat
  | .grow, content, total => content - total
  | .shrink, content, total => total - content

/-- **The bound on the inputs**: limits, gaps and the space are safe integers, and so is the work there is to
do, the amount to be distributed times the weights. -/
structure Safe (entries : List StackLayoutEntry) (intrinsicSizes : List Nat) (availableSize : Option ℚ) (gap : Nat) :
    Prop where
  limits : ∀ entry ∈ entries, entry.minimum ≤ MAX_SAFE_INTEGER ∧ entry.maximum ≤ MAX_SAFE_INTEGER
  sizes : (clampedSizes entries intrinsicSizes).sum ≤ MAX_SAFE_INTEGER
  gaps : (entries.length - 1) * gap ≤ MAX_SAFE_INTEGER
  space : ∀ available ∈ availableSize, available.floor ≤ MAX_SAFE_INTEGER
  work : ∀ available ∈ availableSize, ∀ mode : Mode,
    mode.amount (contentSize entries available gap) (clampedSizes entries intrinsicSizes).sum *
      load mode (entries.zip (clampedSizes entries intrinsicSizes)) ≤ MAX_SAFE_INTEGER

/-- The sizes and what remains before one of the passes of `distribute`. -/
inductive Passes (mode : Mode) (start : Sizes) (amount : Nat) : Sizes → Nat → Prop
  | start : Passes mode start amount start amount
  | pass {sizes : Sizes} {remaining : Nat} (h : Passes mode start amount sizes remaining) :
      Passes mode start amount (pass mode (totalWeight mode sizes) remaining sizes).1
        (pass mode (totalWeight mode sizes) remaining sizes).2

/-- A pass computes with safe integers: the sizes, their weights, and the products that it divides. -/
structure SafePass (mode : Mode) (sizes : Sizes) (remaining : Nat) : Prop where
  total : total sizes ≤ MAX_SAFE_INTEGER
  weights : totalWeight mode sizes ≤ MAX_SAFE_INTEGER
  products : ∀ p ∈ sizes, remaining * mode.weight p.1 p.2 ≤ MAX_SAFE_INTEGER

theorem totalWeight_le (mode : Mode) (sizes : Sizes) : totalWeight mode sizes ≤ load mode sizes := by
  induction sizes with
  | nil => exact Nat.le_refl _
  | cons head sizes ih =>
    rw [totalWeight, candidates, List.filter_cons]
    by_cases hcandidate : mode.isCandidate head.1 head.2 = true
    · rw [if_pos hcandidate]
      exact Nat.add_le_add_left ih _
    · rw [if_neg hcandidate]
      exact ih.trans (Nat.le_add_left _ _)

theorem weight_le_load {p : StackLayoutEntry × Nat} (hp : p ∈ sizes) : mode.weight p.1 p.2 ≤ load mode sizes := by
  obtain ⟨before, after, rfl⟩ := List.append_of_mem hp
  simp only [load, List.map_append, List.map_cons, List.sum_append, List.sum_cons]
  omega

/-- Growing leaves the weights, shrinking makes them less. -/
theorem weight_change_le (entry : StackLayoutEntry) (size d : Nat) :
    mode.weight entry (mode.change size d) ≤ mode.weight entry size := by
  cases mode with
  | grow => exact Nat.le_refl _
  | shrink => exact Nat.mul_le_mul_left _ (max_le_max_left 1 (Nat.sub_le _ _))

theorem pass_load (mode : Mode) (weight remaining : Nat) (sizes : Sizes) :
    load mode (pass mode weight remaining sizes).1 ≤ load mode sizes := by
  induction sizes generalizing remaining with
  | nil => exact Nat.le_refl _
  | cons head sizes ih =>
    rw [pass]
    split
    · exact Nat.le_refl _
    · split
      · exact Nat.add_le_add (weight_change_le _ _ _) (ih _)
      · exact Nat.add_le_add_left (ih _) _

section Safe

variable {start : Sizes} {amount : Nat}

/-- In every pass there is no more to do than in the first. -/
theorem passes_bounds (h : Passes mode start amount sizes remaining) : remaining ≤ amount ∧
    load mode sizes ≤ load mode start ∧ mode.Conserves (total start) amount (total sizes) remaining := by
  induction h with
  | start => exact ⟨Nat.le_refl _, Nat.le_refl _, by cases mode <;> rfl⟩
  | @pass sizes remaining _ ih =>
    obtain ⟨hremaining, hload, hconserves⟩ := ih
    have hpass := pass_conserves mode (totalWeight mode sizes) remaining sizes
    refine ⟨(pass_le ..).trans hremaining, (pass_load ..).trans hload, ?_⟩
    cases mode <;> simp only [Mode.Conserves] at hconserves hpass ⊢ <;> omega

/-- **Within the bound every pass computes with safe integers.** -/
theorem safePass {entries : List StackLayoutEntry} {intrinsicSizes : List Nat} {available : ℚ} {gap : Nat}
    (hsafe : Safe entries intrinsicSizes (some available) gap)
    (h : Passes mode (entries.zip (clampedSizes entries intrinsicSizes))
      (mode.amount (contentSize entries available gap) (clampedSizes entries intrinsicSizes).sum) sizes remaining)
    (hremaining : remaining ≠ 0) : SafePass mode sizes remaining := by
  obtain ⟨hamount, hload, hconserves⟩ := passes_bounds h
  have hwork := hsafe.work available rfl mode
  have hproduct : remaining * load mode sizes ≤ MAX_SAFE_INTEGER := (Nat.mul_le_mul hamount hload).trans hwork
  refine ⟨?_, ?_, fun p hp => ?_⟩
  · have hsizes := hsafe.sizes
    have hcontent : contentSize entries available gap ≤ MAX_SAFE_INTEGER := by
      have hspace := hsafe.space available rfl
      rw [contentSize]
      omega
    rw [total_zip] at hconserves
    cases mode with
    | grow =>
      simp only [Mode.Conserves, Mode.amount] at hconserves hamount
      omega
    | shrink =>
      simp only [Mode.Conserves] at hconserves
      omega
  · calc totalWeight mode sizes ≤ load mode sizes := totalWeight_le mode sizes
      _ ≤ remaining * load mode sizes := Nat.le_mul_of_pos_left _ (Nat.pos_of_ne_zero hremaining)
      _ ≤ MAX_SAFE_INTEGER := hproduct
  · exact (Nat.mul_le_mul_left remaining (weight_le_load hp)).trans hproduct

end Safe

/-- What sizes of entries are to be, for the largest size that an entry may grow to. -/
structure Allocated (top : StackLayoutEntry → Nat) (entries : List StackLayoutEntry)
    (intrinsicSizes : List Nat) (availableSize : Option ℚ) (gap : Nat) (sizes : List Nat) :
    Prop where
  length : sizes.length = entries.length
  within : ∀ {i : Nat} {entry : StackLayoutEntry} {size : Nat}, entries[i]? = some entry →
    sizes[i]? = some size → entry.minimum ≤ size ∧ size ≤ max entry.minimum entry.maximum
  unavailable : availableSize = none → sizes = clampedSizes entries intrinsicSizes
  keptGrowing : ∀ {available : ℚ} {i : Nat} {entry : StackLayoutEntry} {size : Nat}, availableSize = some available →
    (clampedSizes entries intrinsicSizes).sum < contentSize entries available gap →
    entries[i]? = some entry → sizes[i]? = some size → entry.growth = 0 →
    (clampedSizes entries intrinsicSizes)[i]? = some size
  keptShrinking : ∀ {available : ℚ} {i : Nat} {entry : StackLayoutEntry} {size : Nat}, availableSize = some available →
    contentSize entries available gap < (clampedSizes entries intrinsicSizes).sum →
    entries[i]? = some entry → sizes[i]? = some size → entry.shrinkage = 0 →
    (clampedSizes entries intrinsicSizes)[i]? = some size
  exact : ∀ {available : ℚ}, availableSize = some available → sizes.sum = contentSize entries available gap ∨
    (sizes.sum < contentSize entries available gap ∧
      ∀ {i : Nat} {entry : StackLayoutEntry} {size : Nat}, entries[i]? = some entry →
        sizes[i]? = some size → 0 < entry.growth →
        size = top entry) ∨
    (contentSize entries available gap < sizes.sum ∧
      ∀ {i : Nat} {entry : StackLayoutEntry} {size : Nat}, entries[i]? = some entry →
        sizes[i]? = some size → 0 < entry.shrinkage →
        size = entry.minimum)

section

variable {entries : List StackLayoutEntry} {intrinsicSizes : List Nat} {available : ℚ} {gap : Nat}

theorem length_distribute {before : List Nat} (hlength : before.length = entries.length)
    (mode : Mode) (remaining : Nat) :
    ((distribute mode (entries.zip before) remaining).map Prod.snd).length = entries.length := by
  rw [List.length_map, ← (distribute_adjusted mode (entries.zip before) remaining).length_eq,
    List.length_zip, hlength, Nat.min_self]

theorem distribute_within {i : Nat} {entry : StackLayoutEntry} {size : Nat} (hentry : entries[i]? = some entry)
    (hsize : ((distribute mode (entries.zip (clampedSizes entries intrinsicSizes)) remaining).map
      Prod.snd)[i]? = some size) : Within entry size := by
  obtain ⟨basis, hbasis, hadjusted, -⟩ :=
    distribute_at (length_clampedSizes entries intrinsicSizes) hentry hsize
  exact hadjusted.within (clampedSizes_within hentry hbasis)

theorem allocated_grow (hless : (clampedSizes entries intrinsicSizes).sum < contentSize entries available gap) :
    Allocated StackLayoutEntry.upper entries intrinsicSizes (some available) gap
      ((distribute .grow (entries.zip (clampedSizes entries intrinsicSizes))
        (contentSize entries available gap - (clampedSizes entries intrinsicSizes).sum)).map Prod.snd) := by
  have hlength := length_clampedSizes entries intrinsicSizes
  refine ⟨length_distribute hlength _ _, distribute_within, nofun, ?_, ?_, ?_⟩
  · intro _ i entry size _ _ hentry hsize hzero
    obtain ⟨basis, hbasis, hadjusted, -⟩ := distribute_at hlength hentry hsize
    rw [hbasis]
    exact congrArg some (hadjusted.fixed hzero).symm
  · intro _ i entry size heq hmore
    obtain rfl := Option.some.inj heq
    exact absurd hless (Nat.not_lt.mpr hmore.le)
  · intro _ heq
    obtain rfl := Option.some.inj heq
    obtain ⟨left, hconserves, hdone⟩ := distribute_conserves .grow (entries.zip (clampedSizes entries intrinsicSizes))
      (contentSize entries available gap - (clampedSizes entries intrinsicSizes).sum)
    rw [Mode.Conserves, total_zip] at hconserves
    change List.sum _ + left = _ at hconserves
    rcases Nat.eq_zero_or_pos left with hzero | hpos
    · exact .inl (by omega)
    · refine .inr (.inl ⟨by omega, fun {i entry size} hentry hsize hgrow => ?_⟩)
      obtain ⟨basis, -, -, hmem⟩ := distribute_at hlength hentry hsize
      have hnone := hdone.resolve_left (Nat.ne_of_gt hpos)
      have hnot := List.filter_eq_nil_iff.mp hnone _ hmem
      simp only [Mode.isCandidate, hgrow, decide_true, Bool.true_and, decide_eq_true_eq] at hnot
      obtain ⟨hmin, hmax⟩ := distribute_within hentry hsize
      exact Nat.le_antisymm hmax (Nat.max_le.mpr ⟨hmin, Nat.not_lt.mp hnot⟩)

theorem allocated_shrink (hmore : contentSize entries available gap < (clampedSizes entries intrinsicSizes).sum) :
    Allocated StackLayoutEntry.upper entries intrinsicSizes (some available) gap
      ((distribute .shrink (entries.zip (clampedSizes entries intrinsicSizes))
        ((clampedSizes entries intrinsicSizes).sum - contentSize entries available gap)).map Prod.snd) := by
  have hlength := length_clampedSizes entries intrinsicSizes
  refine ⟨length_distribute hlength _ _, distribute_within, nofun, ?_, ?_, ?_⟩
  · intro _ i entry size heq hless
    obtain rfl := Option.some.inj heq
    exact absurd hless (Nat.not_lt.mpr hmore.le)
  · intro _ i entry size _ _ hentry hsize hzero
    obtain ⟨basis, hbasis, hadjusted, -⟩ := distribute_at hlength hentry hsize
    rw [hbasis]
    exact congrArg some (hadjusted.fixed hzero).symm
  · intro _ heq
    obtain rfl := Option.some.inj heq
    obtain ⟨left, hconserves, hdone⟩ := distribute_conserves .shrink (entries.zip (clampedSizes entries intrinsicSizes))
      ((clampedSizes entries intrinsicSizes).sum - contentSize entries available gap)
    rw [Mode.Conserves, total_zip] at hconserves
    change List.sum _ + _ = _ at hconserves
    rcases Nat.eq_zero_or_pos left with hzero | hpos
    · exact .inl (by omega)
    · refine .inr (.inr ⟨by omega, fun {i entry size} hentry hsize hshrink => ?_⟩)
      obtain ⟨basis, -, -, hmem⟩ := distribute_at hlength hentry hsize
      have hnone := hdone.resolve_left (Nat.ne_of_gt hpos)
      have hnot := List.filter_eq_nil_iff.mp hnone _ hmem
      simp only [Mode.isCandidate, hshrink, decide_true, Bool.true_and, decide_eq_true_eq] at hnot
      exact Nat.le_antisymm (Nat.not_lt.mp hnot) (distribute_within hentry hsize).1

end

theorem allocated (entries : List StackLayoutEntry) (intrinsicSizes : List Nat)
    (availableSize : Option ℚ) (gap : Nat) :
    Allocated StackLayoutEntry.upper entries intrinsicSizes availableSize gap
      (allocateStackSizes entries intrinsicSizes availableSize gap) := by
  have hlength := length_clampedSizes entries intrinsicSizes
  cases availableSize with
  | none =>
    exact ⟨hlength, clampedSizes_within, fun _ => rfl, nofun, nofun, nofun⟩
  | some available =>
    simp only [allocateStackSizes]
    split
    next hless => exact allocated_grow hless
    next hnotless =>
      split
      next hmore => exact allocated_shrink hmore
      next hnotmore =>
        refine ⟨hlength, clampedSizes_within, nofun, fun _ _ _ h _ => h, fun _ _ _ h _ => h, fun {available'} heq => ?_⟩
        obtain rfl := Option.some.inj heq
        exact .inl (Nat.le_antisymm (Nat.not_lt.mp hnotmore) (Nat.not_lt.mp hnotless))

/-- **Sizes use the space exactly**, as far as the limits of the entries that grow, or shrink,
allow. Within the bound on the inputs every pass on the way computes with safe integers. -/
theorem allocateStackSizes_allocated (entries : List StackLayoutEntry) (intrinsicSizes : List Nat)
    (availableSize : Option ℚ) (gap : Nat) (hsafe : Safe entries intrinsicSizes availableSize gap) :
    (∀ available ∈ availableSize, ∀ (mode : Mode) (sizes : Sizes) (remaining : Nat),
      Passes mode (entries.zip (clampedSizes entries intrinsicSizes))
        (mode.amount (contentSize entries available gap) (clampedSizes entries intrinsicSizes).sum) sizes remaining →
      remaining ≠ 0 → SafePass mode sizes remaining) ∧
      Allocated (fun entry => max entry.minimum entry.maximum) entries intrinsicSizes availableSize gap
        (allocateStackSizes entries intrinsicSizes availableSize gap) := by
  refine ⟨fun available havailable mode sizes remaining h hremaining => ?_, allocated ..⟩
  obtain rfl := Option.mem_def.mp havailable
  exact safePass hsafe h hremaining

/-- An entry that takes what is left of ten columns. -/
def growingEntry : StackLayoutEntry :=
  { basis := some (.size 2), grow := some 1, shrink := none, minSize := none, maxSize := none }

theorem allocateStackSizes_allocated_growing :
    Allocated (fun entry => max entry.minimum entry.maximum) [growingEntry, growingEntry] [] (some 10) 1
      (allocateStackSizes [growingEntry, growingEntry] [] (some 10) 1) := by
  have hfloor : (10 : ℚ).floor = 10 := Rat.floor_intCast 10
  have hcontent : contentSize [growingEntry, growingEntry] 10 1 = 9 := by
    rw [contentSize, hfloor]
    rfl
  refine (allocateStackSizes_allocated [growingEntry, growingEntry] [] (some 10) 1 {
    limits := by decide
    sizes := by decide
    gaps := by decide
    space := fun available havailable => ?_
    work := fun available havailable mode => ?_ }).2
  · obtain rfl := Option.some.inj havailable
    rw [hfloor]
    decide
  · obtain rfl := Option.some.inj havailable
    rw [hcontent]
    cases mode <;> decide

/-- An entry whose smallest size is above its largest does not shrink to the largest. -/
def narrowEntry : StackLayoutEntry :=
  { basis := none, grow := some 1, shrink := none, minSize := some 5, maxSize := some 3 }

theorem allocateStackSizes_above_max :
    ¬ Allocated StackLayoutEntry.maximum [narrowEntry] [] (some 10) 0
      (allocateStackSizes [narrowEntry] [] (some 10) 0) := by
  have hcontent : contentSize [narrowEntry] 10 0 = 10 := by
    have hfloor : (10 : ℚ).floor = 10 := Rat.floor_intCast 10
    rw [contentSize, hfloor]
    rfl
  have hsizes : allocateStackSizes [narrowEntry] [] (some 10) 0 = [5] := by
    simp only [allocateStackSizes]
    rw [hcontent, if_pos (by decide), distribute, if_neg (by decide), if_pos (by decide)]
    rfl
  rw [hsizes]
  intro h
  rcases h.exact rfl with hsum | ⟨-, hmax⟩ | ⟨hmore, -⟩
  · rw [hcontent] at hsum
    exact absurd hsum (by decide)
  · exact absurd (hmax (i := 0) rfl rfl (by decide)) (by decide)
  · rw [hcontent] at hmore
    exact absurd hmore (by decide)

end Mcpi.Tui.Stack
