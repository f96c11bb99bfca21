import Mathlib.Data.List.Nodup
import Mathlib.Data.List.Basic
import Mathlib.Data.List.Induction

/-!
# Insertion-ordered maps

A finite map that remembers the order in which its keys were first inserted, the
way an ECMAScript `Map` does: `set` on a key that is present replaces the value in
place, `set` on a new key appends, `delete` closes the gap. The key list carries the
proof that no key occurs twice, so lookups never have to choose.
-/

/-- A map that enumerates its bindings in insertion order. -/
structure OrderedMap (κ : Type*) (α : Type*) where
  toList : List (κ × α)
  nodup_keys : (toList.map Prod.fst).Nodup

namespace OrderedMap

variable {κ α : Type*}

@[ext] theorem ext {m m' : OrderedMap κ α} (h : m.toList = m'.toList) : m = m' := by
  cases m; cases m'; cases h; rfl

variable [DecidableEq κ]

instance [DecidableEq α] : DecidableEq (OrderedMap κ α) := fun m m' =>
  decidable_of_iff (m.toList = m'.toList) ⟨OrderedMap.ext, fun h => by rw [h]⟩

/-! ## Raw association lists -/

/-- The value bound to `k`, in a raw association list. -/
def lookupIn (k : κ) : List (κ × α) → Option α
  | [] => none
  | (k', a) :: rest => if k' = k then some a else lookupIn k rest

/-- Replace the value of `k` in place, or append a binding. -/
def setIn (k : κ) (a : α) : List (κ × α) → List (κ × α)
  | [] => [(k, a)]
  | (k', a') :: rest => if k' = k then (k', a) :: rest else (k', a') :: setIn k a rest

theorem map_fst_setIn (k : κ) (a : α) (l : List (κ × α)) :
    (setIn k a l).map Prod.fst =
      if k ∈ l.map Prod.fst then l.map Prod.fst else l.map Prod.fst ++ [k] := by
  induction l with
  | nil => rfl
  | cons p rest ih =>
    obtain ⟨k', a'⟩ := p
    by_cases hk : k' = k
    · simp [setIn, hk]
    · have hk' : k ≠ k' := fun h => hk h.symm
      simp only [setIn, hk, ↓reduceIte, List.map_cons, ih, List.mem_cons, hk', false_or]
      split <;> simp

variable {k : κ} {a : α} {l : List (κ × α)}

theorem nodup_setIn (h : (l.map Prod.fst).Nodup) : ((setIn k a l).map Prod.fst).Nodup := by
  rw [map_fst_setIn]
  split
  · exact h
  next hk =>
    rw [List.nodup_append]
    refine ⟨h, List.nodup_singleton k, fun x hx y hy => ?_⟩
    rw [List.mem_singleton] at hy
    rintro rfl
    exact hk (hy ▸ hx)

theorem lookupIn_setIn (k j : κ) (a : α) (l : List (κ × α)) :
    lookupIn j (setIn k a l) = if k = j then some a else lookupIn j l := by
  induction l with
  | nil => rfl
  | cons p rest ih =>
    obtain ⟨k', a'⟩ := p
    by_cases hk : k' = k
    · subst hk
      by_cases hj : k' = j <;> simp [setIn, lookupIn, hj]
    · by_cases hj : k' = j
      · subst hj
        simp [setIn, lookupIn, hk, Ne.symm hk]
      · simp [setIn, lookupIn, hk, hj, ih]

theorem lookupIn_filter_ne (k j : κ) (l : List (κ × α)) :
    lookupIn j (l.filter fun p => p.1 ≠ k) = if k = j then none else lookupIn j l := by
  induction l with
  | nil => simp [lookupIn]
  | cons p rest ih =>
    obtain ⟨k', a'⟩ := p
    by_cases hk : k' = k
    · subst hk
      by_cases hj : k' = j
      · simpa [hj] using ih
      · simpa [hj, lookupIn] using ih
    · by_cases hj : k' = j
      · subst hj
        simp [hk, lookupIn, Ne.symm hk]
      · simpa [hk, hj, lookupIn] using ih

theorem lookupIn_eq_some_iff (h : (l.map Prod.fst).Nodup) : lookupIn k l = some a ↔ (k, a) ∈ l := by
  induction l with
  | nil => simp [lookupIn]
  | cons p rest ih =>
    obtain ⟨k', a'⟩ := p
    rw [List.map_cons, List.nodup_cons] at h
    by_cases hk : k' = k
    · subst hk
      have hnot : (k', a) ∉ rest := fun hm => h.1 (List.mem_map.mpr ⟨_, hm, rfl⟩)
      simp [lookupIn, hnot, eq_comm]
    · simp [lookupIn, hk, Ne.symm hk, ih h.2]

theorem lookupIn_eq_none_iff : lookupIn k l = none ↔ k ∉ l.map Prod.fst := by
  induction l with
  | nil => simp [lookupIn]
  | cons p rest ih =>
    obtain ⟨k', a'⟩ := p
    by_cases hk : k' = k
    · simp [lookupIn, hk]
    · simp [lookupIn, hk, Ne.symm hk, ih]

theorem setIn_of_not_mem (h : k ∉ l.map Prod.fst) : setIn k a l = l ++ [(k, a)] := by
  induction l with
  | nil => rfl
  | cons p rest ih =>
    obtain ⟨k', a'⟩ := p
    rw [List.map_cons, List.mem_cons, not_or] at h
    simp [setIn, Ne.symm h.1, ih h.2]

/-! ## The map operations -/

/-- The empty map. -/
def empty : OrderedMap κ α := ⟨[], List.nodup_nil⟩

/-- `map.get(k)`. -/
def get? (m : OrderedMap κ α) (k : κ) : Option α := lookupIn k m.toList

/-- `map.has(k)`. -/
def has (m : OrderedMap κ α) (k : κ) : Bool := (m.get? k).isSome

/-- `map.set(k, a)`. -/
def set (m : OrderedMap κ α) (k : κ) (a : α) : OrderedMap κ α :=
  ⟨setIn k a m.toList, nodup_setIn m.nodup_keys⟩

/-- `map.delete(k)`. -/
def delete (m : OrderedMap κ α) (k : κ) : OrderedMap κ α :=
  ⟨m.toList.filter fun p => p.1 ≠ k, m.nodup_keys.sublist ((List.filter_sublist).map Prod.fst)⟩

/-- `[...map.keys()]`. -/
def keys (m : OrderedMap κ α) : List κ := m.toList.map Prod.fst

/-- `[...map.values()]`. -/
def values (m : OrderedMap κ α) : List α := m.toList.map Prod.snd

/-! ## Lookup after an update -/

@[simp] theorem get?_empty (k : κ) : (empty : OrderedMap κ α).get? k = none := rfl

omit [DecidableEq κ] in
@[simp] theorem values_empty : (empty : OrderedMap κ α).values = [] := rfl

theorem get?_set (m : OrderedMap κ α) (k j : κ) (a : α) : (m.set k a).get? j = if k = j then some a else m.get? j :=
  lookupIn_setIn k j a m.toList

@[simp] theorem get?_set_self (m : OrderedMap κ α) (k : κ) (a : α) :
    (m.set k a).get? k = some a := by simp [get?_set]

theorem get?_set_ne (m : OrderedMap κ α) {k j : κ} (a : α) (h : k ≠ j) :
    (m.set k a).get? j = m.get? j := by simp [get?_set, h]

theorem get?_delete (m : OrderedMap κ α) (k j : κ) : (m.delete k).get? j = if k = j then none else m.get? j :=
  lookupIn_filter_ne k j m.toList

variable {m : OrderedMap κ α}

theorem has_iff : m.has k = true ↔ ∃ a, m.get? k = some a :=
  Option.isSome_iff_exists

theorem get?_eq_some_iff : m.get? k = some a ↔ (k, a) ∈ m.toList :=
  lookupIn_eq_some_iff m.nodup_keys

theorem get?_eq_none_iff : m.get? k = none ↔ k ∉ m.keys :=
  lookupIn_eq_none_iff

theorem mem_values_of_get? (h : m.get? k = some a) : a ∈ m.values :=
  List.mem_map.mpr ⟨(k, a), get?_eq_some_iff.mp h, rfl⟩

theorem toList_set_of_fresh (a : α) (h : m.get? k = none) : (m.set k a).toList = m.toList ++ [(k, a)] :=
  setIn_of_not_mem (get?_eq_none_iff.mp h)

/-! ## Maps filled by a scan -/

/-- A scan of an empty map that sets a binding for some of the elements leaves, under each key, the last of
them. -/
theorem get?_scan {σ β γ : Type*} {field : σ → OrderedMap κ α} {push : σ → β → σ}
    {select : β → Option γ} {key : γ → κ} {value : γ → α} {s : σ} {k : κ}
    (hpush : ∀ s b, field (push s b) =
      match select b with
      | none => field s
      | some c => (field s).set (key c) (value c))
    (hempty : (field s).get? k = none) (l : List β) :
    (field (l.foldl push s)).get? k = ((l.filterMap select).filter fun c => key c = k).getLast?.map value := by
  induction l using List.reverseRecOn with
  | nil => exact hempty
  | append_singleton l b ih =>
    rw [List.foldl_append, List.foldl_cons, List.foldl_nil, hpush, List.filterMap_append]
    cases hb : select b with
    | none => simpa [hb] using ih
    | some c =>
      by_cases hk : key c = k
      · simp [hb, hk]
      · simp [hb, hk, get?_set_ne _ _ hk, ih]

/-- `new Map(values.map((value) => [key(value), value]))` -/
def ofValues (key : α → κ) (values : List α) : OrderedMap κ α :=
  values.foldl (fun m a => m.set (key a) a) empty

theorem get?_ofValues (key : α → κ) (values : List α) (k : κ) :
    (ofValues key values).get? k = (values.filter fun a => key a = k).getLast? := by
  induction values using List.reverseRecOn with
  | nil => rfl
  | append_singleton values a ih =>
    rw [ofValues, List.foldl_append, List.foldl_cons, List.foldl_nil, get?_set]
    by_cases hk : key a = k
    · simp [hk]
    · simpa [hk, ofValues] using ih

variable {key : α → κ}

/-- With distinct keys a lookup finds the value that has the key. -/
theorem get?_ofValues_eq_some {values : List α} (h : (values.map key).Nodup)
    : (ofValues key values).get? k = some a ↔ a ∈ values ∧ key a = k := by
  rw [get?_ofValues]
  constructor
  · intro ha
    simpa using List.mem_of_getLast? ha
  · rintro ⟨ha, rfl⟩
    have hmem : a ∈ values.filter fun b => key b = key a := List.mem_filter.mpr ⟨ha, by simp⟩
    cases hlast : (values.filter fun b => key b = key a).getLast? with
    | none => exact absurd (List.getLast?_eq_none_iff.mp hlast) (List.ne_nil_of_mem hmem)
    | some b =>
      obtain ⟨hb, hkey⟩ := List.mem_filter.mp (List.mem_of_getLast? hlast)
      rw [List.inj_on_of_nodup_map h hb ha (by simpa using hkey)]

theorem setIn_map (f : α → α) (k : κ) (a : α) (l : List (κ × α)) :
    setIn k (f a) (l.map (Prod.map id f)) = (setIn k a l).map (Prod.map id f) := by
  induction l with
  | nil => rfl
  | cons p l ih =>
    obtain ⟨k', a'⟩ := p
    by_cases hk : k' = k
    · simp [setIn, hk]
    · simp [setIn, hk, ih]

theorem lookupIn_map (f : α → α) (k : κ) (l : List (κ × α)) :
    lookupIn k (l.map (Prod.map id f)) = (lookupIn k l).map f := by
  induction l with
  | nil => rfl
  | cons p l ih =>
    obtain ⟨k', a'⟩ := p
    by_cases hk : k' = k
    · simp [lookupIn, hk]
    · simp [lookupIn, hk, ih]

/-- Changing the values but not their keys changes the values of the map. -/
theorem toList_ofValues_map {f : α → α} (hkey : ∀ a, key (f a) = key a) (values : List α) :
    (ofValues key (values.map f)).toList = (ofValues key values).toList.map (Prod.map id f) := by
  induction values using List.reverseRecOn with
  | nil => rfl
  | append_singleton values a ih =>
    have hset : ∀ values : List α, (ofValues key (values ++ [a])).toList =
        setIn (key a) a (ofValues key values).toList := by
      intro values
      rw [ofValues, List.foldl_append]
      rfl
    have hset' : (ofValues key (values.map f ++ [f a])).toList =
        setIn (key (f a)) (f a) (ofValues key (values.map f)).toList := by
      rw [ofValues, List.foldl_append]
      rfl
    rw [List.map_append, List.map_singleton, hset', hset, ih, hkey, setIn_map]

theorem has_ofValues {values : List α} : (ofValues key values).has k = true ↔ ∃ a ∈ values, key a = k := by
  rw [has, get?_ofValues, List.getLast?_isSome]
  simp [List.filter_eq_nil_iff]

theorem mem_values_iff : a ∈ m.values ↔ ∃ k, m.get? k = some a := by
  constructor
  · intro ha
    obtain ⟨⟨k, _⟩, hk, rfl⟩ := List.mem_map.mp ha
    exact ⟨k, get?_eq_some_iff.mpr hk⟩
  · rintro ⟨k, hk⟩
    exact mem_values_of_get? hk

end OrderedMap
