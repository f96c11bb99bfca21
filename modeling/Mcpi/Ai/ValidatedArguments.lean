import Mcpi.Ai.ToolArguments

/-!
# Validated arguments

What `validateToolArguments` returns, and when that is what it is for. Writes stay within the clone of the
arguments; what satisfies its schema is left as it is, unless it inherits a property; and fields are counted to
see that an inherited function stays.
-/

namespace Mcpi.Ai.ToolArguments

section Proofs

variable {ν : Type} {N : Numbers ν}

variable {f : Value Nat ν → Heap → Value Nat ν × Heap}

variable {base id : Nat} {h : Heap} {value value' : Value Nat ν} {values : List (Value Nat ν)}
  {fields : List (String × Value Nat ν)} {key : String}

/-! ## Only what is new is written to -/

theorem local_mapFields (hf : Local f) (skip : String → Bool)
    (hid : base ≤ id) (hfields : OwnedFields base fields) (hfresh : Fresh base h) :
    OwnedFields base (mapFields f skip id fields h).1 ∧ Fresh base (mapFields f skip id fields h).2 := by
  induction fields generalizing h with
  | nil => exact ⟨hfields, hfresh⟩
  | cons field fields ih =>
    obtain ⟨key, value⟩ := field
    obtain ⟨hvalue, hfields⟩ := ownedFields_cons.mp hfields
    rw [mapFields]
    split
    · obtain ⟨howned, hfresh⟩ := ih hfields hfresh
      exact ⟨ownedFields_cons.mpr ⟨hvalue, howned⟩, hfresh⟩
    · obtain ⟨hvalue, hfresh⟩ := hf base value h hvalue hfresh
      obtain ⟨howned, hfresh⟩ := ih hfields (hfresh.write hid)
      exact ⟨ownedFields_cons.mpr ⟨hvalue, howned⟩, hfresh⟩

theorem local_mapItems (hf : Local f) (hid : base ≤ id) (hvalues : OwnedItems base values) (hfresh : Fresh base h) :
    OwnedItems base (mapItems f id values h).1 ∧ Fresh base (mapItems f id values h).2 := by
  induction values generalizing h with
  | nil => exact ⟨hvalues, hfresh⟩
  | cons value values ih =>
    obtain ⟨hvalue, hvalues⟩ := ownedItems_cons.mp hvalues
    obtain ⟨hvalue, hfresh⟩ := hf base value h hvalue hfresh
    obtain ⟨howned, hfresh⟩ := ih hvalues (hfresh.write hid)
    exact ⟨ownedItems_cons.mpr ⟨hvalue, howned⟩, hfresh⟩

theorem local_forItems (hf : Local f) (hvalues : OwnedItems base values) (hfresh : Fresh base h) :
    OwnedItems base (forItems f values h).1 ∧ Fresh base (forItems f values h).2 := by
  induction values generalizing h with
  | nil => exact ⟨hvalues, hfresh⟩
  | cons value values ih =>
    obtain ⟨hvalue, hvalues⟩ := ownedItems_cons.mp hvalues
    obtain ⟨hvalue, hfresh⟩ := hf base value h hvalue hfresh
    obtain ⟨howned, hfresh⟩ := ih hvalues hfresh
    exact ⟨ownedItems_cons.mpr ⟨hvalue, howned⟩, hfresh⟩

theorem local_union {candidates : Value Nat ν → Heap → Value Nat ν × Heap} (hf : Local candidates)
    (schemas : Schemas) : Local (coerceWithUnionSchema N candidates schemas) := by
  intro base value h howned hfresh
  unfold coerceWithUnionSchema
  split
  · exact ⟨howned, hfresh⟩
  · exact hf base value h howned hfresh

mutual
/-- **Nulls are dropped from what is given only.** -/
theorem local_normalize : ∀ schema : Schema, Local (normalizeOptionalNulls N schema)
  | .mk types allOf anyOf oneOf properties required additional items => by
    intro base value h howned hfresh
    cases value with
    | array id values =>
      obtain ⟨hid, hvalues⟩ := owned_array.mp howned
      obtain ⟨hvalues, hfresh⟩ := local_normalizeItems items hvalues hfresh
      exact ⟨owned_array.mpr ⟨hid, hvalues⟩, hfresh⟩
    | object id fields =>
      obtain ⟨hid, hfields⟩ := owned_object.mp howned
      obtain ⟨hfields, hfresh⟩ := local_normalizeProperties properties required hid hfields hfresh
      exact ⟨owned_object.mpr ⟨hid, hfields⟩, hfresh⟩
    | _ => exact ⟨howned, hfresh⟩

theorem local_normalizeItems : ∀ (items : Items) {base : Nat} {values : List (Value Nat ν)} {h : Heap},
    OwnedItems base values → Fresh base h →
    OwnedItems base (normalizeItems N items values h).1 ∧ Fresh base (normalizeItems N items values h).2
  | .absent, _, _, _, hvalues, hfresh => ⟨hvalues, hfresh⟩
  | .each schema, _, _, _, hvalues, hfresh => local_forItems (local_normalize schema) hvalues hfresh
  | .tuple schemas, _, _, _, hvalues, hfresh => local_normalizeTuple schemas hvalues hfresh

theorem local_normalizeTuple : ∀ (schemas : Schemas) {base : Nat} {values : List (Value Nat ν)} {h : Heap},
    OwnedItems base values → Fresh base h →
    OwnedItems base (normalizeTuple N schemas values h).1 ∧ Fresh base (normalizeTuple N schemas values h).2
  | .nil, _, _, _, hvalues, hfresh => ⟨hvalues, hfresh⟩
  | .cons _ _, _, [], _, hvalues, hfresh => ⟨hvalues, hfresh⟩
  | .cons schema schemas, base, value :: values, h, hvalues, hfresh => by
    obtain ⟨hvalue, hvalues⟩ := ownedItems_cons.mp hvalues
    obtain ⟨hvalue, hfresh⟩ := local_normalize schema base value h hvalue hfresh
    obtain ⟨hvalues, hfresh⟩ := local_normalizeTuple schemas hvalues hfresh
    exact ⟨ownedItems_cons.mpr ⟨hvalue, hvalues⟩, hfresh⟩

theorem local_normalizeProperties : ∀ (properties : Properties) (required : List String) {base id : Nat}
    {fields : List (String × Value Nat ν)} {h : Heap}, base ≤ id → OwnedFields base fields → Fresh base h →
    OwnedFields base (normalizeProperties N properties required id fields h).1 ∧
      Fresh base (normalizeProperties N properties required id fields h).2
  | .nil, _, _, _, _, _, _, hfields, hfresh => ⟨hfields, hfresh⟩
  | .cons key schema properties, required, base, id, fields, h, hid, hfields, hfresh => by
    rw [normalizeProperties]
    split
    next => exact local_normalizeProperties properties required hid hfields hfresh
    next =>
      split
      · exact local_normalizeProperties properties required hid (owned_filter hfields _) (hfresh.write hid)
      · exact local_normalizeProperties properties required hid hfields hfresh
    next value _ hlookup =>
      obtain ⟨hvalue, hfresh⟩ :=
        local_normalize schema base value h (owned_lookup hfields hlookup) hfresh
      exact local_normalizeProperties properties required hid (owned_setKey hfields hvalue) hfresh
end

/-! ## What satisfies a schema -/

/-- A function leaves a value as it is. -/
def Leaves {α : Type} (f : α → Heap → α × Heap) (value : α) : Prop := ∀ h, ∃ h', f value h = (value, h')

theorem mem_plainItems (h : value ∈ values) : value.plain ∈ Value.plainItems values := by
  induction values with
  | nil => cases h
  | cons first values ih =>
    rcases List.mem_cons.mp h with rfl | hmem
    · exact List.mem_cons_self
    · exact List.mem_cons_of_mem _ (ih hmem)

theorem mem_plainFields (h : (key, value) ∈ fields) : (key, value.plain) ∈ Value.plainFields fields := by
  induction fields with
  | nil => cases h
  | cons field fields ih =>
    rcases List.mem_cons.mp h with rfl | hmem
    · exact List.mem_cons_self
    · exact List.mem_cons_of_mem _ (ih hmem)

theorem lookup_plainFields (key : String) (fields : List (String × Value Nat ν)) :
    (Value.plainFields fields).lookup key = (fields.lookup key).map Value.plain := by
  induction fields with
  | nil => rfl
  | cons field fields ih =>
    obtain ⟨key', value⟩ := field
    rw [Value.plainFields, List.lookup_cons, List.lookup_cons]
    split
    · rfl
    · exact ih

theorem setKey_lookup (h : fields.lookup key = some value) : setKey key value fields = fields := by
  induction fields with
  | nil => cases h
  | cons field fields ih =>
    obtain ⟨key', value'⟩ := field
    rw [List.lookup_cons] at h
    rw [setKey]
    by_cases heq : key' = key
    · rw [if_pos heq]
      rw [beq_iff_eq.mpr heq.symm] at h
      rw [heq, Option.some.inj h]
    · rw [if_neg heq]
      rw [beq_eq_false_iff_ne.mpr (Ne.symm heq)] at h
      rw [ih h]

theorem getKey_own (h : fields.lookup key = some value) : getKey fields key = some value := by
  unfold getKey
  rw [h]

theorem getKey_none (h : fields.lookup key = none) (h' : key ∉ OBJECT_PROTOTYPE) : getKey fields key = none := by
  unfold getKey
  rw [h]
  exact if_neg h'

theorem getKey_inherited (h : fields.lookup key = none) (h' : key ∈ OBJECT_PROTOTYPE) :
    getKey fields key = some (.inherited key) := by
  unfold getKey
  rw [h]
  exact if_pos h'

theorem satisfiesSome_of_count : ∀ (schemas : Schemas) {value : Value Unit ν},
    satisfiesCount N schemas value ≠ 0 → satisfiesSome N schemas value = true
  | .nil, _, h => absurd rfl h
  | .cons schema schemas, value, h => by
    rw [satisfiesSome, Bool.or_eq_true]
    cases hfirst : satisfies N schema value with
    | true => exact .inl rfl
    | false =>
      rw [satisfiesCount, hfirst, if_neg Bool.false_ne_true, Nat.zero_add] at h
      exact .inr (satisfiesSome_of_count schemas h)

/-- What a schema asks of a value -/
structure Parts (N : Numbers ν) (types : List JsonType) (allOf anyOf oneOf : Schemas)
    (value : Value Nat ν) : Prop where
  types : types = [] ∨ types.any (matchesJsonType N value) = true
  all : satisfiesAll N allOf value.plain = true
  any : anyOf = .nil ∨ satisfiesSome N anyOf value.plain = true
  one : oneOf = .nil ∨ satisfiesSome N oneOf value.plain = true

theorem matchesJsonType_plain (value : Value Nat ν) : matchesJsonType N value.plain = matchesJsonType N value := by
  funext type
  cases value <;> cases type <;> rfl

variable {types : List JsonType} {allOf anyOf oneOf : Schemas} {properties : Properties} {required : List String}
  {additional : Additional}

theorem parts_of_satisfies {items : Items}
    (h : satisfies N (.mk types allOf anyOf oneOf properties required additional items) value.plain = true) :
    Parts N types allOf anyOf oneOf value := by
  unfold satisfies at h
  simp only [Bool.and_eq_true, Bool.or_eq_true, decide_eq_true_eq] at h
  obtain ⟨htypes, hall, hany, hone, -⟩ := h
  rw [matchesJsonType_plain] at htypes
  refine ⟨htypes, hall, ?_, ?_⟩
  · cases anyOf with
    | nil => exact .inl rfl
    | cons schema schemas => exact .inr hany
  · cases oneOf with
    | nil => exact .inl rfl
    | cons schema schemas =>
      right
      apply satisfiesSome_of_count
      have hone : decide (satisfiesCount N (.cons schema schemas) value.plain = 1) = true := hone
      rw [of_decide_eq_true hone]
      exact Nat.one_ne_zero

theorem object_of_satisfies {items : Items}
    (h : satisfies N (.mk types allOf anyOf oneOf properties required additional items)
      (Value.object id fields).plain = true) :
    satisfiesProperties N properties (Value.plainFields fields) = true ∧
      ∀ field ∈ fields, field.1 ∉ properties.keys → satisfiesAdditional N additional field.2.plain = true := by
  rw [Value.plain] at h
  unfold satisfies at h
  simp only [Bool.and_eq_true] at h
  obtain ⟨-, -, -, -, hproperties, -, hall⟩ := h
  refine ⟨hproperties, fun field hfield hnot => ?_⟩
  have hfield := List.all_eq_true.mp hall _ (mem_plainFields hfield)
  rw [Bool.or_eq_true, decide_eq_true_eq] at hfield
  exact hfield.resolve_left hnot

theorem array_of_satisfies {items : Items}
    (h : satisfies N (.mk types allOf anyOf oneOf properties required additional items)
      (Value.array id values).plain = true) :
    satisfiesItems N items (Value.plainItems values) = true := by
  unfold satisfies at h
  simp only [Bool.and_eq_true] at h
  exact h.2.2.2.2

theorem leaves_forItems (hf : ∀ value ∈ values, Leaves f value) : Leaves (forItems f) values := by
  induction values with
  | nil => exact fun h => ⟨h, rfl⟩
  | cons value values ih =>
    intro h
    obtain ⟨h', hvalue⟩ := hf value List.mem_cons_self h
    obtain ⟨h'', hvalues⟩ := ih (fun value hmem => hf value (List.mem_cons_of_mem _ hmem)) h'
    rw [forItems, hvalue]
    dsimp only
    rw [hvalues]
    exact ⟨h'', rfl⟩

mutual
/-- **Nothing is dropped from what satisfies its schema.** -/
theorem leaves_normalize : ∀ (schema : Schema) (value : Value Nat ν),
    satisfies N schema value.plain = true → Leaves (normalizeOptionalNulls N schema) value
  | .mk types allOf anyOf oneOf properties required additional items, value, hsatisfies => by
    intro h
    cases value with
    | array id values =>
      obtain ⟨h', heq⟩ := leaves_normalizeItems items values (array_of_satisfies hsatisfies) h
      rw [normalizeOptionalNulls, heq]
      exact ⟨h', rfl⟩
    | object id fields =>
      obtain ⟨h', heq⟩ :=
        leaves_normalizeProperties properties required id fields (object_of_satisfies hsatisfies).1 h
      rw [normalizeOptionalNulls, heq]
      exact ⟨h', rfl⟩
    | _ => exact ⟨h, rfl⟩

theorem leaves_normalizeItems : ∀ (items : Items) (values : List (Value Nat ν)),
    satisfiesItems N items (Value.plainItems values) = true → Leaves (normalizeItems N items) values
  | .absent, _, _ => fun h => ⟨h, rfl⟩
  | .each schema, _, hsatisfies =>
    leaves_forItems fun value hmem =>
      leaves_normalize schema value (List.all_eq_true.mp hsatisfies _ (mem_plainItems hmem))
  | .tuple schemas, values, hsatisfies => leaves_normalizeTuple schemas values hsatisfies

theorem leaves_normalizeTuple : ∀ (schemas : Schemas) (values : List (Value Nat ν)),
    satisfiesTuple N schemas (Value.plainItems values) = true → Leaves (normalizeTuple N schemas) values
  | .nil, _, _ => fun h => ⟨h, rfl⟩
  | .cons _ _, [], _ => fun h => ⟨h, rfl⟩
  | .cons schema schemas, value :: values, hsatisfies => by
    rw [Value.plainItems, satisfiesTuple, Bool.and_eq_true] at hsatisfies
    intro h
    obtain ⟨h', hvalue⟩ := leaves_normalize schema value hsatisfies.1 h
    obtain ⟨h'', hvalues⟩ := leaves_normalizeTuple schemas values hsatisfies.2 h'
    rw [normalizeTuple, hvalue]
    dsimp only
    rw [hvalues]
    exact ⟨h'', rfl⟩

theorem leaves_normalizeProperties : ∀ (properties : Properties) (required : List String) (id : Nat)
    (fields : List (String × Value Nat ν)),
    satisfiesProperties N properties (Value.plainFields fields) = true →
      Leaves (normalizeProperties N properties required id) fields
  | .nil, _, _, _, _ => fun h => ⟨h, rfl⟩
  | .cons key schema properties, required, id, fields, hsatisfies => by
    rw [satisfiesProperties, lookup_plainFields, Bool.and_eq_true] at hsatisfies
    have hrest := leaves_normalizeProperties properties required id fields hsatisfies.2
    intro h
    rw [normalizeProperties]
    split
    next => exact hrest h
    next hlookup =>
      -- The null is what its schema asks for, and is not deleted.
      rw [hlookup] at hsatisfies
      have hnull : satisfies N schema .null = true := hsatisfies.1
      rw [hnull, Bool.not_true, Bool.and_false, if_neg Bool.false_ne_true]
      exact hrest h
    next value _ hlookup =>
      rw [hlookup] at hsatisfies
      obtain ⟨h', hvalue⟩ := leaves_normalize schema value hsatisfies.1 h
      rw [hvalue]
      dsimp only
      rw [setKey_lookup hlookup]
      exact hrest h'
end

/-! ## Kinds of values -/

/-- Arrays with as many items, objects, or other values -/
def SameShape : Value Nat ν → Value Nat ν → Prop
  | .array _ values, .array _ values' => values'.length = values.length
  | .object _ _, .object _ _ => True
  | value, value' => value.isObject = false ∧ value'.isObject = false

theorem SameShape.refl (value : Value Nat ν) : SameShape value value := by
  cases value with
  | array id values => exact rfl
  | object id fields => trivial
  | _ => exact ⟨rfl, rfl⟩

theorem SameShape.isObject (h : SameShape value value') : value'.isObject = value.isObject := by
  cases value with
  | array id values =>
    cases value' with
    | array id' values' => rfl
    | _ => cases h.1
  | object id fields =>
    cases value' with
    | object id' fields' => rfl
    | _ => cases h.1
  | _ => exact h.2

theorem sameShape_of_not_isObject (h : value.isObject = false) (h' : value'.isObject = false) :
    SameShape value value' := by
  cases value with
  | array id values => cases h
  | object id fields => cases h
  | _ => exact ⟨rfl, h'⟩

theorem SameShape.trans {value'' : Value Nat ν} (h : SameShape value value') (h' : SameShape value' value'') :
    SameShape value value'' := by
  cases value with
  | array id values =>
    cases value' with
    | array id' values' =>
      cases value'' with
      | array id'' values'' => exact Eq.trans h' h
      | _ => cases h'.1
    | _ => cases h.1
  | object id fields =>
    cases value' with
    | object id' fields' =>
      cases value'' with
      | object id'' fields'' => trivial
      | _ => cases h'.1
    | _ => cases h.1
  | _ =>
    have hvalue'' := h'.isObject.trans h.isObject
    cases value'' with
    | array id'' values'' => cases hvalue''
    | object id'' fields'' => cases hvalue''
    | _ => exact ⟨rfl, rfl⟩

theorem length_cloneItems (values : List (Value Nat ν)) (h : Heap) :
    (Value.cloneItems values h).1.length = values.length := by
  induction values generalizing h with
  | nil => rfl
  | cons value values ih =>
    rw [Value.cloneItems]
    exact congrArg (· + 1) (ih _)

theorem sameShape_clone (value : Value Nat ν) (h : Heap) : SameShape value (value.clone h).1 := by
  cases value with
  | array id values => exact length_cloneItems values _
  | object id fields => trivial
  | _ => exact ⟨rfl, rfl⟩

theorem length_mapItems (f : Value Nat ν → Heap → Value Nat ν × Heap) (id : Nat)
    (values : List (Value Nat ν)) (h : Heap) : (mapItems f id values h).1.length = values.length := by
  induction values generalizing h with
  | nil => rfl
  | cons value values ih =>
    rw [mapItems]
    exact congrArg (· + 1) (ih _)

theorem clone_primitive (hnot : value.isObject = false) (h : Heap) : value.clone h = (value, h) := by
  cases value with
  | array id values => cases hnot
  | object id fields => cases hnot
  | _ => rfl

theorem normalize_primitive (hnot : value.isObject = false) (schema : Schema) (h : Heap) :
    normalizeOptionalNulls N schema value h = (value, h) := by
  cases schema
  cases value with
  | array id values => cases hnot
  | object id fields => cases hnot
  | _ => rfl

theorem isObject_normalize (schema : Schema) (value : Value Nat ν) (h : Heap) :
    (normalizeOptionalNulls N schema value h).1.isObject = value.isObject := by
  cases schema
  cases value <;> rfl

theorem fresh_identity (howned : Owned base value) (hfresh : Fresh base h) :
    Fresh base ((identity value).elim h h.write) := by
  cases value with
  | array id values => exact hfresh.write (owned_array.mp howned).1
  | object id fields => exact hfresh.write (owned_object.mp howned).1
  | _ => exact hfresh

/-! ## Fields -/

mutual
theorem fieldCount_plain : ∀ value : Value Nat ν, value.plain.fieldCount = value.fieldCount
  | .null => rfl
  | .bool _ => rfl
  | .number _ => rfl
  | .string _ => rfl
  | .inherited _ => rfl
  | .array _ values => fieldCount_plainItems values
  | .object _ fields => fieldCount_plainFields fields

theorem fieldCount_plainItems : ∀ values : List (Value Nat ν),
    Value.fieldCountItems (Value.plainItems values) = Value.fieldCountItems values
  | [] => rfl
  | value :: values => congrArg₂ (· + ·) (fieldCount_plain value) (fieldCount_plainItems values)

theorem fieldCount_plainFields : ∀ fields : List (String × Value Nat ν),
    Value.fieldCountFields (Value.plainFields fields) = Value.fieldCountFields fields
  | [] => rfl
  | (_, value) :: fields =>
    congrArg (1 + ·) (congrArg₂ (· + ·) (fieldCount_plain value) (fieldCount_plainFields fields))
end

theorem fieldCount_clone (value : Value Nat ν) (h : Heap) : (value.clone h).1.fieldCount = value.fieldCount := by
  rw [← fieldCount_plain, plain_clone, fieldCount_plain]

theorem fieldCount_of_not_isObject (h : value.isObject = false) : value.fieldCount = 0 := by
  cases value with
  | array id values => cases h
  | object id fields => cases h
  | _ => rfl

theorem fieldCount_setKey (h : fields.lookup key = some value) (value' : Value Nat ν) :
    Value.fieldCountFields (setKey key value' fields) + value.fieldCount =
      Value.fieldCountFields fields + value'.fieldCount := by
  induction fields with
  | nil => cases h
  | cons field fields ih =>
    obtain ⟨key', first⟩ := field
    rw [List.lookup_cons] at h
    rw [setKey, Value.fieldCountFields]
    by_cases heq : key' = key
    · rw [beq_iff_eq.mpr heq.symm] at h
      obtain rfl := Option.some.inj h
      rw [if_pos heq, Value.fieldCountFields]
      omega
    · rw [beq_eq_false_iff_ne.mpr (Ne.symm heq)] at h
      have hrest := ih h
      rw [if_neg heq, Value.fieldCountFields]
      omega

theorem fieldCount_setKey_none (h : fields.lookup key = none) (value' : Value Nat ν) :
    Value.fieldCountFields (setKey key value' fields) = Value.fieldCountFields fields + (1 + value'.fieldCount) := by
  induction fields with
  | nil => exact (Nat.zero_add _).symm
  | cons field fields ih =>
    obtain ⟨key', first⟩ := field
    rw [List.lookup_cons] at h
    rw [setKey, Value.fieldCountFields]
    by_cases heq : key' = key
    · rw [beq_iff_eq.mpr heq.symm] at h
      cases h
    · rw [beq_eq_false_iff_ne.mpr (Ne.symm heq)] at h
      have hrest := ih h
      rw [if_neg heq, Value.fieldCountFields]
      omega

/-- An array stays one and an object stays one, and no field is lost. -/
structure Extends (value value' : Value Nat ν) : Prop where
  shape : SameShape value value'
  fields : value.fieldCount ≤ value'.fieldCount

theorem Extends.refl (value : Value Nat ν) : Extends value value := ⟨SameShape.refl value, Nat.le_refl _⟩

theorem Extends.trans {value'' : Value Nat ν} (h : Extends value value') (h' : Extends value' value'') :
    Extends value value'' :=
  ⟨h.shape.trans h'.shape, Nat.le_trans h.fields h'.fields⟩

theorem extends_clone (value : Value Nat ν) (h : Heap) : Extends value (value.clone h).1 :=
  ⟨sameShape_clone value h, Nat.le_of_eq (fieldCount_clone value h).symm⟩

theorem extends_of_not_isObject (h : value.isObject = false) (h' : value'.isObject = false) : Extends value value' := by
  refine ⟨sameShape_of_not_isObject h h', ?_⟩
  rw [fieldCount_of_not_isObject h]
  exact Nat.zero_le _

/-- Each value is extended. -/
def Grows (f : Value Nat ν → Heap → Value Nat ν × Heap) : Prop := ∀ value h, Extends value (f value h).1

theorem grows_mapFields (hf : Grows f) (skip : String → Bool)
    (id : Nat) (fields : List (String × Value Nat ν)) (h : Heap) :
    Value.fieldCountFields fields ≤ Value.fieldCountFields (mapFields f skip id fields h).1 := by
  induction fields generalizing h with
  | nil => exact Nat.le_refl _
  | cons field fields ih =>
    obtain ⟨key, value⟩ := field
    rw [mapFields]
    split
    · have hrest := ih h
      dsimp only [Value.fieldCountFields]
      omega
    · have hvalue := (hf value h).fields
      have hrest := ih ((f value h).2.write id)
      dsimp only [Value.fieldCountFields]
      omega

theorem grows_mapItems (hf : Grows f) (id : Nat) (values : List (Value Nat ν)) (h : Heap) :
    Value.fieldCountItems values ≤ Value.fieldCountItems (mapItems f id values h).1 := by
  induction values generalizing h with
  | nil => exact Nat.le_refl _
  | cons value values ih =>
    have hvalue := (hf value h).fields
    have hrest := ih ((f value h).2.write id)
    rw [mapItems]
    dsimp only [Value.fieldCountItems]
    omega

theorem grows_union {candidates : Value Nat ν → Heap → Value Nat ν × Heap} (hf : Grows candidates)
    (schemas : Schemas) : Grows (coerceWithUnionSchema N candidates schemas) := by
  intro value h
  unfold coerceWithUnionSchema
  split
  · exact Extends.refl value
  · exact hf value h

/-- What is assigned has all fields of what it is assigned from. -/
theorem fieldCount_assign {coerced : Value Nat ν} (hobject : value.isObject = true)
    (hshape : SameShape value coerced) : (assign value coerced).fieldCount = coerced.fieldCount := by
  cases value with
  | array id values =>
    cases coerced with
    | array id' values' => rfl
    | _ => cases hshape.1
  | object id fields =>
    cases coerced with
    | object id' fields' => rfl
    | _ => cases hshape.1
  | _ => cases hobject

/-! ## What is added to -/

/-- A value has been added to, or is as it was. -/
def Moves {α : Type} (size : α → Nat) (value value' : α) : Bool → Prop
  | true => size value < size value'
  | false => value' = value

section Moves

variable {α β : Type} {size : α → Nat} {size' : β → Nat} {x x' x'' : α} {adds adds' : Bool}

theorem Moves.trans (h : Moves size x x' adds) (h' : adds = false → x' = x → Moves size x' x'' adds')
    (hgrows : size x' ≤ size x'') : Moves size x x'' (adds || adds') := by
  cases adds with
  | true => exact Nat.lt_of_lt_of_le h hgrows
  | false =>
    obtain rfl : x' = x := h
    exact h' rfl rfl

theorem Moves.map (h : Moves size x x' adds) (f : α → β)
    (hf : ∀ x x', size x < size x' → size' (f x) < size' (f x')) : Moves size' (f x) (f x') adds := by
  cases adds with
  | true => exact hf x x' h
  | false => exact congrArg f h

end Moves

theorem Moves.setKey {adds : Bool} (h : Moves Value.fieldCount value value' adds)
    (hlookup : fields.lookup key = some value) :
    Moves Value.fieldCountFields fields (setKey key value' fields) adds := by
  cases adds with
  | true =>
    have hlt : value.fieldCount < value'.fieldCount := h
    have hset := fieldCount_setKey hlookup value'
    show Value.fieldCountFields fields < _
    omega
  | false =>
    obtain rfl : value' = value := h
    exact setKey_lookup hlookup

theorem moves_items_cons {adds adds' : Bool} {values' : List (Value Nat ν)}
    (h : Moves Value.fieldCount value value' adds) (h' : Moves Value.fieldCountItems values values' adds')
    (hgrows : Value.fieldCountItems values ≤ Value.fieldCountItems values') :
    Moves Value.fieldCountItems (value :: values) (value' :: values') (adds || adds') := by
  refine Moves.trans (h.map (· :: values) fun _ _ hlt => Nat.add_lt_add_right hlt _) (fun _ _ => ?_)
    (Nat.add_le_add_left hgrows _)
  exact h'.map (value' :: ·) fun _ _ hlt => Nat.add_lt_add_left hlt _

theorem moves_fields_cons {adds adds' : Bool} {fields' : List (String × Value Nat ν)}
    (h : Moves Value.fieldCount value value' adds) (h' : Moves Value.fieldCountFields fields fields' adds')
    (hgrows : Value.fieldCountFields fields ≤ Value.fieldCountFields fields') :
    Moves Value.fieldCountFields ((key, value) :: fields) ((key, value') :: fields') (adds || adds') := by
  refine Moves.trans (h.map (fun x => (key, x) :: fields) fun _ _ hlt => ?_) (fun _ _ => ?_)
    (Nat.add_le_add_left (Nat.add_le_add_left hgrows _) _)
  · exact Nat.add_lt_add_left (Nat.add_lt_add_right hlt _) _
  · exact h'.map ((key, value') :: ·) fun _ _ hlt => Nat.add_lt_add_left (Nat.add_lt_add_left hlt _) _

theorem moves_mapFields (skip : String → Bool) {adds : Value Unit ν → Bool} (hf : Grows f) (id : Nat)
    (hmoves : ∀ field ∈ fields, skip field.1 = false → ∀ h, Moves Value.fieldCount field.2 (f field.2 h).1
      (adds field.2.plain)) (h : Heap) :
    Moves Value.fieldCountFields fields (mapFields f skip id fields h).1
      ((Value.plainFields fields).any fun field => !skip field.1 && adds field.2) := by
  induction fields generalizing h with
  | nil => exact rfl
  | cons field fields ih =>
    obtain ⟨key, value⟩ := field
    have hrest := ih fun field hmem => hmoves field (List.mem_cons_of_mem _ hmem)
    rw [mapFields, Value.plainFields, List.any_cons]
    cases hskip : skip key with
    | true =>
      have hvalue : Moves Value.fieldCount value value false := rfl
      rw [if_pos rfl]
      exact moves_fields_cons hvalue (hrest h) (grows_mapFields hf skip id fields h)
    | false =>
      rw [if_neg Bool.false_ne_true]
      exact moves_fields_cons (hmoves _ List.mem_cons_self hskip h) (hrest _) (grows_mapFields hf skip id fields _)

theorem moves_mapItems {adds : Value Unit ν → Bool} (hf : Grows f) (id : Nat)
    (hmoves : ∀ value ∈ values, ∀ h, Moves Value.fieldCount value (f value h).1 (adds value.plain)) (h : Heap) :
    Moves Value.fieldCountItems values (mapItems f id values h).1 ((Value.plainItems values).any adds) := by
  induction values generalizing h with
  | nil => exact rfl
  | cons value values ih =>
    rw [Value.plainItems, List.any_cons]
    exact moves_items_cons (hmoves value List.mem_cons_self h)
      (ih (fun value hmem => hmoves value (List.mem_cons_of_mem _ hmem)) _) (grows_mapItems hf id values _)

/-! ## Primitive values -/

variable [DecidableEq ν]

/-- A coercion of primitives leaves an object what it is, and makes no object. -/
theorem coercePrimitive_cases (value : Value Nat ν) (type : JsonType) :
    coercePrimitiveByType N value type = value ∨
      value.isObject = false ∧ (coercePrimitiveByType N value type).isObject = false := by
  cases value with
  | array id values =>
    left
    cases type <;> rfl
  | object id fields =>
    left
    cases type <;> rfl
  | inherited name =>
    left
    cases type <;> rfl
  | null =>
    right
    cases type <;> exact ⟨rfl, rfl⟩
  | bool b =>
    right
    cases type <;> cases b <;> exact ⟨rfl, rfl⟩
  | number n =>
    right
    refine ⟨rfl, ?_⟩
    cases type <;> simp only [coercePrimitiveByType] <;> repeat' split
    all_goals rfl
  | string s =>
    right
    refine ⟨rfl, ?_⟩
    cases type with
    | number =>
      simp only [coercePrimitiveByType]
      split
      · rfl
      · cases N.ofText s <;> rfl
    | integer =>
      simp only [coercePrimitiveByType]
      split
      · rfl
      · cases N.ofText s with
        | none => rfl
        | some n =>
          show Value.isObject (if N.isInteger n then Value.number n else Value.string s) = false
          split <;> rfl
    | _ =>
      simp only [coercePrimitiveByType]
      repeat' split
      all_goals rfl

theorem coerceFirst_cases (value : Value Nat ν) (types : List JsonType) :
    coerceFirst N value types = value ∨ value.isObject = false ∧ (coerceFirst N value types).isObject = false := by
  induction types with
  | nil => exact .inl rfl
  | cons type types ih =>
    rw [coerceFirst]
    split
    · exact ih
    · exact coercePrimitive_cases value type

theorem coerceTypes_cases (types : List JsonType) (value : Value Nat ν) :
    coerceTypes N types value = value ∨ value.isObject = false ∧ (coerceTypes N types value).isObject = false := by
  unfold coerceTypes
  dsimp only
  split
  · exact coerceFirst_cases value types
  · exact .inl rfl

theorem local_coerceTypes (types : List JsonType) (h : Owned base value) : Owned base (coerceTypes N types value) := by
  rcases coerceTypes_cases (N := N) types value with heq | ⟨-, hnot⟩
  · rw [heq]
    exact h
  · exact owned_of_not_isObject hnot

mutual
/-- **Coercion writes to what it is given and to its clones.** -/
theorem local_coerce : ∀ schema : Schema, Local (coerceWithJsonSchema N schema)
  | .mk types allOf anyOf oneOf properties required additional items => by
    intro base value h howned hfresh
    obtain ⟨howned, hfresh⟩ := local_allOf allOf base value h howned hfresh
    obtain ⟨howned, hfresh⟩ := local_union (N := N) (local_candidates anyOf) anyOf base _ _ howned hfresh
    obtain ⟨howned, hfresh⟩ := local_union (N := N) (local_candidates oneOf) oneOf base _ _ howned hfresh
    have howned := local_coerceTypes (N := N) types howned
    rw [coerceWithJsonSchema]
    dsimp only
    split
    next id fields heq =>
      rw [heq] at howned
      obtain ⟨hid, hfields⟩ := owned_object.mp howned
      split
      · obtain ⟨hfields, hfresh⟩ := local_properties properties hid hfields hfresh
        obtain ⟨hfields, hfresh⟩ := local_additional additional properties.keys hid hfields hfresh
        exact ⟨owned_object.mpr ⟨hid, hfields⟩, hfresh⟩
      · exact ⟨howned, hfresh⟩
    next id values heq =>
      rw [heq] at howned
      obtain ⟨hid, hvalues⟩ := owned_array.mp howned
      split
      · obtain ⟨hvalues, hfresh⟩ := local_items items hid hvalues hfresh
        exact ⟨owned_array.mpr ⟨hid, hvalues⟩, hfresh⟩
      · exact ⟨howned, hfresh⟩
    next => exact ⟨howned, hfresh⟩

theorem local_allOf : ∀ schemas : Schemas, Local (coerceAllOf N schemas)
  | .nil => fun _ _ _ howned hfresh => ⟨howned, hfresh⟩
  | .cons schema schemas => by
    intro base value h howned hfresh
    obtain ⟨howned, hfresh⟩ := local_coerce schema base value h howned hfresh
    exact local_allOf schemas base _ _ howned hfresh

theorem local_candidates : ∀ schemas : Schemas, Local (coerceCandidates N schemas)
  | .nil => fun _ _ _ howned hfresh => ⟨howned, hfresh⟩
  | .cons schema schemas => by
    intro base value h howned hfresh
    obtain ⟨hclone, hfresh⟩ := fresh_clone value hfresh
    obtain ⟨hcoerced, hfresh⟩ := local_coerce schema base _ _ hclone hfresh
    rw [coerceCandidates]
    dsimp only
    split
    · exact ⟨hcoerced, hfresh⟩
    · exact local_candidates schemas base value _ howned hfresh

theorem local_properties : ∀ (properties : Properties) {base id : Nat}
    {fields : List (String × Value Nat ν)} {h : Heap}, base ≤ id → OwnedFields base fields → Fresh base h →
    OwnedFields base (coerceProperties N properties id fields h).1 ∧
      Fresh base (coerceProperties N properties id fields h).2
  | .nil, _, _, _, _, _, hfields, hfresh => ⟨hfields, hfresh⟩
  | .cons key schema properties, base, id, fields, h, hid, hfields, hfresh => by
    rw [coerceProperties]
    split
    next => exact local_properties properties hid hfields hfresh
    next value hget =>
      obtain ⟨hvalue, hfresh⟩ := local_coerce schema base value h (owned_getKey hfields hget) hfresh
      exact local_properties properties hid (owned_setKey hfields hvalue) (hfresh.write hid)

theorem local_additional : ∀ (additional : Additional) (definedKeys : List String) {base id : Nat}
    {fields : List (String × Value Nat ν)} {h : Heap}, base ≤ id → OwnedFields base fields → Fresh base h →
    OwnedFields base (coerceAdditional N additional definedKeys id fields h).1 ∧
      Fresh base (coerceAdditional N additional definedKeys id fields h).2
  | .absent, _, _, _, _, _, _, hfields, hfresh => ⟨hfields, hfresh⟩
  | .flag _, _, _, _, _, _, _, hfields, hfresh => ⟨hfields, hfresh⟩
  | .schema schema, definedKeys, _, _, _, _, hid, hfields, hfresh =>
    local_mapFields (local_coerce schema) (· ∈ definedKeys) hid hfields hfresh

theorem local_items : ∀ (items : Items) {base id : Nat} {values : List (Value Nat ν)} {h : Heap},
    base ≤ id → OwnedItems base values → Fresh base h →
    OwnedItems base (coerceItems N items id values h).1 ∧ Fresh base (coerceItems N items id values h).2
  | .absent, _, _, _, _, _, hvalues, hfresh => ⟨hvalues, hfresh⟩
  | .each schema, _, _, _, _, hid, hvalues, hfresh =>
    local_mapItems (local_coerce schema) hid hvalues hfresh
  | .tuple schemas, _, _, _, _, hid, hvalues, hfresh => local_tuple schemas hid hvalues hfresh

theorem local_tuple : ∀ (schemas : Schemas) {base id : Nat} {values : List (Value Nat ν)} {h : Heap},
    base ≤ id → OwnedItems base values → Fresh base h →
    OwnedItems base (coerceTuple N schemas id values h).1 ∧ Fresh base (coerceTuple N schemas id values h).2
  | .nil, _, _, _, _, _, hvalues, hfresh => ⟨hvalues, hfresh⟩
  | .cons _ _, _, _, [], _, _, hvalues, hfresh => ⟨hvalues, hfresh⟩
  | .cons schema schemas, base, _, value :: values, h, hid, hvalues, hfresh => by
    obtain ⟨hvalue, hvalues⟩ := ownedItems_cons.mp hvalues
    obtain ⟨hvalue, hfresh⟩ := local_coerce schema base value h hvalue hfresh
    obtain ⟨hvalues, hfresh⟩ := local_tuple schemas hid hvalues (hfresh.write hid)
    exact ⟨ownedItems_cons.mpr ⟨hvalue, hvalues⟩, hfresh⟩
end

/-! ## What coercion keeps -/

theorem extends_coerceTypes (types : List JsonType) (value : Value Nat ν) :
    Extends value (coerceTypes N types value) := by
  rcases coerceTypes_cases (N := N) types value with heq | ⟨hnot, hnot'⟩
  · rw [heq]
    exact Extends.refl value
  · exact extends_of_not_isObject hnot hnot'

theorem length_coerceTuple : ∀ (schemas : Schemas) (id : Nat) (values : List (Value Nat ν)) (h : Heap),
    (coerceTuple N schemas id values h).1.length = values.length
  | .nil, _, _, _ => rfl
  | .cons _ _, _, [], _ => rfl
  | .cons _ schemas, id, _ :: values, _ => congrArg (· + 1) (length_coerceTuple schemas id values _)

theorem length_coerceItems (items : Items) (id : Nat) (values : List (Value Nat ν)) (h : Heap) :
    (coerceItems N items id values h).1.length = values.length := by
  cases items with
  | absent => rfl
  | each schema => exact length_mapItems _ id values h
  | tuple schemas => exact length_coerceTuple schemas id values h

mutual
/-- **Coercion makes an array of an array and an object of an object, and loses no field.** -/
theorem grows_coerce : ∀ schema : Schema, Grows (coerceWithJsonSchema N schema)
  | .mk types allOf anyOf oneOf properties required additional items => by
    intro value h
    have hall := grows_allOf allOf value h
    have hany := grows_union (N := N) (grows_candidates anyOf) anyOf
      (coerceAllOf N allOf value h).1 (coerceAllOf N allOf value h).2
    rw [coerceWithJsonSchema]
    dsimp only
    generalize coerceAllOf N allOf value h = first at hall hany ⊢
    generalize coerceWithUnionSchema N (fun value h => coerceCandidates N anyOf value h) anyOf first.1
      first.2 = second at hany ⊢
    have hone := grows_union (N := N) (grows_candidates oneOf) oneOf second.1 second.2
    generalize coerceWithUnionSchema N (fun value h => coerceCandidates N oneOf value h) oneOf second.1
      second.2 = third at hone ⊢
    have hbefore := (hall.trans (hany.trans hone)).trans (extends_coerceTypes (N := N) types third.1)
    split
    next id fields heq =>
      rw [heq] at hbefore
      split
      · have hproperties := grows_properties properties id fields third.2
        have hadditional := grows_additional additional properties.keys id
          (coerceProperties N properties id fields third.2).1 (coerceProperties N properties id fields third.2).2
        exact hbefore.trans ⟨trivial, Nat.le_trans hproperties hadditional⟩
      · exact hbefore
    next id values heq =>
      rw [heq] at hbefore
      split
      · exact hbefore.trans ⟨length_coerceItems items id values _, grows_items items id values third.2⟩
      · exact hbefore
    next => exact hbefore

theorem grows_allOf : ∀ schemas : Schemas, Grows (coerceAllOf N schemas)
  | .nil => fun value _ => Extends.refl value
  | .cons schema schemas => fun value h => (grows_coerce schema value h).trans (grows_allOf schemas _ _)

theorem grows_candidates : ∀ schemas : Schemas, Grows (coerceCandidates N schemas)
  | .nil => fun value _ => Extends.refl value
  | .cons schema schemas => by
    intro value h
    rw [coerceCandidates]
    dsimp only
    split
    · exact (extends_clone value h).trans (grows_coerce schema _ _)
    · exact grows_candidates schemas value _

theorem grows_properties : ∀ (properties : Properties) (id : Nat) (fields : List (String × Value Nat ν))
    (h : Heap), Value.fieldCountFields fields ≤ Value.fieldCountFields (coerceProperties N properties id fields h).1
  | .nil, _, _, _ => Nat.le_refl _
  | .cons key schema properties, id, fields, h => by
    rw [coerceProperties]
    cases hlookup : fields.lookup key with
    | some value =>
      rw [getKey_own hlookup]
      have hvalue := (grows_coerce schema value h).fields
      have hset := fieldCount_setKey hlookup (coerceWithJsonSchema N schema value h).1
      exact Nat.le_trans (by omega) (grows_properties properties id _ _)
    | none =>
      by_cases hproto : key ∈ OBJECT_PROTOTYPE
      · rw [getKey_inherited hlookup hproto]
        have hset := fieldCount_setKey_none hlookup (coerceWithJsonSchema N schema (.inherited key) h).1
        exact Nat.le_trans (by omega) (grows_properties properties id _ _)
      · rw [getKey_none hlookup hproto]
        exact grows_properties properties id fields h

theorem grows_additional : ∀ (additional : Additional) (definedKeys : List String) (id : Nat)
    (fields : List (String × Value Nat ν)) (h : Heap), Value.fieldCountFields fields ≤
      Value.fieldCountFields (coerceAdditional N additional definedKeys id fields h).1
  | .absent, _, _, _, _ => Nat.le_refl _
  | .flag _, _, _, _, _ => Nat.le_refl _
  | .schema schema, definedKeys, id, fields, h =>
    grows_mapFields (grows_coerce schema) (fun key => decide (key ∈ definedKeys)) id fields h

theorem grows_items : ∀ (items : Items) (id : Nat) (values : List (Value Nat ν)) (h : Heap),
    Value.fieldCountItems values ≤ Value.fieldCountItems (coerceItems N items id values h).1
  | .absent, _, _, _ => Nat.le_refl _
  | .each schema, id, values, h => grows_mapItems (grows_coerce schema) id values h
  | .tuple schemas, id, values, h => grows_tuple schemas id values h

theorem grows_tuple : ∀ (schemas : Schemas) (id : Nat) (values : List (Value Nat ν)) (h : Heap),
    Value.fieldCountItems values ≤ Value.fieldCountItems (coerceTuple N schemas id values h).1
  | .nil, _, _, _ => Nat.le_refl _
  | .cons _ _, _, [], _ => Nat.le_refl _
  | .cons schema schemas, id, value :: values, h => by
    have hvalue := (grows_coerce schema value h).fields
    have hrest := grows_tuple schemas id values ((coerceWithJsonSchema N schema value h).2.write id)
    rw [coerceTuple]
    dsimp only [Value.fieldCountItems]
    omega
end

/-! ## Coercion of what satisfies its schema -/

theorem coercePrimitive_of_matches {type : JsonType} (h : matchesJsonType N value type = true) :
    coercePrimitiveByType N value type = value := by
  cases type <;> cases value <;> first | rfl | cases h

theorem coerceTypes_of_matches
    (h : types = [] ∨ types.any (matchesJsonType N value) = true) : coerceTypes N types value = value := by
  unfold coerceTypes
  dsimp only
  split
  next hcoerces =>
    rw [Bool.and_eq_true, decide_eq_true_eq, Bool.not_eq_true'] at hcoerces
    obtain ⟨hlength, hnot⟩ := hcoerces
    have hany : types.any (matchesJsonType N value) = true :=
      h.resolve_left (List.length_pos_iff.mp hlength)
    rw [hany, Bool.and_true, decide_eq_false_iff_not] at hnot
    obtain ⟨type, rfl⟩ := List.length_eq_one_iff.mp (by omega : types.length = 1)
    have hmatches : matchesJsonType N value type = true := by simpa using hany
    rw [coerceFirst, coercePrimitive_of_matches hmatches]
    split
    · rfl
    · rfl
  next => rfl

/-- A union that a value satisfies leaves it as it is. -/
theorem union_satisfied {schemas : Schemas} (h : schemas = .nil ∨ satisfiesSome N schemas value.plain = true)
    (heap : Heap) :
    coerceWithUnionSchema N (fun value h => coerceCandidates N schemas value h) schemas value heap = (value, heap) := by
  rcases h with rfl | hsome
  · rfl
  · exact if_pos hsome

mutual
/-- **What satisfies its schema is not coerced, but an inherited function becomes a field.** -/
theorem moves_coerce : ∀ (schema : Schema) (value : Value Nat ν), satisfies N schema value.plain = true → ∀ h,
    Moves Value.fieldCount value (coerceWithJsonSchema N schema value h).1 (schema.inherits value.plain)
  | .mk types allOf anyOf oneOf properties required additional items, value, hsatisfies, h => by
    obtain ⟨htypes, hall, hany, hone⟩ := parts_of_satisfies hsatisfies
    have hgrows := grows_coerce (N := N) (.mk types .nil anyOf oneOf properties required additional items)
      (coerceAllOf N allOf value h).1 (coerceAllOf N allOf value h).2
    refine Moves.trans (moves_allOf allOf value hall h) (fun _ heq => ?_) (Nat.le_trans hgrows.fields (Nat.le_of_eq ?_))
    · rw [coerceWithJsonSchema]
      dsimp only
      rw [heq, union_satisfied hany]
      rw [union_satisfied hone]
      rw [coerceTypes_of_matches htypes]
      cases value with
      | array id values =>
        dsimp only [Value.plain]
        by_cases htype : .array ∈ types
        · rw [if_pos htype, decide_eq_true htype, Bool.true_and]
          exact (moves_items items id values (array_of_satisfies hsatisfies) _).map (Value.array id) fun _ _ hlt => hlt
        · rw [if_neg htype, decide_eq_false htype, Bool.false_and]
          exact rfl
      | object id fields =>
        obtain ⟨hdeclared, hothers⟩ := object_of_satisfies hsatisfies
        dsimp only [Value.plain]
        by_cases htype : .object ∈ types
        · rw [if_pos htype, decide_eq_true htype, Bool.true_and]
          refine Moves.map (Moves.trans (moves_properties properties id fields hdeclared _) (fun _ heq => ?_)
            (grows_additional additional properties.keys id _ _)) (Value.object id) fun _ _ hlt => hlt
          rw [heq]
          exact moves_additional additional properties.keys id fields hothers _
        · rw [if_neg htype, decide_eq_false htype, Bool.false_and]
          exact rfl
      | _ => exact rfl
    · rw [coerceWithJsonSchema, coerceWithJsonSchema]
      rfl

theorem moves_allOf : ∀ (schemas : Schemas) (value : Value Nat ν), satisfiesAll N schemas value.plain = true → ∀ h,
    Moves Value.fieldCount value (coerceAllOf N schemas value h).1 (schemas.inherits value.plain)
  | .nil, _, _, _ => rfl
  | .cons schema schemas, value, hsatisfies, h => by
    rw [satisfiesAll, Bool.and_eq_true] at hsatisfies
    refine Moves.trans (moves_coerce schema value hsatisfies.1 h) (fun _ heq => ?_) (grows_allOf schemas _ _).fields
    rw [coerceAllOf]
    dsimp only
    rw [heq]
    exact moves_allOf schemas value hsatisfies.2 _

theorem moves_properties : ∀ (properties : Properties) (id : Nat) (fields : List (String × Value Nat ν)),
    satisfiesProperties N properties (Value.plainFields fields) = true → ∀ h,
      Moves Value.fieldCountFields fields (coerceProperties N properties id fields h).1
        (properties.inherits (Value.plainFields fields))
  | .nil, _, _, _, _ => rfl
  | .cons key schema properties, id, fields, hsatisfies, h => by
    rw [satisfiesProperties, lookup_plainFields, Bool.and_eq_true] at hsatisfies
    have hrest := moves_properties properties id fields hsatisfies.2
    rw [coerceProperties, Properties.inherits, lookup_plainFields]
    cases hlookup : fields.lookup key with
    | some value =>
      rw [hlookup] at hsatisfies
      rw [getKey_own hlookup]
      refine Moves.trans ((moves_coerce schema value hsatisfies.1 h).setKey hlookup) (fun _ heq => ?_)
        (grows_properties properties id _ _)
      dsimp only
      rw [heq]
      exact hrest _
    | none =>
      by_cases hproto : key ∈ OBJECT_PROTOTYPE
      · rw [getKey_inherited hlookup hproto]
        have hset := fieldCount_setKey_none hlookup (coerceWithJsonSchema N schema (.inherited key) h).1
        dsimp only [Option.map_none]
        rw [decide_eq_true hproto]
        exact Nat.lt_of_lt_of_le (by omega) (grows_properties properties id _ _)
      · rw [getKey_none hlookup hproto]
        dsimp only [Option.map_none]
        rw [decide_eq_false hproto]
        exact hrest h

theorem moves_additional : ∀ (additional : Additional) (definedKeys : List String) (id : Nat)
    (fields : List (String × Value Nat ν)),
    (∀ field ∈ fields, field.1 ∉ definedKeys → satisfiesAdditional N additional field.2.plain = true) → ∀ h,
      Moves Value.fieldCountFields fields (coerceAdditional N additional definedKeys id fields h).1
        (additional.inherits definedKeys (Value.plainFields fields))
  | .absent, _, _, _, _, _ => rfl
  | .flag _, _, _, _, _, _ => rfl
  | .schema schema, definedKeys, id, fields, hsatisfies, h => by
    have hmoves := moves_mapFields (fun key => decide (key ∈ definedKeys)) (grows_coerce (N := N) schema) id
      (fun field hmem hskip => moves_coerce schema field.2 (hsatisfies field hmem (of_decide_eq_false hskip))) h
    simp only [Additional.inherits, decide_not]
    exact hmoves

theorem moves_items : ∀ (items : Items) (id : Nat) (values : List (Value Nat ν)),
    satisfiesItems N items (Value.plainItems values) = true → ∀ h,
      Moves Value.fieldCountItems values (coerceItems N items id values h).1 (items.inherits (Value.plainItems values))
  | .absent, _, _, _, _ => rfl
  | .each schema, id, _, hsatisfies, h =>
    moves_mapItems (grows_coerce schema) id (fun value hmem =>
      moves_coerce schema value (List.all_eq_true.mp hsatisfies _ (mem_plainItems hmem))) h
  | .tuple schemas, id, values, hsatisfies, h => moves_tuple schemas id values hsatisfies h

theorem moves_tuple : ∀ (schemas : Schemas) (id : Nat) (values : List (Value Nat ν)),
    satisfiesTuple N schemas (Value.plainItems values) = true → ∀ h,
      Moves Value.fieldCountItems values (coerceTuple N schemas id values h).1
        (schemas.inheritsTuple (Value.plainItems values))
  | .nil, _, _, _, _ => rfl
  | .cons _ _, _, [], _, _ => rfl
  | .cons schema schemas, id, value :: values, hsatisfies, h => by
    rw [Value.plainItems, satisfiesTuple, Bool.and_eq_true] at hsatisfies
    rw [coerceTuple, Value.plainItems, Schemas.inheritsTuple]
    exact moves_items_cons (moves_coerce schema value hsatisfies.1 h) (moves_tuple schemas id values hsatisfies.2 _)
      (grows_tuple schemas id values _)
end

/-! ## Validation -/

theorem strictEq_refl (value : Value Nat ν) : value.strictEq value = true := by
  cases value with
  | null => rfl
  | _ => exact decide_eq_true rfl

variable {convert : Value Nat ν → Heap → Value Nat ν × Heap} {parameters : Schema} {arguments : Value Nat ν}

section

variable (hconvert : Converts N convert parameters)
include hconvert

/-- **The arguments of the call are not written to.** -/
theorem fresh_validate (hwritten : h.written = []) :
    Fresh h.next (validateToolArguments N convert false parameters arguments h).2 := by
  have hstart : Fresh h.next h := ⟨Nat.le_refl _, by rw [hwritten]; nofun⟩
  obtain ⟨howned, hfresh⟩ := fresh_clone arguments hstart
  obtain ⟨howned, hfresh⟩ := local_normalize (N := N) parameters _ _ _ howned hfresh
  obtain ⟨howned, hfresh⟩ := hconvert.inPlace _ _ _ howned hfresh
  obtain ⟨-, hcoerced⟩ := local_coerce (N := N) parameters _ _ _ howned hfresh
  unfold validateToolArguments
  dsimp only
  rw [if_neg Bool.false_ne_true]
  split
  · exact hcoerced
  · split
    · exact fresh_identity howned hcoerced
    · split
      · exact hcoerced
      · exact hcoerced

/-- What is no object is not changed before it is coerced. -/
theorem validate_primitive (hnot : arguments.isObject = false) :
    (validateToolArguments N convert false parameters arguments h).1 =
      let coerced := (coerceWithJsonSchema N parameters arguments h).1
      if coerced.strictEq arguments then
        if satisfies N parameters coerced.plain then some coerced else none
      else if satisfies N parameters coerced.plain then some coerced
      else some arguments := by
  unfold validateToolArguments
  rw [clone_primitive hnot]
  dsimp only
  rw [normalize_primitive hnot]
  rw [hconvert.primitive _ _ hnot]
  rw [if_neg Bool.false_ne_true, hnot, Bool.false_and, if_neg Bool.false_ne_true]
  split
  · rfl
  · split
    · rfl
    · rfl

theorem conservative_validate
    (hown : parameters.inherits arguments.plain = false)
    (hsatisfies : satisfies N parameters arguments.plain = true) :
    ∃ value, (validateToolArguments N convert false parameters arguments h).1 = some value ∧
      value.plain = arguments.plain := by
  have hplain := plain_clone arguments h
  unfold validateToolArguments
  generalize arguments.clone h = cloned at hplain ⊢
  rw [← hplain] at hsatisfies hown
  obtain ⟨h₁, hnormalize⟩ := leaves_normalize parameters cloned.1 hsatisfies cloned.2
  obtain ⟨h₂, hconverted⟩ := hconvert.satisfied cloned.1 hsatisfies h₁
  have hcoerced := moves_coerce parameters cloned.1 hsatisfies h₂
  rw [hown] at hcoerced
  have hcoerced : (coerceWithJsonSchema N parameters cloned.1 h₂).1 = cloned.1 := hcoerced
  dsimp only
  rw [hnormalize]
  rw [hconverted]
  rw [if_neg Bool.false_ne_true, hcoerced, if_pos (strictEq_refl _), if_pos hsatisfies]
  exact ⟨cloned.1, rfl, hplain⟩

theorem sound_validate (hobject : arguments.isObject = true)
    {value : Value Nat ν}
    (hvalue : (validateToolArguments N convert false parameters arguments h).1 = some value) :
    satisfies N parameters value.plain = true := by
  unfold validateToolArguments at hvalue
  dsimp only at hvalue
  have hargs : ((convert (normalizeOptionalNulls N parameters (arguments.clone h).1 (arguments.clone h).2).1
      (normalizeOptionalNulls N parameters (arguments.clone h).1 (arguments.clone h).2).2).1).isObject =
        true := by
    rw [hconvert.isObject, isObject_normalize, (sameShape_clone arguments h).isObject, hobject]
  generalize convert (normalizeOptionalNulls N parameters (arguments.clone h).1 (arguments.clone h).2).1
    (normalizeOptionalNulls N parameters (arguments.clone h).1 (arguments.clone h).2).2 = args at hargs hvalue
  have hcoerced := (grows_coerce (N := N) parameters args.1 args.2).shape.isObject
  rw [hargs] at hcoerced
  rw [if_neg Bool.false_ne_true, hargs, hcoerced, Bool.true_and, if_pos rfl] at hvalue
  split at hvalue
  · split at hvalue
    next hcheck =>
      obtain rfl := Option.some.inj hvalue
      exact hcheck
    next => cases hvalue
  · split at hvalue
    next hcheck =>
      obtain rfl := Option.some.inj hvalue
      exact hcheck
    next => cases hvalue

theorem inherited_validate (hinherits : Inherits N parameters arguments)
    {value : Value Nat ν} (hvalue : (validateToolArguments N convert false parameters arguments h).1 = some value) :
    arguments.fieldCount < value.fieldCount := by
  obtain ⟨hsatisfies, hinherits⟩ := hinherits
  have hcount := fieldCount_clone arguments h
  have hplain := plain_clone arguments h
  have hshape := fun h' => (grows_coerce (N := N) parameters (arguments.clone h).1 h').shape
  unfold validateToolArguments at hvalue
  generalize arguments.clone h = cloned at hcount hplain hshape hvalue
  rw [← hplain] at hsatisfies hinherits
  obtain ⟨h₁, hnormalize⟩ := leaves_normalize parameters cloned.1 hsatisfies cloned.2
  obtain ⟨h₂, hconverted⟩ := hconvert.satisfied cloned.1 hsatisfies h₁
  have hadds := moves_coerce parameters cloned.1 hsatisfies h₂
  rw [hinherits] at hadds
  have hadds : cloned.1.fieldCount < (coerceWithJsonSchema N parameters cloned.1 h₂).1.fieldCount := hadds
  have hshape := hshape h₂
  dsimp only at hvalue
  rw [hnormalize] at hvalue
  rw [hconverted] at hvalue
  rw [if_neg Bool.false_ne_true] at hvalue
  generalize coerceWithJsonSchema N parameters cloned.1 h₂ = coerced at hadds hshape hvalue
  have hobject : cloned.1.isObject = true := by
    cases hnot : cloned.1.isObject with
    | true => rfl
    | false =>
      have hcoerced := fieldCount_of_not_isObject (hshape.isObject.trans hnot)
      omega
  rw [hobject, hshape.isObject.trans hobject, Bool.true_and, if_pos rfl] at hvalue
  split at hvalue
  · split at hvalue
    · obtain rfl := Option.some.inj hvalue
      omega
    · cases hvalue
  · split at hvalue
    · obtain rfl := Option.some.inj hvalue
      rw [fieldCount_assign hobject hshape]
      omega
    · cases hvalue

end

/-- **Validation does what it is for**, unless the arguments are no object and coercion changes them in vain, or
it adds an inherited function to arguments that satisfy the schema. -/
theorem validateToolArguments_validates_iff (hconvert : Converts N convert parameters)
    (hids : ∀ i ∈ arguments.ids, i < h.next) (hwritten : h.written = []) :
    Validates N parameters arguments (validateToolArguments N convert false parameters arguments h) ↔
      ¬ Skips N parameters arguments h ∧ ¬ Inherits N parameters arguments := by
  constructor
  · rintro ⟨hsound, hconservative, -⟩
    constructor
    · rintro ⟨hnot, hunsatisfied, hchanged, hcoerced⟩
      have hresult := validate_primitive (h := h) hconvert hnot
      dsimp only at hresult
      rw [hchanged, if_neg Bool.false_ne_true, hcoerced, if_neg Bool.false_ne_true] at hresult
      rw [hsound arguments hresult] at hunsatisfied
      cases hunsatisfied
    · intro hinherits
      obtain ⟨value, hvalue, heq⟩ := hconservative hinherits.1
      have hmore := inherited_validate hconvert hinherits hvalue
      rw [← fieldCount_plain value, heq, fieldCount_plain] at hmore
      exact Nat.lt_irrefl _ hmore
  · rintro ⟨hskips, hinherits⟩
    refine ⟨fun value hvalue => ?_, fun hsatisfies => ?_, fun i hwrite hmem => ?_⟩
    · cases hobject : arguments.isObject with
      | true => exact sound_validate hconvert hobject hvalue
      | false =>
        rw [validate_primitive hconvert hobject] at hvalue
        dsimp only at hvalue
        split at hvalue
        next =>
          obtain ⟨hcheck, hvalue⟩ := Option.ite_none_right_eq_some.mp hvalue
          obtain rfl := Option.some.inj hvalue
          exact hcheck
        next hchanged =>
          split at hvalue
          next hcheck =>
            obtain rfl := Option.some.inj hvalue
            exact hcheck
          next hcoerced =>
            obtain rfl := Option.some.inj hvalue
            by_contra hunsatisfied
            exact hskips ⟨hobject, Bool.not_eq_true _ ▸ hunsatisfied, Bool.not_eq_true _ ▸ hchanged,
              Bool.not_eq_true _ ▸ hcoerced⟩
    · have hown : parameters.inherits arguments.plain = false :=
        Bool.not_eq_true _ ▸ fun h => hinherits ⟨hsatisfies, h⟩
      exact conservative_validate hconvert hown hsatisfies
    · have hlow := hids i hmem
      have hhigh := (fresh_validate hconvert hwritten).written i hwrite
      omega

/-! ### Schemas without unions -/

section Simple

variable (hzero : N.isInteger N.zero = true) (hone : N.isInteger N.one = true)

include hzero hone

/-- What coercion changes is then of the type. -/
theorem coercePrimitive_matches (value : Value Nat ν) (type : JsonType) :
    coercePrimitiveByType N value type = value ∨
      matchesJsonType N (coercePrimitiveByType N value type) type = true := by
  cases type with
  | integer =>
    cases value with
    | null => exact .inr hzero
    | bool b => cases b with
      | false => exact .inr hzero
      | true => exact .inr hone
    | string s =>
      rw [coercePrimitiveByType]
      split
      · exact .inl rfl
      · cases N.ofText s with
        | none => exact .inl rfl
        | some n =>
          rw [Option.elim]
          split
          next hinteger => exact .inr hinteger
          · exact .inl rfl
    | _ => exact .inl rfl
  | number =>
    cases value with
    | string s =>
      rw [coercePrimitiveByType]
      split
      · exact .inl rfl
      · cases N.ofText s with
        | none => exact .inl rfl
        | some n => exact .inr rfl
    | null | bool _ => exact .inr rfl
    | _ => exact .inl rfl
  | _ =>
    cases value <;> unfold coercePrimitiveByType <;> dsimp only <;> repeat' split
    all_goals first | exact .inl rfl | exact .inr rfl

theorem coerceFirst_matches (value : Value Nat ν) (types : List JsonType) :
    coerceFirst N value types = value ∨ types.any (matchesJsonType N (coerceFirst N value types)) = true := by
  induction types with
  | nil => exact .inl rfl
  | cons type types ih =>
    rw [coerceFirst, List.any_cons]
    split
    · exact ih.imp_right fun hany => by rw [hany, Bool.or_true]
    · exact (coercePrimitive_matches hzero hone value type).imp_right fun hmatches => by rw [hmatches, Bool.true_or]

/-- **A schema without unions checks everything it returns**: what is no object is changed to what satisfies it. -/
theorem not_skips (types : List JsonType) (properties : Properties) (required : List String) (additional : Additional)
    (items : Items) : ¬ Skips N (.mk types .nil .nil .nil properties required additional items) arguments h := by
  rintro ⟨hnot, -, hchanged, hunsatisfied⟩
  have htypes : coerceTypes N types arguments = arguments ∨
      types.any (matchesJsonType N (coerceTypes N types arguments)) = true := by
    unfold coerceTypes
    dsimp only
    split
    · exact coerceFirst_matches hzero hone arguments types
    · exact .inl rfl
  have hprimitive : (coerceTypes N types arguments).isObject = false := by
    rcases coerceTypes_cases types arguments with hsame | ⟨-, hprimitive⟩
    · rw [hsame, hnot]
    · exact hprimitive
  have hcoerced : (coerceWithJsonSchema N (.mk types .nil .nil .nil properties required additional items)
      arguments h).1 = coerceTypes N types arguments := by
    rw [coerceWithJsonSchema]
    show (match coerceTypes N types arguments with | _ => _ : Value Nat ν × Heap).1 = _
    cases hcase : coerceTypes N types arguments <;> rw [hcase] at hprimitive <;> first | rfl | cases hprimitive
  rw [hcoerced] at hchanged hunsatisfied
  rcases htypes with hsame | hany
  · rw [hsame, strictEq_refl] at hchanged
    cases hchanged
  · unfold satisfies at hunsatisfied
    rw [matchesJsonType_plain, hany] at hunsatisfied
    revert hunsatisfied
    cases hcase : coerceTypes N types arguments <;> rw [hcase] at hprimitive <;>
      first | (simp [satisfiesAll, Value.plain]; done) | cases hprimitive

end Simple

end Proofs

/-! ## Two schemas -/

def sampleNumbers : Numbers Nat where
  zero := 0
  one := 1
  isInteger _ := true
  ofText := String.toNat?
  toText := Nat.repr
  isBlank s := s = ""

/-- A schema of values of one type -/
def ofType (type : JsonType) : Schema := .mk [type] .nil .nil .nil .nil [] .absent .absent

/-- A schema of objects with one optional property -/
def ofProperty (key : String) (schema : Schema) : Schema :=
  .mk [.object] .nil .nil .nil (.cons key schema .nil) [] .absent .absent

theorem converts_nothing (parameters : Schema) : Converts sampleNumbers (fun value h => (value, h)) parameters :=
  ⟨fun _ _ h => ⟨h, rfl⟩, fun _ _ _ => rfl, fun _ _ => rfl, fun _ _ _ howned hfresh => ⟨howned, hfresh⟩⟩

theorem validateToolArguments_validates_object :
    Validates sampleNumbers (ofProperty "a" (ofType .number)) (.object 0 [("a", .number 5)])
        (validateToolArguments sampleNumbers (fun value h => (value, h)) false
          (ofProperty "a" (ofType .number)) (.object 0 [("a", .number 5)]) ⟨1, []⟩) ↔
      ¬ Skips sampleNumbers (ofProperty "a" (ofType .number)) (.object 0 [("a", .number 5)]) ⟨1, []⟩ ∧
        ¬ Inherits sampleNumbers (ofProperty "a" (ofType .number)) (.object 0 [("a", .number 5)]) :=
  validateToolArguments_validates_iff (converts_nothing _) (by decide) rfl

/-- Null becomes a number and then a text, which is no number, and null is returned. Every object has a
constructor. -/
theorem null_returned_unchecked :
    ¬ Validates sampleNumbers (.mk [.string] (.cons (ofType .number) .nil) .nil .nil .nil [] .absent .absent) .null
        (validateToolArguments sampleNumbers (fun value h => (value, h)) false
          (.mk [.string] (.cons (ofType .number) .nil) .nil .nil .nil [] .absent .absent) .null ⟨0, []⟩) ∧
      ¬ Validates sampleNumbers (ofProperty "constructor" (ofType .string)) (.object 0 [])
        (validateToolArguments sampleNumbers (fun value h => (value, h)) false
          (ofProperty "constructor" (ofType .string)) (.object 0 []) ⟨1, []⟩) := by
  constructor
  · intro h
    exact absurd (h.sound .null rfl) (by decide)
  · intro h
    obtain ⟨value, hvalue, -⟩ := h.conservative (by decide)
    cases hvalue

end Mcpi.Ai.ToolArguments
