import Mathlib.Data.List.Basic

/-!
# Arguments of tool calls

`validateToolArguments` edits a clone of the arguments of a tool call, with the schema of the tool: it drops
nulls, converts and coerces, and checks what comes out. Arrays and objects have an identity, and each write
to one of them is recorded.
-/

namespace Mcpi.Ai.ToolArguments

/-! ## Values -/

/-- A value. `inherited` is a member of `Object.prototype`, which are functions. -/
inductive Value (ι ν : Type)
  | null
  | bool (b : Bool)
  | number (n : ν)
  | string (s : String)
  | inherited (name : String)
  | array (id : ι) (items : List (Value ι ν))
  | object (id : ι) (fields : List (String × Value ι ν))

variable {ι ν : Type}

namespace Value

/-- `typeof value === "object" && value !== null` -/
def isObject : Value ι ν → Bool
  | array _ _ => true
  | object _ _ => true
  | _ => false

/-- `value === other` -/
def strictEq [DecidableEq ι] [DecidableEq ν] : Value ι ν → Value ι ν → Bool
  | null, null => true
  | bool a, bool b => a = b
  | number a, number b => a = b
  | string a, string b => a = b
  | inherited a, inherited b => a = b
  | array a _, array b _ => a = b
  | object a _, object b _ => a = b
  | _, _ => false

mutual
/-- The value without identities -/
def plain : Value ι ν → Value Unit ν
  | null => null
  | bool b => bool b
  | number n => number n
  | string s => string s
  | inherited name => inherited name
  | array _ items => array () (plainItems items)
  | object _ fields => object () (plainFields fields)

def plainItems : List (Value ι ν) → List (Value Unit ν)
  | [] => []
  | item :: items => item.plain :: plainItems items

def plainFields : List (String × Value ι ν) → List (String × Value Unit ν)
  | [] => []
  | (key, value) :: fields => (key, value.plain) :: plainFields fields
end

mutual
def ids : Value ι ν → List ι
  | array id items => id :: idsItems items
  | object id fields => id :: idsFields fields
  | _ => []

def idsItems : List (Value ι ν) → List ι
  | [] => []
  | item :: items => item.ids ++ idsItems items

def idsFields : List (String × Value ι ν) → List ι
  | [] => []
  | (_, value) :: fields => value.ids ++ idsFields fields
end

mutual
/-- How many fields the objects in a value have -/
def fieldCount : Value ι ν → Nat
  | array _ items => fieldCountItems items
  | object _ fields => fieldCountFields fields
  | _ => 0

def fieldCountItems : List (Value ι ν) → Nat
  | [] => 0
  | item :: items => item.fieldCount + fieldCountItems items

def fieldCountFields : List (String × Value ι ν) → Nat
  | [] => 0
  | (_, value) :: fields => 1 + (value.fieldCount + fieldCountFields fields)
end

end Value

/-- The next identity, and the identities that have been written to. -/
structure Heap where
  next : Nat
  written : List Nat

def Heap.write (h : Heap) (id : Nat) : Heap := { h with written := id :: h.written }

def Heap.allocate (h : Heap) : Heap := { h with next := h.next + 1 }

namespace Value

mutual
/-- `structuredClone`. It throws on a function, which is kept here: a value only holds one that it inherited. -/
def clone : Value Nat ν → Heap → Value Nat ν × Heap
  | array _ items, h =>
    let (items, h') := cloneItems items h.allocate
    (array h.next items, h')
  | object _ fields, h =>
    let (fields, h') := cloneFields fields h.allocate
    (object h.next fields, h')
  | value, h => (value, h)

def cloneItems : List (Value Nat ν) → Heap → List (Value Nat ν) × Heap
  | [], h => ([], h)
  | item :: items, h =>
    let (item, h) := item.clone h
    let (items, h) := cloneItems items h
    (item :: items, h)

def cloneFields : List (String × Value Nat ν) → Heap → List (String × Value Nat ν) × Heap
  | [], h => ([], h)
  | (key, value) :: fields, h =>
    let (value, h) := value.clone h
    let (fields, h) := cloneFields fields h
    ((key, value) :: fields, h)
end

end Value

/-- The members of `Object.prototype`. `__proto__`, which is no function, is left out. -/
def OBJECT_PROTOTYPE : List String :=
  ["constructor", "__defineGetter__", "__defineSetter__", "hasOwnProperty", "__lookupGetter__",
    "__lookupSetter__", "isPrototypeOf", "propertyIsEnumerable", "toString", "valueOf", "toLocaleString"]

/-- `value[key]`, where `key in value` -/
def getKey (fields : List (String × Value ι ν)) (key : String) : Option (Value ι ν) :=
  match fields.lookup key with
  | some value => some value
  | none => if key ∈ OBJECT_PROTOTYPE then some (.inherited key) else none

/-- `value[key] = ...` -/
def setKey (key : String) (value : Value ι ν) : List (String × Value ι ν) → List (String × Value ι ν)
  | [] => [(key, value)]
  | (key', value') :: fields =>
    if key' = key then (key, value) :: fields else (key', value') :: setKey key value fields

/-! ## Writes -/

/-- All identities of a value are new. -/
def Owned (base : Nat) (value : Value Nat ν) : Prop := ∀ i ∈ value.ids, base ≤ i

def OwnedItems (base : Nat) (values : List (Value Nat ν)) : Prop := ∀ i ∈ Value.idsItems values, base ≤ i

def OwnedFields (base : Nat) (fields : List (String × Value Nat ν)) : Prop :=
  ∀ i ∈ Value.idsFields fields, base ≤ i

/-- What has been written to is new. -/
structure Fresh (base : Nat) (h : Heap) : Prop where
  next : base ≤ h.next
  written : ∀ i ∈ h.written, base ≤ i

/-- A function that is given what is new writes to nothing else. -/
def Local (f : Value Nat ν → Heap → Value Nat ν × Heap) : Prop :=
  ∀ base value h, Owned base value → Fresh base h → Owned base (f value h).1 ∧ Fresh base (f value h).2

section Writes

variable {base id : Nat} {h : Heap} {value value' : Value Nat ν} {values : List (Value Nat ν)}
  {fields : List (String × Value Nat ν)} {key : String}

theorem owned_array : Owned base (.array id values) ↔ base ≤ id ∧ OwnedItems base values :=
  List.forall_mem_cons

theorem owned_object : Owned base (.object id fields) ↔ base ≤ id ∧ OwnedFields base fields :=
  List.forall_mem_cons

theorem ownedItems_cons : OwnedItems base (value :: values) ↔ Owned base value ∧ OwnedItems base values :=
  List.forall_mem_append

theorem ownedFields_cons : OwnedFields base ((key, value) :: fields) ↔ Owned base value ∧ OwnedFields base fields :=
  List.forall_mem_append

theorem owned_of_not_isObject (h : value.isObject = false) : Owned base value := by
  cases value with
  | array id values => cases h
  | object id fields => cases h
  | _ => exact nofun

theorem Fresh.write (h' : Fresh base h) (hid : base ≤ id) : Fresh base (h.write id) :=
  ⟨h'.next, List.forall_mem_cons.mpr ⟨hid, h'.written⟩⟩

theorem Fresh.allocate (h' : Fresh base h) : Fresh base h.allocate := ⟨Nat.le_succ_of_le h'.next, h'.written⟩

mutual
theorem fresh_clone : ∀ (value : Value Nat ν) {h : Heap}, Fresh base h →
    Owned base (value.clone h).1 ∧ Fresh base (value.clone h).2
  | .null, _, hfresh => ⟨nofun, hfresh⟩
  | .bool _, _, hfresh => ⟨nofun, hfresh⟩
  | .number _, _, hfresh => ⟨nofun, hfresh⟩
  | .string _, _, hfresh => ⟨nofun, hfresh⟩
  | .inherited _, _, hfresh => ⟨nofun, hfresh⟩
  | .array _ values, h, hfresh => by
    obtain ⟨howned, hfresh'⟩ := fresh_cloneItems values hfresh.allocate
    exact ⟨owned_array.mpr ⟨hfresh.next, howned⟩, hfresh'⟩
  | .object _ fields, h, hfresh => by
    obtain ⟨howned, hfresh'⟩ := fresh_cloneFields fields hfresh.allocate
    exact ⟨owned_object.mpr ⟨hfresh.next, howned⟩, hfresh'⟩

theorem fresh_cloneItems : ∀ (values : List (Value Nat ν)) {h : Heap}, Fresh base h →
    OwnedItems base (Value.cloneItems values h).1 ∧ Fresh base (Value.cloneItems values h).2
  | [], _, hfresh => ⟨nofun, hfresh⟩
  | value :: values, h, hfresh => by
    obtain ⟨howned, hfresh⟩ := fresh_clone value hfresh
    obtain ⟨howned', hfresh⟩ := fresh_cloneItems values hfresh
    exact ⟨ownedItems_cons.mpr ⟨howned, howned'⟩, hfresh⟩

theorem fresh_cloneFields : ∀ (fields : List (String × Value Nat ν)) {h : Heap}, Fresh base h →
    OwnedFields base (Value.cloneFields fields h).1 ∧ Fresh base (Value.cloneFields fields h).2
  | [], _, hfresh => ⟨nofun, hfresh⟩
  | (_, value) :: fields, h, hfresh => by
    obtain ⟨howned, hfresh⟩ := fresh_clone value hfresh
    obtain ⟨howned', hfresh⟩ := fresh_cloneFields fields hfresh
    exact ⟨ownedFields_cons.mpr ⟨howned, howned'⟩, hfresh⟩
end

mutual
theorem plain_clone : ∀ (value : Value Nat ν) (h : Heap), (value.clone h).1.plain = value.plain
  | .null, _ => rfl
  | .bool _, _ => rfl
  | .number _, _ => rfl
  | .string _, _ => rfl
  | .inherited _, _ => rfl
  | .array _ values, h => congrArg (Value.array ()) (plain_cloneItems values h.allocate)
  | .object _ fields, h => congrArg (Value.object ()) (plain_cloneFields fields h.allocate)

theorem plain_cloneItems : ∀ (values : List (Value Nat ν)) (h : Heap),
    Value.plainItems (Value.cloneItems values h).1 = Value.plainItems values
  | [], _ => rfl
  | value :: values, h => congrArg₂ List.cons (plain_clone value h) (plain_cloneItems values _)

theorem plain_cloneFields : ∀ (fields : List (String × Value Nat ν)) (h : Heap),
    Value.plainFields (Value.cloneFields fields h).1 = Value.plainFields fields
  | [], _ => rfl
  | (key, value) :: fields, h =>
    congrArg₂ List.cons (congrArg (Prod.mk key) (plain_clone value h)) (plain_cloneFields fields _)
end

theorem owned_lookup (h : OwnedFields base fields) (hlookup : fields.lookup key = some value) : Owned base value := by
  induction fields with
  | nil => cases hlookup
  | cons field fields ih =>
    obtain ⟨key', value'⟩ := field
    obtain ⟨hvalue, hfields⟩ := ownedFields_cons.mp h
    rw [List.lookup_cons] at hlookup
    split at hlookup
    · obtain rfl := Option.some.inj hlookup
      exact hvalue
    · exact ih hfields hlookup

theorem owned_getKey (h : OwnedFields base fields) (hget : getKey fields key = some value) : Owned base value := by
  unfold getKey at hget
  split at hget
  next hlookup =>
    obtain rfl := Option.some.inj hget
    exact owned_lookup h hlookup
  next =>
    obtain ⟨-, hget⟩ := Option.ite_none_right_eq_some.mp hget
    obtain rfl := Option.some.inj hget
    exact nofun

theorem owned_setKey (h : OwnedFields base fields) (hvalue : Owned base value) :
    OwnedFields base (setKey key value fields) := by
  induction fields with
  | nil => exact ownedFields_cons.mpr ⟨hvalue, nofun⟩
  | cons field fields ih =>
    obtain ⟨key', value'⟩ := field
    obtain ⟨hvalue', hfields⟩ := ownedFields_cons.mp h
    rw [setKey]
    split
    · exact ownedFields_cons.mpr ⟨hvalue, hfields⟩
    · exact ownedFields_cons.mpr ⟨hvalue', ih hfields⟩

theorem owned_filter (h : OwnedFields base fields) (p : String × Value Nat ν → Bool) :
    OwnedFields base (fields.filter p) := by
  induction fields with
  | nil => exact h
  | cons field fields ih =>
    obtain ⟨key', value'⟩ := field
    obtain ⟨hvalue', hfields⟩ := ownedFields_cons.mp h
    rw [List.filter_cons]
    split
    · exact ownedFields_cons.mpr ⟨hvalue', ih hfields⟩
    · exact ih hfields

end Writes

/-! ## Schemas -/

inductive JsonType
  | number
  | integer
  | boolean
  | string
  | null
  | array
  | object
  deriving DecidableEq

mutual
/-- A plain schema. What is absent is empty: there is no empty `anyOf` or `oneOf`. -/
inductive Schema
  | mk (types : List JsonType) (allOf anyOf oneOf : Schemas) (properties : Properties)
      (required : List String) (additionalProperties : Additional) (items : Items)

inductive Schemas
  | nil
  | cons (schema : Schema) (schemas : Schemas)

inductive Properties
  | nil
  | cons (key : String) (schema : Schema) (properties : Properties)

inductive Additional
  | absent
  | flag (allowed : Bool)
  | schema (schema : Schema)

inductive Items
  | absent
  | each (schema : Schema)
  | tuple (schemas : Schemas)
end

def Properties.keys : Properties → List String
  | .nil => []
  | .cons key _ properties => key :: properties.keys

/-- What the language does with numbers: the text of a number, the finite number that a text is, if it is one,
and blank texts (`value.trim() === ""`). -/
structure Numbers (ν : Type) where
  zero : ν
  one : ν
  isInteger : ν → Bool
  ofText : String → Option ν
  toText : ν → String
  isBlank : String → Bool

variable (N : Numbers ν)

def matchesJsonType (value : Value ι ν) : JsonType → Bool
  | .number => match value with | .number _ => true | _ => false
  | .integer => match value with | .number n => N.isInteger n | _ => false
  | .boolean => match value with | .bool _ => true | _ => false
  | .string => match value with | .string _ => true | _ => false
  | .null => match value with | .null => true | _ => false
  | .array => match value with | .array _ _ => true | _ => false
  | .object => match value with | .object _ _ => true | _ => false

mutual
/-- What `Compile(schema).Check` decides. -/
def satisfies : Schema → Value Unit ν → Bool
  | .mk types allOf anyOf oneOf properties required additional items, value =>
    (types = [] || types.any (matchesJsonType N value)) && (satisfiesAll allOf value &&
        ((match anyOf with | .nil => true | anyOf => satisfiesSome anyOf value) &&
          ((match oneOf with | .nil => true | oneOf => satisfiesCount oneOf value = 1) &&
            match value with
            | .object _ fields =>
              satisfiesProperties properties fields && (required.all (fun key => (fields.lookup key).isSome) &&
                  fields.all fun field =>
                    field.1 ∈ properties.keys || satisfiesAdditional additional field.2)
            | .array _ values => satisfiesItems items values
            | _ => true)))

def satisfiesAll : Schemas → Value Unit ν → Bool
  | .nil, _ => true
  | .cons schema schemas, value => satisfies schema value && satisfiesAll schemas value

def satisfiesSome : Schemas → Value Unit ν → Bool
  | .nil, _ => false
  | .cons schema schemas, value => satisfies schema value || satisfiesSome schemas value

def satisfiesCount : Schemas → Value Unit ν → Nat
  | .nil, _ => 0
  | .cons schema schemas, value => (if satisfies schema value then 1 else 0) + satisfiesCount schemas value

def satisfiesProperties : Properties → List (String × Value Unit ν) → Bool
  | .nil, _ => true
  | .cons key schema properties, fields =>
    (match fields.lookup key with
      | some value => satisfies schema value
      | none => true) && satisfiesProperties properties fields

def satisfiesAdditional : Additional → Value Unit ν → Bool
  | .absent, _ => true
  | .flag allowed, _ => allowed
  | .schema schema, value => satisfies schema value

def satisfiesItems : Items → List (Value Unit ν) → Bool
  | .absent, _ => true
  | .each schema, values => values.all fun value => satisfies schema value
  | .tuple schemas, values => satisfiesTuple schemas values

def satisfiesTuple : Schemas → List (Value Unit ν) → Bool
  | .nil, _ => true
  | .cons _ _, [] => true
  | .cons schema schemas, value :: values => satisfies schema value && satisfiesTuple schemas values
end

/-! ## Nulls of optional properties -/

/-- A child in place, without a write to its array -/
def forItems (f : Value Nat ν → Heap → Value Nat ν × Heap) :
    List (Value Nat ν) → Heap → List (Value Nat ν) × Heap
  | [], h => ([], h)
  | value :: values, h =>
    let (value, h) := f value h
    let (values, h) := forItems f values h
    (value :: values, h)

mutual
def normalizeOptionalNulls : Schema → Value Nat ν → Heap → Value Nat ν × Heap
  | .mk _ _ _ _ properties required _ items, value, h =>
    match value with
    | .array id values =>
      let (values, h) := normalizeItems items values h
      (.array id values, h)
    | .object id fields =>
      let (fields, h) := normalizeProperties properties required id fields h
      (.object id fields, h)
    | value => (value, h)

def normalizeItems : Items → List (Value Nat ν) → Heap → List (Value Nat ν) × Heap
  | .absent, values, h => (values, h)
  | .each schema, values, h => forItems (fun value h => normalizeOptionalNulls schema value h) values h
  | .tuple schemas, values, h => normalizeTuple schemas values h

def normalizeTuple : Schemas → List (Value Nat ν) → Heap → List (Value Nat ν) × Heap
  | .cons schema schemas, value :: values, h =>
    let (value, h) := normalizeOptionalNulls schema value h
    let (values, h) := normalizeTuple schemas values h
    (value :: values, h)
  | _, values, h => (values, h)

/-- A null that its schema rejects is deleted. Nothing is done to a member of `Object.prototype`. -/
def normalizeProperties : Properties → List String → Nat → List (String × Value Nat ν) → Heap →
    List (String × Value Nat ν) × Heap
  | .nil, _, _, fields, h => (fields, h)
  | .cons key schema properties, required, id, fields, h =>
    match fields.lookup key with
    | none => normalizeProperties properties required id fields h
    | some .null =>
      if key ∉ required && !satisfies N schema .null then
        normalizeProperties properties required id (fields.filter fun field => field.1 ≠ key) (h.write id)
      else normalizeProperties properties required id fields h
    | some value =>
      let (value, h) := normalizeOptionalNulls schema value h
      normalizeProperties properties required id (setKey key value fields) h
end

/-! ## Coercion -/

/-- `value[key] = f(value[key])` for the keys of an object that are not skipped -/
def mapFields (f : Value Nat ν → Heap → Value Nat ν × Heap) (skip : String → Bool) (id : Nat) :
    List (String × Value Nat ν) → Heap → List (String × Value Nat ν) × Heap
  | [], h => ([], h)
  | (key, value) :: fields, h =>
    if skip key then
      let (fields, h) := mapFields f skip id fields h
      ((key, value) :: fields, h)
    else
      let (value, h) := f value h
      let (fields, h) := mapFields f skip id fields (h.write id)
      ((key, value) :: fields, h)

/-- `value[index] = f(value[index])` for all items of an array -/
def mapItems (f : Value Nat ν → Heap → Value Nat ν × Heap) (id : Nat) :
    List (Value Nat ν) → Heap → List (Value Nat ν) × Heap
  | [], h => ([], h)
  | value :: values, h =>
    let (value, h) := f value h
    let (values, h) := mapItems f id values (h.write id)
    (value :: values, h)

/-- A value that one of the schemas accepts stays; `candidates` is the second loop. -/
def coerceWithUnionSchema (candidates : Value Nat ν → Heap → Value Nat ν × Heap) (schemas : Schemas)
    (value : Value Nat ν) (h : Heap) : Value Nat ν × Heap :=
  if satisfiesSome N schemas value.plain then (value, h) else candidates value h

section Coercion

variable [DecidableEq ν]

def coercePrimitiveByType (value : Value Nat ν) : JsonType → Value Nat ν
  | .number =>
    match value with
    | .null => .number N.zero
    | .string s => if N.isBlank s then value else (N.ofText s).elim value .number
    | .bool b => .number (if b then N.one else N.zero)
    | _ => value
  | .integer =>
    match value with
    | .null => .number N.zero
    | .string s =>
      if N.isBlank s then value
      else (N.ofText s).elim value fun n => if N.isInteger n then .number n else value
    | .bool b => .number (if b then N.one else N.zero)
    | _ => value
  | .boolean =>
    match value with
    | .null => .bool false
    | .string s => if s = "true" then .bool true else if s = "false" then .bool false else value
    | .number n => if n = N.one then .bool true else if n = N.zero then .bool false else value
    | _ => value
  | .string =>
    match value with
    | .null => .string ""
    | .number n => .string (N.toText n)
    | .bool b => .string (if b then "true" else "false")
    | _ => value
  | .null =>
    match value with
    | .string s => if s = "" then .null else value
    | .number n => if n = N.zero then .null else value
    | .bool b => if b then value else .null
    | _ => value
  | _ => value

/-- The loop over the types of a schema, up to the first that changes the value. -/
def coerceFirst (value : Value Nat ν) : List JsonType → Value Nat ν
  | [] => value
  | type :: types =>
    let candidate := coercePrimitiveByType N value type
    if candidate.strictEq value then coerceFirst value types else candidate

def coerceTypes (types : List JsonType) (value : Value Nat ν) : Value Nat ν :=
  let matchesUnionMember := types.length > 1 && types.any (matchesJsonType N value)
  if types.length > 0 && !matchesUnionMember then coerceFirst N value types else value

mutual
def coerceWithJsonSchema : Schema → Value Nat ν → Heap → Value Nat ν × Heap
  | .mk types allOf anyOf oneOf properties _ additional items, value, h =>
    let (nextValue, h) := coerceAllOf allOf value h
    let (nextValue, h) :=
      coerceWithUnionSchema N (fun value h => coerceCandidates anyOf value h) anyOf nextValue h
    let (nextValue, h) :=
      coerceWithUnionSchema N (fun value h => coerceCandidates oneOf value h) oneOf nextValue h
    match coerceTypes N types nextValue with
    | .object id fields =>
      if .object ∈ types then
        let (fields, h) := coerceProperties properties id fields h
        let (fields, h) := coerceAdditional additional properties.keys id fields h
        (.object id fields, h)
      else (.object id fields, h)
    | .array id values =>
      if .array ∈ types then
        let (values, h) := coerceItems items id values h
        (.array id values, h)
      else (.array id values, h)
    | nextValue => (nextValue, h)

def coerceAllOf : Schemas → Value Nat ν → Heap → Value Nat ν × Heap
  | .nil, value, h => (value, h)
  | .cons schema schemas, value, h =>
    let (value, h) := coerceWithJsonSchema schema value h
    coerceAllOf schemas value h

/-- The second loop over a union -/
def coerceCandidates : Schemas → Value Nat ν → Heap → Value Nat ν × Heap
  | .nil, value, h => (value, h)
  | .cons schema schemas, value, h =>
    let (candidate, h) := value.clone h
    let (coerced, h) := coerceWithJsonSchema schema candidate h
    if satisfies N schema coerced.plain then (coerced, h) else coerceCandidates schemas value h

/-- `applySchemaObjectCoercion`, the declared properties -/
def coerceProperties : Properties → Nat → List (String × Value Nat ν) → Heap → List (String × Value Nat ν) × Heap
  | .nil, _, fields, h => (fields, h)
  | .cons key schema properties, id, fields, h =>
    match getKey fields key with
    | none => coerceProperties properties id fields h
    | some value =>
      let (value, h) := coerceWithJsonSchema schema value h
      coerceProperties properties id (setKey key value fields) (h.write id)

/-- `applySchemaObjectCoercion`, the other ones -/
def coerceAdditional : Additional → List String → Nat → List (String × Value Nat ν) → Heap →
    List (String × Value Nat ν) × Heap
  | .schema schema, definedKeys, id, fields, h =>
    mapFields (fun value h => coerceWithJsonSchema schema value h) (· ∈ definedKeys) id fields h
  | _, _, _, fields, h => (fields, h)

/-- `applySchemaArrayCoercion` -/
def coerceItems : Items → Nat → List (Value Nat ν) → Heap → List (Value Nat ν) × Heap
  | .absent, _, values, h => (values, h)
  | .each schema, id, values, h => mapItems (fun value h => coerceWithJsonSchema schema value h) id values h
  | .tuple schemas, id, values, h => coerceTuple schemas id values h

def coerceTuple : Schemas → Nat → List (Value Nat ν) → Heap → List (Value Nat ν) × Heap
  | .cons schema schemas, id, value :: values, h =>
    let (value, h) := coerceWithJsonSchema schema value h
    let (values, h) := coerceTuple schemas id values (h.write id)
    (value :: values, h)
  | _, _, values, h => (values, h)
end

/-! ## `validateToolArguments` -/

/-- All keys of an object deleted, and `Object.assign`. An array has as many items as the other. -/
def assign : Value Nat ν → Value Nat ν → Value Nat ν
  | .object id _, .object _ fields => .object id fields
  | .array id _, .array _ values => .array id values
  | args, _ => args

def identity : Value ι ν → Option ι
  | .array id _ => some id
  | .object id _ => some id
  | _ => none

/-- The validated arguments, unless it throws. `convert` is what `Value.Convert` makes of the arguments in
place; its result is not used. `hasKind` is whether the schema is a TypeBox schema. -/
def validateToolArguments (convert : Value Nat ν → Heap → Value Nat ν × Heap) (hasKind : Bool)
    (parameters : Schema) (arguments : Value Nat ν) (h : Heap) : Option (Value Nat ν) × Heap :=
  let (args, h) := arguments.clone h
  let (args, h) := normalizeOptionalNulls N parameters args h
  let (args, h) := convert args h
  if hasKind then (if satisfies N parameters args.plain then some args else none, h)
  else
    let (coerced, h) := coerceWithJsonSchema N parameters args h
    if coerced.strictEq args then
      (if satisfies N parameters coerced.plain then some coerced else none, h)
    else if args.isObject && coerced.isObject then
      let args' := assign args coerced
      let h := (identity args).elim h h.write
      (if satisfies N parameters args'.plain then some args' else none, h)
    else if satisfies N parameters coerced.plain then (some coerced, h)
    else (some args, h)

end Coercion

mutual
/-- Coercion looks a property of the schema up in an object that has only inherited it. -/
def Schema.inherits : Schema → Value Unit ν → Bool
  | .mk types allOf _ _ properties _ additional items, value =>
    allOf.inherits value ||
      match value with
      | .object _ fields =>
        .object ∈ types && (properties.inherits fields || additional.inherits properties.keys fields)
      | .array _ values => .array ∈ types && items.inherits values
      | _ => false

def Schemas.inherits : Schemas → Value Unit ν → Bool
  | .nil, _ => false
  | .cons schema schemas, value => schema.inherits value || schemas.inherits value

def Properties.inherits : Properties → List (String × Value Unit ν) → Bool
  | .nil, _ => false
  | .cons key schema properties, fields =>
    (match fields.lookup key with
      | some value => schema.inherits value
      | none => key ∈ OBJECT_PROTOTYPE) || properties.inherits fields

def Additional.inherits : Additional → List String → List (String × Value Unit ν) → Bool
  | .schema schema, definedKeys, fields =>
    fields.any fun field => field.1 ∉ definedKeys && schema.inherits field.2
  | _, _, _ => false

def Items.inherits : Items → List (Value Unit ν) → Bool
  | .absent, _ => false
  | .each schema, values => values.any fun value => schema.inherits value
  | .tuple schemas, values => schemas.inheritsTuple values

def Schemas.inheritsTuple : Schemas → List (Value Unit ν) → Bool
  | .cons schema schemas, value :: values => schema.inherits value || schemas.inheritsTuple values
  | _, _ => false
end

/-- What is promised of `Value.Convert`: it leaves what satisfies the schema, and what is no object, and
changes the arguments in place. -/
structure Converts (convert : Value Nat ν → Heap → Value Nat ν × Heap) (parameters : Schema) : Prop where
  satisfied : ∀ value, satisfies N parameters value.plain = true → ∀ h, ∃ h', convert value h = (value, h')
  primitive : ∀ value h, value.isObject = false → convert value h = (value, h)
  isObject : ∀ value h, (convert value h).1.isObject = value.isObject
  inPlace : Local convert

/-- What validation is for: what is returned satisfies the schema, what satisfies it is returned as it is, and
the arguments of the tool call are not written to. -/
structure Validates (parameters : Schema) (arguments : Value Nat ν) (result : Option (Value Nat ν) × Heap) :
    Prop where
  sound : ∀ value, result.1 = some value → satisfies N parameters value.plain = true
  conservative : satisfies N parameters arguments.plain = true →
    ∃ value, result.1 = some value ∧ value.plain = arguments.plain
  untouched : ∀ i ∈ result.2.written, i ∉ arguments.ids

/-- The arguments are no object, and coercion changes them without making them satisfy the schema. -/
def Skips [DecidableEq ν] (parameters : Schema) (arguments : Value Nat ν) (h : Heap) : Prop :=
  let coerced := (coerceWithJsonSchema N parameters arguments h).1
  arguments.isObject = false ∧ satisfies N parameters arguments.plain = false ∧
    coerced.strictEq arguments = false ∧ satisfies N parameters coerced.plain = false

/-- The arguments satisfy the schema, and an inherited function is made a field of theirs. -/
def Inherits (parameters : Schema) (arguments : Value Nat ν) : Prop :=
  satisfies N parameters arguments.plain = true ∧ parameters.inherits arguments.plain = true

end Mcpi.Ai.ToolArguments
