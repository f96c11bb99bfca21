/-!
# JSON values

The tree of values a JSON text denotes, over an arbitrary type `ν` of numbers.
Objects keep their members in text order; where a key is written twice the last
member counts, which is how `JSON.parse` and object spread resolve duplicates.
-/

/-- `Number.MAX_SAFE_INTEGER` -/
def MAX_SAFE_INTEGER : Nat := 9007199254740991

/-- The safe integers from zero on. -/
abbrev SafeNat := { k : Nat // k ≤ MAX_SAFE_INTEGER }

/-- A plain JSON value with numbers in `ν`. -/
inductive Json (ν : Type) where
  | null
  | bool (b : Bool)
  | num (n : ν)
  | str (s : String)
  | arr (items : List (Json ν))
  | obj (members : List (String × Json ν))

namespace Json

variable {ν : Type}

instance : Inhabited (Json ν) := ⟨null⟩

/-! ## Decidable equality

The deriving handler does not reach through `List (String × Json ν)`. -/

section DecidableEq

variable [DecidableEq ν]

mutual
def decEq : (v w : Json ν) → Decidable (v = w)
  | .null, .null => isTrue rfl
  | .bool a, .bool b =>
    if h : a = b then isTrue (h ▸ rfl) else isFalse fun e => h (Json.bool.inj e)
  | .num a, .num b =>
    if h : a = b then isTrue (h ▸ rfl) else isFalse fun e => h (Json.num.inj e)
  | .str a, .str b =>
    if h : a = b then isTrue (h ▸ rfl) else isFalse fun e => h (Json.str.inj e)
  | .arr xs, .arr ys =>
    match decEqItems xs ys with
    | isTrue h => isTrue (h ▸ rfl)
    | isFalse h => isFalse fun e => h (Json.arr.inj e)
  | .obj xs, .obj ys =>
    match decEqMembers xs ys with
    | isTrue h => isTrue (h ▸ rfl)
    | isFalse h => isFalse fun e => h (Json.obj.inj e)
  | .null, .bool _ | .null, .num _ | .null, .str _ | .null, .arr _ | .null, .obj _
  | .bool _, .null | .bool _, .num _ | .bool _, .str _ | .bool _, .arr _ | .bool _, .obj _
  | .num _, .null | .num _, .bool _ | .num _, .str _ | .num _, .arr _ | .num _, .obj _
  | .str _, .null | .str _, .bool _ | .str _, .num _ | .str _, .arr _ | .str _, .obj _
  | .arr _, .null | .arr _, .bool _ | .arr _, .num _ | .arr _, .str _ | .arr _, .obj _
  | .obj _, .null | .obj _, .bool _ | .obj _, .num _ | .obj _, .str _ | .obj _, .arr _ =>
    isFalse (by simp)

def decEqItems : (xs ys : List (Json ν)) → Decidable (xs = ys)
  | [], [] => isTrue rfl
  | [], _ :: _ | _ :: _, [] => isFalse (by simp)
  | x :: xs, y :: ys =>
    match decEq x y, decEqItems xs ys with
    | isTrue h, isTrue h' => isTrue (h ▸ h' ▸ rfl)
    | isFalse h, _ => isFalse fun e => h (List.cons.inj e).1
    | _, isFalse h => isFalse fun e => h (List.cons.inj e).2

def decEqMembers : (xs ys : List (String × Json ν)) → Decidable (xs = ys)
  | [], [] => isTrue rfl
  | [], _ :: _ | _ :: _, [] => isFalse (by simp)
  | (k, x) :: xs, (j, y) :: ys =>
    if hk : k = j then
      match decEq x y, decEqMembers xs ys with
      | isTrue h, isTrue h' => isTrue (hk ▸ h ▸ h' ▸ rfl)
      | isFalse h, _ => isFalse fun e => h (Prod.mk.inj (List.cons.inj e).1).2
      | _, isFalse h => isFalse fun e => h (List.cons.inj e).2
    else isFalse fun e => hk (Prod.mk.inj (List.cons.inj e).1).1
end

instance : DecidableEq (Json ν) := decEq

end DecidableEq

/-! ## Members of an object -/

/-- The last value written for `key`; `none` stands for `undefined`. -/
def member? (key : String) : List (String × Json ν) → Option (Json ν)
  | [] => none
  | (k, v) :: rest => (member? key rest).or (if k = key then some v else none)

/-- `value[key]` of an object; reading a property of anything else gives `undefined`. -/
def get? (v : Json ν) (key : String) : Option (Json ν) :=
  match v with
  | .obj members => member? key members
  | _ => none

/-- The string a value is, if it is one. -/
def str? : Json ν → Option String
  | .str s => some s
  | _ => none

/-- The number a value is, if it is one. -/
def num? : Json ν → Option ν
  | .num n => some n
  | _ => none

/-- `typeof v === "object" && v !== null && !Array.isArray(v)`. -/
def isObject : Json ν → Bool
  | .obj _ => true
  | _ => false

@[simp] theorem member?_nil (key : String) : member? key ([] : List (String × Json ν)) = none := rfl

@[simp] theorem member?_cons (key k : String) (v : Json ν) (rest : List (String × Json ν)) :
    member? key ((k, v) :: rest) = (member? key rest).or (if k = key then some v else none) := rfl

/-- Spreading one member list after another: the later one wins. -/
theorem member?_append (key : String) (xs ys : List (String × Json ν)) :
    member? key (xs ++ ys) = (member? key ys).or (member? key xs) := by
  induction xs with
  | nil => simp
  | cons p rest ih =>
    obtain ⟨k, v⟩ := p
    simp only [List.cons_append, member?_cons, ih, Option.or_assoc]

theorem member?_eq_none {key : String} {xs : List (String × Json ν)}
    (h : ∀ p ∈ xs, p.1 ≠ key) : member? key xs = none := by
  induction xs with
  | nil => rfl
  | cons p rest ih =>
    obtain ⟨k, v⟩ := p
    have hk : k ≠ key := h (k, v) (by simp)
    simp [hk, ih fun q hq => h q (by simp [hq])]

end Json
