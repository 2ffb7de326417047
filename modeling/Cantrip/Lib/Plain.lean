import Mathlib.Data.List.Basic

/-!
# Plain JSON values

What a program holds of parsed JSON. An object is its entries in order: `get` reads a property, `put` writes it in
place or at the end, `spread a b` is `{ ...a, ...b }` and `erase` leaves a property out. `deepEqual` compares values
without regard to the order of the properties.
-/

namespace Cantrip.Lib

/-- What is asked of the numbers. -/
class JsNumber (N : Type) where
  isFinite : N → Bool
  /-- A safe integer that is not negative. -/
  index : N → Option Nat
  text : N → String
  truthy : N → Bool
  /-- `===`. -/
  same : N → N → Bool
  lt : N → N → Bool
  max : N → N → N

inductive Json (N : Type)
  | null
  | bool (b : Bool)
  | number (n : N)
  | string (s : String)
  | array (values : List (Json N))
  | object (fields : List (String × Json N))

abbrev Fields (N : Type) := List (String × Json N)

variable {N : Type}

/-! ## Objects -/

namespace Fields

def get : Fields N → String → Option (Json N)
  | [], _ => none
  | (k, v) :: o, key => if k = key then some v else get o key

def put : Fields N → String → Json N → Fields N
  | [], key, v => [(key, v)]
  | (k, w) :: o, key, v => if k = key then (k, v) :: o else (k, w) :: put o key v

def has (o : Fields N) (key : String) : Bool := (o.get key).isSome

def erase (o : Fields N) (key : String) : Fields N := o.filter fun e => e.1 ≠ key

/-- `{ ...a, ...b }`. -/
def spread (a b : Fields N) : Fields N :=
  a.map (fun e => (e.1, (get b e.1).getD e.2)) ++ b.filter fun e => !has a e.1

@[simp] theorem get_nil (key : String) : get ([] : Fields N) key = none := rfl

@[simp] theorem get_cons (k : String) (v : Json N) (o : Fields N) (key : String) :
    get ((k, v) :: o) key = if k = key then some v else get o key := rfl

theorem get_put (o : Fields N) (k key : String) (v : Json N) : get (put o k v) key = if k = key then some v else get o key := by
  induction o with
  | nil => rfl
  | cons e o ih =>
    obtain ⟨k', w⟩ := e
    unfold put
    by_cases hk : k' = k
    · subst hk
      rw [if_pos rfl, get_cons, get_cons]
      by_cases hkey : k' = key <;> simp [hkey]
    · rw [if_neg hk, get_cons, get_cons, ih]
      by_cases hkey : k' = key
      · have hne : k ≠ key := fun h => hk (hkey.trans h.symm)
        simp [hkey, hne]
      · simp [hkey]

@[simp] theorem get_put_self (o : Fields N) (key : String) (v : Json N) : get (put o key v) key = some v := by
  rw [get_put, if_pos rfl]

theorem get_put_ne (o : Fields N) {k key : String} (v : Json N) (h : k ≠ key) : get (put o k v) key = get o key := by
  rw [get_put, if_neg h]

theorem get_append (a b : Fields N) (key : String) : get (a ++ b) key = (get a key).or (get b key) := by
  induction a with
  | nil => rfl
  | cons e a ih =>
    obtain ⟨k, v⟩ := e
    rw [List.cons_append, get_cons, get_cons, ih]
    by_cases hk : k = key <;> simp [hk]

theorem get_filter (p : String → Bool) (o : Fields N) (key : String) :
    get (o.filter fun e => p e.1) key = if p key then get o key else none := by
  induction o with
  | nil => simp
  | cons e o ih =>
    obtain ⟨k, v⟩ := e
    rw [List.filter_cons, get_cons]
    by_cases hk : k = key
    · subst hk
      by_cases hp : p k
      · simp [hp]
      · rw [if_neg (by simpa using hp), ih, if_neg hp]
        simp [hp]
    · by_cases hp : p k
      · rw [if_pos (by simpa using hp), get_cons, if_neg hk, ih, if_neg hk]
      · rw [if_neg (by simpa using hp), ih, if_neg hk]

theorem get_map (f : String → Json N → Json N) (o : Fields N) (key : String) :
    get (o.map fun e => (e.1, f e.1 e.2)) key = (get o key).map (f key) := by
  induction o with
  | nil => rfl
  | cons e o ih =>
    obtain ⟨k, v⟩ := e
    rw [List.map_cons, get_cons, get_cons, ih]
    by_cases hk : k = key
    · subst hk
      simp
    · simp [hk]

theorem get_spread (a b : Fields N) (key : String) : get (spread a b) key = (get b key).or (get a key) := by
  unfold spread
  rw [get_append, get_map fun k v => (get b k).getD v, get_filter fun k => !has a k]
  unfold has
  cases ha : get a key with
  | none => cases get b key <;> rfl
  | some v => cases get b key <;> rfl

end Fields

/-! ## Values -/

namespace Json

def asObject : Json N → Option (Fields N)
  | .object o => some o
  | _ => none

def asString : Json N → Option String
  | .string s => some s
  | _ => none

def asArray : Json N → Option (List (Json N))
  | .array vs => some vs
  | _ => none

def isNull : Json N → Bool
  | .null => true
  | _ => false

def truthy [JsNumber N] : Json N → Bool
  | .null => false
  | .bool b => b
  | .number n => JsNumber.truthy n
  | .string s => s ≠ ""
  | _ => true

/-- `===`. Two arrays or objects are not the same one. -/
def same [JsNumber N] : Json N → Json N → Bool
  | .null, .null => true
  | .bool a, .bool b => a == b
  | .number a, .number b => JsNumber.same a b
  | .string a, .string b => a == b
  | _, _ => false

mutual

/-- `String(value)`. -/
def toText [JsNumber N] : Json N → String
  | .null => "null"
  | .bool b => if b then "true" else "false"
  | .number n => JsNumber.text n
  | .string s => s
  | .array vs => ",".intercalate (toTexts vs)
  | .object _ => "[object Object]"

def toTexts [JsNumber N] : List (Json N) → List String
  | [] => []
  | v :: vs => (if v.isNull then "" else toText v) :: toTexts vs

end

mutual

/-- `isDeepStrictEqual`. -/
def deepEqual [DecidableEq N] : Json N → Json N → Bool
  | .null, .null => true
  | .bool a, .bool b => a == b
  | .number a, .number b => decide (a = b)
  | .string a, .string b => a == b
  | .array vs, .array ws => deepEquals vs ws
  | .object o, .object p => o.length == p.length && coveredBy o p
  | _, _ => false

def deepEquals [DecidableEq N] : List (Json N) → List (Json N) → Bool
  | [], [] => true
  | v :: vs, w :: ws => deepEqual v w && deepEquals vs ws
  | _, _ => false

/-- The fields are among those of `p`. -/
def coveredBy [DecidableEq N] : List (String × Json N) → Fields N → Bool
  | [], _ => true
  | (k, v) :: o, p => ((p.get k).elim false fun w => deepEqual v w) && coveredBy o p

end

end Json

open Json

def Fields.equal [DecidableEq N] (o p : Fields N) : Bool := deepEqual (.object o) (.object p)

end Cantrip.Lib
