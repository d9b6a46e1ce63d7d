import SchemaAlgebra.Number.Binary64

/-!
# Values of the schema language

Values stand in default values and in the arguments of directives.  They are also what field
resolvers compute and what scalar behaviour converts.

The fields of an object have no order of their own: they are kept sorted by key, each key once.
`Value.ofFields` builds an object from fields in any order, of which a later one with the same key
replaces an earlier one.
-/

namespace SchemaAlgebra

/-- A value: a literal, a reference to a variable, a list or an object. -/
inductive Value where
  | var (name : String)
  | int (number : Int)
  | float (number : Binary64)
  | string (text : String)
  | boolean (truth : Bool)
  | null
  | enum (name : String)
  | list (items : List Value)
  | object (fields : List (String × Value))

namespace Value

instance : Inhabited Value := ⟨null⟩

/-! ## Equality -/

mutual

/-- Equality of values can be decided. -/
def decEq : (a b : Value) → Decidable (a = b)
  | .var a, .var b => decidable_of_iff (a = b) (by simp)
  | .int a, .int b => decidable_of_iff (a = b) (by simp)
  | .float a, .float b => decidable_of_iff (a = b) (by simp)
  | .string a, .string b => decidable_of_iff (a = b) (by simp)
  | .boolean a, .boolean b => decidable_of_iff (a = b) (by simp)
  | .null, .null => isTrue rfl
  | .enum a, .enum b => decidable_of_iff (a = b) (by simp)
  | .list as, .list bs =>
    match decEqItems as bs with
    | isTrue h => isTrue (by rw [h])
    | isFalse h => isFalse (by simpa using h)
  | .object as, .object bs =>
    match decEqFields as bs with
    | isTrue h => isTrue (by rw [h])
    | isFalse h => isFalse (by simpa using h)
  | .var _, .int _ | .var _, .float _ | .var _, .string _ | .var _, .boolean _ | .var _, .null
  | .var _, .enum _ | .var _, .list _ | .var _, .object _ => isFalse (by simp)
  | .int _, .var _ | .int _, .float _ | .int _, .string _ | .int _, .boolean _ | .int _, .null
  | .int _, .enum _ | .int _, .list _ | .int _, .object _ => isFalse (by simp)
  | .float _, .var _ | .float _, .int _ | .float _, .string _ | .float _, .boolean _
  | .float _, .null | .float _, .enum _ | .float _, .list _ | .float _, .object _ =>
    isFalse (by simp)
  | .string _, .var _ | .string _, .int _ | .string _, .float _ | .string _, .boolean _
  | .string _, .null | .string _, .enum _ | .string _, .list _ | .string _, .object _ =>
    isFalse (by simp)
  | .boolean _, .var _ | .boolean _, .int _ | .boolean _, .float _ | .boolean _, .string _
  | .boolean _, .null | .boolean _, .enum _ | .boolean _, .list _ | .boolean _, .object _ =>
    isFalse (by simp)
  | .null, .var _ | .null, .int _ | .null, .float _ | .null, .string _ | .null, .boolean _
  | .null, .enum _ | .null, .list _ | .null, .object _ => isFalse (by simp)
  | .enum _, .var _ | .enum _, .int _ | .enum _, .float _ | .enum _, .string _ | .enum _, .boolean _
  | .enum _, .null | .enum _, .list _ | .enum _, .object _ => isFalse (by simp)
  | .list _, .var _ | .list _, .int _ | .list _, .float _ | .list _, .string _ | .list _, .boolean _
  | .list _, .null | .list _, .enum _ | .list _, .object _ => isFalse (by simp)
  | .object _, .var _ | .object _, .int _ | .object _, .float _ | .object _, .string _
  | .object _, .boolean _ | .object _, .null | .object _, .enum _ | .object _, .list _ =>
    isFalse (by simp)

/-- Equality of the items of two lists can be decided. -/
def decEqItems : (as bs : List Value) → Decidable (as = bs)
  | [], [] => isTrue rfl
  | [], _ :: _ => isFalse (by simp)
  | _ :: _, [] => isFalse (by simp)
  | a :: as, b :: bs =>
    match decEq a b, decEqItems as bs with
    | isTrue h, isTrue hs => isTrue (by rw [h, hs])
    | isFalse h, _ => isFalse (by simp [h])
    | _, isFalse hs => isFalse (by simp [hs])

/-- Equality of the fields of two objects can be decided. -/
def decEqFields : (as bs : List (String × Value)) → Decidable (as = bs)
  | [], [] => isTrue rfl
  | [], _ :: _ => isFalse (by simp)
  | _ :: _, [] => isFalse (by simp)
  | (k, a) :: as, (l, b) :: bs =>
    match decEq a b, decEqFields as bs with
    | isTrue h, isTrue hs =>
      if hk : k = l then isTrue (by rw [hk, h, hs]) else isFalse (by simp [hk])
    | isFalse h, _ => isFalse (by simp [h])
    | _, isFalse hs => isFalse (by simp [hs])

end

instance : DecidableEq Value := decEq

/-! ## Objects -/

/-- Puts a field into a sorted list of fields, in the place of one with the same key if there is
one. -/
def insertField (key : String) (value : Value) : List (String × Value) → List (String × Value)
  | [] => [(key, value)]
  | (k, v) :: rest =>
    if key < k then (key, value) :: (k, v) :: rest
    else if key = k then (key, value) :: rest
    else (k, v) :: insertField key value rest

/-- The object with the given fields, of which a later one replaces an earlier one with its key. -/
def ofFields (fields : List (String × Value)) : Value :=
  .object (fields.foldl (fun acc field => insertField field.1 field.2 acc) [])

example : ofFields [("b", .int 1), ("a", .null), ("b", .int 2)] =
    .object [("a", .null), ("b", .int 2)] := by decide +kernel

/-- A field is found under the key it was put under, and all other keys are left alone. -/
theorem lookup_insertField (key other : String) (value : Value) (fields : List (String × Value)) :
    (insertField key value fields).lookup other =
      if other = key then some value else fields.lookup other := by
  have unequal {a b : String} (h : ¬ a = b) : (a == b) = false := by simp [h]
  induction fields with
  | nil => by_cases h : other = key <;> simp [insertField, List.lookup_cons, h, unequal]
  | cons field rest ih =>
    obtain ⟨k, v⟩ := field
    unfold insertField
    split
    · by_cases h : other = key <;> simp [List.lookup_cons, h, unequal]
    · split
      · next e =>
        subst e
        by_cases h : other = key <;> simp [List.lookup_cons, h, unequal]
      · next ne =>
        by_cases h : other = k
        · subst h
          have : ¬ other = key := fun e => ne e.symm
          simp [this]
        · simp [List.lookup_cons, unequal h, ih]

end Value

end SchemaAlgebra
