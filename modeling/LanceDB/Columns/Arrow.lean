import LanceDB.Base.Lists

/-!
# Arrow schemas

The types, fields and schemas of Arrow, as far as the column code reads them.

* `DataType`, `Field` : types with their nested fields; a field carries metadata of its own.
* `Schema` : the columns of a table, under different names, and the metadata of the table.
* `Schema.fieldWithName_eq_some` — a column is found under its name.
* `DataType.unnulled` : a type up to the nullability of its nested fields.
-/

namespace LanceDB.Columns

/-- A `HashMap<String, String>`, with one entry for a key. -/
abbrev Metadata := List (String × String)

/-- A named field of the type `T`. -/
structure FieldOf (T : Type) where
  name : String
  dataType : T
  nullable : Bool
  metadata : Metadata
  deriving DecidableEq, Repr

/-- The types without nested fields. -/
inductive Primitive where
  | null
  | boolean
  | int (bits : ℕ) (signed : Bool)
  | float (bits : ℕ)
  | utf8
  | largeUtf8
  | utf8View
  | binary
  | largeBinary
  | binaryView
  /-- Any other such type, by its name. -/
  | other (name : String)
  deriving DecidableEq, Repr

/-- `List`, `LargeList` and `FixedSizeList`, which hold their items in the same way. -/
inductive ListKind where
  | list
  | largeList
  | fixedSizeList (size : ℕ)
  deriving DecidableEq, Repr

/-- An Arrow type. -/
inductive DataType where
  | primitive (p : Primitive)
  | dictionary (key value : DataType)
  | struct (fields : List (FieldOf DataType))
  | list (kind : ListKind) (item : FieldOf DataType)
  | map (entries : FieldOf DataType) (sorted : Bool)
  deriving Repr

/-- An Arrow field. -/
abbrev Field := FieldOf DataType

/-! ### Comparing types -/

mutual

def DataType.decEq : (s t : DataType) → Decidable (s = t)
  | .primitive p, .primitive q => decidable_of_iff (p = q) (by simp)
  | .dictionary k v, .dictionary k' v' =>
    match DataType.decEq k k', DataType.decEq v v' with
    | .isTrue hk, .isTrue hv => .isTrue (by rw [hk, hv])
    | .isFalse hk, _ => .isFalse (by simp [hk])
    | _, .isFalse hv => .isFalse (by simp [hv])
  | .struct fs, .struct gs =>
    match decEqFields fs gs with
    | .isTrue h => .isTrue (by rw [h])
    | .isFalse h => .isFalse (by simp [h])
  | .list k f, .list k' f' =>
    match decEq k k', decEqField f f' with
    | .isTrue hk, .isTrue hf => .isTrue (by rw [hk, hf])
    | .isFalse hk, _ => .isFalse (by simp [hk])
    | _, .isFalse hf => .isFalse (by simp [hf])
  | .map f b, .map f' b' =>
    match decEqField f f', decEq b b' with
    | .isTrue hf, .isTrue hb => .isTrue (by rw [hf, hb])
    | .isFalse hf, _ => .isFalse (by simp [hf])
    | _, .isFalse hb => .isFalse (by simp [hb])
  | .primitive _, .dictionary .. | .primitive _, .struct _ | .primitive _, .list ..
  | .primitive _, .map .. | .dictionary .., .primitive _ | .dictionary .., .struct _
  | .dictionary .., .list .. | .dictionary .., .map .. | .struct _, .primitive _
  | .struct _, .dictionary .. | .struct _, .list .. | .struct _, .map ..
  | .list .., .primitive _ | .list .., .dictionary .. | .list .., .struct _
  | .list .., .map .. | .map .., .primitive _ | .map .., .dictionary .. | .map .., .struct _
  | .map .., .list .. => .isFalse (by simp)

def decEqField : (f g : FieldOf DataType) → Decidable (f = g)
  | ⟨n, t, b, m⟩, ⟨n', t', b', m'⟩ =>
    match DataType.decEq t t', decEq (n, b, m) (n', b', m') with
    | .isTrue ht, .isTrue h => .isTrue (by simp_all)
    | .isFalse ht, _ => .isFalse (by simp [ht])
    | _, .isFalse h => .isFalse (by simp_all)

def decEqFields : (fs gs : List (FieldOf DataType)) → Decidable (fs = gs)
  | [], [] => .isTrue rfl
  | [], _ :: _ => .isFalse (by simp)
  | _ :: _, [] => .isFalse (by simp)
  | f :: fs, g :: gs =>
    match decEqField f g, decEqFields fs gs with
    | .isTrue hf, .isTrue hfs => .isTrue (by rw [hf, hfs])
    | .isFalse hf, _ => .isFalse (by simp [hf])
    | _, .isFalse hfs => .isFalse (by simp [hfs])

end

instance : DecidableEq DataType := DataType.decEq

/-! ### Metadata -/

namespace Metadata

/-- The value under a key. -/
def get (m : Metadata) (key : String) : Option String := List.lookup key m

/-- `contains_key`. -/
def containsKey (m : Metadata) (key : String) : Bool := m.any (·.1 == key)

/-- The metadata with a new value under a key, or without the key. -/
def set (m : Metadata) (key : String) : Option String → Metadata
  | some value => (key, value) :: m.filter (·.1 ≠ key)
  | none => m.filter (·.1 ≠ key)

/-- The metadata without some of its keys. -/
def without (m : Metadata) (cleared : String → Bool) : Metadata := m.filter (!cleared ·.1)

theorem get_filter (m : Metadata) (p : String → Bool) (key : String) :
    get (m.filter (p ·.1)) key = if p key then get m key else none := by
  induction m with
  | nil => simp [get]
  | cons e m ih =>
    obtain ⟨k, v⟩ := e
    simp only [get] at ih ⊢
    by_cases hkey : key = k
    · subst hkey
      cases hp : p key
      · simpa [List.filter_cons, hp] using ih
      · simp [hp]
    · have hkey' : (key == k) = false := by simpa using hkey
      cases hp : p k
      · simpa [List.filter_cons, hp, List.lookup_cons, hkey'] using ih
      · simpa [List.filter_cons, hp, List.lookup_cons, hkey'] using ih

@[simp] theorem get_without (m : Metadata) (cleared : String → Bool) (key : String) :
    (m.without cleared).get key = if cleared key then none else m.get key := by
  rw [without, get_filter m fun k => !cleared k]
  cases cleared key <;> rfl

@[simp] theorem get_set_self (m : Metadata) (key : String) (value : Option String) :
    (m.set key value).get key = value := by
  cases value with
  | some v => simp [set, get]
  | none =>
    have := get_filter m (fun k => decide (k ≠ key)) key
    simpa [set] using this

end Metadata

/-! ### Schemas -/

/-- The columns of a table and its metadata.  Lance keeps the names of the columns different. -/
structure Schema where
  fields : List Field
  metadata : Metadata
  nodup : (fields.map (·.name)).Nodup

namespace Schema

/-- `field_with_name`: the column of a name. -/
def fieldWithName (s : Schema) (name : String) : Option Field :=
  s.fields.find? (·.name == name)

theorem fieldWithName_eq_some {s : Schema} {name : String} {f : Field} :
    s.fieldWithName name = some f ↔ f ∈ s.fields ∧ f.name = name :=
  List.find?_key_eq_some s.nodup

end Schema

/-! ### Types up to nullability -/

mutual

/-- A type with every nested field nullable. -/
def DataType.unnulled : DataType → DataType
  | .primitive p => .primitive p
  | .dictionary k v => .dictionary k.unnulled v.unnulled
  | .struct fs => .struct (unnulledFields fs)
  | .list kind f => .list kind (unnulledField f)
  | .map f sorted => .map (unnulledField f) sorted

/-- A nullable field of the same name. -/
def unnulledField : FieldOf DataType → FieldOf DataType
  | ⟨n, t, _, m⟩ => ⟨n, t.unnulled, true, m⟩

def unnulledFields : List (FieldOf DataType) → List (FieldOf DataType)
  | [] => []
  | f :: fs => unnulledField f :: unnulledFields fs

end

end LanceDB.Columns
