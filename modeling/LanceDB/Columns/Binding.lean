import Mathlib.Tactic
import LanceDB.Base.Lists

/-!
# Function bindings and their stored form

A Function binding says which columns a registered Function reads and which columns it writes.
The bindings of a table are JSON text in the metadata of its schema.

* `FunctionBinding` : a binding, with its inputs, its outputs and its assignment column.
* `FunctionBinding.toValue`, `FunctionBinding.fromValue` : its JSON value.
* `ensureKnownBindingShape` : the check that a value has no field of a newer version.
* `FunctionBinding.fromValue_toValue` — a binding that was read is read back as it was.
* `ensureKnownBindingShape_toValue` — what is written has a known shape.
-/

namespace LanceDB.Columns

open List Option

/-- The errors of the column operations. -/
inductive Error where
  | invalidInput (message : String)
  | notSupported (message : String)
  /-- An error of Lance, passed on. -/
  | lance (message : String)
  deriving DecidableEq, Repr

/-! ### JSON values -/

inductive JsonScalar where
  | null
  | bool (b : Bool)
  | num (n : ℤ)
  | str (s : String)
  deriving DecidableEq, Repr

/-- A JSON value; the numbers of a binding are integers. -/
inductive Json where
  | scalar (s : JsonScalar)
  | arr (values : List Json)
  | obj (entries : List (String × Json))
  deriving Repr

mutual

def Json.decEq : (v w : Json) → Decidable (v = w)
  | .scalar s, .scalar t => decidable_of_iff (s = t) (by simp)
  | .arr vs, .arr ws =>
    match decEqValues vs ws with
    | .isTrue h => .isTrue (by rw [h])
    | .isFalse h => .isFalse (by simp [h])
  | .obj es, .obj fs =>
    match decEqEntries es fs with
    | .isTrue h => .isTrue (by rw [h])
    | .isFalse h => .isFalse (by simp [h])
  | .scalar _, .arr _ | .scalar _, .obj _ | .arr _, .scalar _ | .arr _, .obj _
  | .obj _, .scalar _ | .obj _, .arr _ => .isFalse (by simp)

def decEqValues : (vs ws : List Json) → Decidable (vs = ws)
  | [], [] => .isTrue rfl
  | [], _ :: _ | _ :: _, [] => .isFalse (by simp)
  | v :: vs, w :: ws =>
    match Json.decEq v w, decEqValues vs ws with
    | .isTrue h, .isTrue hs => .isTrue (by rw [h, hs])
    | .isFalse h, _ => .isFalse (by simp [h])
    | _, .isFalse hs => .isFalse (by simp [hs])

def decEqEntry : (e f : String × Json) → Decidable (e = f)
  | (k, v), (k', v') =>
    match decEq k k', Json.decEq v v' with
    | .isTrue hk, .isTrue hv => .isTrue (by rw [hk, hv])
    | .isFalse hk, _ => .isFalse (by simp [hk])
    | _, .isFalse hv => .isFalse (by simp [hv])

def decEqEntries : (es fs : List (String × Json)) → Decidable (es = fs)
  | [], [] => .isTrue rfl
  | [], _ :: _ | _ :: _, [] => .isFalse (by simp)
  | e :: es, f :: fs =>
    match decEqEntry e f, decEqEntries es fs with
    | .isTrue h, .isTrue hs => .isTrue (by rw [h, hs])
    | .isFalse h, _ => .isFalse (by simp [h])
    | _, .isFalse hs => .isFalse (by simp [hs])

end

instance : DecidableEq Json := Json.decEq

/-- The range of an `i32`. -/
def isI32 (n : ℤ) : Bool := -2 ^ 31 ≤ n ∧ n < 2 ^ 31

/-- The range of a `u32`. -/
def isU32 : ℤ → Bool
  | .ofNat n => Nat.blt n (2 ^ 32)
  | .negSucc _ => false

namespace Json

@[match_pattern] abbrev null : Json := .scalar .null
@[match_pattern] abbrev bool (b : Bool) : Json := .scalar (.bool b)
@[match_pattern] abbrev num (n : ℤ) : Json := .scalar (.num n)
@[match_pattern] abbrev str (s : String) : Json := .scalar (.str s)

def asObject : Json → Option (List (String × Json))
  | .obj entries => some entries
  | _ => none

def asArray : Json → Option (List Json)
  | .arr values => some values
  | _ => none

def asString : Json → Option String
  | .str s => some s
  | _ => none

def asBool : Json → Option Bool
  | .bool b => some b
  | _ => none

/-- An integer of the range `r`. -/
def asIntIn (r : ℤ → Bool) : Json → Option ℤ
  | .num n => if r n then some n else none
  | _ => none

def asI32 (v : Json) : Option ℤ := v.asIntIn isI32

def asU32 (v : Json) : Option ℕ := (v.asIntIn isU32).map Int.toNat

/-- The value of a field of an object. -/
def get (v : Json) (key : String) : Option Json := v.asObject.bind (·.lookup key)

@[simp] theorem get_obj_nil (key : String) : get (.obj []) key = none := rfl

@[simp] theorem get_obj_cons (k : String) (v : Json) (es : List (String × Json)) (key : String) :
    get (.obj ((k, v) :: es)) key = if key = k then some v else get (.obj es) key := by
  by_cases h : key = k
  · simp [get, asObject, h]
  · have h' : (key == k) = false := by simpa using h
    simp [get, asObject, List.lookup_cons, h, h']

@[simp] theorem asString_str (s : String) : asString (.str s) = some s := rfl

@[simp] theorem asBool_bool (b : Bool) : asBool (.bool b) = some b := rfl

@[simp] theorem asArray_arr (vs : List Json) : asArray (.arr vs) = some vs := rfl

theorem asI32_num {n : ℤ} (h : isI32 n) : asI32 (.num n) = some n := by
  simp [asI32, asIntIn, h]

theorem asU32_num {n : ℕ} (h : isU32 n) : asU32 (.num n) = some n := by
  simp [asU32, asIntIn, h]

end Json

/-! ### Bindings -/

/-- `FunctionVersionRef`: the exact Function version a binding was declared with. -/
structure FunctionVersionRef where
  name : String
  namespacePath : List String
  objectId : String
  location : String
  version : String
  manifestDigest : String
  deriving DecidableEq, Repr

/-- `InputBinding`: a column bound to a parameter. -/
structure InputBinding where
  parameter : String
  fieldId : ℤ
  fieldPath : String
  arrowType : String
  nullable : Bool
  deriving DecidableEq

/-- `OutputMapping`: a field of the result and the column it is written to. -/
structure OutputMapping where
  resultField : String
  outputName : String
  outputFieldId : ℤ
  outputOrdinal : ℕ
  arrowType : String
  nullable : Bool
  deriving DecidableEq

/-- `AssignmentMapping`: the column that keeps the validity of a flattened result. -/
structure AssignmentMapping where
  outputName : String
  outputFieldId : ℤ
  deriving DecidableEq

/-- `FunctionBinding`. -/
structure FunctionBinding where
  bindingId : String
  function : FunctionVersionRef
  inputs : List InputBinding
  outputs : List OutputMapping
  assignment : Option AssignmentMapping
  inputSchema : Option Json
  outputSchema : Option Json
  initialization : Option String
  deriving DecidableEq

/-- The digits of an unsigned number below `bound`, after an optional sign. -/
def parseUnsigned (bound : ℕ) (text : String) : Option ℕ :=
  let digits := match text.toList with
    | '+' :: digits => digits
    | digits => digits
  if digits ≠ [] ∧ digits.all Char.isDigit then
    let n := digits.foldl (fun n c => 10 * n + (c.toNat - '0'.toNat)) 0
    if n < bound then some n else none
  else none

/-- The check of `deserialize_object_version`. -/
def isObjectVersion (version : String) : Bool :=
  match parseUnsigned (2 ^ 64) version with
  | some n => 0 < n ∧ toString n = version
  | none => false

/-- The entry of a field that is not written when it is absent. -/
def optionalEntry (key : String) (value : Option Json) : List (String × Json) :=
  match value with
  | some v => [(key, v)]
  | none => []

/-- A field that may be absent or null. -/
def optionalField {α : Type} (v : Json) (key : String) (read : Json → Option α) :
    Option (Option α) :=
  match v.get key with
  | none => some none
  | some .null => some none
  | some value => (read value).map some

/-! ### Writing and reading a binding -/

namespace FunctionVersionRef

def toValue (r : FunctionVersionRef) : Json :=
  .obj ([("name", .str r.name)] ++
    (if r.namespacePath = [] then [] else
      [("namespace_path", .arr (r.namespacePath.map .str))]) ++
    [("object_id", .str r.objectId), ("location", .str r.location),
      ("version", .str r.version), ("manifest_digest", .str r.manifestDigest)])

/-- The namespace of a Function; the root is not written. -/
def namespacePathOf (v : Json) : Option (List String) :=
  match v.get "namespace_path" with
  | none => some []
  | some path => path.asArray.bind (·.mapM Json.asString)

def fromValue (v : Json) : Option FunctionVersionRef := do
  let name ← (← v.get "name").asString
  let namespacePath ← namespacePathOf v
  let objectId ← (← v.get "object_id").asString
  let location ← (← v.get "location").asString
  let version ← (← v.get "version").asString.filter isObjectVersion
  let manifestDigest ← (← v.get "manifest_digest").asString
  return { name, namespacePath, objectId, location, version, manifestDigest }

end FunctionVersionRef

namespace InputBinding

def toValue (i : InputBinding) : Json :=
  .obj [("parameter", .str i.parameter), ("field_id", .num i.fieldId),
    ("field_path", .str i.fieldPath), ("arrow_type", .str i.arrowType),
    ("nullable", .bool i.nullable)]

def fromValue (v : Json) : Option InputBinding := do
  let parameter ← (← v.get "parameter").asString
  let fieldId ← (← v.get "field_id").asI32
  let fieldPath ← (← v.get "field_path").asString
  let arrowType ← (← v.get "arrow_type").asString
  let nullable ← (← v.get "nullable").asBool
  return { parameter, fieldId, fieldPath, arrowType, nullable }

theorem fromValue_toValue {i : InputBinding} (hid : isI32 i.fieldId) :
    fromValue i.toValue = some i := by
  simp [fromValue, toValue, Json.asI32_num hid]

end InputBinding

namespace OutputMapping

def toValue (o : OutputMapping) : Json :=
  .obj [("result_field", .str o.resultField), ("output_name", .str o.outputName),
    ("output_field_id", .num o.outputFieldId),
    ("output_ordinal", .num o.outputOrdinal), ("arrow_type", .str o.arrowType),
    ("nullable", .bool o.nullable)]

def fromValue (v : Json) : Option OutputMapping := do
  let resultField ← (← v.get "result_field").asString
  let outputName ← (← v.get "output_name").asString
  let outputFieldId ← (← v.get "output_field_id").asI32
  let outputOrdinal ← (← v.get "output_ordinal").asU32
  let arrowType ← (← v.get "arrow_type").asString
  let nullable ← (← v.get "nullable").asBool
  return { resultField, outputName, outputFieldId, outputOrdinal, arrowType, nullable }

theorem fromValue_toValue {o : OutputMapping} (hid : isI32 o.outputFieldId)
    (hord : isU32 o.outputOrdinal) : fromValue o.toValue = some o := by
  simp [fromValue, toValue, Json.asI32_num hid, Json.asU32_num hord]

end OutputMapping

namespace AssignmentMapping

def toValue (a : AssignmentMapping) : Json :=
  .obj [("output_name", .str a.outputName), ("output_field_id", .num a.outputFieldId)]

def fromValue (v : Json) : Option AssignmentMapping := do
  let outputName ← (← v.get "output_name").asString
  let outputFieldId ← (← v.get "output_field_id").asI32
  return { outputName, outputFieldId }

theorem fromValue_toValue {a : AssignmentMapping} (hid : isI32 a.outputFieldId) :
    fromValue a.toValue = some a := by
  simp [fromValue, toValue, Json.asI32_num hid]

end AssignmentMapping

theorem mapM_asString_str (names : List String) :
    (names.map Json.str).mapM Json.asString = some names := by
  induction names with
  | nil => rfl
  | cons n ns ih => simp [mapM_cons, ih, Json.asString]

theorem FunctionVersionRef.fromValue_toValue {r : FunctionVersionRef}
    (hver : isObjectVersion r.version) : fromValue r.toValue = some r := by
  obtain ⟨name, path, objectId, location, version, digest⟩ := r
  replace hver : isObjectVersion version = true := hver
  have hp : namespacePathOf (toValue ⟨name, path, objectId, location, version, digest⟩) =
      some path := by
    by_cases hp : path = []
    · simp [namespacePathOf, toValue, hp]
    · have hns : path.mapM (Json.asString ∘ Json.str) = some path := by
        simpa using mapM_asString_str path
      simp [namespacePathOf, toValue, hp, hns]
  simp only [fromValue, hp]
  by_cases hemp : path = [] <;> simp [toValue, hemp, Option.filter, hver]

namespace FunctionBinding

def toValue (b : FunctionBinding) : Json :=
  .obj ([("binding_id", .str b.bindingId), ("function", b.function.toValue),
    ("inputs", .arr (b.inputs.map (·.toValue))),
    ("outputs", .arr (b.outputs.map (·.toValue)))] ++
    optionalEntry "assignment" (b.assignment.map (·.toValue)) ++
    optionalEntry "input_schema" b.inputSchema ++
    optionalEntry "output_schema" b.outputSchema ++
    optionalEntry "initialization" (b.initialization.map .str))

/-- `serde_json::from_value`. -/
def fromValue (v : Json) : Option FunctionBinding := do
  let bindingId ← (← v.get "binding_id").asString
  let function ← FunctionVersionRef.fromValue (← v.get "function")
  let inputs ← (← (← v.get "inputs").asArray).mapM InputBinding.fromValue
  let outputs ← (← (← v.get "outputs").asArray).mapM OutputMapping.fromValue
  let assignment ← optionalField v "assignment" AssignmentMapping.fromValue
  let inputSchema ← optionalField v "input_schema" some
  let outputSchema ← optionalField v "output_schema" some
  let initialization ← optionalField v "initialization" Json.asString
  return { bindingId, function, inputs, outputs, assignment, inputSchema, outputSchema,
           initialization }

/-- What every binding that was read satisfies, whatever it was read from. -/
structure Wire (b : FunctionBinding) : Prop where
  version : isObjectVersion b.function.version
  inputs : ∀ i ∈ b.inputs, isI32 i.fieldId
  outputs : ∀ o ∈ b.outputs, isI32 o.outputFieldId ∧ isU32 o.outputOrdinal
  assignment : ∀ a ∈ b.assignment, isI32 a.outputFieldId
  inputSchema : b.inputSchema ≠ some .null
  outputSchema : b.outputSchema ≠ some .null

end FunctionBinding

variable {v : Json}

theorem Json.asI32_eq_some {n : ℤ} (h : v.asI32 = some n) : isI32 n := by
  cases v with
  | scalar s =>
    cases s with
    | num m =>
      simp only [Json.asI32, Json.asIntIn, ite_none_right_eq_some,
        Option.some.injEq] at h
      exact h.2 ▸ h.1
    | _ => simp [Json.asI32, Json.asIntIn] at h
  | _ => simp [Json.asI32, Json.asIntIn] at h

theorem Json.asU32_eq_some {n : ℕ} (h : v.asU32 = some n) : isU32 n := by
  cases v with
  | scalar s =>
    cases s with
    | num m =>
      simp only [Json.asU32, Json.asIntIn, map_eq_some_iff,
        ite_none_right_eq_some, Option.some.injEq] at h
      obtain ⟨k, ⟨hrng, rfl⟩, rfl⟩ := h
      cases m with
      | ofNat k => exact hrng
      | negSucc k => simp [isU32] at hrng
    | _ => simp [Json.asU32, Json.asIntIn] at h
  | _ => simp [Json.asU32, Json.asIntIn] at h

variable {α : Type}

theorem optionalField_eq_some_some {key : String} {read : Json → Option α} {a : α}
    (h : optionalField v key read = some (some a)) :
    ∃ value, value ≠ Json.null ∧ read value = some a := by
  unfold optionalField at h
  split at h
  · simp at h
  · simp at h
  · rename_i value hval hget
    obtain ⟨b, hr, hb⟩ := map_eq_some_iff.1 h
    obtain rfl := Option.some.inj hb
    exact ⟨value, hval, hr⟩

theorem optionalField_of_get {key : String} {read : Json → Option α} (write : α → Json)
    {x : Option α} (hget : v.get key = x.map write)
    (hwr : ∀ a ∈ x, write a ≠ Json.null ∧ read (write a) = some a) :
    optionalField v key read = some x := by
  cases x with
  | none =>
    unfold optionalField
    rw [hget, map_none]
  | some a =>
    obtain ⟨hnull, hr⟩ := hwr a rfl
    unfold optionalField
    rw [hget, map_some]
    split
    · rename_i heq
      simp at heq
    · rename_i heq
      exact absurd (Option.some.inj heq) hnull
    · rename_i value _ heq
      obtain rfl := Option.some.inj heq
      rw [hr, map_some]

theorem Json.get_append (es fs : List (String × Json)) (key : String) :
    Json.get (.obj (es ++ fs)) key = (Json.get (.obj es) key).or (Json.get (.obj fs) key) := by
  induction es with
  | nil => simp
  | cons e es ih =>
    obtain ⟨k, v⟩ := e
    by_cases h : key = k
    · simp [h]
    · simpa [h] using ih

theorem Json.get_optionalEntry (k : String) (v : Option Json) (key : String) :
    Json.get (.obj (optionalEntry k v)) key = if key = k then v else none := by
  cases v <;> simp [optionalEntry]

theorem mapM_map_some {β : Type} {f : α → β} {g : β → Option α} {l : List α}
    (h : ∀ a ∈ l, g (f a) = some a) : (l.map f).mapM g = some l := by
  induction l with
  | nil => rfl
  | cons a l ih =>
    have hl := ih fun b hb => h b (by simp [hb])
    simp [mapM_cons, h a (by simp), hl]

theorem exists_of_mem_mapM {β : Type} {g : α → Option β} {l : List α} :
    ∀ {bs : List β}, l.mapM g = some bs → ∀ b ∈ bs, ∃ a ∈ l, g a = some b := by
  induction l with
  | nil =>
    intro bs h b hb
    obtain rfl : [] = bs := by simpa using h
    simp at hb
  | cons a l ih =>
    intro bs h b hb
    simp only [mapM_cons, bind_eq_bind, bind_eq_some_iff] at h
    obtain ⟨c, hc, cs, hcs, hbs⟩ := h
    obtain rfl : c :: cs = bs := Option.some.inj hbs
    rcases mem_cons.1 hb with rfl | hb
    · exact ⟨a, by simp, hc⟩
    · obtain ⟨a', ha', hgb⟩ := ih hcs b hb
      exact ⟨a', by simp [ha'], hgb⟩

theorem FunctionVersionRef.isObjectVersion_of_fromValue {r : FunctionVersionRef}
    (h : fromValue v = some r) : isObjectVersion r.version := by
  simp only [fromValue, bind_eq_bind, bind_eq_some_iff,
    filter_eq_some_iff] at h
  obtain ⟨_, -, _, -, _, -, _, -, _, -, _, -, _, -, _, -, _, ⟨-, hver⟩, _, -, _, -, hr⟩ := h
  obtain rfl := Option.some.inj hr
  exact hver

theorem InputBinding.isI32_of_fromValue {i : InputBinding} (h : fromValue v = some i) :
    isI32 i.fieldId := by
  simp only [fromValue, bind_eq_bind, bind_eq_some_iff] at h
  obtain ⟨_, -, _, -, _, -, _, hid, _, -, _, -, _, -, _, -, _, -, _, -, hi⟩ := h
  obtain rfl := Option.some.inj hi
  exact Json.asI32_eq_some hid

theorem OutputMapping.isI32_isU32_of_fromValue {o : OutputMapping} (h : fromValue v = some o) :
    isI32 o.outputFieldId ∧ isU32 o.outputOrdinal := by
  simp only [fromValue, bind_eq_bind, bind_eq_some_iff] at h
  obtain ⟨_, -, _, -, _, -, _, -, _, -, _, hid, _, -, _, hord, _, -, _, -, _, -, _, -, ho⟩ := h
  obtain rfl := Option.some.inj ho
  exact ⟨Json.asI32_eq_some hid, Json.asU32_eq_some hord⟩

theorem AssignmentMapping.isI32_of_fromValue {a : AssignmentMapping} (h : fromValue v = some a) :
    isI32 a.outputFieldId := by
  simp only [fromValue, bind_eq_bind, bind_eq_some_iff] at h
  obtain ⟨_, -, _, -, _, -, _, hid, ha⟩ := h
  obtain rfl := Option.some.inj ha
  exact Json.asI32_eq_some hid

namespace FunctionBinding

theorem wire_of_fromValue {b : FunctionBinding} (h : fromValue v = some b) : b.Wire := by
  simp only [fromValue, bind_eq_bind, bind_eq_some_iff] at h
  obtain ⟨_, -, bindingId, -, fv, -, function, hfn, iv, -, is, -, inputs, hinps, ov, -, os,
    -, outputs, houts, assignment, hasg, inputSchema, hin, outputSchema, hout,
    initialization, -, hb⟩ := h
  obtain rfl := Option.some.inj hb
  refine ⟨?_, ?_, ?_, ?_, ?_, ?_⟩
  · exact FunctionVersionRef.isObjectVersion_of_fromValue hfn
  · intro i hi
    obtain ⟨iv, -, hiv⟩ := exists_of_mem_mapM hinps i hi
    exact InputBinding.isI32_of_fromValue hiv
  · intro o ho
    obtain ⟨ov, -, hov⟩ := exists_of_mem_mapM houts o ho
    exact OutputMapping.isI32_isU32_of_fromValue hov
  · rintro a rfl
    obtain ⟨value, -, hr⟩ := optionalField_eq_some_some hasg
    exact AssignmentMapping.isI32_of_fromValue hr
  · rintro rfl
    obtain ⟨value, hnull, hr⟩ := optionalField_eq_some_some hin
    exact hnull (Option.some.inj hr)
  · rintro rfl
    obtain ⟨value, hnull, hr⟩ := optionalField_eq_some_some hout
    exact hnull (Option.some.inj hr)

/-- **A binding that was read** is read back as it was after it is written. -/
theorem fromValue_toValue {b : FunctionBinding} (h : b.Wire) : fromValue b.toValue = some b := by
  have hfn := FunctionVersionRef.fromValue_toValue h.version
  have hinps : (b.inputs.map (·.toValue)).mapM InputBinding.fromValue = some b.inputs :=
    mapM_map_some fun i hi => InputBinding.fromValue_toValue (h.inputs i hi)
  have houts : (b.outputs.map (·.toValue)).mapM OutputMapping.fromValue = some b.outputs :=
    mapM_map_some fun o ho => OutputMapping.fromValue_toValue (h.outputs o ho).1 (h.outputs o ho).2
  have hasg : optionalField b.toValue "assignment" AssignmentMapping.fromValue =
      some b.assignment := by
    refine optionalField_of_get AssignmentMapping.toValue ?_ fun a ha => ?_
    · simp [toValue, Json.get_append, Json.get_optionalEntry]
    · exact ⟨by simp [AssignmentMapping.toValue],
        AssignmentMapping.fromValue_toValue (h.assignment a ha)⟩
  have hin : optionalField b.toValue "input_schema" some = some b.inputSchema := by
    refine optionalField_of_get id ?_ fun v hv => ⟨?_, rfl⟩
    · simp [toValue, Json.get_append, Json.get_optionalEntry]
    · rintro rfl
      exact h.inputSchema hv
  have hout : optionalField b.toValue "output_schema" some = some b.outputSchema := by
    refine optionalField_of_get id ?_ fun v hv => ⟨?_, rfl⟩
    · simp [toValue, Json.get_append, Json.get_optionalEntry]
    · rintro rfl
      exact h.outputSchema hv
  have hinit : optionalField b.toValue "initialization" Json.asString =
      some b.initialization := by
    refine optionalField_of_get Json.str ?_ fun v hv => ⟨by simp, rfl⟩
    simp [toValue, Json.get_append, Json.get_optionalEntry]
  simp only [fromValue, hasg, hin, hout, hinit]
  simp [toValue, hfn, hinps, houts]

end FunctionBinding

/-! ### Fields of a newer version -/

/-- The names of a list as `{:?}` prints them. -/
def debugNames (names : List String) : String :=
  "[" ++ ", ".intercalate (names.map fun name => "\"" ++ name ++ "\"") ++ "]"

/-- `reject_unknown_object_fields`. -/
def rejectUnknownObjectFields (value : Json) (allowed : List String) (context : String) :
    Except Error Unit :=
  match value.asObject with
  | none => .error (.invalidInput
      s!"invalid Function binding metadata: {context} must be an object")
  | some object =>
    let unknown := (object.map (·.1)).filter (· ∉ allowed)
    let shown := debugNames unknown
    if unknown = [] then .ok ()
    else .error (.notSupported
      s!"Function binding metadata contains newer {context} fields: {shown}")

/-- `FUNCTION_VERSION_REF_FIELDS`. -/
def functionVersionRefFields : List String :=
  ["name", "namespace_path", "object_id", "location", "version", "manifest_digest"]

/-- The value, or an error without it. -/
def orInvalid {α : Type} (message : String) : Option α → Except Error α
  | some a => .ok a
  | none => .error (.invalidInput message)

@[simp] theorem orInvalid_eq_ok {message : String} {x : Option α} {a : α} :
    orInvalid message x = .ok a ↔ x = some a := by
  cases x <;> simp [orInvalid]

/-- `ensure_known_binding_shape`. -/
def ensureKnownBindingShape (value : Json) : Except Error Unit := do
  rejectUnknownObjectFields value
    ["binding_id", "function", "inputs", "outputs", "assignment", "input_schema",
      "output_schema", "initialization"] "binding"
  let function ← orInvalid "Function binding is missing its exact version" (value.get "function")
  rejectUnknownObjectFields function functionVersionRefFields "version reference"
  let inputs ← orInvalid "Function binding inputs must be an array"
    ((value.get "inputs").bind Json.asArray)
  inputs.forM fun input => rejectUnknownObjectFields input
    ["parameter", "field_id", "field_path", "arrow_type", "nullable"] "input binding"
  let outputs ← orInvalid "Function binding outputs must be an array"
    ((value.get "outputs").bind Json.asArray)
  outputs.forM fun output => rejectUnknownObjectFields output
    ["result_field", "output_name", "output_field_id", "output_ordinal", "arrow_type",
      "nullable"] "output mapping"
  match value.get "assignment" with
  | some assignment =>
    rejectUnknownObjectFields assignment ["output_name", "output_field_id"] "assignment mapping"
  | none => pure ()

theorem rejectUnknownObjectFields_ok {value : Json} {allowed : List String} {context : String}
    {object : List (String × Json)} (hobject : value.asObject = some object)
    (h : ∀ e ∈ object, e.1 ∈ allowed) :
    rejectUnknownObjectFields value allowed context = .ok () := by
  have hunknown : (object.map (·.1)).filter (· ∉ allowed) = [] := by
    simpa using h
  rw [rejectUnknownObjectFields, hobject]
  exact if_pos hunknown

theorem mem_optionalEntry {k : String} {v : Option Json} {e : String × Json}
    (h : e ∈ optionalEntry k v) : e.1 = k := by
  cases v with
  | none => simp [optionalEntry] at h
  | some v =>
    obtain rfl : e = (k, v) := by simpa [optionalEntry] using h
    rfl

/-- **What is written has a known shape.** -/
theorem ensureKnownBindingShape_toValue (b : FunctionBinding) :
    ensureKnownBindingShape b.toValue = .ok () := by
  have hbind : rejectUnknownObjectFields b.toValue
      ["binding_id", "function", "inputs", "outputs", "assignment", "input_schema",
        "output_schema", "initialization"] "binding" = .ok () := by
    refine rejectUnknownObjectFields_ok rfl fun e he => ?_
    simp only [mem_append] at he
    rcases he with (((he | he) | he) | he) | he
    · simp only [mem_cons, not_mem_nil, or_false] at he
      rcases he with rfl | rfl | rfl | rfl <;> simp
    all_goals simp [mem_optionalEntry he]
  have hfn : rejectUnknownObjectFields b.function.toValue functionVersionRefFields
      "version reference" = .ok () := by
    refine rejectUnknownObjectFields_ok rfl fun e he => ?_
    simp only [mem_append] at he
    rcases he with (he | he) | he
    · obtain rfl := mem_singleton.1 he
      simp [functionVersionRefFields]
    · split_ifs at he with hp
      · simp at he
      · obtain rfl := mem_singleton.1 he
        simp [functionVersionRefFields]
    · simp only [mem_cons, not_mem_nil, or_false] at he
      rcases he with rfl | rfl | rfl | rfl <;> simp [functionVersionRefFields]
  have hinps : (b.inputs.map (·.toValue)).forM (fun input => rejectUnknownObjectFields input
      ["parameter", "field_id", "field_path", "arrow_type", "nullable"] "input binding") =
      .ok () := by
    refine forM_eq_ok.2 fun v hv => ?_
    obtain ⟨i, -, rfl⟩ := mem_map.1 hv
    refine rejectUnknownObjectFields_ok rfl fun e he => ?_
    simp only [mem_cons, not_mem_nil, or_false] at he
    rcases he with rfl | rfl | rfl | rfl | rfl <;> simp
  have ho : (b.outputs.map (·.toValue)).forM (fun output =>
      rejectUnknownObjectFields output ["result_field", "output_name", "output_field_id",
        "output_ordinal", "arrow_type", "nullable"] "output mapping") = .ok () := by
    refine forM_eq_ok.2 fun v hv => ?_
    obtain ⟨o, -, rfl⟩ := mem_map.1 hv
    refine rejectUnknownObjectFields_ok rfl fun e he => ?_
    simp only [mem_cons, not_mem_nil, or_false] at he
    rcases he with rfl | rfl | rfl | rfl | rfl | rfl <;> simp
  have hgetFunction : b.toValue.get "function" = some b.function.toValue := by
    simp [FunctionBinding.toValue]
  have hgetInputs : b.toValue.get "inputs" = some (.arr (b.inputs.map (·.toValue))) := by
    simp [FunctionBinding.toValue]
  have hgetOutputs : b.toValue.get "outputs" = some (.arr (b.outputs.map (·.toValue))) := by
    simp [FunctionBinding.toValue]
  have hgetAssignment : b.toValue.get "assignment" = b.assignment.map (·.toValue) := by
    simp [FunctionBinding.toValue, Json.get_append, Json.get_optionalEntry]
  unfold ensureKnownBindingShape
  rw [hbind, hgetFunction, hgetInputs, hgetOutputs, hgetAssignment]
  simp only [orInvalid, bind_some, Json.asArray_arr, bind, Except.bind, hfn,
    hinps, ho]
  cases b.assignment with
  | none => rfl
  | some a =>
    refine rejectUnknownObjectFields_ok rfl fun e he => ?_
    simp only [mem_cons, not_mem_nil, or_false] at he
    rcases he with rfl | rfl <;> simp

end LanceDB.Columns
