import LanceDB.Columns.Arrow
import LanceDB.Columns.Binding

/-!
# The types of a Function's parameters and results

A binding records the types of its columns as text.  Before a column operation runs they are
compared with the types of the columns.

* `Lance` : what the column code calls in Lance, in serde and in the SQL planner.
* `canonicalInputArrowType` : the text recorded for the type of a parameter.
* `parseOutputArrowType` : the type of the text recorded for a result.
* `functionOutputTypeMatches` : the comparison of a declared result with a stored column.
-/

namespace LanceDB.Columns

/-! ### Types in the JSON of the Lance namespace -/

/-- A field of the JSON representation. -/
structure JsonFieldOf (T : Type) where
  name : String
  nullable : Bool
  type : T
  metadata : Option Metadata

/-- `JsonArrowDataType`. -/
inductive JsonArrowDataType where
  | mk (type : String) (fields : Option (List (JsonFieldOf JsonArrowDataType)))
      (length : Option ℤ)

/-- `JsonArrowField`. -/
abbrev JsonArrowField := JsonFieldOf JsonArrowDataType

namespace JsonArrowDataType

def type : JsonArrowDataType → String
  | mk type _ _ => type

def fields : JsonArrowDataType → Option (List JsonArrowField)
  | mk _ fields _ => fields

def length : JsonArrowDataType → Option ℤ
  | mk _ _ length => length

end JsonArrowDataType

/-- `FunctionBindingEnvelope`: the bindings of a table, as values. -/
structure Envelope where
  version : ℕ
  bindings : List Json
  deriving DecidableEq

/-- `ColumnAlteration`. -/
structure ColumnAlteration where
  path : String
  rename : Option String
  nullable : Option Bool
  dataType : Option DataType

/-- What the column code calls in other libraries. -/
structure Lance where
  /-- `parse_field_path`: the names along a path, the column first. -/
  parseFieldPath : String → Except String (List String)
  /-- `Planner::parse_expr` and `Planner::column_names_in_expr`: the columns an expression
  reads. -/
  columnNamesInExpr : Schema → String → Except String (List String)
  /-- `serde_json::from_str::<Vec<String>>`. -/
  namesFromStr : String → Option (List String)
  /-- `BlobV2Layout::classify` knows the layout. -/
  classifyBlob : List Field → Bool
  /-- `lance_namespace::schema::arrow_schema_to_json`. -/
  arrowSchemaToJson : List Field → Except String (List JsonArrowField)
  /-- `lance_namespace::schema::convert_json_arrow_field`. -/
  convertJsonArrowField : JsonArrowField → Except String Field
  /-- `lance_namespace::schema::convert_json_arrow_type`. -/
  convertJsonArrowType : JsonArrowDataType → Except String DataType
  /-- `serde_json::to_string` of a type. -/
  typeToStr : JsonArrowDataType → Except String String
  /-- `serde_json::from_str` of a type. -/
  typeFromStr : String → Except String JsonArrowDataType
  /-- `serde_json::to_value` of a schema. -/
  schemaToValue : List JsonArrowField → Except String Json
  /-- `serde_json::from_str` of the envelope. -/
  envelopeFromStr : String → Except String Envelope
  /-- `serde_json::to_string` of the envelope. -/
  envelopeToStr : Envelope → Except String String
  /-- What `serde_json::from_value` says about a value that is no binding. -/
  notABinding : Json → String
  /-- An envelope is read back as it was written. -/
  envelopeFromStr_toStr : ∀ {e raw}, envelopeToStr e = .ok raw → envelopeFromStr raw = .ok e
  /-- Why Lance refuses to drop paths from columns of these names and types. -/
  dropRefused : List (String × DataType) → List (List String) → Option String
  /-- Why Lance refuses alterations, such as a cast that does not exist. -/
  alterRefused : Schema → List ColumnAlteration → Option String

/-- `invalid_function`. -/
def invalidFunction {α : Type} (message : String) : Except Error α :=
  .error (.invalidInput message)

/-- The value, or the error of another library inside a message. -/
def orInvalidFunction {α : Type} (message : String → String) : Except String α → Except Error α
  | .ok a => .ok a
  | .error e => invalidFunction (message e)

/-! ### Blob columns -/

/-- `ARROW_EXT_NAME_KEY`. -/
def arrowExtNameKey : String := "ARROW:extension:name"

/-- `BLOB_V2_EXT_NAME`. -/
def blobV2ExtName : String := "lance.blob.v2"

/-- `FUNCTION_BLOB_V2_TYPE`. -/
def functionBlobV2Type : String := "blob_v2"

/-- `is_blob_v2`. -/
def isBlobV2 (f : Field) : Bool := f.metadata.get arrowExtNameKey = some blobV2ExtName

/-- `blob`: a blob column. -/
def blob (name : String) (nullable : Bool) : Field where
  name := name
  dataType := .struct [⟨"data", .primitive .largeBinary, true, []⟩,
    ⟨"uri", .primitive .utf8, true, []⟩, ⟨"position", .primitive (.int 64 false), true, []⟩,
    ⟨"size", .primitive (.int 64 false), true, []⟩]
  nullable := nullable
  metadata := [(arrowExtNameKey, blobV2ExtName)]

variable (L : Lance)

/-- `has_supported_blob_v2_layout`. -/
def hasSupportedBlobV2Layout (f : Field) : Bool :=
  isBlobV2 f && match f.dataType with
    | .struct fields => L.classifyBlob fields
    | _ => false

mutual

/-- `validate_function_blob_nesting`, of a type. -/
def validateFunctionBlobNestingType (insideCollection : Bool) :
    DataType → Except Error Unit
  | .struct fields => validateFunctionBlobNestingFields insideCollection fields
  | .list _ item => validateFunctionBlobNesting true item
  | .map entries _ => validateFunctionBlobNesting true entries
  | _ => .ok ()

/-- `validate_function_blob_nesting`. -/
def validateFunctionBlobNesting (insideCollection : Bool) :
    FieldOf DataType → Except Error Unit
  | ⟨name, dataType, nullable, metadata⟩ =>
    if isBlobV2 ⟨name, dataType, nullable, metadata⟩ then
      if insideCollection then
        invalidFunction (s!"Function field '{name}' nests Blob v2 under a collection, which " ++
          s!"Function signatures do not support")
      else if hasSupportedBlobV2Layout L ⟨name, dataType, nullable, metadata⟩ then .ok ()
      else invalidFunction s!"Function field '{name}' has an invalid Blob v2 storage layout"
    else validateFunctionBlobNestingType insideCollection dataType

def validateFunctionBlobNestingFields (insideCollection : Bool) :
    List (FieldOf DataType) → Except Error Unit
  | [] => .ok ()
  | f :: fs => do
    validateFunctionBlobNesting insideCollection f
    validateFunctionBlobNestingFields insideCollection fs

end

/-! ### Parameters -/

/-- `canonical_input_arrow_type`. -/
def canonicalInputArrowType (field : JsonArrowField) : Except Error String := do
  let isBlob := (field.metadata.bind (·.get arrowExtNameKey)) = some blobV2ExtName
  if isBlob ∨ field.type.fields.isSome then
    let arrowField ← orInvalidFunction (fun e => s!"invalid Function input field: {e}")
      (L.convertJsonArrowField field)
    validateFunctionBlobNesting L false arrowField
  if isBlob then return functionBlobV2Type
  if field.type.fields.isNone ∧ field.type.length.isNone then
    return field.type.type
  else
    orInvalidFunction (fun e => s!"could not encode exact Function input type: {e}")
      (L.typeToStr field.type)

/-! ### Results -/

/-- `char::is_whitespace`: the characters with the Unicode property `White_Space`. -/
def isWhitespace (c : Char) : Bool :=
  (0x9 ≤ c.toNat && c.toNat ≤ 0xd) || (0x2000 ≤ c.toNat && c.toNat ≤ 0x200a) ||
    c.toNat ∈ [0x20, 0x85, 0xa0, 0x1680, 0x2028, 0x2029, 0x202f, 0x205f, 0x3000]

/-- `trim`: the text without the white space around it. -/
def trimmed (text : List Char) : List Char :=
  ((text.dropWhile isWhitespace).reverse.dropWhile isWhitespace).reverse

/-- The text between `before` and `after`, if it is enclosed in them. -/
def strip (before after : String) (text : List Char) : Option (List Char) := do
  let rest ← before.toList.isPrefixOf? text
  let inner ← after.toList.reverse.isPrefixOf? rest.reverse
  return inner.reverse

/-- The last comma outside of nested brackets: the text before it and after it.  `depth` is the
number of open brackets. -/
def splitAtComma (depth : ℕ) (before : List Char) (found : Option (List Char × List Char)) :
    List Char → Option (Option (List Char × List Char))
  | [] => some found
  | c :: rest =>
    if c = '<' then splitAtComma (depth + 1) (c :: before) found rest
    else if c = '>' then
      if depth = 0 then none else splitAtComma (depth - 1) (c :: before) found rest
    else if c = ',' ∧ depth = 0 then
      splitAtComma depth (c :: before) (some (before.reverse, rest)) rest
    else splitAtComma depth (c :: before) found rest

/-- `split_fixed_size_list`. -/
def splitFixedSizeList (raw : List Char) : Option (List Char × ℕ) := do
  let inner ← strip "fixed_size_list<" ">" raw
  let (item, size) ← ← splitAtComma 0 [] none inner
  let size ← parseUnsigned (2 ^ 31) (String.ofList (trimmed size))
  if 0 < size then some (trimmed item, size) else none

/-- A list type of the JSON representation; its items are not null. -/
def jsonList (type : String) (item : JsonArrowDataType) (length : Option ℤ) :
    JsonArrowDataType :=
  .mk type (some [⟨"item", false, item, none⟩]) length

/-- The name of a type without nested fields. -/
def normalizedTypeName (raw : String) : String :=
  if raw = "boolean" then "bool"
  else if raw = "string" then "utf8"
  else if raw = "large_string" then "large_utf8"
  else if raw = "halffloat" then "float16"
  else if raw = "float" then "float32"
  else if raw = "double" then "float64"
  else raw

/-- The inner `parse` of `parse_output_arrow_type`.  Every nested type is shorter than the text
around it, so that its length suffices as fuel. -/
def parseTypeText : ℕ → List Char → Except Error JsonArrowDataType
  | 0, raw =>
    let text := String.ofList raw
    invalidFunction s!"invalid Function Arrow type '{text}'"
  | fuel + 1, raw =>
    let raw := trimmed raw
    let text := String.ofList raw
    if ['{'].isPrefixOf raw then
      orInvalidFunction (fun e => s!"invalid Function Arrow type '{text}': {e}")
        (L.typeFromStr text)
    else if let some inner := strip "list<" ">" raw then do
      return jsonList "list" (← parseTypeText fuel inner) none
    else if let some inner := strip "large_list<" ">" raw then do
      return jsonList "large_list" (← parseTypeText fuel inner) none
    else if let some (inner, size) := splitFixedSizeList raw then do
      return jsonList "fixed_size_list" (← parseTypeText fuel inner) (some size)
    else .ok (.mk (normalizedTypeName text) none none)

/-- `parse_output_arrow_type`. -/
def parseOutputArrowType (raw : String) : Except Error JsonArrowDataType := do
  let dataType ← parseTypeText L (raw.length + 1) raw.toList
  let _ ← orInvalidFunction (fun e => s!"unsupported Function Arrow type '{raw}': {e}")
    (L.convertJsonArrowType dataType)
  return dataType

/-- `function_output_field`. -/
def functionOutputField (name : String) (nullable : Bool) (raw : String) :
    Except Error JsonArrowField := do
  let field ← if raw = functionBlobV2Type then do
      let fields ← orInvalidFunction (fun e => s!"could not encode Blob v2 output field: {e}")
        (L.arrowSchemaToJson [blob name nullable])
      orInvalid "Blob v2 output field is missing" fields.head?
    else do
      pure ⟨name, nullable, ← parseOutputArrowType L raw, none⟩
  let arrowField ← orInvalidFunction (fun e => s!"invalid Function output field: {e}")
    (L.convertJsonArrowField field)
  validateFunctionBlobNesting L false arrowField
  return field

mutual

/-- `function_output_type_matches`. -/
def functionOutputTypeMatches : DataType → DataType → Bool
  | .struct expected, .struct actual =>
    DataType.struct expected = .struct actual || functionOutputFieldsMatch expected actual
  | .list kind expected, .list kind' actual =>
    DataType.list kind expected = .list kind' actual ||
      (kind = kind' && functionOutputFieldMatches expected actual false)
  | .map expected sorted, .map actual sorted' =>
    DataType.map expected sorted = .map actual sorted' ||
      (sorted = sorted' && functionOutputFieldMatches expected actual true)
  | expected, actual => expected = actual

/-- `function_output_field_matches`.  The items of a list are compared without their name and
nullability, which Lance rewrites. -/
def functionOutputFieldMatches : FieldOf DataType → Field → Bool → Bool
  | ⟨name, dataType, nullable, metadata⟩, actual, compareIdentity =>
    if compareIdentity && (name ≠ actual.name || nullable ≠ actual.nullable) then false
    else
      match isBlobV2 ⟨name, dataType, nullable, metadata⟩, isBlobV2 actual with
      | false, false => functionOutputTypeMatches dataType actual.dataType
      | true, true => hasSupportedBlobV2Layout L ⟨name, dataType, nullable, metadata⟩ &&
          hasSupportedBlobV2Layout L actual
      | _, _ => false

/-- The children of a struct, pair by pair. -/
def functionOutputFieldsMatch : List (FieldOf DataType) → List Field → Bool
  | [], [] => true
  | expected :: es, actual :: as =>
    functionOutputFieldMatches expected actual true && functionOutputFieldsMatch es as
  | _, _ => false

end

end LanceDB.Columns
