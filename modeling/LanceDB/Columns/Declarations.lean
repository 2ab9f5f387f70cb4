import LanceDB.Base.DepthFirst
import LanceDB.Columns.FunctionTypes

/-!
# Declarations of computed columns

A computed column is declared in the metadata of its field: by a SQL expression, or as an output
of a Function binding, which is stored in the metadata of the schema.  A column operation first
checks that the declarations are ones this version understands.

* `computedColumnFromField`, `computedColumns` : the declarations of a schema.
* `ensureBindingMatchesSchema` : a binding describes its columns as they are.
* `ensureSupportedFunctionMetadata` : the check of the whole schema.
* `protectedRoots`, `ensureNotBoundBy`, `ensureNotAnInputOf`, `ensureNotRetyped` : the checks of
  the columns an operation touches.
-/

namespace LanceDB.Columns

variable (L : Lance)

/-! ### Paths -/

/-- `field_root`: the column a path addresses. -/
def fieldRoot (path : String) : Except Error String :=
  match L.parseFieldPath path with
  | .error e => .error (.invalidInput s!"invalid column path '{path}': {e}")
  | .ok [] => .error (.invalidInput s!"column path '{path}' is empty")
  | .ok (column :: _) => .ok column

/-- `whole_column`: the column a path names, unless it goes into one. -/
def wholeColumn (path : String) : Except Error (Option String) :=
  match L.parseFieldPath path with
  | .error e => .error (.invalidInput s!"invalid column path '{path}': {e}")
  | .ok [] => .error (.invalidInput s!"column path '{path}' is empty")
  | .ok [column] => .ok (some column)
  | .ok (_ :: _ :: _) => .ok none

/-- `root`: the column of a path, or the text before its first dot. -/
def root (path : String) : String :=
  match fieldRoot L path with
  | .ok column => column
  | .error _ => String.ofList (path.toList.takeWhile (· ≠ '.'))

/-! ### Declarations -/

/-- `COMPUTED_COLUMN_META_KEY`. -/
def computedColumnMetaKey : String := "computed_column"

/-- `KIND_META_KEY`. -/
def kindMetaKey : String := "computed_column.kind"

/-- `EXPRESSION_META_KEY`. -/
def expressionMetaKey : String := "computed_column.expression"

/-- `INPUTS_META_KEY`. -/
def inputsMetaKey : String := "computed_column.inputs"

/-- `FUNCTION_BINDING_ID_META_KEY`. -/
def functionBindingIdMetaKey : String := "computed_column.function.binding_id"

/-- `FUNCTION_OUTPUT_ORDINAL_META_KEY`. -/
def functionOutputOrdinalMetaKey : String := "computed_column.function.output_ordinal"

/-- `FUNCTION_ASSIGNMENT_OUTPUT_ORDINAL`. -/
def functionAssignmentOutputOrdinal : ℕ := 2 ^ 32 - 1

/-- `FUNCTION_BINDINGS_META_KEY`. -/
def functionBindingsMetaKey : String := "lancedb::function_bindings"

/-- `FUNCTION_BINDINGS_VERSION`. -/
def functionBindingsVersion : ℕ := 1

/-- `SQL_KIND`. -/
def sqlKind : String := "sql"

/-- `FUNCTION_KIND`. -/
def functionKind : String := "function"

/-- `WHOLE_RESULT_FIELD`. -/
def wholeResultField : String := "$value"

/-- `ComputedColumnKind`: the rule of a computed column. -/
inductive ComputedColumnKind where
  | sql (expression : String)
  | function (bindingId : String) (outputOrdinal : ℕ)
  | unrecognized (kind : String)
  deriving DecidableEq, Repr

/-- `ComputedColumn`. -/
structure ComputedColumn where
  name : String
  kind : ComputedColumnKind
  /-- The columns the rule reads, recorded when it was declared. -/
  inputs : List String
  deriving DecidableEq, Repr

/-- `is_declaration_key`. -/
def isDeclarationKey (key : String) : Bool :=
  key = computedColumnMetaKey || "computed_column.".toList.isPrefixOf key.toList ||
    "computed_refresh.".toList.isPrefixOf key.toList

/-- The metadata flags the column as computed. -/
def isFlagged (m : Metadata) : Bool := m.get computedColumnMetaKey = some "true"

/-- The output ordinal of a Function column. -/
def outputOrdinalOf (m : Metadata) : Option ℕ :=
  (m.get functionOutputOrdinalMetaKey).bind (parseUnsigned (2 ^ 32))

/-- The kind that is declared in the metadata of a field. -/
def declaredKind (m : Metadata) : Option ComputedColumnKind :=
  match m.get kindMetaKey with
  | none => none
  | some kind =>
    if kind = sqlKind then (m.get expressionMetaKey).map .sql
    else if kind = functionKind then
      match m.get functionBindingIdMetaKey, outputOrdinalOf m with
      | some bindingId, some ordinal =>
        if bindingId ≠ "" then some (.function bindingId ordinal)
        else some (.unrecognized functionKind)
      | _, _ => some (.unrecognized functionKind)
    else some (.unrecognized kind)

/-- The inputs that are recorded in the metadata of a field. -/
def declaredInputs (m : Metadata) : Option (List String) :=
  (m.get inputsMetaKey).bind L.namesFromStr

/-- `computed_column_from_field`. -/
def computedColumnFromField (f : Field) : Option ComputedColumn :=
  if isFlagged f.metadata then
    (declaredKind f.metadata).map fun kind =>
      ⟨f.name, kind, (declaredInputs L f.metadata).getD []⟩
  else none

/-- `computed_columns`. -/
def computedColumns (s : Schema) : List ComputedColumn :=
  s.fields.filterMap (computedColumnFromField L)

/-! ### Stored bindings -/

/-- `function_binding_envelope`. -/
def functionBindingEnvelope (m : Metadata) : Except Error (Option Envelope) :=
  match m.get functionBindingsMetaKey with
  | none => .ok none
  | some raw => do
    let envelope ← orInvalidFunction (fun e => s!"invalid Function binding metadata: {e}")
      (L.envelopeFromStr raw)
    let version := envelope.version
    if version ≠ functionBindingsVersion then
      .error (.notSupported
        s!"Function binding metadata version {version} is not supported by this client")
    else .ok (some envelope)

/-- A stored value as a binding. -/
def decodeBinding (value : Json) : Except Error FunctionBinding :=
  let e := L.notABinding value
  orInvalid s!"invalid Function binding metadata: {e}" (FunctionBinding.fromValue value)

/-- `function_bindings`. -/
def functionBindings (m : Metadata) : Except Error (List FunctionBinding) := do
  match ← functionBindingEnvelope L m with
  | none => return []
  | some envelope => envelope.bindings.mapM (decodeBinding L)

/-- `function_bindings_metadata`. -/
def functionBindingsMetadata (bindings : List FunctionBinding) : Except Error String :=
  orInvalidFunction (fun e => s!"invalid Function binding metadata: {e}")
    (L.envelopeToStr ⟨functionBindingsVersion, bindings.map (·.toValue)⟩)

/-! ### A binding and its columns -/

/-- `resolve_field_path`: the column and the field of a path. -/
def resolveFieldPath (s : Schema) (path : String) : Except Error (Field × Field) :=
  match L.parseFieldPath path with
  | .error e => invalidFunction s!"invalid Function input field path '{path}': {e}"
  | .ok [] => invalidFunction "Function input field path cannot be empty"
  | .ok (root :: children) => do
    let root ← orInvalid s!"unknown Function input column '{path}'" (s.fieldWithName root)
    let leaf ← children.foldlM (fun (leaf : Field) child =>
      match leaf.dataType with
      | .struct fields =>
        orInvalid s!"unknown Function input column '{path}'" (fields.find? (·.name == child))
      | _ => invalidFunction
          s!"Function input field path '{path}' traverses a non-struct field") root
    return (root, leaf)

/-- `function_input_is_computed`. -/
def functionInputIsComputed (root : Field) (path : String) : Except Error Bool :=
  if isFlagged root.metadata then
    match (computedColumnFromField L root).map ComputedColumn.kind with
    | some (.sql _) => .ok true
    | some (.function _ ordinal) =>
      if ordinal ≠ functionAssignmentOutputOrdinal then .ok true
      else invalidFunction
        s!"Function input '{path}' is an internal Function assignment column"
    | some (.unrecognized kind) => .error (.notSupported
        (s!"Function input '{path}' is computed by '{kind}', which this version of " ++
          s!"lancedb cannot fill"))
    | none => invalidFunction
        s!"Function input '{path}' carries an incomplete computed-column declaration"
  else .ok false

/-- `function_input_metadata`. -/
def functionInputMetadata (f : Field) : Metadata := f.metadata.without isDeclarationKey

/-- The parameter of one input of a binding, checked against its column. -/
def bindingInputField (s : Schema) (bindingId : String) (input : InputBinding) :
    Except Error Field := do
  let path := input.fieldPath
  let parameter := input.parameter
  let (root, leaf) ← resolveFieldPath L s path
  let computed ← functionInputIsComputed L root path
  if computed ∧ input.nullable then
    invalidFunction (s!"Function input '{path}' is computed, so parameter '{parameter}' in " ++
      s!"binding '{bindingId}' must be non-nullable: a refresh passes it only rows where the " ++
      s!"input holds a value")
  if ¬computed ∧ leaf.nullable ∧ ¬input.nullable then
    invalidFunction (s!"Function input column '{path}' is nullable, but parameter " ++
      s!"'{parameter}' in binding '{bindingId}' is non-nullable")
  let parameterField : Field :=
    ⟨parameter, leaf.dataType, input.nullable, functionInputMetadata leaf⟩
  let json ← orInvalidFunction (fun e => s!"invalid Function input schema: {e}")
    (L.arrowSchemaToJson [parameterField])
  let jsonField ← orInvalid "invalid Function input schema" json.head?
  if (← canonicalInputArrowType L jsonField) ≠ input.arrowType then
    invalidFunction s!"Function input '{path}' type no longer matches binding '{bindingId}'"
  return parameterField

/-- The column of one output of a binding, checked against its declaration. -/
def bindingOutputField (s : Schema) (b : FunctionBinding) (output : OutputMapping) :
    Except Error JsonArrowField := do
  let bindingId := b.bindingId
  let name := output.outputName
  let field ← orInvalid s!"Function binding '{bindingId}' output '{name}' is missing"
    (s.fieldWithName name)
  if ¬field.nullable then
    invalidFunction s!"Function output '{name}' no longer matches binding '{bindingId}'"
  let typeMatches ← if output.arrowType = functionBlobV2Type then
      pure (hasSupportedBlobV2Layout L field)
    else do
      let expected ← parseOutputArrowType L output.arrowType
      let expected ← orInvalidFunction (fun e => s!"invalid Function output type: {e}")
        (L.convertJsonArrowType expected)
      pure (functionOutputTypeMatches L expected field.dataType)
  if ¬typeMatches then
    invalidFunction s!"Function output '{name}' type no longer matches binding '{bindingId}'"
  let m := field.metadata
  if ¬isFlagged m ∨ m.get kindMetaKey ≠ some functionKind ∨
      m.get functionBindingIdMetaKey ≠ some bindingId ∨
      outputOrdinalOf m ≠ some output.outputOrdinal ∨
      declaredInputs L m ≠ some (b.inputs.map (·.fieldPath)) then
    invalidFunction (s!"Function output '{name}' declaration metadata does not match binding " ++
      s!"'{bindingId}'")
  functionOutputField L field.name true output.arrowType

/-- The assignment column of a binding, checked against its declaration. -/
def bindingAssignmentField (s : Schema) (b : FunctionBinding) :
    Except Error (List JsonArrowField) := do
  let bindingId := b.bindingId
  match b.assignment with
  | some assignment =>
    let name := assignment.outputName
    if b.outputs.any (·.resultField = wholeResultField) then
      invalidFunction (s!"Function binding '{bindingId}' cannot attach an assignment column to " ++
        s!"a whole result")
    let field ← orInvalid
      s!"Function binding '{bindingId}' assignment column '{name}' is missing"
      (s.fieldWithName name)
    let m := field.metadata
    if field.dataType ≠ .primitive .boolean ∨ ¬field.nullable ∨ ¬isFlagged m ∨
        m.get kindMetaKey ≠ some functionKind ∨
        m.get functionBindingIdMetaKey ≠ some bindingId ∨
        outputOrdinalOf m ≠ some functionAssignmentOutputOrdinal then
      invalidFunction (s!"Function binding '{bindingId}' assignment column no longer matches " ++
        s!"its declaration")
    let json ← orInvalidFunction (fun e => s!"invalid Function assignment schema: {e}")
      (L.arrowSchemaToJson [⟨name, .primitive .boolean, true, []⟩])
    return json.take 1
  | none =>
    if b.outputs.all (·.nullable) ∧ b.outputs.all (·.resultField ≠ wholeResultField) then
      invalidFunction
        s!"Function binding '{bindingId}' has no flattened-result assignment column"
    return []

/-- `ensure_binding_matches_schema`. -/
def ensureBindingMatchesSchema (s : Schema) (b : FunctionBinding) : Except Error Unit := do
  let bindingId := b.bindingId
  let inputFields ← b.inputs.mapM (bindingInputField L s bindingId)
  let inputSchema ← orInvalidFunction (fun e => s!"invalid Function input schema: {e}")
    (L.arrowSchemaToJson inputFields)
  let inputSchema ← orInvalidFunction
    (fun e => s!"could not encode exact Function input schema: {e}")
    (L.schemaToValue inputSchema)
  if b.inputSchema ≠ some inputSchema then
    invalidFunction
      s!"Function binding '{bindingId}' input schema does not match its inputs"
  let outputFields ← b.outputs.mapM (bindingOutputField L s b)
  let assignmentField ← bindingAssignmentField L s b
  let outputSchema ← orInvalidFunction
    (fun e => s!"could not encode exact Function output schema: {e}")
    (L.schemaToValue (outputFields ++ assignmentField))
  if b.outputSchema ≠ some outputSchema then
    invalidFunction
      s!"Function binding '{bindingId}' output schema does not match physical siblings"

/-! ### The check of a schema -/

/-- The checks of one binding. -/
def ensureBinding (s : Schema) (b : FunctionBinding) : Except Error Unit := do
  let bindingId := b.bindingId
  if b.outputs = [] then
    .error (.invalidInput s!"Function binding '{bindingId}' has no outputs")
  if b.function.name = "" ∨ b.function.version = "" then
    .error (.invalidInput s!"Function binding '{bindingId}' has no exact version")
  if b.inputSchema.isNone ∨ b.outputSchema.isNone then
    .error (.notSupported
      s!"Function binding '{bindingId}' does not contain exact Arrow schemas")
  if b.outputs.map (·.outputOrdinal) ≠ List.range b.outputs.length then
    .error (.invalidInput
      s!"Function binding '{bindingId}' has non-canonical output ordinals")
  ensureBindingMatchesSchema L s b

/-- The loop over the bindings; `seen` holds the identities of those before. -/
def ensureBindings (s : Schema) : List String → List FunctionBinding → Except Error Unit
  | _, [] => .ok ()
  | seen, b :: bs => do
    let bindingId := b.bindingId
    if bindingId ∈ seen then
      .error (.invalidInput s!"duplicate Function binding '{bindingId}'")
    ensureBinding L s b
    ensureBindings s (bindingId :: seen) bs

/-- The binding of an identity: a later one replaces an earlier one in the map. -/
def bindingById (bindings : List FunctionBinding) (bindingId : String) :
    Option FunctionBinding :=
  bindings.reverse.find? (·.bindingId == bindingId)

/-- The column an output ordinal of a binding is written to. -/
def destination (b : FunctionBinding) (ordinal : ℕ) : Option String :=
  if ordinal = functionAssignmentOutputOrdinal then b.assignment.map (·.outputName)
  else b.outputs[ordinal]?.map (·.outputName)

/-- The check of the declaration of one column. -/
def ensureDeclaration (bindings : List FunctionBinding) (f : Field) : Except Error Unit :=
  let name := f.name
  if isFlagged f.metadata then
    match (computedColumnFromField L f).map ComputedColumn.kind with
    | some (.function bindingId ordinal) => do
      let binding ← orInvalid
        s!"Function output '{name}' references missing binding '{bindingId}'"
        (bindingById bindings bindingId)
      let destination ← orInvalid s!"Function output '{name}' has invalid ordinal {ordinal}"
        (destination binding ordinal)
      if destination ≠ name then
        .error (.invalidInput
          s!"Function output '{name}' does not match binding destination '{destination}'")
    | some (.sql _) => .ok ()
    | some (.unrecognized kind) =>
      .error (.notSupported s!"computed column '{name}' uses unsupported kind '{kind}'")
    | none =>
      .error (.invalidInput
        s!"computed column '{name}' has incomplete declaration metadata")
  else .ok ()

/-- The paths a computed column reads: those of its binding, or its recorded inputs. -/
def inputPaths (bindings : List FunctionBinding) (column : ComputedColumn) : List String :=
  match column.kind with
  | .function bindingId _ =>
    ((bindingById bindings bindingId).map (·.inputs.map (·.fieldPath))).getD []
  | _ => column.inputs

/-- The computed columns a computed column reads, each once and in order.  The reads of a later
column of the name replace those of an earlier one. -/
def computedReads (columns : List ComputedColumn) (bindings : List FunctionBinding)
    (name : String) : List String :=
  match columns.reverse.find? (·.name == name) with
  | none => []
  | some column =>
    (((inputPaths bindings column).map (root L)).filter
      (· ∈ columns.map (·.name))).dedup.insertionSort (· ≤ ·)

/-- The search of `ensure_computed_inputs_acyclic`. -/
def searchCycle (columns : List ComputedColumn) (bindings : List FunctionBinding) :
    Except (Option String) (String → Option DepthFirst.Visit) :=
  DepthFirst.check (computedReads L columns bindings) (columns.map (·.name))

/-- `ensure_computed_inputs_acyclic`, for the computed columns of a schema. -/
def ensureInputsAcyclic (columns : List ComputedColumn) (bindings : List FunctionBinding) :
    Except Error Unit :=
  match searchCycle L columns bindings with
  | .ok _ => .ok ()
  | .error (some column) =>
    .error (.invalidInput s!"computed column '{column}' depends on itself")
  -- the search does not run out of fuel: `searchCycle_ne_none`
  | .error none => .error (.invalidInput "")

/-- `ensure_computed_inputs_acyclic`. -/
def ensureComputedInputsAcyclic (s : Schema) (bindings : List FunctionBinding) :
    Except Error Unit :=
  ensureInputsAcyclic L (computedColumns L s) bindings

/-- `ensure_supported_function_metadata`. -/
def ensureSupportedFunctionMetadata (s : Schema) : Except Error Unit := do
  let envelope ← functionBindingEnvelope L s.metadata
  let raw := (envelope.map (·.bindings)).getD []
  raw.forM ensureKnownBindingShape
  let bindings ← raw.mapM (decodeBinding L)
  ensureBindings L s [] bindings
  s.fields.forM (ensureDeclaration L bindings)
  ensureComputedInputsAcyclic L s bindings

/-! ### The columns an operation touches -/

/-- `protected_roots`: every column the bindings depend on. -/
def protectedRoots : List FunctionBinding → Except Error (List String)
  | [] => .ok []
  | b :: bs => do
    let inputs ← b.inputs.mapM fun input => fieldRoot L input.fieldPath
    let rest ← protectedRoots bs
    return inputs ++ b.outputs.map (·.outputName) ++
      (b.assignment.map (·.outputName)).toList ++ rest

/-- `ensure_not_bound_by`. -/
def ensureNotBoundBy (bindings : List FunctionBinding) (operation : String)
    (touched : List String) : Except Error Unit := do
  let protected' ← protectedRoots L bindings
  if protected' = [] then return
  touched.forM fun path => do
    let column ← fieldRoot L path
    if column ∈ protected' then
      .error (.invalidInput (s!"{operation} of '{column}' is not supported: a Function binding " ++
        s!"reads or writes it"))

/-- `ensure_not_function_bound`. -/
def ensureNotFunctionBound (s : Schema) (operation : String) (touched : List String) :
    Except Error Unit := do
  ensureSupportedFunctionMetadata L s
  ensureNotBoundBy L (← functionBindings L s.metadata) operation touched

/-- The inputs of a declaration that a schema change must leave alone. -/
def guardedInputs (s : Schema) (declaration : ComputedColumn) : Except Error (List String) :=
  match declaration.kind with
  | .sql expression =>
    let name := declaration.name
    orInvalidFunction (fun e => (s!"computed column '{name}' has an unevaluable expression " ++
      s!"({e}); drop it before changing the schema")) (L.columnNamesInExpr s expression)
  | _ => .ok declaration.inputs

/-- `ensure_not_an_input_of`. -/
def ensureNotAnInputOf (s : Schema) (paths removed : List String) : Except Error Unit := do
  let removed := (← removed.mapM (wholeColumn L)).reduceOption
  (computedColumns L s).forM fun declaration => do
    if declaration.name ∈ removed then return
    let inputs ← guardedInputs L s declaration
    let name := declaration.name
    paths.forM fun path => do
      -- The comparison is of texts: the path is not parsed.
      if name = path then return
      if name = root L path then
        .error (.invalidInput (s!"'{path}' is part of computed column '{name}'; drop the " ++
          s!"column and declare it again"))
      if inputs.any fun input => root L input = root L path then
        .error (.invalidInput (s!"column '{path}' is read by computed column '{name}'; drop " ++
          s!"that column first"))

/-- `ensure_not_an_input`. -/
def ensureNotAnInput (s : Schema) (paths : List String) : Except Error Unit :=
  ensureNotAnInputOf L s paths []

/-- `ensure_not_retyped`. -/
def ensureNotRetyped (s : Schema) (paths : List String) : Except Error Unit :=
  (computedColumns L s).forM fun declaration => paths.forM fun path => do
    let name := declaration.name
    if name = root L path then
      .error (.invalidInput (s!"column '{name}' is computed; drop it and declare it again to " ++
        s!"change its type"))

end LanceDB.Columns
