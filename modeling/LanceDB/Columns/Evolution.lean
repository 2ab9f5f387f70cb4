import LanceDB.Base.EState
import LanceDB.Columns.Declarations

/-!
# Altering and dropping columns

The schema operations of a table that has declarations.  A drop that takes the outputs of a Function
retires its binding first, in a commit of its own.

* `dropFields`, `alterFields` : how Lance drops and alters columns.
* `planFunctionUnbinding` : the bindings a drop retires, and those it leaves.
* `Table` : a table with every version committed to it.
* `executeAlterColumns`, `executeDropColumns` : the operations.
-/

namespace LanceDB.Columns

/-! ### Dropping columns -/

/-- What the paths address under a name. -/
def under (name : String) (paths : List (List String)) : List (List String) :=
  paths.filterMap fun
    | [] => none
    | column :: rest => if column = name then some rest else none

mutual

/-- A type without the nested fields at some paths; nothing is left of a type whose last nested
field is dropped. -/
def dropInType (paths : List (List String)) : DataType → Option DataType
  | .struct [] => some (.struct [])
  | .struct (f :: fs) =>
    match dropFields paths (f :: fs) with
    | [] => none
    | kept => some (.struct kept)
  | .list kind item => (dropField paths item).map (.list kind)
  | .map entries sorted => (dropField paths entries).map (.map · sorted)
  | t => some t

/-- A field without what is dropped of it. -/
def dropField (paths : List (List String)) : FieldOf DataType → Option (FieldOf DataType)
  | ⟨name, dataType, nullable, metadata⟩ =>
    if [] ∈ under name paths then none
    else (dropInType (under name paths) dataType).map fun t => ⟨name, t, nullable, metadata⟩

/-- The fields without what is dropped of them. -/
def dropFields (paths : List (List String)) : List (FieldOf DataType) → List (FieldOf DataType)
  | [] => []
  | f :: fs =>
    match dropField paths f with
    | some f => f :: dropFields paths fs
    | none => dropFields paths fs

end

mutual

/-- A path leads to a nested field of a type. -/
def leadsIntoType : List String → DataType → Bool
  | [], _ => true
  | path, .struct fields => leadsTo path fields
  | path, .list _ item => leadsToField path item
  | path, .map entries _ => leadsToField path entries
  | _, _ => false

/-- A path leads to a field or into it. -/
def leadsToField : List String → FieldOf DataType → Bool
  | [], _ => false
  | name :: rest, ⟨name', dataType, _, _⟩ => name = name' && leadsIntoType rest dataType

/-- A path leads to one of the fields or into it. -/
def leadsTo : List String → List (FieldOf DataType) → Bool
  | _, [] => false
  | path, f :: fs => leadsToField path f || leadsTo path fs

end

theorem dropField_name {paths : List (List String)} {f f' : Field}
    (h : dropField paths f = some f') : f'.name = f.name ∧ f'.metadata = f.metadata := by
  obtain ⟨name, dataType, nullable, metadata⟩ := f
  rw [dropField] at h
  split_ifs at h with hwh
  obtain ⟨t, -, rfl⟩ := Option.map_eq_some_iff.1 h
  exact ⟨rfl, rfl⟩

theorem dropFields_eq_filterMap (paths : List (List String)) (fs : List Field) :
    dropFields paths fs = fs.filterMap (dropField paths) := by
  induction fs with
  | nil => rfl
  | cons f fs ih =>
    rw [dropFields]
    cases h : dropField paths f with
    | none => simp [h, ih]
    | some g => simp [h, ih]

theorem nodup_dropFields (paths : List (List String)) {fs : List Field}
    (h : (fs.map (·.name)).Nodup) : ((dropFields paths fs).map (·.name)).Nodup := by
  rw [dropFields_eq_filterMap]
  refine h.sublist ?_
  clear h
  induction fs with
  | nil => simp
  | cons f fs ih =>
    cases hf : dropField paths f with
    | none => simpa [List.filterMap_cons, hf] using ih.trans (List.sublist_cons_self _ _)
    | some g => simpa [List.filterMap_cons, hf, (dropField_name hf).1] using ih

variable (L : Lance)

/-- The names along a path, or an error of Lance. -/
def lancePath (path : String) : Except Error (List String) :=
  match L.parseFieldPath path with
  | .ok names => .ok names
  | .error e => .error (.lance e)

/-- The paths of columns or of nested fields that exist. -/
def existingPath (fields : List Field) (path : String) : Except Error (List String) := do
  let names ← lancePath L path
  if leadsTo names fields then return names
  else .error (.lance s!"Column {path} does not exist in the dataset")

/-- `drop_columns` of Lance: the schema after it. -/
def dropColumns (s : Schema) (paths : List String) : Except Error Schema := do
  let names ← paths.mapM (existingPath L s.fields)
  match L.dropRefused (s.fields.map fun f => (f.name, f.dataType)) names with
  | some e => .error (.lance e)
  | none => return ⟨dropFields names s.fields, s.metadata, nodup_dropFields names s.nodup⟩

/-- `plan_drop_columns` of Lance: the check that a drop can be applied. -/
def planDropColumns (s : Schema) (paths : List String) : Except Error Unit := do
  let _ ← dropColumns L s paths

/-! ### Altering columns -/

/-- An alteration at the path that is left of it. -/
abbrev Edit := List String × ColumnAlteration

/-- The edits under a name. -/
def editsUnder (name : String) (edits : List Edit) : List Edit :=
  edits.filterMap fun
    | ([], _) => none
    | (column :: rest, a) => if column = name then some (rest, a) else none

/-- One alteration of a field.  A cast rewrites the field without its metadata. -/
def applyAlteration (f : Field) (a : ColumnAlteration) : Field :=
  let f := { f with name := a.rename.getD f.name, nullable := a.nullable.getD f.nullable }
  match a.dataType with
  | some t => { f with dataType := t, metadata := [] }
  | none => f

mutual

/-- A type with its nested fields altered. -/
def alterInType (edits : List Edit) : DataType → DataType
  | .struct fields => .struct (alterFields edits fields)
  | .list kind item => .list kind (alterField edits item)
  | .map entries sorted => .map (alterField edits entries) sorted
  | .dictionary key value => .dictionary key value
  | .primitive p => .primitive p

/-- A field with the edits at it and in it. -/
def alterField (edits : List Edit) : FieldOf DataType → FieldOf DataType
  | ⟨name, dataType, nullable, metadata⟩ =>
    (((editsUnder name edits).filter (·.1 = [])).map (·.2)).foldl applyAlteration
      ⟨name, alterInType (editsUnder name edits) dataType, nullable, metadata⟩

def alterFields (edits : List Edit) : List (FieldOf DataType) → List (FieldOf DataType)
  | [] => []
  | f :: fs => alterField edits f :: alterFields edits fs

end

/-- `alter_columns` of Lance: the schema after it. -/
def alterColumns (s : Schema) (alterations : List ColumnAlteration) : Except Error Schema := do
  let edits ← alterations.mapM fun a => do
    return (← existingPath L s.fields a.path, a)
  match L.alterRefused s alterations with
  | some e => .error (.lance e)
  | none =>
    if h : ((alterFields edits s.fields).map (·.name)).Nodup then
      return ⟨alterFields edits s.fields, s.metadata, h⟩
    else .error (.lance "Duplicate field name in schema")

/-! ### Retiring bindings -/

/-- `FunctionUnbinding`: what a drop does besides removing columns. -/
structure FunctionUnbinding where
  retained : List FunctionBinding
  assignmentColumns : List String
  clearedColumns : List String
  bindingsMetadata : Option String

/-- `is_noop`. -/
def FunctionUnbinding.isNoop (u : FunctionUnbinding) : Bool := u.clearedColumns = []

/-- The loop of `plan_function_unbinding` over the bindings. -/
def unbind (named : List String) : List FunctionBinding → Except Error FunctionUnbinding
  | [] => .ok ⟨[], [], [], none⟩
  | b :: bs => do
    let outputs := b.outputs.map (·.outputName)
    match outputs.find? (· ∈ named) with
    | none =>
      let plan ← unbind named bs
      return { plan with retained := b :: plan.retained }
    | some dropped =>
      let missing := outputs.filter (· ∉ named)
      if missing ≠ [] then
        let rest := ", ".intercalate missing
        .error (.invalidInput (s!"dropping Function output '{dropped}' must drop every output " ++
          s!"of its binding; the same request must also name {rest}"))
      let plan ← unbind named bs
      let assignment := (b.assignment.map (·.outputName)).toList
      return { plan with
        assignmentColumns := assignment.filter (· ∉ named) ++ plan.assignmentColumns
        clearedColumns := outputs ++ assignment ++ plan.clearedColumns }

/-- `plan_function_unbinding`. -/
def planFunctionUnbinding (s : Schema) (columns : List String) :
    Except Error FunctionUnbinding := do
  ensureSupportedFunctionMetadata L s
  let named := (← columns.mapM (wholeColumn L)).reduceOption
  let plan ← unbind named (← functionBindings L s.metadata)
  -- The bindings are encoded again only if one of them is retired.
  if plan.isNoop ∨ plan.retained = [] then return plan
  else return { plan with bindingsMetadata := some (← functionBindingsMetadata L plan.retained) }

mutual

/-- A type with the declarations cleared of the nested fields at some paths. -/
def clearInType (paths : List (List String)) : DataType → DataType
  | .struct fields => .struct (clearFields paths fields)
  | .list kind item => .list kind (clearField paths item)
  | .map entries sorted => .map (clearField paths entries) sorted
  | .dictionary key value => .dictionary key value
  | .primitive p => .primitive p

/-- The field metadata updates of the retirement: a field without its declaration. -/
def clearField (paths : List (List String)) : FieldOf DataType → FieldOf DataType
  | ⟨name, dataType, nullable, metadata⟩ =>
    ⟨name, clearInType (under name paths) dataType, nullable,
      if [] ∈ under name paths then Metadata.without metadata isDeclarationKey else metadata⟩

def clearFields (paths : List (List String)) : List (FieldOf DataType) → List (FieldOf DataType)
  | [] => []
  | f :: fs => clearField paths f :: clearFields paths fs

end

@[simp] theorem clearField_name (paths : List (List String)) (f : Field) :
    (clearField paths f).name = f.name := by
  obtain ⟨name, dataType, nullable, metadata⟩ := f
  rw [clearField]

theorem clearFields_eq_map (paths : List (List String)) (fs : List Field) :
    clearFields paths fs = fs.map (clearField paths) := by
  induction fs with
  | nil => rfl
  | cons f fs ih => rw [clearFields, ih, List.map_cons]

/-! ### Tables -/

/-- A table: the name, whether the handle is pinned to a version, and the schemas of the versions,
the current one apart. -/
structure Table where
  name : String
  pinned : Bool
  past : List Schema
  schema : Schema

/-- A new version. -/
def Table.commit (t : Table) (s : Schema) : Table :=
  { t with past := t.past ++ [t.schema], schema := s }

/-- A check in front of a commit. -/
def require {α : Type} (x : Except Error α) : EStateM Error Table α :=
  match x with
  | .ok a => pure a
  | .error e => throw e

/-- `ensure_mutable`. -/
def ensureMutable (t : Table) : Except Error Unit :=
  if t.pinned then .error (.invalidInput
    "table cannot be modified when a specific version is checked out") else .ok ()

/-- `DEFINITION_META_KEY`. -/
def definitionMetaKey : String := "mv.definition"

/-- `ensure_not_a_view`. -/
def ensureNotAView (t : Table) (operation : String) : Except Error Unit :=
  let name := t.name
  if t.schema.metadata.containsKey definitionMetaKey then .error (.notSupported
    s!"cannot {operation} '{name}': it is a materialized view, which only refresh writes")
  else .ok ()

/-- `ensure_only_computed_columns_of_a_view`. -/
def ensureOnlyComputedColumnsOfAView (t : Table) (operation : String) (paths : List String) :
    Except Error Unit :=
  if t.schema.metadata.containsKey definitionMetaKey ∧
      ¬paths.all fun path => (computedColumns L t.schema).any (·.name = path) then
    ensureNotAView t operation
  else .ok ()

/-- `commit_function_unbinding`: the schema of the version in between. -/
def unboundSchema (s : Schema) (u : FunctionUnbinding) : Except Error Schema := do
  let cleared ← u.clearedColumns.mapM fun column =>
    match lancePath L column with
    | .ok names =>
      if leadsTo names s.fields then pure names
      else .error (.invalidInput
        s!"Function output '{column}' does not exist in the table")
    | .error _ => .error (.invalidInput
        s!"Function output '{column}' does not exist in the table")
  return { fields := clearFields cleared s.fields
           metadata := s.metadata.set functionBindingsMetaKey u.bindingsMetadata
           nodup := by
            rw [clearFields_eq_map]
            simpa [Function.comp_def] using s.nodup }

/-- `execute_drop_columns`. -/
def executeDropColumns (columns : List String) : EStateM Error Table Unit := do
  let t ← get
  require (ensureMutable t)
  require (ensureOnlyComputedColumnsOfAView L t "drop columns of" columns)
  let unbinding ← require (planFunctionUnbinding L t.schema columns)
  let dropped := columns ++ unbinding.assignmentColumns
  require (ensureNotBoundBy L unbinding.retained "schema evolution" dropped)
  require (ensureNotAnInputOf L t.schema dropped dropped)
  if unbinding.isNoop = false then
    require (planDropColumns L t.schema dropped)
    let unbound ← require (unboundSchema L t.schema unbinding)
    modify (·.commit unbound)
  let dataset ← get
  let projected ← require (dropColumns L dataset.schema dropped)
  modify (·.commit projected)

/-- `execute_alter_columns`. -/
def executeAlterColumns (alterations : List ColumnAlteration) :
    EStateM Error Table Unit := do
  let t ← get
  require (ensureMutable t)
  require (ensureOnlyComputedColumnsOfAView L t "alter columns of"
    (alterations.map (·.path)))
  require (ensureNotFunctionBound L t.schema "schema evolution"
    (alterations.flatMap fun a => a.path :: a.rename.toList))
  let rebinding := alterations.filter fun a => a.rename.isSome || a.dataType.isSome
  require (ensureNotAnInput L t.schema (rebinding.map (·.path)))
  let retyped := alterations.filter fun a => a.dataType.isSome
  require (ensureNotRetyped L t.schema (retyped.map (·.path)))
  let altered ← require (alterColumns L t.schema alterations)
  modify (·.commit altered)

end LanceDB.Columns
