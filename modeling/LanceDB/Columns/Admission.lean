import LanceDB.Columns.Runs

/-!
# Adding columns

A declaration is made by the declare path alone; `executeAddColumns` refuses new columns that carry
one in their metadata.  It looks at the metadata of whole columns, and not at every kind of
transform.

* `DataType.nested`, `deepField` : the fields inside a type and inside a field.
* `executeAddColumns` : the operation.
* `NewColumnTransform.unseen` : the fields of a transform that no check looks at.
* `added_undeclared_iff` — the columns that were added carry no declaration iff the fields that
  no check looks at carry none.
* `valid_of_added` — the declarations of the table survive columns without a declaration.
-/

namespace LanceDB.Columns

open List

/-! ### Nested fields -/

mutual

/-- The fields inside a type, at every depth. -/
def DataType.nested : DataType → List (FieldOf DataType)
  | .primitive _ => []
  | .dictionary key value => key.nested ++ value.nested
  | .struct fields => deepFields fields
  | .list _ item => deepField item
  | .map entries _ => deepField entries

/-- A field and the fields inside it. -/
def deepField : FieldOf DataType → List (FieldOf DataType)
  | ⟨name, dataType, nullable, metadata⟩ =>
    ⟨name, dataType, nullable, metadata⟩ :: dataType.nested

def deepFields : List (FieldOf DataType) → List (FieldOf DataType)
  | [] => []
  | f :: fs => deepField f ++ deepFields fs

end

theorem deepField_eq (f : Field) : deepField f = f :: f.dataType.nested := by
  obtain ⟨name, dataType, nullable, metadata⟩ := f
  rw [deepField]

/-- The metadata holds a key of a declaration. -/
def carriesDeclaration (f : Field) : Bool := f.metadata.any (isDeclarationKey ·.1)

/-! ### Adding columns -/

/-- `NewColumnTransform`, with the schema that each form carries. -/
inductive NewColumnTransform where
  | sqlExpressions (expressions : List (String × String))
  | allNulls (fields : List Field)
  | batchUdf (fields : List Field)
  | stream (fields : List Field)
  | reader (fields : List Field)

/-- What `add_columns` of Lance decides. -/
structure Planner where
  /-- The type, nullability and metadata of a SQL expression over the columns of a table. -/
  planExpression : Schema → String → Except String (DataType × Bool × Metadata)
  /-- Lance gives the column of an expression no metadata. -/
  metadata_planned : ∀ s e planned, planExpression s e = .ok planned → planned.2.2 = []
  /-- Why a transform is refused, if it is. -/
  addRefused : Schema → NewColumnTransform → Option String

variable (L : Lance) (P : Planner)

/-- `new_column_names`. -/
def newColumnNames : NewColumnTransform → List String
  | .sqlExpressions expressions => expressions.map (·.1)
  | .allNulls fields | .batchUdf fields | .stream fields | .reader fields => fields.map (·.name)

/-- The column of a SQL expression. -/
def plannedField (s : Schema) (e : String × String) : Except Error Field :=
  match P.planExpression s e.2 with
  | .ok (dataType, nullable, metadata) => .ok ⟨e.1, dataType, nullable, metadata⟩
  | .error e => .error (.lance e)

/-- The columns a transform adds. -/
def newFields (s : Schema) : NewColumnTransform → Except Error (List Field)
  | .sqlExpressions expressions => expressions.mapM (plannedField P s)
  | .allNulls fields | .batchUdf fields | .stream fields | .reader fields => .ok fields

/-- `add_columns` of Lance: the schema after it. -/
def addColumns (s : Schema) (transforms : NewColumnTransform) : Except Error Schema := do
  let added ← newFields P s transforms
  match P.addRefused s transforms with
  | some e => .error (.lance e)
  | none =>
    if h : ((s.fields ++ added).map (·.name)).Nodup then
      return ⟨s.fields ++ added, s.metadata, h⟩
    else .error (.lance "Column already exists in the dataset")

/-- `ensure_no_foreign_declaration`. -/
def ensureNoForeignDeclaration (f : Field) : Except Error Unit :=
  let name := f.name
  if carriesDeclaration f then .error (.invalidInput
    (s!"field '{name}' carries computed-column metadata; declare computed columns " ++
      s!"with add_columns().computed()"))
  else .ok ()

/-- `ensure_no_foreign_declarations`. -/
def ensureNoForeignDeclarations (fields : List Field) : Except Error Unit :=
  fields.forM ensureNoForeignDeclaration

/-- The check of `execute_add_columns` on the schema of a transform. -/
def ensureAdmitted : NewColumnTransform → Except Error Unit
  | .allNulls fields => ensureNoForeignDeclarations fields
  | .batchUdf fields => ensureNoForeignDeclarations fields
  | _ => .ok ()

/-- `commit_add_columns`. -/
def commitAddColumns (transforms : NewColumnTransform) : EStateM Error Table Unit := do
  let t ← get
  require (ensureMutable t)
  let extended ← require (addColumns P t.schema transforms)
  modify (·.commit extended)

/-- `execute_add_columns`. -/
def executeAddColumns (transforms : NewColumnTransform) : EStateM Error Table Unit := do
  let t ← get
  require (ensureNotAView t "add columns to")
  require (ensureNotFunctionBound L t.schema "schema evolution" (newColumnNames transforms))
  require (ensureAdmitted transforms)
  commitAddColumns P transforms

variable {L P}
variable {transforms : NewColumnTransform}

/-! ### What an accepted transform adds -/

theorem ensureNoForeignDeclarations_eq_ok_iff {fields : List Field} :
    ensureNoForeignDeclarations fields = .ok () ↔ ∀ f ∈ fields, carriesDeclaration f = false := by
  rw [ensureNoForeignDeclarations, forM_eq_ok]
  refine forall₂_congr fun f _ => ?_
  cases h : carriesDeclaration f <;> simp [ensureNoForeignDeclaration, h]

theorem addColumns_ok {s s' : Schema} (h : addColumns P s transforms = .ok s') :
    ∃ added, newFields P s transforms = .ok added ∧
      s'.fields = s.fields ++ added ∧ s'.metadata = s.metadata := by
  obtain ⟨added, hadded, h⟩ := Except.bind_eq_ok.1 h
  split at h
  · simp at h
  · split_ifs at h
    obtain rfl := Except.ok.inj h
    exact ⟨added, hadded, rfl, rfl⟩

theorem executeAddColumns_ok {t t' : Table} (h : executeAddColumns L P transforms t = .ok () t') :
    ensureAdmitted transforms = .ok () ∧
      ∃ added, newFields P t.schema transforms = .ok added ∧
        t'.schema.fields = t.schema.fields ++ added ∧ t'.schema.metadata = t.schema.metadata := by
  unfold executeAddColumns commitAddColumns at h
  rw [EStateM.bind_apply, EStateM.get_apply] at h
  simp only [require_bind_ok] at h
  obtain ⟨⟨⟩, -, ⟨⟩, -, ⟨⟩, hadm, h⟩ := h
  rw [EStateM.bind_apply, EStateM.get_apply] at h
  simp only [require_bind_ok, EStateM.modify_apply, EStateM.Result.ok.injEq, true_and] at h
  obtain ⟨⟨⟩, -, s', hs', rfl⟩ := h
  exact ⟨hadm, addColumns_ok hs'⟩

theorem metadata_of_planned {s : Schema} {expressions : List (String × String)}
    {added : List Field} (h : expressions.mapM (plannedField P s) = .ok added) :
    ∀ f ∈ added, f.metadata = [] := by
  intro f hf
  obtain ⟨e, -, he⟩ := exists_mem_of_forall₂ (mapM_eq_ok_iff.1 h).flip hf
  unfold plannedField at he
  split at he
  · rename_i hp
    obtain rfl := Except.ok.inj he
    exact P.metadata_planned _ _ _ hp
  · simp at he

/-- The fields of the new columns that no check looks at: what is nested in a column whose own
metadata is checked or empty, and everything of a stream or a reader. -/
def NewColumnTransform.unseen (added : List Field) : NewColumnTransform → List Field
  | .sqlExpressions _ | .allNulls _ | .batchUdf _ => added.flatMap (·.dataType.nested)
  | .stream _ | .reader _ => added.flatMap deepField

/-- The columns of a transform whose own metadata is checked or empty carry no declaration. -/
theorem carriesDeclaration_of_admitted {s : Schema} {added : List Field}
    (hadm : ensureAdmitted transforms = .ok ()) (hadded : newFields P s transforms = .ok added)
    {f : Field} (hf : f ∈ added)
    (hs : ∀ fields, transforms ≠ .stream fields ∧ transforms ≠ .reader fields) :
    carriesDeclaration f = false := by
  cases transforms with
  | sqlExpressions expressions =>
    have hmeta := metadata_of_planned hadded f hf
    simp [carriesDeclaration, hmeta]
  | allNulls | batchUdf =>
    obtain rfl := Except.ok.inj hadded
    exact ensureNoForeignDeclarations_eq_ok_iff.1 hadm f hf
  | stream fields => exact absurd rfl (hs fields).1
  | reader fields => exact absurd rfl (hs fields).2

/-- **The columns that were added carry no declaration, at any depth, exactly if the fields that no
check looks at carry none.** -/
theorem added_undeclared_iff {transforms : NewColumnTransform} {t t' : Table}
    (h : executeAddColumns L P transforms t = .ok () t') :
    ∃ added, newFields P t.schema transforms = .ok added ∧
      t'.schema.fields = t.schema.fields ++ added ∧
      ((∀ f ∈ added, ∀ g ∈ deepField f, carriesDeclaration g = false) ↔
        ∀ g ∈ transforms.unseen added, carriesDeclaration g = false) := by
  obtain ⟨hadm, added, hadded, hflds, -⟩ := executeAddColumns_ok h
  refine ⟨added, hadded, hflds, ?_⟩
  have hs (hforms : ∀ fields, transforms ≠ .stream fields ∧ transforms ≠ .reader fields) :
      (∀ f ∈ added, ∀ g ∈ deepField f, carriesDeclaration g = false) ↔
        ∀ g ∈ added.flatMap (·.dataType.nested), carriesDeclaration g = false := by
    simp only [mem_flatMap, deepField_eq, forall_mem_cons]
    constructor
    · rintro hdeep g ⟨f, hf, hg⟩
      exact (hdeep f hf).2 g hg
    · intro hnested f hf
      exact ⟨carriesDeclaration_of_admitted hadm hadded hf hforms,
        fun g hg => hnested g ⟨f, hf, hg⟩⟩
  have hunseen : (∀ f ∈ added, ∀ g ∈ deepField f, carriesDeclaration g = false) ↔
      ∀ g ∈ added.flatMap deepField, carriesDeclaration g = false := by
    simp only [mem_flatMap]
    exact ⟨fun hdeep g ⟨f, hf, hg⟩ => hdeep f hf g hg, fun hall f hf g hg => hall g ⟨f, hf, hg⟩⟩
  cases transforms with
  | sqlExpressions | allNulls | batchUdf => exact hs fun fields => ⟨nofun, nofun⟩
  | stream | reader => exact hunseen

/-- Expressions are columns of the table, and nothing is refused. -/
def demoPlanner : Planner where
  planExpression s e :=
    match s.fieldWithName e with
    | some f => .ok (f.dataType, f.nullable, [])
    | none => .error "no such column"
  metadata_planned s e planned h := by
    split at h <;> cases h
    rfl
  addRefused _ _ := none

/-- A column of structs with metadata of its own, and of its field. -/
def measured : Field :=
  ⟨"measured", .struct [⟨"width", .primitive (.int 64 true), true, [("unit", "mm")]⟩], true,
    [("source", "scan")]⟩

/-- A column of nulls that are structs is accepted, and carries no declaration inside. -/
theorem added_undeclared_struct : ∃ t',
    executeAddColumns demoLance demoPlanner (.allNulls [measured]) demoTable = .ok () t' ∧
    ∃ added, t'.schema.fields = demoTable.schema.fields ++ added ∧
      (added.flatMap deepField).map (·.name) = ["measured", "width"] ∧
      ∀ f ∈ added, ∀ g ∈ deepField f, carriesDeclaration g = false := by
  have hchk : acceptedWith (fun _ => true)
      (executeAddColumns demoLance demoPlanner (.allNulls [measured]) demoTable) := by
    decide +kernel
  obtain ⟨t', hok, -⟩ := exists_of_acceptedWith hchk
  obtain ⟨added, hadded, hflds, hiff⟩ := added_undeclared_iff hok
  obtain rfl := Except.ok.inj hadded
  exact ⟨t', hok, _, hflds, by decide +kernel, hiff.2 (by decide +kernel)⟩

/-- A column that carries a declaration. -/
def forged : Field := ⟨"forged", .primitive .utf8, true, sqlMetadata "trim of title" "title"⟩

/-- A column that carries a declaration is added from a reader, and one that holds a declaration
inside is added as nulls. -/
theorem forged_declaration_added :
    Forall (fun transforms =>
      ∃ t', executeAddColumns demoLance demoPlanner transforms demoTable = .ok () t' ∧
        ∃ f ∈ t'.schema.fields, f ∉ demoTable.schema.fields ∧
          ∃ g ∈ deepField f, carriesDeclaration g)
      [.reader [forged], .allNulls [⟨"outer", .struct [forged], true, []⟩]] := by
  have hchk : ∀ transforms ∈ [NewColumnTransform.reader [forged],
      .allNulls [⟨"outer", .struct [forged], true, []⟩]],
      acceptedWith (fun t' => ∃ f ∈ t'.schema.fields, f ∉ demoTable.schema.fields ∧
        ∃ g ∈ deepField f, carriesDeclaration g)
        (executeAddColumns demoLance demoPlanner transforms demoTable) := by decide +kernel
  refine forall_iff_forall_mem.2 fun transforms htransforms => ?_
  obtain ⟨t', hok, hadded⟩ := exists_of_acceptedWith (hchk transforms htransforms)
  exact ⟨t', hok, of_decide_eq_true hadded⟩

/-! ### The declarations of the table -/

theorem isFlagged_of_carriesDeclaration {f : Field} (h : carriesDeclaration f = false) :
    isFlagged f.metadata = false := by
  rw [Bool.eq_false_iff]
  intro hf
  have hget : List.lookup computedColumnMetaKey f.metadata = some "true" := of_decide_eq_true hf
  obtain ⟨before, after, hmeta, -⟩ := lookup_eq_some_iff.1 hget
  rw [carriesDeclaration, any_eq_false, hmeta] at h
  exact h (computedColumnMetaKey, "true") (by simp) (by simp [isDeclarationKey])

/-- **Columns without a declaration leave a valid table valid.** -/
theorem valid_of_added {types : String → DataType} {t t' : Table} (hvalid : Valid L types t.schema)
    (h : executeAddColumns L P transforms t = .ok () t')
    (hundeclared : ∀ f ∈ t'.schema.fields, f ∉ t.schema.fields → carriesDeclaration f = false) :
    Valid L types t'.schema := by
  obtain ⟨-, added, -, hflds, hmeta⟩ := executeAddColumns_ok h
  have hk : ∀ f ∈ t.schema.fields, f ∈ t'.schema.fields := by
    intro f hf
    rw [hflds]
    exact mem_append_left _ hf
  have hold : ∀ f ∈ t'.schema.fields, isFlagged f.metadata → f ∈ t.schema.fields := by
    intro f hf hflag
    by_contra hnew
    rw [isFlagged_of_carriesDeclaration (hundeclared f hf hnew)] at hflag
    cases hflag
  obtain ⟨bindings, hs⟩ := ensureSupportedFunctionMetadata_eq_ok_iff.1 hvalid.supported
  have hchg : Change L t.schema t'.schema bindings bindings :=
    { known := hmeta ▸ hs.known
      sublist := .refl _
      columns := fun b hb c hc f hf hn => hk f hf
      declared := fun f' hf' hflag =>
        ⟨f', hold f' hf' hflag, rfl, .inl ⟨rfl, fun b hb _ _ _ => hb⟩⟩ }
  refine valid_of_supported (hchg.supported hs) fun d hd expression hkind input hinp => ?_
  obtain ⟨f', hf', hdecl⟩ := mem_computedColumns.1 hd
  have hmem : d ∈ computedColumns L t.schema :=
    mem_computedColumns.2 ⟨f', hold f' hf' (computedColumnFromField_eq_some.1 hdecl).1, hdecl⟩
  obtain ⟨f, hf, hn, htype⟩ := hvalid.sqlInputs d hmem expression hkind input hinp
  exact ⟨f, hk f hf, hn, htype⟩

theorem valid_of_added_demo : ∃ t',
    executeAddColumns demoLance demoPlanner (.sqlExpressions [("copy", "size")]) demoTable =
      .ok () t' ∧ Valid demoLance demoTypes t'.schema := by
  have hchk : acceptedWith (fun t' => ∀ f ∈ t'.schema.fields, f ∉ demoTable.schema.fields →
      carriesDeclaration f = false) (executeAddColumns demoLance demoPlanner
        (.sqlExpressions [("copy", "size")]) demoTable) := by decide +kernel
  obtain ⟨t', hok, hundecl⟩ := exists_of_acceptedWith hchk
  exact ⟨t', hok, valid_of_added demoTable_valid hok (of_decide_eq_true hundecl)⟩

end LanceDB.Columns
