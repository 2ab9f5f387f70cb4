import LanceDB.Base.Fusion
import LanceDB.Base.Lists

/-!
# Record batches

The results of a query are record batches: a schema, and rows that fit it.  The kernels of the arrow
library that hybrid search uses are modelled on rows.  `RecordBatch::try_new` checks that the
columns have the types of the schema and that no column holds a null it must not hold; every other
operation either keeps the rows fitting or goes through that check.

* `Field`, `Cell`, `fits`, `RecordBatch` : batches whose rows fit their schema.
* `RecordBatch.tryNew`, `concatBatches`, `setColumn`, `filterRows`, `takeRows`, `slice`,
  `keepColumns`, `dropColumn`, `tryWithColumn` : the kernels.
* `Produces` : what an operation that may fail returned.
-/

namespace LanceDB.Hybrid

open List

/-- The types hybrid search looks at; all others are compared by name. -/
inductive DataType
  | float32
  | uint64
  | other (name : String)
deriving DecidableEq, Repr

/-- A field of a schema. -/
structure Field where
  name : String
  dataType : DataType
  nullable : Bool
deriving DecidableEq, Repr

variable {V : Type}
variable {f : Field} {fs : List Field} {name : String} {i : ℕ}

/-- One value of a column. -/
inductive Cell (V : Type)
  | null
  | float32 (x : ℚ)
  | uint64 (n : ℕ)
  | other (type : String) (value : V)
deriving DecidableEq

/-- The type of a value; a null has none. -/
def Cell.dataType? : Cell V → Option DataType
  | .null => none
  | .float32 _ => some .float32
  | .uint64 _ => some .uint64
  | .other type _ => some (.other type)

/-- What `UInt64Array::values` holds at a place, whether or not it is a null. -/
def Cell.id : Cell V → ℕ
  | .uint64 n => n
  | _ => 0

/-- A float value, unless it is a null. -/
def Cell.float? : Cell V → Option ℚ
  | .float32 x => some x
  | _ => none

/-- The value of a float column at a place. -/
def Cell.ofFloat? : Option ℚ → Cell V
  | some x => .float32 x
  | none => .null

/-- A column of this field may hold this value. -/
def Field.admits (f : Field) (c : Cell V) : Bool :=
  match c.dataType? with
  | none => f.nullable
  | some t => t == f.dataType

/-- A row fits a schema. -/
def fits : List Field → List (Cell V) → Bool
  | [], [] => true
  | f :: fs, c :: cs => f.admits c && fits fs cs
  | _, _ => false

/-- What fails in arrow and in LanceDB. -/
inductive Error
  | invalidInput (message : String)
  | notSupported (message : String)
  | schema (message : String)
  | runtime (message : String)
  | arrow (message : String)
  | panic (message : String)
deriving DecidableEq, Repr

/-- A record batch. -/
@[ext] structure RecordBatch (V : Type) where
  schema : List Field
  rows : List (List (Cell V))
  valid : ∀ row ∈ rows, fits schema row = true

/-! ### Rows that fit -/

variable {row : List (Cell V)}

theorem length_of_fits (h : fits fs row = true) : row.length = fs.length := by
  induction fs generalizing row with
  | nil => cases row <;> simp_all [fits]
  | cons f fs ih => cases row <;> simp_all [fits]

theorem fits_append {gs : List Field} {row' : List (Cell V)} (hlen : row.length = fs.length) :
    fits (fs ++ gs) (row ++ row') = (fits fs row && fits gs row') := by
  induction fs generalizing row with
  | nil =>
    obtain rfl : row = [] := length_eq_zero_iff.1 hlen
    simp [fits]
  | cons f fs ih =>
    cases row with
    | nil => simp at hlen
    | cons c row => simp [fits, ih (by simpa using hlen), Bool.and_assoc]

theorem admits_of_fits (h : fits fs row = true) (hf : fs[i]? = some f) :
    f.admits (row.getD i .null) = true := by
  induction fs generalizing row i with
  | nil => simp at hf
  | cons g fs ih =>
    cases row with
    | nil => simp [fits] at h
    | cons c row =>
      simp only [fits, Bool.and_eq_true] at h
      cases i with
      | zero =>
        obtain rfl : g = f := by simpa using hf
        simpa using h.1
      | succ i => simpa using ih h.2 (by simpa using hf)

theorem fits_set {c : Cell V} (h : fits fs row = true) (hf : fs[i]? = some f)
    (hc : f.admits c = true) : fits fs (row.set i c) = true := by
  induction fs generalizing row i with
  | nil => simp at hf
  | cons g fs ih =>
    cases row with
    | nil => simp [fits] at h
    | cons d row =>
      simp only [fits, Bool.and_eq_true] at h
      cases i with
      | zero =>
        obtain rfl : g = f := by simpa using hf
        simp [fits, hc, h.2]
      | succ i => simp [fits, h.1, ih h.2 (by simpa using hf)]

/-- The values of a row whose fields are kept. -/
def keepCells (p : Field → Bool) : List Field → List (Cell V) → List (Cell V)
  | f :: fs, c :: cs => if p f then c :: keepCells p fs cs else keepCells p fs cs
  | _, _ => []

theorem fits_keepCells (p : Field → Bool) (h : fits fs row = true) :
    fits (fs.filter p) (keepCells p fs row) = true := by
  induction fs generalizing row with
  | nil => cases row <;> simp_all [fits, keepCells]
  | cons f fs ih =>
    cases row with
    | nil => simp [fits] at h
    | cons c row =>
      simp only [fits, Bool.and_eq_true] at h
      rw [keepCells, filter_cons]
      split_ifs
      · simp [fits, h.1, ih h.2]
      · exact ih h.2

theorem keepCells_of_all {p : Field → Bool} (h : ∀ f ∈ fs, p f = true)
    (hlen : row.length = fs.length) : keepCells p fs row = row := by
  induction fs generalizing row with
  | nil => simp [keepCells, length_eq_zero_iff.1 hlen]
  | cons f fs ih =>
    cases row with
    | nil => simp at hlen
    | cons c row =>
      rw [keepCells, if_pos (h f mem_cons_self),
        ih (fun g hg => h g (mem_cons_of_mem _ hg)) (by simpa using hlen)]

theorem keepCells_keepCells (p q : Field → Bool) (fs : List Field) (row : List (Cell V)) :
    keepCells q (fs.filter p) (keepCells p fs row) = keepCells (fun f => p f && q f) fs row := by
  induction fs generalizing row with
  | nil => cases row <;> rfl
  | cons f fs ih =>
    cases row with
    | nil => cases h : (f :: fs).filter p <;> rfl
    | cons c row =>
      by_cases hp : p f = true <;> by_cases hq : q f = true <;> simp [keepCells, hp, hq, ih]

/-! ### Kernels -/

/-- The names of a schema. -/
def names (schema : List Field) : List String := schema.map Field.name

/-- The types of a schema. -/
def types (schema : List Field) : List DataType := schema.map Field.dataType

/-- The first column of a name. -/
def columnIndex (schema : List Field) (name : String) : Option ℕ :=
  schema.findIdx? fun f => f.name == name

theorem columnIndex_spec {schema : List Field} (h : columnIndex schema name = some i) :
    ∃ f, schema[i]? = some f ∧ f.name = name := by
  obtain ⟨hi, hn, -⟩ := findIdx?_eq_some_iff_getElem.1 h
  exact ⟨schema[i], getElem?_eq_getElem hi, by simpa using hn⟩

theorem columnIndex_eq_none {schema : List Field} :
    columnIndex schema name = none ↔ name ∉ names schema := by
  simp [columnIndex, findIdx?_eq_none_iff, names]

theorem columnIndex_append {gs : List Field} (h : name ∉ names fs) :
    columnIndex (fs ++ gs) name = (columnIndex gs name).map (· + fs.length) := by
  rw [columnIndex, findIdx?_append, ← columnIndex, columnIndex_eq_none.2 h]
  simp [columnIndex]

theorem columnIndex_cons_self (h : f.name = name) : columnIndex (f :: fs) name = some 0 := by
  simp [columnIndex, findIdx?_cons, h]

theorem columnIndex_cons_of_ne (h : f.name ≠ name) :
    columnIndex (f :: fs) name = (columnIndex fs name).map (· + 1) := by
  simp [columnIndex, findIdx?_cons, h]

/-- The names of a schema as `{:?}` prints them, when nothing in them has to be escaped. -/
def debugNames (schema : List Field) : String :=
  "[" ++ ", ".intercalate ((names schema).map fun name => "\"" ++ name ++ "\"") ++ "]"

namespace RecordBatch

/-- `RecordBatch::new_empty`. -/
def newEmpty (schema : List Field) : RecordBatch V := ⟨schema, [], by simp⟩

/-- `RecordBatch::try_new`. -/
def tryNew (schema : List Field) (rows : List (List (Cell V))) : Except Error (RecordBatch V) :=
  if h : ∀ row ∈ rows, fits schema row = true then .ok ⟨schema, rows, h⟩
  else .error (.arrow "the columns do not fit the schema")

/-- The values of a column. -/
def column (b : RecordBatch V) (i : ℕ) : List (Cell V) := b.rows.map fun row => row.getD i .null

/-- `downcast_array` of a column to `UInt64Array`, and its values. -/
def uint64Values (b : RecordBatch V) (i : ℕ) : Except Error (List ℕ) :=
  if (b.schema[i]?).map Field.dataType = some .uint64 then .ok ((b.column i).map Cell.id)
  else .error (.panic "downcast to UInt64Array")

/-- `downcast_array` of a column to `Float32Array`. -/
def float32Values (b : RecordBatch V) (i : ℕ) : Except Error (List (Option ℚ)) :=
  if (b.schema[i]?).map Field.dataType = some .float32 then .ok ((b.column i).map Cell.float?)
  else .error (.panic "downcast to Float32Array")

/-- A batch with another column at a place. -/
def setColumn (b : RecordBatch V) (i : ℕ) (column : List (Cell V)) : Except Error (RecordBatch V) :=
  tryNew b.schema (List.zipWith (fun row c => row.set i c) b.rows column)

/-- `concat_batches`: the columns are concatenated by position, whatever their names, and have to
have one type. -/
def concatBatches (schema : List Field) (batches : List (RecordBatch V)) :
    Except Error (RecordBatch V) :=
  if ∀ b ∈ batches, schema.length ≤ b.schema.length then
    if ∀ b ∈ batches, types (b.schema.take schema.length) = types schema then
      tryNew schema (batches.flatMap fun b => b.rows.map (·.take schema.length))
    else .error (.arrow "arrays of different data types")
  else .error (.panic "index out of bounds")

/-- `filter_record_batch`. -/
def filterRows (b : RecordBatch V) (mask : List Bool) : RecordBatch V where
  schema := b.schema
  rows := Fusion.keep mask b.rows
  valid row hrow := b.valid row ((Fusion.keep_sublist mask b.rows).subset hrow)

/-- `RecordBatch::slice` from the start. -/
def slice (b : RecordBatch V) (length : ℕ) : RecordBatch V where
  schema := b.schema
  rows := b.rows.take length
  valid row hrow := b.valid row (mem_of_mem_take hrow)

/-- A batch with some of its columns. -/
def keepColumns (b : RecordBatch V) (p : Field → Bool) : RecordBatch V where
  schema := b.schema.filter p
  rows := b.rows.map (keepCells p b.schema)
  valid row hrow := by
    obtain ⟨row', hrow', rfl⟩ := mem_map.1 hrow
    exact fits_keepCells _ (b.valid row' hrow')

/-- `drop_column`: a batch keeps a column at least. -/
def dropColumn (b : RecordBatch V) (name : String) : Except Error (RecordBatch V) :=
  if (b.schema.filter fun f => f.name != name).isEmpty then
    .error (.arrow "must either specify a row count or at least one column")
  else .ok (b.keepColumns fun f => f.name != name)

/-- `try_with_column`: a column is added at the end, under a name that is not taken. -/
def tryWithColumn (b : RecordBatch V) (field : Field) (column : List (Cell V)) :
    Except Error (RecordBatch V) :=
  if field.name ∈ names b.schema then .error (.arrow "the column already exists")
  else if column.length ≠ b.rows.length then .error (.arrow "columns of different lengths")
  else tryNew (b.schema ++ [field]) (List.zipWith (fun row c => row ++ [c]) b.rows column)

theorem keepColumns_keepColumns (b : RecordBatch V) (p q : Field → Bool) :
    (b.keepColumns p).keepColumns q = b.keepColumns fun f => p f && q f := by
  refine RecordBatch.ext ?_ ?_
  · exact filter_filter.trans (filter_congr fun f _ => Bool.and_comm _ _)
  · change (b.rows.map _).map _ = b.rows.map _
    rw [map_map]
    exact map_congr_left fun row _ => keepCells_keepCells p q b.schema row

theorem keepColumns_of_all (b : RecordBatch V) {p : Field → Bool} (h : ∀ f ∈ b.schema, p f = true) :
    b.keepColumns p = b := by
  refine RecordBatch.ext (filter_eq_self.2 h) ?_
  change b.rows.map _ = b.rows
  rw [map_congr_left fun row hrow => keepCells_of_all h (length_of_fits (b.valid row hrow)),
    map_id']

theorem dropColumn_of_ne {b : RecordBatch V} {name other : String} (h : other ∈ names b.schema)
    (hne : other ≠ name) : b.dropColumn name = .ok (b.keepColumns fun f => f.name != name) := by
  obtain ⟨f, hf, rfl⟩ := mem_map.1 h
  refine if_neg fun hn => ?_
  simpa [hne] using filter_eq_nil_iff.1 (isEmpty_iff.1 hn) f hf

end RecordBatch

/-! ### What an operation returned -/

/-- An operation returned a batch with this schema and these rows. -/
def Produces (x : Except Error (RecordBatch V)) (schema : List Field)
    (rows : List (List (Cell V))) : Prop :=
  ∃ b, x = .ok b ∧ b.schema = schema ∧ b.rows = rows

namespace Produces

variable {x y : Except Error (RecordBatch V)} {schema : List Field} {rows : List (List (Cell V))}

theorem eq (hx : Produces x schema rows) (hy : Produces y schema rows) : x = y := by
  obtain ⟨b, rfl, hs, hr⟩ := hx
  obtain ⟨c, rfl, hs', hr'⟩ := hy
  rw [RecordBatch.ext (hs.trans hs'.symm) (hr.trans hr'.symm)]

theorem of_batch (b : RecordBatch V) : Produces (.ok b) b.schema b.rows := ⟨b, rfl, rfl, rfl⟩

theorem tryNew (h : ∀ row ∈ rows, fits schema row = true) :
    Produces (RecordBatch.tryNew schema rows) schema rows :=
  ⟨⟨schema, rows, h⟩, dif_pos h, rfl, rfl⟩

theorem concat {batches : List (RecordBatch V)}
    (htypes : ∀ b ∈ batches, types b.schema = types schema)
    (hfits : ∀ b ∈ batches, ∀ row ∈ b.rows, fits schema row = true) :
    Produces (RecordBatch.concatBatches schema batches) schema
      (batches.flatMap RecordBatch.rows) := by
  have hlen : ∀ b ∈ batches, b.schema.length = schema.length := by
    intro b hb
    have := congrArg List.length (htypes b hb)
    simpa [types] using this
  have hr : (batches.flatMap fun b => b.rows.map (·.take schema.length)) =
      batches.flatMap RecordBatch.rows := by
    refine flatMap_congr fun b hb => ?_
    rw [map_congr_left fun row hrow => take_of_length_le
      (length_of_fits (hfits b hb row hrow)).le, map_id']
  rw [RecordBatch.concatBatches, if_pos fun b hb => (hlen b hb).ge, if_pos ?_, hr]
  · refine Produces.tryNew fun row hrow => ?_
    obtain ⟨b, hb, hrow⟩ := mem_flatMap.1 hrow
    exact hfits b hb row hrow
  · intro b hb
    rw [take_of_length_le (hlen b hb).le, htypes b hb]

theorem setColumn {b : RecordBatch V} {column : List (Cell V)} (hf : b.schema[i]? = some f)
    (hadmits : ∀ c ∈ column, f.admits c = true) :
    Produces (b.setColumn i column) b.schema
      (List.zipWith (fun row c => row.set i c) b.rows column) := by
  refine Produces.tryNew fun row hrow => ?_
  rw [← map_uncurry_zip_eq_zipWith] at hrow
  obtain ⟨⟨row', c⟩, hmem, rfl⟩ := mem_map.1 hrow
  obtain ⟨hrow', hc⟩ := of_mem_zip hmem
  exact fits_set (b.valid row' hrow') hf (hadmits c hc)

end Produces

end LanceDB.Hybrid
