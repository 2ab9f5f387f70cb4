import LanceDB.Base.Lists

/-!
# The shard of a MemWAL `merge_insert`

A call of `merge_insert` collects its input, brings it into the schema of the table, and finds the
one shard that the rows go to, before anything is written.

* `alignBatchSchema`, `resolveBatchShard`, `resolveInputShard`, `collect`, `prepare` : the source.
* `Evaluator` : Lance's evaluation of a sharding spec, row by row.
* `Aligned`, `aligned_of_align` — what a batch keeps in the schema of the table.
* `resolveBatchShard_row` — the shard of a batch is the shard of each of its rows.
* `prepare_some`, `prepare_none` — what is put, and where.
-/

namespace LanceDB

open List Except

namespace Lsm

/-! ### Batches -/

/-- The Arrow types that identity sharding knows, and the others. -/
inductive DataType
  | int8 | int16 | int32 | int64
  | uint8 | uint16 | uint32 | uint64
  | utf8 | largeUtf8 | boolean
  | other (debug : String)
  deriving DecidableEq

/-- The text of a type in messages. -/
def DataType.debug : DataType → String
  | .int8 => "Int8" | .int16 => "Int16" | .int32 => "Int32" | .int64 => "Int64"
  | .uint8 => "UInt8" | .uint16 => "UInt16" | .uint32 => "UInt32" | .uint64 => "UInt64"
  | .utf8 => "Utf8" | .largeUtf8 => "LargeUtf8" | .boolean => "Boolean"
  | .other debug => debug

structure Field where
  name : String
  dataType : DataType
  nullable : Bool
  metadata : List (String × String)
  deriving DecidableEq

structure Schema where
  fields : List Field
  metadata : List (String × String)
  deriving DecidableEq

/-- The errors of a call. -/
inductive LsmError
  | invalidInput (message : String)
  | runtime (message : String)
  | arrow
  /-- The input stream fails. -/
  | input
  | panic
  deriving DecidableEq

variable {V Spec : Type}
variable {k : ℕ}

/-- A record batch: every column has a value or a null for every row. -/
structure Batch (V : Type) where
  schema : Schema
  columns : List (List (Option V))
  numRows : ℕ
  length_columns : columns.length = schema.fields.length
  length_of_mem : ∀ column ∈ columns, column.length = numRows
  deriving DecidableEq

namespace Batch

/-- `column_by_name`, with the field of the column. -/
def columnByName (batch : Batch V) (name : String) : Option (Field × List (Option V)) :=
  (batch.schema.fields.zip batch.columns).find? fun column => column.1.name = name

/-- `slice`. -/
def slice (batch : Batch V) (offset length : ℕ) : Batch V where
  schema := batch.schema
  columns := batch.columns.map fun column => (column.drop offset).take length
  numRows := min length (batch.numRows - offset)
  length_columns := by rw [length_map, batch.length_columns]
  length_of_mem := by
    intro column hcol
    obtain ⟨column, hmem, rfl⟩ := mem_map.1 hcol
    rw [length_take, length_drop, batch.length_of_mem column hmem]

/-- A row of the batch, as a batch. -/
abbrev row (batch : Batch V) (k : ℕ) : Batch V := batch.slice k 1

/-- `RecordBatch::try_new`: columns of one length, and no null where a field allows none. -/
def tryNew (schema : Schema) (columns : List (List (Option V))) : Except LsmError (Batch V) :=
  match columns with
  | [] => .error .arrow
  | first :: rest =>
    if h : (first :: rest).length = schema.fields.length ∧
        ∀ column ∈ first :: rest, column.length = first.length then
      if (schema.fields.zip (first :: rest)).any fun column =>
          !column.1.nullable && column.2.any Option.isNone then
        .error .arrow
      else
        .ok ⟨schema, first :: rest, first.length, h.1, h.2⟩
    else
      .error .arrow

end Batch

/-- The column of the input for a field of the table, in `align_batch_schema`. -/
def alignColumn (batch : Batch V) (field : Field) : Except LsmError (List (Option V)) :=
  match batch.columnByName field.name with
  | none => .error (.invalidInput
      s!"merge_insert: input is missing column '{field.name}' required by the table schema")
  | some (found, column) =>
    if found.dataType ≠ field.dataType then
      let name := field.name
      let actual := found.dataType.debug
      let expected := field.dataType.debug
      .error (.invalidInput
        s!"merge_insert: input column '{name}' has dtype {actual}, expected {expected}")
    else
      .ok column

/-- `align_batch_schema`. -/
def alignBatchSchema (target : Schema) (batch : Batch V) : Except LsmError (Batch V) :=
  if batch.schema = target then
    .ok batch
  else do
    let columns ← target.fields.mapM (alignColumn batch)
    Batch.tryNew target columns

/-! ### Routing -/

/-- A slot of an Arrow array; a null has one, too. -/
inductive Scalar
  | int (n : ℤ)
  | text (s : String)
  | bool (b : Bool)
  deriving DecidableEq

structure Cell where
  slot : Scalar
  isNull : Bool
  deriving DecidableEq

/-- An array of routing values. -/
structure ShardValues where
  dataType : DataType
  cells : List Cell
  deriving DecidableEq

def ShardValues.row (values : ShardValues) (k : ℕ) : ShardValues :=
  { values with cells := (values.cells.drop k).take 1 }

/-- `evaluate_sharding_spec` of Lance: a column of values for every field of the spec, with one
value for every row, which does not depend on the other rows. -/
structure Evaluator (V Spec : Type) where
  evaluate : Spec → Batch V → Except LsmError (List ShardValues)
  length_cells : ∀ {spec batch columns}, evaluate spec batch = .ok columns →
    ∀ values ∈ columns, values.cells.length = batch.numRows
  evaluate_row : ∀ {spec batch columns k}, evaluate spec batch = .ok columns → k < batch.numRows →
    evaluate spec (batch.row k) = .ok (columns.map fun values => values.row k)

/-- `LsmMode`. -/
inductive LsmMode (Spec : Type)
  | bucket (spec : Spec)
  | identity (spec : Spec)
  | unsharded
  deriving DecidableEq

/-- A shard id, as a text. -/
abbrev Uuid := String

/-- `bucket_shard_id`, `identity_shard_id` and `unsharded_shard_id`, by the names of the shards in
the namespace of `Uuid::new_v5`. -/
structure ShardIds where
  newV5 : List UInt8 → Uuid

namespace ShardIds

variable (ids : ShardIds)

def bucketShardId (bucket : ℕ) : Uuid := ids.newV5 (s!"bucket-{bucket}").toUTF8.toList

def identityShardId (value : List UInt8) : Uuid :=
  ids.newV5 ("identity-".toUTF8.toList ++ value)

def unshardedShardId : Uuid := ids.newV5 "unsharded".toUTF8.toList

end ShardIds

/-- `evaluate_lsm_shard_values`. -/
def evaluateLsmShardValues (ev : Evaluator V Spec) (batch : Batch V) (spec : Spec) :
    Except LsmError ShardValues := do
  let values ← ev.evaluate spec batch
  match values with
  | [column] => return column
  | _ =>
    let count := values.length
    throw (.runtime <| s!"merge_insert: MemWAL sharding spec evaluated to {count} fields; " ++
      "expected exactly one")

/-- A slot, by index. -/
def ShardValues.cell (values : ShardValues) (row : ℕ) : Except LsmError Cell :=
  match values.cells[row]? with
  | some cell => .ok cell
  | none => .error .panic

/-- `value` of an array of integers. -/
def Scalar.toInt : Scalar → ℤ
  | .int n => n
  | _ => 0

/-- `to_le_bytes` of an integer of some width. -/
def leBytes (width : ℕ) (n : ℤ) : List UInt8 :=
  (List.range width).map fun k => UInt8.ofNat ((n / 256 ^ k) % 256).toNat

/-- `encode_scalar`. -/
def encodeScalar (values : ShardValues) (row : ℕ) : Except LsmError (List UInt8) := do
  let cell ← values.cell row
  if cell.isNull then
    throw (.invalidInput "merge_insert: identity sharding does not support null routing values")
  match values.dataType, cell.slot with
  | .int8, slot | .uint8, slot => return leBytes 1 slot.toInt
  | .int16, slot | .uint16, slot => return leBytes 2 slot.toInt
  | .int32, slot | .uint32, slot => return leBytes 4 slot.toInt
  | .int64, slot | .uint64, slot => return leBytes 8 slot.toInt
  | .utf8, .text s | .largeUtf8, .text s => return s.toUTF8.toList
  | .boolean, .bool b => return [if b then 1 else 0]
  | other, _ =>
    let name := other.debug
    throw (.invalidInput
      s!"merge_insert: identity sharding does not support column dtype {name}")

/-- The rows behind the first one agree with it, in `resolve_batch_shard`. -/
def ensureAll {β : Type} [DecidableEq β] (value : ℕ → Except LsmError β) (first : β) (numRows : ℕ)
    (differs : ℕ → β → LsmError) : Except LsmError Unit :=
  (List.range' 1 (numRows - 1)).forM fun row => do
    let other ← value row
    if other ≠ first then throw (differs row other) else pure ()

/-- The message for rows of two buckets. -/
def bucketMessage (first : ℤ) (row : ℕ) (bucket : ℤ) : String :=
  s!"merge_insert: input row 0 hashes to bucket {first} but row {row} hashes to bucket {bucket}" ++
    "; each merge_insert call must target a single bucket (pre-shard the input, or set " ++
    "validate_single_shard(false) to route by the first row only)"

/-- The message for rows of two identities. -/
def identityMessage : String :=
  "merge_insert: input rows have differing values for identity-sharding column; each " ++
    "merge_insert call must target a single shard (pre-shard the input, or set " ++
    "validate_single_shard(false) to route by the first row only)"

/-- `value` of the array of buckets. -/
def ShardValues.bucket (values : ShardValues) (row : ℕ) : Except LsmError ℤ :=
  (fun cell => cell.slot.toInt) <$> values.cell row

/-- The shard of some rows in bucket mode, by their routing values. -/
def bucketShard (ids : ShardIds) (values : ShardValues) (numRows : ℕ)
    (validateSingleShard : Bool) : Except LsmError Uuid :=
  if values.dataType ≠ .int32 then
    let name := values.dataType.debug
    .error (.runtime s!"merge_insert: MemWAL bucket evaluator returned {name}; expected Int32")
  else do
    let first ← values.bucket 0
    let _ ← if validateSingleShard then
        ensureAll values.bucket first numRows fun row bucket =>
          .invalidInput (bucketMessage first row bucket)
      else .ok ()
    if first < 0 then
      .error (.runtime s!"merge_insert: MemWAL bucket evaluator returned negative bucket {first}")
    else
      .ok (ids.bucketShardId first.toNat)

/-- The shard of some rows in identity mode, by their routing values. -/
def identityShard (ids : ShardIds) (values : ShardValues) (numRows : ℕ)
    (validateSingleShard : Bool) : Except LsmError Uuid := do
  let first ← encodeScalar values 0
  let _ ← if validateSingleShard then
      ensureAll (encodeScalar values) first numRows fun _ _ => .invalidInput identityMessage
    else .ok ()
  return ids.identityShardId first

section Resolve

variable (ev : Evaluator V Spec) (ids : ShardIds)

/-- `resolve_batch_shard`. -/
def resolveBatchShard (mode : LsmMode Spec) (batch : Batch V) (validateSingleShard : Bool) :
    Except LsmError Uuid :=
  let routingBatch := if validateSingleShard then batch else batch.slice 0 1
  match mode with
  | .unsharded => .ok ids.unshardedShardId
  | .bucket spec => do
    let values ← evaluateLsmShardValues ev routingBatch spec
    bucketShard ids values routingBatch.numRows validateSingleShard
  | .identity spec => do
    let values ← evaluateLsmShardValues ev routingBatch spec
    identityShard ids values routingBatch.numRows validateSingleShard

/-- One batch in the loop of `resolve_input_shard`. -/
def resolveNext (mode : LsmMode Spec) (validateSingleShard : Bool) (shardId : Option Uuid)
    (batch : Batch V) : Except LsmError (Option Uuid) :=
  if batch.numRows = 0 then
    .ok shardId
  else if ¬ validateSingleShard ∧ shardId.isSome then
    .ok shardId
  else do
    let batchShard ← resolveBatchShard ev ids mode batch validateSingleShard
    if shardId.any (· ≠ batchShard) then
      throw (.invalidInput <| "merge_insert: input batches route to multiple shards; each " ++
        "merge_insert call must target a single shard")
    return some batchShard

/-- `resolve_input_shard`. -/
def resolveInputShard (mode : LsmMode Spec) (batches : List (Batch V))
    (validateSingleShard : Bool) : Except LsmError (Option Uuid) :=
  batches.foldlM (resolveNext ev ids mode validateSingleShard) none

/-- The loop of `execute_lsm_merge_insert` over its input: the batches in the schema of the table,
and their rows. -/
def collect (target : Schema) :
    List (Except LsmError (Batch V)) → Except LsmError (List (Batch V) × ℕ)
  | [] => .ok ([], 0)
  | item :: newData => do
    let batch ← item
    if batch.numRows = 0 then
      collect target newData
    else
      let batch ← alignBatchSchema target batch
      let (batches, totalRows) ← collect target newData
      return (batch :: batches, batch.numRows + totalRows)

/-- A call of `merge_insert`. -/
structure Request (V Spec : Type) where
  mode : LsmMode Spec
  target : Schema
  newData : List (Except LsmError (Batch V))
  validateSingleShard : Bool
  deriving DecidableEq

/-- What is to be put, and where. -/
structure Prepared (V : Type) where
  shardId : Uuid
  batches : List (Batch V)
  totalRows : ℕ
  deriving DecidableEq

/-- `execute_lsm_merge_insert` up to `writer_for_shard`; without rows there is nothing to put. -/
def prepare (request : Request V Spec) : Except LsmError (Option (Prepared V)) := do
  let (batches, totalRows) ← collect request.target request.newData
  let shardId ← resolveInputShard ev ids request.mode batches request.validateSingleShard
  return shardId.map fun shardId => ⟨shardId, batches, totalRows⟩

end Resolve

/-! ### Batches in the schema of the table -/

/-- A batch of the input in the schema of the table: the columns that the table has, row by row. -/
structure Aligned (target : Schema) (batch aligned : Batch V) : Prop where
  schema : aligned.schema = target
  numRows : aligned.numRows = batch.numRows
  column : ∀ field ∈ target.fields, (aligned.columnByName field.name).map Prod.snd =
    (batch.columnByName field.name).map Prod.snd

variable {batch : Batch V}
variable {values : ShardValues} {numRows : ℕ}

theorem alignColumn_ok {field : Field} {column : List (Option V)}
    (h : alignColumn batch field = .ok column) :
    (batch.columnByName field.name).map Prod.snd = some column ∧
      column.length = batch.numRows := by
  rw [alignColumn] at h
  split at h
  · cases h
  · rename_i found column' hfd
    split_ifs at h
    obtain rfl := ok.inj h
    refine ⟨by rw [hfd]; rfl, ?_⟩
    have hmem := mem_of_find?_eq_some hfd
    exact batch.length_of_mem _ (of_mem_zip hmem).2

theorem find?_zip_of_mapM {fields : List Field} {columns : List (List (Option V))}
    (h : fields.mapM (alignColumn batch) = .ok columns) {field : Field} (hfld : field ∈ fields) :
    ((fields.zip columns).find? fun column => column.1.name = field.name).map Prod.snd =
      (batch.columnByName field.name).map Prod.snd := by
  rw [mapM_eq_ok_iff] at h
  induction h with
  | nil => cases hfld
  | @cons first column fields columns hfst _ ih =>
    rw [zip_cons_cons]
    by_cases hn : first.name = field.name
    · rw [find?_cons_of_pos (by simpa using hn), ← hn, (alignColumn_ok hfst).1]
      rfl
    · rw [find?_cons_of_neg (by simpa using hn)]
      refine ih ((mem_cons.1 hfld).resolve_left ?_)
      rintro rfl
      exact hn rfl

theorem tryNew_ok {schema : Schema} {columns : List (List (Option V))}
    (h : Batch.tryNew schema columns = .ok batch) :
    batch.schema = schema ∧ batch.columns = columns ∧
      ∃ column ∈ columns, batch.numRows = column.length := by
  cases columns with
  | nil => cases h
  | cons first rest =>
    rw [Batch.tryNew] at h
    split_ifs at h
    obtain rfl := ok.inj h
    exact ⟨rfl, rfl, first, mem_cons_self, rfl⟩

theorem aligned_of_align {target : Schema} {aligned : Batch V}
    (h : alignBatchSchema target batch = .ok aligned) : Aligned target batch aligned := by
  rw [alignBatchSchema] at h
  split_ifs at h with hsch
  · obtain rfl := ok.inj h
    exact ⟨hsch, rfl, fun _ _ => rfl⟩
  · obtain ⟨columns, hcols, hnew⟩ := bind_eq_ok.1 h
    obtain ⟨hsch', hcols', column, hmem, hr⟩ := tryNew_ok hnew
    refine ⟨hsch', ?_, fun field hfld => ?_⟩
    · obtain ⟨field, -, hfld⟩ := mem_of_mapM_ok hcols hmem
      rw [hr, (alignColumn_ok hfld).2]
    · rw [Batch.columnByName, hsch', hcols']
      exact find?_zip_of_mapM hcols hfld

/-! ### The shard of a row -/

theorem ensureAll_ok {β : Type} [DecidableEq β] {value : ℕ → Except LsmError β} {first : β}
    {differs : ℕ → β → LsmError} (hfst : value 0 = .ok first)
    (h : ensureAll value first numRows differs = .ok ()) {row : ℕ} (hrow : row < numRows) :
    value row = .ok first := by
  cases row with
  | zero => exact hfst
  | succ row =>
    have hmem : row + 1 ∈ List.range' 1 (numRows - 1) := by
      rw [mem_range'_1]
      omega
    obtain ⟨other, hoth, hs⟩ := bind_eq_ok.1 (forM_eq_ok.1 h (row + 1) hmem)
    by_cases heq : other = first
    · rw [hoth, heq]
    · rw [if_pos heq] at hs
      cases hs

theorem ensureAll_one {β : Type} [DecidableEq β] (value : ℕ → Except LsmError β) (first : β)
    (differs : ℕ → β → LsmError) : ensureAll value first 1 differs = .ok () := rfl

theorem cell_row : (values.row k).cell 0 = values.cell k := by
  have hget : ((values.cells.drop k).take 1)[0]? = values.cells[k]? := by
    rw [getElem?_take_of_lt Nat.one_pos, getElem?_drop, Nat.add_zero]
  rw [ShardValues.cell, ShardValues.cell, ShardValues.row, hget]

theorem encodeScalar_row : encodeScalar (values.row k) 0 = encodeScalar values k := by
  rw [encodeScalar, encodeScalar, cell_row]
  rfl

theorem bucket_row : (values.row k).bucket 0 = values.bucket k := by
  rw [ShardValues.bucket, ShardValues.bucket, cell_row]

variable {shardId : Uuid}

theorem bucketShard_row {ids : ShardIds} (h : bucketShard ids values numRows true = .ok shardId)
    (hk : k < numRows) : bucketShard ids (values.row k) 1 true = .ok shardId := by
  rw [bucketShard] at h ⊢
  by_cases htype : values.dataType ≠ .int32
  · rw [if_pos htype] at h
    cases h
  · rw [if_neg htype] at h
    obtain ⟨first, hfst, h⟩ := bind_eq_ok.1 h
    obtain ⟨⟨⟩, hall, h⟩ := bind_eq_ok.1 h
    have hrow : (values.row k).bucket 0 = .ok first := bucket_row.trans (ensureAll_ok hfst hall hk)
    rw [if_neg (show ¬ (values.row k).dataType ≠ .int32 from htype)]
    exact bind_eq_ok.2 ⟨first, hrow,
      bind_eq_ok.2 ⟨(), ensureAll_one _ first _, h⟩⟩

theorem identityShard_row {ids : ShardIds} (h : identityShard ids values numRows true = .ok shardId)
    (hk : k < numRows) : identityShard ids (values.row k) 1 true = .ok shardId := by
  obtain ⟨first, hfst, h⟩ := bind_eq_ok.1 h
  obtain ⟨⟨⟩, hall, h⟩ := bind_eq_ok.1 h
  have hrow : encodeScalar (values.row k) 0 = .ok first :=
    encodeScalar_row.trans (ensureAll_ok hfst hall hk)
  exact bind_eq_ok.2 ⟨first, hrow, bind_eq_ok.2 ⟨(), ensureAll_one _ first _, h⟩⟩

section Shards

variable {ev : Evaluator V Spec} {ids : ShardIds} {mode : LsmMode Spec}

theorem evaluate_row_ok {spec : Spec} (h : evaluateLsmShardValues ev batch spec = .ok values)
    (hk : k < batch.numRows) :
    evaluateLsmShardValues ev (batch.row k) spec = .ok (values.row k) := by
  obtain ⟨columns, hcols, hone⟩ := bind_eq_ok.1 h
  have hrow := ev.evaluate_row hcols hk
  match columns, hone with
  | [column], hone =>
    obtain rfl := ok.inj hone
    exact bind_eq_ok.2 ⟨_, hrow, rfl⟩

theorem numRows_row (hk : k < batch.numRows) : (batch.row k).numRows = 1 := by
  change min 1 (batch.numRows - k) = 1
  omega

/-- **The shard of a batch is the shard of each of its rows**, when all rows are checked. -/
theorem resolveBatchShard_row (h : resolveBatchShard ev ids mode batch true = .ok shardId)
    (hk : k < batch.numRows) : resolveBatchShard ev ids mode (batch.row k) true = .ok shardId := by
  have hone := numRows_row hk
  cases mode with
  | unsharded => exact h
  | bucket spec =>
    obtain ⟨values, hvals, h⟩ := bind_eq_ok.1 h
    refine bind_eq_ok.2 ⟨_, evaluate_row_ok hvals hk, ?_⟩
    change bucketShard ids (values.row k) (batch.row k).numRows true = _
    rw [hone]
    exact bucketShard_row h hk
  | identity spec =>
    obtain ⟨values, hvals, h⟩ := bind_eq_ok.1 h
    refine bind_eq_ok.2 ⟨_, evaluate_row_ok hvals hk, ?_⟩
    change identityShard ids (values.row k) (batch.row k).numRows true = _
    rw [hone]
    exact identityShard_row h hk

/-- One batch: it has no row, or it goes to the shard that was seen. -/
theorem resolveNext_ok {seen found : Option Uuid}
    (h : resolveNext ev ids mode true seen batch = .ok found) :
    (batch.numRows = 0 ∧ found = seen) ∨ ∃ shardId, found = some shardId ∧
      resolveBatchShard ev ids mode batch true = .ok shardId ∧ (seen = none ∨ seen = found) := by
  rw [resolveNext] at h
  by_cases hr : batch.numRows = 0
  · rw [if_pos hr] at h
    exact .inl ⟨hr, (ok.inj h).symm⟩
  rw [if_neg hr, if_neg (by simp)] at h
  obtain ⟨shardId, hsh, h⟩ := bind_eq_ok.1 h
  cases seen with
  | none =>
    obtain rfl := ok.inj h
    exact .inr ⟨shardId, rfl, hsh, .inl rfl⟩
  | some other =>
    by_cases hs : other = shardId
    · subst hs
      rw [if_neg (by simp)] at h
      have hfd : some other = found := ok.inj h
      exact .inr ⟨other, hfd.symm, hsh, .inr hfd⟩
    · rw [if_pos (by simpa using hs)] at h
      cases h

/-- The loop: what was seen is kept, and every batch with a row goes there. -/
theorem foldlM_resolveNext {seen found : Option Uuid} {batches : List (Batch V)}
    (h : batches.foldlM (resolveNext ev ids mode true) seen = .ok found) :
    (seen = none ∨ seen = found) ∧ ∀ batch ∈ batches, batch.numRows ≠ 0 →
      ∃ shardId, found = some shardId ∧ resolveBatchShard ev ids mode batch true = .ok shardId := by
  induction batches generalizing seen with
  | nil => exact ⟨.inr (ok.inj h), nofun⟩
  | cons batch batches ih =>
    rw [foldlM_cons] at h
    obtain ⟨next, hn, h⟩ := bind_eq_ok.1 h
    obtain ⟨hk, hr⟩ := ih h
    rcases resolveNext_ok hn with ⟨hrows, rfl⟩ | ⟨shardId, rfl, hsh, hs⟩
    · refine ⟨hk, forall_mem_cons.2 ⟨fun hne => absurd hrows hne, hr⟩⟩
    · obtain rfl := hk.resolve_left (by simp)
      exact ⟨hs, forall_mem_cons.2 ⟨fun _ => ⟨shardId, rfl, hsh⟩, hr⟩⟩

/-! ### The whole input -/

/-- The batches of the input that have rows. -/
def withRows (newData : List (Except LsmError (Batch V))) : List (Batch V) :=
  newData.filterMap fun item => match item with
    | .ok batch => if batch.numRows = 0 then none else some batch
    | .error _ => none

/-- The rows of some batches. -/
def totalRows (batches : List (Batch V)) : ℕ := (batches.map Batch.numRows).sum

theorem collect_ok {target : Schema} {newData : List (Except LsmError (Batch V))}
    {batches : List (Batch V)} {total : ℕ} (h : collect target newData = .ok (batches, total)) :
    (∀ item ∈ newData, ∃ batch, item = .ok batch) ∧
      List.Forall₂ (fun batch aligned => alignBatchSchema target batch = .ok aligned)
        (withRows newData) batches ∧ total = totalRows (withRows newData) := by
  induction newData generalizing batches total with
  | nil =>
    cases h
    exact ⟨nofun, .nil, rfl⟩
  | cons item newData ih =>
    obtain ⟨batch, rfl, hitem⟩ := bind_eq_ok.1 h
    by_cases hr : batch.numRows = 0
    · rw [if_pos hr] at hitem
      have hskip : withRows (.ok batch :: newData) = withRows newData := by
        simp [withRows, hr]
      obtain ⟨hok, hall⟩ := ih hitem
      rw [hskip]
      exact ⟨forall_mem_cons.2 ⟨⟨batch, rfl⟩, hok⟩, hall⟩
    · rw [if_neg hr] at hitem
      obtain ⟨aligned, hal, hitem⟩ := bind_eq_ok.1 hitem
      obtain ⟨⟨rest, count⟩, hrest, hitem⟩ := bind_eq_ok.1 hitem
      cases hitem
      obtain ⟨hok, hall, hcnt⟩ := ih hrest
      have hcons : withRows (.ok batch :: newData) = batch :: withRows newData := by
        simp [withRows, hr]
      rw [hcons]
      refine ⟨forall_mem_cons.2 ⟨⟨batch, rfl⟩, hok⟩, .cons hal hall, ?_⟩
      rw [hcnt, (aligned_of_align hal).numRows, totalRows, totalRows, map_cons,
        sum_cons]

/-- **What a call puts**: all batches with rows, in the schema of the table, and all their rows
belong to the shard. -/
theorem prepare_some {request : Request V Spec} (hval : request.validateSingleShard = true)
    {prepared : Prepared V} (h : prepare ev ids request = .ok (some prepared)) :
    (∀ item ∈ request.newData, ∃ batch, item = .ok batch) ∧
      List.Forall₂ (fun batch aligned => alignBatchSchema request.target batch = .ok aligned)
        (withRows request.newData) prepared.batches ∧
      prepared.totalRows = totalRows (withRows request.newData) ∧
      ∀ batch ∈ prepared.batches, ∀ k < batch.numRows,
        resolveBatchShard ev ids request.mode (batch.row k) true = .ok prepared.shardId := by
  obtain ⟨⟨batches, total⟩, hcoll, h⟩ := bind_eq_ok.1 h
  obtain ⟨found, hfd, h⟩ := bind_eq_ok.1 h
  obtain ⟨shardId, rfl, rfl⟩ := Option.map_eq_some_iff.1 (ok.inj h)
  obtain ⟨hok, hall, htot⟩ := collect_ok hcoll
  refine ⟨hok, hall, htot, fun batch hbat k hk => ?_⟩
  rw [hval, resolveInputShard] at hfd
  obtain ⟨shardId', hs, hsh⟩ := (foldlM_resolveNext hfd).2 batch hbat (by omega)
  obtain rfl := Option.some.inj hs
  exact resolveBatchShard_row hsh hk

theorem prepare_none {request : Request V Spec} (hval : request.validateSingleShard = true)
    (h : prepare ev ids request = .ok none) : totalRows (withRows request.newData) = 0 := by
  obtain ⟨⟨batches, total⟩, hcoll, h⟩ := bind_eq_ok.1 h
  obtain ⟨found, hfd, h⟩ := bind_eq_ok.1 h
  obtain rfl := Option.map_eq_none_iff.1 (ok.inj h)
  obtain ⟨-, hall, -⟩ := collect_ok hcoll
  rw [hval, resolveInputShard] at hfd
  -- a batch with rows would have a shard
  have hemp : ∀ batch ∈ withRows request.newData, batch.numRows = 0 := by
    intro batch hbat
    obtain ⟨aligned, hmem, hal⟩ := exists_mem_of_forall₂ hall hbat
    by_contra hr
    rw [← (aligned_of_align hal).numRows] at hr
    obtain ⟨shardId, hs, -⟩ := (foldlM_resolveNext hfd).2 aligned hmem hr
    cases hs
  exact sum_eq_zero fun n hn => by
    obtain ⟨batch, hbat, rfl⟩ := mem_map.1 hn
    exact hemp batch hbat

end Shards

end Lsm

end LanceDB
