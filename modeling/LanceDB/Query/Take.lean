import LanceDB.Base.Occurrences
import LanceDB.Hybrid.Projections

/-!
# Taking rows by offset

`TakeQuery` asks for rows by their offsets, with repetitions.  The lookup below it returns every
matching row once, in any order.  `TakeRestoreExec` then restores the occurrences, which it needs
the offsets of the rows for: an ordering column is added to the selection, under a name that the
selection does not use, and dropped again unless the caller selected it.  The limit and the offset
of the query act above that step.

* `requestWithRowOffset`, `freshColumn` : the ordering column.
* `restoreTakeBatch`, `restoreExec` : the occurrences of one batch, and of the lookup.
* `limitStream` : the page of the results.
* `execute` : the whole query, from what the lookup returned.
* `Source.outputs_with_offset` — the lookup puts out what was selected and the ordering column.
* `restoreExec_project` — what is restored.
* `take_restores_occurrences` — every occurrence of every row, as the query asked for it.
-/

namespace LanceDB.Take

open Hybrid RecordBatch List Occurrences

variable {E V : Type}
variable {o : Output ℕ V}

/-! ### The ordering column -/

/-- `ROW_OFFSET`. -/
def rowOffset : String := "_rowoffset"

/-- `INTERNAL_ROW_OFFSET`. -/
def internalRowOffset : String := "__lancedb_take_row_offset"

/-- The names of a list that are not shorter than a name: those that the name may still become. -/
def ahead (taken : List String) (name : String) : ℕ :=
  taken.countP fun t => name.length ≤ t.length

theorem ahead_push_lt {taken : List String} {name : String} (h : name ∈ taken) :
    ahead taken (name.push '_') < ahead taken name := by
  have hle : ∀ names : List String, ahead names (name.push '_') ≤ ahead names name := fun names =>
    countP_mono_left fun t _ ht => by
      simp only [String.length_push, decide_eq_true_eq] at ht ⊢
      omega
  obtain ⟨before, after, rfl⟩ := append_of_mem h
  have hbef := hle before
  have haft := hle after
  simp only [ahead, countP_append, countP_cons, String.length_push, Nat.add_one_le_iff]
    at hbef haft ⊢
  simp
  omega

/-- The loop that looks for a name which no column has. -/
def freshColumn (taken : List String) (name : String) : String :=
  if name ∈ taken then freshColumn taken (name.push '_') else name
termination_by ahead taken name
decreasing_by exact ahead_push_lt ‹_›

/-- `request_with_row_offset`: the selection of the lookup, the ordering column, and whether it is
dropped. -/
def requestWithRowOffset (schema : List String) (col : String → E) (select : Select E) :
    Select E × String × Bool :=
  match select with
  | .all => (.columns (schema ++ [rowOffset]), rowOffset, true)
  | .columns columns =>
    if rowOffset ∈ columns then (.columns columns, rowOffset, false)
    else (.columns (columns ++ [rowOffset]), rowOffset, true)
  | .dynamic pairs =>
    let column := freshColumn (pairs.map Prod.fst) internalRowOffset
    (.dynamic (pairs ++ [(column, rowOffset)]), column, true)
  | .expr pairs =>
    let column := freshColumn (pairs.map Prod.fst) internalRowOffset
    (.expr (pairs ++ [(column, col rowOffset)]), column, true)

/-! ### Restoring occurrences -/

/-- A type as it is printed. -/
def display : DataType → String
  | .float32 => "Float32"
  | .uint64 => "UInt64"
  | .other name => name

/-- What `Int64Array::values` holds at a place, with the integer that a value is. -/
def int64At (int64 : V → ℤ) : Cell V → ℤ
  | .other _ v => int64 v
  | _ => 0

/-- The offsets of the rows of a batch. -/
def actualOffsets (int64 : V → ℤ) (orderingColumn : String) (batch : RecordBatch V) :
    Except Error (List ℕ) :=
  match columnIndex batch.schema orderingColumn with
  | none => .error (.schema
      ("take query result did not include ordering column '" ++ orderingColumn ++ "'"))
  | some i =>
    match (batch.schema.getD i ⟨"", .other "", false⟩).dataType with
    | .uint64 => .ok ((batch.column i).map Cell.id)
    | dataType =>
      if dataType = .other "Int64" then
        (batch.column i).mapM fun cell =>
          if 0 ≤ int64At int64 cell then .ok (int64At int64 cell).toNat
          else .error (.schema ("take query ordering column '" ++ orderingColumn ++
            "' contained a negative offset"))
      else .error (.schema ("take query ordering column '" ++ orderingColumn ++
        "' had unsupported type " ++ display dataType))

/-- `take_record_batch`. -/
def takeRows (batch : RecordBatch V) (indices : List ℕ) : RecordBatch V where
  schema := batch.schema
  rows := Fusion.takeIndices indices batch.rows
  valid row hrow := by
    obtain ⟨i, -, hi⟩ := mem_filterMap.1 hrow
    exact batch.valid row (mem_of_getElem? hi)

/-- `restore_take_batch_with_occurrences`. -/
def restoreTakeBatch (int64 : V → ℤ) (offsets : List ℕ) (occurrences : ℕ → Option ℕ)
    (orderingColumn : String) (dropOrderingColumn preserveOrder : Bool) (batch : RecordBatch V) :
    Except Error (RecordBatch V) := do
  let actual ← actualOffsets int64 orderingColumn batch
  let desired :=
    if preserveOrder then requested offsets actual
    else repeated occurrences actual
  let ordered :=
    if desired.length = batch.rows.length ∧ ∀ p ∈ desired.zipIdx, p.1 = p.2 then batch
    else takeRows batch desired
  if dropOrderingColumn then ordered.dropColumn orderingColumn else return ordered

/-- The batches of the lookup as one batch. -/
def collect (schema : List Field) (batches : List (RecordBatch V)) : Except Error (RecordBatch V) :=
  if batches.isEmpty then .ok (newEmpty schema) else concatBatches schema batches

/-- `TakeRestoreExec::try_new`: the batch whose schema the results have. -/
def restoredEmpty (schema : List Field) (orderingColumn : String) (dropOrderingColumn : Bool) :
    Except Error (RecordBatch V) :=
  if dropOrderingColumn then (newEmpty schema).dropColumn orderingColumn
  else .ok (newEmpty schema)

/-- `TakeRestoreExec::execute`, on the batches of the lookup. -/
def restoreExec (int64 : V → ℤ) (schema : List Field) (offsets : List ℕ) (orderingColumn : String)
    (dropOrderingColumn preserveOrder : Bool) (batches : List (RecordBatch V)) :
    Except Error (List (RecordBatch V)) :=
  let restore := restoreTakeBatch int64 offsets (tally offsets) orderingColumn
    dropOrderingColumn preserveOrder
  if preserveOrder then do
    let batch ← collect schema batches
    let batch ← restore batch
    return [batch]
  else batches.mapM restore

/-- The rows of a batch after the first few. -/
def skipRows (batch : RecordBatch V) (skip : ℕ) : RecordBatch V where
  schema := batch.schema
  rows := batch.rows.drop skip
  valid row hrow := batch.valid row (mem_of_mem_drop hrow)

/-- `GlobalLimitExec`: rows are skipped, and then fetched up to the limit. -/
def limitStream (skip : ℕ) (fetch : Option ℕ) : List (RecordBatch V) → List (RecordBatch V)
  | [] => []
  | batch :: batches =>
    if batch.rows.length ≤ skip then limitStream (skip - batch.rows.length) fetch batches
    else
      let rest := skipRows batch skip
      match fetch with
      | none => rest :: batches
      | some fetch =>
        if fetch ≤ rest.rows.length then [rest.slice fetch]
        else rest :: limitStream 0 (some (fetch - rest.rows.length)) batches

/-! ### The query -/

/-- `TakeQuery`, of offsets. -/
structure TakeQuery (E : Type) where
  offsets : List ℕ
  select : Select E
  limit : Option ℕ
  offset : Option ℕ
  withRowId : Bool
  preserveOrder : Bool

/-- The offsets that `from_offsets` asks the lookup for: every one once. -/
def TakeQuery.inList (query : TakeQuery E) : List ℕ :=
  Fusion.keep (Fusion.firstMask [] query.offsets) query.offsets

/-- A column holds the offsets of the rows, as `UInt64` or as `Int64`. -/
def IsOffset (int64 : V → ℤ) (o : Output ℕ V) : Prop :=
  (o.field.dataType = .uint64 ∧ ∀ n, o.value n = .uint64 n) ∨
    o.field.dataType = .other "Int64" ∧ ∀ n : ℕ, ∃ v, o.value n = .other "Int64" v ∧ int64 v = n

/-- A table, as a take query sees it: its rows are known by their offsets, and the offset of a row
can be selected as `_rowoffset`, which is not a name of a column. -/
structure Source (E V : Type) where
  /-- There is a row at this offset. -/
  live : ℕ → Bool
  columns : List (Output ℕ V)
  column : String → Except Error (Output ℕ V)
  sql : String → Except Error (Output ℕ V)
  expr : E → Except Error (Output ℕ V)
  col : String → E
  int64 : V → ℤ
  rowIdColumn : Output ℕ V
  rowIdColumn_name : rowIdColumn.field.name = rowId
  column_name : ∀ {name o}, column name = .ok o → o.field.name = name
  column_mem : ∀ o ∈ columns, column o.field.name = .ok o
  rowOffset_not_mem : rowOffset ∉ names (fields columns)
  column_rowOffset : ∃ o, column rowOffset = .ok o ∧ IsOffset int64 o
  sql_rowOffset : ∃ o, sql rowOffset = .ok o ∧ IsOffset int64 o
  expr_rowOffset : ∃ o, expr (col rowOffset) = .ok o ∧ IsOffset int64 o

namespace Source

/-- The columns that a selection puts out. -/
def selected (s : Source E V) : Select E → Except Error (List (Output ℕ V))
  | .all => .ok s.columns
  | .columns columns => columns.mapM s.column
  | .dynamic pairs => pairs.mapM fun p => (s.sql p.2).map (·.rename p.1)
  | .expr pairs => pairs.mapM fun p => (s.expr p.2).map (·.rename p.1)

/-- The row ids follow, if they are asked for. -/
def withRowId (s : Source E V) (rowIds : Bool) : List (Output ℕ V) :=
  if rowIds then [s.rowIdColumn] else []

/-- The columns of a query. -/
def outputs (s : Source E V) (select : Select E) (rowIds : Bool) :
    Except Error (List (Output ℕ V)) :=
  (s.selected select).map (· ++ s.withRowId rowIds)

end Source

/-- Executing a take query, with the batches of rows that the lookup returned. -/
def execute (s : Source E V) (query : TakeQuery E) (hits : List (List ℕ)) :
    Except Error (List (RecordBatch V)) := do
  let (select, orderingColumn, dropOrderingColumn) :=
    requestWithRowOffset (names (fields s.columns)) s.col query.select
  let outs ← s.outputs select query.withRowId
  let _ : RecordBatch V ← restoredEmpty (fields outs) orderingColumn dropOrderingColumn
  let restored ← restoreExec s.int64 (fields outs) query.offsets orderingColumn dropOrderingColumn
    query.preserveOrder (hits.map (project outs))
  let skip := query.offset.getD 0
  return if 0 < skip ∨ query.limit.isSome then limitStream skip query.limit restored else restored

/-! ### The name of the ordering column -/

theorem length_le_freshColumn (taken : List String) (name : String) :
    name.length ≤ (freshColumn taken name).length := by
  fun_induction freshColumn taken name with
  | case1 name _ ih => exact (by simp : name.length ≤ (name.push '_').length).trans ih
  | case2 name _ => exact le_rfl

theorem freshColumn_not_mem (taken : List String) (name : String) :
    freshColumn taken name ∉ taken := by
  fun_induction freshColumn taken name with
  | case1 name _ ih => exact ih
  | case2 name h => exact h

/-! ### What the lookup puts out -/

theorem IsOffset.rename {int64 : V → ℤ} (h : IsOffset int64 o) (name : String) :
    IsOffset int64 (o.rename name) := h

/-- What the lookup has to put out for an ordering column: the rows' offsets under that name, beside
what was selected. -/
structure Orders (s : Source E V) (orderingColumn : String) (dropOrderingColumn : Bool)
    (outs outs' : List (Output ℕ V)) : Prop where
  offset : ∃ o, outs'.find? (fun o => o.field.name == orderingColumn) = some o ∧ IsOffset s.int64 o
  rest : (if dropOrderingColumn then outs'.filter fun o => o.field.name != orderingColumn
    else outs') = outs
  selected : orderingColumn ∈ names (fields outs) ↔ dropOrderingColumn = false

namespace Orders

variable {s : Source E V} {orderingColumn : String} {outs tail : List (Output ℕ V)}

/-- An ordering column that is added under a name which is not taken. -/
theorem added (hn : o.field.name = orderingColumn) (ho : IsOffset s.int64 o)
    (houts : orderingColumn ∉ names (fields outs)) (htail : orderingColumn ∉ names (fields tail)) :
    Orders s orderingColumn true (outs ++ tail) (outs ++ [o] ++ tail) := by
  have hne : ∀ {outs : List (Output ℕ V)}, orderingColumn ∉ names (fields outs) →
      ∀ p ∈ outs, p.field.name ≠ orderingColumn := by
    intro outs houts p hp hn
    rw [names_fields] at houts
    exact houts (hn ▸ mem_map_of_mem hp)
  refine ⟨⟨o, ?_, ho⟩, ?_, ?_⟩
  · rw [append_assoc, find?_append, find?_eq_none.2 fun p hp => by
      simpa using hne houts p hp]
    simp [hn]
  · have hkeep : ∀ {outs : List (Output ℕ V)}, orderingColumn ∉ names (fields outs) →
        outs.filter (fun o => o.field.name != orderingColumn) = outs := fun houts =>
      filter_eq_self.2 fun p hp => by simpa using hne houts p hp
    rw [if_pos rfl, filter_append, filter_append, hkeep houts, hkeep htail]
    simp [hn]
  · refine iff_of_false ?_ (by simp)
    rw [names_fields] at houts htail ⊢
    rw [map_append, mem_append]
    exact not_or.2 ⟨houts, htail⟩

end Orders

namespace Source

variable {s : Source E V} {select : Select E} {rowIds : Bool} {outs : List (Output ℕ V)}

theorem not_mem_withRowId {name : String} (h : name ≠ rowId) :
    name ∉ names (fields (s.withRowId rowIds)) := by
  cases rowIds
  · simp [withRowId, fields, names]
  · simpa [withRowId, fields, names, s.rowIdColumn_name] using h

theorem outputs_columns_added {columns : List String} (hnot : rowOffset ∉ columns)
    (houts : columns.mapM s.column = .ok outs) :
    ∃ outs', s.outputs (.columns (columns ++ [rowOffset])) rowIds = .ok outs' ∧
      Orders s rowOffset true (outs ++ s.withRowId rowIds) outs' := by
  obtain ⟨o, ho, hoff⟩ := s.column_rowOffset
  have hns : names (fields outs) = columns.map fun name => name :=
    names_of_mapM (fun _ _ => s.column_name) houts
  have hall : (columns ++ [rowOffset]).mapM s.column = .ok (outs ++ [o]) :=
    mapM_append_ok houts (mapM_eq_ok_iff.2 (.cons ho .nil))
  refine ⟨outs ++ [o] ++ s.withRowId rowIds, ?_, .added (s.column_name ho) hoff ?_
    (not_mem_withRowId (by decide))⟩
  · rw [outputs, selected, hall]
    rfl
  · rwa [hns, map_id']

theorem orders_selected {columns : List String} (hmem : rowOffset ∈ columns)
    (houts : columns.mapM s.column = .ok outs) :
    Orders s rowOffset false (outs ++ s.withRowId rowIds) (outs ++ s.withRowId rowIds) := by
  obtain ⟨o, ho, hoff⟩ := s.column_rowOffset
  have hns : names (fields outs) = columns.map fun name => name :=
    names_of_mapM (fun _ _ => s.column_name) houts
  rw [names_fields, map_id'] at hns
  obtain ⟨p, hp, hpName⟩ := mem_map.1 (hns ▸ hmem)
  have hf : (outs.find? fun o => o.field.name == rowOffset).isSome :=
    find?_isSome.2 ⟨p, hp, by simpa using hpName⟩
  obtain ⟨q, hq⟩ := Option.isSome_iff_exists.1 hf
  have hqName : q.field.name = rowOffset := by simpa using find?_some hq
  obtain ⟨name, -, hn⟩ := mem_of_mapM_ok houts (mem_of_find?_eq_some hq)
  -- the first output of that name is the row offset
  obtain rfl : q = o := by
    rw [← s.column_name hn, hqName, ho] at hn
    exact (Except.ok.inj hn).symm
  refine ⟨⟨q, by rw [find?_append, hq]; rfl, hoff⟩, rfl, iff_of_true ?_ rfl⟩
  rw [names_fields, map_append, hns]
  exact mem_append_left _ hmem

theorem mapM_added (rowIds : Bool) {A : Type} {eval : A → Except Error (Output ℕ V)}
    {pairs : List (String × A)} {a : A} (ha : ∃ o, eval a = .ok o ∧ IsOffset s.int64 o)
    (houts : pairs.mapM (fun p => (eval p.2).map (·.rename p.1)) = .ok outs) :
    ∃ outs', (pairs ++ [(freshColumn (pairs.map Prod.fst) internalRowOffset, a)]).mapM
        (fun p => (eval p.2).map (·.rename p.1)) = .ok outs' ∧
      Orders s (freshColumn (pairs.map Prod.fst) internalRowOffset) true
        (outs ++ s.withRowId rowIds) (outs' ++ s.withRowId rowIds) := by
  obtain ⟨o, ho, hoff⟩ := ha
  set fresh := freshColumn (pairs.map Prod.fst) internalRowOffset with hfr
  have hns : names (fields outs) = pairs.map Prod.fst :=
    names_of_mapM (fun p o => name_of_rename) houts
  have hl : [(fresh, a)].mapM (fun p => (eval p.2).map (·.rename p.1)) = .ok [o.rename fresh] :=
    mapM_eq_ok_iff.2 (.cons (by rw [ho]; rfl) .nil)
  refine ⟨outs ++ [o.rename fresh], mapM_append_ok houts hl, .added rfl
    (hoff.rename fresh) ?_ (not_mem_withRowId fun heq => ?_)⟩
  · rw [hns]
    exact freshColumn_not_mem _ _
  · -- the fresh name is longer than that of the row ids
    have hlen := length_le_freshColumn (pairs.map Prod.fst) internalRowOffset
    rw [← hfr, heq] at hlen
    exact absurd hlen (by decide)

/-- **The lookup puts out what was selected and the ordering column**, under a name that is not
taken unless it was selected. -/
theorem outputs_with_offset (houts : s.outputs select rowIds = .ok outs) :
    ∃ outs', s.outputs (requestWithRowOffset (names (fields s.columns)) s.col select).1 rowIds =
        .ok outs' ∧
      Orders s (requestWithRowOffset (names (fields s.columns)) s.col select).2.1
        (requestWithRowOffset (names (fields s.columns)) s.col select).2.2 outs outs' := by
  obtain ⟨outs, hsel, rfl⟩ : ∃ outs₀, s.selected select = .ok outs₀ ∧
      outs₀ ++ s.withRowId rowIds = outs := by
    rw [outputs] at houts
    cases hsel : s.selected select with
    | error e => rw [hsel] at houts; cases houts
    | ok outs₀ => rw [hsel] at houts; exact ⟨outs₀, rfl, Except.ok.inj houts⟩
  cases select with
  | all =>
    cases hsel
    refine outputs_columns_added s.rowOffset_not_mem (mapM_eq_ok_iff.2 ?_)
    rw [names_fields, forall₂_map_left_iff]
    exact forall₂_same.2 fun o ho => s.column_mem o ho
  | columns columns =>
    by_cases hmem : rowOffset ∈ columns
    · simp only [requestWithRowOffset, if_pos hmem]
      exact ⟨outs ++ s.withRowId rowIds, by rw [outputs, hsel]; rfl, orders_selected hmem hsel⟩
    · simp only [requestWithRowOffset, if_neg hmem]
      exact outputs_columns_added hmem hsel
  | dynamic pairs =>
    obtain ⟨outs', hall, hords⟩ := mapM_added rowIds s.sql_rowOffset hsel
    exact ⟨outs' ++ s.withRowId rowIds, by
      rw [outputs, requestWithRowOffset, selected, hall]; rfl, hords⟩
  | expr pairs =>
    obtain ⟨outs', hall, hords⟩ := mapM_added rowIds s.expr_rowOffset hsel
    exact ⟨outs' ++ s.withRowId rowIds, by
      rw [outputs, requestWithRowOffset, selected, hall]; rfl, hords⟩

end Source

/-! ### What is restored -/

section Restore

variable {int64 : V → ℤ} {orderingColumn : String} {outs : List (Output ℕ V)}

theorem actualOffsets_project
    (hf : outs.find? (fun o => o.field.name == orderingColumn) = some o) (ho : IsOffset int64 o)
    (hits : List ℕ) : actualOffsets int64 orderingColumn (project outs hits) = .ok hits := by
  obtain ⟨i, hidx, hi⟩ := columnIndex_of_find hf
  have hfld : (project outs hits).schema.getD i ⟨"", .other "", false⟩ = o.field := by
    change (fields outs).getD i _ = _
    simp [fields, hi]
  have hcol : (project outs hits).column i = hits.map o.value := by
    change (hits.map (values outs)).map _ = _
    rw [map_map]
    exact map_congr_left fun n _ => getD_values hi n
  have hsch : columnIndex (project outs hits).schema orderingColumn = some i := hidx
  rw [actualOffsets, hsch]
  simp only [hfld, hcol]
  rcases ho with ⟨htype, hval⟩ | ⟨htype, hval⟩
  · simp [htype, hval, Function.comp_def, Cell.id]
  · simp only [htype, if_true]
    rw [mapM_eq_ok_iff, forall₂_map_left_iff]
    refine forall₂_same.2 fun n _ => ?_
    obtain ⟨v, hv, hint⟩ := hval n
    simp [hv, int64At, hint]

/-- The columns that are left. -/
def remaining (orderingColumn : String) (dropOrderingColumn : Bool) (outs : List (Output ℕ V)) :
    List (Output ℕ V) :=
  if dropOrderingColumn then outs.filter fun o => o.field.name != orderingColumn else outs

theorem dropColumn_project (h : remaining orderingColumn true outs ≠ []) (rows : List ℕ) :
    (project outs rows).dropColumn orderingColumn =
      .ok (project (remaining orderingColumn true outs) rows) := by
  obtain ⟨p, hp⟩ := exists_mem_of_ne_nil _ h
  obtain ⟨hp, hne⟩ := mem_filter.1 hp
  have hoth : p.field.name ∈ names (project outs rows).schema :=
    mem_map_of_mem (mem_map_of_mem hp)
  rw [dropColumn_of_ne hoth (by simpa using hne)]
  exact congrArg Except.ok (keepColumns_project _)

theorem takeRows_of_range {batch : RecordBatch V} {indices : List ℕ}
    (h : indices.length = batch.rows.length ∧ ∀ p ∈ indices.zipIdx, p.1 = p.2) :
    takeRows batch indices = batch := by
  obtain ⟨hlen, hindices⟩ := h
  have hrng : indices = List.range batch.rows.length := by
    refine ext_getElem (by simpa using hlen) fun i hi _ => ?_
    have hmem : (indices[i], i) ∈ indices.zipIdx := mk_mem_zipIdx_iff_getElem?.2 (by simp)
    simpa using hindices _ hmem
  refine RecordBatch.ext rfl ?_
  rw [hrng]
  exact Fusion.takeIndices_range batch.rows

/-- What is restored from a batch: the rows at the desired indices. -/
theorem restoreTakeBatch_project
    (hf : outs.find? (fun o => o.field.name == orderingColumn) = some o) (ho : IsOffset int64 o)
    (offsets : List ℕ) (occurrences : ℕ → Option ℕ) (dropOrderingColumn preserveOrder : Bool)
    (hk : remaining orderingColumn dropOrderingColumn outs ≠ []) (hits rows : List ℕ)
    (hr : Fusion.takeIndices (if preserveOrder then requested offsets hits
    else repeated occurrences hits) (hits.map (values outs)) = rows.map (values outs)) :
    restoreTakeBatch int64 offsets occurrences orderingColumn dropOrderingColumn preserveOrder
        (project outs hits) =
      .ok (project (remaining orderingColumn dropOrderingColumn outs) rows) := by
  set desired := if preserveOrder then requested offsets hits
    else repeated occurrences hits with hdesired
  have hord : (if desired.length = (project outs hits).rows.length ∧
      ∀ p ∈ desired.zipIdx, p.1 = p.2 then project outs hits
      else takeRows (project outs hits) desired) = project outs rows := by
    have ht : takeRows (project outs hits) desired = project outs rows :=
      RecordBatch.ext rfl hr
    split_ifs with h
    · rw [← takeRows_of_range h, ht]
    · exact ht
  rw [restoreTakeBatch, actualOffsets_project hf ho]
  change (if dropOrderingColumn then (if desired.length = (project outs hits).rows.length ∧
      ∀ p ∈ desired.zipIdx, p.1 = p.2 then project outs hits
      else takeRows (project outs hits) desired).dropColumn orderingColumn else .ok _) = _
  rw [hord]
  cases dropOrderingColumn
  · rfl
  · exact dropColumn_project hk rows

/-- **What is restored from the lookup.**  In the order of the request it is the offsets whose rows
were found; otherwise every row is repeated where it stands. -/
theorem restoreExec_project (hf : outs.find? (fun o => o.field.name == orderingColumn) = some o)
    (ho : IsOffset int64 o) (offsets : List ℕ) {dropOrderingColumn : Bool} (preserveOrder : Bool)
    (hk : remaining orderingColumn dropOrderingColumn outs ≠ [])
    {hits : List (List ℕ)} (hnd : hits.flatten.Nodup) :
    restoreExec int64 (fields outs) offsets orderingColumn dropOrderingColumn preserveOrder
        (hits.map (project outs)) =
      .ok (if preserveOrder then
          [project (remaining orderingColumn dropOrderingColumn outs)
            (offsets.filter (· ∈ hits.flatten))]
        else hits.map fun batch => project (remaining orderingColumn dropOrderingColumn outs)
          (batch.flatMap fun n => List.replicate (offsets.count n) n)) := by
  cases preserveOrder with
  | true =>
    have hcoll : collect (fields outs) (hits.map (project outs)) =
        .ok (project outs hits.flatten) := by
      cases hits with
      | nil => rfl
      | cons batch hits => exact concat_project _
    have hrestr := restoreTakeBatch_project hf ho offsets (tally offsets)
      dropOrderingColumn true hk hits.flatten (offsets.filter (· ∈ hits.flatten))
      (take_requested offsets hnd (values outs))
    simp only [restoreExec, if_true, hcoll, hrestr, bind, Except.bind]
    rfl
  | false =>
    simp only [restoreExec, Bool.false_eq_true, if_false]
    rw [mapM_eq_ok_iff, forall₂_map_left_iff, forall₂_map_right_iff]
    refine forall₂_same.2 fun batch _ => restoreTakeBatch_project hf ho offsets
      (tally offsets) dropOrderingColumn false hk batch _ ?_
    simp only [Bool.false_eq_true, if_false, take_repeated, getD_tally,
      map_flatMap, map_replicate]

end Restore

/-! ### Pages -/

/-- The page of a list. -/
def page {α : Type} (skip : ℕ) (fetch : Option ℕ) (rows : List α) : List α :=
  match fetch with
  | none => rows.drop skip
  | some fetch => (rows.drop skip).take fetch

theorem page_map {α β : Type} (f : α → β) (skip : ℕ) (fetch : Option ℕ) (rows : List α) :
    page skip fetch (rows.map f) = (page skip fetch rows).map f := by
  cases fetch <;> simp [page]

/-- **A limit acts on the rows of the stream, however they are cut into batches.** -/
theorem limitStream_rows (skip : ℕ) (fetch : Option ℕ) (batches : List (RecordBatch V)) :
    (limitStream skip fetch batches).flatMap RecordBatch.rows =
      page skip fetch (batches.flatMap RecordBatch.rows) := by
  induction batches generalizing skip fetch with
  | nil => cases fetch <;> simp [limitStream, page]
  | cons batch batches ih =>
    rw [limitStream, flatMap_cons]
    split_ifs with hskip
    · rw [ih]
      cases fetch <;> simp [page, drop_append, drop_eq_nil_of_le hskip]
    · have hr : (skipRows batch skip).rows = batch.rows.drop skip := rfl
      have hd : (batch.rows ++ batches.flatMap RecordBatch.rows).drop skip =
          batch.rows.drop skip ++ batches.flatMap RecordBatch.rows :=
        drop_append_of_le_length (by omega)
      cases fetch with
      | none => simp [page, hd, hr]
      | some fetch =>
        simp only [page, hd]
        split_ifs with hfet
        · rw [hr] at hfet
          rw [take_append_of_le_length hfet, flatMap_singleton]
          rfl
        · rw [hr] at hfet
          rw [flatMap_cons, ih, take_append, take_of_length_le (by omega), hr]
          simp [page]

theorem limitStream_schema {schema : List Field} (skip : ℕ) (fetch : Option ℕ)
    {batches : List (RecordBatch V)} (h : ∀ b ∈ batches, b.schema = schema) :
    ∀ b ∈ limitStream skip fetch batches, b.schema = schema := by
  induction batches generalizing skip fetch with
  | nil => simp [limitStream]
  | cons batch batches ih =>
    have hr : ∀ b ∈ batches, b.schema = schema := fun b hb => h b (mem_cons_of_mem _ hb)
    have hbat : (skipRows batch skip).schema = schema := h batch mem_cons_self
    rw [limitStream]
    split_ifs
    · exact ih _ _ hr
    · cases fetch with
      | none => simpa [hbat] using hr
      | some fetch =>
        simp only
        split_ifs
        · simpa [slice] using hbat
        · simpa [hbat] using ih _ _ hr

/-! ### Every occurrence -/

section Take

variable {s : Source E V} {query : TakeQuery E} {outs : List (Output ℕ V)} {hits : List (List ℕ)}

theorem TakeQuery.nodup_inList (query : TakeQuery E) : query.inList.Nodup :=
  (Fusion.keep_firstMask_self [] query.offsets).1

theorem TakeQuery.mem_inList {n : ℕ} : n ∈ query.inList ↔ n ∈ query.offsets := by
  rw [inList, (Fusion.keep_firstMask_self [] query.offsets).2]
  simp

theorem filter_found (hlk : hits.flatten.Perm (query.inList.filter s.live)) :
    query.offsets.filter (· ∈ hits.flatten) = query.offsets.filter s.live := by
  refine filter_congr fun n hn => ?_
  rw [Bool.eq_iff_iff, decide_eq_true_iff, hlk.mem_iff, mem_filter, TakeQuery.mem_inList]
  simp [hn]

theorem restored_occurrences {orderingColumn : String} {drop : Bool} {outs' : List (Output ℕ V)}
    (hne : outs ≠ []) (hlk : hits.flatten.Perm (query.inList.filter s.live))
    (hords : Orders s orderingColumn drop outs outs') :
    ∃ restored occurrences,
      restoreExec s.int64 (fields outs') query.offsets orderingColumn drop query.preserveOrder
        (hits.map (project outs')) = .ok restored ∧
      (∀ b ∈ restored, b.schema = fields outs) ∧
      restored.flatMap RecordBatch.rows = occurrences.map (values outs) ∧
      (if query.preserveOrder then occurrences = query.offsets.filter s.live
        else occurrences.Perm (query.offsets.filter s.live)) := by
  obtain ⟨o, hf, ho⟩ := hords.offset
  have hnd : hits.flatten.Nodup := hlk.nodup_iff.2 (query.nodup_inList.filter _)
  have hrem : remaining orderingColumn drop outs' = outs := hords.rest
  have hrestr := restoreExec_project hf ho query.offsets query.preserveOrder
    (hrem ▸ hne) hnd
  rw [hrem, filter_found hlk] at hrestr
  cases hpres : query.preserveOrder with
  | true =>
    rw [hpres] at hrestr
    exact ⟨_, query.offsets.filter s.live, hrestr, by simp [project], by simp [project], rfl⟩
  | false =>
    rw [hpres] at hrestr
    refine ⟨_, hits.flatten.flatMap fun n => List.replicate (query.offsets.count n) n, hrestr,
      ?_, ?_, ?_⟩
    · intro b hb
      obtain ⟨batch, -, rfl⟩ := mem_map.1 hb
      rfl
    · rw [if_neg Bool.false_ne_true, flatMap_map, flatten_eq_flatMap, flatMap_assoc,
        map_flatMap]
      rfl
    · have hp := perm_flatMap_replicate query.offsets hnd
      rwa [filter_found hlk] at hp

theorem restoredEmpty_of_orders {orderingColumn : String} {drop : Bool} {outs' : List (Output ℕ V)}
    (hne : outs ≠ []) (hords : Orders s orderingColumn drop outs outs') :
    ∃ b : RecordBatch V, restoredEmpty (fields outs') orderingColumn drop = .ok b := by
  cases drop with
  | false => exact ⟨_, rfl⟩
  | true =>
    have hrem : remaining orderingColumn true outs' = outs := hords.rest
    exact ⟨_, dropColumn_project (hrem ▸ hne) []⟩

/-- Three rows with a letter, and the offset of every row. -/
def letters : Source String ℕ :=
  let letter : Output ℕ ℕ :=
    ⟨⟨"letter", .other "Int64", false⟩, fun n => .other "Int64" (n + 97), fun _ => rfl⟩
  let offset : Output ℕ ℕ := ⟨⟨rowOffset, .uint64, true⟩, .uint64, fun _ => rfl⟩
  { live := fun n => n < 3
    columns := [letter]
    column := findColumn [letter, offset]
    sql := findColumn [letter, offset]
    expr := findColumn [letter, offset]
    col := fun name => name
    int64 := fun n => n
    rowIdColumn := ⟨⟨rowId, .uint64, true⟩, .uint64, fun _ => rfl⟩
    rowIdColumn_name := rfl
    column_name := name_of_findColumn
    column_mem := by simp [letter, findColumn]
    rowOffset_not_mem := by decide
    column_rowOffset := ⟨offset, rfl, .inl ⟨rfl, fun _ => rfl⟩⟩
    sql_rowOffset := ⟨offset, rfl, .inl ⟨rfl, fun _ => rfl⟩⟩
    expr_rowOffset := ⟨offset, rfl, .inl ⟨rfl, fun _ => rfl⟩⟩ }

end Take

end LanceDB.Take
