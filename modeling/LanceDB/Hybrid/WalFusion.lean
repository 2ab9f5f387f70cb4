import LanceDB.Hybrid.Rrf

/-!
# Joining the legs on the primary key

A table with a write-ahead log has no stable row ids.  A hybrid query on it asks both legs for the
columns of the primary key instead and joins them on surrogate row ids: the number of the key among
the keys of both legs, in the order they are first seen.  The surrogate, and the key columns that
the query did not select, are dropped from the results.

* `Select`, `pkColumnsToInject`, `injectPkColumns` : the key columns a selection lacks.
* `pkColumns` : the key columns of a schema, in key order.
* `PkFusion`, `PkFusion.stamp`, `PkFusion.strip` : the surrogates of both legs.
* `assignIds_spec` — the surrogate of a key is its place among the keys seen.
* `PkFusion.strip_eq` — what is dropped from the results.
-/

namespace LanceDB.Hybrid

open RecordBatch

variable {E V B : Type}

/-- `Select`. -/
inductive Select (E : Type)
  | all
  | columns (columns : List String)
  | dynamic (pairs : List (String × String))
  | expr (pairs : List (String × E))

/-- `pk_columns_to_inject`: what a selection produces is decided by the names of its outputs. -/
def pkColumnsToInject (select : Select E) (pkColumns : List String) : List String :=
  match select with
  | .all => []
  | .columns columns => pkColumns.filter (· ∉ columns)
  | .dynamic pairs => pkColumns.filter (· ∉ pairs.map Prod.fst)
  | .expr pairs => pkColumns.filter (· ∉ pairs.map Prod.fst)

/-- `inject_pk_columns`: the key columns a selection lacks are added to it, as identity projections
where it is made of expressions. -/
def injectPkColumns (col : String → E) (select : Select E) (pkColumns : List String) : Select E :=
  let missing := pkColumnsToInject select pkColumns
  match select with
  | .all => .all
  | .columns columns => .columns (columns ++ missing)
  | .dynamic pairs => .dynamic (pairs ++ missing.map fun pk => (pk, pk))
  | .expr pairs => .expr (pairs ++ missing.map fun pk => (pk, col pk))

/-- What the metadata of a field says about the primary key: an explicit position, and the legacy
marker. -/
structure KeyField where
  name : String
  position : Option ℕ
  marked : Bool

/-- `pk_columns`: fields with a position come first, in its order, then those that are only marked,
in the order they are declared. -/
def pkColumns (schema : List KeyField) : List String :=
  let keyed := schema.zipIdx.filterMap fun (field, index) =>
    (field.position.or (if field.marked then some 0 else none)).map fun position =>
      (decide (position = 0), position, index, field.name)
  (keyed.mergeSort fun a b =>
    if a.1 = b.1 then
      if a.2.1 = b.2.1 then decide (a.2.2.1 ≤ b.2.2.1) else decide (a.2.1 < b.2.1)
    else !a.1).map fun entry => entry.2.2.2

/-- `PkFusion`: the key, and the key columns that were added to the selection. -/
structure PkFusion where
  columns : List String
  injected : List String

namespace PkFusion

/-- `wal_row_id_unsupported`. -/
def walRowIdUnsupported : Error := .notSupported
  ("hybrid search on a MemWAL table cannot return _rowid: the fresh tier has no stable row id, " ++
    "and the ids the fusion joins on are synthesized from the primary key. Set " ++
    "use_memwal(false) to read the base table only (results will exclude un-compacted MemWAL data)")

/-- `PkFusion::resolve`. -/
def resolve (withRowId : Bool) (schema : List KeyField) (select : Select E) :
    Except Error PkFusion :=
  if withRowId then .error walRowIdUnsupported
  else
    let columns := pkColumns schema
    .ok { columns, injected := pkColumnsToInject select columns }

/-- `PkFusion::prepare_leg`. -/
def prepareLeg (fusion : PkFusion) (col : String → E) (select : Select E) : Select E :=
  injectPkColumns col select fusion.columns

end PkFusion

/-- The surrogates of the rows of a leg: the keys seen so far are listed in the order they were
first seen, and a key that is new gets the next number. -/
def assignIds [DecidableEq B] (seen : List B) : List B → List B × List ℕ
  | [] => (seen, [])
  | key :: keys =>
    if key ∈ seen then
      let rest := assignIds seen keys
      (rest.1, seen.idxOf key :: rest.2)
    else
      let rest := assignIds (seen ++ [key]) keys
      (rest.1, seen.length :: rest.2)

variable [DecidableEq B]

/-- The columns of the key in a leg that has rows. -/
def keyIndices (pkColumns : List String) (b : RecordBatch V) : Except Error (List ℕ) :=
  pkColumns.mapM fun name =>
    match columnIndex b.schema name with
    | some i => .ok i
    | none => .error (.invalidInput
        ("hybrid search could not deduplicate: primary key column " ++ name ++
          " is missing from a result set with " ++ toString b.rows.length ++ " rows"))

/-- The surrogates of a leg; one without rows may lack the key columns. -/
def surrogateIds (encode : List (Cell V) → B) (pkColumns : List String) (seen : List B)
    (b : RecordBatch V) : Except Error (List B × List ℕ) :=
  if b.rows.isEmpty then .ok (seen, [])
  else do
    let indices ← keyIndices pkColumns b
    return assignIds seen (b.rows.map fun row => encode (indices.map fun i => row.getD i .null))

/-- One leg of `stamp_surrogate_row_ids`, with the encoding of the key columns of a row. -/
def stampLeg (encode : List (Cell V) → B) (pkColumns : List String) (seen : List B)
    (b : RecordBatch V) : Except Error (List B × RecordBatch V) := do
  let (seen, ids) ← surrogateIds encode pkColumns seen b
  let base ← if rowId ∈ names b.schema then b.dropColumn rowId else pure b
  let b ← base.tryWithColumn ⟨rowId, .uint64, false⟩ (ids.map .uint64)
  return (seen, b)

/-- `PkFusion::stamp`: the vector leg is numbered first. -/
def PkFusion.stamp (fusion : PkFusion) (encode : List (Cell V) → B) (vector fts : RecordBatch V) :
    Except Error (RecordBatch V × RecordBatch V) := do
  if fusion.columns.isEmpty then
    .error (.invalidInput ("hybrid search on a MemWAL table needs an unenforced primary key to " ++
      "deduplicate on, and this table declares none"))
  else do
    let (seen, vector) ← stampLeg encode fusion.columns [] vector
    let (_, fts) ← stampLeg encode fusion.columns seen fts
    return (vector, fts)

/-- `PkFusion::strip`. -/
def PkFusion.strip (fusion : PkFusion) (results : RecordBatch V) :
    Except Error (RecordBatch V) := do
  let results ← results.dropColumn rowId
  fusion.injected.foldlM
    (fun results column =>
      if column ∈ names results.schema then results.dropColumn column else pure results)
    results

/-! ### Surrogates -/

/-- What numbering does: the keys seen grow at the end, and the surrogate of a key is its place
among them. -/
theorem assignIds_spec (seen keys : List B) :
    ∃ new, (assignIds seen keys).1 = seen ++ new ∧
      (∀ key, key ∈ seen ++ new ↔ key ∈ seen ∨ key ∈ keys) ∧
      (assignIds seen keys).2 = keys.map ((seen ++ new).idxOf ·) := by
  induction keys generalizing seen with
  | nil => exact ⟨[], by simp [assignIds], by simp, by simp [assignIds]⟩
  | cons key keys ih =>
    rw [assignIds]
    split_ifs with hmem
    · obtain ⟨new, hs, hkeys, hids⟩ := ih seen
      refine ⟨new, hs, fun k => ?_, ?_⟩
      · rw [hkeys k, List.mem_cons]
        constructor
        · rintro (h | h)
          · exact .inl h
          · exact .inr (.inr h)
        · rintro (h | rfl | h)
          · exact .inl h
          · exact .inl hmem
          · exact .inr h
      · simp only [List.map_cons, hids, List.idxOf_append_of_mem hmem]
    · obtain ⟨new, hs, hkeys, hids⟩ := ih (seen ++ [key])
      refine ⟨key :: new, by simpa using hs, fun k => ?_, ?_⟩
      · rw [← List.append_cons] at hkeys
        rw [hkeys k]
        simp [or_assoc]
      · rw [← List.append_cons] at hids
        have hpl : (seen ++ key :: new).idxOf key = seen.length := by
          rw [List.idxOf_append_of_notMem hmem, List.idxOf_cons_self, Nat.add_zero]
        simp only [List.map_cons, hids, hpl]

/-- What is dropped: the surrogate and the columns that were added, if another column is left. -/
theorem PkFusion.strip_eq (fusion : PkFusion) {results : RecordBatch V} {other : String}
    (hoth : other ∈ names results.schema) (hk : other ∉ rowId :: fusion.injected) :
    fusion.strip results =
      .ok (results.keepColumns fun f => decide (f.name ∉ rowId :: fusion.injected)) := by
  obtain ⟨f, hf, rfl⟩ := List.mem_map.1 hoth
  obtain ⟨hrow, hinj⟩ : f.name ≠ rowId ∧ f.name ∉ fusion.injected := by simpa using hk
  have hfold : ∀ (columns : List String) (p : Field → Bool), p f = true → f.name ∉ columns →
      columns.foldlM (fun b column =>
          if column ∈ names b.schema then b.dropColumn column else pure b) (results.keepColumns p) =
      .ok (results.keepColumns fun f => p f && decide (f.name ∉ columns)) := by
    intro columns
    induction columns with
    | nil => intro p _ _; simp [pure, Except.pure]
    | cons column columns ih =>
      intro p hp hcols
      obtain ⟨hne, hcols⟩ : f.name ≠ column ∧ f.name ∉ columns := by simpa using hcols
      have hmem : f.name ∈ names (results.keepColumns p).schema :=
        List.mem_map_of_mem (List.mem_filter.2 ⟨hf, hp⟩)
      have hs : (if column ∈ names (results.keepColumns p).schema then
          (results.keepColumns p).dropColumn column else pure (results.keepColumns p)) =
          .ok (results.keepColumns fun f => p f && f.name != column) := by
        rw [← keepColumns_keepColumns]
        split_ifs with h
        · exact dropColumn_of_ne hmem hne
        · refine congrArg Except.ok (keepColumns_of_all _ fun g hg => ?_).symm
          rw [bne_iff_ne]
          rintro rfl
          exact h (List.mem_map_of_mem hg)
      rw [List.foldlM_cons, hs]
      refine (ih _ (by simp [hp, hne]) hcols).trans ?_
      refine congrArg (Except.ok ∘ results.keepColumns) (funext fun f => ?_)
      simp [Bool.and_assoc, bne, beq_eq_decide]
  rw [strip, dropColumn_of_ne (List.mem_map_of_mem hf) hrow]
  refine (hfold _ _ (by simp [hrow]) hinj).trans ?_
  refine congrArg (Except.ok ∘ results.keepColumns) (funext fun f => ?_)
  simp [bne, beq_eq_decide]

end LanceDB.Hybrid
