import LanceDB.Permutation.Reader

/-!
# Pickling a permutation

A `Permutation` that is sent to a worker process takes its permutation table along, and a way to
reopen its base table.  A table on disk is opened again by its name, and the reader checks out the
version and branch that the permutation recorded.  A table in memory is written anew from its live
rows, and the recorded version is dropped; but the permutation still names its rows by their old row
ids.

`copy.copy` makes the same round trip, so `with_skip` and `with_take` do: a permutation with an
offset or a limit has been rebuilt already, and another round trip changes nothing.

* `Version`, `Handle` : a version of a table as fragments with deleted rows, and an open table.
* `PermutationView.getState`, `PermutationView.setState` : the functions of the source.
* `PermutationView.withSkip`, `PermutationView.withTake`, `PermutationView.Derived` : copies.
* `Version.mem_live` — which row ids a version has.
* `PermutationView.yields_iff` — what reading a permutation yields.
* `PermutationView.roundTrip_roundTrip`, `PermutationView.Derived.eq_or_copy` — a copy of a
  copy.
* `PermutationView.pickled_iff` — when a permutation yields the same after a round trip.
-/

namespace LanceDB

open List

namespace Permutation

variable {α : Type}

/-! ### Versions of a table -/

/-- A fragment.  The place of a deleted row stays empty. -/
structure Fragment (α : Type) where
  id : ℕ
  slots : List (Option α)

/-- The row id of a place in a fragment. -/
def rowAddress (fragment offset : ℕ) : ℕ := fragment * 2 ^ 32 + offset

/-- A version of a table. -/
@[ext] structure Version (α : Type) where
  fragments : List (Fragment α)
  nodup : (fragments.map Fragment.id).Nodup
  /-- An offset has 32 bits. -/
  bounded : ∀ fragment ∈ fragments, fragment.slots.length ≤ 2 ^ 32

/-- The live rows of a fragment. -/
def Fragment.live (fragment : Fragment α) : List (Row α) :=
  fragment.slots.zipIdx.filterMap fun (slot, offset) =>
    slot.map fun columns => ⟨rowAddress fragment.id offset, columns⟩

namespace Version

variable (version : Version α)

/-- The live rows in storage order. -/
def live : List (Row α) := version.fragments.flatMap Fragment.live

/-- What is stored under a row id. -/
def at? (id : ℕ) : Option α := do
  let fragment ← version.fragments.find? (·.id = id / 2 ^ 32)
  (fragment.slots[id % 2 ^ 32]?).join

end Version

theorem Fragment.mem_live {fragment : Fragment α} {row : Row α} :
    row ∈ fragment.live ↔ ∃ offset, fragment.slots[offset]? = some (some row.columns) ∧
      row.rowId = rowAddress fragment.id offset := by
  simp only [live, mem_filterMap, Prod.exists, mem_zipIdx_iff_getElem?,
    Option.map_eq_some_iff]
  constructor
  · rintro ⟨slot, offset, hs, columns, rfl, rfl⟩
    exact ⟨offset, hs, rfl⟩
  · rintro ⟨offset, hs, hid⟩
    exact ⟨_, offset, hs, row.columns, rfl, by rw [← hid]⟩

theorem Fragment.map_columns_live (fragment : Fragment α) :
    fragment.live.map Row.columns = fragment.slots.filterMap fun slot => slot := by
  have hcols : ∀ slot : Option α × ℕ, (slot.1.map fun columns =>
      (⟨rowAddress fragment.id slot.2, columns⟩ : Row α)).map Row.columns = slot.1 := by
    rintro ⟨_ | columns, offset⟩ <;> rfl
  have hslots := congrArg (filterMap fun slot => slot) (zipIdx_map_fst 0 fragment.slots)
  rw [filterMap_map] at hslots
  rw [live, map_filterMap, filterMap_congr fun slot _ => hcols slot]
  exact hslots

theorem Fragment.nodup_live (fragment : Fragment α) :
    (fragment.live.map Row.rowId).Nodup := by
  have hoffsets : fragment.slots.zipIdx.Pairwise fun a b => a.2 ≠ b.2 := by
    rw [← pairwise_map (f := Prod.snd) (R := (· ≠ ·)), zipIdx_map_snd]
    exact nodup_range'
  rw [List.Nodup, pairwise_map, live, pairwise_filterMap]
  refine hoffsets.imp ?_
  rintro ⟨slot, offset⟩ ⟨slot', offset'⟩ hne row hrow row' hrow' heq
  obtain ⟨columns, -, rfl⟩ := Option.map_eq_some_iff.1 hrow
  obtain ⟨columns', -, rfl⟩ := Option.map_eq_some_iff.1 hrow'
  exact hne (Nat.add_left_cancel heq)

namespace Version

variable {version : Version α}

/-- **The rows of a version**, by their row ids. -/
theorem mem_live {row : Row α} :
    row ∈ version.live ↔ version.at? row.rowId = some row.columns := by
  simp only [live, mem_flatMap, Fragment.mem_live, at?, Option.bind_eq_bind,
    Option.bind_eq_some_iff, Option.join_eq_some_iff]
  constructor
  · rintro ⟨fragment, hfrag, offset, hs, hid⟩
    have hlt : offset < 2 ^ 32 :=
      (List.getElem?_eq_some_iff.1 hs).1.trans_le (version.bounded fragment hfrag)
    have hdiv : row.rowId / 2 ^ 32 = fragment.id := by
      rw [hid, rowAddress]
      omega
    have hmod : row.rowId % 2 ^ 32 = offset := by
      rw [hid, rowAddress]
      omega
    refine ⟨fragment, ?_, by rw [hmod, hs]⟩
    rw [hdiv]
    -- no other fragment has this number
    obtain ⟨fragment', hf⟩ : ∃ fragment', version.fragments.find? (·.id = fragment.id) =
        some fragment' :=
      Option.isSome_iff_exists.1 (find?_isSome.2 ⟨fragment, hfrag, by simp⟩)
    have hid' : fragment'.id = fragment.id := by simpa using find?_some hf
    rw [hf, inj_on_of_nodup_map version.nodup (mem_of_find?_eq_some hf) hfrag
      hid']
  · rintro ⟨fragment, hf, hs⟩
    have hid : fragment.id = row.rowId / 2 ^ 32 := by simpa using find?_some hf
    refine ⟨fragment, mem_of_find?_eq_some hf, _, hs, ?_⟩
    rw [rowAddress, hid]
    omega

theorem nodup_live (version : Version α) : (version.live.map Row.rowId).Nodup := by
  rw [live, map_flatMap, nodup_flatMap]
  refine ⟨fun fragment _ => fragment.nodup_live, ?_⟩
  have hids : version.fragments.Pairwise fun a b => a.id ≠ b.id := pairwise_map.1 version.nodup
  refine hids.imp_of_mem ?_
  intro fragment fragment' hfrag hfrag' hne id hid hid'
  obtain ⟨row, hrow, rfl⟩ := mem_map.1 hid
  obtain ⟨row', hrow', heq⟩ := mem_map.1 hid'
  obtain ⟨offset, hs, haddr⟩ := Fragment.mem_live.1 hrow
  obtain ⟨offset', hs', haddr'⟩ := Fragment.mem_live.1 hrow'
  have hlt := (List.getElem?_eq_some_iff.1 hs).1.trans_le (version.bounded _ hfrag)
  have hlt' := (List.getElem?_eq_some_iff.1 hs').1.trans_le (version.bounded _ hfrag')
  rw [rowAddress] at haddr haddr'
  omega

end Version

/-- How the query engine finds rows by their ids: all of them, in any order and any batches. -/
structure QueryEngine (α : Type) where
  query : List (Row α) → List ℕ → List (List (Row α))
  perm : ∀ rows ids, (query rows ids).flatten.Perm (rows.filter fun row => row.rowId ∈ ids)

/-- The rows in storage order, in one batch. -/
def QueryEngine.inOrder : QueryEngine α where
  query rows ids := [rows.filter fun row => row.rowId ∈ ids]
  perm rows ids := by rw [flatten_singleton]

/-- A version as the base table of a reader. -/
def Version.base (engine : QueryEngine α) (version : Version α) : Base α where
  rows := version.live
  nodup := version.nodup_live
  query := engine.query version.live
  query_perm := engine.perm version.live

variable {engine : QueryEngine α}

theorem Version.lookup_base {version : Version α} {id : ℕ} :
    ((version.base engine).lookup id).map Row.columns = version.at? id := by
  ext columns
  rw [Option.map_eq_some_iff]
  constructor
  · rintro ⟨row, hrow, rfl⟩
    obtain ⟨hmem, rfl⟩ := Base.lookup_eq_some.1 hrow
    exact mem_live.1 hmem
  · intro hat
    exact ⟨⟨id, columns⟩, Base.lookup_eq_some.2 ⟨mem_live.2 hat, rfl⟩, rfl⟩

/-! ### Tables -/

/-- The versions of a table on its branches. -/
structure Dataset (α : Type) where
  versions : String → ℕ → Option (Version α)
  /-- The latest version of the main branch. -/
  latest : ℕ
  isSome_latest : (versions "main" latest).isSome

/-- An open table. -/
structure Handle (α : Type) where
  dataset : Dataset α
  /-- The URI of its connection starts with `memory://`. -/
  inMemory : Bool
  branch : String
  version : ℕ
  isSome_current : (dataset.versions branch version).isSome

/-- The version a table is at. -/
def Handle.current (table : Handle α) : Version α :=
  (table.dataset.versions table.branch table.version).get table.isSome_current

/-- `checkout_branch_version`. -/
def Handle.checkoutBranchVersion (table : Handle α) (branch : String) (version : ℕ) :
    Except LoaderError (Version α) :=
  match table.dataset.versions branch version with
  | some version => .ok version
  | none => .error (.runtime "not found")

theorem Handle.checkoutBranchVersion_eq_ok {table : Handle α} {branch : String} {n : ℕ}
    {version : Version α} :
    table.checkoutBranchVersion branch n = .ok version ↔
      table.dataset.versions branch n = some version := by
  rw [checkoutBranchVersion]
  cases table.dataset.versions branch n <;> simp

/-- How `create_table` distributes rows over files. -/
structure Writer (α : Type) where
  files : List α → List (List α)
  flatten_files : ∀ rows, (files rows).flatten = rows
  bounded : ∀ rows, ∀ file ∈ files rows, file.length ≤ 2 ^ 32

/-- What is written: fragments numbered from 0. -/
def Writer.write (writer : Writer α) (rows : List α) : Version α where
  fragments := (writer.files rows).zipIdx.map fun (file, i) => ⟨i, file.map some⟩
  nodup := by
    rw [map_map]
    exact (zipIdx_map_snd 0 (writer.files rows)).symm ▸ nodup_range'
  bounded fragment hfrag := by
    obtain ⟨⟨file, i⟩, hfile, rfl⟩ := mem_map.1 hfrag
    simpa using writer.bounded rows file (fst_mem_of_mem_zipIdx hfile)

theorem Writer.live_write (writer : Writer α) (rows : List α) :
    (writer.write rows).live.map Row.columns = rows := by
  have hfs : ((writer.files rows).zipIdx.map fun x : List α × ℕ =>
      (x.1.map some).filterMap fun slot => slot) = writer.files rows := by
    simp only [filterMap_map, Function.comp_def, filterMap_some]
    exact zipIdx_map_fst 0 _
  rw [Version.live, map_flatMap]
  simp only [Fragment.map_columns_live, write, flatMap_map]
  rw [flatMap_def, hfs, writer.flatten_files]

/-- No row is deleted, and the fragments are the files that the rows would be written to, numbered
from 0. -/
def Version.AsWritten (writer : Writer α) (version : Version α) : Prop :=
  version.fragments = (writer.files (version.live.map Row.columns)).zipIdx.map
    fun (file, i) => ⟨i, file.map some⟩

/-- `create_table` in a new database in memory. -/
def Writer.createTable (writer : Writer α) (rows : List α) : Handle α where
  dataset :=
    { versions := fun branch version =>
        if branch = "main" ∧ version = 1 then some (writer.write rows) else none
      latest := 1
      isSome_latest := rfl }
  inMemory := true
  branch := "main"
  version := 1
  isSome_current := rfl

/-- All rows in one file, or if there are too many, every row in its own. -/
def Writer.oneFile : Writer α where
  files rows := if rows.length ≤ 2 ^ 32 then [rows] else rows.map ([·])
  flatten_files rows := by
    split_ifs
    · exact flatten_singleton
    · rw [← flatMap_def, flatMap_singleton']
  bounded rows file hfile := by
    split_ifs at hfile with hle
    · rwa [mem_singleton.1 hfile]
    · obtain ⟨row, -, rfl⟩ := mem_map.1 hfile
      simp

/-- `open_table`. -/
def Dataset.openTable (dataset : Dataset α) : Handle α :=
  ⟨dataset, false, "main", dataset.latest, dataset.isSome_latest⟩

/-! ### Permutations -/

/-- A permutation table as Arrow data. -/
structure PermutationData where
  entries : List Entry
  baseVersion : Option ℕ
  baseBranch : Option String

/-- `pin_base_table`; without a permutation table the base table stays as it is. -/
def pinBaseTable (table : Handle α) (data : Option PermutationData) :
    Except LoaderError (Version α) :=
  match data.bind (·.baseVersion) with
  | none => .ok table.current
  | some version =>
    table.checkoutBranchVersion ((data.bind (·.baseBranch)).getD "main") version

/-- `_drop_base_version`. -/
def dropBaseVersion (data : PermutationData) : PermutationData :=
  if data.baseVersion = none then data
  else { data with baseVersion := none, baseBranch := none }

/-- `Permutation`. -/
structure PermutationView (α : Type) where
  baseTable : Handle α
  permutationTable : Option PermutationData
  split : ℕ
  offset : Option ℕ
  limit : Option ℕ
  /-- The table that the connection factory opens, if there is one. -/
  connectionFactory : Option (Handle α)

/-- What the base table is recovered from: the result of `_table_to_pickle_state`, with what the
name and the URI lead to, or the connection factory. -/
inductive TableState (α : Type)
  | memory (data : List α)
  | onDisk (dataset : Dataset α)
  | factory (table : Handle α)

/-- `_table_to_pickle_state`. -/
def tableToPickleState (table : Handle α) : TableState α :=
  if table.inMemory then .memory (table.current.live.map Row.columns)
  else .onDisk table.dataset

/-- `_table_from_pickle_state`, or a call of the factory. -/
def tableFromPickleState (writer : Writer α) : TableState α → Handle α
  | .memory data => writer.createTable data
  | .onDisk dataset => dataset.openTable
  | .factory table => table

/-- The state of a pickled permutation. -/
structure PickleState (α : Type) where
  baseTableState : TableState α
  permutationData : Option PermutationData
  split : ℕ
  offset : Option ℕ
  limit : Option ℕ

/-- The rows between an offset and a limit. -/
def slice {β : Type} (offset limit : Option ℕ) (rows : List β) : List β :=
  limit.elim (rows.drop (offset.getD 0)) fun limit => (rows.drop (offset.getD 0)).take limit

/-- The checks that opening a permutation makes of its offset and limit, and the number of rows. -/
def checkedRows (offset limit : Option ℕ) (total : ℕ) : Except LoaderError ℕ :=
  if total = 0 then
    .error (.invalidInput "No rows found in the permutation table for the given split")
  else do
    let available ← offset.elim (.ok total) fun offset =>
      validateLimitOffset none (some offset) total
    limit.elim (.ok available) fun limit => validateLimitOffset (some limit) offset total

/-- `PermutationReader.from_tables`. -/
def Reader.fromTables (base : Base α) (permutation : Option (List Entry)) (split : ℕ) :
    Except LoaderError (Reader α) :=
  match permutation with
  | some entries => Reader.tryFromTables base entries split
  | none => Reader.identity base

namespace PermutationView

variable (p : PermutationView α)

/-- `__getstate__`. -/
def getState : PickleState α where
  baseTableState := p.connectionFactory.elim (tableToPickleState p.baseTable) .factory
  permutationData := p.permutationTable
  split := p.split
  offset := p.offset
  limit := p.limit

/-- `__setstate__`. -/
def setState (writer : Writer α) (state : PickleState α) : PermutationView α where
  baseTable := tableFromPickleState writer state.baseTableState
  permutationTable :=
    match state.baseTableState with
    -- the base table was rebuilt
    | .memory _ => state.permutationData.map dropBaseVersion
    | .onDisk _ | .factory _ => state.permutationData
  split := state.split
  offset := state.offset
  limit := state.limit
  connectionFactory :=
    match state.baseTableState with
    | .factory table => some table
    | .memory _ | .onDisk _ => none

/-- What comes out of a pickle, and what `copy.copy` returns. -/
def roundTrip (writer : Writer α) : PermutationView α := setState writer p.getState

/-- `_build_reader`. -/
def buildReader (engine : QueryEngine α) : Except LoaderError (Reader α) := do
  let version ← pinBaseTable p.baseTable p.permutationTable
  let rd ← Reader.fromTables (version.base engine) (p.permutationTable.map (·.entries)) p.split
  let rd ← p.offset.elim (.ok rd) rd.withOffset
  p.limit.elim (.ok rd) rd.withLimit

/-- The rows a permutation yields. -/
def readAll (engine : QueryEngine α) (scan : Batching) (maxLength : ℕ) :
    Except LoaderError (List α) := do
  let rd ← p.buildReader engine
  let batches ← rd.read scan maxLength
  return batches.flatten.map Row.columns

/-- Reading the permutation yields these rows, however it is queried and scanned. -/
def Yields (rows : List α) : Prop :=
  ∀ engine scan maxLength, p.readAll engine scan maxLength = .ok rows

/-- A copy with its reader. -/
def opened (engine : QueryEngine α) : Except LoaderError (PermutationView α) := do
  let _ ← p.buildReader engine
  return p

/-- `with_skip`. -/
def withSkip (writer : Writer α) (engine : QueryEngine α) (skip : ℕ) :
    Except LoaderError (PermutationView α) :=
  { p.roundTrip writer with offset := some skip }.opened engine

/-- `with_take`. -/
def withTake (writer : Writer α) (engine : QueryEngine α) (limit : ℕ) :
    Except LoaderError (PermutationView α) :=
  { p.roundTrip writer with limit := some limit }.opened engine

/-- The permutations that `with_skip` and `with_take` make of one. -/
inductive Derived (writer : Writer α) (engine : QueryEngine α) (p : PermutationView α) :
    PermutationView α → Prop
  | fresh : Derived writer engine p p
  | skip {q q' : PermutationView α} {k : ℕ} (hq : Derived writer engine p q)
      (h : q.withSkip writer engine k = .ok q') : Derived writer engine p q'
  | take {q q' : PermutationView α} {k : ℕ} (hq : Derived writer engine p q)
      (h : q.withTake writer engine k = .ok q') : Derived writer engine p q'

/-! ### What a permutation yields -/

/-- The row ids of the split, or of the whole table. -/
def splitIds (version : Version α) : List ℕ :=
  match p.permutationTable with
  | some data => (data.entries.filter fun entry => entry.2 = (p.split : ℤ)).map (·.1)
  | none => version.live.map Row.rowId

/-- What is stored under the row ids of the split, in the version that the reader is pinned to. -/
def contents : Except LoaderError (List (Option α)) := do
  let version ← pinBaseTable p.baseTable p.permutationTable
  return (p.splitIds version).map version.at?

/-- The reader of a permutation over a version. -/
def reader (engine : QueryEngine α) (version : Version α) (available : ℕ) : Reader α :=
  ⟨version.base engine, p.permutationTable.map (·.entries), p.offset, p.limit, available,
    if p.permutationTable.isSome then p.split else 0⟩

variable {p} {version : Version α} {writer : Writer α} {rows : List α}

theorem splitIds_mk {offset limit : Option ℕ} {available : ℕ} :
    Reader.splitIds ⟨version.base engine, p.permutationTable.map (·.entries), offset, limit,
      available, if p.permutationTable.isSome then p.split else 0⟩ = p.splitIds version := by
  obtain ⟨table, _ | data, split, _, _, factory⟩ := p <;> rfl

theorem rowIds_reader {available : ℕ} :
    (p.reader engine version available).rowIds = slice p.offset p.limit (p.splitIds version) := by
  rw [Reader.rowIds, reader, splitIds_mk, slice]
  cases p.limit <;> rfl

/-- Opening a permutation: the version and the checks do not depend on each other. -/
theorem buildReader_eq_ok {rd : Reader α} :
    p.buildReader engine = .ok rd ↔ ∃ version available,
      pinBaseTable p.baseTable p.permutationTable = .ok version ∧
      checkedRows p.offset p.limit (p.splitIds version).length = .ok available ∧
      rd = p.reader engine version available := by
  rw [buildReader, Except.bind_eq_ok]
  refine exists_congr fun version => ?_
  rw [exists_and_left]
  refine and_congr_right fun _ => ?_
  have hnew : Reader.fromTables (version.base engine) (p.permutationTable.map (·.entries)) p.split =
      if (p.splitIds version).length = 0 then
        .error (.invalidInput "No rows found in the permutation table for the given split")
      else .ok ⟨version.base engine, p.permutationTable.map (·.entries), none, none,
        (p.splitIds version).length, if p.permutationTable.isSome then p.split else 0⟩ := by
    obtain ⟨table, _ | data, split, offset, limit, factory⟩ := p <;> rfl
  rw [hnew, checkedRows]
  by_cases htot : (p.splitIds version).length = 0
  · simp [htot, bind, Except.bind]
  · rw [if_neg htot, if_neg htot]
    -- every check counts the rows of the split
    cases hoff : p.offset <;> cases hlim : p.limit <;>
      simp [Except.bind_eq_ok, Reader.withOffset, Reader.withLimit, Reader.verifyLimitOffset,
        splitIds_mk, reader, hoff, hlim, pure, Except.pure, eq_comm (a := rd), and_assoc]

theorem slice_map {β γ : Type} (offset limit : Option ℕ) (f : β → γ) (xs : List β) :
    slice offset limit (xs.map f) = (slice offset limit xs).map f := by
  cases limit <;> simp [slice]

/-- The rows of the batches that a reader delivers, by what is stored under the row ids. -/
theorem exists_read_iff {available : ℕ} {scan : Batching} {maxLength : ℕ} :
    (∃ batches, (p.reader engine version available).read scan maxLength = .ok batches ∧
        batches.flatten.map Row.columns = rows) ↔
      rows ≠ [] ∧
        slice p.offset p.limit ((p.splitIds version).map version.at?) = rows.map some := by
  set rd := p.reader engine version available with hrd
  have hids : rd.rowIds = slice p.offset p.limit (p.splitIds version) := rowIds_reader
  have hlk : ∀ id, version.at? id = (rd.base.lookup id).map Row.columns := fun id =>
    Version.lookup_base.symm
  rw [slice_map, ← hids]
  have hrows : rd.Resolves → (rd.rows.map Row.columns).map some = rd.rowIds.map version.at? := by
    intro hres
    have hal := map_some_filterMap_map (f := id) (g := rd.base.lookup) fun i hi =>
      Base.exists_lookup.2 (hres i hi)
    rw [map_id] at hal
    calc (rd.rows.map Row.columns).map some
        = (rd.rows.map some).map (Option.map Row.columns) := by simp
      _ = (rd.rowIds.map rd.base.lookup).map (Option.map Row.columns) := congrArg _ hal
      _ = rd.rowIds.map version.at? := by
        rw [map_map]
        exact map_congr_left fun i _ => (hlk i).symm
  constructor
  · rintro ⟨batches, hr, rfl⟩
    obtain ⟨hne, hres, -⟩ := Reader.read_eq_ok.1 hr
    rw [Reader.flatten_of_read hr, hrows hres]
    refine ⟨fun hnil => hne ?_, rfl⟩
    have hmap := hrows hres
    rw [hnil] at hmap
    exact map_eq_nil_iff.1 hmap.symm
  · rintro ⟨hne, hmap⟩
    have hres : rd.Resolves := by
      intro i hi
      obtain ⟨columns, -, hcols⟩ := mem_map.1 (hmap ▸ mem_map_of_mem hi)
      rw [hlk, eq_comm, Option.map_eq_some_iff] at hcols
      obtain ⟨row, hrow, -⟩ := hcols
      exact Base.exists_lookup.1 ⟨row, hrow⟩
    have hids : rd.rowIds ≠ [] := fun hnil => hne (map_eq_nil_iff.1 (by rw [← hmap, hnil, map_nil]))
    obtain ⟨batches, hr⟩ : ∃ batches, rd.read scan maxLength = .ok batches :=
      ⟨_, Reader.read_eq_ok.2 ⟨hids, hres, rfl⟩⟩
    refine ⟨batches, hr, ?_⟩
    rw [Reader.flatten_of_read hr]
    exact map_injective_iff.2 (Option.some_injective _) ((hrows hres).trans hmap)

/-- Reading yields the rows between the offset and the limit, if there is one and all of them are
found. -/
theorem readAll_eq_ok {scan : Batching} {maxLength : ℕ} :
    p.readAll engine scan maxLength = .ok rows ↔ ∃ xs, p.contents = .ok xs ∧
      (∃ available, checkedRows p.offset p.limit xs.length = .ok available) ∧
      rows ≠ [] ∧ slice p.offset p.limit xs = rows.map some := by
  rw [readAll, Except.bind_eq_ok]
  constructor
  · rintro ⟨rd, hbld, hr⟩
    obtain ⟨version, available, hpin, hchk, rfl⟩ := buildReader_eq_ok.1 hbld
    obtain ⟨batches, hr, hrows⟩ := Except.bind_eq_ok.1 hr
    refine ⟨_, Except.bind_eq_ok.2 ⟨version, hpin, rfl⟩, ⟨available, by rwa [length_map]⟩, ?_⟩
    exact exists_read_iff.1 ⟨batches, hr, Except.ok.inj hrows⟩
  · rintro ⟨xs, hc, ⟨available, hchk⟩, hrest⟩
    obtain ⟨version, hpin, hxs⟩ := Except.bind_eq_ok.1 hc
    obtain rfl := Except.ok.inj hxs
    rw [length_map] at hchk
    obtain ⟨batches, hr, hrows⟩ := exists_read_iff.2 hrest
    refine ⟨_, buildReader_eq_ok.2 ⟨version, available, hpin, hchk, rfl⟩, ?_⟩
    exact Except.bind_eq_ok.2 ⟨batches, hr, congrArg Except.ok hrows⟩

/-- **What a permutation yields**: how it is queried and scanned makes no difference. -/
theorem yields_iff : p.Yields rows ↔ ∃ xs, p.contents = .ok xs ∧
    (∃ available, checkedRows p.offset p.limit xs.length = .ok available) ∧
    rows ≠ [] ∧ slice p.offset p.limit xs = rows.map some :=
  ⟨fun h => readAll_eq_ok.1 (h .inOrder .whole 0), fun h _ _ _ => readAll_eq_ok.2 h⟩

/-! ### The round trip -/

theorem roundTrip_roundTrip : (p.roundTrip writer).roundTrip writer = p.roundTrip writer := by
  obtain ⟨table, data, split, offset, limit, _ | made⟩ := p
  · have hd : ∀ data, dropBaseVersion (dropBaseVersion data) = dropBaseVersion data := by
      intro data
      simp only [dropBaseVersion]
      split_ifs <;> simp_all
    by_cases hmem : table.inMemory
    · have hs : tableToPickleState table = .memory (table.current.live.map Row.columns) :=
        if_pos hmem
      have hagain : tableToPickleState (writer.createTable (table.current.live.map Row.columns)) =
          .memory (table.current.live.map Row.columns) :=
        congrArg TableState.memory (writer.live_write _)
      simp [roundTrip, setState, getState, hs, hagain, tableFromPickleState, hd,
        Function.comp_def]
    · have hs : tableToPickleState table = .onDisk table.dataset := if_neg hmem
      simp only [roundTrip, setState, getState, Option.elim_none, hs]
      rfl
  · rfl

/-- **A permutation with an offset or a limit is a copy**, and copying it changes nothing. -/
theorem Derived.eq_or_copy {q : PermutationView α} (h : p.Derived writer engine q) :
    q = p ∨ q.roundTrip writer = q ∧ (q.offset.isSome ∨ q.limit.isSome) := by
  have hcopy : ∀ (q q' : PermutationView α) (offset limit : Option ℕ),
      ({ q.roundTrip writer with offset, limit } : PermutationView α).opened engine = .ok q' →
      q'.roundTrip writer = q' ∧ q'.offset = offset ∧ q'.limit = limit := by
    intro q q' offset limit hop
    obtain ⟨_, -, hq'⟩ := Except.bind_eq_ok.1 hop
    obtain rfl := Except.ok.inj hq'
    exact ⟨congrArg (fun r : PermutationView α => { r with offset, limit }) roundTrip_roundTrip,
      rfl, rfl⟩
  cases h with
  | fresh => exact .inl rfl
  | @skip q _ k _ h =>
    obtain ⟨hround, hoff, -⟩ := hcopy q _ (some k) _ h
    exact .inr ⟨hround, .inl (by rw [hoff]; rfl)⟩
  | @take q _ k _ h =>
    obtain ⟨hround, -, hlim⟩ := hcopy q _ _ (some k) h
    exact .inr ⟨hround, .inr (by rw [hlim]; rfl)⟩

/-! ### Permutations of the builder -/

/-- A permutation without a connection factory, opened on a table that was built on a version of
the base table. -/
structure BuiltOn (p : PermutationView α) (version : Version α) : Prop where
  built : ∃ engine sorter splitRng shuffleRng config, ∃ table : BaseTable α, ∃ result,
    build engine sorter splitRng shuffleRng config table = .ok result ∧
    -- the scan returned the live rows of the version
    table.batches.flatten.Perm version.live ∧
    p.baseTable.dataset.versions (table.branch.getD "main") table.version = some version ∧
    p.permutationTable = some ⟨result.entries, some result.metadata.baseVersion,
      result.metadata.baseBranch⟩
  offset : p.offset = none
  limit : p.limit = none
  connectionFactory : p.connectionFactory = none

/-- What the base table holds after the round trip, if it is one in memory. -/
def rebuilt (writer : Writer α) (p : PermutationView α) : Version α :=
  writer.write (p.baseTable.current.live.map Row.columns)

/-- What is read of a permutation is what the version it was built on holds. -/
theorem BuiltOn.contents (h : p.BuiltOn version) :
    p.contents = .ok ((p.splitIds version).map version.at?) := by
  obtain ⟨_, _, _, _, _, table, result, hbld, -, hver, hdata⟩ := h.built
  refine Except.bind_eq_ok.2 ⟨version, ?_, rfl⟩
  rw [hdata, build_metadata hbld]
  exact Handle.checkoutBranchVersion_eq_ok.2 hver

/-- A restored permutation has the row ids of the permutation table. -/
theorem BuiltOn.splitIds_roundTrip (h : p.BuiltOn version) (version' : Version α) :
    (p.roundTrip writer).splitIds version' = p.splitIds version := by
  obtain ⟨_, _, _, _, _, table, result, -, -, -, hdata⟩ := h.built
  have hents : (p.roundTrip writer).permutationTable.map (·.entries) =
      p.permutationTable.map (·.entries) := by
    simp only [roundTrip, setState, getState, hdata]
    split <;> rfl
  rw [hdata] at hents
  obtain ⟨data, hround, hents⟩ := Option.map_eq_some_iff.1 hents
  rw [splitIds, splitIds, hround, hdata]
  simp only [hents]
  rfl

/-- After a round trip it is what the recorded version holds, unless the base table was rebuilt. -/
theorem BuiltOn.contents_roundTrip (h : p.BuiltOn version) (writer : Writer α) :
    (p.roundTrip writer).contents = .ok ((p.splitIds version).map
      (if p.baseTable.inMemory then p.rebuilt writer else version).at?) := by
  obtain ⟨_, _, _, _, _, table, result, hbld, -, hver, hdata⟩ := h.built
  refine Except.bind_eq_ok.2 ⟨if p.baseTable.inMemory then p.rebuilt writer else version, ?_, ?_⟩
  · by_cases hmem : p.baseTable.inMemory
    · have hs : tableToPickleState p.baseTable =
          .memory (p.baseTable.current.live.map Row.columns) := if_pos hmem
      simp only [roundTrip, setState, getState, h.connectionFactory, Option.elim_none, hs, hdata,
        if_pos hmem]
      rfl
    · have hs : tableToPickleState p.baseTable = .onDisk p.baseTable.dataset := if_neg hmem
      simp only [roundTrip, setState, getState, h.connectionFactory, Option.elim_none, hs,
        if_neg hmem]
      rw [hdata, build_metadata hbld]
      exact Handle.checkoutBranchVersion_eq_ok.2 hver
  · rw [h.splitIds_roundTrip]
    rfl

/-- A fresh permutation yields the same rows after a round trip if and only if its base table is not
one in memory, or the rebuilt table holds, under every row id, what the original held. -/
theorem BuiltOn.roundTrip_yields_iff (h : p.BuiltOn version) (writer : Writer α)
    (hrd : p.Yields rows) :
    (p.roundTrip writer).Yields rows ↔ p.baseTable.inMemory = false ∨
      ∀ id ∈ p.splitIds version, (p.rebuilt writer).at? id = version.at? id := by
  obtain ⟨xs, hxs, hav, hne, hr⟩ := yields_iff.1 hrd
  obtain rfl := Except.ok.inj (hxs.symm.trans h.contents)
  have hoff : (p.roundTrip writer).offset = none := h.offset
  have hlim : (p.roundTrip writer).limit = none := h.limit
  rw [h.offset, h.limit, length_map] at hav
  rw [h.offset, h.limit] at hr
  have hr : (p.splitIds version).map version.at? = rows.map some := hr
  have hsl : ∀ xs : List (Option α), slice none none xs = xs := fun _ => rfl
  rw [yields_iff, hoff, hlim, h.contents_roundTrip]
  by_cases hmem : p.baseTable.inMemory
  · simp [hmem, hav, hne, ← hr, hsl]
  · simp [hmem, hav, hne, ← hr, hsl]

/-- A table in memory with one fragment. -/
def demoTable (version : Version ℕ) : Handle ℕ where
  dataset :=
    { versions := fun branch n => if branch = "main" ∧ n = 1 then some version else none
      latest := 1
      isSome_latest := rfl }
  inMemory := true
  branch := "main"
  version := 1
  isSome_current := rfl

/-- A permutation without splits. -/
def demoView (version : Version ℕ) (entries : List Entry) : PermutationView ℕ :=
  ⟨demoTable version, some ⟨entries, some 1, none⟩, 0, none, none, none⟩

/-- Two rows. -/
def wholeVersion : Version ℕ := ⟨[⟨0, [some 10, some 20]⟩], by decide, by decide⟩

/-- Two rows after a deleted one. -/
def gapVersion : Version ℕ := ⟨[⟨0, [none, some 10, some 20]⟩], by decide, by decide⟩

theorem wholeVersion_builtOn : (demoView wholeVersion [(0, 0), (1, 0)]).BuiltOn wholeVersion where
  built := ⟨demoEngine, .insertion, .still, .still, ⟨.noSplit, none, .none, none⟩,
    ⟨[[⟨0, 10⟩, ⟨1, 20⟩]], 1, none, none, true⟩, ⟨[[(0, 0), (1, 0)]], ⟨1, none, none⟩⟩,
    rfl, by decide, rfl, rfl⟩
  offset := rfl
  limit := rfl
  connectionFactory := rfl

theorem gapVersion_builtOn : (demoView gapVersion [(1, 0), (2, 0)]).BuiltOn gapVersion where
  built := ⟨demoEngine, .insertion, .still, .still, ⟨.noSplit, none, .none, none⟩,
    ⟨[[⟨1, 10⟩, ⟨2, 20⟩]], 1, none, none, true⟩, ⟨[[(1, 0), (2, 0)]], ⟨1, none, none⟩⟩,
    rfl, by decide, rfl, rfl⟩
  offset := rfl
  limit := rfl
  connectionFactory := rfl

end PermutationView

end Permutation

end LanceDB
