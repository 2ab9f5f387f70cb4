import LanceDB.Permutation.Builder

/-!
# Reading a permutation

`PermutationReader` reads the rows of a split in the order of the permutation table, or all rows of
the base table if there is none: as a stream of batches (`read`), or by position (`take_offsets`).

* `Base` : the base table as the reader queries it.
* `loadBatch`, `maxBatchLength`, `Reader.read`, `Reader.takeOffsets` : the functions of the source.
* `loadBatch_eq_ok` — what a batch of row ids loads.
* `Reader.read_eq_ok`, `Reader.takeOffsets_ok`, `Reader.takeOffsets_error` — what the two ways of
  reading return.
* `Reader.agrees_iff` — when they agree.
-/

namespace LanceDB

open List Except

namespace Permutation

variable {α : Type}
variable {batch : List (Row α)}

/-! ### The base table -/

/-- The base table at the version the reader is pinned to: its live rows in storage order, and a
query for some of them that returns every row once, in any order and cut into any batches. -/
structure Base (α : Type) where
  rows : List (Row α)
  nodup : (rows.map Row.rowId).Nodup
  /-- The rows with `_rowid IN (ids)`. -/
  query : (ids : List ℕ) → List (List (Row α))
  query_perm : ∀ ids, (query ids).flatten.Perm (rows.filter fun row => row.rowId ∈ ids)

/-- The row ids of the table. -/
def Base.ids (base : Base α) : List ℕ := base.rows.map (·.rowId)

/-- The row with a row id. -/
def Base.lookup (base : Base α) (id : ℕ) : Option (Row α) := base.rows.find? (·.rowId = id)

/-- `take_offsets` with `preserve_order`; a missing offset returns no row. -/
def Base.takeOffsets (base : Base α) (offsets : List ℕ) : List (Row α) :=
  offsets.filterMap (base.rows[·]?)

/-- How a scan cuts its rows into batches. -/
structure Batching where
  cut : List ℕ → List (List ℕ)
  flatten_cut : ∀ ids, (cut ids).flatten = ids
  /-- Lance sends no batch without rows.  `load_batch` would fail on one, like on a batch with a
  missing row: its query selects nothing, and the base table returns no batches. -/
  ne_nil : ∀ ids, ∀ batch ∈ cut ids, batch ≠ []

/-- A scan that returns its rows in one batch. -/
def Batching.whole : Batching where
  cut ids := if ids.isEmpty then [] else [ids]
  flatten_cut ids := by cases ids <;> simp
  ne_nil ids batch h := by cases ids <;> simp_all

/-- A scan that returns every row in a batch of its own. -/
def Batching.single : Batching where
  cut ids := ids.map ([·])
  flatten_cut ids := by rw [← flatMap_def, flatMap_singleton']
  ne_nil ids batch h := by
    obtain ⟨id, -, rfl⟩ := mem_map.1 h
    exact cons_ne_nil _ _

/-! ### Loading rows by their ids -/

/-- The place of every requested row in a batch that has been loaded. -/
def desiredOrder (batch : List (Row α)) (ids : List ℕ) : Except LoaderError (List ℕ) :=
  ids.mapM fun id =>
    match batch.findIdx? (·.rowId = id) with
    | some i => .ok i
    | none => .error (.runtime "Expected option to have value")

/-- `load_batch`. -/
def loadBatch (base : Base α) (ids : List ℕ) : Except LoaderError (List (Row α)) :=
  -- which of several occurrences is kept makes no difference to the query
  let uniqueIds := ids.dedup
  let batches := base.query uniqueIds
  if batches.isEmpty then
    .error (.invalidInput "Base table returned no batches")
  else if (batches.map List.length).sum ≠ uniqueIds.length then
    .error (.invalidInput <| "Base table returned a different number of rows than the number of " ++
      "unique row IDs")
  else do
    let batch := batches.flatten
    let order ← desiredOrder batch ids
    return if order = List.range order.length then batch else order.filterMap (batch[·]?)

/-- The stream of `MaxBatchLengthStream`: an oversized batch is sliced. -/
def maxBatchLength {β : Type} (max : ℕ) (batches : List (List β)) : List (List β) :=
  if max = 0 then batches
  else batches.flatMap fun batch =>
    if batch.length ≤ max then [batch]
    else (List.range (Clumps.count max batch)).map (Clumps.clump max batch)

/-- `row_ids_to_batches`, with the stream drained. -/
def rowIdsToBatches (base : Base α) (rowIds : List (List ℕ)) :
    Except LoaderError (List (List (Row α))) :=
  if rowIds.isEmpty then .error (.invalidInput "Permutation was empty")
  else rowIds.mapM (loadBatch base)

/-! ### The reader -/

/-- `PermutationReader`. -/
structure Reader (α : Type) where
  base : Base α
  permutation : Option (List Entry)
  offset : Option ℕ
  limit : Option ℕ
  availableRows : ℕ
  split : ℕ

/-- `validate_limit_offset`; the sum is a `u64`. -/
def validateLimitOffset (limit offset : Option ℕ) (available : ℕ) : Except LoaderError ℕ :=
  match limit, offset with
  | some limit, some offset =>
    if available < (offset + limit) % 2 ^ 64 then
      .error (.invalidInput
        "Offset + limit is greater than the number of rows in the permutation table")
    else .ok limit
  | none, some offset =>
    if available < offset then
      .error (.invalidInput "Offset is greater than the number of rows in the permutation table")
    else .ok (available - offset)
  | some limit, none =>
    if available < limit then
      .error (.invalidInput "Limit is greater than the number of rows in the permutation table")
    else .ok limit
  | none, none => .ok available

namespace Reader

variable (rd : Reader α)

/-- The row ids of the split, or of the whole base table. -/
def splitIds : List ℕ :=
  match rd.permutation with
  | some entries => (entries.filter fun entry => entry.2 = (rd.split : ℤ)).map (·.1)
  | none => rd.base.rows.map (·.rowId)

/-- The row ids the queries of the reader return, between its offset and its limit. -/
def rowIds : List ℕ :=
  let rest := rd.splitIds.drop (rd.offset.getD 0)
  match rd.limit with
  | some limit => rest.take limit
  | none => rest

/-- `verify_limit_offset`. -/
def verifyLimitOffset (limit offset : Option ℕ) : Except LoaderError ℕ :=
  validateLimitOffset limit offset rd.splitIds.length

/-- `inner_new` on a base table that is already pinned. -/
def innerNew (base : Base α) (permutation : Option (List Entry)) (split : ℕ) :
    Except LoaderError (Reader α) := do
  let rd : Reader α := ⟨base, permutation, none, none, 0, split⟩
  let availableRows ← rd.verifyLimitOffset none none
  if availableRows = 0 then
    throw (.invalidInput "No rows found in the permutation table for the given split")
  return { rd with availableRows := availableRows }

/-- `try_from_tables`. -/
def tryFromTables (base : Base α) (permutation : List Entry) (split : ℕ) :
    Except LoaderError (Reader α) :=
  innerNew base (some permutation) split

/-- `identity`. -/
def identity (base : Base α) : Except LoaderError (Reader α) := innerNew base none 0

/-- `with_offset`. -/
def withOffset (offset : ℕ) : Except LoaderError (Reader α) := do
  let availableRows ← rd.verifyLimitOffset rd.limit (some offset)
  return { rd with offset := some offset, availableRows := availableRows }

/-- `with_limit`. -/
def withLimit (limit : ℕ) : Except LoaderError (Reader α) := do
  let availableRows ← rd.verifyLimitOffset (some limit) rd.offset
  return { rd with limit := some limit, availableRows := availableRows }

/-- `count_rows`. -/
def countRows : ℕ := rd.availableRows

/-- `read`. -/
def read (scan : Batching) (maxLength : ℕ) : Except LoaderError (List (List (Row α))) :=
  rowIdsToBatches rd.base (maxBatchLength maxLength (scan.cut rd.rowIds))

end Reader

/-- The map of `get_offset_map`, built batch by batch. -/
def offsetMap : List (List ℕ) → ℕ → Option ℕ
  | [], _ => none
  | batch :: batches, offset =>
    if offset < batch.length then batch[offset]? else offsetMap batches (offset - batch.length)

/-- `take_offsets`. -/
def Reader.takeOffsets (rd : Reader α) (scan : Batching) (offsets : List ℕ) :
    Except LoaderError (List (Row α)) :=
  if offsets.isEmpty then
    .ok []
  else if rd.permutation.isSome then do
    let ids ← offsets.mapM fun offset =>
      match offsetMap (scan.cut rd.rowIds) offset with
      | some id => .ok id
      | none => .error (.runtime "Expected option to have value")
    loadBatch rd.base ids
  else
    .ok (rd.base.takeOffsets offsets)

/-! ### What a batch of row ids loads -/

namespace Base

variable {base : Base α} {id : ℕ} {row : Row α}

theorem lookup_eq_some : base.lookup id = some row ↔ row ∈ base.rows ∧ row.rowId = id := by
  constructor
  · intro h
    exact ⟨mem_of_find?_eq_some h, by simpa using find?_some h⟩
  · rintro ⟨hmem, rfl⟩
    -- the first row with the id is the only one
    obtain ⟨row', hrow'⟩ : ∃ row', base.lookup row.rowId = some row' :=
      Option.isSome_iff_exists.1 (find?_isSome.2 ⟨row, hmem, by simp⟩)
    have hmem' := mem_of_find?_eq_some hrow'
    have hid : row'.rowId = row.rowId := by simpa using find?_some hrow'
    rw [hrow', inj_on_of_nodup_map base.nodup hmem' hmem hid]

theorem exists_lookup : (∃ row, base.lookup id = some row) ↔ id ∈ base.ids := by
  simp only [lookup_eq_some, ids, mem_map]

theorem mem_query {ids : List ℕ} :
    row ∈ (base.query ids).flatten ↔ row ∈ base.rows ∧ row.rowId ∈ ids := by
  rw [(base.query_perm ids).mem_iff, mem_filter]
  simp

theorem length_query {ids : List ℕ} (hnd : ids.Nodup) (hids : ∀ id ∈ ids, id ∈ base.ids) :
    (base.query ids).flatten.length = ids.length := by
  rw [(base.query_perm ids).length_eq, ← length_map Row.rowId]
  refine List.Perm.length_eq ((perm_ext_iff_of_nodup ?_ hnd).2 fun id => ?_)
  · exact base.nodup.sublist (filter_sublist.map _)
  · simp only [mem_map, mem_filter, decide_eq_true_eq]
    constructor
    · rintro ⟨row, ⟨-, hmem⟩, rfl⟩
      exact hmem
    · intro hmem
      obtain ⟨row, hrow, rfl⟩ := mem_map.1 (hids id hmem)
      exact ⟨row, ⟨hrow, hmem⟩, rfl⟩

end Base

theorem desiredOrder_rows {base : Base α} (hbat : ∀ row ∈ batch, row ∈ base.rows)
    {ids order : List ℕ} (h : desiredOrder batch ids = .ok order) :
    (∀ id ∈ ids, id ∈ base.ids) ∧ (∀ i ∈ order, i < batch.length) ∧
      order.filterMap (batch[·]?) = ids.filterMap base.lookup := by
  rw [desiredOrder, mapM_eq_ok_iff] at h
  induction h with
  | nil => simp
  | @cons id i ids order hid _ ih =>
    obtain ⟨hids, hord, hr⟩ := ih
    cases hf : batch.findIdx? (·.rowId = id) with
    | none => simp [hf] at hid
    | some j =>
      obtain rfl : j = i := by simpa [hf] using hid
      obtain ⟨hlt, hrow, -⟩ := findIdx?_eq_some_iff_getElem.1 hf
      have hlk : base.lookup id = some batch[j] :=
        Base.lookup_eq_some.2 ⟨hbat _ (getElem_mem hlt), by simpa using hrow⟩
      refine ⟨?_, ?_, ?_⟩
      · exact forall_mem_cons.2 ⟨Base.exists_lookup.1 ⟨_, hlk⟩, hids⟩
      · exact forall_mem_cons.2 ⟨hlt, hord⟩
      · rw [filterMap_cons_some (getElem?_eq_getElem hlt),
          filterMap_cons_some hlk, hr]

theorem exists_desiredOrder {ids : List ℕ} (h : ∀ id ∈ ids, ∃ row ∈ batch, row.rowId = id) :
    ∃ order, desiredOrder batch ids = .ok order := by
  refine ⟨ids.map fun id => batch.findIdx (·.rowId = id), mapM_eq_ok fun id hid => ?_⟩
  obtain ⟨row, hrow, hrowId⟩ := h id hid
  have hlt : batch.findIdx (·.rowId = id) < batch.length :=
    findIdx_lt_length_of_exists ⟨row, hrow, by simpa using hrowId⟩
  rw [findIdx?_eq_some_of_exists ⟨row, hrow, by simpa using hrowId⟩]

theorem filterMap_getElem?_range {β : Type} (xs : List β) :
    (List.range xs.length).filterMap (xs[·]?) = xs := by
  induction xs with
  | nil => rfl
  | cons x xs ih =>
    rw [length_cons, range_succ_eq_map, filterMap_cons, filterMap_map]
    exact congrArg (x :: ·) ih

theorem filterMap_of_sorted {order : List ℕ} (hsort : order = List.range order.length)
    (hle : batch.length ≤ order.length) (hlt : ∀ i ∈ order, i < batch.length) :
    order.filterMap (batch[·]?) = batch := by
  have hlen : order.length = batch.length := by
    refine Nat.le_antisymm ?_ hle
    by_contra hgt
    -- the last place would lie behind the batch
    have hl : batch.length ∈ order := by
      rw [hsort, mem_range]
      omega
    exact Nat.lt_irrefl _ (hlt _ hl)
  rw [hsort, hlen]
  exact filterMap_getElem?_range batch

/-- **What a batch of row ids loads**: the rows with these ids, in their order, if all exist. -/
theorem loadBatch_eq_ok {base : Base α} {ids : List ℕ} (hne : ids ≠ []) {out : List (Row α)} :
    loadBatch base ids = .ok out ↔
      (∀ id ∈ ids, id ∈ base.ids) ∧ out = ids.filterMap base.lookup := by
  have hmem : ∀ row ∈ (base.query ids.dedup).flatten, row ∈ base.rows := fun row hrow =>
    (Base.mem_query.1 hrow).1
  have hlen : ∀ order, desiredOrder (base.query ids.dedup).flatten ids = .ok order →
      order.length = ids.length := by
    intro order hord
    rw [desiredOrder, mapM_eq_ok_iff] at hord
    exact hord.length_eq.symm
  -- the result of the reordering, if the checks pass
  have hres : ∀ order, desiredOrder (base.query ids.dedup).flatten ids = .ok order →
      (base.query ids.dedup).flatten.length = ids.dedup.length →
      (if order = List.range order.length then (base.query ids.dedup).flatten
        else order.filterMap ((base.query ids.dedup).flatten[·]?)) = ids.filterMap base.lookup := by
    intro order hord hcnt
    obtain ⟨-, hlt, hr⟩ := desiredOrder_rows hmem hord
    rw [← hr]
    split_ifs with hsort
    · refine (filterMap_of_sorted hsort ?_ hlt).symm
      rw [hcnt, hlen order hord]
      exact (dedup_sublist ids).length_le
    · rfl
  constructor
  · intro h
    rw [loadBatch] at h
    split_ifs at h with hemp hcnt
    obtain ⟨order, hord, h⟩ := bind_eq_ok.1 h
    rw [← length_flatten, not_not] at hcnt
    refine ⟨(desiredOrder_rows hmem hord).1, ?_⟩
    rw [← hres order hord hcnt]
    exact (ok.inj h).symm
  · rintro ⟨hids, rfl⟩
    have hcnt : (base.query ids.dedup).flatten.length = ids.dedup.length :=
      Base.length_query (nodup_dedup ids) fun id hid => hids id (mem_dedup.1 hid)
    have hemp : (base.query ids.dedup).isEmpty = false := by
      rw [isEmpty_eq_false_iff]
      intro hnil
      rw [hnil] at hcnt
      exact hne ((dedup_eq_nil ids).1 (length_eq_zero_iff.1 hcnt.symm))
    obtain ⟨order, hord⟩ :
        ∃ order, desiredOrder (base.query ids.dedup).flatten ids = .ok order := by
      refine exists_desiredOrder fun id hid => ?_
      obtain ⟨row, hrow, rfl⟩ := mem_map.1 (hids id hid)
      exact ⟨row, Base.mem_query.2 ⟨hrow, mem_dedup.2 hid⟩, rfl⟩
    rw [length_flatten] at hcnt
    rw [loadBatch, hemp, if_neg (by simp), if_neg (by simpa using hcnt),
      ← hres order hord (length_flatten ▸ hcnt)]
    exact bind_eq_ok.2 ⟨order, hord, rfl⟩

theorem forall₂_loadBatch {base : Base α} {ids : List (List ℕ)} (hne : ∀ batch ∈ ids, batch ≠ [])
    {batches : List (List (Row α))} :
    List.Forall₂ (fun batch rows => loadBatch base batch = .ok rows) ids batches ↔
      (∀ batch ∈ ids, ∀ id ∈ batch, id ∈ base.ids) ∧
        batches = ids.map (List.filterMap base.lookup) := by
  induction ids generalizing batches with
  | nil => cases batches <;> simp
  | cons batch ids ih =>
    cases batches with
    | nil => simp
    | cons rows batches =>
      rw [forall₂_cons, loadBatch_eq_ok (hne batch mem_cons_self),
        ih fun b hb => hne b (mem_cons_of_mem _ hb)]
      simp only [forall_mem_cons, map_cons, List.cons.injEq]
      tauto

/-! ### Slicing -/

section Slicing

variable {β : Type} {max : ℕ} {batches : List (List β)}

theorem mem_maxBatchLength {batch : List β} (h : batch ∈ maxBatchLength max batches) :
    (batch ∈ batches ∧ (max = 0 ∨ batch.length ≤ max)) ∨
      ∃ whole ∈ batches, max < whole.length ∧ 0 < max ∧
        ∃ c < Clumps.count max whole, batch = Clumps.clump max whole c := by
  rw [maxBatchLength] at h
  split_ifs at h with hmax
  · exact Or.inl ⟨h, Or.inl hmax⟩
  · obtain ⟨whole, hwh, hbat⟩ := mem_flatMap.1 h
    split_ifs at hbat with hle
    · obtain rfl := mem_singleton.1 hbat
      exact Or.inl ⟨hwh, Or.inr hle⟩
    · obtain ⟨c, hc, rfl⟩ := mem_map.1 hbat
      exact Or.inr ⟨whole, hwh, by omega, Nat.pos_of_ne_zero hmax, c, mem_range.1 hc, rfl⟩

theorem ne_nil_of_mem_maxBatchLength (hne : ∀ batch ∈ batches, batch ≠ []) {batch : List β}
    (h : batch ∈ maxBatchLength max batches) : batch ≠ [] := by
  rcases mem_maxBatchLength h with ⟨hmem, -⟩ | ⟨whole, -, -, hmax, c, hc, rfl⟩
  · exact hne batch hmem
  · -- a clump starts within the batch
    have hs : c * max < whole.length := by
      have hle : c + 1 ≤ (whole.length + max - 1) / max := hc
      have hmul := (Nat.le_div_iff_mul_le hmax).1 hle
      rw [Nat.add_mul, Nat.one_mul] at hmul
      omega
    rw [Clumps.clump, ← length_pos_iff, length_take, length_drop]
    omega

theorem flatten_maxBatchLength (max : ℕ) (batches : List (List β)) :
    (maxBatchLength max batches).flatten = batches.flatten := by
  rw [maxBatchLength]
  split_ifs with hmax
  · rfl
  induction batches with
  | nil => rfl
  | cons batch batches ih =>
    rw [flatMap_cons, flatten_append, ih, flatten_cons]
    congr 1
    split_ifs
    · simp
    · rw [← flatMap_def, Clumps.flatMap_clump (Nat.pos_of_ne_zero hmax)]

end Slicing

theorem offsetMap_eq (batches : List (List ℕ)) (offset : ℕ) :
    offsetMap batches offset = batches.flatten[offset]? := by
  induction batches generalizing offset with
  | nil => rfl
  | cons batch batches ih =>
    rw [offsetMap, flatten_cons]
    split_ifs with hlt
    · exact (getElem?_append_left hlt).symm
    · rw [ih, getElem?_append_right (by omega)]

/-! ### The two ways of reading -/

namespace Reader

variable {rd : Reader α}

/-- The rows the reader stands for. -/
def rows (rd : Reader α) : List (Row α) := rd.rowIds.filterMap rd.base.lookup

/-- Every row id of the reader is one of the base table. -/
def Resolves (rd : Reader α) : Prop := ∀ id ∈ rd.rowIds, id ∈ rd.base.ids

theorem length_rows (h : rd.Resolves) : rd.rows.length = rd.rowIds.length := by
  rw [rows, length_filterMap_eq_countP, countP_eq_length]
  intro id hid
  obtain ⟨row, hrow⟩ := Base.exists_lookup.2 (h id hid)
  simp [hrow]

theorem getElem?_rows (h : rd.Resolves) (o : ℕ) :
    rd.rows[o]? = rd.rowIds[o]?.bind rd.base.lookup := by
  have hlist : ∀ ids : List ℕ, (∀ id ∈ ids, id ∈ rd.base.ids) →
      ∀ o : ℕ, (ids.filterMap rd.base.lookup)[o]? = ids[o]?.bind rd.base.lookup := by
    intro ids
    induction ids with
    | nil => simp
    | cons id ids ih =>
      intro hids o
      obtain ⟨row, hrow⟩ := Base.exists_lookup.2 (hids id mem_cons_self)
      rw [filterMap_cons_some hrow]
      cases o with
      | zero => simp [hrow]
      | succ o =>
        rw [getElem?_cons_succ, getElem?_cons_succ]
        exact ih (fun id' hid' => hids id' (mem_cons_of_mem _ hid')) o
  exact hlist rd.rowIds h o

/-- **The scan**: it succeeds if there is a row and all row ids resolve, and delivers the rows batch
by batch. -/
theorem read_eq_ok {scan : Batching} {maxLength : ℕ} {batches : List (List (Row α))} :
    rd.read scan maxLength = .ok batches ↔
      rd.rowIds ≠ [] ∧ rd.Resolves ∧
      batches = (maxBatchLength maxLength (scan.cut rd.rowIds)).map
        (List.filterMap rd.base.lookup) := by
  set ids := maxBatchLength maxLength (scan.cut rd.rowIds) with hids
  have hflat : ids.flatten = rd.rowIds := by
    rw [hids, flatten_maxBatchLength, scan.flatten_cut]
  have hne : ∀ batch ∈ ids, batch ≠ [] := fun batch hbat =>
    ne_nil_of_mem_maxBatchLength (scan.ne_nil rd.rowIds) hbat
  have hemp : ids.isEmpty ↔ rd.rowIds = [] := by
    rw [List.isEmpty_iff, ← hflat, flatten_eq_nil_iff]
    constructor
    · rintro hnil batch hbat
      rw [hnil] at hbat
      cases hbat
    · intro hall
      cases hcs : ids with
      | nil => rfl
      | cons batch rest =>
        have hmem : batch ∈ ids := hcs ▸ mem_cons_self
        exact absurd (hall batch hmem) (hne batch hmem)
  rw [read, rowIdsToBatches, ← hids]
  by_cases hnil : rd.rowIds = []
  · rw [if_pos (hemp.2 hnil)]
    exact iff_of_false (by simp) fun h => h.1 hnil
  rw [if_neg fun h => hnil (hemp.1 h), mapM_eq_ok_iff, and_iff_right hnil]
  rw [forall₂_loadBatch hne]
  refine and_congr_left fun _ => ?_
  rw [Resolves, ← hflat]
  simp only [mem_flatten]
  exact ⟨fun h id ⟨batch, hbat, hid⟩ => h batch hbat id hid,
    fun h batch hbat id hid => h id ⟨batch, hbat, hid⟩⟩

theorem flatten_of_read {scan : Batching} {maxLength : ℕ} {batches : List (List (Row α))}
    (h : rd.read scan maxLength = .ok batches) : batches.flatten = rd.rows := by
  obtain ⟨-, -, rfl⟩ := read_eq_ok.1 h
  rw [rows, ← filterMap_flatten, flatten_maxBatchLength, scan.flatten_cut]

/-- **Random access** with a permutation table, at positions the reader has. -/
theorem takeOffsets_ok (hp : rd.permutation.isSome) (hres : rd.Resolves) (scan : Batching)
    {offsets : List ℕ} (hlt : ∀ o ∈ offsets, o < rd.rowIds.length) :
    ∃ out, rd.takeOffsets scan offsets = .ok out ∧
      out.map some = offsets.map (rd.rows[·]?) := by
  by_cases hnil : offsets = []
  · subst hnil
    exact ⟨[], rfl, rfl⟩
  set ids := offsets.map fun o => rd.rowIds.getD o 0 with hids
  have hget : ∀ o ∈ offsets, rd.rowIds[o]? = some (rd.rowIds.getD o 0) := by
    intro o ho
    simp [hlt o ho]
  have hmem : ∀ o ∈ offsets, rd.rowIds.getD o 0 ∈ rd.base.ids := fun o ho =>
    hres _ (mem_of_getElem? (hget o ho))
  have hmap : (offsets.mapM fun offset =>
      match offsetMap (scan.cut rd.rowIds) offset with
      | some id => .ok id
      | none => .error (.runtime "Expected option to have value")) =
        (ok ids : Except LoaderError (List ℕ)) := by
    refine mapM_eq_ok fun o ho => ?_
    rw [offsetMap_eq, scan.flatten_cut, hget o ho]
  have hl : loadBatch rd.base ids = .ok (ids.filterMap rd.base.lookup) := by
    refine (loadBatch_eq_ok (by simpa [hids] using hnil)).2 ⟨fun id hid => ?_, rfl⟩
    obtain ⟨o, ho, rfl⟩ := mem_map.1 hid
    exact hmem o ho
  refine ⟨_, ?_, (map_some_filterMap_map fun o ho => Base.exists_lookup.2 (hmem o ho)).trans
    (map_congr_left fun o ho => ?_)⟩
  · rw [takeOffsets, if_neg (by simpa using hnil), if_pos hp, hmap]
    exact hl
  · rw [getElem?_rows hres, hget o ho, Option.bind_some]

/-- Random access with a permutation table, at a position the reader does not have. -/
theorem takeOffsets_error (hp : rd.permutation.isSome) (scan : Batching) {offsets : List ℕ}
    {o : ℕ} (ho : o ∈ offsets) (hle : rd.rowIds.length ≤ o) :
    ∃ e, rd.takeOffsets scan offsets = .error e := by
  cases hres : rd.takeOffsets scan offsets with
  | error e => exact ⟨e, rfl⟩
  | ok out =>
    exfalso
    rw [takeOffsets, if_neg (by simpa using ne_nil_of_mem ho), if_pos hp] at hres
    obtain ⟨ids, hids, -⟩ := bind_eq_ok.1 hres
    rw [mapM_eq_ok_iff, forall₂_iff_get] at hids
    obtain ⟨i, rfl⟩ := mem_iff_get.1 ho
    have hid := hids.2 i i.isLt (hids.1 ▸ i.isLt)
    rw [offsetMap_eq, scan.flatten_cut, getElem?_eq_none hle] at hid
    cases hid

/-! ### Readers with an offset and a limit -/

/-- The readers that calls of the constructors, `with_offset` and `with_limit` can make. -/
inductive Reachable : Reader α → Prop
  | tryFromTables {base : Base α} {permutation : List Entry} {split : ℕ} {rd : Reader α} :
      Reader.tryFromTables base permutation split = .ok rd → Reachable rd
  | identity {base : Base α} {rd : Reader α} : Reader.identity base = .ok rd → Reachable rd
  | withOffset {rd rd' : Reader α} {offset : ℕ} :
      Reachable rd → rd.withOffset offset = .ok rd' → Reachable rd'
  | withLimit {rd rd' : Reader α} {limit : ℕ} :
      Reachable rd → rd.withLimit limit = .ok rd' → Reachable rd'

theorem innerNew_verified {base : Base α} {permutation : Option (List Entry)} {split : ℕ}
    (h : innerNew base permutation split = .ok rd) :
    rd.verifyLimitOffset rd.limit rd.offset = .ok rd.availableRows := by
  obtain ⟨available, hav, h⟩ := bind_eq_ok.1 h
  split_ifs at h
  · cases h
  · obtain rfl := ok.inj h
    exact hav

theorem Reachable.verified (h : rd.Reachable) :
    rd.verifyLimitOffset rd.limit rd.offset = .ok rd.availableRows := by
  induction h with
  | tryFromTables h | identity h => exact innerNew_verified h
  | withOffset _ h | withLimit _ h =>
    obtain ⟨available, hav, h⟩ := bind_eq_ok.1 h
    obtain rfl := ok.inj h
    exact hav

/-- The sum of offset and limit did not overflow. -/
def Fits (rd : Reader α) : Prop :=
  ∀ limit offset, rd.limit = some limit → rd.offset = some offset →
    offset + limit ≤ rd.splitIds.length

theorem Reachable.countRows_eq (h : rd.Reachable) :
    (rd.Fits → rd.countRows = rd.rowIds.length) ∧
      (¬ rd.Fits → rd.countRows = 0 ∨ rd.rowIds.length < rd.countRows) := by
  have hver := h.verified
  rw [verifyLimitOffset] at hver
  have hr : rd.rowIds.length = match rd.limit with
      | some limit => min limit (rd.splitIds.length - rd.offset.getD 0)
      | none => rd.splitIds.length - rd.offset.getD 0 := by
    rw [rowIds]
    cases rd.limit <;> simp
  rw [hr, countRows, Fits]
  cases hlim : rd.limit <;> cases hoff : rd.offset <;>
    simp only [hlim, hoff, validateLimitOffset] at hver ⊢
  case none.none =>
    obtain h := ok.inj hver
    simp [h]
  case none.some offset =>
    split_ifs at hver
    obtain h := ok.inj hver
    simp [h]
  case some.none limit =>
    split_ifs at hver
    obtain h := ok.inj hver
    refine ⟨fun _ => ?_, fun hnot => absurd (fun _ _ _ hn => by cases hn) hnot⟩
    simp only [Option.getD_none]
    omega
  case some.some limit offset =>
    split_ifs at hver
    obtain h := ok.inj hver
    have hfits : (∀ l o, some limit = some l → some offset = some o →
        o + l ≤ rd.splitIds.length) ↔ offset + limit ≤ rd.splitIds.length :=
      ⟨fun h => h _ _ rfl rfl, by rintro h l o ⟨⟩ ⟨⟩; exact h⟩
    rw [hfits, Option.getD_some]
    constructor <;> intro _ <;> omega

/-- Scan and random access agree on `rows`: the scan yields `rows` however it is cut into batches,
there are as many as the reader reports, random access at positions within returns these rows in the
requested order, and at any other position it is an error. -/
structure Agrees (rd : Reader α) (rows : List (Row α)) : Prop where
  scan : ∀ scan maxLength, ∃ batches,
    rd.read scan maxLength = .ok batches ∧ batches.flatten = rows
  count : rd.countRows = rows.length
  take : ∀ scan offsets, (∀ o ∈ offsets, o < rd.countRows) →
    ∃ out, rd.takeOffsets scan offsets = .ok out ∧ out.map some = offsets.map (rows[·]?)
  outside : ∀ scan offsets, (∃ o ∈ offsets, rd.countRows ≤ o) →
    ∃ e, rd.takeOffsets scan offsets = .error e

/-- Without a permutation table a position beyond the rows is no error. -/
theorem isSome_of_agrees {rows : List (Row α)} (h : rd.Agrees rows) :
    rd.permutation.isSome := by
  obtain ⟨e, he⟩ := h.outside .whole [rd.countRows] ⟨_, mem_singleton_self _, le_rfl⟩
  by_contra hp
  rw [takeOffsets, if_neg (by simp), if_neg hp] at he
  cases he

/-- **Agreement**: scan and random access of a reader agree exactly if it has a permutation table
whose row ids are those of rows of the base table, offset plus limit did not overflow, and there is
a row to read. -/
theorem agrees_iff (h : rd.Reachable) :
    (∃ rows, rd.Agrees rows) ↔
      rd.permutation.isSome ∧ rd.countRows ≠ 0 ∧ rd.Fits ∧ rd.Resolves := by
  constructor
  · rintro ⟨rows, hagrees⟩
    obtain ⟨batches, hr, hrows⟩ := hagrees.scan .whole 0
    obtain ⟨hne, hres, -⟩ := read_eq_ok.1 hr
    have hcnt : rd.countRows = rd.rowIds.length := by
      rw [hagrees.count, ← hrows, flatten_of_read hr, length_rows hres]
    have hpos := length_pos_of_ne_nil hne
    refine ⟨isSome_of_agrees hagrees, by omega, ?_, hres⟩
    by_contra hfits
    have := h.countRows_eq.2 hfits
    omega
  · rintro ⟨hp, hcnt, hfits, hres⟩
    have hlen := h.countRows_eq.1 hfits
    have hne : rd.rowIds ≠ [] := by
      intro hnil
      rw [hnil] at hlen
      exact hcnt hlen
    refine ⟨rd.rows, ⟨fun scan maxLength => ?_, ?_, ?_, ?_⟩⟩
    · obtain ⟨batches, hr⟩ : ∃ batches, rd.read scan maxLength = .ok batches :=
        ⟨_, read_eq_ok.2 ⟨hne, hres, rfl⟩⟩
      exact ⟨batches, hr, flatten_of_read hr⟩
    · rw [hlen, length_rows hres]
    · intro scan offsets hlt
      exact takeOffsets_ok hp hres scan fun o ho => hlen ▸ hlt o ho
    · rintro scan offsets ⟨o, ho, hle⟩
      exact takeOffsets_error hp scan ho (hlen ▸ hle)

/-- A base table with two rows. -/
def twoRows : Base Unit where
  rows := [⟨10, ()⟩, ⟨11, ()⟩]
  nodup := by decide
  query ids := [[⟨10, ()⟩, ⟨11, ()⟩].filter fun row => row.rowId ∈ ids]
  query_perm ids := by simp

/-- The two rows in reverse order, without the first. -/
def demoReader : Reader Unit := ⟨twoRows, some [(11, 0), (10, 0)], some 1, none, 1, 0⟩

theorem demoReader_reachable : demoReader.Reachable :=
  .withOffset (.tryFromTables (rfl : tryFromTables twoRows [(11, 0), (10, 0)] 0 =
    .ok ⟨twoRows, some [(11, 0), (10, 0)], none, none, 2, 0⟩))
    (rfl : withOffset _ 1 = .ok demoReader)

theorem agrees_demo : ∃ rows, demoReader.Agrees rows := by
  refine (agrees_iff demoReader_reachable).2 ⟨rfl, by decide, ?_, ?_⟩
  · intro _ _ hlim
    cases hlim
  · unfold Resolves
    decide

/-- A reader without a permutation table that skips the first row: its scan yields the second row,
and random access at the same position yields the first. -/
theorem identity_offset_disagrees :
    ∃ rd : Reader Unit, rd.Reachable ∧ rd.countRows = 1 ∧
      rd.read .whole 0 = .ok [[⟨11, ()⟩]] ∧ rd.takeOffsets .whole [0] = .ok [⟨10, ()⟩] ∧
      ¬ ∃ rows, rd.Agrees rows := by
  refine ⟨⟨twoRows, none, some 1, none, 1, 0⟩, ?_, rfl, rfl, rfl, ?_⟩
  · exact .withOffset (.identity (rfl : identity twoRows = .ok ⟨twoRows, none, none, none, 2, 0⟩))
      (rfl : withOffset _ 1 = _)
  · rintro ⟨rows, h⟩
    exact absurd (isSome_of_agrees h) (by decide)

end Reader

end Permutation

end LanceDB
