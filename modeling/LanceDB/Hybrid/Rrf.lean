import LanceDB.Hybrid.Batch

/-!
# Reciprocal rank fusion, in Rust and in Python

The default reranker of hybrid search exists twice.  Both build a map from row ids to scores, merge
the two result lists keeping the first row of every id, join the scores back to the merged rows and
sort by them.  `RRFReranker::rerank_hybrid` counts the places of a list from 0, the Python class
from 1 as the cited paper does.

* `rerankHybrid`, `mergeResults` : the Rust reranker, on record batches.
* `PyTable`, `PyRRFReranker.rerankHybrid` : the Python one, on tables.
* `rerank_produces` — the Rust reranker is `Fusion.fuse` from place 0.
* `PyRRFReranker.rerank_rows` — the Python one is `Fusion.fuse` from place 1.
* `rrf_agree_iff` — they agree on empty results only.
* `rust_eq_python` — with the constants one apart they agree on all.
-/

namespace LanceDB.Hybrid

open RecordBatch List Function Fusion

/-- `ROW_ID`. -/
def rowId : String := "_rowid"

/-- `SCORE_COL`. -/
def scoreCol : String := "_score"

/-- `DIST_COL`. -/
def distCol : String := "_distance"

/-- `RELEVANCE_SCORE`. -/
def relevanceScore : String := "_relevance_score"

variable {V : Type}
variable {sort : Fusion.Sorter} {xs ys : List ℕ} {k : ℚ}

/-! ### The Rust reranker -/

/-- `update_score_map`, on a row id and its place. -/
def updateScoreMap (k : ℚ) (scores : ℕ → Option ℚ) (entry : ℕ × ℕ) : ℕ → Option ℚ :=
  let score := 1 / ((entry.2 : ℚ) + k)
  Function.update scores entry.1 (some
    (match scores entry.1 with
    | some e => e + score
    | none => score))

/-- `rrf_score_map`. -/
def rrfScoreMap (k : ℚ) (vectorIds ftsIds : List ℕ) : ℕ → Option ℚ :=
  ftsIds.zipIdx.foldl (updateScoreMap k) (vectorIds.zipIdx.foldl (updateScoreMap k) fun _ => none)

/-- The row ids of a leg, which has to have them. -/
def legRowIds (leg : String) (results : RecordBatch V) : Except Error (List ℕ) :=
  match columnIndex results.schema rowId with
  | none => .error (.invalidInput
      ("expected column " ++ rowId ++ " not found in " ++ leg ++ ". found columns " ++
        debugNames results.schema))
  | some i => results.uint64Values i

/-- `Reranker::merge_results`: the rows of both legs, the first of every row id. -/
def mergeResults (vectorResults ftsResults : RecordBatch V) : Except Error (RecordBatch V) := do
  let combined ← concatBatches ftsResults.schema [vectorResults, ftsResults]
  match columnIndex combined.schema rowId with
  | none => .error (.invalidInput
      ("could not find expected column " ++ rowId ++ " while merging results. found columns " ++
        debugNames combined.schema))
  | some i => do
    let ids ← combined.uint64Values i
    return combined.filterRows (firstMask [] ids)

/-- `Option::unwrap`. -/
def unwrap {α : Type} : Option α → Except Error α
  | some a => .ok a
  | none => .error (.panic "called Option::unwrap on a None value")

@[simp] theorem unwrap_some {α : Type} (a : α) : unwrap (some a) = .ok a := rfl

/-- `RRFReranker::rerank_hybrid`. -/
def rerankHybrid (k : ℚ) (sort : Fusion.Sorter) (vectorResults ftsResults : RecordBatch V) :
    Except Error (RecordBatch V) := do
  let vectorIds ← legRowIds "vector_results" vectorResults
  let ftsIds ← legRowIds "fts_results" ftsResults
  let scores := rrfScoreMap k vectorIds ftsIds
  let combined ← mergeResults vectorResults ftsResults
  let i ← unwrap (columnIndex combined.schema rowId)
  let combinedIds ← combined.uint64Values i
  let relevance ← combinedIds.mapM fun id => unwrap (scores id)
  let indices := sort.run relevance
  let rows := List.zipWith (fun row score => row ++ [.float32 score]) combined.rows relevance
  tryNew (combined.schema ++ [⟨relevanceScore, .float32, false⟩]) (takeIndices indices rows)

/-- `RRFReranker::default`. -/
def defaultK : ℚ := 60

/-- `check_reranker_result`. -/
def checkRerankerResult (result : RecordBatch V) : Except Error Unit :=
  match columnIndex result.schema relevanceScore with
  | none => .error (.schema
      ("rerank_hybrid must return a RecordBatch with a column named " ++ relevanceScore))
  | some _ => .ok ()

/-! ### What the score map holds -/

theorem foldl_updateScoreMap (k : ℚ) (scores : ℕ → Option ℚ) (i : ℕ) (ids : List ℕ) (id : ℕ) :
    (ids.zipIdx i).foldl (updateScoreMap k) scores id =
      if id ∈ ids then some ((scores id).getD 0 + contribution k id i ids)
      else scores id := by
  induction ids generalizing scores i with
  | nil => simp
  | cons x ids ih =>
    rw [zipIdx_cons, foldl_cons, ih, contribution]
    by_cases hx : x = id
    · subst hx
      have hown : updateScoreMap k scores (x, i) x =
          some ((scores x).getD 0 + 1 / ((i : ℚ) + k)) := by
        cases hsc : scores x <;> simp [updateScoreMap, hsc]
      rw [hown]
      by_cases hmem : x ∈ ids
      · simp [hmem, add_assoc]
      · simp [hmem, contribution_of_not_mem]
    · have hoth : updateScoreMap k scores (x, i) id = scores id := by
        simp [updateScoreMap, update_of_ne (Ne.symm hx)]
      rw [hoth]
      simp [hx, Ne.symm hx]

theorem rrfScoreMap_of_mem {vectorIds ftsIds : List ℕ} {id : ℕ} (h : id ∈ vectorIds ++ ftsIds) :
    rrfScoreMap k vectorIds ftsIds id = some
      (contribution k id 0 vectorIds + contribution k id 0 ftsIds) := by
  rw [rrfScoreMap, foldl_updateScoreMap, foldl_updateScoreMap]
  by_cases hfts : id ∈ ftsIds <;> by_cases hvec : id ∈ vectorIds
  · simp [hfts, hvec]
  · simp [hfts, hvec, contribution_of_not_mem]
  · simp [hfts, hvec, contribution_of_not_mem]
  · simp [hfts, hvec] at h

/-! ### The Rust reranker is a fusion -/

/-- The row id a row has in column `i`. -/
def rowIdAt (i : ℕ) (row : List (Cell V)) : ℕ := (row.getD i .null).id

/-- Two legs whose rows can be put under each other. -/
structure Stackable (i : ℕ) (vectorResults ftsResults : RecordBatch V) : Prop where
  types : types vectorResults.schema = types ftsResults.schema
  fits : ∀ row ∈ vectorResults.rows, fits ftsResults.schema row = true
  vector : columnIndex vectorResults.schema rowId = some i
  fts : columnIndex ftsResults.schema rowId = some i
  uint64 : (ftsResults.schema[i]?).map Field.dataType = some .uint64

theorem uint64Values_eq {b : RecordBatch V} {i : ℕ}
    (h : (b.schema[i]?).map Field.dataType = some .uint64) :
    b.uint64Values i = .ok (b.rows.map (rowIdAt i)) := by
  rw [uint64Values, if_pos h, column, map_map]
  rfl

namespace Stackable

variable {i : ℕ} {vectorResults ftsResults : RecordBatch V}

theorem uint64_vector (h : Stackable i vectorResults ftsResults) :
    (vectorResults.schema[i]?).map Field.dataType = some .uint64 := by
  have htype := congrArg (fun ts => ts[i]?) h.types
  simp only [Hybrid.types, getElem?_map] at htype
  rw [htype, h.uint64]

theorem merge (h : Stackable i vectorResults ftsResults) :
    Produces (mergeResults vectorResults ftsResults) ftsResults.schema
      (merged (rowIdAt i) vectorResults.rows ftsResults.rows) := by
  have hconcat : Produces (concatBatches ftsResults.schema [vectorResults, ftsResults])
      ftsResults.schema ([vectorResults, ftsResults].flatMap RecordBatch.rows) :=
    Produces.concat (by simp [h.types]) (by simpa using ⟨h.fits, ftsResults.valid⟩)
  obtain ⟨combined, hconcat, hsch, hr⟩ := hconcat
  have hids := uint64Values_eq (b := combined) (by rw [hsch]; exact h.uint64)
  refine ⟨combined.filterRows (firstMask [] (combined.rows.map (rowIdAt i))), ?_, hsch, ?_⟩
  · simp [mergeResults, hconcat, hsch, h.fts, hids, bind, Except.bind, pure, Except.pure]
  · change keep (firstMask [] (combined.rows.map (rowIdAt i))) combined.rows = _
    rw [hr]
    simp [merged]

theorem fits_of_mem_fuse (h : Stackable i vectorResults ftsResults) {origin : ℕ}
    {p : List (Cell V) × ℚ}
    (hp : p ∈ fuse sort origin k (rowIdAt i) vectorResults.rows ftsResults.rows) :
    Hybrid.fits ftsResults.schema p.1 = true := by
  obtain ⟨row, hmgd, rfl⟩ := mem_map.1 (fuse_perm.mem_iff.1 hp)
  rcases mem_append.1 (merged_subset hmgd) with hrow | hrow
  · exact h.fits row hrow
  · exact ftsResults.valid row hrow

end Stackable

theorem legRowIds_eq (leg : String) {b : RecordBatch V} {i : ℕ}
    (hi : columnIndex b.schema rowId = some i)
    (h : (b.schema[i]?).map Field.dataType = some .uint64) :
    legRowIds leg b = .ok (b.rows.map (rowIdAt i)) := by
  rw [legRowIds, hi]
  exact uint64Values_eq h

/-- **The Rust reranker fuses the rows of both legs, counting places from 0.** -/
theorem rerank_produces (k : ℚ) (sort : Fusion.Sorter) {i : ℕ}
    {vectorResults ftsResults : RecordBatch V} (h : Stackable i vectorResults ftsResults) :
    Produces (rerankHybrid k sort vectorResults ftsResults)
      (ftsResults.schema ++ [⟨relevanceScore, .float32, false⟩])
      ((fuse sort 0 k (rowIdAt i) vectorResults.rows ftsResults.rows).map
        fun p => p.1 ++ [.float32 p.2]) := by
  obtain ⟨combined, hmrg, hsch, hr⟩ := h.merge
  have hvectorIds := legRowIds_eq "vector_results" h.vector h.uint64_vector
  have hftsIds := legRowIds_eq "fts_results" h.fts h.uint64
  have hids := uint64Values_eq (b := combined) (by rw [hsch]; exact h.uint64)
  set score := Fusion.score 0 k (rowIdAt i) vectorResults.rows ftsResults.rows with hsc
  -- every merged row has a score
  have hrel : (combined.rows.map (rowIdAt i)).mapM (fun id => unwrap
      (rrfScoreMap k (vectorResults.rows.map (rowIdAt i)) (ftsResults.rows.map (rowIdAt i)) id)) =
      .ok (combined.rows.map score) := by
    rw [mapM_eq_ok_iff, forall₂_map_left_iff, forall₂_map_right_iff]
    refine forall₂_same.2 fun row hrow => ?_
    have hmem : rowIdAt i row ∈
        vectorResults.rows.map (rowIdAt i) ++ ftsResults.rows.map (rowIdAt i) := by
      rw [← map_append]
      exact mem_map_of_mem (merged_subset (hr ▸ hrow))
    rw [rrfScoreMap_of_mem hmem]
    rfl
  have hzip : List.zipWith (fun row score => row ++ [Cell.float32 score]) combined.rows
      (combined.rows.map score) =
      (combined.rows.map fun row => (row, score row)).map fun p => p.1 ++ [Cell.float32 p.2] := by
    rw [zipWith_map_right, zipWith_self, map_map]
    rfl
  have hfuse : takeIndices (sort.run (combined.rows.map score))
      (combined.rows.map fun row => (row, score row)) =
      fuse sort 0 k (rowIdAt i) vectorResults.rows ftsResults.rows := by
    rw [fuse, scored, ← hr, map_map]
    rfl
  have hrun : rerankHybrid k sort vectorResults ftsResults =
      tryNew (ftsResults.schema ++ [⟨relevanceScore, .float32, false⟩])
        ((fuse sort 0 k (rowIdAt i) vectorResults.rows ftsResults.rows).map
          fun p => p.1 ++ [.float32 p.2]) := by
    rw [← hfuse, ← takeIndices_map, ← hzip]
    simp only [rerankHybrid, hvectorIds, hftsIds, hmrg, hsch, h.fts, hids, hrel,
      unwrap_some, bind, Except.bind]
  rw [hrun]
  refine Produces.tryNew fun row hrow => ?_
  obtain ⟨p, hp, rfl⟩ := mem_map.1 hrow
  have hfits := h.fits_of_mem_fuse hp
  rw [fits_append (length_of_fits hfits), hfits]
  rfl

/-! ### The Python reranker -/

/-- A table: its column names, and the value every row has in every column. -/
structure PyTable (V : Type) where
  columnNames : List String
  rows : List (String → Cell V)

namespace PyTable

/-- The row ids of a table, `table["_rowid"].to_pylist()`. -/
def rowIds (t : PyTable V) : List ℕ := t.rows.map fun row => (row rowId).id

/-- A row of a table among more columns: it is null in those the table does not have. -/
def widen (t : PyTable V) (row : String → Cell V) (name : String) : Cell V :=
  if name ∈ t.columnNames then row name else .null

/-- `pa.concat_tables` with promotion. -/
def concatTables (a b : PyTable V) : PyTable V where
  columnNames := a.columnNames ++ b.columnNames.filter (· ∉ a.columnNames)
  rows := a.rows.map a.widen ++ b.rows.map b.widen

/-- The indices of `np.unique(.., return_index=True)`: the first place of every value, in the order
of the values. -/
def uniqueIndices (ids : List ℕ) : List ℕ := (ids.dedup.mergeSort (· ≤ ·)).map (ids.idxOf ·)

/-- `_deduplicate`. -/
def deduplicate (t : PyTable V) : PyTable V where
  columnNames := t.columnNames
  rows := keep
    ((List.range t.rows.length).map fun i => decide (i ∈ uniqueIndices t.rowIds)) t.rows

/-- `merge_results`. -/
def mergeResults (vectorResults ftsResults : PyTable V) : PyTable V :=
  (vectorResults.concatTables ftsResults).deduplicate

/-- `append_column`. -/
def appendColumn (t : PyTable V) (name : String) (column : List (Cell V)) : PyTable V where
  columnNames := t.columnNames ++ [name]
  rows := List.zipWith (fun row c => Function.update row name c) t.rows column

/-- `drop_columns` of one column. -/
def dropColumn (t : PyTable V) (name : String) : PyTable V :=
  { t with columnNames := t.columnNames.filter (· ≠ name) }

end PyTable

/-- What `return_score` asks for. -/
inductive ReturnScore
  | relevance
  | all
deriving DecidableEq

/-- The Python class: its constructor refuses a constant that is not positive. -/
structure PyRRFReranker where
  K : ℚ
  positive : 0 < K
  score : ReturnScore

namespace PyRRFReranker

/-- `__init__`. -/
def init (K : ℚ) (returnScore : ReturnScore) : Except String PyRRFReranker :=
  if h : K ≤ 0 then .error "K must be greater than 0"
  else .ok ⟨K, not_le.1 h, returnScore⟩

/-- One `rrf_score_map[result_id] += 1 / (i + self.K)`. -/
def addScore (r : PyRRFReranker) (scores : ℕ → ℚ) (entry : ℕ × ℕ) : ℕ → ℚ :=
  Function.update scores entry.1 (scores entry.1 + 1 / ((entry.2 : ℚ) + r.K))

/-- `rrf_score_map`, a `defaultdict(float)`: the places of a list are counted from 1. -/
def scoreMap (r : PyRRFReranker) (lists : List (List ℕ)) : ℕ → ℚ :=
  lists.foldl (fun scores ids => (ids.zipIdx 1).foldl r.addScore scores) fun _ => 0

/-- `_keep_relevance_score`. -/
def keepRelevanceScore (r : PyRRFReranker) (t : PyTable V) : PyTable V :=
  if r.score = .relevance then (t.dropColumn scoreCol).dropColumn distCol else t

/-- `rerank_hybrid`. -/
def rerankHybrid (r : PyRRFReranker) (sort : Fusion.Sorter)
    (vectorResults ftsResults : PyTable V) : PyTable V :=
  let scores := r.scoreMap [vectorResults.rowIds, ftsResults.rowIds]
  let combined := vectorResults.mergeResults ftsResults
  let relevance := combined.rowIds.map scores
  let scored := combined.appendColumn relevanceScore (relevance.map .float32)
  r.keepRelevanceScore
    { scored with rows := takeIndices (sort.run relevance) scored.rows }

/-! ### The Python reranker is a fusion -/

theorem foldl_addScore (r : PyRRFReranker) (scores : ℕ → ℚ) (i : ℕ) (ids : List ℕ) (id : ℕ) :
    (ids.zipIdx i).foldl r.addScore scores id = scores id + contribution r.K id i ids := by
  induction ids generalizing scores i with
  | nil => simp [contribution]
  | cons x ids ih =>
    rw [zipIdx_cons, foldl_cons, ih, contribution]
    by_cases hx : x = id
    · subst hx
      simp [addScore, add_assoc]
    · simp [addScore, update_of_ne (Ne.symm hx), hx]

theorem scoreMap_pair (r : PyRRFReranker) (xs ys : List ℕ) (id : ℕ) :
    r.scoreMap [xs, ys] id = contribution r.K id 1 xs + contribution r.K id 1 ys := by
  simp [scoreMap, foldl_addScore]

end PyRRFReranker

theorem getElem?_firstMask (seen ids : List ℕ) (i : ℕ) :
    (firstMask seen ids)[i]? =
      ids[i]?.map fun id => decide (id ∉ seen ∧ id ∉ ids.take i) := by
  induction ids generalizing seen i with
  | nil => simp [firstMask]
  | cons x ids ih =>
    cases i with
    | zero => simp [firstMask]
    | succ i =>
      rw [firstMask, getElem?_cons_succ, ih, getElem?_cons_succ]
      refine congrArg (Option.map · ids[i]?) (funext fun id => ?_)
      refine decide_eq_decide.2 ?_
      rw [take_succ_cons, mem_cons, mem_cons, not_or, not_or]
      constructor
      · rintro ⟨⟨hx, hs⟩, ht⟩
        exact ⟨hs, hx, ht⟩
      · rintro ⟨hs, hx, ht⟩
        exact ⟨⟨hx, hs⟩, ht⟩

theorem mem_uniqueIndices {ids : List ℕ} {i : ℕ} (hi : i < ids.length) :
    i ∈ PyTable.uniqueIndices ids ↔ ids[i] ∉ ids.take i := by
  have hmem : i ∈ PyTable.uniqueIndices ids ↔ ∃ id ∈ ids, ids.idxOf id = i := by
    simp [PyTable.uniqueIndices, mem_mergeSort]
  rw [hmem]
  constructor
  · rintro ⟨id, hid, rfl⟩
    rw [getElem_idxOf, mem_take_iff_idxOf_lt hid]
    exact lt_irrefl _
  · intro hfst
    have hid : ids[i] ∈ ids := getElem_mem hi
    have hle : ids.idxOf ids[i] < i + 1 := by
      rw [← mem_take_iff_idxOf_lt hid]
      exact mem_iff_getElem.2 ⟨i, by simpa using hi, by simp⟩
    rw [mem_take_iff_idxOf_lt hid] at hfst
    exact ⟨ids[i], hid, by omega⟩

namespace PyTable

theorem mask_eq_firstMask (ids : List ℕ) :
    ((List.range ids.length).map fun i => decide (i ∈ uniqueIndices ids)) =
      firstMask [] ids := by
  refine ext_getElem? fun i => ?_
  rw [getElem?_firstMask, getElem?_map]
  by_cases hi : i < ids.length
  · rw [getElem?_range hi, getElem?_eq_getElem hi]
    simp [mem_uniqueIndices hi]
  · rw [getElem?_eq_none (by simpa using hi), getElem?_eq_none (by simpa using hi)]
    rfl

theorem rows_mergeResults (a b : PyTable V) :
    (a.mergeResults b).rows = merged (fun row => (row rowId).id) (a.rows.map a.widen)
      (b.rows.map b.widen) := by
  change keep ((List.range (a.concatTables b).rows.length).map _) _ = _
  have hlen : (a.concatTables b).rows.length = (a.concatTables b).rowIds.length := by
    rw [rowIds, length_map]
  rw [hlen, mask_eq_firstMask]
  rfl

end PyTable

/-- **The Python reranker fuses the rows of both tables, counting places from 1.** -/
theorem PyRRFReranker.rerank_rows (r : PyRRFReranker) (sort : Fusion.Sorter) {a b : PyTable V}
    (ha : rowId ∈ a.columnNames) (hb : rowId ∈ b.columnNames) :
    (r.rerankHybrid sort a b).rows =
      (fuse sort 1 r.K (fun row => (row rowId).id) (a.rows.map a.widen)
        (b.rows.map b.widen)).map fun p => Function.update p.1 relevanceScore (.float32 p.2) := by
  have hkeep : ∀ t : PyTable V, (r.keepRelevanceScore t).rows = t.rows := by
    intro t
    rw [keepRelevanceScore]
    split_ifs <;> rfl
  have hwide : ∀ {t : PyTable V}, rowId ∈ t.columnNames →
      (t.rows.map t.widen).map (fun row => (row rowId).id) = t.rowIds := by
    intro t ht
    simp [PyTable.rowIds, PyTable.widen, ht, comp_def]
  set score := Fusion.score 1 r.K (fun row : String → Cell V => (row rowId).id)
    (a.rows.map a.widen) (b.rows.map b.widen) with hsc
  have hrel : (a.mergeResults b).rowIds.map (r.scoreMap [a.rowIds, b.rowIds]) =
      (a.mergeResults b).rows.map score := by
    change ((a.mergeResults b).rows.map fun row => (row rowId).id).map _ = _
    rw [map_map]
    refine map_congr_left fun row _ => ?_
    rw [comp_apply, scoreMap_pair, hsc, Fusion.score, hwide ha, hwide hb]
  rw [rerankHybrid, hkeep, hrel, PyTable.appendColumn]
  rw [map_map, zipWith_map_right, zipWith_self, fuse, scored,
    ← PyTable.rows_mergeResults, ← hsc, map_map, ← takeIndices_map, map_map]
  rfl

/-! ### Legs of one layout -/

/-- The columns of both legs: those selected before and after the score, the row id among them. -/
structure Layout where
  before : List Field
  after : List Field
  /-- Whether the score of a leg may be null. -/
  nullable : Bool
  rowId_mem : ∃ nullable, ⟨rowId, .uint64, nullable⟩ ∈ before ++ after
  score_nodup : (names before ++ scoreCol :: names after).Nodup
  distance_nodup : (names before ++ distCol :: names after).Nodup

namespace Layout

variable {l : Layout} {score : String}

/-- The schema of a leg whose score column has a given name. -/
def schema (l : Layout) (score : String) : List Field :=
  l.before ++ ⟨score, .float32, l.nullable⟩ :: l.after

/-- The schema of the vector leg. -/
def vector (l : Layout) : List Field := l.schema distCol

/-- The schema of the full-text leg. -/
def fts (l : Layout) : List Field := l.schema scoreCol

theorem types_schema (l : Layout) (score score' : String) :
    types (l.schema score) = types (l.schema score') := by
  simp [types, schema]

theorem fits_schema (l : Layout) (score score' : String) (row : List (Cell V)) :
    fits (l.schema score) row = fits (l.schema score') row := by
  have hgen : ∀ (fs gs : List Field) (row : List (Cell V)),
      fits (fs ++ ⟨score, .float32, l.nullable⟩ :: gs) row =
        fits (fs ++ ⟨score', .float32, l.nullable⟩ :: gs) row := by
    intro fs gs
    induction fs with
    | nil => intro row; cases row <;> rfl
    | cons f fs ih => intro row; cases row <;> simp [fits, ih]
  exact hgen l.before l.after row

theorem columnIndex_schema {name score' : String} (h : score ≠ name) (h' : score' ≠ name) :
    columnIndex (l.schema score) name = columnIndex (l.schema score') name := by
  have hmarks : ∀ s, s ≠ name → (l.schema s).map (fun f => f.name == name) =
      l.before.map (fun f => f.name == name) ++ false :: l.after.map fun f => f.name == name := by
    intro s hs
    simp [schema, hs]
  have hidx : ∀ schema : List Field, columnIndex schema name =
      (schema.map fun f => f.name == name).findIdx? id := by
    intro schema
    rw [findIdx?_map]
    rfl
  rw [hidx, hidx, hmarks score h, hmarks score' h']

theorem rowId_index (l : Layout) : ∃ i, ∀ score, score ≠ rowId →
    columnIndex (l.schema score) rowId = some i ∧
      ((l.schema score)[i]?).map Field.dataType = some .uint64 := by
  obtain ⟨nullable, hmem⟩ := l.rowId_mem
  have hrow : ⟨rowId, .uint64, nullable⟩ ∈ l.fts := by
    rcases mem_append.1 hmem with hmem | hmem <;> simp [fts, schema, hmem]
  obtain ⟨i, hi⟩ : ∃ i, columnIndex l.fts rowId = some i := by
    rw [← Option.ne_none_iff_exists', Ne, columnIndex_eq_none, not_not]
    exact mem_map_of_mem hrow
  -- the only field of that name is the row id
  obtain ⟨f, hf, hn⟩ := columnIndex_spec hi
  have hnd : (l.fts.map Field.name).Nodup := by
    simpa [fts, schema, names] using l.score_nodup
  have hfld : f = ⟨rowId, .uint64, nullable⟩ :=
    inj_on_of_nodup_map hnd (mem_of_getElem? hf) hrow hn
  refine ⟨i, fun score hsc => ⟨?_, ?_⟩⟩
  · rw [columnIndex_schema hsc (by decide : scoreCol ≠ rowId)]
    exact hi
  · have htype := congrArg (fun ts => ts[i]?) (l.types_schema score scoreCol)
    simp only [types, getElem?_map] at htype
    rw [htype]
    change (l.fts[i]?).map Field.dataType = _
    rw [hf, hfld]
    rfl

theorem stackable {vectorResults ftsResults : RecordBatch V}
    (hvec : vectorResults.schema = l.vector) (hfts : ftsResults.schema = l.fts) :
    ∃ i, Stackable i vectorResults ftsResults := by
  obtain ⟨i, hi⟩ := l.rowId_index
  refine ⟨i, ?_, fun row hrow => ?_, ?_, ?_, ?_⟩
  · rw [hvec, hfts]
    exact l.types_schema _ _
  · rw [hfts, fts, l.fits_schema scoreCol distCol, ← vector, ← hvec]
    exact vectorResults.valid row hrow
  · rw [hvec]
    exact (hi distCol (by decide)).1
  · rw [hfts]
    exact (hi scoreCol (by decide)).1
  · rw [hfts]
    exact (hi scoreCol (by decide)).2

end Layout

/-- The results of both legs, of one layout. -/
structure Legs (V : Type) where
  layout : Layout
  vector : RecordBatch V
  fts : RecordBatch V
  vector_schema : vector.schema = layout.vector
  fts_schema : fts.schema = layout.fts

/-! ### Rankings -/

/-- The row ids of a batch. -/
def RecordBatch.rowIds (b : RecordBatch V) : List ℕ :=
  match columnIndex b.schema rowId with
  | some i => b.rows.map (rowIdAt i)
  | none => []

/-- The row ids of a reranked batch with their scores, which stand in its last column. -/
def RecordBatch.ranking (b : RecordBatch V) : List (ℕ × ℚ) :=
  b.rowIds.zip (b.rows.map fun row => ((row.getLast?.bind Cell.float?).getD 0))

/-- The table that a batch is for Python. -/
def PyTable.ofBatch (b : RecordBatch V) : PyTable V where
  columnNames := names b.schema
  rows := b.rows.map fun row name =>
    match columnIndex b.schema name with
    | some i => row.getD i .null
    | none => .null

/-- The row ids of a reranked table with their scores. -/
def PyTable.ranking (t : PyTable V) : List (ℕ × ℚ) :=
  t.rows.map fun row => ((row rowId).id, ((row relevanceScore).float?).getD 0)

/-- The score of the paper: every list that ranks an id adds `1 / (k + rank)`, ranks start at 1. -/
def rrf (k : ℚ) (lists : List (List ℕ)) (id : ℕ) : ℚ :=
  ((lists.filter (id ∈ ·)).map fun ids => 1 / (k + (ids.idxOf id + 1))).sum

/-- A ranking by that score: every id of the lists once, by descending score. -/
structure IsRrfRanking (k : ℚ) (vectorIds ftsIds : List ℕ) (ranking : List (ℕ × ℚ)) : Prop where
  nodup : (ranking.map Prod.fst).Nodup
  mem : ∀ id, id ∈ ranking.map Prod.fst ↔ id ∈ vectorIds ∨ id ∈ ftsIds
  score : ∀ p ∈ ranking, p.2 = rrf k [vectorIds, ftsIds] p.1
  sorted : ranking.Pairwise fun a b => b.2 ≤ a.2

/-- In lists without duplicates the score counts places from 1. -/
theorem rrf_pair (hxs : xs.Nodup) (hys : ys.Nodup) (id : ℕ) :
    rrf k [xs, ys] id = contribution k id 1 xs + contribution k id 1 ys := by
  have hone : ∀ ids : List ℕ, ids.Nodup → contribution k id 1 ids =
      if id ∈ ids then 1 / (k + (ids.idxOf id + 1)) else 0 := by
    intro ids hids
    split_ifs with hmem
    · rw [contribution_of_nodup hids hmem]
      push_cast
      ring
    · exact contribution_of_not_mem hmem
  rw [hone xs hxs, hone ys hys, rrf]
  by_cases hx : id ∈ xs <;> by_cases hy : id ∈ ys <;> simp [hx, hy]

theorem rust_ranking (k : ℚ) (sort : Fusion.Sorter) (legs : Legs V) :
    ∃ result, rerankHybrid k sort legs.vector legs.fts = .ok result ∧
      result.ranking = fuse sort 0 k (fun id => id) legs.vector.rowIds legs.fts.rowIds := by
  obtain ⟨i, h⟩ := legs.layout.stackable legs.vector_schema legs.fts_schema
  obtain ⟨result, hrun, hsch, hr⟩ := rerank_produces k sort h
  refine ⟨result, hrun, ?_⟩
  have hidx : columnIndex result.schema rowId = some i := by
    rw [hsch, columnIndex, findIdx?_append, ← columnIndex, h.fts]
    rfl
  have hids : ∀ {b : RecordBatch V}, columnIndex b.schema rowId = some i →
      b.rowIds = b.rows.map (rowIdAt i) := by
    intro b hb
    rw [rowIds, hb]
  rw [hids h.vector, hids h.fts, fuse_map, ranking, hids hidx, hr, map_map,
    map_map, zip_map', map_congr_left]
  rintro ⟨row, score⟩ hp
  -- the score is added behind the row id
  have hlen : i < row.length := by
    rw [length_of_fits (h.fits_of_mem_fuse hp)]
    obtain ⟨f, hf, -⟩ := columnIndex_spec h.fts
    exact (List.getElem?_eq_some_iff.1 hf).1
  simp [rowIdAt, List.getD, getElem?_append_left hlen, Cell.float?]

theorem python_ranking (r : PyRRFReranker) (sort : Fusion.Sorter) (legs : Legs V) :
    (r.rerankHybrid sort (.ofBatch legs.vector) (.ofBatch legs.fts)).ranking =
      fuse sort 1 r.K (fun id => id) legs.vector.rowIds legs.fts.rowIds := by
  obtain ⟨i, h⟩ := legs.layout.stackable legs.vector_schema legs.fts_schema
  have hns : ∀ {b : RecordBatch V}, columnIndex b.schema rowId = some i →
      rowId ∈ (PyTable.ofBatch b).columnNames := by
    intro b hb
    by_contra hnot
    rw [columnIndex_eq_none.2 hnot] at hb
    cases hb
  have hids : ∀ {b : RecordBatch V}, columnIndex b.schema rowId = some i →
      ((PyTable.ofBatch b).rows.map (PyTable.ofBatch b).widen).map (fun row => (row rowId).id) =
        b.rowIds := by
    intro b hb
    rw [map_map, rowIds, hb, PyTable.ofBatch, map_map]
    refine map_congr_left fun row _ => ?_
    have hn : rowId ∈ names b.schema := hns hb
    simp [PyTable.widen, hn, hb, rowIdAt]
  rw [PyTable.ranking, r.rerank_rows sort (hns h.vector) (hns h.fts), map_map,
    ← hids h.vector, ← hids h.fts, fuse_map]
  refine map_congr_left fun p _ => ?_
  have hoth : rowId ≠ relevanceScore := by decide
  simp [update_of_ne hoth, Cell.float?]

theorem mem_fuse_ids {origin : ℕ} {id : ℕ} :
    id ∈ (fuse sort origin k (fun id => id) xs ys).map Prod.fst ↔ id ∈ xs ∨ id ∈ ys := by
  simpa using @Fusion.mem_ids_fuse ℕ ℕ _ sort origin k (fun id => id) xs ys id

/-- A fusion of lists without duplicates from place 1 is a ranking by the score of the paper. -/
theorem isRrfRanking_fuse (hxs : xs.Nodup) (hys : ys.Nodup) :
    IsRrfRanking k xs ys (fuse sort 1 k (fun id => id) xs ys) where
  nodup := @Fusion.nodup_fuse ℕ ℕ _ sort 1 k (fun id => id) xs ys
  mem id := mem_fuse_ids
  score p hp := by
    rw [snd_of_mem_fuse hp, rrf_pair hxs hys, Fusion.score]
    simp
  sorted := fuse_sorted

/-- The score the Rust reranker gives to an id is higher than that of the paper. -/
theorem rrf_lt_rust (hk : 0 < k) (hxs : xs.Nodup) (hys : ys.Nodup) {p : ℕ × ℚ}
    (hp : p ∈ fuse sort 0 k (fun id => id) xs ys) : rrf k [xs, ys] p.1 < p.2 := by
  have hsf : ∀ ids : List ℕ, contribution k p.1 1 ids =
      contribution (k + 1) p.1 0 ids := by
    intro ids
    rw [← Nat.zero_add 1, contribution_shift, Nat.cast_one]
  have hmem : p.1 ∈ xs ∨ p.1 ∈ ys := mem_fuse_ids.1 (mem_map_of_mem hp)
  rw [snd_of_mem_fuse hp, rrf_pair hxs hys, hsf, hsf, Fusion.score]
  simp only [map_id']
  rcases hmem with hmem | hmem
  · exact add_lt_add_of_lt_of_le (contribution_lt hk (by linarith) hmem)
      (contribution_anti hk (by linarith) 0 ys)
  · exact add_lt_add_of_le_of_lt (contribution_anti hk (by linarith) 0 xs)
      (contribution_lt hk (by linarith) hmem)

/-- **The two rerankers agree on empty results only.**  The Python reranker ranks by the score of
the paper.  The Rust one returns as well, but it ranks by that score, and gives every id the score
of the Python one, exactly when neither leg has a row. -/
theorem rrf_agree_iff (r : PyRRFReranker) (sort sort' : Fusion.Sorter) (legs : Legs V)
    (hvector : legs.vector.rowIds.Nodup) (hfts : legs.fts.rowIds.Nodup) :
    ∃ rust, rerankHybrid r.K sort legs.vector legs.fts = .ok rust ∧
      IsRrfRanking r.K legs.vector.rowIds legs.fts.rowIds
        (r.rerankHybrid sort' (.ofBatch legs.vector) (.ofBatch legs.fts)).ranking ∧
      ((IsRrfRanking r.K legs.vector.rowIds legs.fts.rowIds rust.ranking ∧
        ∀ id s s', (id, s) ∈ rust.ranking →
          (id, s') ∈ (r.rerankHybrid sort' (.ofBatch legs.vector) (.ofBatch legs.fts)).ranking →
            s = s') ↔
        legs.vector.rowIds = [] ∧ legs.fts.rowIds = []) := by
  obtain ⟨rust, hrust, hrank⟩ := rust_ranking r.K sort legs
  rw [python_ranking r sort' legs]
  refine ⟨rust, hrust, isRrfRanking_fuse hvector hfts, ?_⟩
  constructor
  · rintro ⟨hrrf, -⟩
    -- any ranked id has a score that is too high
    have hn : ∀ id, ¬ (id ∈ legs.vector.rowIds ∨ id ∈ legs.fts.rowIds) := by
      intro id hid
      rw [hrank] at hrrf
      obtain ⟨p, hp, rfl⟩ := mem_map.1 (mem_fuse_ids.2 hid)
      exact (rrf_lt_rust r.positive hvector hfts hp).ne' (hrrf.score p hp)
    exact ⟨eq_nil_iff_forall_not_mem.2 fun id hid => hn id (.inl hid),
      eq_nil_iff_forall_not_mem.2 fun id hid => hn id (.inr hid)⟩
  · rintro ⟨hnil, hnil'⟩
    rw [hrank, hnil, hnil']
    have hemp : ∀ p, p ∉ fuse sort 0 r.K (fun id : ℕ => id) [] [] := fun p hp => by
      simpa using mem_fuse_ids.1 (mem_map_of_mem hp)
    rw [eq_nil_iff_forall_not_mem.2 hemp]
    exact ⟨⟨by simp, by simp, by simp, by simp⟩, by simp⟩

/-- Legs that return row ids only. -/
def idLegs (vectorIds ftsIds : List ℕ) : Legs Unit where
  layout :=
    { before := []
      after := [⟨rowId, .uint64, true⟩]
      nullable := true
      rowId_mem := ⟨true, by simp⟩
      score_nodup := by decide
      distance_nodup := by decide }
  vector := ⟨[⟨distCol, .float32, true⟩, ⟨rowId, .uint64, true⟩],
    vectorIds.map fun id => [.null, .uint64 id], by simp [fits, Field.admits, Cell.dataType?]⟩
  fts := ⟨[⟨scoreCol, .float32, true⟩, ⟨rowId, .uint64, true⟩],
    ftsIds.map fun id => [.null, .uint64 id], by simp [fits, Field.admits, Cell.dataType?]⟩
  vector_schema := rfl
  fts_schema := rfl

theorem rrf_agree_empty :
    ∃ rust, rerankHybrid 60 .stable (idLegs [] []).vector (idLegs [] []).fts = .ok rust ∧
      IsRrfRanking 60 [] [] rust.ranking := by
  obtain ⟨rust, hrust, -, hiff⟩ := rrf_agree_iff ⟨60, by norm_num, .relevance⟩ .stable .stable
    (idLegs [] []) nodup_nil nodup_nil
  exact ⟨rust, hrust, (hiff.2 ⟨rfl, rfl⟩).1⟩

/-- One row in the vector leg: `1 / 60` in Rust, `1 / 61` in Python. -/
theorem rust_rank_from_zero :
    ∃ rust, rerankHybrid 60 .stable (idLegs [7] []).vector (idLegs [7] []).fts = .ok rust ∧
      rust.ranking = [(7, 1 / 60)] ∧
      ((⟨60, by decide, .relevance⟩ : PyRRFReranker).rerankHybrid .stable
        (.ofBatch (idLegs [7] []).vector) (.ofBatch (idLegs [7] []).fts)).ranking = [(7, 1 / 61)] ∧
      rrf 60 [[7], []] 7 = 1 / 61 := by
  obtain ⟨rust, hrust, hrank⟩ := rust_ranking 60 .stable (idLegs [7] [])
  refine ⟨rust, hrust, ?_, ?_, by norm_num [rrf]⟩
  · rw [hrank]
    decide +kernel
  · rw [python_ranking]
    decide +kernel

/-- **With constants one apart the two rerankers agree.** -/
theorem rust_eq_python (r : PyRRFReranker) (sort : Fusion.Sorter) (legs : Legs V) :
    ∃ rust, rerankHybrid (r.K + 1) sort legs.vector legs.fts = .ok rust ∧
      rust.ranking = (r.rerankHybrid sort (.ofBatch legs.vector) (.ofBatch legs.fts)).ranking := by
  obtain ⟨rust, hrust, hrank⟩ := rust_ranking (r.K + 1) sort legs
  refine ⟨rust, hrust, ?_⟩
  rw [hrank, python_ranking, ← Nat.cast_one (R := ℚ)]
  exact fuse_origin.symm

-- Row 9 is in both legs, second and first.
example : ∃ rust, rerankHybrid 61 .stable (idLegs [7, 9] [9, 5]).vector (idLegs [7, 9] [9, 5]).fts =
      .ok rust ∧
    rust.ranking = [(9, 1 / 62 + 1 / 61), (7, 1 / 61), (5, 1 / 62)] ∧
    ((⟨60, by decide, .relevance⟩ : PyRRFReranker).rerankHybrid .stable
      (.ofBatch (idLegs [7, 9] [9, 5]).vector) (.ofBatch (idLegs [7, 9] [9, 5]).fts)).ranking =
      [(9, 1 / 62 + 1 / 61), (7, 1 / 61), (5, 1 / 62)] := by
  obtain ⟨rust, hrust, hrank⟩ := rust_ranking 61 .stable (idLegs [7, 9] [9, 5])
  refine ⟨rust, hrust, ?_, ?_⟩
  · rw [hrank]
    decide +kernel
  · rw [python_ranking]
    decide +kernel

end LanceDB.Hybrid
