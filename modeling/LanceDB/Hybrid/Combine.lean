import LanceDB.Hybrid.WalFusion

/-!
# Combining the legs of a hybrid query

`run_hybrid` collects the batches of both legs, concatenates those of each leg under one schema,
normalizes the scores, reranks, and cuts the result to the limit.  The schema of a leg that returned
no batch is made from that of the other one, by renaming the score column.

The renaming is written for an empty full-text leg: it looks for `_distance` and makes it `_score`.
It is used the same way for an empty vector leg, where there is no `_distance` to rename, so that
leg keeps the schema of the full-text leg and normalizing its distances fails.

* `querySchemas`, `withFieldNameReplaced` : the schemas of the legs.
* `rank`, `normalizeScores` : what becomes of the scores.
* `combine` : the combination step of `run_hybrid`, joining on row ids or on the primary key.
* `mapScores_produces` — what `rank` and `normalizeScores` return.
* `combine_of_layout` — legs of one layout are combined.
* `combine_ok_iff` — the step succeeds unless only the vector leg is empty.
-/

namespace LanceDB.Hybrid

open RecordBatch List

variable {E V B : Type}
variable {b : RecordBatch V} {i : ℕ}

/-! ### Schemas -/

/-- `with_field_name_replaced`. -/
def withFieldNameReplaced (schema : List Field) (target replacement : String) : List Field :=
  match columnIndex schema target with
  | some i => schema.modify i fun f => { f with name := replacement }
  | none => schema

/-- `empty_fts_schema`. -/
def emptyFtsSchema : List Field := [⟨scoreCol, .float32, false⟩, ⟨rowId, .uint64, false⟩]

/-- `empty_vec_schema`. -/
def emptyVecSchema : List Field := [⟨distCol, .float32, false⟩, ⟨rowId, .uint64, false⟩]

/-- `query_schemas`: the schemas of the full-text leg and of the vector leg. -/
def querySchemas (ftsResults vecResults : List (RecordBatch V)) : List Field × List Field :=
  match ftsResults.head?.map RecordBatch.schema, vecResults.head?.map RecordBatch.schema with
  | some ftsSchema, some vecSchema => (ftsSchema, vecSchema)
  | none, some vecSchema => (withFieldNameReplaced vecSchema distCol scoreCol, vecSchema)
  | some ftsSchema, none => (ftsSchema, withFieldNameReplaced ftsSchema distCol scoreCol)
  | none, none => (emptyFtsSchema, emptyVecSchema)

/-! ### Scores -/

/-- `NormalizeMethod`. -/
inductive NormalizeMethod
  | score
  | rank
deriving DecidableEq

/-- A column of scores is replaced by another.  An empty batch is returned as it is. -/
def mapScores (f : List (Option ℚ) → List (Option ℚ)) (results : RecordBatch V) (column : String) :
    Except Error (RecordBatch V) :=
  match columnIndex results.schema column with
  | none => .error (.invalidInput
      ("expected column " ++ column ++ " not found in rank. found columns " ++
        debugNames results.schema))
  | some i =>
    if results.rows.isEmpty then .ok results
    else do
      let scores ← results.float32Values i
      results.setColumn i ((f scores).map Cell.ofFloat?)

/-- The rank kernel: how many values do not come after one.  Nulls come first. -/
def arrowRank (descending : Bool) (scores : List (Option ℚ)) : List ℕ :=
  scores.map fun
    | none => scores.countP Option.isNone
    | some x => scores.countP fun
      | none => true
      | some y => if descending then x ≤ y else y ≤ x

/-- `rank`. -/
def rank (results : RecordBatch V) (column : String) (ascending : Option Bool) :
    Except Error (RecordBatch V) :=
  mapScores (fun scores => (arrowRank (!ascending.getD true) scores).map fun r : ℕ => some (r : ℚ))
    results column

/-- The arithmetic of `normalize_scores`. -/
def normalized (invert : Bool) (scores : List (Option ℚ)) : List (Option ℚ) :=
  let max := scores.reduceOption.max?.getD 0
  let min := scores.reduceOption.min?.getD 0
  -- equivalent to `np.isclose`, which the Python client uses
  let rng := if max - min < 1 / 10000 then max else max - min
  let scaled :=
    if rng ≠ 0 then scores.map (Option.map fun x => (x - min) / rng) else scores
  if invert then scaled.map (Option.map fun x => 1 - x) else scaled

/-- `normalize_scores`. -/
def normalizeScores (results : RecordBatch V) (column : String) (invert : Option Bool) :
    Except Error (RecordBatch V) :=
  mapScores (normalized (invert.getD false)) results column

/-- The scores of both legs are ranked, if that was asked for, and normalized. -/
def normalizeLegs (norm : Option NormalizeMethod) (vecResults ftsResults : RecordBatch V) :
    Except Error (RecordBatch V × RecordBatch V) := do
  let (vecResults, ftsResults) ←
    if norm = some .rank then do
      let vecResults ← rank vecResults distCol none
      let ftsResults ← rank ftsResults scoreCol none
      pure (vecResults, ftsResults)
    else pure (vecResults, ftsResults)
  let vecResults ← normalizeScores vecResults distCol none
  let ftsResults ← normalizeScores ftsResults scoreCol none
  return (vecResults, ftsResults)

/-! ### The combination step -/

/-- A reranker: the query text and the results of both legs. -/
abbrev Reranker (V : Type) := String → RecordBatch V → RecordBatch V → Except Error (RecordBatch V)

/-- What a hybrid query asks for. -/
structure HybridRequest (V : Type) where
  fullTextSearch : Option String
  norm : Option NormalizeMethod
  limit : Option ℕ
  reranker : Option (Reranker V)
  withRowId : Bool

/-- `DEFAULT_TOP_K`. -/
def defaultTopK : ℕ := 10

/-- What is left of the results: they are cut to the limit and the join column is dropped. -/
def finish (request : HybridRequest V) (fusion : Option PkFusion) (results : RecordBatch V) :
    Except Error (RecordBatch V) :=
  let limit := request.limit.getD defaultTopK
  let results := if limit < results.rows.length then results.slice limit else results
  match fusion with
  | none => if request.withRowId then .ok results else results.dropColumn rowId
  | some fusion => fusion.strip results

/-- What `run_hybrid` does with two legs that have a join column. -/
def rerankLegs (sort : Fusion.Sorter) (request : HybridRequest V) (fusion : Option PkFusion)
    (vecResults ftsResults : RecordBatch V) : Except Error (RecordBatch V) := do
  let (vecResults, ftsResults) ← normalizeLegs request.norm vecResults ftsResults
  match request.fullTextSearch with
  | none => .error (.runtime "there should be an FTS search")
  | some query => do
    let reranker := request.reranker.getD fun _ => rerankHybrid defaultK sort
    let results ← reranker query vecResults ftsResults
    checkRerankerResult results
    finish request fusion results

/-- The combination step of `run_hybrid`, from the batches of both legs on. -/
def combine [DecidableEq B] (encode : List (Cell V) → B) (sort : Fusion.Sorter)
    (request : HybridRequest V) (fusion : Option PkFusion)
    (ftsBatches vecBatches : List (RecordBatch V)) : Except Error (RecordBatch V) := do
  let schemas := querySchemas ftsBatches vecBatches
  let ftsResults ← concatBatches schemas.1 ftsBatches
  let vecResults ← concatBatches schemas.2 vecBatches
  let (vecResults, ftsResults) ←
    match fusion with
    | none => pure (vecResults, ftsResults)
    | some fusion => fusion.stamp encode vecResults ftsResults
  rerankLegs sort request fusion vecResults ftsResults

/-! ### What becomes of the scores -/

/-- A map of scores that keeps their number, and makes no null where there is none. -/
structure KeepsScores (f : List (Option ℚ) → List (Option ℚ)) : Prop where
  length : ∀ scores, (f scores).length = scores.length
  present : ∀ scores, none ∉ scores → none ∉ f scores

theorem keepsScores_rank (descending : Bool) :
    KeepsScores fun scores => (arrowRank descending scores).map fun r : ℕ => some (r : ℚ) :=
  ⟨fun scores => by rw [length_map, arrowRank, length_map], fun scores _ => by simp⟩

theorem normalized_eq_map (invert : Bool) (scores : List (Option ℚ)) :
    ∃ g, normalized invert scores = scores.map (Option.map g) := by
  simp only [normalized]
  generalize scores.reduceOption.max?.getD 0 = max
  generalize scores.reduceOption.min?.getD 0 = min
  generalize (if max - min < 1 / 10000 then max else max - min) = rng
  obtain ⟨g, hscaled⟩ : ∃ g, (if rng ≠ 0 then scores.map (Option.map fun x => (x - min) / rng)
      else scores) = scores.map (Option.map g) := by
    split_ifs
    · exact ⟨_, rfl⟩
    · exact ⟨fun x => x, by simp⟩
  rw [hscaled]
  cases invert
  · exact ⟨g, by simp⟩
  · exact ⟨fun x => 1 - g x, by simp [Function.comp_def]⟩

theorem keepsScores_normalized (invert : Bool) : KeepsScores (normalized invert) := by
  refine ⟨fun scores => ?_, fun scores h => ?_⟩
  · obtain ⟨g, hg⟩ := normalized_eq_map invert scores
    rw [hg, length_map]
  · obtain ⟨g, hg⟩ := normalized_eq_map invert scores
    rw [hg]
    simpa using h

/-- A score column of a batch. -/
structure IsScore (b : RecordBatch V) (column : String) (i : ℕ) : Prop where
  index : columnIndex b.schema column = some i
  float32 : ∃ name nullable, b.schema[i]? = some ⟨name, .float32, nullable⟩

/-- **What a map of scores returns.** -/
theorem mapScores_produces {f : List (Option ℚ) → List (Option ℚ)} (hf : KeepsScores f)
    {column : String} (h : IsScore b column i) :
    Produces (mapScores f b column) b.schema
      (List.zipWith (fun row c => row.set i (Cell.ofFloat? c)) b.rows
        (f ((b.column i).map Cell.float?))) := by
  obtain ⟨name, nullable, hfld⟩ := h.float32
  rw [mapScores, h.index]
  by_cases hemp : b.rows = []
  · simpa [hemp] using Produces.of_batch b
  · have hvals : b.float32Values i = .ok ((b.column i).map Cell.float?) := by
      rw [float32Values, if_pos (by rw [hfld]; rfl)]
    have hnonempty : b.rows.isEmpty = false := by simpa using hemp
    simp only [hnonempty, Bool.false_eq_true, if_false, hvals, bind, Except.bind]
    rw [← zipWith_map_right]
    refine Produces.setColumn hfld fun c hc => ?_
    obtain ⟨x, hx, rfl⟩ := mem_map.1 hc
    -- a null is only made where the field allows it
    cases x with
    | some x => rfl
    | none =>
      cases nullable with
      | true => rfl
      | false =>
        refine absurd hx (hf.present _ fun hnull => ?_)
        obtain ⟨cell, hcell, hn⟩ := mem_map.1 hnull
        obtain ⟨row, hrow, rfl⟩ := mem_map.1 hcell
        have hadmits := admits_of_fits (b.valid row hrow) hfld
        cases hval : row.getD i Cell.null <;> rw [hval] at hadmits hn <;>
          simp [Field.admits, Cell.dataType?, Cell.float?] at hadmits hn

theorem IsScore.of_schema {b' : RecordBatch V} {column : String} (h : IsScore b column i)
    (hsch : b'.schema = b.schema) : IsScore b' column i :=
  ⟨hsch ▸ h.index, hsch ▸ h.float32⟩

theorem normalizeLegs_schema (norm : Option NormalizeMethod) {vec fts : RecordBatch V} {j : ℕ}
    (hvec : IsScore vec distCol i) (hfts : IsScore fts scoreCol j) :
    ∃ vec' fts', normalizeLegs norm vec fts = .ok (vec', fts') ∧ vec'.schema = vec.schema ∧
      fts'.schema = fts.schema := by
  have hnorm : ∀ {v f : RecordBatch V}, IsScore v distCol i → IsScore f scoreCol j →
      ∃ v' f', normalizeScores v distCol none = .ok v' ∧ normalizeScores f scoreCol none = .ok f' ∧
        v'.schema = v.schema ∧ f'.schema = f.schema := by
    intro v f hv hf
    obtain ⟨v', hv', hvs, -⟩ := mapScores_produces (keepsScores_normalized false) hv
    obtain ⟨f', hf', hfs, -⟩ := mapScores_produces (keepsScores_normalized false) hf
    exact ⟨v', f', hv', hf', hvs, hfs⟩
  by_cases hrank : norm = some .rank
  · obtain ⟨v, hv, hvs, -⟩ := mapScores_produces (keepsScores_rank false) hvec
    obtain ⟨f, hf, hfs, -⟩ := mapScores_produces (keepsScores_rank false) hfts
    obtain ⟨v', f', hv', hf', hvs', hfs'⟩ := hnorm (hvec.of_schema hvs) (hfts.of_schema hfs)
    refine ⟨v', f', ?_, hvs'.trans hvs, hfs'.trans hfs⟩
    have hv : rank vec distCol none = .ok v := hv
    have hf : rank fts scoreCol none = .ok f := hf
    simp [normalizeLegs, hrank, hv, hf, hv', hf', bind, Except.bind, pure, Except.pure]
  · obtain ⟨v', f', hv', hf', hvs', hfs'⟩ := hnorm hvec hfts
    refine ⟨v', f', ?_, hvs', hfs'⟩
    simp [normalizeLegs, hrank, hv', hf', bind, Except.bind, pure, Except.pure]

/-! ### Legs of one layout -/

namespace Layout

variable {l : Layout}

theorem isScore {score : String} (hb : b.schema = l.schema score)
    (hfr : score ∉ names l.before) : IsScore b score l.before.length := by
  refine ⟨?_, score, l.nullable, ?_⟩
  · rw [hb, schema, columnIndex_append hfr, columnIndex_cons_self rfl]
    simp
  · rw [hb, schema, getElem?_append_right le_rfl, Nat.sub_self]
    rfl

theorem score_fresh (l : Layout) : scoreCol ∉ names l.before := fun h =>
  (nodup_append.1 l.score_nodup).2.2 _ h _ mem_cons_self rfl

theorem distance_fresh (l : Layout) : distCol ∉ names l.before := fun h =>
  (nodup_append.1 l.distance_nodup).2.2 _ h _ mem_cons_self rfl

theorem distance_fresh_after (l : Layout) : distCol ∉ names l.after :=
  (nodup_cons.1 (nodup_append.1 l.distance_nodup).2.1).1

theorem withFieldNameReplaced_vector (l : Layout) :
    withFieldNameReplaced l.vector distCol scoreCol = l.fts := by
  have hidx : columnIndex l.vector distCol = some l.before.length := by
    rw [vector, schema, columnIndex_append l.distance_fresh, columnIndex_cons_self rfl]
    simp
  rw [withFieldNameReplaced, hidx, vector, schema]
  exact modify_length_append ..

theorem distance_not_mem_fts (l : Layout) : distCol ∉ names l.fts := by
  have hbef := l.distance_fresh
  have haft := l.distance_fresh_after
  have hne : distCol ≠ scoreCol := by decide
  simp only [names, fts, schema, map_append, map_cons, mem_append, mem_cons,
    not_or] at hbef haft ⊢
  exact ⟨hbef, hne, haft⟩

theorem withFieldNameReplaced_fts (l : Layout) :
    withFieldNameReplaced l.fts distCol scoreCol = l.fts := by
  rw [withFieldNameReplaced, columnIndex_eq_none.2 l.distance_not_mem_fts]

/-- The layout of two legs that are both empty. -/
def empty : Layout where
  before := []
  after := [⟨rowId, .uint64, false⟩]
  nullable := false
  rowId_mem := ⟨false, by simp⟩
  score_nodup := by decide
  distance_nodup := by decide

end Layout

theorem columnIndex_mem {schema : List Field} {name : String} (h : name ∈ names schema) :
    ∃ i, columnIndex schema name = some i := by
  rw [← Option.ne_none_iff_exists', Ne, columnIndex_eq_none, not_not]
  exact h

theorem concat_schema {batches : List (RecordBatch V)} {schema : List Field}
    (h : ∀ b ∈ batches, b.schema = schema) :
    ∃ b, concatBatches schema batches = .ok b ∧ b.schema = schema := by
  obtain ⟨b, hrun, hb, -⟩ := Produces.concat (fun b hb => by rw [h b hb])
    (fun b hb row hrow => h b hb ▸ b.valid row hrow)
  exact ⟨b, hrun, hb⟩

theorem finish_none (h : relevanceScore ∈ names b.schema) (request : HybridRequest V) :
    ∃ result, finish request none b = .ok result := by
  have hsch : (if request.limit.getD defaultTopK < b.rows.length then
      b.slice (request.limit.getD defaultTopK) else b).schema = b.schema := by
    split_ifs <;> rfl
  simp only [finish]
  cases request.withRowId with
  | true => exact ⟨_, rfl⟩
  | false => exact ⟨_, dropColumn_of_ne (hsch ▸ h) (by decide)⟩

variable [DecidableEq B] {encode : List (Cell V) → B} {sort : Fusion.Sorter}
  {request : HybridRequest V}

/-- **Legs of one layout are combined.** -/
theorem combine_of_layout (l : Layout) {query : String}
    (hquery : request.fullTextSearch = some query) (hrr : request.reranker = none)
    {ftsBatches vecBatches : List (RecordBatch V)}
    (hschs : querySchemas ftsBatches vecBatches = (l.fts, l.vector))
    (hfts : ∀ b ∈ ftsBatches, b.schema = l.fts) (hvec : ∀ b ∈ vecBatches, b.schema = l.vector) :
    ∃ result, combine encode sort request none ftsBatches vecBatches = .ok result := by
  obtain ⟨fts, hftsRun, hftsSchema⟩ := concat_schema hfts
  obtain ⟨vec, hvecRun, hvecSchema⟩ := concat_schema hvec
  obtain ⟨vec', fts', hnorm, hvec', hfts'⟩ := normalizeLegs_schema request.norm
    (l.isScore hvecSchema l.distance_fresh) (l.isScore hftsSchema l.score_fresh)
  obtain ⟨i, hstk⟩ := l.stackable (hvec'.trans hvecSchema) (hfts'.trans hftsSchema)
  obtain ⟨results, hrerank, hress, -⟩ := rerank_produces defaultK sort hstk
  have hrel : relevanceScore ∈ names results.schema := by rw [hress]; simp [names]
  obtain ⟨j, hj⟩ := columnIndex_mem hrel
  have hchk : checkRerankerResult results = .ok () := by rw [checkRerankerResult, hj]
  obtain ⟨result, hfin⟩ := finish_none hrel request
  refine ⟨result, ?_⟩
  simp [combine, rerankLegs, hschs, hftsRun, hvecRun, hnorm, hquery, hrr, hrerank,
    hchk, hfin, bind, Except.bind, pure, Except.pure]

theorem normalizeLegs_missing (norm : Option NormalizeMethod) {vec : RecordBatch V}
    (fts : RecordBatch V) (h : distCol ∉ names vec.schema) :
    normalizeLegs norm vec fts = .error (.invalidInput
      ("expected column " ++ distCol ++ " not found in rank. found columns " ++
        debugNames vec.schema)) := by
  have hmiss : ∀ f, mapScores f vec distCol = .error (.invalidInput
      ("expected column " ++ distCol ++ " not found in rank. found columns " ++
        debugNames vec.schema)) := by
    intro f
    rw [mapScores, columnIndex_eq_none.2 h]
  by_cases hrank : norm = some .rank
  · simp [normalizeLegs, hrank, rank, hmiss, bind, Except.bind]
  · simp [normalizeLegs, hrank, normalizeScores, hmiss, bind, Except.bind, pure, Except.pure]

/-- A vector leg that returned no batch, beside a full-text leg that did. -/
theorem combine_vector_empty (l : Layout) {ftsBatches : List (RecordBatch V)}
    (hne : ftsBatches ≠ []) (hfts : ∀ b ∈ ftsBatches, b.schema = l.fts) :
    combine encode sort request none ftsBatches [] = .error (.invalidInput
      ("expected column " ++ distCol ++ " not found in rank. found columns " ++
        debugNames l.fts)) := by
  obtain ⟨b, batches, rfl⟩ := exists_cons_of_ne_nil hne
  have hschs : querySchemas (b :: batches) ([] : List (RecordBatch V)) = (l.fts, l.fts) := by
    simp [querySchemas, hfts b mem_cons_self, l.withFieldNameReplaced_fts]
  obtain ⟨fts, hftsRun, -⟩ := concat_schema hfts
  have hvecs : ∀ b ∈ ([] : List (RecordBatch V)), b.schema = l.fts := by simp
  obtain ⟨vec, hvecRun, hvec⟩ := concat_schema hvecs
  have hnorm := normalizeLegs_missing request.norm fts (hvec ▸ l.distance_not_mem_fts)
  rw [hvec] at hnorm
  simp [combine, rerankLegs, hschs, hftsRun, hvecRun, hnorm, bind, Except.bind, pure,
    Except.pure]

/-- **The combination step fails exactly when the vector leg alone is empty.**  With legs whose
batches have the selected columns, the row id and their own score, any normalization and the default
reranker, the step returns a result, and the schemas have `_score` and `_distance`, unless the
full-text leg returned a batch and the vector leg returned none. -/
theorem combine_ok_iff (l : Layout) {query : String}
    (hquery : request.fullTextSearch = some query) (hreranker : request.reranker = none)
    {ftsBatches vecBatches : List (RecordBatch V)} (hfts : ∀ b ∈ ftsBatches, b.schema = l.fts)
    (hvec : ∀ b ∈ vecBatches, b.schema = l.vector) :
    ((∃ result, combine encode sort request none ftsBatches vecBatches = .ok result) ∧
      scoreCol ∈ names (querySchemas ftsBatches vecBatches).1 ∧
      distCol ∈ names (querySchemas ftsBatches vecBatches).2) ↔
      ftsBatches = [] ∨ vecBatches ≠ [] := by
  have hns : ∀ l : Layout, scoreCol ∈ names l.fts ∧ distCol ∈ names l.vector := fun l => by
    simp [names, Layout.fts, Layout.vector, Layout.schema]
  cases vecBatches with
  | cons v vecBatches =>
    simp only [ne_eq, reduceCtorEq, not_false_eq_true, or_true, iff_true]
    have hschs : querySchemas ftsBatches (v :: vecBatches) = (l.fts, l.vector) := by
      cases ftsBatches with
      | nil => simp [querySchemas, hvec v mem_cons_self, l.withFieldNameReplaced_vector]
      | cons f ftsBatches =>
        simp [querySchemas, hvec v mem_cons_self, hfts f mem_cons_self]
    rw [hschs]
    exact ⟨combine_of_layout l hquery hreranker hschs hfts hvec, hns l⟩
  | nil =>
    cases ftsBatches with
    | nil =>
      simp only [true_or, iff_true]
      have hschs : querySchemas ([] : List (RecordBatch V)) [] =
          (Layout.empty.fts, Layout.empty.vector) := rfl
      rw [hschs]
      exact ⟨combine_of_layout Layout.empty hquery hreranker hschs (by simp) (by simp),
        hns Layout.empty⟩
    | cons f ftsBatches =>
      rw [combine_vector_empty l (by simp) hfts]
      simp

/-- The legs of a query, of which the full-text leg is empty. -/
theorem combine_fts_empty :
    ∃ result, combine (fun key => key) .stable
      (⟨some "lance", some .rank, none, none, false⟩ : HybridRequest Unit) none []
      [(idLegs [7] []).vector] = .ok result :=
  ((combine_ok_iff (idLegs [7] []).layout rfl rfl (by simp)
    (by simp [(idLegs [7] []).vector_schema])).2 (.inr (by simp))).1

/-- The legs of a query, of which the vector leg is empty. -/
theorem combine_vector_empty_fails :
    combine (fun key => key) .stable
      (⟨some "lance", none, none, none, false⟩ : HybridRequest Unit) none
      [(idLegs [] [7]).fts] [] = .error (.invalidInput
        "expected column _distance not found in rank. found columns [\"_score\", \"_rowid\"]") := by
  rw [combine_vector_empty (idLegs [] [7]).layout (by simp) (by simp [(idLegs [] [7]).fts_schema])]
  refine congrArg (Except.error ∘ Error.invalidInput) ?_
  decide +kernel

end LanceDB.Hybrid
