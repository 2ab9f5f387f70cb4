import LanceDB.Hybrid.Combine

/-!
# Combining projections

A leg is seen here as a projection of its hits: every column of its batches is a function of the
hit, those of the selection, the score and the join column alike.  Every step of the combination
maps projections to projections, so a whole run is a projection of a fusion (`LanceDB.Base.Fusion`).

* `Output`, `project` : columns that are functions of the row, and the batches they give.
* `bareLeg`, `codedLeg` : legs without and with a join column.
* `rerankLegs_codedLeg` — legs with a join column give a projection of their fusion.
* `stamp_bareLeg` — stamping gives both legs one join column, made from the key.
* `combine_legs`, `combine_legs_missing`, `combine_empty` — the batches of both legs.
-/

namespace LanceDB.Hybrid

open RecordBatch List Function Except

variable {H H' Row E V B : Type}
variable {name : String}

/-! ### Projections -/

/-- A column that is a function of the row. -/
structure Output (H V : Type) where
  field : Field
  value : H → Cell V
  admits : ∀ h, field.admits (value h) = true

namespace Output

/-- The same column under another name. -/
def rename (o : Output H V) (name : String) : Output H V where
  field := { o.field with name }
  value := o.value
  admits := o.admits

/-- The same column, of the row that something belongs to. -/
def comap (o : Output H V) (g : H' → H) : Output H' V := ⟨o.field, fun h => o.value (g h),
  fun h => o.admits (g h)⟩

end Output

/-- The fields of some columns. -/
def fields (outs : List (Output H V)) : List Field := outs.map Output.field

/-- The values of a row in some columns. -/
def values (outs : List (Output H V)) (h : H) : List (Cell V) := outs.map fun o => o.value h

section

variable {outs : List (Output H V)} {hs : List H} {h : H} {o : Output H V}

theorem fits_values : fits (fields outs) (values outs h) = true := by
  induction outs with
  | nil => rfl
  | cons o outs ih => simp [fields, values, fits, o.admits h] at ih ⊢; exact ih

/-- The batch of some rows. -/
def project (outs : List (Output H V)) (hs : List H) : RecordBatch V where
  schema := fields outs
  rows := hs.map (values outs)
  valid row hrow := by
    obtain ⟨h, -, rfl⟩ := mem_map.1 hrow
    exact fits_values

theorem concat_project (batches : List (List H)) :
    concatBatches (fields outs) (batches.map (project outs)) =
      .ok (project outs batches.flatten) := by
  refine (Produces.concat (fun b hb => ?_) fun b hb => ?_).eq ⟨_, rfl, rfl, ?_⟩
  · obtain ⟨hs, -, rfl⟩ := mem_map.1 hb
    rfl
  · obtain ⟨hs, -, rfl⟩ := mem_map.1 hb
    exact (project outs hs).valid
  · simp only [project, map_flatten, flatMap_def, map_map]
    rfl

theorem keepCells_values (p : Field → Bool) :
    keepCells p (fields outs) (values outs h) = values (outs.filter fun o => p o.field) h := by
  induction outs with
  | nil => rfl
  | cons o outs ih =>
    by_cases hp : p o.field = true <;> simp [fields, values, keepCells, hp] at ih ⊢ <;> exact ih

theorem keepColumns_project (p : Field → Bool) :
    (project outs hs).keepColumns p = project (outs.filter fun o => p o.field) hs := by
  refine RecordBatch.ext ?_ ?_
  · simp [project, keepColumns, fields, filter_map, comp_def]
  · change (hs.map _).map _ = hs.map _
    rw [map_map]
    exact map_congr_left fun h _ => keepCells_values p

theorem limit_project (limit : ℕ) :
    (if limit < (project outs hs).rows.length then (project outs hs).slice limit
      else project outs hs) = project outs (hs.take limit) := by
  have hlen : (project outs hs).rows.length = hs.length := length_map ..
  split_ifs with h
  · exact RecordBatch.ext rfl (map_take ..).symm
  · rw [take_of_length_le (by omega)]

/-! ### Legs -/

/-- A row with the score its leg gave it. -/
abbrev Hit (Row : Type) := Row × Option ℚ

variable {hits : List (Hit Row)}

/-- The score column of a leg. -/
def scoreOutput (score : String) : Output (Hit Row) V where
  field := ⟨score, .float32, true⟩
  value h := .ofFloat? h.2
  admits h := by cases h.2 <;> rfl

/-- A join column. -/
def rowIdOutput (id : Row → ℕ) (nullable : Bool) : Output (Hit Row) V where
  field := ⟨rowId, .uint64, nullable⟩
  value h := .uint64 (id h.1)
  admits _ := rfl

/-- The columns of a leg: the selection, the score, and what follows. -/
def legOutputs (outs : List (Output Row V)) (tail : List (Output (Hit Row) V)) (score : String) :
    List (Output (Hit Row) V) :=
  outs.map (·.comap Prod.fst) ++ scoreOutput score :: tail

/-- A leg without a join column. -/
def bareLeg (outs : List (Output Row V)) (score : String) (hits : List (Hit Row)) : RecordBatch V :=
  project (legOutputs outs [] score) hits

/-- A leg with a join column. -/
def codedLeg (outs : List (Output Row V)) (id : Row → ℕ) (nullable : Bool) (score : String)
    (hits : List (Hit Row)) : RecordBatch V :=
  project (legOutputs outs [rowIdOutput id nullable] score) hits

/-- The names of the columns that a hybrid query adds. -/
def reserved : List String := [rowId, scoreCol, distCol, relevanceScore]

/-- No column of a selection has the name of a column that the query adds. -/
def Free (outs : List (Output Row V)) : Prop := ∀ o ∈ outs, o.field.name ∉ reserved

/-! ### What becomes of the scores of a projection -/

/-- Hits with other scores. -/
def rescore (f : List (Option ℚ) → List (Option ℚ)) (hits : List (Hit Row)) : List (Hit Row) :=
  List.zipWith (fun h c => (h.1, c)) hits (f (hits.map Prod.snd))

/-- The hits of a leg after normalization. -/
def normalizeHits (norm : Option NormalizeMethod) (hits : List (Hit Row)) : List (Hit Row) :=
  rescore (normalized false)
    (if norm = some .rank then
      rescore (fun scores => (arrowRank false scores).map fun r : ℕ => some (r : ℚ)) hits
    else hits)

theorem map_fst_rescore {f : List (Option ℚ) → List (Option ℚ)} (hf : KeepsScores f) :
    (rescore f hits).map Prod.fst = hits.map Prod.fst := by
  have hlen : hits.length ≤ (f (hits.map Prod.snd)).length := by
    rw [hf.length, length_map]
  rw [rescore, map_zipWith]
  generalize f (hits.map Prod.snd) = scores at hlen
  induction hits generalizing scores with
  | nil => rfl
  | cons h hits ih =>
    cases scores with
    | nil => simp at hlen
    | cons c scores => simp [ih scores (by simpa using hlen)]

theorem map_fst_normalizeHits (norm : Option NormalizeMethod) :
    (normalizeHits norm hits).map Prod.fst = hits.map Prod.fst := by
  rw [normalizeHits, map_fst_rescore (keepsScores_normalized false)]
  split_ifs
  · exact map_fst_rescore (keepsScores_rank false)
  · rfl

theorem names_fields : names (fields outs) = outs.map fun o => o.field.name := by
  simp [names, fields]

theorem names_of_mapM {α : Type} {f : α → Except Error (Output H V)} {g : α → String}
    (hn : ∀ a o, f a = .ok o → o.field.name = g a) {l : List α} (h : l.mapM f = .ok outs) :
    names (fields outs) = l.map g := by
  have hall := mapM_eq_ok_iff.1 h
  clear h
  induction hall with
  | nil => rfl
  | cons ha _ ih => simp [names, fields] at ih ⊢; exact ⟨hn _ _ ha, ih⟩

theorem name_of_rename {x : Except Error (Output H V)} (h : x.map (·.rename name) = .ok o) :
    o.field.name = name := by
  cases x with
  | error e => cases h
  | ok o' => cases h; rfl

/-- The column of a name. -/
def findColumn (columns : List (Output H V)) (name : String) : Except Error (Output H V) :=
  match columns.find? fun o => o.field.name == name with
  | some o => .ok o
  | none => .error (.schema ("no field named " ++ name))

theorem find_of_findColumn {columns : List (Output H V)} (h : findColumn columns name = .ok o) :
    columns.find? (fun o => o.field.name == name) = some o := by
  unfold findColumn at h
  split at h
  · cases h
    assumption
  · cases h

theorem name_of_findColumn {columns : List (Output H V)} (h : findColumn columns name = .ok o) :
    o.field.name = name := by
  simpa using find?_some (find_of_findColumn h)

theorem columnIndex_of_find (h : outs.find? (fun o => o.field.name == name) = some o) :
    ∃ i, columnIndex (fields outs) name = some i ∧ outs[i]? = some o := by
  induction outs with
  | nil => cases h
  | cons p outs ih =>
    by_cases hn : p.field.name = name
    · obtain rfl : p = o := by simpa [hn] using h
      exact ⟨0, by rw [fields, map_cons, columnIndex_cons_self hn], rfl⟩
    · obtain ⟨i, hi, ho⟩ := ih (by simpa [hn] using h)
      refine ⟨i + 1, ?_, by simpa using ho⟩
      rw [fields, map_cons, columnIndex_cons_of_ne hn, ← fields, hi]
      rfl

theorem getD_values {i : ℕ} (h : outs[i]? = some o) (row : H) :
    (values outs row).getD i .null = o.value row := by
  simp [values, h]

theorem length_values (outs : List (Output H V)) (h : H) : (values outs h).length = outs.length :=
  length_map ..

theorem length_fields : (fields outs).length = outs.length :=
  length_map ..

end

variable {outs : List (Output Row V)} {tail : List (Output (Hit Row) V)} {id : Row → ℕ}
  {norm : Option NormalizeMethod}
  {nullable : Bool} {score query : String} {limit : Option ℕ} {fusion : Option PkFusion}
  {results : RecordBatch V}

theorem fields_comap (g : H → Row) : fields (outs.map (·.comap g)) = fields outs := by
  simp [fields, Output.comap]

theorem values_comap (g : H → Row) (h : H) :
    values (outs.map (·.comap g)) h = values outs (g h) := by
  simp [values, Output.comap]

theorem free_iff : Free outs ↔ ∀ name ∈ reserved, name ∉ names (fields outs) := by
  rw [names_fields]
  refine ⟨fun h name hn hmem => ?_, fun h o ho hn => h _ hn (mem_map_of_mem ho)⟩
  obtain ⟨o, ho, rfl⟩ := mem_map.1 hmem
  exact h o ho hn

theorem Free.not_mem (h : Free outs) (hn : name ∈ reserved) :
    name ∉ names (fields outs) := free_iff.1 h name hn

theorem fields_legOutputs :
    fields (legOutputs outs tail score) =
      fields outs ++ ⟨score, .float32, true⟩ :: fields tail := by
  rw [legOutputs, fields, map_append, ← fields, fields_comap]
  rfl

theorem values_legOutputs (h : Hit Row) :
    values (legOutputs outs tail score) h = values outs h.1 ++ .ofFloat? h.2 :: values tail h := by
  rw [legOutputs, values, map_append, ← values, values_comap]
  rfl

theorem codedLeg_schema :
    (codedLeg outs id nullable score hits).schema =
      fields outs ++ [⟨score, .float32, true⟩, ⟨rowId, .uint64, nullable⟩] :=
  fields_legOutputs

theorem codedLeg_rows :
    (codedLeg outs id nullable score hits).rows =
      hits.map fun h => values outs h.1 ++ [.ofFloat? h.2, .uint64 (id h.1)] :=
  map_congr_left fun _ _ => values_legOutputs _

theorem codedLeg_isScore (hsc : score ∉ names (fields outs)) :
    IsScore (codedLeg outs id nullable score hits) score outs.length := by
  refine ⟨?_, score, true, ?_⟩
  · rw [codedLeg_schema, columnIndex_append hsc, columnIndex_cons_self rfl, Option.map_some,
      Nat.zero_add, length_fields]
  · rw [codedLeg_schema, getElem?_append_right (by rw [length_fields]), length_fields,
      Nat.sub_self]
    rfl

theorem mapScores_codedLeg {f : List (Option ℚ) → List (Option ℚ)} (hf : KeepsScores f)
    (hsc : score ∉ names (fields outs)) :
    mapScores f (codedLeg outs id nullable score hits) score =
      .ok (codedLeg outs id nullable score (rescore f hits)) := by
  refine (mapScores_produces hf (codedLeg_isScore hsc)).eq ⟨_, rfl, ?_, ?_⟩
  · rw [codedLeg_schema, codedLeg_schema]
  · have hscores : ((codedLeg outs id nullable score hits).column outs.length).map Cell.float? =
        hits.map Prod.snd := by
      rw [column, codedLeg_rows, map_map, map_map]
      refine map_congr_left fun h _ => ?_
      have hcell : (values outs h.1 ++ [Cell.ofFloat? h.2, .uint64 (id h.1)]).getD outs.length
          .null = .ofFloat? h.2 := by
        rw [getD_eq_getElem?_getD, getElem?_append_right (by rw [length_values]),
          length_values, Nat.sub_self]
        rfl
      rw [comp_apply, comp_apply, hcell]
      cases h.2 <;> rfl
    rw [hscores, codedLeg_rows, codedLeg_rows, rescore, map_zipWith, zipWith_map_left]
    refine congrArg (fun g => List.zipWith g hits _) (funext fun h => funext fun c => ?_)
    rw [← length_values outs h.1, set_append_right _ _ le_rfl]
    simp

/-- **Normalizing two legs normalizes their hits.** -/
theorem normalizeLegs_codedLeg (id : Row → ℕ) (nullable : Bool) (norm : Option NormalizeMethod)
    (hf : Free outs) (v f : List (Hit Row)) :
    normalizeLegs norm (codedLeg outs id nullable distCol v)
        (codedLeg outs id nullable scoreCol f) =
      .ok (codedLeg outs id nullable distCol (normalizeHits norm v),
        codedLeg outs id nullable scoreCol (normalizeHits norm f)) := by
  have hdist : distCol ∉ names (fields outs) := hf.not_mem (by simp [reserved])
  have hsc : scoreCol ∉ names (fields outs) := hf.not_mem (by simp [reserved])
  have hnorm := keepsScores_normalized false
  by_cases hrank : norm = some .rank
  · simp [normalizeLegs, normalizeHits, hrank, rank, normalizeScores,
      mapScores_codedLeg (keepsScores_rank false) hdist,
      mapScores_codedLeg (keepsScores_rank false) hsc, mapScores_codedLeg hnorm hdist,
      mapScores_codedLeg hnorm hsc, bind, Except.bind, pure, Except.pure]
  · simp [normalizeLegs, normalizeHits, hrank, normalizeScores,
      mapScores_codedLeg hnorm hdist, mapScores_codedLeg hnorm hsc, bind, Except.bind,
      pure, Except.pure]

/-! ### Reranking projections -/

/-- The relevance score of a fused hit. -/
def relevanceOutput : Output (Hit Row × ℚ) V where
  field := ⟨relevanceScore, .float32, false⟩
  value p := .float32 p.2
  admits _ := rfl

/-- The columns after reranking. -/
def rankedOutputs (outs : List (Output Row V)) (id : Row → ℕ) (nullable : Bool) :
    List (Output (Hit Row × ℚ) V) :=
  outs.map (·.comap fun p => p.1.1) ++ [(scoreOutput scoreCol).comap Prod.fst,
    (rowIdOutput id nullable).comap Prod.fst, relevanceOutput]

/-- The columns of the results. -/
def answerOutputs (outs : List (Output Row V)) : List (Output (Hit Row × ℚ) V) :=
  outs.map (·.comap fun p => p.1.1) ++ [(scoreOutput scoreCol).comap Prod.fst, relevanceOutput]

theorem rowIdAt_codedLeg (h : Hit Row) :
    rowIdAt (outs.length + 1) (values outs h.1 ++ [.ofFloat? h.2, .uint64 (id h.1)]) = id h.1 := by
  rw [rowIdAt, getD_eq_getElem?_getD, getElem?_append_right (by rw [length_values]; omega),
    length_values, Nat.add_sub_cancel_left]
  rfl

theorem codedLeg_stackable (hf : Free outs) (v f : List (Hit Row)) :
    Stackable (outs.length + 1) (codedLeg outs id nullable distCol v)
      (codedLeg outs id nullable scoreCol f) := by
  have hidx : ∀ (score : String) (hits : List (Hit Row)), score ≠ rowId →
      columnIndex (codedLeg outs id nullable score hits).schema rowId = some (outs.length + 1) := by
    intro score hits hne
    rw [codedLeg_schema, columnIndex_append (hf.not_mem (by simp [reserved])),
      columnIndex_cons_of_ne hne, columnIndex_cons_self rfl, length_fields]
    simp [Nat.add_comm]
  refine ⟨?_, fun row hrow => ?_, hidx _ v (by decide), hidx _ f (by decide), ?_⟩
  · simp [codedLeg_schema, types]
  · -- the rows do not depend on the name of the score
    have hfits := (codedLeg outs id nullable scoreCol v).valid row (by
      rwa [codedLeg_rows] at hrow ⊢)
    rwa [codedLeg_schema] at hfits ⊢
  · rw [codedLeg_schema, getElem?_append_right (by rw [length_fields]; omega), length_fields,
      Nat.add_sub_cancel_left]
    rfl

/-- **Reranking two legs fuses their hits.** -/
theorem rerank_codedLeg (id : Row → ℕ) (nullable : Bool) (k : ℚ) (sort : Fusion.Sorter)
    (hf : Free outs) (v f : List (Hit Row)) :
    rerankHybrid k sort (codedLeg outs id nullable distCol v)
        (codedLeg outs id nullable scoreCol f) =
      .ok (project (rankedOutputs outs id nullable)
        (Fusion.fuse sort 0 k (fun h => id h.1) v f)) := by
  refine (rerank_produces k sort (codedLeg_stackable hf v f)).eq ⟨_, rfl, ?_, ?_⟩
  · change fields _ = _
    rw [codedLeg_schema, rankedOutputs, fields, map_append, ← fields, fields_comap,
      append_assoc]
    rfl
  · have hid : (fun h : Hit Row => rowIdAt (outs.length + 1)
        (values outs h.1 ++ [.ofFloat? h.2, .uint64 (id h.1)])) = fun h => id h.1 :=
      funext rowIdAt_codedLeg
    rw [codedLeg_rows, codedLeg_rows, Fusion.fuse_map, hid, map_map]
    refine map_congr_left fun p _ => ?_
    rw [rankedOutputs, values, map_append, ← values, values_comap, comp_apply,
      append_assoc]
    rfl

/-- What is left of the columns when those that were added are dropped. -/
theorem filter_rankedOutputs (id : Row → ℕ) (nullable : Bool) {p : Field → Bool}
    {extra : List (Output Row V)}
    (ho : ∀ o ∈ outs, p o.field = true) (hex : ∀ o ∈ extra, p o.field = false)
    (hsc : p ⟨scoreCol, .float32, true⟩ = true) (hrowId : p ⟨rowId, .uint64, nullable⟩ = false)
    (hrel : p ⟨relevanceScore, .float32, false⟩ = true) :
    (rankedOutputs (outs ++ extra) id nullable).filter (fun o => p o.field) =
      answerOutputs outs := by
  have hkeep : (outs.map (·.comap fun q : Hit Row × ℚ => q.1.1)).filter (fun o => p o.field) =
      outs.map (·.comap fun q => q.1.1) :=
    filter_eq_self.2 (by simpa [Output.comap] using ho)
  have hd : (extra.map (·.comap fun q : Hit Row × ℚ => q.1.1)).filter (fun o => p o.field) =
      [] :=
    filter_eq_nil_iff.2 (by simpa [Output.comap] using hex)
  rw [rankedOutputs, map_append, filter_append, filter_append, hkeep, hd]
  simp [answerOutputs, Output.comap, scoreOutput, rowIdOutput, relevanceOutput, hsc, hrowId,
    hrel]

/-- The fused hits of two legs. -/
def fused (sort : Fusion.Sorter) (norm : Option NormalizeMethod) (id : Row → ℕ)
    (v f : List (Hit Row)) : List (Hit Row × ℚ) :=
  Fusion.fuse sort 0 defaultK (fun h => id h.1) (normalizeHits norm v) (normalizeHits norm f)

/-- A query with the default reranker that does not ask for row ids. -/
def request (query : String) (norm : Option NormalizeMethod) (limit : Option ℕ) :
    HybridRequest V := ⟨some query, norm, limit, none, false⟩

/-- What a fusion drops from the results; without one it is the row id. -/
def dropped (fusion : Option PkFusion) : List String :=
  rowId :: (fusion.map PkFusion.injected).getD []

theorem finish_eq (hmem : relevanceScore ∈ names results.schema)
    (hk : relevanceScore ∉ dropped fusion) :
    finish (request query norm limit) fusion results =
      .ok ((if limit.getD defaultTopK < results.rows.length then
        results.slice (limit.getD defaultTopK) else results).keepColumns
          fun f => decide (f.name ∉ dropped fusion)) := by
  have hcut : relevanceScore ∈ names (if limit.getD defaultTopK < results.rows.length then
      results.slice (limit.getD defaultTopK) else results).schema := by
    split_ifs <;> exact hmem
  cases fusion with
  | none =>
    refine (dropColumn_of_ne hcut (by decide)).trans ?_
    refine congrArg (ok ∘ RecordBatch.keepColumns _) (funext fun f => ?_)
    grind [dropped]
  | some fusion => exact fusion.strip_eq hcut hk

/-- **What is made of two legs with a join column**: a projection of their fusion, if what is
dropped is the join column and the columns that were added. -/
theorem rerankLegs_codedLeg (id : Row → ℕ) (nullable : Bool) (sort : Fusion.Sorter)
    (query : String) (norm : Option NormalizeMethod) (limit : Option ℕ) (fusion : Option PkFusion)
    {extra : List (Output Row V)} (hf : Free (outs ++ extra))
    (ho : ∀ o ∈ outs, o.field.name ∉ dropped fusion)
    (hex : ∀ o ∈ extra, o.field.name ∈ dropped fusion) (hsc : scoreCol ∉ dropped fusion)
    (hrel : relevanceScore ∉ dropped fusion) (v f : List (Hit Row)) :
    rerankLegs sort (request query norm limit) fusion
        (codedLeg (outs ++ extra) id nullable distCol v)
        (codedLeg (outs ++ extra) id nullable scoreCol f) =
      .ok (project (answerOutputs outs)
        ((fused sort norm id v f).take (limit.getD defaultTopK))) := by
  have hnorm : normalizeLegs (request (V := V) query norm limit).norm _ _ = _ :=
    normalizeLegs_codedLeg id nullable norm hf v f
  have hrerank := rerank_codedLeg id nullable defaultK sort hf (normalizeHits norm v)
    (normalizeHits norm f)
  have hmem : relevanceScore ∈ names (fields (rankedOutputs (outs ++ extra) id nullable)) := by
    simp [names, fields, rankedOutputs, relevanceOutput]
  have hchk : checkRerankerResult (project (rankedOutputs (outs ++ extra) id nullable)
      (fused sort norm id v f)) = .ok () := by
    obtain ⟨j, hj⟩ := columnIndex_mem hmem
    rw [checkRerankerResult, project, hj]
  have hfin : finish (request query norm limit) fusion (project
      (rankedOutputs (outs ++ extra) id nullable) (fused sort norm id v f)) =
      .ok (project (answerOutputs outs)
        ((fused sort norm id v f).take (limit.getD defaultTopK))) := by
    have hfilter := filter_rankedOutputs id nullable
      (p := fun f => decide (f.name ∉ dropped fusion)) (by simpa using ho)
      (by simpa using hex) (by simpa using hsc) (by simp [dropped]) (by simpa using hrel)
    rw [finish_eq hmem hrel, limit_project, keepColumns_project, hfilter]
  rw [rerankLegs, hnorm]
  change (do
    let results ← rerankHybrid defaultK sort _ _
    checkRerankerResult results
    finish (request query norm limit) fusion results) = _
  rw [hrerank]
  change (do
    checkRerankerResult (project _ (fused sort norm id v f))
    finish _ _ (project _ (fused sort norm id v f))) = _
  rw [hchk]
  exact hfin

/-! ### Stamping projections -/

/-- The values a row has in the outputs of these names. -/
def keyValues (outs : List (Output Row V)) (pk : List String) (row : Row) : List (Cell V) :=
  pk.map fun name => (values outs row).getD ((columnIndex (fields outs) name).getD 0) .null

theorem bareLeg_schema :
    (bareLeg outs score hits).schema = fields outs ++ [⟨score, .float32, true⟩] :=
  fields_legOutputs

theorem bareLeg_rows :
    (bareLeg outs score hits).rows = hits.map fun h => values outs h.1 ++ [.ofFloat? h.2] :=
  map_congr_left fun _ _ => values_legOutputs _

theorem columnIndex_append_left {fs gs : List Field} (h : name ∈ names fs) :
    columnIndex (fs ++ gs) name = columnIndex fs name := by
  obtain ⟨i, hi⟩ := columnIndex_mem h
  rw [columnIndex, findIdx?_append, ← columnIndex, hi]
  rfl

theorem columnIndex_lt {fs : List Field} {i : ℕ} (h : columnIndex fs name = some i) :
    i < fs.length := by
  obtain ⟨f, hf, -⟩ := columnIndex_spec h
  exact (List.getElem?_eq_some_iff.1 hf).1

theorem keyIndices_bareLeg {pk : List String} (hpk : ∀ name ∈ pk, name ∈ names (fields outs)) :
    keyIndices pk (bareLeg outs score hits) =
      .ok (pk.map fun name => (columnIndex (fields outs) name).getD 0) := by
  rw [keyIndices, mapM_eq_ok_iff, forall₂_map_right_iff]
  refine forall₂_same.2 fun name hn => ?_
  obtain ⟨i, hi⟩ := columnIndex_mem (hpk name hn)
  rw [bareLeg_schema, columnIndex_append_left (hpk name hn), hi]
  rfl

theorem keyValues_bareLeg {pk : List String} (hpk : ∀ name ∈ pk, name ∈ names (fields outs))
    (h : Hit Row) :
    (pk.map fun name => (columnIndex (fields outs) name).getD 0).map
        (fun i => (values outs h.1 ++ [Cell.ofFloat? h.2]).getD i .null) =
      keyValues outs pk h.1 := by
  rw [map_map]
  refine map_congr_left fun name hn => ?_
  obtain ⟨i, hi⟩ := columnIndex_mem (hpk name hn)
  have hlt : i < (values outs h.1).length := by
    rw [length_values, ← length_fields]
    exact columnIndex_lt hi
  simp [hi, getElem?_append_left hlt]

variable [DecidableEq B] {encode : List (Cell V) → B} {pk : List String}

/-- The surrogates of a leg: the keys seen grow at the end, and the surrogate of a row is the place
of its key among them. -/
theorem surrogateIds_bareLeg (encode : List (Cell V) → B)
    (hpk : ∀ name ∈ pk, name ∈ names (fields outs)) (seen : List B) (hits : List (Hit Row)) :
    ∃ new, surrogateIds encode pk seen (bareLeg outs score hits) = .ok (seen ++ new,
        hits.map fun h => (seen ++ new).idxOf (encode (keyValues outs pk h.1))) ∧
      ∀ h ∈ hits, encode (keyValues outs pk h.1) ∈ seen ++ new := by
  by_cases hemp : hits = []
  · subst hemp
    exact ⟨[], by simp [surrogateIds, bareLeg_rows], by simp⟩
  · obtain ⟨new, hseen, hmem, hids⟩ := assignIds_spec seen
      (hits.map fun h => encode (keyValues outs pk h.1))
    refine ⟨new, ?_, fun h hh => (hmem _).2 (.inr (mem_map_of_mem hh))⟩
    have hkeys : ((bareLeg outs score hits).rows.map fun row => encode
        ((pk.map fun name => (columnIndex (fields outs) name).getD 0).map
          fun i => row.getD i .null)) = hits.map fun h => encode (keyValues outs pk h.1) := by
      rw [bareLeg_rows, map_map]
      exact map_congr_left fun h _ => congrArg encode (keyValues_bareLeg hpk h)
    have hr : (bareLeg outs score hits).rows.isEmpty = false := by
      simpa [bareLeg_rows] using hemp
    rw [surrogateIds, hr, keyIndices_bareLeg hpk]
    change ok (assignIds seen ((bareLeg outs score hits).rows.map fun row => encode
      ((pk.map fun name => (columnIndex (fields outs) name).getD 0).map
        fun i => row.getD i .null))) = _
    rw [hkeys]
    exact congrArg ok (Prod.ext hseen (hids.trans (map_map ..)))

theorem rowId_not_mem_bareLeg (hf : Free outs) (hsc : score ≠ rowId) :
    rowId ∉ names (bareLeg outs score hits).schema := by
  have hrowId : rowId ∉ names (fields outs) := hf.not_mem (by simp [reserved])
  rw [bareLeg_schema, names, map_append, mem_append, not_or]
  exact ⟨hrowId, by simpa using hsc.symm⟩

theorem tryWithColumn_bareLeg (id : Row → ℕ) (hf : Free outs) (hsc : score ≠ rowId)
    (hits : List (Hit Row)) :
    (bareLeg outs score hits).tryWithColumn ⟨rowId, .uint64, false⟩
        ((hits.map fun h => id h.1).map .uint64) =
      .ok (codedLeg outs id false score hits) := by
  have hr : List.zipWith (fun row c => row ++ [c]) (bareLeg outs score hits).rows
      ((hits.map fun h => id h.1).map .uint64) = (codedLeg outs id false score hits).rows := by
    rw [bareLeg_rows, codedLeg_rows, map_map, zipWith_map, zipWith_self]
    simp
  have hsch : (bareLeg outs score hits).schema ++ [⟨rowId, .uint64, false⟩] =
      (codedLeg outs id false score hits).schema := by
    rw [bareLeg_schema, codedLeg_schema, append_assoc]
    rfl
  rw [tryWithColumn, if_neg (rowId_not_mem_bareLeg hf hsc), if_neg (by simp [bareLeg_rows]), hr,
    hsch]
  exact (Produces.tryNew (codedLeg outs id false score hits).valid).eq (.of_batch _)

/-- **Stamping a leg gives it a join column.** -/
theorem stampLeg_bareLeg (encode : List (Cell V) → B)
    (hpk : ∀ name ∈ pk, name ∈ names (fields outs)) (hf : Free outs) (hsc : score ≠ rowId)
    (seen : List B) (hits : List (Hit Row)) :
    ∃ new, stampLeg encode pk seen (bareLeg outs score hits) = .ok (seen ++ new,
        codedLeg outs (fun row => (seen ++ new).idxOf (encode (keyValues outs pk row))) false score
          hits) ∧
      ∀ h ∈ hits, encode (keyValues outs pk h.1) ∈ seen ++ new := by
  obtain ⟨new, hids, hmem⟩ := surrogateIds_bareLeg encode hpk seen hits
  refine ⟨new, ?_, hmem⟩
  have hcol := tryWithColumn_bareLeg
    (fun row => (seen ++ new).idxOf (encode (keyValues outs pk row))) hf hsc hits
  rw [stampLeg, hids]
  simp only [bind, Except.bind, pure, Except.pure, if_neg (rowId_not_mem_bareLeg hf hsc),
    hcol]

theorem codedLeg_congr {id id' : Row → ℕ} {hits : List (Hit Row)}
    (h : ∀ hit ∈ hits, id hit.1 = id' hit.1) :
    codedLeg outs id nullable score hits = codedLeg outs id' nullable score hits := by
  refine RecordBatch.ext ?_ ?_
  · rw [codedLeg_schema, codedLeg_schema]
  · rw [codedLeg_rows, codedLeg_rows]
    exact map_congr_left fun hit hhit => by rw [h hit hhit]

/-- **Stamping both legs gives them one join column**, which tells two rows apart exactly when their
keys are encoded differently. -/
theorem stamp_bareLeg (encode : List (Cell V) → B) (fusion : PkFusion) (hne : fusion.columns ≠ [])
    (hpk : ∀ name ∈ fusion.columns, name ∈ names (fields outs)) (hf : Free outs)
    {score' : String} (hsc : score ≠ rowId) (hsc' : score' ≠ rowId) (v f : List (Hit Row)) :
    ∃ id, fusion.stamp encode (bareLeg outs score v) (bareLeg outs score' f) =
        .ok (codedLeg outs id false score v, codedLeg outs id false score' f) ∧
      ∀ h ∈ v ++ f, ∀ h' ∈ v ++ f, id h.1 = id h'.1 ↔
        encode (keyValues outs fusion.columns h.1) =
          encode (keyValues outs fusion.columns h'.1) := by
  obtain ⟨seen, hvec, hseen⟩ := stampLeg_bareLeg encode hpk hf hsc [] v
  obtain ⟨new, hfts, hnew⟩ := stampLeg_bareLeg encode hpk hf hsc' seen f
  rw [nil_append] at hvec hseen
  set id : Row → ℕ := fun row => (seen ++ new).idxOf (encode (keyValues outs fusion.columns row))
    with hid
  have hmem : ∀ h ∈ v ++ f, encode (keyValues outs fusion.columns h.1) ∈ seen ++ new := by
    intro h hh
    rcases mem_append.1 hh with hh | hh
    · exact mem_append_left _ (hseen h hh)
    · exact hnew h hh
  -- the keys that the second leg adds come after those of the first
  have hfst : codedLeg outs
      (fun row => seen.idxOf (encode (keyValues outs fusion.columns row))) false score v =
      codedLeg outs id false score v :=
    codedLeg_congr fun h hh => (idxOf_append_of_mem (hseen h hh)).symm
  refine ⟨id, ?_, fun h hh h' hh' => ⟨fun heq => ?_, fun heq => by rw [hid]; simp only [heq]⟩⟩
  · have hcols : fusion.columns.isEmpty = false := by simpa using hne
    simp [PkFusion.stamp, hcols, hvec, hfst, hfts, bind, Except.bind, pure, Except.pure]
  · exact (idxOf_inj (hmem h hh)).1 heq

/-! ### Combining projections -/

theorem withFieldNameReplaced_leg (hdist : distCol ∉ names (fields outs)) :
    withFieldNameReplaced (fields (legOutputs outs tail distCol)) distCol scoreCol =
      fields (legOutputs outs tail scoreCol) := by
  rw [withFieldNameReplaced, fields_legOutputs, columnIndex_append hdist, columnIndex_cons_self rfl,
    fields_legOutputs]
  exact (congrArg (fun i => List.modify _ i _) (Nat.zero_add _)).trans
    (modify_length_append ..)

/-- The stamping step, if there is one. -/
def stampLegs (encode : List (Cell V) → B) (fusion : Option PkFusion)
    (legs : RecordBatch V × RecordBatch V) : Except Error (RecordBatch V × RecordBatch V) :=
  match fusion with
  | none => .ok legs
  | some fusion => fusion.stamp encode legs.1 legs.2

variable {sort : Fusion.Sorter} {req : HybridRequest V}

theorem combine_of_concat {ftsBatches vecBatches : List (RecordBatch V)} {fts vec : RecordBatch V}
    (hfts : concatBatches (querySchemas ftsBatches vecBatches).1 ftsBatches = .ok fts)
    (hvec : concatBatches (querySchemas ftsBatches vecBatches).2 vecBatches = .ok vec) :
    combine encode sort req fusion ftsBatches vecBatches =
      (stampLegs encode fusion (vec, fts)).bind fun legs =>
        rerankLegs sort req fusion legs.1 legs.2 := by
  simp only [combine, hfts, hvec, bind, Except.bind]
  cases fusion <;> rfl

theorem combine_legs (hdist : distCol ∉ names (fields outs)) (fts : List (List (Hit Row)))
    {vec : List (List (Hit Row))} (hvec : vec ≠ []) :
    combine encode sort req fusion (fts.map (project (legOutputs outs tail scoreCol)))
        (vec.map (project (legOutputs outs tail distCol))) =
      (stampLegs encode fusion (project (legOutputs outs tail distCol) vec.flatten,
        project (legOutputs outs tail scoreCol) fts.flatten)).bind fun legs =>
          rerankLegs sort req fusion legs.1 legs.2 := by
  obtain ⟨v, vec, rfl⟩ := exists_cons_of_ne_nil hvec
  have hschs : querySchemas (fts.map (project (legOutputs outs tail scoreCol)))
      ((v :: vec).map (project (legOutputs outs tail distCol))) =
      (fields (legOutputs outs tail scoreCol), fields (legOutputs outs tail distCol)) := by
    cases fts with
    | nil => exact Prod.ext (withFieldNameReplaced_leg hdist) rfl
    | cons f fts => rfl
  refine combine_of_concat ?_ ?_
  · rw [hschs]
    exact concat_project _
  · rw [hschs]
    exact concat_project _

/-- Legs of which only the vector leg has no batch: it gets the schema of the other one. -/
theorem combine_legs_missing (hdist : distCol ∉ names (fields (legOutputs outs tail scoreCol)))
    {fts : List (List (Hit Row))} (hfts : fts ≠ []) :
    combine encode sort req fusion (fts.map (project (legOutputs outs tail scoreCol))) [] =
      (stampLegs encode fusion (project (legOutputs outs tail scoreCol) [],
        project (legOutputs outs tail scoreCol) fts.flatten)).bind fun legs =>
          rerankLegs sort req fusion legs.1 legs.2 := by
  obtain ⟨f, fts, rfl⟩ := exists_cons_of_ne_nil hfts
  have hschs : querySchemas ((f :: fts).map (project (legOutputs outs tail scoreCol)))
      ([] : List (RecordBatch V)) =
      (fields (legOutputs outs tail scoreCol), fields (legOutputs outs tail scoreCol)) := by
    refine Prod.ext rfl ?_
    change withFieldNameReplaced (fields (legOutputs outs tail scoreCol)) distCol scoreCol = _
    rw [withFieldNameReplaced, columnIndex_eq_none.2 hdist]
  refine combine_of_concat ?_ ?_
  · rw [hschs]
    exact concat_project _
  · rw [hschs]
    exact concat_project ([] : List (List (Hit Row)))

theorem rerankLegs_missing {vec : RecordBatch V} (fts : RecordBatch V)
    (h : distCol ∉ names vec.schema) : (rerankLegs sort req fusion vec fts).toOption = none := by
  rw [rerankLegs, normalizeLegs_missing _ _ h]
  rfl

/-! ### Legs that are both empty -/

/-- A fusion that added no column of the results drops the row id only. -/
theorem finish_of_not_injected {fusion : PkFusion} {results : RecordBatch V}
    (hmem : relevanceScore ∈ names results.schema)
    (h : ∀ f ∈ results.schema, f.name ∉ fusion.injected) :
    finish (request query norm limit) (some fusion) results =
      finish (request query norm limit) none results := by
  set cut := if limit.getD defaultTopK < results.rows.length then
    results.slice (limit.getD defaultTopK) else results with hcut
  have hsch : cut.schema = results.schema := by
    rw [hcut]
    split_ifs <;> rfl
  have hall := (cut.keepColumns fun f => decide (f.name ∉ dropped none)).keepColumns_of_all
    (p := fun f => decide (f.name ∉ fusion.injected)) fun f hf => by
      have hf : f ∈ cut.schema := mem_of_mem_filter hf
      simpa using h f (hsch ▸ hf)
  obtain ⟨f, hf, hn⟩ := mem_map.1 hmem
  have hk : relevanceScore ∉ dropped (some fusion) := by
    simpa [dropped, ← hn, show f.name ≠ rowId by rw [hn]; decide] using h f hf
  rw [finish_eq hmem hk, finish_eq hmem (by decide), ← hcut, ← hall, keepColumns_keepColumns]
  refine congrArg (ok ∘ cut.keepColumns) (funext fun f => ?_)
  simp [dropped]

theorem concat_empty (schema : List Field) :
    concatBatches schema ([] : List (RecordBatch V)) = .ok (newEmpty schema) := by
  simp [concatBatches, tryNew, newEmpty]

theorem stamp_empty {fusion : PkFusion} (hne : fusion.columns ≠ []) :
    fusion.stamp encode (newEmpty emptyVecSchema : RecordBatch V) (newEmpty emptyFtsSchema) =
      .ok (newEmpty emptyVecSchema, newEmpty emptyFtsSchema) := by
  have hleg : ∀ (score : String) (seen : List B), score ≠ rowId →
      stampLeg encode fusion.columns seen
        (newEmpty [⟨score, .float32, false⟩, ⟨rowId, .uint64, false⟩] : RecordBatch V) =
      .ok (seen, newEmpty [⟨score, .float32, false⟩, ⟨rowId, .uint64, false⟩]) := by
    intro score seen hsc
    simp [stampLeg, surrogateIds, newEmpty, names, dropColumn, keepColumns, tryWithColumn, tryNew,
      hsc, hsc.symm, bind, Except.bind, pure, Except.pure]
  have hcols : fusion.columns.isEmpty = false := by simpa using hne
  have hvec := hleg distCol [] (by decide)
  have hfts := hleg scoreCol [] (by decide)
  simp only [PkFusion.stamp, hcols, Bool.false_eq_true, if_false, bind, Except.bind]
  rw [emptyVecSchema, emptyFtsSchema, hvec]
  simp only [hfts]
  rfl

theorem normalizeLegs_empty :
    normalizeLegs norm (newEmpty emptyVecSchema : RecordBatch V) (newEmpty emptyFtsSchema) =
      .ok (newEmpty emptyVecSchema, newEmpty emptyFtsSchema) := by
  have hvec : ∀ f, mapScores f (newEmpty emptyVecSchema : RecordBatch V) distCol =
      .ok (newEmpty emptyVecSchema) := fun f => rfl
  have hfts : ∀ f, mapScores f (newEmpty emptyFtsSchema : RecordBatch V) scoreCol =
      .ok (newEmpty emptyFtsSchema) := fun f => rfl
  by_cases hrank : norm = some .rank
  · simp [normalizeLegs, hrank, rank, normalizeScores, hvec, hfts, bind, Except.bind, pure,
      Except.pure]
  · simp [normalizeLegs, hrank, normalizeScores, hvec, hfts, bind, Except.bind, pure, Except.pure]

/-- **Two empty legs are combined in the same way with and without a fusion.** -/
theorem combine_empty {fusion : PkFusion} (hne : fusion.columns ≠ [])
    (hinj : ∀ name ∈ fusion.injected, name ∉ reserved) :
    combine encode sort (request query norm limit) (some fusion) [] [] =
      combine encode sort (request query norm limit : HybridRequest V) none [] [] := by
  have hstk : Stackable 1 (newEmpty emptyVecSchema : RecordBatch V) (newEmpty emptyFtsSchema) :=
    ⟨rfl, by simp [newEmpty], rfl, rfl, rfl⟩
  obtain ⟨results, hrerank, hsch, -⟩ := rerank_produces defaultK sort hstk
  have hfin : finish (request query norm limit) (some fusion) results =
      finish (request query norm limit) none results := by
    refine finish_of_not_injected (by rw [hsch]; simp [names])
      fun f hf hmem => hinj f.name hmem ?_
    rw [hsch] at hf
    simp only [newEmpty, emptyFtsSchema, cons_append, nil_append, mem_cons,
      not_mem_nil, or_false] at hf
    rcases hf with rfl | rfl | rfl <;> simp [reserved]
  have hlegs : ∀ fusion : Option PkFusion,
      rerankLegs sort (request query norm limit) fusion (newEmpty emptyVecSchema)
        (newEmpty emptyFtsSchema) =
      (checkRerankerResult results).bind fun _ =>
        finish (request query norm limit) fusion results := by
    intro fusion
    have hnorm : normalizeLegs (request (V := V) query norm limit).norm _ _ = _ :=
      normalizeLegs_empty (V := V)
    rw [rerankLegs, hnorm]
    change (do
      let results ← rerankHybrid defaultK sort _ _
      checkRerankerResult results
      finish (request query norm limit) fusion results) = _
    rw [hrerank]
    rfl
  rw [combine_of_concat (concat_empty _) (concat_empty _),
    combine_of_concat (concat_empty _) (concat_empty _)]
  change (fusion.stamp encode (newEmpty emptyVecSchema) (newEmpty emptyFtsSchema)).bind _ =
    rerankLegs sort _ none (newEmpty emptyVecSchema) (newEmpty emptyFtsSchema)
  rw [stamp_empty hne]
  change rerankLegs sort _ (some fusion) _ _ = _
  rw [hlegs, hlegs, hfin]

end LanceDB.Hybrid
