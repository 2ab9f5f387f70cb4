import LanceDB.Hybrid.Projections

/-!
# Joining on the primary key and joining on row ids

The surrogate row ids that `LanceDB.Hybrid.WalFusion` derives from the primary key stand for the
real ones: the results have to be the same rows, in the same order, with the same columns and
scores.  They are, when both tell the same rows apart.

The surrogate is built from the outputs that are *named* like the key columns.  A selection of
expressions may put something else under such a name, and then the legs are joined on that.  A key
column that a selection of SQL lacks is added as SQL, without quotes: what a name like `userId` then
is, if it is anything, is for SQL to say.

* `Catalog`, `Catalog.outputs` : a table, and what a selection of it puts out.
* `Catalog.runRowId`, `Catalog.runPk` : the combination of two legs, joined on the row ids or on the
  key.
* `exists_injects` — the outputs of a selection with the key columns added.
* `runRowId_eq`, `runPk_eq` — both runs are a projection of a fusion.
* `fusion_equal_iff` — they give the same results exactly when the outputs named like the key exist
  and tell the rows of the table apart, as they do when they pass a unique key on.
-/

namespace LanceDB.Hybrid

open RecordBatch List

variable {Row E V B : Type} [DecidableEq B] {encode : List (Cell V) → B}
variable {outs : List (Output Row V)} {name : String}

/-! ### Selections -/

/-- A table, as selections see it: its columns, its primary key, what expressions over it are, and
the ids of its rows. -/
structure Catalog (Row E V : Type) where
  columns : List (Output Row V)
  keys : List KeyField
  keys_mem : ∀ name ∈ pkColumns keys, name ∈ names (fields columns)
  /-- The expression that is a column. -/
  col : String → E
  sql : String → Except Error (Output Row V)
  expr : E → Except Error (Output Row V)
  rowId : Row → ℕ
  rowId_injective : Function.Injective rowId

namespace Catalog

/-- A column of the table. -/
def column (c : Catalog Row E V) (name : String) : Except Error (Output Row V) :=
  findColumn c.columns name

/-- The columns that a selection puts out. -/
def outputs (c : Catalog Row E V) : Select E → Except Error (List (Output Row V))
  | .all => .ok c.columns
  | .columns columns => columns.mapM c.column
  | .dynamic pairs => pairs.mapM fun p => (c.sql p.2).map (·.rename p.1)
  | .expr pairs => pairs.mapM fun p => (c.expr p.2).map (·.rename p.1)

/-- The columns that a selection puts out when the key columns it lacks are added to it. -/
def injected (c : Catalog Row E V) (select : Select E) : Except Error (List (Output Row V)) :=
  c.outputs (injectPkColumns c.col select (pkColumns c.keys))

/-- What the legs are joined on: the values of a row in the outputs that are named like the key. -/
def joinKey (c : Catalog Row E V) (select : Select E) (row : Row) : List (Cell V) :=
  keyValues ((c.injected select).toOption.getD []) (pkColumns c.keys) row

/-- A hybrid query whose legs, of these hits, are joined on the row ids. -/
def runRowId (c : Catalog Row E V) (encode : List (Cell V) → B) (sort : Fusion.Sorter)
    (request : HybridRequest V) (select : Select E) (fts vec : List (List (Hit Row))) :
    Except Error (RecordBatch V) := do
  let outs ← c.outputs select
  combine encode sort request none (fts.map (codedLeg outs c.rowId true scoreCol))
    (vec.map (codedLeg outs c.rowId true distCol))

/-- A hybrid query whose legs, of these hits, are joined on the primary key. -/
def runPk (c : Catalog Row E V) (encode : List (Cell V) → B) (sort : Fusion.Sorter)
    (request : HybridRequest V) (select : Select E) (fts vec : List (List (Hit Row))) :
    Except Error (RecordBatch V) := do
  let fusion ← PkFusion.resolve request.withRowId c.keys select
  let outs ← c.outputs (fusion.prepareLeg c.col select)
  combine encode sort request (some fusion) (fts.map (bareLeg outs scoreCol))
    (vec.map (bareLeg outs distCol))

/-- For every normalization, every limit and all hits of both legs, both ways to join give the same
rows, with the same columns and scores and in the same order, or fail both. -/
def SameResults (c : Catalog Row E V) (encode : List (Cell V) → B) (sort : Fusion.Sorter)
    (select : Select E) : Prop :=
  ∀ query norm limit fts vec,
    (c.runPk encode sort (request query norm limit) select fts vec).toOption =
      (c.runRowId encode sort (request query norm limit) select fts vec).toOption

variable {c : Catalog Row E V} {select : Select E}

theorem column_of_key (h : name ∈ pkColumns c.keys) : ∃ o, c.column name = .ok o := by
  have hmem := c.keys_mem name h
  rw [names_fields] at hmem
  obtain ⟨o, ho, rfl⟩ := mem_map.1 hmem
  have hf : (c.columns.find? fun p => p.field.name == o.field.name).isSome :=
    find?_isSome.2 ⟨o, ho, beq_self_eq_true _⟩
  obtain ⟨o', ho'⟩ := Option.isSome_iff_exists.1 hf
  exact ⟨o', by rw [column, findColumn, ho']⟩

end Catalog

/-- Every output that is named like a key column has the values of that column. -/
def PassesKey (c : Catalog Row E V) (outs : List (Output Row V)) : Prop :=
  ∀ o ∈ outs, o.field.name ∈ pkColumns c.keys →
    ∀ k, c.column o.field.name = .ok k → o.value = k.value

/-- What the key columns that are added to a selection are. -/
structure Injects (c : Catalog Row E V) (select : Select E) (outs extra : List (Output Row V)) :
    Prop where
  outputs : c.injected select = .ok (outs ++ extra)
  selected : ∀ o ∈ outs, o.field.name ∉ pkColumnsToInject select (pkColumns c.keys)
  added : ∀ o ∈ extra, o.field.name ∈ pkColumnsToInject select (pkColumns c.keys)
  key : ∀ name ∈ pkColumns c.keys, name ∈ names (fields (outs ++ extra))

variable {c : Catalog Row E V} {select : Select E} {extra : List (Output Row V)}

theorem Injects.of_names {produced : List String}
    (hmiss : pkColumnsToInject select (pkColumns c.keys) =
      (pkColumns c.keys).filter (· ∉ produced))
    (houts : names (fields outs) = produced)
    (hex : names (fields extra) = (pkColumns c.keys).filter (· ∉ produced))
    (houtputs : c.injected select = .ok (outs ++ extra)) : Injects c select outs extra := by
  have hn : ∀ {outs : List (Output Row V)} {o : Output Row V}, o ∈ outs →
      o.field.name ∈ names (fields outs) := fun ho => by
    rw [names_fields]
    exact mem_map_of_mem ho
  refine ⟨houtputs, fun o ho => ?_, fun o ho => ?_, fun name hpk => ?_⟩
  · rw [hmiss, mem_filter]
    rintro ⟨-, hnot⟩
    exact (of_decide_eq_true hnot) (houts ▸ hn ho)
  · rw [hmiss, ← hex]
    exact hn ho
  · rw [fields, map_append, names, map_append, mem_append, ← fields, ← names,
      ← fields, ← names, houts, hex, mem_filter]
    by_cases hprod : name ∈ produced
    · exact .inl hprod
    · exact .inr ⟨hpk, decide_eq_true hprod⟩

/-- Columns that are selected by name are what they are in the table. -/
theorem passesKey_columns {columns : List String} (houts : columns.mapM c.column = .ok outs) :
    PassesKey c outs := by
  intro o ho _ k hk
  obtain ⟨name, -, hn⟩ := mem_of_mapM_ok houts ho
  rw [name_of_findColumn hn, hn] at hk
  cases hk
  rfl

/-- Outputs that are named like the key columns and have their values tell the rows apart when the
key does. -/
theorem joinKey_injective (huq : Function.Injective (keyValues c.columns (pkColumns c.keys)))
    (h : Injects c select outs extra) (hpasses : PassesKey c (outs ++ extra)) :
    Function.Injective (c.joinKey select) := by
  have hkey : c.joinKey select = keyValues c.columns (pkColumns c.keys) := by
    funext row
    rw [Catalog.joinKey, h.outputs]
    refine map_congr_left fun name hn => ?_
    obtain ⟨k, hk⟩ := Catalog.column_of_key hn
    have hmem := h.key name hn
    rw [names_fields] at hmem
    obtain ⟨p, hp, hpname⟩ := mem_map.1 hmem
    obtain ⟨o, ho⟩ := Option.isSome_iff_exists.1
      (find?_isSome (p := fun o => o.field.name == name).2 ⟨p, hp, beq_iff_eq.2 hpname⟩)
    obtain rfl : o.field.name = name := by simpa using find?_some ho
    obtain ⟨i, hi, hoi⟩ := columnIndex_of_find ho
    obtain ⟨j, hj, hkj⟩ := columnIndex_of_find (find_of_findColumn hk)
    change (values (outs ++ extra) row).getD _ _ = _
    rw [Except.toOption, Option.getD_some, hi, hj, Option.getD_some, Option.getD_some,
      getD_values hoi, getD_values hkj, hpasses o (mem_of_find?_eq_some ho) hn k hk]
  rwa [hkey]

/-- The key columns that a selection made of named parts lacks are its last outputs. -/
theorem exists_extra {A : Type} {eval : A → Except Error (Output Row V)} (part : String → A)
    (nameOf : A → String) (hn : ∀ a o, eval a = .ok o → o.field.name = nameOf a)
    (hpart : ∀ name, nameOf (part name) = name) {parts : List A}
    (ho : parts.mapM eval = .ok outs)
    (hmiss : pkColumnsToInject select (pkColumns c.keys) =
      (pkColumns c.keys).filter (· ∉ parts.map nameOf))
    (houtputs : c.injected select = (parts ++ ((pkColumns c.keys).filter
      (· ∉ parts.map nameOf)).map part).mapM eval)
    {outs' : List (Output Row V)} (h : c.injected select = .ok outs') :
    ∃ extra, Injects c select outs extra := by
  obtain ⟨extra, hex⟩ := mapM_append_right (houtputs.symm.trans h)
  refine ⟨extra, .of_names hmiss (names_of_mapM hn ho) ?_
    (houtputs.trans (mapM_append_ok ho hex))⟩
  rw [names_of_mapM hn hex, map_map]
  exact (map_congr_left fun name _ => hpart name).trans (map_id _)

/-- **The key columns that a selection lacks are its last outputs when they are added.** -/
theorem exists_injects (ho : c.outputs select = .ok outs) {outs' : List (Output Row V)}
    (h : c.injected select = .ok outs') : ∃ extra, Injects c select outs extra := by
  cases select with
  | all =>
    cases ho
    exact ⟨[], by rw [append_nil]; rfl, by simp [pkColumnsToInject], by simp,
      by simpa using c.keys_mem⟩
  | columns columns =>
    exact exists_extra (fun name => name) (fun name => name) (fun _ _ => name_of_findColumn)
      (fun _ => rfl) ho (by rw [map_id']; rfl) (by rw [map_id', map_id']; rfl) h
  | dynamic pairs =>
    exact exists_extra (fun pk => (pk, pk)) Prod.fst (fun _ _ => name_of_rename) (fun _ => rfl) ho
      rfl rfl h
  | expr pairs =>
    exact exists_extra (fun pk => (pk, c.col pk)) Prod.fst (fun _ _ => name_of_rename)
      (fun _ => rfl) ho rfl rfl h

/-! ### The two ways to join -/

theorem map_fst_legs (norm : Option NormalizeMethod) (v f : List (Hit Row)) :
    (normalizeHits norm v ++ normalizeHits norm f).map Prod.fst = (v ++ f).map Prod.fst := by
  rw [map_append, map_fst_normalizeHits, map_fst_normalizeHits, map_append]

theorem fused_congr {sort : Fusion.Sorter} {norm : Option NormalizeMethod} {id id' : Row → ℕ}
    {v f : List (Hit Row)}
    (h : ∀ a ∈ v ++ f, ∀ b ∈ v ++ f, id a.1 = id b.1 ↔ id' a.1 = id' b.1) :
    fused sort norm id v f = fused sort norm id' v f := by
  have horig : ∀ a ∈ normalizeHits norm v ++ normalizeHits norm f, ∃ b ∈ v ++ f, b.1 = a.1 := by
    intro a ha
    have hrow : a.1 ∈ (v ++ f).map Prod.fst := by
      rw [← map_fst_legs norm]
      exact mem_map_of_mem ha
    simpa using mem_map.1 hrow
  refine Fusion.fuse_congr fun a ha b hb => ?_
  obtain ⟨a', ha', hrow⟩ := horig a ha
  obtain ⟨b', hb', hrow'⟩ := horig b hb
  rw [← hrow, ← hrow']
  exact h a' ha' b' hb'

theorem length_fused (sort : Fusion.Sorter) (norm : Option NormalizeMethod) (id : Row → ℕ)
    (v f : List (Hit Row)) :
    (fused sort norm id v f).length =
      (Fusion.keep (Fusion.firstMask [] ((v ++ f).map fun h => id h.1))
        ((v ++ f).map fun h => id h.1)).length := by
  have hids : (normalizeHits norm v ++ normalizeHits norm f).map (fun h => id h.1) =
      (v ++ f).map fun h => id h.1 := by
    have hcomp := congrArg (List.map id) (map_fst_legs norm v f)
    rwa [map_map, map_map] at hcomp
  rw [fused, Fusion.fuse_perm.length_eq, Fusion.scored, length_map,
    ← length_map (f := fun h : Hit Row => id h.1), Fusion.map_id_merged, hids]

/-- The fusion that a query without row ids resolves to. -/
def Catalog.pkFusion (c : Catalog Row E V) (select : Select E) : PkFusion where
  columns := pkColumns c.keys
  injected := pkColumnsToInject select (pkColumns c.keys)

theorem mem_of_mem_inject {pk : List String} (h : name ∈ pkColumnsToInject select pk) :
    name ∈ pk := by
  cases select with
  | all => cases h
  | columns | dynamic | expr => exact mem_of_mem_filter h

theorem Free.append (hf : Free outs) (h : Injects c select outs extra)
    (hkeys : ∀ name ∈ pkColumns c.keys, name ∉ reserved) : Free (outs ++ extra) := by
  intro o ho
  rcases mem_append.1 ho with ho | ho
  · exact hf o ho
  · exact hkeys _ (mem_of_mem_inject (h.added o ho))

section Request

variable (encode) (sort : Fusion.Sorter) (query : String) (norm : Option NormalizeMethod)
  (limit : Option ℕ) (fts vec : List (List (Hit Row)))

/-- **What a query returns when its legs are joined on the row ids.** -/
theorem runRowId_eq (houts : c.outputs select = .ok outs) (hf : Free outs) (hvec : vec ≠ []) :
    c.runRowId encode sort (request query norm limit) select fts vec =
      .ok (project (answerOutputs outs)
        ((fused sort norm c.rowId vec.flatten fts.flatten).take (limit.getD defaultTopK))) := by
  have hd : ∀ o ∈ outs, o.field.name ∉ dropped none := by
    intro o ho hmem
    exact hf o ho (by simp_all [dropped, reserved])
  have hf' : Free (outs ++ []) := by rwa [append_nil]
  have hlegs := rerankLegs_codedLeg c.rowId true sort query norm limit none hf' hd
    (by simp) (by decide) (by decide) vec.flatten fts.flatten
  rw [append_nil] at hlegs
  rw [Catalog.runRowId, houts]
  change combine encode sort (request query norm limit) none (fts.map (project _))
    (vec.map (project _)) = _
  rw [combine_legs (hf.not_mem (by simp [reserved])) fts hvec]
  exact hlegs

theorem runPk_eq_combine (h : Injects c select outs extra) :
    c.runPk encode sort (request query norm limit) select fts vec =
      combine encode sort (request query norm limit) (some (c.pkFusion select))
        (fts.map (bareLeg (outs ++ extra) scoreCol))
        (vec.map (bareLeg (outs ++ extra) distCol)) := by
  have hres : PkFusion.resolve (request (V := V) query norm limit).withRowId c.keys select =
      .ok (c.pkFusion select) := rfl
  rw [Catalog.runPk, hres]
  change (c.injected select).bind _ = _
  rw [h.outputs]
  rfl

/-- **What a query returns when its legs are joined on the key**: the same fusion, with a join
column that tells two rows apart exactly when the outputs named like the key do. -/
theorem runPk_eq (henc : Function.Injective encode) (h : Injects c select outs extra)
    (hkey : pkColumns c.keys ≠ []) (hf : Free outs)
    (hkeys : ∀ name ∈ pkColumns c.keys, name ∉ reserved) (hvec : vec ≠ []) :
    ∃ id : Row → ℕ, c.runPk encode sort (request query norm limit) select fts vec =
        .ok (project (answerOutputs outs)
          ((fused sort norm id vec.flatten fts.flatten).take (limit.getD defaultTopK))) ∧
      ∀ a ∈ vec.flatten ++ fts.flatten, ∀ b ∈ vec.flatten ++ fts.flatten,
        id a.1 = id b.1 ↔ c.joinKey select a.1 = c.joinKey select b.1 := by
  have hdist : distCol ≠ rowId := by decide
  have hsc : scoreCol ≠ rowId := by decide
  have hall : Free (outs ++ extra) := hf.append h hkeys
  obtain ⟨id, hstm, hid⟩ := stamp_bareLeg encode (c.pkFusion select) hkey h.key hall hdist hsc
    vec.flatten fts.flatten
  have hd : ∀ {name : String}, name ∈ dropped (some (c.pkFusion select)) ↔
      name = rowId ∨ name ∈ pkColumnsToInject select (pkColumns c.keys) := mem_cons
  have hk : ∀ {name : String}, name ∈ reserved → name ≠ rowId →
      name ∉ dropped (some (c.pkFusion select)) := fun hn hne hmem =>
    (hd.1 hmem).elim hne fun hmem => hkeys _ (mem_of_mem_inject hmem) hn
  have hlegs := rerankLegs_codedLeg id false sort query norm limit (some (c.pkFusion select)) hall
    (fun o ho hmem => (hd.1 hmem).elim
      (fun hrow => hf o ho (by rw [hrow]; simp [reserved])) (h.selected o ho))
    (fun o ho => hd.2 (.inr (h.added o ho))) (hk (by simp [reserved]) (by decide))
    (hk (by simp [reserved]) (by decide)) vec.flatten fts.flatten
  refine ⟨id, ?_, fun a ha b hb => ?_⟩
  · rw [runPk_eq_combine encode sort query norm limit _ _ h]
    change combine encode sort _ _ (fts.map (project _)) (vec.map (project _)) = _
    rw [combine_legs (hall.not_mem (by simp [reserved])) fts hvec]
    change ((c.pkFusion select).stamp encode (bareLeg (outs ++ extra) distCol vec.flatten)
      (bareLeg (outs ++ extra) scoreCol fts.flatten)).bind _ = _
    rw [hstm]
    exact hlegs
  · rw [hid a ha b hb, henc.eq_iff, Catalog.joinKey, Catalog.joinKey, h.outputs]
    rfl

theorem run_missing (ho : c.outputs select = .ok outs) (h : Injects c select outs extra)
    (hkey : pkColumns c.keys ≠ []) (hf : Free outs)
    (hkeys : ∀ name ∈ pkColumns c.keys, name ∉ reserved) (hfts : fts ≠ []) :
    (c.runPk encode sort (request query norm limit) select fts []).toOption = none ∧
      (c.runRowId encode sort (request query norm limit) select fts []).toOption = none := by
  have hmiss : ∀ (outs : List (Output Row V)) (tail : List (Output (Hit Row) V)), Free outs →
      distCol ∉ names (fields tail) →
      distCol ∉ names (fields (legOutputs outs tail scoreCol)) := by
    intro outs tail hf htail
    have hdist : distCol ∉ names (fields outs) := hf.not_mem (by simp [reserved])
    rw [fields_legOutputs, names, map_append, mem_append, not_or, map_cons,
      mem_cons, not_or]
    exact ⟨hdist, by decide, htail⟩
  have htail : ∀ (id : Row → ℕ) (nullable : Bool),
      distCol ∉ names (fields [(rowIdOutput id nullable : Output (Hit Row) V)]) := by
    intro id nullable hmem
    have hne : distCol ≠ rowId := by decide
    exact hne (mem_singleton.1 hmem)
  refine ⟨?_, ?_⟩
  · have hsc : scoreCol ≠ rowId := by decide
    have hall : Free (outs ++ extra) := hf.append h hkeys
    obtain ⟨id, hstm, -⟩ := stamp_bareLeg encode (c.pkFusion select) hkey h.key hall hsc hsc
      [] fts.flatten
    rw [runPk_eq_combine encode sort query norm limit _ _ h]
    change (combine encode sort _ _ (fts.map (project _)) []).toOption = none
    rw [combine_legs_missing (hmiss _ _ hall (by simp [names, fields])) hfts]
    change (((c.pkFusion select).stamp encode (bareLeg (outs ++ extra) scoreCol [])
      (bareLeg (outs ++ extra) scoreCol fts.flatten)).bind _).toOption = none
    rw [hstm]
    exact rerankLegs_missing _ (hmiss _ _ hall (htail _ _))
  · rw [Catalog.runRowId, ho]
    change (combine encode sort _ none (fts.map (project _)) []).toOption = none
    rw [combine_legs_missing (hmiss _ _ hf (htail _ _)) hfts]
    exact rerankLegs_missing _ (hmiss _ _ hf (htail _ _))

/-- If the outputs named like the key tell the rows apart, both ways to join give the same. -/
theorem runPk_toOption_eq (henc : Function.Injective encode)
    (ho : c.outputs select = .ok outs) (h : Injects c select outs extra)
    (hkey : pkColumns c.keys ≠ []) (hf : Free outs)
    (hkeys : ∀ name ∈ pkColumns c.keys, name ∉ reserved)
    (hjoin : Function.Injective (c.joinKey select)) :
    (c.runPk encode sort (request query norm limit) select fts vec).toOption =
      (c.runRowId encode sort (request query norm limit) select fts vec).toOption := by
  by_cases hvec : vec = []
  · subst hvec
    by_cases hfts : fts = []
    · subst hfts
      rw [runPk_eq_combine encode sort query norm limit _ _ h, Catalog.runRowId, ho]
      exact congrArg Except.toOption (combine_empty hkey
        fun name hn => hkeys name (mem_of_mem_inject hn))
    · obtain ⟨hpk, hrowId⟩ :=
        run_missing encode sort query norm limit fts ho h hkey hf hkeys hfts
      rw [hpk, hrowId]
  · obtain ⟨id, hrun, hid⟩ :=
      runPk_eq encode sort query norm limit fts vec henc h hkey hf hkeys hvec
    rw [hrun, runRowId_eq encode sort query norm limit fts vec ho hf hvec,
      fused_congr fun a ha b hb => ?_]
    rw [hid a ha b hb, hjoin.eq_iff, c.rowId_injective.eq_iff]

end Request

/-- When the key columns cannot be added to the selection, only the join on the row ids gives a
result. -/
theorem injected_of_sameResults {sort : Fusion.Sorter} (ho : c.outputs select = .ok outs)
    (hf : Free outs) (hs : c.SameResults encode sort select) :
    ∃ outs', c.injected select = .ok outs' := by
  cases hinj : c.injected select with
  | ok outs' => exact ⟨outs', rfl⟩
  | error e =>
    have hpk : c.runPk encode sort (request "" none none) select [] [[]] = .error e := by
      change (c.injected select).bind _ = _
      rw [hinj]
      rfl
    have hress := hs "" none none [] [[]]
    rw [hpk, runRowId_eq encode sort "" none none [] [[]] ho hf (by simp)] at hress
    cases hress

/-- When two rows have the same outputs named like the key, the join on the key makes them one. -/
theorem joinKey_of_sameResults {sort : Fusion.Sorter} (henc : Function.Injective encode)
    (ho : c.outputs select = .ok outs) (h : Injects c select outs extra)
    (hkey : pkColumns c.keys ≠ []) (hf : Free outs)
    (hkeys : ∀ name ∈ pkColumns c.keys, name ∉ reserved)
    (hequal : c.SameResults encode sort select) : Function.Injective (c.joinKey select) := by
  intro row row' heq
  by_contra hne
  -- one row in each leg: the key makes them one result, the row ids make them two
  obtain ⟨id, hrun, hid⟩ := runPk_eq encode sort "" none none [[(row', none)]]
    [[(row, none)]] henc h hkey hf hkeys (by simp)
  have hrowId := runRowId_eq encode sort "" none none [[(row', none)]]
    [[(row, none)]] ho hf (by simp)
  have hs : id row = id row' := (hid (row, none) (by simp) (row', none) (by simp)).2 heq
  have hdiffer : c.rowId row ≠ c.rowId row' := fun h => hne (c.rowId_injective h)
  have hress := hequal "" none none [[(row', none)]] [[(row, none)]]
  rw [hrun, hrowId] at hress
  have hlen := congrArg (fun b => b.rows.length) (Option.some.inj hress)
  simp [project, length_fused, defaultTopK, Fusion.firstMask, Fusion.keep, hs, hdiffer.symm]
    at hlen

/-- **Joining on the key is joining on the row ids exactly when the key columns can be added to the
selection and the outputs that are named like them tell the rows of the table apart.**  A unique key
does that, whenever every output that is named like one of its columns has its values. -/
theorem fusion_equal_iff (hencode : Function.Injective encode) (sort : Fusion.Sorter)
    (hunique : Function.Injective (keyValues c.columns (pkColumns c.keys)))
    (houts : c.outputs select = .ok outs) (hkey : pkColumns c.keys ≠ []) (hfree : Free outs)
    (hkeys : ∀ name ∈ pkColumns c.keys, name ∉ reserved) :
    (c.SameResults encode sort select ↔
      (∃ outs', c.injected select = .ok outs') ∧ Function.Injective (c.joinKey select)) ∧
    ((∃ outs', c.injected select = .ok outs' ∧ PassesKey c outs') →
      c.SameResults encode sort select) := by
  refine ⟨⟨fun hs => ?_, ?_⟩, ?_⟩
  · obtain ⟨outs', hinj⟩ := injected_of_sameResults houts hfree hs
    obtain ⟨extra, h⟩ := exists_injects houts hinj
    exact ⟨⟨outs', hinj⟩, joinKey_of_sameResults hencode houts h hkey hfree hkeys hs⟩
  · rintro ⟨⟨outs', hinj⟩, hjoin⟩ query norm limit fts vec
    obtain ⟨extra, h⟩ := exists_injects houts hinj
    exact runPk_toOption_eq encode sort query norm limit fts vec hencode houts h hkey hfree hkeys
      hjoin
  · rintro ⟨outs', hinj, hpasses⟩ query norm limit fts vec
    obtain ⟨extra, h⟩ := exists_injects houts hinj
    obtain rfl : outs ++ extra = outs' := Except.ok.inj (h.outputs.symm.trans hinj)
    exact runPk_toOption_eq encode sort query norm limit fts vec hencode houts h hkey hfree hkeys
      (joinKey_injective hunique h hpasses)

/-- A table of two rows with the columns `id`, which is the primary key, and `category`, which is
the same in both. -/
def items : Catalog Bool String ℕ :=
  let columns : List (Output Bool ℕ) :=
    [⟨⟨"id", .other "Int64", false⟩, fun row => .other "Int64" row.toNat, fun _ => rfl⟩,
      ⟨⟨"category", .other "Int64", false⟩, fun _ => .other "Int64" 7, fun _ => rfl⟩]
  { columns
    keys := [⟨"id", none, true⟩, ⟨"category", none, false⟩]
    keys_mem := by simp [pkColumns, names, fields, columns]
    col := fun name => name
    sql := findColumn columns
    expr := findColumn columns
    rowId := Bool.toNat
    rowId_injective := by decide }

theorem pkColumns_items : pkColumns items.keys = ["id"] := by
  simp [pkColumns, items]

theorem unique_items : Function.Injective (keyValues items.columns (pkColumns items.keys)) := by
  rw [pkColumns_items]
  decide +kernel

/-- With the category selected, joining on the key is joining on the row ids. -/
theorem fusion_equal_items :
    (items.runPk (fun key => key) .stable (request "lance" (some .rank) (some 3))
      (.columns ["category"]) [[(true, some 1)]] [[(false, some 1), (true, some 2)]]).toOption =
    (items.runRowId (fun key => key) .stable (request "lance" (some .rank) (some 3))
      (.columns ["category"]) [[(true, some 1)]] [[(false, some 1), (true, some 2)]]).toOption := by
  refine (fusion_equal_iff Function.injective_id .stable unique_items rfl ?_ ?_ ?_).2 ?_ _ _ _ _ _
  · rw [pkColumns_items]
    decide
  · rw [free_iff]
    decide +kernel
  · rw [pkColumns_items]
    decide
  · have hinj : items.injected (.columns ["category"]) =
        ["category", "id"].mapM items.column := by
      rw [Catalog.injected, pkColumns_items]
      rfl
    exact ⟨_, hinj, passesKey_columns (show ["category", "id"].mapM items.column = _ from rfl)⟩

/-- With the category selected under the name of the key, two rows become one. -/
theorem fusion_merges_items :
    Function.Injective (keyValues items.columns (pkColumns items.keys)) ∧
    (items.runPk (fun key => key) .stable (request "lance" none none)
      (.dynamic [("id", "category")]) [[(true, some 1)]] [[(false, some 1)]]).toOption.map
        (·.rows.length) = some 1 ∧
    (items.runRowId (fun key => key) .stable (request "lance" none none)
      (.dynamic [("id", "category")]) [[(true, some 1)]] [[(false, some 1)]]).toOption.map
        (·.rows.length) = some 2 := by
  refine ⟨unique_items, ?_, ?_⟩
  · unfold Catalog.runPk PkFusion.resolve
    rw [pkColumns_items]
    decide +kernel
  · decide +kernel

end LanceDB.Hybrid
