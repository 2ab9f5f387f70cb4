import LanceDB.Columns.Preserved

/-!
# Drops and alterations keep the declarations

A path is text in the grammar of Lance, in which a quoted spelling names the same column as a bare
one, while the check that a dropped or altered column is not read compares it with the name of a
declared column as text.  The declarations are kept as long as the two agree on the paths of a
request.

* `Plain` : the condition on a schema and the paths of a request.
* `valid_of_unbound`, `valid_of_dropped`, `valid_of_altered` — the three schema changes.
* `Reached` : the tables that drops and alterations lead to.
-/

namespace LanceDB.Columns

open List Except

variable {L : Lance} {types : String → DataType} {s s' : Schema}
  {bindings bindings' : List FunctionBinding}
variable {d : ComputedColumn} {u : FunctionUnbinding}

/-- No path has the text of the name of a declared column and is read as something else; and a
column that a path addresses is read by the expression of every SQL column that records it as an
input. -/
structure Plain (L : Lance) (s : Schema) (paths : List String) : Prop where
  names : ∀ d ∈ computedColumns L s, d.name ∈ paths → L.parseFieldPath d.name = .ok [d.name]
  inputs : ∀ d ∈ computedColumns L s, ∀ expression names, d.kind = .sql expression →
    L.columnNamesInExpr s expression = .ok names → ∀ input ∈ d.inputs, ∀ path ∈ paths,
      root L path = root L input → ∃ name ∈ names, root L name = root L path

theorem Plain.exists_guarded {paths inputs : List String} (h : Plain L s paths)
    (hd : d ∈ computedColumns L s) {expression input path : String} (hk : d.kind = .sql expression)
    (hok : guardedInputs L s d = .ok inputs) (hinp : input ∈ d.inputs) (hp : path ∈ paths)
    (hr : root L path = root L input) : ∃ name ∈ inputs, root L name = root L path := by
  rw [guardedInputs, hk] at hok
  cases hns : L.columnNamesInExpr s expression with
  | error e => simp [hns, orInvalidFunction, invalidFunction] at hok
  | ok names =>
    obtain rfl : names = inputs := by simpa [hns, orInvalidFunction] using hok
    exact h.inputs d hd expression names hk hns input hinp path hp hr

/-! ### The retirement of bindings -/

/-- The columns a binding writes. -/
def writes (b : FunctionBinding) : List String :=
  b.outputs.map (·.outputName) ++ (b.assignment.map (·.outputName)).toList

/-- A drop of the columns `named` retires the binding. -/
def retires (named : List String) (b : FunctionBinding) : Bool :=
  b.outputs.any (·.outputName ∈ named)

theorem writes_subset (b : FunctionBinding) : ∀ c ∈ writes b, c ∈ bindingColumns L b := by
  intro c hc
  rw [bindingColumns, append_assoc]
  exact mem_append_right _ hc

theorem mem_writes_of_destination {b : FunctionBinding} {ordinal : ℕ} {c : String}
    (h : destination b ordinal = some c) : c ∈ writes b := by
  unfold destination at h
  split_ifs at h
  · exact mem_append_right _ (by simpa using h)
  · obtain ⟨o, ho, rfl⟩ := Option.map_eq_some_iff.1 h
    exact mem_append_left _ (mem_map.2 ⟨o, mem_of_getElem? ho, rfl⟩)

/-- What the plan of a drop says about the bindings. -/
structure Plan (named : List String) (bindings : List FunctionBinding) (u : FunctionUnbinding) :
    Prop where
  retained : u.retained = bindings.filter (!retires named ·)
  cleared : u.clearedColumns = (bindings.filter (retires named ·)).flatMap writes
  assignment : ∀ b ∈ bindings, retires named b → ∀ a, b.assignment = some a →
    a.outputName ∈ named ∨ a.outputName ∈ u.assignmentColumns
  added : ∀ c ∈ u.assignmentColumns, c ∈ u.clearedColumns
  outputs : ∀ b ∈ bindings, retires named b → ∀ o ∈ b.outputs, o.outputName ∈ named
  metadata : u.bindingsMetadata = none

theorem unbind_ok {named : List String} : ∀ {u : FunctionUnbinding},
    unbind named bindings = .ok u → Plan named bindings u := by
  induction bindings with
  | nil =>
    intro u h
    obtain rfl := ok.inj h
    exact ⟨rfl, rfl, by simp, by simp, by simp, rfl⟩
  | cons b bs ih =>
    intro u h
    rw [unbind] at h
    split at h
    · rename_i hno
      have hb : retires named b = false := by
        rw [retires, any_eq_false]
        intro o ho
        exact find?_eq_none.1 hno _ (mem_map.2 ⟨o, ho, rfl⟩)
      obtain ⟨v, hv, hu⟩ := bind_eq_ok.1 h
      obtain rfl := ok.inj hu
      have hp := ih hv
      refine ⟨?_, ?_, ?_, hp.added, ?_, hp.metadata⟩
      · rw [filter_cons_of_pos (by simp [hb]), ← hp.retained]
      · rw [filter_cons_of_neg (by simp [hb])]
        exact hp.cleared
      · exact forall_mem_cons.2 ⟨by simp [hb], hp.assignment⟩
      · exact forall_mem_cons.2 ⟨by simp [hb], hp.outputs⟩
    · rename_i dropped hs
      have hb : retires named b = true := by
        obtain ⟨o, ho, hn⟩ := mem_map.1 (mem_of_find?_eq_some hs)
        exact any_eq_true.2 ⟨o, ho, by simpa [hn] using find?_some hs⟩
      by_cases hmiss : (b.outputs.map (·.outputName)).filter (· ∉ named) = []
      · simp only [hmiss, ne_eq, not_true_eq_false, if_false] at h
        obtain ⟨v, hv, hu⟩ := bind_eq_ok.1 h
        obtain rfl := ok.inj hu
        have hp := ih hv
        have hnd : ∀ o ∈ b.outputs, o.outputName ∈ named := by
          simpa [filter_eq_nil_iff] using hmiss
        refine ⟨?_, ?_, ?_, ?_, ?_, hp.metadata⟩
        · rw [filter_cons_of_neg (by simp [hb])]
          exact hp.retained
        · rw [filter_cons_of_pos (by simp [hb]), flatMap_cons, ← hp.cleared]
          rfl
        · refine forall_mem_cons.2 ⟨fun _ a ha => ?_, fun c hc hretir a ha =>
            (hp.assignment c hc hretir a ha).imp_right (mem_append_right _)⟩
          by_cases hin : a.outputName ∈ named
          · exact .inl hin
          · refine .inr (mem_append_left _ (mem_filter.2 ⟨?_, by simpa using hin⟩))
            simp [ha]
        · intro c hc
          rcases mem_append.1 hc with hc | hc
          · exact mem_append_left _ (mem_append_right _ (mem_of_mem_filter hc))
          · exact mem_append_right _ (hp.added c hc)
        · exact forall_mem_cons.2 ⟨fun _ => hnd, hp.outputs⟩
      · simp only [ne_eq, hmiss, not_false_eq_true, if_true] at h
        exact absurd h (by simp [bind, Except.bind])

/-- The bindings that stay, as the retirement stores them. -/
def Stored (L : Lance) (u : FunctionUnbinding) : Prop :=
  (u.retained = [] ∧ u.bindingsMetadata = none) ∨
    ∃ raw, functionBindingsMetadata L u.retained = .ok raw ∧ u.bindingsMetadata = some raw

theorem planFunctionUnbinding_ok {columns : List String}
    (h : planFunctionUnbinding L s columns = .ok u) :
    ∃ bindings wholes v, Supported L s bindings ∧ columns.mapM (wholeColumn L) = .ok wholes ∧
      Plan wholes.reduceOption bindings v ∧ u.retained = v.retained ∧
      u.clearedColumns = v.clearedColumns ∧ u.assignmentColumns = v.assignmentColumns ∧
      (u.clearedColumns ≠ [] → Stored L u) := by
  simp only [planFunctionUnbinding, bind_eq_ok] at h
  obtain ⟨⟨⟩, hsupported, wholes, hwhs, bs, hbs, v, hv, h⟩ := h
  obtain ⟨bindings, hsupp⟩ := ensureSupportedFunctionMetadata_eq_ok_iff.1 hsupported
  rw [hsupp.known.functionBindings] at hbs
  obtain rfl := ok.inj hbs
  have hp := unbind_ok hv
  refine ⟨bindings, wholes, v, hsupp, hwhs, hp, ?_⟩
  split_ifs at h with hd
  · obtain rfl := ok.inj h
    refine ⟨rfl, rfl, rfl, fun hclr => ?_⟩
    rcases hd with hnoop | hk
    · exact absurd (by simpa [FunctionUnbinding.isNoop] using hnoop) hclr
    · exact .inl ⟨hk, hp.metadata⟩
  · obtain ⟨raw, hraw, h⟩ := bind_eq_ok.1 h
    obtain rfl := ok.inj h
    exact ⟨rfl, rfl, rfl, fun _ => .inr ⟨raw, hraw, rfl⟩⟩

theorem Stored.known (h : Stored L u) (hwire : ∀ b ∈ u.retained, b.Wire) {m : Metadata}
    (hm : m.get functionBindingsMetaKey = u.bindingsMetadata) : Known L m u.retained := by
  rcases h with ⟨hk, hn⟩ | ⟨raw, hraw, hs⟩
  · rw [hk]
    exact known_of_get_eq_none (hm.trans hn)
  · exact known_of_functionBindingsMetadata hwire hraw (hm.trans hs)

/-- The schema between the two commits of a drop: the cleared columns are ordinary ones. -/
theorem unboundSchema_ok (h : unboundSchema L s u = .ok s')
    (hpl : ∀ c ∈ u.clearedColumns, L.parseFieldPath c = .ok [c]) :
    s'.fields = s.fields.map (clearField (u.clearedColumns.map ([·]))) ∧
      s'.metadata = s.metadata.set functionBindingsMetaKey u.bindingsMetadata := by
  obtain ⟨cleared, hclr, h⟩ := bind_eq_ok.1 h
  obtain rfl := ok.inj h
  have hps : cleared = u.clearedColumns.map ([·]) := by
    refine eq_map_of_mapM_ok hclr fun c hc path hp => ?_
    simp only [lancePath, hpl c hc] at hp
    split_ifs at hp
    exact (ok.inj hp).symm
  subst hps
  exact ⟨clearFields_eq_map _ _, rfl⟩

/-- **The retirement of bindings** leads to a valid schema, in which the others are as before. -/
theorem change_of_unbound {v : FunctionUnbinding} {named : List String}
    (hs : Supported L s bindings) (hp : Plan named bindings v)
    (hk : u.retained = v.retained) (hclr : u.clearedColumns = v.clearedColumns)
    (hsto : Stored L u)
    (hfs : s'.fields = s.fields.map (clearField (u.clearedColumns.map ([·]))))
    (hmeta : s'.metadata = s.metadata.set functionBindingsMetaKey u.bindingsMetadata)
    (hfree : ∀ b ∈ u.retained, ∀ c ∈ bindingColumns L b, c ∉ u.clearedColumns) :
    Change L s s' bindings u.retained := by
  have hsub : u.retained.Sublist bindings := by
    rw [hk, hp.retained]
    exact filter_sublist
  refine ⟨?_, hsub, ?_, ?_⟩
  · refine hsto.known (fun b hb => hs.known.wire (hsub.subset hb)) ?_
    rw [hmeta, Metadata.get_set_self]
  · intro b hb c hc f hf hn
    rw [hfs]
    refine mem_map.2 ⟨f, hf, clearField_of_not_mem ?_⟩
    rw [hn]
    exact hfree b hb c hc
  · intro f' hf' hflag
    rw [hfs] at hf'
    obtain ⟨f, hf, rfl⟩ := mem_map.1 hf'
    by_cases hmem : f.name ∈ u.clearedColumns
    · rw [clearField_of_mem hmem] at hflag
      simp [not_isFlagged_without] at hflag
    · rw [clearField_of_not_mem hmem]
      refine ⟨f, hf, rfl, .inl ⟨rfl, fun b hb ordinal hkind hto => ?_⟩⟩
      rw [hk, hp.retained]
      refine mem_filter.2 ⟨hb, ?_⟩
      by_contra hretir
      refine hmem ?_
      rw [hclr, hp.cleared]
      exact mem_flatMap.2 ⟨b, mem_filter.2 ⟨hb, by simpa using hretir⟩,
        mem_writes_of_destination hto⟩

theorem valid_of_unbound (hval : Valid L types s) (hchg : Change L s s' bindings bindings')
    (hs : Supported L s bindings) {cleared : List String}
    (hfs : s'.fields = s.fields.map (clearField (cleared.map ([·])))) : Valid L types s' := by
  refine valid_of_supported (hchg.supported hs) fun d hd expression hk input hinp => ?_
  obtain ⟨f', hf', hdecl⟩ := mem_computedColumns.1 hd
  rw [hfs] at hf'
  obtain ⟨f, hf, rfl⟩ := mem_map.1 hf'
  by_cases hmem : f.name ∈ cleared
  · rw [clearField_of_mem hmem] at hdecl
    have hflag := (computedColumnFromField_eq_some.1 hdecl).1
    simp [not_isFlagged_without] at hflag
  · rw [clearField_of_not_mem hmem] at hdecl
    obtain ⟨g, hg, hn, htype⟩ := hval.sqlInputs d (mem_computedColumns.2 ⟨f, hf, hdecl⟩)
      expression hk input hinp
    refine ⟨clearField (cleared.map ([·])) g, ?_, ?_, ?_⟩
    · rw [hfs]
      exact mem_map_of_mem hg
    · rw [clearField_name, hn]
    · rw [clearField_name, clearField_dataType, htype]

/-! ### Drops -/

theorem existingPath_ok {fields : List Field} {path : String} {names : List String}
    (h : existingPath L fields path = .ok names) : L.parseFieldPath path = .ok names := by
  obtain ⟨names', hns', h⟩ := bind_eq_ok.1 h
  split_ifs at h
  obtain rfl := ok.inj h
  unfold lancePath at hns'
  split at hns'
  · rename_i names hprs
    rw [hprs, ok.inj hns']
  · simp at hns'

theorem dropColumns_ok {paths : List String} (h : dropColumns L s paths = .ok s') :
    ∃ names, List.Forall₂ (fun p n => L.parseFieldPath p = .ok n) paths names ∧
      s'.fields = s.fields.filterMap (dropField names) ∧ s'.metadata = s.metadata := by
  obtain ⟨names, hns, h⟩ := bind_eq_ok.1 h
  split at h
  · simp at h
  · obtain rfl := ok.inj h
    refine ⟨names, ?_, dropFields_eq_filterMap _ _, rfl⟩
    exact (mapM_eq_ok_iff.1 hns).imp fun p n hn => existingPath_ok hn

/-- What the paths of a drop may touch: no column of a binding, and no declared column that is not
dropped as a whole, nor a column it reads. -/
structure DropFree (L : Lance) (s : Schema) (bindings : List FunctionBinding)
    (names : List (List String)) : Prop where
  binding : ∀ b ∈ bindings, ∀ c ∈ bindingColumns L b, ∀ n ∈ names, n.head? ≠ some c
  declared : ∀ d ∈ computedColumns L s, [d.name] ∉ names → ∀ n ∈ names, n.head? ≠ some d.name
  inputs : ∀ d ∈ computedColumns L s, [d.name] ∉ names → ∀ expression, d.kind = .sql expression →
    ∀ input ∈ d.inputs, ∀ n ∈ names, n.head? ≠ some (root L input)

theorem DropFree.kept {names : List (List String)} (h : DropFree L s bindings names)
    (hs : Supported L s bindings) {f f' : Field} (hf : f ∈ s.fields)
    (hdrop : dropField names f = some f') (hflag : isFlagged f'.metadata) :
    f' = f ∧ [f.name] ∉ names := by
  have hmeta := (dropField_name hdrop).2
  have hwh : [f.name] ∉ names := by
    intro hmem
    rw [dropField_of_whole hmem] at hdrop
    simp at hdrop
  obtain ⟨d, hd⟩ := hs.exists_declared hf (hmeta ▸ hflag)
  have hn := (computedColumnFromField_eq_some.1 hd).2.2.1
  have hunt := h.declared d (mem_computedColumns.2 ⟨f, hf, hd⟩) (hn ▸ hwh)
  rw [hn] at hunt
  rw [dropField_of_untouched hunt] at hdrop
  exact ⟨(Option.some.inj hdrop).symm, hwh⟩

/-- **A drop** of columns that nothing left over depends on leads to a valid schema. -/
theorem valid_of_dropped {names : List (List String)} (hval : Valid L types s)
    (hs : Supported L s bindings) (hfree : DropFree L s bindings names)
    (hfs : s'.fields = s.fields.filterMap (dropField names))
    (hmeta : s'.metadata = s.metadata) :
    Supported L s' bindings ∧ Valid L types s' := by
  have hchg : Change L s s' bindings bindings := by
    refine ⟨hmeta ▸ hs.known, List.Sublist.refl _, ?_, ?_⟩
    · intro b hb c hc f hf hn
      rw [hfs]
      refine mem_filterMap.2 ⟨f, hf, dropField_of_untouched ?_⟩
      rw [hn]
      exact hfree.binding b hb c hc
    · intro f' hf' hflag
      rw [hfs] at hf'
      obtain ⟨f, hf, hdrop⟩ := mem_filterMap.1 hf'
      obtain ⟨rfl, -⟩ := hfree.kept hs hf hdrop hflag
      exact ⟨f', hf, rfl, .inl ⟨rfl, fun b hb _ _ _ => hb⟩⟩
  have hs' := hchg.supported hs
  refine ⟨hs', valid_of_supported hs' fun d hd expression hk input hinp => ?_⟩
  obtain ⟨f', hf', hdecl⟩ := mem_computedColumns.1 hd
  rw [hfs] at hf'
  obtain ⟨f, hf, hdrop⟩ := mem_filterMap.1 hf'
  obtain ⟨rfl, hwh⟩ := hfree.kept hs hf hdrop (computedColumnFromField_eq_some.1 hdecl).1
  have hd := mem_computedColumns.2 ⟨f', hf, hdecl⟩
  rw [← (computedColumnFromField_eq_some.1 hdecl).2.2.1] at hwh
  obtain ⟨g, hg, hn, htype⟩ := hval.sqlInputs d hd expression hk input hinp
  refine ⟨g, ?_, hn, htype⟩
  rw [hfs]
  refine mem_filterMap.2 ⟨g, hg, dropField_of_untouched ?_⟩
  rw [hn]
  exact hfree.inputs d hd hwh expression hk input hinp

/-! ### Alterations -/

theorem alterColumns_ok {alterations : List ColumnAlteration}
    (h : alterColumns L s alterations = .ok s') :
    ∃ edits : List Edit, (∀ e ∈ edits, e.2 ∈ alterations ∧ L.parseFieldPath e.2.path = .ok e.1) ∧
      s'.fields = s.fields.map (alterField edits) ∧ s'.metadata = s.metadata := by
  obtain ⟨edits, heds, h⟩ := bind_eq_ok.1 h
  split at h
  · simp at h
  · split_ifs at h
    obtain rfl := ok.inj h
    refine ⟨edits, fun e he => ?_, alterFields_eq_map _ _, rfl⟩
    obtain ⟨a, ha, hedit⟩ := mem_of_mapM_ok heds he
    obtain ⟨names, hns, hedit⟩ := bind_eq_ok.1 hedit
    obtain rfl := ok.inj hedit
    exact ⟨ha, existingPath_ok hns⟩

/-- What alterations may touch: no column of a binding; a rename or a cast touches no column a
declaration reads, and in a declared column only a rename of the whole. -/
structure AlterFree (L : Lance) (s : Schema) (bindings : List FunctionBinding)
    (edits : List Edit) : Prop where
  binding : ∀ b ∈ bindings, ∀ c ∈ bindingColumns L b, ∀ e ∈ edits, e.1.head? ≠ some c
  inputs : ∀ d ∈ computedColumns L s, ∀ expression, d.kind = .sql expression →
    ∀ input ∈ d.inputs, ∀ e ∈ edits, e.2.rename.isSome ∨ e.2.dataType.isSome →
      e.1.head? = some (root L input) → e.1.head? = some d.name

namespace AlterFree

variable {edits : List Edit}

/-- A column that a SQL declaration reads is neither renamed nor cast: the declaration would have
to read itself. -/
theorem soft (h : AlterFree L s bindings edits) (hs : Supported L s bindings)
    (hd : d ∈ computedColumns L s) {expression : String} (hk : d.kind = .sql expression)
    {input : String} (hinp : input ∈ d.inputs) : Soft (editsUnder (root L input) edits) := by
  rintro ⟨rest, a⟩ he
  have he := mem_editsUnder.1 he
  by_contra hhard
  have hhard' : a.rename.isSome ∨ a.dataType.isSome := by
    rw [not_and_or] at hhard
    exact hhard.imp Option.isSome_iff_ne_none.2 Option.isSome_iff_ne_none.2
  have hself := h.inputs d hd expression hk input hinp _ he hhard' rfl
  have hn : root L input = d.name := Option.some.inj hself
  refine hs.acyclic d.name (.single ?_)
  refine mem_computedReads.2 ⟨d, find_computedColumns.2 ⟨hd, rfl⟩, ⟨input, ?_, hn⟩,
    mem_map_of_mem hd⟩
  rw [inputPaths, hk]
  exact hinp

theorem eq_of_name (hfs : s'.fields = s.fields.map (alterField edits)) {f g : Field}
    (hf : f ∈ s.fields) (hg : g ∈ s.fields)
    (h : (alterField edits f).name = (alterField edits g).name) : f = g := by
  have hnd := s'.nodup
  rw [hfs, map_map] at hnd
  exact inj_on_of_nodup_map hnd hf hg h

end AlterFree

theorem exists_declared_of_altered {edits : List Edit}
    (hfs : s'.fields = s.fields.map (alterField edits)) (hd : d ∈ computedColumns L s') :
    ∃ f ∈ s.fields, isFlagged f.metadata ∧
      computedColumnFromField L f = some { d with name := f.name } := by
  obtain ⟨f', hf', hdecl⟩ := mem_computedColumns.1 hd
  rw [hfs] at hf'
  obtain ⟨f, hf, rfl⟩ := mem_map.1 hf'
  obtain ⟨hflag, hk, -, hinps⟩ := computedColumnFromField_eq_some.1 hdecl
  have hmeta := metadata_of_isFlagged_alterField hflag
  rw [hmeta] at hflag hk hinps
  exact ⟨f, hf, hflag, computedColumnFromField_eq_some.2 ⟨hflag, hk, rfl, hinps⟩⟩

theorem name_of_read {edits : List Edit} (hval : Valid L types s) (hs : Supported L s bindings)
    (hfree : AlterFree L s bindings edits) (hd : d ∈ computedColumns L s) {path : String}
    (hp : path ∈ inputPaths bindings d) :
    ∃ g ∈ s.fields, g.name = root L path ∧ (alterField edits g).name = g.name := by
  obtain ⟨f, hf, hdecl⟩ := mem_computedColumns.1 hd
  obtain ⟨hflag, hkind, -, -⟩ := computedColumnFromField_eq_some.1 hdecl
  rcases hs.kind hf hflag with ⟨expression, hsql⟩ | ⟨b, hb, ordinal, hfn, -⟩
  · obtain hk : d.kind = .sql expression := Option.some.inj (hkind.symm.trans hsql)
    rw [inputPaths, hk] at hp
    obtain ⟨g, hg, hn, -⟩ := hval.sqlInputs d hd expression hk path hp
    exact ⟨g, hg, hn, (alterField_of_soft (hn ▸ hfree.soft hs hd hk hp)).1⟩
  · obtain hk : d.kind = .function b.bindingId ordinal :=
      Option.some.inj (hkind.symm.trans hfn)
    have hfind : bindingById bindings b.bindingId = some b :=
      (find?_reverse_key_eq_some hs.nodup).2 ⟨hb, rfl⟩
    rw [inputPaths, hk] at hp
    simp only [hfind, Option.map_some, Option.getD_some] at hp
    obtain ⟨i, hi, rfl⟩ := mem_map.1 hp
    have hcol := root_mem_bindingColumns (L := L) hi
    obtain ⟨g, hg⟩ := hs.column hb hcol
    obtain ⟨hg, hn⟩ := Schema.fieldWithName_eq_some.1 hg
    refine ⟨g, hg, hn, ?_⟩
    rw [alterField_of_untouched (hn ▸ hfree.binding b hb _ hcol)]

/-- **An alteration** of columns that nothing depends on leads to a valid schema. -/
theorem valid_of_altered {edits : List Edit} (hval : Valid L types s)
    (hs : Supported L s bindings) (hfree : AlterFree L s bindings edits)
    (hfs : s'.fields = s.fields.map (alterField edits)) (hmeta : s'.metadata = s.metadata) :
    Supported L s' bindings ∧ Valid L types s' := by
  have hchg : Change L s s' bindings bindings := by
    refine ⟨hmeta ▸ hs.known, List.Sublist.refl _, ?_, ?_⟩
    · intro b hb c hc f hf hn
      rw [hfs]
      refine mem_map.2 ⟨f, hf, alterField_of_untouched ?_⟩
      rw [hn]
      exact hfree.binding b hb c hc
    · intro f' hf' hflag
      rw [hfs] at hf'
      obtain ⟨f, hf, rfl⟩ := mem_map.1 hf'
      have hm := metadata_of_isFlagged_alterField hflag
      refine ⟨f, hf, hm, ?_⟩
      by_cases hn : (alterField edits f).name = f.name
      · exact .inl ⟨hn, fun b hb _ _ _ => hb⟩
      · refine .inr ⟨?_, fun d hd path hp hr => ?_⟩
        · rcases hs.kind hf (hm ▸ hflag) with hsql | ⟨b, hb, ordinal, -, hto⟩
          · exact hsql
          · have hunt := hfree.binding b hb _
              (writes_subset b _ (mem_writes_of_destination hto))
            exact absurd (by rw [alterField_of_untouched hunt]) hn
        -- The column that is read under the new name has kept that name.
        · obtain ⟨g, hg, -, hdecl⟩ := exists_declared_of_altered hfs hd
          obtain ⟨x, hx, hxname, hk⟩ := name_of_read hval hs hfree
            (mem_computedColumns.2 ⟨g, hg, hdecl⟩) hp
          obtain rfl : f = x := AlterFree.eq_of_name hfs hf hx (by rw [hk, hxname, hr])
          exact hn hk
  have hs' := hchg.supported hs
  refine ⟨hs', valid_of_supported hs' fun d hd expression hkind input hinp => ?_⟩
  obtain ⟨f, hf, -, hdecl⟩ := exists_declared_of_altered hfs hd
  have hd₀ := mem_computedColumns.2 ⟨f, hf, hdecl⟩
  obtain ⟨g, hg, hn, htype⟩ := hval.sqlInputs _ hd₀ expression hkind input hinp
  obtain ⟨hgname, -, hgtype⟩ :=
    alterField_of_soft (hn ▸ hfree.soft hs hd₀ hkind hinp : Soft (editsUnder g.name edits))
  refine ⟨alterField edits g, ?_, hgname.trans hn, ?_⟩
  · rw [hfs]
    exact mem_map_of_mem hg
  · rw [hgname, hgtype, htype]

end LanceDB.Columns
