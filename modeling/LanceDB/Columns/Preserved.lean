import LanceDB.Columns.Frame

/-!
# A schema change keeps the declarations

* `Valid` : every declaration finds the columns it was made for.
* `Change` : what a schema change has to leave alone.
* `Change.supported`, `Change.valid` — such a change leads from a valid schema to a valid one.
-/

namespace LanceDB.Columns

open List Except

variable {L : Lance}
variable {d : ComputedColumn} {f : Field} {b : FunctionBinding} {s : Schema}
  {bindings : List FunctionBinding}

/-! ### Valid schemas -/

/-- The columns of a binding exist as it recorded them. -/
structure BindingPresent (L : Lance) (s : Schema) (b : FunctionBinding) : Prop where
  inputs : ∀ i ∈ b.inputs, ∃ parameter, bindingInputField L s b.bindingId i = .ok parameter
  outputs : ∀ o ∈ b.outputs, ∃ field, bindingOutputField L s b o = .ok field
  assignment : ∃ field, bindingAssignmentField L s b = .ok field

/-- Every declaration finds its columns.  `types` are the types the inputs of SQL declarations had
when they were declared; an expression does not depend on nullability. -/
structure Valid (L : Lance) (types : String → DataType) (s : Schema) : Prop where
  sqlInputs : ∀ d ∈ computedColumns L s, ∀ expression, d.kind = .sql expression →
    ∀ input ∈ d.inputs, ∃ f ∈ s.fields, f.name = root L input ∧
      f.dataType.unnulled = (types f.name).unnulled
  supported : ensureSupportedFunctionMetadata L s = .ok ()
  present : ∀ bindings, functionBindings L s.metadata = .ok bindings →
    ∀ b ∈ bindings, BindingPresent L s b

theorem ensureBindingMatchesSchema_of_ensureBinding (h : ensureBinding L s b = .ok ()) :
    ensureBindingMatchesSchema L s b = .ok () := by
  unfold ensureBinding at h
  simp only [bind, Except.bind] at h
  split_ifs at h
  exact h

theorem exists_ok_of_mapM_ok {α β : Type} {f : α → Except Error β} {l : List α} {bs : List β}
    (h : l.mapM f = .ok bs) {a : α} (ha : a ∈ l) : ∃ b, f a = .ok b := by
  obtain ⟨b, -, hb⟩ := exists_mem_of_forall₂ (mapM_eq_ok_iff.1 h) ha
  exact ⟨b, hb⟩

theorem bindingPresent_of_ensureBinding (h : ensureBinding L s b = .ok ()) :
    BindingPresent L s b := by
  have hmat := ensureBindingMatchesSchema_of_ensureBinding h
  unfold ensureBindingMatchesSchema at hmat
  simp only [bind_eq_ok] at hmat
  obtain ⟨inputFields, hinps, json, hjson, value, hval, hmat⟩ := hmat
  split_ifs at hmat with hsch
  · exact absurd hmat (by simp [invalidFunction, bind, Except.bind])
  · obtain ⟨outputFields, houts, hmat⟩ := bind_eq_ok.1 hmat
    obtain ⟨assignment, hasg, -⟩ := bind_eq_ok.1 hmat
    exact ⟨fun i hi => exists_ok_of_mapM_ok hinps hi,
      fun o ho => exists_ok_of_mapM_ok houts ho, assignment, hasg⟩

/-! ### Declarations of a schema -/

theorem computedColumnFromField_eq_some :
    computedColumnFromField L f = some d ↔ isFlagged f.metadata ∧
      declaredKind f.metadata = some d.kind ∧ d.name = f.name ∧
      d.inputs = (declaredInputs L f.metadata).getD [] := by
  obtain ⟨name, kind, inputs⟩ := d
  unfold computedColumnFromField
  split_ifs with hf
  · simp only [Option.map_eq_some_iff, ComputedColumn.mk.injEq, hf, true_and]
    constructor
    · rintro ⟨k, hk, rfl, rfl, rfl⟩
      exact ⟨hk, rfl, rfl⟩
    · rintro ⟨hk, rfl, rfl⟩
      exact ⟨kind, hk, rfl, rfl, rfl⟩
  · simp [hf]

theorem mem_computedColumns :
    d ∈ computedColumns L s ↔ ∃ f ∈ s.fields, computedColumnFromField L f = some d :=
  mem_filterMap

theorem computedColumnFromField_congr {f' : Field} (hn : f'.name = f.name)
    (hmeta : f'.metadata = f.metadata) :
    computedColumnFromField L f' = computedColumnFromField L f := by
  rw [computedColumnFromField, computedColumnFromField, hn, hmeta]

theorem nodup_computedColumns (s : Schema) : ((computedColumns L s).map (·.name)).Nodup := by
  refine s.nodup.sublist ?_
  rw [computedColumns]
  induction s.fields with
  | nil => simp
  | cons f fs ih =>
    cases hd : computedColumnFromField L f with
    | none => simpa [filterMap_cons, hd] using ih.trans (sublist_cons_self _ _)
    | some d =>
      have hn := (computedColumnFromField_eq_some.1 hd).2.2.1
      simpa [filterMap_cons, hd, hn] using ih

theorem find_computedColumns {name : String} :
    (computedColumns L s).reverse.find? (·.name == name) = some d ↔
      d ∈ computedColumns L s ∧ d.name = name :=
  find?_reverse_key_eq_some (nodup_computedColumns s)

theorem map_kind_computedColumnFromField (hf : isFlagged f.metadata) :
    (computedColumnFromField L f).map ComputedColumn.kind = declaredKind f.metadata := by
  rw [computedColumnFromField, if_pos hf, Option.map_map]
  exact Option.map_id'

/-- A computed column of a supported schema is a SQL column, or the destination of one of the
bindings. -/
theorem Supported.kind (h : Supported L s bindings) (hf : f ∈ s.fields)
    (hflag : isFlagged f.metadata) :
    (∃ expression, declaredKind f.metadata = some (.sql expression)) ∨
      ∃ b ∈ bindings, ∃ ordinal, declaredKind f.metadata = some (.function b.bindingId ordinal) ∧
        destination b ordinal = some f.name := by
  have hchk := h.declaration f hf
  rw [ensureDeclaration, if_pos hflag, map_kind_computedColumnFromField hflag] at hchk
  split at hchk
  · rename_i bindingId ordinal hd
    simp only [bind_eq_ok, orInvalid_eq_ok] at hchk
    obtain ⟨b, hb, column, hcol, hchk⟩ := hchk
    obtain ⟨hmem, rfl⟩ := (find?_reverse_key_eq_some h.nodup).1 hb
    refine .inr ⟨b, hmem, ordinal, hd, ?_⟩
    by_cases hn : column = f.name
    · rw [hcol, hn]
    · simp [hn] at hchk
  · rename_i expression hd
    exact .inl ⟨expression, hd⟩
  · simp at hchk
  · simp at hchk

theorem Supported.exists_declared (h : Supported L s bindings) (hf : f ∈ s.fields)
    (hflag : isFlagged f.metadata) : ∃ d, computedColumnFromField L f = some d := by
  rcases h.kind hf hflag with ⟨expression, hk⟩ | ⟨b, -, ordinal, hk, -⟩
  all_goals
    rw [computedColumnFromField, if_pos hflag, hk]
    exact ⟨_, rfl⟩

theorem Supported.column (h : Supported L s bindings) (hb : b ∈ bindings) {c : String}
    (hc : c ∈ bindingColumns L b) : ∃ f, s.fieldWithName c = some f := by
  have hpres := bindingPresent_of_ensureBinding (h.binding b hb)
  rw [bindingColumns, mem_append, mem_append] at hc
  rcases hc with (hc | hc) | hc
  · obtain ⟨i, hi, rfl⟩ := mem_map.1 hc
    obtain ⟨parameter, hparameter⟩ := hpres.inputs i hi
    obtain ⟨⟨column, leaf⟩, hres, -⟩ := bind_eq_ok.1 hparameter
    unfold resolveFieldPath at hres
    split at hres
    · simp [invalidFunction] at hres
    · simp [invalidFunction] at hres
    · rename_i name children hprs
      obtain ⟨f, hf, -⟩ := bind_eq_ok.1 hres
      rw [root_of_parse hprs]
      exact ⟨f, orInvalid_eq_ok.1 hf⟩
  · obtain ⟨o, ho, rfl⟩ := mem_map.1 hc
    obtain ⟨field, hfld⟩ := hpres.outputs o ho
    obtain ⟨f, hf, -⟩ := bind_eq_ok.1 hfld
    exact ⟨f, orInvalid_eq_ok.1 hf⟩
  · obtain ⟨a, ha, rfl⟩ : ∃ a, b.assignment = some a ∧ a.outputName = c := by simpa using hc
    obtain ⟨field, hfld⟩ := hpres.assignment
    simp only [bindingAssignmentField, ha] at hfld
    split_ifs at hfld with hwh
    · exact absurd hfld (by simp [invalidFunction, bind, Except.bind])
    · obtain ⟨f, hf, -⟩ := bind_eq_ok.1 hfld
      exact ⟨f, orInvalid_eq_ok.1 hf⟩

/-! ### Changes of a schema -/

/-- What a change from `s` to `s'` leaves alone, where the bindings `bindings'` stay. -/
structure Change (L : Lance) (s s' : Schema) (bindings bindings' : List FunctionBinding) :
    Prop where
  known : Known L s'.metadata bindings'
  sublist : bindings'.Sublist bindings
  /-- The columns of the bindings that stay are as they were. -/
  columns : ∀ b ∈ bindings', ∀ c ∈ bindingColumns L b, ∀ f ∈ s.fields, f.name = c →
    f ∈ s'.fields
  /-- A computed column keeps its declaration.  It may be renamed only if nothing reads the new
  name. -/
  declared : ∀ f' ∈ s'.fields, isFlagged f'.metadata → ∃ f ∈ s.fields,
    f'.metadata = f.metadata ∧
    ((f'.name = f.name ∧ ∀ b ∈ bindings, ∀ ordinal,
        declaredKind f.metadata = some (.function b.bindingId ordinal) →
          destination b ordinal = some f.name → b ∈ bindings') ∨
      ((∃ expression, declaredKind f.metadata = some (.sql expression)) ∧
        ∀ d ∈ computedColumns L s', ∀ path ∈ inputPaths bindings' d, root L path ≠ f'.name))

namespace Change

variable {s' : Schema} {bindings' : List FunctionBinding}
  (hc : Change L s s' bindings bindings') (h : Supported L s bindings)
include hc h

theorem nodup : (bindings'.map (·.bindingId)).Nodup :=
  h.nodup.sublist (hc.sublist.map _)

theorem bindingById_eq (hb : b ∈ bindings') :
    bindingById bindings' b.bindingId = some b ∧ bindingById bindings b.bindingId = some b :=
  ⟨(find?_reverse_key_eq_some (hc.nodup h)).2 ⟨hb, rfl⟩,
    (find?_reverse_key_eq_some h.nodup).2 ⟨hc.sublist.subset hb, rfl⟩⟩

theorem ensureBinding (hb : b ∈ bindings') : ensureBinding L s' b = .ok () := by
  rw [ensureBinding_congr (s := s)]
  · exact h.binding b (hc.sublist.subset hb)
  · intro c hmem
    obtain ⟨f, hf⟩ := h.column (hc.sublist.subset hb) hmem
    rw [hf]
    obtain ⟨hfs, hn⟩ := Schema.fieldWithName_eq_some.1 hf
    exact Schema.fieldWithName_eq_some.2 ⟨hc.columns b hb c hmem f hfs hn, hn⟩

theorem ensureDeclaration {f' : Field} (hf' : f' ∈ s'.fields) :
    ensureDeclaration L bindings' f' = .ok () := by
  by_cases hflag : isFlagged f'.metadata
  · rw [Columns.ensureDeclaration, if_pos hflag, map_kind_computedColumnFromField hflag]
    obtain ⟨f, hf, hmeta, hk | ⟨⟨expression, hsql⟩, -⟩⟩ := hc.declared f' hf' hflag
    · rw [hmeta]
      rcases h.kind hf (hmeta ▸ hflag) with ⟨expression, hsql⟩ | ⟨b, hb, ordinal, hkind, hto⟩
      · rw [hsql]
      · have hstays := hk.2 b hb ordinal hkind hto
        rw [hkind]
        simp [(hc.bindingById_eq h hstays).1, hto, hk.1, orInvalid, bind, Except.bind, pure,
          Except.pure]
    · rw [hmeta, hsql]
  · rw [Columns.ensureDeclaration, if_neg hflag]

theorem mem_inputPaths {path : String} (hp : path ∈ inputPaths bindings' d) :
    path ∈ inputPaths bindings d := by
  unfold inputPaths at hp ⊢
  split at hp
  · rename_i bindingId ordinal hk
    cases hb : bindingById bindings' bindingId with
    | none => simp [hb] at hp
    | some b =>
      obtain ⟨hmem, rfl⟩ := (find?_reverse_key_eq_some (hc.nodup h)).1 hb
      rw [(hc.bindingById_eq h hmem).2]
      rwa [hb] at hp
  · exact hp

theorem acyclic : InputsAcyclic L s' bindings' := by
  have hin : ∀ a b, DepthFirst.Reads (computedReads L (computedColumns L s') bindings') a b →
      ∀ d' ∈ computedColumns L s', d'.name = b → d' ∈ computedColumns L s := by
    intro a b hr d' hd' hn
    obtain ⟨d, hfind, ⟨path, hp, hroot⟩, -⟩ := mem_computedReads.1 hr
    obtain ⟨f', hf', hdecl⟩ := mem_computedColumns.1 hd'
    have hf'name := (computedColumnFromField_eq_some.1 hdecl).2.2.1
    obtain ⟨f, hf, hmeta, hk | ⟨-, hunread⟩⟩ :=
      hc.declared f' hf' (computedColumnFromField_eq_some.1 hdecl).1
    · refine mem_computedColumns.2 ⟨f, hf, ?_⟩
      rw [← hdecl, computedColumnFromField_congr hk.1 hmeta]
    · have hr := hunread d (find_computedColumns.1 hfind).1 path hp
      exact absurd (hroot.trans (hn.symm.trans hf'name)) hr
  refine h.acyclic.of_kept hin fun a b hk hr => ?_
  obtain ⟨d, hfind, ⟨path, hp, hroot⟩, hb⟩ := mem_computedReads.1 hr
  obtain ⟨hd, hn⟩ := find_computedColumns.1 hfind
  obtain ⟨e, he, hename⟩ := mem_map.1 hb
  refine mem_computedReads.2 ⟨d, find_computedColumns.2 ⟨hk d hd hn, hn⟩,
    ⟨path, hc.mem_inputPaths h hp, hroot⟩, ?_⟩
  exact mem_map.2 ⟨e, hin a b hr e he hename, hename⟩

/-- **The change keeps the declarations understood.** -/
theorem supported : Supported L s' bindings' :=
  ⟨hc.known, hc.nodup h, fun _ hb => hc.ensureBinding h hb,
    fun _ hf' => hc.ensureDeclaration h hf', hc.acyclic h⟩

end Change

theorem valid_of_supported {types : String → DataType} (h : Supported L s bindings)
    (hinps : ∀ d ∈ computedColumns L s, ∀ expression, d.kind = .sql expression →
    ∀ input ∈ d.inputs, ∃ f ∈ s.fields, f.name = root L input ∧
    f.dataType.unnulled = (types f.name).unnulled) : Valid L types s := by
  refine ⟨hinps, ensureSupportedFunctionMetadata_eq_ok_iff.2 ⟨bindings, h⟩, ?_⟩
  intro bindings' hbinds' b hb
  rw [h.known.functionBindings] at hbinds'
  obtain rfl := ok.inj hbinds'
  exact bindingPresent_of_ensureBinding (h.binding b hb)

end LanceDB.Columns
