import LanceDB.Columns.Evolution

/-!
# What the checks of the column operations establish

* `Supported` : a schema whose declarations and bindings pass the check, with its bindings.
* `ensureSupportedFunctionMetadata_eq_ok_iff` — the check passes exactly for those.
* `ensureBinding_congr` — the check of a binding reads only the columns it depends on.
* `ensureNotBoundBy_ok`, `ensureNotAnInputOf_ok` — what the touched paths leave alone.
-/

namespace LanceDB.Columns

open List Except

variable {L : Lance}
variable {b : FunctionBinding} {columns : List ComputedColumn} {bindings : List FunctionBinding}
  {m : Metadata} {s : Schema} {path : String}
variable {column : String}

/-! ### Paths -/

theorem fieldRoot_eq_ok :
    fieldRoot L path = .ok column ↔ ∃ rest, L.parseFieldPath path = .ok (column :: rest) := by
  unfold fieldRoot
  split
  · simp_all
  · simp_all
  · simp_all

theorem wholeColumn_eq_ok_some :
    wholeColumn L path = .ok (some column) ↔ L.parseFieldPath path = .ok [column] := by
  unfold wholeColumn
  split
  · simp_all
  · simp_all
  · simp_all
  · simp_all

theorem root_of_parse {rest : List String} (h : L.parseFieldPath path = .ok (column :: rest)) :
    root L path = column := by
  rw [root, fieldRoot_eq_ok.2 ⟨rest, h⟩]

theorem root_of_head {names : List String} (h : L.parseFieldPath path = .ok names)
    (hc : names.head? = some column) : root L path = column := by
  cases names with
  | nil => cases hc
  | cons first rest =>
    cases hc
    exact root_of_parse h

theorem root_of_fieldRoot (h : fieldRoot L path = .ok column) : root L path = column := by
  rw [root, h]

/-! ### The bindings of a schema -/

/-- The stored bindings, all of a known shape. -/
structure Known (L : Lance) (m : Metadata) (bindings : List FunctionBinding) : Prop where
  exists_raw : ∃ envelope, functionBindingEnvelope L m = .ok envelope ∧
    (∀ v ∈ (envelope.map (·.bindings)).getD [], ensureKnownBindingShape v = .ok ()) ∧
    ((envelope.map (·.bindings)).getD []).mapM (decodeBinding L) = .ok bindings

theorem decodeBinding_eq_ok {v : Json} :
    decodeBinding L v = .ok b ↔ FunctionBinding.fromValue v = some b := by
  unfold decodeBinding
  cases FunctionBinding.fromValue v <;> simp [orInvalid]

theorem Known.functionBindings (h : Known L m bindings) : functionBindings L m = .ok bindings := by
  obtain ⟨envelope, henv, -, hdec⟩ := h.exists_raw
  rw [Columns.functionBindings, henv]
  cases envelope with
  | none => exact hdec
  | some envelope => exact hdec

theorem Known.wire (h : Known L m bindings) (hb : b ∈ bindings) : b.Wire := by
  obtain ⟨envelope, -, -, hdec⟩ := h.exists_raw
  obtain ⟨v, -, hv⟩ := mem_of_mapM_ok hdec hb
  exact FunctionBinding.wire_of_fromValue (decodeBinding_eq_ok.1 hv)

theorem known_of_get_eq_none (h : m.get functionBindingsMetaKey = none) : Known L m [] :=
  ⟨none, by rw [functionBindingEnvelope, h], by simp, rfl⟩

/-- **Encoded bindings are read back.** -/
theorem known_of_functionBindingsMetadata {raw : String} (hwire : ∀ b ∈ bindings, b.Wire)
    (hraw : functionBindingsMetadata L bindings = .ok raw)
    (hm : m.get functionBindingsMetaKey = some raw) : Known L m bindings := by
  have hencoded : L.envelopeToStr ⟨functionBindingsVersion, bindings.map (·.toValue)⟩ =
      .ok raw := by
    unfold functionBindingsMetadata orInvalidFunction at hraw
    split at hraw
    · rename_i r hr
      rw [hr, ok.inj hraw]
    · simp [invalidFunction] at hraw
  have henv : functionBindingEnvelope L m =
      .ok (some ⟨functionBindingsVersion, bindings.map (·.toValue)⟩) := by
    rw [functionBindingEnvelope, hm]
    simp only [L.envelopeFromStr_toStr hencoded, orInvalidFunction]
    rfl
  refine ⟨_, henv, ?_, ?_⟩
  · intro v hv
    obtain ⟨b, -, rfl⟩ := mem_map.1 (show v ∈ bindings.map (·.toValue) from hv)
    exact ensureKnownBindingShape_toValue b
  · show (bindings.map (·.toValue)).mapM (decodeBinding L) = .ok bindings
    rw [mapM_map]
    have hdec : ∀ b ∈ bindings, (decodeBinding L ∘ (·.toValue)) b = .ok (id b) := by
      intro b hb
      exact decodeBinding_eq_ok.2 (FunctionBinding.fromValue_toValue (hwire b hb))
    simpa using mapM_eq_ok hdec

/-! ### The check of the bindings -/

theorem ensureBindings_eq_ok_iff :
    ∀ {seen : List String}, ensureBindings L s seen bindings = .ok () ↔
      (∀ b ∈ bindings, b.bindingId ∉ seen ∧ ensureBinding L s b = .ok ()) ∧
        (bindings.map (·.bindingId)).Nodup := by
  induction bindings with
  | nil => simp [ensureBindings]
  | cons b bs ih =>
    intro seen
    rw [ensureBindings]
    by_cases hs : b.bindingId ∈ seen
    · simp [hs, bind, Except.bind]
    · simp only [hs, if_false]
      cases hb : ensureBinding L s b with
      | error e => simp [hb, bind, Except.bind]
      | ok u =>
        simp only [bind, Except.bind]
        rw [ih, forall_mem_cons, map_cons, nodup_cons]
        simp only [mem_cons, not_or, mem_map, not_exists, not_and]
        constructor
        · rintro ⟨hr, hnd⟩
          exact ⟨⟨⟨hs, hb⟩, fun c hc => ⟨(hr c hc).1.2, (hr c hc).2⟩⟩,
            fun c hc => (hr c hc).1.1, hnd⟩
        · rintro ⟨⟨-, hr⟩, hfr, hnd⟩
          exact ⟨fun c hc => ⟨⟨hfr c hc, (hr c hc).1⟩, (hr c hc).2⟩, hnd⟩

/-! ### The check of the schema -/

/-- The computed columns read each other in no cycle. -/
def InputsAcyclic (L : Lance) (s : Schema) (bindings : List FunctionBinding) : Prop :=
  Acyclic (DepthFirst.Reads (computedReads L (computedColumns L s) bindings))

theorem mem_computedReads {a b : String} : b ∈ computedReads L columns bindings a ↔
      ∃ column, columns.reverse.find? (·.name == a) = some column ∧
        (∃ path ∈ inputPaths bindings column, root L path = b) ∧
        b ∈ columns.map (·.name) := by
  unfold computedReads
  cases hcol : columns.reverse.find? (·.name == a) with
  | none => simp
  | some column =>
    simp [mem_insertionSort]

theorem mem_of_computedReads {a b : String} (hb : b ∈ computedReads L columns bindings a) :
    a ∈ columns.map (·.name) ∧ b ∈ columns.map (·.name) := by
  obtain ⟨column, hf, -, hb⟩ := mem_computedReads.1 hb
  have hn : column.name = a := by simpa using find?_some hf
  have hmem := mem_reverse.1 (mem_of_find?_eq_some hf)
  exact ⟨mem_map.2 ⟨column, hmem, hn⟩, hb⟩

theorem ensureInputsAcyclic_eq_ok_iff : ensureInputsAcyclic L columns bindings = .ok () ↔
      Acyclic (DepthFirst.Reads (computedReads L columns bindings)) := by
  rw [← DepthFirst.check_eq_ok_iff fun _ _ => mem_of_computedReads, ensureInputsAcyclic,
    searchCycle]
  split <;> simp_all

/-- A schema whose declarations this version understands, with its bindings. -/
structure Supported (L : Lance) (s : Schema) (bindings : List FunctionBinding) : Prop where
  known : Known L s.metadata bindings
  nodup : (bindings.map (·.bindingId)).Nodup
  binding : ∀ b ∈ bindings, ensureBinding L s b = .ok ()
  declaration : ∀ f ∈ s.fields, ensureDeclaration L bindings f = .ok ()
  acyclic : InputsAcyclic L s bindings

/-- **The check passes** exactly for the supported schemas. -/
theorem ensureSupportedFunctionMetadata_eq_ok_iff :
    ensureSupportedFunctionMetadata L s = .ok () ↔ ∃ bindings, Supported L s bindings := by
  simp only [ensureSupportedFunctionMetadata, bind_eq_ok]
  constructor
  · rintro ⟨envelope, henv, ⟨⟩, hshape, bindings, hdec, ⟨⟩, hbinds, ⟨⟩, hd, hacyc⟩
    obtain ⟨hbind, hnd⟩ := ensureBindings_eq_ok_iff.1 hbinds
    exact ⟨bindings, ⟨envelope, henv, forM_eq_ok.1 hshape, hdec⟩, hnd,
      fun b hb => (hbind b hb).2, forM_eq_ok.1 hd,
      ensureInputsAcyclic_eq_ok_iff.1 hacyc⟩
  · rintro ⟨bindings, ⟨envelope, henv, hshape, hdec⟩, hnd, hbind, hd, hacyc⟩
    refine ⟨envelope, henv, (), forM_eq_ok.2 hshape, bindings, hdec, (), ?_, (),
      forM_eq_ok.2 hd, ensureInputsAcyclic_eq_ok_iff.2 hacyc⟩
    exact ensureBindings_eq_ok_iff.2 ⟨fun b hb => ⟨by simp, hbind b hb⟩, hnd⟩

/-! ### The columns of a binding -/

/-- The columns a binding depends on, inputs taken at their root. -/
def bindingColumns (L : Lance) (b : FunctionBinding) : List String :=
  b.inputs.map (fun i => root L i.fieldPath) ++ b.outputs.map (·.outputName) ++
    (b.assignment.map (·.outputName)).toList

theorem root_mem_bindingColumns {i : InputBinding} (hi : i ∈ b.inputs) :
    root L i.fieldPath ∈ bindingColumns L b :=
  mem_append_left _ (mem_append_left _ (mem_map.2 ⟨i, hi, rfl⟩))

theorem output_mem_bindingColumns {o : OutputMapping} (ho : o ∈ b.outputs) :
    o.outputName ∈ bindingColumns L b :=
  mem_append_left _ (mem_append_right _ (mem_map.2 ⟨o, ho, rfl⟩))

theorem assignment_mem_bindingColumns {a : AssignmentMapping} (ha : b.assignment = some a) :
    a.outputName ∈ bindingColumns L b :=
  mem_append_right _ (by simp [ha])

theorem resolveFieldPath_congr {s' : Schema}
    (h : s'.fieldWithName (root L path) = s.fieldWithName (root L path)) :
    resolveFieldPath L s' path = resolveFieldPath L s path := by
  unfold resolveFieldPath
  cases hprs : L.parseFieldPath path with
  | error e => rfl
  | ok names =>
    cases names with
    | nil => rfl
    | cons column rest =>
      rw [root_of_parse hprs] at h
      simp only [h]

theorem mapM_congr_mem {α β : Type} {f g : α → Except Error β} {l : List α}
    (h : ∀ a ∈ l, f a = g a) : l.mapM f = l.mapM g := by
  induction l with
  | nil => rfl
  | cons a l ih =>
    rw [mapM_cons, mapM_cons, h a (by simp), ih fun b hb => h b (by simp [hb])]

/-- **The check of a binding** reads only the columns it depends on. -/
theorem ensureBinding_congr {s' : Schema}
    (h : ∀ c ∈ bindingColumns L b, s'.fieldWithName c = s.fieldWithName c) :
    ensureBinding L s' b = ensureBinding L s b := by
  have hinp : b.inputs.mapM (bindingInputField L s' b.bindingId) =
      b.inputs.mapM (bindingInputField L s b.bindingId) := by
    refine mapM_congr_mem fun i hi => ?_
    have hres := resolveFieldPath_congr (h _ (root_mem_bindingColumns hi))
    simp only [bindingInputField, hres]
  have houtput : b.outputs.mapM (bindingOutputField L s' b) =
      b.outputs.mapM (bindingOutputField L s b) := by
    refine mapM_congr_mem fun o ho => ?_
    have hfld := h o.outputName (output_mem_bindingColumns ho)
    simp only [bindingOutputField, hfld]
  have hasg : bindingAssignmentField L s' b = bindingAssignmentField L s b := by
    unfold bindingAssignmentField
    cases ha : b.assignment with
    | none => rfl
    | some a =>
      have hfld := h a.outputName (assignment_mem_bindingColumns ha)
      simp only [hfld]
  simp only [ensureBinding, ensureBindingMatchesSchema, hinp, houtput, hasg]

/-! ### The touched columns -/

theorem protectedRoots_ok :
    ∀ {roots : List String}, protectedRoots L bindings = .ok roots →
      ∀ b ∈ bindings, ∀ c ∈ bindingColumns L b, c ∈ roots := by
  induction bindings with
  | nil => simp
  | cons b bs ih =>
    intro roots h
    rw [protectedRoots, bind_eq_ok] at h
    obtain ⟨inputs, hinps, h⟩ := h
    obtain ⟨rest, hr, h⟩ := bind_eq_ok.1 h
    obtain rfl := ok.inj h
    have hroots : inputs = b.inputs.map fun i => root L i.fieldPath :=
      eq_map_of_mapM_ok hinps fun i _ column hcol => (root_of_fieldRoot hcol).symm
    intro b' hb' c hc
    rcases mem_cons.1 hb' with rfl | hb'
    · rw [hroots]
      exact mem_append_left _ hc
    · exact mem_append_right _ (ih hr b' hb' c hc)

/-- **No touched path** addresses a column of the bindings. -/
theorem ensureNotBoundBy_ok {operation : String} {touched : List String}
    (h : ensureNotBoundBy L bindings operation touched = .ok ()) (hb : b ∈ bindings) {c : String}
    (hc : c ∈ bindingColumns L b) (hp : path ∈ touched) : root L path ≠ c := by
  rw [ensureNotBoundBy, bind_eq_ok] at h
  obtain ⟨roots, hroots, h⟩ := h
  have hmem := protectedRoots_ok hroots b hb c hc
  rw [if_neg (ne_nil_of_mem hmem)] at h
  have hs := forM_eq_ok.1 h path hp
  obtain ⟨column, hcol, hs⟩ := bind_eq_ok.1 hs
  rw [root_of_fieldRoot hcol]
  rintro rfl
  rw [if_pos hmem] at hs
  simp at hs

theorem ensureNotAnInputOf_ok {paths removed : List String}
    (h : ensureNotAnInputOf L s paths removed = .ok ()) :
    ∃ wholes, removed.mapM (wholeColumn L) = .ok wholes ∧
      ∀ d ∈ computedColumns L s, d.name ∉ wholes.reduceOption →
        ∃ inputs, guardedInputs L s d = .ok inputs ∧ ∀ path ∈ paths,
          d.name = path ∨
            (d.name ≠ root L path ∧ ∀ i ∈ inputs, root L i ≠ root L path) := by
  rw [ensureNotAnInputOf, bind_eq_ok] at h
  obtain ⟨wholes, hwhs, h⟩ := h
  refine ⟨wholes, hwhs, fun d hd hk => ?_⟩
  have hs := forM_eq_ok.1 h d hd
  rw [if_neg hk] at hs
  obtain ⟨inputs, hinps, hs⟩ := bind_eq_ok.1 hs
  refine ⟨inputs, hinps, fun path hp => ?_⟩
  have hchk := forM_eq_ok.1 hs path hp
  by_cases htext : d.name = path
  · exact .inl htext
  · refine .inr ?_
    rw [if_neg htext] at hchk
    by_cases hroot : d.name = root L path
    · simp [hroot, bind, Except.bind] at hchk
    · refine ⟨hroot, fun i hi hr => ?_⟩
      have hany : (inputs.any fun input => decide (root L input = root L path)) = true :=
        any_eq_true.2 ⟨i, hi, by simpa using hr⟩
      simp [hroot, hany] at hchk

end LanceDB.Columns
