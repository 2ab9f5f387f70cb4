import LanceDB.Columns.Requests

/-!
# Runs of drops and alterations

* `executeDropColumns_ok`, `executeDropColumns_error` — what a drop commits, and that a refused
  one commits nothing.
* `executeAlterColumns_ok`, `executeAlterColumns_error` — the same for alterations.
* `Reached` : the tables that requests lead to.
* `declarations_preserved` — the declarations of every version are kept.
-/

namespace LanceDB.Columns

open List EStateM Except

variable {L : Lance}
variable {e : Error} {alterations : List ColumnAlteration} {columns : List String} {s : Schema}
variable {dropped : List String}

/-! ### Running a request -/

theorem require_bind_ok {α β : Type} {x : Except Error α} {f : α → EStateM Error Table β}
    {t t' : Table} {b : β} :
    (require x >>= f) t = .ok b t' ↔ ∃ a, x = .ok a ∧ f a t = .ok b t' := by
  cases x with
  | ok a => simp [require]
  | error e => simp [require, throw, throwThe, MonadExceptOf.throw, EStateM.throw]

theorem require_bind_error {α β : Type} {x : Except Error α} {f : α → EStateM Error Table β}
    {t t' : Table} : (require x >>= f) t = .error e t' ↔
      (x = .error e ∧ t' = t) ∨ ∃ a, x = .ok a ∧ f a t = .error e t' := by
  cases x with
  | ok a => simp [require]
  | error e' =>
    simp [require, throw, throwThe, MonadExceptOf.throw, EStateM.throw, eq_comm]

theorem project_ok {t t' : Table} :
    ((do
      let dataset ← get
      let projected ← require (dropColumns L dataset.schema dropped)
      modify (·.commit projected)) : EStateM Error Table Unit) t = .ok () t' ↔
      ∃ s, dropColumns L t.schema dropped = .ok s ∧ t' = t.commit s := by
  rw [bind_apply, get_apply]
  simp only [require_bind_ok, modify_apply, EStateM.Result.ok.injEq, true_and]
  exact exists_congr fun s => and_congr_right fun _ => eq_comm

theorem project_error {t t' : Table} (h : ((do
    let dataset ← get
    let projected ← require (dropColumns L dataset.schema dropped)
    modify (·.commit projected)) : EStateM Error Table Unit) t = .error e t') :
    dropColumns L t.schema dropped = .error e ∧ t' = t := by
  rw [bind_apply, get_apply] at h
  simp only [require_bind_error, modify_apply, reduceCtorEq, and_false, exists_false,
    or_false] at h
  exact h

theorem executeDropColumns_ok {t t' : Table} (h : executeDropColumns L columns t = .ok () t') :
    ∃ u, planFunctionUnbinding L t.schema columns = .ok u ∧
      ensureNotBoundBy L u.retained "schema evolution" (columns ++ u.assignmentColumns) = .ok () ∧
      ensureNotAnInputOf L t.schema (columns ++ u.assignmentColumns)
        (columns ++ u.assignmentColumns) = .ok () ∧
      ((u.isNoop = true ∧ ∃ s₂, dropColumns L t.schema (columns ++ u.assignmentColumns) = .ok s₂ ∧
          t' = t.commit s₂) ∨
        (u.isNoop = false ∧ ∃ s₁ s₂, unboundSchema L t.schema u = .ok s₁ ∧
          dropColumns L s₁ (columns ++ u.assignmentColumns) = .ok s₂ ∧
          t' = (t.commit s₁).commit s₂)) := by
  unfold executeDropColumns at h
  rw [bind_apply, get_apply] at h
  simp only [require_bind_ok] at h
  obtain ⟨⟨⟩, -, ⟨⟩, -, u, hu, ⟨⟩, hbd, ⟨⟩, hinp, h⟩ := h
  refine ⟨u, hu, hbd, hinp, ?_⟩
  split_ifs at h with hnoop
  · obtain ⟨⟨⟩, -, h⟩ := require_bind_ok.1 h
    obtain ⟨s₁, hs₁, h⟩ := require_bind_ok.1 h
    rw [bind_apply, modify_apply] at h
    obtain ⟨s₂, hs₂, rfl⟩ := project_ok.1 h
    exact .inr ⟨hnoop, s₁, s₂, hs₁, hs₂, rfl⟩
  · obtain ⟨s₂, hs₂, rfl⟩ := project_ok.1 h
    exact .inl ⟨by simpa using hnoop, s₂, hs₂, rfl⟩

/-- A drop that fails has committed nothing, or the retirement of bindings only, after its
projection had been planned. -/
theorem executeDropColumns_error {t t' : Table} (h : executeDropColumns L columns t = .error e t') :
    t' = t ∨
      ∃ u s₁ s₂, planFunctionUnbinding L t.schema columns = .ok u ∧
        ensureNotAnInputOf L t.schema (columns ++ u.assignmentColumns)
          (columns ++ u.assignmentColumns) = .ok () ∧
        dropColumns L t.schema (columns ++ u.assignmentColumns) = .ok s₂ ∧
        unboundSchema L t.schema u = .ok s₁ ∧
        dropColumns L s₁ (columns ++ u.assignmentColumns) = .error e := by
  unfold executeDropColumns at h
  rw [bind_apply, get_apply] at h
  simp only [require_bind_error] at h
  rcases h with ⟨-, h⟩ | ⟨⟨⟩, -, h⟩
  · exact .inl h
  rcases h with ⟨-, h⟩ | ⟨⟨⟩, -, h⟩
  · exact .inl h
  rcases h with ⟨-, h⟩ | ⟨u, hu, h⟩
  · exact .inl h
  rcases h with ⟨-, h⟩ | ⟨⟨⟩, -, h⟩
  · exact .inl h
  rcases h with ⟨-, h⟩ | ⟨⟨⟩, hinp, h⟩
  · exact .inl h
  split_ifs at h with hnoop
  · rcases require_bind_error.1 h with ⟨-, h⟩ | ⟨⟨⟩, hp, h⟩
    · exact .inl h
    rcases require_bind_error.1 h with ⟨-, h⟩ | ⟨s₁, hs₁, h⟩
    · exact .inl h
    rw [bind_apply, modify_apply] at h
    obtain ⟨s₂, hs₂, -⟩ := bind_eq_ok.1 hp
    exact .inr ⟨u, s₁, s₂, hu, hinp, hs₂, hs₁, (project_error h).1⟩
  · exact .inl (project_error h).2

theorem executeAlterColumns_ok {t t' : Table}
    (h : executeAlterColumns L alterations t = .ok () t') :
    ensureNotFunctionBound L t.schema "schema evolution"
        (alterations.flatMap fun a => a.path :: a.rename.toList) = .ok () ∧
      ensureNotAnInput L t.schema
        ((alterations.filter fun a => a.rename.isSome || a.dataType.isSome).map (·.path)) =
          .ok () ∧
      ∃ s, alterColumns L t.schema alterations = .ok s ∧ t' = t.commit s := by
  unfold executeAlterColumns at h
  rw [bind_apply, get_apply] at h
  simp only [require_bind_ok, modify_apply, EStateM.Result.ok.injEq, true_and] at h
  obtain ⟨⟨⟩, -, ⟨⟩, -, ⟨⟩, hbd, ⟨⟩, hinp, ⟨⟩, -, s, hs, rfl⟩ := h
  exact ⟨hbd, hinp, s, hs, rfl⟩

theorem executeAlterColumns_error {t t' : Table}
    (h : executeAlterColumns L alterations t = .error e t') : t' = t := by
  unfold executeAlterColumns at h
  rw [bind_apply, get_apply] at h
  simp only [require_bind_error, modify_apply, reduceCtorEq, and_false, exists_false,
    or_false] at h
  rcases h with ⟨-, h⟩ | ⟨⟨⟩, -, ⟨-, h⟩ | ⟨⟨⟩, -, ⟨-, h⟩ | ⟨⟨⟩, -, ⟨-, h⟩ | ⟨⟨⟩, -, ⟨-, h⟩ | ⟨⟨⟩,
    -, -, h⟩⟩⟩⟩⟩
  all_goals exact h

/-! ### A planned projection can be applied after the retirement -/

theorem leadsTo_congr (path : List String) : ∀ {fs gs : List Field},
    fs.map (fun f => (f.name, f.dataType)) = gs.map (fun f => (f.name, f.dataType)) →
      leadsTo path fs = leadsTo path gs := by
  intro fs
  induction fs with
  | nil =>
    intro gs h
    obtain rfl : gs = [] := by simpa using h.symm
    rfl
  | cons f fs ih =>
    intro gs h
    cases gs with
    | nil => simp at h
    | cons g gs =>
      obtain ⟨n, t, b, m⟩ := f
      obtain ⟨n', t', b', m'⟩ := g
      simp only [map_cons, List.cons.injEq, Prod.mk.injEq] at h
      obtain ⟨⟨rfl, rfl⟩, htail⟩ := h
      have hhd : leadsToField path ⟨n, t, b, m⟩ = leadsToField path ⟨n, t, b', m'⟩ := by
        cases path <;> rfl
      rw [leadsTo, leadsTo, ih htail, hhd]

theorem dropColumns_congr {s₁ s₂ : Schema} {paths : List String}
    (hs : s₁.fields.map (fun f => (f.name, f.dataType)) =
    s.fields.map (fun f => (f.name, f.dataType))) (h : dropColumns L s paths = .ok s₂) :
    ∃ s₃, dropColumns L s₁ paths = .ok s₃ := by
  obtain ⟨names, hns, h⟩ := bind_eq_ok.1 h
  have hp : existingPath L s₁.fields = existingPath L s.fields := by
    funext path
    simp only [existingPath, leadsTo_congr _ hs]
  rw [dropColumns, hp, hns]
  simp only [bind, Except.bind]
  rw [hs]
  split at h
  · simp at h
  · exact ⟨_, rfl⟩

/-! ### One request -/

section Step

variable {types : String → DataType} {t t' : Table}
variable {b : FunctionBinding} {v : FunctionUnbinding} {wholes : List (Option String)}
  {bindings : List FunctionBinding} {c : String}

theorem mem_wholes {paths : List String} (h : paths.mapM (wholeColumn L) = .ok wholes) :
    c ∈ wholes.reduceOption ↔ ∃ path ∈ paths, L.parseFieldPath path = .ok [c] := by
  rw [reduceOption_mem_iff]
  constructor
  · intro hc
    obtain ⟨path, hp, hwh⟩ := mem_of_mapM_ok h hc
    exact ⟨path, hp, wholeColumn_eq_ok_some.1 hwh⟩
  · rintro ⟨path, hp, hprs⟩
    obtain ⟨w, hw, hwh⟩ := exists_mem_of_forall₂ (mapM_eq_ok_iff.1 h) hp
    rw [wholeColumn_eq_ok_some.2 hprs] at hwh
    rwa [← ok.inj hwh] at hw

theorem isFlagged_of_bindingOutputField {o : OutputMapping} {field : JsonArrowField}
    (h : bindingOutputField L s b o = .ok field) :
    ∃ f, s.fieldWithName o.outputName = some f ∧ isFlagged f.metadata := by
  obtain ⟨f, hf, h⟩ := bind_eq_ok.1 h
  refine ⟨f, orInvalid_eq_ok.1 hf, ?_⟩
  by_contra hflag
  -- Without the flag the check of the declaration raises, whatever came before it.
  simp only [hflag, not_false_eq_true, true_or, if_true, invalidFunction] at h
  by_cases hnull : ¬f.nullable = true
  · rw [if_pos hnull] at h
    simp [bind_eq_ok] at h
  · rw [if_neg hnull] at h
    by_cases hblob : o.arrowType = functionBlobV2Type
    · rw [if_pos hblob] at h
      obtain ⟨typeMatches, -, h⟩ := bind_eq_ok.1 h
      cases typeMatches <;> simp [bind_eq_ok] at h
    · rw [if_neg hblob] at h
      obtain ⟨json, -, h⟩ := bind_eq_ok.1 h
      obtain ⟨expected, -, h⟩ := bind_eq_ok.1 h
      obtain ⟨typeMatches, -, h⟩ := bind_eq_ok.1 h
      cases typeMatches <;> simp [bind_eq_ok] at h

theorem isFlagged_of_bindingAssignmentField {a : AssignmentMapping} {fields : List JsonArrowField}
    (ha : b.assignment = some a) (h : bindingAssignmentField L s b = .ok fields) :
    ∃ f, s.fieldWithName a.outputName = some f ∧ isFlagged f.metadata := by
  simp only [bindingAssignmentField, ha] at h
  split_ifs at h with hwh
  · exact absurd h (by simp [invalidFunction, bind, Except.bind])
  · obtain ⟨f, hf, h⟩ := bind_eq_ok.1 h
    refine ⟨f, orInvalid_eq_ok.1 hf, ?_⟩
    by_contra hflag
    simp only [hflag, not_false_eq_true, true_or, or_true, if_true, invalidFunction] at h
    simp [bind_eq_ok] at h

theorem Supported.declared_of_writes (h : Supported L s bindings) (hb : b ∈ bindings)
    (hc : c ∈ writes b) : ∃ d ∈ computedColumns L s, d.name = c := by
  have hpres := bindingPresent_of_ensureBinding (h.binding b hb)
  obtain ⟨f, hf, hflag⟩ : ∃ f, s.fieldWithName c = some f ∧ isFlagged f.metadata := by
    rcases mem_append.1 hc with hc | hc
    · obtain ⟨o, ho, rfl⟩ := mem_map.1 hc
      obtain ⟨field, hfld⟩ := hpres.outputs o ho
      exact isFlagged_of_bindingOutputField hfld
    · obtain ⟨a, ha, rfl⟩ : ∃ a, b.assignment = some a ∧ a.outputName = c := by simpa using hc
      obtain ⟨field, hfld⟩ := hpres.assignment
      exact isFlagged_of_bindingAssignmentField ha hfld
  obtain ⟨hmem, rfl⟩ := Schema.fieldWithName_eq_some.1 hf
  obtain ⟨d, hd⟩ := h.exists_declared hmem hflag
  exact ⟨d, mem_computedColumns.2 ⟨f, hmem, hd⟩, (computedColumnFromField_eq_some.1 hd).2.2.1⟩

/-- The binding has an output that the paths name. -/
def touched (L : Lance) (columns : List String) (b : FunctionBinding) : Bool :=
  b.outputs.any fun o => columns.any fun path => L.parseFieldPath path = .ok [o.outputName]

theorem touched_eq_retires (h : columns.mapM (wholeColumn L) = .ok wholes) (b : FunctionBinding) :
    touched L columns b = retires wholes.reduceOption b := by
  rw [touched, retires]
  congr 1
  funext o
  rw [Bool.eq_iff_iff, any_eq_true, decide_eq_true_iff, mem_wholes h]
  simp

theorem mem_computedColumns_of_unbound {s' : Schema} {cleared : List String}
    (hfs : s'.fields = s.fields.map (clearField (cleared.map ([·])))) {d : ComputedColumn}
    (hd : d ∈ computedColumns L s') : d ∈ computedColumns L s := by
  obtain ⟨f', hf', hdecl⟩ := mem_computedColumns.1 hd
  rw [hfs] at hf'
  obtain ⟨f, hf, rfl⟩ := mem_map.1 hf'
  by_cases hmem : f.name ∈ cleared
  · rw [clearField_of_mem hmem] at hdecl
    have hflag := (computedColumnFromField_eq_some.1 hdecl).1
    simp [not_isFlagged_without] at hflag
  · rw [clearField_of_not_mem hmem] at hdecl
    exact mem_computedColumns.2 ⟨f, hf, hdecl⟩

/-- The texts that a drop makes Lance read as paths: its own, and the columns of the bindings that
it retires. -/
def dropPaths (L : Lance) (s : Schema) (columns : List String) : List String :=
  columns ++ (((functionBindings L s.metadata).toOption.getD []).filter (touched L columns)).flatMap
    writes

theorem Plan.mem_dropPaths (hwhs : columns.mapM (wholeColumn L) = .ok wholes)
    (hp : Plan wholes.reduceOption bindings v) (hs : Supported L s bindings)
    (hc : c ∈ v.clearedColumns) : c ∈ dropPaths L s columns := by
  rw [hp.cleared] at hc
  refine mem_append_right _ ?_
  rw [hs.known.functionBindings]
  rwa [show touched L columns = (retires wholes.reduceOption ·) from
    funext fun b => touched_eq_retires hwhs b]

theorem dropFree_of_checks {s₁ : Schema} {retained : List FunctionBinding}
    {names : List (List String)} {paths : List String} (hpl : Plain L s paths)
    (hps : ∀ p ∈ dropped, p ∈ paths)
    (hbd : ensureNotBoundBy L retained "schema evolution" dropped = .ok ())
    (hinp : ensureNotAnInputOf L s dropped dropped = .ok ())
    (hns : List.Forall₂ (fun p n => L.parseFieldPath p = .ok n) dropped names)
    (hsub : ∀ d ∈ computedColumns L s₁, d ∈ computedColumns L s) :
    DropFree L s₁ retained names := by
  obtain ⟨wholes, hwhs, hk⟩ := ensureNotAnInputOf_ok hinp
  have hroot : ∀ n ∈ names, ∀ c, n.head? = some c → ∃ p ∈ dropped, root L p = c := by
    intro n hn c hc
    obtain ⟨p, hp, hprs⟩ := exists_mem_of_forall₂ hns.flip hn
    exact ⟨p, hp, root_of_head hprs hc⟩
  -- A declared column that is not dropped is spelled by none of the paths.
  have hdecl : ∀ d ∈ computedColumns L s₁, [d.name] ∉ names → ∃ inputs,
      guardedInputs L s d = .ok inputs ∧ ∀ p ∈ dropped,
        d.name ≠ root L p ∧ ∀ i ∈ inputs, root L i ≠ root L p := by
    intro d hd hwh
    have hunnamed : ∀ p ∈ dropped, L.parseFieldPath p ≠ .ok [d.name] := by
      intro p hp hprs
      obtain ⟨n, hn, hprs'⟩ := exists_mem_of_forall₂ hns hp
      rw [hprs] at hprs'
      exact hwh (ok.inj hprs' ▸ hn)
    obtain ⟨inputs, hinps, hf⟩ := hk d (hsub d hd) fun hmem => by
      obtain ⟨p, hp, hprs⟩ := (mem_wholes hwhs).1 hmem
      exact hunnamed p hp hprs
    refine ⟨inputs, hinps, fun p hp => (hf p hp).resolve_left ?_⟩
    rintro rfl
    exact hunnamed _ hp (hpl.names d (hsub d hd) (hps _ hp))
  refine ⟨?_, ?_, ?_⟩
  · intro b hb c hc n hn hhd
    obtain ⟨p, hp, hp'⟩ := hroot n hn c hhd
    exact ensureNotBoundBy_ok hbd hb hc hp hp'
  · intro d hd hwh n hn hhd
    obtain ⟨inputs, -, hf⟩ := hdecl d hd hwh
    obtain ⟨p, hp, hp'⟩ := hroot n hn _ hhd
    exact (hf p hp).1 hp'.symm
  · intro d hd hwh expression hkind input hmem n hn hhd
    obtain ⟨inputs, hinps, hf⟩ := hdecl d hd hwh
    obtain ⟨p, hp, hp'⟩ := hroot n hn _ hhd
    obtain ⟨i, hi, hr⟩ := hpl.exists_guarded (hsub d hd) hkind hinps hmem (hps p hp) hp'
    exact (hf p hp).2 i hi hr

/-- A cleared column is a computed column, which is addressed by its own name. -/
theorem Plan.parse_cleared (hwhs : columns.mapM (wholeColumn L) = .ok wholes)
    (hp : Plan wholes.reduceOption bindings v) (hs : Supported L s bindings)
    (hpl : Plain L s (dropPaths L s columns)) (hc : c ∈ v.clearedColumns) :
    L.parseFieldPath c = .ok [c] := by
  have hpath := hp.mem_dropPaths hwhs hs hc
  rw [hp.cleared] at hc
  obtain ⟨b, hb, hws⟩ := mem_flatMap.1 hc
  obtain ⟨d, hd, rfl⟩ := hs.declared_of_writes (mem_of_mem_filter hb) hws
  exact hpl.names d hd hpath

theorem Plan.dropped_of_cleared (hwhs : columns.mapM (wholeColumn L) = .ok wholes)
    (hp : Plan wholes.reduceOption bindings v) (hs : Supported L s bindings)
    (hpl : Plain L s (dropPaths L s columns)) (hc : c ∈ v.clearedColumns) :
    ∃ path ∈ columns ++ v.assignmentColumns, L.parseFieldPath path = .ok [c] := by
  have hnd : ∀ c ∈ wholes.reduceOption,
      ∃ path ∈ columns ++ v.assignmentColumns, L.parseFieldPath path = .ok [c] := by
    intro c hc
    obtain ⟨path, hpath, hprs⟩ := (mem_wholes hwhs).1 hc
    exact ⟨path, mem_append_left _ hpath, hprs⟩
  have hself := hp.parse_cleared hwhs hs hpl hc
  rw [hp.cleared] at hc
  obtain ⟨b, hb, hws⟩ := mem_flatMap.1 hc
  obtain ⟨hb, hretir⟩ := mem_filter.1 hb
  rcases mem_append.1 hws with hout | hasg
  · obtain ⟨o, ho, rfl⟩ := mem_map.1 hout
    exact hnd _ (hp.outputs b hb hretir o ho)
  · obtain ⟨a, ha, rfl⟩ : ∃ a, b.assignment = some a ∧ a.outputName = c := by simpa using hasg
    rcases hp.assignment b hb hretir a ha with hmem | hadded
    · exact hnd _ hmem
    · exact ⟨_, mem_append_right _ hadded, hself⟩

theorem Plan.retained_of_noop {named : List String} (hp : Plan named bindings v)
    (h : v.clearedColumns = []) : v.retained = bindings := by
  rw [hp.retained, filter_eq_self]
  intro b hb
  by_contra hretir
  have hretir : retires named b = true := by simpa using hretir
  obtain ⟨o, ho, -⟩ := any_eq_true.1 hretir
  have hclr : o.outputName ∈ v.clearedColumns := by
    rw [hp.cleared]
    exact mem_flatMap.2 ⟨b, mem_filter.2 ⟨hb, hretir⟩,
      mem_append_left _ (mem_map.2 ⟨o, ho, rfl⟩)⟩
  rw [h] at hclr
  simp at hclr

/-- What a drop does to a valid table: every version it commits is valid, and the bindings it does
not touch are unchanged. -/
theorem drop_step (hval : Valid L types t.schema)
    (hpl : Plain L t.schema (dropPaths L t.schema columns))
    (h : executeDropColumns L columns t = .ok () t') :
    (∃ new, t'.past ++ [t'.schema] = t.past ++ [t.schema] ++ new ∧ ∀ s ∈ new, Valid L types s) ∧
      ∃ bindings, functionBindings L t.schema.metadata = .ok bindings ∧
        functionBindings L t'.schema.metadata = .ok (bindings.filter (!touched L columns ·)) := by
  obtain ⟨u, hu, hbd, hinp, hcms⟩ := executeDropColumns_ok h
  obtain ⟨bindings, wholes, v, hs, hwhs, hplan, hk, hclr, hasg, hsto⟩ :=
    planFunctionUnbinding_ok hu
  have hfilter : u.retained = bindings.filter (!touched L columns ·) := by
    rw [hk, hplan.retained]
    exact filter_congr fun b _ => by rw [touched_eq_retires hwhs]
  have hps : ∀ p ∈ columns ++ u.assignmentColumns, p ∈ dropPaths L t.schema columns := by
    intro p hp
    rcases mem_append.1 hp with hp | hp
    · exact mem_append_left _ hp
    · exact hplan.mem_dropPaths hwhs hs (hplan.added p (hasg ▸ hp))
  rcases hcms with ⟨hnoop, s₂, hs₂, rfl⟩ | ⟨hnoop, s₁, s₂, hs₁, hs₂, rfl⟩
  · -- Nothing is retired: the drop is an ordinary one.
    have hall : u.retained = bindings := by
      rw [hk]
      refine hplan.retained_of_noop ?_
      rw [← hclr]
      simpa [FunctionUnbinding.isNoop] using hnoop
    obtain ⟨names, hns, hfs, hmeta⟩ := dropColumns_ok hs₂
    have hf := dropFree_of_checks hpl hps hbd hinp hns fun d hd => hd
    rw [hall] at hf
    obtain ⟨hs₂', hval₂⟩ := valid_of_dropped hval hs hf hfs hmeta
    refine ⟨⟨[s₂], rfl, by simpa using hval₂⟩, bindings, hs.known.functionBindings, ?_⟩
    rw [← hfilter, hall]
    exact hs₂'.known.functionBindings
  · have hprs : ∀ c ∈ u.clearedColumns, L.parseFieldPath c = .ok [c] := fun c hc =>
      hplan.parse_cleared hwhs hs hpl (hclr ▸ hc)
    have hn : u.clearedColumns ≠ [] := by simpa [FunctionUnbinding.isNoop] using hnoop
    obtain ⟨hfs₁, hmeta₁⟩ := unboundSchema_ok hs₁ hprs
    have hchg := change_of_unbound hs hplan hk hclr (hsto hn) hfs₁
      hmeta₁ fun b hb c hc hmem => by
        obtain ⟨path, hpath, hpathc⟩ := hplan.dropped_of_cleared hwhs hs hpl (hclr ▸ hmem)
        rw [← hasg] at hpath
        exact ensureNotBoundBy_ok hbd hb hc hpath (root_of_parse hpathc)
    have hsupp₁ := hchg.supported hs
    have hval₁ := valid_of_unbound hval hchg hs hfs₁
    obtain ⟨names, hns, hfs₂, hmeta₂⟩ := dropColumns_ok hs₂
    have hf := dropFree_of_checks hpl hps hbd hinp hns fun d hd =>
      mem_computedColumns_of_unbound hfs₁ hd
    obtain ⟨hsupp₂, hval₂⟩ :=
      valid_of_dropped hval₁ hsupp₁ hf hfs₂ hmeta₂
    refine ⟨⟨[s₁, s₂], by simp [Table.commit], by simpa using ⟨hval₁, hval₂⟩⟩, bindings,
      hs.known.functionBindings, ?_⟩
    rw [← hfilter]
    exact hsupp₂.known.functionBindings

/-- A refused drop commits nothing: the projection was planned before the retirement. -/
theorem drop_rejected (hp : Plain L t.schema (dropPaths L t.schema columns))
    (h : executeDropColumns L columns t = .error e t') : t' = t := by
  rcases executeDropColumns_error h with h | ⟨u, s₁, s₂, hu, -, hplanned, hs₁, hfail⟩
  · exact h
  · obtain ⟨bindings, wholes, v, hs, hwhs, hplan, -, hclr, -, -⟩ :=
      planFunctionUnbinding_ok hu
    have hprs : ∀ c ∈ u.clearedColumns, L.parseFieldPath c = .ok [c] := fun c hc =>
      hplan.parse_cleared hwhs hs hp (hclr ▸ hc)
    obtain ⟨hfs₁, -⟩ := unboundSchema_ok hs₁ hprs
    obtain ⟨s₃, hs₃⟩ := dropColumns_congr (show s₁.fields.map (fun f => (f.name, f.dataType)) =
        t.schema.fields.map (fun f => (f.name, f.dataType)) by
      rw [hfs₁, map_map]
      refine map_congr_left fun f _ => ?_
      simp only [Function.comp_apply, clearField_name, clearField_dataType]) hplanned
    rw [hs₃] at hfail
    simp at hfail

/-- The paths of the alterations that are checked. -/
def rebindingPaths (alterations : List ColumnAlteration) : List String :=
  (alterations.filter fun a => a.rename.isSome || a.dataType.isSome).map (·.path)

theorem alter_step (hval : Valid L types t.schema)
    (hp : Plain L t.schema (rebindingPaths alterations))
    (h : executeAlterColumns L alterations t = .ok () t') :
    (∃ new, t'.past ++ [t'.schema] = t.past ++ [t.schema] ++ new ∧ ∀ s ∈ new, Valid L types s) ∧
      ∃ bindings, functionBindings L t.schema.metadata = .ok bindings ∧
        functionBindings L t'.schema.metadata = .ok bindings := by
  obtain ⟨hbd, hinp, s, hs, rfl⟩ := executeAlterColumns_ok h
  obtain ⟨⟨⟩, hsupported, hbd⟩ := bind_eq_ok.1 hbd
  obtain ⟨bindings, hsupp⟩ := ensureSupportedFunctionMetadata_eq_ok_iff.1 hsupported
  obtain ⟨bs, hbs, hbd⟩ := bind_eq_ok.1 hbd
  rw [hsupp.known.functionBindings] at hbs
  obtain rfl := ok.inj hbs
  obtain ⟨wholes, hwhs, hr⟩ := ensureNotAnInputOf_ok hinp
  obtain rfl : [] = wholes := ok.inj hwhs
  obtain ⟨edits, heds, hfs, hmeta⟩ := alterColumns_ok hs
  have hroot : ∀ e ∈ edits, ∀ c, e.1.head? = some c → root L e.2.path = c :=
    fun e he c hc => root_of_head (heds e he).2 hc
  have hf : AlterFree L t.schema bindings edits := by
    refine ⟨?_, ?_⟩
    · intro b hb c hc e he hhd
      refine ensureNotBoundBy_ok hbd hb hc ?_ (hroot e he c hhd)
      exact mem_flatMap.2 ⟨e.2, (heds e he).1, by simp⟩
    · intro d hd expression hk input hinp e he hhard hhd
      obtain ⟨inputs, hinps, hps⟩ := hr d hd (by simp)
      have hpath : e.2.path ∈ rebindingPaths alterations :=
        mem_map.2 ⟨e.2, mem_filter.2 ⟨(heds e he).1, by simpa using hhard⟩, rfl⟩
      rcases hps _ hpath with htext | ⟨-, hunread⟩
      · have hprs := (heds e he).2
        rw [← htext, hp.names d hd (htext ▸ hpath)] at hprs
        rw [← ok.inj hprs]
        rfl
      · obtain ⟨i, hi, hr⟩ := hp.exists_guarded hd hk hinps hinp hpath (hroot e he _ hhd)
        exact absurd hr (hunread i hi)
  obtain ⟨hsupp', hval'⟩ := valid_of_altered hval hsupp hf hfs hmeta
  exact ⟨⟨[s], rfl, by simpa using hval'⟩, bindings, hsupp.known.functionBindings,
    hsupp'.known.functionBindings⟩

end Step

/-! ### Runs -/

/-- A request to change the schema of a table. -/
inductive Request where
  | drop (columns : List String)
  | alter (alterations : List ColumnAlteration)

/-- The operation a request runs. -/
def execute (L : Lance) : Request → EStateM Error Table Unit
  | .drop columns => executeDropColumns L columns
  | .alter alterations => executeAlterColumns L alterations

/-- The request drops an output of the binding. -/
def Request.touches (L : Lance) : Request → FunctionBinding → Bool
  | .drop columns, b => touched L columns b
  | .alter _, _ => false

/-- The texts that a request makes Lance read as paths. -/
def Request.paths (L : Lance) (s : Schema) : Request → List String
  | .drop columns => dropPaths L s columns
  | .alter alterations => rebindingPaths alterations

/-- The versions of a table, the current one last. -/
def Table.versions (t : Table) : List Schema := t.past ++ [t.schema]

/-- The tables that requests lead to, accepted and refused ones, whose paths are plain. -/
inductive Reached (L : Lance) (t₀ : Table) : Table → Prop where
  | start : Reached L t₀ t₀
  | accepted {t t' : Table} (r : Request) : Reached L t₀ t →
      Plain L t.schema (r.paths L t.schema) → execute L r t = .ok () t' → Reached L t₀ t'
  | rejected {t t' : Table} (r : Request) (e : Error) : Reached L t₀ t →
      Plain L t.schema (r.paths L t.schema) → execute L r t = .error e t' → Reached L t₀ t'

section Runs

variable {types : String → DataType} {t₀ t t' : Table} {r : Request}

/-- One request: the new versions are valid, and the other bindings are unchanged. -/
theorem execute_step (hval : Valid L types t.schema) (hp : Plain L t.schema (r.paths L t.schema))
    (h : execute L r t = .ok () t') :
    (∃ new, t'.versions = t.versions ++ new ∧ ∀ s ∈ new, Valid L types s) ∧
      ∃ bindings, functionBindings L t.schema.metadata = .ok bindings ∧
        functionBindings L t'.schema.metadata = .ok (bindings.filter (!r.touches L ·)) := by
  cases r with
  | drop columns => exact drop_step hval hp h
  | alter alterations =>
    obtain ⟨hnew, bindings, hbef, haft⟩ := alter_step hval hp h
    exact ⟨hnew, bindings, hbef, by simpa [Request.touches] using haft⟩

theorem execute_rejected (hp : Plain L t.schema (r.paths L t.schema))
    (h : execute L r t = .error e t') : t' = t := by
  cases r with
  | drop columns => exact drop_rejected hp h
  | alter alterations => exact executeAlterColumns_error h

theorem valid_of_execute (hval : ∀ s ∈ t.versions, Valid L types s)
    (hp : Plain L t.schema (r.paths L t.schema)) (h : execute L r t = .ok () t') :
    ∀ s ∈ t'.versions, Valid L types s := by
  obtain ⟨⟨new, hversions, hnew⟩, -⟩ := execute_step (hval _ (by simp [Table.versions])) hp h
  intro s hs
  rw [hversions] at hs
  rcases mem_append.1 hs with hs | hs
  · exact hval s hs
  · exact hnew s hs

theorem Reached.valid (h₀ : ∀ s ∈ t₀.versions, Valid L types s) (h : Reached L t₀ t) :
    ∀ s ∈ t.versions, Valid L types s := by
  induction h with
  | start => exact h₀
  | accepted r _ hp hok ih => exact valid_of_execute ih hp hok
  | rejected r e _ hp herr ih =>
    rw [execute_rejected hp herr]
    exact ih

end Runs

/-- The backtick. -/
def backtick : Char := Char.ofNat 96

/-- Where the reading of a path stands: in a bare name, in a quoted one, or after a backtick in a
quoted one. -/
inductive Quoting where
  | bare
  | quoted
  | closing

/-- The grammar of paths: names with dots between them, where a name in backticks is taken as it is
and stands for a backtick where it has two. -/
def readPath : Quoting → List Char → List String → List Char → Except String (List String)
  | .bare, [], _, [] => .error "field path has an empty name"
  | .quoted, _, _, [] => .error "field path has an unclosed backtick"
  | _, name, names, [] => .ok (names ++ [String.ofList name.reverse])
  | .bare, name, names, c :: rest =>
    if c = backtick then
      if name = [] then readPath .quoted [] names rest
      else .error "field path has a backtick inside a name"
    else if c = '.' then
      if name = [] then .error "field path has an empty name"
      else readPath .bare [] (names ++ [String.ofList name.reverse]) rest
    else readPath .bare (c :: name) names rest
  | .quoted, name, names, c :: rest =>
    if c = backtick then readPath .closing name names rest
    else readPath .quoted (c :: name) names rest
  | .closing, name, names, c :: rest =>
    if c = backtick then readPath .quoted (c :: name) names rest
    else if c = '.' then readPath .bare [] (names ++ [String.ofList name.reverse]) rest
    else .error "field path goes on after a closing backtick"

/-- The words of a text. -/
def wordsOf (separator : Char) (text : String) : List String :=
  (text.toList.splitOn separator).map String.ofList

/-- A binding of the column `title` to the output `search`. -/
def demoBinding : FunctionBinding where
  bindingId := "b"
  function := ⟨"f", [], "o", "l", "1", "d"⟩
  inputs := [⟨"p", 0, "title", "utf8", true⟩]
  outputs := [⟨"text", "search", 1, 0, "string", true⟩]
  assignment := some ⟨"found", 2⟩
  inputSchema := some (.arr [.str "p"])
  outputSchema := some (.arr [.str "search", .str "found"])
  initialization := none

/-- The envelope of `demoBinding`. -/
def demoEnvelope : Envelope := ⟨1, [demoBinding.toValue]⟩

/-- Paths in the grammar above and expressions of words; the JSON text of names has commas only,
and the only envelope is that of `demoBinding`. -/
def demoLance : Lance where
  parseFieldPath path := readPath .bare [] [] path.toList
  columnNamesInExpr s e :=
    .ok ((s.fields.map (·.name)).filter (· ∈ wordsOf ' ' e))
  namesFromStr raw := some (wordsOf ',' raw)
  classifyBlob _ := true
  arrowSchemaToJson fields :=
    .ok (fields.map fun f => ⟨f.name, f.nullable, .mk "utf8" none none, none⟩)
  convertJsonArrowField f := .ok ⟨f.name, .primitive .utf8, f.nullable, []⟩
  convertJsonArrowType _ := .ok (.primitive .utf8)
  typeToStr _ := .error "nested type"
  typeFromStr _ := .error "nested type"
  schemaToValue fields := .ok (.arr (fields.map fun f => .str f.name))
  envelopeFromStr raw := if raw = "e" then .ok demoEnvelope else .error "no envelope"
  envelopeToStr e := if e = demoEnvelope then .ok "e" else .error "no envelope"
  notABinding _ := "no binding"
  envelopeFromStr_toStr := by
    intro e raw h
    split_ifs at h with he
    simp [← ok.inj h, he]
  dropRefused _ _ := none
  alterRefused _ _ := none

/-- The metadata of a SQL column. -/
def sqlMetadata (expression inputs : String) : Metadata :=
  [(computedColumnMetaKey, "true"), (kindMetaKey, sqlKind), (expressionMetaKey, expression),
    (inputsMetaKey, inputs)]

/-- The metadata of a column of `demoBinding`. -/
def functionMetadata (ordinal : String) : Metadata :=
  [(computedColumnMetaKey, "true"), (kindMetaKey, functionKind),
    (functionBindingIdMetaKey, "b"), (functionOutputOrdinalMetaKey, ordinal),
    (inputsMetaKey, "title")]

/-- A table with a SQL column and the columns of `demoBinding`. -/
def demoTable : Table where
  name := "t"
  pinned := false
  past := []
  schema :=
    { fields := [⟨"title", .primitive .utf8, true, []⟩,
        ⟨"size", .primitive (.int 64 true), true, sqlMetadata "length of title" "title"⟩,
        ⟨"search", .primitive .utf8, true, functionMetadata "0"⟩,
        ⟨"found", .primitive .boolean, true, functionMetadata "4294967295"⟩]
      metadata := [(functionBindingsMetaKey, "e")]
      nodup := by decide }

/-- The request was accepted, and the table after it has a property. -/
def acceptedWith (p : Table → Bool) : EStateM.Result Error Table Unit → Bool
  | .ok _ t => p t
  | .error _ _ => false

theorem exists_of_acceptedWith {p : Table → Bool} {x : EStateM.Result Error Table Unit}
    (h : acceptedWith p x) : ∃ t, x = .ok () t ∧ p t := by
  cases x with
  | ok a t => exact ⟨t, rfl, h⟩
  | error e t => simp [acceptedWith] at h

/-- The types that `demoTable` was declared with. -/
def demoTypes (_ : String) : DataType := .primitive .utf8

theorem valid_of_check {types : String → DataType}
    (hsupp : ensureSupportedFunctionMetadata L s = .ok ())
    (hinps : ∀ d ∈ computedColumns L s, ∀ input ∈ d.inputs, ∃ f ∈ s.fields,
    f.name = root L input ∧ f.dataType.unnulled = (types f.name).unnulled) : Valid L types s := by
  obtain ⟨bindings, hs⟩ := ensureSupportedFunctionMetadata_eq_ok_iff.1 hsupp
  exact valid_of_supported hs fun d hd _ _ => hinps d hd

theorem demoTable_valid : Valid demoLance demoTypes demoTable.schema :=
  valid_of_check (by decide +kernel) (by decide +kernel)

theorem demoTable_plain (paths : List String) : Plain demoLance demoTable.schema paths := by
  have hcols : computedColumns demoLance demoTable.schema =
      [⟨"size", .sql "length of title", ["title"]⟩, ⟨"search", .function "b" 0, ["title"]⟩,
        ⟨"found", .function "b" 4294967295, ["title"]⟩] := by decide +kernel
  have hnames : ∀ d ∈ computedColumns demoLance demoTable.schema,
      demoLance.parseFieldPath d.name = .ok [d.name] := by decide +kernel
  refine ⟨fun d hd _ => hnames d hd, fun d hd expression names hk hns input hinp path _ hr => ?_⟩
  rw [hcols] at hd
  simp only [mem_cons, not_mem_nil, or_false] at hd
  rcases hd with rfl | rfl | rfl
  · obtain rfl : "length of title" = expression := by simpa using hk
    have hreads : demoLance.columnNamesInExpr demoTable.schema "length of title" =
        .ok ["title"] := by decide +kernel
    obtain rfl := ok.inj (hreads.symm.trans hns)
    exact ⟨input, hinp, hr.symm⟩
  · simp at hk
  · simp at hk

/-- A column `x`, and a computed column whose name is the quoted spelling of it. -/
def quotedTable : Table where
  name := "t"
  pinned := false
  past := []
  schema :=
    { fields := [⟨"x", .primitive .utf8, true, []⟩,
        ⟨"`x`", .primitive .utf8, true, sqlMetadata "trim of x" "x"⟩]
      metadata := []
      nodup := by decide }

end LanceDB.Columns
