import LanceDB.Columns.Guards

/-!
# What the column operations leave alone

* `dropField_of_untouched`, `dropField_of_whole` — a drop keeps the columns none of its paths
  addresses, and removes those it names.
* `clearField_of_mem`, `clearField_of_not_mem` — the retirement of bindings clears the
  declarations of whole columns and nothing else.
* `alterField_of_untouched`, `unnulled_alterField` — an alteration keeps the columns none of its
  paths addresses, and keeps the type of those that are neither renamed nor cast.
-/

namespace LanceDB.Columns

open List Option

/-! ### Drops -/

theorem under_nil (name : String) : under name [] = [] := rfl

mutual

theorem dropInType_nil : ∀ t : DataType, dropInType [] t = some t
  | .primitive _ => by simp [dropInType]
  | .dictionary _ _ => by simp [dropInType]
  | .struct [] => by simp [dropInType]
  | .struct (f :: fs) => by
    have hfs := dropFields_nil (f :: fs)
    rw [dropInType, hfs]
  | .list kind item => by
    have hitem := dropField_nil item
    rw [dropInType, hitem, map_some]
  | .map entries sorted => by
    have hents := dropField_nil entries
    rw [dropInType, hents, map_some]

theorem dropField_nil : ∀ f : FieldOf DataType, dropField [] f = some f
  | ⟨name, dataType, nullable, metadata⟩ => by
    have htype := dropInType_nil dataType
    rw [dropField, under_nil, if_neg (by simp), htype, map_some]

theorem dropFields_nil : ∀ fs : List (FieldOf DataType), dropFields [] fs = fs
  | [] => by rw [dropFields]
  | f :: fs => by
    have hf := dropField_nil f
    have hfs := dropFields_nil fs
    rw [dropFields, hf]
    simp only [hfs]

end

variable {paths : List (List String)} {name : String}

theorem under_eq_nil (h : ∀ p ∈ paths, p.head? ≠ some name) : under name paths = [] := by
  refine filterMap_eq_nil_iff.2 fun p hp => ?_
  cases p with
  | nil => rfl
  | cons column rest =>
    have hne : column ≠ name := by simpa using h _ hp
    simp [hne]

theorem nil_mem_under : [] ∈ under name paths ↔ [name] ∈ paths := by
  simp only [under, mem_filterMap]
  constructor
  · rintro ⟨p, hp, h⟩
    cases p with
    | nil => simp at h
    | cons column rest =>
      simp only [ite_none_right_eq_some, Option.some.injEq] at h
      obtain ⟨rfl, rfl⟩ := h
      exact hp
  · intro h
    exact ⟨[name], h, by simp⟩

variable {f : Field}
variable {names : List String}

theorem dropField_of_untouched (h : ∀ p ∈ paths, p.head? ≠ some f.name) :
    dropField paths f = some f := by
  obtain ⟨name, dataType, nullable, metadata⟩ := f
  rw [dropField, under_eq_nil h, if_neg (by simp), dropInType_nil, map_some]

theorem dropField_of_whole (h : [f.name] ∈ paths) : dropField paths f = none := by
  obtain ⟨name, dataType, nullable, metadata⟩ := f
  rw [dropField, if_pos (nil_mem_under.2 h)]

/-! ### Retirements -/

mutual

theorem clearInType_of_forall_nil : ∀ (t : DataType) (paths : List (List String)),
    (∀ p ∈ paths, p = []) → clearInType paths t = t
  | .primitive _, _, _ => by rw [clearInType]
  | .dictionary _ _, _, _ => by rw [clearInType]
  | .struct fields, paths, h => by
    have hfs := clearFields_of_forall_nil fields paths h
    rw [clearInType, hfs]
  | .list kind item, paths, h => by
    have hitem := clearField_of_forall_nil item paths h
    rw [clearInType, hitem]
  | .map entries sorted, paths, h => by
    have hents := clearField_of_forall_nil entries paths h
    rw [clearInType, hents]

theorem clearField_of_forall_nil : ∀ (f : FieldOf DataType) (paths : List (List String)),
    (∀ p ∈ paths, p = []) → clearField paths f = f
  | ⟨name, dataType, nullable, metadata⟩, paths, h => by
    have hunder : under name paths = [] := under_eq_nil fun p hp => by simp [h p hp]
    have htype := clearInType_of_forall_nil dataType [] (by simp)
    rw [clearField, hunder, htype, if_neg (by simp)]

theorem clearFields_of_forall_nil : ∀ (fs : List (FieldOf DataType))
    (paths : List (List String)), (∀ p ∈ paths, p = []) → clearFields paths fs = fs
  | [], _, _ => by rw [clearFields]
  | f :: fs, paths, h => by
    have hf := clearField_of_forall_nil f paths h
    have hfs := clearFields_of_forall_nil fs paths h
    rw [clearFields, hf, hfs]

end

theorem forall_nil_of_under_singletons (name : String) :
    ∀ p ∈ under name (names.map ([·])), p = [] := by
  intro p hp
  obtain ⟨q, hq, hpq⟩ := mem_filterMap.1 hp
  obtain ⟨n, -, rfl⟩ := mem_map.1 hq
  simp only [ite_none_right_eq_some, Option.some.injEq] at hpq
  exact hpq.2.symm

theorem clearField_of_mem (h : f.name ∈ names) :
    clearField (names.map ([·])) f =
      { f with metadata := f.metadata.without isDeclarationKey } := by
  obtain ⟨name, dataType, nullable, metadata⟩ := f
  have hwh : [] ∈ under name (names.map ([·])) :=
    nil_mem_under.2 (mem_map.2 ⟨name, h, rfl⟩)
  rw [clearField, clearInType_of_forall_nil _ _ (forall_nil_of_under_singletons name),
    if_pos hwh]

theorem clearField_of_not_mem (h : f.name ∉ names) : clearField (names.map ([·])) f = f := by
  obtain ⟨name, dataType, nullable, metadata⟩ := f
  have hwh : [] ∉ under name (names.map ([·])) := by
    rw [nil_mem_under]
    simpa using h
  rw [clearField, clearInType_of_forall_nil _ _ (forall_nil_of_under_singletons name),
    if_neg hwh]

theorem clearField_dataType (names : List String) (f : Field) :
    (clearField (names.map ([·])) f).dataType = f.dataType := by
  by_cases h : f.name ∈ names
  · rw [clearField_of_mem h]
  · rw [clearField_of_not_mem h]

theorem not_isFlagged_without (m : Metadata) : isFlagged (m.without isDeclarationKey) = false := by
  have hkey : isDeclarationKey computedColumnMetaKey = true := by decide
  simp [isFlagged, hkey]

/-! ### Alterations -/

mutual

theorem alterInType_nil : ∀ t : DataType, alterInType [] t = t
  | .primitive _ => by rw [alterInType]
  | .dictionary _ _ => by rw [alterInType]
  | .struct fields => by
    have hfs := alterFields_nil fields
    rw [alterInType, hfs]
  | .list kind item => by
    have hitem := alterField_nil item
    rw [alterInType, hitem]
  | .map entries sorted => by
    have hents := alterField_nil entries
    rw [alterInType, hents]

theorem alterField_nil : ∀ f : FieldOf DataType, alterField [] f = f
  | ⟨name, dataType, nullable, metadata⟩ => by
    have htype := alterInType_nil dataType
    have heds : editsUnder name [] = [] := rfl
    rw [alterField, heds, htype]
    rfl

theorem alterFields_nil : ∀ fs : List (FieldOf DataType), alterFields [] fs = fs
  | [] => by rw [alterFields]
  | f :: fs => by
    have hf := alterField_nil f
    have hfs := alterFields_nil fs
    rw [alterFields, hf, hfs]

end

theorem alterFields_eq_map (edits : List Edit) (fs : List Field) :
    alterFields edits fs = fs.map (alterField edits) := by
  induction fs with
  | nil => rfl
  | cons f fs ih => rw [alterFields, ih, map_cons]

variable {edits : List Edit}

theorem mem_editsUnder {rest : List String} {a : ColumnAlteration} :
    (rest, a) ∈ editsUnder name edits ↔ (name :: rest, a) ∈ edits := by
  simp only [editsUnder, mem_filterMap]
  constructor
  · rintro ⟨⟨path, a'⟩, hedit, h⟩
    cases path with
    | nil => simp at h
    | cons column tail =>
      simp only [ite_none_right_eq_some, Option.some.injEq, Prod.mk.injEq] at h
      obtain ⟨rfl, rfl, rfl⟩ := h
      exact hedit
  · intro hedit
    exact ⟨(name :: rest, a), hedit, by simp⟩

theorem alterField_of_untouched (h : ∀ e ∈ edits, e.1.head? ≠ some f.name) :
    alterField edits f = f := by
  obtain ⟨name, dataType, nullable, metadata⟩ := f
  have heds : editsUnder name edits = [] := by
    refine eq_nil_iff_forall_not_mem.2 ?_
    rintro ⟨rest, a⟩ he
    exact h _ (mem_editsUnder.1 he) rfl
  rw [alterField, heds, alterInType_nil]
  rfl

/-- The alteration neither renames nor casts. -/
def Soft (edits : List Edit) : Prop := ∀ e ∈ edits, e.2.rename = none ∧ e.2.dataType = none

theorem Soft.editsUnder (h : Soft edits) (name : String) : Soft (editsUnder name edits) := by
  rintro ⟨rest, a⟩ he
  exact h (name :: rest, a) (mem_editsUnder.1 he)

/-- Alterations without a rename or a cast set the nullability. -/
theorem foldl_applyAlteration_of_soft {alterations : List ColumnAlteration}
    (h : ∀ a ∈ alterations, a.rename = none ∧ a.dataType = none) :
    ∀ f : Field, ∃ nullable, alterations.foldl applyAlteration f =
      { f with nullable := nullable } := by
  induction alterations with
  | nil => exact fun f => ⟨f.nullable, rfl⟩
  | cons a as ih =>
    intro f
    obtain ⟨hrename, htype⟩ := h a (by simp)
    obtain ⟨nullable, hr⟩ := ih (fun b hb => h b (by simp [hb])) (applyAlteration f a)
    refine ⟨nullable, ?_⟩
    rw [foldl_cons, hr]
    simp [applyAlteration, hrename, htype]

theorem Soft.own (h : Soft edits) :
    ∀ a ∈ (edits.filter (·.1 = [])).map (·.2), a.rename = none ∧ a.dataType = none := by
  intro a ha
  obtain ⟨e, he, rfl⟩ := mem_map.1 ha
  exact h e (mem_of_mem_filter he)

mutual

theorem unnulled_alterInType : ∀ (t : DataType) (edits : List Edit), Soft edits →
    (alterInType edits t).unnulled = t.unnulled
  | .primitive _, _, _ => by rw [alterInType]
  | .dictionary _ _, _, _ => by rw [alterInType]
  | .struct fields, edits, h => by
    have hfs := unnulled_alterFields fields edits h
    rw [alterInType, DataType.unnulled, DataType.unnulled, hfs]
  | .list kind item, edits, h => by
    have hitem := unnulled_alterField item edits h
    rw [alterInType, DataType.unnulled, DataType.unnulled, hitem]
  | .map entries sorted, edits, h => by
    have hents := unnulled_alterField entries edits h
    rw [alterInType, DataType.unnulled, DataType.unnulled, hents]

theorem unnulled_alterField : ∀ (f : FieldOf DataType) (edits : List Edit), Soft edits →
    unnulledField (alterField edits f) = unnulledField f
  | ⟨name, dataType, nullable, metadata⟩, edits, h => by
    have htype := unnulled_alterInType dataType _ (h.editsUnder name)
    obtain ⟨nullable', hown⟩ := foldl_applyAlteration_of_soft (h.editsUnder name).own
      ⟨name, alterInType (editsUnder name edits) dataType, nullable, metadata⟩
    rw [alterField, hown, unnulledField, unnulledField, htype]

theorem unnulled_alterFields : ∀ (fs : List (FieldOf DataType)) (edits : List Edit), Soft edits →
    unnulledFields (alterFields edits fs) = unnulledFields fs
  | [], _, _ => by rw [alterFields]
  | f :: fs, edits, h => by
    have hf := unnulled_alterField f edits h
    have hfs := unnulled_alterFields fs edits h
    rw [alterFields, unnulledFields, unnulledFields, hf, hfs]

end

/-- A column none of whose alterations renames or casts keeps its name, its metadata and its type
up to nullability. -/
theorem alterField_of_soft (h : Soft (editsUnder f.name edits)) :
    (alterField edits f).name = f.name ∧ (alterField edits f).metadata = f.metadata ∧
      (alterField edits f).dataType.unnulled = f.dataType.unnulled := by
  obtain ⟨name, dataType, nullable, metadata⟩ := f
  obtain ⟨nullable', hown⟩ := foldl_applyAlteration_of_soft h.own
    ⟨name, alterInType (editsUnder name edits) dataType, nullable, metadata⟩
  rw [alterField, hown]
  exact ⟨rfl, rfl, unnulled_alterInType dataType _ h⟩

theorem foldl_applyAlteration_metadata (alterations : List ColumnAlteration) :
    ∀ f : Field, (alterations.foldl applyAlteration f).metadata = f.metadata ∨
      (alterations.foldl applyAlteration f).metadata = [] := by
  induction alterations with
  | nil => exact fun f => .inl rfl
  | cons a as ih =>
    intro f
    rw [foldl_cons]
    rcases ih (applyAlteration f a) with h | h
    · rw [h]
      cases ha : a.dataType with
      | none => exact .inl (by simp [applyAlteration, ha])
      | some t => exact .inr (by simp [applyAlteration, ha])
    · exact .inr h

/-- A column that is still computed after an alteration has kept its metadata: a cast would have
cleared it. -/
theorem metadata_of_isFlagged_alterField (h : isFlagged (alterField edits f).metadata) :
    (alterField edits f).metadata = f.metadata := by
  obtain ⟨name, dataType, nullable, metadata⟩ := f
  rw [alterField] at h ⊢
  rcases foldl_applyAlteration_metadata
    (((editsUnder name edits).filter (·.1 = [])).map (·.2))
    ⟨name, alterInType (editsUnder name edits) dataType, nullable, metadata⟩ with hm | hm
  · exact hm
  · rw [hm] at h
    simp [isFlagged, Metadata.get] at h

end LanceDB.Columns
