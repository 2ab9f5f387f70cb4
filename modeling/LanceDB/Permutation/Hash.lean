import LanceDB.Permutation.Split

/-!
# Splits by hash

The batches of `apply_hash` column by column: the split ids are searched in the thresholds, and the
rows whose split id is null are filtered out of both columns.

* `hashBatches` : the stream of batches.
* `countP_thresholds` — the splits are intervals as wide as their weights.
* `hashBatches_eq_applyHash` — the two columns stay aligned.
* `hash_assignment` — every row is assigned by its own hash.
-/

namespace LanceDB

open List

namespace Permutation

variable {α : Type}

/-! ### Batches by columns -/

/-- `arrow::compute::filter`. -/
def filterMask {β : Type} (column : List β) (mask : List Bool) : List β :=
  ((column.zip mask).filter (·.2)).map (·.1)

/-- `RecordBatch::try_new` of row ids and split ids, which are not nullable. -/
def recordBatch (rowIds : List ℕ) (splitIds : List (Option ℕ)) :
    Except LoaderError (List Entry) :=
  if rowIds.length ≠ splitIds.length then
    .error (.panic "all columns in a record batch must have the same length")
  else if splitIds.any (·.isNone) then
    .error (.panic "Column 'split_id' is declared as non-nullable but contains null values")
  else
    .ok (List.zipWith (fun rowId splitId => (rowId, (splitId.getD 0 : ℤ))) rowIds splitIds)

/-- One batch of `apply_hash`. -/
def hashBatch (hash : α → ℕ) (thresholds : List ℕ) (totalWeight : ℕ) (batch : List (Row α)) :
    Except LoaderError (List Entry) :=
  if totalWeight = 0 ∧ batch ≠ [] then
    .error (.panic "attempt to calculate the remainder with a divisor of zero")
  else
    let splitIds := batch.map fun row => hashSplitId thresholds totalWeight (hash row.columns)
    let rowIds := batch.map (·.rowId)
    if 0 < splitIds.countP (·.isNone) then
      let isValidMask := splitIds.map (·.isSome)
      recordBatch (filterMask rowIds isValidMask) (filterMask splitIds isValidMask)
    else
      recordBatch rowIds splitIds

/-- The stream of `apply_hash`. -/
def hashBatches (hash : α → ℕ) (source : List (List (Row α))) (weights : List ℕ)
    (discardWeight : ℕ) : Except LoaderError (List (List Entry)) :=
  source.mapM (hashBatch hash (thresholds 0 weights) ((sumU64 weights + discardWeight) % 2 ^ 64))

/-! ### The columns stay aligned -/

theorem filterMask_map {β : Type} (f : Row α → β) (g : Row α → Option ℕ) (batch : List (Row α)) :
    filterMask (batch.map f) ((batch.map g).map (·.isSome)) =
      (batch.filter (g · |>.isSome)).map f := by
  rw [map_map]
  induction batch with
  | nil => rfl
  | cons row batch ih =>
    simp only [filterMask] at ih
    cases h : g row with
    | none => simp [filterMask, h, ih]
    | some j => simp [filterMask, h, ih]

theorem recordBatch_map {g : Row α → Option ℕ} {batch : List (Row α)}
    (h : ∀ row ∈ batch, (g row).isSome) :
    recordBatch (batch.map (·.rowId)) (batch.map g) =
      .ok (batch.filterMap fun row => (g row).map fun j : ℕ => (row.rowId, (j : ℤ))) := by
  have hnull : (batch.map g).any (·.isNone) = false := by
    simpa [Option.isSome_iff_ne_none] using h
  rw [recordBatch, if_neg (by simp), if_neg (by simp [hnull])]
  congr 1
  clear hnull
  induction batch with
  | nil => rfl
  | cons row batch ih =>
    obtain ⟨j, hj⟩ := Option.isSome_iff_exists.1 (h row mem_cons_self)
    have hr := ih fun row' hrow' => h row' (mem_cons_of_mem _ hrow')
    simp [hj, hr]

/-- The two columns of a batch hold the rows with a split id, in their order. -/
theorem hashBatch_eq {hash : α → ℕ} {ths : List ℕ} {totalWeight : ℕ} {batch : List (Row α)}
    (hweight : ¬(totalWeight = 0 ∧ batch ≠ [])) :
    hashBatch hash ths totalWeight batch = .ok (batch.filterMap fun row =>
      (hashSplitId ths totalWeight (hash row.columns)).map fun j : ℕ => (row.rowId, (j : ℤ))) := by
  simp only [hashBatch, if_neg hweight]
  split_ifs with hnull
  · rw [filterMask_map, filterMask_map,
      recordBatch_map fun row hrow => by simpa using (mem_filter.1 hrow).2, filterMap_filter]
    congr 2
    funext row
    cases hashSplitId ths totalWeight (hash row.columns) <;> rfl
  · refine recordBatch_map fun row hrow => ?_
    have hn := countP_eq_zero.1 (Nat.eq_zero_of_not_pos hnull) _ (mem_map_of_mem hrow)
    simpa [Option.isSome_iff_ne_none] using hn

theorem hashBatches_eq_applyHash (hash : α → ℕ) (source : List (List (Row α))) (weights : List ℕ)
    (discardWeight : ℕ) :
    hashBatches hash source weights discardWeight =
      applyHash hash source weights discardWeight := by
  rw [hashBatches, applyHash]
  congr 1
  funext batch
  split_ifs with hweight
  · rw [hashBatch, if_pos hweight]
  · rw [hashBatch_eq hweight]
    congr 2
    funext row
    cases hashSplitId _ _ (hash row.columns) <;> rfl

/-! ### The splits are intervals -/

theorem countP_of_binarySearch {ths : List ℕ} (hsort : ths.Pairwise (· < ·)) (x : ℕ) :
    (match binarySearch ths x with
      | .inl i => i + 1
      | .inr i => i) = ths.countP (· ≤ x) := by
  by_cases hmem : x ∈ ths
  · obtain ⟨below, above, rfl, hbelow⟩ := eq_append_cons_of_mem hmem
    have hf : (below ++ x :: above).idxOf? x = some below.length := by
      have hn : below.findIdx? (· == x) = none := idxOf?_eq_none_iff.2 hbelow
      simp [List.idxOf?, findIdx?_append, findIdx?_cons, hn]
    obtain ⟨-, habove, hlt⟩ := pairwise_append.1 hsort
    have hsm : below.countP (· ≤ x) = below.length :=
      countP_eq_length.2 fun th hth => by simpa using (hlt th hth x mem_cons_self).le
    have hlarge : above.countP (· ≤ x) = 0 :=
      countP_eq_zero.2 fun th hth => by simpa using rel_of_pairwise_cons habove hth
    rw [binarySearch, hf]
    simp [hsm, hlarge]
  · rw [binarySearch, idxOf?_eq_none_iff.2 hmem]
    refine countP_congr fun th hth => ?_
    have hne : th ≠ x := fun h => hmem (h ▸ hth)
    simp only [decide_eq_true_eq]
    omega

@[simp] theorem length_thresholds (offset : ℕ) (weights : List ℕ) :
    (thresholds offset weights).length = weights.length := by
  induction weights generalizing offset with
  | nil => rfl
  | cons w weights ih => simp [thresholds, ih]

variable {weights : List ℕ} {offset r : ℕ}

theorem thresholds_increasing (hpos : 0 ∉ weights) (hsum : offset + weights.sum < 2 ^ 64) :
    (offset :: thresholds offset weights).Pairwise (· < ·) := by
  induction weights generalizing offset with
  | nil => simp [thresholds]
  | cons w weights ih =>
    simp only [mem_cons, not_or, sum_cons] at hpos hsum
    rw [thresholds, Nat.mod_eq_of_lt (by omega)]
    have hr := ih hpos.2 (show offset + w + weights.sum < 2 ^ 64 by omega)
    refine pairwise_cons.2 ⟨fun th hth => ?_, hr⟩
    have hfst : offset < offset + w := by omega
    rcases mem_cons.1 hth with rfl | hth
    · exact hfst
    · exact hfst.trans (rel_of_pairwise_cons hr hth)

/-- The number of thresholds up to `r` is the number of the interval that `r` lies in. -/
theorem countP_thresholds (hpos : 0 ∉ weights) (hsum : offset + weights.sum < 2 ^ 64)
    (hle : offset ≤ r) :
    (∀ j, (thresholds offset weights).countP (· ≤ r) = j ∧ j ≠ weights.length ↔
      offset + (weights.take j).sum ≤ r ∧ r < offset + (weights.take (j + 1)).sum) ∧
    ((thresholds offset weights).countP (· ≤ r) = weights.length ↔ offset + weights.sum ≤ r) := by
  induction weights generalizing offset with
  | nil =>
    refine ⟨fun j => ?_, ?_⟩
    · simp [thresholds]
      omega
    · simpa [thresholds] using hle
  | cons w weights ih =>
    have hsort := thresholds_increasing hpos hsum
    simp only [mem_cons, not_or, sum_cons] at hpos hsum
    rw [thresholds, Nat.mod_eq_of_lt (by omega)] at hsort ⊢
    by_cases hr : offset + w ≤ r
    · obtain ⟨hs, hn⟩ := ih hpos.2 (by omega) hr
      rw [countP_cons_of_pos (by simpa using hr)]
      refine ⟨fun j => ?_, ?_⟩
      · cases j with
        | zero => simp [hr]
        | succ j =>
          simp only [take_succ_cons, sum_cons, ← Nat.add_assoc, ← hs j,
            length_cons, Nat.add_right_cancel_iff, ne_eq]
      · rw [length_cons, Nat.add_right_cancel_iff, hn, sum_cons, Nat.add_assoc]
    · have hz : ((offset + w) :: thresholds (offset + w) weights).countP (· ≤ r) = 0 := by
        refine countP_eq_zero.2 fun th hth => ?_
        have hth' : offset + w ≤ th := by
          rcases mem_cons.1 hth with rfl | hth
          · exact Nat.le_refl _
          · exact (rel_of_pairwise_cons hsort.of_cons hth).le
        simp only [decide_eq_true_eq]
        omega
      rw [hz]
      refine ⟨fun j => ?_, ?_⟩
      · cases j with
        | zero => simp; omega
        | succ j => simp; omega
      · simp; omega

/-- **Splits by hash follow the weights**: a row is in the split whose interval its hash falls in,
it is dropped if its hash is behind all intervals, and every batch holds the rows that are kept, in
their order. -/
theorem hash_assignment {discardWeight total : ℕ} (hpos : 0 ∉ weights) (hne : weights ≠ [])
    (htotal : weights.sum + discardWeight = total) (hlt : total < 2 ^ 64) :
    (∀ h j, hashSplitId (thresholds 0 weights) total h = some j ↔
      (weights.take j).sum ≤ h % total ∧ h % total < (weights.take (j + 1)).sum) ∧
    (∀ h, hashSplitId (thresholds 0 weights) total h = none ↔ weights.sum ≤ h % total) ∧
    (discardWeight = 0 → ∀ h, hashSplitId (thresholds 0 weights) total h ≠ none) ∧
    ∀ (hash : α → ℕ) (source : List (List (Row α))),
      hashBatches hash source weights discardWeight = .ok (source.map fun batch =>
        batch.filterMap fun row =>
          (hashSplitId (thresholds 0 weights) total (hash row.columns)).map
            fun j : ℕ => (row.rowId, (j : ℤ))) := by
  have hsum : 0 + weights.sum < 2 ^ 64 := by omega
  have hid : ∀ h, hashSplitId (thresholds 0 weights) total h =
      if (thresholds 0 weights).countP (· ≤ h % total) = weights.length then none
      else some ((thresholds 0 weights).countP (· ≤ h % total)) := by
    intro h
    rw [← countP_of_binarySearch (thresholds_increasing hpos hsum).of_cons, ← length_thresholds 0]
    rfl
  have hs := fun h => countP_thresholds hpos hsum (Nat.zero_le (h % total))
  simp only [Nat.zero_add] at hs
  have hn : ∀ h, hashSplitId (thresholds 0 weights) total h = none ↔
      weights.sum ≤ h % total := by
    intro h
    rw [hid, ← (hs h).2]
    simp
  have hweight : 0 < weights.sum := by
    obtain ⟨w, hw⟩ := exists_mem_of_ne_nil weights hne
    have hle := single_le_sum (fun _ _ => Nat.zero_le _) w hw
    have hw0 : w ≠ 0 := fun h => hpos (h ▸ hw)
    omega
  refine ⟨fun h j => ?_, hn, fun hdiscard h hh => ?_, fun hash source => ?_⟩
  · rw [hid, ← (hs h).1 j]
    split_ifs with hl
    · simp only [false_iff, not_and, hl]
      exact fun hj => not_not.2 hj.symm
    · constructor
      · rintro hj
        obtain rfl := Option.some.inj hj
        exact ⟨rfl, hl⟩
      · rintro ⟨rfl, -⟩
        rfl
  · have hmod := Nat.mod_lt h (y := total) (by omega)
    have hge := (hn h).1 hh
    omega
  · have hmod : (sumU64 weights + discardWeight) % 2 ^ 64 = total := by
      rw [sumU64, Nat.mod_add_mod, htotal, Nat.mod_eq_of_lt hlt]
    rw [hashBatches, hmod]
    exact mapM_eq_ok fun batch _ => hashBatch_eq (by omega)

theorem hash_assignment_demo :
    hashBatches (fun h : ℕ => h) [[⟨10, 4⟩, ⟨11, 3⟩], [⟨12, 1⟩]] [1, 2] 1 =
      .ok [[(10, 0)], [(12, 1)]] :=
  (hash_assignment (by decide) (by decide) rfl (by decide)).2.2.2 _ _

end Permutation

end LanceDB
