import LanceDB.Permutation.Split

/-!
# Sequential assignment does not depend on the batches

The assignment goes through the splits with a position that is kept from batch to batch.  What it
has still to hand out is a list of split ids; a batch takes its part of that list, wherever the
batch begins and ends.

* `assignRows`, `applySequentialRows` : the stream of `apply_sequential`, with whole rows.
* `splitIds` : the ids of all splits, one after the other.
* `Pending`, `sequentialSplitId_pending` — what is still to be handed out, batch by batch.
* `flatten_assignRows` — the rows get the ids in order.
* `applySequential_rows` — the result.
-/

namespace LanceDB

open List

namespace Permutation

variable {β : Type}
variable {st : Assigner} {sizes : List ℕ}

/-! ### Rows with their split ids -/

/-- The stream of `apply_sequential`: every batch gets a column of split ids, and is cut where the
splits run out. -/
def assignRows (sizes : List ℕ) : Assigner → List (List β) →
    Except LoaderError (List (List (β × ℕ)))
  | _, [] => .ok []
  | st, batch :: source =>
    if st.exhausted then
      assignRows sizes st source
    else do
      let (splitIds, st') ← sequentialSplitId sizes st batch.length
      let rest ← assignRows sizes st' source
      return batch.zip splitIds :: rest

/-- `apply_sequential`. -/
def applySequentialRows (source : List (List β)) (numRows : ℕ) (sizes : SplitSizes Float) :
    Except LoaderError (List (List (β × ℕ))) := do
  let splitSizes ← sizes.toCounts numRows
  assignRows splitSizes ⟨0, 0, false⟩ source

/-- The entries of a permutation are what is left of the rows: their row ids. -/
theorem assignBatches_eq {α : Type} (sizes : List ℕ) (st : Assigner)
    (source : List (List (Row α))) : assignBatches sizes st source =
      (List.map (List.map fun row => (row.1.rowId, (row.2 : ℤ)))) <$>
        assignRows sizes st source := by
  induction source generalizing st with
  | nil => rfl
  | cons batch source ih =>
    rw [assignBatches, assignRows]
    split_ifs
    · exact ih st
    · cases sequentialSplitId sizes st batch.length with
      | error e => rfl
      | ok r =>
        obtain ⟨splitIds, st'⟩ := r
        change (assignBatches sizes st' source >>= fun rest => Except.ok _) = _ <$>
          (assignRows sizes st' source >>= fun rest => Except.ok (batch.zip splitIds :: rest))
        rw [ih st']
        cases assignRows sizes st' source with
        | error e => rfl
        | ok rest =>
          refine congrArg (fun entries => Except.ok (entries :: _)) ?_
          -- the ids are read as integers
          have hcast : (do let splitId ← splitIds; pure (Nat.cast splitId : ℤ)) =
              List.map (Nat.cast : ℕ → ℤ) splitIds := flatMap_pure_eq_map _ _
          rw [hcast, zipWith_map_right, List.zip, map_zipWith]

/-! ### What is still to be handed out -/

/-- The ids of the splits from `j` on, as often as their sizes say. -/
def splitIds : (j : ℕ) → (sizes : List ℕ) → List ℕ
  | _, [] => []
  | j, size :: sizes => List.replicate size j ++ splitIds (j + 1) sizes

theorem length_splitIds (j : ℕ) (sizes : List ℕ) : (splitIds j sizes).length = sizes.sum := by
  induction sizes generalizing j with
  | nil => rfl
  | cons size sizes ih => simp [splitIds, ih]

theorem le_of_mem_splitIds {j x : ℕ} (hx : x ∈ splitIds j sizes) : j ≤ x := by
  induction sizes generalizing j with
  | nil => simp [splitIds] at hx
  | cons size sizes ih =>
    rcases mem_append.1 hx with hx | hx
    · exact (eq_of_mem_replicate hx).ge
    · exact (Nat.le_succ j).trans (ih hx)

/-- Place `i` belongs to split `j` when the splits before `j` end there and split `j` does not. -/
theorem getElem?_splitIds (sizes : List ℕ) (j₀ i j : ℕ) :
    (splitIds j₀ sizes)[i]? = some (j₀ + j) ↔
      (sizes.take j).sum ≤ i ∧ i < (sizes.take (j + 1)).sum := by
  induction sizes generalizing j₀ i j with
  | nil => simp [splitIds]
  | cons size sizes ih =>
    rw [splitIds]
    rcases Nat.lt_or_ge i size with hlt | hge
    · rw [getElem?_append_left (by simpa using hlt), getElem?_replicate, if_pos hlt]
      cases j with
      | zero => simpa using hlt
      | succ j =>
        simp only [Option.some.injEq, take_succ_cons, sum_cons]
        omega
    · rw [getElem?_append_right (by simpa using hge), length_replicate]
      cases j with
      | zero =>
        -- the ids that follow are greater
        have hne : (splitIds (j₀ + 1) sizes)[i - size]? ≠ some (j₀ + 0) := by
          intro h
          have hmem := mem_of_getElem? h
          have := le_of_mem_splitIds hmem
          omega
        simp only [hne, false_iff, take_zero, sum_nil, Nat.zero_le, true_and,
          Nat.zero_add, take_succ_cons, sum_cons, Nat.not_lt]
        exact hge
      | succ j =>
        rw [← Nat.add_assoc, Nat.add_right_comm, ih (j₀ + 1) (i - size) j]
        simp only [take_succ_cons, sum_cons]
        omega

/-- The ids that the assignment has still to hand out, on the sizes from its split on: the rest of
the split it is in, and the splits behind it. -/
def Pending (suffix : List ℕ) (st : Assigner) (ids : List ℕ) : Prop :=
  ∃ size rest, suffix = size :: rest ∧ st.counterInSplit ≤ size ∧
    ids = List.replicate (size - st.counterInSplit) st.splitIndex ++
      splitIds (st.splitIndex + 1) rest

theorem assignFrom_within {size : ℕ} {rest ids : List ℕ} (hctr : st.counterInSplit ≤ size)
    (hexh : st.exhausted = false) {numRows : ℕ} (hlt : numRows < size - st.counterInSplit)
    (hids : ids = List.replicate (size - st.counterInSplit) st.splitIndex ++
    splitIds (st.splitIndex + 1) rest) :
    ∃ st', assignFrom (size :: rest) st numRows = .ok (ids.take numRows, st') ∧
      st'.splitIndex = st.splitIndex ∧ st'.exhausted = false ∧
        Pending (size :: rest) st' (ids.drop numRows) := by
  have ht : ids.take numRows = List.replicate numRows st.splitIndex := by
    rw [hids, take_append_of_le_length (by simpa using hlt.le), take_replicate,
      Nat.min_eq_left hlt.le]
  have hd : ids.drop numRows = List.replicate (size - (st.counterInSplit + numRows))
      st.splitIndex ++ splitIds (st.splitIndex + 1) rest := by
    rw [hids, drop_append_of_le_length (by simpa using hlt.le), drop_replicate,
      Nat.sub_sub]
  have hinside : st.counterInSplit + numRows ≤ size := by omega
  refine ⟨{ st with counterInSplit := st.counterInSplit + numRows }, ?_, rfl, hexh,
    size, rest, rfl, hinside, hd⟩
  rw [ht]
  cases numRows with
  | zero => rfl
  | succ n => rw [assignFrom, if_neg hctr.not_gt, if_pos hlt]

/-- The loop of `sequential_split_id` hands out the next ids, until there are no more. -/
theorem assignFrom_pending {suffix ids : List ℕ} (h : Pending suffix st ids)
    (hexh : st.exhausted = false) (numRows : ℕ) :
    ∃ st', assignFrom suffix st numRows = .ok (ids.take numRows, st') ∧
      ((st'.exhausted = true ∧ ids.length ≤ numRows) ∨
        ∃ k, st'.splitIndex = st.splitIndex + k ∧ st'.exhausted = false ∧
          Pending (suffix.drop k) st' (ids.drop numRows)) := by
  obtain ⟨size, rest, rfl, hctr, hids⟩ := h
  induction rest generalizing size st numRows ids with
  | nil =>
    cases numRows with
    | zero => exact ⟨st, rfl, .inr ⟨0, rfl, hexh, size, [], rfl, hctr, hids⟩⟩
    | succ n =>
      by_cases hlt : n + 1 < size - st.counterInSplit
      · obtain ⟨st', hasg, hidx, hgoes, hpend⟩ :=
          assignFrom_within hctr hexh hlt hids
        exact ⟨st', hasg, .inr ⟨0, hidx, hgoes, hpend⟩⟩
      · rw [splitIds, append_nil] at hids
        have hlen : ids.length ≤ n + 1 := by
          rw [hids, length_replicate]
          omega
        refine ⟨⟨st.splitIndex + 1, 0, true⟩, ?_, .inl ⟨rfl, hlen⟩⟩
        rw [assignFrom, if_neg hctr.not_gt, if_neg hlt, if_pos isEmpty_nil,
          take_of_length_le hlen, hids]
  | cons next rest ih =>
    cases numRows with
    | zero => exact ⟨st, rfl, .inr ⟨0, rfl, hexh, size, _, rfl, hctr, hids⟩⟩
    | succ n =>
      by_cases hlt : n + 1 < size - st.counterInSplit
      · obtain ⟨st', hasg, hidx, hgoes, hpend⟩ :=
          assignFrom_within hctr hexh hlt hids
        exact ⟨st', hasg, .inr ⟨0, hidx, hgoes, hpend⟩⟩
      · -- the split is filled, and the loop goes on with the next one
        have hn : (⟨st.splitIndex + 1, 0, st.exhausted⟩ : Assigner).exhausted = false :=
          hexh
        obtain ⟨st', hasg, hend⟩ := ih hn (n + 1 - (size - st.counterInSplit)) next
          (Nat.zero_le _) rfl
        have ht : ids.take (n + 1) = List.replicate (size - st.counterInSplit) st.splitIndex ++
            (splitIds (st.splitIndex + 1) (next :: rest)).take
              (n + 1 - (size - st.counterInSplit)) := by
          rw [hids, take_append, take_of_length_le (by simp; omega),
            length_replicate]
        have hdrop : ids.drop (n + 1) = (splitIds (st.splitIndex + 1) (next :: rest)).drop
            (n + 1 - (size - st.counterInSplit)) := by
          rw [hids, drop_append, drop_eq_nil_of_le (by simp; omega),
            length_replicate, nil_append]
        refine ⟨st', ?_, ?_⟩
        · have hmore : ¬ (next :: rest).isEmpty = true := by simp
          rw [assignFrom, if_neg hctr.not_gt, if_neg hlt, if_neg hmore, hasg, ht]
          rfl
        · rcases hend with ⟨hd, hlen⟩ | ⟨k, hidx, hgoes, hpend⟩
          · refine .inl ⟨hd, ?_⟩
            rw [hids, length_append, length_replicate]
            rw [Nat.sub_zero] at hlen
            rw [splitIds, length_append]
            rw [length_append] at hlen
            simp only at hlen
            omega
          · refine .inr ⟨k + 1, ?_, hgoes, ?_⟩
            · rw [hidx]
              simp only
              omega
            · rw [drop_succ_cons, hdrop]
              exact hpend

theorem sequentialSplitId_pending {ids : List ℕ} (h : Pending (sizes.drop st.splitIndex) st ids)
    (hexh : st.exhausted = false) (numRows : ℕ) :
    ∃ st', sequentialSplitId sizes st numRows = .ok (ids.take numRows, st') ∧
      ((st'.exhausted = true ∧ ids.length ≤ numRows) ∨
        (st'.exhausted = false ∧ Pending (sizes.drop st'.splitIndex) st' (ids.drop numRows))) := by
  obtain ⟨st', hasg, hend⟩ := assignFrom_pending h hexh numRows
  refine ⟨st', hasg, ?_⟩
  rcases hend with hd | ⟨k, hidx, hgoes, hpend⟩
  · exact .inl hd
  · rw [drop_drop, ← hidx] at hpend
    exact .inr ⟨hgoes, hpend⟩

/-! ### All batches -/

theorem assignRows_of_exhausted (sizes : List ℕ) (h : st.exhausted = true)
    (source : List (List β)) : assignRows sizes st source = .ok [] := by
  induction source with
  | nil => rfl
  | cons batch source ih => rw [assignRows, if_pos h, ih]

/-- **The rows get the ids in order**, however they come in batches. -/
theorem flatten_assignRows {ids : List ℕ} (h : Pending (sizes.drop st.splitIndex) st ids)
    (hexh : st.exhausted = false) (source : List (List β)) :
    ∃ out, assignRows sizes st source = .ok out ∧ out.flatten = source.flatten.zip ids := by
  induction source generalizing st ids with
  | nil => exact ⟨[], rfl, by simp⟩
  | cons batch source ih =>
    obtain ⟨st', hasg, hend⟩ := sequentialSplitId_pending h hexh batch.length
    have hr : ∃ rest, assignRows sizes st' source = .ok rest ∧
        rest.flatten = source.flatten.zip (ids.drop batch.length) := by
      rcases hend with ⟨hd, hlen⟩ | ⟨hgoes, hpend⟩
      · refine ⟨[], assignRows_of_exhausted sizes hd source, ?_⟩
        rw [drop_eq_nil_of_le hlen, zip_nil_right, flatten_nil]
      · exact ih hpend hgoes
    obtain ⟨rest, hr, hflat⟩ := hr
    refine ⟨batch.zip (ids.take batch.length) :: rest, ?_, ?_⟩
    · rw [assignRows, if_neg (by simp [hexh]), hasg]
      change (assignRows sizes st' source >>= fun rest =>
        Except.ok (batch.zip (ids.take batch.length) :: rest)) = _
      rw [hr]
      rfl
    · rw [flatten_cons, flatten_cons, hflat, append_zip]

theorem pending_start (hszs : sizes ≠ []) :
    Pending (sizes.drop (⟨0, 0, false⟩ : Assigner).splitIndex) ⟨0, 0, false⟩
      (splitIds 0 sizes) := by
  obtain ⟨size, rest, rfl⟩ := exists_cons_of_ne_nil hszs
  exact ⟨size, rest, rfl, Nat.zero_le _, rfl⟩

/-- **Sequential assignment does not depend on the batches**: what comes out are the first rows, as
many as the splits have room for, and row `i` carries the split that the sum of the sizes puts it
in. -/
theorem applySequential_rows {sizes : List ℕ} (hsizes : sizes ≠ []) (source : List (List β))
    (hsum : sizes.sum ≤ source.flatten.length) :
    ∃ out, applySequentialRows source source.flatten.length (.counts sizes) = .ok out ∧
      out.flatten.map Prod.fst = source.flatten.take sizes.sum ∧
      ∀ i row j, out.flatten[i]? = some (row, j) ↔ source.flatten[i]? = some row ∧
        (sizes.take j).sum ≤ i ∧ i < (sizes.take (j + 1)).sum := by
  obtain ⟨out, hout, hflat⟩ := flatten_assignRows (pending_start hsizes) rfl source
  refine ⟨out, ?_, ?_, fun i row j => ?_⟩
  · have hassert : sumU64 sizes ≤ source.flatten.length := (Nat.mod_le _ _).trans hsum
    change ((if sumU64 sizes ≤ source.flatten.length then Except.ok sizes else Except.error _) >>=
      fun splitSizes => assignRows splitSizes ⟨0, 0, false⟩ source) = _
    rw [if_pos hassert]
    exact hout
  · rw [hflat, map_fst_zip_eq_take, length_splitIds]
  · rw [hflat, getElem?_zip_eq_some]
    refine and_congr_right fun _ => ?_
    have hid := getElem?_splitIds sizes 0 i j
    rwa [Nat.zero_add] at hid

theorem applySequential_rows_demo :
    ∃ out, applySequentialRows [[10, 11], [], [12], [13, 14]] 5 (.counts [1, 3]) = .ok out ∧
      out.flatten.map Prod.fst = [10, 11, 12, 13] ∧
      out.flatten[3]? = some (13, 1) := by
  have hszs : [1, 3] ≠ [] := by decide
  obtain ⟨out, hout, hr, hspls⟩ :=
    applySequential_rows hszs [[10, 11], [], [12], [13, 14]] (by decide)
  exact ⟨out, hout, hr, (hspls 3 13 1).2 (by decide)⟩

end Permutation

end LanceDB
