import LanceDB.Permutation.Reader
import Mathlib.Data.List.TakeWhile

/-!
# Iterating over a permutation

`Permutation.iter` hands the batches of the reader to the caller one after another.  With
`skip_last_batch` it leaves out every batch that is not of the requested size, wherever in the
stream it stands.

* `keepBatches`, `Reader.iter` : the loop of the source.
* `DropsTail` : what is left out is the incomplete tail.
* `dropsTail_of_shortTail`, `shortTail_of_dropsTail` — on a stream of batches, this depends on what
  follows the first short batch.
* `Reader.iterates_iff` — the same for a reader over any scan.
-/

namespace LanceDB

open List

namespace Permutation

section Stream

variable {β : Type} {batchSize : ℕ} {batches out : List (List β)}

/-- The loop of `iter`: the batches that are given to `transform_fn`. -/
def keepBatches (batchSize : ℕ) (skipLastBatch : Bool) : List (List β) → List (List β)
  | [] => []
  | batch :: batches =>
    if batch.length = batchSize ∨ skipLastBatch = false then
      batch :: keepBatches batchSize skipLastBatch batches
    else
      keepBatches batchSize skipLastBatch batches

/-- Only an incomplete tail of the rows is left out. -/
structure DropsTail (batchSize : ℕ) (rows : List β) (out : List (List β)) : Prop where
  length : out.length = rows.length / batchSize
  full : ∀ batch ∈ out, batch.length = batchSize
  flatten : out.flatten = rows.take (batchSize * (rows.length / batchSize))

/-- From the first batch on that is not full, less than one batch of rows follows. -/
def ShortTail (batchSize : ℕ) (batches : List (List β)) : Prop :=
  (batches.dropWhile (·.length = batchSize)).flatten.length < batchSize

@[simp] theorem keepBatches_false : keepBatches batchSize false batches = batches := by
  induction batches with
  | nil => rfl
  | cons batch batches ih => rw [keepBatches, if_pos (Or.inr rfl), ih]

theorem keepBatches_true :
    keepBatches batchSize true batches = batches.filter (·.length = batchSize) := by
  induction batches with
  | nil => rfl
  | cons batch batches ih =>
    by_cases hf : batch.length = batchSize
    · rw [keepBatches, if_pos (Or.inl hf), filter_cons_of_pos (by simpa using hf), ih]
    · rw [keepBatches, if_neg (by simp [hf]), filter_cons_of_neg (by simpa using hf), ih]

theorem length_flatten_of_full (h : ∀ batch ∈ batches, batch.length = batchSize) :
    batches.flatten.length = batchSize * batches.length := by
  rw [length_flatten, map_congr_left h, map_const', sum_replicate_nat,
    Nat.mul_comm]

theorem full_of_mem_takeWhile {batch : List β}
    (h : batch ∈ batches.takeWhile (·.length = batchSize)) : batch.length = batchSize := by
  simpa using mem_takeWhile_imp h

theorem length_flatten_eq (batchSize : ℕ) (batches : List (List β)) :
    batches.flatten.length = batchSize * (batches.takeWhile (·.length = batchSize)).length +
      (batches.dropWhile (·.length = batchSize)).flatten.length := by
  rw [← length_flatten_of_full fun _ => full_of_mem_takeWhile, ← length_append,
    ← flatten_append, takeWhile_append_dropWhile]

theorem keepBatches_eq (batchSize : ℕ) (batches : List (List β)) :
    keepBatches batchSize true batches = batches.takeWhile (·.length = batchSize) ++
      (batches.dropWhile (·.length = batchSize)).filter (·.length = batchSize) := by
  calc keepBatches batchSize true batches
      = (batches.takeWhile (·.length = batchSize) ++
          batches.dropWhile (·.length = batchSize)).filter (·.length = batchSize) := by
        rw [keepBatches_true, takeWhile_append_dropWhile]
    _ = _ := by
        rw [filter_append, filter_eq_self.2 fun batch hbat => ?_]
        simpa using full_of_mem_takeWhile hbat

theorem dropsTail_of_shortTail (hpos : 0 < batchSize) (h : ShortTail batchSize batches) :
    DropsTail batchSize batches.flatten (keepBatches batchSize true batches) := by
  set full := batches.takeWhile (·.length = batchSize) with hf
  set rest := batches.dropWhile (·.length = batchSize) with hr
  have hlng := length_flatten_eq batchSize batches
  have hkeep := keepBatches_eq batchSize batches
  rw [← hf, ← hr] at hlng hkeep
  replace h : rest.flatten.length < batchSize := h
  -- a batch of the rest is too short to be full
  have hn : rest.filter (·.length = batchSize) = [] := by
    refine filter_eq_nil_iff.2 fun batch hbat => ?_
    have hle := (sublist_flatten_of_mem hbat).length_le
    simp only [decide_eq_true_eq]
    omega
  rw [hn, append_nil] at hkeep
  have hdiv : batches.flatten.length / batchSize = full.length := by
    rw [hlng, Nat.mul_add_div hpos, Nat.div_eq_of_lt h, Nat.add_zero]
  have hflat : batches.flatten = full.flatten ++ rest.flatten := by
    rw [← flatten_append, hf, hr, takeWhile_append_dropWhile]
  refine ⟨by rw [hkeep, hdiv], fun batch hbat => ?_, ?_⟩
  · exact full_of_mem_takeWhile (hkeep ▸ hbat)
  · have hlen : full.flatten.length = batchSize * full.length :=
      length_flatten_of_full fun _ => full_of_mem_takeWhile
    rw [hdiv, hkeep, hflat, ← hlen, take_left]

/-- Conversely, if the rows are different, the rows of a short batch are missed when a whole batch
of rows or more comes from there on. -/
theorem shortTail_of_dropsTail (hne : ∀ batch ∈ batches, batch ≠ [])
    (hnd : batches.flatten.Nodup) (hpos : 0 < batchSize)
    (h : DropsTail batchSize batches.flatten (keepBatches batchSize true batches)) :
    ShortTail batchSize batches := by
  set full := batches.takeWhile (·.length = batchSize) with hf
  by_contra hshort
  rw [ShortTail, not_lt] at hshort
  have hlng := length_flatten_eq batchSize batches
  have hkeep := keepBatches_eq batchSize batches
  cases hr : batches.dropWhile (·.length = batchSize) with
  | nil =>
    rw [hr] at hshort
    exact absurd hshort (by simpa using hpos.ne')
  | cons short rest =>
    rw [hr] at hshort
    rw [hr, ← hf] at hlng hkeep
    have hnotfull : short.length ≠ batchSize := by
      have hhd := head?_dropWhile_not (fun b : List β => b.length = batchSize) batches
      simpa [hr] using hhd
    rw [filter_cons_of_neg (by simpa using hnotfull)] at hkeep
    have hmem : short ∈ batches :=
      (dropWhile_sublist _).subset (hr ▸ mem_cons_self)
    obtain ⟨row, short', rfl⟩ := exists_cons_of_ne_nil (hne short hmem)
    have hflat : batches.flatten = full.flatten ++ (row :: (short' ++ rest.flatten)) := by
      rw [← cons_append, ← flatten_cons, ← flatten_append, ← hr,
        takeWhile_append_dropWhile]
    have hlen : full.flatten.length = batchSize * full.length :=
      length_flatten_of_full fun _ => full_of_mem_takeWhile
    -- the row after the full batches is the first one of the short batch
    have hmore : full.flatten.length < batchSize * (batches.flatten.length / batchSize) := by
      have : full.length + 1 ≤ batches.flatten.length / batchSize := by
        rw [Nat.le_div_iff_mul_le hpos, hlng, Nat.add_mul, Nat.mul_comm]
        omega
      have := Nat.mul_le_mul_left batchSize this
      rw [Nat.mul_add] at this
      omega
    have hrow := congrArg (·[full.flatten.length]?) h.flatten
    simp only [hkeep, flatten_append, getElem?_append_right le_rfl, Nat.sub_self,
      getElem?_take_of_lt hmore] at hrow
    rw [hflat, getElem?_append_right le_rfl, Nat.sub_self, getElem?_cons_zero] at hrow
    -- but it was left out, and does not come again
    have hagain : row ∈ rest.flatten := by
      have := mem_of_getElem? hrow
      exact (filter_sublist.flatten).subset this
    rw [hflat, nodup_append, nodup_cons] at hnd
    exact hnd.2.1.1 (mem_append_right _ hagain)

end Stream

namespace Reader

variable {α : Type} {rd : Reader α} {scan : Batching} {batchSize : ℕ}

/-- `Permutation.iter`, with the generator run to its end. -/
def iter (rd : Reader α) (scan : Batching) (batchSize : ℕ) (skipLastBatch : Bool) :
    Except LoaderError (List (List (Row α))) := do
  let batches ← rd.read scan batchSize
  return keepBatches batchSize skipLastBatch batches

/-- The iteration with `skip_last_batch` leaves out the incomplete tail of the rows, and without it
yields all rows. -/
structure Iterates (rd : Reader α) (scan : Batching) (batchSize : ℕ) : Prop where
  skipping : ∃ out, rd.iter scan batchSize true = .ok out ∧ DropsTail batchSize rd.rows out
  keeping : ∃ out, rd.iter scan batchSize false = .ok out ∧ out.flatten = rd.rows

theorem nodup_rows (h : rd.rowIds.Nodup) : rd.rows.Nodup := by
  refine h.filterMap fun id id' row hrow hrow' => ?_
  exact (Base.lookup_eq_some.1 hrow).2.symm.trans (Base.lookup_eq_some.1 hrow').2

theorem ne_nil_of_read {batches : List (List (Row α))} (h : rd.read scan batchSize = .ok batches) :
    ∀ batch ∈ batches, batch ≠ [] := by
  obtain ⟨-, hres, rfl⟩ := read_eq_ok.1 h
  intro batch hbat
  obtain ⟨ids, hids, rfl⟩ := mem_map.1 hbat
  have hne := ne_nil_of_mem_maxBatchLength (scan.ne_nil rd.rowIds) hids
  obtain ⟨id, ids', rfl⟩ := exists_cons_of_ne_nil hne
  have hid : id ∈ rd.rowIds := by
    rw [← scan.flatten_cut rd.rowIds, ← flatten_maxBatchLength batchSize]
    exact mem_flatten.2 ⟨_, hids, mem_cons_self⟩
  obtain ⟨row, hrow⟩ := Base.exists_lookup.2 (hres id hid)
  rw [filterMap_cons_some hrow]
  exact cons_ne_nil _ _

/-- **Iteration**: it drops only an incomplete tail if less than one batch of rows comes from the
first short batch on that the reader delivers, and, the row ids being different, only then. -/
theorem iterates_iff (hpos : 1 ≤ batchSize) :
    ((∃ batches, rd.read scan batchSize = .ok batches ∧ ShortTail batchSize batches) →
        rd.Iterates scan batchSize) ∧
      (rd.rowIds.Nodup → rd.Iterates scan batchSize →
        ∃ batches, rd.read scan batchSize = .ok batches ∧ ShortTail batchSize batches) := by
  constructor
  · rintro ⟨batches, hr, hshort⟩
    have hrows := flatten_of_read hr
    refine ⟨⟨keepBatches batchSize true batches, ?_, ?_⟩, ⟨batches, ?_, hrows⟩⟩
    · rw [iter, hr]
      rfl
    · exact hrows ▸ dropsTail_of_shortTail hpos hshort
    · rw [iter, hr]
      exact congrArg Except.ok keepBatches_false
  · rintro hnd ⟨⟨out, hout, hdrops⟩, -⟩
    obtain ⟨batches, hr, hkeep⟩ := Except.bind_eq_ok.1 hout
    obtain rfl := Except.ok.inj hkeep
    have hrows := flatten_of_read hr
    refine ⟨batches, hr, ?_⟩
    exact shortTail_of_dropsTail (ne_nil_of_read hr) (hrows ▸ nodup_rows hnd) hpos
      (hrows ▸ hdrops)

/-- All rows of a table with two rows. -/
def bothRows : Reader Unit := ⟨twoRows, none, none, none, 2, 0⟩

theorem iterates_demo : bothRows.Iterates .whole 2 := by
  refine (iterates_iff (by decide)).1 ⟨[[⟨10, ()⟩, ⟨11, ()⟩]], rfl, ?_⟩
  unfold ShortTail
  decide

/-- Two rows in two fragments, read in batches of two: both are left out, although they are a whole
batch. -/
theorem iter_loses_rows :
    bothRows.read .single 2 = .ok [[⟨10, ()⟩], [⟨11, ()⟩]] ∧
      bothRows.iter .single 2 true = .ok [] ∧ ¬ bothRows.Iterates .single 2 := by
  refine ⟨rfl, rfl, ?_⟩
  rintro ⟨⟨out, hout, hdrops⟩, -⟩
  obtain rfl := Except.ok.inj (hout.symm.trans (rfl : bothRows.iter .single 2 true = .ok []))
  exact absurd hdrops.length (by decide)

end Reader

end Permutation

end LanceDB
