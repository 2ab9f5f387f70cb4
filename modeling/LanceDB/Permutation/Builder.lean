import LanceDB.Permutation.Split

/-!
# Building a permutation table

`PermutationBuilder::build` scans the base table, assigns splits, shuffles, and sorts by split id
where it thinks that is needed.  A reader filters the table by split id; only the order within a
split matters to it, but the table is meant to be grouped.

* `Sorter` : an external sort that is correct, not necessarily stable.
* `build` : the function of the source.
* `build_entries` — what is written has the entries of the splitter.
* `grouped_iff` — when it is sorted by split id.
-/

namespace LanceDB

open Except

namespace Permutation

/-- An external sort.  The sorted rows come in batches. -/
structure Sorter where
  sort : {β : Type} → (key : β → ℤ) → List β → List (List β)
  perm : ∀ {β : Type} (key : β → ℤ) (xs : List β), (sort key xs).flatten.Perm xs
  sorted : ∀ {β : Type} (key : β → ℤ) (xs : List β),
    (sort key xs).flatten.Pairwise fun a b => key a ≤ key b

/-- `ShuffleStrategy`. -/
inductive ShuffleStrategy
  | random (clumpSize : Option ℕ)
  | none
  deriving DecidableEq

/-- What the builder reads of the base table, at the version it is pinned to. -/
structure BaseTable (α : Type) where
  /-- The batches of a scan. -/
  batches : List (List (Row α))
  version : ℕ
  /-- `current_branch`; `none` is main. -/
  branch : Option String
  /-- `get_memwal_spec`: whether there is a spec, `none` where the table has no such write path. -/
  memwalSpec : Option Bool
  /-- `scan_order_is_deterministic`. -/
  scanOrderIsDeterministic : Bool

/-- `PermutationConfig`. -/
structure PermutationConfig where
  splitStrategy : SplitStrategy
  splitNames : Option (List String)
  shuffleStrategy : ShuffleStrategy
  filter : Option String

/-- What a permutation table records besides its rows. -/
structure Metadata where
  baseVersion : ℕ
  /-- Absent means main. -/
  baseBranch : Option String
  splitNames : Option (List String)
  deriving DecidableEq

/-- A permutation table that has been written. -/
structure PermutationTable where
  batches : List (List Entry)
  metadata : Metadata

/-- The rows of a permutation table. -/
def PermutationTable.entries (table : PermutationTable) : List Entry := table.batches.flatten

section Build

variable {α : Type} (engine : Engine α) (sorter : Sorter) (splitRng shuffleRng : Rng)
  (config : PermutationConfig) (table : BaseTable α)

/-- The first pass: the rows that pass the filter, in a fixed order. -/
def scanRows : List (List (Row α)) :=
  let rows := table.batches.map fun batch => batch.filter fun row =>
    config.filter.all fun condition => engine.holds condition row.columns
  if table.scanOrderIsDeterministic then rows
  else sorter.sort (fun row => (row.rowId : ℤ)) rows.flatten

/-- `count_rows` with the filter. -/
def countRows : ℕ :=
  table.batches.flatten.countP fun row =>
    config.filter.all fun condition => engine.holds condition row.columns

/-- The entries the splitter produces. -/
def splitData : Except LoaderError (List (List Entry)) :=
  config.splitStrategy.apply engine splitRng (scanRows engine sorter config table)
    (countRows engine config table)

/-- The shuffle between assigning splits and sorting. -/
def shuffleData (data : List (List Entry)) : Except LoaderError (List (List Entry)) :=
  match config.shuffleStrategy with
  | .none => .ok data
  | .random clumpSize =>
    Shuffler.shuffle ⟨10 * 1024 * 1024, clumpSize⟩ shuffleRng data (countRows engine config table)

/-- `PermutationBuilder::build`. -/
def build : Except LoaderError PermutationTable := do
  if table.memwalSpec = some true then
    throw (.notSupported <| "the data loader does not support tables with a MemWAL write spec: " ++
      "rows that have not been flushed to the base table have no row id, so a permutation " ++
      "cannot reference them")
  let needsSort := !config.splitStrategy.ordersBySplitId
  let data ← splitData engine sorter splitRng config table
  let shuffled ← shuffleData engine shuffleRng config table data
  -- the split ids are grouped again after a shuffle
  let needsSort := needsSort || config.shuffleStrategy ≠ .none
  let sorted := if needsSort then sorter.sort (fun entry => entry.2) shuffled.flatten else shuffled
  return ⟨sorted, ⟨table.version, table.branch, config.splitNames⟩⟩

end Build

/-! ### Grouping -/

/-- Entries in the order of their split ids. -/
def Grouped (entries : List Entry) : Prop := entries.Pairwise fun a b => a.2 ≤ b.2

/-- `build` sorts: the strategy is not one of those that say they order by split id, or the rows
were shuffled. -/
def PermutationConfig.Sorts (config : PermutationConfig) : Prop :=
  config.splitStrategy.ordersBySplitId = false ∨ config.shuffleStrategy ≠ .none

section Result

variable {α : Type} {engine : Engine α} {sorter : Sorter} {splitRng shuffleRng : Rng}
  {config : PermutationConfig} {table : BaseTable α} {result : PermutationTable}

/-- What `build` writes: shuffled, then sorted where the configuration asks for it. -/
theorem build_cases (h : build engine sorter splitRng shuffleRng config table = .ok result) :
    ∃ data shuffled, splitData engine sorter splitRng config table = .ok data ∧
      shuffled.flatten.Perm data.flatten ∧
      (config.shuffleStrategy = .none → shuffled = data) ∧
      (config.Sorts → result.batches = sorter.sort (fun entry => entry.2) shuffled.flatten) ∧
      (¬ config.Sorts → result.batches = shuffled) := by
  rw [build] at h
  split_ifs at h with hspec
  · cases h
  obtain ⟨data, hdata, h⟩ := bind_eq_ok.1 h
  obtain ⟨shuffled, hshuf, h⟩ := bind_eq_ok.1 h
  obtain rfl := ok.inj h
  have hsorts : (!config.splitStrategy.ordersBySplitId ||
      decide (config.shuffleStrategy ≠ .none)) = true ↔ config.Sorts := by
    simp [PermutationConfig.Sorts]
  refine ⟨data, shuffled, hdata, ?_, fun hn => ?_, fun hs => ?_, fun hs => ?_⟩
  · cases hstrat : config.shuffleStrategy with
    | none =>
      simp only [shuffleData, hstrat, ok.injEq] at hshuf
      rw [hshuf]
    | random clumpSize =>
      simp only [shuffleData, hstrat] at hshuf
      exact Shuffler.shuffle_perm hshuf
  · simp only [shuffleData, hn, ok.injEq] at hshuf
    exact hshuf.symm
  · exact if_pos (hsorts.2 hs)
  · exact if_neg fun hs' => hs (hsorts.1 hs')

/-- **What is written** has the entries of the splitter, each as often. -/
theorem build_entries (h : build engine sorter splitRng shuffleRng config table = .ok result) :
    ∃ data, splitData engine sorter splitRng config table = .ok data ∧
      result.entries.Perm data.flatten := by
  obtain ⟨data, shuffled, hdata, hp, -, hsort, hpl⟩ := build_cases h
  refine ⟨data, hdata, ?_⟩
  rw [PermutationTable.entries]
  by_cases hs : config.Sorts
  · rw [hsort hs]
    exact (sorter.perm _ _).trans hp
  · rw [hpl hs]
    exact hp

theorem build_metadata (h : build engine sorter splitRng shuffleRng config table = .ok result) :
    result.metadata = ⟨table.version, table.branch, config.splitNames⟩ := by
  rw [build] at h
  split_ifs at h
  · cases h
  obtain ⟨data, -, h⟩ := bind_eq_ok.1 h
  obtain ⟨shuffled, -, h⟩ := bind_eq_ok.1 h
  obtain rfl := ok.inj h
  rfl

/-- **Grouping by split.**  The stream that `build` writes has exactly the entries the splitter
produced.  It is sorted by split id if and only if `build` sorts it, or the splitter happened to
produce the entries in that order: with the strategies `Hash` and `Calculated` and without a
shuffle nothing is sorted. -/
theorem grouped_iff (h : build engine sorter splitRng shuffleRng config table = .ok result) :
    ∃ data, splitData engine sorter splitRng config table = .ok data ∧
      ((Grouped result.entries ∧ result.entries.Perm data.flatten) ↔
        (config.Sorts ∨ Grouped data.flatten)) := by
  obtain ⟨data, shuffled, hdata, hp, hn, hsort, hpl⟩ := build_cases h
  obtain ⟨data', hdata', hents⟩ := build_entries h
  obtain rfl : data = data' := ok.inj (hdata.symm.trans hdata')
  refine ⟨data, hdata, ?_⟩
  rw [and_iff_left hents, PermutationTable.entries]
  by_cases hs : config.Sorts
  · rw [hsort hs]
    exact iff_of_true (sorter.sorted _ _) (Or.inl hs)
  · -- nothing is shuffled either, so the entries are written as they come
    have hstrat : config.shuffleStrategy = .none := by
      by_contra hne
      exact hs (Or.inr hne)
    rw [hpl hs, hn hstrat, or_iff_right hs]

end Result

/-- Insertion sort, in one batch. -/
def Sorter.insertion : Sorter where
  sort key xs := [xs.insertionSort fun a b => key a ≤ key b]
  perm key xs := by
    rw [List.flatten_singleton]
    exact List.perm_insertionSort _ _
  sorted {β} key xs := by
    have : Std.Total fun a b : β => key a ≤ key b := ⟨fun a b => le_total (key a) (key b)⟩
    have : IsTrans β fun a b => key a ≤ key b := ⟨fun a b c => le_trans⟩
    rw [List.flatten_singleton]
    exact List.pairwise_insertionSort _ _

/-- A generator that leaves everything in place. -/
def Rng.still : Rng := ⟨fun _ _ => 1, fun _ _ _ => 0, fun _ _ _ h => h⟩

/-- The columns of a row are one number, which is its hash and the value of every expression. -/
def demoEngine : Engine ℕ := ⟨fun _ n => n, fun _ n => n, fun _ _ => true⟩

/-- Two rows with the values 1 and 0. -/
def demoBase : BaseTable ℕ := ⟨[[⟨0, 1⟩, ⟨1, 0⟩]], 1, none, none, true⟩

/-- The split is calculated, and nothing is shuffled. -/
def demoCalculated : PermutationConfig := ⟨.calculated "split", none, .none, none⟩

theorem build_not_grouped :
    ∃ result, build demoEngine .insertion .still .still demoCalculated demoBase = .ok result ∧
      result.entries = [(0, 1), (1, 0)] ∧ ¬ Grouped result.entries := by
  refine ⟨⟨[[(0, 1), (1, 0)]], ⟨1, none, none⟩⟩, rfl, rfl, ?_⟩
  simp [Grouped, PermutationTable.entries]

theorem grouped_demo :
    ∃ result data, build demoEngine .insertion .still .still
        ⟨.calculated "split", none, .random none, none⟩ demoBase = .ok result ∧
      splitData demoEngine .insertion .still ⟨.calculated "split", none, .random none, none⟩
        demoBase = .ok data ∧
      Grouped result.entries ∧ result.entries.Perm data.flatten := by
  have hbld : build demoEngine .insertion .still .still
      ⟨.calculated "split", none, .random none, none⟩ demoBase =
        .ok ⟨[[(1, 0), (0, 1)]], ⟨1, none, none⟩⟩ := rfl
  obtain ⟨data, hdata, hiff⟩ := grouped_iff hbld
  exact ⟨_, data, hbld, hdata, hiff.2 (Or.inl (Or.inr (by decide)))⟩

end Permutation

end LanceDB
