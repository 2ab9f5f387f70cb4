import LanceDB.Permutation.Shuffle
import Mathlib.Data.Rat.Floor

/-!
# Assigning rows to splits

`Splitter` adds a split id to every row of a scan, batch by batch.

* `Numbers` : what percentages are calculated with, `f64` or exact numbers.
* `SplitSizes.validate`, `SplitSizes.toCounts` : the sizes of sequential splits.
* `Assigner`, `sequentialSplitId`, `applySequential` : rows fill one split after the other.
* `hashSplitId`, `applyHash` : rows go to the split their hash falls in, or are dropped.
* `Splitter.apply` : the strategies.
-/

namespace LanceDB

namespace Permutation

/-- A row of a scan: its `_rowid`, and its other columns. -/
structure Row (α : Type) where
  rowId : ℕ
  columns : α
  deriving DecidableEq

/-- A row of a permutation: a row id with a split id. -/
abbrev Entry := ℕ × ℤ

/-- A sum of `u64`. -/
def sumU64 (xs : List ℕ) : ℕ := xs.sum % 2 ^ 64

/-! ### Percentages -/

/-- The numbers that percentages are calculated with.  Operations may round, and a comparison with
what is not a number is false: nothing is assumed of them. -/
class Numbers (F : Type) extends Zero F, One F, Add F, Sub F, Mul F, LT F, ToString F where
  decidableLT : DecidableLT F
  /-- The cast of a `u64`. -/
  ofU64 : ℕ → F
  half : F
  abs : F → F
  /-- `f64::round` and the cast to `u64`. -/
  roundU64 : F → ℕ

open Numbers

instance instDecidableLT {F : Type} [Numbers F] : DecidableLT F := decidableLT

instance : Numbers ℚ where
  decidableLT := inferInstance
  ofU64 n := n
  half := 1 / 2
  abs x := |x|
  roundU64 x := ⌊x + 1 / 2⌋.toNat

/-- `f64::round` and the cast to `u64`: halves are rounded up, what is not a number becomes 0, and
what a `u64` cannot hold becomes the nearest one. -/
def roundFloat (x : Float) : ℕ :=
  match x.toModel.unpack with
  | .finite .positive mantissa exponent _ =>
    let shift := (-exponent).toNat
    min (2 ^ 64 - 1) ((2 * mantissa * 2 ^ exponent.toNat + 2 ^ shift) / 2 ^ (shift + 1))
  | .infinity .positive => 2 ^ 64 - 1
  | _ => 0

instance : Numbers Float where
  decidableLT := inferInstance
  ofU64 := Float.ofNat
  half := 0.5
  abs := Float.abs
  roundU64 := roundFloat

/-- `percentages.iter().sum()`. -/
def percentageSum {F : Type} [Numbers F] (ps : List F) : F := ps.foldl (· + ·) 0

/-! ### Sizes -/

/-- `SplitSizes`. -/
inductive SplitSizes (F : Type)
  | percentages (percentages : List F)
  | counts (counts : List ℕ)
  | fixed (numSplits : ℕ)

/-- The message for more splits than rows. -/
def fixedMessage (numSplits numRows : ℕ) : String :=
  s!"Split fixed config specified {numSplits} splits but only {numRows} rows are available.  " ++
    "Must have at least 1 row per split."

/-- `SplitSizes::validate`. -/
def SplitSizes.validate {F : Type} [Numbers F] (numRows : ℕ) :
    SplitSizes F → Except LoaderError Unit
  | .percentages ps => do
    ps.forM fun percentage =>
      if percentage < 0 ∨ 1 < percentage then
        .error (.invalidInput "Split percentages must be between 0.0 and 1.0")
      else if percentage * ofU64 numRows < 1 then
        .error (.invalidInput <| s!"One of the splits has {percentage * ofU64 100}% of {numRows}" ++
          " rows which rounds to 0 rows")
      else
        .ok ()
    if 1 < percentageSum ps then
      .error (.invalidInput "Split percentages must sum to 1.0 or less")
    else
      .ok ()
  | .counts cs =>
    if numRows < sumU64 cs then
      .error (.invalidInput <| s!"Split counts specified {sumU64 cs} rows but only {numRows} " ++
        "are available")
    else if 0 ∈ cs then
      .error (.invalidInput "Split counts must be greater than 0")
    else
      .ok ()
  | .fixed numSplits =>
    if numRows < numSplits then .error (.invalidInput (fixedMessage numSplits numRows))
    else if numSplits = 0 then .error (.panic "attempt to divide by zero")
    else if numRows / numSplits = 0 then .error (.invalidInput (fixedMessage numSplits numRows))
    else .ok ()

/-- The sizes of the splits, rounded. -/
def rounded {F : Type} [Numbers F] (numRows : ℕ) (ps : List F) : List ℕ :=
  ps.map fun p => roundU64 (p * ofU64 numRows)

/-- The loop that drops `excess` rows, round and round from split `dropIdx`; it may not end. -/
def dropExcess : (fuel : ℕ) → (counts : List ℕ) → (excess dropIdx : ℕ) → Option (List ℕ)
  | 0, counts, excess, _ => if excess = 0 then some counts else none
  | fuel + 1, counts, excess, dropIdx =>
    if excess = 0 then
      some counts
    else
      let next := if dropIdx + 1 = counts.length then 0 else dropIdx + 1
      if 0 < counts.getD dropIdx 0 then
        dropExcess fuel (counts.modify dropIdx (· - 1)) (excess - 1) next
      else
        dropExcess fuel counts excess next

/-- The loop that adds `missing` rows, round and round from split `addIdx`. -/
def addMissing : (missing : ℕ) → (counts : List ℕ) → (addIdx : ℕ) → List ℕ
  | 0, counts, _ => counts
  | missing + 1, counts, addIdx =>
    addMissing missing (counts.modify addIdx fun count => (count + 1) % 2 ^ 64)
      (if addIdx + 1 = counts.length then 0 else addIdx + 1)

/-- The part of `to_counts` that makes up for rounding; `excess` is an `i64`. -/
def adjustCounts (isBasicallyOne : Bool) (excess : ℤ) (counts : List ℕ) :
    Except LoaderError (List ℕ) :=
  if counts.isEmpty ∧ 0 < excess then
    .error (.panic "index out of bounds")
  else
    -- each round over the splits drops a row, as long as there are any
    match dropExcess (excess.toNat * counts.length) counts excess.toNat 0 with
    | none => .error .diverges
    | some counts =>
      if isBasicallyOne then
        if counts.isEmpty ∧ excess < 0 then .error (.panic "index out of bounds")
        else .ok (addMissing (-excess).toNat counts 0)
      else
        .ok counts

/-- `is_basically_one`. -/
def isBasicallyOne {F : Type} [Numbers F] (numRows : ℕ) (ps : List F) : Bool :=
  abs (ofU64 numRows - percentageSum ps * ofU64 numRows) < half

/-- `SplitSizes::to_counts`. -/
def SplitSizes.toCounts {F : Type} [Numbers F] (numRows : ℕ) (sizes : SplitSizes F) :
    Except LoaderError (List ℕ) := do
  let counts ← match sizes with
    | .percentages ps =>
      -- `sum as i64 - num_rows as i64`
      adjustCounts (isBasicallyOne numRows ps)
        (((sumU64 (rounded numRows ps) : ℤ) - numRows).bmod (2 ^ 64)) (rounded numRows ps)
    | .counts cs => .ok cs
    | .fixed numSplits =>
      if numSplits = 0 then .error (.panic "attempt to divide by zero")
      else .ok (List.replicate numSplits (numRows / numSplits))
  if sumU64 counts ≤ numRows then .ok counts
  else .error (.panic "assertion failed: sizes.iter().sum::<u64>() <= num_rows")

/-! ### Sequential assignment -/

/-- `split_index`, `counter_in_split` and `exhausted`. -/
structure Assigner where
  splitIndex : ℕ
  counterInSplit : ℕ
  exhausted : Bool
  deriving DecidableEq

/-- The loop of `sequential_split_id` on the sizes from `splitIndex` on. -/
def assignFrom : (sizes : List ℕ) → (st : Assigner) → (numRows : ℕ) →
    Except LoaderError (List ℕ × Assigner)
  | _, st, 0 => .ok ([], st)
  | [], _, _ + 1 => .error (.panic "index out of bounds")
  | size :: sizes, st, numRows + 1 =>
    let remainingInSplit := size - st.counterInSplit
    if size < st.counterInSplit then
      .error (.panic "attempt to subtract with overflow")
    else if numRows + 1 < remainingInSplit then
      .ok (List.replicate (numRows + 1) st.splitIndex,
        { st with counterInSplit := st.counterInSplit + (numRows + 1) })
    else if sizes.isEmpty then
      -- the splits have run out
      .ok (List.replicate remainingInSplit st.splitIndex, ⟨st.splitIndex + 1, 0, true⟩)
    else do
      let (splitIds, st') ← assignFrom sizes ⟨st.splitIndex + 1, 0, st.exhausted⟩
        (numRows + 1 - remainingInSplit)
      return (List.replicate remainingInSplit st.splitIndex ++ splitIds, st')

/-- `sequential_split_id`. -/
def sequentialSplitId (sizes : List ℕ) (st : Assigner) (numRows : ℕ) :
    Except LoaderError (List ℕ × Assigner) :=
  assignFrom (sizes.drop st.splitIndex) st numRows

variable {α : Type}

/-- The stream of `apply_sequential`, from a state of the assignment on. -/
def assignBatches (sizes : List ℕ) : Assigner → List (List (Row α)) →
    Except LoaderError (List (List Entry))
  | _, [] => .ok []
  | st, batch :: source =>
    if st.exhausted then
      assignBatches sizes st source
    else do
      let (splitIds, st') ← sequentialSplitId sizes st batch.length
      let rest ← assignBatches sizes st' source
      return List.zipWith (fun row splitId => (row.rowId, (splitId : ℤ))) batch splitIds :: rest

/-- `apply_sequential`. -/
def applySequential (source : List (List (Row α))) (numRows : ℕ) (sizes : SplitSizes Float) :
    Except LoaderError (List (List Entry)) := do
  let splitSizes ← sizes.toCounts numRows
  assignBatches splitSizes ⟨0, 0, false⟩ source

/-! ### Assignment by hash -/

/-- `slice::binary_search` on a sorted slice: the place of the element, or where to insert it. -/
def binarySearch (xs : List ℕ) (x : ℕ) : ℕ ⊕ ℕ :=
  match xs.idxOf? x with
  | some i => .inl i
  | none => .inr (xs.countP (· < x))

/-- The cumulative sums of the weights. -/
def thresholds : (offset : ℕ) → List ℕ → List ℕ
  | _, [] => []
  | offset, w :: weights => (offset + w) % 2 ^ 64 :: thresholds ((offset + w) % 2 ^ 64) weights

/-- The split of a row in `hash_split_id`; a row behind the last threshold is discarded. -/
def hashSplitId (thresholds : List ℕ) (totalWeight hash : ℕ) : Option ℕ :=
  let splitId := match binarySearch thresholds (hash % totalWeight) with
    | .inl i => i + 1
    | .inr i => i
  if splitId = thresholds.length then none else some splitId

/-- `apply_hash`. -/
def applyHash (hash : α → ℕ) (source : List (List (Row α))) (weights : List ℕ)
    (discardWeight : ℕ) : Except LoaderError (List (List Entry)) :=
  let totalWeight := (sumU64 weights + discardWeight) % 2 ^ 64
  source.mapM fun batch =>
    if totalWeight = 0 ∧ batch ≠ [] then
      .error (.panic "attempt to calculate the remainder with a divisor of zero")
    else
      .ok (batch.filterMap fun row =>
        (hashSplitId (thresholds 0 weights) totalWeight (hash row.columns)).map
          fun splitId => (row.rowId, (splitId : ℤ)))

/-! ### The strategies -/

/-- `SplitStrategy`. -/
inductive SplitStrategy
  | noSplit
  | random (sizes : SplitSizes Float) (clumpSize : Option ℕ)
  | hash (columns : List String) (splitWeights : List ℕ) (discardWeight : ℕ)
  | sequential (sizes : SplitSizes Float)
  | calculated (calculation : String)

/-- `SplitStrategy::validate`. -/
def SplitStrategy.validate (numRows : ℕ) : SplitStrategy → Except LoaderError Unit
  | .noSplit => .ok ()
  | .random sizes _ => sizes.validate numRows
  | .hash columns splitWeights _ =>
    if columns.isEmpty then .error (.invalidInput "Hash strategy requires at least one column")
    else if splitWeights.isEmpty then
      .error (.invalidInput "Hash strategy requires at least one split weight")
    else if 0 ∈ splitWeights then .error (.invalidInput "Split weights must be greater than 0")
    else .ok ()
  | .sequential sizes => sizes.validate numRows
  | .calculated _ => .ok ()

/-- What the query engine computes of the columns of a row. -/
structure Engine (α : Type) where
  /-- The hash of some columns. -/
  hash : List String → α → ℕ
  /-- The value of an SQL expression. -/
  eval : String → α → ℤ
  /-- An SQL condition. -/
  holds : String → α → Bool

/-- `Splitter::apply`. -/
def SplitStrategy.apply (engine : Engine α) (rng : Rng) (strategy : SplitStrategy)
    (source : List (List (Row α))) (numRows : ℕ) : Except LoaderError (List (List Entry)) := do
  strategy.validate numRows
  match strategy with
  | .noSplit => applySequential source numRows (.counts [numRows])
  | .random sizes clumpSize =>
    let shuffled ← Shuffler.shuffle ⟨10 * 1024 * 1024, clumpSize⟩ rng source numRows
    applySequential shuffled numRows sizes
  | .sequential sizes => applySequential source numRows sizes
  -- the split id is a column of the projection
  | .calculated calculation =>
    return source.map (List.map fun row => (row.rowId, engine.eval calculation row.columns))
  | .hash columns splitWeights discardWeight =>
    applyHash (engine.hash columns) source splitWeights discardWeight

/-! ### The order of the entries -/

/-- `Splitter::orders_by_split_id`. -/
def SplitStrategy.ordersBySplitId : SplitStrategy → Bool
  | .hash .. | .calculated _ => true
  | .noSplit | .sequential _ | .random .. => false

end Permutation

end LanceDB
