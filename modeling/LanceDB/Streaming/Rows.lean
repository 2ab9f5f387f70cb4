import Mathlib.Data.List.Sort
import LanceDB.Streaming.Assignment
import LanceDB.Streaming.Pipeline

/-!
# Row-mode iteration and its checkpoints

`StreamingDataset` in row mode: the resume counters of a dataset, the generator `_iter_owned` over
the owned splits, and the checkpoints taken from and loaded into the counters.

* `RowState` : `_resume_offset`, `_resume_samples` and `_resume_positions`.
* `RowState.checkpointSnapshot`, `loadStateDict`, `commitWorkerState`, `mergeStateDicts`.
* `Reader.open`, `Reader.next` : the generator, one `next` call at a time.

A Python dict keyed by split is a partial function; the heap of the catch-up phase is kept as a
sorted list.
-/

namespace LanceDB

namespace Streaming

/-! ### The resume counters -/

/-- The counters of a dataset in row mode. -/
structure RowState where
  /-- `_resume_offset`: the count of the splits without an entry of their own. -/
  resumeOffset : ℕ
  /-- `_resume_samples`: samples yielded, by split. -/
  resumeSamples : ℕ → Option ℕ
  /-- `_resume_positions`: permutation positions consumed, by split. -/
  resumePositions : ℕ → Option ℕ
  /-- `_consumer_checkpoint_requires_uniform`. -/
  requiresUniform : Bool

namespace RowState

/-- The counters of a dataset that has just been constructed. -/
def fresh : RowState := ⟨0, fun _ => none, fun _ => none, false⟩

variable (st : RowState)

/-- `self._resume_samples.get(split, self._resume_offset)`. -/
def sampleCount (split : ℕ) : ℕ := (st.resumeSamples split).getD st.resumeOffset

/-- `self._resume_positions.get(split, sample_count)`. -/
def startPos (split : ℕ) : ℕ := (st.resumePositions split).getD (st.sampleCount split)

/-- The exact counters of one split are written. -/
def record (split samples position : ℕ) : RowState :=
  { st with
    resumeSamples := Function.update st.resumeSamples split (some samples)
    resumePositions := Function.update st.resumePositions split (some position) }

end RowState

/-! ### State dicts -/

/-- The value under `samples_consumed_per_split`: a list, or a number in old checkpoints. -/
inductive Samples
  | perSplit (counts : List ℕ)
  | uniform (count : ℕ)
  deriving DecidableEq

/-- A checkpoint of row mode. -/
structure StateDict where
  shuffleSeed : ℤ
  numSplits : ℕ
  epoch : ℕ
  samplesConsumedPerSplit : Samples
  /-- Absent in old checkpoints. -/
  positionsConsumedPerSplit : Option (List ℕ)
  deriving DecidableEq

/-- The errors of the checkpoint functions. -/
inductive StateError
  /-- A configuration value differs. -/
  | mismatch (key : String)
  /-- `merge_state_dicts` was given no state. -/
  | noStates
  /-- `zip` was given the number of an old checkpoint. -/
  | notIterable
  /-- `state_dict` between two logical steps of a multi-worker loader. -/
  | notUniform
  deriving DecidableEq

/-- `_checkpoint_snapshot` in row mode. -/
def RowState.checkpointSnapshot (cfg : Config) (st : RowState) : StateDict where
  shuffleSeed := cfg.shuffleSeed
  numSplits := cfg.numSplits
  epoch := cfg.epoch
  samplesConsumedPerSplit := .perSplit ((List.range cfg.numSplits).map st.sampleCount)
  positionsConsumedPerSplit := some ((List.range cfg.numSplits).map st.startPos)

/-- `state_dict` in row mode. -/
def RowState.stateDict (cfg : Config) (st : RowState) : Except StateError StateDict :=
  if st.requiresUniform ∧
      ¬ ∀ split ∈ cfg.rankSplits,
        st.sampleCount split = st.sampleCount (cfg.rankSplits.headD 0) then
    .error .notUniform
  else
    .ok (st.checkpointSnapshot cfg)

/-- `load_state_dict` in row mode; nothing of the old counters survives. -/
def loadStateDict (cfg : Config) (state : StateDict) : Except StateError RowState :=
  if state.numSplits ≠ cfg.numSplits then .error (.mismatch "num_splits")
  else if state.shuffleSeed ≠ cfg.shuffleSeed then .error (.mismatch "shuffle_seed")
  else
    let resumePositions := fun split => state.positionsConsumedPerSplit.bind (·[split]?)
    match state.samplesConsumedPerSplit with
    | .perSplit consumed => .ok ⟨consumed.min?.getD 0, (consumed[·]?), resumePositions, false⟩
    | .uniform consumed => .ok ⟨consumed, fun _ => none, resumePositions, false⟩

/-- Two states come from the same run. -/
def StateDict.sameRun (first state : StateDict) : Except StateError Unit :=
  if state.shuffleSeed ≠ first.shuffleSeed then .error (.mismatch "shuffle_seed")
  else if state.numSplits ≠ first.numSplits then .error (.mismatch "num_splits")
  else if state.epoch ≠ first.epoch then .error (.mismatch "epoch")
  else .ok ()

/-- The list under `samples_consumed_per_split`. -/
def StateDict.samples (state : StateDict) : Except StateError (List ℕ) :=
  match state.samplesConsumedPerSplit with
  | .perSplit counts => .ok counts
  | .uniform _ => .error .notIterable

/-- `[max(per_split) for per_split in zip(*lists)]`. -/
def zipMax (first : List ℕ) (lists : List (List ℕ)) : List ℕ :=
  lists.foldl (List.zipWith max) first

/-- `merge_state_dicts` in row mode. -/
def mergeStateDicts : List StateDict → Except StateError StateDict
  | [] => .error .noStates
  | first :: states => do
    states.forM first.sameRun
    let samples ← first.samples
    let allSamples ← states.mapM StateDict.samples
    let positions := first.positionsConsumedPerSplit.getD samples
    let allPositions := List.zipWith (fun state s => state.positionsConsumedPerSplit.getD s)
      states allSamples
    return { first with
      samplesConsumedPerSplit := .perSplit (zipMax samples allSamples)
      positionsConsumedPerSplit := some (zipMax positions allPositions) }

/-- `_commit_worker_state` in row mode. -/
def RowState.commitWorkerState (cfg : Config) (st : RowState) (state : StateDict)
    (requireUniform : Bool) : Except StateError RowState :=
  if state.shuffleSeed ≠ cfg.shuffleSeed then .error (.mismatch "shuffle_seed")
  else if state.numSplits ≠ cfg.numSplits then .error (.mismatch "num_splits")
  else if state.epoch ≠ cfg.epoch then .error (.mismatch "epoch")
  else do
    let samples ← state.samples
    let positions := state.positionsConsumedPerSplit.getD samples
    let st₁ : RowState := { st with resumeSamples := fun split =>
      match samples[split]? with
      | some count => some (max (st.sampleCount split) count)
      | none => st.resumeSamples split }
    let st₂ : RowState := { st₁ with resumePositions := fun split =>
      match positions[split]? with
      | some position => some (max (st₁.startPos split) position)
      | none => st₁.resumePositions split }
    return { st₂ with
      resumeOffset := ((List.range cfg.numSplits).map st₂.sampleCount).min?.getD st₂.resumeOffset
      requiresUniform := st₂.requiresUniform || requireUniform }

/-! ### The generator -/

/-- A transform over record batches that treats the rows of a batch one by one: it succeeds on a
batch exactly when it succeeds on every row of it. -/
structure RowTransform (α β ε : Type) where
  /-- The callable, on a record batch. -/
  run : List α → Except ε (List β)
  /-- What it makes of a single row; `none` when it fails. -/
  row : α → Option β
  run_eq_ok : ∀ batch rows, run batch = .ok rows ↔ batch.mapM row = some rows

/-- The transform that treats every row by `row` and raises `exc` on a batch it cannot take. -/
def RowTransform.ofRow {α β ε : Type} (row : α → Option β) (exc : ε) : RowTransform α β ε where
  run batch := (batch.mapM row).elim (.error exc) .ok
  row := row
  run_eq_ok batch rows := by cases batch.mapM row <;> simp

/-- What the iterators of a run stream: the rows of each split in permutation order, and how they
are read and transformed. -/
structure SplitTable (α β ε : Type) where
  rows : ℕ → List α
  finalTransform : RowTransform α β ε
  onTransformError : OnError ε
  /-- The reads that fail, by split and absolute start. -/
  readError : ℕ → ℕ → Option ε
  limits : Limits

/-- Why `_iter_owned` cannot start. -/
inductive OpenError
  | assignment (e : AssignmentError)
  /-- `with_skip` past the end of a split. -/
  | skip (split startPos numRows : ℕ)
  deriving DecidableEq

/-- Where the generator is suspended. -/
inductive Phase
  /-- The heap of lagging splits `(samples, split, i)`, to be served up to `catch_up_to`. -/
  | catchUp (catchUpTo : ℕ) (pending : List (ℕ × ℕ × ℕ))
  /-- The next row of the cycle is that of owned split `i`; a cycle starts at `0`. -/
  | cycle (i : ℕ)
  | finished

/-- The variables of `_iter_owned` that do not change while it runs. -/
structure Reader (α β ε : Type) where
  src : Source α β ε
  mySplits : List ℕ
  initialSamples : ℕ → ℕ
  /-- The iterator runs in a loader worker process. -/
  realWorker : Bool

/-- The variables of `_iter_owned` that change, with the counters of its dataset. -/
structure Iter (α β : Type) where
  st : RowState
  pipe : Pipe α β
  localConsumed : ℕ → ℕ
  phase : Phase

/-- The generator suspended at a phase. -/
def Iter.atPhase {α β : Type} (it : Iter α β) (phase : Phase) : Iter α β :=
  { it with phase := phase }

/-- The order of the heap. -/
def heapLe (a b : ℕ × ℕ × ℕ) : Prop :=
  a.1 < b.1 ∨ a.1 = b.1 ∧ (a.2.1 < b.2.1 ∨ a.2.1 = b.2.1 ∧ a.2.2 ≤ b.2.2)

instance : DecidableRel heapLe := fun a b =>
  inferInstanceAs (Decidable (a.1 < b.1 ∨ a.1 = b.1 ∧
    (a.2.1 < b.2.1 ∨ a.2.1 = b.2.1 ∧ a.2.2 ≤ b.2.2)))

variable {α β ε : Type}

/-- The owned split at place `i`. -/
def Reader.split (rd : Reader α β ε) (i : ℕ) : ℕ := rd.mySplits.getD i 0

/-- The phase after the prefetch: lagging splits are served first. -/
def Reader.firstPhase (rd : Reader α β ε) : Phase :=
  let n := rd.src.n
  let catchUpTo := ((List.range n).map rd.initialSamples).max?.getD 0
  if n = 0 then .finished
  else if ∀ i < n, rd.initialSamples i = catchUpTo then .cycle 0
  else
    let lagging := (List.range n).filter fun i => rd.initialSamples i < catchUpTo
    .catchUp catchUpTo
      ((lagging.map fun i => (rd.initialSamples i, rd.split i, i)).insertionSort heapLe)

/-- The permutations of the owned splits, skipped to their resume positions. -/
def Reader.make (tbl : SplitTable α β ε) (mySplits : List ℕ) (realWorker : Bool)
    (schedule : ℕ → List Completion) (st : RowState) : Reader α β ε :=
  let split := fun i => mySplits.getD i 0
  { src :=
      { n := mySplits.length
        rows := fun i => (tbl.rows (split i)).drop (st.startPos (split i))
        initialPositions := fun i => st.startPos (split i)
        finalTransform := tbl.finalTransform.run
        onTransformError := tbl.onTransformError
        readError := fun i absStart => tbl.readError (split i) absStart
        limits := tbl.limits
        schedule := schedule }
    mySplits := mySplits
    initialSamples := fun i => st.sampleCount (split i)
    realWorker := realWorker }

/-- The generator before its main loop, with the first reads under way. -/
def Reader.start (rd : Reader α β ε) (st : RowState) : Iter α β where
  st := st
  pipe := match rd.src.fillAllFrom 0 rd.src.n rd.src.init with
    | .ok _ pipe => pipe
    | .error _ pipe => pipe
  localConsumed := fun _ => 0
  phase := rd.firstPhase

/-- `_iter_owned` up to its main loop. -/
def Reader.open (tbl : SplitTable α β ε) (cfg : Config) (worker : Option WorkerInfo)
    (realWorker : Bool) (schedule : ℕ → List Completion) (st : RowState) :
    Except OpenError (Reader α β ε × Iter α β) :=
  match cfg.resolveMySplits worker with
  | .error e => .error (.assignment e)
  | .ok mySplits =>
    match mySplits.find? fun split => (tbl.rows split).length < st.startPos split with
    | some split => .error (.skip split (st.startPos split) (tbl.rows split).length)
    | none =>
      let rd := Reader.make tbl mySplits realWorker schedule st
      .ok (rd, rd.start st)

/-- A program of the generator. -/
abbrev IterM (α β ε : Type) := EStateM (Failure ε) (Iter α β)

/-- A pump of the pipeline, run by the generator. -/
def liftPump {γ : Type} (m : PumpM α β ε γ) : IterM α β ε γ := fun it =>
  match m it.pipe with
  | .ok a pipe => .ok a { it with pipe := pipe }
  | .error e pipe => .error e { it with pipe := pipe }

namespace Reader

variable (rd : Reader α β ε)

/-- `_yield_row`; `none` is the `IndexError` of an empty queue. -/
def yieldRow (i : ℕ) : IterM α β ε (Option β) := do
  match ← liftPump (rd.src.takeRow i) with
  | none => return none
  | some (pos, row) =>
    modify fun it =>
      let localConsumed := Function.update it.localConsumed i (it.localConsumed i + 1)
      { it with
        localConsumed := localConsumed
        st := it.st.record (rd.split i) (rd.initialSamples i + localConsumed i) (pos + 1) }
    return some row

/-- `min(initial_samples[j] + local_consumed[j] for j in range(n))`. -/
def leastProgress (localConsumed : ℕ → ℕ) : ℕ :=
  ((List.range rd.src.n).map fun j => rd.initialSamples j + localConsumed j).min?.getD 0

/-- `_update_progress_stats`, without the statistics. -/
def updateProgressStats : IterM α β ε Unit :=
  modify fun it =>
    if rd.realWorker then it
    else { it with st := { it.st with resumeOffset := rd.leastProgress it.localConsumed } }

/-- Suspend the generator. -/
def suspend (phase : Phase) : IterM α β ε Unit := modify (·.atPhase phase)

/-- The check at the top of a cycle: whether the owned splits from `i` on have a row ready. -/
def ensureAllFrom (i : ℕ) : ℕ → IterM α β ε Bool
  | 0 => return true
  | k + 1 => do
    liftPump (rd.src.ensureCooked i)
    if ((← get).pipe.lanes i).cooked.isEmpty then
      return false
    ensureAllFrom (i + 1) k

/-- The row of owned split `i` in a cycle. -/
def cycleRow (i : ℕ) : IterM α β ε (Option β) := do
  let row ← rd.yieldRow i
  if i + 1 = rd.src.n then
    rd.updateProgressStats
    suspend (.cycle 0)
  else
    suspend (.cycle (i + 1))
  return row

/-- A cycle starts, unless an owned split has run dry. -/
def startCycle : IterM α β ε (Option β) := do
  if ← rd.ensureAllFrom 0 rd.src.n then
    rd.cycleRow 0
  else
    suspend .finished
    return none

/-- The row of a lagging split, popped off the heap. -/
def catchUpRow (catchUpTo consumed split i : ℕ) (pending : List (ℕ × ℕ × ℕ)) :
    IterM α β ε (Option β) := do
  liftPump (rd.src.ensureCooked i)
  if ((← get).pipe.lanes i).cooked.isEmpty then
    suspend .finished
    return none
  let row ← rd.yieldRow i
  if consumed + 1 < catchUpTo then
    suspend (.catchUp catchUpTo (pending.orderedInsert heapLe (consumed + 1, split, i)))
  else
    suspend (.catchUp catchUpTo pending)
  rd.updateProgressStats
  return row

/-- The body of the generator up to its next `yield`; `none` is its end. -/
def resume : IterM α β ε (Option β) := do
  match (← get).phase with
  | .finished => return none
  | .cycle 0 => rd.startCycle
  | .cycle (i + 1) => rd.cycleRow (i + 1)
  | .catchUp _ [] => rd.startCycle
  | .catchUp catchUpTo ((consumed, split, i) :: pending) =>
    rd.catchUpRow catchUpTo consumed split i pending

/-- `next(iterator)`; an exception ends the generator. -/
def next (it : Iter α β) : EStateM.Result (Failure ε) (Iter α β) (Option β) :=
  match rd.resume it with
  | .ok row it => .ok row it
  | .error e it => .error e (it.atPhase .finished)

/-- At most `k` calls of `next`: the rows yielded, and whether the iterator has ended. -/
def take : ℕ → Iter α β → EStateM.Result (Failure ε) (Iter α β) (List β × Bool)
  | 0, it => .ok ([], false) it
  | k + 1, it =>
    match rd.next it with
    | .error e it => .error e it
    | .ok none it => .ok ([], true) it
    | .ok (some row) it =>
      match take k it with
      | .error e it => .error e it
      | .ok (rows, ended) it => .ok (row :: rows, ended) it

end Reader

end Streaming

end LanceDB
