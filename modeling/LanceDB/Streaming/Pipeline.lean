import Mathlib.Data.Nat.Basic
import Mathlib.Logic.Function.Basic

/-!
# The two-stage read pipeline of a streaming dataset

`StreamingDataset._iter_owned` reads each owned split through four queues: reads in flight
(`io_pending`), batches that have landed (`raw_batches`), transforms in flight (`tx_pending`) and
rows ready to yield (`cooked`).  The consuming thread pumps the queues; the thread pools complete
the futures in any order.  The pumps are programs in `PumpM`; the pools are a *schedule*: each
time the consumer looks at a future, the schedule names the futures that have made progress since
it last looked.

## Main definitions

* `Source α β ε` : what one call of `_iter_owned` closes over — the rows behind each owned
  split's resume position, the transform, the queue limits and the schedule.
* `Lane α β` : the four queues of one split; `Pipe α β` : all of them with the semaphore.
* `Source.advance`, `Source.ensureCooked`, `Source.takeRow` : `_advance`, `_ensure_cooked` and
  the first half of `_yield_row`.

`Pipe.moments` has no counterpart in the source: it lists every value a lane has had, so that a
bound can be stated for every moment of a run and not only between two pumps.
-/

namespace LanceDB

namespace Streaming

/-! ### Configuration -/

/-- The queue limits, with the checks `StreamingDataset.__init__` makes of them (a non-positive
`read_batch_size` is not rejected there, but no batch could be read with it). -/
structure Limits where
  /-- Rows fetched by one read. -/
  readBatchSize : ℕ
  /-- Reads in flight or landed and not yet transformed, for each split. -/
  ioQueueDepth : ℕ
  /-- Transforms running at the same time, over all splits. -/
  transformParallelism : ℕ
  /-- Batches of transformed rows a split may hold; `none` is no limit. -/
  transformQueueDepth : Option ℕ
  readBatchSize_pos : 0 < readBatchSize
  ioQueueDepth_pos : 0 < ioQueueDepth
  transformParallelism_pos : 0 < transformParallelism
  transformQueueDepth_pos : ∀ d ∈ transformQueueDepth, 0 < d

/-- Small limits, with and without one for the transformed rows. -/
def demoLimits : Limits := ⟨2, 1, 1, none, Nat.two_pos, Nat.one_pos, Nat.one_pos, by simp⟩

@[inherit_doc demoLimits]
def tightLimits : Limits := ⟨2, 1, 1, some 1, Nat.two_pos, Nat.one_pos, Nat.one_pos, by decide⟩

/-- `max_cooked_rows`: the transform queue depth in rows. -/
def Limits.maxCookedRows (lim : Limits) : Option ℕ :=
  lim.transformQueueDepth.map (· * lim.readBatchSize)

/-- The `on_transform_error` policy. -/
inductive OnError (ε : Type)
  | raise
  | skip
  | warn
  | call (f : ε → Bool)

/-- `_should_skip`. -/
def OnError.shouldSkip {ε : Type} : OnError ε → ε → Bool
  | .raise, _ => false
  | .call f, exc => f exc
  | .skip, _ => true
  | .warn, _ => true

/-- The exceptions that reach the consumer. -/
inductive Failure (ε : Type)
  /-- A read failed. -/
  | io (exc : ε)
  /-- The transform failed and the policy does not skip the exception. -/
  | transform (exc : ε)
  /-- `_check_row_count`: the transform returned `rows` rows for a batch of `numRows`. -/
  | rowCount (rows numRows : ℕ)
  deriving DecidableEq

/-- A future of one of the pools makes progress: `j` is its place in the queue of split `i`. -/
inductive Completion
  | io (i j : ℕ)
  | tx (i j : ℕ)

/-- What one call of `_iter_owned` closes over. -/
structure Source (α β ε : Type) where
  /-- The number of owned splits. -/
  n : ℕ
  /-- The rows of each owned split behind its resume position. -/
  rows : ℕ → List α
  /-- `initial_positions`: the resume position of each owned split. -/
  initialPositions : ℕ → ℕ
  /-- `final_transform`, on a record batch. -/
  finalTransform : List α → Except ε (List β)
  onTransformError : OnError ε
  /-- The reads that fail, by split and absolute start. -/
  readError : ℕ → ℕ → Option ε
  limits : Limits
  /-- The futures that make progress before the consumer looks at a future for the `t`-th time. -/
  schedule : ℕ → List Completion

/-! ### The queues -/

/-- An entry of `io_pending`: a read of `fetch` rows from offset `start`. -/
structure IoTask where
  absStart : ℕ
  start : ℕ
  fetch : ℕ
  /-- The future is done. -/
  done : Bool
  deriving DecidableEq

/-- A transform future: it holds a slot of the semaphore while it runs, gives the slot back in
its `finally` block, and is done a moment later. -/
inductive TxPhase
  | running
  | released
  | done
  deriving DecidableEq

/-- The next phase of a transform future. -/
def TxPhase.next : TxPhase → TxPhase
  | .running => .released
  | .released => .done
  | .done => .done

/-- An entry of `tx_pending`. -/
structure TxTask (α : Type) where
  absStart : ℕ
  batch : List α
  phase : TxPhase

/-- The queues of one split. -/
structure Lane (α β : Type) where
  /-- `fetch_head`: the rows requested so far. -/
  fetchHead : ℕ
  ioPending : List IoTask
  rawBatches : List (ℕ × List α)
  txPending : List (TxTask α)
  cooked : List (ℕ × β)

/-- The state of the pipeline. -/
structure Pipe (α β : Type) where
  lanes : ℕ → Lane α β
  /-- `tx_semaphore`: the free transform slots. -/
  txSemaphore : ℕ
  /-- How often the consumer has looked at a future. -/
  clock : ℕ
  /-- Every value a lane has had, newest first. -/
  moments : List (Lane α β)

variable {α β ε : Type}

/-- The queues before the first read. -/
def Lane.empty : Lane α β := ⟨0, [], [], [], []⟩

/-- Mark the `j`-th read of a lane as done. -/
def Lane.finishIo (lane : Lane α β) (j : ℕ) : Lane α β :=
  { lane with ioPending := lane.ioPending.modify j fun t => { t with done := true } }

/-- Move the `j`-th transform of a lane to its next phase. -/
def Lane.stepTx (lane : Lane α β) (j : ℕ) : Lane α β :=
  { lane with txPending := lane.txPending.modify j fun t => { t with phase := t.phase.next } }

/-- One future makes progress; a transform that leaves its `finally` block frees a slot. -/
def Pipe.complete (p : Pipe α β) : Completion → Pipe α β
  | .io i j => { p with lanes := Function.update p.lanes i ((p.lanes i).finishIo j) }
  | .tx i j =>
    match (p.lanes i).txPending[j]? with
    | none => p
    | some t =>
      { p with
        lanes := Function.update p.lanes i ((p.lanes i).stepTx j)
        txSemaphore := p.txSemaphore + if t.phase = .running then 1 else 0 }

/-- A program of the consuming thread. -/
abbrev PumpM (α β ε : Type) := EStateM (Failure ε) (Pipe α β)

/-- Write the queues of split `i`. -/
def setLane (i : ℕ) (lane : Lane α β) : PumpM α β ε Unit :=
  modify fun p =>
    { p with lanes := Function.update p.lanes i lane, moments := lane :: p.moments }

namespace Source

variable (src : Source α β ε)

/-- The pipeline when `_iter_owned` starts. -/
def init : Pipe α β where
  lanes := fun _ => .empty
  txSemaphore := src.limits.transformParallelism
  clock := 0
  moments := [.empty]

/-- The pools run for a while. -/
def tick : PumpM α β ε Unit :=
  modify fun p => { (src.schedule p.clock).foldl Pipe.complete p with clock := p.clock + 1 }

/-! ### Stage 1 -/

/-- `_io_call`. -/
def ioCall (i : ℕ) (t : IoTask) : Except (Failure ε) (List α) :=
  match src.readError i t.absStart with
  | some exc => .error (.io exc)
  | none => .ok (((src.rows i).drop t.start).take t.fetch)

/-- `_submit_io`. -/
def submitIo (i : ℕ) : PumpM α β ε Unit := do
  let lane := (← get).lanes i
  let remaining := (src.rows i).length - lane.fetchHead
  if remaining = 0 then
    return
  let fetch := min src.limits.readBatchSize remaining
  let start := lane.fetchHead
  let task : IoTask := ⟨src.initialPositions i + start, start, fetch, false⟩
  setLane i { lane with fetchHead := start + fetch, ioPending := lane.ioPending ++ [task] }

/-- The loop of `_fill_io`, which submits at most `fuel` reads. -/
def fillIoLoop (i : ℕ) : ℕ → PumpM α β ε Unit
  | 0 => pure ()
  | fuel + 1 => do
    let lane := (← get).lanes i
    if lane.ioPending.length + lane.rawBatches.length < src.limits.ioQueueDepth ∧
        lane.fetchHead < (src.rows i).length then
      src.submitIo i
      fillIoLoop i fuel

/-- `_fill_io`: each turn of the loop lengthens `io_pending`, so `io_queue_depth` turns are
enough. -/
def fillIo (i : ℕ) : PumpM α β ε Unit :=
  src.fillIoLoop i src.limits.ioQueueDepth

/-- `abs_start, fut = io_pending[i].popleft(); raw_batches[i].append((abs_start, fut.result()))`. -/
def landIo (i : ℕ) : PumpM α β ε Unit := do
  let lane := (← get).lanes i
  match lane.ioPending with
  | [] => pure ()
  | t :: rest =>
    setLane i { lane with ioPending := rest }
    match src.ioCall i t with
    | .error exc => throw exc
    | .ok batch =>
      setLane i
        { lane with ioPending := rest, rawBatches := lane.rawBatches ++ [(t.absStart, batch)] }

/-- `io_pending[i] and io_pending[i][0][1].done()`. -/
def ioHeadDone (i : ℕ) : PumpM α β ε Bool := do
  src.tick
  return (((← get).lanes i).ioPending.head?.map IoTask.done).getD false

/-- The loop of `_drain_io`. -/
def drainIoLoop (i : ℕ) : ℕ → PumpM α β ε Unit
  | 0 => pure ()
  | fuel + 1 => do
    if ← src.ioHeadDone i then
      src.landIo i
      drainIoLoop i fuel

/-- `_drain_io`: each turn of the loop takes one read off the queue. -/
def drainIo (i : ℕ) : PumpM α β ε Unit := do
  src.drainIoLoop i ((← get).lanes i).ioPending.length

/-! ### Stage 2 -/

/-- `_check_row_count`. -/
def checkRowCount (rows : List β) (numRows : ℕ) : Except (Failure ε) Unit :=
  if rows.length ≠ numRows then .error (.rowCount rows.length numRows) else .ok ()

/-- `_transform_isolated`: the transform on single-row slices, dropping the failures that the
policy skips. -/
def transformIsolated : ℕ → List α → Except (Failure ε) (List (ℕ × β))
  | _, [] => .ok []
  | absPos, a :: batch =>
    match src.finalTransform [a] with
    | .error exc =>
      if src.onTransformError.shouldSkip exc then transformIsolated (absPos + 1) batch
      else .error (.transform exc)
    | .ok rows => do
      checkRowCount rows 1
      let out ← transformIsolated (absPos + 1) batch
      return (rows.map fun row => (absPos, row)) ++ out

/-- `_transform_batch`. -/
def transformBatch (absStart : ℕ) (batch : List α) : Except (Failure ε) (List (ℕ × β)) :=
  match src.finalTransform batch with
  | .error exc =>
    if src.onTransformError.shouldSkip exc then src.transformIsolated absStart batch
    else .error (.transform exc)
  | .ok rows => do
    checkRowCount rows batch.length
    return (rows.zipIdx absStart).map Prod.swap

/-- `abs_start, batch = raw_batches[i].popleft(); tx_pending[i].append(tx_pool.submit(...))`, by
a consumer that holds a slot. -/
def submitTx (i : ℕ) : PumpM α β ε Unit := do
  let lane := (← get).lanes i
  match lane.rawBatches with
  | [] => pure ()
  | (absStart, batch) :: rest =>
    setLane i { lane with rawBatches := rest }
    setLane i
      { lane with
        rawBatches := rest
        txPending := lane.txPending ++ [⟨absStart, batch, .running⟩] }

/-- `tx_semaphore.acquire(blocking=False)`. -/
def tryAcquire : PumpM α β ε Bool := do
  src.tick
  let p ← get
  if p.txSemaphore = 0 then
    return false
  set { p with txSemaphore := p.txSemaphore - 1 }
  return true

/-- There is room for a full batch behind the transform stage. -/
def hasRoom (lane : Lane α β) : Bool :=
  match src.limits.maxCookedRows with
  | none => true
  | some maxCookedRows =>
    let inPipeline := lane.cooked.length + lane.txPending.length * src.limits.readBatchSize
    decide (inPipeline + src.limits.readBatchSize ≤ maxCookedRows)

/-- The loop of `_try_submit_tx`. -/
def trySubmitTxLoop (i : ℕ) : ℕ → PumpM α β ε Unit
  | 0 => pure ()
  | fuel + 1 => do
    let lane := (← get).lanes i
    if lane.rawBatches.isEmpty then
      return
    if src.hasRoom lane then
      if ← src.tryAcquire then
        submitTx i
        trySubmitTxLoop i fuel

/-- `_try_submit_tx`: each turn of the loop takes one batch off the queue. -/
def trySubmitTx (i : ℕ) : PumpM α β ε Unit := do
  src.trySubmitTxLoop i ((← get).lanes i).rawBatches.length

/-- `cooked[i].extend(tx_pending[i].popleft().result())`.  A future has a result only after its
`finally` block has given the slot back. -/
def landTx (i : ℕ) : PumpM α β ε Unit := do
  let lane := (← get).lanes i
  match lane.txPending with
  | [] => pure ()
  | t :: rest =>
    setLane i { lane with txPending := rest }
    modify fun p =>
      { p with txSemaphore := p.txSemaphore + if t.phase = .running then 1 else 0 }
    match src.transformBatch t.absStart t.batch with
    | .error exc => throw exc
    | .ok rows => setLane i { lane with txPending := rest, cooked := lane.cooked ++ rows }

/-- `tx_pending[i] and tx_pending[i][0].done()`. -/
def txHeadDone (i : ℕ) : PumpM α β ε Bool := do
  src.tick
  return (((← get).lanes i).txPending.head?.map fun t => decide (t.phase = .done)).getD false

/-- The loop of `_drain_tx`. -/
def drainTxLoop (i : ℕ) : ℕ → PumpM α β ε Unit
  | 0 => pure ()
  | fuel + 1 => do
    if ← src.txHeadDone i then
      src.landTx i
      drainTxLoop i fuel

/-- `_drain_tx`. -/
def drainTx (i : ℕ) : PumpM α β ε Unit := do
  src.drainTxLoop i ((← get).lanes i).txPending.length

/-! ### The pumps -/

/-- `_advance`. -/
def advance (i : ℕ) : PumpM α β ε Unit := do
  src.drainIo i
  src.drainTx i
  src.trySubmitTx i
  src.fillIo i

/-- The first transform that holds a slot, over all owned splits. -/
def firstRunning (p : Pipe α β) : Option Completion :=
  (List.range src.n).findSome? fun i =>
    ((p.lanes i).txPending.findIdx? fun t => t.phase = .running).map (.tx i)

/-- The consumer is blocked while no slot is free, until a running transform frees its own. -/
def waitSlot (p : Pipe α β) : Pipe α β :=
  if p.txSemaphore = 0 then ((src.firstRunning p).map p.complete).getD p else p

/-- `tx_semaphore.acquire()`. -/
def acquire : PumpM α β ε Unit := do
  src.tick
  modify src.waitSlot
  modify fun p => { p with txSemaphore := p.txSemaphore - 1 }

/-- How far the queues of split `i` are from being empty for good: every turn of
`_ensure_cooked` moves a batch at least one stage on. -/
def potential (i : ℕ) (lane : Lane α β) : ℕ :=
  4 * ((src.rows i).length - lane.fetchHead) + 3 * lane.ioPending.length
    + 2 * lane.rawBatches.length + lane.txPending.length

/-- `_ensure_cooked` waits for the oldest transform in flight. -/
def waitTx (i : ℕ) : PumpM α β ε Unit := do
  src.tick
  src.landTx i
  src.advance i

/-- `_ensure_cooked` acquires a slot for the oldest raw batch.  The queue bound is not checked
here: nothing is behind the transform stage. -/
def forceTx (i : ℕ) : PumpM α β ε Unit := do
  src.acquire
  submitTx i

/-- `_ensure_cooked` blocks on the oldest read in flight. -/
def waitIo (i : ℕ) : PumpM α β ε Unit := do
  src.tick
  src.landIo i
  src.advance i

/-- The loop of `_ensure_cooked`. -/
def ensureCookedLoop (i : ℕ) : ℕ → PumpM α β ε Unit
  | 0 => pure ()
  | fuel + 1 => do
    let lane := (← get).lanes i
    if lane.cooked.isEmpty then
      if !lane.txPending.isEmpty then
        src.waitTx i
        ensureCookedLoop i fuel
      else if !lane.rawBatches.isEmpty then
        src.forceTx i
        ensureCookedLoop i fuel
      else if !lane.ioPending.isEmpty then
        src.waitIo i
        ensureCookedLoop i fuel

/-- `_ensure_cooked`. -/
def ensureCooked (i : ℕ) : PumpM α β ε Unit := do
  src.advance i
  src.ensureCookedLoop i (src.potential i ((← get).lanes i) + 1)

/-- `pos, row = cooked[i].popleft(); _advance(i)`; `none` is the `IndexError` of an empty
queue. -/
def takeRow (i : ℕ) : PumpM α β ε (Option (ℕ × β)) := do
  let lane := (← get).lanes i
  match lane.cooked with
  | [] => return none
  | row :: rest =>
    setLane i { lane with cooked := rest }
    src.advance i
    return some row

/-- `for i in range(n): _fill_io(i)`, from split `i` on. -/
def fillAllFrom (i : ℕ) : ℕ → PumpM α β ε Unit
  | 0 => pure ()
  | k + 1 => do
    src.fillIo i
    fillAllFrom (i + 1) k

end Source

end Streaming

end LanceDB
