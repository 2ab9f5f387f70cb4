import LanceDB.Base.Chunking
import LanceDB.Streaming.Rows

/-!
# Packed iteration and its checkpoints

`StreamingDataset` with `pack_sequences`: documents are token lists, and each split emits blocks
of `pack_sequences` tokens cut from the stream of its documents, `blocks_per_epoch / num_splits`
of them.  A split that runs out of documents is padded through its budget.

* `PackState` : `_pack_consumed`, `_pack_blocks_emitted` and `_pack_buffers`.
* `PackState.checkpointSnapshot`, `PackState.stateDict`, `loadPackDict`, `mergePackDicts`,
  `PackState.commitWorkerState` : the packed branches of the checkpoint functions.
* `PackReader.open`, `PackReader.next` : the packed branch of `_iter_owned`.
-/

namespace LanceDB

namespace Streaming

/-! ### Configuration and state -/

/-- The configuration of a packed dataset, with the checks the constructor makes of it. -/
structure PackConfig extends Config where
  /-- `pack_sequences`. -/
  packLen : ℕ
  eosId : ℤ
  padId : ℤ
  blocksPerEpoch : ℕ
  packLen_pos : 0 < packLen
  blocksPerEpoch_pos : 0 < blocksPerEpoch
  numSplits_dvd : numSplits ∣ blocksPerEpoch

/-- `blocks_per_split`. -/
def PackConfig.blocksPerSplit (cfg : PackConfig) : ℕ := cfg.blocksPerEpoch / cfg.numSplits

/-- A partial block: its tokens, and where documents start in it. -/
abbrev Buffer := Chunking.Window ℤ

/-- The packed state of a dataset, by split. -/
structure PackState where
  /-- `_pack_consumed`: permutation positions consumed. -/
  consumed : ℕ → ℕ
  /-- `_pack_blocks_emitted`. -/
  emitted : ℕ → ℕ
  /-- `_pack_buffers`. -/
  buffers : ℕ → Option Buffer

namespace PackState

/-- The packed state of a dataset that has just been constructed. -/
def fresh : PackState := ⟨fun _ => 0, fun _ => 0, fun _ => none⟩

variable (st : PackState)

/-- The buffer of a split; a split without an entry has an empty one. -/
def buffer (split : ℕ) : Buffer := (st.buffers split).getD .empty

/-- `_pack_buffer`: a split without an entry gets an empty one. -/
def setDefault (split : ℕ) : PackState :=
  { st with buffers := Function.update st.buffers split (some (st.buffer split)) }

/-- A document is appended to the buffer of its split, and its position consumed. -/
def addDocument (eosId : ℤ) (split pos : ℕ) (tokens : List ℤ) : PackState :=
  { st with
    consumed := Function.update st.consumed split (pos + 1)
    buffers := Function.update st.buffers split (some ((st.buffer split).push eosId tokens)) }

end PackState

/-! ### State dicts -/

/-- A checkpoint of packed mode. -/
structure PackDict where
  shuffleSeed : ℤ
  numSplits : ℕ
  epoch : ℕ
  packSequences : ℕ
  eosId : ℤ
  padId : ℤ
  blocksPerEpoch : ℕ
  samplesConsumedPerSplit : List ℕ
  blocksEmittedPerSplit : List ℕ
  packBuffers : ℕ → Option Buffer

/-- The errors of the packed checkpoint functions. -/
inductive PackError
  /-- A configuration value differs. -/
  | mismatch (key : String)
  /-- `merge_state_dicts` was given no state. -/
  | noStates
  /-- A list does not have one entry for each split. -/
  | wrongLength (key : String)
  /-- `state_dict` inside a logical step. -/
  | notUniform
  /-- The merged states are not of the same global step. -/
  | notSameStep
  deriving DecidableEq

/-- `_checkpoint_snapshot` in packed mode. -/
def PackState.checkpointSnapshot (cfg : PackConfig) (st : PackState) : PackDict where
  shuffleSeed := cfg.shuffleSeed
  numSplits := cfg.numSplits
  epoch := cfg.epoch
  packSequences := cfg.packLen
  eosId := cfg.eosId
  padId := cfg.padId
  blocksPerEpoch := cfg.blocksPerEpoch
  samplesConsumedPerSplit := (List.range cfg.numSplits).map st.consumed
  blocksEmittedPerSplit := (List.range cfg.numSplits).map st.emitted
  packBuffers := st.buffers

/-- `state_dict` in packed mode. -/
def PackState.stateDict (cfg : PackConfig) (st : PackState) : Except PackError PackDict :=
  if ∀ split ∈ cfg.rankSplits, st.emitted split = st.emitted (cfg.rankSplits.headD 0) then
    .ok (st.checkpointSnapshot cfg)
  else
    .error .notUniform

/-- `load_state_dict` in packed mode. -/
def loadPackDict (cfg : PackConfig) (state : PackDict) : Except PackError PackState :=
  if state.numSplits ≠ cfg.numSplits then .error (.mismatch "num_splits")
  else if state.shuffleSeed ≠ cfg.shuffleSeed then .error (.mismatch "shuffle_seed")
  else if state.packSequences ≠ cfg.packLen then .error (.mismatch "pack_sequences")
  else if state.eosId ≠ cfg.eosId then .error (.mismatch "eos_id")
  else if state.padId ≠ cfg.padId then .error (.mismatch "pad_id")
  else if state.blocksPerEpoch ≠ cfg.blocksPerEpoch then .error (.mismatch "blocks_per_epoch")
  else if state.epoch ≠ cfg.epoch then .error (.mismatch "epoch")
  else .ok
    ⟨(state.samplesConsumedPerSplit.getD · 0), (state.blocksEmittedPerSplit.getD · 0),
      state.packBuffers⟩

/-- Two packed states come from the same run. -/
def PackDict.sameRun (first state : PackDict) : Except PackError Unit :=
  if state.shuffleSeed ≠ first.shuffleSeed then .error (.mismatch "shuffle_seed")
  else if state.numSplits ≠ first.numSplits then .error (.mismatch "num_splits")
  else if state.epoch ≠ first.epoch then .error (.mismatch "epoch")
  else if state.packSequences ≠ first.packSequences then .error (.mismatch "pack_sequences")
  else if state.eosId ≠ first.eosId then .error (.mismatch "eos_id")
  else if state.padId ≠ first.padId then .error (.mismatch "pad_id")
  else if state.blocksPerEpoch ≠ first.blocksPerEpoch then .error (.mismatch "blocks_per_epoch")
  else .ok ()

/-- Both lists have one entry for each split. -/
def PackDict.checkLengths (numSplits : ℕ) (state : PackDict) : Except PackError Unit :=
  if state.samplesConsumedPerSplit.length ≠ numSplits then
    .error (.wrongLength "samples_consumed_per_split")
  else if state.blocksEmittedPerSplit.length ≠ numSplits then
    .error (.wrongLength "blocks_emitted_per_split")
  else .ok ()

/-- `(blocks_emitted, samples_consumed)` of a split. -/
def PackDict.progress (state : PackDict) (split : ℕ) : ℕ × ℕ :=
  (state.blocksEmittedPerSplit.getD split 0, state.samplesConsumedPerSplit.getD split 0)

/-- The order of Python on such pairs. -/
def progressLt (a b : ℕ × ℕ) : Prop := a.1 < b.1 ∨ a.1 = b.1 ∧ a.2 < b.2

instance : DecidableRel progressLt := fun a b =>
  inferInstanceAs (Decidable (a.1 < b.1 ∨ a.1 = b.1 ∧ a.2 < b.2))

/-- The state that supplies a split: the first of those with the most progress. -/
def ownerOf (split : ℕ) (first : PackDict) (states : List PackDict) : PackDict :=
  states.foldl
    (fun owner state => if progressLt (owner.progress split) (state.progress split) then state
      else owner) first

/-- `merge_state_dicts` in packed mode. -/
def mergePackDicts : List PackDict → Except PackError PackDict
  | [] => .error .noStates
  | first :: states => do
    states.forM first.sameRun
    (first :: states).forM (PackDict.checkLengths first.numSplits)
    let owner := fun split => ownerOf split first states
    let mergedEmitted := (List.range first.numSplits).map fun split =>
      ((owner split).progress split).1
    if ∀ blocks ∈ mergedEmitted, blocks = mergedEmitted.headD 0 then
      return { first with
        samplesConsumedPerSplit := (List.range first.numSplits).map fun split =>
          ((owner split).progress split).2
        blocksEmittedPerSplit := mergedEmitted
        packBuffers := fun split =>
          if split < first.numSplits then (owner split).packBuffers split else none }
    else
      .error .notSameStep

/-- `_commit_worker_state` in packed mode. -/
def PackState.commitWorkerState (cfg : PackConfig) (st : PackState) (state : PackDict) :
    Except PackError PackState :=
  if state.shuffleSeed ≠ cfg.shuffleSeed then .error (.mismatch "shuffle_seed")
  else if state.numSplits ≠ cfg.numSplits then .error (.mismatch "num_splits")
  else if state.epoch ≠ cfg.epoch then .error (.mismatch "epoch")
  else if state.packSequences ≠ cfg.packLen then .error (.mismatch "pack_sequences")
  else if state.eosId ≠ cfg.eosId then .error (.mismatch "eos_id")
  else if state.padId ≠ cfg.padId then .error (.mismatch "pad_id")
  else if state.blocksPerEpoch ≠ cfg.blocksPerEpoch then .error (.mismatch "blocks_per_epoch")
  else do
    state.checkLengths cfg.numSplits
    let newer := fun split =>
      decide (split < cfg.numSplits ∧
        progressLt (st.emitted split, st.consumed split) (state.progress split))
    return {
      consumed := fun split => if newer split then (state.progress split).2 else st.consumed split
      emitted := fun split => if newer split then (state.progress split).1 else st.emitted split
      buffers := fun split =>
        if newer split then state.packBuffers split else st.buffers split }

/-! ### Blocks -/

/-- A packed sample. -/
structure Block where
  inputIds : List ℤ
  docIds : List ℕ
  deriving DecidableEq

/-- `doc_ids`: the places behind the first where a document starts are marked, then summed up. -/
def docIds (packLen : ℕ) (starts : List ℕ) : List ℕ :=
  let docStarts := starts.filter fun s => decide (0 < s ∧ s < packLen)
  Chunking.cumsum 0 ((List.range packLen).map fun q => if q ∈ docStarts then 1 else 0)

/-- The block of a split: the padding, `_emit_block` and the count of the blocks. -/
def PackState.emit (cfg : PackConfig) (split : ℕ) (st : PackState) : Block × PackState :=
  let buf := (st.buffer split).pad cfg.packLen cfg.padId
  (⟨buf.tokens.take cfg.packLen, Streaming.docIds cfg.packLen buf.starts⟩,
    { st with
      emitted := Function.update st.emitted split (st.emitted split + 1)
      buffers := Function.update st.buffers split (some (buf.cut cfg.packLen)) })

/-! ### The generator -/

/-- Where the packed generator is suspended. -/
inductive PackPhase
  /-- Before the first block. -/
  | start
  /-- The next block of the cycle is that of owned split `i`; a cycle starts at `0`. -/
  | cycle (i : ℕ)
  | finished
  deriving DecidableEq

/-- The variables of the packed generator that do not change while it runs. -/
structure PackReader (α ε : Type) where
  cfg : PackConfig
  src : Source α (List ℤ) ε
  mySplits : List ℕ

/-- The variables of the packed generator that change, with the state of its dataset. -/
structure PackIter (α : Type) where
  /-- The state of the dataset, written by `_commit_pack_state`. -/
  st : PackState
  /-- `pack_consumed`, `pack_blocks_emitted` and `pack_buffers` of the generator. -/
  work : PackState
  pipe : Pipe α (List ℤ)
  phase : PackPhase

/-- The exceptions of the packed generator. -/
inductive PackFailure (ε : Type)
  | pump (e : Failure ε)
  /-- The owned splits have not emitted the same number of blocks. -/
  | notAligned
  deriving DecidableEq

/-- A program of the packed generator. -/
abbrev PackM (α ε : Type) := EStateM (PackFailure ε) (PackIter α)

variable {α ε : Type}

/-- A pump of the pipeline, run by the packed generator. -/
def packPump {γ : Type} (m : PumpM α (List ℤ) ε γ) : PackM α ε γ := fun it =>
  match m it.pipe with
  | .ok a pipe => .ok a { it with pipe := pipe }
  | .error e pipe => .error (.pump e) { it with pipe := pipe }

namespace PackReader

/-- The owned split at place `i`. -/
def split (rd : PackReader α ε) (i : ℕ) : ℕ := rd.mySplits.getD i 0

variable (rd : PackReader α ε)

/-- The loop of `_fill_block`. -/
def fillBlockLoop (i : ℕ) : ℕ → PackM α ε Unit
  | 0 => pure ()
  | fuel + 1 => do
    if ((← get).work.buffer (rd.split i)).tokens.length < rd.cfg.packLen then
      packPump (rd.src.ensureCooked i)
      if ((← get).pipe.lanes i).cooked.isEmpty then
        return
      match ← packPump (rd.src.takeRow i) with
      | none => return
      | some (pos, tokens) =>
        modify fun it =>
          { it with work := it.work.addDocument rd.cfg.eosId (rd.split i) pos tokens }
        fillBlockLoop i fuel

/-- `_fill_block`: each turn of the loop adds at least the `eos_id` of a document. -/
def fillBlock (i : ℕ) : PackM α ε Unit := do
  modify fun it => { it with work := it.work.setDefault (rd.split i) }
  rd.fillBlockLoop i rd.cfg.packLen

/-- `for i in range(n): _fill_block(i)`, from split `i` on. -/
def fillFrom (i : ℕ) : ℕ → PackM α ε Unit
  | 0 => pure ()
  | k + 1 => do
    rd.fillBlock i
    fillFrom (i + 1) k

/-- The block of owned split `i` in a cycle, committed by `_commit_pack_state` before it is
yielded. -/
def emitBlock (i : ℕ) : PackM α ε (Option Block) := do
  let (block, work) := (← get).work.emit rd.cfg (rd.split i)
  let phase := if i + 1 = rd.src.n then PackPhase.cycle 0 else .cycle (i + 1)
  modify fun it => { it with st := work, work := work, phase := phase }
  return some block

/-- The top of a cycle: every owned split is filled before the first block is emitted. -/
def startCycle : PackM α ε (Option Block) := do
  if (← get).work.emitted (rd.split 0) < rd.cfg.blocksPerSplit then
    rd.fillFrom 0 rd.src.n
    rd.emitBlock 0
  else
    modify fun it => { it with phase := .finished }
    return none

/-- The body of the generator up to its next `yield`; `none` is its end. -/
def resume : PackM α ε (Option Block) := do
  match (← get).phase with
  | .finished => return none
  | .start =>
    let emitted := (← get).work.emitted
    if ∀ i < rd.src.n, emitted (rd.split i) = emitted (rd.split 0) then
      rd.startCycle
    else
      throw .notAligned
  | .cycle 0 => rd.startCycle
  | .cycle (i + 1) => rd.emitBlock (i + 1)

/-- `next(iterator)`; an exception ends the generator. -/
def next (it : PackIter α) : EStateM.Result (PackFailure ε) (PackIter α) (Option Block) :=
  match rd.resume it with
  | .ok block it => .ok block it
  | .error e it => .error e { it with phase := .finished }

/-- At most `k` calls of `next`: the blocks emitted. -/
def take : ℕ → PackIter α → EStateM.Result (PackFailure ε) (PackIter α) (List Block)
  | 0, it => .ok [] it
  | k + 1, it =>
    match rd.next it with
    | .error e it => .error e it
    | .ok none it => .ok [] it
    | .ok (some block) it =>
      match take k it with
      | .error e it => .error e it
      | .ok blocks it => .ok (block :: blocks) it

/-- The permutations of the owned splits, skipped to the positions consumed. -/
def make (tbl : SplitTable α (List ℤ) ε) (cfg : PackConfig) (mySplits : List ℕ)
    (schedule : ℕ → List Completion) (st : PackState) : PackReader α ε :=
  let split := fun i => mySplits.getD i 0
  { cfg := cfg
    src :=
      { n := mySplits.length
        rows := fun i => (tbl.rows (split i)).drop (st.consumed (split i))
        initialPositions := fun i => st.consumed (split i)
        finalTransform := tbl.finalTransform.run
        onTransformError := tbl.onTransformError
        readError := fun i absStart => tbl.readError (split i) absStart
        limits := tbl.limits
        schedule := schedule }
    mySplits := mySplits }

/-- The generator before its first block, with the first reads under way. -/
def start (st : PackState) : PackIter α where
  st := st
  work := st
  pipe := match rd.src.fillAllFrom 0 rd.src.n rd.src.init with
    | .ok _ pipe => pipe
    | .error _ pipe => pipe
  phase := if rd.src.n = 0 then .finished else .start

end PackReader

/-- `_iter_owned` up to its main loop, in packed mode. -/
def PackReader.open (tbl : SplitTable α (List ℤ) ε) (cfg : PackConfig) (worker : Option WorkerInfo)
    (schedule : ℕ → List Completion) (st : PackState) :
    Except OpenError (PackReader α ε × PackIter α) :=
  match cfg.resolveMySplits worker with
  | .error e => .error (.assignment e)
  | .ok mySplits =>
    match mySplits.find? fun split => (tbl.rows split).length < st.consumed split with
    | some split => .error (.skip split (st.consumed split) (tbl.rows split).length)
    | none =>
      let rd := PackReader.make tbl cfg mySplits schedule st
      .ok (rd, rd.start st)

end Streaming

end LanceDB
