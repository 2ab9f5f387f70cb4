import LanceDB.Base.Threads
import Mathlib.Order.Nat

/-!
# The MemWAL of a table

Rows of a MemWAL `merge_insert` go to the shard writer that the table caches.  They are in its
active memtable first, then in a frozen one, then in an SSTable of the shard's manifest, and at last
in a version of the base table.  `drain_and_close` takes the writer out of the cache and closes it,
which flushes all its memtables.  A read collects the rows of a base version, of the SSTables that
the version does not contain yet, and of the memtables of the cached writer.

Awaits are where the calls of a session interleave.  The writers and the external compaction are
modelled by what they do to memtables, manifests and versions.  Writers without memtables are left
out.

* `exclusionWatermarks`, `snapshotFromManifest` : which SSTables a read drops.
* `Session.flush`, `Session.compact` : how rows move on.
* `memWalMachine` : the steps of `merge_insert`, `drain_and_close` and `build_read_context`.
-/

namespace LanceDB.MemWal

open Machine

variable {R : Type}

/-! ### Base versions and what they exclude -/

/-- Up to where the SSTables of a shard are compacted, or known to an index. -/
structure CompactedSsTable where
  shardId : ℕ
  generation : ℕ

/-- Up to where an index has caught up. -/
structure IndexCatchup where
  indexName : String
  caughtUp : List CompactedSsTable

/-- The MemWAL index of a version of the base table. -/
structure MemWalIndexDetails where
  compactedSstables : List CompactedSsTable
  indexCatchup : List IndexCatchup

/-- A version of the base table. -/
structure BaseVersion (R : Type) where
  details : MemWalIndexDetails
  rows : List R

/-- `caught_up_generation_for_shard`. -/
def IndexCatchup.caughtUpGenerationForShard (progress : IndexCatchup) (shardId : ℕ) : Option ℕ :=
  (progress.caughtUp.find? fun entry => entry.shardId = shardId).map (·.generation)

namespace MemWalIndexDetails

variable (details : MemWalIndexDetails) (indexNames : List String)

/-- An index lowers the watermark of a shard to where it has caught up. -/
def lower (shardId watermark : ℕ) (name : String) : ℕ :=
  match (details.indexCatchup.find? fun progress => progress.indexName = name).bind
      (·.caughtUpGenerationForShard shardId) with
  | some caughtUp => min watermark caughtUp
  -- an index without an entry is not known to hold any of the rows
  | none => 0

/-- The generation that is compacted and that every index of the query has caught up with. -/
def watermark (entry : CompactedSsTable) : ℕ :=
  indexNames.foldl (details.lower entry.shardId) entry.generation

/-- The first entry of a shard counts. -/
def insertWatermark (exclude : ℕ → Option ℕ) (entry : CompactedSsTable) : ℕ → Option ℕ :=
  if (exclude entry.shardId).isSome then exclude
  else Function.update exclude entry.shardId (some (details.watermark indexNames entry))

end MemWalIndexDetails

/-- `exclusion_watermarks`. -/
def exclusionWatermarks (details : MemWalIndexDetails) (indexNames : List String) :
    ℕ → Option ℕ :=
  details.compactedSstables.foldl (details.insertWatermark indexNames) fun _ => none

/-! ### Shards -/

/-- Rows in memory. -/
structure Memtable (R : Type) where
  generation : ℕ
  rows : List R

/-- A flushed memtable, with the rows of the file that its path names. -/
structure SsTable (R : Type) where
  generation : ℕ
  rows : List R

structure ShardManifest (R : Type) where
  shardSpecId : ℕ
  currentGeneration : ℕ
  sstables : List (SsTable R)

/-- What a read sees of the SSTables of a shard. -/
structure ShardSnapshot (R : Type) where
  shardId : ℕ
  specId : ℕ
  currentGeneration : ℕ
  sstables : List (SsTable R)

/-- `snapshot_from_manifest`. -/
def snapshotFromManifest (shardId : ℕ) (manifest : ShardManifest R) (compacted : ℕ → Option ℕ) :
    ShardSnapshot R where
  shardId := shardId
  specId := manifest.shardSpecId
  currentGeneration := manifest.currentGeneration
  sstables := manifest.sstables.filter fun sstable =>
    !(compacted shardId).any (sstable.generation ≤ ·)

/-- The manifest with a flushed memtable. -/
def ShardManifest.record (manifest : ShardManifest R) (memtable : Memtable R) :
    ShardManifest R :=
  { manifest with
    currentGeneration := memtable.generation + 1
    sstables := manifest.sstables ++ [⟨memtable.generation, memtable.rows⟩] }

/-- Where the flush of the oldest frozen memtable is. -/
inductive FlushStage
  | waiting
  /-- The SSTable is in the manifest on disk. -/
  | written
  /-- It is in the manifest in memory, too. -/
  | recorded
  deriving DecidableEq

/-- A shard writer. -/
structure ShardWriter (R : Type) where
  manifest : ShardManifest R
  active : Memtable R
  /-- The frozen memtables, the oldest one first. -/
  frozen : List (Memtable R)
  stage : FlushStage

/-- The active memtable and the frozen ones. -/
structure InMemoryMemTables (R : Type) where
  active : Memtable R
  frozen : List (Memtable R)

def ShardWriter.inMemoryMemtableRefs (writer : ShardWriter R) : InMemoryMemTables R :=
  ⟨writer.active, writer.frozen⟩

/-- `put`. -/
def ShardWriter.put (writer : ShardWriter R) (rows : List R) : ShardWriter R :=
  { writer with active := { writer.active with rows := writer.active.rows ++ rows } }

/-- The active memtable is frozen. -/
def ShardWriter.freeze (writer : ShardWriter R) : ShardWriter R :=
  { writer with
    active := ⟨writer.active.generation + 1, []⟩
    frozen := writer.frozen ++ [writer.active] }

/-- A writer that opens a shard. -/
def ShardWriter.opened (manifest : ShardManifest R) : ShardWriter R where
  manifest := manifest
  active := ⟨manifest.currentGeneration, []⟩
  frozen := []
  stage := .waiting

/-- Whether the writer is in its `ShardWriterEntry`, was taken out to be closed, or is closed. -/
inductive Phase
  | open
  | closing
  | closed
  deriving DecidableEq

/-- A `ShardWriterEntry` with the writer that it has or had. -/
structure ShardWriterEntry (R : Type) where
  shardId : ℕ
  phase : Phase
  writer : ShardWriter R

/-! ### The session -/

/-- What the calls of a session share. -/
structure Session (R : Type) where
  /-- The sharding spec of new shards. -/
  specId : ℕ
  /-- The shards with a directory on disk. -/
  shards : List ℕ
  /-- The manifests on disk. -/
  disk : ℕ → Option (ShardManifest R)
  versions : List (BaseVersion R)
  /-- The slot of the `ShardWriterCache`: a shard and an entry. -/
  slot : Option (ℕ × ℕ)
  entries : List (ShardWriterEntry R)

namespace Session

variable (s : Session R)

def setEntry (e : ℕ) (entry : ShardWriterEntry R) : Session R :=
  { s with entries := s.entries.set e entry }

def setManifest (shardId : ℕ) (manifest : ShardManifest R) : Session R :=
  { s with disk := Function.update s.disk shardId (some manifest) }

/-- The manifest that a writer finds when it opens a shard. -/
def manifestOf (shardId : ℕ) : ShardManifest R := (s.disk shardId).getD ⟨s.specId, 1, []⟩

/-- `mem_wal_writer` and the new entry in the slot. -/
def memWalWriter (shardId : ℕ) : Session R :=
  { s with
    shards := if shardId ∈ s.shards then s.shards else s.shards ++ [shardId]
    disk := Function.update s.disk shardId (some (s.manifestOf shardId))
    slot := some (shardId, s.entries.length)
    entries := s.entries ++ [⟨shardId, .open, .opened (s.manifestOf shardId)⟩] }

/-- An entry freezes its active memtable. -/
def freeze (e : ℕ) : Option (Session R) := do
  let entry ← s.entries[e]?
  if entry.phase = .closed then none
  else some (s.setEntry e { entry with writer := entry.writer.freeze })

/-- The flush of the oldest frozen memtable moves on: the SSTable is written to the manifest on
disk, recorded in memory, and the memtable is dropped. -/
def flush (e : ℕ) : Option (Session R) := do
  let entry ← s.entries[e]?
  if entry.phase = .closed then none
  else
    match entry.writer.frozen, entry.writer.stage with
    | [], _ => none
    | memtable :: _, .waiting => do
      let manifest ← s.disk entry.shardId
      let s := s.setEntry e { entry with writer := { entry.writer with stage := .written } }
      return s.setManifest entry.shardId (manifest.record memtable)
    | memtable :: _, .written =>
      some (s.setEntry e { entry with writer := { entry.writer with
        manifest := entry.writer.manifest.record memtable
        stage := .recorded } })
    | _ :: frozen, .recorded =>
      some (s.setEntry e { entry with writer := { entry.writer with
        frozen := frozen
        stage := .waiting } })

/-- The external compaction commits a version with the SSTables of a shard up to a generation that
is on disk.  The SSTables stay in the manifest. -/
def compact (shardId generation : ℕ) (indexCatchup : List IndexCatchup) : Option (Session R) := do
  let manifest ← s.disk shardId
  let base ← s.versions.getLast?
  if manifest.sstables.any (·.generation = generation) then
    let merged := manifest.sstables.filter (·.generation ≤ generation)
    let others := base.details.compactedSstables.filter (·.shardId ≠ shardId)
    return { s with
      versions := s.versions ++
        [⟨⟨⟨shardId, generation⟩ :: others, indexCatchup⟩, base.rows ++ merged.flatMap (·.rows)⟩] }
  else none

end Session

/-! ### Calls -/

/-- A read of a base version with the indexes that the query uses. -/
structure ReadTask (R : Type) where
  base : BaseVersion R
  indexNames : List String

def ReadTask.exclude (task : ReadTask R) : ℕ → Option ℕ :=
  exclusionWatermarks task.base.details task.indexNames

/-- What `build_read_context` returns, for the version it was called with. -/
structure ReadContext (R : Type) where
  base : BaseVersion R
  snapshots : List (ShardSnapshot R)
  inMemory : Option (ℕ × InMemoryMemTables R)

/-- The snapshot of a shard is overridden by the one of its writer. -/
def override (snapshot : ShardSnapshot R) : List (ShardSnapshot R) → List (ShardSnapshot R)
  | [] => [snapshot]
  | existing :: snapshots =>
    if existing.shardId = snapshot.shardId then snapshot :: snapshots
    else existing :: override snapshot snapshots

/-- Where a call is. -/
inductive Call (R : Type)
  | idle
  /-- In `writer_for_shard`. -/
  | writerFor (shardId : ℕ) (rows : List R)
  /-- The slot was empty. -/
  | opening (shardId : ℕ) (rows : List R)
  | putting (e : ℕ) (rows : List R)
  /-- The rows are in the memtable. -/
  | added (rows : List R)
  /-- In `drain_and_close`. -/
  | draining
  /-- The entry is taken out of the slot. -/
  | closing (e : ℕ)
  /-- The writer is taken out of the entry. -/
  | flushing (e : ℕ)
  /-- In `build_read_context`. -/
  | listing (task : ReadTask R)
  /-- The manifests of some shards are still to be loaded. -/
  | loading (task : ReadTask R) (shards : List ℕ) (snapshots : List (ShardSnapshot R))
  /-- In `read_snapshot`, with the entry of the slot. -/
  | capturing (task : ReadTask R) (snapshots : List (ShardSnapshot R)) (shardId e : ℕ)
  /-- The memtables are captured, but the manifest is not. -/
  | captured (task : ReadTask R) (snapshots : List (ShardSnapshot R)) (shardId e : ℕ)
    (memtables : Option (InMemoryMemTables R))

/-- What can happen. -/
inductive Step (R : Type)
  | mergeInsert (shardId : ℕ) (rows : List R)
  | drainAndClose
  | read (version : ℕ) (indexNames : List String)
  | next
  /-- Storage fails. -/
  | fail
  | freeze (e : ℕ)
  | flush (e : ℕ)
  | compact (shardId generation : ℕ) (indexCatchup : List IndexCatchup)

/-- What a caller sees. -/
inductive Event (R : Type)
  | acknowledged (rows : List R)
  | drained
  | readStarted
  | readReturned (context : ReadContext R)
  | failed

/-- What a step leads to. -/
abbrev Outcome (R : Type) := Session R × Call R × Option (Event R)

/-- `check_shard_match`, then the entry is used. -/
def useCached (s : Session R) (cached e shardId : ℕ) (rows : List R) : Option (Outcome R) :=
  if cached = shardId then some (s, .putting e rows, none) else some (s, .idle, some .failed)

/-- A call starts. -/
def start (s : Session R) : Step R → Option (Outcome R)
  | .mergeInsert shardId rows => some (s, .writerFor shardId rows, none)
  | .drainAndClose => some (s, .draining, none)
  | .read version indexNames =>
    s.versions[version]?.map fun base => (s, .listing ⟨base, indexNames⟩, some .readStarted)
  | _ => none

/-- The steps of `merge_insert`.  `put` holds the lock of the entry, so that the writer is not taken
between its check and the insertion. -/
def insertNext (s : Session R) : Call R → Option (Outcome R)
  | .writerFor shardId rows =>
    match s.slot with
    | some (cached, e) => useCached s cached e shardId rows
    | none => some (s, .opening shardId rows, none)
  | .opening shardId rows =>
    match s.slot with
    | some (cached, e) => useCached s cached e shardId rows
    | none => some (s.memWalWriter shardId, .putting s.entries.length rows, none)
  | .putting e rows => do
    let entry ← s.entries[e]?
    if entry.phase = .open then
      some (s.setEntry e { entry with writer := entry.writer.put rows }, .added rows, none)
    else some (s, .idle, some .failed)
  | .added rows => some (s, .idle, some (.acknowledged rows))
  | _ => none

/-- The steps of `drain_and_close`. -/
def drainNext (s : Session R) : Call R → Option (Outcome R)
  | .draining =>
    match s.slot with
    | some (_, e) => some ({ s with slot := none }, .closing e, none)
    | none => some (s, .idle, some .drained)
  | .closing e => do
    let entry ← s.entries[e]?
    if entry.phase = .open then
      some (s.setEntry e { entry with phase := .closing }, .flushing e, none)
    else some (s, .idle, some .drained)
  | .flushing e => do
    let entry ← s.entries[e]?
    if entry.writer.active.rows ≠ [] then (s.freeze e).map (·, .flushing e, none)
    else if entry.writer.frozen ≠ [] then (s.flush e).map (·, .flushing e, none)
    else some (s.setEntry e { entry with phase := .closed }, .idle, some .drained)
  | _ => none

/-- The steps of `build_read_context`. -/
def readNext (s : Session R) : Call R → Option (Outcome R)
  | .listing task => some (s, .loading task s.shards [], none)
  | .loading task (shardId :: shards) snapshots =>
    match s.disk shardId with
    | some manifest =>
      let snapshot := snapshotFromManifest shardId manifest task.exclude
      some (s, .loading task shards (snapshots ++ [snapshot]), none)
    | none => some (s, .loading task shards snapshots, none)
  | .loading task [] snapshots =>
    match s.slot with
    | some (shardId, e) => some (s, .capturing task snapshots shardId e, none)
    | none => some (s, .idle, some (.readReturned ⟨task.base, snapshots, none⟩))
  | .capturing task snapshots shardId e => do
    let entry ← s.entries[e]?
    let memtables := if entry.phase = .open then some entry.writer.inMemoryMemtableRefs else none
    return (s, .captured task snapshots shardId e memtables, none)
  | .captured task snapshots shardId e memtables => do
    let entry ← s.entries[e]?
    -- without a writer the snapshot of the manifest on disk stays
    let snapshots :=
      if entry.phase = .open then
        override (snapshotFromManifest shardId entry.writer.manifest task.exclude) snapshots
      else snapshots
    return (s, .idle, some (.readReturned ⟨task.base, snapshots, memtables.map (shardId, ·)⟩))
  | _ => none

/-- A call moves on. -/
def next (s : Session R) : Call R → Option (Outcome R)
  | .idle => none
  | call@(.writerFor ..) | call@(.opening ..) | call@(.putting ..) | call@(.added ..) =>
    insertNext s call
  | call@.draining | call@(.closing _) | call@(.flushing _) => drainNext s call
  | call@(.listing _) | call@(.loading ..) | call@(.capturing ..) | call@(.captured ..) =>
    readNext s call

/-- A call fails. -/
def fails (s : Session R) : Call R → Option (Outcome R)
  | .idle | .draining | .closing _ | .flushing _ => none
  | _ => some (s, .idle, some .failed)

/-- The calls of a session, its flushes, and the external compaction. -/
def memWalMachine : Machine (Session R) (Call R) (Step R) (Event R) where
  step s call
    | .next => next s call
    | .fail => fails s call
    | .freeze e => (s.freeze e).map (·, call, none)
    | .flush e => (s.flush e).map (·, call, none)
    | .compact shardId generation indexCatchup =>
      (s.compact shardId generation indexCatchup).map (·, call, none)
    | step =>
      match call with
      | .idle => start s step
      | _ => none

/-- A table with a MemWAL that has no shards yet. -/
def newTable (specId : ℕ) (rows : List R) : Config (Session R) (Call R) where
  shared :=
    { specId := specId
      shards := []
      disk := fun _ => none
      versions := [⟨⟨[], []⟩, rows⟩]
      slot := none
      entries := [] }
  thread := fun _ => .idle

end LanceDB.MemWal
