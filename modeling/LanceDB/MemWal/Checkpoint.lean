import LanceDB.Base.Lists
import LanceDB.Base.Traces
import Mathlib.Algebra.Order.BigOperators.Group.List
import Mathlib.Algebra.Order.Group.Nat

/-!
# Checkpoints of a write-ahead log

`checkpoint_memwal` moves what was written to the shards of a table into its base table.  It asks
the server to flush the memtables into SSTables, reads the newest generation of every shard, and
then asks for compactions and polls until no SSTable up to these generations is left.  Requests may
fail: 429 and 503 are retried, after 421 the whole call starts again from the flush, and everything
else is returned.

The server is modelled with its writers and compactors, which may do anything between two points of
the call.  Nothing is assumed to be atomic over several shards: a flush may freeze one shard after
the other, and the shards of a stats answer may be read at different times.

* `Server`, `Phase`, `World` : the server, where the call is, and both.
* `step` : what writers, compactors, the server and the call do.
* `Server.Evolves` — what any of them can do to the rows.
* `Owes`, `RowsInv.step` — where a row is that was acknowledged before the call.
* `Budget`, `Budget.step` — how often the call asks for a flush.
-/

namespace LanceDB.Checkpoint

open List Option

variable {R : Type}
variable {reissue : ℕ}

/-! ### The server -/

/-- An SSTable. -/
structure SsTable (R : Type) where
  generation : ℕ
  rows : List R
deriving DecidableEq

/-- A shard: its memtables, its SSTables, and the newest generation it ever had. -/
structure Shard (R : Type) where
  memtable : List R
  sstables : List (SsTable R)
  newest : ℕ

/-- The shards of a table, its base table, and the rows that were acknowledged. -/
structure Server (R : Type) where
  ids : List String
  shard : String → Shard R
  base : List R
  acked : List R

/-- `TableShardStats`, as far as a checkpoint reads it. -/
structure TableShardStats where
  shardId : String
  sstables : List ℕ
  compacting : Bool

namespace TableShardStats

/-- `newest_sstable_generation`. -/
def newestSstableGeneration (b : TableShardStats) : Option ℕ := b.sstables.max?

/-- `outstanding_sstables`. -/
def outstandingSstables (b : TableShardStats) (target : ℕ) : ℕ := b.sstables.countP (· ≤ target)

end TableShardStats

/-! ### The call -/

/-- What a request failed with: a status, or something that carries none. -/
inductive Failure
  | status (code : ℕ)
  | other
deriving DecidableEq

/-- `status_of`. -/
def statusOf : Failure → Option ℕ
  | .status code => some code
  | .other => none

/-- `is_retryable`. -/
def isRetryable (e : Failure) : Bool := statusOf e = some 429 || statusOf e = some 503

/-- `is_lost_claim`. -/
def isLostClaim (e : Failure) : Bool := statusOf e = some 421

/-- `MAX_REISSUES`. -/
def maxReissues : ℕ := 3

/-- `MAX_RETRIES`. -/
def maxRetries : ℕ := 8

/-- What `checkpoint_memwal` fails with. -/
inductive Error
  | request (e : Failure)
  | runtime (message : String)

/-- The targets of a stats answer: the newest generation of every shard that has SSTables. -/
def targetsOf (tableShards : List TableShardStats) : List (String × ℕ) :=
  tableShards.filterMap fun b => b.newestSstableGeneration.map (b.shardId, ·)

/-- The target of a shard: a later entry of a map replaces an earlier one. -/
def target (targets : List (String × ℕ)) (id : String) : Option ℕ :=
  (targets.reverse.find? fun p => p.1 = id).map Prod.snd

/-- How many SSTables of the targets a shard still has. -/
def outstandingIn (targets : List (String × ℕ)) (b : TableShardStats) : ℕ :=
  match target targets b.shardId with
  | none => 0
  | some target => b.outstandingSstables target

/-- Where a call is: before its start, waiting for the answer to a request, or done.  A loop that
retries counts how often it has, and a stats answer is being collected. -/
inductive Phase
  | idle
  | flush (reissue retries : ℕ)
  | stats (reissue retries : ℕ) (answer : List TableShardStats)
  | poll (reissue : ℕ) (targets : List (String × ℕ)) (retries : ℕ) (answer : List TableShardStats)
  | compact (reissue : ℕ) (targets : List (String × ℕ))
  | returned (result : Except Error Unit)

/-- The server and a call. -/
structure World (R : Type) where
  server : Server R
  phase : Phase
  /-- The rows that were acknowledged before the call started. -/
  owed : List R
  /-- The shards that the flush in progress has not frozen yet. -/
  pending : List String
  /-- How often the call has asked for a flush. -/
  flushes : ℕ

/-- A table without shards, and a call that has not started. -/
def World.initial : World R where
  server := ⟨[], fun _ => ⟨[], [], 0⟩, [], []⟩
  phase := .idle
  owed := []
  pending := []
  flushes := 0

/-- How a request is answered.  Stats may be absent. -/
inductive Response
  | ok
  | absent
  | failed (e : Failure)

/-- What may happen. -/
inductive Action (R : Type)
  | addShard (id : String)
  | write (id : String) (row : R)
  | freeze (id : String) (tables : List (SsTable R))
  | merge (id : String) (table : SsTable R)
  | remove (id : String) (table : SsTable R)
  | read (id : String) (compacting : Bool)
  | start
  | respond (response : Response)

namespace World

/-- The call sends a flush. -/
def sendFlush (w : World R) (reissue retries : ℕ) : World R :=
  { w with phase := .flush reissue retries, pending := w.server.ids, flushes := w.flushes + 1 }

def finish (w : World R) (result : Except Error Unit) : World R :=
  { w with phase := .returned result }

/-- The next round of the loop over `0..=MAX_REISSUES`. -/
def reissueFromFlush (w : World R) (reissue : ℕ) : World R :=
  if reissue < maxReissues then w.sendFlush (reissue + 1) 0
  else w.finish (.error (.runtime ("checkpoint_memwal: the owning node kept losing its claim; " ++
    "re-issued from flush the maximum number of times")))

/-- `issue`, when a request has failed: it is sent again, or its caller starts over, or gives up. -/
def failed (w : World R) (reissue retries : ℕ) (e : Failure) (again : World R) : World R :=
  if isLostClaim e then w.reissueFromFlush reissue
  else if !isRetryable e || maxRetries ≤ retries then w.finish (.error (.request e))
  else again

/-- The call goes on with an answer to its stats request: this fixes the targets. -/
def fixTargets (w : World R) (reissue : ℕ) (answer : List TableShardStats) : World R :=
  let targets := targetsOf answer
  if targets.isEmpty then w.finish (.ok ()) else { w with phase := .poll reissue targets 0 [] }

/-- One round of `drain_to_targets`, with its stats. -/
def drain (w : World R) (reissue : ℕ) (targets : List (String × ℕ))
    (answer : List TableShardStats) : World R :=
  let outstanding := (answer.map (outstandingIn targets)).sum
  let allCompacting := answer.all fun b => outstandingIn targets b = 0 || b.compacting
  if outstanding = 0 then w.finish (.ok ())
  else if !allCompacting then { w with phase := .compact reissue targets }
  else { w with phase := .poll reissue targets 0 [] }

/-- The stats answer lists every shard. -/
def Lists (w : World R) (answer : List TableShardStats) : Prop :=
  ∀ id ∈ w.server.ids, ∃ b ∈ answer, b.shardId = id

instance (w : World R) (answer : List TableShardStats) : Decidable (w.Lists answer) :=
  inferInstanceAs (Decidable (∀ id ∈ w.server.ids, ∃ b ∈ answer, b.shardId = id))

/-- The call goes on with the answer to its request.  A flush has frozen every shard there was when
it was sent, stats list every shard, and are absent only if there is none. -/
def respond (w : World R) : Response → Option (World R)
  | .ok =>
    match w.phase with
    | .flush reissue _ =>
      if w.pending = [] then some { w with phase := .stats reissue 0 [] } else none
    | .stats reissue _ answer => if w.Lists answer then some (w.fixTargets reissue answer) else none
    | .poll reissue targets _ answer =>
      if w.Lists answer then some (w.drain reissue targets answer) else none
    | .compact reissue targets => some { w with phase := .poll reissue targets 0 [] }
    | _ => none
  | .absent =>
    match w.phase with
    | .stats .. => if w.server.ids = [] then some (w.finish (.ok ())) else none
    | .poll .. => if w.server.ids = [] then some (w.finish (.ok ())) else none
    | _ => none
  | .failed e =>
    match w.phase with
    | .flush reissue retries =>
      some (w.failed reissue retries e (w.sendFlush reissue (retries + 1)))
    | .stats reissue retries _ =>
      some (w.failed reissue retries e { w with phase := .stats reissue (retries + 1) [] })
    | .poll reissue targets retries _ =>
      some (w.failed reissue retries e { w with phase := .poll reissue targets (retries + 1) [] })
    | .compact reissue targets =>
      if isLostClaim e then some (w.reissueFromFlush reissue)
      else if !isRetryable e then some (w.finish (.error (.request e)))
      else some { w with phase := .poll reissue targets 0 [] }
    | _ => none

/-- A change of one shard. -/
def setShard (w : World R) (id : String) (shard : Shard R) : World R :=
  { w with server := { w.server with shard := Function.update w.server.shard id shard } }

/-- One shard is read for the stats answer that is being collected. -/
def read (w : World R) (id : String) (compacting : Bool) : Option (World R) :=
  let entry : TableShardStats :=
    ⟨id, (w.server.shard id).sstables.map SsTable.generation, compacting⟩
  match w.phase with
  | .stats reissue retries answer =>
    some { w with phase := .stats reissue retries (answer ++ [entry]) }
  | .poll reissue targets retries answer =>
    some { w with phase := .poll reissue targets retries (answer ++ [entry]) }
  | _ => none

end World

/-- **What may happen in a world.** -/
def step [DecidableEq R] (w : World R) : Action R → Option (World R)
  | .addShard id =>
    if id ∈ w.server.ids then none
    else some { w with server := { w.server with ids := id :: w.server.ids } }
  | .write id row =>
    let shard := w.server.shard id
    if id ∈ w.server.ids then
      some { w.setShard id { shard with memtable := row :: shard.memtable } with
        server.acked := row :: w.server.acked }
    else none
  -- the memtable of a shard becomes SSTables of new generations
  | .freeze id tables =>
    let shard := w.server.shard id
    if (∀ t ∈ tables, shard.newest < t.generation) ∧
        (tables.flatMap SsTable.rows).Perm shard.memtable ∧ id ∈ w.server.ids then
      some { w.setShard id ⟨[], shard.sstables ++ tables,
          tables.foldl (fun newest t => max newest t.generation) shard.newest⟩ with
        pending := w.pending.filter (· ≠ id) }
    else none
  -- the rows of an SSTable are merged into the base table
  | .merge id table =>
    if table ∈ (w.server.shard id).sstables then
      some { w with server := { w.server with base := table.rows ++ w.server.base } }
    else none
  -- the oldest SSTable of a shard is removed after it has been merged
  | .remove id table =>
    let shard := w.server.shard id
    if (∀ t ∈ shard.sstables, table.generation ≤ t.generation) ∧
        (∀ r ∈ table.rows, r ∈ w.server.base) ∧ table ∈ shard.sstables then
      some (w.setShard id { shard with sstables := shard.sstables.filter (· ≠ table) })
    else none
  | .read id compacting => if id ∈ w.server.ids then w.read id compacting else none
  | .start =>
    match w.phase with
    | .idle => some { w.sendFlush 0 0 with owed := w.server.acked }
    | _ => none
  | .respond response => w.respond response

/-! ### What a step can do -/

/-- What writers and compactors can do to a shard: an SSTable goes only after its rows are in the
base table, a memtable becomes SSTables, and these are of new generations. -/
structure Shard.Evolves (base : List R) (s s' : Shard R) : Prop where
  table : ∀ t ∈ s.sstables, t ∈ s'.sstables ∨ ∀ r ∈ t.rows, r ∈ base
  memtable : ∀ r ∈ s.memtable, r ∈ s'.memtable ∨ ∃ t ∈ s'.sstables, r ∈ t.rows
  fresh : ∀ t ∈ s'.sstables, t ∈ s.sstables ∨ s.newest < t.generation ∧ t.generation ≤ s'.newest
  newest : s.newest ≤ s'.newest

/-- What writers and compactors can do to the server: rows are only added to the base table, and
written to a shard before they are acknowledged. -/
structure Server.Evolves (s s' : Server R) : Prop where
  ids : s.ids ⊆ s'.ids
  base : s.base ⊆ s'.base
  shard : ∀ id, (s.shard id).Evolves s'.base (s'.shard id)
  acked : ∀ r ∈ s'.acked, r ∈ s.acked ∨ ∃ id ∈ s'.ids, r ∈ (s'.shard id).memtable

/-- A step in the background of the call. -/
structure Background (w w' : World R) : Prop where
  server : w.server.Evolves w'.server
  phase : w'.phase = w.phase
  owed : w'.owed = w.owed
  flushes : w'.flushes = w.flushes
  pending : ∀ id ∈ w.pending, id ∈ w'.pending ∨
    ∀ r ∈ (w.server.shard id).memtable, ∃ t ∈ (w'.server.shard id).sstables, r ∈ t.rows

/-- What a request that fails is followed by if it is retried. -/
inductive Waits (w : World R) : ℕ → ℕ → World R → Prop
  | flush {reissue retries : ℕ} (h : w.phase = .flush reissue retries) :
      Waits w reissue retries (w.sendFlush reissue (retries + 1))
  | stats {reissue retries : ℕ} {answer : List TableShardStats}
      (h : w.phase = .stats reissue retries answer) :
      Waits w reissue retries { w with phase := .stats reissue (retries + 1) [] }
  | poll {reissue retries : ℕ} {targets : List (String × ℕ)} {answer : List TableShardStats}
      (h : w.phase = .poll reissue targets retries answer) :
      Waits w reissue retries { w with phase := .poll reissue targets (retries + 1) [] }

/-- How the call goes on with the answer to its request. -/
inductive Answers (w : World R) : Response → World R → Prop
  | flushed {reissue retries : ℕ} (h : w.phase = .flush reissue retries)
      (hpending : w.pending = []) : Answers w .ok { w with phase := .stats reissue 0 [] }
  | fixed {reissue retries : ℕ} {answer : List TableShardStats}
      (h : w.phase = .stats reissue retries answer) (hlists : w.Lists answer) :
      Answers w .ok (w.fixTargets reissue answer)
  | drained {reissue retries : ℕ} {targets : List (String × ℕ)} {answer : List TableShardStats}
      (h : w.phase = .poll reissue targets retries answer) (hlists : w.Lists answer) :
      Answers w .ok (w.drain reissue targets answer)
  | compacted {reissue : ℕ} {targets : List (String × ℕ)} (h : w.phase = .compact reissue targets) :
      Answers w .ok { w with phase := .poll reissue targets 0 [] }
  | absent {reissue retries : ℕ} {again : World R} (h : Waits w reissue retries again)
      (hne : ∀ reissue retries, w.phase ≠ .flush reissue retries) (hids : w.server.ids = []) :
      Answers w .absent (w.finish (.ok ()))
  | failed {reissue retries : ℕ} {again : World R} (e : Failure)
      (h : Waits w reissue retries again) :
      Answers w (.failed e) (w.failed reissue retries e again)
  | notCompacted {reissue : ℕ} {targets : List (String × ℕ)} {w' : World R} (e : Failure)
      (h : w.phase = .compact reissue targets)
      (hw' : w' = w.reissueFromFlush reissue ∨ w' = w.finish (.error (.request e)) ∨
        w' = { w with phase := .poll reissue targets 0 [] }) :
      Answers w (.failed e) w'

/-- The targets that a phase goes on with: those it has, or those of the stats it has read. -/
inductive Phase.Gives : Phase → List (String × ℕ) → Prop
  | stats {reissue retries : ℕ} {answer : List TableShardStats} :
      Gives (.stats reissue retries answer) (targetsOf answer)
  | poll {reissue retries : ℕ} {targets : List (String × ℕ)} {answer : List TableShardStats} :
      Gives (.poll reissue targets retries answer) targets
  | compact {reissue : ℕ} {targets : List (String × ℕ)} : Gives (.compact reissue targets) targets

/-- Where the call is after an answer.  Stats are collected anew. -/
inductive Goes (w : World R) : World R → Prop
  | finish (result : Except Error Unit) : Goes w (w.finish result)
  | flush (reissue retries : ℕ) : Goes w (w.sendFlush reissue retries)
  | stats (reissue retries : ℕ) : Goes w { w with phase := .stats reissue retries [] }
  | poll (reissue retries : ℕ) {targets : List (String × ℕ)} (h : w.phase.Gives targets) :
      Goes w { w with phase := .poll reissue targets retries [] }
  | compact (reissue : ℕ) {targets : List (String × ℕ)}
      (h : ∃ reissue retries answer, w.phase = .poll reissue targets retries answer) :
      Goes w { w with phase := .compact reissue targets }

variable {response : Response}
variable {retries : ℕ}

theorem respond_answers {w w' : World R} (h : w.respond response = some w') :
    Answers w response w' := by
  cases response with
  | ok =>
    rcases hph : w.phase with _ | _ | _ | _ | _ | _ <;>
      simp only [World.respond, hph, ite_none_right_eq_some, Option.some.injEq,
        reduceCtorEq] at h
    · obtain ⟨hpend, rfl⟩ := h
      exact .flushed hph hpend
    · obtain ⟨hls, rfl⟩ := h
      exact .fixed hph hls
    · obtain ⟨hls, rfl⟩ := h
      exact .drained hph hls
    · subst h
      exact .compacted hph
  | absent =>
    rcases hph : w.phase with _ | _ | _ | _ | _ | _ <;>
      simp only [World.respond, hph, ite_none_right_eq_some, Option.some.injEq,
        reduceCtorEq] at h
    · obtain ⟨hids, rfl⟩ := h
      exact .absent (.stats hph) (by simp [hph]) hids
    · obtain ⟨hids, rfl⟩ := h
      exact .absent (.poll hph) (by simp [hph]) hids
  | failed e =>
    rcases hph : w.phase with _ | _ | _ | _ | ⟨reissue, targets⟩ | _ <;>
      simp only [World.respond, hph, Option.some.injEq, reduceCtorEq] at h
    · subst h
      exact .failed e (.flush hph)
    · subst h
      exact .failed e (.stats hph)
    · subst h
      exact .failed e (.poll hph)
    · split_ifs at h
      · exact .notCompacted e hph (.inl (Option.some.inj h).symm)
      · exact .notCompacted e hph (.inr (.inl (Option.some.inj h).symm))
      · exact .notCompacted e hph (.inr (.inr (Option.some.inj h).symm))

theorem Shard.Evolves.refl (base : List R) (s : Shard R) : s.Evolves base s where
  table _ ht := .inl ht
  memtable _ hr := .inl hr
  fresh _ ht := .inl ht
  newest := le_rfl

theorem Shard.Evolves.update {base : List R} {shards : String → Shard R} {id : String}
    {shard : Shard R} (h : (shards id).Evolves base shard) (id' : String) :
    (shards id').Evolves base (Function.update shards id shard id') := by
  by_cases heq : id' = id
  · subst heq
    rwa [Function.update_self]
  · rw [Function.update_of_ne heq]
    exact .refl base _

section Steps

variable [DecidableEq R] {w w' : World R} {a : Action R}

/-- What happens in the background. -/
inductive Action.IsBackground : Action R → Prop
  | addShard (id : String) : IsBackground (.addShard id)
  | write (id : String) (row : R) : IsBackground (.write id row)
  | freeze (id : String) (tables : List (SsTable R)) : IsBackground (.freeze id tables)
  | merge (id : String) (table : SsTable R) : IsBackground (.merge id table)
  | remove (id : String) (table : SsTable R) : IsBackground (.remove id table)

/-- **What writers and compactors do.** -/
theorem background_of_step (ha : a.IsBackground) (h : step w a = some w') : Background w w' := by
  cases ha with
  | addShard id =>
    rw [step, ite_none_left_eq_some, Option.some.injEq] at h
    obtain ⟨-, rfl⟩ := h
    exact ⟨⟨subset_cons_self _ _, List.Subset.refl _, fun _ => .refl _ _,
      fun _ hr => .inl hr⟩, rfl, rfl, rfl, fun _ hid => .inl hid⟩
  | write id row =>
    rw [step, ite_none_right_eq_some, Option.some.injEq] at h
    obtain ⟨hid, rfl⟩ := h
    refine ⟨⟨List.Subset.refl _, List.Subset.refl _, Shard.Evolves.update ?_, fun r hr => ?_⟩, rfl,
      rfl, rfl, fun _ hid => .inl hid⟩
    · exact ⟨fun _ ht => .inl ht, fun _ hr => .inl (mem_cons_of_mem _ hr), fun _ ht => .inl ht,
        le_rfl⟩
    · rcases mem_cons.1 hr with rfl | hr
      · refine .inr ⟨id, hid, ?_⟩
        simp [World.setShard]
      · exact .inl hr
  | freeze id tables =>
    rw [step, ite_none_right_eq_some, Option.some.injEq] at h
    obtain ⟨⟨hnew, hp, hid⟩, rfl⟩ := h
    obtain ⟨-, hle⟩ := isGreatest_foldl_max SsTable.generation tables (w.server.shard id).newest
    have hmoved : ∀ r ∈ (w.server.shard id).memtable,
        ∃ t ∈ (w.server.shard id).sstables ++ tables, r ∈ t.rows := by
      intro r hr
      obtain ⟨t, ht, hrow⟩ := mem_flatMap.1 (hp.mem_iff.2 hr)
      exact ⟨t, mem_append_right _ ht, hrow⟩
    refine ⟨⟨List.Subset.refl _, List.Subset.refl _, Shard.Evolves.update ?_, fun _ hr => .inl hr⟩,
      rfl, rfl, rfl, fun id' hid' => ?_⟩
    · refine ⟨fun _ ht => .inl (mem_append_left _ ht), fun r hr => .inr (hmoved r hr),
        fun t ht => ?_, hle (.inl rfl)⟩
      rcases mem_append.1 ht with ht | ht
      · exact .inl ht
      · exact .inr ⟨hnew t ht, hle (.inr ⟨t, ht, rfl⟩)⟩
    · by_cases heq : id' = id
      · subst heq
        right
        simpa [World.setShard] using hmoved
      · exact .inl (mem_filter.2 ⟨hid', by simpa using heq⟩)
  | merge id table =>
    rw [step, ite_none_right_eq_some, Option.some.injEq] at h
    obtain ⟨-, rfl⟩ := h
    exact ⟨⟨List.Subset.refl _, subset_append_right _ _, fun _ => .refl _ _,
      fun _ hr => .inl hr⟩, rfl, rfl, rfl, fun _ hid => .inl hid⟩
  | remove id table =>
    rw [step, ite_none_right_eq_some, Option.some.injEq] at h
    obtain ⟨⟨-, hb, -⟩, rfl⟩ := h
    refine ⟨⟨List.Subset.refl _, List.Subset.refl _, Shard.Evolves.update ?_, fun _ hr => .inl hr⟩,
      rfl, rfl, rfl, fun _ hid => .inl hid⟩
    refine ⟨fun t ht => ?_, fun _ hr => .inl hr, fun t ht => .inl (mem_of_mem_filter ht),
      le_rfl⟩
    by_cases heq : t = table
    · subst heq
      exact .inr hb
    · exact .inl (mem_filter.2 ⟨ht, by simpa using heq⟩)

theorem start_of_step (h : step w .start = some w') :
    w.phase = .idle ∧ w' = { w.sendFlush 0 0 with owed := w.server.acked } := by
  rcases hph : w.phase with _ | _ | _ | _ | _ | _ <;>
    simp only [step, hph, Option.some.injEq, reduceCtorEq] at h
  exact ⟨rfl, h.symm⟩

/-- The entry of a shard in a stats answer. -/
def Server.entry (s : Server R) (id : String) (compacting : Bool) : TableShardStats :=
  ⟨id, (s.shard id).sstables.map SsTable.generation, compacting⟩

theorem read_of_step {id : String} {compacting : Bool}
    (h : step w (.read id compacting) = some w') : id ∈ w.server.ids ∧
      ((∃ reissue retries answer, w.phase = .stats reissue retries answer ∧
          w' = { w with
            phase := .stats reissue retries (answer ++ [w.server.entry id compacting]) }) ∨
        ∃ reissue targets retries answer, w.phase = .poll reissue targets retries answer ∧
          w' = { w with
            phase :=
              .poll reissue targets retries (answer ++ [w.server.entry id compacting]) }) := by
  rw [step, ite_none_right_eq_some] at h
  obtain ⟨hid, h⟩ := h
  refine ⟨hid, ?_⟩
  rcases hph : w.phase with _ | _ | ⟨reissue, retries, answer⟩ |
    ⟨reissue, targets, retries, answer⟩ | _ | _ <;>
    simp only [World.read, hph, Option.some.injEq, reduceCtorEq] at h
  · exact .inl ⟨reissue, retries, answer, rfl, h.symm⟩
  · exact .inr ⟨reissue, targets, retries, answer, rfl, h.symm⟩

/-- **What a step can be.** -/
theorem step_cases (h : step w a = some w') :
    a.IsBackground ∧ Background w w' ∨ (∃ id compacting, a = .read id compacting) ∨ a = .start ∨
      ∃ response, a = .respond response ∧ Answers w response w' := by
  cases a with
  | addShard id => exact .inl ⟨.addShard id, background_of_step (.addShard id) h⟩
  | write id row => exact .inl ⟨.write id row, background_of_step (.write id row) h⟩
  | freeze id tables => exact .inl ⟨.freeze id tables, background_of_step (.freeze id tables) h⟩
  | merge id table => exact .inl ⟨.merge id table, background_of_step (.merge id table) h⟩
  | remove id table => exact .inl ⟨.remove id table, background_of_step (.remove id table) h⟩
  | read id compacting => exact .inr (.inl ⟨id, compacting, rfl⟩)
  | start => exact .inr (.inr (.inl rfl))
  | respond response => exact .inr (.inr (.inr ⟨response, rfl, respond_answers h⟩))

end Steps

/-! ### Where the rows are -/

/-- A row is in the base table, or in an SSTable with a property. -/
def Stored (s : Server R) (P : String → ℕ → Prop) (r : R) : Prop :=
  r ∈ s.base ∨ ∃ id ∈ s.ids, ∃ t ∈ (s.shard id).sstables, r ∈ t.rows ∧ P id t.generation

/-- A row is in a memtable with a property. -/
def Buffered (s : Server R) (P : String → Prop) (r : R) : Prop :=
  ∃ id ∈ s.ids, r ∈ (s.shard id).memtable ∧ P id

/-- Every entry of a shard in a stats answer lists a generation. -/
def Listed (answer : List TableShardStats) (id : String) (generation : ℕ) : Prop :=
  ∀ b ∈ answer, b.shardId = id → generation ∈ b.sstables

/-- A generation is not above the target of its shard. -/
def Targeted (targets : List (String × ℕ)) (id : String) (generation : ℕ) : Prop :=
  ∃ n, target targets id = some n ∧ generation ≤ n

/-- Where a row has to be that was acknowledged before the call started. -/
def Owes (w : World R) (r : R) : Prop :=
  match w.phase with
  | .idle => True
  | .flush .. => Stored w.server (fun _ _ => True) r ∨ Buffered w.server (· ∈ w.pending) r
  | .stats _ _ answer => Stored w.server (Listed answer) r
  | .poll _ targets _ answer =>
    Stored w.server (fun id g => Targeted targets id g ∧ Listed answer id g) r
  | .compact _ targets => Stored w.server (Targeted targets) r
  | .returned (.ok _) => r ∈ w.server.base
  | .returned (.error _) => True

section Rows

variable {s s' : Server R} {P Q : String → ℕ → Prop} {r : R} {w w' : World R}
variable {answer : List TableShardStats}

theorem Stored.imp (h : Stored s P r)
    (hPQ : ∀ id ∈ s.ids, ∀ t ∈ (s.shard id).sstables, P id t.generation → Q id t.generation) :
    Stored s Q r := by
  rcases h with hb | ⟨id, hid, t, ht, hr, hP⟩
  · exact .inl hb
  · exact .inr ⟨id, hid, t, ht, hr, hPQ id hid t ht hP⟩

theorem Stored.evolves (h : Stored s P r) (he : s.Evolves s') : Stored s' P r := by
  rcases h with hb | ⟨id, hid, t, ht, hr, hP⟩
  · exact .inl (he.base hb)
  · rcases (he.shard id).table t ht with ht' | hmgd
    · exact .inr ⟨id, he.ids hid, t, ht', hr, hP⟩
    · exact .inl (hmgd r hr)

theorem Stored.base (h : Stored s P r)
    (hnot : ∀ id ∈ s.ids, ∀ t ∈ (s.shard id).sstables, ¬ P id t.generation) : r ∈ s.base := by
  rcases h with hb | ⟨id, hid, t, ht, -, hP⟩
  · exact hb
  · exact absurd hP (hnot id hid t ht)

/-- While the call has not returned, a row is where a flush can find it. -/
theorem Owes.stored_or_buffered (h : Owes w r) (hi : w.phase ≠ .idle)
    (hret : ∀ result, w.phase ≠ .returned result) :
    Stored w.server (fun _ _ => True) r ∨ Buffered w.server (fun _ => True) r := by
  unfold Owes at h
  split at h
  · exact absurd ‹_› hi
  · rcases h with h | ⟨id, hid, hr, -⟩
    · exact .inl h
    · exact .inr ⟨id, hid, hr, trivial⟩
  · exact .inl (h.imp fun _ _ _ _ _ => trivial)
  · exact .inl (h.imp fun _ _ _ _ _ => trivial)
  · exact .inl (h.imp fun _ _ _ _ _ => trivial)
  · exact absurd ‹_› (hret _)
  · exact absurd ‹_› (hret _)

/-- When a flush is sent, a row is where the flush can find it. -/
theorem owes_sendFlush
    (h : Stored w.server (fun _ _ => True) r ∨ Buffered w.server (fun _ => True) r) :
    Owes (w.sendFlush reissue retries) r := by
  rcases h with h | ⟨id, hid, hr, -⟩
  · exact .inl h
  · exact .inr ⟨id, hid, hr, hid⟩

/-- What happens in the background leaves a row where it has to be. -/
theorem Background.owes (hb : Background w w') (h : Owes w r) : Owes w' r := by
  unfold Owes at h ⊢
  rw [hb.phase]
  split at h
  · trivial
  · rcases h with h | ⟨id, hid, hr, hpend⟩
    · exact .inl (h.evolves hb.server)
    · -- the flush in progress may freeze the shard of the row
      rcases hb.pending id hpend with hpend | hfrz
      · rcases (hb.server.shard id).memtable r hr with hr' | ⟨t, ht, hr'⟩
        · exact .inr ⟨id, hb.server.ids hid, hr', hpend⟩
        · exact .inl (.inr ⟨id, hb.server.ids hid, t, ht, hr', trivial⟩)
      · obtain ⟨t, ht, hr'⟩ := hfrz r hr
        exact .inl (.inr ⟨id, hb.server.ids hid, t, ht, hr', trivial⟩)
  · exact h.evolves hb.server
  · exact h.evolves hb.server
  · exact h.evolves hb.server
  · exact hb.server.base h
  · trivial

theorem listed_append {id : String} {t : SsTable R} (ht : t ∈ (s.shard id).sstables)
    (h : Listed answer id t.generation) (id' : String) (compacting : Bool) :
    Listed (answer ++ [s.entry id' compacting]) id t.generation := by
  intro b hb heq
  rcases mem_append.1 hb with hb | hb
  · exact h b hb heq
  · obtain rfl := mem_singleton.1 hb
    obtain rfl : id' = id := heq
    exact mem_map_of_mem ht

/-- An answer that lists every shard gives a target to what it lists. -/
theorem targeted_of_listed {id : String} {g : ℕ} (hls : ∃ b ∈ answer, b.shardId = id)
    (h : Listed answer id g) : Targeted (targetsOf answer) id g := by
  have hnewest : ∀ b ∈ answer, b.shardId = id →
      ∃ n, b.newestSstableGeneration = some n ∧ g ≤ n := by
    intro b hb heq
    have hg := h b hb heq
    obtain ⟨n, hn⟩ := ne_none_iff_exists'.1
      (mt max?_eq_none_iff.1 (ne_nil_of_mem hg))
    exact ⟨n, hn, (max?_le_iff hn).1 le_rfl g hg⟩
  obtain ⟨b, hb, heq⟩ := hls
  obtain ⟨n, hn, -⟩ := hnewest b hb heq
  have hmem : (id, n) ∈ targetsOf answer :=
    mem_filterMap.2 ⟨b, hb, by rw [hn, ← heq]; rfl⟩
  have hf : ((targetsOf answer).reverse.find? fun p => p.1 = id).isSome :=
    find?_isSome.2 ⟨(id, n), mem_reverse.2 hmem, by simp⟩
  obtain ⟨p, hp⟩ := isSome_iff_exists.1 hf
  have hpid : p.1 = id := by simpa using find?_some hp
  -- the target that is found comes from an entry of the shard
  obtain ⟨b', hb', hent⟩ :=
    mem_filterMap.1 (mem_reverse.1 (mem_of_find?_eq_some hp))
  obtain ⟨n', hn', rfl⟩ := map_eq_some_iff.1 hent
  obtain ⟨m, hm, hle⟩ := hnewest b' hb' hpid
  refine ⟨n', by rw [target, hp]; rfl, ?_⟩
  rw [hn', Option.some.injEq] at hm
  rwa [hm]

theorem outstanding_of_listed {targets : List (String × ℕ)} {id : String} {g : ℕ}
    (hls : ∃ b ∈ answer, b.shardId = id) (ht : Targeted targets id g) (h : Listed answer id g) :
    (answer.map (outstandingIn targets)).sum ≠ 0 := by
  obtain ⟨b, hb, heq⟩ := hls
  obtain ⟨n, hn, hle⟩ := ht
  intro hsum
  have hz : outstandingIn targets b = 0 :=
    Nat.eq_zero_of_le_zero (hsum ▸ le_sum_of_mem (mem_map_of_mem hb))
  rw [outstandingIn, heq, hn] at hz
  exact absurd hle (by simpa using countP_eq_zero.1 hz g (h b hb heq))

theorem reissue_rule {P : World R → Prop}
    (hsend : reissue < maxReissues → P (w.sendFlush (reissue + 1) 0))
    (hfin : ∀ e, P (w.finish (.error e))) : P (w.reissueFromFlush reissue) := by
  unfold World.reissueFromFlush
  split_ifs with hlt
  · exact hsend hlt
  · exact hfin _

/-- What follows a failure: the request is retried, or its caller starts over, or gives up. -/
theorem failed_rule {P : World R → Prop} {e : Failure} {again : World R}
    (hre : P (w.reissueFromFlush reissue)) (hfin : ∀ e, P (w.finish (.error e)))
    (hagain : retries < maxRetries → P again) : P (w.failed reissue retries e again) := by
  unfold World.failed
  split_ifs with hlost hgive
  · exact hre
  · exact hfin _
  · refine hagain ?_
    simp only [Bool.or_eq_true, decide_eq_true_eq, not_or] at hgive
    omega

theorem owes_reissue (h : Owes w r) (hi : w.phase ≠ .idle)
    (hret : ∀ result, w.phase ≠ .returned result) : Owes (w.reissueFromFlush reissue) r :=
  reissue_rule (P := fun w' => Owes w' r)
    (fun _ => owes_sendFlush (h.stored_or_buffered hi hret)) fun _ => trivial

theorem owes_stats (h : Stored w.server P r) :
    Owes { w with phase := .stats reissue retries [] } r := by
  have hnil : Stored w.server (Listed []) r := h.imp fun _ _ _ _ _ b hb => absurd hb not_mem_nil
  exact hnil

theorem owes_poll {targets : List (String × ℕ)} (h : Stored w.server (Targeted targets) r) :
    Owes { w with phase := .poll reissue targets retries [] } r := by
  have hnil : Stored w.server (fun id g => Targeted targets id g ∧ Listed [] id g) r :=
    h.imp fun _ _ _ _ ht => ⟨ht, fun b hb => absurd hb not_mem_nil⟩
  exact hnil

theorem Stored.base_of_ids (h : Stored s P r) (hids : s.ids = []) : r ∈ s.base :=
  h.base fun id hid => by simp [hids] at hid

/-- **The call keeps track of a row** through every answer it gets. -/
theorem Answers.owes (ha : Answers w response w') (h : Owes w r) : Owes w' r := by
  cases ha with
  | flushed hph hpend =>
    rw [Owes, hph, hpend] at h
    rcases h with h | ⟨id, -, -, hno⟩
    · exact owes_stats h
    · exact absurd hno not_mem_nil
  | fixed hph hls =>
    rw [Owes, hph] at h
    have htarg := h.imp fun id hid t _ hlisted => targeted_of_listed (hls id hid) hlisted
    unfold World.fixTargets
    simp only
    split_ifs with hemp
    · refine htarg.base fun id _ t _ ⟨n, hn, _⟩ => ?_
      rw [List.isEmpty_iff.1 hemp] at hn
      cases hn
    · exact owes_poll htarg
  | drained hph hls =>
    rw [Owes, hph] at h
    have htarg := h.imp fun _ _ _ _ hboth => hboth.1
    unfold World.drain
    simp only
    split_ifs with hd
    · exact h.base fun id hid t _ ⟨ht, hlisted⟩ =>
        outstanding_of_listed (hls id hid) ht hlisted hd
    · exact htarg
    · exact owes_poll htarg
  | compacted hph =>
    rw [Owes, hph] at h
    exact owes_poll h
  | absent hwts hne hids =>
    cases hwts with
    | flush hph => exact absurd hph (hne _ _)
    | stats hph | poll hph =>
      rw [Owes, hph] at h
      exact h.base_of_ids hids
  | failed e hwts =>
    have hi : w.phase ≠ .idle := by cases hwts <;> simp [*]
    have hret : ∀ result, w.phase ≠ .returned result := by cases hwts <;> simp [*]
    refine failed_rule (P := fun w' => Owes w' r) (owes_reissue h hi hret)
      (fun _ => trivial) fun _ => ?_
    cases hwts with
    | flush hph => exact owes_sendFlush (h.stored_or_buffered hi hret)
    | stats hph =>
      rw [Owes, hph] at h
      exact owes_stats h
    | poll hph =>
      rw [Owes, hph] at h
      exact owes_poll (h.imp fun _ _ _ _ hboth => hboth.1)
  | notCompacted e hph hw' =>
    rcases hw' with rfl | rfl | rfl
    · exact owes_reissue h (by simp [hph]) (by simp [hph])
    · trivial
    · rw [Owes, hph] at h
      exact owes_poll h

/-- Every row that was acknowledged is somewhere. -/
def Kept (s : Server R) : Prop :=
  ∀ r ∈ s.acked, Stored s (fun _ _ => True) r ∨ Buffered s (fun _ => True) r

theorem Kept.evolves (h : Kept s) (he : s.Evolves s') : Kept s' := by
  intro r hr
  rcases he.acked r hr with hr | ⟨id, hid, hr⟩
  · rcases h r hr with hsto | ⟨id, hid, hr, -⟩
    · exact .inl (hsto.evolves he)
    · rcases (he.shard id).memtable r hr with hr | ⟨t, ht, hr⟩
      · exact .inr ⟨id, he.ids hid, hr, trivial⟩
      · exact .inl (.inr ⟨id, he.ids hid, t, ht, hr, trivial⟩)
  · exact .inr ⟨id, hid, hr, trivial⟩

theorem Answers.goes (ha : Answers w response w') : Goes w w' := by
  have hre : ∀ reissue, Goes w (w.reissueFromFlush reissue) := fun reissue =>
    reissue_rule (fun _ => .flush _ _) fun _ => .finish _
  cases ha with
  | flushed hph hpend => exact .stats _ _
  | fixed hph hls =>
    unfold World.fixTargets
    simp only
    split_ifs
    · exact .finish _
    · exact .poll _ _ (hph ▸ .stats)
  | drained hph hls =>
    unfold World.drain
    simp only
    split_ifs
    · exact .finish _
    · exact .compact _ ⟨_, _, _, hph⟩
    · exact .poll _ _ (hph ▸ .poll)
  | compacted hph => exact .poll _ _ (hph ▸ .compact)
  | absent hwts hne hids => exact .finish _
  | failed e hwts =>
    refine failed_rule (hre _) (fun _ => .finish _) fun _ => ?_
    cases hwts with
    | flush hph => exact .flush _ _
    | stats hph => exact .stats _ _
    | poll hph => exact .poll _ _ (hph ▸ .poll)
  | notCompacted e hph hw' =>
    rcases hw' with rfl | rfl | rfl
    · exact hre _
    · exact .finish _
    · exact .poll _ _ (hph ▸ .compact)

theorem Answers.same (ha : Answers w response w') : w'.server = w.server ∧ w'.owed = w.owed := by
  cases ha.goes <;> exact ⟨rfl, rfl⟩

/-- The invariant of the rows. -/
structure RowsInv (w : World R) : Prop where
  kept : Kept w.server
  owes : ∀ r ∈ w.owed, Owes w r

theorem RowsInv.step [DecidableEq R] {a : Action R} (h : RowsInv w)
    (hs : Checkpoint.step w a = some w') : RowsInv w' := by
  rcases step_cases hs with ⟨-, hb⟩ | ⟨id, compacting, rfl⟩ | rfl | ⟨response, rfl, ha⟩
  · exact ⟨h.kept.evolves hb.server, fun r hr => hb.owes (h.owes r (hb.owed ▸ hr))⟩
  · obtain ⟨-, ⟨reissue, retries, answer, hph, rfl⟩ |
      ⟨reissue, targets, retries, answer, hph, rfl⟩⟩ := read_of_step hs
    · refine ⟨h.kept, fun r hr => ?_⟩
      have howes := h.owes r hr
      rw [Owes, hph] at howes
      exact howes.imp fun _ _ _ ht hlisted => listed_append ht hlisted _ _
    · refine ⟨h.kept, fun r hr => ?_⟩
      have howes := h.owes r hr
      rw [Owes, hph] at howes
      have hrd : Stored w.server (fun id' g => Targeted targets id' g ∧
          Listed (answer ++ [w.server.entry id compacting]) id' g) r :=
        howes.imp fun _ _ _ ht hboth => ⟨hboth.1, listed_append ht hboth.2 _ _⟩
      exact hrd
  · obtain ⟨-, rfl⟩ := start_of_step hs
    refine ⟨h.kept, fun r hr => ?_⟩
    have hsend : Owes (w.sendFlush 0 0) r := owes_sendFlush (h.kept r hr)
    exact hsend
  · obtain ⟨hsrv, howed⟩ := ha.same
    exact ⟨hsrv ▸ h.kept, fun r hr => ha.owes (h.owes r (howed ▸ hr))⟩

theorem rowsInv_initial : RowsInv (World.initial : World R) :=
  ⟨fun _ hr => absurd hr not_mem_nil, fun _ hr => absurd hr not_mem_nil⟩

end Rows

/-! ### How often a flush is requested -/

/-- How many flushes a call has asked for, and how often it has retried. -/
def Budget (w : World R) : Prop :=
  match w.phase with
  | .idle => w.flushes = 0
  | .flush reissue retries => reissue ≤ maxReissues ∧ retries ≤ maxRetries ∧
    w.flushes ≤ (maxRetries + 1) * reissue + retries + 1
  | .stats reissue retries _ => reissue ≤ maxReissues ∧ retries ≤ maxRetries ∧
    w.flushes ≤ (maxRetries + 1) * (reissue + 1)
  | .poll reissue _ retries _ => reissue ≤ maxReissues ∧ retries ≤ maxRetries ∧
    w.flushes ≤ (maxRetries + 1) * (reissue + 1)
  | .compact reissue _ => reissue ≤ maxReissues ∧ w.flushes ≤ (maxRetries + 1) * (reissue + 1)
  | .returned _ => w.flushes ≤ (maxReissues + 1) * (maxRetries + 1)

section Budget

variable {w w' : World R}

theorem budget_finish {result : Except Error Unit} (hle : reissue ≤ maxReissues)
    (h : w.flushes ≤ (maxRetries + 1) * (reissue + 1)) : Budget (w.finish result) := by
  simp only [Budget, World.finish, maxReissues, maxRetries] at h hle ⊢
  omega

theorem budget_reissue (hle : reissue ≤ maxReissues)
    (h : w.flushes ≤ (maxRetries + 1) * (reissue + 1)) : Budget (w.reissueFromFlush reissue) := by
  refine reissue_rule (fun hlt => ⟨hlt, Nat.zero_le _, ?_⟩) fun _ => budget_finish hle h
  simpa [World.sendFlush] using h

theorem Waits.budget {again : World R} (hwts : Waits w reissue retries again) (h : Budget w) :
    reissue ≤ maxReissues ∧ retries ≤ maxRetries ∧
      w.flushes ≤ (maxRetries + 1) * (reissue + 1) := by
  cases hwts with
  | flush hph =>
    rw [Budget, hph] at h
    refine ⟨h.1, h.2.1, h.2.2.trans ?_⟩
    simp only [maxRetries] at h ⊢
    omega
  | stats hph | poll hph => rwa [Budget, hph] at h

theorem Answers.budget (ha : Answers w response w') (h : Budget w) : Budget w' := by
  cases ha with
  | flushed hph hpend =>
    rw [Budget, hph] at h
    obtain ⟨hre, hretr, hflsh⟩ := h
    refine ⟨hre, Nat.zero_le _, ?_⟩
    simp only [maxRetries] at hretr hflsh ⊢
    omega
  | fixed hph hls =>
    rw [Budget, hph] at h
    unfold World.fixTargets
    simp only
    split_ifs
    · exact budget_finish h.1 h.2.2
    · exact ⟨h.1, Nat.zero_le _, h.2.2⟩
  | drained hph hls =>
    rw [Budget, hph] at h
    unfold World.drain
    simp only
    split_ifs
    · exact budget_finish h.1 h.2.2
    · exact ⟨h.1, h.2.2⟩
    · exact ⟨h.1, Nat.zero_le _, h.2.2⟩
  | compacted hph =>
    rw [Budget, hph] at h
    exact ⟨h.1, Nat.zero_le _, h.2⟩
  | absent hwts hne hids =>
    obtain ⟨hre, -, hflsh⟩ := hwts.budget h
    exact budget_finish hre hflsh
  | failed e hwts =>
    obtain ⟨hre, hretr, hflsh⟩ := hwts.budget h
    refine failed_rule (budget_reissue hre hflsh) (fun _ => budget_finish hre hflsh)
      fun hlt => ?_
    cases hwts with
    | flush hph =>
      rw [Budget, hph] at h
      exact ⟨hre, hlt, Nat.succ_le_succ h.2.2⟩
    | stats | poll => exact ⟨hre, hlt, hflsh⟩
  | notCompacted e hph hw' =>
    rw [Budget, hph] at h
    rcases hw' with rfl | rfl | rfl
    · exact budget_reissue h.1 h.2
    · exact budget_finish h.1 h.2
    · exact ⟨h.1, Nat.zero_le _, h.2⟩

theorem Budget.step [DecidableEq R] {a : Action R} (h : Budget w)
    (hs : Checkpoint.step w a = some w') : Budget w' := by
  rcases step_cases hs with ⟨-, hb⟩ | ⟨id, compacting, rfl⟩ | rfl | ⟨response, rfl, ha⟩
  · rw [Budget, hb.phase, hb.flushes]
    exact h
  · obtain ⟨-, ⟨reissue, retries, answer, hph, rfl⟩ |
      ⟨reissue, targets, retries, answer, hph, rfl⟩⟩ := read_of_step hs
    · rw [Budget, hph] at h
      exact h
    · rw [Budget, hph] at h
      exact h
  · obtain ⟨hph, rfl⟩ := start_of_step hs
    rw [Budget, hph] at h
    exact ⟨Nat.zero_le _, Nat.zero_le _, by simp [World.sendFlush, h]⟩
  · exact ha.budget h

end Budget

end LanceDB.Checkpoint
