import LanceDB.Base.Threads
import LanceDB.MemWal.Routing

/-!
# One put per MemWAL `merge_insert`

The writer of a call comes from a cache with one slot, which other calls fill and `drain_and_close`
empties.  A writer that was taken out of its entry takes no rows any more.

* `machine` : `execute_lsm_merge_insert` with `writer_for_shard`, and `drain_and_close`.
* `Good`, `Fair`, `keeps` — the entry of the slot was opened for the shard of the slot, and a call
  puts once, into an entry of its shard; the put may fail.
* `merge_insert_one_put` — the result.
-/

namespace LanceDB

open List Option

namespace Lsm

open Machine

variable {V Spec : Type}
variable {request : Request V Spec}

/-! ### The cache and the calls -/

/-- A put that was issued: the shard of the writer, and the error of a put that failed. -/
structure Put (V : Type) where
  shardId : Uuid
  batches : List (Batch V)
  failure : Option String
  deriving DecidableEq

/-- A `ShardWriterEntry`: the shard its writer was opened for, whether the writer is still there,
and the puts it was given.  What a put that failed leaves is up to Lance. -/
structure Entry (V : Type) where
  shardId : Uuid
  isOpen : Bool
  puts : List (Put V)

/-- What the calls share. -/
structure Shared (V : Type) where
  /-- The slot of the `ShardWriterCache`: a shard and an entry. -/
  slot : Option (Uuid × ℕ)
  entries : List (Entry V)

def Shared.setEntry (s : Shared V) (e : ℕ) (entry : Entry V) : Shared V :=
  { s with entries := s.entries.set e entry }

/-- Where a call of `execute_lsm_merge_insert` is. -/
inductive Stage (V : Type)
  /-- In `writer_for_shard`. -/
  | writerFor (prepared : Prepared V)
  /-- The slot was empty. -/
  | opening (prepared : Prepared V)
  | putting (prepared : Prepared V) (e : ℕ)
  | returned (result : Except LsmError ℕ)
  deriving DecidableEq

inductive Call (V Spec : Type)
  | idle
  /-- A `merge_insert`, with what it has put. -/
  | merge (request : Request V Spec) (puts : List (Put V)) (stage : Stage V)
  /-- In `drain_and_close`. -/
  | draining
  /-- The entry is taken out of the slot. -/
  | closing (e : ℕ)
  deriving DecidableEq

inductive Action (V Spec : Type)
  | mergeInsert (request : Request V Spec)
  | drainAndClose
  | next
  /-- Lance fails. -/
  | fail (message : String)

/-- `check_shard_match`. -/
def checkShardMatch (cached wanted : Uuid) : Except LsmError Unit :=
  if cached = wanted then .ok ()
  else .error (.invalidInput <|
    s!"merge_insert: a shard writer is already open for shard {cached} but this input routes to " ++
      s!"shard {wanted}; call close_memwal_writers before writing to a different shard")

section Machine

variable (ev : Evaluator V Spec) (ids : ShardIds)

/-- The start of a call, up to `writer_for_shard`. -/
def begin (request : Request V Spec) : Stage V :=
  match prepare ev ids request with
  | .error e => .returned (.error e)
  | .ok none => .returned (.ok 0)
  | .ok (some prepared) => .writerFor prepared

/-- The entry of the slot is used, if it is for the shard. -/
def useCached (prepared : Prepared V) (cached : Uuid) (e : ℕ) : Stage V :=
  match checkShardMatch cached prepared.shardId with
  | .ok () => .putting prepared e
  | .error e => .returned (.error e)

/-- The message of an opening that fails. -/
def openMessage (shardId : Uuid) (message : String) : String :=
  s!"merge_insert: failed to open MemWAL shard writer for shard {shardId}: {message}"

/-- A put of a call, to an entry whose writer is there. -/
def putOf (entry : Entry V) (prepared : Prepared V) (failure : Option String) : Put V :=
  ⟨entry.shardId, prepared.batches, failure⟩

/-- What a call returns when its put fails. -/
def putFailed (message : String) : LsmError :=
  .runtime s!"merge_insert: shard writer put failed: {message}"

/-- The steps of `execute_lsm_merge_insert`: the shared state, what the call puts, and where it is
then.  `put` holds the lock of the entry. -/
def mergeStep (s : Shared V) (stage : Stage V) (a : Action V Spec) :
    Option (Shared V × List (Put V) × Stage V) :=
  match stage, a with
  | .writerFor prepared, .next =>
    match s.slot with
    | some (cached, e) => some (s, [], useCached prepared cached e)
    | none => some (s, [], .opening prepared)
  | .opening prepared, .next =>
    match s.slot with
    | some (cached, e) => some (s, [], useCached prepared cached e)
    | none => some (⟨some (prepared.shardId, s.entries.length),
        s.entries ++ [⟨prepared.shardId, true, []⟩]⟩, [], .putting prepared s.entries.length)
  | .opening prepared, .fail message =>
    match s.slot with
    | some _ => none
    | none => some (s, [], .returned (.error (.runtime (openMessage prepared.shardId message))))
  | .putting prepared e, .next => do
    let entry ← s.entries[e]?
    if entry.isOpen then
      let put := putOf entry prepared none
      some (s.setEntry e { entry with puts := entry.puts ++ [put] }, [put],
        .returned (.ok prepared.totalRows))
    else
      some (s, [], .returned (.error
        (.runtime "merge_insert: shard writer was closed before this write")))
  | .putting prepared e, .fail message => do
    let entry ← s.entries[e]?
    if entry.isOpen then
      let put := putOf entry prepared (some message)
      some (s.setEntry e { entry with puts := entry.puts ++ [put] }, [put],
        .returned (.error (putFailed message)))
    else none
  | _, _ => none

/-- The calls of a session. -/
def machine : Machine (Shared V) (Call V Spec) (Action V Spec) Empty where
  step s call a := match call, a with
    | .idle, .mergeInsert request => some (s, .merge request [] (begin ev ids request), none)
    | .merge request puts stage, a =>
      (mergeStep s stage a).map fun (s', more, stage') =>
        (s', .merge request (puts ++ more) stage', none)
    | .idle, .drainAndClose => some (s, .draining, none)
    | .draining, .next =>
      match s.slot with
      | some (_, e) => some ({ s with slot := none }, .closing e, none)
      | none => some (s, .idle, none)
    | .closing e, .next => do
      let entry ← s.entries[e]?
      some (s.setEntry e { entry with isOpen := false }, .idle, none)
    | _, _ => none

end Machine

/-! ### The invariant -/

/-- The entry was opened for the shard. -/
def Shared.OpenedFor (s : Shared V) (e : ℕ) (shardId : Uuid) : Prop :=
  s.entries[e]?.map Entry.shardId = some shardId

/-- The entry of the slot is one of its shard. -/
def Good (s : Shared V) : Prop := ∀ shardId e, s.slot = some (shardId, e) → s.OpenedFor e shardId

section Invariant

variable (ev : Evaluator V Spec) (ids : ShardIds)

/-- What a call has put, by where it is. -/
def Fair (s : Shared V) : Call V Spec → Prop
  | .merge request puts (.writerFor prepared) | .merge request puts (.opening prepared) =>
    prepare ev ids request = .ok (some prepared) ∧ puts = []
  | .merge request puts (.putting prepared e) =>
    prepare ev ids request = .ok (some prepared) ∧ puts = [] ∧ s.OpenedFor e prepared.shardId
  | .merge request puts (.returned (.error e)) => puts = [] ∨
      ∃ prepared message, prepare ev ids request = .ok (some prepared) ∧ e = putFailed message ∧
        puts = [⟨prepared.shardId, prepared.batches, some message⟩]
  | .merge request puts (.returned (.ok n)) =>
    (prepare ev ids request = .ok none ∧ puts = [] ∧ n = 0) ∨
      ∃ prepared, prepare ev ids request = .ok (some prepared) ∧ n = prepared.totalRows ∧
        puts = [⟨prepared.shardId, prepared.batches, none⟩]
  | _ => True

variable {ev ids} {s s' : Shared V}
variable {e : ℕ}

theorem Shared.OpenedFor.setEntry {e' : ℕ} {shardId : Uuid} (h : s.OpenedFor e shardId)
    {entry entry' : Entry V} (hget : s.entries[e']? = some entry)
    (hs : entry'.shardId = entry.shardId) : (s.setEntry e' entry').OpenedFor e shardId := by
  rw [OpenedFor] at h ⊢
  by_cases he : e' = e
  · subst he
    have hlt := (List.getElem?_eq_some_iff.1 hget).1
    rw [hget] at h
    rw [Shared.setEntry, getElem?_set_self hlt, map_some, hs]
    exact h
  · rw [Shared.setEntry, getElem?_set_ne he]
    exact h

theorem Shared.OpenedFor.append {shardId : Uuid} (h : s.OpenedFor e shardId)
    (slot : Option (Uuid × ℕ)) (entry : Entry V) :
    Shared.OpenedFor ⟨slot, s.entries ++ [entry]⟩ e shardId := by
  rw [OpenedFor] at h ⊢
  obtain ⟨found, hfd, hsh⟩ := map_eq_some_iff.1 h
  have hlt := (List.getElem?_eq_some_iff.1 hfd).1
  change ((s.entries ++ [entry])[e]?).map Entry.shardId = _
  rw [getElem?_append_left hlt]
  exact h

/-- A call has put nothing, or has put what it prepared and has returned what became of it. -/
theorem Fair.cases {puts : List (Put V)} {stage : Stage V}
    (h : Fair ev ids s (.merge request puts stage)) :
    (puts = [] ∧ ∀ n, stage = .returned (.ok n) → prepare ev ids request = .ok none ∧ n = 0) ∨
      ∃ prepared failure, prepare ev ids request = .ok (some prepared) ∧
        puts = [⟨prepared.shardId, prepared.batches, failure⟩] ∧
        stage = .returned (failure.elim (.ok prepared.totalRows) (.error <| putFailed ·)) := by
  match stage, h with
  | .writerFor prepared, ⟨_, hputs⟩ => exact .inl ⟨hputs, nofun⟩
  | .opening prepared, ⟨_, hputs⟩ => exact .inl ⟨hputs, nofun⟩
  | .putting prepared e, ⟨_, hputs, _⟩ => exact .inl ⟨hputs, nofun⟩
  | .returned (.error e), .inl hputs => exact .inl ⟨hputs, nofun⟩
  | .returned (.error e), .inr ⟨prepared, message, hp, he, hputs⟩ =>
    exact .inr ⟨prepared, some message, hp, hputs, by rw [he]; rfl⟩
  | .returned (.ok n), .inl ⟨hp, hputs, hn⟩ =>
    refine .inl ⟨hputs, fun m hm => ⟨hp, ?_⟩⟩
    cases hm
    exact hn
  | .returned (.ok n), .inr ⟨prepared, hp, hn, hputs⟩ =>
    exact .inr ⟨prepared, none, hp, hputs, by rw [hn]; rfl⟩

theorem Fair.mono {call : Call V Spec} (h : Fair ev ids s call)
    (hmono : ∀ e shardId, s.OpenedFor e shardId → s'.OpenedFor e shardId) :
    Fair ev ids s' call := by
  match call, h with
  | .merge request puts (.putting prepared e), ⟨hp, hputs, hop⟩ =>
    exact ⟨hp, hputs, hmono e _ hop⟩
  | .merge request puts (.writerFor prepared), h => exact h
  | .merge request puts (.opening prepared), h => exact h
  | .merge request puts (.returned (.error e)), h => exact h
  | .merge request puts (.returned (.ok n)), h => exact h
  | .idle, _ => trivial
  | .draining, _ => trivial
  | .closing e, _ => trivial

theorem useCached_fair {prepared : Prepared V} (hgood : Good s)
    (hp : prepare ev ids request = .ok (some prepared)) {cached : Uuid}
    (hs : s.slot = some (cached, e)) :
    Fair ev ids s (.merge request [] (useCached prepared cached e)) := by
  rw [useCached, checkShardMatch]
  by_cases hmat : cached = prepared.shardId
  · rw [if_pos hmat]
    exact ⟨hp, rfl, hmat ▸ hgood cached e hs⟩
  · rw [if_neg hmat]
    exact .inl rfl

theorem good_open (shardId : Uuid) :
    Good (⟨some (shardId, s.entries.length), s.entries ++ [⟨shardId, true, []⟩]⟩ : Shared V) := by
  intro shardId' e hs
  cases hs
  change ((s.entries ++ [_])[s.entries.length]?).map Entry.shardId = _
  rw [getElem?_concat_length]
  rfl

theorem Good.setEntry (h : Good s) {entry entry' : Entry V} (hget : s.entries[e]? = some entry)
    (hs : entry'.shardId = entry.shardId) : Good (s.setEntry e entry') :=
  fun shardId e' hsl => (h shardId e' hsl).setEntry hget hs

theorem putOf_opened {entry : Entry V} {prepared : Prepared V} {failure : Option String}
    (hget : s.entries[e]? = some entry) (h : s.OpenedFor e prepared.shardId) :
    putOf entry prepared failure = ⟨prepared.shardId, prepared.batches, failure⟩ := by
  rw [Shared.OpenedFor, hget] at h
  rw [putOf, ← Option.some.inj h]

theorem mergeStep_fair {puts more : List (Put V)} {stage stage' : Stage V} {a : Action V Spec}
    (hgood : Good s) (hfair : Fair ev ids s (.merge request puts stage))
    (h : mergeStep s stage a = some (s', more, stage')) :
    Good s' ∧ Fair ev ids s' (.merge request (puts ++ more) stage') ∧
      ∀ e shardId, s.OpenedFor e shardId → s'.OpenedFor e shardId := by
  rw [mergeStep.eq_def] at h
  split at h
  · obtain ⟨hp, rfl⟩ := hfair
    split at h
    · rename_i hs
      cases h
      exact ⟨hgood, useCached_fair hgood hp hs, fun _ _ h => h⟩
    · cases h
      exact ⟨hgood, ⟨hp, rfl⟩, fun _ _ h => h⟩
  · obtain ⟨hp, rfl⟩ := hfair
    split at h
    · rename_i hs
      cases h
      exact ⟨hgood, useCached_fair hgood hp hs, fun _ _ h => h⟩
    · cases h
      exact ⟨good_open _, ⟨hp, rfl, good_open _ _ _ rfl⟩, fun _ _ h => h.append _ _⟩
  · obtain ⟨hp, rfl⟩ := hfair
    split at h
    · cases h
    · cases h
      exact ⟨hgood, .inl rfl, fun _ _ h => h⟩
  · obtain ⟨hp, rfl, hop⟩ := hfair
    obtain ⟨entry, hent, h⟩ := bind_eq_some_iff.1 h
    split_ifs at h
    · cases h
      refine ⟨hgood.setEntry hent rfl, .inr ⟨_, hp, rfl, ?_⟩,
        fun _ _ h => h.setEntry hent rfl⟩
      rw [nil_append, putOf_opened hent hop]
    · cases h
      exact ⟨hgood, .inl rfl, fun _ _ h => h⟩
  · obtain ⟨hp, rfl, hop⟩ := hfair
    obtain ⟨entry, hent, h⟩ := bind_eq_some_iff.1 h
    split_ifs at h
    cases h
    refine ⟨hgood.setEntry hent rfl, .inr ⟨_, _, hp, rfl, ?_⟩,
      fun _ _ h => h.setEntry hent rfl⟩
    rw [nil_append, putOf_opened hent hop]
  · cases h

theorem begin_fair (request : Request V Spec) :
    Fair ev ids s (.merge request [] (begin ev ids request)) := by
  rw [begin]
  cases hp : prepare ev ids request with
  | error e => exact .inl rfl
  | ok result =>
    cases result with
    | none => exact .inl ⟨hp, rfl, rfl⟩
    | some prepared => exact ⟨hp, rfl⟩

/-- **A step keeps the invariant.** -/
theorem keeps : (machine ev ids).Keeps Condition.any Good fun _ s call => Fair ev ids s call := by
  intro c i a s' t' o hs _ hc
  have hgood := hc.shared
  have hfair := hc.thread i
  -- the other calls only look at the shards of entries
  suffices h : Good s' ∧ Fair ev ids s' t' ∧
      ∀ e shardId, c.shared.OpenedFor e shardId → s'.OpenedFor e shardId from
    ⟨h.1, h.2.1, fun k _ hk => hk.mono h.2.2⟩
  generalize ht : c.thread i = call at hs hfair
  simp only [machine] at hs
  split at hs
  · cases hs
    exact ⟨hgood, begin_fair _, fun _ _ h => h⟩
  · obtain ⟨⟨s₁, more, stage'⟩, hmrg, hs⟩ := map_eq_some_iff.1 hs
    cases hs
    exact mergeStep_fair hgood hfair hmrg
  · cases hs
    exact ⟨hgood, trivial, fun _ _ h => h⟩
  · split at hs
    · cases hs
      exact ⟨nofun, trivial, fun _ _ h => h⟩
    · cases hs
      exact ⟨hgood, trivial, fun _ _ h => h⟩
  · obtain ⟨entry, hent, hs⟩ := bind_eq_some_iff.1 hs
    cases hs
    exact ⟨hgood.setEntry hent rfl, trivial, fun _ _ h => h.setEntry hent rfl⟩
  · cases hs

end Invariant

/-! ### One put -/

/-- The start of a session. -/
def start : Config (Shared V) (Call V Spec) := ⟨⟨none, []⟩, fun _ => .idle⟩

/-- The put is one of the whole request: all batches with rows, in the schema of the table, to a
writer of the shard that every row belongs to. -/
structure Complete (ev : Evaluator V Spec) (ids : ShardIds) (request : Request V Spec)
    (put : Put V) : Prop where
  input : ∀ item ∈ request.newData, ∃ batch, item = .ok batch
  batches : List.Forall₂ (Aligned request.target) (withRows request.newData) put.batches
  shard : ∀ batch ∈ put.batches, ∀ k < batch.numRows,
    resolveBatchShard ev ids request.mode (batch.row k) true = .ok put.shardId

theorem prepare_ne_some {ev : Evaluator V Spec} {ids : ShardIds}
    (hval : request.validateSingleShard = true) {b₁ b₂ a₁ a₂ : Batch V}
    (h₁ : b₁ ∈ withRows request.newData) (h₂ : b₂ ∈ withRows request.newData)
    (ha₁ : alignBatchSchema request.target b₁ = .ok a₁)
    (ha₂ : alignBatchSchema request.target b₂ = .ok a₂) {k₁ k₂ : ℕ} (hk₁ : k₁ < a₁.numRows)
    (hk₂ : k₂ < a₂.numRows) (hne : resolveBatchShard ev ids request.mode (a₁.row k₁) true ≠
    resolveBatchShard ev ids request.mode (a₂.row k₂) true) (prepared : Prepared V) :
    prepare ev ids request ≠ .ok (some prepared) := by
  intro h
  obtain ⟨-, hall, -, hsh⟩ := prepare_some hval h
  have hmem : ∀ {b a}, b ∈ withRows request.newData → alignBatchSchema request.target b = .ok a →
      a ∈ prepared.batches := by
    intro b a hb ha
    obtain ⟨a', ha', hal⟩ := exists_mem_of_forall₂ hall hb
    rw [ha] at hal
    rwa [Except.ok.inj hal]
  exact hne ((hsh a₁ (hmem h₁ ha₁) k₁ hk₁).trans (hsh a₂ (hmem h₂ ha₂) k₂ hk₂).symm)

/-- **A MemWAL `merge_insert` is all or nothing**, whatever the other calls do: it puts nothing, or
it puts once, all its rows, to a writer of the shard they all belong to, and returns their number,
or the error of the put.  With rows of two shards it puts nothing. -/
theorem merge_insert_one_put {ev : Evaluator V Spec} {ids : ShardIds} {es : List (ℕ × Empty)}
    {c : Config (Shared V) (Call V Spec)} (h : (machine ev ids).Run Condition.any start es c)
    {i : ℕ} {request : Request V Spec} {puts : List (Put V)} {stage : Stage V}
    (hcall : c.thread i = .merge request puts stage)
    (hvalidate : request.validateSingleShard = true) :
    ((puts = [] ∧ ∀ n, stage = .returned (.ok n) →
        n = 0 ∧ totalRows (withRows request.newData) = 0) ∨
      ∃ put, puts = [put] ∧ Complete ev ids request put ∧ stage = .returned (match put.failure with
        | none => .ok (totalRows (withRows request.newData))
        | some message => .error (putFailed message))) ∧
    ∀ b₁ ∈ withRows request.newData, ∀ b₂ ∈ withRows request.newData, ∀ a₁ a₂,
      alignBatchSchema request.target b₁ = .ok a₁ → alignBatchSchema request.target b₂ = .ok a₂ →
      ∀ k₁ < a₁.numRows, ∀ k₂ < a₂.numRows,
        resolveBatchShard ev ids request.mode (a₁.row k₁) true ≠
          resolveBatchShard ev ids request.mode (a₂.row k₂) true → puts = [] := by
  have hsta : Holds Good (fun _ s call => Fair ev ids s call)
      (start : Config (Shared V) (Call V Spec)) := ⟨nofun, fun _ => trivial⟩
  have hfair := (h.invariants keeps hsta).thread i
  rw [hcall] at hfair
  obtain ⟨hputs, hz⟩ | ⟨prepared, failure, hprep, hputs, rfl⟩ := hfair.cases
  · refine ⟨.inl ⟨hputs, fun n hn => ?_⟩, ?_⟩
    · exact ⟨(hz n hn).2, prepare_none hvalidate (hz n hn).1⟩
    · intros
      exact hputs
  · obtain ⟨hok, hall, htot, hsh⟩ := prepare_some hvalidate hprep
    refine ⟨.inr ⟨_, hputs, ⟨hok, hall.imp fun _ _ => aligned_of_align, hsh⟩, ?_⟩, ?_⟩
    · rw [← htot]
      cases failure <;> rfl
    · intro b₁ h₁ b₂ h₂ a₁ a₂ ha₁ ha₂ k₁ hk₁ k₂ hk₂ hne
      exact absurd hprep (prepare_ne_some hvalidate h₁ h₂ ha₁ ha₂ hk₁ hk₂ hne prepared)

/-- The bucket of a row is the parity of its first column. -/
def demoEvaluator : Evaluator ℤ Unit where
  evaluate _ batch := .ok [⟨.int32, (batch.columns.headD (List.replicate batch.numRows none)).map
    fun value => ⟨.int (value.getD 0 % 2), value.isNone⟩⟩]
  length_cells := by
    intro spec batch columns h values hvals
    cases h
    obtain rfl := mem_singleton.1 hvals
    rw [length_map]
    cases hcols : batch.columns with
    | nil => exact length_replicate
    | cons column rest => exact batch.length_of_mem column (hcols ▸ mem_cons_self)
  evaluate_row := by
    intro spec batch columns k h hk
    cases h
    have hone : min 1 (batch.numRows - k) = 1 := by omega
    cases hcols : batch.columns with
    | nil => simp [Batch.slice, ShardValues.row, hcols, hone]
    | cons column rest => simp [Batch.slice, ShardValues.row, hcols, map_take]

def demoIds : ShardIds := ⟨fun name => String.join (name.map fun byte => s!"{byte.toNat}.")⟩

def demoSchema : Schema := ⟨[⟨"id", .int64, false, []⟩], []⟩

def demoBatch (values : List ℤ) : Batch ℤ :=
  ⟨demoSchema, [values.map some], values.length, rfl, by simp⟩

/-- Two batches of odd numbers, with an empty one between them. -/
def demoRequest : Request ℤ Unit :=
  ⟨.bucket (), demoSchema, [.ok (demoBatch [1, 3]), .ok (demoBatch []), .ok (demoBatch [5])], true⟩

/-- Another call closes the writers before this one looks for its writer. -/
def demoSchedule : List (ℕ × Action ℤ Unit) :=
  [(0, .mergeInsert demoRequest), (1, .drainAndClose), (1, .next), (0, .next), (0, .next),
    (0, .next)]

def demo : Config (Shared ℤ) (Call ℤ Unit) :=
  (machine demoEvaluator demoIds).after start demoSchedule

/-- What the call has put. -/
def demoPut (failure : Option String) : Put ℤ :=
  ⟨demoIds.bucketShardId 1, [demoBatch [1, 3], demoBatch [5]], failure⟩

theorem merge_insert_one_put_demo :
    demo.thread 0 = .merge demoRequest [demoPut none] (.returned (.ok 3)) ∧
      Complete demoEvaluator demoIds demoRequest (demoPut none) := by
  have hrun : (machine demoEvaluator demoIds).Run Condition.any start [] demo :=
    Machine.run_after (by decide +kernel)
  have hc : demo.thread 0 = .merge demoRequest [demoPut none] (.returned (.ok 3)) := by
    decide +kernel
  obtain ⟨hputs, -⟩ | ⟨put, hput, hcompl, -⟩ := (merge_insert_one_put hrun hc rfl).1
  · cases hputs
  · cases hput
    exact ⟨hc, hcompl⟩

/-- The put of the call fails. -/
theorem merge_insert_put_fails : ∃ c, (machine demoEvaluator demoIds).Run Condition.any start [] c ∧
    c.thread 0 =
      .merge demoRequest [demoPut (some "fenced")] (.returned (.error (putFailed "fenced"))) :=
  ⟨(machine demoEvaluator demoIds).after start (demoSchedule.take 5 ++ [(0, .fail "fenced")]),
    Machine.run_after (by decide +kernel), by decide +kernel⟩

end Lsm

end LanceDB
