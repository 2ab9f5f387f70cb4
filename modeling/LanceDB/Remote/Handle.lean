import LanceDB.Cache.Background
import Mathlib.Order.Nat

/-!
# The handle of a remote table

A `RemoteTable` selects the latest version or a fixed one.  Its requests carry headers that say how
fresh the answer has to be: at least the version of the last write on the handle, at least the
versions that earlier answers have advertised, and at least what was committed at the time of the
last `checkout_latest`.  A checkout replaces the state that these headers come from.  It advances
its generation, so that the answers of older requests do not count any more.

The schema is cached.  A fetch of the schema checks at its end that the generation is still the one
it was started with.

* `FreshnessState`, `FreshnessHeaders` : the state and the headers of a request.
* `Meets` : the versions that a node of the server may serve for such headers.
* `handleMachine` : the steps of writes, reads, checkouts and `schema` calls on one handle.
* `Handle.Moves`, `handle_cases` — what a step does to the handle.
-/

namespace LanceDB.Remote

open Machine Option

/-! ### Freshness -/

/-- Times are counted from the earliest one that a `SystemTime` can have. -/
structure FreshnessState where
  /-- Advanced by every checkout. -/
  generation : ℕ
  pinned : Bool
  minVersion : Option ℕ
  minReadVersion : Option ℕ
  checkoutBaseline : Option ℕ
  deriving DecidableEq

/-- The headers of a request. -/
structure FreshnessHeaders where
  generation : ℕ
  minVersion : Option ℕ
  minTimestamp : Option ℕ
  minReadVersion : Option ℕ
  deriving DecidableEq

/-- The version that a read selects, `none` for the latest one, and its headers. -/
structure ReadSnapshot where
  version : Option ℕ
  freshness : FreshnessHeaders
  deriving DecidableEq

/-- `state.min_version.map_or(version, |v| v.max(version))`. -/
def raise (known : Option ℕ) (version : ℕ) : Option ℕ :=
  some (match known with
    | none => version
    | some v => max v version)

namespace FreshnessState

variable (st : FreshnessState)

/-- `compute_min_timestamp`. -/
def computeMinTimestamp (interval : Option ℕ) (now : ℕ) : Option ℕ :=
  let intervalBased := interval.map fun d => if d ≤ now then now - d else now
  match intervalBased, st.checkoutBaseline with
  | none, none => none
  | some t, none | none, some t => some t
  | some a, some b => some (max a b)

/-- `freshness_headers_snapshot`.  A pinned handle sends no constraints. -/
def headers (interval : Option ℕ) (now : ℕ) : FreshnessHeaders :=
  if st.pinned then ⟨st.generation, none, none, none⟩
  else ⟨st.generation, st.minVersion, st.computeMinTimestamp interval now, st.minReadVersion⟩

/-- `track_write_version`. -/
def trackWriteVersion (request : FreshnessHeaders) (version : ℕ) : FreshnessState :=
  if version = 0 then st
  else if st.generation = request.generation then
    { st with minVersion := raise st.minVersion version }
  else st

/-- `track_read_version_for_generation`. -/
def trackReadVersion (request : FreshnessHeaders) (version : ℕ) : FreshnessState :=
  if version = 0 then st
  else if st.generation = request.generation then
    { st with minReadVersion := raise st.minReadVersion version }
  else st

/-- `reset_freshness`. -/
def reset (checkoutBaseline : Option ℕ) (pinned : Bool) : FreshnessState :=
  ⟨st.generation + 1, pinned, none, none, checkoutBaseline⟩

@[simp] theorem trackReadVersion_keeps (request : FreshnessHeaders) (version : ℕ) :
    (st.trackReadVersion request version).generation = st.generation ∧
      (st.trackReadVersion request version).pinned = st.pinned ∧
      (st.trackReadVersion request version).checkoutBaseline = st.checkoutBaseline := by
  unfold trackReadVersion
  split_ifs <;> exact ⟨rfl, rfl, rfl⟩

@[simp] theorem trackWriteVersion_keeps (request : FreshnessHeaders) (version : ℕ) :
    (st.trackWriteVersion request version).generation = st.generation ∧
      (st.trackWriteVersion request version).pinned = st.pinned ∧
      (st.trackWriteVersion request version).checkoutBaseline = st.checkoutBaseline := by
  unfold trackWriteVersion
  split_ifs <;> exact ⟨rfl, rfl, rfl⟩

@[simp] theorem generation_headers (interval : Option ℕ) (now : ℕ) :
    (st.headers interval now).generation = st.generation := by
  unfold headers
  split_ifs <;> rfl

variable {st} in
/-- Reads ask for what was committed at the last `checkout_latest`. -/
theorem le_computeMinTimestamp (interval : Option ℕ) (now : ℕ) {b : ℕ}
    (h : st.checkoutBaseline = some b) : ∃ b' ∈ st.computeMinTimestamp interval now, b ≤ b' := by
  rw [computeMinTimestamp, h]
  cases interval with
  | none => exact ⟨b, rfl, le_rfl⟩
  | some d => exact ⟨_, rfl, le_max_right ..⟩

end FreshnessState

/-- The times of the commits of versions `1`, `2`, … -/
abbrev Commits := List ℕ

/-- A node may serve a version for a read: the selected one, or one that includes what the headers
ask for. -/
def Meets (commits : Commits) (snapshot : ReadSnapshot) (served : ℕ) : Prop :=
  match snapshot.version with
  | some version => served = version
  | none =>
    (∀ v ∈ snapshot.freshness.minVersion, v ≤ served) ∧
      (∀ v ∈ snapshot.freshness.minReadVersion, v ≤ served) ∧
      ∀ t ∈ snapshot.freshness.minTimestamp,
        ∀ k (hk : k < commits.length), commits[k] ≤ t → k + 1 ≤ served

instance (commits : Commits) (snapshot : ReadSnapshot) (served : ℕ) :
    Decidable (Meets commits snapshot served) := by
  unfold Meets
  split <;> infer_instance

/-! ### The handle -/

/-- A schema, by the version it is of and the snapshot it was fetched with. -/
structure Described where
  version : ℕ
  snapshot : ReadSnapshot
  deriving DecidableEq

inductive SchemaError
  /-- `SCHEMA_SELECTOR_CHANGED`. -/
  | selectorChanged
  | other
  deriving DecidableEq

/-- A fetch of the schema: what it was started with, and what it will return. -/
structure Describe where
  snapshot : ReadSnapshot
  result : Option (Except SchemaError Described)

/-- What the calls on a handle share, with the commits of the table on the server. -/
structure Handle where
  version : Option ℕ
  /-- A checkout holds the write lock of `version`. -/
  locked : Bool
  freshness : FreshnessState
  schemaCache : Cache Described SchemaError
  /-- The fetches of the schema cache. -/
  describes : ℕ → Option Describe
  commits : Commits
  now : ℕ

/-- `update` and `delete` send the headers they have captured.  `add` and `merge_insert` run a plan
that captures its own headers for every request, and may run it again. -/
inductive WriteKind
  | direct
  | planned
  deriving DecidableEq

/-- Where a call is. -/
inductive HandleCall
  | idle
  | writeStart (kind : WriteKind)
  /-- `check_mutable` has passed. -/
  | writeChecked (kind : WriteKind)
  /-- The headers that the write will be tracked with are captured. -/
  | writeReady (kind : WriteKind) (request : FreshnessHeaders)
  | writing (kind : WriteKind) (request sent : FreshnessHeaders)
  /-- The server has executed the request. -/
  | answered (request sent : FreshnessHeaders) (version : ℕ)
  /-- The version that the answer advertises is tracked. -/
  | observed (request : FreshnessHeaders) (version : ℕ)
  | readStart
  | reading (snapshot : ReadSnapshot)
  | schemaStart
  | schemaSnapshot (snapshot : ReadSnapshot)
  /-- `try_get` had nothing fresh. -/
  | schemaTried (snapshot : ReadSnapshot)
  /-- Neither had the fast path of the cache. -/
  | schemaSlow (snapshot : ReadSnapshot)
  | schemaWaiting (future : ℕ)
  /-- `checkout`, before the version is validated. -/
  | checkoutStart (version : ℕ)
  | checkoutValid (version : ℕ)
  | latestStart
  /-- The write lock is held; the freshness is reset and the version is set. -/
  | selecting (version : Option ℕ)
  /-- The schema cache is invalidated. -/
  | selected (version : Option ℕ)
  deriving DecidableEq

/-- What can happen. -/
inductive HandleStep
  | write (kind : WriteKind)
  | read
  | schema
  | checkout (version : ℕ)
  | checkoutLatest
  /-- A call moves on.  If it awaits an answer of the server, this is the version in it, `0` if it
  has none. -/
  | next (answer : ℕ)
  /-- A request fails. -/
  | fail
  /-- A request fails and its plan is run again. -/
  | retry
  /-- The request of a fetch is answered, or fails. -/
  | describe (future : ℕ) (answer : Option ℕ)
  /-- A fetch completes. -/
  | finish (future : ℕ)
  /-- The task of a fetch runs. -/
  | task (future : ℕ)
  /-- Another call invalidates the schema cache. -/
  | invalidate
  /-- Someone else commits. -/
  | commit
  | tick (duration : ℕ)

/-- What a caller sees. -/
inductive HandleEvent
  | writeReturned (version : ℕ)
  /-- The snapshot of a read. -/
  | readIssued (version : Option ℕ)
  | readReturned (version : Option ℕ) (served : ℕ)
  | checkoutReturned (version : Option ℕ)
  | schemaStarted
  | schemaReturned (schema : Described)
  | schemaRetried
  | failed
  deriving DecidableEq

/-- What a step leads to. -/
abbrev HandleOutcome := Handle × HandleCall × Option HandleEvent

section Machine

variable (policy : CachePolicy) (interval : Option ℕ)

/-- `snapshot_read_state`. -/
def Handle.readSnapshot (s : Handle) : ReadSnapshot :=
  ⟨s.version, s.freshness.headers interval s.now⟩

/-- The steps of `add`, `update`, `delete` and `merge_insert`.  An old server does not report the
version of a write. -/
def writeNext (s : Handle) (answer : ℕ) : HandleCall → Option HandleOutcome
  | .writeStart kind =>
    if s.locked then none
    else if s.version = none then some (s, .writeChecked kind, none)
    else some (s, .idle, some .failed)
  | .writeChecked kind => some (s, .writeReady kind (s.freshness.headers interval s.now), none)
  | .writeReady .direct request => some (s, .writing .direct request request, none)
  | .writeReady .planned request =>
    some (s, .writing .planned request (s.freshness.headers interval s.now), none)
  | .writing _ request sent =>
    some ({ s with commits := s.commits ++ [s.now] },
      .answered request sent (if answer = 0 then 0 else s.commits.length + 1), none)
  | .answered request sent version =>
    some ({ s with freshness := s.freshness.trackReadVersion sent answer },
      .observed request version, none)
  | .observed request version =>
    some ({ s with freshness := s.freshness.trackWriteVersion request version },
      .idle, some (.writeReturned version))
  | _ => none

/-- The steps of a read. -/
def readNext (s : Handle) (answer : ℕ) : HandleCall → Option HandleOutcome
  | .readStart =>
    if s.locked then none
    else some (s, .reading (s.readSnapshot interval), some (.readIssued s.version))
  | .reading snapshot =>
    if Meets s.commits snapshot answer then
      some ({ s with freshness := s.freshness.trackReadVersion snapshot.freshness answer },
        .idle, some (.readReturned snapshot.version answer))
    else none
  | _ => none

/-- The slow path of the cache: a fetch that it starts gets the snapshot of the call. -/
def Handle.getSchema (s : Handle) (snapshot : ReadSnapshot) : Handle :=
  let cache := (s.schemaCache.determineAction policy s.now).1
  { s with
    schemaCache := cache
    describes :=
      if cache.fetches.length = s.schemaCache.fetches.length then s.describes
      else Function.update s.describes s.schemaCache.fetches.length (some ⟨snapshot, none⟩) }

/-- The steps of `schema`. -/
def schemaNext (s : Handle) : HandleCall → Option HandleOutcome
  | .schemaStart =>
    if s.locked then none else some (s, .schemaSnapshot (s.readSnapshot interval), none)
  | .schemaSnapshot snapshot =>
    match s.schemaCache.state.freshValue policy s.now with
    | some schema => some (s, .idle, some (.schemaReturned schema))
    | none => some (s, .schemaTried snapshot, none)
  | .schemaTried snapshot =>
    match s.schemaCache.state.freshValue policy s.now with
    | some schema => some (s, .idle, some (.schemaReturned schema))
    | none => some (s, .schemaSlow snapshot, none)
  | .schemaSlow snapshot =>
    match (s.schemaCache.determineAction policy s.now).2 with
    | .value schema =>
      some (s.getSchema policy snapshot, .idle, some (.schemaReturned schema))
    | .wait future => some (s.getSchema policy snapshot, .schemaWaiting future, none)
  | .schemaWaiting future =>
    match s.schemaCache.peek future with
    | some (.ok schema) => some (s, .idle, some (.schemaReturned schema))
    | some (.error .selectorChanged) => some (s, .schemaStart, some .schemaRetried)
    | some (.error .other) => some (s, .idle, some .failed)
    | none => none
  | _ => none

/-- A checkout takes the write lock, resets the freshness and sets the version, which nobody can
read before the lock is released. -/
def Handle.select (s : Handle) (version baseline : Option ℕ) : Handle :=
  { s with
    version := version
    locked := true
    freshness := s.freshness.reset baseline version.isSome }

/-- The steps of `checkout` and `checkout_latest`. -/
def checkoutNext (s : Handle) : HandleCall → Option HandleOutcome
  | .checkoutStart version => some (s, .checkoutValid version, none)
  | .checkoutValid version =>
    if s.locked then none
    else some (s.select (some version) none, .selecting (some version), none)
  | .latestStart =>
    if s.locked then none else some (s.select none (some s.now), .selecting none, none)
  | .selecting version =>
    some ({ s with schemaCache := s.schemaCache.invalidate }, .selected version, none)
  | .selected version => some ({ s with locked := false }, .idle, some (.checkoutReturned version))
  | _ => none

/-- A call moves on. -/
def handleNext (s : Handle) (answer : ℕ) (call : HandleCall) : Option HandleOutcome :=
  match call with
  | .idle => none
  | .writeStart _ | .writeChecked _ | .writeReady .. | .writing .. | .answered .. | .observed .. =>
    writeNext interval s answer call
  | .readStart | .reading _ => readNext interval s answer call
  | .schemaStart | .schemaSnapshot _ | .schemaTried _ | .schemaSlow _ | .schemaWaiting _ =>
    schemaNext policy interval s call
  | .checkoutStart _ | .checkoutValid _ | .latestStart | .selecting _ | .selected _ =>
    checkoutNext s call

/-- What a fetch will return is decided. -/
def Handle.decided (s : Handle) (future : ℕ) (snapshot : ReadSnapshot)
    (result : Except SchemaError Described) : Handle :=
  { s with describes := Function.update s.describes future (some ⟨snapshot, some result⟩) }

/-- The result of a fetch that was answered, by `is_current`. -/
def Handle.schemaOf (s : Handle) (snapshot : ReadSnapshot) (version : ℕ) :
    Except SchemaError Described :=
  if s.freshness.generation = snapshot.freshness.generation then .ok ⟨version, snapshot⟩
  else .error .selectorChanged

/-- `fetch_schema`, from the answer to its request on. -/
def fetchSchema (s : Handle) (future : ℕ) (answer : Option ℕ) : Option Handle :=
  match s.describes future with
  | some ⟨snapshot, none⟩ =>
    match answer with
    | none => some (s.decided future snapshot (.error .other))
    | some version =>
      if Meets s.commits snapshot version then
        some { s.decided future snapshot (s.schemaOf snapshot version) with
          freshness := s.freshness.trackReadVersion snapshot.freshness version }
      else none
  | _ => none

/-- A fetch completes with what was decided. -/
def finishFetch (s : Handle) (future : ℕ) : Option Handle :=
  match s.describes future, s.schemaCache.fetches[future]? with
  | some ⟨_, some result⟩, some ⟨_, none, _⟩ =>
    some { s with schemaCache := s.schemaCache.complete s.now future result }
  | _, _ => none

/-- The task of a fetch runs. -/
def fetchTask (s : Handle) (future : ℕ) : Option Handle :=
  match s.schemaCache.fetches[future]? with
  | some ⟨generation, some (result, time), false⟩ =>
    some { s with
      schemaCache :=
        s.schemaCache.runTask s.now future ⟨generation, some (result, time), false⟩ result }
  | _ => none

/-- A call starts. -/
def handleStart : HandleStep → Option (HandleCall × Option HandleEvent)
  | .write kind => some (.writeStart kind, none)
  | .read => some (.readStart, none)
  | .schema => some (.schemaStart, some .schemaStarted)
  | .checkout version => some (.checkoutStart version, none)
  | .checkoutLatest => some (.latestStart, none)
  | _ => none

/-- A request of a call fails. -/
def handleFails : HandleCall → Option (HandleCall × Option HandleEvent)
  | .writing .. | .answered .. | .observed .. | .reading _ | .checkoutStart _ =>
    some (.idle, some .failed)
  | _ => none

/-- The calls on one handle. -/
def handleMachine : Machine Handle HandleCall HandleStep HandleEvent where
  step s call
    | .next answer => handleNext policy interval s answer call
    | .fail => (handleFails call).map fun (call', event) => (s, call', event)
    | .retry =>
      match call with
      | .writing .planned request _ => some (s, .writeReady .planned request, none)
      | _ => none
    | .describe future answer => (fetchSchema s future answer).map (·, call, none)
    | .finish future => (finishFetch s future).map (·, call, none)
    | .task future => (fetchTask s future).map (·, call, none)
    | .invalidate => some ({ s with schemaCache := s.schemaCache.invalidate }, call, none)
    | .commit => some ({ s with commits := s.commits ++ [s.now] }, call, none)
    | .tick duration => some ({ s with now := s.now + duration }, call, none)
    | step =>
      if call = .idle then (handleStart step).map fun (call', event) => (s, call', event) else none

/-- `FreshnessState::default`. -/
def FreshnessState.fresh : FreshnessState := ⟨0, false, none, none, none⟩

/-- A handle that has just been opened, or the handle of a snapshot, which is for a fixed version
but not pinned.  Both may have a schema in the cache; an opened handle tracks the version of it. -/
def newHandle (commits : Commits) (now : ℕ) (version : Option ℕ) (seed : Option Described) :
    Config Handle HandleCall where
  shared :=
    { version := version
      locked := false
      freshness :=
        match version, seed with
        | none, some schema =>
          FreshnessState.fresh.trackReadVersion (FreshnessState.fresh.headers none now)
            schema.version
        | _, _ => FreshnessState.fresh
      schemaCache := ⟨seed.elim .empty (.current · now), 0, []⟩
      describes := fun _ => none
      commits := commits
      now := now }
  thread := fun _ => .idle

/-- Handles whose cache keeps a schema for half a minute, without a consistency interval. -/
abbrev defaultMachine := handleMachine ⟨30, 5, by decide⟩ none

end Machine

/-! ### What a step does -/

section Steps

variable (policy : CachePolicy) (interval : Option ℕ)

/-- The call holds the write lock of the version. -/
def HandleCall.Holds : HandleCall → Prop
  | .selecting _ | .selected _ => True
  | _ => False

/-- The call has learnt nothing yet that matters to what it returns. -/
def HandleCall.Plain : HandleCall → Prop
  | .idle | .writeStart _ | .writeChecked _ | .writeReady .. | .writing .. | .readStart |
    .schemaStart | .checkoutStart _ | .checkoutValid _ | .latestStart => True
  | _ => False

/-- A step of the call takes the write lock. -/
def HandleCall.Switches : HandleCall → Prop
  | .checkoutValid _ | .latestStart => True
  | _ => False

/-- What a step of a call does to the handle. -/
inductive Moves (call : HandleCall) : Handle → Handle → Prop
  | same {s} : Moves call s s
  | commit {s} : Moves call s { s with commits := s.commits ++ [s.now] }
  | tick {s} (duration : ℕ) : Moves call s { s with now := s.now + duration }
  /-- An answer advertises a version. -/
  | observe {s} (request : FreshnessHeaders) (version : ℕ) :
    Moves call s { s with freshness := s.freshness.trackReadVersion request version }
  /-- A write returns. -/
  | track {s} (request : FreshnessHeaders) (version : ℕ) :
    Moves call s { s with freshness := s.freshness.trackWriteVersion request version }
  /-- A checkout resets the freshness. -/
  | select {s} (version : Option ℕ) {baseline : Option ℕ} :
    s.locked = false → baseline = (if version.isSome then none else some s.now) →
    Moves call s (s.select version baseline)
  | invalidate {s} : Moves call s { s with schemaCache := s.schemaCache.invalidate }
  | release {s} : Moves call s { s with locked := false }
  /-- A `schema` call takes the slow path of the cache. -/
  | get {s} {snapshot : ReadSnapshot} : call = .schemaSlow snapshot →
    Moves call s (s.getSchema policy snapshot)
  /-- A fetch has been answered. -/
  | answer {s} {future version : ℕ} {snapshot : ReadSnapshot} :
    s.describes future = some ⟨snapshot, none⟩ → Meets s.commits snapshot version →
    Moves call s { s.decided future snapshot (s.schemaOf snapshot version) with
      freshness := s.freshness.trackReadVersion snapshot.freshness version }
  /-- The request of a fetch has failed. -/
  | fail {s} {future : ℕ} {snapshot : ReadSnapshot} :
    s.describes future = some ⟨snapshot, none⟩ →
    Moves call s (s.decided future snapshot (.error .other))
  | finish {s} {future : ℕ} {snapshot : ReadSnapshot} {result : Except SchemaError Described} :
    s.describes future = some ⟨snapshot, some result⟩ →
    Moves call s { s with schemaCache := s.schemaCache.complete s.now future result }
  | task {s} {future t : ℕ} {fetch : Fetch Described SchemaError}
      {result : Except SchemaError Described} :
    s.schemaCache.fetches[future]? = some fetch → fetch.result = some (result, t) →
    Moves call s { s with schemaCache := s.schemaCache.runTask s.now future fetch result }

/-- What the call does that takes a step. -/
inductive Acts (s s' : Handle) : HandleCall → HandleCall → Option HandleEvent → Prop
  /-- The step is not one of the call. -/
  | stay (call : HandleCall) : s'.locked = s.locked →
    s'.freshness.generation = s.freshness.generation → Acts s s' call call none
  /-- It starts, fails, or prepares a request. -/
  | plain {call call' : HandleCall} {event : Option HandleEvent} : s' = s → ¬ call.Holds →
    call'.Plain → (event = none ∨ event = some .failed ∨ event = some .schemaStarted) →
    Acts s s' call call' event
  | committed {kind : WriteKind} {request sent : FreshnessHeaders} {version : ℕ} :
    s' = { s with commits := s.commits ++ [s.now] } →
    (version = 0 ∨ version = s.commits.length + 1) →
    Acts s s' (.writing kind request sent) (.answered request sent version) none
  | observed {request sent : FreshnessHeaders} {version advertised : ℕ} :
    s' = { s with freshness := s.freshness.trackReadVersion sent advertised } →
    Acts s s' (.answered request sent version) (.observed request version) none
  | written {request : FreshnessHeaders} {version : ℕ} :
    s' = { s with freshness := s.freshness.trackWriteVersion request version } →
    Acts s s' (.observed request version) .idle (some (.writeReturned version))
  | issued : s' = s → s.locked = false →
    Acts s s' .readStart (.reading (s.readSnapshot interval)) (some (.readIssued s.version))
  | returned {snapshot : ReadSnapshot} {served : ℕ} :
    s' = { s with freshness := s.freshness.trackReadVersion snapshot.freshness served } →
    Meets s.commits snapshot served →
    Acts s s' (.reading snapshot) .idle (some (.readReturned snapshot.version served))
  | snapshot : s' = s → s.locked = false →
    Acts s s' .schemaStart (.schemaSnapshot (s.readSnapshot interval)) none
  | tried {snapshot : ReadSnapshot} : s' = s →
    Acts s s' (.schemaSnapshot snapshot) (.schemaTried snapshot) none
  | missed {snapshot : ReadSnapshot} : s' = s →
    Acts s s' (.schemaTried snapshot) (.schemaSlow snapshot) none
  /-- It returns what `try_get` or the fast path of the cache has. -/
  | fresh {call : HandleCall} {schema : Described} : s' = s → ¬ call.Holds →
    s.schemaCache.state.freshValue policy s.now = some schema →
    Acts s s' call .idle (some (.schemaReturned schema))
  | value {snapshot : ReadSnapshot} {schema : Described} : s' = s.getSchema policy snapshot →
    (s.schemaCache.determineAction policy s.now).2 = .value schema →
    Acts s s' (.schemaSlow snapshot) .idle (some (.schemaReturned schema))
  | wait {snapshot : ReadSnapshot} {future : ℕ} : s' = s.getSchema policy snapshot →
    (s.schemaCache.determineAction policy s.now).2 = .wait future →
    Acts s s' (.schemaSlow snapshot) (.schemaWaiting future) none
  | waited {future : ℕ} {schema : Described} : s' = s →
    s.schemaCache.peek future = some (.ok schema) →
    Acts s s' (.schemaWaiting future) .idle (some (.schemaReturned schema))
  | again {future : ℕ} : s' = s →
    s.schemaCache.peek future = some (.error .selectorChanged) →
    Acts s s' (.schemaWaiting future) .schemaStart (some .schemaRetried)
  | selecting {call : HandleCall} {version baseline : Option ℕ} : call.Switches →
    s.locked = false → s' = s.select version baseline →
    Acts s s' call (.selecting version) none
  | selected {version : Option ℕ} : s' = { s with schemaCache := s.schemaCache.invalidate } →
    Acts s s' (.selecting version) (.selected version) none
  | released {version : Option ℕ} : s' = { s with locked := false } →
    Acts s s' (.selected version) .idle (some (.checkoutReturned version))

/-- What a step does, to the handle and to the call that takes it. -/
abbrev Does (s s' : Handle) (call call' : HandleCall) (event : Option HandleEvent) : Prop :=
  Moves policy call s s' ∧ Acts policy interval s s' call call' event

variable {policy interval} {s s' : Handle} {call call' : HandleCall} {event : Option HandleEvent}

theorem writeNext_cases (answer : ℕ)
    (h : writeNext interval s answer call = some (s', call', event)) :
    Does policy interval s s' call call' event := by
  unfold writeNext at h
  split at h
  · split_ifs at h <;> cases h
    · exact ⟨.same, .plain rfl id trivial (.inl rfl)⟩
    · exact ⟨.same, .plain rfl id trivial (.inr (.inl rfl))⟩
  · cases h
    exact ⟨.same, .plain rfl id trivial (.inl rfl)⟩
  · cases h
    exact ⟨.same, .plain rfl id trivial (.inl rfl)⟩
  · cases h
    exact ⟨.same, .plain rfl id trivial (.inl rfl)⟩
  · cases h
    refine ⟨.commit, .committed rfl ?_⟩
    split_ifs <;> simp
  · cases h
    exact ⟨.observe .., .observed rfl⟩
  · cases h
    exact ⟨.track .., .written rfl⟩
  · cases h

theorem readNext_cases (answer : ℕ)
    (h : readNext interval s answer call = some (s', call', event)) :
    Does policy interval s s' call call' event := by
  unfold readNext at h
  split at h
  · split_ifs at h with hlock
    cases h
    exact ⟨.same, .issued rfl (by simpa using hlock)⟩
  · split_ifs at h with hm
    cases h
    exact ⟨.observe .., .returned rfl hm⟩
  · cases h

theorem schemaNext_cases (h : schemaNext policy interval s call = some (s', call', event)) :
    Does policy interval s s' call call' event := by
  unfold schemaNext at h
  split at h
  · split_ifs at h with hlock
    cases h
    exact ⟨.same, .snapshot rfl (by simpa using hlock)⟩
  · split at h <;> cases h
    · exact ⟨.same, .fresh rfl id ‹_›⟩
    · exact ⟨.same, .tried rfl⟩
  · split at h <;> cases h
    · exact ⟨.same, .fresh rfl id ‹_›⟩
    · exact ⟨.same, .missed rfl⟩
  · split at h <;> cases h
    · exact ⟨.get rfl, .value rfl ‹_›⟩
    · exact ⟨.get rfl, .wait rfl ‹_›⟩
  · split at h <;> cases h
    · exact ⟨.same, .waited rfl ‹_›⟩
    · exact ⟨.same, .again rfl ‹_›⟩
    · exact ⟨.same, .plain rfl id trivial (.inr (.inl rfl))⟩
  · cases h

theorem checkoutNext_cases (h : checkoutNext s call = some (s', call', event)) :
    Does policy interval s s' call call' event := by
  unfold checkoutNext at h
  split at h
  · cases h
    exact ⟨.same, .plain rfl id trivial (.inl rfl)⟩
  · split_ifs at h with hlock
    cases h
    have hf : s.locked = false := by simpa using hlock
    exact ⟨.select _ hf rfl, .selecting trivial hf rfl⟩
  · split_ifs at h with hlock
    cases h
    have hf : s.locked = false := by simpa using hlock
    exact ⟨.select _ hf rfl, .selecting trivial hf rfl⟩
  · cases h
    exact ⟨.invalidate, .selected rfl⟩
  · cases h
    exact ⟨.release, .released rfl⟩
  · cases h

theorem fetchSchema_cases {future : ℕ} {reply : Option ℕ}
    (h : fetchSchema s future reply = some s') : Does policy interval s s' call call none := by
  unfold fetchSchema at h
  split at h
  · rename_i snapshot hdesc
    split at h
    · cases h
      exact ⟨.fail hdesc, .stay _ rfl rfl⟩
    · split_ifs at h with hm
      cases h
      exact ⟨.answer hdesc hm, .stay _ rfl (FreshnessState.trackReadVersion_keeps ..).1⟩
  · cases h

theorem finishFetch_cases {future : ℕ} (h : finishFetch s future = some s') :
    Does policy interval s s' call call none := by
  unfold finishFetch at h
  split at h
  · rename_i hdesc _
    cases h
    exact ⟨.finish hdesc, .stay _ rfl rfl⟩
  · cases h

theorem fetchTask_cases {future : ℕ} (h : fetchTask s future = some s') :
    Does policy interval s s' call call none := by
  unfold fetchTask at h
  split at h
  · rename_i hfet
    cases h
    exact ⟨.task hfet rfl, .stay _ rfl rfl⟩
  · cases h

theorem handleStart_plain {step : HandleStep} (h : handleStart step = some (call', event)) :
    call'.Plain ∧ (event = none ∨ event = some .failed ∨ event = some .schemaStarted) := by
  cases step <;> cases h <;> exact ⟨trivial, by simp⟩

theorem handleFails_plain (h : handleFails call = some (call', event)) :
    ¬ call.Holds ∧ call'.Plain ∧ event = some .failed := by
  cases call <;> cases h <;> exact ⟨id, trivial, rfl⟩

/-- **What a step does.** -/
theorem handle_cases {step : HandleStep}
    (h : (handleMachine policy interval).step s call step = some (s', call', event)) :
    Does policy interval s s' call call' event := by
  have hst : ∀ step, (if call = .idle then (handleStart step).map fun (call', event) =>
      (s, call', event) else none) = some (s', call', event) →
      Does policy interval s s' call call' event := by
    intro step hs
    split_ifs at hs with hi
    obtain ⟨⟨call'', event'⟩, hstarts, ⟨⟩⟩ := map_eq_some_iff.1 hs
    obtain ⟨hp, hev⟩ := handleStart_plain hstarts
    exact ⟨.same, .plain rfl (by simp [hi, HandleCall.Holds]) hp hev⟩
  cases step with
  | next answer =>
    cases call with
    | idle => cases h
    | writeStart | writeChecked | writeReady | writing | answered | observed =>
      exact writeNext_cases answer h
    | readStart | reading => exact readNext_cases answer h
    | schemaStart | schemaSnapshot | schemaTried | schemaSlow | schemaWaiting =>
      exact schemaNext_cases h
    | checkoutStart | checkoutValid | latestStart | selecting | selected =>
      exact checkoutNext_cases h
  | fail =>
    obtain ⟨⟨call'', event'⟩, hfls, ⟨⟩⟩ := map_eq_some_iff.1 h
    obtain ⟨hf, hp, rfl⟩ := handleFails_plain hfls
    exact ⟨.same, .plain rfl hf hp (.inr (.inl rfl))⟩
  | retry =>
    simp only [handleMachine] at h
    split at h <;> cases h
    exact ⟨.same, .plain rfl id trivial (.inl rfl)⟩
  | describe future reply =>
    obtain ⟨s'', hfet, ⟨⟩⟩ := map_eq_some_iff.1 h
    exact fetchSchema_cases hfet
  | finish future =>
    obtain ⟨s'', hfet, ⟨⟩⟩ := map_eq_some_iff.1 h
    exact finishFetch_cases hfet
  | task future =>
    obtain ⟨s'', hfet, ⟨⟩⟩ := map_eq_some_iff.1 h
    exact fetchTask_cases hfet
  | invalidate =>
    cases h
    exact ⟨.invalidate, .stay _ rfl rfl⟩
  | commit =>
    cases h
    exact ⟨.commit, .stay _ rfl rfl⟩
  | tick duration =>
    cases h
    exact ⟨.tick duration, .stay _ rfl rfl⟩
  | write | read | schema | checkout | checkoutLatest => exact hst _ h

/-! ### The selector -/

/-- A step resets the freshness, or keeps what the selector is. -/
theorem Moves.selector (h : Moves policy call s s') :
    (s.locked = false ∧ ∃ version baseline, s' = s.select version baseline ∧
      ∀ b ∈ baseline, b = s.now) ∨
    (s'.freshness.generation = s.freshness.generation ∧ s'.version = s.version ∧
      s'.freshness.checkoutBaseline = s.freshness.checkoutBaseline) := by
  cases h with
  | observe | answer =>
    exact .inr ⟨(FreshnessState.trackReadVersion_keeps ..).1, rfl,
      (FreshnessState.trackReadVersion_keeps ..).2.2⟩
  | track =>
    exact .inr ⟨(FreshnessState.trackWriteVersion_keeps ..).1, rfl,
      (FreshnessState.trackWriteVersion_keeps ..).2.2⟩
  | select version hf hb =>
    refine .inl ⟨hf, version, _, rfl, ?_⟩
    rw [hb]
    split_ifs <;> simp
  | _ => exact .inr ⟨rfl, rfl, rfl⟩

/-- A pinned handle is for a fixed version. -/
def Handle.Aligned (s : Handle) : Prop := s.version = none → s.freshness.pinned = false

theorem Handle.Aligned.moves (h : s.Aligned) (hm : Moves policy call s s') : s'.Aligned := by
  cases hm with
  | observe | answer =>
    intro hver
    exact (FreshnessState.trackReadVersion_keeps ..).2.1.trans (h hver)
  | track =>
    intro hver
    exact (FreshnessState.trackWriteVersion_keeps ..).2.1.trans (h hver)
  | select version hf hb =>
    intro hver
    obtain rfl : version = none := hver
    rfl
  | _ => exact h

theorem aligned_newHandle (commits : Commits) (now : ℕ) (version : Option ℕ)
    (seed : Option Described) : (newHandle commits now version seed).shared.Aligned := by
  intro _
  cases version <;> cases seed
  · rfl
  · exact (FreshnessState.trackReadVersion_keeps ..).2.1
  · rfl
  · rfl

end Steps

end LanceDB.Remote
