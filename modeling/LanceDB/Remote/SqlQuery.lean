import LanceDB.Base.Threads
import Mathlib.Algebra.Order.Group.Nat

/-!
# A query of the remote SQL service

A submitted query is known by the last answer to a poll: the endpoints of its result so far and,
while the query runs, the descriptor to poll with next.  Readers, `describe` and `cancel` poll under
one gate and store the answer if the descriptor they polled with is still the stored one.  A reader
opens the endpoints in order while the list still grows.  Everything a reader or a `describe` waits
for is raced against the cancellation of the query, whose waiters are notified after the lifecycle
of the query has been set.

The answers of the server are numbered.  The number of an answer, and the list of the endpoints a
reader has opened, are not looked at by any step.

* `PollInfo`, `Lifecycle`, `Query` : the shared state.
* `Reader`, `Wait`, `Thread` : the calls; an await is a `Wait`.
* `step`, `machine` : one step of a call.
* `Effect`, `effect_of_step` — what a step does to the stored answer and to the lifecycle.
* `gateLock` — the gate is held by at most one call.
-/

namespace LanceDB.Sql

variable {E D B : Type}

/-! ### The query -/

/-- `PollInfo`: an answer of the server to a poll. -/
structure PollInfo (E D : Type) where
  /-- Which answer of the server it is. -/
  number : ℕ
  /-- The endpoints of the result, if there is a `FlightInfo`. -/
  info : Option (List E)
  descriptor : Option D

/-- The endpoints so far. -/
def PollInfo.endpoints (p : PollInfo E D) : List E := p.info.getD []

/-- `QueryLifecycle`. -/
inductive Lifecycle
  | running
  | ready
  | cancelling
  | completed
  | cancelled
  deriving DecidableEq

/-- `is_cancellation_requested`. -/
def Lifecycle.cancellationRequested : Lifecycle → Bool
  | .cancelling | .cancelled => true
  | _ => false

/-- `Cancelled | Completed`. -/
def Lifecycle.ended : Lifecycle → Bool
  | .cancelled | .completed => true
  | _ => false

/-- `RemoteQuery`. -/
structure Query (E D : Type) where
  state : PollInfo E D
  pollGate : Bool
  cancelGate : Bool
  lifecycle : Lifecycle
  /-- How often `cancelled.notify_waiters` has been called. -/
  notifications : ℕ
  /-- The number of the last answer of the server. -/
  served : ℕ

/-- `mark_ready`. -/
def Lifecycle.markReady (l : Lifecycle) : Lifecycle := if l = .running then .ready else l

/-- `update_state`. -/
def Query.updateState [DecidableEq D] (q : Query E D) (descriptor : D) (updated : PollInfo E D) :
    Query E D :=
  if q.state.descriptor = some descriptor then
    { q with
      state := updated
      lifecycle := if updated.descriptor.isNone then q.lifecycle.markReady else q.lifecycle }
  else q

/-! ### Calls -/

/-- The variables of `prepare_result` and `run_result_stream`. -/
structure Reader (E B : Type) where
  /-- `prepare_result` has returned. -/
  prepared : Bool
  nextEndpoint : ℕ
  /-- What is left of the open endpoint. -/
  endpointStream : Option (List B)
  /-- The batches that were sent to the consumer. -/
  sent : List B
  /-- The endpoints that were opened. -/
  opened : List E

def Reader.start : Reader E B := ⟨false, 0, none, [], []⟩

/-- The endpoint at `nextEndpoint` is opened. -/
def Reader.open (r : Reader E B) (endpoint : E) : Reader E B :=
  { r with nextEndpoint := r.nextEndpoint + 1, opened := r.opened ++ [endpoint] }

/-- Who polls. -/
inductive Caller (E B : Type)
  | reader (r : Reader E B)
  | describer
  | canceller

/-- What a call waits for. -/
inductive Wait (E D B : Type)
  /-- `open_result_endpoint`. -/
  | opens (r : Reader E B) (endpoint : E)
  /-- `next_batch`, of an endpoint with batches left. -/
  | next (r : Reader E B) (rest : List B)
  /-- `sender.send`. -/
  | sends (r : Reader E B) (batch : B)
  /-- `poll_gate.lock`. -/
  | gate (k : Caller E B) (descriptor : D)
  /-- `poll_continuation` or `poll_status`, with the gate. -/
  | answer (k : Caller E B) (descriptor : D)

/-- What the service answers to a request for cancellation. -/
inductive CancelOutcome
  | cancelled
  | cancelling
  | notCancellable
  | unspecified
  | notFound
  | error

inductive Thread (E D B : Type)
  | idle
  /-- The top of the loops of `prepare_result` and `run_result_stream`, before and after the check
  for a cancellation. -/
  | top (r : Reader E B)
  | reading (r : Reader E B)
  /-- Before `mark_result_completed`. -/
  | completing (r : Reader E B)
  /-- `poll_next_state`. -/
  | pollCheck (k : Caller E B) (descriptor : D)
  /-- A `select` with `wait_for_cancellation`: before it asks to be notified, before it looks at the
  lifecycle, and while it waits. -/
  | select (w : Wait E D B)
  | arming (w : Wait E D B) (seen : ℕ)
  | waiting (w : Wait E D B) (seen : ℕ)
  /-- An await that is not raced against a cancellation. -/
  | awaiting (w : Wait E D B)
  /-- With the gate: before the stored state is read, and before it is updated. -/
  | pollRead (k : Caller E B) (descriptor : D)
  | pollUpdate (k : Caller E B) (descriptor : D) (updated : PollInfo E D)
  /-- `describe`. -/
  | describeCheck
  | describeRead
  /-- `cancel`. -/
  | cancelEnter
  | cancelCheck
  | cancelTop
  | cancelSent
  | cancelDecide (outcome : CancelOutcome)
  | markCancelled
  | markCancelling
  /-- The lifecycle is set, and the waiters are notified next. -/
  | notifying
  | restoring
  | restore (running : Bool)

/-- The call goes on after a poll. -/
def Caller.next : Caller E B → Thread E D B
  | .reader r => .top r
  | .describer => .idle
  | .canceller => .cancelTop

inductive Event (E B : Type)
  /-- The stream of a reader has ended without an error: its batches, and the endpoints it has
  opened. -/
  | ended (rows : List B) (opened : List E)
  /-- It has ended with an error. -/
  | failed
  deriving DecidableEq

/-- What the environment decides in a step. -/
inductive Action
  | read
  | describe
  | cancel
  | proceed
  /-- What the call waits for is there. -/
  | ready
  /-- The server answers a poll; some of its answers may have been lost. -/
  | answer (lost : ℕ)
  /-- `STATUS_POLL_TIMEOUT`. -/
  | timeout
  /-- The call is woken by a notification. -/
  | wake
  /-- `state_changed` is notified. -/
  | changed
  | outcome (outcome : CancelOutcome)
  /-- A request failed, a batch has another schema, or the time of the whole call is over. -/
  | fail
  /-- The call is dropped; so is a reader whose consumer is gone. -/
  | drop

/-- The caller of a wait. -/
def Wait.caller : Wait E D B → Caller E B
  | .opens r _ | .next r _ | .sends r _ => .reader r
  | .gate k _ | .answer k _ => k

def Wait.holdsGate : Wait E D B → Bool
  | .answer _ _ => true
  | _ => false

/-- The caller of a call that has one. -/
def Thread.caller : Thread E D B → Option (Caller E B)
  | .idle => none
  | .top r | .reading r | .completing r => some (.reader r)
  | .pollCheck k _ | .pollRead k _ | .pollUpdate k _ _ => some k
  | .select w | .arming w _ | .waiting w _ | .awaiting w => some w.caller
  | .describeCheck | .describeRead => some .describer
  -- a call of `cancel` that waits for its gate does not hold it yet
  | .cancelEnter => none
  | _ => some .canceller

/-- The call holds `poll_gate`. -/
def Thread.holdsGate : Thread E D B → Bool
  | .select w | .arming w _ | .waiting w _ | .awaiting w => w.holdsGate
  | .pollRead _ _ | .pollUpdate _ _ _ => true
  | _ => false

def Thread.holdsCancelGate (t : Thread E D B) : Bool :=
  match t.caller with
  | some .canceller => true
  | _ => false

/-- The locks of a call that ends are released. -/
def Query.leave (q : Query E D) (t : Thread E D B) : Query E D :=
  { q with
    pollGate := q.pollGate && !t.holdsGate
    cancelGate := q.cancelGate && !t.holdsCancelGate }

/-- What a call shows that ends with an error. -/
def Thread.failure (t : Thread E D B) : Option (Event E B) :=
  match t.caller with
  | some (.reader _) => some .failed
  | _ => none

/-- The call ends with an error. -/
def fails (q : Query E D) (t : Thread E D B) :
    Option (Query E D × Thread E D B × Option (Event E B)) :=
  some (q.leave t, .idle, t.failure)

/-- The call returns. -/
def returns (q : Query E D) (t : Thread E D B) :
    Option (Query E D × Thread E D B × Option (Event E B)) :=
  some (q.leave t, .idle, none)

section

variable [DecidableEq D] (answers : ℕ → PollInfo E D) (batches : E → List B)

/-- The reader has the stored state, and no endpoint is open. -/
def readState (q : Query E D) (r : Reader E B) :
    Option (Query E D × Thread E D B × Option (Event E B)) :=
  if r.prepared then
    if r.nextEndpoint > q.state.endpoints.length then fails q (.reading r)
    else match q.state.endpoints[r.nextEndpoint]? with
      | some endpoint => some (q, .select (.opens (r.open endpoint) endpoint), none)
      | none =>
        match q.state.descriptor with
        | some descriptor => some (q, .pollCheck (.reader r) descriptor, none)
        | none => some (q, .completing r, none)
  else
    match q.state.info, q.state.descriptor with
    | some (endpoint :: _), _ => some (q, .select (.opens (r.open endpoint) endpoint), none)
    | some [], none => some (q, .top { r with prepared := true }, none)
    | none, none => fails q (.reading r)
    | _, some descriptor => some (q, .pollCheck (.reader r) descriptor, none)

/-- What a call waits for has happened. -/
def resolve (q : Query E D) : Wait E D B → Action →
    Option (Query E D × Thread E D B × Option (Event E B))
  | .opens r endpoint, .ready =>
    let r := { r with endpointStream := some (batches endpoint) }
    -- `prepare_result` goes on to the first batch
    if r.prepared then some (q, .top r, none)
    else some (q, .select (.next r (batches endpoint)), none)
  | .next r (batch :: rest), .ready =>
    some (q, .select (.sends { r with prepared := true, endpointStream := some rest } batch), none)
  | .next r [], .ready => some (q, .top { r with prepared := true, endpointStream := none }, none)
  | .sends r batch, .ready => some (q, .top { r with sent := r.sent ++ [batch] }, none)
  | .gate k descriptor, .ready =>
    if q.pollGate then none
    else some ({ q with pollGate := true }, .pollRead k descriptor, none)
  | .gate .describer descriptor, .timeout => returns q (.awaiting (.gate .describer descriptor))
  | .gate .canceller _, .changed => some (q, .cancelTop, none)
  | .answer k descriptor, .answer lost =>
    let served := q.served + 1 + lost
    some ({ q with served }, .pollUpdate k descriptor (answers served), none)
  | .answer .describer descriptor, .timeout =>
    returns q (.awaiting (.answer .describer descriptor))
  | _, _ => none

/-- The outcome of a request for cancellation, if the query has not ended. -/
def decideCancel (q : Query E D) (outcome : CancelOutcome) :
    Option (Query E D × Thread E D B × Option (Event E B)) :=
  match outcome with
  | .cancelled => some (q, .markCancelled, none)
  | .cancelling => some (q, .markCancelling, none)
  | .notCancellable => some (q, .restoring, none)
  | .notFound =>
    if q.lifecycle = .cancelling then some (q, .markCancelled, none)
    else fails q (.cancelDecide outcome)
  | .unspecified | .error => fails q (.cancelDecide outcome)

/-- One step of a call. -/
def step (q : Query E D) (t : Thread E D B) (a : Action) :
    Option (Query E D × Thread E D B × Option (Event E B)) :=
  match t, a with
  -- the waiters are notified without an await in between
  | .notifying, .proceed =>
    some ({ q.leave t with notifications := q.notifications + 1 }, .idle, none)
  | .notifying, _ => none
  | t, .fail => fails q t
  | t, .drop => returns q t
  | .idle, .read => some (q, .top .start, none)
  | .idle, .describe => some (q, .describeCheck, none)
  | .idle, .cancel => some (q, .cancelEnter, none)
  -- `prepare_result` and `run_result_stream`
  | .top r, .proceed =>
    if q.lifecycle.cancellationRequested then fails q t
    else match r.endpointStream with
      | some rest => some (q, .select (.next r rest), none)
      | none => some (q, .reading r, none)
  | .reading r, .proceed => readState q r
  | .completing r, .proceed =>
    if q.lifecycle.cancellationRequested then fails q t
    else some ({ q with lifecycle := .completed }, .idle, some (.ended r.sent r.opened))
  -- `wait_for_cancellation`
  | .select w, .proceed => some (q, .arming w q.notifications, none)
  | .arming w seen, .proceed =>
    if q.lifecycle.cancellationRequested then fails q t else some (q, .waiting w seen, none)
  | .waiting w seen, a =>
    if seen = q.notifications then resolve answers batches q w a
    else if a matches .wake then some (q, .select w, none)
    else none
  | .awaiting w, a => resolve answers batches q w a
  -- `poll_next_state`
  | .pollCheck k descriptor, .proceed =>
    if q.lifecycle.cancellationRequested then fails q t
    else some (q, .select (.gate k descriptor), none)
  | .pollRead k descriptor, .proceed =>
    if q.state.descriptor = some descriptor then
      match k with
      | .canceller => some (q, .awaiting (.answer k descriptor), none)
      | _ => some (q, .select (.answer k descriptor), none)
    else some ({ q with pollGate := false }, k.next, none)
  | .pollUpdate k descriptor updated, .proceed =>
    some ({ q.updateState descriptor updated with pollGate := false }, k.next, none)
  -- `describe`
  | .describeCheck, .proceed =>
    if q.lifecycle.cancellationRequested then returns q t else some (q, .describeRead, none)
  | .describeRead, .proceed =>
    match q.state.descriptor with
    | some descriptor => some (q, .select (.gate .describer descriptor), none)
    | none => returns q t
  -- `cancel`
  | .cancelEnter, .proceed =>
    if q.cancelGate then none else some ({ q with cancelGate := true }, .cancelCheck, none)
  | .cancelCheck, .proceed =>
    if q.lifecycle.ended then returns q t else some (q, .cancelTop, none)
  | .cancelTop, .proceed =>
    match q.state.info, q.state.descriptor with
    | some _, _ => some (q, .cancelSent, none)
    | none, none => returns q t
    | none, some descriptor => some (q, .awaiting (.gate .canceller descriptor), none)
  | .cancelSent, .outcome outcome => some (q, .cancelDecide outcome, none)
  | .cancelDecide outcome, .proceed =>
    if q.lifecycle.ended then returns q t else decideCancel q outcome
  | .markCancelled, .proceed =>
    if q.lifecycle.ended then returns q t
    else some ({ q with lifecycle := .cancelled }, .notifying, none)
  | .markCancelling, .proceed =>
    if q.lifecycle = .running ∨ q.lifecycle = .ready then
      some ({ q with lifecycle := .cancelling }, .notifying, none)
    else returns q t
  -- `restore_after_rejected_cancellation`
  | .restoring, .proceed => some (q, .restore q.state.descriptor.isSome, none)
  | .restore running, .proceed =>
    let restored : Lifecycle := if running then .running else .ready
    let lifecycle := if q.lifecycle = .cancelling then restored else q.lifecycle
    fails { q with lifecycle } t
  | _, _ => none

/-- Any number of readers and of calls of `describe` and `cancel`. -/
def machine : Machine (Query E D) (Thread E D B) Action (Event E B) where
  step := step answers batches

end

/-! ### What a step does -/

/-- The call neither waits for a cancellation, nor is it about to store an answer or to notify. -/
def Thread.plain : Thread E D B → Bool
  | .arming _ _ | .waiting _ _ | .pollUpdate _ _ _ | .notifying => false
  | _ => true

/-- What a step does to the gate: it leaves the gate alone, takes it, or releases it. -/
def GateStep (q : Query E D) (t : Thread E D B) (q' : Query E D) (t' : Thread E D B) : Prop :=
  (t'.holdsGate = t.holdsGate ∧ q'.pollGate = q.pollGate) ∨
    (q.pollGate = false ∧ q'.pollGate = true) ∨ (t.holdsGate = true ∧ t'.holdsGate = false)

/-- What a step does to the stored answer, to the lifecycle and to its waiters. -/
inductive Effect [DecidableEq D] (answers : ℕ → PollInfo E D) (q : Query E D) :
    Thread E D B → Query E D → Thread E D B → Option (Event E B) → Prop
  | quiet {t t' : Thread E D B} {q' : Query E D} {o : Option (Event E B)} :
      q'.state = q.state → q'.lifecycle = q.lifecycle → q'.notifications = q.notifications →
      q'.served = q.served → GateStep q t q' t' → t ≠ .notifying → t'.plain = true →
      (∀ rows opened, o ≠ some (.ended rows opened)) → Effect answers q t q' t' o
  /-- A call asks to be notified, and then looks whether the query is cancelled. -/
  | armed (w : Wait E D B) : Effect answers q (.select w) q (.arming w q.notifications) none
  | waits (w : Wait E D B) (seen : ℕ) : q.lifecycle.cancellationRequested = false →
      Effect answers q (.arming w seen) q (.waiting w seen) none
  /-- The server answers a poll. -/
  | answered {t : Thread E D B} {k : Caller E B} {descriptor : D} (lost : ℕ) :
      t.holdsGate = true → Effect answers q t
      { q with served := q.served + 1 + lost }
      (.pollUpdate k descriptor (answers (q.served + 1 + lost))) none
  | updated {k : Caller E B} {descriptor : D} {updated : PollInfo E D} :
      Effect answers q (.pollUpdate k descriptor updated)
      { q.updateState descriptor updated with pollGate := false } k.next none
  | completed {r : Reader E B} : q.lifecycle.cancellationRequested = false →
      Effect answers q (.completing r)
      { q with lifecycle := .completed } .idle (some (.ended r.sent r.opened))
  | cancelled : q.lifecycle.ended = false → Effect answers q .markCancelled
      { q with lifecycle := .cancelled } .notifying none
  | cancelling : q.lifecycle = .running ∨ q.lifecycle = .ready → Effect answers q .markCancelling
      { q with lifecycle := .cancelling } .notifying none
  | notified : Effect answers q .notifying
      { q.leave (Thread.notifying : Thread E D B) with notifications := q.notifications + 1 }
      .idle none
  /-- A cancellation is rejected. -/
  | restored {running : Bool} {l : Lifecycle} {o : Option (Event E B)} :
      q.lifecycle = .cancelling → l = .running ∨ l = .ready →
      (∀ rows opened, o ≠ some (.ended rows opened)) → Effect answers q (.restore running)
      (Query.leave { q with lifecycle := l } (.restore running : Thread E D B)) .idle o

section

variable [DecidableEq D] {answers : ℕ → PollInfo E D} {batches : E → List B}
  {q q' : Query E D} {t t' t₀ : Thread E D B} {a : Action} {o o' : Option (Event E B)}

omit [DecidableEq D] in
theorem failure_ne_ended (t : Thread E D B) (rows : List B) (opened : List E) :
    t.failure ≠ some (.ended rows opened) := by
  rw [Thread.failure]
  split <;> simp

omit [DecidableEq D] in
theorem gateStep_leave (ht : t.holdsGate = t₀.holdsGate)
    (hq : q'.pollGate = (q.leave t₀).pollGate) : GateStep q t q' .idle := by
  cases hheld : t₀.holdsGate with
  | false => exact .inl ⟨by rw [ht, hheld]; rfl, by rw [hq, Query.leave, hheld]; simp⟩
  | true => exact .inr (.inr ⟨by rw [ht, hheld], rfl⟩)

theorem Effect.of_stays (h : some (q, t₀, o') = some (q', t', o)) (ht : t ≠ .notifying := by simp)
    (hgate : t₀.holdsGate = t.holdsGate := by rfl) (hp : t₀.plain = true := by rfl)
    (ho : ∀ rows opened, o' ≠ some (.ended rows opened) := by simp) :
    Effect answers q t q' t' o := by
  cases h
  exact .quiet rfl rfl rfl rfl (.inl ⟨hgate, rfl⟩) ht hp ho

theorem Effect.of_fails (ht : t ≠ .notifying) (h : fails q t₀ = some (q', t', o))
    (hgate : t.holdsGate = t₀.holdsGate) : Effect answers q t q' t' o := by
  cases h
  exact .quiet rfl rfl rfl rfl (gateStep_leave hgate rfl) ht rfl (failure_ne_ended t₀)

theorem Effect.of_returns (ht : t ≠ .notifying) (h : returns q t₀ = some (q', t', o))
    (hgate : t.holdsGate = t₀.holdsGate) : Effect answers q t q' t' o := by
  cases h
  exact .quiet rfl rfl rfl rfl (gateStep_leave hgate rfl) ht rfl (by simp)

theorem effect_of_readState {r : Reader E B} (h : readState q r = some (q', t', o)) :
    Effect answers q (.reading r) q' t' o := by
  rw [readState] at h
  split_ifs at h
  · exact .of_fails (by simp) h rfl
  · split at h
    · exact .of_stays h
    · split at h <;> exact .of_stays h
  · split at h
    · exact .of_stays h
    · exact .of_stays h
    · exact .of_fails (by simp) h rfl
    · exact .of_stays h

theorem effect_of_resolve {w : Wait E D B} (hgate : t.holdsGate = w.holdsGate)
    (ht : t ≠ .notifying) (h : resolve answers batches q w a = some (q', t', o)) :
    Effect answers q t q' t' o := by
  rw [resolve.eq_def] at h
  split at h
  · dsimp only at h
    split_ifs at h <;> exact .of_stays h ht hgate.symm
  · exact .of_stays h ht hgate.symm
  · exact .of_stays h ht hgate.symm
  · exact .of_stays h ht hgate.symm
  · split_ifs at h with hlock
    cases h
    exact .quiet rfl rfl rfl rfl (.inr (.inl ⟨by simpa using hlock, rfl⟩)) ht rfl (by simp)
  · exact .of_returns ht h hgate
  · exact .of_stays h ht hgate.symm
  · cases h
    exact .answered _ hgate
  · exact .of_returns ht h hgate
  · cases h

theorem effect_of_decideCancel {outcome : CancelOutcome} (ht : t ≠ .notifying)
    (hgate : t.holdsGate = false) (h : decideCancel q outcome = some (q', t', o)) :
    Effect answers q t q' t' o := by
  cases outcome with
  | cancelled | cancelling | notCancellable =>
    exact .of_stays h ht hgate.symm
  | notFound =>
    simp only [decideCancel] at h
    split_ifs at h
    · exact .of_stays h ht hgate.symm
    · exact .of_fails ht h hgate
  | unspecified | error => exact .of_fails ht h hgate

/-- **What a step does to the stored answer, to the lifecycle and to its waiters.** -/
theorem effect_of_step (h : step answers batches q t a = some (q', t', o)) :
    Effect answers q t q' t' o := by
  rw [step.eq_def] at h
  split at h
  · cases h
    exact .notified
  · cases h
  · exact .of_fails (by assumption) h rfl
  · exact .of_returns (by assumption) h rfl
  · exact .of_stays h
  · exact .of_stays h
  · exact .of_stays h
  -- `prepare_result` and `run_result_stream`
  · split_ifs at h
    · exact .of_fails (by simp) h rfl
    · split at h <;> exact .of_stays h
  · exact effect_of_readState h
  · split_ifs at h with hreq
    · exact .of_fails (by simp) h rfl
    · cases h
      exact .completed (by simpa using hreq)
  -- `wait_for_cancellation`
  · cases h
    exact .armed _
  · split_ifs at h with hreq
    · exact .of_fails (by simp) h rfl
    · cases h
      exact .waits _ _ (by simpa using hreq)
  · split_ifs at h
    · exact effect_of_resolve rfl (by simp) h
    · exact .of_stays h
  · exact effect_of_resolve rfl (by simp) h
  -- `poll_next_state`
  · split_ifs at h
    · exact .of_fails (by simp) h rfl
    · exact .of_stays h
  · split_ifs at h
    · split at h <;> exact .of_stays h
    · rename_i k _ _
      cases h
      exact .quiet rfl rfl rfl rfl (.inr (.inr ⟨rfl, by cases k <;> rfl⟩)) (by simp)
        (by cases k <;> rfl) (by simp)
  · cases h
    exact .updated
  -- `describe`
  · split_ifs at h
    · exact .of_returns (by simp) h rfl
    · exact .of_stays h
  · split at h
    · exact .of_stays h
    · exact .of_returns (by simp) h rfl
  -- `cancel`
  · split_ifs at h
    cases h
    exact .quiet rfl rfl rfl rfl (.inl ⟨rfl, rfl⟩) (by simp) rfl (by simp)
  · split_ifs at h
    · exact .of_returns (by simp) h rfl
    · exact .of_stays h
  · split at h
    · exact .of_stays h
    · exact .of_returns (by simp) h rfl
    · exact .of_stays h
  · exact .of_stays h
  · split_ifs at h
    · exact .of_returns (by simp) h rfl
    · exact effect_of_decideCancel (by simp) rfl h
  · split_ifs at h with hen
    · exact .of_returns (by simp) h rfl
    · cases h
      exact .cancelled (by simpa using hen)
  · split_ifs at h with hact
    · cases h
      exact .cancelling hact
    · exact .of_returns (by simp) h rfl
  -- `restore_after_rejected_cancellation`
  · exact .of_stays h
  · rename_i running
    dsimp only at h
    split_ifs at h with hcanc hrun
    · cases h
      exact .restored hcanc (.inl rfl) (failure_ne_ended _)
    · cases h
      exact .restored hcanc (.inr rfl) (failure_ne_ended _)
    · exact .of_fails (by simp) h rfl
  · cases h

theorem Effect.gateStep (h : Effect answers q t q' t' o) : GateStep q t q' t' := by
  cases h with
  | quiet _ _ _ _ hgate _ _ _ => exact hgate
  | armed | waits | completed | cancelled | cancelling => exact .inl ⟨rfl, rfl⟩
  | answered lost hgate => exact .inl ⟨hgate.symm, rfl⟩
  | @updated k => exact .inr (.inr ⟨rfl, by cases k <;> rfl⟩)
  | notified | restored => exact gateStep_leave rfl rfl

/-- `poll_gate`. -/
def gateLock : (machine answers batches).Lock where
  locked q := q.pollGate = true
  holds t := t.holdsGate = true
  step {q t a q' t' o} h := by
    rcases (effect_of_step h).gateStep with ⟨ht, hq⟩ | ⟨hf, hlock⟩ | ⟨hheld, hgone⟩
    · exact .inl ⟨by rw [ht], by rw [hq]⟩
    · exact .inr (.inl ⟨by simp [hf], hlock⟩)
    · exact .inr (.inr ⟨hheld, by simp [hgone]⟩)

end

end LanceDB.Sql
