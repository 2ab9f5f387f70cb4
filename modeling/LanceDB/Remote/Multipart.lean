import LanceDB.Base.Retry
import LanceDB.Base.Clumps

/-!
# Multipart appends

`add_multipart` creates an upload on the server, stages the input as parts of it in parallel, and
completes it, which commits all parts at once.  A response may be replaced by a retryable error
status after the server has executed the request.  Requests are repeated then, and if the upload or
its completion fails with such a status, the upload is aborted and the whole operation is repeated
with a new upload.

* `UploadServer` : the server, with its uploads and what they have committed.
* `sendWithRetry`, `addMultipart` : the functions of the source, over a pattern of faults.
* `attempt_spec` — what one round of the operation does, by its faults.
* `multipart_exact_iff` — the rows are committed exactly once if the operation succeeds and at most
  once if it fails, if and only if no two rounds get as far as `complete`.
* `multipart_twice` — they may be committed twice.
-/

namespace LanceDB.Remote

open List

variable {R : Type}

/-! ### The server -/

/-- The error status of a response: one that is retried by `retry_config.statuses`, or another. -/
inductive Status
  | retryable
  | final
  deriving DecidableEq

inductive UploadState
  | staging
  | committed
  | aborted
  deriving DecidableEq

/-- An upload, with the rows of its parts. -/
structure Upload (R : Type) where
  parts : List (List R)
  state : UploadState

/-- The server: the uploads, and the rows of every commit. -/
structure UploadServer (R : Type) where
  uploads : List (Upload R)
  commits : List (List R)

/-- What the server answers to `complete` and `abort` of an upload that is not open any more. -/
structure ClosedReplies where
  complete : Except Status ℕ
  abort : Status

namespace UploadServer

/-- A fresh upload. -/
def create (s : UploadServer R) : UploadServer R × Except Status ℕ :=
  ({ s with uploads := s.uploads ++ [⟨[], .staging⟩] }, .ok s.uploads.length)

/-- A part is staged. -/
def stage (upload : ℕ) (s : UploadServer R) (part : List R) : UploadServer R :=
  { s with
    uploads := s.uploads.modify upload fun u =>
      if u.state = .staging then { u with parts := u.parts ++ [part] } else u }

/-- An upload leaves the staging state. -/
def close (upload : ℕ) (state : UploadState) (s : UploadServer R) : UploadServer R :=
  { s with uploads := s.uploads.modify upload fun u => { u with state := state } }

/-- All parts are committed at once, and only once. -/
def complete (closed : ClosedReplies) (upload : ℕ) (s : UploadServer R) :
    UploadServer R × Except Status ℕ :=
  match s.uploads[upload]? with
  | some ⟨parts, .staging⟩ =>
    ({ s.close upload .committed with commits := s.commits ++ [parts.flatten] },
      .ok (s.commits.length + 1))
  | _ => (s, closed.complete)

/-- An open upload is discarded. -/
def abort (closed : ClosedReplies) (upload : ℕ) (s : UploadServer R) :
    UploadServer R × Except Status Unit :=
  match s.uploads[upload]? with
  | some ⟨_, .staging⟩ => (s.close upload .aborted, .ok ())
  | _ => (s, .error closed.abort)

end UploadServer

/-! ### Requests -/

/-- `ResolvedRetryConfig`, without the sleep times. -/
structure RetryConfig where
  retries : ℕ
  connectRetries : ℕ
  readRetries : ℕ

/-- How often a request is repeated when all failures are failed requests. -/
def RetryConfig.repeats (config : RetryConfig) : ℕ :=
  if config.connectRetries = 0 ∨ config.readRetries = 0 then 0 else config.retries - 1

/-- The answer asks for another try. -/
def Status.retries {α : Type} : Except Status α → Bool
  | .error .retryable => true
  | _ => false

/-- A try of a request, whose response is replaced by a retryable error status if there is a
fault. -/
def tryRequest {α : Type} (request : UploadServer R → UploadServer R × Except Status α)
    (fault : Bool) (s : UploadServer R) : UploadServer R × Attempt Status α :=
  ((request s).1,
    if fault || Status.retries (request s).2 then .again .retryable else .done (request s).2)

/-- `send_with_retry` and `check_response`, where `faults k` is for the try after `k` failures. -/
def sendWithRetry {α : Type} (config : RetryConfig)
    (request : UploadServer R → UploadServer R × Except Status α) (faults : ℕ → Bool)
    (s : UploadServer R) : UploadServer R × Except Status α :=
  retry (fun k => tryRequest request (faults k)) config.repeats 0 s

/-! ### The operation -/

/-- What a round of the operation meets. -/
structure Round where
  /-- The faults in the responses to `create`, `complete` and `abort`. -/
  create : ℕ → Bool
  complete : ℕ → Bool
  abort : ℕ → Bool
  /-- The faults in the responses to the parts. -/
  part : ℕ → Bool
  /-- The parts that do not reach the server when their tasks are dropped. -/
  dropped : ℕ → Bool
  /-- In a partition, the batches before which the budget of a part is used up. -/
  full : ℕ → ℕ → Bool

/-- The input of an append. -/
structure AppendInput (R : Type) where
  batches : List (List R)
  rescannable : Bool
  /-- `num_partitions`, of which there are several. -/
  partitions : ℕ
  pos : 0 < partitions
  /-- `max_bytes_per_request` is set. -/
  chunked : Bool

/-- `send_one_part`, and the parts after it. -/
def sendParts (full : ℕ → Bool) : ℕ → List R → List (List R) → List (List R)
  | _, part, [] => [part]
  | k, part, batch :: batches =>
    if full k then part :: sendParts full (k + 1) batch batches
    else sendParts full (k + 1) (part ++ batch) batches

/-- `send_multipart_chunked`. -/
def sendMultipartChunked (full : ℕ → Bool) : List (List R) → List (List R)
  | [] => []
  | first :: batches => sendParts full 1 first batches

namespace AppendInput

variable (input : AppendInput R)

def rows : List R := input.batches.flatten

/-- The batches of a partition: `RepartitionExec` deals them out in turn. -/
def partition (p : ℕ) : List (List R) :=
  ((List.range input.batches.length).filter fun k => k % input.partitions = p).map fun k =>
    input.batches[k]?.getD []

/-- The parts of an upload. -/
def parts (round : Round) : List (List R) :=
  (List.range input.partitions).flatMap fun p =>
    if input.chunked then sendMultipartChunked (round.full p) (input.partition p)
    else [(input.partition p).flatten]

end AppendInput

section Operation

variable (config : RetryConfig) (closed : ClosedReplies) (input : AppendInput R)

/-- The response to a part is replaced. -/
def partFails (round : Round) : Bool := (List.range (input.parts round).length).any round.part

/-- `execute_multipart_inserts`.  When a part fails, the tasks of the others are dropped. -/
def executeMultipartInserts (upload : ℕ) (round : Round) (s : UploadServer R) :
    UploadServer R × Except Status Unit :=
  if partFails input round then
    ((((input.parts round).zipIdx.filter fun (_, k) => !round.dropped k).map (·.1)).foldl
      (UploadServer.stage upload) s, .error .retryable)
  else ((input.parts round).foldl (UploadServer.stage upload) s, .ok ())

/-- The end of a round that has failed: `abort_multipart_write`, whose errors are only logged, and
the decision to go on by `is_retryable_write_error`. -/
def abortRound (upload : ℕ) (round : Round) (error : Status) (s : UploadServer R) :
    UploadServer R × Attempt Status ℕ :=
  ((sendWithRetry config (UploadServer.abort closed upload) round.abort s).1,
    if input.rescannable && error = .retryable then .again error else .done (.error error))

/-- A round of `add_multipart`. -/
def attempt (round : Round) (s : UploadServer R) : UploadServer R × Attempt Status ℕ :=
  match sendWithRetry config UploadServer.create round.create s with
  | (s, .error error) => (s, .done (.error error))
  | (s, .ok upload) =>
    match executeMultipartInserts input upload round s with
    | (s, .error error) => abortRound config closed input upload round error s
    | (s, .ok ()) =>
      match sendWithRetry config (UploadServer.complete closed upload) round.complete s with
      | (s, .ok version) => (s, .done (.ok version))
      | (s, .error error) => abortRound config closed input upload round error s

/-- `add_multipart`, where `rounds k` is what the round after `k` failures meets. -/
def addMultipart (rounds : ℕ → Round) (s : UploadServer R) : UploadServer R × Except Status ℕ :=
  retry (fun k => attempt config closed input (rounds k)) config.repeats 0 s

end Operation

/-! ### The parts are the input -/

theorem flatten_sendParts (full : ℕ → Bool) (k : ℕ) (part : List R) (batches : List (List R)) :
    (sendParts full k part batches).flatten = part ++ batches.flatten := by
  induction batches generalizing k part with
  | nil => simp [sendParts]
  | cons batch batches ih =>
    rw [sendParts]
    split_ifs
    · rw [flatten_cons, ih, flatten_cons]
    · rw [ih, flatten_cons, append_assoc]

theorem flatten_sendMultipartChunked (full : ℕ → Bool) (batches : List (List R)) :
    (sendMultipartChunked full batches).flatten = batches.flatten := by
  cases batches with
  | nil => rfl
  | cons first batches => rw [sendMultipartChunked, flatten_sendParts, flatten_cons]

theorem AppendInput.flatten_parts_perm (input : AppendInput R) (round : Round) :
    (input.parts round).flatten.Perm input.rows := by
  have hpts : (input.parts round).flatten =
      (List.range input.partitions).flatMap fun p => (input.partition p).flatten := by
    rw [parts, flatMap_def, flatMap_def, flatten_flatten, map_map]
    congr 1
    refine map_congr_left fun p _ => ?_
    simp only [Function.comp_apply]
    split_ifs
    · exact flatten_sendMultipartChunked ..
    · simp
  have hr : input.rows = (List.range input.batches.length).flatMap fun k =>
      input.batches[k]?.getD [] := by
    rw [rows, flatMap_def]
    congr 1
    refine ext_getElem (by simp) fun k hk _ => ?_
    simp [hk]
  rw [hpts, hr]
  have hlt : ∀ k ∈ List.range input.batches.length, k % input.partitions < input.partitions :=
    fun k _ => Nat.mod_lt k input.pos
  have hp := Clumps.distributed_perm hlt fun k => input.batches[k]?.getD []
  simpa only [partition, flatMap_def] using hp

/-! ### Requests by their faults -/

section Requests

variable {α : Type} {I : ℕ → UploadServer R → Prop}
  {request : UploadServer R → UploadServer R × Except Status α} {s : UploadServer R}

/-- The response to a try asks for another. -/
def Asks (request : UploadServer R → UploadServer R × Except Status α) (fault : Bool)
    (s : UploadServer R) : Prop :=
  fault = true ∨ Status.retries (request s).2 = true

theorem tryRequest_again {fault : Bool} {e : Status}
    (h : (tryRequest request fault s).2 = .again e) : Asks request fault s ∧ e = .retryable := by
  simp only [tryRequest] at h
  split_ifs at h with hasks
  cases h
  exact ⟨by simpa [Asks] using hasks, rfl⟩

theorem tryRequest_done {fault : Bool} {result : Except Status α}
    (h : (tryRequest request fault s).2 = .done result) :
    ¬ Asks request fault s ∧ result = (request s).2 := by
  simp only [tryRequest] at h
  split_ifs at h with hasks
  cases h
  exact ⟨by simpa [Asks] using hasks, rfl⟩

/-- **The tries of a request.**  All but the last have asked for another.  The result is the last
response, or an error if that asks for another, too. -/
theorem sendWithRetry_spec (config : RetryConfig)
    (request : UploadServer R → UploadServer R × Except Status α) (faults : ℕ → Bool)
    (hstep : ∀ k s, I k s → I (k + 1) (request s).1) (h : I 0 s) :
    ∃ m s' result, m ≤ config.repeats ∧ I m s' ∧
      (∀ j < m, ∃ s, I j s ∧ Asks request (faults j) s) ∧
      sendWithRetry config request faults s = ((request s').1, result) ∧
      ((¬ Asks request (faults m) s' ∧ result = (request s').2) ∨
        (m = config.repeats ∧ Asks request (faults m) s' ∧ result = .error .retryable)) := by
  have hn : ∀ k s e, I k s → (tryRequest request (faults k) s).2 = .again e →
      I (k + 1) (tryRequest request (faults k) s).1 := fun k s _ hs _ => hstep k s hs
  obtain ⟨m, s', -, hm, hI, hbef, hst, hend⟩ := retry_spec hn config.repeats 0 s h
  refine ⟨m, s', (sendWithRetry config request faults s).2, by omega, hI, fun j hj => ?_,
    Prod.ext hst rfl, ?_⟩
  · obtain ⟨sj, e, hj, hagain⟩ := hbef j (Nat.zero_le j) hj
    exact ⟨sj, hj, (tryRequest_again hagain).1⟩
  · rcases hend with hd | ⟨e, hagain, hl, herr⟩
    · exact .inl (tryRequest_done hd)
    · obtain ⟨hasks, rfl⟩ := tryRequest_again hagain
      exact .inr ⟨by omega, hasks, herr⟩

end Requests

/-- The response to one of the tries of `create` arrives. -/
def created (config : RetryConfig) (round : Round) : Bool :=
  (List.range (config.repeats + 1)).any fun k => !round.create k

/-- All responses to `complete` ask for another try. -/
def lost (config : RetryConfig) (closed : ClosedReplies) (round : Round) : Bool :=
  (List.range (config.repeats + 1)).all fun k =>
    round.complete k || (k != 0 && Status.retries closed.complete)

/-- An upload with its parts, while it is open. -/
def UploadServer.Open (s : UploadServer R) (upload : ℕ) (parts : List (List R)) : Prop :=
  s.uploads[upload]? = some ⟨parts, .staging⟩

/-- `create` makes a fresh upload, if a response arrives. -/
theorem create_spec (config : RetryConfig) (round : Round) (s : UploadServer R) :
    ∃ s' result, sendWithRetry config UploadServer.create round.create s = (s', result) ∧
      s'.commits = s.commits ∧
      ((created config round = true ∧ ∃ upload, result = .ok upload ∧ s'.Open upload []) ∨
        (created config round = false ∧ result = .error .retryable)) := by
  obtain ⟨m, s', result, hm, hI, hbef, hrun, hend⟩ := sendWithRetry_spec
    (I := fun _ s' => s'.commits = s.commits) config UploadServer.create round.create
    (fun _ _ h => h) rfl
  -- the server itself never asks for another try
  have hasks : ∀ k (s : UploadServer R),
      Asks UploadServer.create (round.create k) s ↔ round.create k = true := by
    simp [Asks, UploadServer.create, Status.retries]
  refine ⟨_, result, hrun, hI, ?_⟩
  rcases hend with ⟨hd, rfl⟩ | ⟨rfl, hagain, rfl⟩
  · rw [hasks, Bool.not_eq_true] at hd
    refine .inl ⟨?_, s'.uploads.length, rfl, by simp [UploadServer.Open, UploadServer.create]⟩
    exact any_eq_true.2 ⟨m, mem_range.2 (by omega), by simp [hd]⟩
  · refine .inr ⟨any_eq_false.2 fun k hk => ?_, rfl⟩
    rw [hasks] at hagain
    rcases Nat.lt_succ_iff_lt_or_eq.1 (mem_range.1 hk) with hlt | rfl
    · obtain ⟨sk, -, hk⟩ := hbef k hlt
      simp [(hasks k sk).1 hk]
    · simp [hagain]

/-- What the server is like after `k` tries of `complete`: the first one commits, and the others
change nothing. -/
def Completed (s : UploadServer R) (upload : ℕ) (parts : List (List R)) :
    ℕ → UploadServer R → Prop
  | 0, s' => s' = s
  | _ + 1, s' => s'.commits = s.commits ++ [parts.flatten] ∧
    s'.uploads[upload]? = some ⟨parts, .committed⟩

section Complete

variable {closed : ClosedReplies} {s s' : UploadServer R} {upload k : ℕ} {parts : List (List R)}

theorem complete_of_open (h : s.Open upload parts) :
    UploadServer.complete closed upload s =
      ({ s.close upload .committed with commits := s.commits ++ [parts.flatten] },
        .ok (s.commits.length + 1)) := by
  rw [UploadServer.complete, h]

theorem complete_of_committed (h : s.uploads[upload]? = some ⟨parts, .committed⟩) :
    UploadServer.complete closed upload s = (s, closed.complete) := by
  rw [UploadServer.complete, h]

theorem Completed.next (h : s.Open upload parts) (hs' : Completed s upload parts k s') :
    Completed s upload parts (k + 1) (UploadServer.complete closed upload s').1 := by
  cases k with
  | zero =>
    obtain rfl : s' = s := hs'
    rw [complete_of_open h]
    refine ⟨rfl, ?_⟩
    simp only [UploadServer.close, getElem?_modify]
    rw [h]
    simp
  | succ k =>
    obtain ⟨hcms, hs'⟩ := hs'
    rw [complete_of_committed hs']
    exact ⟨hcms, hs'⟩

theorem Completed.asks (h : s.Open upload parts) (hs' : Completed s upload parts k s')
    (fault : Bool) :
    Asks (UploadServer.complete closed upload) fault s' ↔
      (fault || (k != 0 && Status.retries closed.complete)) = true := by
  cases k with
  | zero =>
    obtain rfl : s' = s := hs'
    simp [Asks, complete_of_open h, Status.retries]
  | succ k =>
    simp [Asks, complete_of_committed hs'.2]

/-- `complete` commits the parts of an open upload, whatever its responses. -/
theorem complete_spec (config : RetryConfig) (closed : ClosedReplies) (round : Round)
    (h : s.Open upload parts) :
    ∃ s' result, sendWithRetry config (UploadServer.complete closed upload) round.complete s =
        (s', result) ∧ s'.commits = s.commits ++ [parts.flatten] ∧
      (Status.retries result = true ↔ lost config closed round = true) := by
  obtain ⟨m, s', result, hm, hI, hbef, hrun, hend⟩ := sendWithRetry_spec
    (I := Completed s upload parts) config (UploadServer.complete closed upload) round.complete
    (fun k s' hs' => hs'.next h) rfl
  refine ⟨_, result, hrun, (hI.next h).1, ?_⟩
  rcases hend with ⟨hd, rfl⟩ | ⟨rfl, hl, rfl⟩
  · refine iff_of_false (fun hr => hd (.inr hr)) fun hlost => hd ?_
    exact (hI.asks h _).2 (all_eq_true.1 hlost m (mem_range.2 (by omega)))
  · refine iff_of_true rfl (all_eq_true.2 fun k hk => ?_)
    rcases Nat.lt_succ_iff_lt_or_eq.1 (mem_range.1 hk) with hlt | rfl
    · obtain ⟨sk, hsk, hk⟩ := hbef k hlt
      exact (hsk.asks h _).1 hk
    · exact (hI.asks h _).1 hl

end Complete

theorem abort_commits (config : RetryConfig) (closed : ClosedReplies) (round : Round)
    (s : UploadServer R) (upload : ℕ) :
    (sendWithRetry config (UploadServer.abort closed upload) round.abort s).1.commits =
      s.commits := by
  have hs : ∀ s' : UploadServer R, s'.commits = s.commits →
      (UploadServer.abort closed upload s').1.commits = s.commits := by
    intro s' hs'
    rw [UploadServer.abort]
    split
    · exact hs'
    · exact hs'
  obtain ⟨m, s', _, -, hI, -, hrun, -⟩ := sendWithRetry_spec
    (I := fun _ s' => s'.commits = s.commits) config (UploadServer.abort closed upload) round.abort
    (fun _ => hs) rfl
  rw [hrun]
  exact hs s' hI

/-! ### Rounds -/

theorem foldl_stage_commits (upload : ℕ) (parts : List (List R)) (s : UploadServer R) :
    (parts.foldl (UploadServer.stage upload) s).commits = s.commits := by
  induction parts generalizing s with
  | nil => rfl
  | cons part parts ih => exact ih _

theorem UploadServer.Open.foldl_stage {upload : ℕ} {staged : List (List R)} {s : UploadServer R}
    (h : s.Open upload staged) (parts : List (List R)) :
    (parts.foldl (UploadServer.stage upload) s).Open upload (staged ++ parts) := by
  induction parts generalizing s staged with
  | nil => simpa using h
  | cons part parts ih =>
    have hstg : (s.stage upload part).Open upload (staged ++ [part]) := by
      simp only [UploadServer.Open, UploadServer.stage, getElem?_modify]
      rw [h]
      simp
    simpa using ih hstg

theorem executeMultipartInserts_commits (input : AppendInput R) (upload : ℕ) (round : Round)
    (s : UploadServer R) :
    (executeMultipartInserts input upload round s).1.commits = s.commits := by
  unfold executeMultipartInserts
  split_ifs
  · exact foldl_stage_commits ..
  · exact foldl_stage_commits ..

variable (config : RetryConfig) (closed : ClosedReplies) (input : AppendInput R)

/-- The round gets as far as `complete`. -/
def reaches (round : Round) : Bool := created config round && !partFails input round

/-- The round is followed by another one, if there is one left. -/
def goesOn (round : Round) : Bool :=
  input.rescannable && created config round && (partFails input round || lost config closed round)

variable {config closed input}
variable {round : Round}

theorem abortRound_commits (upload : ℕ) (round : Round) (error : Status) (s : UploadServer R) :
    (abortRound config closed input upload round error s).1.commits = s.commits :=
  abort_commits ..

theorem abortRound_again {upload : ℕ} {error : Status} {s : UploadServer R} :
    (∃ e, (abortRound config closed input upload round error s).2 = .again e) ↔
      input.rescannable = true ∧ error = .retryable := by
  simp only [abortRound]
  split_ifs with h
  · simpa using h
  · simpa using h

theorem retries_eq_true {α : Type} {result : Except Status α} :
    Status.retries result = true ↔ result = .error .retryable := by
  rcases result with (_ | _) | _ <;> simp [Status.retries]

theorem abortRound_ne_ok {upload : ℕ} {error : Status} {s : UploadServer R} {v : ℕ} :
    (abortRound config closed input upload round error s).2 ≠ .done (.ok v) := by
  simp only [abortRound]
  split_ifs <;> simp

variable (closed input)

theorem attempt_of_not_created (s : UploadServer R) (h : created config round = false) :
    (attempt config closed input round s).1.commits = s.commits ∧
      (attempt config closed input round s).2 = .done (.error .retryable) := by
  obtain ⟨s₁, _, hs₁, hcms, ⟨hnew, -⟩ | ⟨-, rfl⟩⟩ := create_spec config round s
  · simp [h] at hnew
  · rw [attempt, hs₁]
    exact ⟨hcms, rfl⟩

theorem attempt_of_partFails (s : UploadServer R) (h : created config round = true)
    (hfls : partFails input round = true) :
    ∃ s' upload, s'.commits = s.commits ∧
      attempt config closed input round s =
        abortRound config closed input upload round .retryable s' := by
  obtain ⟨s₁, _, hs₁, hcms, ⟨-, upload, rfl, -⟩ | ⟨hnew, -⟩⟩ := create_spec config round s
  · have hinserts := executeMultipartInserts_commits input upload round s₁
    refine ⟨(executeMultipartInserts input upload round s₁).1, upload, hinserts.trans hcms, ?_⟩
    rw [attempt, hs₁]
    simp only [executeMultipartInserts, if_pos hfls]
  · simp [h] at hnew

theorem attempt_of_reaches (s : UploadServer R) (h : created config round = true)
    (hfls : partFails input round = false) :
    ∃ s' upload r result, s'.commits = s.commits ++ [r] ∧ r.Perm input.rows ∧
      (Status.retries result = true ↔ lost config closed round = true) ∧
      attempt config closed input round s =
        match result with
        | .ok version => (s', .done (.ok version))
        | .error error => abortRound config closed input upload round error s' := by
  obtain ⟨s₁, _, hs₁, hcms, ⟨-, upload, rfl, hopen⟩ | ⟨hnew, -⟩⟩ :=
    create_spec config round s
  · have hstaged : ((input.parts round).foldl (UploadServer.stage upload) s₁).Open upload
        (input.parts round) := by
      simpa using hopen.foldl_stage (input.parts round)
    obtain ⟨s₂, result, hs₂, hcms₂, hlost⟩ := complete_spec config closed round hstaged
    rw [foldl_stage_commits, hcms] at hcms₂
    refine ⟨s₂, upload, _, result, hcms₂, input.flatten_parts_perm round, hlost, ?_⟩
    rw [attempt, hs₁]
    simp only [executeMultipartInserts, hfls, Bool.false_eq_true, if_false, hs₂]
    cases result <;> rfl
  · simp [h] at hnew

variable (config)

/-- **What a round does**: it commits the rows once if it gets as far as `complete`, and nothing
otherwise. -/
theorem attempt_spec (round : Round) (s : UploadServer R) :
    ∃ rs, (attempt config closed input round s).1.commits = s.commits ++ rs ∧
      (∀ r ∈ rs, r.Perm input.rows) ∧
      rs.length = (if reaches config input round then 1 else 0) ∧
      ((∃ e, (attempt config closed input round s).2 = .again e) ↔
        goesOn config closed input round = true) ∧
      ∀ v, (attempt config closed input round s).2 = .done (.ok v) →
        reaches config input round = true := by
  cases hnew : created config round with
  | false =>
    obtain ⟨hcms, hres⟩ := attempt_of_not_created closed input s hnew
    exact ⟨[], by simpa using hcms, by simp, by simp [reaches, hnew],
      by simp [goesOn, hnew, hres], by simp [hres]⟩
  | true =>
    cases hfls : partFails input round with
    | true =>
      obtain ⟨s', upload, hcms, heq⟩ := attempt_of_partFails closed input s hnew hfls
      rw [heq]
      refine ⟨[], ?_, by simp, by simp [reaches, hfls], ?_, fun v hv => absurd hv abortRound_ne_ok⟩
      · rw [abortRound_commits, hcms, append_nil]
      · rw [abortRound_again]
        simp [goesOn, hnew, hfls]
    | false =>
      obtain ⟨s', upload, r, result, hcms, hp, hlost, heq⟩ :=
        attempt_of_reaches closed input s hnew hfls
      rw [heq]
      refine ⟨[r], ?_, by simpa using hp, by simp [reaches, hnew, hfls], ?_,
        fun _ _ => by simp [reaches, hnew, hfls]⟩
      · cases result with
        | ok version => exact hcms
        | error error => exact (abortRound_commits ..).trans hcms
      · rw [retries_eq_true] at hlost
        cases result with
        | ok version => simp [goesOn, hnew, hfls, ← hlost]
        | error error =>
          rw [abortRound_again]
          simp [goesOn, hnew, hfls, ← hlost]

/-! ### The operation -/

/-- The rows are committed exactly once if the operation returns `Ok`, and at most once if it
returns `Err`. -/
def ExactlyOnce (input : AppendInput R) (s : UploadServer R)
    (outcome : UploadServer R × Except Status ℕ) : Prop :=
  ∃ rs, outcome.1.commits = s.commits ++ rs ∧ (∀ r ∈ rs, r.Perm input.rows) ∧ rs.length ≤ 1 ∧
    ∀ version, outcome.2 = .ok version → rs.length = 1

/-- After `k` rounds, the rows have been committed by those that got as far as `complete`. -/
def CommittedBy (rounds : ℕ → Round) (s : UploadServer R) (k : ℕ) (s' : UploadServer R) : Prop :=
  ∃ rs, s'.commits = s.commits ++ rs ∧ (∀ r ∈ rs, r.Perm input.rows) ∧
    rs.length = (List.range k).countP fun a => reaches config input (rounds a)

variable {config input}

theorem CommittedBy.attempt {rounds : ℕ → Round} {s s' : UploadServer R} {k : ℕ}
    (h : CommittedBy config input rounds s k s') :
    CommittedBy config input rounds s (k + 1)
      (attempt config closed input (rounds k) s').1 := by
  obtain ⟨rs, hcms, hp, hlen⟩ := h
  obtain ⟨rs', hcms', hp', hlen', -⟩ := attempt_spec config closed input (rounds k) s'
  refine ⟨rs ++ rs', ?_, ?_, ?_⟩
  · rw [hcms', hcms, append_assoc]
  · intro r hr
    rcases mem_append.1 hr with hold | hnew
    · exact hp r hold
    · exact hp' r hnew
  · rw [length_append, hlen, hlen', countP_range_succ]

/-- The rounds of the operation: the last one is round `m`. -/
theorem addMultipart_spec (config : RetryConfig) (closed : ClosedReplies) (input : AppendInput R)
    (rounds : ℕ → Round) (s : UploadServer R) :
    ∃ m ≤ config.repeats, (∀ j < m, goesOn config closed input (rounds j) = true) ∧
      CommittedBy config input rounds s (m + 1) (addMultipart config closed input rounds s).1 ∧
      (goesOn config closed input (rounds m) = true → m = config.repeats) ∧
      ∀ version, (addMultipart config closed input rounds s).2 = .ok version →
        reaches config input (rounds m) = true := by
  have hn : ∀ k s' e, CommittedBy config input rounds s k s' →
      (attempt config closed input (rounds k) s').2 = .again e →
      CommittedBy config input rounds s (k + 1)
        (attempt config closed input (rounds k) s').1 := fun k s' _ hs' _ => hs'.attempt closed
  obtain ⟨m, s', -, hm, hI, hbef, hs, hend⟩ := retry_spec hn config.repeats 0 s
    ⟨[], by simp, by simp, by simp⟩
  obtain ⟨-, -, -, -, hiff, hok⟩ := attempt_spec config closed input (rounds m) s'
  have hc := hI.attempt closed
  rw [← hs] at hc
  refine ⟨m, by omega, fun j hj => ?_, hc, fun hgoes => ?_, fun version hver => ?_⟩
  · obtain ⟨sj, e, -, hagain⟩ := hbef j (Nat.zero_le j) hj
    obtain ⟨-, -, -, -, hj, -⟩ := attempt_spec config closed input (rounds j) sj
    exact hj.1 ⟨e, hagain⟩
  · obtain ⟨e, hagain⟩ := hiff.2 hgoes
    rcases hend with hd | ⟨-, -, hl, -⟩
    · rw [hd] at hagain
      cases hagain
    · omega
  · rcases hend with hd | ⟨e, -, -, herr⟩
    · exact hok version (hd.trans (congrArg _ hver))
    · rw [addMultipart, herr] at hver
      cases hver

/-- **Exactly once.**  The rows are committed exactly once if `add_multipart` returns `Ok` and at
most once if it returns `Err`, if and only if no round that got as far as `complete` is followed by
another one that does.  A round is followed by another only if a response to one of its parts, or
all responses to its `complete`, were replaced. -/
theorem multipart_exact_iff (config : RetryConfig) (closed : ClosedReplies) (input : AppendInput R)
    (rounds : ℕ → Round) (s : UploadServer R) :
    ExactlyOnce input s (addMultipart config closed input rounds s) ↔
      ¬ ∃ a b, a < b ∧ b ≤ config.repeats ∧
        (∀ j < b, goesOn config closed input (rounds j) = true) ∧
        reaches config input (rounds a) = true ∧ reaches config input (rounds b) = true := by
  obtain ⟨m, hm, hbef, ⟨rs, hcomms, hp, hlen⟩, hl, hok⟩ :=
    addMultipart_spec config closed input rounds s
  constructor
  · rintro ⟨rs', hcomms', -, hone, -⟩ ⟨a, b, hab, hb, hgoes, ha, hb'⟩
    -- the loop does not end before round `b`
    have hle : b ≤ m := by
      by_contra hlt
      have := hl (hgoes m (by omega))
      omega
    obtain rfl : rs = rs' := append_cancel_left (hcomms.symm.trans hcomms')
    have htwo : 2 ≤ rs.length := by
      rw [hlen]
      exact two_le_countP_range.2 ⟨a, b, hab, Nat.lt_succ_of_le hle, ha, hb'⟩
    omega
  · intro hn
    have hone : rs.length ≤ 1 := by
      by_contra hlt
      obtain ⟨a, b, hab, hb, ha, hb'⟩ :=
        two_le_countP_range.1 (hlen ▸ Nat.lt_of_not_le hlt)
      exact hn ⟨a, b, hab, by omega, fun j hj => hbef j (by omega), ha, hb'⟩
    refine ⟨rs, hcomms, hp, hone, fun version hver => ?_⟩
    -- the last round has got as far as `complete`
    have hpos : 0 < rs.length := by
      rw [hlen]
      exact countP_pos_iff.2
        ⟨m, mem_range.2 (Nat.lt_succ_self m), hok version hver⟩
    omega

/-- A round whose responses all arrive. -/
def calmRound : Round :=
  ⟨fun _ => false, fun _ => false, fun _ => false, fun _ => false, fun _ => false, fun _ _ => false⟩

/-- The default configuration, and two batches for two partitions. -/
def defaultRetries : RetryConfig := ⟨3, 3, 3⟩

def twoBatches : AppendInput ℕ := ⟨[[1], [2]], true, 2, Nat.two_pos, true⟩

/-- **Rows may be committed twice.**  In the first round, the server executes `complete`, and all
its responses are replaced.  The upload cannot be aborted any more, and the operation is repeated
with a new one, and succeeds. -/
theorem multipart_twice :
    addMultipart defaultRetries ⟨.ok 1, .final⟩ twoBatches
      (fun k => if k = 0 then { calmRound with complete := fun _ => true } else calmRound)
      ⟨[], []⟩ =
      (⟨[⟨[[1], [2]], .committed⟩, ⟨[[1], [2]], .committed⟩], [[1, 2], [1, 2]]⟩, .ok 2) := by
  rfl

end LanceDB.Remote
