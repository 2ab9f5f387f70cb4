import LanceDB.Remote.Multipart
import Mathlib.Data.Nat.Count

/-!
# Retries of a request

`send_with_retry` sends a request again after a failure: a status that is configured to be retried,
an error of the connection, or one of reading.  A `RetryCounter` counts the failures of each kind.
After a failure of any kind, one test compares all three counters with their limits, so a limit of
zero is reached before a failure of its kind has occurred.

* `SendCall.sendWithRetry` : the loop, over the replies to its sends.
* `retries_exact` — the sends are bounded, and the call gives up for a kind of failure that has
  reached its limit if and only if no limit is zero, or the first failure reaches its own.
* `zero_limit_gives_up` — a limit of zero disables the retries of the other kinds.
-/

namespace LanceDB.Remote

open Function

/-- What a `RetryCounter` counts. -/
inductive FailureKind
  | request
  | connect
  | read
  deriving DecidableEq

/-- `reqwest::Error`, by the tests of it. -/
structure TransportError where
  isConnect : Bool
  isTimeout : Bool
  isBody : Bool
  isDecode : Bool
  deriving DecidableEq

/-- What a round of the loop meets.  A request that cannot be cloned or built, or whose body or
headers fail, is not sent. -/
inductive Reply
  | unsent
  | response (status : ℕ)
  | failed (error : TransportError)

/-- How a call ends. -/
inductive SendEnd
  | unsent
  | response (status : ℕ)
  | http (error : TransportError)
  | retry
  deriving DecidableEq

def RetryConfig.limit (config : RetryConfig) : FailureKind → ℕ
  | .request => config.retries
  | .connect => config.connectRetries
  | .read => config.readRetries

/-- `check_out_of_retries`. -/
def RetryConfig.checkOutOfRetries (config : RetryConfig) (failures : FailureKind → ℕ) : Bool :=
  config.retries ≤ failures .request || config.connectRetries ≤ failures .connect ||
    config.readRetries ≤ failures .read

theorem RetryConfig.checkOutOfRetries_iff {config : RetryConfig} {failures : FailureKind → ℕ} :
    config.checkOutOfRetries failures = true ↔ ∃ kind, config.limit kind ≤ failures kind := by
  simp only [checkOutOfRetries, Bool.or_eq_true, decide_eq_true_eq, or_assoc]
  constructor
  · rintro (h | h | h)
    exacts [⟨.request, h⟩, ⟨.connect, h⟩, ⟨.read, h⟩]
  · rintro ⟨_ | _ | _, h⟩
    exacts [.inl h, .inr (.inl h), .inr (.inr h)]

/-- Failed requests are repeated until the counter test ends it. -/
theorem RetryConfig.le_repeats_iff {config : RetryConfig} {k : ℕ} (hk : 1 ≤ k) :
    k ≤ config.repeats ↔
      config.checkOutOfRetries (update (fun _ => 0) .request k) = false := by
  simp only [checkOutOfRetries, repeats, update_self, Bool.or_eq_false_iff,
    decide_eq_false_iff_not, update_of_ne (show FailureKind.connect ≠ .request by decide),
    update_of_ne (show FailureKind.read ≠ .request by decide)]
  split_ifs <;> omega

/-- A call of `send_with_retry`, and what it meets. -/
structure SendCall where
  config : RetryConfig
  statuses : List ℕ
  retry5xx : Bool
  replies : ℕ → Reply

namespace SendCall

variable (q : SendCall)

/-- `is_success` of a status. -/
def isSuccess (status : ℕ) : Bool := 200 ≤ status && status < 300

/-- `is_server_error` of a status. -/
def isServerError (status : ℕ) : Bool := 500 ≤ status && status < 600

/-- How the call ends with a reply, or the failure that is counted. -/
def classify : Reply → SendEnd ⊕ FailureKind
  | .unsent => .inl .unsent
  | .response status =>
    if isSuccess status then .inl (.response status)
    else if (q.retry5xx && q.statuses.contains status) ||
        (q.statuses.filter (!isServerError ·)).contains status then .inr .request
    else .inl (.response status)
  | .failed error =>
    if error.isConnect then .inr .connect
    else if error.isTimeout || error.isBody || error.isDecode then .inr .read
    else .inl (.http error)

/-- The loop of `send_with_retry` after `k` failures, for a number of rounds, with the number of
sends.  A counter is zero or below its limit when it is incremented, so it does not overflow. -/
def sendFrom : ℕ → ℕ → (FailureKind → ℕ) → Option (ℕ × SendEnd)
  | 0, _, _ => none
  | rounds + 1, k, failures =>
    match q.classify (q.replies k) with
    | .inl .unsent => some (k, .unsent)
    | .inl last => some (k + 1, last)
    | .inr kind =>
      let failures := update failures kind (failures kind + 1)
      if q.config.checkOutOfRetries failures then some (k + 1, .retry)
      else sendFrom rounds (k + 1) failures

/-- `send_with_retry`. -/
def sendWithRetry (rounds : ℕ) : Option (ℕ × SendEnd) := q.sendFrom rounds 0 fun _ => 0

/-- All retries that the limits allow. -/
def budget : ℕ := q.config.retries + q.config.connectRetries + q.config.readRetries

/-- How often a kind of failure has occurred in the first `k` sends. -/
def occurred (kind : FailureKind) (k : ℕ) : ℕ :=
  Nat.count (fun j => q.classify (q.replies j) = .inr kind) k

/-- The counters after `k` failures that have reached no limit. -/
structure Counts (k : ℕ) (failures : FailureKind → ℕ) : Prop where
  occurred : ∀ kind, failures kind = q.occurred kind k
  sum : failures .request + failures .connect + failures .read = k
  below : k = 0 ∨ ∀ kind, failures kind < q.config.limit kind

variable {q} {k : ℕ} {failures : FailureKind → ℕ} {kind : FailureKind}

theorem Counts.le (h : q.Counts k failures) : k ≤ q.budget := by
  rcases h.below with rfl | hbelow
  · exact Nat.zero_le _
  · have hsum := h.sum
    have := hbelow .request
    have := hbelow .connect
    have := hbelow .read
    simp only [RetryConfig.limit, budget] at *
    omega

theorem Counts.step (h : q.Counts k failures) (hkind : q.classify (q.replies k) = .inr kind) :
    (∀ kind', update failures kind (failures kind + 1) kind' = q.occurred kind' (k + 1)) ∧
    q.occurred .request (k + 1) + q.occurred .connect (k + 1) + q.occurred .read (k + 1) =
      k + 1 := by
  have hsucc : ∀ kind', q.occurred kind' (k + 1) =
      failures kind' + if kind' = kind then 1 else 0 := fun kind' => by
    rw [h.occurred, SendCall.occurred, Nat.count_succ, hkind]
    simp [SendCall.occurred, eq_comm]
  have hsum := h.sum
  refine ⟨fun kind' => ?_, ?_⟩
  · rw [hsucc, update_apply]
    split_ifs with hk
    · rw [hk]
    · rfl
  · simp only [hsucc]
    cases kind <;> simp <;> omega

theorem classify_ne_retry (reply : Reply) : q.classify reply ≠ .inl .retry := by
  cases reply <;> simp only [classify]
  all_goals (repeat' split) <;> simp

/-- **The loop ends**, and gives up when a limit is reached. -/
theorem sendFrom_ends {rounds : ℕ} (hrnds : q.budget < k + rounds) (h : q.Counts k failures) :
    ∃ sends last, q.sendFrom rounds k failures = some (sends, last) ∧ sends ≤ 1 + q.budget ∧
      (last = .retry → ∃ kind, q.config.limit kind ≤ q.occurred kind sends) := by
  have hk := h.le
  induction rounds generalizing k failures with
  | zero => omega
  | succ rounds ih =>
    rw [sendFrom]
    split
    · exact ⟨_, _, rfl, by omega, by simp⟩
    · rename_i last _ hl
      refine ⟨_, _, rfl, by omega, ?_⟩
      rintro rfl
      exact absurd hl (classify_ne_retry _)
    · rename_i kind hkind
      obtain ⟨hocc, hsum⟩ := h.step hkind
      simp only
      split_ifs with hout
      · refine ⟨_, _, rfl, by omega, fun _ => ?_⟩
        simp only [← hocc]
        exact RetryConfig.checkOutOfRetries_iff.1 hout
      · have hcnts : q.Counts (k + 1) (update failures kind (failures kind + 1)) := by
          refine ⟨hocc, by simpa only [hocc], .inr fun kind' => ?_⟩
          by_contra hge
          exact hout (RetryConfig.checkOutOfRetries_iff.2 ⟨kind', Nat.not_lt.1 hge⟩)
        exact ih (by omega) hcnts hcnts.le

/-- **Retries are bounded**: for every configuration and every sequence of replies the call ends,
after at most one send more than the limits allow together.  It gives up only for a kind of failure
that has occurred, and as often as its limit, if and only if no limit is zero, or the first failure
of the call reaches the limit of its kind. -/
theorem retries_exact (q : SendCall) (extra : ℕ) :
    ∃ sends last, q.sendWithRetry (q.budget + 1 + extra) = some (sends, last) ∧
      sends ≤ 1 + q.config.retries + q.config.connectRetries + q.config.readRetries ∧
      ((last = .retry → ∃ kind, 1 ≤ q.occurred kind sends ∧
          q.config.limit kind ≤ q.occurred kind sends) ↔
        (∀ kind, 1 ≤ q.config.limit kind) ∨
          ∀ kind, q.classify (q.replies 0) = .inr kind → q.config.limit kind ≤ 1) := by
  have hinit : q.Counts 0 fun _ => 0 := ⟨fun _ => by simp [SendCall.occurred], rfl, .inl rfl⟩
  have hrnds : q.budget < 0 + (q.budget + 1 + extra) := by omega
  obtain ⟨sends, last, hsend, hsends, hreached⟩ := sendFrom_ends hrnds hinit
  refine ⟨sends, last, hsend, hsends.trans (by simp only [budget]; omega), ?_⟩
  by_cases hpos : ∀ kind, 1 ≤ q.config.limit kind
  · refine ⟨fun _ => .inl hpos, fun _ hl => ?_⟩
    obtain ⟨kind, hkind⟩ := hreached hl
    exact ⟨kind, (hpos kind).trans hkind, hkind⟩
  · obtain ⟨zero, hz⟩ := not_forall.1 hpos
    rw [or_iff_right hpos]
    -- the first round is the last one
    rw [Nat.add_right_comm, sendFrom] at hsend
    split at hsend
    · rename_i hl
      cases hsend
      simp [hl]
    · rename_i hl
      cases hsend
      have hne : last ≠ .retry := by
        rintro rfl
        exact classify_ne_retry _ hl
      simp [hl, hne]
    · rename_i kind hkind
      have hout : ∃ kind', q.config.limit kind' ≤ update (fun _ => 0) kind (0 + 1) kind' :=
        ⟨zero, by omega⟩
      simp only [if_pos (RetryConfig.checkOutOfRetries_iff.2 hout)] at hsend
      cases hsend
      simp only [← (hinit.step hkind).1, hkind]
      constructor
      · rintro h _ ⟨⟩
        obtain ⟨kind', hone, hle⟩ := h trivial
        by_cases hk : kind' = kind
        · simpa [hk] using hle
        · simp [hk] at hone
      · exact fun h _ => ⟨kind, by simp, by simpa using h kind rfl⟩

/-- Three retries are allowed after failed requests, and none after errors of the connection. -/
def zeroLimit : SendCall := ⟨⟨3, 0, 3⟩, [429, 500, 502, 503], true, fun _ => .response 503⟩

/-- The first failed request is not retried, although every connection was made. -/
theorem zero_limit_gives_up : zeroLimit.sendWithRetry (zeroLimit.budget + 1) = some (1, .retry) ∧
    ¬ ∃ kind, 1 ≤ zeroLimit.occurred kind 1 ∧
      zeroLimit.config.limit kind ≤ zeroLimit.occurred kind 1 := by
  refine ⟨by decide, ?_⟩
  rintro ⟨_ | _ | _, h⟩ <;> revert h <;> decide

end SendCall

end LanceDB.Remote
