import LanceDB.Base.Threads

/-!
# The lease of a streaming dataset

A `StreamingDataset` has one iterator at a time: an iterator holds a lease from its first row to its
end.  An exception, such as an interrupt, may be raised anywhere inside
`_acquire_consumer_iterator`; the cleanup then has to tell from the lease it finds, the lease seen
before and its thread whether the lease is its own.

* `leaseMachine` : threads that start and end iterators.
* `LeaseSound` — what every step keeps.
* `lease_owned` — every iterator holds the lease, and nobody else keeps it.
-/

namespace LanceDB

open Function Option

namespace Streaming

open Machine

/-- `_ConsumerIteratorLease`. -/
structure ConsumerLease where
  ownerToken : ℕ
  ownerThread : ℕ
  deriving DecidableEq

/-- The lease of a dataset, and the tokens of the iterators that are alive. -/
structure LeaseState where
  generation : ℕ
  lease : Option ConsumerLease
  live : List ℕ

/-- Where an exception is raised inside `_acquire_consumer_iterator`. -/
inductive Interrupt
  | beforeGeneration
  | beforeLease
  | beforeReturn

/-- Where a thread is in `_iter`, with the lease it has seen. -/
inductive Starting
  | idle
  | observed (previous : Option ConsumerLease)
  | failed (previous : Option ConsumerLease)

/-- A thread with its identity. -/
structure LeaseThread where
  ident : ℕ
  phase : Starting

/-- What a thread does.  A lock makes each of these one step, but for the read of `observe`, which
is one as it stands. -/
inductive LeaseStep
  | observe
  | acquire (interrupt : Option Interrupt)
  | cleanUp
  /-- An iterator that is alive ends. -/
  | finish (token : ℕ)
  /-- A token of an earlier lease is released. -/
  | release (token : ℕ)

namespace LeaseState

variable (d : LeaseState)

/-- `_acquire_consumer_iterator`, and whether it returns. -/
def acquire (thread : ℕ) (interrupt : Option Interrupt) : LeaseState × Bool :=
  let token := d.generation + 1
  if d.lease.isSome then (d, false)
  else
    match interrupt with
    | some .beforeGeneration => (d, false)
    | some .beforeLease => ({ d with generation := token }, false)
    | some .beforeReturn => ({ d with generation := token, lease := some ⟨token, thread⟩ }, false)
    | none => (⟨token, some ⟨token, thread⟩, token :: d.live⟩, true)

/-- `_release_consumer_iterator`. -/
def release (token : ℕ) : LeaseState :=
  if d.lease.map (·.ownerToken) = some token then { d with lease := none } else d

/-- `_release_consumer_iterator_after_failed_acquire`. -/
def releaseAfterFailedAcquire (previous : Option ConsumerLease) (thread : ℕ) : LeaseState :=
  if d.lease ≠ none ∧ d.lease ≠ previous ∧ d.lease.map (·.ownerThread) = some thread then
    { d with lease := none }
  else d

end LeaseState

/-- Threads over one dataset. -/
def leaseMachine : Machine LeaseState LeaseThread LeaseStep Unit where
  step d t
    | .observe =>
      match t.phase with
      | .idle => some (d, { t with phase := .observed d.lease }, none)
      | _ => none
    | .acquire interrupt =>
      match t.phase with
      | .observed previous =>
        let (d', returned) := d.acquire t.ident interrupt
        some (d', { t with phase := if returned then .idle else .failed previous }, none)
      | _ => none
    | .cleanUp =>
      match t.phase with
      | .failed previous =>
        some (d.releaseAfterFailedAcquire previous t.ident, { t with phase := .idle }, none)
      | _ => none
    | .finish token =>
      if token ∈ d.live then some ({ d with live := d.live.erase token }.release token, t, none)
      else none
    | .release token => if token ∈ d.live then none else some (d.release token, t, none)

/-- A new dataset. -/
def leaseStart : Machine.Config LeaseState LeaseThread := ⟨⟨0, none, []⟩, fun i => ⟨i, .idle⟩⟩

/-- The lease that a thread has seen before it starts an iterator. -/
def Starting.previous : Starting → Option (Option ConsumerLease)
  | idle => none
  | observed previous | failed previous => some previous

/-- What every step keeps. -/
structure LeaseSound (c : Machine.Config LeaseState LeaseThread) : Prop where
  ident : ∀ i, (c.thread i).ident = i
  live : ∀ t ∈ c.shared.live, c.shared.lease.map (·.ownerToken) = some t
  one : c.shared.live.length ≤ 1
  /-- A lease without an iterator is about to be cleaned up. -/
  held : ∀ l, c.shared.lease = some l → l.ownerToken ∈ c.shared.live ∨
    ∃ previous, (c.thread l.ownerThread).phase = .failed previous ∧ previous ≠ some l
  /-- The iterators of a thread that starts another one were there before. -/
  seen : ∀ i previous l, (c.thread i).phase.previous = some previous →
    c.shared.lease = some l → l.ownerThread = i → l.ownerToken ∈ c.shared.live → previous = some l
  bounded : ∀ l, c.shared.lease = some l → l.ownerToken ≤ c.shared.generation
  bounded_previous : ∀ i l, (c.thread i).phase.previous = some (some l) →
    l.ownerToken ≤ c.shared.generation

theorem LeaseSound.fires {c c' : Machine.Config LeaseState LeaseThread} {i : ℕ} {o : Option Unit}
    (h : LeaseSound c) (hf : leaseMachine.Fires Condition.any c i o c') : LeaseSound c' := by
  obtain ⟨step, t', hs, -, hthr⟩ := hf
  have hident := h.ident i
  obtain ⟨d', threads'⟩ := c'
  obtain rfl : threads' = Function.update c.thread i t' := hthr
  obtain ⟨h1, h2, h3, h4, h5, h6, h7⟩ := h
  cases step with
  | observe =>
    simp only [leaseMachine] at hs
    split at hs <;> cases hs
    constructor <;> grind [Starting.previous, update_apply]
  | acquire interrupt =>
    simp only [leaseMachine] at hs
    split at hs <;> cases hs
    rename_i previous hph
    by_cases hlease : c.shared.lease.isSome
    · -- the lease is taken
      simp only [LeaseState.acquire, if_pos hlease]
      constructor <;> grind [Starting.previous, update_apply]
    · have hlive : c.shared.live = [] := by
        refine List.eq_nil_iff_forall_not_mem.2 fun t ht => hlease ?_
        rw [← isSome_map, h2 t ht, isSome_some]
      -- the lease that was seen before is an older one
      have hnew : previous ≠ some ⟨c.shared.generation + 1, i⟩ := by
        rintro rfl
        exact absurd (h7 i _ (by rw [hph]; rfl)) (by simp)
      simp only [LeaseState.acquire, if_neg hlease, hident]
      rcases interrupt with _ | _ | _ | _
      case some.beforeReturn =>
        refine ⟨?_, ?_, ?_, ?_, ?_, ?_, ?_⟩
        case refine_4 =>
          rintro _ ⟨⟩
          exact .inr ⟨previous, by simp, hnew⟩
        all_goals grind [Starting.previous, update_apply]
      all_goals constructor <;> grind [Starting.previous, update_apply]
  | cleanUp =>
    simp only [leaseMachine] at hs
    split at hs <;> cases hs
    rename_i previous hph
    simp only [LeaseState.releaseAfterFailedAcquire]
    split_ifs with hown
    · obtain ⟨l, hl⟩ := ne_none_iff_exists'.1 hown.1
      simp only [hl, map_some, Option.some.injEq] at h2 hown
      -- no iterator is alive: it would have been there before
      have hlive : c.shared.live = [] := by
        refine List.eq_nil_iff_forall_not_mem.2 fun t ht => hown.2.1 ?_
        exact (h5 i previous l (by rw [hph]; rfl) hl (hown.2.2.trans hident) (h2 t ht ▸ ht)).symm
      constructor <;> grind [Starting.previous, update_apply]
    · constructor <;> grind [Starting.previous, update_apply]
  | finish token =>
    simp only [leaseMachine] at hs
    split_ifs at hs with hlive
    cases hs
    rw [update_eq_self]
    have hlast : c.shared.live.erase token = [] := by
      rw [← List.length_eq_zero_iff, List.length_erase_of_mem hlive]
      omega
    simp only [LeaseState.release, if_pos (h2 token hlive), hlast]
    constructor <;> grind
  | release token =>
    simp only [leaseMachine] at hs
    split_ifs at hs with hlive
    cases hs
    rw [update_eq_self]
    simp only [LeaseState.release]
    split_ifs with hown
    · constructor <;> grind
    · exact ⟨h1, h2, h3, h4, h5, h6, h7⟩

/-- **At most one owner of a streaming dataset**: every iterator that is alive holds the lease, so
there is at most one; and when no iterator is alive and every failed start has been cleaned up, the
lease is free. -/
theorem lease_owned {c : Machine.Config LeaseState LeaseThread} {es : List (ℕ × Unit)}
    (hrun : leaseMachine.Run Condition.any leaseStart es c) :
    (∀ t ∈ c.shared.live, c.shared.lease.map (·.ownerToken) = some t) ∧ c.shared.live.length ≤ 1 ∧
      (c.shared.live = [] → (∀ i previous, (c.thread i).phase ≠ .failed previous) →
        c.shared.lease = none) := by
  have hsta : LeaseSound leaseStart := by
    constructor <;> simp [leaseStart, Starting.previous]
  have h := hrun.invariant (fun _ _ _ _ hfi hc => LeaseSound.fires hc hfi) hsta
  refine ⟨h.live, h.one, fun hl hcln => ?_⟩
  cases hlease : c.shared.lease with
  | none => rfl
  | some l =>
    rcases h.held l hlease with hmem | ⟨previous, hfail, -⟩
    · simp [hl] at hmem
    · exact absurd hfail (hcln _ _)

/-- Thread 1 saw no lease before it failed to start, and leaves the lease of thread 0 alone. -/
theorem lease_owned_demo : ((leaseMachine.after leaseStart [(1, .observe), (0, .observe),
    (0, .acquire none), (1, .acquire none), (1, .cleanUp)]).shared.lease.map (·.ownerToken)) =
      some 1 :=
  (lease_owned (run_after rfl)).1 1 (by decide)

end Streaming

end LanceDB
