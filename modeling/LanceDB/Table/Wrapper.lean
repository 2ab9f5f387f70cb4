import LanceDB.Cache.Background

/-!
# The dataset behind a table

A `DatasetConsistencyWrapper` holds the dataset a table handle reads from.  It is either pinned to a
version or tracks the latest one, with one of three consistency modes.  Every call clones the
dataset under a lock, awaits storage without the lock, and stores its result under the lock again
if the wrapper is not pinned and the version is not older than the one it holds.  In the eventual
mode a `BackgroundCache` answers the reads.

The calls are the threads of a machine: a step is what a call does between two awaits, or between
two locks.

* `DatasetState`, `DatasetState.storeLatest` : the state behind the lock, and the guarded store.
* `wrapperMachine` : the calls `get`, `update`, `reload`, `as_branch`, `as_latest` and
  `as_time_travel`, and the refreshes that run in the background.
* `Wrapper.Moves`, `wrapper_cases` — what the calls do to the shared state, checkouts apart.
-/

namespace LanceDB

open Machine Option

/-- A branch; `none` is main. -/
abbrev Branch := Option String

/-- An open dataset. -/
structure Dataset where
  branch : Branch
  version : ℕ
  /-- What tells apart two handles of one version. -/
  handle : ℕ
  deriving DecidableEq

/-- `DatasetState`. -/
structure DatasetState where
  dataset : Dataset
  /-- `none` means tracking the latest version. -/
  pinnedVersion : Option ℕ
  querySnapshot : Bool
  deriving DecidableEq

/-- `refs::Ref`.  A version number is one of the current branch. -/
inductive Ref
  | versionNumber (version : ℕ)
  | version (branch : Branch) (version : Option ℕ)
  | tag (name : String)
  deriving DecidableEq

/-- `ConsistencyMode`. -/
inductive ConsistencyMode
  | lazy
  | strong
  | eventual (policy : CachePolicy)

/-! ### Storage -/

/-- What `checkout_latest` can return: the same branch, at a version that is not older. -/
def Dataset.Newer (dataset answer : Dataset) : Prop :=
  answer.branch = dataset.branch ∧ dataset.version ≤ answer.version

instance (dataset answer : Dataset) : Decidable (dataset.Newer answer) :=
  inferInstanceAs (Decidable (_ ∧ _))

/-- What `checkout_version` can return. -/
def Dataset.Denotes (dataset : Dataset) (ref : Ref) (answer : Dataset) : Prop :=
  match ref with
  | .versionNumber version => answer.branch = dataset.branch ∧ answer.version = version
  | .version branch version => answer.branch = branch ∧ ∀ v ∈ version, answer.version = v
  | .tag _ => True

instance (dataset : Dataset) (ref : Ref) (answer : Dataset) :
    Decidable (dataset.Denotes ref answer) := by
  unfold Dataset.Denotes
  split <;> infer_instance

/-! ### Under the lock -/

namespace DatasetState

variable (st : DatasetState)

/-- The store of `refresh_latest` and of `update`. -/
def storeLatest (dataset : Dataset) : DatasetState :=
  if st.pinnedVersion = none ∧ st.dataset.version ≤ dataset.version then
    { st with dataset := dataset }
  else st

/-- The store of `as_branch`. -/
def storeBranch (dataset : Dataset) : DatasetState := ⟨dataset, none, false⟩

/-- The store of `as_latest`. -/
def storeUnpinned (dataset : Dataset) : DatasetState :=
  if st.pinnedVersion.isSome then ⟨dataset, none, false⟩ else st

/-- The test of `as_time_travel` whether there is anything to check out. -/
def shouldCheckout (ref : Ref) : Bool :=
  match st.pinnedVersion with
  | none => true
  | some version =>
    match ref with
    | .version _ (some target) => version ≠ target
    | .version _ none => true
    | .versionNumber target => version ≠ target
    | .tag _ => true

/-- The store of `as_time_travel`. -/
def storePinned (dataset : Dataset) : DatasetState := ⟨dataset, some dataset.version, false⟩

/-- The store of `reload` on a pinned wrapper. -/
def storeReloaded (version : ℕ) (dataset : Dataset) : DatasetState :=
  if st.pinnedVersion = some version then { st with dataset := dataset } else st

/-- `current_branch`. -/
def currentBranch : Branch := st.dataset.branch

end DatasetState

/-! ### Calls -/

/-- The wrapper, with the refreshes that its cache has spawned. -/
structure Wrapper where
  state : DatasetState
  cache : Cache Dataset Unit
  /-- The dataset that the refresh of a fetch has cloned. -/
  reads : ℕ → Option Dataset
  now : ℕ

/-- Where a call is. -/
inductive WrapperCall
  | idle
  | getStart
  /-- The wrapper was not pinned. -/
  | getChecked
  /-- `try_get` had nothing fresh. -/
  | getTried
  /-- Neither had the fast path of the cache. -/
  | getSlow
  | getWaiting (future : ℕ)
  /-- In `refresh_latest`, with the dataset it has cloned. -/
  | getRefreshing (dataset : Option Dataset)
  | updating (dataset : Dataset)
  /-- Stored, but the cache is not invalidated yet. -/
  | updated (dataset : Dataset)
  | reloadStart
  | reloading (dataset : Option Dataset)
  | reloaded
  | reloadPinned (dataset : Dataset) (version : ℕ)
  | branchStart (branch : Branch)
  | branching (dataset : Dataset) (branch : Branch)
  | branched (branch : Branch)
  | latestStart
  | latesting (dataset : Dataset)
  | latested
  | travelStart (ref : Ref)
  | travelling (dataset : Dataset) (ref : Ref)
  deriving DecidableEq

/-- What can happen.  The answer of storage to a call that awaits it is `none` if it failed. -/
inductive WrapperStep
  | get
  | update (dataset : Dataset)
  | reload
  | asBranch (branch : Branch)
  | asLatest
  | asTimeTravel (ref : Ref)
  | next (answer : Option Dataset)
  /-- The refresh of a fetch moves on. -/
  | refresh (future : ℕ) (answer : Option Dataset)
  /-- The task of a fetch runs. -/
  | task (future : ℕ)
  | tick (duration : ℕ)

/-- Which function is called. -/
inductive CallKind
  | get
  | update
  | reload
  | branch
  | latest
  | travel
  deriving DecidableEq

/-- The function that a call is in. -/
def WrapperCall.kind : WrapperCall → Option CallKind
  | .idle => none
  | .getStart | .getChecked | .getTried | .getSlow | .getWaiting _ | .getRefreshing _ => some .get
  | .updating _ | .updated _ => some .update
  | .reloadStart | .reloading _ | .reloaded | .reloadPinned .. => some .reload
  | .branchStart _ | .branching .. | .branched _ => some .branch
  | .latestStart | .latesting _ | .latested => some .latest
  | .travelStart _ | .travelling .. => some .travel

/-- What a caller sees. -/
inductive WrapperEvent
  | getStarted
  | getReturned (dataset : Dataset)
  | updateStarted (dataset : Dataset)
  | updateReturned (dataset : Dataset)
  /-- The store of `as_branch`. -/
  | switched (branch : Branch)
  | branchReturned (branch : Branch)
  | travelReturned (ref : Ref)
  | done
  | failed
  deriving DecidableEq

/-- The function that an event is of, where it tells. -/
def WrapperEvent.kind : WrapperEvent → Option CallKind
  | .getStarted | .getReturned _ => some .get
  | .updateStarted _ | .updateReturned _ => some .update
  | .switched _ | .branchReturned _ => some .branch
  | .travelReturned _ => some .travel
  | .done | .failed => none

section Machine

variable (mode : ConsistencyMode)

/-- The invalidation at the end of a call. -/
def ConsistencyMode.invalidate (cache : Cache Dataset Unit) : Cache Dataset Unit :=
  match mode with
  | .eventual _ => cache.invalidate
  | _ => cache

/-- What a step returns. -/
abbrev WrapperResult := Option (Wrapper × WrapperCall × Option WrapperEvent)

/-- The steps of `get`. -/
def getNext (s : Wrapper) (answer : Option Dataset) : WrapperCall → WrapperResult
  | .getStart =>
    if s.state.pinnedVersion.isSome then some (s, .idle, some (.getReturned s.state.dataset))
    else some (s, .getChecked, none)
  | .getChecked =>
    match mode with
    | .eventual policy =>
      match s.cache.state.freshValue policy s.now with
      | some dataset => some (s, .idle, some (.getReturned dataset))
      | none => some (s, .getTried, none)
    | .strong => some (s, .getRefreshing none, none)
    | .lazy => some (s, .idle, some (.getReturned s.state.dataset))
  | .getTried =>
    match mode with
    | .eventual policy =>
      match s.cache.state.freshValue policy s.now with
      | some dataset => some (s, .idle, some (.getReturned dataset))
      | none => some (s, .getSlow, none)
    | _ => none
  | .getSlow =>
    match mode with
    | .eventual policy =>
      let (cache, action) := s.cache.determineAction policy s.now
      match action with
      | .value dataset => some ({ s with cache := cache }, .idle, some (.getReturned dataset))
      | .wait future => some ({ s with cache := cache }, .getWaiting future, none)
    | _ => none
  | .getWaiting future =>
    match s.cache.peek future with
    | some (.ok dataset) => some (s, .idle, some (.getReturned dataset))
    | some (.error _) => some (s, .idle, some .failed)
    | none => none
  | .getRefreshing none => some (s, .getRefreshing (some s.state.dataset), none)
  | .getRefreshing (some dataset) =>
    match answer with
    | none => some (s, .idle, some .failed)
    | some answer =>
      if dataset.Newer answer then
        some ({ s with state := s.state.storeLatest answer }, .idle, some (.getReturned answer))
      else none
  | _ => none

/-- The steps of `update`. -/
def updateNext (s : Wrapper) : WrapperCall → WrapperResult
  | .updating dataset =>
    if s.state.pinnedVersion.isSome then some (s, .idle, some (.updateReturned dataset))
    else some ({ s with state := s.state.storeLatest dataset }, .updated dataset, none)
  | .updated dataset =>
    some ({ s with cache := mode.invalidate s.cache }, .idle, some (.updateReturned dataset))
  | _ => none

/-- The steps of `reload`. -/
def reloadNext (s : Wrapper) (answer : Option Dataset) : WrapperCall → WrapperResult
  | .reloadStart =>
    match s.state.pinnedVersion with
    | none => some (s, .reloading none, none)
    | some version =>
      if s.state.dataset.version = version then some (s, .idle, some .done)
      else some (s, .reloadPinned s.state.dataset version, none)
  | .reloading none => some (s, .reloading (some s.state.dataset), none)
  | .reloading (some dataset) =>
    match answer with
    | none => some (s, .idle, some .failed)
    | some answer =>
      if dataset.Newer answer then
        some ({ s with state := s.state.storeLatest answer }, .reloaded, none)
      else none
  | .reloaded => some ({ s with cache := mode.invalidate s.cache }, .idle, some .done)
  | .reloadPinned dataset version =>
    match answer with
    | none => some (s, .idle, some .failed)
    | some answer =>
      if dataset.Denotes (.versionNumber version) answer then
        some ({ s with state := s.state.storeReloaded version answer }, .idle, some .done)
      else none
  | _ => none

/-- The steps of `as_branch`, `as_latest` and `as_time_travel`. -/
def checkoutNext (s : Wrapper) (answer : Option Dataset) : WrapperCall → WrapperResult
  | .branchStart branch => some (s, .branching s.state.dataset branch, none)
  | .branching _ branch =>
    match answer with
    | none => some (s, .idle, some .failed)
    | some answer =>
      if answer.branch = branch then
        some ({ s with state := .storeBranch answer }, .branched branch,
          some (.switched branch))
      else none
  | .branched branch =>
    some ({ s with cache := mode.invalidate s.cache }, .idle, some (.branchReturned branch))
  | .latestStart =>
    if s.state.pinnedVersion = none then some (s, .idle, some .done)
    else some (s, .latesting s.state.dataset, none)
  | .latesting dataset =>
    match answer with
    | none => some (s, .idle, some .failed)
    | some answer =>
      if answer.branch = dataset.branch then
        some ({ s with state := s.state.storeUnpinned answer }, .latested, none)
      else none
  | .latested => some ({ s with cache := mode.invalidate s.cache }, .idle, some .done)
  | .travelStart ref =>
    if s.state.shouldCheckout ref then some (s, .travelling s.state.dataset ref, none)
    else some (s, .idle, some (.travelReturned ref))
  | .travelling dataset ref =>
    match answer with
    | none => some (s, .idle, some .failed)
    | some answer =>
      if dataset.Denotes ref answer then
        some ({ s with state := .storePinned answer }, .idle, some (.travelReturned ref))
      else none
  | _ => none

/-- A call moves on. -/
def wrapperNext (s : Wrapper) (answer : Option Dataset) (call : WrapperCall) : WrapperResult :=
  match call.kind with
  | none => none
  | some .get => getNext mode s answer call
  | some .update => updateNext mode s call
  | some .reload => reloadNext mode s answer call
  | some .branch | some .latest | some .travel => checkoutNext mode s answer call

/-- The refresh of a fetch moves on: `refresh_latest`. -/
def refreshNext (s : Wrapper) (future : ℕ) (answer : Option Dataset) : Option Wrapper :=
  match s.cache.fetches[future]? with
  | some ⟨_, none, _⟩ =>
    match s.reads future with
    | none => some { s with reads := Function.update s.reads future (some s.state.dataset) }
    | some dataset =>
      match answer with
      | none => some { s with cache := s.cache.complete s.now future (.error ()) }
      | some answer =>
        if dataset.Newer answer then
          some { s with
            state := s.state.storeLatest answer
            cache := s.cache.complete s.now future (.ok answer) }
        else none
  | _ => none

/-- The task of a fetch runs. -/
def taskNext (s : Wrapper) (future : ℕ) : Option Wrapper :=
  match s.cache.fetches[future]? with
  | some ⟨generation, some (result, time), false⟩ =>
    some { s with
      cache := s.cache.runTask s.now future ⟨generation, some (result, time), false⟩ result }
  | _ => none

/-- A call starts. -/
def wrapperStart : WrapperStep → Option (WrapperCall × Option WrapperEvent)
  | .get => some (.getStart, some .getStarted)
  | .update dataset => some (.updating dataset, some (.updateStarted dataset))
  | .reload => some (.reloadStart, none)
  | .asBranch branch => some (.branchStart branch, none)
  | .asLatest => some (.latestStart, none)
  | .asTimeTravel ref => some (.travelStart ref, none)
  | _ => none

/-- The callers of a wrapper. -/
def wrapperMachine : Machine Wrapper WrapperCall WrapperStep WrapperEvent where
  step s call
    | .next answer => wrapperNext mode s answer call
    | .refresh future answer => (refreshNext s future answer).map (·, call, none)
    | .task future => (taskNext s future).map (·, call, none)
    | .tick duration => some ({ s with now := s.now + duration }, call, none)
    | step => if call = .idle then (wrapperStart step).map fun (call', event) => (s, call', event)
      else none

/-- The cache of a new wrapper. -/
def ConsistencyMode.newCache (dataset : Dataset) (now : ℕ) : Cache Dataset Unit :=
  match mode with
  | .eventual _ => ⟨.current dataset now, 0, []⟩
  | _ => ⟨.empty, 0, []⟩

/-- `new_latest` and, with a pin, `new_time_travel` and `new_query_snapshot`. -/
def newWrapper (dataset : Dataset) (pinned querySnapshot : Bool) (now : ℕ) :
    Config Wrapper WrapperCall where
  shared :=
    { state := ⟨dataset, if pinned then some dataset.version else none, querySnapshot⟩
      cache := mode.newCache dataset now
      reads := fun _ => none
      now := now }
  thread := fun _ => .idle

/-- What calls of any kind can bring about. -/
def Reachable (c : Config Wrapper WrapperCall) : Prop :=
  ∃ dataset pinned querySnapshot now es,
    (wrapperMachine mode).Run Condition.any (newWrapper mode dataset pinned querySnapshot now) es c

end Machine

/-! ### What calls other than checkouts do -/

/-- A checkout that may still store its dataset. -/
def WrapperCall.switching : WrapperCall → Bool
  | .branchStart _ | .branching .. | .latestStart | .latesting _ | .travelStart _
  | .travelling .. => true
  | _ => false

/-- No checkout starts or moves on. -/
def Quiet : Condition Wrapper WrapperCall WrapperStep := fun c i step =>
  match step with
  | .asBranch _ | .asLatest | .asTimeTravel _ => False
  | .next _ => (c.thread i).switching = false
  | _ => True

/-- The dataset that a step offers to the guarded store. -/
def offered (s : Wrapper) (call : WrapperCall) (step : WrapperStep) : Option Dataset :=
  match step with
  | .next answer =>
    match call with
    | .getRefreshing (some _) | .reloading (some _) => answer
    | .updating dataset => some dataset
    | _ => none
  | .refresh future answer => if (s.reads future).isSome then answer else none
  | _ => none

namespace Wrapper

/-- The moves of the shared state; `offer` is what is offered to the guarded store. -/
inductive Moves (mode : ConsistencyMode) (call : WrapperCall) (offer : Option Dataset)
    (s : Wrapper) : Wrapper → Prop
  | same : Moves mode call offer s s
  | store {dataset : Dataset} : offer = some dataset →
      Moves mode call offer s { s with state := s.state.storeLatest dataset }
  | reloaded {old dataset : Dataset} {version : ℕ} : call = .reloadPinned old version →
      dataset.version = version →
      Moves mode call offer s { s with state := s.state.storeReloaded version dataset }
  | invalidate : Moves mode call offer s { s with cache := mode.invalidate s.cache }
  | decide {policy : CachePolicy} : mode = .eventual policy →
      Moves mode call offer s { s with cache := (s.cache.determineAction policy s.now).1 }
  | read {future : ℕ} : future < s.cache.fetches.length →
      Moves mode call offer s
        { s with reads := Function.update s.reads future (some s.state.dataset) }
  | fetched {future : ℕ} {dataset answer : Dataset} : offer = some answer →
      s.reads future = some dataset → dataset.Newer answer →
      Moves mode call offer s { s with
        state := s.state.storeLatest answer
        cache := s.cache.complete s.now future (.ok answer) }
  | fetchFailed {future : ℕ} :
      Moves mode call offer s { s with cache := s.cache.complete s.now future (.error ()) }
  | task {future : ℕ} {fetch : Fetch Dataset Unit} {result : Except Unit Dataset} {t : ℕ} :
      s.cache.fetches[future]? = some fetch → fetch.result = some (result, t) →
      Moves mode call offer s { s with cache := s.cache.runTask s.now future fetch result }
  | tick (duration : ℕ) : Moves mode call offer s { s with now := s.now + duration }

/-- The stores of the checkouts. -/
inductive Switches (s : Wrapper) : Wrapper → Prop
  | branch (dataset : Dataset) : Switches s { s with state := .storeBranch dataset }
  | latest (dataset : Dataset) : Switches s { s with state := s.state.storeUnpinned dataset }
  | travel (dataset : Dataset) : Switches s { s with state := .storePinned dataset }

end Wrapper

section Cases

open Wrapper

variable {mode : ConsistencyMode} {s s' : Wrapper} {call call' : WrapperCall}
  {event : Option WrapperEvent} {answer : Option Dataset}
variable {step : WrapperStep}

theorem getNext_moves (h : getNext mode s answer call = some (s', call', event)) :
    Moves mode call (offered s call (.next answer)) s s' := by
  cases call with
  | getStart =>
    simp only [getNext] at h
    split_ifs at h <;> cases h <;> exact .same
  | getChecked =>
    simp only [getNext] at h
    split at h
    · split at h <;> cases h <;> exact .same
    · cases h
      exact .same
    · cases h
      exact .same
  | getTried =>
    simp only [getNext] at h
    split at h
    · split at h <;> cases h <;> exact .same
    · cases h
  | getSlow =>
    simp only [getNext] at h
    split at h
    · split at h <;> cases h <;> exact .decide rfl
    · cases h
  | getWaiting future =>
    simp only [getNext] at h
    split at h <;> cases h <;> exact .same
  | getRefreshing dataset =>
    cases dataset with
    | none =>
      cases h
      exact .same
    | some dataset =>
      simp only [getNext] at h
      split at h
      · cases h
        exact .same
      · split_ifs at h
        cases h
        exact .store rfl
  | _ => cases h

theorem updateNext_moves (h : updateNext mode s call = some (s', call', event)) :
    Moves mode call (offered s call (.next answer)) s s' := by
  cases call with
  | updating dataset =>
    simp only [updateNext] at h
    split_ifs at h <;> cases h
    · exact .same
    · exact .store rfl
  | updated dataset =>
    cases h
    exact .invalidate
  | _ => cases h

theorem reloadNext_moves (h : reloadNext mode s answer call = some (s', call', event)) :
    Moves mode call (offered s call (.next answer)) s s' := by
  cases call with
  | reloadStart =>
    simp only [reloadNext] at h
    split at h
    · cases h
      exact .same
    · split_ifs at h <;> cases h <;> exact .same
  | reloading dataset =>
    cases dataset with
    | none =>
      cases h
      exact .same
    | some dataset =>
      simp only [reloadNext] at h
      split at h
      · cases h
        exact .same
      · split_ifs at h
        cases h
        exact .store rfl
  | reloaded =>
    cases h
    exact .invalidate
  | reloadPinned dataset version =>
    simp only [reloadNext] at h
    split at h
    · cases h
      exact .same
    · split_ifs at h with hden
      cases h
      exact .reloaded rfl hden.2
  | _ => cases h

theorem checkoutNext_cases (h : checkoutNext mode s answer call = some (s', call', event)) :
    Moves mode call (offered s call (.next answer)) s s' ∨
      (call.switching = true ∧ Switches s s') := by
  cases call with
  | branchStart branch =>
    cases h
    exact .inl .same
  | branching dataset branch =>
    simp only [checkoutNext] at h
    split at h
    · cases h
      exact .inl .same
    · split_ifs at h
      cases h
      exact .inr ⟨rfl, .branch _⟩
  | branched | latested =>
    cases h
    exact .inl .invalidate
  | latestStart | travelStart =>
    simp only [checkoutNext] at h
    split_ifs at h <;> cases h <;> exact .inl .same
  | latesting dataset =>
    simp only [checkoutNext] at h
    split at h
    · cases h
      exact .inl .same
    · split_ifs at h
      cases h
      exact .inr ⟨rfl, .latest _⟩
  | travelling dataset ref =>
    simp only [checkoutNext] at h
    split at h
    · cases h
      exact .inl .same
    · split_ifs at h
      cases h
      exact .inr ⟨rfl, .travel _⟩
  | _ => cases h

theorem refreshNext_moves {future : ℕ} (h : refreshNext s future answer = some s') :
    Moves mode call (offered s call (.refresh future answer)) s s' := by
  simp only [refreshNext] at h
  split at h
  · rename_i hfet
    split at h
    · cases h
      exact .read (List.getElem?_eq_some_iff.1 hfet).1
    · rename_i dataset hr
      split at h
      · cases h
        exact .fetchFailed
      · split_ifs at h with hnw
        cases h
        exact .fetched (by simp [offered, hr]) hr hnw
  · cases h

theorem step_kinds (h : (wrapperMachine mode).step s call step = some (s', call', event)) :
    (∃ answer, step = .next answer ∧ wrapperNext mode s answer call = some (s', call', event)) ∨
      (call' = call ∧ event = none) ∨
      (call = .idle ∧ s' = s ∧ wrapperStart step = some (call', event)) := by
  cases step with
  | next answer => exact .inl ⟨answer, rfl, h⟩
  | refresh | task =>
    obtain ⟨s'', -, ⟨⟩⟩ := map_eq_some_iff.1 h
    exact .inr (.inl ⟨rfl, rfl⟩)
  | tick duration =>
    cases h
    exact .inr (.inl ⟨rfl, rfl⟩)
  | _ =>
    simp only [wrapperMachine] at h
    split_ifs at h with hi
    obtain ⟨⟨call'', event'⟩, hs, ⟨⟩⟩ := map_eq_some_iff.1 h
    exact .inr (.inr ⟨hi, rfl, hs⟩)

/-- A call stays in its function until it returns, and shows only events of it. -/
theorem kind_next (h : wrapperNext mode s answer call = some (s', call', event)) :
    (call' = .idle ∨ call'.kind = call.kind) ∧
      ∀ k, event.bind WrapperEvent.kind = some k → call.kind = some k := by
  cases call <;> simp only [wrapperNext, WrapperCall.kind, getNext, updateNext, reloadNext,
    checkoutNext] at h
  -- one goal for every way in which a step can end
  all_goals (repeat' split at h) <;> cases h
  all_goals simp [WrapperCall.kind, WrapperEvent.kind]

/-- **What a step does to the shared state.** -/
theorem wrapper_cases (h : (wrapperMachine mode).step s call step = some (s', call', event)) :
    Moves mode call (offered s call step) s s' ∨
      (call.switching = true ∧ (∃ answer, step = .next answer) ∧ Switches s s') := by
  cases step with
  | next answer =>
    have hn : wrapperNext mode s answer call = some (s', call', event) := h
    rw [wrapperNext] at hn
    split at hn
    · cases hn
    · exact .inl (getNext_moves hn)
    · exact .inl (updateNext_moves hn)
    · exact .inl (reloadNext_moves hn)
    all_goals exact (checkoutNext_cases hn).imp_right fun h => ⟨h.1, ⟨answer, rfl⟩, h.2⟩
  | refresh future answer =>
    obtain ⟨s'', hrefr, ⟨⟩⟩ := map_eq_some_iff.1 h
    exact .inl (refreshNext_moves hrefr)
  | task future =>
    obtain ⟨s'', htask, ⟨⟩⟩ := map_eq_some_iff.1 h
    simp only [taskNext] at htask
    split at htask
    · rename_i hfet
      cases htask
      exact .inl (.task hfet rfl)
    · cases htask
  | tick duration =>
    cases h
    exact .inl (.tick duration)
  | _ =>
    simp only [wrapperMachine] at h
    split_ifs at h
    obtain ⟨⟨call'', event'⟩, -, ⟨⟩⟩ := map_eq_some_iff.1 h
    exact .inl .same

theorem moves_of_quiet {c : Config Wrapper WrapperCall} {i : ℕ}
    (h : (wrapperMachine mode).step c.shared (c.thread i) step = some (s', call', event))
    (hq : Quiet c i step) :
    Moves mode (c.thread i) (offered c.shared (c.thread i) step) c.shared s' := by
  rcases wrapper_cases h with hm | ⟨hswitching, ⟨answer, rfl⟩, -⟩
  · exact hm
  · have : (c.thread i).switching = false := hq
    simp [hswitching] at this

end Cases

end LanceDB
