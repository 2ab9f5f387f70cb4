import LanceDB.Table.Wrapper

/-!
# Checkouts one after another

What the checkouts of a `DatasetConsistencyWrapper` select when they do not overlap.  A repository
says which versions the branches have and what the tags stand for; the checkouts of the storage
layer are assumed to resolve references as it says.

`as_time_travel` skips the checkout if the wrapper is pinned to the version number that was asked
for, whatever the branch.

* `Repo` : branches, versions and tags.
* `asBranch`, `asLatest`, `asTimeTravel` : the calls as functions on the state.
* `Calls.run` — sequences of these calls are runs of the machine of calls.
* `travel_selects_iff` — when a version checkout selects what was asked for.
-/

namespace LanceDB

open Machine Option

/-- The branches of a dataset with their versions, and its tags. -/
structure Repo where
  has : Branch → ℕ → Bool
  latest : Branch → Option ℕ
  tags : String → Option (Branch × ℕ)
  has_latest : ∀ b v, latest b = some v → has b v
  has_tag : ∀ t b v, tags t = some (b, v) → has b v

/-- What a reference denotes.  A version number is one of the current branch. -/
def Repo.denotes (repo : Repo) (current : Dataset) : Ref → Option (Branch × ℕ)
  | .versionNumber version =>
    if repo.has current.branch version then some (current.branch, version) else none
  | .version branch (some version) =>
    if repo.has branch version then some (branch, version) else none
  | .version branch none => (repo.latest branch).map (branch, ·)
  | .tag name => repo.tags name

section Calls

variable (repo : Repo) (handle : ℕ) (st : DatasetState)

/-- `as_branch`; the new dataset has some handle. -/
def asBranch (branch : Branch) : Option DatasetState := do
  let version ← repo.latest branch
  return .storeBranch ⟨branch, version, handle⟩

/-- `as_latest`. -/
def asLatest : Option DatasetState :=
  if st.pinnedVersion = none then some st
  else do
    let version ← repo.latest st.dataset.branch
    return st.storeUnpinned ⟨st.dataset.branch, version, handle⟩

/-- `as_time_travel`. -/
def asTimeTravel (ref : Ref) : Option DatasetState :=
  if st.shouldCheckout ref then do
    let (branch, version) ← repo.denotes st.dataset ref
    return .storePinned ⟨branch, version, handle⟩
  else some st

/-- What `get` returns of a pinned wrapper. -/
def DatasetState.pinnedDataset : Option Dataset := st.pinnedVersion.map fun _ => st.dataset

end Calls

/-- Successful calls one after another. -/
inductive Calls (repo : Repo) : DatasetState → DatasetState → Prop
  | refl (st : DatasetState) : Calls repo st st
  | branch {st st' st'' : DatasetState} {handle : ℕ} {branch : Branch} :
      Calls repo st st' → asBranch repo handle branch = some st'' → Calls repo st st''
  | latest {st st' st'' : DatasetState} {handle : ℕ} :
      Calls repo st st' → asLatest repo handle st' = some st'' → Calls repo st st''
  | travel {st st' st'' : DatasetState} {handle : ℕ} {ref : Ref} :
      Calls repo st st' → asTimeTravel repo handle st' ref = some st'' → Calls repo st st''

variable {repo : Repo} {handle : ℕ} {st st' st'' : DatasetState} {ref : Ref}

/-- The dataset is a version of the repository, and the pin is its number. -/
structure DatasetState.Known (repo : Repo) (st : DatasetState) : Prop where
  has : repo.has st.dataset.branch st.dataset.version
  pinned : ∀ v, st.pinnedVersion = some v → st.dataset.version = v

theorem Repo.has_of_denotes {current : Dataset} {b : Branch} {v : ℕ}
    (h : repo.denotes current ref = some (b, v)) : repo.has b v := by
  cases ref with
  | versionNumber version =>
    simp only [denotes] at h
    split_ifs at h with hhas
    cases h
    exact hhas
  | version branch version =>
    cases version with
    | none =>
      obtain ⟨v', hlat, ⟨⟩⟩ := map_eq_some_iff.1 h
      exact repo.has_latest _ _ hlat
    | some version =>
      simp only [denotes] at h
      split_ifs at h with hhas
      cases h
      exact hhas
  | tag name => exact repo.has_tag _ _ _ h

/-- What a version checkout does: it selects what the reference denotes, or nothing. -/
theorem asTimeTravel_cases (h : asTimeTravel repo handle st ref = some st') :
    (st.shouldCheckout ref = true ∧ ∃ b v, repo.denotes st.dataset ref = some (b, v) ∧
        st' = .storePinned ⟨b, v, handle⟩) ∨
      (st.shouldCheckout ref = false ∧ st' = st) := by
  rw [asTimeTravel] at h
  split_ifs at h with hshould
  · obtain ⟨⟨b, v⟩, hden, ⟨⟩⟩ := bind_eq_some_iff.1 h
    exact .inl ⟨hshould, b, v, hden, rfl⟩
  · cases h
    exact .inr ⟨by simpa using hshould, rfl⟩

theorem asLatest_cases (h : asLatest repo handle st = some st') :
    (st.pinnedVersion = none ∧ st' = st) ∨
      ∃ v, st.pinnedVersion.isSome ∧ repo.latest st.dataset.branch = some v ∧
        st' = ⟨⟨st.dataset.branch, v, handle⟩, none, false⟩ := by
  rw [asLatest] at h
  split_ifs at h with hn
  · cases h
    exact .inl ⟨hn, rfl⟩
  · obtain ⟨v, hlat, ⟨⟩⟩ := bind_eq_some_iff.1 h
    have hs : st.pinnedVersion.isSome := isSome_iff_ne_none.2 hn
    exact .inr ⟨v, hs, hlat, if_pos hs⟩

theorem Calls.known (h : Calls repo st st') (hst : st.Known repo) : st'.Known repo := by
  induction h with
  | refl => exact hst
  | branch _ hc _ =>
    obtain ⟨v, hlat, ⟨⟩⟩ := bind_eq_some_iff.1 hc
    exact ⟨repo.has_latest _ _ hlat, by simp [DatasetState.storeBranch]⟩
  | latest _ hc ih =>
    rcases asLatest_cases hc with ⟨-, rfl⟩ | ⟨v, -, hlat, rfl⟩
    · exact ih
    · exact ⟨repo.has_latest _ _ hlat, by simp⟩
  | travel _ hc ih =>
    rcases asTimeTravel_cases hc with ⟨-, b, v, hden, rfl⟩ | ⟨-, rfl⟩
    · exact ⟨Repo.has_of_denotes hden, fun _ hv => Option.some.inj hv⟩
    · exact ih

/-- The pin has the version number that is asked for, on another branch than the one asked for. -/
def Misses (st : DatasetState) (ref : Ref) : Prop :=
  ∃ b v, ref = .version b (some v) ∧ st.pinnedVersion = some v ∧ b ≠ st.dataset.branch

theorem shouldCheckout_eq_false (h : st.shouldCheckout ref = false) :
    ∃ v, st.pinnedVersion = some v ∧ (ref = .versionNumber v ∨ ∃ b, ref = .version b (some v)) := by
  rw [DatasetState.shouldCheckout] at h
  cases hpin : st.pinnedVersion with
  | none => simp [hpin] at h
  | some v =>
    rw [hpin] at h
    cases ref with
    | versionNumber target =>
      obtain rfl : v = target := by simpa using h
      exact ⟨v, rfl, .inl rfl⟩
    | version b target =>
      cases target with
      | none => simp at h
      | some target =>
        obtain rfl : v = target := by simpa using h
        exact ⟨v, rfl, .inr ⟨b, rfl⟩⟩
    | tag name => simp at h

/-- **A version checkout selects what was asked for** after any sequence of calls, except when it
finds the wrapper pinned to the same version number on another branch. -/
theorem travel_selects_iff (hst : st.Known repo) (hcalls : Calls repo st st')
    (htravel : asTimeTravel repo handle st' ref = some st'') :
    (∃ d, st''.pinnedDataset = some d ∧
        repo.denotes st'.dataset ref = some (d.branch, d.version)) ↔ ¬ Misses st' ref := by
  have hkn := hcalls.known hst
  rcases asTimeTravel_cases htravel with ⟨hshould, b, v, hden, rfl⟩ | ⟨hskip, rfl⟩
  · refine iff_of_true ⟨_, rfl, hden⟩ ?_
    rintro ⟨b', v', rfl, hpin, -⟩
    simp [DatasetState.shouldCheckout, hpin] at hshould
  · obtain ⟨v, hpin, hcs⟩ := shouldCheckout_eq_false hskip
    have hds : st''.pinnedDataset = some st''.dataset := by
      rw [DatasetState.pinnedDataset, hpin]
      rfl
    have hver := hkn.pinned v hpin
    have hhas := hkn.has
    rw [hver] at hhas
    rcases hcs with rfl | ⟨b, rfl⟩
    · -- a version number is one of the current branch
      refine iff_of_true ⟨_, hds, ?_⟩ ?_
      · simp [Repo.denotes, hhas, hver]
      · rintro ⟨_, _, hcontra, -⟩
        cases hcontra
    · constructor
      · rintro ⟨d, hd, hden⟩ ⟨b', v', href, -, hne⟩
        cases href
        obtain rfl := Option.some.inj (hds.symm.trans hd)
        simp only [Repo.denotes] at hden
        split_ifs at hden
        exact hne (congrArg Prod.fst (Option.some.inj hden))
      · intro hmiss
        obtain rfl : b = st''.dataset.branch := by
          by_contra hne
          exact hmiss ⟨b, v, rfl, hpin, hne⟩
        refine ⟨_, hds, ?_⟩
        simp [Repo.denotes, hhas, hver]

/-- A branch beside `main`, both with one version. -/
def twoBranches : Repo where
  has b v := (b = none ∨ b = some "b") ∧ v = 1
  latest b := if b = none ∨ b = some "b" then some 1 else none
  tags _ := none
  has_latest b v h := by
    split_ifs at h with hb
    cases h
    simpa using hb
  has_tag _ _ _ h := by cases h

/-- A wrapper of `main`. -/
def mainState : DatasetState := ⟨⟨none, 1, 0⟩, none, false⟩

theorem mainState_known : mainState.Known twoBranches :=
  ⟨by decide, by rintro v ⟨⟩⟩

/-- From the branch `b` to version `1` of `main`. -/
theorem travel_selects_demo :
    ∃ d, (DatasetState.storePinned ⟨none, 1, 2⟩).pinnedDataset = some d ∧
      twoBranches.denotes ⟨some "b", 1, 1⟩ (.version none (some 1)) =
        some (d.branch, d.version) := by
  have hbr : asBranch twoBranches 1 (some "b") = some (.storeBranch ⟨some "b", 1, 1⟩) := rfl
  have htravel : asTimeTravel twoBranches 2 (.storeBranch ⟨some "b", 1, 1⟩)
      (.version none (some 1)) = some (.storePinned ⟨none, 1, 2⟩) := rfl
  refine (travel_selects_iff mainState_known (.branch (.refl _) hbr) htravel).2 ?_
  rintro ⟨_, _, _, hpin, -⟩
  cases hpin

/-- Pinned to version `1` of `main`, a checkout of version `1` of the branch `b` is skipped, and
`get` returns the version of `main`. -/
theorem travel_misses :
    ∃ st st', asTimeTravel twoBranches 1 mainState (.version none (some 1)) = some st ∧
      asTimeTravel twoBranches 2 st (.version (some "b") (some 1)) = some st' ∧
      st'.pinnedDataset = some ⟨none, 1, 1⟩ ∧
      twoBranches.denotes st.dataset (.version (some "b") (some 1)) = some (some "b", 1) :=
  ⟨_, _, rfl, rfl, rfl, rfl⟩

/-! ### The calls as steps of the machine -/

section Run

variable (mode : ConsistencyMode) (s : Wrapper)

theorem get_solo {d : Dataset} (h : s.state.pinnedDataset = some d) :
    (wrapperMachine mode).solo s .idle [.get, .next none] =
      some (s, .idle, [.getStarted, .getReturned d]) := by
  obtain ⟨v, hpin, rfl⟩ := map_eq_some_iff.1 h
  simp [solo, wrapperMachine, wrapperStart, wrapperNext, WrapperCall.kind, getNext, hpin]

theorem asBranch_solo {b : Branch} (h : asBranch repo handle b = some st') :
    ∃ answer cache, (wrapperMachine mode).solo s .idle
      [.asBranch b, .next none, .next answer, .next none] =
        some ({ s with state := st', cache := cache }, .idle,
          [.switched b, .branchReturned b]) := by
  obtain ⟨v, -, ⟨⟩⟩ := bind_eq_some_iff.1 h
  refine ⟨some ⟨b, v, handle⟩, mode.invalidate s.cache, ?_⟩
  simp [solo, wrapperMachine, wrapperStart, wrapperNext, WrapperCall.kind, checkoutNext]

theorem asLatest_solo (h : asLatest repo handle s.state = some st') :
    ∃ steps cache, (wrapperMachine mode).solo s .idle steps =
      some ({ s with state := st', cache := cache }, .idle, [.done]) := by
  rcases asLatest_cases h with ⟨hn, rfl⟩ | ⟨v, hs, -, rfl⟩
  · refine ⟨[.asLatest, .next none], s.cache, ?_⟩
    simp [solo, wrapperMachine, wrapperStart, wrapperNext, WrapperCall.kind, checkoutNext, hn]
  · refine ⟨[.asLatest, .next none, .next (some ⟨s.state.dataset.branch, v, handle⟩), .next none],
      mode.invalidate s.cache, ?_⟩
    have hne : s.state.pinnedVersion ≠ none := isSome_iff_ne_none.1 hs
    simp [solo, wrapperMachine, wrapperStart, wrapperNext, WrapperCall.kind, checkoutNext, hne,
      DatasetState.storeUnpinned, hs]

theorem Repo.denotes_answer {current : Dataset} {b : Branch} {v : ℕ}
    (h : repo.denotes current ref = some (b, v)) : current.Denotes ref ⟨b, v, handle⟩ := by
  cases ref with
  | versionNumber version =>
    simp only [denotes] at h
    split_ifs at h
    cases h
    exact ⟨rfl, rfl⟩
  | version branch version =>
    cases version with
    | none =>
      obtain ⟨v', -, ⟨⟩⟩ := map_eq_some_iff.1 h
      exact ⟨rfl, by simp⟩
    | some version =>
      simp only [denotes] at h
      split_ifs at h
      cases h
      exact ⟨rfl, fun _ hv => Option.some.inj hv⟩
  | tag name => trivial

theorem asTimeTravel_solo (h : asTimeTravel repo handle s.state ref = some st') :
    ∃ steps, (wrapperMachine mode).solo s .idle steps =
      some ({ s with state := st' }, .idle, [.travelReturned ref]) := by
  rcases asTimeTravel_cases h with ⟨hshould, b, v, hden, rfl⟩ | ⟨hskip, rfl⟩
  · refine ⟨[.asTimeTravel ref, .next none, .next (some ⟨b, v, handle⟩)], ?_⟩
    simp [solo, wrapperMachine, wrapperStart, wrapperNext, WrapperCall.kind, checkoutNext, hshould,
      Repo.denotes_answer hden]
  · refine ⟨[.asTimeTravel ref, .next none], ?_⟩
    simp [solo, wrapperMachine, wrapperStart, wrapperNext, WrapperCall.kind, checkoutNext, hskip]

/-- Sequences of calls are runs of the machine in which the other threads do nothing. -/
theorem Calls.run (h : Calls repo st st') (c : Config Wrapper WrapperCall) (i : ℕ)
    (hst : c.shared.state = st) (hi : c.thread i = .idle) :
    ∃ es c', (wrapperMachine mode).Run Condition.any c es c' ∧ c'.shared.state = st' ∧
      c'.thread i = .idle := by
  induction h with
  | refl => exact ⟨[], c, .refl c, hst, hi⟩
  | branch _ hc ih =>
    obtain ⟨es, c', hrun, hs, hthr⟩ := ih
    obtain ⟨answer, cache, hsolo⟩ := asBranch_solo mode c'.shared hc
    exact ⟨_, _, hrun.trans (run_of_solo hsolo rfl hthr), rfl, Function.update_self ..⟩
  | latest _ hc ih =>
    obtain ⟨es, c', hrun, rfl, hthr⟩ := ih
    obtain ⟨steps, cache, hsolo⟩ := asLatest_solo mode c'.shared hc
    exact ⟨_, _, hrun.trans (run_of_solo hsolo rfl hthr), rfl, Function.update_self ..⟩
  | travel _ hc ih =>
    obtain ⟨es, c', hrun, rfl, hthr⟩ := ih
    obtain ⟨steps, hsolo⟩ := asTimeTravel_solo mode c'.shared hc
    exact ⟨_, _, hrun.trans (run_of_solo hsolo rfl hthr), rfl, Function.update_self ..⟩

end Run

end LanceDB
