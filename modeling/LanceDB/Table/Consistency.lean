import LanceDB.Table.Wrapper

/-!
# Reads after writes and checkouts

What a `get` returns that starts after another call has returned.  Calls that store a dataset and
then invalidate the cache leave a wrapper that *serves* a property: its dataset has it, and so has
everything that the cache, or a refresh started since, can still bring.  A property that the guarded
store keeps is then served by every later `get`.

* `Wrapper.Serves`, `Wrapper.Serves.moves` — a property that is served stays served.
* `get_served` — a `get` that starts later returns a dataset with the property.
* `updates_and_pins` — reads see updates that have returned, and pins stay.
* `branch_undone`, `branch_kept` — a refresh in flight can undo a branch checkout, because it
  compares the version numbers of different branches; without that, the branch stays.
* `branch_kept_of_settled` — so it does when no call that has read another branch is in flight.
-/

namespace LanceDB

open Machine

variable {d : Dataset} {st : DatasetState}

namespace Wrapper

variable {mode : ConsistencyMode} {call call' : WrapperCall} {offer : Option Dataset}
  {s s' : Wrapper}

/-! ### What always holds -/

/-- The pin is the version of the dataset; no fetch is of a later generation; only fetches that
exist have cloned a dataset; and only the eventual mode uses the cache. -/
structure Sound (mode : ConsistencyMode) (s : Wrapper) : Prop where
  pinned : ∀ v, s.state.pinnedVersion = some v → s.state.dataset.version = v
  bounded : s.cache.Bounded
  reads : ∀ f d, s.reads f = some d → f < s.cache.fetches.length
  unused : (∀ policy, mode ≠ .eventual policy) → s.cache.fetches = [] ∧ s.cache.state = .empty

theorem storeLatest_cases (st : DatasetState) (d : Dataset) :
    st.storeLatest d = st ∨
      (st.pinnedVersion = none ∧ st.dataset.version ≤ d.version ∧
        st.storeLatest d = { st with dataset := d }) := by
  rw [DatasetState.storeLatest]
  split_ifs with h
  · exact .inr ⟨h.1, h.2, rfl⟩
  · exact .inl rfl

theorem Sound.storeLatest (h : Sound mode s) (d : Dataset) (v : ℕ) :
    (s.state.storeLatest d).pinnedVersion = some v →
      (s.state.storeLatest d).dataset.version = v := by
  rcases storeLatest_cases s.state d with heq | ⟨hn, -, heq⟩
  · rw [heq]
    exact h.pinned v
  · rw [heq]
    simp [hn]

theorem Sound.complete (h : Sound mode s) {f : ℕ} {result : Except Unit Dataset}
    (hst : ∀ v, st.pinnedVersion = some v → st.dataset.version = v) :
    Sound mode { s with state := st, cache := s.cache.complete s.now f result } := by
  refine ⟨hst, h.bounded.modify fun _ => rfl, fun f' d hr => ?_, fun hne => ?_⟩
  · rw [Cache.complete, List.length_modify]
    exact h.reads f' d hr
  · obtain ⟨hfs, hs⟩ := h.unused hne
    exact ⟨by rw [Cache.complete, hfs, List.modify_nil], hs⟩

theorem Sound.moves (h : Sound mode s) (hm : Moves mode call offer s s') : Sound mode s' := by
  cases hm with
  | same => exact h
  | store hoffer => exact ⟨h.storeLatest _, h.bounded, h.reads, h.unused⟩
  | @reloaded old dataset version hc hver =>
    refine ⟨fun v hv => ?_, h.bounded, h.reads, h.unused⟩
    simp only [DatasetState.storeReloaded] at hv ⊢
    split_ifs at hv ⊢ with hpin
    · exact hver.trans (Option.some.inj (hpin.symm.trans hv))
    · exact h.pinned v hv
  | invalidate =>
    cases mode with
    | eventual policy =>
      exact ⟨h.pinned, h.bounded.invalidate, h.reads, fun hne => absurd rfl (hne policy)⟩
    | _ => exact h
  | @decide policy hmode =>
    refine ⟨h.pinned, h.bounded.determineAction, fun f d hr => ?_,
      fun hne => absurd hmode (hne policy)⟩
    exact (h.reads f d hr).trans_le (Cache.length_le_determineAction ..)
  | @read future hlt =>
    refine ⟨h.pinned, h.bounded, fun f d hr => ?_, h.unused⟩
    rcases List.update_eq_cases hr with ⟨rfl, -⟩ | hold
    · exact hlt
    · exact h.reads f d hold
  | fetched hoffer hr hnw => exact h.complete (h.storeLatest _)
  | fetchFailed => exact h.complete h.pinned
  | @task future fetch result t hfet hres =>
    refine ⟨h.pinned, h.bounded.modify fun _ => rfl, fun f d hr => ?_, fun hne => ?_⟩
    · rw [Cache.runTask, List.length_modify]
      exact h.reads f d hr
    · rw [(h.unused hne).1] at hfet
      cases hfet
  | tick duration => exact ⟨h.pinned, h.bounded, h.reads, h.unused⟩

theorem Sound.switches (h : Sound mode s) (hswitch : Switches s s') : Sound mode s' := by
  cases hswitch with
  | branch d => exact ⟨by simp [DatasetState.storeBranch], h.bounded, h.reads, h.unused⟩
  | latest d =>
    refine ⟨fun v => ?_, h.bounded, h.reads, h.unused⟩
    simp only [DatasetState.storeUnpinned]
    split_ifs
    · simp
    · exact h.pinned v
  | travel d =>
    refine ⟨fun v hv => ?_, h.bounded, h.reads, h.unused⟩
    exact Option.some.inj hv

/-! ### Serving a property -/

/-- A wrapper that is not pinned serves a property: what it holds has the property, and so has what
the cache holds, what the fetches since generation `g` return, and what their refreshes have
cloned. -/
structure Serves (mode : ConsistencyMode) (P : Dataset → Prop) (g : ℕ) (s : Wrapper) : Prop where
  sound : Sound mode s
  unpinned : s.state.pinnedVersion = none
  dataset : P s.state.dataset
  cache : s.cache.Good P g
  reads : ∀ f d, s.reads f = some d → s.cache.Since g f → P d

variable {P : Dataset → Prop} {g : ℕ}

/-- The end of a call that has stored a dataset: when the cache has been invalidated, everything it
can bring is read from now on. -/
theorem Sound.serves (h : Sound mode s) (hunp : s.state.pinnedVersion = none)
    (hP : P s.state.dataset) :
    ∃ g, Serves mode P g { s with cache := mode.invalidate s.cache } := by
  have hm : Moves mode .idle none s { s with cache := mode.invalidate s.cache } := .invalidate
  have hsnd := h.moves hm
  have hemp : (∀ policy, mode ≠ .eventual policy) →
      Serves mode P 0 { s with cache := s.cache } := by
    intro hne
    obtain ⟨hfs, hs⟩ := h.unused hne
    refine ⟨h, hunp, hP, ⟨Nat.zero_le _, ?_, ?_, ?_⟩, ?_⟩
    · simp [hs, CacheState.content]
    · simp [hs, CacheState.future]
    · simp [hfs]
    · rintro f d - ⟨fetch, hfet, -⟩
      simp [hfs] at hfet
  cases mode with
  | eventual policy =>
    refine ⟨s.cache.generation + 1, hsnd, hunp, hP, Cache.good_invalidate P h.bounded, ?_⟩
    rintro f d - ⟨fetch, hfet, hle⟩
    have := h.bounded fetch (List.mem_of_getElem? hfet)
    omega
  | lazy | strong => exact ⟨0, hemp (by simp)⟩

theorem Moves.state_cases (hm : Moves mode call offer s s') (h : s.state.pinnedVersion = none) :
    s'.state = s.state ∨ ∃ d, offer = some d ∧ s.state.dataset.version ≤ d.version ∧
      s'.state = { s.state with dataset := d } := by
  cases hm with
  | store hs | fetched hs =>
    exact (storeLatest_cases s.state _).imp_right fun ⟨_, hle, heq⟩ => ⟨_, hs, hle, heq⟩
  | reloaded => exact .inl (by simp [DatasetState.storeReloaded, h])
  | _ => exact .inl rfl

/-- **A property that is served stays served**, if refreshes keep it, and if what is offered to the
guarded store and passes has it. -/
theorem Serves.moves (h : Serves mode P g s) (hnw : ∀ d d', P d → d.Newer d' → P d')
    (hoffer : ∀ d, offer = some d → s.state.dataset.version ≤ d.version → P d)
    (hm : Moves mode call offer s s') : Serves mode P g s' := by
  have hs := h.sound.moves hm
  obtain ⟨hunp, hP⟩ : s'.state.pinnedVersion = none ∧ P s'.state.dataset := by
    rcases hm.state_cases h.unpinned with hsame | ⟨d, hd, hle, heq⟩
    · rw [hsame]
      exact ⟨h.unpinned, h.dataset⟩
    · rw [heq]
      exact ⟨h.unpinned, hoffer d hd hle⟩
  cases hm with
  | same | store | reloaded | tick => exact ⟨hs, hunp, hP, h.cache, h.reads⟩
  | invalidate =>
    cases mode with
    | eventual policy => exact ⟨hs, h.unpinned, h.dataset, h.cache.invalidate, h.reads⟩
    | _ => exact h
  | decide hmode =>
    refine ⟨hs, h.unpinned, h.dataset, h.cache.determineAction, fun f d hr hsi => ?_⟩
    exact h.reads f d hr ((Cache.since_determineAction (h.sound.reads f d hr)).1 hsi)
  | @read future hlt =>
    refine ⟨hs, h.unpinned, h.dataset, h.cache, fun f d hr hsi => ?_⟩
    rcases List.update_eq_cases hr with ⟨-, hclone⟩ | hold
    · exact Option.some.inj hclone ▸ h.dataset
    · exact h.reads f d hold hsi
  | @fetched future dataset answer hsome hr hnew =>
    refine ⟨hs, hunp, hP, h.cache.complete ?_, fun f d hr' hsi => ?_⟩
    · rintro v hsi ⟨⟩
      exact hnw dataset answer (h.reads future dataset hr hsi) hnew
    · exact h.reads f d hr' (Cache.since_complete.1 hsi)
  | fetchFailed =>
    refine ⟨hs, h.unpinned, h.dataset, h.cache.complete (by simp), fun f d hr hsi => ?_⟩
    exact h.reads f d hr (Cache.since_complete.1 hsi)
  | task hfet hres =>
    refine ⟨hs, h.unpinned, h.dataset, h.cache.runTask hfet hres,
      fun f d hr hsi => ?_⟩
    exact h.reads f d hr (Cache.since_runTask.1 hsi)

/-- What a `get` under way holds has the property. -/
def Held (P : Dataset → Prop) (g : ℕ) (s : Wrapper) : WrapperCall → Prop
  | .getWaiting f => s.cache.Since g f
  | .getRefreshing (some d) => P d
  | _ => True

theorem Held.moves (h : Held P g s call) (hm : Moves mode call' offer s s') :
    Held P g s' call := by
  cases call with
  | getWaiting f =>
    have hsi : s.cache.Since g f := h
    show s'.cache.Since g f
    cases hm with
    | invalidate =>
      cases mode with
      | eventual policy => exact hsi
      | _ => exact hsi
    | decide hmode => exact (Cache.since_determineAction hsi.lt).2 hsi
    | fetched | fetchFailed => exact Cache.since_complete.2 hsi
    | task => exact Cache.since_runTask.2 hsi
    | _ => exact hsi
  | getRefreshing d =>
    cases d with
    | none => trivial
    | some d => exact h
  | _ => trivial

end Wrapper

/-- A `get` that has seen that the wrapper is not pinned. -/
def WrapperCall.reading : WrapperCall → Bool
  | .getChecked | .getTried | .getSlow | .getWaiting _ | .getRefreshing _ => true
  | _ => false

section Served

open Wrapper

variable {mode : ConsistencyMode} {call call' : WrapperCall} {s s' : Wrapper}
  {event : Option WrapperEvent} {answer : Option Dataset} {P : Dataset → Prop} {g : ℕ}
variable {step : WrapperStep}

theorem getNext_served (h : getNext mode s answer call = some (s', call', event))
    (hs : Serves mode P g s) (hs' : Serves mode P g s') (hc : Held P g s call)
    (hnw : ∀ d d', P d → d.Newer d' → P d') :
    Held P g s' call' ∧ ∀ d, event = some (.getReturned d) → P d := by
  have hreturn : ∀ {d : Dataset}, P d →
      ∀ d', some (WrapperEvent.getReturned d) = some (.getReturned d') → P d' := by
    rintro d hd _ ⟨⟩
    exact hd
  cases call with
  | getStart =>
    simp only [getNext, hs.unpinned] at h
    cases h
    exact ⟨trivial, by simp⟩
  | getChecked =>
    simp only [getNext] at h
    split at h
    · split at h <;> cases h
      · exact ⟨trivial, hreturn (hs.cache.freshValue ‹_›)⟩
      · exact ⟨trivial, by simp⟩
    · cases h
      exact ⟨trivial, by simp⟩
    · cases h
      exact ⟨trivial, hreturn hs.dataset⟩
  | getTried =>
    simp only [getNext] at h
    split at h
    · split at h <;> cases h
      · exact ⟨trivial, hreturn (hs.cache.freshValue ‹_›)⟩
      · exact ⟨trivial, by simp⟩
    · cases h
  | getSlow =>
    simp only [getNext] at h
    split at h
    · split at h <;> cases h
      · exact ⟨trivial, hreturn (hs.cache.value ‹_›)⟩
      · exact ⟨hs.cache.wait ‹_›, by simp⟩
    · cases h
  | getWaiting future =>
    simp only [getNext] at h
    split at h <;> cases h
    · exact ⟨trivial, hreturn (hs.cache.peek hc ‹_›)⟩
    · exact ⟨trivial, by simp⟩
  | getRefreshing dataset =>
    cases dataset with
    | none =>
      cases h
      exact ⟨hs.dataset, by simp⟩
    | some dataset =>
      simp only [getNext] at h
      split at h
      · cases h
        exact ⟨trivial, by simp⟩
      · split_ifs at h with hnew
        cases h
        exact ⟨trivial, hreturn (hnw dataset _ hc hnew)⟩
  | _ => cases h

theorem held_of_not_reading (h : call.reading = false) : Held P g s call := by
  cases call with
  | getWaiting | getRefreshing => cases h
  | _ => trivial

theorem kind_of_reading (h : call.reading = true) : call.kind = some .get := by
  cases call <;> first | rfl | cases h

theorem get_cases (h : (wrapperMachine mode).step s call step = some (s', call', event)) :
    (∃ answer, getNext mode s answer call = some (s', call', event)) ∨
      ((call' = call ∧ event = none ∨ call'.reading = false) ∧
        ∀ d, event ≠ some (.getReturned d)) := by
  rcases step_kinds h with ⟨answer, rfl, hn⟩ | ⟨hc, hev⟩ | ⟨-, -, hs⟩
  · by_cases hget : call.kind = some .get
    · rw [wrapperNext, hget] at hn
      exact .inl ⟨answer, hn⟩
    · obtain ⟨hc', hev⟩ := kind_next hn
      refine .inr ⟨.inr ?_, ?_⟩
      · by_contra hrd
        rw [Bool.not_eq_false] at hrd
        rcases hc' with rfl | hk
        · cases hrd
        · exact hget (hk ▸ kind_of_reading hrd)
      · rintro d rfl
        exact hget (hev .get rfl)
  · exact .inr ⟨.inl ⟨hc, hev⟩, by simp [hev]⟩
  · cases step <;> cases hs <;> exact .inr ⟨.inr rfl, by simp⟩

/-! ### Gets that start later -/

variable {C : Condition Wrapper WrapperCall WrapperStep} {c c' : Config Wrapper WrapperCall}
variable {post : List (ℕ × WrapperEvent)}

/-- A condition under which a property stays served. -/
structure Preserves (mode : ConsistencyMode) (C : Condition Wrapper WrapperCall WrapperStep)
    (P : Dataset → Prop) (g : ℕ) : Prop where
  quiet : ∀ c i step, C c i step → Quiet c i step
  newer : ∀ d d', P d → d.Newer d' → P d'
  offered : ∀ c i step d, C c i step → Serves mode P g c.shared →
    offered c.shared (c.thread i) step = some d → c.shared.state.dataset.version ≤ d.version → P d

theorem Preserves.serves (hC : Preserves mode C P g) {i : ℕ}
    (h : (wrapperMachine mode).step c.shared (c.thread i) step = some (s', call', event))
    (hc : C c i step) (hs : Serves mode P g c.shared) : Serves mode P g s' :=
  hs.moves hC.newer (fun d hd => hC.offered c i step d hc hs hd)
    (moves_of_quiet h (hC.quiet c i step hc))

theorem Preserves.follows (hC : Preserves mode C P g) :
    (wrapperMachine mode).Follows C (fun c => Serves mode P g c.shared) (Held P g) where
  keeps hf hs := by
    obtain ⟨step, call', hstep, hc, -⟩ := hf
    exact hC.serves hstep hc hs
  own {c i step s' call' event} hstep hc hs hheld := by
    rcases get_cases hstep with ⟨answer, hget⟩ | ⟨⟨rfl, -⟩ | hrd, -⟩
    · exact (getNext_served hget hs (hC.serves hstep hc hs) hheld hC.newer).1
    · exact hheld.moves (moves_of_quiet hstep (hC.quiet c i step hc))
    · exact held_of_not_reading hrd
  other {c i step s' call' event} hstep hc hs k hk :=
    hk.moves (moves_of_quiet hstep (hC.quiet c i step hc))

theorem getNext_event (h : getNext mode s answer call = some (s', call', event)) :
    event ≠ some .getStarted := by
  cases call <;> simp only [getNext] at h
  all_goals (repeat' split at h) <;> cases h
  all_goals simp

theorem not_reading_of_started
    (h : (wrapperMachine mode).step s call step = some (s', call', some .getStarted)) :
    call'.reading = false := by
  rcases get_cases h with ⟨answer, hget⟩ | ⟨⟨-, hn⟩ | hrd, -⟩
  · exact absurd rfl (getNext_event hget)
  · cases hn
  · exact hrd

/-- **A `get` that starts while a property is served returns a dataset that has it.** -/
theorem get_served (hC : Preserves mode C P g) (hs : Serves mode P g c.shared) {j : ℕ}
    {mid : List (ℕ × WrapperEvent)} (h : (wrapperMachine mode).Run C c
    (mid ++ (j, .getStarted) :: (post ++ [(j, .getReturned d)])) c') : P d := by
  obtain ⟨c₁, c₂, hs₁, hheld, ⟨step, call', hstep, hc, -⟩, -⟩ :=
    h.follow hC.follows hs fun _ _ _ _ hstep _ _ =>
      held_of_not_reading (not_reading_of_started hstep)
  rcases get_cases hstep with ⟨answer, hget⟩ | ⟨-, hev⟩
  · exact (getNext_served hget hs₁ (hC.serves hstep hc hs₁) hheld hC.newer).2 d rfl
  · exact absurd rfl (hev d)

/-! ### Reachable wrappers -/

/-- A `reload` never finds a pinned wrapper whose dataset is not at the pin. -/
def Unreloaded (call : WrapperCall) : Prop := ∀ d v, call ≠ .reloadPinned d v

theorem unreloaded_step (h : (wrapperMachine mode).step s call step = some (s', call', event))
    (hs : Sound mode s) (hc : Unreloaded call) : Unreloaded call' := by
  rintro d v rfl
  rcases step_kinds h with ⟨answer, -, hn⟩ | ⟨hc', -⟩ | ⟨-, -, hst⟩
  · have hk : call.kind = some .reload := by
      rcases (kind_next hn).1 with hi | hk
      · cases hi
      · exact hk.symm
    rw [wrapperNext, hk] at hn
    cases call with
    | reloadStart =>
      simp only [reloadNext] at hn
      split at hn
      · cases hn
      · split_ifs at hn with hver
        · cases hn
        · exact hver (hs.pinned _ ‹_›)
    | reloading dataset =>
      cases dataset with
      | none => cases hn
      | some dataset =>
        simp only [reloadNext] at hn
        (repeat' split at hn) <;> cases hn
    | reloaded => cases hn
    | reloadPinned old version => exact hc old version rfl
    | _ => cases hk
  · exact hc d v hc'.symm
  · cases step <;> cases hst

theorem keeps_sound :
    (wrapperMachine mode).Keeps Condition.any (Sound mode) fun _ _ call => Unreloaded call := by
  intro c i step s' call' event hs _ hc
  refine ⟨?_, unreloaded_step hs hc.shared (hc.thread i), fun k _ hk => hk⟩
  rcases wrapper_cases hs with hm | ⟨-, -, hsw⟩
  · exact hc.shared.moves hm
  · exact hc.shared.switches hsw

theorem Reachable.sound (h : Reachable mode c) :
    Holds (Sound mode) (fun _ _ call => Unreloaded call) c := by
  obtain ⟨dataset, pinned, querySnapshot, now, es, hrun⟩ := h
  refine hrun.invariants keeps_sound ⟨⟨?_, ?_, ?_, ?_⟩, fun _ d v => by simp [newWrapper]⟩
  · intro v hv
    simp only [newWrapper] at hv ⊢
    split_ifs at hv
    exact Option.some.inj hv
  · cases mode <;> simp [newWrapper, ConsistencyMode.newCache, Cache.Bounded]
  · simp [newWrapper]
  · intro hne
    cases mode with
    | eventual policy => exact absurd rfl (hne policy)
    | _ => exact ⟨rfl, rfl⟩

/-! ### Updates and pins -/

theorem le_storeLatest (h : st.pinnedVersion = none) (d : Dataset) :
    d.version ≤ (st.storeLatest d).dataset.version := by
  rw [DatasetState.storeLatest]
  split_ifs with hle
  · exact le_rfl
  · exact (lt_of_not_ge fun hge => hle ⟨h, hge⟩).le

theorem Wrapper.Moves.grows {offer : Option Dataset} (hm : Moves mode call offer s s')
    (h : s.state.pinnedVersion = none) :
    s.state.dataset.version ≤ s'.state.dataset.version ∧ s'.state.pinnedVersion = none := by
  rcases hm.state_cases h with hs | ⟨d, -, hle, heq⟩
  · rw [hs]
    exact ⟨le_rfl, h⟩
  · rw [heq]
    exact ⟨hle, h⟩

/-- What holds of a wrapper that is not pinned. -/
structure Unpinned (mode : ConsistencyMode) (s : Wrapper) : Prop where
  sound : Sound mode s
  unpinned : s.state.pinnedVersion = none

/-- An update that has stored its dataset is not lost. -/
def Stored (s : Wrapper) (call : WrapperCall) : Prop :=
  ∀ d, call = .updated d → d.version ≤ s.state.dataset.version

/-- What the steps of an update do: it stores its dataset, and returns when it has invalidated the
cache, or if the wrapper is pinned. -/
theorem update_cases (h : (wrapperMachine mode).step s call step = some (s', call', event))
    (d : Dataset) :
    (event = some (.updateStarted d) → call' = .updating d) ∧
    (call' = .updated d →
      call = .updated d ∨ (call = .updating d ∧ s'.state = s.state.storeLatest d)) ∧
    (event = some (.updateReturned d) →
      (call = .updating d ∧ s.state.pinnedVersion.isSome) ∨
        (call = .updated d ∧ s' = { s with cache := mode.invalidate s.cache })) := by
  rcases step_kinds h with ⟨answer, -, hn⟩ | ⟨rfl, rfl⟩ | ⟨-, -, hs⟩
  · by_cases hk : call.kind = some .update
    · rw [wrapperNext, hk] at hn
      cases call with
      | updating dataset =>
        simp only [updateNext] at hn
        split_ifs at hn with hpin <;> cases hn
        · simp [hpin]
        · simp +contextual
      | updated dataset =>
        cases hn
        simp
      | _ => cases hk
    · -- the other calls show nothing of an update
      obtain ⟨hc', hev⟩ := kind_next hn
      refine ⟨?_, ?_, ?_⟩
      · rintro rfl
        exact absurd (hev .update rfl) hk
      · rintro rfl
        rcases hc' with hi | hsame
        · cases hi
        · exact absurd hsame.symm hk
      · rintro rfl
        exact absurd (hev .update rfl) hk
  · simp +contextual
  · cases step <;> cases hs <;> simp

theorem follows_stored :
    (wrapperMachine mode).Follows Quiet (fun c => Unpinned mode c.shared) Stored where
  keeps hf hc := by
    obtain ⟨step, call', hs, hq, -⟩ := hf
    have hm := moves_of_quiet hs hq
    exact ⟨hc.sound.moves hm, (hm.grows hc.unpinned).2⟩
  own hs hq hc hsto d hd := by
    rcases (update_cases hs d).2.1 hd with hold | ⟨-, hst⟩
    · exact (hsto d hold).trans ((moves_of_quiet hs hq).grows hc.unpinned).1
    · rw [hst]
      exact le_storeLatest hc.unpinned d
  other hs hq hc k hk d hd :=
    (hk d hd).trans ((moves_of_quiet hs hq).grows hc.unpinned).1

theorem get_after_update (hc : Reachable mode c) (hunp : c.shared.state.pinnedVersion = none)
    {i j : ℕ} {d' : Dataset} {pre mid₁ mid₂ : List (ℕ × WrapperEvent)}
    (h : (wrapperMachine mode).Run Quiet c (pre ++ (i, .updateStarted d) ::
    (mid₁ ++ (i, .updateReturned d) ::
    (mid₂ ++ (j, .getStarted) :: (post ++ [(j, .getReturned d')])))) c') :
    d.version ≤ d'.version := by
  -- from its start on, the update is followed
  obtain ⟨c₁, c₂, hc₁, hsto, ⟨step, call', hstep, -, -⟩, h⟩ :=
    h.follow follows_stored ⟨hc.sound.shared, hunp⟩ fun _ _ _ _ hstep _ _ e he => by
      rw [(update_cases hstep d).1 rfl] at he
      cases he
  obtain ⟨hcall, hc₂⟩ : c₁.thread i = .updated d ∧
      c₂.shared = { c₁.shared with cache := mode.invalidate c₁.shared.cache } := by
    rcases (update_cases hstep d).2.2 rfl with ⟨-, hpin⟩ | hupdated
    · simp [hc₁.unpinned] at hpin
    · exact hupdated
  obtain ⟨g, hsrv⟩ := hc₁.sound.serves (P := fun e => d.version ≤ e.version) hc₁.unpinned
    (hsto d hcall)
  rw [← hc₂] at hsrv
  have hpres : Preserves mode Quiet (fun e => d.version ≤ e.version) g :=
    ⟨fun _ _ _ hq => hq, fun _ _ hle hnw => hle.trans hnw.2,
      fun _ _ _ _ _ hs _ hver => hs.dataset.trans hver⟩
  exact get_served hpres hsrv h

theorem getNext_pinned (h : getNext mode s answer call = some (s', call', event))
    (hc : call.reading = false) (hpin : s.state.pinnedVersion.isSome) :
    call' = .idle ∧ event = some (.getReturned s.state.dataset) := by
  cases call with
  | getStart =>
    simp only [getNext, if_pos hpin] at h
    cases h
    exact ⟨rfl, rfl⟩
  | getChecked | getTried | getSlow | getWaiting | getRefreshing => cases hc
  | _ => cases h

theorem keeps_pinned {v : ℕ} (hst : st.pinnedVersion = some v) :
    (wrapperMachine mode).Keeps Quiet (fun s => Sound mode s ∧ s.state = st) fun _ _ call =>
      Unreloaded call := by
  intro c i step s' call' event hstep hq hc
  obtain ⟨hs, hsta⟩ := hc.shared
  have hm := moves_of_quiet hstep hq
  have hlat : ∀ d, c.shared.state.storeLatest d = st := fun d => by
    rw [DatasetState.storeLatest, hsta, if_neg (by simp [hst])]
  refine ⟨⟨hs.moves hm, ?_⟩, unreloaded_step hstep hs (hc.thread i), fun k _ hk => hk⟩
  cases hm with
  | store | fetched => exact hlat _
  | reloaded hcall => exact absurd hcall (hc.thread i _ _)
  | _ => exact hsta

theorem follows_pinned {v : ℕ} (hst : st.pinnedVersion = some v) :
    (wrapperMachine mode).Follows Quiet
      (Holds (fun s => Sound mode s ∧ s.state = st) fun _ _ call => Unreloaded call)
      fun _ call => call.reading = false where
  keeps hf hc := hf.holds (keeps_pinned hst) hc
  own hstep _ hc hrd := by
    rcases get_cases hstep with ⟨answer, hget⟩ | ⟨⟨hs, -⟩ | hnot, -⟩
    · rw [(getNext_pinned hget hrd (by simp [hc.shared.2, hst])).1]
      rfl
    · rwa [hs]
    · exact hnot
  other _ _ _ _ hk := hk

theorem get_pinned (hc : Reachable mode c) {v : ℕ} (hv : c.shared.state.pinnedVersion = some v)
    {j : ℕ} {pre : List (ℕ × WrapperEvent)}
    (h : (wrapperMachine mode).Run Quiet c (pre ++ (j, .getStarted) ::
    (post ++ [(j, .getReturned d)])) c') : d = c.shared.state.dataset := by
  obtain ⟨c₁, c₂, hc₁, hrd, ⟨step, call', hs, -, -⟩, -⟩ :=
    h.follow (follows_pinned hv) ⟨⟨hc.sound.shared, rfl⟩, hc.sound.thread⟩
      fun _ _ _ _ hs _ _ => not_reading_of_started hs
  have hst := hc₁.shared.2
  rcases get_cases hs with ⟨answer, hget⟩ | ⟨-, hev⟩
  · cases (getNext_pinned hget hrd (by simp [hst, hv])).2
    rw [hst]
  · exact absurd rfl (hev d)

/-- **Reads after updates, and stable pins.**  In every mode, and from every wrapper that calls of
any kind can bring about, as long as no checkout starts or moves on: if the wrapper is not pinned,
a `get` that starts after an update has returned yields a version that is not older; if it is
pinned, its state stays as it is, and every `get` returns the pinned dataset. -/
theorem updates_and_pins (hc : Reachable mode c) :
    (c.shared.state.pinnedVersion = none →
      ∀ {i j : ℕ} {d d' : Dataset} {pre mid₁ mid₂ post : List (ℕ × WrapperEvent)} {c'},
        (wrapperMachine mode).Run Quiet c (pre ++ (i, .updateStarted d) ::
          (mid₁ ++ (i, .updateReturned d) ::
            (mid₂ ++ (j, .getStarted) :: (post ++ [(j, .getReturned d')])))) c' →
        d.version ≤ d'.version) ∧
    (∀ v, c.shared.state.pinnedVersion = some v →
      (∀ {es c'}, (wrapperMachine mode).Run Quiet c es c' → c'.shared.state = c.shared.state) ∧
      ∀ {j : ℕ} {d : Dataset} {pre post : List (ℕ × WrapperEvent)} {c'},
        (wrapperMachine mode).Run Quiet c (pre ++ (j, .getStarted) ::
          (post ++ [(j, .getReturned d)])) c' →
        d = c.shared.state.dataset) := by
  refine ⟨fun hunp _ _ _ _ _ _ _ _ _ h => get_after_update hc hunp h,
    fun v hv => ⟨?_, ?_⟩⟩
  · intro es c' h
    exact (h.invariants (keeps_pinned hv) ⟨⟨hc.sound.shared, rfl⟩, hc.sound.thread⟩).shared.2
  · exact fun h => get_pinned hc hv h

/-- The conditions that can be computed. -/
def quietCheck (c : Config Wrapper WrapperCall) (i : ℕ) (step : WrapperStep) : Bool :=
  match step with
  | .asBranch _ | .asLatest | .asTimeTravel _ => false
  | .next _ => !(c.thread i).switching
  | _ => true

theorem quiet_of_check (c : Config Wrapper WrapperCall) (i : ℕ) (step : WrapperStep)
    (h : quietCheck c i step) : Quiet c i step := by
  cases step <;> simp_all [quietCheck, Quiet]

/-- A wrapper in the eventual mode, at version 1 of main. -/
def demoWrapper : Config Wrapper WrapperCall :=
  newWrapper (.eventual demoPolicy) ⟨none, 1, 0⟩ false false 0

/-- Version 2 is written, and a read finds version 3. -/
theorem updates_and_pins_demo :
    ∃ c', (wrapperMachine (.eventual demoPolicy)).Run Quiet demoWrapper
      [(0, .updateStarted ⟨none, 2, 0⟩), (0, .updateReturned ⟨none, 2, 0⟩), (1, .getStarted),
        (1, .getReturned ⟨none, 3, 0⟩)] c' ∧
      (⟨none, 2, 0⟩ : Dataset).version ≤ (⟨none, 3, 0⟩ : Dataset).version := by
  obtain ⟨c', hexec⟩ : ∃ c', (wrapperMachine (.eventual demoPolicy)).exec quietCheck
      demoWrapper
      [(0, .update ⟨none, 2, 0⟩), (0, .next none), (0, .next none), (1, .get), (1, .next none),
        (1, .next none), (1, .next none), (1, .next none), (2, .refresh 0 none),
        (2, .refresh 0 (some ⟨none, 3, 0⟩)), (1, .next none)] =
      some (c', [(0, .updateStarted ⟨none, 2, 0⟩), (0, .updateReturned ⟨none, 2, 0⟩),
        (1, .getStarted), (1, .getReturned ⟨none, 3, 0⟩)]) := ⟨_, rfl⟩
  have hrun : (wrapperMachine (.eventual demoPolicy)).Run Quiet demoWrapper
      ([] ++ (0, .updateStarted ⟨none, 2, 0⟩) :: ([] ++ (0, .updateReturned ⟨none, 2, 0⟩) ::
        ([] ++ (1, .getStarted) :: ([] ++ [(1, .getReturned ⟨none, 3, 0⟩)])))) c' :=
    run_of_exec quiet_of_check hexec
  have hreachable : Reachable (.eventual demoPolicy) demoWrapper :=
    ⟨⟨none, 1, 0⟩, false, false, 0, [], .refl _⟩
  exact ⟨c', hrun, (updates_and_pins hreachable).1 rfl hrun⟩

/-! ### Branches -/

/-- No dataset of another branch passes the guarded store. -/
def NoStale : Condition Wrapper WrapperCall WrapperStep := fun c i step =>
  Quiet c i step ∧ ∀ d, offered c.shared (c.thread i) step = some d →
    d.branch ≠ c.shared.state.dataset.branch → d.version < c.shared.state.dataset.version

theorem branch_cases (h : (wrapperMachine mode).step s call step = some (s', call', event))
    (b : Branch) :
    (event = some (.switched b) → ∃ d : Dataset, d.branch = b ∧ s'.state = .storeBranch d) ∧
    (event = some (.branchReturned b) → s' = { s with cache := mode.invalidate s.cache }) := by
  rcases step_kinds h with ⟨answer, -, hn⟩ | ⟨-, rfl⟩ | ⟨-, -, hs⟩
  · by_cases hk : call.kind = some .branch
    · rw [wrapperNext, hk] at hn
      cases call with
      | branchStart | branched =>
        cases hn
        simp
      | branching dataset branch =>
        simp only [checkoutNext] at hn
        split at hn
        · cases hn
          simp
        · split_ifs at hn with hbr
          cases hn
          exact ⟨by rintro ⟨⟩; exact ⟨_, hbr, rfl⟩, by simp⟩
      | _ => cases hk
    · refine ⟨?_, ?_⟩ <;>
      · rintro rfl
        exact absurd ((kind_next hn).2 .branch rfl) hk
  · simp
  · cases step <;> cases hs <;> simp

theorem keeps_branch (b : Branch) :
    (wrapperMachine mode).Keeps NoStale
      (fun s => Unpinned mode s ∧ s.state.dataset.branch = b) fun _ _ _ => True := by
  intro c i step s' call' event hstep hcond hc
  obtain ⟨hunp, hbr⟩ := hc.shared
  have hm := moves_of_quiet hstep hcond.1
  refine ⟨⟨⟨hunp.sound.moves hm, (hm.grows hunp.unpinned).2⟩, ?_⟩, trivial,
    fun _ _ h => h⟩
  rcases hm.state_cases hunp.unpinned with hs | ⟨d, hd, hle, heq⟩
  · rw [hs, hbr]
  · -- what passes the guard is of this branch
    rw [heq]
    by_contra hne
    exact absurd (hcond.2 d hd (by rwa [hbr])) (not_lt.2 hle)

theorem switched_holds (hc : Reachable mode c) {i : ℕ} {b : Branch}
    {c₁ : Config Wrapper WrapperCall}
    (hswitch : (wrapperMachine mode).Fires Condition.any c i (some (.switched b)) c₁) :
    Unpinned mode c₁.shared ∧ c₁.shared.state.dataset.branch = b := by
  have hs₁ := hswitch.holds keeps_sound hc.sound
  obtain ⟨step, call', hstep, -, -⟩ := hswitch
  obtain ⟨d, hd, hs⟩ := (branch_cases hstep b).1 rfl
  exact ⟨⟨hs₁.shared, by rw [hs]; rfl⟩, by rw [hs]; exact hd⟩

theorem returned_kept {i : ℕ} {b : Branch} {c₁ c₂ : Config Wrapper WrapperCall}
    (hc₁ : Unpinned mode c₁.shared ∧ c₁.shared.state.dataset.branch = b)
    {mid post : List (ℕ × WrapperEvent)}
    (h : (wrapperMachine mode).Run NoStale c₁ (mid ++ (i, .branchReturned b) :: post) c₂) :
    c₂.shared.state.currentBranch = b ∧
      ∀ j d pre rest, post = pre ++ (j, .getStarted) :: (rest ++ [(j, .getReturned d)]) →
        d.branch = b := by
  obtain ⟨c₃, c₄, hmid, hret, hpost⟩ := h.of_append_cons
  have hbr₃ := hmid.invariants (keeps_branch b) ⟨hc₁, fun _ => trivial⟩
  obtain ⟨step, call', hstep, -, -⟩ := hret
  have hc₄ := (branch_cases hstep b).2 rfl
  obtain ⟨g, hsrv⟩ := hbr₃.shared.1.sound.serves (P := fun e => e.branch = b)
    hbr₃.shared.1.unpinned hbr₃.shared.2
  rw [← hc₄] at hsrv
  have hpres : Preserves mode NoStale (fun e => e.branch = b) g := by
    refine ⟨fun _ _ _ hc => hc.1, fun _ _ hd hnw => hnw.1.trans hd, ?_⟩
    intro c i step d hc hs hd hle
    by_contra hne
    exact absurd (hc.2 d hd (by rwa [hs.dataset])) (not_lt.2 hle)
  constructor
  · exact (hpost.invariant (fun _ _ _ _ => hpres.follows.keeps) hsrv).dataset
  · rintro j d pre rest rfl
    exact get_served hpres hsrv hpost

/-- **A branch checkout is kept** as long as no other checkout starts or moves on, and no call
offers a dataset of another branch whose version number is not smaller: when it has returned, the
wrapper tracks the branch, and every `get` that starts then returns a dataset of it. -/
theorem branch_kept (hc : Reachable mode c) {i : ℕ} {b : Branch}
    {c₁ c₂ : Config Wrapper WrapperCall}
    (hswitch : (wrapperMachine mode).Fires Condition.any c i (some (.switched b)) c₁)
    {mid post : List (ℕ × WrapperEvent)}
    (h : (wrapperMachine mode).Run NoStale c₁ (mid ++ (i, .branchReturned b) :: post) c₂) :
    c₂.shared.state.currentBranch = b ∧
      ∀ j d pre rest, post = pre ++ (j, .getStarted) :: (rest ++ [(j, .getReturned d)]) →
        d.branch = b :=
  returned_kept (switched_holds hc hswitch) h

/-- The same as a test. -/
def noStaleCheck (c : Config Wrapper WrapperCall) (i : ℕ) (step : WrapperStep) : Bool :=
  quietCheck c i step && (offered c.shared (c.thread i) step).all fun d =>
    d.branch = c.shared.state.dataset.branch ∨ d.version < c.shared.state.dataset.version

theorem noStale_of_check (c : Config Wrapper WrapperCall) (i : ℕ) (step : WrapperStep)
    (h : noStaleCheck c i step) : NoStale c i step := by
  obtain ⟨hq, hall⟩ := Bool.and_eq_true_iff.1 h
  refine ⟨quiet_of_check c i step hq, fun d hd hne => ?_⟩
  rw [hd, Option.all_some, decide_eq_true_eq] at hall
  exact hall.resolve_left hne

/-- A wrapper in the strong mode at version 10 of main, where thread 1 is refreshing for a `get` and
thread 0 is checking out another branch. -/
def demoSwitching : Config Wrapper WrapperCall :=
  (wrapperMachine .strong).after (newWrapper .strong ⟨none, 10, 0⟩ false false 0)
    [(1, .get), (1, .next none), (1, .next none), (1, .next none), (0, .asBranch (some "b")),
      (0, .next none)]

/-- Thread 0 has stored version 3 of the branch. -/
def demoSwitched : Config Wrapper WrapperCall :=
  (wrapperMachine .strong).after demoSwitching [(0, .next (some ⟨some "b", 3, 0⟩))]

theorem demoSwitching_reachable : Reachable .strong demoSwitching :=
  ⟨⟨none, 10, 0⟩, false, false, 0, [(1, .getStarted)], run_after rfl⟩

theorem demoSwitched_fires :
    (wrapperMachine .strong).Fires Condition.any demoSwitching 0 (some (.switched (some "b")))
      demoSwitched :=
  ⟨.next (some ⟨some "b", 3, 0⟩), .branched (some "b"), rfl, trivial, rfl⟩

/-- The refresh of thread 1 fails, and a later `get` finds version 4 of the branch. -/
theorem branch_kept_demo :
    ∃ c, (wrapperMachine .strong).Run NoStale demoSwitched
      [(0, .branchReturned (some "b")), (1, .failed), (2, .getStarted),
        (2, .getReturned ⟨some "b", 4, 0⟩)] c ∧
      c.shared.state.currentBranch = some "b" := by
  obtain ⟨c, hexec⟩ : ∃ c, (wrapperMachine .strong).exec noStaleCheck demoSwitched
      [(0, .next none), (1, .next none), (2, .get), (2, .next none), (2, .next none),
        (2, .next none), (2, .next (some ⟨some "b", 4, 0⟩))] =
      some (c, [(0, .branchReturned (some "b")), (1, .failed), (2, .getStarted),
        (2, .getReturned ⟨some "b", 4, 0⟩)]) := ⟨_, rfl⟩
  have hrun : (wrapperMachine .strong).Run NoStale demoSwitched
      ([] ++ (0, .branchReturned (some "b")) :: [(1, .failed), (2, .getStarted),
        (2, .getReturned ⟨some "b", 4, 0⟩)]) c := run_of_exec noStale_of_check hexec
  exact ⟨c, hrun, (branch_kept demoSwitching_reachable demoSwitched_fires hrun).1⟩

/-- The refresh of thread 1 brings version 10 of main, which is not older than version 3 of the
branch: the checkout is undone, and a later `get` returns a dataset of main. -/
theorem branch_undone :
    Reachable .strong demoSwitching ∧
      (wrapperMachine .strong).Fires Condition.any demoSwitching 0 (some (.switched (some "b")))
        demoSwitched ∧
      ∃ c, (wrapperMachine .strong).Run Quiet demoSwitched
        [(0, .branchReturned (some "b")), (1, .getReturned ⟨none, 10, 0⟩), (2, .getStarted),
          (2, .getReturned ⟨none, 10, 0⟩)] c ∧
        c.shared.state.currentBranch = none := by
  obtain ⟨c, hexec, hbr⟩ : ∃ c, (wrapperMachine .strong).exec quietCheck demoSwitched
      [(0, .next none), (1, .next (some ⟨none, 10, 0⟩)), (2, .get), (2, .next none),
        (2, .next none), (2, .next none), (2, .next (some ⟨none, 10, 0⟩))] =
      some (c, [(0, .branchReturned (some "b")), (1, .getReturned ⟨none, 10, 0⟩), (2, .getStarted),
        (2, .getReturned ⟨none, 10, 0⟩)]) ∧ c.shared.state.currentBranch = none := ⟨_, rfl, rfl⟩
  exact ⟨demoSwitching_reachable, demoSwitched_fires, c, run_of_exec quiet_of_check hexec, hbr⟩

/-! ### No call of another branch in flight -/

/-- The dataset that a call has read, or was given, for the guarded store. -/
def WrapperCall.holding : WrapperCall → Option Dataset
  | .getRefreshing dataset | .reloading dataset => dataset
  | .updating dataset => some dataset
  | _ => none

/-- The refreshes in the background that are under way have read the branch. -/
def Wrapper.RefreshesOn (s : Wrapper) (b : Branch) : Prop :=
  ∀ f fetch d, s.cache.fetches[f]? = some fetch → fetch.result = none → s.reads f = some d →
    d.branch = b

/-- No checkout starts or moves on, and an update that starts was committed on the branch that is
tracked. -/
def OnBranch : Condition Wrapper WrapperCall WrapperStep := fun c i step =>
  Quiet c i step ∧ ∀ d, step = .update d → d.branch = c.shared.state.dataset.branch

theorem offered_branch (h : (wrapperMachine mode).step s call step = some (s', call', event))
    {b : Branch} (hrefr : s.RefreshesOn b) (hc : ∀ d, call.holding = some d → d.branch = b)
    {d : Dataset} (hd : offered s call step = some d) : d.branch = b := by
  cases step with
  | next answer =>
    cases call with
    | getRefreshing dataset | reloading dataset =>
      cases dataset with
      | none => cases hd
      | some dataset =>
        cases hd
        simp only [wrapperMachine, wrapperNext, WrapperCall.kind, getNext, reloadNext] at h
        split_ifs at h with hnw
        exact hnw.1.trans (hc dataset rfl)
    | updating dataset => exact hc d hd
    | _ => cases hd
  | refresh future answer =>
    obtain ⟨s'', hrefresh, -⟩ := Option.map_eq_some_iff.1 h
    simp only [refreshNext] at hrefresh
    split at hrefresh
    · rename_i hfet
      split at hrefresh
      · rename_i hr
        simp [offered, hr] at hd
      · rename_i dataset hr
        rw [offered, hr, Option.isSome_some, if_pos rfl] at hd
        subst hd
        simp only at hrefresh
        split_ifs at hrefresh with hnw
        exact hnw.1.trans (hrefr future _ dataset hfet rfl hr)
    · cases hrefresh
  | _ => cases hd

/-- A call holds what it held, or has read what is tracked, or was started with it. -/
theorem holding_step (h : (wrapperMachine mode).step s call step = some (s', call', event))
    {d : Dataset} (hd : call'.holding = some d) :
    call.holding = some d ∨ d = s.state.dataset ∨ step = .update d := by
  rcases step_kinds h with ⟨answer, -, hn⟩ | ⟨rfl, -⟩ | ⟨-, -, hs⟩
  · cases call <;> simp only [wrapperNext, WrapperCall.kind, getNext, updateNext, reloadNext,
      checkoutNext] at hn
    all_goals (repeat' split at hn) <;> cases hn
    all_goals simp_all [WrapperCall.holding]
  · exact .inl hd
  · cases step <;> cases hs <;> simp_all [WrapperCall.holding]

theorem Wrapper.RefreshesOn.moves {b : Branch} {offer : Option Dataset} (h : s.RefreshesOn b)
    (hs : Sound mode s) (hb : s.state.dataset.branch = b)
    (hm : Wrapper.Moves mode call offer s s') : s'.RefreshesOn b := by
  intro f fetch d hfet hn hr
  cases hm with
  | same | store | reloaded | tick => exact h f fetch d hfet hn hr
  | invalidate => cases mode <;> exact h f fetch d hfet hn hr
  | @decide policy hmode =>
    have hdec : Cache.Decided policy s.now s.cache _ _ := Cache.determineAction_spec
    rcases hdec.fetches with ⟨hsame, -⟩ | ⟨happend, -⟩
    · exact h f fetch d (by rwa [← hsame]) hn hr
    · -- a fetch that starts now has not read yet
      refine h f fetch d ?_ hn hr
      simp only [happend] at hfet
      rwa [List.getElem?_append_left (hs.reads f d hr)] at hfet
  | read =>
    rcases List.update_eq_cases hr with ⟨-, heq⟩ | hold
    · cases heq
      exact hb
    · exact h f fetch d hfet hn hold
  | fetched | fetchFailed =>
    obtain ⟨fetch', hfet', rfl | ⟨-, rfl⟩⟩ := List.getElem?_modify_cases hfet
    · exact h f _ d hfet' hn hr
    · cases hn
  | task =>
    obtain ⟨fetch', hfet', rfl | ⟨-, rfl⟩⟩ := List.getElem?_modify_cases hfet
    · exact h f _ d hfet' hn hr
    · exact h f fetch' d hfet' hn hr

/-- What every step keeps when nothing of another branch is in flight. -/
def Settled (mode : ConsistencyMode) (b : Branch) : Config Wrapper WrapperCall → Prop :=
  Holds (fun s => (Unpinned mode s ∧ s.state.dataset.branch = b) ∧ s.RefreshesOn b)
    fun _ _ call => ∀ d, call.holding = some d → d.branch = b

theorem noStale_of_settled {b : Branch} {c : Config Wrapper WrapperCall} {i : ℕ}
    {r : Wrapper × WrapperCall × Option WrapperEvent}
    (h : (wrapperMachine mode).step c.shared (c.thread i) step = some r)
    (hc : Settled mode b c) (hcond : OnBranch c i step) : NoStale c i step :=
  ⟨hcond.1, fun _ hd hne => absurd
    ((offered_branch h hc.shared.2 (hc.thread i) hd).trans hc.shared.1.2.symm) hne⟩

/-- **Calls that read later offer only the branch.** -/
theorem keeps_settled (b : Branch) :
    (wrapperMachine mode).Keeps OnBranch
      (fun s => (Unpinned mode s ∧ s.state.dataset.branch = b) ∧ s.RefreshesOn b)
      fun _ _ call => ∀ d, call.holding = some d → d.branch = b := by
  intro c i step s' call' event hs hcond hc
  obtain ⟨⟨hunp, hbr⟩, hrefr⟩ := hc.shared
  have hk := keeps_branch b c i step s' call' event hs (noStale_of_settled hs hc hcond)
    ⟨⟨hunp, hbr⟩, fun _ => trivial⟩
  refine ⟨⟨hk.1, hrefr.moves hunp.sound hbr (moves_of_quiet hs hcond.1)⟩,
    fun d hd => ?_, fun _ _ h => h⟩
  rcases holding_step hs hd with hold | rfl | hupdate
  · exact hc.thread i d hold
  · exact hbr
  · exact (hcond.2 d hupdate).trans hbr

/-- **A branch checkout is kept** if no refresh, reload or update that read another branch is in
flight at the switch. -/
theorem branch_kept_of_settled (hc : Reachable mode c) {i : ℕ} {b : Branch}
    {c₁ c₂ : Config Wrapper WrapperCall}
    (hswitch : (wrapperMachine mode).Fires Condition.any c i (some (.switched b)) c₁)
    (hrefr : c₁.shared.RefreshesOn b)
    (hcalls : ∀ k d, (c₁.thread k).holding = some d → d.branch = b)
    {mid post : List (ℕ × WrapperEvent)}
    (h : (wrapperMachine mode).Run OnBranch c₁ (mid ++ (i, .branchReturned b) :: post) c₂) :
    c₂.shared.state.currentBranch = b ∧
      ∀ j d pre rest, post = pre ++ (j, .getStarted) :: (rest ++ [(j, .getReturned d)]) →
        d.branch = b := by
  have hs := switched_holds hc hswitch
  have hset : Settled mode b c₁ := ⟨⟨hs, hrefr⟩, hcalls⟩
  exact returned_kept hs (h.strengthen
    (fun _ _ _ _ hf hc => hf.holds (keeps_settled b) hc)
    (fun _ _ _ _ hstep hc hcond => noStale_of_settled hstep hc hcond) hset)

end Served

end LanceDB
