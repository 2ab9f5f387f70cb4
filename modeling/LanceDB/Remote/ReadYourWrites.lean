import LanceDB.Remote.Handle

/-!
# Reads after writes on a remote handle

A write that returns version `v` is tracked on its handle, and later reads ask for at least that
version.  Tracking is tied to the generation that the write has captured before it was sent.  When
`checkout_latest` resets the freshness in between, the return of the write is not tracked, and the
baseline of the checkout covers it only if the commit was made before.

* `FreshnessState.Covers` : reads ask for a version, by number or by the time of its commit.
* `Handle.Returned`, `Handle.Returned.moves` — a write that is covered stays covered.
* `read_own_writes` — a later read is served from the version of the write or a later one, if every
  write is covered when it returns.
* `read_misses_write` — it need not be, if `checkout_latest` runs while a write is in flight.
* `read_own_writes_of_noCheckout` — it is, if no checkout takes the lock while one is.
-/

namespace LanceDB.Remote

open Machine

variable {policy : CachePolicy} {interval : Option ℕ}

/-! ### Headers that ask for a version -/

/-- Headers ask for version `v`, which was committed at time `t`. -/
def FreshnessHeaders.Demands (headers : FreshnessHeaders) (v t : ℕ) : Prop :=
  (∃ m ∈ headers.minVersion, v ≤ m) ∨ (∃ m ∈ headers.minReadVersion, v ≤ m) ∨
    ∃ b ∈ headers.minTimestamp, t ≤ b

theorem Meets.of_demands {commits : Commits} {snapshot : ReadSnapshot} {served v t : ℕ}
    (h : Meets commits snapshot served) (hver : snapshot.version = none)
    (hcmt : commits[v - 1]? = some t) (hdemands : snapshot.freshness.Demands v t) :
    v ≤ served := by
  simp only [Meets, hver] at h
  obtain ⟨hwr, hr, htime⟩ := h
  rcases hdemands with ⟨m, hm, hle⟩ | ⟨m, hm, hle⟩ | ⟨b, hb, hle⟩
  · exact hle.trans (hwr m hm)
  · exact hle.trans (hr m hm)
  · obtain ⟨hlt, heq⟩ := List.getElem?_eq_some_iff.1 hcmt
    have hsvd := htime b hb (v - 1) hlt (by rw [heq]; exact hle)
    omega

namespace FreshnessState

variable {st : FreshnessState} {v t : ℕ}

/-- Reads will ask for version `v`, which was committed at time `t`, unless the handle is pinned. -/
def Covers (st : FreshnessState) (v t : ℕ) : Prop :=
  st.pinned = true ∨ (∃ m ∈ st.minVersion, v ≤ m) ∨ (∃ m ∈ st.minReadVersion, v ≤ m) ∨
    ∃ b ∈ st.checkoutBaseline, t ≤ b

instance (st : FreshnessState) (v t : ℕ) : Decidable (st.Covers v t) := by
  unfold Covers
  infer_instance

theorem exists_raise {known : Option ℕ} {version : ℕ} (h : ∃ m ∈ known, v ≤ m) :
    ∃ m ∈ raise known version, v ≤ m := by
  obtain ⟨m, rfl, hle⟩ := h
  exact ⟨max m version, rfl, hle.trans (le_max_left ..)⟩

theorem le_raise (known : Option ℕ) (version : ℕ) : ∃ m ∈ raise known version, version ≤ m := by
  cases known with
  | none => exact ⟨version, rfl, le_rfl⟩
  | some m => exact ⟨max m version, rfl, le_max_right ..⟩

theorem Covers.trackReadVersion (h : st.Covers v t) (request : FreshnessHeaders) (version : ℕ) :
    (st.trackReadVersion request version).Covers v t := by
  unfold FreshnessState.trackReadVersion
  split_ifs
  · exact h
  · exact h.imp_right (Or.imp_right (Or.imp_left exists_raise))
  · exact h

theorem Covers.trackWriteVersion (h : st.Covers v t) (request : FreshnessHeaders) (version : ℕ) :
    (st.trackWriteVersion request version).Covers v t := by
  unfold FreshnessState.trackWriteVersion
  split_ifs
  · exact h
  · exact h.imp_right (Or.imp_left exists_raise)
  · exact h

theorem covers_trackWriteVersion {request : FreshnessHeaders} (hv : 0 < v)
    (h : st.generation = request.generation) : (st.trackWriteVersion request v).Covers v t := by
  rw [FreshnessState.trackWriteVersion, if_neg hv.ne', if_pos h]
  exact .inr (.inl (le_raise ..))

theorem Covers.headers (h : st.Covers v t) (hpin : st.pinned = false) (now : ℕ) :
    (st.headers interval now).Demands v t := by
  rw [FreshnessState.headers, hpin]
  rcases h with hp | hwr | hr | ⟨b, hb, hle⟩
  · rw [hpin] at hp
    cases hp
  · exact .inl hwr
  · exact .inr (.inl hr)
  · obtain ⟨b', hb', hle'⟩ := le_computeMinTimestamp interval now hb
    exact .inr (.inr ⟨b', hb', hle.trans hle'⟩)

end FreshnessState

/-! ### Writes that have returned -/

/-- Version `v` was committed at time `t`. -/
def Handle.Committed (s : Handle) (v t : ℕ) : Prop := s.commits[v - 1]? = some t ∧ t ≤ s.now

/-- A write has returned version `v`, which was committed at time `t`. -/
structure Handle.Returned (v t : ℕ) (s : Handle) : Prop where
  aligned : s.Aligned
  committed : s.Committed v t
  covers : s.freshness.Covers v t

/-- What a writer knows when the server has answered. -/
def HandleCall.Reported (s : Handle) : HandleCall → Prop
  | .answered _ _ version | .observed _ version => 0 < version → ∃ t, s.Committed version t
  | _ => True

variable {s s' : Handle} {call call' : HandleCall} {event : Option HandleEvent} {v t : ℕ}

theorem Handle.Committed.moves (h : s.Committed v t) (hm : Moves policy call s s') :
    s'.Committed v t := by
  obtain ⟨hcmt, hle⟩ := h
  cases hm with
  | commit =>
    obtain ⟨hlt, -⟩ := List.getElem?_eq_some_iff.1 hcmt
    exact ⟨by rw [List.getElem?_append_left hlt, hcmt], hle⟩
  | tick duration => exact ⟨hcmt, hle.trans (Nat.le_add_right ..)⟩
  | _ => exact ⟨hcmt, hle⟩

/-- A write that is covered stays covered: a checkout that forgets its version takes a baseline
after its commit. -/
theorem Handle.Returned.moves (h : s.Returned v t) (hm : Moves policy call s s') :
    s'.Returned v t := by
  refine ⟨h.aligned.moves hm, h.committed.moves hm, ?_⟩
  cases hm with
  | observe | answer => exact h.covers.trackReadVersion ..
  | track => exact h.covers.trackWriteVersion ..
  | select version hf hb =>
    cases version with
    | some version => exact .inl rfl
    | none => exact .inr (.inr (.inr ⟨s.now, hb, h.committed.2⟩))
  | _ => exact h.covers

theorem HandleCall.Reported.moves {mover : HandleCall} (h : call.Reported s)
    (hm : Moves policy mover s s') :
    call.Reported s' := by
  cases call with
  | answered | observed =>
    intro hpos
    obtain ⟨t, ht⟩ := h hpos
    exact ⟨t, ht.moves hm⟩
  | _ => trivial

theorem HandleCall.Reported.acts (h : call.Reported s) (hm : Moves policy call s s')
    (ha : Acts policy interval s s' call call' event) : call'.Reported s' := by
  cases ha with
  | stay => exact h.moves hm
  | plain _ _ hp _ =>
    cases call' with
    | answered | observed => cases hp
    | _ => trivial
  | committed hs' hver =>
    intro hpos
    obtain rfl | rfl := hver
    · cases hpos
    · subst hs'
      exact ⟨s.now, by simp, le_rfl⟩
  | observed =>
    intro hpos
    obtain ⟨t, ht⟩ := h hpos
    exact ⟨t, ht.moves hm⟩
  | _ => trivial

/-! ### Reads -/

/-- Every write is covered when it returns: no checkout was made since it was prepared; or the
handle is pinned; or the commit was made before the last `checkout_latest`; or an answer has
advertised the version. -/
def Tracked : Condition Handle HandleCall HandleStep := fun c i step =>
  match step, c.thread i with
  | .next _, .observed request version =>
    0 < version → c.shared.freshness.generation = request.generation ∨
      ∃ t, c.shared.commits[version - 1]? = some t ∧ c.shared.freshness.Covers version t
  | _, _ => True

/-- A read for the latest version asks for version `v`. -/
def HandleCall.Asks (v t : ℕ) (call : HandleCall) : Prop :=
  ∀ snapshot, call = .reading snapshot → snapshot.version = none → snapshot.freshness.Demands v t

theorem HandleCall.Asks.acts (h : call.Asks v t) (hs : s.Returned v t)
    (ha : Acts policy interval s s' call call' event) : call'.Asks v t := by
  intro snapshot hrd hver
  subst hrd
  cases ha with
  | stay => exact h snapshot rfl hver
  | plain _ _ hp _ => cases hp
  | issued => exact hs.covers.headers (hs.aligned hver) s.now

theorem keeps_reported (C : Condition Handle HandleCall HandleStep) :
    (handleMachine policy interval).Keeps C Handle.Aligned fun _ s call => call.Reported s := by
  intro c i step s' call' event hs _ hc
  obtain ⟨hm, ha⟩ := handle_cases hs
  exact ⟨hc.shared.moves hm, (hc.thread i).acts hm ha, fun k _ hk => hk.moves hm⟩

theorem follows_asks (C : Condition Handle HandleCall HandleStep) :
    (handleMachine policy interval).Follows C (fun c => c.shared.Returned v t)
      fun _ call => call.Asks v t where
  keeps hf hc := by
    obtain ⟨step, call', hs, -, -⟩ := hf
    exact hc.moves (handle_cases hs).1
  own hs _ hc hcall := hcall.acts hc (handle_cases hs).2
  other _ _ _ _ hk := hk

theorem reported_newHandle (commits : Commits) (now : ℕ) (version : Option ℕ)
    (seed : Option Described) :
    Holds Handle.Aligned (fun _ s call => HandleCall.Reported s call)
      (newHandle commits now version seed) :=
  ⟨aligned_newHandle commits now version seed, fun _ => trivial⟩

theorem next_of_written {request : FreshnessHeaders} {version : ℕ} {step : HandleStep}
    (h : (handleMachine policy interval).step s (.observed request version) step =
      some (s', call', some (.writeReturned v))) : ∃ answer, step = .next answer := by
  cases step with
  | next answer => exact ⟨answer, rfl⟩
  | describe future answer | finish future | task future =>
    obtain ⟨_, -, ⟨⟩⟩ := Option.map_eq_some_iff.1 h
  | _ => cases h

theorem returned_of_fires {c c' : Config Handle HandleCall} {i : ℕ}
    (hc : Holds Handle.Aligned (fun _ s call => HandleCall.Reported s call) c)
    (h : (handleMachine policy interval).Fires Tracked c i (some (.writeReturned v)) c')
    (hv : 0 < v) : ∃ t, c'.shared.Returned v t := by
  obtain ⟨step, call', hs, hcond, -⟩ := h
  obtain ⟨hm, ha⟩ := handle_cases hs
  have hown := hc.thread i
  generalize hcall : c.thread i = call at ha hown hs
  cases ha with
  | plain _ _ _ hev => simp at hev
  | @written request _ hs' =>
    obtain ⟨t, ht⟩ := hown hv
    obtain ⟨answer, rfl⟩ := next_of_written hs
    simp only [Tracked, hcall] at hcond
    refine ⟨t, hc.shared.moves hm, ht.moves hm, ?_⟩
    rw [hs']
    rcases hcond hv with hgen | ⟨t', ht', hcov⟩
    · exact FreshnessState.covers_trackWriteVersion hv hgen
    · obtain rfl : t = t' := Option.some.inj (ht.1.symm.trans ht')
      exact hcov.trackWriteVersion ..

/-- A read that is issued when a write has returned is served from its version or a later one. -/
theorem le_served {C : Condition Handle HandleCall HandleStep} {c c' : Config Handle HandleCall}
    {mid post : List (ℕ × HandleEvent)} {j served : ℕ} (hc : c.shared.Returned v t)
    (h : (handleMachine policy interval).Run C c
      (mid ++ (j, .readIssued none) :: (post ++ [(j, .readReturned none served)])) c') :
    v ≤ served := by
  obtain ⟨c₃, c₄, hc₃, hasks, ⟨step, call', hs, -, -⟩, -⟩ :=
    h.follow (follows_asks _) hc fun c step s' call' hs _ hc => by
      obtain ⟨-, ha⟩ := handle_cases hs
      generalize c.thread j = call at ha
      generalize hev : some (HandleEvent.readIssued none) = event at ha
      cases ha with
      | plain _ _ _ hcs => simp [← hev] at hcs
      | issued =>
        rintro snapshot ⟨⟩ hver
        exact hc.covers.headers (hc.aligned hver) _
      | _ => cases hev
  obtain ⟨-, ha⟩ := handle_cases hs
  generalize c₃.thread j = call at ha hasks
  generalize hev : some (HandleEvent.readReturned none served) = event at ha
  cases ha with
  | plain _ _ _ hcs => simp [← hev] at hcs
  | returned hs' hm =>
    obtain ⟨hver, rfl⟩ := HandleEvent.readReturned.inj (Option.some.inj hev)
    exact hm.of_demands hver.symm hc₃.committed.1 (hasks _ rfl hver.symm)
  | _ => cases hev

/-- **Read your writes.**  If every write is covered when it returns, a read for the latest version
that is issued after a write has returned a version is served from that version or a later one. -/
theorem read_own_writes {commits : Commits} {now : ℕ} {version : Option ℕ}
    {seed : Option Described} {pre mid post : List (ℕ × HandleEvent)} {i j v served : ℕ}
    {c : Config Handle HandleCall}
    (h : (handleMachine policy interval).Run Tracked (newHandle commits now version seed)
      (pre ++ (i, .writeReturned v) ::
        (mid ++ (j, .readIssued none) :: (post ++ [(j, .readReturned none served)]))) c)
    (hv : 0 < v) : v ≤ served := by
  obtain ⟨c₁, c₂, hpre, hwr, h⟩ := h.of_append_cons
  have hc₁ := hpre.invariants (keeps_reported _) (reported_newHandle commits now version seed)
  obtain ⟨t, hc₂⟩ := returned_of_fires hc₁ hwr hv
  exact le_served hc₂ h

/-- A check of the condition. -/
def trackedCheck (c : Config Handle HandleCall) (i : ℕ) (step : HandleStep) : Bool :=
  match step, c.thread i with
  | .next _, .observed request version =>
    decide (c.shared.freshness.generation = request.generation) ||
      (c.shared.commits[version - 1]?).any fun t => c.shared.freshness.Covers version t
  | _, _ => true

theorem tracked_of_check (c : Config Handle HandleCall) (i : ℕ) (step : HandleStep)
    (h : trackedCheck c i step = true) : Tracked c i step := by
  cases step with
  | next answer =>
    cases hc : c.thread i with
    | observed request version =>
      simp only [trackedCheck, hc, Bool.or_eq_true, decide_eq_true_eq, Option.any_eq_true] at h
      simp only [Tracked, hc]
      exact fun _ => h
    | _ => simp [Tracked, hc]
  | _ => simp [Tracked]

/-- The update of thread `0` is committed before the `checkout_latest` of thread `1`, and returns
after it.  Then thread `2` reads. -/
def coveredSchedule : List (ℕ × HandleStep) :=
  [(0, .write .direct), (0, .next 0), (0, .next 0), (0, .next 0), (0, .tick 1), (0, .next 1),
    (1, .checkoutLatest), (1, .next 0), (1, .next 0), (1, .next 0),
    (0, .next 2), (0, .next 0), (2, .read), (2, .next 0), (2, .next 2)]

/-- What they return: the read is served from the version of the update. -/
def coveredEvents : List (ℕ × HandleEvent) :=
  [(1, .checkoutReturned none)] ++ (0, .writeReturned 2) ::
    ([] ++ (2, .readIssued none) :: ([] ++ [(2, .readReturned none 2)]))

theorem read_own_writes_demo :
    defaultMachine.Run Tracked (newHandle [0] 0 none none) coveredEvents
      (defaultMachine.after (newHandle [0] 0 none none) coveredSchedule) ∧ 2 ≤ 2 := by
  have hexec : defaultMachine.exec trackedCheck (newHandle [0] 0 none none) coveredSchedule =
      some (defaultMachine.after (newHandle [0] 0 none none) coveredSchedule, coveredEvents) := rfl
  have hrun := run_of_exec tracked_of_check hexec
  exact ⟨hrun, read_own_writes hrun (by decide)⟩

/-- The update of thread `0` is sent before the `checkout_latest` of thread `1`, and committed after
it. -/
def uncoveredSchedule : List (ℕ × HandleStep) :=
  [(0, .write .direct), (0, .next 0), (0, .next 0), (0, .next 0),
    (1, .checkoutLatest), (1, .next 0), (1, .next 0), (1, .next 0), (0, .tick 1),
    (0, .next 1), (0, .next 2), (0, .next 0), (2, .read), (2, .next 0), (2, .next 1)]

/-- **A write that is not covered.**  `checkout_latest` is called while an update is in flight, and
the update is committed a moment later.  Its version is not tracked when it returns, since it was
sent in an older generation, and the baseline of the checkout is older than its commit.  The next
read is served from version `1`, without the update. -/
theorem read_misses_write :
    defaultMachine.Run .any (newHandle [0] 0 none none)
      [(1, .checkoutReturned none), (0, .writeReturned 2), (2, .readIssued none),
        (2, .readReturned none 1)]
      (defaultMachine.after (newHandle [0] 0 none none) uncoveredSchedule) :=
  run_after rfl

/-! ### Writes without a checkout -/

/-- The headers that a write has captured. -/
def HandleCall.captured : HandleCall → Option FreshnessHeaders
  | .writeReady _ request | .writing _ request _ | .answered request _ _ | .observed request _ =>
    some request
  | _ => none

/-- No checkout takes the lock between the time at which a write captures its headers and its
return. -/
def NoCheckout : Condition Handle HandleCall HandleStep := fun c i step =>
  ∀ answer, step = .next answer → (c.thread i).Switches → ∀ k, (c.thread k).captured = none

theorem captured_step {step : HandleStep} {request : FreshnessHeaders}
    (h : (handleMachine policy interval).step s call step = some (s', call', event))
    (hc' : call'.captured = some request) :
    call.captured = some request ∨ request.generation = s.freshness.generation := by
  cases step with
  | describe | finish | task =>
    obtain ⟨_, -, ⟨⟩⟩ := Option.map_eq_some_iff.1 h
    exact .inl hc'
  | invalidate | commit | tick =>
    cases h
    exact .inl hc'
  | fail =>
    obtain ⟨_, hfls, ⟨⟩⟩ := Option.map_eq_some_iff.1 h
    cases call <;> cases hfls <;> cases hc'
  | retry =>
    simp only [handleMachine] at h
    split at h <;> cases h
    exact .inl hc'
  | next answer =>
    cases call with
    | writeChecked kind =>
      cases h
      cases hc'
      exact .inr (FreshnessState.generation_headers ..)
    | writeReady kind =>
      cases kind <;> cases h <;> exact .inl hc'
    | writing | answered =>
      cases h
      exact .inl hc'
    | _ =>
      simp only [handleMachine, handleNext, writeNext, readNext, schemaNext, checkoutNext] at h
      (repeat' split at h) <;> cases h <;> cases hc'
  | write | read | schema | checkout | checkoutLatest =>
    simp only [handleMachine] at h
    split_ifs at h
    cases h
    cases hc'

/-- Only a checkout that takes the lock advances the generation. -/
theorem generation_step {step : HandleStep}
    (h : (handleMachine policy interval).step s call step = some (s', call', event)) :
    s'.freshness.generation = s.freshness.generation ∨
      ((∃ answer, step = .next answer) ∧ call.Switches ∧ call'.captured = none) := by
  obtain ⟨-, ha⟩ := handle_cases h
  cases ha with
  | stay _ _ hgen => exact .inl hgen
  | observed hs' | returned hs' =>
    rw [hs']
    exact .inl (FreshnessState.trackReadVersion_keeps ..).1
  | written hs' =>
    rw [hs']
    exact .inl (FreshnessState.trackWriteVersion_keeps ..).1
  | selecting hsw =>
    refine .inr ⟨?_, hsw, rfl⟩
    cases step with
    | next answer => exact ⟨answer, rfl⟩
    | describe | finish | task =>
      obtain ⟨_, -, ⟨⟩⟩ := Option.map_eq_some_iff.1 h
      cases hsw
    | _ => cases call <;> cases hsw <;> cases h
  | _ =>
    subst_vars
    exact .inl rfl

/-- The headers of the writes in flight are of the generation of the handle. -/
theorem keeps_current :
    (handleMachine policy interval).Keeps NoCheckout (fun _ => True) fun _ s call =>
      ∀ request, call.captured = some request → request.generation = s.freshness.generation := by
  intro c i step s' call' event hstep hcond hc
  rcases generation_step hstep with hs | ⟨⟨answer, rfl⟩, hsw, hn⟩
  · refine ⟨trivial, fun request hreq => ?_, fun k _ hk request hreq => ?_⟩
    · rw [hs]
      exact (captured_step hstep hreq).elim (hc.thread i request) id
    · rw [hs]
      exact hk request hreq
  · -- no write has captured its headers
    refine ⟨trivial, fun request hreq => ?_, fun k _ _ request hreq => ?_⟩
    · rw [hn] at hreq
      cases hreq
    · rw [hcond answer rfl hsw k] at hreq
      cases hreq

/-- **Read your writes** if no checkout takes the lock while a write is in flight. -/
theorem read_own_writes_of_noCheckout {commits : Commits} {now : ℕ} {version : Option ℕ}
    {seed : Option Described} {pre mid post : List (ℕ × HandleEvent)} {i j v served : ℕ}
    {c : Config Handle HandleCall}
    (h : (handleMachine policy interval).Run NoCheckout (newHandle commits now version seed)
      (pre ++ (i, .writeReturned v) ::
        (mid ++ (j, .readIssued none) :: (post ++ [(j, .readReturned none served)]))) c)
    (hv : 0 < v) : v ≤ served := by
  obtain ⟨c₁, c₂, hpre, ⟨step, call', hs, -, hthr⟩, h⟩ := h.of_append_cons
  have hc₁ := hpre.invariants (keeps_reported _) (reported_newHandle commits now version seed)
  have hcur := hpre.invariants keeps_current ⟨trivial, fun _ _ hn => by cases hn⟩
  have htracked : Tracked c₁ i step := by
    cases step with
    | next answer =>
      have hown := hcur.thread i
      generalize hc : c₁.thread i = call at hown
      cases call with
      | observed request version =>
        simp only [Tracked, hc]
        exact fun _ => .inl (hown request rfl).symm
      | _ => simp [Tracked, hc]
    | _ => simp [Tracked]
  obtain ⟨t, hc₂⟩ := returned_of_fires hc₁ ⟨step, call', hs, htracked, hthr⟩ hv
  exact le_served hc₂ h

end LanceDB.Remote
