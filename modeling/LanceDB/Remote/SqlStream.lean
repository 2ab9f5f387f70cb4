import LanceDB.Remote.SqlQuery

/-!
# A remote SQL result stream is complete, and its state monotone

The gate makes every poll answer newer than the stored one, and an answer without a descriptor is
never replaced.  So the endpoints a reader has opened stay a prefix of the endpoints that are
stored, and when the reader ends they are all of them.

* `Extending` : successive answers of the server extend the list of endpoints.
* `Thread.Sound`, `sound_of_step` — what a reader has opened and sent, step by step.
* `Inv`, `Inv.fires` — the invariant of a run.
* `Heard`, `Heard.fires` — nobody who waits misses a cancellation.
* `sql_stream_complete` — the result.
-/

namespace LanceDB.Sql

open Machine List

variable {E D B : Type}
variable {k : Caller E B} {w : Wait E D B}

/-- Successive answers of the server extend the list of endpoints. -/
structure Extending (answers : ℕ → PollInfo E D) : Prop where
  number : ∀ n, (answers n).number = n
  extend : ∀ n, (answers n).endpoints <+: (answers (n + 1)).endpoints

theorem Extending.prefix_of_le {answers : ℕ → PollInfo E D} (h : Extending answers) {m n : ℕ}
    (hmn : m ≤ n) : (answers m).endpoints <+: (answers n).endpoints := by
  induction n, hmn using Nat.le_induction with
  | base => exact prefix_rfl
  | succ n _ ih => exact ih.trans (h.extend n)

/-- A query that has just been submitted. -/
structure Initial (answers : ℕ → PollInfo E D) (c : Config (Query E D) (Thread E D B)) : Prop where
  state : c.shared.state = answers 0
  served : c.shared.served = 0
  unlocked : c.shared.pollGate = false
  lifecycle : c.shared.lifecycle =
    if (answers 0).descriptor.isNone then .ready else .running
  idle : ∀ i, c.thread i = .idle

/-! ### What a reader has opened and sent -/

/-- The reader has opened the first of the endpoints, and has sent their batches but for the pending
ones. -/
structure Reader.Reads (batches : E → List B) (state : PollInfo E D) (r : Reader E B)
    (pending : List B) : Prop where
  opened : r.opened <+: state.endpoints
  next : r.nextEndpoint = r.opened.length
  rows : r.sent ++ pending = r.opened.flatMap batches

/-- No endpoint is open. -/
structure Reader.AtRest (batches : E → List B) (state : PollInfo E D) (r : Reader E B) : Prop where
  reads : r.Reads batches state []
  closed : r.endpointStream = none
  fresh : r.prepared = false → r.opened = []

def Caller.Sound (batches : E → List B) (state : PollInfo E D) : Caller E B → Prop
  | .reader r => r.AtRest batches state
  | _ => True

def Wait.Sound (batches : E → List B) (state : PollInfo E D) : Wait E D B → Prop
  | .opens r endpoint => r.Reads batches state (batches endpoint)
  | .next r rest => r.Reads batches state rest
  | .sends r batch =>
    r.Reads batches state (batch :: r.endpointStream.getD []) ∧ r.prepared = true
  | .gate k _ | .answer k _ => k.Sound batches state

/-- What a call has read, by where it is. -/
def Thread.Sound (batches : E → List B) (state : PollInfo E D) : Thread E D B → Prop
  | .top r => r.Reads batches state (r.endpointStream.getD []) ∧
      (r.prepared = false → r.endpointStream = none ∧ r.opened = [])
  | .reading r => r.AtRest batches state
  | .completing r => r.Reads batches state [] ∧ state.descriptor = none ∧
      r.opened = state.endpoints
  | .pollCheck k _ | .pollRead k _ | .pollUpdate k _ _ => k.Sound batches state
  | .select w | .arming w _ | .waiting w _ | .awaiting w => w.Sound batches state
  | _ => True

theorem prefix_concat {l L : List E} {e : E} (h : l <+: L) (he : L[l.length]? = some e) :
    l ++ [e] <+: L := by
  obtain ⟨rest, rfl⟩ := h
  rw [getElem?_append_right le_rfl, Nat.sub_self] at he
  cases rest with
  | nil => simp at he
  | cons a rest =>
    obtain rfl : a = e := by simpa using he
    exact ⟨rest, by simp⟩

section

variable {batches : E → List B} {state state' : PollInfo E D} {r : Reader E B}

theorem Reader.AtRest.open (h : r.AtRest batches state) {endpoint : E}
    (hep : state.endpoints[r.nextEndpoint]? = some endpoint) :
    (r.open endpoint).Reads batches state (batches endpoint) where
  opened := prefix_concat h.reads.opened (h.reads.next ▸ hep)
  next := by simp [Reader.open, h.reads.next]
  rows := by
    have hr := h.reads.rows
    rw [append_nil] at hr
    simp [Reader.open, hr]

theorem Caller.Sound.next (h : k.Sound batches state) : Thread.Sound batches state k.next := by
  cases k with
  | reader r =>
    refine ⟨?_, fun hp => ⟨h.closed, h.fresh hp⟩⟩
    rw [h.closed]
    exact h.reads
  | describer | canceller => trivial

/-- Later answers extend the list of endpoints, and the last one is never replaced. -/
def PollInfo.Le (state state' : PollInfo E D) : Prop :=
  state.endpoints <+: state'.endpoints ∧ (state.descriptor = none → state' = state)

theorem Reader.Reads.mono {pending : List B} (h : r.Reads batches state pending)
    (hle : state.Le state') : r.Reads batches state' pending :=
  ⟨h.opened.trans hle.1, h.next, h.rows⟩

theorem Reader.AtRest.mono (h : r.AtRest batches state) (hle : state.Le state') :
    r.AtRest batches state' := ⟨h.reads.mono hle, h.closed, h.fresh⟩

theorem Caller.Sound.mono (h : k.Sound batches state) (hle : state.Le state') :
    k.Sound batches state' := by
  cases k with
  | reader r => exact Reader.AtRest.mono h hle
  | describer | canceller => trivial

theorem Wait.Sound.mono (h : w.Sound batches state) (hle : state.Le state') :
    w.Sound batches state' := by
  cases w with
  | opens | next => exact Reader.Reads.mono h hle
  | sends r batch => exact ⟨h.1.mono hle, h.2⟩
  | gate | answer => exact Caller.Sound.mono h hle

theorem Thread.Sound.mono {t : Thread E D B} (h : t.Sound batches state) (hle : state.Le state') :
    t.Sound batches state' := by
  cases t with
  | top r => exact ⟨h.1.mono hle, h.2⟩
  | reading r => exact Reader.AtRest.mono h hle
  | completing r =>
    obtain ⟨hrds, hl, hop⟩ := h
    rw [hle.2 hl]
    exact ⟨hrds, hl, hop⟩
  | pollCheck | pollRead | pollUpdate => exact Caller.Sound.mono h hle
  | select | arming | waiting | awaiting => exact Wait.Sound.mono h hle
  | _ => trivial

end

section

variable [DecidableEq D] {answers : ℕ → PollInfo E D} {batches : E → List B}
  {q q' : Query E D} {t t' : Thread E D B} {a : Action} {o : Option (Event E B)}

omit [DecidableEq D] in
theorem sound_of_readState {r : Reader E B} (h : readState q r = some (q', t', o))
    (hr : r.AtRest batches q.state) : t'.Sound batches q.state := by
  rw [readState] at h
  split_ifs at h with hp hmany
  · cases h
    trivial
  · split at h
    · rename_i endpoint hep
      cases h
      exact hr.open hep
    · rename_i hn
      split at h
      · cases h
        exact hr
      · rename_i hl
        cases h
        refine ⟨hr.reads, hl, hr.reads.opened.eq_of_length_le ?_⟩
        rw [← hr.reads.next]
        exact List.getElem?_eq_none_iff.1 hn
  · have hop := hr.fresh (by simpa using hp)
    split at h
    · rename_i endpoint rest hinfo
      cases h
      refine hr.open ?_
      rw [hr.reads.next, hop, PollInfo.endpoints, hinfo]
      rfl
    · cases h
      refine ⟨⟨hr.reads.opened, hr.reads.next, ?_⟩, by simp⟩
      rw [hr.closed]
      exact hr.reads.rows
    · cases h
      trivial
    · cases h
      exact hr

omit [DecidableEq D] in
theorem sound_of_resolve (h : resolve answers batches q w a = some (q', t', o))
    (hw : w.Sound batches q.state) : t'.Sound batches q.state := by
  rw [resolve.eq_def] at h
  split at h
  · dsimp only at h
    split_ifs at h with hp
    · cases h
      exact ⟨⟨hw.opened, hw.next, hw.rows⟩, fun hnot => by simp [hp] at hnot⟩
    · cases h
      exact ⟨hw.opened, hw.next, hw.rows⟩
  · cases h
    exact ⟨⟨hw.opened, hw.next, hw.rows⟩, rfl⟩
  · cases h
    exact ⟨⟨hw.opened, hw.next, hw.rows⟩, by simp⟩
  · rename_i r batch
    cases h
    obtain ⟨hrds, hp⟩ := hw
    refine ⟨⟨hrds.opened, hrds.next, ?_⟩, fun hnot => by simp [hp] at hnot⟩
    rw [← hrds.rows]
    simp
  · split_ifs at h
    cases h
    exact hw
  · cases h
    trivial
  · cases h
    trivial
  · cases h
    exact hw
  · cases h
    trivial
  · cases h

omit [DecidableEq D] in
theorem sound_of_decideCancel {outcome : CancelOutcome}
    (h : decideCancel q outcome = some (q', t', o)) : t'.Sound batches q.state := by
  cases outcome with
  | cancelled | cancelling | notCancellable | unspecified | error =>
    cases h
    trivial
  | notFound =>
    simp only [decideCancel] at h
    split_ifs at h <;> cases h <;> trivial

/-- **A step keeps count of what has been read**, with respect to the state it has found. -/
theorem sound_of_step (h : step answers batches q t a = some (q', t', o))
    (ht : t.Sound batches q.state) : t'.Sound batches q.state := by
  rw [step.eq_def] at h
  split at h
  · cases h
    trivial
  · cases h
  · cases h
    trivial
  · cases h
    trivial
  · cases h
    exact ⟨⟨by simp [Reader.start], rfl, rfl⟩, fun _ => ⟨rfl, rfl⟩⟩
  · cases h
    trivial
  · cases h
    trivial
  -- `prepare_result` and `run_result_stream`
  · split_ifs at h
    · cases h
      trivial
    · obtain ⟨hrds, hfr⟩ := ht
      split at h
      · rename_i rest hr
        cases h
        rw [hr] at hrds
        exact hrds
      · rename_i hcl
        cases h
        rw [hcl] at hrds
        exact ⟨hrds, hcl, fun hp => (hfr hp).2⟩
  · exact sound_of_readState h ht
  · split_ifs at h <;> cases h <;> trivial
  -- `wait_for_cancellation`
  · cases h
    exact ht
  · split_ifs at h <;> cases h
    · trivial
    · exact ht
  · split_ifs at h
    · exact sound_of_resolve h ht
    · cases h
      exact ht
  · exact sound_of_resolve h ht
  -- `poll_next_state`
  · split_ifs at h <;> cases h
    · trivial
    · exact ht
  · split_ifs at h
    · split at h <;> cases h <;> exact ht
    · cases h
      exact Caller.Sound.next ht
  · cases h
    exact Caller.Sound.next ht
  -- `describe`
  · split_ifs at h <;> cases h <;> trivial
  · split at h <;> cases h <;> trivial
  -- `cancel`
  · split_ifs at h
    cases h
    trivial
  · split_ifs at h <;> cases h <;> trivial
  · split at h <;> cases h <;> trivial
  · cases h
    trivial
  · split_ifs at h
    · cases h
      trivial
    · exact sound_of_decideCancel h
  · split_ifs at h <;> cases h <;> trivial
  · split_ifs at h <;> cases h <;> trivial
  -- `restore_after_rejected_cancellation`
  · cases h
    trivial
  · cases h
    trivial
  · cases h

/-! ### What a step replaces -/

theorem updateState_lifecycle (q : Query E D) (descriptor : D) (updated : PollInfo E D) :
    (q.updateState descriptor updated).lifecycle = q.lifecycle ∨
      (q.updateState descriptor updated).lifecycle = q.lifecycle.markReady := by
  rw [Query.updateState]
  split_ifs
  · exact .inr rfl
  · exact .inl rfl
  · exact .inl rfl

theorem Effect.state (h : Effect answers q t q' t' o) : q'.state = q.state ∨
    ∃ k descriptor updated, t = .pollUpdate k descriptor updated ∧
      q.state.descriptor = some descriptor ∧ q'.state = updated := by
  cases h with
  | quiet hs => exact .inl hs
  | @updated k descriptor updated =>
    by_cases hdesc : q.state.descriptor = some descriptor
    · exact .inr ⟨k, descriptor, updated, rfl, hdesc, by
        rw [Query.updateState, if_pos hdesc]⟩
    · exact .inl (by rw [Query.updateState, if_neg hdesc])
  | _ => exact .inl rfl

theorem Effect.served_le (h : Effect answers q t q' t' o) : q.served ≤ q'.served := by
  cases h with
  | quiet _ _ _ hsvd => exact hsvd.ge
  | answered lost _ => exact Nat.le_add_right_of_le (Nat.le_add_right ..)
  | updated => simp [Query.updateState, apply_ite Query.served]
  | _ => exact le_rfl

theorem Effect.pollUpdate {descriptor : D} {updated : PollInfo E D}
    (h : Effect answers q t q' (.pollUpdate k descriptor updated) o) :
    q'.state = q.state ∧ q.served < q'.served ∧ updated = answers q'.served := by
  generalize ht' : Thread.pollUpdate k descriptor updated = t' at h
  cases h with
  | quiet _ _ _ _ _ _ hp =>
    rw [← ht'] at hp
    cases hp
  | answered lost _ =>
    cases ht'
    exact ⟨rfl, Nat.lt_add_right _ (Nat.lt_succ_self _), rfl⟩
  | @updated k' => cases k' <;> cases ht'
  | _ => cases ht'

/-- A stream ends without an error when its reader completes the result. -/
theorem Effect.ended {rows : List B} {opened : List E}
    (h : Effect answers q t q' t' (some (.ended rows opened))) :
    q'.state = q.state ∧ ∃ r, t = .completing r ∧ rows = r.sent ∧ opened = r.opened := by
  generalize ho : some (Event.ended rows opened) = o at h
  cases h with
  | quiet _ _ _ _ _ _ _ hnot | restored _ _ hnot => exact absurd ho.symm (hnot rows opened)
  | @completed r _ =>
    cases ho
    exact ⟨rfl, r, rfl, rfl, rfl⟩
  | _ => cases ho

/-- **A query that has ended stays as it is.** -/
theorem Effect.lifecycle_of_ended (h : Effect answers q t q' t' o)
    (hen : q.lifecycle.ended = true) : q'.lifecycle = q.lifecycle := by
  cases h with
  | quiet _ hlife => exact hlife
  | updated =>
    rcases updateState_lifecycle q _ _ with hs | hrdy
    · exact hs
    · refine hrdy.trans (if_neg fun hrun => ?_)
      rw [hrun] at hen
      cases hen
  | completed hreq =>
    cases hl : q.lifecycle with
    | completed => rfl
    | cancelled => simp [hl, Lifecycle.cancellationRequested] at hreq
    | _ => simp [hl, Lifecycle.ended] at hen
  | cancelled hnot => simp [hnot] at hen
  | cancelling hact => rcases hact with hl | hl <;> simp [hl, Lifecycle.ended] at hen
  | restored hl => simp [hl, Lifecycle.ended] at hen
  | _ => rfl

/-! ### The invariant -/

variable (answers batches) in
/-- The stored answer is an answer of the server, an answer that waits to be stored is newer, and
every call has counted what it has read. -/
structure Inv (c : Config (Query E D) (Thread E D B)) : Prop where
  gate : (gateLock : (machine answers batches).Lock).Exclusive c
  state : c.shared.state = answers c.shared.state.number
  served : c.shared.state.number ≤ c.shared.served
  update : ∀ i k descriptor updated, c.thread i = .pollUpdate k descriptor updated →
    updated = answers updated.number ∧ c.shared.state.number ≤ updated.number ∧
      updated.number ≤ c.shared.served
  sound : ∀ i, (c.thread i).Sound batches c.shared.state

variable {c c' : Config (Query E D) (Thread E D B)} {i : ℕ}

theorem Initial.inv (hext : Extending answers) (h : Initial answers c) : Inv answers batches c where
  gate := by
    have hn : ∀ i, ¬ (c.thread i).holdsGate = true := fun i => by simp [h.idle i, Thread.holdsGate]
    exact ⟨fun i hi => absurd hi (hn i), fun i _ hi => absurd hi (hn i)⟩
  state := by rw [h.state, hext.number]
  served := by rw [h.state, hext.number, h.served]
  update := by
    intro i k descriptor updated hi
    rw [h.idle i] at hi
    cases hi
  sound := by
    intro i
    rw [h.idle i]
    trivial

/-- **The stored answer is only replaced by a newer one**, and the last one not at all. -/
theorem Inv.le_of_fires (hext : Extending answers) (h : Inv answers batches c)
    (hf : (machine answers batches).Fires .any c i o c') :
    c.shared.state.number ≤ c'.shared.state.number ∧ c.shared.state.Le c'.shared.state := by
  obtain ⟨a, t', hstep, -, -⟩ := hf
  rcases (effect_of_step hstep).state with hs | ⟨k, descriptor, updated, ht, hdesc, hnew⟩
  · rw [hs]
    exact ⟨le_rfl, prefix_rfl, fun _ => rfl⟩
  · obtain ⟨hans, hle, -⟩ := h.update i k descriptor updated ht
    rw [hnew]
    refine ⟨hle, ?_, fun hl => ?_⟩
    · rw [h.state, hans]
      exact hext.prefix_of_le hle
    · rw [hl] at hdesc
      cases hdesc

theorem Inv.fires (hext : Extending answers) (h : Inv answers batches c)
    (hf : (machine answers batches).Fires .any c i o c') : Inv answers batches c' := by
  have hle := (h.le_of_fires hext hf).2
  have hgate := h.gate.fires hf
  obtain ⟨a, hstep, -, hoth⟩ := hf.exists_step
  have heff := effect_of_step hstep
  -- the stored answer is the old one, or the answer of the call that steps
  have hsto : c'.shared.state = answers c'.shared.state.number ∧
      c'.shared.state.number ≤ c'.shared.served := by
    rcases heff.state with hs | ⟨k, descriptor, updated, ht, -, hnew⟩
    · rw [hs]
      exact ⟨h.state, h.served.trans heff.served_le⟩
    · obtain ⟨hans, -, hsvd⟩ := h.update i k descriptor updated ht
      rw [hnew]
      exact ⟨hans, hsvd.trans heff.served_le⟩
  refine ⟨hgate, hsto.1, hsto.2, ?_, ?_⟩
  · intro j k descriptor updated hj
    by_cases hji : j = i
    · subst hji
      rw [hj] at heff
      obtain ⟨hs, hsvd, hans⟩ := heff.pollUpdate
      have hnumber : updated.number = c'.shared.served := by rw [hans, hext.number]
      rw [hnumber, hs]
      exact ⟨hans, h.served.trans hsvd.le, le_rfl⟩
    · rw [hoth j hji] at hj
      obtain ⟨hans, hnw, hsvd⟩ := h.update j k descriptor updated hj
      refine ⟨hans, ?_, hsvd.trans heff.served_le⟩
      rcases heff.state with hs | ⟨k', descriptor', updated', ht, -, -⟩
      · rwa [hs]
      · -- both would hold the gate
        refine absurd (h.gate.eq j i ?_ ?_) hji
        · rw [hj]
          rfl
        · rw [ht]
          rfl
  · intro j
    by_cases hji : j = i
    · rw [hji]
      exact (sound_of_step hstep (h.sound i)).mono hle
    · rw [hoth j hji]
      exact (h.sound j).mono hle

/-- What a stream has read when it ends without an error. -/
theorem Inv.ended (h : Inv answers batches c) {rows : List B} {opened : List E}
    (hf : (machine answers batches).Fires .any c i (some (.ended rows opened)) c') :
    c'.shared.state = c.shared.state ∧ c.shared.state.descriptor = none ∧
      opened = c.shared.state.endpoints ∧ rows = opened.flatMap batches := by
  obtain ⟨a, t', hstep, -, -⟩ := hf
  obtain ⟨hsame, r, ht, rfl, rfl⟩ := (effect_of_step hstep).ended
  have hs := h.sound i
  rw [ht] at hs
  obtain ⟨hrds, hl, hop⟩ := hs
  have hr := hrds.rows
  rw [append_nil] at hr
  exact ⟨hsame, hl, hop, hr⟩

/-! ### A cancellation is heard -/

/-- A query becomes cancelled only by a call that notifies next, and stays so without a
notification only in steps of other calls. -/
theorem Effect.heard (h : Effect answers q t q' t' o)
    (hreq : q'.lifecycle.cancellationRequested = true) :
    (q.lifecycle.cancellationRequested = true ∧ t ≠ .notifying) ∨ t' = .notifying ∨
      q.notifications < q'.notifications := by
  cases h with
  | quiet _ hlife _ _ _ ht => exact .inl ⟨hlife ▸ hreq, ht⟩
  | armed | waits => exact .inl ⟨hreq, by simp⟩
  | answered _ hgate =>
    refine .inl ⟨hreq, ?_⟩
    rintro rfl
    cases hgate
  | @updated k descriptor updated =>
    refine .inl ⟨?_, by simp⟩
    rcases updateState_lifecycle q descriptor updated with hs | hrdy
    · rwa [hs] at hreq
    · rw [hrdy, Lifecycle.markReady] at hreq
      split_ifs at hreq
      · cases hreq
      · exact hreq
  | completed _ => cases hreq
  | cancelled | cancelling => exact .inr (.inl rfl)
  | notified => exact .inr (.inr (Nat.lt_succ_self _))
  | restored _ hl _ => rcases hl with rfl | rfl <;> cases hreq

theorem Effect.notifications_le (h : Effect answers q t q' t' o) :
    q.notifications ≤ q'.notifications := by
  cases h with
  | quiet _ _ hnotif => exact hnotif.ge
  | updated => simp [Query.updateState, apply_ite Query.notifications]
  | notified => exact Nat.le_succ _
  | _ => exact le_rfl

/-- A call that has asked to be notified: it does so before it looks whether the query is
cancelled. -/
theorem Effect.arming {seen : ℕ} (h : Effect answers q t q' (.arming w seen) o) :
    seen = q'.notifications := by
  generalize ht' : Thread.arming w seen = t' at h
  cases h with
  | quiet _ _ _ _ _ _ hp =>
    rw [← ht'] at hp
    cases hp
  | armed w =>
    cases ht'
    rfl
  | @updated k' => cases k' <;> cases ht'
  | _ => cases ht'

theorem Effect.waiting {seen : ℕ} (h : Effect answers q t q' (.waiting w seen) o) :
    q' = q ∧ t = .arming w seen ∧ q.lifecycle.cancellationRequested = false := by
  generalize ht' : Thread.waiting w seen = t' at h
  cases h with
  | quiet _ _ _ _ _ _ hp =>
    rw [← ht'] at hp
    cases hp
  | waits w seen hnot =>
    cases ht'
    exact ⟨rfl, rfl, hnot⟩
  | @updated k' => cases k' <;> cases ht'
  | _ => cases ht'

/-- A call that waits while the query is cancelled has missed no notification. -/
structure Heard (c : Config (Query E D) (Thread E D B)) : Prop where
  le : ∀ i w seen, c.thread i = .arming w seen ∨ c.thread i = .waiting w seen →
    seen ≤ c.shared.notifications
  lt : ∀ i w seen, c.thread i = .waiting w seen →
    c.shared.lifecycle.cancellationRequested = true →
    seen < c.shared.notifications ∨ ∃ j, c.thread j = .notifying

omit [DecidableEq D] in
theorem Initial.heard (h : Initial answers c) : Heard c where
  le := by
    intro i w seen hi
    rw [h.idle i] at hi
    rcases hi with hi | hi <;> cases hi
  lt := by
    intro i w seen hi
    rw [h.idle i] at hi
    cases hi

theorem Heard.fires (h : Heard c) (hf : (machine answers batches).Fires .any c i o c') :
    Heard c' := by
  obtain ⟨a, hstep, -, hoth⟩ := hf.exists_step
  have heff := effect_of_step hstep
  refine ⟨fun j w seen hj => ?_, fun j w seen hj hreq => ?_⟩
  · by_cases hji : j = i
    · subst hji
      rcases hj with hj | hj <;> rw [hj] at heff
      · exact heff.arming.le
      · obtain ⟨hs, harming, -⟩ := heff.waiting
        rw [hs]
        exact h.le j w seen (.inl harming)
    · rw [hoth j hji] at hj
      exact (h.le j w seen hj).trans heff.notifications_le
  · by_cases hji : j = i
    · subst hji
      rw [hj] at heff
      obtain ⟨hs, -, hnot⟩ := heff.waiting
      rw [hs, hnot] at hreq
      cases hreq
    · rw [hoth j hji] at hj
      rcases heff.heard hreq with ⟨hbef, ht⟩ | hnotifying | hmore
      · rcases h.lt j w seen hj hbef with hlt | ⟨l, hl⟩
        · exact .inl (hlt.trans_le heff.notifications_le)
        · have hli : l ≠ i := by
            rintro rfl
            exact ht hl
          exact .inr ⟨l, (hoth l hli).trans hl⟩
      · exact .inr ⟨i, hnotifying⟩
      · exact .inl ((h.le j w seen (.inr hj)).trans_lt hmore)

variable (answers batches) in
/-- A reader that waits has been notified: it can do nothing but wake up or end, and once it is
awake its next steps end it with an error. -/
structure Woken (q : Query E D) (w : Wait E D B) (seen : ℕ) : Prop where
  wakes : ∀ a q' t' o, step answers batches q (.waiting w seen) a = some (q', t', o) →
    t' = .select w ∨ t' = .idle
  fails : ∃ q', (machine answers batches).solo q (.waiting w seen) [.wake, .proceed, .proceed] =
    some (q', .idle, [.failed])

theorem woken_of_notified {r : Reader E B} {seen : ℕ} (hcaller : w.caller = .reader r)
    (hs : seen < q.notifications) (hreq : q.lifecycle.cancellationRequested = true) :
    Woken answers batches q w seen where
  wakes := by
    intro a q' t' o h
    cases a with
    | fail | drop =>
      cases h
      exact .inr rfl
    | wake =>
      simp only [step, if_neg hs.ne] at h
      cases h
      exact .inl rfl
    | _ =>
      simp only [step, if_neg hs.ne] at h
      cases h
  fails := by
    simp [solo, machine, step, hs.ne, hreq, Sql.fails, Thread.failure, Thread.caller,
      hcaller]

/-- **A remote SQL result stream is complete, and its state monotone**: with a server whose answers
only extend the list of endpoints, a stream that ends without an error has opened the endpoints of
the final answer in order, each once, and its rows are their batches.  The stored answer is an
answer of the server and is only replaced by a newer one, a query that is completed or cancelled
stays so, and a reader that waits when the query is cancelled is woken at the latest by the next
step of the call that has cancelled it. -/
theorem sql_stream_complete (hext : Extending answers) {c₀ : Config (Query E D) (Thread E D B)}
    (hinit : Initial answers c₀) {es : List (ℕ × Event E B)}
    (hrun : (machine answers batches).Run .any c₀ es c) :
    (∀ i rows opened, (i, .ended rows opened) ∈ es → c.shared.state.descriptor = none ∧
      opened = c.shared.state.endpoints ∧ rows = opened.flatMap batches) ∧
    c.shared.state = answers c.shared.state.number ∧
    (∀ i o c', (machine answers batches).Fires .any c i o c' →
      c.shared.state.number ≤ c'.shared.state.number ∧
      (c.shared.lifecycle.ended = true → c'.shared.lifecycle = c.shared.lifecycle)) ∧
    ∀ i w r seen, c.thread i = .waiting w seen → w.caller = .reader r →
      c.shared.lifecycle.cancellationRequested = true →
      Woken answers batches c.shared w seen ∨ ∃ j q, c.thread j = .notifying ∧
        (∀ a q' t' o, step answers batches c.shared (.notifying : Thread E D B) a =
          some (q', t', o) → q' = q) ∧ Woken answers batches q w seen := by
  have hs : ∀ c i o c', (machine answers batches).Fires .any c i o c' →
      Inv answers batches c → Inv answers batches c' :=
    fun _ _ _ _ hfi hinv => hinv.fires hext hfi
  have hinv := hrun.invariant hs (hinit.inv hext)
  have hheard := hrun.invariant (I := Heard) (fun _ _ _ _ hfi h => h.fires hfi) hinit.heard
  refine ⟨fun i rows opened hmem => ?_, hinv.state, fun i o c' hfi => ⟨?_, ?_⟩, ?_⟩
  · obtain ⟨before, later, rfl⟩ := append_of_mem hmem
    obtain ⟨c₁, c₂, hbef, hfi, hlat⟩ := hrun.of_append_cons
    have hinv₁ := hbef.invariant hs (hinit.inv hext)
    obtain ⟨hsame, hl, hop, hr⟩ := hinv₁.ended hfi
    -- the final answer is not replaced later
    have hk := hlat.invariant
      (I := fun c => Inv answers batches c ∧ c.shared.state = c₁.shared.state)
      (fun _ _ _ _ hfi h => ⟨h.1.fires hext hfi,
        ((h.1.le_of_fires hext hfi).2.2 (h.2 ▸ hl)).trans h.2⟩)
      ⟨hinv₁.fires hext hfi, hsame⟩
    rw [hk.2]
    exact ⟨hl, hop, hr⟩
  · exact (hinv.le_of_fires hext hfi).1
  · obtain ⟨a, t', hs, -, -⟩ := hfi
    exact (effect_of_step hs).lifecycle_of_ended
  · intro i w r seen hi hcaller hreq
    rcases hheard.lt i w seen hi hreq with hlt | ⟨j, hj⟩
    · exact .inl (woken_of_notified hcaller hlt hreq)
    · refine .inr ⟨j, _, hj, fun a q' t' o h => ?_, woken_of_notified (q := { c.shared.leave
        (.notifying : Thread E D B) with notifications := c.shared.notifications + 1 }) hcaller
        (Nat.lt_succ_of_le (hheard.le i w seen (.inr hi))) hreq⟩
      cases a <;> cases h
      rfl

end

/-- A query whose result has one endpoint at first and two in the end. -/
def demoAnswers : ℕ → PollInfo ℕ ℕ
  | 0 => ⟨0, some [0], some 7⟩
  | n + 1 => ⟨n + 1, some [0, 1], none⟩

def demoBatches (endpoint : ℕ) : List ℕ := [10 * endpoint, 10 * endpoint + 1]

def demoStart : Config (Query ℕ ℕ) (Thread ℕ ℕ ℕ) where
  shared := ⟨demoAnswers 0, false, false, .running, 0, 0⟩
  thread _ := .idle

/-- An await that is raced against a cancellation. -/
def demoAwait (i : ℕ) (a : Action) : List (ℕ × Action) := [(i, .proceed), (i, .proceed), (i, a)]

/-- The reader has the next batch, and sends it. -/
def demoBatch (i : ℕ) : List (ℕ × Action) :=
  demoAwait i .ready ++ demoAwait i .ready ++ [(i, .proceed)]

/-- A reader, and a call of `describe` that stores the final answer while it reads. -/
def demoRead : List (ℕ × Action) :=
  [(0, .read), (0, .proceed), (0, .proceed)] ++ demoAwait 0 .ready ++ demoBatch 0 ++ demoBatch 0 ++
    demoAwait 0 .ready ++
  [(1, .describe), (1, .proceed), (1, .proceed)] ++ demoAwait 1 .ready ++ [(1, .proceed)] ++
    demoAwait 1 (.answer 0) ++ [(1, .proceed)] ++
  [(0, .proceed), (0, .proceed)] ++ demoAwait 0 .ready ++ [(0, .proceed)] ++ demoBatch 0 ++
    demoBatch 0 ++ demoAwait 0 .ready ++ [(0, .proceed), (0, .proceed), (0, .proceed)]

/-- A reader that opens its first endpoint, and a call of `cancel` that has yet to notify it. -/
def demoCancel : List (ℕ × Action) :=
  [(0, .read), (0, .proceed), (0, .proceed), (0, .proceed), (0, .proceed), (1, .cancel),
    (1, .proceed), (1, .proceed), (1, .proceed), (1, .outcome .cancelled), (1, .proceed),
    (1, .proceed)]

theorem demoAnswers_extending : Extending demoAnswers where
  number n := by cases n <;> rfl
  extend n := by
    cases n with
    | zero => exact ⟨[1], rfl⟩
    | succ n => exact prefix_rfl

theorem demoStart_initial : Initial demoAnswers demoStart :=
  ⟨rfl, rfl, rfl, rfl, fun _ => rfl⟩

theorem demoRead_run : (machine demoAnswers demoBatches).Run .any demoStart
    [(0, .ended [0, 1, 10, 11] [0, 1])]
    ((machine demoAnswers demoBatches).after demoStart demoRead) := run_after (by decide)

theorem demoCancel_run : (machine demoAnswers demoBatches).Run .any demoStart []
    ((machine demoAnswers demoBatches).after demoStart demoCancel) := run_after (by decide)

theorem sql_stream_complete_demo :
    [0, 1, 10, 11] = [0, 1].flatMap demoBatches ∧
      ∃ q, (∀ a q' t' o, step demoAnswers demoBatches
          ((machine demoAnswers demoBatches).after demoStart demoCancel).shared .notifying a =
            some (q', t', o) → q' = q) ∧
        Woken demoAnswers demoBatches q (.opens (Reader.start.open 0) 0) 0 := by
  have hr := sql_stream_complete demoAnswers_extending demoStart_initial demoRead_run
  have hcancel := sql_stream_complete demoAnswers_extending demoStart_initial demoCancel_run
  refine ⟨(hr.1 0 _ _ (mem_singleton_self _)).2.2, ?_⟩
  rcases hcancel.2.2.2 0 (.opens (Reader.start.open 0) 0) (Reader.start.open 0) 0 rfl rfl rfl with
    hwoken | ⟨j, q, -, hnotifies, hwoken⟩
  · obtain ⟨q', hfls⟩ := hwoken.fails
    cases hfls
  · exact ⟨q, hnotifies, hwoken⟩

end LanceDB.Sql
