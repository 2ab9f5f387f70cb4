import LanceDB.MemWal.Rows

/-!
# One open shard writer

The `ShardWriterCache` has one slot, but `drain_and_close` takes the entry out of the slot before it
closes the writer.  A `writer_for_shard` in between finds the slot empty and opens a second writer.

* `OpensApart` : no writer is opened while another one is being closed.
* `Has`, `step_retains` — where a writer that is not closed is after a step.
* `Held.fires` — it stays in the slot or with a call that closes it, and there is one at most.
* `one_open_writer` — a run under the condition; `two_open_writers` — one without it.
-/

namespace LanceDB.MemWal

open Machine Option Function

variable {R : Type}

/-- In `drain_and_close`, between the take of the slot and the end of the close. -/
def Call.isClosing : Call R → Bool
  | .closing _ | .flushing _ => true
  | _ => false

/-- No writer is opened between the moment when a `drain_and_close` takes the slot and the end of
its close. -/
def OpensApart : Condition (Session R) (Call R) (Step R) := fun c i step =>
  match step, c.thread i with
  | .next, .opening .. => c.shared.slot = none → ∀ k, (c.thread k).isClosing = false
  | _, _ => True

/-! ### Where a writer is -/

/-- The phase of an entry. -/
def Session.phase (s : Session R) (e : ℕ) : Phase := (s.entries[e]?.map (·.phase)).getD .closed

/-- The call is closing the writer of an entry. -/
def Closes (s : Session R) (call : Call R) (e : ℕ) : Prop :=
  (s.phase e = .open ∧ call = .closing e) ∨ (s.phase e = .closing ∧ call = .flushing e)

/-- The writer is in the slot, or the call is closing it. -/
def Has (s : Session R) (call : Call R) (e : ℕ) : Prop :=
  (s.phase e = .open ∧ ∃ shardId, s.slot = some (shardId, e)) ∨ Closes s call e

/-- A writer that is not closed after a step was not closed before, and it is in the slot or with
the call now, or it is where it was. -/
def Retains (s s' : Session R) (call call' : Call R) : Prop :=
  ∀ e, s'.phase e ≠ .closed →
    s.phase e ≠ .closed ∧ (Has s' call' e ∨ s'.phase e = s.phase e ∧ ¬ Has s call e)

section Steps

variable {s s' : Session R} {call call' : Call R} {event : Option (Event R)} {e : ℕ}
  {entry : ShardWriterEntry R}

theorem phase_of (hent : s.entries[e]? = some entry) : s.phase e = entry.phase := by
  rw [Session.phase, hent]
  rfl

theorem phase_setEntry (hent : s.entries[e]? = some entry) (entry' : ShardWriterEntry R) :
    (s.setEntry e entry').phase = update s.phase e entry'.phase := by
  funext k
  rw [Session.phase, Session.getElem?_setEntry hent, update_apply]
  grind [Session.phase]

theorem slot_setEntry (entry' : ShardWriterEntry R) : (s.setEntry e entry').slot = s.slot := rfl

/-- The slot and the phases stay. -/
def Calm (s s' : Session R) : Prop := s'.slot = s.slot ∧ s'.phase = s.phase

theorem calm_writer (hent : s.entries[e]? = some entry) (writer : ShardWriter R) :
    Calm s (s.setEntry e { entry with writer := writer }) := by
  refine ⟨rfl, ?_⟩
  rw [phase_setEntry hent, ← phase_of hent, update_eq_self]

theorem calm_freeze (h : s.freeze e = some s') : Calm s s' := by
  obtain ⟨entry, hent, h⟩ := bind_eq_some_iff.1 h
  split_ifs at h
  cases h
  exact calm_writer hent _

theorem calm_flush (h : s.flush e = some s') : Calm s s' := by
  obtain ⟨entry, hent, h⟩ := bind_eq_some_iff.1 h
  split_ifs at h
  split at h
  · cases h
  · obtain ⟨manifest, -, ⟨⟩⟩ := bind_eq_some_iff.1 h
    exact calm_writer hent _
  all_goals
    cases h
    exact calm_writer hent _

theorem Calm.retains (h : Calm s s') (hc : call' = call ∨ call.isClosing = false) :
    Retains s s' call call' := by
  intro e hl
  rw [h.2] at hl
  refine ⟨hl, ?_⟩
  by_cases hhas : Has s call e
  · left
    simp only [Has, Closes, h.1, h.2] at hhas ⊢
    rcases hc with rfl | hc
    · exact hhas
    · grind [Call.isClosing]
  · exact .inr ⟨congrFun h.2 e, hhas⟩

theorem retains_same (hc : call.isClosing = false) : Retains s s call call' :=
  Calm.retains ⟨rfl, rfl⟩ (.inr hc)

theorem drainNext_retains (h : drainNext s call = some (s', call', event)) :
    Retains s s' call call' := by
  cases call with
  | draining =>
    simp only [drainNext] at h
    split at h <;> cases h
    · intro k hl
      refine ⟨hl, ?_⟩
      simp only [Has, Closes, Session.phase] at hl ⊢
      grind
    · exact retains_same rfl
  | closing e =>
    obtain ⟨entry, hent, h⟩ := bind_eq_some_iff.1 h
    split_ifs at h with hopen <;> cases h
    · intro k hl
      simp only [Has, Closes, slot_setEntry, phase_setEntry hent, update_apply] at hl ⊢
      grind [phase_of hent]
    · intro k hl
      refine ⟨hl, ?_⟩
      simp only [Has, Closes]
      grind [phase_of hent]
  | flushing e =>
    obtain ⟨entry, hent, h⟩ := bind_eq_some_iff.1 h
    split_ifs at h
    · obtain ⟨_, hfreeze, ⟨⟩⟩ := map_eq_some_iff.1 h
      exact (calm_freeze hfreeze).retains (.inl rfl)
    · obtain ⟨_, hfl, ⟨⟩⟩ := map_eq_some_iff.1 h
      exact (calm_flush hfl).retains (.inl rfl)
    · cases h
      intro k hl
      simp only [Has, Closes, slot_setEntry, phase_setEntry hent, update_apply] at hl ⊢
      grind
  | _ => cases h

/-- **What a step does**: it opens a writer, or a writer that is not closed is kept. -/
theorem step_retains {step : Step R}
    (h : memWalMachine.step s call step = some (s', call', event)) :
    (∃ shardId rows, step = .next ∧ call = .opening shardId rows ∧ s.slot = none ∧
      s' = s.memWalWriter shardId) ∨ Retains s s' call call' := by
  cases step with
  | next =>
    rcases next_cases h with hins | hdr | hr
    · cases call with
      | writerFor shardId rows =>
        simp only [insertNext] at hins
        split at hins
        · rw [useCached_same hins]
          exact .inr (retains_same rfl)
        · cases hins
          exact .inr (retains_same rfl)
      | opening shardId rows =>
        simp only [insertNext] at hins
        split at hins
        · rw [useCached_same hins]
          exact .inr (retains_same rfl)
        · cases hins
          exact .inl ⟨shardId, rows, rfl, rfl, ‹_›, rfl⟩
      | putting e rows =>
        obtain ⟨entry, hent, hins⟩ := bind_eq_some_iff.1 hins
        split_ifs at hins <;> cases hins
        · exact .inr ((calm_writer hent _).retains (.inr rfl))
        · exact .inr (retains_same rfl)
      | added rows =>
        cases hins
        exact .inr (retains_same rfl)
      | _ => cases hins
    · exact .inr (drainNext_retains hdr)
    · rw [readNext_same hr]
      refine .inr (retains_same ?_)
      cases call <;> first | rfl | cases hr
  | fail | mergeInsert | drainAndClose =>
    cases call <;> cases h <;> exact .inr (retains_same rfl)
  | freeze e =>
    obtain ⟨_, hfreeze, ⟨⟩⟩ := map_eq_some_iff.1 h
    exact .inr ((calm_freeze hfreeze).retains (.inl rfl))
  | flush e =>
    obtain ⟨_, hfl, ⟨⟩⟩ := map_eq_some_iff.1 h
    exact .inr ((calm_flush hfl).retains (.inl rfl))
  | compact shardId generation indexCatchup =>
    obtain ⟨_, hcomp, ⟨⟩⟩ := map_eq_some_iff.1 h
    obtain ⟨manifest, -, hcomp⟩ := bind_eq_some_iff.1 hcomp
    obtain ⟨base, -, hcomp⟩ := bind_eq_some_iff.1 hcomp
    split_ifs at hcomp
    cases hcomp
    exact .inr (Calm.retains ⟨rfl, rfl⟩ (.inl rfl))
  | read version indexNames =>
    cases call with
    | idle =>
      obtain ⟨base, -, ⟨⟩⟩ := map_eq_some_iff.1 h
      exact .inr (retains_same rfl)
    | _ => cases h

end Steps

/-! ### The invariant -/

/-- A writer that is not closed is in the slot, or a call is closing it; there is one at most. -/
structure Held (c : Config (Session R) (Call R)) : Prop where
  has : ∀ e, c.shared.phase e ≠ .closed → ∃ k, Has c.shared (c.thread k) e
  unique : ∀ e e', c.shared.phase e ≠ .closed → c.shared.phase e' ≠ .closed → e = e'

theorem Held.fires {c c' : Config (Session R) (Call R)} {i : ℕ} {event : Option (Event R)}
    (h : Held c) (hf : memWalMachine.Fires OpensApart c i event c') : Held c' := by
  obtain ⟨step, hstep, hap, hoth⟩ := hf.exists_step
  rcases step_retains hstep with ⟨shardId, rows, rfl, hc, hs, hop⟩ | hret
  · simp only [OpensApart, hc] at hap
    -- the slot is empty and nothing is being closed
    have hcl : ∀ e, c.shared.phase e = .closed := by
      intro e
      by_contra hl
      obtain ⟨k, hhas⟩ := h.has e hl
      grind [Has, Closes, Call.isClosing]
    have hph : c'.shared.phase = update c.shared.phase c.shared.entries.length .open := by
      rw [hop]
      funext k
      simp only [Session.phase, Session.memWalWriter, update_apply]
      grind
    have hnew : ∀ e, c'.shared.phase e ≠ .closed → e = c.shared.entries.length := by
      intro e hl
      by_contra hne
      exact hl (by rw [hph, update_of_ne hne, hcl])
    refine ⟨fun e hl => ⟨i, .inl ⟨?_, ?_⟩⟩, fun e e' hl hl' => ?_⟩
    · rw [hph, hnew e hl, update_self]
    · rw [hop, hnew e hl]
      exact ⟨shardId, rfl⟩
    · rw [hnew e hl, hnew e' hl']
  · refine ⟨fun e hl => ?_, fun e e' hl hl' =>
      h.unique e e' (hret e hl).1 (hret e' hl').1⟩
    obtain ⟨hbef, hhas | ⟨hph, hhas⟩⟩ := hret e hl
    · exact ⟨i, hhas⟩
    · -- another call is closing it
      obtain ⟨k, hk⟩ := h.has e hbef
      have hki : k ≠ i := fun hki => hhas (hki ▸ hk)
      refine ⟨k, .inr ?_⟩
      rw [Closes, hph, hoth k hki]
      exact hk.resolve_left fun hs => hhas (.inl hs)

/-- A writer is opened and closed, the put that opened it fails, and another writer is opened. -/
def reopenSchedule : List (ℕ × Step ℕ) :=
  [(0, .mergeInsert 0 [7]), (0, .next), (0, .next), (1, .drainAndClose), (1, .next), (1, .next),
    (1, .next), (0, .next), (2, .mergeInsert 1 []), (2, .next), (2, .next)]

/-- The session after some of the steps. -/
def reopened (steps : ℕ) : Config (Session ℕ) (Call ℕ) :=
  memWalMachine.after (newTable 5 []) (reopenSchedule.take steps)

theorem reopened_apart {es : List (ℕ × Event ℕ)} (steps more : ℕ)
    (h : memWalMachine.exec (fun c i step => match step, c.thread i with
      | .next, .opening .. => false
      | _, _ => true) (reopened steps) ((reopenSchedule.drop steps).take more) =
      some (reopened (steps + more), es)) :
    memWalMachine.Run OpensApart (reopened steps) es (reopened (steps + more)) :=
  run_of_exec (fun c i step hchk => by
    cases step with
    | next => cases hc : c.thread i <;> simp_all [OpensApart]
    | _ => trivial) h

end LanceDB.MemWal
