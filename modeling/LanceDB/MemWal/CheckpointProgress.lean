import LanceDB.MemWal.Checkpoint
import Mathlib.Data.List.GetD
import Mathlib.Tactic.IntervalCases

/-!
# Checkpoints return what they owe

What a checkpoint that returns has done is an invariant of finite runs.  That it returns is about
infinite traces: the loops that retry and start over are bounded by their budgets, so a call that
does not return is polling from some point on, with the same targets.  SSTables that are created
meanwhile have generations above these targets, so once the targets are drained they stay drained,
and the next poll that is read after that ends the call.

* `rank`, `Answers.progress` — every answer lowers the rank of the call, or it goes on polling.
* `Clear`, `Clear.evolves` — targets that are drained stay drained.
* `Converging`, `Converging.returns` — a call whose targets are compacted returns.
* `checkpoint_converges` — what a checkpoint has done, how often it flushes, and that it returns.
-/

namespace LanceDB.Checkpoint

open List

variable {R : Type} {w w' : World R}
variable {response : Response} {n : ℕ}

/-! ### The rank of a call -/

/-- The ranks of one round of the loop. -/
def roundRank : ℕ := 2 * (maxRetries + 1) + 2

/-- How far a call is from polling. -/
def rank (w : World R) : ℕ :=
  match w.phase with
  | .idle => (maxReissues + 1) * roundRank
  | .flush reissue retries => (maxReissues - reissue) * roundRank + 2 * (maxRetries + 1) - retries
  | .stats reissue retries _ => (maxReissues - reissue) * roundRank + (maxRetries + 1) - retries
  | .poll reissue _ _ _ => (maxReissues - reissue) * roundRank
  | .compact reissue _ => (maxReissues - reissue) * roundRank
  | .returned _ => 0

/-- The call polls, or asks for a compaction, until these targets are drained. -/
def Draining (w : World R) (targets : List (String × ℕ)) : Prop :=
  (∃ reissue retries answer, w.phase = .poll reissue targets retries answer) ∨
    ∃ reissue, w.phase = .compact reissue targets

/-- The call has returned. -/
def Returned (w : World R) : Prop := ∃ result, w.phase = .returned result

theorem rank_reissue (w : World R) (reissue : ℕ) :
    Returned (w.reissueFromFlush reissue) ∨
      rank (w.reissueFromFlush reissue) < (maxReissues - reissue) * roundRank := by
  refine reissue_rule (P := fun w' => Returned w' ∨ rank w' < (maxReissues - reissue) * roundRank)
    (fun hlt => .inr ?_) fun _ => .inl ⟨_, rfl⟩
  simp only [rank, World.sendFlush, roundRank, maxReissues, maxRetries] at hlt ⊢
  omega

/-- **What an answer does for the call**: it returns, or its rank falls, or it goes on draining the
same targets. -/
theorem Answers.progress (ha : Answers w response w') (h : Budget w) :
    Returned w' ∨ rank w' < rank w ∨
      ∃ targets, Draining w targets ∧ Draining w' targets ∧ rank w' = rank w := by
  cases ha with
  | flushed hph hpend =>
    rw [Budget, hph] at h
    refine .inr (.inl ?_)
    simp only [rank, hph, roundRank, maxReissues, maxRetries] at h ⊢
    omega
  | fixed hph hls =>
    rw [Budget, hph] at h
    unfold World.fixTargets
    simp only
    split_ifs
    · exact .inl ⟨_, rfl⟩
    · refine .inr (.inl ?_)
      simp only [rank, hph, roundRank, maxReissues, maxRetries] at h ⊢
      omega
  | drained hph hls =>
    unfold World.drain
    simp only
    split_ifs
    · exact .inl ⟨_, rfl⟩
    · refine .inr (.inr ⟨_, .inl ⟨_, _, _, hph⟩, .inr ⟨_, rfl⟩, ?_⟩)
      simp only [rank, hph]
    · refine .inr (.inr ⟨_, .inl ⟨_, _, _, hph⟩, .inl ⟨_, _, _, rfl⟩, ?_⟩)
      simp only [rank, hph]
  | compacted hph =>
    refine .inr (.inr ⟨_, .inr ⟨_, hph⟩, .inl ⟨_, _, _, rfl⟩, ?_⟩)
    simp only [rank, hph]
  | absent hwts hne hids => exact .inl ⟨_, rfl⟩
  | failed e hwts =>
    obtain ⟨hre, hretr, -⟩ := hwts.budget h
    refine failed_rule (P := fun w' => Returned w' ∨ rank w' < rank w ∨
      ∃ targets, Draining w targets ∧ Draining w' targets ∧ rank w' = rank w) ?_
      (fun _ => .inl ⟨_, rfl⟩) fun hlt => ?_
    · rcases rank_reissue w _ with hret | hlt
      · exact .inl hret
      · refine .inr (.inl (hlt.trans_le ?_))
        cases hwts with
        | flush hph | stats hph | poll hph =>
          simp only [rank, hph, roundRank, maxReissues, maxRetries] at hretr ⊢
          omega
    · cases hwts with
      | flush hph | stats hph =>
        refine .inr (.inl ?_)
        simp only [rank, World.sendFlush, hph, roundRank, maxReissues, maxRetries] at hlt ⊢
        omega
      | poll hph =>
        refine .inr (.inr ⟨_, .inl ⟨_, _, _, hph⟩, .inl ⟨_, _, _, rfl⟩, ?_⟩)
        simp only [rank, hph]
  | notCompacted e hph hw' =>
    rw [Budget, hph] at h
    rcases hw' with rfl | rfl | rfl
    · rcases rank_reissue w _ with hret | hlt
      · exact .inl hret
      · refine .inr (.inl ?_)
        simpa only [rank, hph] using hlt
    · exact .inl ⟨_, rfl⟩
    · refine .inr (.inr ⟨_, .inr ⟨_, hph⟩, .inl ⟨_, _, _, rfl⟩, ?_⟩)
      simp only [rank, hph]

/-- A step that is no answer and not the start leaves the rank and the targets of the call alone. -/
structure Quiet (w w' : World R) : Prop where
  rank : rank w' = rank w
  draining : ∀ targets, Draining w' targets ↔ Draining w targets
  returned : Returned w' ↔ Returned w
  compact : ∀ reissue targets, w.phase = .compact reissue targets →
    w'.phase = .compact reissue targets

section Steps

variable [DecidableEq R] {a : Action R}

theorem quiet_of_step (h : step w a = some w') (hs : a ≠ .start)
    (hresp : ∀ response, a ≠ .respond response) : Quiet w w' := by
  rcases step_cases h with ⟨-, hb⟩ | ⟨id, compacting, rfl⟩ | rfl | ⟨response, rfl, -⟩
  · refine ⟨?_, fun targets => ?_, ?_, fun _ _ hph => hb.phase.trans hph⟩
    · simp only [Checkpoint.rank, hb.phase]
    · simp only [Draining, hb.phase]
    · simp only [Returned, hb.phase]
  · obtain ⟨-, ⟨reissue, retries, answer, hph, rfl⟩ |
      ⟨reissue, targets, retries, answer, hph, rfl⟩⟩ := read_of_step h
    · refine ⟨?_, fun targets => ?_, ?_, by simp [hph]⟩
      · simp only [Checkpoint.rank, hph]
      · simp [Draining, hph]
      · simp [Returned, hph]
    · refine ⟨?_, fun targets' => ?_, ?_, by simp [hph]⟩
      · simp only [Checkpoint.rank, hph]
      · simp [Draining, hph]
      · simp [Returned, hph]
  · exact absurd rfl hs
  · exact absurd rfl (hresp response)

theorem rank_step (hbud : Budget w) (h : step w a = some w') : rank w' ≤ rank w := by
  by_cases hs : a = .start
  · subst hs
    obtain ⟨hph, rfl⟩ := start_of_step h
    simp only [rank, World.sendFlush, hph, roundRank, maxReissues, maxRetries]
    omega
  by_cases hresp : ∃ response, a = .respond response
  · obtain ⟨response, rfl⟩ := hresp
    rcases (respond_answers h).progress hbud with ⟨result, hret⟩ | hlt | ⟨_, -, -, heq⟩
    · simp only [rank, hret]
      exact Nat.zero_le _
    · exact hlt.le
    · exact heq.le
  · exact (quiet_of_step h hs fun response hr => hresp ⟨response, hr⟩).rank.le

end Steps

/-! ### Drained targets -/

/-- The targets of a call are drained: what is left in the shards, or will be added, is newer. -/
def Clear (s : Server R) (targets : List (String × ℕ)) : Prop :=
  ∀ id n, target targets id = some n →
    n ≤ (s.shard id).newest ∧ ∀ t ∈ (s.shard id).sstables, n < t.generation

/-- **Targets that are drained stay drained**, however many SSTables are created. -/
theorem Clear.evolves {s s' : Server R} {targets : List (String × ℕ)} (h : Clear s targets)
    (he : s.Evolves s') : Clear s' targets := by
  intro id n hn
  obtain ⟨hnewest, htables⟩ := h id n hn
  refine ⟨hnewest.trans (he.shard id).newest, fun t ht => ?_⟩
  rcases (he.shard id).fresh t ht with ht | ⟨hlt, -⟩
  · exact htables t ht
  · omega

theorem Clear.step [DecidableEq R] {a : Action R} {targets : List (String × ℕ)}
    (h : Clear w.server targets) (hs : Checkpoint.step w a = some w') :
    Clear w'.server targets := by
  rcases step_cases hs with ⟨-, hb⟩ | ⟨id, compacting, rfl⟩ | rfl | ⟨response, rfl, ha⟩
  · exact h.evolves hb.server
  · obtain ⟨-, ⟨_, _, _, -, rfl⟩ | ⟨_, _, _, _, -, rfl⟩⟩ := read_of_step hs <;> exact h
  · obtain ⟨-, rfl⟩ := start_of_step hs
    exact h
  · rw [ha.same.1]
    exact h

theorem Clear.outstandingIn_entry {s : Server R} {targets : List (String × ℕ)} (h : Clear s targets)
    (id : String) (compacting : Bool) : outstandingIn targets (s.entry id compacting) = 0 := by
  rw [outstandingIn]
  cases hn : target targets (s.entry id compacting).shardId with
  | none => rfl
  | some n =>
    refine countP_eq_zero.2 fun g hg => ?_
    obtain ⟨t, ht, rfl⟩ := mem_map.1 hg
    have hlt := (h id n hn).2 t ht
    simpa using hlt

/-- Generations that are not above the newest of their shard. -/
structure Bounded (w : World R) : Prop where
  server : ∀ id, ∀ t ∈ (w.server.shard id).sstables, t.generation ≤ (w.server.shard id).newest
  answer : ∀ reissue retries answer, w.phase = .stats reissue retries answer →
    ∀ b ∈ answer, ∀ g ∈ b.sstables, g ≤ (w.server.shard b.shardId).newest
  targets : ∀ targets, Draining w targets → ∀ id n, target targets id = some n →
    n ≤ (w.server.shard id).newest

theorem exists_of_target {answer : List TableShardStats} {id : String}
    (h : target (targetsOf answer) id = some n) :
    ∃ b ∈ answer, b.shardId = id ∧ n ∈ b.sstables := by
  obtain ⟨p, hp, rfl⟩ := Option.map_eq_some_iff.1 h
  have hpid : p.1 = id := by simpa using find?_some hp
  obtain ⟨b, hb, hent⟩ :=
    mem_filterMap.1 (mem_reverse.1 (mem_of_find?_eq_some hp))
  obtain ⟨n, hn, rfl⟩ := Option.map_eq_some_iff.1 hent
  exact ⟨b, hb, hpid, max?_mem hn⟩

theorem Bounded.step [DecidableEq R] {a : Action R} (h : Bounded w)
    (hs : Checkpoint.step w a = some w') : Bounded w' := by
  rcases step_cases hs with ⟨-, hb⟩ | ⟨id, compacting, rfl⟩ | rfl | ⟨response, rfl, ha⟩
  · refine ⟨fun id t ht => ?_, fun _ _ answer hph b hb' g hg => ?_, fun targets hd id n hn => ?_⟩
    · rcases (hb.server.shard id).fresh t ht with ht | ⟨-, hle⟩
      · exact (h.server id t ht).trans (hb.server.shard id).newest
      · exact hle
    · exact (h.answer _ _ _ (hb.phase ▸ hph) b hb' g hg).trans (hb.server.shard _).newest
    · have hd : Draining w targets := by simpa only [Draining, hb.phase] using hd
      exact (h.targets targets hd id n hn).trans (hb.server.shard id).newest
  · obtain ⟨-, ⟨reissue, retries, answer, hph, rfl⟩ |
      ⟨reissue, targets, retries, answer, hph, rfl⟩⟩ := read_of_step hs
    · refine ⟨h.server, fun _ _ answer' hph' b hb g hg => ?_, fun targets hd => ?_⟩
      · cases hph'
        rcases mem_append.1 hb with hb | hb
        · exact h.answer _ _ _ hph b hb g hg
        · obtain rfl := mem_singleton.1 hb
          obtain ⟨t, ht, rfl⟩ := mem_map.1 hg
          exact h.server id t ht
      · simp [Draining] at hd
    · refine ⟨h.server, by simp, fun targets' hd => h.targets targets' ?_⟩
      obtain ⟨_, _, _, hd⟩ | ⟨_, hd⟩ := hd <;> cases hd
      exact .inl ⟨_, _, _, hph⟩
  · obtain ⟨-, rfl⟩ := start_of_step hs
    exact ⟨h.server, by simp [World.sendFlush], by simp [World.sendFlush, Draining]⟩
  · cases ha.goes with
    | finish => exact ⟨h.server, by simp [World.finish], by simp [World.finish, Draining]⟩
    | flush => exact ⟨h.server, by simp [World.sendFlush], by simp [World.sendFlush, Draining]⟩
    | stats => exact ⟨h.server, by simp +contextual, by simp [Draining]⟩
    | poll _ _ hgives =>
      refine ⟨h.server, by simp, fun targets hd id n hn => ?_⟩
      obtain ⟨_, _, _, hd⟩ | ⟨_, hd⟩ := hd <;> cases hd
      generalize hph : w.phase = phase at hgives
      cases hgives with
      | stats =>
        obtain ⟨b, hb, rfl, hmem⟩ := exists_of_target hn
        exact h.answer _ _ _ hph b hb n hmem
      | poll => exact h.targets _ (.inl ⟨_, _, _, hph⟩) id n hn
      | compact => exact h.targets _ (.inr ⟨_, hph⟩) id n hn
    | compact _ hpoll =>
      refine ⟨h.server, by simp, fun targets hd => ?_⟩
      obtain ⟨_, _, _, hd⟩ | ⟨_, hd⟩ := hd <;> cases hd
      exact h.targets _ (.inl hpoll)

/-! ### The call returns -/

/-- The call polls, and nothing it has read is outstanding. -/
def Clean (w : World R) (targets : List (String × ℕ)) : Prop :=
  ∃ reissue retries answer, w.phase = .poll reissue targets retries answer ∧
    ∀ b ∈ answer, outstandingIn targets b = 0

section Progress

variable [DecidableEq R] {targets : List (String × ℕ)}

theorem Clean.step {a : Action R} (hc : Clean w targets) (hclear : Clear w.server targets)
    (h : Checkpoint.step w a = some w') (hresp : ∀ response, a ≠ .respond response) :
    Clean w' targets := by
  obtain ⟨reissue, retries, answer, hph, hans⟩ := hc
  rcases step_cases h with ⟨-, hb⟩ | ⟨id, compacting, rfl⟩ | rfl | ⟨response, rfl, -⟩
  · exact ⟨reissue, retries, answer, hb.phase.trans hph, hans⟩
  · obtain ⟨-, ⟨_, _, _, hph', rfl⟩ | ⟨_, _, _, _, hph', rfl⟩⟩ := read_of_step h
    · rw [hph] at hph'
      cases hph'
    · rw [hph] at hph'
      cases hph'
      refine ⟨_, _, _, rfl, fun b hb => ?_⟩
      rcases mem_append.1 hb with hb | hb
      · exact hans b hb
      · obtain rfl := mem_singleton.1 hb
        exact hclear.outstandingIn_entry id compacting
  · obtain ⟨hi, -⟩ := start_of_step h
    rw [hph] at hi
    cases hi
  · exact absurd rfl (hresp response)

omit [DecidableEq R] in
theorem Clean.returned (hc : Clean w targets) (ha : Answers w response w')
    (hok : ∀ e, response ≠ .failed e) : Returned w' := by
  obtain ⟨reissue, retries, answer, hph, hans⟩ := hc
  cases ha with
  | flushed h | fixed h | compacted h => rw [hph] at h; cases h
  | drained h _ =>
    rw [hph] at h
    cases h
    have hz : (answer.map (outstandingIn targets)).sum = 0 :=
      sum_eq_zero fun n hn => by
        obtain ⟨b, hb, rfl⟩ := mem_map.1 hn
        exact hans b hb
    unfold World.drain
    simp only [hz, if_true]
    exact ⟨_, rfl⟩
  | absent _ _ _ => exact ⟨_, rfl⟩
  | failed e | notCompacted e => exact absurd rfl (hok e)

/-- A trace of a call whose requests are all answered, and whose stats requests succeed and whose
targets are compacted from some point on. -/
structure Converging (t : Trace (Checkpoint.step (R := R))) : Prop where
  initial : t.state 0 = World.initial
  started : ∃ n, (t.state n).phase ≠ .idle
  answered : ∀ n, (t.state n).phase ≠ .idle → ¬ Returned (t.state n) →
    ∃ m, n ≤ m ∧ ∃ response, t.action m = .respond response
  stats : ∃ N, ∀ n, N ≤ n → ∀ e, t.action n = .respond (.failed e) →
    (∃ reissue retries, (t.state n).phase = .flush reissue retries) ∨
      ∃ reissue targets, (t.state n).phase = .compact reissue targets
  compacted : ∀ n targets, Draining (t.state n) targets → ∃ m, n ≤ m ∧
    ∀ id k, target targets id = some k →
      ∀ table ∈ ((t.state m).server.shard id).sstables, k < table.generation

variable {t : Trace (Checkpoint.step (R := R))}

theorem Converging.budget (h : Converging t) (n : ℕ) : Budget (t.state n) :=
  t.invariant (fun _ _ _ hs hb => hb.step hs) (by rw [h.initial]; rfl) n

theorem Converging.bounded (h : Converging t) (n : ℕ) : Bounded (t.state n) :=
  t.invariant (fun _ _ _ hs hb => hb.step hs)
    (by rw [h.initial]; exact ⟨by simp [World.initial], by simp [World.initial],
      by simp [World.initial, Draining]⟩) n

theorem Converging.rank_le (h : Converging t) {m : ℕ} (hle : n ≤ m) :
    rank (t.state m) ≤ rank (t.state n) := by
  induction m, hle using Nat.le_induction with
  | base => exact le_rfl
  | succ m _ ih => exact (rank_step (h.budget m) (t.next m)).trans ih

/-- A call that has started is not idle again: this has the greatest rank. -/
theorem Converging.not_idle (h : Converging t) {m : ℕ} (hn : (t.state n).phase ≠ .idle)
    (hle : n ≤ m) : (t.state m).phase ≠ .idle := by
  intro hi
  have hrank := h.rank_le hle
  rcases hph : (t.state n).phase with _ | _ | _ | _ | _ | _ <;>
    simp only [rank, hi, hph, roundRank, maxReissues, maxRetries] at hrank
  · exact hn hph
  all_goals omega

theorem quiet_of_not_idle (hn : (t.state n).phase ≠ .idle)
    (hresp : ∀ response, t.action n ≠ .respond response) :
    Quiet (t.state n) (t.state (n + 1)) := by
  refine quiet_of_step (t.next n) (fun hs => ?_) hresp
  have hnext := t.next n
  rw [hs] at hnext
  exact hn (start_of_step hnext).1

omit [DecidableEq R] in
theorem Draining.unique {targets' : List (String × ℕ)} (h : Draining w targets)
    (h' : Draining w targets') : targets = targets' := by
  obtain ⟨_, _, _, h⟩ | ⟨_, h⟩ := h <;> obtain ⟨_, _, _, h'⟩ | ⟨_, h'⟩ := h' <;>
    rw [h] at h' <;> cases h' <;> rfl

/-- **A call that does not return drains the same targets from some point on.** -/
theorem Converging.exists_draining (h : Converging t) (hnever : ∀ n, ¬ Returned (t.state n)) :
    ∃ N targets, ∀ n, N ≤ n → (t.state n).phase ≠ .idle ∧ Draining (t.state n) targets := by
  obtain ⟨n₀, hst⟩ := h.started
  obtain ⟨N, hN⟩ := Trace.settles (fun n => rank (t.state n)) fun n =>
    rank_step (h.budget n) (t.next n)
  have hi : ∀ n, max N n₀ ≤ n → (t.state n).phase ≠ .idle := fun n hn =>
    h.not_idle hst ((le_max_right _ _).trans hn)
  -- an answer neither ends the call nor lowers its rank
  have hans : ∀ n response, max N n₀ ≤ n → t.action n = .respond response →
      ∃ targets, Draining (t.state n) targets ∧ Draining (t.state (n + 1)) targets := by
    intro n response hn hresp
    have hnext := t.next n
    rw [hresp] at hnext
    rcases (respond_answers hnext).progress (h.budget n) with hret | hlt | ⟨targets, hd, hd', -⟩
    · exact absurd hret (hnever _)
    · have hle : N ≤ n := (le_max_left _ _).trans hn
      have hs : rank (t.state (n + 1)) = rank (t.state n) :=
        (hN (n + 1) (by omega)).trans (hN n hle).symm
      omega
    · exact ⟨targets, hd, hd'⟩
  have hfst : ∃ targets, Draining (t.state (max N n₀)) targets := by
    obtain ⟨m, hm, ⟨response, hresponse⟩, hs⟩ := t.exists_first
      (P := fun a => ∃ response, a = .respond response)
      (I := fun k =>
        ∀ targets, Draining (t.state k) targets ↔ Draining (t.state (max N n₀)) targets)
      (h.answered _ (hi _ le_rfl) (hnever _)) (fun _ => Iff.rfl) fun k hk hnot hI targets => by
        have hq := quiet_of_not_idle (hi k hk) fun response hr => hnot ⟨response, hr⟩
        exact (hq.draining targets).trans (hI targets)
    obtain ⟨targets, hd, -⟩ := hans m response hm hresponse
    exact ⟨targets, (hs targets).1 hd⟩
  obtain ⟨targets, htargets⟩ := hfst
  refine ⟨max N n₀, targets, fun n hn => ⟨hi n hn, ?_⟩⟩
  induction n, hn using Nat.le_induction with
  | base => exact htargets
  | succ n hn ih =>
    by_cases hresp : ∃ response, t.action n = .respond response
    · obtain ⟨response, hresponse⟩ := hresp
      obtain ⟨targets', hd, hd'⟩ := hans n response hn hresponse
      rwa [← ih.unique hd] at hd'
    · have hq := quiet_of_not_idle (hi n hn) fun response hr => hresp ⟨response, hr⟩
      exact (hq.draining targets).2 ih

omit [DecidableEq R] in
/-- A call that goes on draining after an answer polls anew, or asks for a compaction. -/
theorem Answers.next_poll (ha : Answers w response w') (hd' : Draining w' targets) :
    Clean w' targets ∨ (∃ reissue, w'.phase = .compact reissue targets) ∧
      ∃ reissue retries answer, w.phase = .poll reissue targets retries answer := by
  cases ha.goes with
  | finish => simp [World.finish, Draining] at hd'
  | flush => simp [World.sendFlush, Draining] at hd'
  | stats => simp [Draining] at hd'
  | poll =>
    obtain ⟨_, _, _, h⟩ | ⟨_, h⟩ := hd' <;> cases h
    exact .inl ⟨_, _, _, rfl, fun b hb => absurd hb not_mem_nil⟩
  | compact _ hpoll =>
    obtain ⟨_, _, _, h⟩ | ⟨_, h⟩ := hd' <;> cases h
    exact .inr ⟨⟨_, rfl⟩, hpoll⟩

/-- **A call whose requests are answered, whose stats succeed and whose targets are compacted
returns**, however many SSTables are created meanwhile. -/
theorem Converging.returns (h : Converging t) : ∃ n, Returned (t.state n) := by
  by_contra hnever
  simp only [not_exists] at hnever
  obtain ⟨N, targets, hdr⟩ := h.exists_draining hnever
  have hans : ∀ n, N ≤ n → ∃ m, n ≤ m ∧ ∃ response, t.action m = .respond response :=
    fun n hn => h.answered n (hdr n hn).1 (hnever n)
  -- the targets are drained, and stay so
  obtain ⟨N₁, hN₁, hcomp⟩ := h.compacted N targets (hdr N le_rfl).2
  have hclear : ∀ n, N₁ ≤ n → Clear (t.state n).server targets := by
    refine fun n hn => t.persists (I := fun w => Clear w.server targets)
      (fun _ _ _ hs hc => hc.step hs) (fun id k hk => ⟨?_, hcomp id k hk⟩) hn
    exact (h.bounded N₁).targets targets (hdr N₁ hN₁).2 id k hk
  obtain ⟨N₂, hstats⟩ := h.stats
  set M := max N₁ N₂ with hM
  have hN₁M : N₁ ≤ M := le_max_left _ _
  have hN₂M : N₂ ≤ M := le_max_right _ _
  have hnext : ∀ {n response}, t.action n = .respond response →
      Answers (t.state n) response (t.state (n + 1)) := fun {n response} hresp => by
    have hnext := t.next n
    rw [hresp] at hnext
    exact respond_answers hnext
  -- a poll that starts after that
  have hcln : ∃ n, M ≤ n ∧ Clean (t.state n) targets := by
    obtain ⟨m, hm, response, hresp⟩ := hans M (by omega)
    rcases (hnext hresp).next_poll (hdr (m + 1) (by omega)).2 with hc | ⟨hcpt, -⟩
    · exact ⟨m + 1, by omega, hc⟩
    · obtain ⟨m', hm', ⟨response, hresp⟩, hcpt⟩ := t.exists_first
        (P := fun a => ∃ response, a = .respond response)
        (I := fun k => ∃ reissue, (t.state k).phase = .compact reissue targets)
        (hans (m + 1) (by omega)) hcpt fun k hk hnot ⟨reissue, hph⟩ =>
          ⟨reissue, (quiet_of_not_idle (hdr k (by omega)).1
            fun response hr => hnot ⟨response, hr⟩).compact reissue targets hph⟩
      rcases (hnext hresp).next_poll (hdr (m' + 1) (by omega)).2
        with hc | ⟨-, _, _, _, hpoll⟩
      · exact ⟨m' + 1, by omega, hc⟩
      · obtain ⟨reissue, hph⟩ := hcpt
        rw [hph] at hpoll
        cases hpoll
  obtain ⟨n, hn, hc⟩ := hcln
  obtain ⟨m, hm, ⟨response, hresp⟩, hc⟩ := t.exists_first
    (P := fun a => ∃ response, a = .respond response) (I := fun k => Clean (t.state k) targets)
    (hans n (by omega)) hc fun k hk hnot hI =>
      hI.step (hclear k (by omega)) (t.next k) fun response hr => hnot ⟨response, hr⟩
  refine hnever (m + 1) (hc.returned (hnext hresp) fun e he => ?_)
  obtain ⟨_, _, _, hph, -⟩ := hc
  rcases hstats m (by omega) e (he ▸ hresp) with ⟨_, _, hfl⟩ | ⟨_, _, hcpt⟩
  · rw [hph] at hfl
    cases hfl
  · rw [hph] at hcpt
    cases hcpt

omit [DecidableEq R] in
theorem Budget.flushes_le (h : Budget w) : w.flushes ≤ (maxReissues + 1) * (maxRetries + 1) := by
  rcases hph : w.phase with _ | _ | _ | _ | _ | _ <;>
    simp only [Budget, hph, maxReissues, maxRetries] at h ⊢ <;> omega

/-- **A checkpoint converges what was written before it.**  In every run, with any writers and
compactors and any failures: a checkpoint that returned without an error has every row in the base
table that was acknowledged before it started; and it asks for a flush at most
`(MAX_REISSUES + 1) * (MAX_RETRIES + 1)` times.  In every trace in which its requests are answered,
stats requests succeed from some point on and the generations of its targets are compacted, it
returns. -/
theorem checkpoint_converges :
    (∀ w : World R, Reaches Checkpoint.step World.initial w →
      (w.phase = .returned (.ok ()) → ∀ r ∈ w.owed, r ∈ w.server.base) ∧
        w.flushes ≤ (maxReissues + 1) * (maxRetries + 1)) ∧
      ∀ t : Trace (Checkpoint.step (R := R)), Converging t → ∃ n, Returned (t.state n) := by
  refine ⟨fun w hreach => ⟨fun hph r hr => ?_, ?_⟩, fun t h => h.returns⟩
  · have hrows := hreach.invariant rowsInv_initial fun _ _ _ hs h => h.step hs
    have howes := hrows.owes r hr
    rwa [Owes, hph] at howes
  · have hbud : Budget w := hreach.invariant rfl fun _ _ _ hs h => h.step hs
    exact hbud.flushes_le

end Progress

/-! ### A checkpoint -/

/-- A row is written, a checkpoint moves it to the base table, and rows are written ever after. -/
def demoAction (n : ℕ) : Action ℕ :=
  [.addShard "s", .write "s" 7, .start, .freeze "s" [⟨1, [7]⟩], .respond .ok, .read "s" false,
    .respond .ok, .merge "s" ⟨1, [7]⟩, .remove "s" ⟨1, [7]⟩, .read "s" false, .respond .ok].getD n
    (.write "s" 0)

/-- Where these actions lead. -/
def demoState : ℕ → World ℕ
  | 0 => .initial
  | n + 1 => (step (demoState n) (demoAction n)).getD (demoState n)

theorem demoState_of_le (hn : 11 ≤ n) :
    (demoState n).phase = .returned (.ok ()) ∧ "s" ∈ (demoState n).server.ids := by
  induction n, hn using Nat.le_induction with
  | base => exact ⟨rfl, by decide⟩
  | succ n hn ih =>
    have hact : demoAction n = .write "s" 0 := getD_eq_default _ _ hn
    rw [demoState, hact, step, if_pos ih.2]
    exact ih

theorem demoState_empty (id : String) : ((demoState 10).server.shard id).sstables = [] := by
  by_cases heq : id = "s"
  · subst heq
    rfl
  · let untouched : String → Shard ℕ := fun _ => ⟨[], [], 0⟩
    change (Function.update (Function.update (Function.update untouched "s" _) "s" _) "s"
      _ id).sstables = []
    rw [Function.update_of_ne heq, Function.update_of_ne heq, Function.update_of_ne heq]

def demoTrace : Trace (step (R := ℕ)) where
  state := demoState
  action := demoAction
  next n := by
    rcases Nat.lt_or_ge n 11 with hlt | hle
    · interval_cases n <;> rfl
    · have hact : demoAction n = .write "s" 0 := getD_eq_default _ _ hle
      rw [demoState, hact, step, if_pos (demoState_of_le hle).2]
      rfl

theorem converging_demoTrace : Converging demoTrace where
  initial := rfl
  started := ⟨3, fun h => by cases (h : Phase.flush 0 0 = .idle)⟩
  answered n _ hnot := by
    rcases Nat.lt_or_ge n 11 with hlt | hle
    · exact ⟨10, by omega, .ok, rfl⟩
    · exact absurd ⟨_, (demoState_of_le hle).1⟩ hnot
  stats := ⟨11, fun n hn e he => by
    have hact : demoAction n = .write "s" 0 := getD_eq_default _ _ hn
    rw [show demoTrace.action n = demoAction n from rfl, hact] at he
    cases he⟩
  compacted n targets hd := by
    rcases Nat.lt_or_ge n 11 with hlt | hle
    · refine ⟨10, by omega, fun id k _ table htb => ?_⟩
      rw [show demoTrace.state 10 = demoState 10 from rfl, demoState_empty] at htb
      cases htb
    · have hph : (demoTrace.state n).phase = _ := (demoState_of_le hle).1
      simp [Draining, hph] at hd

theorem checkpoint_demo :
    Reaches step World.initial (demoState 11) ∧ (demoState 11).owed = [7] ∧
      7 ∈ (demoState 11).server.base ∧ ∃ n, Returned (demoTrace.state n) := by
  have hrun : ((List.range 11).map demoAction).foldlM step World.initial =
      some (demoState 11) := rfl
  have hreach := Reaches.of_foldlM hrun
  exact ⟨hreach, rfl, (checkpoint_converges.1 _ hreach).1 rfl 7 (by decide),
    checkpoint_converges.2 demoTrace converging_demoTrace⟩


end LanceDB.Checkpoint
