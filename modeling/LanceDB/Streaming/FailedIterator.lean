import LanceDB.Streaming.Commit

/-!
# The checkpoint of a generator that raises

A read or a transform may fail at any pump, behind rows that were fetched, transformed or taken
from a queue but never yielded.  The counters are written behind the last pump of a call.

* `Reader.take_failed`, `PackReader.take_failed` — the call that raises ends a run of calls that
  all yielded.
* `failed_iterator_exact` — the state is that after the rows or blocks yielded.
-/

namespace LanceDB

namespace Streaming

variable {α β ε : Type}

theorem Reader.take_failed {rd : Reader α β ε} {m : ℕ} {it it' : Iter α β} {e : Failure ε}
    (h : rd.take m it = .error e it') :
    ∃ rows it₁, rd.take rows.length it = .ok (rows, false) it₁ ∧ rd.next it₁ = .error e it' := by
  induction m generalizing it with
  | zero => cases h
  | succ m ih =>
    rw [take] at h
    split at h
    · rename_i hn
      obtain ⟨rfl, rfl⟩ := EStateM.Result.error.inj h
      exact ⟨[], it, rfl, hn⟩
    · cases h
    · rename_i row it₁ hn
      split at h
      · rename_i hr
        obtain ⟨rfl, rfl⟩ := EStateM.Result.error.inj h
        obtain ⟨rows, it₂, ht, hfail⟩ := ih hr
        exact ⟨row :: rows, it₂, by simp [take, hn, ht], hfail⟩
      · cases h

theorem PackReader.take_failed {rd : PackReader α ε} {m : ℕ} {it it' : PackIter α}
    {e : PackFailure ε} (h : rd.take m it = .error e it') :
    ∃ blocks it₁, rd.take blocks.length it = .ok blocks it₁ ∧ rd.next it₁ = .error e it' := by
  induction m generalizing it with
  | zero => cases h
  | succ m ih =>
    rw [take] at h
    split at h
    · rename_i hn
      obtain ⟨rfl, rfl⟩ := EStateM.Result.error.inj h
      exact ⟨[], it, rfl, hn⟩
    · cases h
    · rename_i block it₁ hn
      split at h
      · rename_i hr
        obtain ⟨rfl, rfl⟩ := EStateM.Result.error.inj h
        obtain ⟨blocks, it₂, ht, hfail⟩ := ih hr
        exact ⟨block :: blocks, it₂, by simp [take, hn, ht], hfail⟩
      · cases h

/-- **A generator that raises leaves an exact checkpoint.**  Whatever the reads, the transform,
its error policy and the schedule: when a call raises, the state of the dataset is the one after
the rows (or blocks) yielded before, of each owned split as many as it has yielded, and every one
of them is counted. -/
theorem failed_iterator_exact (tbl : SplitTable α β ε) (docs : SplitTable α (List ℤ) ε) :
    (∀ (cfg : Config) (worker : Option WorkerInfo) (realWorker : Bool)
      (schedule : ℕ → List Completion) (st : RowState) (rd : Reader α β ε) (it it' : Iter α β)
      (m : ℕ) (e : Failure ε), st.Reachable tbl →
      Reader.open tbl cfg worker realWorker schedule st = .ok (rd, it) →
      rd.take m it = .error e it' →
      ∃ rows it₁, rd.take rows.length it = .ok (rows, false) it₁ ∧ it'.st = it₁.st ∧
        it'.st.stateDict cfg = it₁.st.stateDict cfg ∧
        ∃ consumed pos, rd.Counters st consumed pos it'.st ∧
          ∑ i ∈ Finset.range rd.src.n, consumed i = rows.length) ∧
    ∀ (cfg : PackConfig) (worker : Option WorkerInfo) (schedule : ℕ → List Completion)
      (st : PackState) (rd : PackReader α ε) (it it' : PackIter α) (m : ℕ) (e : PackFailure ε),
      PackReader.open docs cfg worker schedule st = .ok (rd, it) → rd.take m it = .error e it' →
      ∃ blocks it₁, rd.take blocks.length it = .ok blocks it₁ ∧ it'.st = it₁.st ∧
        it'.st.stateDict cfg = it₁.st.stateDict cfg ∧
        ∑ i ∈ Finset.range rd.src.n, it'.st.emitted (rd.split i) =
          ∑ i ∈ Finset.range rd.src.n, st.emitted (rd.split i) + blocks.length := by
  refine ⟨fun cfg worker realWorker schedule st rd it it' m e hreach hopen hrun => ?_,
    fun cfg worker schedule st rd it it' m e hopen hrun => ?_⟩
  · obtain ⟨mySplits, hasg, rfl, rfl⟩ := Reader.make_of_open hopen
    have hsort := increasing_of_sorted (cfg.resolveMySplits_sorted hasg).1
    obtain ⟨hadv, hph⟩ := Reader.start_progress tbl mySplits realWorker schedule hreach.sound
    obtain ⟨rows, it₁, ht, hfail⟩ := Reader.take_failed hrun
    obtain ⟨hcntd, hph₁⟩ := Reader.take_progress hsort _ ⟨hadv, rfl⟩ hph ht
    have hst := (Reader.next_progress hsort hcntd hph₁).2 e it' hfail
    obtain ⟨⟨pos, -, hctrs, -⟩, hsum⟩ := hcntd
    refine ⟨rows, it₁, ht, hst, by rw [hst], it₁.localConsumed, pos, hst ▸ hctrs, ?_⟩
    rw [hsum]
    simp [Reader.start]
  · obtain ⟨mySplits, hasg, rfl, rfl⟩ : ∃ mySplits, cfg.resolveMySplits worker = .ok mySplits ∧
        PackReader.make docs cfg mySplits schedule st = rd ∧
        (PackReader.make docs cfg mySplits schedule st).start st = it := by
      unfold PackReader.open at hopen
      grind
    have hsort := increasing_of_sorted (cfg.resolveMySplits_sorted hasg).1
    obtain ⟨hadv, hsus⟩ := PackReader.start_progress docs cfg mySplits schedule st
    obtain ⟨blocks, it₁, ht, hfail⟩ := PackReader.take_failed hrun
    obtain ⟨hcntd, hsus₁⟩ := PackReader.take_progress hsort _ ⟨hadv, rfl⟩ hsus ht
    have hst := (PackReader.next_progress hsort hcntd hsus₁).2 e it' hfail
    refine ⟨blocks, it₁, ht, hst, by rw [hst], ?_⟩
    rw [hst, hsus₁.1, hcntd.2]
    rfl

/-- Four rows, of which the last two cannot be read. -/
def brokenTable {β : Type} (row : ℕ → β) : SplitTable ℕ β Unit where
  rows _ := [0, 1, 2, 3]
  finalTransform := .ofRow (some ∘ row) ()
  onTransformError := .raise
  readError _ absStart := if absStart = 2 then some () else none
  limits := demoLimits

/-- One split, in blocks of two tokens. -/
def brokenConfig : PackConfig :=
  ⟨⟨1, 1, 0, 7, 0, by decide, Nat.one_pos⟩, 2, 9, 0, 3, Nat.two_pos, Nat.succ_pos _, by decide⟩

/-- The generator over the rows. -/
def brokenReader : Reader ℕ ℕ Unit :=
  .make (brokenTable id) [0] false (fun _ => []) .fresh

/-- The generator over the rows as documents of one token. -/
def brokenPacker : PackReader ℕ Unit :=
  .make (brokenTable fun i => [(i : ℤ)]) brokenConfig [0] (fun _ => []) .fresh

theorem failed_iterator_demo :
    (∃ e it' rows it₁, brokenReader.take 4 (brokenReader.start .fresh) = .error e it' ∧
      brokenReader.take rows.length (brokenReader.start .fresh) = .ok (rows, false) it₁ ∧
      it'.st = it₁.st) ∧
    ∃ e it' blocks it₁, brokenPacker.take 3 (brokenPacker.start .fresh) = .error e it' ∧
      brokenPacker.take blocks.length (brokenPacker.start .fresh) = .ok blocks it₁ ∧
      it'.st = it₁.st := by
  obtain ⟨hrow, hpack⟩ := failed_iterator_exact (brokenTable id) (brokenTable fun i => [(i : ℤ)])
  obtain ⟨e, it', hfail⟩ :
      ∃ e it', brokenReader.take 4 (brokenReader.start .fresh) = .error e it' :=
    EStateM.Result.error_of_value? (by decide +kernel)
  obtain ⟨e', it'', hfail'⟩ :
      ∃ e it', brokenPacker.take 3 (brokenPacker.start .fresh) = .error e it' :=
    EStateM.Result.error_of_value? (by decide +kernel)
  obtain ⟨rows, it₁, ht, hst, -⟩ := hrow brokenConfig.toConfig none false (fun _ => []) .fresh
    _ _ it' 4 e .fresh rfl hfail
  obtain ⟨blocks, it₂, ht', hst', -⟩ := hpack brokenConfig none (fun _ => []) .fresh
    _ _ it'' 3 e' rfl hfail'
  exact ⟨⟨e, it', rows, it₁, hfail, ht, hst⟩, e', it'', blocks, it₂, hfail', ht', hst'⟩

end Streaming

end LanceDB
