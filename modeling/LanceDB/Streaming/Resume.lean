import LanceDB.Streaming.RowsRefinement

/-!
# Checkpoint and resume in row mode

A checkpoint is the counters of a dataset; a fresh dataset that loads it goes on where the old one
stopped.  Since the generator is a memoryless server (`LanceDB.Streaming.RowsRefinement`) and the
counters record the server's state, saving and loading them anywhere cuts a run of the server, and
a run can be cut anywhere.

* `loadStateDict_snapshot` — what survives a checkpoint.
* `Dataset.iterate`, `Dataset.resumed` : an uninterrupted iteration, and one with checkpoints.
* `Dataset.resumed_eq_iterate` — they yield the same rows.
-/

namespace LanceDB

open List RoundRobin

namespace Streaming

open RoundRobin (State)

variable {α β ε : Type}

/-! ### What survives a checkpoint -/

/-- The state dict with an entry for every split. -/
def StateDict.ofCounts (cfg : Config) (counts positions : ℕ → ℕ) : StateDict where
  shuffleSeed := cfg.shuffleSeed
  numSplits := cfg.numSplits
  epoch := cfg.epoch
  samplesConsumedPerSplit := .perSplit ((List.range cfg.numSplits).map counts)
  positionsConsumedPerSplit := some ((List.range cfg.numSplits).map positions)

/-- **Loading a checkpoint** with an entry for every split restores the entries, and no split is
behind the offset. -/
theorem loadStateDict_ofCounts {cfg cfg' : Config} (hspls : cfg'.numSplits = cfg.numSplits)
    (hseed : cfg'.shuffleSeed = cfg.shuffleSeed) (counts positions : ℕ → ℕ) :
    ∃ st, loadStateDict cfg (.ofCounts cfg' counts positions) = .ok st ∧
      (∀ split < cfg.numSplits, st.sampleCount split = counts split) ∧
      (∀ split < cfg.numSplits, st.startPos split = positions split) ∧
      st.OffsetLeast ∧ st.requiresUniform = false := by
  set cs := (List.range cfg.numSplits).map counts with hcs
  set ps := (List.range cfg.numSplits).map positions with hps
  refine ⟨⟨cs.min?.getD 0, (cs[·]?), fun split => (some ps).bind (·[split]?), false⟩, ?_,
    fun split hspl => ?_, fun split hspl => ?_, fun split => ?_, rfl⟩
  · simp [loadStateDict, StateDict.ofCounts, hspls, hseed, ← hcs, ← hps]
  · simp [RowState.sampleCount, hcs, hspl]
  · simp [RowState.startPos, hps, hspl]
  · show cs.min?.getD 0 ≤ (cs[split]?).getD (cs.min?.getD 0)
    cases hent : cs[split]? with
    | none => simp
    | some c =>
      have hmem : c ∈ cs := mem_of_getElem? hent
      cases hmin : cs.min? with
      | none => simp
      | some m => exact (min?_eq_some_iff.1 hmin).2 c hmem

/-- **A checkpoint round trip** keeps the counters of every split. -/
theorem loadStateDict_snapshot (cfg : Config) (st : RowState) :
    ∃ st', loadStateDict cfg (st.checkpointSnapshot cfg) = .ok st' ∧
      (∀ split < cfg.numSplits, st'.sampleCount split = st.sampleCount split) ∧
      (∀ split < cfg.numSplits, st'.startPos split = st.startPos split) ∧
      st'.OffsetLeast ∧ st'.requiresUniform = false :=
  loadStateDict_ofCounts rfl rfl st.sampleCount st.startPos

theorem RowState.fresh_offsetLeast : RowState.fresh.OffsetLeast := fun _ => Nat.zero_le _

/-! ### Iterating a dataset -/

/-- A dataset and the place its iterator runs in. -/
structure Dataset (α β ε : Type) where
  tbl : SplitTable α β ε
  cfg : Config
  worker : Option WorkerInfo
  /-- The iterator runs in a loader worker process. -/
  realWorker : Bool

/-- What can end an iteration early. -/
inductive RunError (ε : Type)
  | open (e : OpenError)
  | failure (e : Failure ε)
  | state (e : StateError)
  deriving DecidableEq

namespace Dataset

variable (ds : Dataset α β ε)

/-- A fresh iterator on the counters `st` is asked for at most `k` rows: what it yields, whether
it has ended, and the counters after it. -/
def iterate (st : RowState) (schedule : ℕ → List Completion) (k : ℕ) :
    Except (RunError ε) (List β × Bool × RowState) :=
  match Reader.open ds.tbl ds.cfg ds.worker ds.realWorker schedule st with
  | .error e => .error (.open e)
  | .ok (rd, it) =>
    match rd.take k it with
    | .error e _ => .error (.failure e)
    | .ok (rows, ended) it => .ok (rows, ended, it.st)

/-- `state_dict` of a dataset, loaded into a fresh one of the same configuration. -/
def reload (st : RowState) : Except (RunError ε) RowState :=
  match st.stateDict ds.cfg with
  | .error e => .error (.state e)
  | .ok state =>
    match loadStateDict ds.cfg state with
    | .error e => .error (.state e)
    | .ok st => .ok st

/-- Iterations one after the other, each in a fresh dataset that has loaded the checkpoint of the
one before: the rows they yield, and whether one of them has ended. -/
def resumed : List ((ℕ → List Completion) × ℕ) → RowState → Except (RunError ε) (List β × Bool)
  | [], _ => .ok ([], false)
  | (schedule, k) :: segments, st => do
    let (rows, ended, st) ← ds.iterate st schedule k
    let st ← ds.reload st
    let (rows', ended') ← resumed segments st
    return (rows ++ rows', ended || ended')

/-- The counters of the splits `mySplits` record a server state. -/
def Tracks (mySplits : List ℕ) (st : RowState) (s : State (ℕ × β)) : Prop :=
  ds.tbl.Tracks mySplits.length (mySplits.getD · 0) st s

/-- The server state that a set of counters records. -/
def server (mySplits : List ℕ) (st : RowState) : State (ℕ × β) where
  count i := st.sampleCount (mySplits.getD i 0)
  rest i := ds.tbl.accepted (mySplits.getD i 0) (st.startPos (mySplits.getD i 0))

variable {ds}

theorem fresh_tracks (mySplits : List ℕ) : ds.Tracks mySplits .fresh (ds.server mySplits .fresh) :=
  ⟨fun _ _ => rfl, fun _ _ => rfl, fun _ _ => Nat.zero_le _⟩

section Run

variable {mySplits : List ℕ} (hassign : ds.cfg.resolveMySplits ds.worker = .ok mySplits)
  (hfine : ds.tbl.Unfailing)
variable {st : RowState} {s : State (ℕ × β)}
include hassign hfine

/-- An iteration is a run of the server. -/
theorem iterate_eq (hlst : st.OffsetLeast) (htrk : ds.Tracks mySplits st s)
    (schedule : ℕ → List Completion) (k : ℕ) :
    ∃ st', ds.iterate st schedule k =
        .ok ((run mySplits.length k s).1.map (·.2.2),
          decide ((run mySplits.length k s).1.length < k), st') ∧
      ds.Tracks mySplits st' (run mySplits.length k s).2 ∧
      st'.requiresUniform = st.requiresUniform ∧
      (∀ i < mySplits.length,
        st'.resumeOffset ≤ (run mySplits.length k s).2.count i) ∧
      ∀ split ∉ mySplits, st'.resumeSamples split = st.resumeSamples split ∧
        st'.resumePositions split = st.resumePositions split := by
  obtain ⟨hunf, hsim⟩ := Reader.start_sim hfine ds.realWorker schedule hlst htrk
  obtain ⟨it, hit, hsim'⟩ := Reader.take_sim hunf
    (increasing_of_sorted (Config.resolveMySplits_sorted _ hassign).1) k hsim
  refine ⟨it.st, ?_, hsim'.tracks, hsim'.frame.uniform, hsim'.offset_le, fun split hfo =>
    ⟨hsim'.frame.samples split (split_ne hfo),
      hsim'.frame.positions split (split_ne hfo)⟩⟩
  simp only [iterate, Reader.open_eq hassign ds.realWorker schedule htrk, hit]
  rfl

omit hfine in
theorem reload_eq (htrk : ds.Tracks mySplits st s) (hunif : st.requiresUniform = false) :
    ∃ st', ds.reload st = .ok st' ∧ ds.Tracks mySplits st' s ∧ st'.OffsetLeast ∧
      st'.requiresUniform = false := by
  obtain ⟨st', hl, hcnt, hpos, hlst, hunif'⟩ := loadStateDict_snapshot ds.cfg st
  have hlt : ∀ i < mySplits.length, mySplits.getD i 0 < ds.cfg.numSplits := fun i hi => by
    rw [getD_eq_getElem _ _ hi]
    exact (ds.cfg.resolveMySplits_sorted hassign).2 _ (getElem_mem hi)
  refine ⟨st', ?_, htrk.congr (fun i hi => hcnt _ (hlt i hi)) (fun i hi => hpos _ (hlt i hi)),
    hlst, hunif'⟩
  simp [reload, RowState.stateDict, hunif, hl]

/-- Iterations with checkpoints in between are a run of the server. -/
theorem resumed_eq {segments : List ((ℕ → List Completion) × ℕ)} (hlst : st.OffsetLeast)
    (hunif : st.requiresUniform = false) (htrk : ds.Tracks mySplits st s) :
    let out := (run mySplits.length (segments.map (·.2)).sum s).1
    ds.resumed segments st =
      .ok (out.map (·.2.2), decide (out.length < (segments.map (·.2)).sum)) := by
  induction segments generalizing st s with
  | nil => simp [resumed]
  | cons segment segments ih =>
    obtain ⟨schedule, k⟩ := segment
    obtain ⟨st₁, hiter, htrk₁, hunif₁, -, -⟩ :=
      iterate_eq hassign hfine hlst htrk schedule k
    obtain ⟨st₂, hreload, htrk₂, hlst₂, hunif₂⟩ :=
      reload_eq hassign htrk₁ (hunif₁.trans hunif)
    have hr := ih hlst₂ hunif₂ htrk₂
    have hle := length_run_le mySplits.length k s
    have hle' := length_run_le mySplits.length (segments.map (·.2)).sum
      (run mySplits.length k s).2
    simp only [resumed, hiter, hreload, hr, map_cons, sum_cons,
      run_add, bind, Except.bind, pure, Except.pure, map_append,
      length_append]
    rw [← Bool.decide_or]
    congr 3
    rw [eq_iff_iff]
    omega

omit hassign hfine in
theorem size_server_le (mySplits : List ℕ) (st : RowState) :
    (ds.server mySplits st).size mySplits.length ≤
      (mySplits.map fun split => (ds.tbl.rows split).length).sum := by
  have hsum : (mySplits.map fun split => (ds.tbl.rows split).length).sum =
      ∑ i ∈ Finset.range mySplits.length, (ds.tbl.rows (mySplits.getD i 0)).length := by
    rw [Finset.sum_range, ← sum_ofFn,
      ← ofFn_getElem_eq_map mySplits fun split => (ds.tbl.rows split).length]
    simp
  rw [hsum]
  refine Finset.sum_le_sum fun i _ => ?_
  refine (ds.tbl.finalTransform.length_goods_le _ _).trans ?_
  simp

/-- **Checkpoints are invisible.**  Take any number of checkpoints, each after any number of rows
and loaded into a fresh dataset, under any schedules: the rows yielded are those of an iteration
without a checkpoint, which ends where it ends. -/
theorem resumed_eq_iterate (segments : List ((ℕ → List Completion) × ℕ))
    (schedule : ℕ → List Completion) :
    ∃ rows ended st, ds.iterate .fresh schedule (segments.map (·.2)).sum = .ok (rows, ended, st) ∧
      ds.resumed segments .fresh = .ok (rows, ended) ∧
      ((mySplits.map fun split => (ds.tbl.rows split).length).sum < (segments.map (·.2)).sum →
        ended = true) := by
  have htrk : ds.Tracks mySplits .fresh (ds.server mySplits .fresh) := fresh_tracks mySplits
  obtain ⟨st, hiter, -, -, -, -⟩ := iterate_eq hassign hfine RowState.fresh_offsetLeast htrk
    schedule (segments.map (·.2)).sum
  refine ⟨_, _, st, hiter,
    resumed_eq hassign hfine RowState.fresh_offsetLeast rfl htrk, fun hlt => ?_⟩
  rw [decide_eq_true_eq]
  exact ((length_run_le_size _).trans (size_server_le mySplits .fresh)).trans_lt hlt

end Run

/-- Two splits of four and three rows; the transform rejects the row `2`. -/
def demo : Dataset ℕ ℕ Unit where
  tbl :=
    { rows := fun split => if split = 0 then [1, 2, 3, 4] else [5, 6, 7]
      finalTransform := .ofRow (fun a => if a = 2 then none else some a) ()
      onTransformError := .skip
      readError := fun _ _ => none
      limits := tightLimits }
  cfg := demoConfig
  worker := none
  realWorker := false

theorem resumed_demo : ∃ st,
    demo.iterate .fresh (fun _ => []) 12 = .ok ([1, 5, 3, 6, 4, 7], true, st) ∧
      demo.resumed [(fun _ => [], 3), (fun _ => [], 9)] .fresh =
        .ok ([1, 5, 3, 6, 4, 7], true) := by
  have hassign : demo.cfg.resolveMySplits demo.worker = .ok [0, 1] := rfl
  obtain ⟨rows, ended, st, hiter, hresumed, -⟩ := resumed_eq_iterate hassign
    ⟨fun _ _ => rfl, fun _ _ _ => rfl⟩ [(fun _ => [], 3), (fun _ => [], 9)] (fun _ => [])
  have hrun : demo.resumed [(fun _ => [], 3), (fun _ => [], 9)] .fresh =
      .ok ([1, 5, 3, 6, 4, 7], true) := by decide +kernel
  obtain ⟨rfl, rfl⟩ : [1, 5, 3, 6, 4, 7] = rows ∧ true = ended := by
    simpa using hrun.symm.trans hresumed
  exact ⟨st, hiter, hresumed⟩

end Dataset

end Streaming

end LanceDB
