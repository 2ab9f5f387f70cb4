import LanceDB.Streaming.Merge

/-!
# Changing the topology of a run

A run is stopped after some full steps, the states of its ranks are merged, and it goes on with
another number of ranks and workers.  Since the blocks of ranks and workers partition the splits
and a split yields its rows in order whoever reads it, the samples of every step are the same as
in a run on one process.

* `Topology` : a world size and a number of workers whose product divides the number of splits.
* `Topology.flatMap_mySplits` — the blocks of all workers are the splits, in order.
* `Topology.states` : the states of a topology after full steps, to be merged.
* `Topology.elastic` — the samples of every step across a change of topology.
-/

namespace LanceDB

open List RoundRobin

namespace Streaming

open RoundRobin (State)

variable {α β ε : Type}
variable {m : ℕ}
variable {split : ℕ}

/-! ### Topologies -/

/-- A number of ranks and of workers for each of them. -/
structure Topology (numSplits : ℕ) where
  worldSize : ℕ
  numWorkers : ℕ
  /-- The workers are processes of a loader that commits to the dataset of the rank.  Otherwise
  every iterator has a dataset of its own: it runs in the process of the rank, or stands for a
  worker by `worker_info_override`. -/
  loader : Bool
  worldSize_pos : 0 < worldSize
  numWorkers_pos : 0 < numWorkers
  dvd : worldSize * numWorkers ∣ numSplits

namespace Topology

variable {numSplits : ℕ} (t : Topology numSplits) (shuffleSeed : ℤ) (epoch : ℕ)
variable {r : Fin t.worldSize}

/-- The configuration of a rank. -/
def config (r : Fin t.worldSize) : Config where
  numSplits := numSplits
  worldSize := t.worldSize
  rank := r
  shuffleSeed := shuffleSeed
  epoch := epoch
  worldSize_dvd := (Dvd.intro _ rfl).trans t.dvd
  rank_lt := r.2

/-- The worker information of an iterator. -/
def workerInfo (w : Fin t.numWorkers) : Option WorkerInfo :=
  if t.loader ∨ 1 < t.numWorkers then some ⟨w, t.numWorkers⟩ else none

/-- The splits of each iterator. -/
def splitsPerWorker : ℕ := numSplits / (t.worldSize * t.numWorkers)

/-- The block of splits of an iterator. -/
def mySplits (r : Fin t.worldSize) (w : Fin t.numWorkers) : List ℕ :=
  List.range' ((r * t.numWorkers + w) * t.splitsPerWorker) t.splitsPerWorker

theorem length_mySplits (r : Fin t.worldSize) (w : Fin t.numWorkers) :
    (t.mySplits r w).length = t.splitsPerWorker := by
  simp [mySplits]

theorem splitsPerWorker_mul : t.worldSize * t.numWorkers * t.splitsPerWorker = numSplits :=
  Nat.mul_div_cancel' t.dvd

theorem splitsPerRank_eq (r : Fin t.worldSize) :
    (t.config shuffleSeed epoch r).splitsPerRank = t.numWorkers * t.splitsPerWorker := by
  refine Nat.div_eq_of_eq_mul_right t.worldSize_pos ?_
  rw [← Nat.mul_assoc]
  exact t.splitsPerWorker_mul.symm

/-- **The assignment of the source** gives every iterator its block. -/
theorem resolveMySplits_eq (r : Fin t.worldSize) (w : Fin t.numWorkers) :
    (t.config shuffleSeed epoch r).resolveMySplits (t.workerInfo w) = .ok (t.mySplits r w) := by
  have hrank := t.splitsPerRank_eq shuffleSeed epoch r
  have hdiv : t.numWorkers * t.splitsPerWorker / t.numWorkers = t.splitsPerWorker :=
    Nat.mul_div_cancel_left _ t.numWorkers_pos
  have hs : (t.config shuffleSeed epoch r).rank * (t.numWorkers * t.splitsPerWorker) +
      w * t.splitsPerWorker = (r * t.numWorkers + w) * t.splitsPerWorker := by
    rw [Nat.add_mul, Nat.mul_assoc]
    rfl
  by_cases hinfo : t.loader ∨ 1 < t.numWorkers
  · rw [workerInfo, if_pos hinfo, Config.resolveMySplits_worker _ (hrank ▸ Dvd.intro _ rfl) w.2,
      hrank, hdiv, hs]
    rfl
  · have hone : t.numWorkers = 1 := by
      have := t.numWorkers_pos
      have := (not_or.1 hinfo).2
      omega
    have hw : (w : ℕ) = 0 := by omega
    rw [workerInfo, if_neg hinfo, Config.resolveMySplits, Config.rankSplits, hrank, mySplits,
      ← hs, hw, hone, Nat.one_mul, Nat.zero_mul, Nat.add_zero]

theorem flatMap_finRange {k : ℕ} (g : ℕ → List ℕ) :
    (List.finRange k).flatMap (fun i : Fin k => g i) = (List.range k).flatMap g := by
  rw [← map_coe_finRange_eq_range, flatMap_map]

theorem flatMap_mySplits_rank (r : Fin t.worldSize) :
    (List.finRange t.numWorkers).flatMap (t.mySplits r) =
      (t.config shuffleSeed epoch r).rankSplits := by
  refine (flatMap_finRange fun w =>
    List.range' ((r * t.numWorkers + w) * t.splitsPerWorker) t.splitsPerWorker).trans ?_
  rw [Config.rankSplits, splitsPerRank_eq, ← flatMap_blocks]
  refine flatMap_congr fun w _ => ?_
  rw [Nat.add_mul, Nat.mul_assoc]
  rfl

/-- **The blocks of all workers partition the splits.** -/
theorem flatMap_mySplits :
    (List.finRange t.worldSize).flatMap (fun r =>
      (List.finRange t.numWorkers).flatMap (t.mySplits r)) = List.range numSplits := by
  simp only [t.flatMap_mySplits_rank 0 0, Config.rankSplits, splitsPerRank_eq]
  refine (flatMap_finRange fun r => List.range' (r * (t.numWorkers * t.splitsPerWorker))
    (t.numWorkers * t.splitsPerWorker)).trans ?_
  have hblks := flatMap_blocks 0 (t.numWorkers * t.splitsPerWorker) t.worldSize
  simp only [Nat.zero_add] at hblks
  rw [hblks, ← Nat.mul_assoc, t.splitsPerWorker_mul, range_eq_range']

theorem mySplits_lt {w : Fin t.numWorkers} (h : split ∈ t.mySplits r w) : split < numSplits := by
  rw [← mem_range, ← t.flatMap_mySplits]
  exact mem_flatMap.2 ⟨r, mem_finRange r,
    mem_flatMap.2 ⟨w, mem_finRange w, h⟩⟩

variable {shuffleSeed epoch} in
theorem mem_rankSplits :
    split ∈ (t.config shuffleSeed epoch r).rankSplits ↔ ∃ w, split ∈ t.mySplits r w := by
  simp [← t.flatMap_mySplits_rank shuffleSeed epoch r]

theorem exists_owner (h : split < numSplits) : ∃ r w, split ∈ t.mySplits r w := by
  rw [← mem_range, ← t.flatMap_mySplits] at h
  obtain ⟨r, -, hr⟩ := mem_flatMap.1 h
  obtain ⟨w, -, hw⟩ := mem_flatMap.1 hr
  exact ⟨r, w, hw⟩

theorem owner_unique {r' : Fin t.worldSize} {w w' : Fin t.numWorkers} (h : split ∈ t.mySplits r w)
    (h' : split ∈ t.mySplits r' w') : r = r' ∧ w = w' := by
  have hdiv : ∀ (r : Fin t.worldSize) (w : Fin t.numWorkers), split ∈ t.mySplits r w →
      split / t.splitsPerWorker = r * t.numWorkers + w := by
    intro r w hmem
    rw [mySplits, mem_range'_1] at hmem
    refine Nat.div_eq_of_lt_le hmem.1 ?_
    rw [Nat.add_mul, Nat.one_mul]
    exact hmem.2
  have heq : r * t.numWorkers + w = r' * t.numWorkers + w' :=
    (hdiv r w h).symm.trans (hdiv r' w' h')
  have hmod := congrArg (· % t.numWorkers) heq
  simp only [Nat.mul_add_mod', Nat.mod_eq_of_lt w.2, Nat.mod_eq_of_lt w'.2] at hmod
  rw [hmod, Nat.add_right_cancel_iff] at heq
  exact ⟨Fin.ext (Nat.eq_of_mul_eq_mul_right t.numWorkers_pos heq), Fin.ext hmod⟩

end Topology

/-! ### Splits of one length -/

/-- No read fails, the transform makes `f a` of every row `a`, and the splits have `len` rows. -/
structure SplitTable.Regular (tbl : SplitTable α β ε) (numSplits len : ℕ) (f : α → β) : Prop where
  read : ∀ split absStart, tbl.readError split absStart = none
  row : ∀ a, tbl.finalTransform.row a = some (f a)
  length : ∀ split < numSplits, (tbl.rows split).length = len

/-- The samples of step `j`: the `j`-th rows of the splits. -/
def SplitTable.step (tbl : SplitTable α β ε) (f : α → β) (splits : List ℕ) (j : ℕ) : List β :=
  splits.filterMap fun split => (tbl.rows split)[j]?.map f

theorem RowTransform.getElem?_goods {g : RowTransform α β ε} {f : α → β}
    (hrow : ∀ a, g.row a = some (f a)) (start : ℕ) (xs : List α) (j : ℕ) :
    (g.goods start xs)[j]? = xs[j]?.map fun a => (start + j, f a) := by
  induction xs generalizing start j with
  | nil => simp
  | cons a xs ih =>
    rw [RowTransform.goods, hrow]
    cases j with
    | zero => simp
    | succ j =>
      simp only [getElem?_cons_succ, ih]
      rw [Nat.add_assoc, Nat.add_comm 1]

namespace SplitTable.Regular

variable {tbl : SplitTable α β ε} {numSplits len : ℕ} {f : α → β} (h : tbl.Regular numSplits len f)
include h

theorem unfailing : tbl.Unfailing := by
  refine ⟨h.read, fun batch exc hexc => ?_⟩
  have hok : tbl.finalTransform.run batch = .ok (batch.map f) := by
    have hrow : tbl.finalTransform.row = fun a => some (f a) := by
      funext a
      exact h.row a
    rw [tbl.finalTransform.run_eq_ok, hrow]
    exact mapM_pure
  rw [hexc] at hok
  cases hok

theorem getElem?_accepted (split start j : ℕ) :
    (tbl.accepted split start)[j]? =
      (tbl.rows split)[start + j]?.map fun a => (start + j, f a) := by
  rw [SplitTable.accepted, RowTransform.getElem?_goods h.row, getElem?_drop]

theorem length_accepted (hlt : split < numSplits) (start : ℕ) :
    (tbl.accepted split start).length = len - start := by
  refine Nat.le_antisymm ?_ ?_
  · refine (tbl.finalTransform.length_goods_le _ _).trans ?_
    rw [length_drop, h.length split hlt]
  · by_contra hlt'
    have hn : (tbl.accepted split start)[(tbl.accepted split start).length]? = none :=
      List.getElem?_eq_none_iff.2 le_rfl
    rw [h.getElem?_accepted, Option.map_eq_none_iff, List.getElem?_eq_none_iff,
      h.length split hlt] at hn
    omega

theorem length_step {splits : List ℕ} (hsplits : ∀ split ∈ splits, split < numSplits) {j : ℕ}
    (hj : j < len) : (tbl.step f splits j).length = splits.length := by
  rw [SplitTable.step, length_filterMap_eq_countP, countP_eq_length]
  intro split hspl
  simp [h.length split (hsplits split hspl), hj]

theorem step_eq_nil {splits : List ℕ} (hsplits : ∀ split ∈ splits, split < numSplits) {j : ℕ}
    (hj : len ≤ j) : tbl.step f splits j = [] := by
  rw [SplitTable.step, filterMap_eq_nil_iff]
  intro split hspl
  simp [h.length split (hsplits split hspl), hj]

end SplitTable.Regular

/-! ### Full steps of an iterator -/

/-- The counters `st` are at step `c` on the given splits. -/
def RowState.AtStep (st : RowState) (splits : List ℕ) (c : ℕ) : Prop :=
  ∀ split ∈ splits, st.sampleCount split = c ∧ st.startPos split = c

section Steps

variable {tbl : SplitTable α β ε} {numSplits len : ℕ} {f : α → β}
  (hreg : tbl.Regular numSplits len f) {splits : List ℕ}
  (hsplits : ∀ split ∈ splits, split < numSplits) {st : RowState} {c : ℕ} (hc : c ≤ len)

theorem headD_mem {l : List ℕ} {a : ℕ} (h : a ∈ l) : l.headD 0 ∈ l := by
  cases l with
  | nil => cases h
  | cons b l => exact mem_cons_self

theorem RowState.AtStep.stateDict {cfg : Config} {st : RowState} {c : ℕ}
    (h : st.AtStep cfg.rankSplits c) : st.stateDict cfg = .ok (st.checkpointSnapshot cfg) := by
  have hlvl : ∀ split ∈ cfg.rankSplits,
      st.sampleCount split = st.sampleCount (cfg.rankSplits.headD 0) := by
    intro split hspl
    rw [(h split hspl).1, (h _ (headD_mem hspl)).1]
  exact if_neg fun hnot => hnot.2 hlvl

theorem RowState.fresh_atStep (splits : List ℕ) : RowState.fresh.AtStep splits 0 :=
  fun _ _ => ⟨rfl, rfl⟩

/-- The server that counters at a step record. -/
def stepServer (tbl : SplitTable α β ε) (splits : List ℕ) (c : ℕ) : State (ℕ × β) where
  count _ := c
  rest i := tbl.accepted (splits.getD i 0) c

include hreg hsplits hc in
theorem RowState.AtStep.tracks (h : st.AtStep splits c) :
    tbl.Tracks splits.length (splits.getD · 0) st (stepServer tbl splits c) := by
  refine ⟨fun i hi => ?_, fun i hi => ?_, fun i hi => ?_⟩
  · exact (h _ (mem_splits hi)).1.symm
  · rw [(h _ (mem_splits hi)).2]
    rfl
  · rw [(h _ (mem_splits hi)).2, hreg.length _ (hsplits _ (mem_splits hi))]
    exact hc

theorem stepServer_level (n : ℕ) : (stepServer tbl splits c).Level n := fun _ _ => rfl

include hreg hsplits in
theorem stepServer_length {i : ℕ} (hi : i < splits.length) :
    ((stepServer tbl splits c).rest i).length = len - c :=
  hreg.length_accepted (hsplits _ (mem_splits hi)) c

include hreg in
/-- The rows of a round are the samples of a step. -/
theorem stepServer_row (j : ℕ) :
    ((stepServer tbl splits c).row splits.length j).map (·.2.2) = tbl.step f splits (c + j) := by
  have hlist : splits = (List.range splits.length).map (splits.getD · 0) := by
    refine ext_getElem (by simp) fun i hi _ => ?_
    simp [getElem?_eq_getElem hi]
  conv_rhs => rw [hlist, SplitTable.step, filterMap_map]
  rw [RoundRobin.State.row, map_filterMap]
  refine filterMap_congr fun i _ => ?_
  simp only [stepServer, hreg.getElem?_accepted, Function.comp]
  cases (tbl.rows (splits.getD i 0))[c + j]? <;> rfl

include hreg in
theorem map_flatMap_row (m : ℕ) :
    ((List.range m).flatMap ((stepServer tbl splits c).row splits.length)).map (·.2.2) =
      (List.range m).flatMap fun j => tbl.step f splits (c + j) := by
  rw [map_flatMap]
  exact flatMap_congr fun j _ => stepServer_row hreg j

include hreg hsplits hc in
theorem atStep_of_tracks (hm : m ≤ len - c) (h : tbl.Tracks splits.length (splits.getD · 0) st
    ((stepServer tbl splits c).rounds splits.length m)) : st.AtStep splits (c + m) := by
  intro split hspl
  obtain ⟨i, hi, rfl⟩ := exists_split_eq hspl
  have hcnt := h.count i hi
  have hr := congrArg List.length (h.rest i hi)
  have hle := h.startPos_le i hi
  rw [hreg.length_accepted (hsplits _ hspl)] at hr
  rw [hreg.length _ (hsplits _ hspl)] at hle
  simp only [State.rounds, hi, if_true, length_drop,
    stepServer_length hreg hsplits hi] at hcnt hr
  refine ⟨hcnt.symm, ?_⟩
  omega

include hreg hsplits in
theorem length_steps (hm : c + m ≤ len) :
    ((List.range m).flatMap fun j => tbl.step f splits (c + j)).length = m * splits.length := by
  rw [length_flatMap, map_congr_left fun j hj =>
    hreg.length_step hsplits (show c + j < len by rw [mem_range] at hj; omega)]
  simp

section Iterate

variable {ds : Dataset α β ε} (hassign : ds.cfg.resolveMySplits ds.worker = .ok splits)
  (htbl : ds.tbl = tbl) (hleast : st.OffsetLeast) (hst : st.AtStep splits c)
include hreg hsplits hc hassign htbl hleast hst

/-- **Full steps of an iterator**: the samples it yields, and the counters after them. -/
theorem iterate_steps (schedule : ℕ → List Completion) (hm : c + m ≤ len) :
    ∃ st', ds.iterate st schedule (m * splits.length) =
        .ok ((List.range m).flatMap fun j => tbl.step f splits (c + j), false, st') ∧
      st'.AtStep splits (c + m) ∧ st'.requiresUniform = st.requiresUniform ∧
      (splits ≠ [] → st'.resumeOffset ≤ c + m) ∧
      ∀ split ∉ splits, st'.resumeSamples split = st.resumeSamples split ∧
        st'.resumePositions split = st.resumePositions split := by
  subst htbl
  have hlen : ∀ i < splits.length, m ≤ ((stepServer ds.tbl splits c).rest i).length := by
    intro i hi
    rw [stepServer_length hreg hsplits hi]
    omega
  have hrun := run_rounds (stepServer_level splits.length) m hlen
  obtain ⟨st', hiter, htrk, hunif, hoff, hfo⟩ := Dataset.iterate_eq hassign
    hreg.unfailing hleast (hst.tracks hreg hsplits hc) schedule (m * splits.length)
  rw [hrun] at hiter htrk hoff
  refine ⟨st', ?_, atStep_of_tracks hreg hsplits hc (by omega) htrk, hunif, fun hne => ?_,
    hfo⟩
  · rw [hiter, map_flatMap_row hreg, ← length_map (·.2.2), map_flatMap_row hreg,
      length_steps hreg hsplits hm]
    simp
  · have hpos : 0 < splits.length := length_pos_iff.2 hne
    have := hoff 0 hpos
    simpa [State.rounds, hpos, stepServer] using this

/-- **An iterator that runs to the end** yields the samples of the remaining steps. -/
theorem iterate_to_end (schedule : ℕ → List Completion) {calls : ℕ}
    (hcalls : (len - c) * splits.length < calls) :
    ∃ st', ds.iterate st schedule calls =
      .ok ((List.range (len - c)).flatMap fun j => tbl.step f splits (c + j), true, st') := by
  subst htbl
  have hrun : (run splits.length calls (stepServer ds.tbl splits c)).1 =
      (List.range (len - c)).flatMap ((stepServer ds.tbl splits c).row splits.length) := by
    rcases Nat.eq_zero_or_pos splits.length with hz | hpos
    · have hstop : step splits.length (stepServer ds.tbl splits c) = none := by
        simp [step, hz]
      rw [run_succ_none calls hstop, hz]
      simp [State.row]
    · obtain ⟨k, rfl⟩ := Nat.exists_eq_add_of_le hcalls.le
      rw [run_rounds_end (stepServer_level splits.length)
        (fun i hi => (stepServer_length hreg hsplits hi).ge) hpos
        (stepServer_length hreg hsplits hpos)]
  obtain ⟨st', hiter, -⟩ := Dataset.iterate_eq hassign hreg.unfailing hleast
    (hst.tracks hreg hsplits hc) schedule calls
  refine ⟨st', ?_⟩
  rw [hiter, hrun, map_flatMap_row hreg, ← length_map (·.2.2), map_flatMap_row hreg,
    length_steps hreg hsplits (by omega)]
  simp [hcalls]

end Iterate

/-- The samples in the first `m` batches of a worker. -/
def LoaderWorker.delivered (w : LoaderWorker) (m : ℕ) : ℕ := ∑ i ∈ Finset.range m, w.batchSize i

include hreg hsplits hc in
/-- A worker after some batches is the server after as many samples. -/
theorem LoaderWorker.rowAfter_sim {w : LoaderWorker} (hw : w.mySplits = splits)
    (hleast : st.OffsetLeast) (hst : st.AtStep splits c) (m : ℕ) :
    (w.rowReader tbl st).Sim tbl st (w.rowAfter tbl st m)
      (run splits.length (w.delivered m) (stepServer tbl splits c)).2 := by
  subst hw
  obtain ⟨hunf, hsim⟩ := Reader.start_sim hreg.unfailing true w.schedule hleast
    (hst.tracks hreg hsplits hc)
  induction m with
  | zero => exact hsim
  | succ m ih =>
    obtain ⟨it, hit, hsim'⟩ := Reader.take_sim hunf w.increasing (w.batchSize m) ih
    have ht : (w.rowReader tbl st).take (w.batchSize m) (w.rowAfter tbl st m) = _ := hit
    have hn : w.rowAfter tbl st (m + 1) = it := by
      rw [rowAfter, ht]
    rw [hn, LoaderWorker.delivered, Finset.sum_range_succ, run_add]
    exact hsim'

include hreg hsplits hc in
/-- **Full steps of a worker**: its counters when all their samples have been delivered. -/
theorem LoaderWorker.rowAfter_atStep {w : LoaderWorker} (hw : w.mySplits = splits)
    (hleast : st.OffsetLeast) (hst : st.AtStep splits c) {batches : ℕ}
    (hdeliv : w.delivered batches = m * splits.length) (hm : c + m ≤ len) :
    (w.rowAfter tbl st batches).st.AtStep splits (c + m) := by
  have hsim := LoaderWorker.rowAfter_sim hreg hsplits hc hw hleast hst batches
  have hlen : ∀ i < splits.length, m ≤ ((stepServer tbl splits c).rest i).length := by
    intro i hi
    rw [stepServer_length hreg hsplits hi]
    omega
  rw [hdeliv, run_rounds (stepServer_level splits.length) m hlen] at hsim
  subst hw
  exact atStep_of_tracks hreg hsplits hc (by omega) hsim.tracks

end Steps

/-! ### Running a topology -/

namespace Topology

variable {numSplits : ℕ} (t : Topology numSplits) (tbl : SplitTable α β ε) (shuffleSeed : ℤ)
  (epoch : ℕ)

/-- What an execution of a topology is free to choose: the order in which futures complete, the
sizes of the batches of loader workers, and the order in which the batches are delivered. -/
structure Execution where
  schedule : Fin t.worldSize → Fin t.numWorkers → ℕ → List Completion
  batchSize : Fin t.worldSize → Fin t.numWorkers → ℕ → ℕ
  deliveries : Fin t.worldSize → List (Fin t.numWorkers)

/-- The dataset and the place of an iterator. -/
def dataset (r : Fin t.worldSize) (w : Fin t.numWorkers) : Dataset α β ε :=
  ⟨tbl, t.config shuffleSeed epoch r, t.workerInfo w, t.loader⟩

variable {t}

/-- The workers of the loader of a rank. -/
def Execution.workers (e : t.Execution) (r : Fin t.worldSize) (w : Fin t.numWorkers) :
    LoaderWorker where
  mySplits := t.mySplits r w
  sorted := pairwise_lt_range'
  schedule := e.schedule r w
  batchSize := e.batchSize r w

/-- Every loader worker has delivered the samples of `k` full steps. -/
def Execution.Complete (e : t.Execution) (k : ℕ) : Prop :=
  t.loader = true → ∀ r w,
    (e.workers r w).delivered ((e.deliveries r).count w) = k * t.splitsPerWorker

/-- The counters of a rank with a loader, after the deliveries. -/
def Execution.rankState (e : t.Execution) (st : RowState) (r : Fin t.worldSize) :
    Except StateError RowState :=
  Deliveries.deliver
    (rowCommit (e.workers r) tbl (t.config shuffleSeed epoch r) st (1 < t.numWorkers))
    (fun _ => 0) st (e.deliveries r)

/-- The state dicts after `k` full steps: of the rank if it has a loader, otherwise of the dataset
of every iterator. -/
def Execution.states (e : t.Execution) (st : RowState) (k : ℕ) :
    Except (RunError ε) (List StateDict) :=
  if t.loader then
    (List.finRange t.worldSize).mapM fun r => do
      let st ← (e.rankState tbl shuffleSeed epoch st r).mapError .state
      (st.stateDict (t.config shuffleSeed epoch r)).mapError .state
  else
    (List.finRange t.worldSize ×ˢ List.finRange t.numWorkers).mapM fun (r, w) => do
      let (_, _, st) ← (t.dataset tbl shuffleSeed epoch r w).iterate st (e.schedule r w)
        (k * t.splitsPerWorker)
      (st.stateDict (t.config shuffleSeed epoch r)).mapError .state

/-- What a state of the topology says after `k` steps: its own splits are at step `k`, and no
other is ahead of it. -/
structure Settled (numSplits k : ℕ) (own : List ℕ) (st : RowState) : Prop where
  own : st.AtStep own k
  le : ∀ split < numSplits, st.sampleCount split ≤ k ∧ st.startPos split ≤ k

section States

variable {tbl} {len : ℕ} {f : α → β} (hreg : tbl.Regular numSplits len f) {k : ℕ} (hk : k ≤ len)
  (e : t.Execution)
include hreg hk

theorem Execution.iterate_settled (r : Fin t.worldSize) (w : Fin t.numWorkers) :
    ∃ st, (t.dataset tbl shuffleSeed epoch r w).iterate .fresh (e.schedule r w)
        (k * t.splitsPerWorker) =
          .ok ((List.range k).flatMap fun j => tbl.step f (t.mySplits r w) j, false, st) ∧
      st.stateDict (t.config shuffleSeed epoch r) =
        .ok (st.checkpointSnapshot (t.config shuffleSeed epoch r)) ∧
      Settled numSplits k (t.mySplits r w) st := by
  have hlen := t.length_mySplits r w
  have hassign := t.resolveMySplits_eq shuffleSeed epoch r w
  obtain ⟨st, hiter, hst, hunif, hoff, hfo⟩ := iterate_steps hreg
    (fun _ => t.mySplits_lt) (Nat.zero_le len)
    (show (t.dataset tbl shuffleSeed epoch r w).cfg.resolveMySplits
      (t.dataset tbl shuffleSeed epoch r w).worker = _ from hassign) rfl
    RowState.fresh_offsetLeast (RowState.fresh_atStep _) (e.schedule r w)
    (show 0 + k ≤ len by omega)
  simp only [Nat.zero_add, hlen] at hiter hst hoff
  refine ⟨st, hiter, ?_, hst, fun split hlt => ?_⟩
  · have hf : st.requiresUniform = false := hunif
    simp [RowState.stateDict, hf]
  · by_cases hown : split ∈ t.mySplits r w
    · exact ⟨(hst split hown).1.le, (hst split hown).2.le⟩
    · -- a foreign split is at the offset, which is not ahead
      have hne : t.mySplits r w ≠ [] := by
        rw [← length_pos_iff, hlen]
        refine Nat.pos_of_ne_zero fun hz => ?_
        have := t.splitsPerWorker_mul
        rw [hz] at this
        omega
      obtain ⟨hs, hposn⟩ := hfo split hown
      obtain ⟨hcnt, hpos⟩ := RowState.counts_of_none hs hposn
      rw [hcnt, hpos]
      exact ⟨hoff hne, hoff hne⟩

theorem Execution.rankState_settled (he : e.Complete k) (hldr : t.loader = true)
    (r : Fin t.worldSize) :
    ∃ st, e.rankState tbl shuffleSeed epoch .fresh r = .ok st ∧
      st.stateDict (t.config shuffleSeed epoch r) =
        .ok (st.checkpointSnapshot (t.config shuffleSeed epoch r)) ∧
      Settled numSplits k (t.config shuffleSeed epoch r).rankSplits st := by
  have hdisj : DisjointSplits (e.workers r) := fun w w' hne split h h' =>
    hne (t.owner_unique h h').2
  have hsnd : RowState.fresh.Sound := fun _ _ h => by cases h
  obtain ⟨st, hst, hown, hn⟩ := deliver_row tbl (t.config shuffleSeed epoch r) hsnd
    (decide (1 < t.numWorkers)) hdisj (e.deliveries r)
  have hs : st.AtStep (t.config shuffleSeed epoch r).rankSplits k := by
    intro split hspl
    obtain ⟨w, hw⟩ := t.mem_rankSplits.1 hspl
    have haft := LoaderWorker.rowAfter_atStep hreg (fun _ => t.mySplits_lt) (Nat.zero_le len)
      (show (e.workers r w).mySplits = t.mySplits r w from rfl) RowState.fresh_offsetLeast
      (RowState.fresh_atStep _) (t.length_mySplits r w ▸ he hldr r w) (show 0 + k ≤ len by omega)
    rw [Nat.zero_add] at haft
    obtain ⟨hsamp, hpos⟩ := hown w split hw (t.mySplits_lt hw)
    rw [hsamp, hpos]
    exact haft split hw
  refine ⟨st, hst, hs.stateDict, hs, fun split hlt => ?_⟩
  by_cases hspl : split ∈ (t.config shuffleSeed epoch r).rankSplits
  · exact ⟨(hs split hspl).1.le, (hs split hspl).2.le⟩
  · obtain ⟨hsamp, hpos⟩ := hn split hlt fun w hw =>
      hspl (t.mem_rankSplits.2 ⟨w, hw⟩)
    rw [hsamp, hpos]
    exact ⟨Nat.zero_le k, Nat.zero_le k⟩

/-- **The states of a topology** after `k` full steps, with those of the splits they record. -/
theorem Execution.states_eq (he : e.Complete k) :
    ∃ states : List (Config × RowState),
      e.states tbl shuffleSeed epoch .fresh k = .ok (snapshots states) ∧ states ≠ [] ∧
      (∀ x ∈ states, ∃ r, x.1 = t.config shuffleSeed epoch r) ∧
      (∀ split < numSplits, ∃ x ∈ states, x.2.sampleCount split = k ∧ x.2.startPos split = k) ∧
      ∀ x ∈ states, ∀ split < numSplits, x.2.sampleCount split ≤ k ∧ x.2.startPos split ≤ k := by
  cases hldr : t.loader with
  | true =>
    choose st hst hdict hset using
      e.rankState_settled shuffleSeed epoch hreg hk he hldr
    refine ⟨(List.finRange t.worldSize).map fun r => (t.config shuffleSeed epoch r, st r), ?_,
      ?_, ?_, fun split hlt => ?_, ?_⟩
    · rw [Execution.states, if_pos hldr, snapshots, map_map]
      refine mapM_eq_ok fun r _ => ?_
      simp only [hst r, Except.mapError, bind, Except.bind, hdict r]
      rfl
    · exact ne_nil_of_mem (mem_map.2 ⟨⟨0, t.worldSize_pos⟩, mem_finRange _, rfl⟩)
    · intro x hx
      obtain ⟨r, -, rfl⟩ := mem_map.1 hx
      exact ⟨r, rfl⟩
    · obtain ⟨r, w, hw⟩ := t.exists_owner hlt
      exact ⟨_, mem_map.2 ⟨r, mem_finRange r, rfl⟩,
        (hset r).own split (t.mem_rankSplits.2 ⟨w, hw⟩)⟩
    · intro x hx
      obtain ⟨r, -, rfl⟩ := mem_map.1 hx
      exact (hset r).le
  | false =>
    choose st hst hdict hset using
      e.iterate_settled shuffleSeed epoch hreg hk
    refine ⟨(List.finRange t.worldSize ×ˢ List.finRange t.numWorkers).map fun x =>
      (t.config shuffleSeed epoch x.1, st x.1 x.2), ?_, ?_, ?_, fun split hlt => ?_, ?_⟩
    · rw [Execution.states, hldr, if_neg (by simp), snapshots, map_map]
      refine mapM_eq_ok fun x _ => ?_
      simp only [hst x.1 x.2, bind, Except.bind, hdict x.1 x.2]
      rfl
    · refine ne_nil_of_mem (mem_map.2
        ⟨(⟨0, t.worldSize_pos⟩, ⟨0, t.numWorkers_pos⟩), ?_, rfl⟩)
      exact mem_product.2 ⟨mem_finRange _, mem_finRange _⟩
    · intro x hx
      obtain ⟨y, -, rfl⟩ := mem_map.1 hx
      exact ⟨y.1, rfl⟩
    · obtain ⟨r, w, hw⟩ := t.exists_owner hlt
      refine ⟨_, mem_map.2 ⟨(r, w), ?_, rfl⟩, (hset r w).own split hw⟩
      exact mem_product.2 ⟨mem_finRange r, mem_finRange w⟩
    · intro x hx
      obtain ⟨y, -, rfl⟩ := mem_map.1 hx
      exact (hset y.1 y.2).le

end States

/-- The merged state of a topology after `k` full steps puts every dataset of another at step
`k`. -/
theorem Execution.load_merged {len : ℕ} {f : α → β} (hreg : tbl.Regular numSplits len f) {k : ℕ}
    (hk : k ≤ len) (e : t.Execution) (he : e.Complete k) (t' : Topology numSplits) :
    ∃ states merged st, e.states tbl shuffleSeed epoch .fresh k = .ok states ∧
      mergeStateDicts states = .ok merged ∧
      (∀ r, loadStateDict (t'.config shuffleSeed epoch r) merged = .ok st) ∧
      (∀ split < numSplits, st.sampleCount split = k ∧ st.startPos split = k) ∧
      st.OffsetLeast := by
  obtain ⟨states, hsts, hne, hconfig, hown, hle⟩ := e.states_eq shuffleSeed epoch hreg hk he
  have hsame : ∀ x ∈ states, (t.config shuffleSeed epoch ⟨0, t.worldSize_pos⟩).SameRun x.1 := by
    intro x hx
    obtain ⟨r, hr⟩ := hconfig x hx
    rw [hr]
    exact ⟨rfl, rfl, rfl⟩
  obtain ⟨counts, positions, hmrg, hmax⟩ := mergeStateDicts_isGreatest hne hsame
  -- the owner of a split is at step `k`, and nobody reports more
  have hcnts : ∀ split < numSplits, counts split = k ∧ positions split = k := by
    intro split hlt
    obtain ⟨x, hx, hs, hposn⟩ := hown split hlt
    obtain ⟨⟨⟨y, hy, hy'⟩, hcnt⟩, ⟨z, hz, hz'⟩, hpos⟩ := hmax split
    refine ⟨le_antisymm ?_ (hcnt ⟨x, hx, hs⟩), le_antisymm ?_ (hpos ⟨x, hx, hposn⟩)⟩
    · rw [← hy']
      exact (hle y hy split hlt).1
    · rw [← hz']
      exact (hle z hz split hlt).2
  obtain ⟨st, hl, hs, hposn, hleast, -⟩ := loadStateDict_ofCounts
    (show (t.config shuffleSeed epoch ⟨0, t.worldSize_pos⟩).numSplits =
      (t'.config shuffleSeed epoch ⟨0, t'.worldSize_pos⟩).numSplits from rfl) rfl counts positions
  refine ⟨_, _, st, hsts, hmrg, fun r => hl, fun split hlt => ?_, hleast⟩
  rw [hs split hlt, hposn split hlt]
  exact hcnts split hlt

variable (t) in
/-- The samples of step `j` over all ranks and workers, when `out` is what they yield. -/
def stepSamples (out : Fin t.worldSize → Fin t.numWorkers → List β) (j : ℕ) : Multiset β :=
  ↑((List.finRange t.worldSize).flatMap fun r => (List.finRange t.numWorkers).flatMap fun w =>
    ((out r w).drop (j * t.splitsPerWorker)).take t.splitsPerWorker)

theorem stepSamples_eq {tbl : SplitTable α β ε} {len : ℕ} {f : α → β}
    (hreg : tbl.Regular numSplits len f) {c j : ℕ} (hm : c + m ≤ len) (hj : j < m ∨ len ≤ c + j) :
    t.stepSamples (fun r w => (List.range m).flatMap fun j => tbl.step f (t.mySplits r w) (c + j))
      j = ↑(tbl.step f (List.range numSplits) (c + j)) := by
  have hblk : ∀ r w, (((List.range m).flatMap fun j =>
      tbl.step f (t.mySplits r w) (c + j)).drop (j * t.splitsPerWorker)).take t.splitsPerWorker =
        tbl.step f (t.mySplits r w) (c + j) := by
    intro r w
    rw [take_drop_flatMap_range fun i hi => ?_]
    · split_ifs with hlt
      · rfl
      · exact (hreg.step_eq_nil (fun _ => t.mySplits_lt) (by omega)).symm
    · rw [hreg.length_step (fun _ => t.mySplits_lt) (by omega)]
      simp [mySplits]
  have hlist : ((List.finRange t.worldSize).flatMap fun r =>
      (List.finRange t.numWorkers).flatMap fun w => tbl.step f (t.mySplits r w) (c + j)) =
        tbl.step f (List.range numSplits) (c + j) := by
    rw [← t.flatMap_mySplits, SplitTable.step, filterMap_flatMap]
    refine flatMap_congr fun r _ => ?_
    rw [filterMap_flatMap]
    rfl
  simp only [stepSamples, hblk, hlist]

variable (numSplits) in
/-- One process that reads all splits. -/
def single : Topology numSplits where
  worldSize := 1
  numWorkers := 1
  loader := false
  worldSize_pos := Nat.one_pos
  numWorkers_pos := Nat.one_pos
  dvd := one_dvd _

theorem Execution.iterate_end {tbl : SplitTable α β ε} {len : ℕ} {f : α → β}
    (hreg : tbl.Regular numSplits len f) {c : ℕ} (hc : c ≤ len) {st : RowState}
    (hst : ∀ split < numSplits, st.sampleCount split = c ∧ st.startPos split = c)
    (hleast : st.OffsetLeast) (e : t.Execution) (r : Fin t.worldSize) (w : Fin t.numWorkers)
    {calls : ℕ} (hcalls : (len - c) * t.splitsPerWorker < calls) :
    ∃ st', (t.dataset tbl shuffleSeed epoch r w).iterate st (e.schedule r w) calls =
      .ok ((List.range (len - c)).flatMap fun j => tbl.step f (t.mySplits r w) (c + j), true,
        st') := by
  have hlen := t.length_mySplits r w
  have hassign := t.resolveMySplits_eq shuffleSeed epoch r w
  exact iterate_to_end hreg (fun _ => t.mySplits_lt) hc
    (show (t.dataset tbl shuffleSeed epoch r w).cfg.resolveMySplits
      (t.dataset tbl shuffleSeed epoch r w).worker = _ from hassign) rfl hleast
    (fun split hspl => hst split (t.mySplits_lt hspl)) (e.schedule r w) (hlen ▸ hcalls)

/-- **Elastic determinism.**  Run a topology for `k` full steps, merge the states of its ranks, load
the merged state into every rank of another topology and run it to the end.  Then for every step
`j` the samples of all ranks and workers are the `j`-th rows of the splits, as in a run on one
process. -/
theorem elastic {tbl : SplitTable α β ε} {len : ℕ} {f : α → β}
    (hreg : tbl.Regular numSplits len f) (t t' : Topology numSplits) {k : ℕ} (hk : k ≤ len)
    (e : t.Execution) (he : e.Complete k) (e' : t'.Execution)
    (e₁ : (single numSplits).Execution) :
    ∃ out states merged st out' out₁,
      (∀ r w, ∃ st', (t.dataset tbl shuffleSeed epoch r w).iterate .fresh (e.schedule r w)
        (k * t.splitsPerWorker) = .ok (out r w, false, st')) ∧
      e.states tbl shuffleSeed epoch .fresh k = .ok states ∧
      mergeStateDicts states = .ok merged ∧
      (∀ r, loadStateDict (t'.config shuffleSeed epoch r) merged = .ok st) ∧
      (∀ r w, ∀ calls > (len - k) * t'.splitsPerWorker, ∃ st',
        (t'.dataset tbl shuffleSeed epoch r w).iterate st (e'.schedule r w) calls =
          .ok (out' r w, true, st')) ∧
      (∀ r w, ∀ calls > len * (single numSplits).splitsPerWorker, ∃ st',
        ((single numSplits).dataset tbl shuffleSeed epoch r w).iterate .fresh (e₁.schedule r w)
          calls = .ok (out₁ r w, true, st')) ∧
      ∀ j, (if j < k then t.stepSamples out j else t'.stepSamples out' (j - k)) =
          ↑(tbl.step f (List.range numSplits) j) ∧
        (single numSplits).stepSamples out₁ j = ↑(tbl.step f (List.range numSplits) j) := by
  obtain ⟨states, merged, st, hsts, hmrg, hl, hst, hleast⟩ :=
    e.load_merged tbl shuffleSeed epoch hreg hk he t'
  refine ⟨fun r w => (List.range k).flatMap fun j => tbl.step f (t.mySplits r w) j, states, merged,
    st, fun r w => (List.range (len - k)).flatMap fun j => tbl.step f (t'.mySplits r w) (k + j),
    fun r w => (List.range len).flatMap fun j =>
      tbl.step f ((single numSplits).mySplits r w) j,
    fun r w => ?_, hsts, hmrg, hl, fun r w calls hcalls => ?_, fun r w calls hcalls => ?_,
    fun j => ⟨?_, ?_⟩⟩
  · obtain ⟨st', hiter, -⟩ := e.iterate_settled shuffleSeed epoch hreg hk r w
    exact ⟨st', hiter⟩
  · exact e'.iterate_end shuffleSeed epoch hreg hk hst hleast r w hcalls
  · have hend := e₁.iterate_end shuffleSeed epoch hreg (Nat.zero_le len) (fun _ _ => ⟨rfl, rfl⟩)
      RowState.fresh_offsetLeast r w hcalls
    simpa only [Nat.sub_zero, Nat.zero_add] using hend
  · split_ifs with hj
    · have := t.stepSamples_eq hreg (c := 0) (m := k) (by omega) (Or.inl hj)
      simpa only [Nat.zero_add] using this
    · have := t'.stepSamples_eq hreg (c := k) (m := len - k) (j := j - k) (by omega) (by omega)
      rwa [Nat.add_sub_of_le (by omega)] at this
  · have := (single numSplits).stepSamples_eq hreg (c := 0) (m := len) (j := j) (by omega)
      (by omega)
    simpa only [Nat.zero_add] using this

/-- Four splits of three rows. -/
def demoTable : SplitTable ℕ ℕ Unit where
  rows split := [10 * split, 10 * split + 1, 10 * split + 2]
  finalTransform := .ofRow some ()
  onTransformError := .raise
  readError _ _ := none
  limits := demoLimits

/-- A rank with two loader workers. -/
def demoLoader : Topology 4 := ⟨1, 2, true, Nat.one_pos, Nat.two_pos, by decide⟩

/-- Two ranks without workers. -/
def demoRanks : Topology 4 := ⟨2, 1, false, Nat.two_pos, Nat.one_pos, by decide⟩

/-- Each worker delivers a batch of two. -/
def demoDelivery : demoLoader.Execution :=
  ⟨fun _ _ _ => [], fun _ _ _ => 2, fun _ => [⟨1, Nat.one_lt_two⟩, ⟨0, Nat.two_pos⟩]⟩

theorem elastic_demo : demoTable.Regular 4 3 id ∧ demoDelivery.Complete 1 ∧
    ∃ states merged st out',
      demoDelivery.states demoTable 7 0 .fresh 1 = .ok states ∧
      mergeStateDicts states = .ok merged ∧
      (∀ r, loadStateDict (demoRanks.config 7 0 r) merged = .ok st) ∧
      (∀ r w, ∀ calls > 4, ∃ st', (demoRanks.dataset demoTable 7 0 r w).iterate st (fun _ => [])
        calls = .ok (out' r w, true, st')) ∧
      demoRanks.stepSamples out' 0 = ↑[1, 11, 21, 31] ∧
      demoRanks.stepSamples out' 1 = ↑[2, 12, 22, 32] := by
  have hreg : demoTable.Regular 4 3 id := ⟨fun _ _ => rfl, fun _ => rfl, fun _ _ => rfl⟩
  have hcompl : demoDelivery.Complete 1 := by
    intro _ r w
    revert r w
    decide
  obtain ⟨_, states, merged, st, out', _, -, hsts, hmrg, hl, hend, -, hsteps⟩ :=
    elastic 7 0 hreg demoLoader demoRanks (by decide) demoDelivery hcompl
      ⟨fun _ _ _ => [], fun _ _ _ => 1, fun _ => []⟩ ⟨fun _ _ _ => [], fun _ _ _ => 1, fun _ => []⟩
  exact ⟨hreg, hcompl, states, merged, st, out', hsts, hmrg, hl, hend, (hsteps 1).1,
    (hsteps 2).1⟩

end Topology

end Streaming

end LanceDB
