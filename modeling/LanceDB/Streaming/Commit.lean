import LanceDB.Base.Deliveries
import LanceDB.Streaming.PackingInvariant

/-!
# Consumer-committed checkpoints

The workers of a data loader iterate copies of the dataset and run ahead of the consumer.  Every
batch carries the snapshot taken after its last sample, and the parent commits it when the batch is
delivered.

* `mergeStateDicts_snapshots` — what the merge of snapshots is.
* `RowState.Reachable` : the counters a dataset can have; `RowState.Reachable.sound` — in all of
  them positions are not behind samples.
* `LoaderWorker.rowAfter`, `LoaderWorker.packAfter` : a worker after some of its batches.
* `deliver_row`, `deliver_pack` — after any deliveries every split is where its owner was, by
  instantiating `Deliveries.Producers`.
-/

namespace LanceDB

open List Except Deliveries

namespace Streaming

variable {α β ε : Type}
variable {st : RowState} {split : ℕ}

/-! ### Merging the snapshots of several datasets -/

theorem foldl_max_le {ι : Type*} (fs : List ι) {f g : ι → ℕ} {a b : ℕ} (hab : a ≤ b)
    (h : ∀ x ∈ fs, f x ≤ g x) :
    fs.foldl (fun m x => max m (f x)) a ≤ fs.foldl (fun m x => max m (g x)) b := by
  induction fs generalizing a b with
  | nil => exact hab
  | cons x fs ih =>
    rw [foldl_cons, foldl_cons]
    exact ih (max_le_max hab (h x mem_cons_self)) fun y hy => h y (mem_cons_of_mem _ hy)

theorem zipMax_map_range {ι : Type*} (n : ℕ) (f : ℕ → ℕ) (fs : List ι) (g : ι → ℕ → ℕ) :
    zipMax ((List.range n).map f) (fs.map fun x => (List.range n).map (g x)) =
      (List.range n).map fun i => fs.foldl (fun m x => max m (g x i)) (f i) := by
  induction fs generalizing f with
  | nil => rfl
  | cons x fs ih =>
    have hzip : List.zipWith max ((List.range n).map f) ((List.range n).map (g x)) =
        (List.range n).map fun i => max (f i) (g x i) := by
      rw [zipWith_map, zipWith_self]
    have := ih fun i => max (f i) (g x i)
    rw [zipMax] at this ⊢
    rw [map_cons, foldl_cons, hzip, this]
    rfl

/-- The snapshots of datasets, each under its configuration. -/
def snapshots (states : List (Config × RowState)) : List StateDict :=
  states.map fun x => x.2.checkpointSnapshot x.1

/-- The configurations belong to the same run. -/
def Config.SameRun (cfg cfg' : Config) : Prop :=
  cfg'.shuffleSeed = cfg.shuffleSeed ∧ cfg'.numSplits = cfg.numSplits ∧ cfg'.epoch = cfg.epoch

theorem sameRun_snapshot (x y : Config × RowState) :
    (x.2.checkpointSnapshot x.1).sameRun (y.2.checkpointSnapshot y.1) = .ok () ↔
      x.1.SameRun y.1 := by
  simp only [StateDict.sameRun, RowState.checkpointSnapshot, Config.SameRun]
  by_cases h₁ : y.1.shuffleSeed = x.1.shuffleSeed
  · by_cases h₂ : y.1.numSplits = x.1.numSplits
    · by_cases h₃ : y.1.epoch = x.1.epoch <;> simp [h₁, h₂, h₃]
    · simp [h₁, h₂]
  · simp [h₁]

theorem forM_sameRun (x : Config × RowState) (xs : List (Config × RowState)) :
    (snapshots xs).forM (x.2.checkpointSnapshot x.1).sameRun = .ok () ↔
      ∀ y ∈ xs, x.1.SameRun y.1 := by
  rw [forM_eq_ok]
  simp only [snapshots, forall_mem_map, sameRun_snapshot]

/-- The largest count and the largest position of every split. -/
def mergedSnapshot (x : Config × RowState) (xs : List (Config × RowState)) : StateDict where
  shuffleSeed := x.1.shuffleSeed
  numSplits := x.1.numSplits
  epoch := x.1.epoch
  samplesConsumedPerSplit := .perSplit ((List.range x.1.numSplits).map fun split =>
    xs.foldl (fun m y => max m (y.2.sampleCount split)) (x.2.sampleCount split))
  positionsConsumedPerSplit := some ((List.range x.1.numSplits).map fun split =>
    xs.foldl (fun m y => max m (y.2.startPos split)) (x.2.startPos split))

/-- **The merge of snapshots** succeeds on snapshots of one run only, and takes the largest count
and the largest position of every split. -/
theorem mergeStateDicts_snapshots (x : Config × RowState) (xs : List (Config × RowState))
    {state : StateDict} : mergeStateDicts (snapshots (x :: xs)) = .ok state ↔
      (∀ y ∈ xs, x.1.SameRun y.1) ∧ state = mergedSnapshot x xs := by
  have hunfold : mergeStateDicts (snapshots (x :: xs)) =
      (do
        (snapshots xs).forM (x.2.checkpointSnapshot x.1).sameRun
        let allSamples ← (snapshots xs).mapM StateDict.samples
        return { x.2.checkpointSnapshot x.1 with
          samplesConsumedPerSplit :=
            .perSplit (zipMax ((List.range x.1.numSplits).map x.2.sampleCount) allSamples)
          positionsConsumedPerSplit :=
            some (zipMax ((List.range x.1.numSplits).map x.2.startPos)
              (List.zipWith (fun state s => state.positionsConsumedPerSplit.getD s)
                (snapshots xs) allSamples)) }) := rfl
  rw [hunfold, bind_eq_ok]
  have hr (hs : ∀ y ∈ xs, x.1.SameRun y.1) : (snapshots xs).mapM StateDict.samples =
        .ok (xs.map fun y => (List.range x.1.numSplits).map y.2.sampleCount) ∧
      List.zipWith (fun state s => state.positionsConsumedPerSplit.getD s)
        (snapshots xs) (xs.map fun y => (List.range x.1.numSplits).map y.2.sampleCount) =
        xs.map fun y => (List.range x.1.numSplits).map y.2.startPos := by
    constructor
    · rw [snapshots, mapM_map]
      refine mapM_eq_ok fun y hy => ?_
      rw [← (hs y hy).2.1]
      rfl
    · rw [snapshots, zipWith_map, zipWith_self]
      refine map_congr_left fun y hy => ?_
      rw [← (hs y hy).2.1]
      rfl
  constructor
  · rintro ⟨u, hforM, h⟩
    have hs := (forM_sameRun x xs).1 hforM
    simp only [hr hs, bind, Except.bind, pure, pure, zipMax_map_range] at h
    exact ⟨hs, (ok.inj h).symm⟩
  · rintro ⟨hs, rfl⟩
    refine ⟨(), (forM_sameRun x xs).2 hs, ?_⟩
    simp only [hr hs, bind, Except.bind, pure, pure, zipMax_map_range]
    rfl

/-! ### The states of a dataset -/

/-- The counters a dataset can have: it is fresh, has been iterated, has loaded a checkpoint
(merged from those of one or more datasets, or an old one without positions), or has committed the
snapshot of a worker. -/
inductive RowState.Reachable (tbl : SplitTable α β ε) : RowState → Prop
  | fresh : Reachable tbl .fresh
  | iterate {st : RowState} {cfg : Config} {worker : Option WorkerInfo} {realWorker : Bool}
      {schedule : ℕ → List Completion} {rd : Reader α β ε} {it it' : Iter α β} {k : ℕ}
      {r : List β × Bool} : Reachable tbl st →
      Reader.open tbl cfg worker realWorker schedule st = .ok (rd, it) →
      rd.take k it = .ok r it' → Reachable tbl it'.st
  | load {states : List (Config × RowState)} {cfg : Config} {state : StateDict}
      {st : RowState} : (∀ x ∈ states, Reachable tbl x.2) →
      mergeStateDicts (snapshots states) = .ok state → loadStateDict cfg state = .ok st →
      Reachable tbl st
  | loadOld {cfg : Config} {state : StateDict} {st : RowState} :
      state.positionsConsumedPerSplit = none → loadStateDict cfg state = .ok st →
      Reachable tbl st
  | commit {cfg : Config} {st st' : RowState} {worker : Config × RowState}
      {requireUniform : Bool} : Reachable tbl st → Reachable tbl worker.2 →
      st.commitWorkerState cfg (worker.2.checkpointSnapshot worker.1) requireUniform = .ok st' →
      Reachable tbl st'

/-- The entries after a commit: of the splits of the run the larger count, and the larger position
once the count has been written; the others are untouched. -/
structure Committed (cfg : Config) (st stWorker st' : RowState) : Prop where
  samples : ∀ split < cfg.numSplits,
    st'.resumeSamples split = some (max (st.sampleCount split) (stWorker.sampleCount split))
  positions : ∀ split < cfg.numSplits,
    st'.resumePositions split = some (max ((st.resumePositions split).getD
      (max (st.sampleCount split) (stWorker.sampleCount split))) (stWorker.startPos split))
  outside : ∀ split, cfg.numSplits ≤ split →
    st'.resumeSamples split = st.resumeSamples split ∧
    st'.resumePositions split = st.resumePositions split

/-- **What a commit does**, and when it raises. -/
theorem commitWorkerState_snapshot (cfg cfg' : Config) (st stWorker : RowState)
    (requireUniform : Bool) :
    (cfg.SameRun cfg' → ∃ st', st.commitWorkerState cfg (stWorker.checkpointSnapshot cfg')
      requireUniform = .ok st' ∧ Committed cfg st stWorker st') ∧
    (¬ cfg.SameRun cfg' → ∃ e, st.commitWorkerState cfg (stWorker.checkpointSnapshot cfg')
      requireUniform = .error e) := by
  constructor
  · rintro ⟨hseed, hspls, hepoch⟩
    refine ⟨_, by
      simp only [RowState.commitWorkerState, RowState.checkpointSnapshot, hseed, hspls, hepoch,
        ne_eq, not_true_eq_false, if_false, StateDict.samples, bind, Except.bind, pure, pure]
      rfl, fun split hlt => ?_, fun split hlt => ?_, fun split hle => ?_⟩
    · simp [hlt]
    · simp [hlt, RowState.startPos, RowState.sampleCount]
    · simp [Nat.not_lt.2 hle]
  · intro hne
    rw [RowState.commitWorkerState]
    by_cases h₁ : (stWorker.checkpointSnapshot cfg').shuffleSeed ≠ cfg.shuffleSeed
    · exact ⟨_, by rw [if_pos h₁]⟩
    by_cases h₂ : (stWorker.checkpointSnapshot cfg').numSplits ≠ cfg.numSplits
    · exact ⟨_, by rw [if_neg h₁, if_pos h₂]⟩
    by_cases h₃ : (stWorker.checkpointSnapshot cfg').epoch ≠ cfg.epoch
    · exact ⟨_, by rw [if_neg h₁, if_neg h₂, if_pos h₃]⟩
    exact absurd ⟨not_not.1 h₁, not_not.1 h₂, not_not.1 h₃⟩ hne

theorem Committed.sound {cfg : Config} {stWorker st' : RowState} (h : Committed cfg st stWorker st')
    (hst : st.Sound) (hwkr : stWorker.Sound) : st'.Sound := by
  intro split p hp
  by_cases hlt : split < cfg.numSplits
  · rw [h.positions split hlt] at hp
    obtain rfl := Option.some.inj hp
    refine ⟨_, ?_, h.samples split hlt⟩
    have h₁ := hst.sampleCount_le split
    have h₂ := hwkr.sampleCount_le split
    cases hpos : st.resumePositions split with
    | none =>
      simp only [Option.getD_none]
      exact le_max_left _ _
    | some q =>
      simp only [RowState.startPos, hpos, Option.getD_some] at h₁
      simp only [Option.getD_some]
      omega
  · obtain ⟨hs, hposn⟩ := h.outside split (Nat.not_lt.1 hlt)
    rw [hposn] at hp
    rw [hs]
    exact hst split p hp

theorem loadStateDict_mergedSnapshot_sound {cfg : Config} {x : Config × RowState}
    {xs : List (Config × RowState)} (hx : x.2.Sound) (hxs : ∀ y ∈ xs, y.2.Sound)
    (h : loadStateDict cfg (mergedSnapshot x xs) = .ok st) : st.Sound := by
  have hst : st.resumeSamples = (((List.range x.1.numSplits).map fun split =>
        xs.foldl (fun m y => max m (y.2.sampleCount split)) (x.2.sampleCount split))[·]?) ∧
      st.resumePositions = (((List.range x.1.numSplits).map fun split =>
        xs.foldl (fun m y => max m (y.2.startPos split)) (x.2.startPos split))[·]?) := by
    rw [loadStateDict] at h
    split_ifs at h
    simp only [mergedSnapshot, ok.injEq] at h
    subst h
    exact ⟨rfl, rfl⟩
  intro split p hp
  rw [hst.2] at hp
  obtain ⟨hlt, rfl⟩ : split < x.1.numSplits ∧
      xs.foldl (fun m y => max m (y.2.startPos split)) (x.2.startPos split) = p := by
    simpa [List.getElem?_eq_some_iff] using hp
  refine ⟨_, foldl_max_le xs (hx.sampleCount_le split) fun y hy => (hxs y hy).sampleCount_le split,
    ?_⟩
  rw [hst.1]
  simp [hlt]

/-- **In every state of a dataset no split has more samples than positions.** -/
theorem RowState.Reachable.sound {tbl : SplitTable α β ε} (h : st.Reachable tbl) : st.Sound := by
  induction h with
  | fresh =>
    intro split p hp
    cases hp
  | @iterate st cfg worker realWorker schedule rd it it' k r _ hopen ht ih =>
    obtain ⟨mySplits, hasg, rfl, rfl⟩ := Reader.make_of_open hopen
    obtain ⟨hadv, hph⟩ := Reader.start_progress tbl mySplits realWorker schedule ih
    obtain ⟨⟨⟨pos, -, hcs, -⟩, -⟩, -⟩ := Reader.take_progress
      (increasing_of_sorted (cfg.resolveMySplits_sorted hasg).1) k ⟨hadv, rfl⟩ hph ht
    exact hcs.sound ih
  | @load states cfg state st _ hmrg hl ih =>
    cases states with
    | nil => cases hmrg
    | cons x xs =>
      obtain ⟨-, rfl⟩ := (mergeStateDicts_snapshots x xs).1 hmrg
      exact loadStateDict_mergedSnapshot_sound (ih x mem_cons_self)
        (fun y hy => ih y (mem_cons_of_mem _ hy)) hl
  | @loadOld cfg state st hn hl =>
    intro split p hp
    have hpos : st.resumePositions split = none := by
      rw [loadStateDict, hn] at hl
      split_ifs at hl
      split at hl <;> (cases hl; rfl)
    rw [hpos] at hp
    cases hp
  | @commit cfg st st' worker requireUniform _ _ hcmt ih ih' =>
    obtain ⟨hok, herr⟩ := commitWorkerState_snapshot cfg worker.1 st worker.2 requireUniform
    by_cases hs : cfg.SameRun worker.1
    · obtain ⟨st₁, hst₁, hc⟩ := hok hs
      obtain rfl : st₁ = st' := ok.inj (hst₁.symm.trans hcmt)
      exact hc.sound ih ih'
    · obtain ⟨e, he⟩ := herr hs
      rw [hcmt] at he
      cases he

/-! ### Loader workers -/

/-- A worker of a loader: the splits it owns, the completion order of its futures, and the sizes
of its batches. -/
structure LoaderWorker where
  mySplits : List ℕ
  sorted : mySplits.Pairwise (· < ·)
  schedule : ℕ → List Completion
  batchSize : ℕ → ℕ

theorem LoaderWorker.increasing (w : LoaderWorker) :
    Increasing w.mySplits.length (w.mySplits.getD · 0) :=
  increasing_of_sorted w.sorted

namespace LoaderWorker

variable (w : LoaderWorker)
variable {m : ℕ}

/-- The generator of a worker in row mode; the worker holds a copy of the parent's dataset. -/
def rowReader (tbl : SplitTable α β ε) (st₀ : RowState) : Reader α β ε :=
  Reader.make tbl w.mySplits true w.schedule st₀

/-- The generator of a worker in row mode after the samples of its first `m` batches.  A batch
that raises is not delivered. -/
def rowAfter (tbl : SplitTable α β ε) (st₀ : RowState) : ℕ → Iter α β
  | 0 => (w.rowReader tbl st₀).start st₀
  | m + 1 =>
    match (w.rowReader tbl st₀).take (w.batchSize m) (rowAfter tbl st₀ m) with
    | .ok _ it => it
    | .error _ _ => rowAfter tbl st₀ m

/-- The generator of a worker in packed mode. -/
def packReader (tbl : SplitTable α (List ℤ) ε) (cfg : PackConfig) (st₀ : PackState) :
    PackReader α ε :=
  PackReader.make tbl cfg w.mySplits w.schedule st₀

/-- The generator of a worker in packed mode after the blocks of its first `m` batches. -/
def packAfter (tbl : SplitTable α (List ℤ) ε) (cfg : PackConfig) (st₀ : PackState) :
    ℕ → PackIter α
  | 0 => (w.packReader tbl cfg st₀).start st₀
  | m + 1 =>
    match (w.packReader tbl cfg st₀).take (w.batchSize m) (packAfter tbl cfg st₀ m) with
    | .ok _ it => it
    | .error _ _ => packAfter tbl cfg st₀ m

section Row

variable (tbl : SplitTable α β ε) {st₀ : RowState}

theorem rowAfter_progress (lo : ℕ → ℕ × ℕ)
    (hadv : (w.rowReader tbl st₀).Advanced st₀ lo (w.rowAfter tbl st₀ m))
    (hph : (w.rowReader tbl st₀).PhaseIn (w.rowAfter tbl st₀ m).phase) (d : ℕ) :
    (w.rowReader tbl st₀).Advanced st₀ lo (w.rowAfter tbl st₀ (m + d)) ∧
      (w.rowReader tbl st₀).PhaseIn (w.rowAfter tbl st₀ (m + d)).phase := by
  induction d with
  | zero => exact ⟨hadv, hph⟩
  | succ d ih =>
    rw [← Nat.add_assoc, rowAfter]
    split
    · rename_i r it hrun
      obtain ⟨hcntd, hph⟩ := Reader.take_progress w.increasing _ ⟨ih.1, rfl⟩ ih.2 hrun
      exact ⟨hcntd.1, hph⟩
    · exact ih

theorem rowAfter_advanced (hs : st₀.Sound) (m : ℕ) :
    (w.rowReader tbl st₀).Advanced st₀ (fun i => (0, st₀.startPos (w.mySplits.getD i 0)))
        (w.rowAfter tbl st₀ m) ∧
      (w.rowReader tbl st₀).PhaseIn (w.rowAfter tbl st₀ m).phase := by
  obtain ⟨hadv, hph⟩ := Reader.start_progress tbl w.mySplits true w.schedule hs
  have h := w.rowAfter_progress tbl _ (m := 0) hadv hph m
  rwa [Nat.zero_add] at h

theorem rowAfter_mono (hs : st₀.Sound) (hown : split ∈ w.mySplits) {m' : ℕ} (hle : m ≤ m') :
    (w.rowAfter tbl st₀ m).st.sampleCount split ≤ (w.rowAfter tbl st₀ m').st.sampleCount split ∧
      (w.rowAfter tbl st₀ m).st.startPos split ≤ (w.rowAfter tbl st₀ m').st.startPos split := by
  obtain ⟨i, hi, rfl⟩ := exists_split_eq hown
  obtain ⟨⟨pos, hbh, hcs, -⟩, hph⟩ :=
    w.rowAfter_advanced tbl hs m
  -- the later state has reached what this one has
  obtain ⟨d, rfl⟩ := Nat.exists_eq_add_of_le hle
  obtain ⟨⟨pos', -, hcs', hlo⟩, -⟩ := w.rowAfter_progress tbl
    (fun i => ((w.rowAfter tbl st₀ m).localConsumed i, pos i))
    ⟨pos, hbh, hcs, fun _ _ => ⟨le_rfl, le_rfl⟩⟩ hph d
  obtain ⟨hcnt, hpos⟩ := hcs.owned rfl hi rfl
  obtain ⟨hcnt', hpos'⟩ := hcs'.owned rfl hi rfl
  have hlo := hlo i hi
  dsimp only at hlo
  show (w.rowAfter tbl st₀ m).st.sampleCount ((w.rowReader tbl st₀).split i) ≤
      (w.rowAfter tbl st₀ (m + d)).st.sampleCount ((w.rowReader tbl st₀).split i) ∧
    (w.rowAfter tbl st₀ m).st.startPos ((w.rowReader tbl st₀).split i) ≤
      (w.rowAfter tbl st₀ (m + d)).st.startPos ((w.rowReader tbl st₀).split i)
  rw [hcnt, hpos, hcnt', hpos']
  omega

theorem rowAfter_foreign (hs : st₀.Sound) (hown : split ∉ w.mySplits) (m : ℕ) :
    (w.rowAfter tbl st₀ m).st.sampleCount split = st₀.sampleCount split ∧
      (w.rowAfter tbl st₀ m).st.startPos split = st₀.startPos split := by
  obtain ⟨⟨pos, -, hcs, -⟩, -⟩ := w.rowAfter_advanced tbl hs m
  exact hcs.foreign rfl (split_ne hown)

theorem rowAfter_sound (hs : st₀.Sound) (m : ℕ) : (w.rowAfter tbl st₀ m).st.Sound := by
  obtain ⟨⟨pos, -, hcs, -⟩, -⟩ := w.rowAfter_advanced tbl hs m
  exact hcs.sound hs

end Row

section Pack

variable (tbl : SplitTable α (List ℤ) ε) (cfg : PackConfig) (st₀ : PackState)

theorem packAfter_progress (lo : ℕ → ℕ × ℕ × Buffer)
    (hadv : (w.packReader tbl cfg st₀).Advanced st₀ lo (w.packAfter tbl cfg st₀ m))
    (hsus : (w.packReader tbl cfg st₀).Suspended (w.packAfter tbl cfg st₀ m)) (d : ℕ) :
    (w.packReader tbl cfg st₀).Advanced st₀ lo (w.packAfter tbl cfg st₀ (m + d)) ∧
      (w.packReader tbl cfg st₀).Suspended (w.packAfter tbl cfg st₀ (m + d)) := by
  induction d with
  | zero => exact ⟨hadv, hsus⟩
  | succ d ih =>
    rw [← Nat.add_assoc, packAfter]
    split
    · rename_i r it hrun
      obtain ⟨hcntd, hsus⟩ := PackReader.take_progress w.increasing _ ⟨ih.1, rfl⟩ ih.2 hrun
      exact ⟨hcntd.1, hsus⟩
    · exact ih

theorem packAfter_advanced (m : ℕ) :
    (w.packReader tbl cfg st₀).Advanced st₀ (fun i => st₀.view (w.mySplits.getD i 0))
        (w.packAfter tbl cfg st₀ m) ∧
      (w.packReader tbl cfg st₀).Suspended (w.packAfter tbl cfg st₀ m) := by
  obtain ⟨hadv, hsus⟩ := PackReader.start_progress tbl cfg w.mySplits w.schedule st₀
  have h := w.packAfter_progress tbl cfg st₀ _ (m := 0) hadv hsus m
  rwa [Nat.zero_add] at h

theorem packAfter_mono (hown : split ∈ w.mySplits) {m' : ℕ} (hle : m ≤ m') :
    viewLe ((w.packAfter tbl cfg st₀ m).st.view split)
      ((w.packAfter tbl cfg st₀ m').st.view split) := by
  obtain ⟨i, hi, rfl⟩ := exists_split_eq hown
  obtain ⟨hadv, hsus⟩ := w.packAfter_advanced tbl cfg st₀ m
  obtain ⟨d, rfl⟩ := Nat.exists_eq_add_of_le hle
  obtain ⟨hadv', hsus'⟩ := w.packAfter_progress tbl cfg st₀
    (fun i => (w.packAfter tbl cfg st₀ m).work.view (w.mySplits.getD i 0))
    ⟨hadv.behind, fun _ _ => viewLe_refl _, hadv.frame⟩ hsus d
  rw [hsus.1, hsus'.1]
  exact hadv'.reached i hi

theorem packAfter_foreign (hown : split ∉ w.mySplits) (m : ℕ) :
    (w.packAfter tbl cfg st₀ m).st.view split = st₀.view split := by
  obtain ⟨hadv, hsus⟩ := w.packAfter_advanced tbl cfg st₀ m
  rw [hsus.1]
  exact hadv.frame split (split_ne hown)

end Pack

end LoaderWorker

/-! ### The parent -/

/-- Counts and positions are merged by their maxima. -/
def rowMerge : Deliveries.Merge (ℕ × ℕ) where
  le a b := a.1 ≤ b.1 ∧ a.2 ≤ b.2
  le_refl _ := ⟨le_rfl, le_rfl⟩
  merge a b := (max a.1 b.1, max a.2 b.2)
  merge_of_le h := by rw [max_eq_right h.1, max_eq_right h.2]
  merge_of_ge h := by rw [max_eq_left h.1, max_eq_left h.2]

theorem progressLt_asymm {a b : ℕ × ℕ} (h : progressLt a b) : ¬ progressLt b a := by
  simp only [progressLt] at h ⊢
  omega

/-- A packed split is merged by its progress. -/
def packMerge : Deliveries.Merge (ℕ × ℕ × Buffer) where
  le := viewLe
  le_refl := viewLe_refl
  merge a b := if progressLt (a.1, a.2.1) (b.1, b.2.1) then b else a
  merge_of_le {a b} h := by
    rcases h with rfl | h
    · exact ite_self _
    · exact if_pos h
  merge_of_ge {a b} h := by
    rcases h with rfl | h
    · exact ite_self _
    · exact if_neg (progressLt_asymm h)

section Parent

variable {ι : Type} [DecidableEq ι] (workers : ι → LoaderWorker)

/-- No split has two owners. -/
def DisjointSplits : Prop :=
  ∀ w w', w ≠ w' → ∀ split ∈ (workers w).mySplits, split ∉ (workers w').mySplits

open Classical in
/-- The worker that owns a split. -/
noncomputable def workerOf (split : ℕ) : Option ι :=
  if h : ∃ w, split ∈ (workers w).mySplits then some h.choose else none

variable {workers} (hdisjoint : DisjointSplits workers)

include hdisjoint in
omit [DecidableEq ι] in
theorem workerOf_eq_some {w : ι} :
    workerOf workers split = some w ↔ split ∈ (workers w).mySplits := by
  rw [workerOf]
  constructor
  · intro h
    split_ifs at h with hex
    obtain rfl := Option.some.inj h
    exact hex.choose_spec
  · intro h
    have hex : ∃ w, split ∈ (workers w).mySplits := ⟨w, h⟩
    rw [dif_pos hex]
    by_contra hne
    exact hdisjoint _ _ (fun heq => hne (congrArg some heq)) split hex.choose_spec h

omit [DecidableEq ι] in
theorem workerOf_eq_none (h : ∀ w, split ∉ (workers w).mySplits) :
    workerOf workers split = none := by
  rw [workerOf, dif_neg]
  rintro ⟨w, hw⟩
  exact h w hw

/-- The workers of a loader in row mode. -/
noncomputable def rowProducers (tbl : SplitTable α β ε) (numSplits : ℕ) {st₀ : RowState}
    (hs : st₀.Sound) : Deliveries.Producers rowMerge (Fin numSplits) ι where
  init k := (st₀.sampleCount k, st₀.startPos k)
  owner k := workerOf workers k
  snap w m k := (((workers w).rowAfter tbl st₀ m).st.sampleCount k,
    ((workers w).rowAfter tbl st₀ m).st.startPos k)
  snap_zero _ _ := rfl
  mono w k hown _ _ hle :=
    (workers w).rowAfter_mono tbl hs ((workerOf_eq_some hdisjoint).1 hown) hle
  foreign w k hown m := by
    have h := (workers w).rowAfter_foreign tbl hs
      (fun hmem => hown ((workerOf_eq_some hdisjoint).2 hmem)) m
    rw [h.1, h.2]

/-- The workers of a loader in packed mode. -/
noncomputable def packProducers (tbl : SplitTable α (List ℤ) ε) (cfg : PackConfig)
    (st₀ : PackState) : Deliveries.Producers packMerge (Fin cfg.numSplits) ι where
  init k := st₀.view k
  owner k := workerOf workers k
  snap w m k := ((workers w).packAfter tbl cfg st₀ m).st.view k
  snap_zero _ _ := rfl
  mono w _ hown _ _ hle :=
    (workers w).packAfter_mono tbl cfg st₀ ((workerOf_eq_some hdisjoint).1 hown) hle
  foreign w _ hown m := (workers w).packAfter_foreign tbl cfg st₀
    (fun hmem => hown ((workerOf_eq_some hdisjoint).2 hmem)) m

variable (workers)

/-- `_commit_worker_state` of the `m`-th batch of a worker, in row mode. -/
def rowCommit (tbl : SplitTable α β ε) (cfg : Config) (st₀ : RowState) (requireUniform : Bool)
    (st : RowState) (w : ι) (m : ℕ) : Except StateError RowState :=
  st.commitWorkerState cfg (((workers w).rowAfter tbl st₀ m).st.checkpointSnapshot cfg)
    requireUniform

/-- `_commit_worker_state` of the `m`-th batch of a worker, in packed mode. -/
def packCommit (tbl : SplitTable α (List ℤ) ε) (cfg : PackConfig) (st₀ : PackState)
    (st : PackState) (w : ι) (m : ℕ) : Except PackError PackState :=
  st.commitWorkerState cfg (((workers w).packAfter tbl cfg st₀ m).st.checkpointSnapshot cfg)

variable {workers}

theorem Committed.view {cfg : Config} {stWorker st' : RowState} (h : Committed cfg st stWorker st')
    (hwkr : stWorker.Sound) (hlt : split < cfg.numSplits) :
    (st'.sampleCount split, st'.startPos split) =
      rowMerge.merge (st.sampleCount split, st.startPos split)
        (stWorker.sampleCount split, stWorker.startPos split) := by
  have hle := hwkr.sampleCount_le split
  have hs : st'.sampleCount split =
      max (st.sampleCount split) (stWorker.sampleCount split) := by
    simp [RowState.sampleCount, h.samples split hlt]
  have hposn : st'.startPos split = max (st.startPos split) (stWorker.startPos split) := by
    cases hpos : st.resumePositions split with
    | none =>
      simp only [RowState.startPos, h.positions split hlt, hpos, Option.getD_some,
        Option.getD_none] at hle ⊢
      omega
    | some p => simp [RowState.startPos, h.positions split hlt, hpos]
  rw [hs, hposn]
  rfl

theorem packCommit_view (cfg : PackConfig) (st stWorker : PackState) :
    ∃ st', st.commitWorkerState cfg (stWorker.checkpointSnapshot cfg) = .ok st' ∧
      ∀ split < cfg.numSplits,
        st'.view split = packMerge.merge (st.view split) (stWorker.view split) := by
  set state := stWorker.checkpointSnapshot cfg with hs
  have hconfig : state.shuffleSeed = cfg.shuffleSeed ∧ state.numSplits = cfg.numSplits ∧
      state.epoch = cfg.epoch ∧ state.packSequences = cfg.packLen ∧ state.eosId = cfg.eosId ∧
      state.padId = cfg.padId ∧ state.blocksPerEpoch = cfg.blocksPerEpoch :=
    ⟨rfl, rfl, rfl, rfl, rfl, rfl, rfl⟩
  have hlens : state.checkLengths cfg.numSplits = .ok () := by
    simp [PackDict.checkLengths, hs, PackState.checkpointSnapshot]
  refine ⟨_, by
    simp only [PackState.commitWorkerState, hconfig, hlens, ne_eq, not_true_eq_false, if_false,
      bind, Except.bind, pure, pure]
    rfl, fun split hlt => ?_⟩
  have hprog : state.progress split = (stWorker.emitted split, stWorker.consumed split) := by
    simp [PackDict.progress, hs, PackState.checkpointSnapshot, hlt]
  have hbuffers : state.packBuffers split = stWorker.buffers split := rfl
  simp only [PackState.view, PackState.buffer, packMerge, hprog, hbuffers, hlt, true_and,
    decide_eq_true_eq]
  -- all three components follow the same comparison
  split_ifs <;> rfl

/-- **Any deliveries in row mode**: every split is where its owner was. -/
theorem deliver_row (tbl : SplitTable α β ε) (cfg : Config) {st₀ : RowState} (hs : st₀.Sound)
    (requireUniform : Bool) (hdisjoint : DisjointSplits workers) (deliveries : List ι) :
    ∃ st, deliver (rowCommit workers tbl cfg st₀ requireUniform) (fun _ => 0) st₀
        deliveries = .ok st ∧
      (∀ w, ∀ split ∈ (workers w).mySplits, split < cfg.numSplits →
        st.sampleCount split =
          ((workers w).rowAfter tbl st₀ (deliveries.count w)).st.sampleCount split ∧
        st.startPos split =
          ((workers w).rowAfter tbl st₀ (deliveries.count w)).st.startPos split) ∧
      ∀ split < cfg.numSplits, (∀ w, split ∉ (workers w).mySplits) →
        st.sampleCount split = st₀.sampleCount split ∧ st.startPos split = st₀.startPos split := by
  have hcmt : ∀ st w m, ∃ st', rowCommit workers tbl cfg st₀ requireUniform st w m = .ok st' ∧
      ∀ k : Fin cfg.numSplits, (st'.sampleCount k, st'.startPos k) =
        rowMerge.merge (st.sampleCount k, st.startPos k)
          ((rowProducers hdisjoint tbl cfg.numSplits hs).snap w m k) := by
    intro st w m
    obtain ⟨st', hst', hc⟩ := (commitWorkerState_snapshot cfg cfg st
      ((workers w).rowAfter tbl st₀ m).st requireUniform).1 ⟨rfl, rfl, rfl⟩
    have hwkr := (workers w).rowAfter_sound tbl hs m
    exact ⟨st', hst', fun k => hc.view hwkr k.2⟩
  obtain ⟨st, hst, hown, hn⟩ :=
    Deliveries.Producers.deliver_owner hcmt deliveries fun _ => rfl
  exact ⟨st, hst, fun w split hmem hlt =>
      Prod.mk.inj (hown ⟨split, hlt⟩ w ((workerOf_eq_some hdisjoint).2 hmem)),
    fun split hlt hf => Prod.mk.inj (hn ⟨split, hlt⟩ (workerOf_eq_none hf))⟩

/-- **Any deliveries in packed mode**: every split is where its owner was. -/
theorem deliver_pack (tbl : SplitTable α (List ℤ) ε) (cfg : PackConfig) (st₀ : PackState)
    (hdisjoint : DisjointSplits workers) (deliveries : List ι) :
    ∃ st, deliver (packCommit workers tbl cfg st₀) (fun _ => 0) st₀ deliveries =
        .ok st ∧
      (∀ w, ∀ split ∈ (workers w).mySplits, split < cfg.numSplits →
        st.view split =
          ((workers w).packAfter tbl cfg st₀ (deliveries.count w)).st.view split) ∧
      ∀ split < cfg.numSplits, (∀ w, split ∉ (workers w).mySplits) →
        st.view split = st₀.view split := by
  have hcmt : ∀ st w m, ∃ st', packCommit workers tbl cfg st₀ st w m = .ok st' ∧
      ∀ k : Fin cfg.numSplits, st'.view k = packMerge.merge (st.view k)
        ((packProducers hdisjoint tbl cfg st₀).snap w m k) := by
    intro st w m
    obtain ⟨st', hst', hview⟩ := packCommit_view cfg st ((workers w).packAfter tbl cfg st₀ m).st
    exact ⟨st', hst', fun k => hview k k.2⟩
  obtain ⟨st, hst, hown, hn⟩ :=
    Deliveries.Producers.deliver_owner hcmt deliveries fun _ => rfl
  exact ⟨st, hst, fun w split hmem hlt =>
      hown ⟨split, hlt⟩ w ((workerOf_eq_some hdisjoint).2 hmem),
    fun split hlt hf => hn ⟨split, hlt⟩ (workerOf_eq_none hf)⟩

/-- **Consumer-committed checkpoints.**  Workers own disjoint sets of splits, and the parent commits
their batches in any interleaving that keeps the order of each worker (`deliveries` names the
worker of each batch).  Then every split is in the state its owner had after its last delivered
batch, however far the owner has gone since, and a split without an owner is in the state it had at
the start.  In row mode the state of a split is its samples and its positions; in packed mode the
blocks emitted, the position and the partial block. -/
theorem deliver_eq_owner (hdisjoint : DisjointSplits workers) (deliveries : List ι) :
    (∀ (tbl : SplitTable α β ε) (cfg : Config) (requireUniform : Bool) (st₀ : RowState),
      st₀.Reachable tbl →
      ∃ st, deliver (rowCommit workers tbl cfg st₀ requireUniform) (fun _ => 0) st₀
          deliveries = .ok st ∧
        (∀ w, ∀ split ∈ (workers w).mySplits, split < cfg.numSplits →
          st.sampleCount split =
            ((workers w).rowAfter tbl st₀ (deliveries.count w)).st.sampleCount split ∧
          st.startPos split =
            ((workers w).rowAfter tbl st₀ (deliveries.count w)).st.startPos split) ∧
        ∀ split < cfg.numSplits, (∀ w, split ∉ (workers w).mySplits) →
          st.sampleCount split = st₀.sampleCount split ∧
          st.startPos split = st₀.startPos split) ∧
    ∀ (tbl : SplitTable α (List ℤ) ε) (cfg : PackConfig) (st₀ : PackState),
      ∃ st, deliver (packCommit workers tbl cfg st₀) (fun _ => 0) st₀ deliveries =
          .ok st ∧
        (∀ w, ∀ split ∈ (workers w).mySplits, split < cfg.numSplits →
          st.view split =
            ((workers w).packAfter tbl cfg st₀ (deliveries.count w)).st.view split) ∧
        ∀ split < cfg.numSplits, (∀ w, split ∉ (workers w).mySplits) →
          st.view split = st₀.view split :=
  ⟨fun tbl cfg requireUniform _ hreach =>
      deliver_row tbl cfg hreach.sound requireUniform hdisjoint deliveries,
    fun tbl cfg st₀ => deliver_pack tbl cfg st₀ hdisjoint deliveries⟩

end Parent

/-- Two workers with a split each, and batches of two and of one. -/
def demoWorkers : Fin 2 → LoaderWorker
  | 0 => ⟨[0], by simp, fun _ => [], fun _ => 2⟩
  | 1 => ⟨[1], by simp, fun _ => [], fun _ => 1⟩

/-- Two splits of documents, one of them empty and one longer than a block, and a transform that
rejects a document. -/
def demoDocuments : SplitTable (List ℤ) (List ℤ) Unit where
  rows split :=
    if split = 0 then [[1, 2], [-1], [], [3, 4, 5, 6, 7], [8]] else [[9], [10], [11, 12]]
  finalTransform := .ofRow (fun a => if a = [-1] then none else some a) ()
  onTransformError := .skip
  readError _ _ := none
  limits := tightLimits

/-- Blocks of three tokens, three for each split. -/
def demoPackConfig : PackConfig where
  toConfig := demoConfig
  packLen := 3
  eosId := 0
  padId := -1
  blocksPerEpoch := 6
  packLen_pos := by decide
  blocksPerEpoch_pos := by decide
  numSplits_dvd := by decide

theorem deliver_demo : DisjointSplits demoWorkers ∧
    (∃ st, deliver (rowCommit demoWorkers demoDocuments demoPackConfig.toConfig .fresh
        false) (fun _ => 0) .fresh [1, 0, 1] = .ok st ∧
      (st.sampleCount 0, st.startPos 0) = (2, 3) ∧ (st.sampleCount 1, st.startPos 1) = (2, 2)) ∧
    ∃ st, deliver (packCommit demoWorkers demoDocuments demoPackConfig .fresh)
        (fun _ => 0) .fresh [1, 0, 1] = .ok st ∧
      st.view 0 = (2, 4, ⟨[5, 6, 7, 0], []⟩) ∧ st.view 1 = (2, 3, ⟨[0], []⟩) := by
  have hdisjoint : DisjointSplits demoWorkers := by
    intro w w' hne split
    fin_cases w <;> fin_cases w' <;> simp_all [demoWorkers]
  have howners := deliver_eq_owner (α := List ℤ) (β := List ℤ) (ε := Unit) hdisjoint [1, 0, 1]
  obtain ⟨st, hst, hown, -⟩ := howners.1 demoDocuments demoPackConfig.toConfig false .fresh .fresh
  obtain ⟨st', hst', hown', -⟩ := howners.2 demoDocuments demoPackConfig .fresh
  refine ⟨hdisjoint, ⟨st, hst, ?_, ?_⟩, st', hst', ?_, ?_⟩
  · obtain ⟨hsamp, hpos⟩ := hown 0 0 (by decide) (by decide)
    rw [hsamp, hpos]
    decide +kernel
  · obtain ⟨hsamp, hpos⟩ := hown 1 1 (by decide) (by decide)
    rw [hsamp, hpos]
    decide +kernel
  · rw [hown' 0 0 (by decide) (by decide)]
    decide +kernel
  · rw [hown' 1 1 (by decide) (by decide)]
    decide +kernel

end Streaming

end LanceDB
