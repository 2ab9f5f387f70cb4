import LanceDB.Streaming.Elastic
import LanceDB.Streaming.PackingRefinement

/-!
# Packed runs across checkpoints and topologies

A packed epoch is run in segments: each has its own topology, ends after full cycles with a
checkpoint of every rank, and the merged checkpoint starts the next one.  A checkpoint keeps what is
known about a split, and the blocks of a split follow from that alone (`Lawful`), so the segments
emit the blocks of one stream.

* `mergePackDicts_view` — the merged checkpoint takes every split from its owner.
* `Segment`, `packRun` : an epoch in segments.
* `packRun_eq` — the blocks of every split.
* `packRun_law` — their tokens and document numbers.
-/

namespace LanceDB

open List

namespace Streaming

variable {α ε : Type}

/-! ### Merging packed checkpoints -/

section Merge

variable {cfg : PackConfig} {split : ℕ}

theorem progress_snapshot (st : PackState) (hlt : split < cfg.numSplits) :
    (st.checkpointSnapshot cfg).progress split = (st.emitted split, st.consumed split) := by
  simp [PackDict.progress, PackState.checkpointSnapshot, hlt]

theorem ownerOf_spec (split : ℕ) (first : PackDict) (states : List PackDict) :
    ownerOf split first states ∈ first :: states ∧ ∀ state ∈ first :: states,
      ¬ progressLt ((ownerOf split first states).progress split) (state.progress split) := by
  induction states generalizing first with
  | nil => simp [ownerOf, progressLt]
  | cons state states ih =>
    -- the better of the first two goes on
    rw [show ownerOf split first (state :: states) = ownerOf split
      (if progressLt (first.progress split) (state.progress split) then state else first) states
      from rfl]
    split_ifs with hbetter
    · obtain ⟨hmem, hmax⟩ := ih state
      refine ⟨mem_cons_of_mem _ hmem, forall_mem_cons.2 ⟨?_, hmax⟩⟩
      have := hmax state mem_cons_self
      simp only [progressLt] at this hbetter ⊢
      omega
    · obtain ⟨hmem, hmax⟩ := ih first
      obtain ⟨hfst, hr⟩ := forall_mem_cons.1 hmax
      refine ⟨cons_subset_cons _ (subset_cons_self _ _) hmem,
        forall_mem_cons.2 ⟨hfst, forall_mem_cons.2 ⟨?_, hr⟩⟩⟩
      simp only [progressLt] at hfst hbetter ⊢
      omega

/-- The checkpoint that takes every split from its owner. -/
def mergedPackDict (first : PackDict) (states : List PackDict) : PackDict where
  shuffleSeed := first.shuffleSeed
  numSplits := first.numSplits
  epoch := first.epoch
  packSequences := first.packSequences
  eosId := first.eosId
  padId := first.padId
  blocksPerEpoch := first.blocksPerEpoch
  samplesConsumedPerSplit := (List.range first.numSplits).map fun split =>
    ((ownerOf split first states).progress split).2
  blocksEmittedPerSplit := (List.range first.numSplits).map fun split =>
    ((ownerOf split first states).progress split).1
  packBuffers split :=
    if split < first.numSplits then (ownerOf split first states).packBuffers split else none

/-- **The merged checkpoint** says of every split what its owner says, if the other states are not
ahead of the owner and all owners have emitted the same number of blocks. -/
theorem mergePackDicts_view {states : List PackState} (hne : states ≠ [])
    {V : ℕ → ℕ × ℕ × Buffer} {e : ℕ}
    (hown : ∀ split < cfg.numSplits, ∃ x ∈ states, x.view split = V split)
    (hle : ∀ split < cfg.numSplits, ∀ x ∈ states, viewLe (x.view split) (V split))
    (hlvl : ∀ split < cfg.numSplits, (V split).1 = e) :
    ∃ merged st, mergePackDicts (states.map (·.checkpointSnapshot cfg)) = .ok merged ∧
      loadPackDict cfg merged = .ok st ∧ ∀ split < cfg.numSplits, st.view split = V split := by
  obtain ⟨first, rest, rfl⟩ := exists_cons_of_ne_nil hne
  set dict := first.checkpointSnapshot cfg with hdict
  set dicts := rest.map (·.checkpointSnapshot cfg) with hdicts
  have hall : dict :: dicts = (first :: rest).map (·.checkpointSnapshot cfg) := rfl
  have howner : ∀ split < cfg.numSplits, ∃ x : PackState,
      ownerOf split dict dicts = x.checkpointSnapshot cfg ∧ x.view split = V split := by
    intro split hlt
    obtain ⟨hmem, hmax⟩ := ownerOf_spec split dict dicts
    obtain ⟨x, hx, howner⟩ := mem_map.1 (hall ▸ hmem)
    refine ⟨x, howner.symm, (hle split hlt x hx).resolve_right fun hbh => ?_⟩
    -- the owner itself has more progress than `x`
    obtain ⟨y, hy, hview⟩ := hown split hlt
    refine hmax (y.checkpointSnapshot cfg) (hall ▸ mem_map_of_mem hy) ?_
    rw [← hview] at hbh
    rwa [← howner, progress_snapshot x hlt, progress_snapshot y hlt]
  have hprog : ∀ split < cfg.numSplits,
      (ownerOf split dict dicts).progress split = ((V split).1, (V split).2.1) := by
    intro split hlt
    obtain ⟨x, hx, hview⟩ := howner split hlt
    rw [hx, progress_snapshot x hlt, ← hview]
    rfl
  have hsame : dicts.forM dict.sameRun = .ok () := by
    refine forM_eq_ok.2 fun d hd => ?_
    obtain ⟨x, -, rfl⟩ := mem_map.1 hd
    simp [PackDict.sameRun, hdict, PackState.checkpointSnapshot]
  have hlens : (dict :: dicts).forM (PackDict.checkLengths dict.numSplits) = .ok () := by
    refine forM_eq_ok.2 fun d hd => ?_
    obtain ⟨x, -, rfl⟩ := mem_map.1 (hall ▸ hd)
    simp [PackDict.checkLengths, hdict, PackState.checkpointSnapshot]
  have hs : ∀ blocks ∈ (List.range dict.numSplits).map fun split =>
      ((ownerOf split dict dicts).progress split).1, blocks = e := by
    intro blocks hblks
    obtain ⟨split, hspl, rfl⟩ := mem_map.1 hblks
    have hlt : split < cfg.numSplits := mem_range.1 hspl
    rw [hprog split hlt]
    exact hlvl split hlt
  have hmrg : mergePackDicts ((first :: rest).map (·.checkpointSnapshot cfg)) =
      .ok (mergedPackDict dict dicts) := by
    rw [map_cons, mergePackDicts, hsame, hlens]
    exact if_pos fun blocks hblks =>
      (hs blocks hblks).trans (hs _ (headD_mem hblks)).symm
  set merged := mergedPackDict dict dicts
  have hload : loadPackDict cfg merged = .ok ⟨(merged.samplesConsumedPerSplit.getD · 0),
      (merged.blocksEmittedPerSplit.getD · 0), merged.packBuffers⟩ := by
    simp [loadPackDict, merged, mergedPackDict, hdict, PackState.checkpointSnapshot]
  refine ⟨_, _, hmrg, hload, fun split hlt => ?_⟩
  obtain ⟨x, hx, hview⟩ := howner split hlt
  have hlt' : split < dict.numSplits := hlt
  have hbuffer : merged.packBuffers split = x.buffers split := by
    simp only [merged, mergedPackDict, if_pos hlt', hx, PackState.checkpointSnapshot]
  rw [← hview]
  simp only [PackState.view, PackState.buffer, hbuffer]
  simp [merged, mergedPackDict, hlt', hprog split hlt, ← hview, PackState.view]

end Merge

/-! ### Complete cycles of an iterator -/

/-- All splits have emitted `e` blocks, and their buffers fit their documents. -/
def LevelAt (cfg : PackConfig) (tbl : SplitTable α (List ℤ) ε) (e : ℕ) (st : PackState) : Prop :=
  ∀ split < cfg.numSplits, st.emitted split = e ∧ Lawful cfg tbl split (st.view split)

theorem levelAt_fresh (cfg : PackConfig) (tbl : SplitTable α (List ℤ) ε) :
    LevelAt cfg tbl 0 .fresh :=
  fun split _ => ⟨rfl, lawful_fresh cfg tbl split⟩

/-- A dataset that started from `st` and has moved the splits `own` to `e` blocks. -/
structure Arrived (cfg : PackConfig) (tbl : SplitTable α (List ℤ) ε) (st : PackState)
    (own : List ℕ) (e : ℕ) (st' : PackState) : Prop where
  level : ∀ split ∈ own, st'.emitted split = e ∧ Lawful cfg tbl split (st'.view split)
  grown : ∀ split ∈ own, viewLe (st.view split) (st'.view split)
  frame : ∀ split < cfg.numSplits, split ∉ own → st'.view split = st.view split

/-- The level after `steps` more cycles: a split does not emit more than its budget. -/
def PackConfig.levelAfter (cfg : PackConfig) (e steps : ℕ) : ℕ := min (e + steps) cfg.blocksPerSplit

theorem eq_of_cycles {n e i m : ℕ} (hi : i < n) (h : e * n + i = m * n) : e = m ∧ i = 0 := by
  have hmod := congrArg (· % n) h
  simp only [Nat.mul_add_mod', Nat.mod_eq_of_lt hi, Nat.mul_mod_left] at hmod
  subst hmod
  exact ⟨Nat.eq_of_mul_eq_mul_right (Nat.zero_lt_of_lt hi) (by simpa using h), rfl⟩

theorem min_cycles (cfg : PackConfig) (e steps n : ℕ) :
    min (e * n + steps * n) (cfg.blocksPerSplit * n) = cfg.levelAfter e steps * n := by
  rw [← Nat.add_mul, PackConfig.levelAfter, Nat.mul_min_mul_right]

section Reader

variable {cfg : PackConfig} {tbl : SplitTable α (List ℤ) ε} {mySplits : List ℕ}
  {schedule : ℕ → List Completion} {st : PackState} {e : ℕ} {it : PackIter α}

theorem PackReader.Sim.arrived (h : (PackReader.make tbl cfg mySplits schedule st).Sim tbl e 0 it)
    (hadv : (PackReader.make tbl cfg mySplits schedule st).Advanced st
      (fun i => st.view (mySplits.getD i 0)) it) : Arrived cfg tbl st mySplits e it.st := by
  rw [h.committed]
  refine ⟨fun split hspl => ?_, fun split hspl => ?_, fun split _ hfo => ?_⟩
  · obtain ⟨i, hi, rfl⟩ := exists_split_eq hspl
    exact ⟨(h.emitted i hi).trans (if_neg (Nat.not_lt_zero i)), h.lawful i hi⟩
  · obtain ⟨i, hi, rfl⟩ := exists_split_eq hspl
    exact hadv.reached i hi
  · exact hadv.frame split (split_ne hfo)

variable (hfine : tbl.Unfailing) (hne : mySplits ≠ []) (he : e ≤ cfg.blocksPerSplit)
  (hst : ∀ split ∈ mySplits, st.emitted split = e ∧ Lawful cfg tbl split (st.view split))
include hfine hne he hst

/-- **Complete cycles of a generator**: the blocks it emits, and the state after them. -/
theorem PackReader.take_cycles (hsort : Increasing mySplits.length (mySplits.getD · 0))
    (schedule : ℕ → List Completion) (steps : ℕ) :
    let rd := PackReader.make tbl cfg mySplits schedule st
    ∃ it, rd.take (steps * mySplits.length) (rd.start st) =
        .ok ((List.range' (e * mySplits.length)
          ((cfg.levelAfter e steps - e) * mySplits.length)).map (rd.blockNo tbl)) it ∧
      Arrived cfg tbl st mySplits (cfg.levelAfter e steps) it.st := by
  intro rd
  obtain ⟨hunf, hsim⟩ := start_sim hfine cfg hne schedule he hst
  obtain ⟨it, e', i', hit, hsim', hend⟩ :=
    take_sim hunf hsort (steps * mySplits.length) hsim
  have hend' : e' * mySplits.length + i' = cfg.levelAfter e steps * mySplits.length := by
    rw [← min_cycles]
    exact hend
  obtain ⟨rfl, rfl⟩ := eq_of_cycles hsim'.lt hend'
  obtain ⟨hadv, hsus⟩ := start_progress tbl cfg mySplits schedule st
  refine ⟨it, ?_, hsim'.arrived (take_progress hsort _ ⟨hadv, rfl⟩ hsus hit).1.1⟩
  have hcnt : min (steps * mySplits.length)
      (cfg.blocksPerSplit * mySplits.length - (e * mySplits.length + 0)) =
        (cfg.levelAfter e steps - e) * mySplits.length := by
    rw [Nat.sub_mul, ← min_cycles]
    omega
  rw [← hcnt]
  exact hit

omit hne hst in
/-- A worker after some batches has emitted as many blocks. -/
theorem LoaderWorker.packAfter_sim {w : LoaderWorker} (hne : w.mySplits ≠ [])
    (hst : ∀ split ∈ w.mySplits, st.emitted split = e ∧ Lawful cfg tbl split (st.view split))
    (m : ℕ) : ∃ e' i', (w.packReader tbl cfg st).Sim tbl e' i' (w.packAfter tbl cfg st m) ∧
      e' * w.mySplits.length + i' = min (e * w.mySplits.length + w.delivered m)
        (cfg.blocksPerSplit * w.mySplits.length) := by
  obtain ⟨hunf, hsim⟩ := PackReader.start_sim hfine cfg hne w.schedule he hst
  induction m with
  | zero =>
    refine ⟨e, 0, hsim, ?_⟩
    have hbud := Nat.mul_le_mul_right w.mySplits.length he
    simp only [LoaderWorker.delivered, Finset.range_zero, Finset.sum_empty]
    omega
  | succ m ih =>
    obtain ⟨e₁, i₁, hsim₁, hat⟩ := ih
    obtain ⟨it, e', i', hit, hsim', hend⟩ :=
      PackReader.take_sim hunf w.increasing (w.batchSize m) hsim₁
    have hn : w.packAfter tbl cfg st (m + 1) = it := by
      rw [packAfter]
      exact hit ▸ rfl
    refine ⟨e', i', hn ▸ hsim', hend.trans ?_⟩
    rw [LoaderWorker.delivered, Finset.sum_range_succ]
    show min (e₁ * w.mySplits.length + i₁ + _) (cfg.blocksPerSplit * w.mySplits.length) = _
    rw [hat, LoaderWorker.delivered]
    omega

omit hne hst in
/-- **Complete cycles of a worker**: its state when all their blocks have been delivered. -/
theorem LoaderWorker.packAfter_arrived {w : LoaderWorker} (hne : w.mySplits ≠ [])
    (hst : ∀ split ∈ w.mySplits, st.emitted split = e ∧ Lawful cfg tbl split (st.view split))
    {batches steps : ℕ} (hdeliv : w.delivered batches = steps * w.mySplits.length) :
    Arrived cfg tbl st w.mySplits (cfg.levelAfter e steps) (w.packAfter tbl cfg st batches).st := by
  obtain ⟨e', i', hsim, hend⟩ := LoaderWorker.packAfter_sim hfine he hne hst batches
  rw [hdeliv, min_cycles] at hend
  obtain ⟨rfl, rfl⟩ := eq_of_cycles hsim.lt hend
  exact hsim.arrived (w.packAfter_advanced tbl cfg st batches).1

end Reader

/-! ### Segments of an epoch -/

/-- The packed configuration of a rank. -/
def Topology.packConfig (cfg : PackConfig) (t : Topology cfg.numSplits) (r : Fin t.worldSize) :
    PackConfig where
  toConfig := t.config cfg.shuffleSeed cfg.epoch r
  packLen := cfg.packLen
  eosId := cfg.eosId
  padId := cfg.padId
  blocksPerEpoch := cfg.blocksPerEpoch
  packLen_pos := cfg.packLen_pos
  blocksPerEpoch_pos := cfg.blocksPerEpoch_pos
  numSplits_dvd := cfg.numSplits_dvd

theorem lawful_packConfig {cfg : PackConfig} {t : Topology cfg.numSplits} {r : Fin t.worldSize}
    {tbl : SplitTable α (List ℤ) ε} {split : ℕ} {v : ℕ × ℕ × Buffer} :
    Lawful (t.packConfig cfg r) tbl split v ↔ Lawful cfg tbl split v :=
  ⟨fun h => ⟨h.window, h.le⟩, fun h => ⟨h.window, h.le⟩⟩

/-- A part of an epoch that is run on one topology, for a number of complete cycles. -/
structure Segment (numSplits : ℕ) where
  topology : Topology numSplits
  execution : topology.Execution
  steps : ℕ
  complete : execution.Complete steps

/-- Whoever writes the checkpoint of a rank has all its splits.  A dataset that stands for one of
several workers does not, and its `state_dict` refuses. -/
def Segment.Checkpointable {numSplits : ℕ} (seg : Segment numSplits) : Prop :=
  seg.topology.loader = true ∨ seg.topology.numWorkers = 1

/-- The exceptions of a segment. -/
inductive PackRunError (ε : Type)
  | open (e : OpenError)
  | failure (e : PackFailure ε)
  | state (e : PackError)

/-- The state of a dataset before it is iterated: as constructed, or loaded. -/
def initialPackState (cfg : PackConfig) : Option PackDict → Except PackError PackState
  | none => .ok .fresh
  | some state => loadPackDict cfg state

namespace Segment

variable (tbl : SplitTable α (List ℤ) ε) (cfg : PackConfig) (seg : Segment cfg.numSplits)
  (state : Option PackDict)

/-- The blocks an iterator emits, and the state of its dataset after them. -/
def iterate (r : Fin seg.topology.worldSize) (w : Fin seg.topology.numWorkers) :
    Except (PackRunError ε) (List Block × PackState) := do
  let st ← (initialPackState (seg.topology.packConfig cfg r) state).mapError .state
  let (rd, it) ← (PackReader.open tbl (seg.topology.packConfig cfg r) (seg.topology.workerInfo w)
    (seg.execution.schedule r w) st).mapError .open
  match rd.take (seg.steps * seg.topology.splitsPerWorker) it with
  | .ok blocks it => return (blocks, it.st)
  | .error e _ => .error (.failure e)

/-- The places of the iterators. -/
def places : List (Fin seg.topology.worldSize × Fin seg.topology.numWorkers) :=
  List.finRange seg.topology.worldSize ×ˢ List.finRange seg.topology.numWorkers

variable {cfg} in
theorem mem_places (seg : Segment cfg.numSplits) (r : Fin seg.topology.worldSize)
    (w : Fin seg.topology.numWorkers) : (r, w) ∈ seg.places :=
  mem_product.2 ⟨mem_finRange r, mem_finRange w⟩

/-- What the iterators emit, with the splits of each. -/
def outputs : Except (PackRunError ε) (List (List ℕ × List Block)) :=
  seg.places.mapM fun (r, w) => do
    let (blocks, _) ← seg.iterate tbl cfg state r w
    return (seg.topology.mySplits r w, blocks)

/-- The state of a rank with a loader, after the deliveries. -/
def rankState (r : Fin seg.topology.worldSize) : Except (PackRunError ε) PackState := do
  let st ← (initialPackState (seg.topology.packConfig cfg r) state).mapError .state
  (Deliveries.deliver
    (packCommit (seg.execution.workers r) tbl (seg.topology.packConfig cfg r) st)
    (fun _ => 0) st (seg.execution.deliveries r)).mapError .state

/-- The checkpoints that are written at the end of a segment. -/
def states : Except (PackRunError ε) (List PackDict) :=
  if seg.topology.loader then
    (List.finRange seg.topology.worldSize).mapM fun r => do
      let st ← seg.rankState tbl cfg state r
      (st.stateDict (seg.topology.packConfig cfg r)).mapError .state
  else
    seg.places.mapM fun (r, w) => do
      let (_, st) ← seg.iterate tbl cfg state r w
      (st.stateDict (seg.topology.packConfig cfg r)).mapError .state

/-- The merged checkpoint. -/
def checkpoint : Except (PackRunError ε) PackDict := do
  (mergePackDicts (← seg.states tbl cfg state)).mapError .state

end Segment

/-- The blocks of a split among those of an iterator, which serves its splits in turn. -/
def blocksOf (mySplits : List ℕ) (blocks : List Block) (split : ℕ) : List Block :=
  (List.range blocks.length).filterMap fun p =>
    if mySplits.getD (p % mySplits.length) 0 = split then blocks[p]? else none

/-- Block number `y` of an iterator, which serves its splits in turn. -/
def Segment.blockNo (tbl : SplitTable α (List ℤ) ε) {cfg : PackConfig}
    (seg : Segment cfg.numSplits) (r : Fin seg.topology.worldSize) (w : Fin seg.topology.numWorkers)
    (y : ℕ) : Block :=
  blockAt cfg
    (tbl.documents ((seg.topology.mySplits r w).getD (y % seg.topology.splitsPerWorker) 0))
    (y / seg.topology.splitsPerWorker)

/-- An epoch in segments: the blocks emitted for every split.  The checkpoint at the end of a
segment starts the next one. -/
def packRun (tbl : SplitTable α (List ℤ) ε) (cfg : PackConfig) :
    List (Segment cfg.numSplits) → Option PackDict → Except (PackRunError ε) (ℕ → List Block)
  | [], _ => .ok fun _ => []
  | seg :: rest, state => do
    let out ← seg.outputs tbl cfg state
    let emitted := fun split => out.flatMap fun (mySplits, blocks) => blocksOf mySplits blocks split
    if rest.isEmpty then
      return emitted
    let later ← packRun tbl cfg rest (some (← seg.checkpoint tbl cfg state))
    return fun split => emitted split ++ later split

/-! ### One segment -/

namespace Topology

variable {cfg : PackConfig} (t : Topology cfg.numSplits)

theorem splitsPerWorker_pos : 0 < t.splitsPerWorker := by
  have hspls : 0 < cfg.numSplits := Nat.pos_of_dvd_of_pos cfg.numSplits_dvd cfg.blocksPerEpoch_pos
  rw [← t.splitsPerWorker_mul] at hspls
  exact Nat.pos_of_mul_pos_left hspls

theorem mySplits_ne_nil (r : Fin t.worldSize) (w : Fin t.numWorkers) : t.mySplits r w ≠ [] := by
  rw [← length_pos_iff, length_mySplits]
  exact t.splitsPerWorker_pos

theorem nodup_mySplits (r : Fin t.worldSize) (w : Fin t.numWorkers) : (t.mySplits r w).Nodup :=
  nodup_range'

theorem mySplits_increasing (r : Fin t.worldSize) (w : Fin t.numWorkers) :
    Increasing (t.mySplits r w).length ((t.mySplits r w).getD · 0) :=
  increasing_of_sorted pairwise_lt_range'

end Topology

section Arrived

variable {tbl : SplitTable α (List ℤ) ε} {cfg : PackConfig} {st : PackState} {e : ℕ}

theorem Arrived.stateDict {own : List ℕ} {st' : PackState} (h : Arrived cfg tbl st own e st')
    {cfg' : PackConfig} (hown : ∀ split ∈ cfg'.rankSplits, split ∈ own) :
    st'.stateDict cfg' = .ok (st'.checkpointSnapshot cfg') := by
  refine if_pos fun split hspl => ?_
  rw [(h.level split (hown split hspl)).1, (h.level _ (hown _ (headD_mem hspl))).1]

/-- Checkpoints of datasets that own all splits between them merge to a state in which all splits
are at their level. -/
theorem merge_arrived {ι : Type} {xs : List ι} {own : ι → List ℕ} {after : ι → PackState}
    (harr : ∀ x, Arrived cfg tbl st (own x) e (after x))
    (hcover : ∀ split < cfg.numSplits, ∃ x ∈ xs, split ∈ own x)
    (huq : ∀ split x y, split ∈ own x → split ∈ own y → x = y) (hne : xs ≠ []) :
    ∃ merged st', mergePackDicts (xs.map fun x => (after x).checkpointSnapshot cfg) = .ok merged ∧
      initialPackState cfg (some merged) = .ok st' ∧ LevelAt cfg tbl e st' := by
  have : Nonempty ι := ⟨xs.head hne⟩
  choose! owner howner hown using hcover
  have hview : ∀ split < cfg.numSplits, ∃ x ∈ xs.map after,
      x.view split = (after (owner split)).view split := fun split hlt =>
    ⟨_, mem_map.2 ⟨owner split, howner split hlt, rfl⟩, rfl⟩
  have hle : ∀ split < cfg.numSplits, ∀ x ∈ xs.map after,
      viewLe (x.view split) ((after (owner split)).view split) := by
    rintro split hlt x hx
    obtain ⟨y, -, rfl⟩ := mem_map.1 hx
    by_cases hy : split ∈ own y
    · rw [huq split y (owner split) hy (hown split hlt)]
      exact viewLe_refl _
    · -- a dataset that does not own the split has it where it was at the start
      rw [(harr y).frame split hlt hy]
      exact (harr _).grown split (hown split hlt)
  have hlvl : ∀ split < cfg.numSplits, ((after (owner split)).view split).1 = e :=
    fun split hlt => ((harr _).level split (hown split hlt)).1
  obtain ⟨merged, st', hmrg, hl, hview'⟩ :=
    mergePackDicts_view (by simpa using hne) hview hle hlvl
  refine ⟨merged, st', ?_, hl, fun split hlt => ?_⟩
  · rwa [map_map] at hmrg
  · rw [hview' split hlt]
    exact ⟨(congrArg Prod.fst (hview' split hlt)).trans (hlvl split hlt),
      ((harr _).level split (hown split hlt)).2⟩

end Arrived

section Segment

variable {tbl : SplitTable α (List ℤ) ε} {cfg : PackConfig} (seg : Segment cfg.numSplits)
  {state : Option PackDict} {st : PackState} {e : ℕ} (hfine : tbl.Unfailing)
  (hinit : initialPackState cfg state = .ok st) (he : e ≤ cfg.blocksPerSplit)
  (hst : LevelAt cfg tbl e st)
include hfine hinit he hst

theorem Segment.iterate_eq (r : Fin seg.topology.worldSize) (w : Fin seg.topology.numWorkers) :
    ∃ st', seg.iterate tbl cfg state r w =
        .ok ((List.range' (e * seg.topology.splitsPerWorker)
          ((cfg.levelAfter e seg.steps - e) * seg.topology.splitsPerWorker)).map
            (Segment.blockNo tbl seg r w), st') ∧
      Arrived cfg tbl st (seg.topology.mySplits r w) (cfg.levelAfter e seg.steps) st' := by
  have hspls : ∀ split ∈ seg.topology.mySplits r w, st.emitted split = e ∧
      Lawful (seg.topology.packConfig cfg r) tbl split (st.view split) := fun split hspl =>
    (hst split (seg.topology.mySplits_lt hspl)).imp_right lawful_packConfig.2
  have hasg : (seg.topology.packConfig cfg r).resolveMySplits (seg.topology.workerInfo w) =
      .ok (seg.topology.mySplits r w) :=
    seg.topology.resolveMySplits_eq cfg.shuffleSeed cfg.epoch r w
  have he' : e ≤ (seg.topology.packConfig cfg r).blocksPerSplit := he
  have hopen := PackReader.open_eq hasg (seg.execution.schedule r w)
    fun split hspl => (hspls split hspl).2
  obtain ⟨it, hit, harr⟩ := PackReader.take_cycles hfine (seg.topology.mySplits_ne_nil r w) he'
    hspls (seg.topology.mySplits_increasing r w) (seg.execution.schedule r w) seg.steps
  rw [seg.topology.length_mySplits] at hit
  refine ⟨it.st, ?_, fun split hspl => ?_, harr.grown, harr.frame⟩
  · have hinit' : initialPackState (seg.topology.packConfig cfg r) state = .ok st := hinit
    have hblk : (PackReader.make tbl (seg.topology.packConfig cfg r) (seg.topology.mySplits r w)
        (seg.execution.schedule r w) st).blockNo tbl = Segment.blockNo tbl seg r w := by
      funext y
      rw [PackReader.blockNo, Segment.blockNo, ← seg.topology.length_mySplits r w]
      rfl
    simp only [Segment.iterate, hinit', hopen, hit, hblk, Except.mapError, bind, Except.bind]
    rfl
  · exact (harr.level split hspl).imp_right lawful_packConfig.1

theorem Segment.outputs_eq : seg.outputs tbl cfg state = .ok (seg.places.map fun x =>
    (seg.topology.mySplits x.1 x.2, (List.range' (e * seg.topology.splitsPerWorker)
      ((cfg.levelAfter e seg.steps - e) * seg.topology.splitsPerWorker)).map
        (Segment.blockNo tbl seg x.1 x.2))) := by
  refine mapM_eq_ok fun x _ => ?_
  obtain ⟨st', hst', -⟩ := seg.iterate_eq hfine hinit he hst x.1 x.2
  simp only [hst', bind, Except.bind, pure, Except.pure]

theorem Segment.rankState_eq (hldr : seg.topology.loader = true)
    (r : Fin seg.topology.worldSize) :
    ∃ st', seg.rankState tbl cfg state r = .ok st' ∧
      Arrived cfg tbl st (seg.topology.packConfig cfg r).rankSplits
        (cfg.levelAfter e seg.steps) st' := by
  have hdisj : DisjointSplits (seg.execution.workers r) := fun w w' hne split h h' =>
    hne (seg.topology.owner_unique h h').2
  obtain ⟨st', hst', hown, hn⟩ := deliver_pack tbl (seg.topology.packConfig cfg r) st hdisj
    (seg.execution.deliveries r)
  -- every worker has delivered the blocks of the cycles
  have harr : ∀ w, Arrived (seg.topology.packConfig cfg r) tbl st (seg.topology.mySplits r w)
      (cfg.levelAfter e seg.steps) ((seg.execution.workers r w).packAfter tbl
        (seg.topology.packConfig cfg r) st ((seg.execution.deliveries r).count w)).st := by
    intro w
    have he' : e ≤ (seg.topology.packConfig cfg r).blocksPerSplit := he
    have hdeliv := seg.complete hldr r w
    rw [← seg.topology.length_mySplits r w] at hdeliv
    exact LoaderWorker.packAfter_arrived hfine he' (seg.topology.mySplits_ne_nil r w)
      (fun split hspl => (hst split (seg.topology.mySplits_lt hspl)).imp_right
        lawful_packConfig.2) hdeliv
  refine ⟨st', ?_, fun split hspl => ?_, fun split hspl => ?_, fun split hlt hfo => ?_⟩
  · have hinit' : initialPackState (seg.topology.packConfig cfg r) state = .ok st := hinit
    simp only [Segment.rankState, hinit', hst', Except.mapError, bind, Except.bind]
  · obtain ⟨w, hw⟩ := seg.topology.mem_rankSplits.1 hspl
    have hview := hown w split hw (seg.topology.mySplits_lt hw)
    obtain ⟨hemit, hlawful⟩ := (harr w).level split hw
    exact ⟨(congrArg Prod.fst hview).trans hemit, lawful_packConfig.1 (hview ▸ hlawful)⟩
  · obtain ⟨w, hw⟩ := seg.topology.mem_rankSplits.1 hspl
    rw [hown w split hw (seg.topology.mySplits_lt hw)]
    exact (harr w).grown split hw
  · exact hn split hlt fun w hw => hfo (seg.topology.mem_rankSplits.2 ⟨w, hw⟩)

omit hfine hinit he hst in
theorem Segment.checkpoint_of_states {dicts : List PackDict} {merged : PackDict}
    (hsts : seg.states tbl cfg state = .ok dicts) (hmrg : mergePackDicts dicts = .ok merged) :
    seg.checkpoint tbl cfg state = .ok merged := by
  simp only [Segment.checkpoint, hsts, hmrg, bind, Except.bind, Except.mapError]

/-- **The checkpoint of a segment** puts all splits at its level. -/
theorem Segment.checkpoint_eq (hchk : seg.Checkpointable) :
    ∃ merged st', seg.checkpoint tbl cfg state = .ok merged ∧
      initialPackState cfg (some merged) = .ok st' ∧
      LevelAt cfg tbl (cfg.levelAfter e seg.steps) st' := by
  by_cases hldr : seg.topology.loader = true
  · -- a checkpoint for each rank
    choose after haft harr using seg.rankState_eq hfine hinit he hst hldr
    have hcover : ∀ split < cfg.numSplits, ∃ r ∈ List.finRange seg.topology.worldSize,
        split ∈ (seg.topology.packConfig cfg r).rankSplits := by
      intro split hlt
      obtain ⟨r, w, hw⟩ := seg.topology.exists_owner hlt
      exact ⟨r, mem_finRange r, seg.topology.mem_rankSplits.2 ⟨w, hw⟩⟩
    have huq : ∀ split r r', split ∈ (seg.topology.packConfig cfg r).rankSplits →
        split ∈ (seg.topology.packConfig cfg r').rankSplits → r = r' := by
      intro split r r' h h'
      obtain ⟨w, hw⟩ := seg.topology.mem_rankSplits.1 h
      obtain ⟨w', hw'⟩ := seg.topology.mem_rankSplits.1 h'
      exact (seg.topology.owner_unique hw hw').1
    obtain ⟨merged, st', hmrg, hl, hlvl⟩ := merge_arrived harr hcover huq
      (ne_nil_of_mem (mem_finRange ⟨0, seg.topology.worldSize_pos⟩))
    refine ⟨merged, st', seg.checkpoint_of_states ?_ hmrg, hl, hlvl⟩
    rw [Segment.states, if_pos hldr]
    refine mapM_eq_ok fun r _ => ?_
    simp only [haft r, bind, Except.bind, (harr r).stateDict fun _ h => h, Except.mapError]
    rfl
  · -- the only iterator of a rank has all its splits
    have hone : seg.topology.numWorkers = 1 := hchk.resolve_left hldr
    choose after haft harr using seg.iterate_eq hfine hinit he hst
    have hrank : ∀ r w, ∀ split ∈ (seg.topology.packConfig cfg r).rankSplits,
        split ∈ seg.topology.mySplits r w := by
      intro r w split hspl
      obtain ⟨w', hw'⟩ := seg.topology.mem_rankSplits.1 hspl
      obtain rfl : w' = w := Fin.ext (by omega)
      exact hw'
    have hcover : ∀ split < cfg.numSplits, ∃ x ∈ seg.places,
        split ∈ seg.topology.mySplits x.1 x.2 := by
      intro split hlt
      obtain ⟨r, w, hw⟩ := seg.topology.exists_owner hlt
      exact ⟨(r, w), seg.mem_places r w, hw⟩
    have huq : ∀ split (x y : Fin seg.topology.worldSize × Fin seg.topology.numWorkers),
        split ∈ seg.topology.mySplits x.1 x.2 → split ∈ seg.topology.mySplits y.1 y.2 → x = y := by
      intro split x y h h'
      obtain ⟨hr, hw⟩ := seg.topology.owner_unique h h'
      exact Prod.ext hr hw
    obtain ⟨merged, st', hmrg, hl, hlvl⟩ := merge_arrived
      (fun x : Fin seg.topology.worldSize × Fin seg.topology.numWorkers => harr x.1 x.2)
      hcover huq
      (ne_nil_of_mem (seg.mem_places ⟨0, seg.topology.worldSize_pos⟩
        ⟨0, seg.topology.numWorkers_pos⟩))
    refine ⟨merged, st', seg.checkpoint_of_states ?_ hmrg, hl, hlvl⟩
    rw [Segment.states, if_neg hldr]
    refine mapM_eq_ok fun x _ => ?_
    simp only [haft x.1 x.2, bind, Except.bind, (harr x.1 x.2).stateDict (hrank x.1 x.2),
      Except.mapError]
    rfl

end Segment

/-! ### The blocks of a split -/

theorem blocksOf_cycles {mySplits : List ℕ} (hnd : mySplits.Nodup) (hne : mySplits ≠ [])
    (g : ℕ → ℕ → Block) (e m split : ℕ) :
    blocksOf mySplits ((List.range' (e * mySplits.length) (m * mySplits.length)).map fun y =>
        g (mySplits.getD (y % mySplits.length) 0) (y / mySplits.length)) split =
      if split ∈ mySplits then (List.range' e m).map (g split) else [] := by
  set n := mySplits.length with hn
  have hpos : 0 < n := length_pos_iff.2 hne
  have hpl : blocksOf mySplits ((List.range' (e * n) (m * n)).map fun y =>
      g (mySplits.getD (y % n) 0) (y / n)) split =
        (List.range (m * n)).filterMap fun p =>
          if mySplits.getD (p % n) 0 = split then some (g split (e + p / n)) else none := by
    rw [blocksOf, length_map, length_range']
    refine filterMap_congr fun p hp => ?_
    have hget : (List.range' (e * n) (m * n))[p]? = some (e * n + p) := by
      rw [getElem?_range' (mem_range.1 hp), Nat.one_mul]
    rw [← hn]
    split_ifs with hspl
    · rw [getElem?_map, hget, Option.map_some, Nat.mul_add_mod', hspl, Nat.add_comm,
        Nat.add_mul_div_right _ _ hpos, Nat.add_comm]
    · rfl
  -- the cycle that starts at a multiple of `n` has one block of the split, if any
  have hcyc : ∀ x : Block, ((List.range n).filterMap fun i =>
      if mySplits.getD i 0 = split then some x else none) =
        if split ∈ mySplits then [x] else [] := by
    intro x
    have hlist : mySplits = (List.range n).map (mySplits.getD · 0) := by
      refine ext_getElem (by simp [hn]) fun i hi _ => ?_
      simp [getElem?_eq_getElem hi]
    calc ((List.range n).filterMap fun i => if mySplits.getD i 0 = split then some x else none)
        = ((List.range n).map (mySplits.getD · 0)).filterMap
            fun s => if s = split then some x else none := by
          rw [filterMap_map]
          rfl
      _ = mySplits.filterMap fun s => if s = split then some x else none := by rw [← hlist]
      _ = (mySplits.filter (· = split)).map fun _ => x := by
          rw [← filterMap_eq_map, filterMap_filter]
          simp
      _ = if split ∈ mySplits then [x] else [] := by
          rw [filter_eq, map_replicate, hnd.count]
          split_ifs <;> rfl
  rw [hpl]
  clear hpl
  induction m with
  | zero => simp
  | succ m ih =>
    have hl : ((List.range n).filterMap fun i =>
        if mySplits.getD ((m * n + i) % n) 0 = split then some (g split (e + (m * n + i) / n))
          else none) = if split ∈ mySplits then [g split (e + m)] else [] := by
      rw [← hcyc]
      refine filterMap_congr fun i hi => ?_
      have hi' := mem_range.1 hi
      rw [Nat.mul_add_mod', Nat.mod_eq_of_lt hi', Nat.add_comm (m * n),
        Nat.add_mul_div_right _ _ hpos, Nat.div_eq_of_lt hi', Nat.zero_add]
    rw [Nat.succ_mul, range_add, filterMap_append, ih, filterMap_map,
      range'_1_concat]
    simp only [Function.comp_def, hl]
    split_ifs <;> simp

theorem Segment.flatMap_places {cfg : PackConfig} (seg : Segment cfg.numSplits) :
    (seg.places.flatMap fun x => seg.topology.mySplits x.1 x.2) = List.range cfg.numSplits := by
  rw [← seg.topology.flatMap_mySplits, Segment.places]
  show ((List.finRange _).flatMap fun r => (List.finRange _).map (Prod.mk r)).flatMap _ = _
  rw [flatMap_assoc]
  refine flatMap_congr fun r _ => ?_
  rw [flatMap_map]

theorem PackConfig.range'_levels (cfg : PackConfig) {e : ℕ} (he : e ≤ cfg.blocksPerSplit)
    (s t : ℕ) :
    List.range' e (cfg.levelAfter e s - e) ++ List.range' (cfg.levelAfter e s)
      (cfg.levelAfter (cfg.levelAfter e s) t - cfg.levelAfter e s) =
        List.range' e (cfg.levelAfter e (s + t) - e) := by
  have htot : cfg.levelAfter (cfg.levelAfter e s) t = cfg.levelAfter e (s + t) := by
    simp only [levelAfter]
    omega
  have hmono : cfg.levelAfter e s ≤ cfg.levelAfter e (s + t) := by
    simp only [levelAfter]
    omega
  obtain ⟨d, hd⟩ := Nat.exists_eq_add_of_le (show e ≤ cfg.levelAfter e s from
    Nat.le_min.2 ⟨Nat.le_add_right e s, he⟩)
  rw [htot, hd, Nat.add_sub_cancel_left, range'_append_1]
  congr 1
  omega

section Run

variable {tbl : SplitTable α (List ℤ) ε} {cfg : PackConfig} (hfine : tbl.Unfailing)
include hfine

/-- **The blocks of a segment**: the next ones of the stream of every split. -/
theorem Segment.emitted_eq (seg : Segment cfg.numSplits) {state : Option PackDict} {st : PackState}
    {e : ℕ} (hinit : initialPackState cfg state = .ok st) (he : e ≤ cfg.blocksPerSplit)
    (hst : LevelAt cfg tbl e st) :
    ∃ out, seg.outputs tbl cfg state = .ok out ∧ ∀ split < cfg.numSplits,
      (out.flatMap fun x => blocksOf x.1 x.2 split) =
        (List.range' e (cfg.levelAfter e seg.steps - e)).map
          (blockAt cfg (tbl.documents split)) := by
  refine ⟨_, seg.outputs_eq hfine hinit he hst, fun split hlt => ?_⟩
  rw [flatMap_map]
  have hblks : ∀ x : Fin seg.topology.worldSize × Fin seg.topology.numWorkers,
      blocksOf (seg.topology.mySplits x.1 x.2) ((List.range' (e * seg.topology.splitsPerWorker)
        ((cfg.levelAfter e seg.steps - e) * seg.topology.splitsPerWorker)).map
          (Segment.blockNo tbl seg x.1 x.2)) split =
        if split ∈ seg.topology.mySplits x.1 x.2 then
          (List.range' e (cfg.levelAfter e seg.steps - e)).map
            (blockAt cfg (tbl.documents split)) else [] := by
    intro x
    have hcycles := blocksOf_cycles (seg.topology.nodup_mySplits x.1 x.2)
      (seg.topology.mySplits_ne_nil x.1 x.2) (fun split e => blockAt cfg (tbl.documents split) e) e
      (cfg.levelAfter e seg.steps - e) split
    rwa [seg.topology.length_mySplits] at hcycles
  simp only [hblks]
  refine flatMap_ite_mem ?_ _
  rw [seg.flatMap_places]
  exact count_eq_one_of_mem nodup_range (mem_range.2 hlt)

/-- **An epoch in segments** emits the blocks of the stream of every split, up to the budget. -/
theorem packRun_eq {segs : List (Segment cfg.numSplits)}
    (hchk : ∀ seg ∈ segs.dropLast, seg.Checkpointable) {state : Option PackDict} {st : PackState}
    {e : ℕ} (hinit : initialPackState cfg state = .ok st) (he : e ≤ cfg.blocksPerSplit)
    (hst : LevelAt cfg tbl e st) :
    ∃ blocks, packRun tbl cfg segs state = .ok blocks ∧ ∀ split < cfg.numSplits,
      blocks split = (List.range' e (cfg.levelAfter e (segs.map (·.steps)).sum - e)).map
        (blockAt cfg (tbl.documents split)) := by
  induction segs generalizing state st e with
  | nil =>
    refine ⟨fun _ => [], rfl, fun split _ => ?_⟩
    simp [PackConfig.levelAfter]
  | cons seg rest ih =>
    obtain ⟨out, hout, hemit⟩ := seg.emitted_eq hfine hinit he hst
    cases hr : rest with
    | nil =>
      refine ⟨fun split => out.flatMap fun x => blocksOf x.1 x.2 split, ?_, fun split hlt => ?_⟩
      · simp only [packRun, hout, bind, Except.bind]
        rfl
      · simpa using hemit split hlt
    | cons seg' rest' =>
      subst hr
      -- the checkpoint of this segment starts the rest
      obtain ⟨merged, st', hmgd, hinit', hst'⟩ :=
        seg.checkpoint_eq hfine hinit he hst (hchk seg (by simp))
      obtain ⟨later, hlat, hblks⟩ := ih
        (fun s hs => hchk s (by simpa using Or.inr hs)) hinit' (Nat.min_le_right _ _) hst'
      refine ⟨fun split => (out.flatMap fun x => blocksOf x.1 x.2 split) ++ later split, ?_,
        fun split hlt => ?_⟩
      · rw [packRun]
        simp only [hout, hmgd, hlat, bind, Except.bind]
        rfl
      · have hsum : (((seg :: seg' :: rest').map (·.steps)).sum) =
            seg.steps + ((seg' :: rest').map (·.steps)).sum := by
          rw [map_cons, sum_cons]
        show (out.flatMap fun x => blocksOf x.1 x.2 split) ++ later split = _
        rw [hemit split hlt, hblks split hlt, ← map_append, hsum, ← cfg.range'_levels he]
        rfl

/-- **The law of packed blocks.**  Run an epoch in any number of segments, each on a topology of its
own and for complete cycles, with a checkpoint merged and loaded between two segments.  Then the
blocks emitted for a split are as many as the cycles allow, up to the budget of the split.  Their
tokens are the first ones of `doc₁ ++ [eos] ++ doc₂ ++ [eos] ++ …`, padded at the end, and a place
of a block has as document number the documents that start behind the first place of the block, up
to that place. -/
theorem packRun_law {segs : List (Segment cfg.numSplits)}
    (hcheck : ∀ seg ∈ segs.dropLast, seg.Checkpointable) :
    ∃ blocks, packRun tbl cfg segs none = .ok blocks ∧ ∀ split < cfg.numSplits,
      let docs := tbl.documents split
      let count := min (segs.map (·.steps)).sum cfg.blocksPerSplit
      (blocks split).length = count ∧
      (blocks split).flatMap (·.inputIds) = Chunking.padTo (count * cfg.packLen) cfg.padId
        ((Chunking.stream cfg.eosId docs).take (count * cfg.packLen)) ∧
      ∀ (k : ℕ) (block : Block), (blocks split)[k]? = some block → ∀ p < cfg.packLen,
        block.docIds[p]? = some ((Chunking.starts 0 docs).countP fun s =>
          decide (k * cfg.packLen < s ∧ s ≤ k * cfg.packLen + p)) := by
  obtain ⟨blocks, hrun, hblks⟩ := packRun_eq hfine hcheck
    (show initialPackState cfg none = .ok .fresh from rfl) (Nat.zero_le _) (levelAt_fresh cfg tbl)
  refine ⟨blocks, hrun, fun split hlt => ?_⟩
  intro docs count
  have hcnt : cfg.levelAfter 0 (segs.map (·.steps)).sum - 0 = count := by
    simp only [PackConfig.levelAfter, Nat.zero_add, Nat.sub_zero]
    rfl
  have heq : blocks split = (List.range count).map (blockAt cfg docs) := by
    rw [hblks split hlt, hcnt, range_eq_range']
  refine ⟨by rw [heq, length_map, length_range], ?_, fun k block hblk p hp => ?_⟩
  · rw [heq, flatMap_map]
    exact Chunking.flatMap_padTo cfg.packLen count cfg.padId (Chunking.stream cfg.eosId docs)
  · rw [heq, getElem?_map, Option.map_eq_some_iff] at hblk
    obtain ⟨k', hk', rfl⟩ := hblk
    obtain ⟨hk, rfl⟩ := List.getElem?_eq_some_iff.1 hk'
    rw [getElem_range]
    simp [blockAt, hp]

end Run

/-- A cycle on a loader with two workers, then two cycles in one process. -/
def demoSegments : List (Segment demoPackConfig.numSplits) :=
  [⟨⟨1, 2, true, Nat.one_pos, Nat.two_pos, by decide⟩,
      ⟨fun _ _ _ => [], fun _ _ _ => 1, fun _ => [⟨1, Nat.one_lt_two⟩, ⟨0, Nat.two_pos⟩]⟩, 1, by
        intro _ r w
        revert r w
        decide⟩,
    ⟨.single _, ⟨fun _ _ _ => [], fun _ _ _ => 0, fun _ => []⟩, 2, fun h => by cases h⟩]

theorem packRun_demo : demoDocuments.Unfailing ∧
    (∀ seg ∈ demoSegments.dropLast, seg.Checkpointable) ∧
    ∃ blocks, packRun demoDocuments demoPackConfig demoSegments none = .ok blocks ∧
      (blocks 0).flatMap (·.inputIds) = [1, 2, 0, 0, 3, 4, 5, 6, 7] ∧
      (blocks 1).flatMap (·.inputIds) = [9, 0, 10, 0, 11, 12, 0, -1, -1] := by
  have hfine : demoDocuments.Unfailing := ⟨fun _ _ => rfl, fun _ _ _ => rfl⟩
  have hchk : ∀ seg ∈ demoSegments.dropLast, seg.Checkpointable := by
    intro seg hseg
    obtain rfl := mem_singleton.1 hseg
    exact Or.inl rfl
  obtain ⟨blocks, hrun, hblks⟩ := packRun_law hfine hchk
  refine ⟨hfine, hchk, blocks, hrun, ?_, ?_⟩
  · rw [(hblks 0 (by decide)).2.1]
    decide +kernel
  · rw [(hblks 1 (by decide)).2.1]
    decide +kernel

end Streaming

end LanceDB
