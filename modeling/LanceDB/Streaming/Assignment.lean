import Mathlib.Algebra.Order.Ring.Nat
import Mathlib.Data.List.Basic

/-!
# Assignment of splits to ranks and workers

A streaming dataset is partitioned into `num_splits` splits.  Each rank owns a contiguous block of
them, and each loader worker of a rank a contiguous sub-block of the rank's.

* `Config.rankSplits` : `_rank_splits`.
* `Config.resolveMySplits` : `_resolve_my_splits`, with its `ValueError`.
* `Config.existsUnique_rank` — every split is owned by exactly one rank of a run.
* `Config.resolveMySplits_worker` — the block of a worker; `Config.worker_disjoint` — no split is
  owned by two workers of a rank.
* `flatMap_blocks` — adjacent blocks are one block.
-/

namespace LanceDB

open List

namespace Streaming

/-- The part of a dataset's configuration that decides which splits it reads and that a
checkpoint is checked against. -/
structure Config where
  numSplits : ℕ
  worldSize : ℕ
  rank : ℕ
  shuffleSeed : ℤ
  epoch : ℕ
  worldSize_dvd : worldSize ∣ numSplits
  rank_lt : rank < worldSize

/-- Two splits, read by one rank. -/
def demoConfig : Config := ⟨2, 1, 0, 7, 0, by decide, Nat.one_pos⟩

/-- `worker_info`: the worker an iterator runs in. -/
structure WorkerInfo where
  id : ℕ
  numWorkers : ℕ

/-- The number of rank splits is not divisible by the number of workers. -/
inductive AssignmentError
  | notDivisible (rankSplits numWorkers : ℕ)
  deriving DecidableEq

namespace Config

variable (cfg : Config)
variable {mySplits : List ℕ} {s : ℕ}

/-- `splits_per_rank`. -/
def splitsPerRank : ℕ := cfg.numSplits / cfg.worldSize

/-- `_rank_splits`: the contiguous block of splits of this rank. -/
def rankSplits : List ℕ := List.range' (cfg.rank * cfg.splitsPerRank) cfg.splitsPerRank

/-- `_resolve_my_splits`. -/
def resolveMySplits : Option WorkerInfo → Except AssignmentError (List ℕ)
  | none => .ok cfg.rankSplits
  | some worker =>
    let nRankSplits := cfg.rankSplits.length
    if nRankSplits % worker.numWorkers ≠ 0 then
      .error (.notDivisible nRankSplits worker.numWorkers)
    else
      let splitsPerWorker := nRankSplits / worker.numWorkers
      let start := worker.id * splitsPerWorker
      .ok ((cfg.rankSplits.drop start).take splitsPerWorker)

theorem length_rankSplits : cfg.rankSplits.length = cfg.splitsPerRank := by
  simp [rankSplits]

theorem worldSize_pos : 0 < cfg.worldSize := Nat.zero_lt_of_lt cfg.rank_lt

theorem splitsPerRank_mul : cfg.splitsPerRank * cfg.worldSize = cfg.numSplits :=
  Nat.div_mul_cancel cfg.worldSize_dvd

theorem splitsPerRank_pos (hs : s < cfg.numSplits) : 0 < cfg.splitsPerRank := by
  have hmul := cfg.splitsPerRank_mul
  rcases Nat.eq_zero_or_pos cfg.splitsPerRank with h | h
  · rw [h, Nat.zero_mul] at hmul
    omega
  · exact h

theorem rankSplits_lt (hs : s ∈ cfg.rankSplits) : s < cfg.numSplits := by
  simp only [rankSplits, mem_range'_1] at hs
  have hle : (cfg.rank + 1) * cfg.splitsPerRank ≤ cfg.worldSize * cfg.splitsPerRank :=
    Nat.mul_le_mul_right _ cfg.rank_lt
  have := cfg.splitsPerRank_mul
  rw [Nat.add_mul, Nat.one_mul, Nat.mul_comm cfg.worldSize] at hle
  omega

theorem resolveMySplits_sublist {worker : Option WorkerInfo}
    (h : cfg.resolveMySplits worker = .ok mySplits) : mySplits.Sublist cfg.rankSplits := by
  cases worker with
  | none =>
    obtain rfl : cfg.rankSplits = mySplits := by simpa [resolveMySplits] using h
    exact List.Sublist.refl _
  | some worker =>
    simp only [resolveMySplits] at h
    split_ifs at h
    cases h
    exact (take_sublist _ _).trans (drop_sublist _ _)

/-- **Owned splits** are existing splits, listed in increasing order. -/
theorem resolveMySplits_sorted {worker : Option WorkerInfo}
    (h : cfg.resolveMySplits worker = .ok mySplits) :
    mySplits.Pairwise (· < ·) ∧ ∀ s ∈ mySplits, s < cfg.numSplits := by
  have hsub := cfg.resolveMySplits_sublist h
  refine ⟨List.Pairwise.sublist hsub ?_, fun s hs => cfg.rankSplits_lt (hsub.subset hs)⟩
  exact pairwise_lt_range'

/-! ### The ranks of a run -/

/-- The configuration of a rank of the same run. -/
def withRank (r : Fin cfg.worldSize) : Config where
  numSplits := cfg.numSplits
  worldSize := cfg.worldSize
  rank := r
  shuffleSeed := cfg.shuffleSeed
  epoch := cfg.epoch
  worldSize_dvd := cfg.worldSize_dvd
  rank_lt := r.2

theorem mem_rankSplits : s ∈ cfg.rankSplits ↔
    cfg.rank * cfg.splitsPerRank ≤ s ∧ s < (cfg.rank + 1) * cfg.splitsPerRank := by
  rw [rankSplits, mem_range'_1, Nat.add_mul, Nat.one_mul]

/-- **Every split is owned by exactly one rank.** -/
theorem existsUnique_rank (hs : s < cfg.numSplits) : ∃! r, s ∈ (cfg.withRank r).rankSplits := by
  have hmul := cfg.splitsPerRank_mul
  have hpos := cfg.splitsPerRank_pos hs
  have hmem : ∀ r, s ∈ (cfg.withRank r).rankSplits ↔ s / cfg.splitsPerRank = r := by
    intro r
    rw [mem_rankSplits, Nat.div_eq_iff hpos]
    show r * cfg.splitsPerRank ≤ s ∧ s < (r + 1) * cfg.splitsPerRank ↔ _
    rw [Nat.add_mul, Nat.one_mul]
    omega
  have hlt : s / cfg.splitsPerRank < cfg.worldSize := by
    rw [Nat.div_lt_iff_lt_mul hpos, Nat.mul_comm, hmul]
    exact hs
  refine ⟨⟨_, hlt⟩, (hmem _).2 rfl, fun r hr => ?_⟩
  exact Fin.ext ((hmem r).1 hr).symm

/-! ### The workers of a rank -/

theorem resolveMySplits_worker {numWorkers : ℕ} (hdvd : numWorkers ∣ cfg.splitsPerRank)
    {id : ℕ} (hid : id < numWorkers) :
    cfg.resolveMySplits (some ⟨id, numWorkers⟩) =
      .ok (List.range' (cfg.rank * cfg.splitsPerRank + id * (cfg.splitsPerRank / numWorkers))
        (cfg.splitsPerRank / numWorkers)) := by
  have hmod : ¬ cfg.splitsPerRank % numWorkers ≠ 0 := by
    rw [not_not]
    exact Nat.mod_eq_zero_of_dvd hdvd
  have hle : (id + 1) * (cfg.splitsPerRank / numWorkers) ≤ cfg.splitsPerRank := by
    calc (id + 1) * (cfg.splitsPerRank / numWorkers)
        ≤ numWorkers * (cfg.splitsPerRank / numWorkers) := Nat.mul_le_mul_right _ hid
      _ = cfg.splitsPerRank := Nat.mul_div_cancel' hdvd
  rw [Nat.add_mul, Nat.one_mul] at hle
  simp only [resolveMySplits, length_rankSplits, if_neg hmod]
  rw [rankSplits, drop_range', Nat.mul_one, take_range'_of_length_ge (by omega)]

theorem dvd_of_resolveMySplits {worker : WorkerInfo}
    (h : cfg.resolveMySplits (some worker) = .ok mySplits) :
    worker.numWorkers ∣ cfg.splitsPerRank := by
  simp only [resolveMySplits, length_rankSplits] at h
  split_ifs at h with hmod
  exact Nat.dvd_of_mod_eq_zero (not_not.1 hmod)

/-- **No split is owned by two workers.** -/
theorem worker_disjoint {numWorkers id id' : ℕ} (hid : id < numWorkers) (hid' : id' < numWorkers)
    (hne : id ≠ id') {mySplits' : List ℕ}
    (h : cfg.resolveMySplits (some ⟨id, numWorkers⟩) = .ok mySplits)
    (h' : cfg.resolveMySplits (some ⟨id', numWorkers⟩) = .ok mySplits') :
    ∀ s ∈ mySplits, s ∉ mySplits' := by
  have hdvd := cfg.dvd_of_resolveMySplits h
  rw [cfg.resolveMySplits_worker hdvd hid, Except.ok.injEq] at h
  rw [cfg.resolveMySplits_worker hdvd hid', Except.ok.injEq] at h'
  subst h h'
  set n := cfg.splitsPerRank / numWorkers
  intro s hs hs'
  rw [mem_range'_1] at hs hs'
  rcases Nat.lt_or_gt_of_ne hne with hlt | hlt
  · have : (id + 1) * n ≤ id' * n := Nat.mul_le_mul_right _ hlt
    rw [Nat.add_mul, Nat.one_mul] at this
    omega
  · have : (id' + 1) * n ≤ id * n := Nat.mul_le_mul_right _ hlt
    rw [Nat.add_mul, Nat.one_mul] at this
    omega

end Config

theorem flatMap_blocks (start n k : ℕ) :
    (List.range k).flatMap (fun i => List.range' (start + i * n) n) =
      List.range' start (k * n) := by
  induction k with
  | zero => simp
  | succ k ih =>
    rw [range_succ, flatMap_append, ih, flatMap_singleton, Nat.succ_mul,
      range'_append_1]

end Streaming

end LanceDB
