import Mathlib.Data.BitVec
import Mathlib.Data.Prod.Lex

/-!
# Sampling the partitions of a vector query

A vector query may search a random sample of the partitions of its index.  `try_new` ranks those
that are not empty by a hash of the seed, and takes the lowest ranks.

* `sampleRank` : SplitMix64, whose steps are bijections of the 64-bit words.
* `selectScopes` : the selection.
* `random_sampling_exact` — a random sample has the size asked for, does not depend on the order in
  which the partitions are listed, and grows with its size.
-/

namespace LanceDB.Dedup

open List Function BitVec

/-- A word is determined by its sum with its higher bits: the difference of two words of one sum is
its own shift, hence zero. -/
theorem xorShift_injective {w k : ℕ} (hk : 0 < k) :
    Injective fun x : BitVec w => x ^^^ x >>> k := by
  intro x y (h : x ^^^ x >>> k = y ^^^ y >>> k)
  have hz : x ^^^ y = (x ^^^ y) >>> k := by
    rw [← xor_eq_zero_iff] at h ⊢
    rw [ushiftRight_xor_distrib, ← h]
    ac_rfl
  have hnat := congrArg BitVec.toNat hz
  rw [toNat_ushiftRight, Nat.shiftRight_eq_div_pow] at hnat
  have hz0 : (x ^^^ y).toNat = 0 := by
    by_contra hne
    exact (Nat.div_lt_self (Nat.pos_of_ne_zero hne) (Nat.one_lt_two_pow hk.ne')).ne hnat.symm
  exact BitVec.xor_eq_zero_iff.1 (eq_of_toNat_eq hz0)

/-- `sample_rank`. -/
def sampleRank (seed ordinal : BitVec 64) : BitVec 64 :=
  let value := seed + ordinal + 0x9E3779B97F4A7C15
  let value := (value ^^^ value >>> 30) * 0xBF58476D1CE4E5B9
  let value := (value ^^^ value >>> 27) * 0x94D049BB133111EB
  value ^^^ value >>> 31

theorem sampleRank_injective (seed : BitVec 64) : Injective (sampleRank seed) := by
  -- the factors are odd, so they have inverses
  have hfst : IsUnit (0xBF58476D1CE4E5B9 : BitVec 64) :=
    .of_mul_eq_one 0x96DE1B173F119089 (by decide)
  have hsecond : IsUnit (0x94D049BB133111EB : BitVec 64) :=
    .of_mul_eq_one 0x319642B2D24D8EC3 (by decide)
  intro a b h
  have h := hsecond.mul_left_injective (xorShift_injective (by decide) h)
  have h := hfst.mul_left_injective (xorShift_injective (by decide) h)
  exact add_left_cancel (add_right_cancel (xorShift_injective (by decide) h))

/-! ### The selection -/

/-- `PartitionSelection`. -/
inductive PartitionSelection
  | all
  | first (count : ℕ)
  | random (count : ℕ) (seed : BitVec 64)

/-- `DuplicatePairTask`: a partition of a segment of the index. -/
@[ext] structure Task (S : Type) where
  segmentId : S
  partitionId : BitVec 64
  deriving DecidableEq

variable {S : Type}

/-- The key of the canonical order. -/
def Task.scope (task : Task S) : S ×ₗ ℕ := toLex (task.segmentId, task.partitionId.toNat)

theorem Task.scope_injective : Injective (scope (S := S)) := by
  intro t t' h
  have h : t.segmentId = t'.segmentId ∧ t.partitionId.toNat = t'.partitionId.toNat := by
    simpa [scope] using h
  exact Task.ext h.1 (eq_of_toNat_eq h.2)

/-- `sort_by_key`. -/
def sortByKey {α β : Type} [LinearOrder β] (key : α → β) (l : List α) : List α :=
  l.insertionSort fun a b => key a ≤ key b

variable [LinearOrder S] (partitionSize : Task S → ℕ) (tasks : List (Task S))

/-- The tasks whose partitions are not empty, in the canonical order. -/
def nonempty : List (Task S) := (sortByKey Task.scope tasks).filter (0 < partitionSize ·)

/-- The tasks with their ranks.  The partitions of a single segment are ranked by their own numbers,
those of several segments by their places. -/
def ranked (seed : BitVec 64) : List (BitVec 64 × Task S) :=
  (nonempty partitionSize tasks).zipIdx.map fun (task, ordinal) =>
    (sampleRank seed (if (tasks.map (·.segmentId)).dedup.length = 1 then task.partitionId
      else BitVec.ofNat 64 ordinal), task)

/-- The tasks that `VectorQueryTable::try_new` keeps. -/
def selectScopes : PartitionSelection → Except String (List (Task S))
  | .all => .ok (nonempty partitionSize tasks)
  | .first count =>
    if count = 0 then .error "partition count must be positive"
    else .ok ((nonempty partitionSize tasks).take count)
  | .random count seed =>
    if count = 0 then .error "partition count must be positive"
    else
      let sorted := sortByKey (fun entry => toLex (entry.1.toNat, entry.2.scope))
        (ranked partitionSize tasks seed)
      .ok (sortByKey Task.scope ((sorted.take count).map (·.2)))

variable {tasks} {seed : BitVec 64}

theorem perm_sortByKey {α β : Type} [LinearOrder β] (key : α → β) (l : List α) :
    sortByKey key l ~ l := perm_insertionSort _ _

theorem perm_nonempty : nonempty partitionSize tasks ~ tasks.filter (0 < partitionSize ·) :=
  (perm_sortByKey _ _).filter _

theorem ranked_eq {tasks' : List (Task S)} (h : tasks ~ tasks') :
    ranked partitionSize tasks seed = ranked partitionSize tasks' seed := by
  have : Std.Total fun a b : Task S => a.scope ≤ b.scope := ⟨fun a b => le_total _ _⟩
  have : IsTrans (Task S) fun a b => a.scope ≤ b.scope := ⟨fun a b c => le_trans⟩
  have hsort : sortByKey Task.scope tasks = sortByKey Task.scope tasks' :=
    Perm.eq_of_pairwise (fun a b _ _ hab hba => Task.scope_injective (le_antisymm hab hba))
      (pairwise_insertionSort _ _) (pairwise_insertionSort _ _)
      ((perm_sortByKey _ _).trans (h.trans (perm_sortByKey _ _).symm))
  rw [ranked, ranked, nonempty, nonempty, hsort, (h.map _).dedup.length_eq]

theorem nodup_ranks (hnd : tasks.Nodup) (hlen : tasks.length ≤ 2 ^ 64) :
    ((ranked partitionSize tasks seed).map (·.1)).Nodup := by
  have hp : nonempty partitionSize tasks ~ _ := perm_nonempty partitionSize
  have hle := hp.length_eq ▸ (length_filter_le _ tasks).trans hlen
  rw [Nodup, pairwise_iff_getElem]
  intro i j hi hj hij heq
  simp only [ranked, getElem_map, getElem_zipIdx, length_map, length_zipIdx] at heq hi hj
  have hkey := sampleRank_injective seed heq
  split_ifs at hkey with hone
  · -- the tasks are of one segment
    obtain ⟨s, hs⟩ := length_eq_one_iff.1 hone
    have hsegment : ∀ t ∈ nonempty partitionSize tasks, t.segmentId = s := by
      intro t ht
      have := mem_map_of_mem (f := Task.segmentId) (mem_of_mem_filter (hp.mem_iff.1 ht))
      rwa [← mem_dedup, hs, mem_singleton] at this
    have htask := Task.ext ((hsegment _ (getElem_mem hi)).trans (hsegment _ (getElem_mem hj)).symm)
      hkey
    exact hij.ne ((hp.nodup_iff.2 (hnd.filter _)).getElem_inj_iff.1 htask)
  · have hnat := congrArg BitVec.toNat hkey
    simp only [toNat_ofNat] at hnat
    omega

/-- **A random sample** has the size asked for, is the same for every order in which the tasks are
listed, and is part of the next larger sample of its seed. -/
theorem random_sampling_exact (hnodup : tasks.Nodup) (seed : BitVec 64) {count : ℕ}
    (hcount : 1 ≤ count) :
    Injective (sampleRank seed) ∧
      (tasks.length ≤ 2 ^ 64 → ((ranked partitionSize tasks seed).map (·.1)).Nodup) ∧
      ∃ sample, selectScopes partitionSize tasks (.random count seed) = .ok sample ∧
        sample.Nodup ∧ (∀ t ∈ sample, t ∈ tasks ∧ 0 < partitionSize t) ∧
        sample.length = min count (tasks.countP (0 < partitionSize ·)) ∧
        (∀ tasks' : List (Task S), tasks' ~ tasks →
          selectScopes partitionSize tasks' (.random count seed) = .ok sample) ∧
        ∃ larger, selectScopes partitionSize tasks (.random (count + 1) seed) = .ok larger ∧
          sample ⊆ larger := by
  set sorted := sortByKey (fun entry => toLex (entry.1.toNat, entry.2.scope))
    (ranked partitionSize tasks seed)
  have hselect : ∀ n, n ≠ 0 → selectScopes partitionSize tasks (.random n seed) =
      .ok (sortByKey Task.scope ((sorted.take n).map (·.2))) := fun n hn => if_neg hn
  have hp : sorted.map (·.2) ~ tasks.filter (0 < partitionSize ·) := by
    have hsnd : (ranked partitionSize tasks seed).map (·.2) = nonempty partitionSize tasks := by
      rw [ranked, map_map]
      exact zipIdx_map_fst ..
    exact ((perm_sortByKey _ _).map _).trans (hsnd ▸ perm_nonempty partitionSize)
  have hsample : ∀ n, sortByKey Task.scope ((sorted.take n).map (·.2)) ~
      (sorted.map (·.2)).take n := fun n => map_take ▸ perm_sortByKey _ _
  have hz : count ≠ 0 := by omega
  refine ⟨sampleRank_injective seed, nodup_ranks _ hnodup, _, hselect _ hz, ?_, fun t ht => ?_,
    ?_, fun tasks' h => ?_, _, hselect _ count.succ_ne_zero, ?_⟩
  · exact (hsample _).nodup_iff.2 ((hp.nodup_iff.2 (hnodup.filter _)).sublist (take_sublist ..))
  · simpa using hp.mem_iff.1 (mem_of_mem_take ((hsample _).mem_iff.1 ht))
  · rw [(hsample _).length_eq, length_take, hp.length_eq, countP_eq_length_filter]
  · rw [selectScopes, if_neg hz, ranked_eq _ h]
  · intro t ht
    exact (hsample _).mem_iff.2 (take_subset_take_left _ count.le_succ ((hsample _).mem_iff.1 ht))

theorem random_sampling_demo : ∃ sample, selectScopes Task.segmentId
    [⟨1, 5⟩, ⟨0, 5⟩, ⟨1, 4⟩] (.random 1 7) = .ok sample ∧ sample.length = 1 := by
  have hnd : ([⟨1, 5⟩, ⟨0, 5⟩, ⟨1, 4⟩] : List (Task ℕ)).Nodup := by decide
  obtain ⟨-, -, sample, hselect, -, -, hlen, -⟩ :=
    random_sampling_exact Task.segmentId hnd 7 le_rfl
  exact ⟨sample, hselect, hlen⟩

end LanceDB.Dedup
