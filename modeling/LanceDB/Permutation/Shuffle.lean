import LanceDB.Base.Clumps

/-!
# The shuffler

`Shuffler` puts the rows of a stream in a random order, clump by clump.  Few rows are shuffled in
memory; otherwise the clumps are distributed to temporary files at random, and each file is
shuffled on its own.

* `Rng` : what the random number generator is asked.
* `shuffleBatch`, `distribute`, `Shuffler.shuffle` : the functions of the source.
* `Shuffler.distribute_aligned` — the files hold clumps.
* `Shuffler.shuffle_perm` — the rows that come out are those that went in.
* `Shuffler.shuffle_keeps_clumps` — every clump comes out in one piece.
-/

namespace LanceDB

open List Clumps

namespace Permutation

/-- The errors of the data loader; a panic aborts the call. -/
inductive LoaderError
  | invalidInput (message : String)
  | notSupported (message : String)
  | runtime (message : String)
  | panic (message : String)
  /-- The call does not return. -/
  | diverges
  deriving DecidableEq

/-- The answers of the random number generator, numbered by the calls. -/
structure Rng where
  /-- `indices.shuffle(rng)` in call `i`, on `n` indices. -/
  shuffle : ℕ → (n : ℕ) → Equiv.Perm (Fin n)
  /-- `rng.random_range(0..n)` for clump `c` of batch `k`. -/
  randomRange : (k c n : ℕ) → ℕ
  randomRange_lt : ∀ k c n, 0 < n → randomRange k c n < n

/-- `ShufflerConfig`. -/
structure Shuffler where
  maxRowsPerFile : ℕ
  clumpSize : Option ℕ

variable {β : Type}

/-- `shuffle_batch`. -/
def shuffleBatch (σ : (n : ℕ) → Equiv.Perm (Fin n)) (clumpSize : ℕ) (batch : List β) :
    Except LoaderError (List β) :=
  if clumpSize = 0 then
    .error (.panic "attempt to divide by zero")
  else
    .ok (((List.finRange (count clumpSize batch)).map (σ _)).flatMap
      fun c : Fin (count clumpSize batch) => clump clumpSize batch c)

namespace Shuffler

variable (sh : Shuffler) (rng : Rng)

/-- `in_memory_shuffle`. -/
def inMemoryShuffle (data : List (List β)) : Except LoaderError (List (List β)) := do
  let shuffled ← shuffleBatch (rng.shuffle 0) (sh.clumpSize.getD 1) data.flatten
  return [shuffled]

/-- The rows of batch `k` that go to a file. -/
def partition (numFiles clumpSize k : ℕ) (batch : List β) (file : ℕ) : List β :=
  ((List.range (count clumpSize batch)).filter fun c =>
    rng.randomRange k c numFiles = file).flatMap (clump clumpSize batch)

/-- The first pass of `do_shuffle`, from batch `k` on: clumps are distributed to files at random. -/
def distribute (numFiles clumpSize numRows : ℕ) :
    (k numRowsSeen : ℕ) → List (List β) → (ℕ → List β) → Except LoaderError (ℕ → List β)
  | _, _, [], files => .ok files
  | k, numRowsSeen, batch :: data, files =>
    let numRowsSeen := numRowsSeen + batch.length
    if numRows < numRowsSeen then
      .error (.runtime s!"Expected {numRows} rows but saw {numRowsSeen} rows")
    else if numRowsSeen ≠ numRows ∧ ¬ clumpSize ∣ batch.length then
      .error (.runtime <| s!"Expected batch size ({batch.length}) to be divisible by clump " ++
        s!"size ({clumpSize})")
    else
      distribute numFiles clumpSize numRows (k + 1) numRowsSeen data fun file =>
        files file ++ partition rng numFiles clumpSize k batch file

/-- `do_shuffle`. -/
def doShuffle (data : List (List β)) (numRows : ℕ) : Except LoaderError (List (List β)) := do
  if sh.maxRowsPerFile = 0 then
    throw (.panic "attempt to divide by zero")
  let numFiles := (numRows + sh.maxRowsPerFile - 1) / sh.maxRowsPerFile
  let clumpSize := sh.clumpSize.getD 1
  if clumpSize = 0 then
    throw (.invalidInput "clump size must be greater than 0")
  let files ← distribute rng numFiles clumpSize numRows 0 0 data fun _ => []
  (List.range numFiles).mapM fun file =>
    shuffleBatch (rng.shuffle file) clumpSize (files file)

/-- `shuffle`. -/
def shuffle (data : List (List β)) (numRows : ℕ) : Except LoaderError (List (List β)) :=
  if numRows < sh.maxRowsPerFile then sh.inMemoryShuffle rng data else sh.doShuffle rng data numRows

end Shuffler

/-! ### Clumps stay together -/

namespace Shuffler

variable {sh : Shuffler} {rng : Rng}
variable {data out : List (List β)} {clumpSize numFiles : ℕ}
variable {numRows : ℕ}

theorem shuffleBatch_reorders {σ : (n : ℕ) → Equiv.Perm (Fin n)} {batch shuffled : List β}
    (h : shuffleBatch σ clumpSize batch = .ok shuffled) :
    0 < clumpSize ∧ Clumps.Reorders clumpSize batch shuffled := by
  rw [shuffleBatch] at h
  split_ifs at h with hz
  obtain rfl := Except.ok.inj h
  exact ⟨Nat.pos_of_ne_zero hz, reorders_perm clumpSize batch (σ _)⟩

/-- The clumps of batch `k` that go to a file. -/
def partitionClumps (rng : Rng) (numFiles clumpSize k : ℕ) (batch : List β) (file : ℕ) :
    List (List β) :=
  ((List.range (count clumpSize batch)).filter fun c =>
    rng.randomRange k c numFiles = file).map (clump clumpSize batch)

theorem partitionClumps_sublist (numFiles clumpSize k : ℕ) (batch : List β) (file : ℕ) :
    (partitionClumps rng numFiles clumpSize k batch file).Sublist
      (clumps clumpSize batch) :=
  filter_sublist.map _

theorem partitionClumps_perm (hfs : 0 < numFiles) (clumpSize k : ℕ) (batch : List β) :
    ((List.range numFiles).flatMap (partitionClumps rng numFiles clumpSize k batch)).Perm
      (clumps clumpSize batch) := by
  have hlt : ∀ c ∈ List.range (count clumpSize batch),
      rng.randomRange k c numFiles < numFiles := fun c _ => rng.randomRange_lt k c numFiles hfs
  have hdist := distributed_perm hlt fun c => [clump clumpSize batch c]
  simp only [← map_eq_flatMap] at hdist
  exact hdist

/-- Once all rows have been seen, only empty batches may follow. -/
theorem distribute_done {k : ℕ} {files files' : ℕ → List β}
    (h : distribute rng numFiles clumpSize numRows k numRows data files = .ok files') :
    files' = files ∧ data.flatten = [] := by
  induction data generalizing k files with
  | nil => exact ⟨(Except.ok.inj h).symm, rfl⟩
  | cons batch data ih =>
    rw [distribute] at h
    split_ifs at h with hmore _
    have hbat : batch = [] := length_eq_zero_iff.1 (by omega)
    subst hbat
    obtain ⟨hfs, hdata⟩ := ih h
    refine ⟨?_, by rw [flatten_cons, hdata, nil_append]⟩
    rw [hfs]
    funext file
    simp [partition, clump]

/-- **The first pass** writes clumps: what a file holds are aligned blocks, and the blocks of all
files are the clumps of the input.  Until the last row is seen all clumps are full. -/
theorem distribute_aligned (hfs : 0 < numFiles) (hs : 0 < clumpSize) {k seen : ℕ}
    {files' : ℕ → List β} (blocks : ℕ → List (List β))
    (hf : ∀ file, ∀ block ∈ blocks file, block.length = clumpSize)
    (h : distribute rng numFiles clumpSize numRows k seen data (fun file => (blocks file).flatten) =
    .ok files') :
    ∃ blocks' : ℕ → List (List β), (∀ file, files' file = (blocks' file).flatten) ∧
      (∀ file, Clumps.Aligned clumpSize (blocks' file)) ∧
      ((List.range numFiles).flatMap blocks').Perm
        ((List.range numFiles).flatMap blocks ++ clumps clumpSize data.flatten) := by
  induction data generalizing k seen blocks with
  | nil =>
    obtain rfl := Except.ok.inj h
    refine ⟨blocks, fun _ => rfl, fun file => .of_full (hf file), ?_⟩
    rw [flatten_nil, clumps_nil hs, append_nil]
  | cons batch data ih =>
    rw [distribute] at h
    split_ifs at h with hmore hrunt
    -- the blocks of the files after this batch
    have hflat : (fun file => (blocks file).flatten ++
        partition rng numFiles clumpSize k batch file) = fun file =>
          (blocks file ++ partitionClumps rng numFiles clumpSize k batch file).flatten := by
      funext file
      rw [flatten_append, partitionClumps, partition, flatMap_def]
    have hp : ((List.range numFiles).flatMap fun file =>
        blocks file ++ partitionClumps rng numFiles clumpSize k batch file).Perm
        ((List.range numFiles).flatMap blocks ++ clumps clumpSize batch) :=
      (flatMap_append_perm _ _ _).symm.trans
        ((partitionClumps_perm hfs clumpSize k batch).append_left _)
    rw [hflat] at h
    by_cases hl : seen + batch.length = numRows
    · rw [hl] at h
      obtain ⟨rfl, hdata⟩ := distribute_done h
      refine ⟨_, fun _ => rfl, fun file => ?_, ?_⟩
      · exact .append (hf file)
          ((aligned_clumps hs batch).sublist (partitionClumps_sublist ..))
      · rwa [flatten_cons, hdata, append_nil]
    · have hdvd : clumpSize ∣ batch.length := by
        by_contra hnot
        exact hrunt ⟨hl, hnot⟩
      obtain ⟨blocks', hfs', halgn, hp'⟩ := ih _ (fun file block hblk => by
        rcases mem_append.1 hblk with hold | hnew
        · exact hf file block hold
        · exact length_of_mem_clumps_of_dvd hs hdvd
            ((partitionClumps_sublist ..).subset hnew)) h
      refine ⟨blocks', hfs', halgn, hp'.trans ?_⟩
      rw [flatten_cons, clumps_append_of_dvd hs _ hdvd, ← append_assoc]
      exact hp.append_right _

theorem flatten_of_mapM {σ : ℕ → (n : ℕ) → Equiv.Perm (Fin n)} {blocks : ℕ → List (List β)}
    (halgn : ∀ file, Clumps.Aligned clumpSize (blocks file)) {numbers : List ℕ}
    (h : (numbers.mapM fun file => shuffleBatch (σ file) clumpSize (blocks file).flatten) =
    .ok out) :
    ∃ order : List (List β), order.Perm (numbers.flatMap blocks) ∧
      out.flatten = order.flatten := by
  rw [mapM_eq_ok_iff] at h
  induction h with
  | nil => exact ⟨[], .refl _, rfl⟩
  | @cons file shuffled numbers out hfile _ ih =>
    obtain ⟨order, hp, hflat⟩ := ih
    obtain ⟨hs, here, hhere, rfl⟩ := shuffleBatch_reorders hfile
    rw [(halgn file).clumps_flatten hs] at hhere
    refine ⟨here ++ order, ?_, ?_⟩
    · rw [flatMap_cons]
      exact hhere.append hp
    · rw [flatten_cons, hflat, flatten_append]

theorem doShuffle_reorders (hr : sh.maxRowsPerFile ≤ numRows)
    (h : sh.doShuffle rng data numRows = .ok out) :
    0 < sh.clumpSize.getD 1 ∧
      Clumps.Reorders (sh.clumpSize.getD 1) data.flatten out.flatten := by
  rw [doShuffle] at h
  by_cases hmax : sh.maxRowsPerFile = 0
  · rw [if_pos hmax] at h
    cases h
  by_cases hcl : sh.clumpSize.getD 1 = 0
  · rw [if_neg hmax, if_pos hcl] at h
    cases h
  rw [if_neg hmax, if_neg hcl] at h
  obtain ⟨files, hdist, hout⟩ := Except.bind_eq_ok.1 h
  have hfs : 0 < (numRows + sh.maxRowsPerFile - 1) / sh.maxRowsPerFile :=
    Nat.div_pos (by omega) (Nat.pos_of_ne_zero hmax)
  have hs := Nat.pos_of_ne_zero hcl
  obtain ⟨blocks, hblks, halgn, hp⟩ :=
    distribute_aligned hfs hs (fun _ => []) (by simp) hdist
  obtain rfl : files = fun file => (blocks file).flatten := funext hblks
  obtain ⟨order, hord, hflat⟩ := flatten_of_mapM halgn hout
  refine ⟨hs, order, hord.trans (hp.trans ?_), hflat⟩
  rw [flatMap_eq_nil_iff.2 fun _ _ => rfl, nil_append]

theorem shuffle_reorders (h : sh.shuffle rng data numRows = .ok out) :
    0 < sh.clumpSize.getD 1 ∧
      Clumps.Reorders (sh.clumpSize.getD 1) data.flatten out.flatten := by
  rw [shuffle] at h
  split_ifs at h with hlt
  · obtain ⟨shuffled, hbat, hout⟩ := Except.bind_eq_ok.1 h
    obtain rfl := Except.ok.inj hout
    rw [flatten_singleton]
    exact shuffleBatch_reorders hbat
  · exact doShuffle_reorders (by omega) h

/-- **Shuffling** loses no row and repeats none. -/
theorem shuffle_perm (h : sh.shuffle rng data numRows = .ok out) : out.flatten.Perm data.flatten :=
  (shuffle_reorders h).2.perm (shuffle_reorders h).1

/-- **Shuffling is a clump-preserving permutation**, in memory and by files: the rows that come out
are those that went in, each clump of consecutive rows of the input comes out in one piece, and
the output is nothing but these clumps in some order. -/
theorem shuffle_keeps_clumps {data out : List (List β)} {numRows : ℕ}
    (h : sh.shuffle rng data numRows = .ok out) :
    out.flatten.Perm data.flatten ∧
    (∀ c < count (sh.clumpSize.getD 1) data.flatten,
      clump (sh.clumpSize.getD 1) data.flatten c <:+: out.flatten) ∧
    Clumps.Reorders (sh.clumpSize.getD 1) data.flatten out.flatten := by
  have hreord := (shuffle_reorders h).2
  exact ⟨shuffle_perm h, fun c hc => hreord.isInfix hc, hreord⟩

/-- Every file is reversed, and the clumps of a batch go to the files in turn. -/
def demoRng : Rng := ⟨fun _ _ => Fin.revPerm, fun k c n => (k + c) % n, fun _ _ _ => Nat.mod_lt _⟩

theorem shuffle_keeps_clumps_demo :
    Shuffler.shuffle ⟨3, some 2⟩ demoRng [[1, 2, 3, 4], [], [5]] 5 = .ok [[5, 1, 2], [3, 4]] ∧
      [3, 4] <:+: [5, 1, 2, 3, 4] ∧ [5, 1, 2, 3, 4].Perm [1, 2, 3, 4, 5] := by
  have hshuf : Shuffler.shuffle ⟨3, some 2⟩ demoRng [[1, 2, 3, 4], [], [5]] 5 =
      .ok [[5, 1, 2], [3, 4]] := by decide
  have hkeeps := shuffle_keeps_clumps hshuf
  exact ⟨hshuf, hkeeps.2.1 1 (by decide), hkeeps.1⟩

end Shuffler

end Permutation

end LanceDB
