import LanceDB.Permutation.Sizes

/-!
# Split configurations that abort a build

A panic is not an error that a caller can handle.  Some split configurations pass `validate` and
panic later, and one panics in `validate` itself.

* `Aborts` : a call that panics, with its rules for sequences of calls.
* `validate_aborts_iff`, `toCounts_of_valid` — the sizes; percentages are calculated in `f64`.
* `Shuffler.shuffle_aborts_iff` — the shuffler.
* `assignRows_nil_aborts_iff`, `assignRows_not_aborts` — the sequential assignment.
* `split_not_aborts_iff` — the result.
-/

namespace LanceDB

open List

namespace Permutation

variable {α β : Type}
variable {sizes : SplitSizes Float}
variable {numRows : ℕ}

/-! ### Calls that panic -/

/-- The call panics. -/
def Aborts (result : Except LoaderError α) : Prop := ∃ message, result = .error (.panic message)

@[simp] theorem aborts_error {e : LoaderError} :
    Aborts (.error e : Except LoaderError α) ↔ ∃ message, e = .panic message := by
  simp [Aborts]

@[simp] theorem not_aborts_ok (a : α) : ¬ Aborts (.ok a) := by
  rintro ⟨message, h⟩
  cases h

theorem aborts_bind {x : Except LoaderError α} {f : α → Except LoaderError β} :
    Aborts (x >>= f) ↔ Aborts x ∨ ∃ a, x = .ok a ∧ Aborts (f a) := by
  cases x with
  | error e =>
    have hbind : (Except.error e >>= f) = .error e := rfl
    simp [Aborts, hbind]
  | ok a =>
    have hbind : (Except.ok a >>= f) = f a := rfl
    simp [hbind]

theorem forM_not_aborts {f : α → Except LoaderError PUnit} {l : List α}
    (h : ∀ a ∈ l, ¬ Aborts (f a)) : ¬ Aborts (l.forM f) := by
  induction l with
  | nil => exact not_aborts_ok _
  | cons a l ih =>
    change ¬ Aborts (f a >>= fun _ => l.forM f)
    rw [aborts_bind, not_or]
    refine ⟨h a mem_cons_self, ?_⟩
    rintro ⟨_, -, hr⟩
    exact ih (fun b hb => h b (mem_cons_of_mem _ hb)) hr

theorem mapM_not_aborts {f : α → Except LoaderError β} {l : List α}
    (h : ∀ a ∈ l, ¬ Aborts (f a)) : ¬ Aborts (l.mapM f) := by
  induction l with
  | nil => exact not_aborts_ok _
  | cons a l ih =>
    rw [mapM_cons, aborts_bind, not_or]
    refine ⟨h a mem_cons_self, ?_⟩
    rintro ⟨b, -, hr⟩
    rw [aborts_bind] at hr
    rcases hr with hr | ⟨bs, -, hr⟩
    · exact ih (fun b hb => h b (mem_cons_of_mem _ hb)) hr
    · exact not_aborts_ok _ hr

/-! ### The sizes -/

/-- The sizes are an empty list. -/
def SplitSizes.NoSplits : SplitSizes Float → Prop
  | .percentages ps => ps = []
  | .counts cs => cs = []
  | .fixed _ => False

/-- The percentages do not sum to about one, and the sizes are so many rows more than the table has
that the excess wraps around to a negative number: no row is dropped. -/
def SplitSizes.Overruns (numRows : ℕ) : SplitSizes Float → Prop
  | .percentages ps => isBasicallyOne numRows ps = false ∧
      numRows + 2 ^ 63 ≤ sumU64 (rounded numRows ps)
  | .counts _ | .fixed _ => False

theorem not_overruns_of_noSplits (h : sizes.NoSplits) : ¬ sizes.Overruns numRows := by
  cases sizes with
  | percentages ps =>
    subst h
    rintro ⟨-, hover⟩
    change numRows + 2 ^ 63 ≤ 0 at hover
    omega
  | counts | fixed => exact id

/-- Only `Fixed(0)` panics in `validate`. -/
theorem validate_aborts_iff : Aborts (sizes.validate numRows) ↔ sizes = .fixed 0 := by
  cases sizes with
  | percentages ps =>
    simp only [reduceCtorEq, iff_false]
    rw [SplitSizes.validate, aborts_bind, not_or]
    refine ⟨forM_not_aborts fun p _ => ?_, ?_⟩
    · split_ifs <;> simp
    · rintro ⟨_, -, h⟩
      split_ifs at h <;> simp at h
  | counts cs =>
    simp only [reduceCtorEq, iff_false]
    rw [SplitSizes.validate]
    split_ifs <;> simp
  | fixed numSplits =>
    rw [SplitSizes.validate, SplitSizes.fixed.injEq]
    split_ifs with hlt hz hdiv
    · simp only [aborts_error, reduceCtorEq, exists_false, false_iff]
      omega
    · simp [hz]
    · simp [hz]
    · simp [hz]

theorem validate_of_noSplits (h : sizes.NoSplits) (numRows : ℕ) :
    sizes.validate numRows = .ok () := by
  cases sizes with
  | percentages ps =>
    subst h
    have hsum : ¬ (1 : Float) < percentageSum [] := by decide +kernel
    rw [SplitSizes.validate, if_neg hsum]
    rfl
  | counts cs =>
    subst h
    rw [SplitSizes.validate, if_neg (by simp [sumU64]), if_neg not_mem_nil]
  | fixed numSplits => exact h.elim

theorem dropExcess_eq_some {counts result : List ℕ} {fuel excess dropIdx : ℕ}
    (h : dropExcess fuel counts excess dropIdx = some result) :
    result.length = counts.length ∧ result.sum + excess = counts.sum := by
  induction fuel generalizing counts excess dropIdx with
  | zero =>
    rw [dropExcess] at h
    split_ifs at h with hz
    cases h
    exact ⟨rfl, by omega⟩
  | succ fuel ih =>
    rw [dropExcess] at h
    by_cases hz : excess = 0
    · rw [if_pos hz] at h
      cases h
      exact ⟨rfl, by omega⟩
    rw [if_neg hz] at h
    by_cases hcnt : 0 < counts.getD dropIdx 0
    · rw [if_pos hcnt] at h
      obtain ⟨hlen, hsum⟩ := ih h
      rw [getD_eq_getElem?_getD] at hcnt
      cases hget : counts[dropIdx]? with
      | none => simp [hget] at hcnt
      | some c =>
        have hmodify := sum_modify (f := (· - 1)) hget
        rw [hget, Option.getD_some] at hcnt
        rw [length_modify] at hlen
        exact ⟨hlen, by omega⟩
    · rw [if_neg hcnt] at h
      exact ih h

theorem addMissing_modEq (missing : ℕ) {counts : List ℕ} {addIdx : ℕ}
    (hidx : addIdx < counts.length) :
    (addMissing missing counts addIdx).length = counts.length ∧
      (addMissing missing counts addIdx).sum % 2 ^ 64 = (counts.sum + missing) % 2 ^ 64 := by
  induction missing generalizing counts addIdx with
  | zero => exact ⟨rfl, rfl⟩
  | succ missing ih =>
    have hsum := sum_modify (f := fun count => (count + 1) % 2 ^ 64) (getElem?_eq_getElem hidx)
    have hlng := length_modify (fun count => (count + 1) % 2 ^ 64) counts addIdx
    have hn : (if addIdx + 1 = counts.length then 0 else addIdx + 1) <
        (counts.modify addIdx fun count => (count + 1) % 2 ^ 64).length := by
      split_ifs <;> omega
    obtain ⟨hlen, htot⟩ := ih hn
    exact ⟨hlen.trans hlng, htot.trans (by omega)⟩

theorem adjustCounts_of_adjusts {isBasicallyOne : Bool} {excess : ℤ} {counts : List ℕ}
    (hne : counts ≠ []) (hadj : 0 < excess ∨ isBasicallyOne = true) :
    adjustCounts isBasicallyOne excess counts = .error .diverges ∨
      ∃ result ≠ [], adjustCounts isBasicallyOne excess counts = .ok result ∧
        (2 ^ 64 : ℤ) ∣ result.sum + excess - counts.sum := by
  have hemp : ¬ counts.isEmpty = true := by simpa using hne
  rw [adjustCounts, if_neg fun h => hemp h.1]
  cases hd : dropExcess (excess.toNat * counts.length) counts excess.toNat 0 with
  | none => exact .inl rfl
  | some dropped =>
    obtain ⟨hlng, hsum⟩ := dropExcess_eq_some hd
    have hpos : 0 < dropped.length := hlng ▸ length_pos_iff.2 hne
    have hdropd : ¬ dropped.isEmpty = true := by simpa using length_pos_iff.1 hpos
    right
    cases isBasicallyOne with
    | false => exact ⟨dropped, length_pos_iff.1 hpos, rfl, 0, by simp at hadj; omega⟩
    | true =>
      obtain ⟨hlen, htot⟩ := addMissing_modEq (-excess).toNat hpos
      refine ⟨addMissing (-excess).toNat dropped 0, length_pos_iff.1 (hlen ▸ hpos), ?_, by omega⟩
      simp only [if_true]
      exact if_neg fun h => hdropd h.1

/-- `to_counts` of valid sizes, where there are splits: the assertion at its end fails exactly when
the excess has wrapped around. -/
theorem toCounts_of_valid (hr : numRows < 2 ^ 64) (hval : sizes.validate numRows = .ok ())
    (hs : ¬ sizes.NoSplits) :
    Aborts (sizes.toCounts numRows) ∧ sizes.Overruns numRows ∨
      ¬ sizes.Overruns numRows ∧ (sizes.toCounts numRows = .error .diverges ∨
        ∃ counts ≠ [], sizes.toCounts numRows = .ok counts) := by
  cases sizes with
  | percentages ps =>
    have hne : rounded numRows ps ≠ [] := fun h => hs (map_eq_nil_iff.1 h)
    have hlt : sumU64 (rounded numRows ps) < 2 ^ 64 := Nat.mod_lt _ (by norm_num)
    have hsum : sumU64 (rounded numRows ps) = (rounded numRows ps).sum % 2 ^ 64 := rfl
    have hmod := Int.bmod_def ((sumU64 (rounded numRows ps) : ℤ) - numRows) (2 ^ 64)
    rw [SplitSizes.toCounts, SplitSizes.Overruns]
    generalize ((sumU64 (rounded numRows ps) : ℤ) - numRows).bmod (2 ^ 64) = excess at hmod ⊢
    by_cases hadj : 0 < excess ∨ isBasicallyOne numRows ps = true
    · refine .inr ⟨fun hover => ?_, ?_⟩
      · rw [hover.1] at hadj
        split_ifs at hmod <;> simp at hadj <;> omega
      · rcases adjustCounts_of_adjusts hne hadj with h | ⟨result, hres, h, hdvd⟩
        · rw [h]
          exact .inl rfl
        · have hle : sumU64 result ≤ numRows := by
            rw [sumU64]
            split_ifs at hmod <;> omega
          rw [h]
          exact .inr ⟨result, hres, if_pos hle⟩
    · rw [not_or, not_lt, Bool.not_eq_true] at hadj
      rw [adjustCounts_of_nonpos hadj.1 fun _ h => (hne h).elim, hadj.2]
      by_cases hle : sumU64 (rounded numRows ps) ≤ numRows
      · exact .inr ⟨fun hover => by omega, .inr ⟨_, hne, if_pos hle⟩⟩
      · refine .inl ⟨⟨_, if_neg hle⟩, rfl, ?_⟩
        split_ifs at hmod <;> omega
  | counts cs =>
    rw [SplitSizes.validate] at hval
    split_ifs at hval with hsum hz
    exact .inr ⟨id, .inr ⟨cs, hs, if_pos (not_lt.1 hsum)⟩⟩
  | fixed numSplits =>
    rw [SplitSizes.validate] at hval
    split_ifs at hval with hlt hz hdiv
    refine .inr ⟨id, .inr ⟨List.replicate numSplits (numRows / numSplits), ?_, ?_⟩⟩
    · rwa [ne_eq, replicate_eq_nil_iff]
    · have hsum : sumU64 (List.replicate numSplits (numRows / numSplits)) ≤ numRows := by
        refine (Nat.mod_le _ _).trans ?_
        rw [sum_replicate, smul_eq_mul]
        exact Nat.mul_div_le numRows numSplits
      rw [SplitSizes.toCounts, if_neg hz]
      exact Except.bind_eq_ok.2 ⟨_, rfl, if_pos hsum⟩

theorem adjustCounts_nil (isBasicallyOne : Bool) (excess : ℤ) :
    adjustCounts isBasicallyOne excess [] = .ok [] ∨
      Aborts (adjustCounts isBasicallyOne excess []) := by
  rcases lt_trichotomy excess 0 with hneg | rfl | hpos
  · rw [adjustCounts, if_neg (by omega), Int.toNat_of_nonpos hneg.le]
    cases isBasicallyOne with
    | false => exact .inl rfl
    | true =>
      change _ ∨ Aborts (if _ ∧ excess < 0 then _ else _)
      rw [if_pos ⟨rfl, hneg⟩]
      exact .inr ⟨_, rfl⟩
  · cases isBasicallyOne <;> exact .inl rfl
  · exact .inr ⟨_, if_pos ⟨rfl, hpos⟩⟩

theorem toCounts_of_noSplits (h : sizes.NoSplits) :
    sizes.toCounts numRows = .ok [] ∨ Aborts (sizes.toCounts numRows) ∧ 0 < numRows := by
  cases sizes with
  | percentages ps =>
    subst h
    rcases Nat.eq_zero_or_pos numRows with rfl | hpos
    · exact .inl rfl
    · rw [SplitSizes.toCounts]
      rcases adjustCounts_nil (isBasicallyOne numRows ([] : List Float))
        (((sumU64 [] : ℤ) - numRows).bmod (2 ^ 64)) with h | h
      · exact .inl (Except.bind_eq_ok.2 ⟨[], h, rfl⟩)
      · exact .inr ⟨aborts_bind.2 (.inl h), hpos⟩
  | counts cs =>
    subst h
    exact .inl rfl
  | fixed numSplits => exact h.elim

/-! ### The shuffler -/

theorem shuffleBatch_aborts_iff {σ : (n : ℕ) → Equiv.Perm (Fin n)} {clumpSize : ℕ}
    {batch : List β} : Aborts (shuffleBatch σ clumpSize batch) ↔ clumpSize = 0 := by
  rw [shuffleBatch]
  split_ifs with hz
  · simp [hz]
  · simp [hz]

namespace Shuffler

variable {sh : Shuffler} {rng : Rng}
variable {data : List (List β)}

theorem distribute_not_aborts {numFiles clumpSize k seen : ℕ} {files : ℕ → List β} :
    ¬ Aborts (distribute rng numFiles clumpSize numRows k seen data files) := by
  induction data generalizing k seen files with
  | nil => exact not_aborts_ok _
  | cons batch data ih =>
    rw [distribute]
    split_ifs
    · simp
    · simp
    · exact ih

/-- The clump size is checked before the files are written. -/
theorem doShuffle_not_aborts (hmax : 0 < sh.maxRowsPerFile) :
    ¬ Aborts (sh.doShuffle rng data numRows) := by
  rw [doShuffle, if_neg hmax.ne']
  by_cases hcl : sh.clumpSize.getD 1 = 0
  · rw [if_pos hcl]
    change ¬ Aborts (.error (.invalidInput _))
    simp
  · rw [if_neg hcl]
    change ¬ Aborts (distribute _ _ _ _ _ _ _ _ >>= _)
    rw [aborts_bind, not_or]
    refine ⟨distribute_not_aborts, ?_⟩
    rintro ⟨files, -, hfs⟩
    exact mapM_not_aborts (fun file _ => shuffleBatch_aborts_iff.not.2 hcl) hfs

/-- Only the shuffle in memory panics, for clumps of no row. -/
theorem shuffle_aborts_iff (hmax : 0 < sh.maxRowsPerFile) :
    Aborts (sh.shuffle rng data numRows) ↔
      numRows < sh.maxRowsPerFile ∧ sh.clumpSize = some 0 := by
  have hz : sh.clumpSize.getD 1 = 0 ↔ sh.clumpSize = some 0 := by
    cases sh.clumpSize <;> simp
  rw [shuffle]
  split_ifs with hlt
  · rw [inMemoryShuffle, aborts_bind, shuffleBatch_aborts_iff, hz]
    constructor
    · rintro (hcl | ⟨shuffled, -, h⟩)
      · exact ⟨hlt, hcl⟩
      · exact (not_aborts_ok _ h).elim
    · exact fun h => .inl h.2
  · exact iff_of_false (doShuffle_not_aborts hmax) fun h => hlt h.1

end Shuffler

/-! ### The assignment -/

theorem assignRows_not_aborts {sizes : List ℕ} (hszs : sizes ≠ []) (source : List (List β)) :
    ¬ Aborts (assignRows sizes ⟨0, 0, false⟩ source) := by
  obtain ⟨out, hout, -⟩ := flatten_assignRows (pending_start hszs) rfl source
  rw [hout]
  exact not_aborts_ok out

theorem assignRows_nil_aborts_iff {source : List (List β)} :
    Aborts (assignRows [] ⟨0, 0, false⟩ source) ↔ source.flatten ≠ [] := by
  induction source with
  | nil => simp [assignRows]
  | cons batch source ih =>
    rw [assignRows, if_neg (by simp), aborts_bind]
    cases batch with
    | nil =>
      -- nothing is read for an empty batch
      have hids : sequentialSplitId [] ⟨0, 0, false⟩ ([] : List β).length =
          .ok ([], ⟨0, 0, false⟩) := rfl
      rw [hids]
      constructor
      · rintro (h | ⟨_, h, hr⟩)
        · exact (not_aborts_ok _ h).elim
        · obtain rfl := Except.ok.inj h
          rcases aborts_bind.1 hr with hr | ⟨_, -, hr⟩
          · exact ih.1 hr
          · exact (not_aborts_ok _ hr).elim
      · intro hrows
        exact .inr ⟨_, rfl, aborts_bind.2 (.inl (ih.2 hrows))⟩
    | cons row batch => exact iff_of_true (.inl ⟨_, rfl⟩) (by simp)

theorem applySequentialRows_aborts_iff (hr : numRows < 2 ^ 64) {source : List (List β)}
    (hsrc : source.flatten.length = numRows) (hval : sizes.validate numRows = .ok ()) :
    Aborts (applySequentialRows source numRows sizes) ↔
      sizes.NoSplits ∧ 0 < numRows ∨ sizes.Overruns numRows := by
  rw [applySequentialRows, aborts_bind]
  by_cases hn : sizes.NoSplits
  · have hover : ¬ sizes.Overruns numRows := not_overruns_of_noSplits hn
    rw [or_iff_left hover, and_iff_right hn]
    rcases toCounts_of_noSplits hn with hcnts | ⟨hcnts, hpos⟩
    · rw [hcnts, ← hsrc, length_pos_iff, ← assignRows_nil_aborts_iff]
      simp
    · exact iff_of_true (.inl hcnts) hpos
  · rcases toCounts_of_valid hr hval hn with ⟨hcnts, hover⟩ |
      ⟨hover, hcnts | ⟨counts, hne, hcnts⟩⟩
    · exact iff_of_true (.inl hcnts) (.inr hover)
    · simp [hcnts, hover, hn]
    · simpa [hcnts, hover, hn] using assignRows_not_aborts hne source

end Permutation

end LanceDB
