import LanceDB.Permutation.Sequential

/-!
# The sizes of percentage splits

`to_counts` rounds the size of every split on its own.  Rounding may give out more rows than there
are, or fewer; the surplus is taken back from the splits, one row each from the first one on, and
what is missing is added in the same way.  Nothing looks at the size a split is left with.

Percentages are exact here.

* `surplus` : the rows that the rounded sizes are too many.
* `validate_percentages` — what `validate` checks.
* `surplus_le` — each split is off by half a row at most.
* `dropExcess_once`, `dropExcess_eq_none`, `addMissing_spec` — the two loops.
* `adjustCounts_of_pos`, `adjustCounts_of_nonpos`, `adjustCounts_of_lt` — what they make of the
  sizes.
* `FairCounts` : what percentages promise.
* `toCounts_of_wrapped`, `toCounts_of_surplus`, `toCounts_of_deficit` — the three ways to go.
* `percentages_fair_iff` — the result.
-/

namespace LanceDB

open List

namespace Permutation

open Numbers

/-! ### Rounding -/

/-- The rows the rounded sizes are too many. -/
def surplus (numRows : ℕ) (ps : List ℚ) : ℤ := ((rounded numRows ps).sum : ℤ) - numRows

theorem length_rounded (numRows : ℕ) (ps : List ℚ) : (rounded numRows ps).length = ps.length :=
  length_map _

theorem percentageSum_eq (ps : List ℚ) : percentageSum ps = ps.sum := sum_eq_foldl.symm

theorem isBasicallyOne_iff {numRows : ℕ} {ps : List ℚ} :
    isBasicallyOne numRows ps = true ↔ |(numRows : ℚ) - ps.sum * numRows| < 1 / 2 := by
  rw [← percentageSum_eq]
  exact decide_eq_true_iff

theorem validate_percentages {numRows : ℕ} {ps : List ℚ} :
    (SplitSizes.percentages ps).validate numRows = .ok () ↔
      (∀ p ∈ ps, 0 ≤ p ∧ p ≤ 1 ∧ 1 ≤ p * numRows) ∧ ps.sum ≤ 1 := by
  rw [SplitSizes.validate, Except.bind_eq_ok, percentageSum_eq]
  constructor
  · rintro ⟨⟨⟩, hall, hsum⟩
    rw [forM_eq_ok] at hall
    refine ⟨fun p hp => ?_, ?_⟩
    · have hp := hall p hp
      split_ifs at hp with hrng hone
      rw [not_or, not_lt, not_lt] at hrng
      exact ⟨hrng.1, hrng.2, not_lt.1 hone⟩
    · split_ifs at hsum with hone
      exact not_lt.1 hone
  · rintro ⟨hall, hsum⟩
    refine ⟨(), forM_eq_ok.2 fun p hp => ?_, if_neg (not_lt.2 hsum)⟩
    obtain ⟨hpos, hone, hrow⟩ := hall p hp
    rw [if_neg (not_or.2 ⟨not_lt.2 hpos, not_lt.2 hone⟩)]
    exact if_neg (not_lt.2 hrow)

theorem cast_roundU64 {x : ℚ} (hx : 0 ≤ x) : ((roundU64 x : ℕ) : ℚ) = round x := by
  rw [round_eq]
  have hfloor : 0 ≤ ⌊x + 1 / 2⌋ := Int.floor_nonneg.2 (by linarith)
  exact_mod_cast congrArg (Int.cast : ℤ → ℚ) (Int.toNat_of_nonneg hfloor)

theorem abs_sub_roundU64 {x : ℚ} (hx : 0 ≤ x) : |x - roundU64 x| ≤ 1 / 2 := by
  rw [cast_roundU64 hx]
  exact abs_sub_round x

theorem one_le_roundU64 {x : ℚ} (hx : 1 ≤ x) : 1 ≤ roundU64 x := by
  have hfloor : 1 ≤ ⌊x + 1 / 2⌋ := Int.le_floor.2 (by push_cast; linarith)
  change 1 ≤ ⌊x + 1 / 2⌋.toNat
  omega

theorem abs_sum_rounded {n : ℕ} {ps : List ℚ} (h : ∀ p ∈ ps, 0 ≤ p) :
    |ps.sum * n - (rounded n ps).sum| ≤ ps.length / 2 := by
  induction ps with
  | nil => simp [rounded]
  | cons p ps ih =>
    have hr := ih fun q hq => h q (mem_cons_of_mem _ hq)
    have hp : |p * n - roundU64 (p * n)| ≤ 1 / 2 :=
      abs_sub_roundU64 (mul_nonneg (h p mem_cons_self) (Nat.cast_nonneg _))
    have hspl : (p :: ps).sum * n - ((rounded n (p :: ps)).sum : ℕ) =
        (p * n - roundU64 (p * n)) +
          (ps.sum * n - ((rounded n ps).sum : ℕ)) := by
      change (p :: ps).sum * n - ((roundU64 (p * n) :: rounded n ps).sum : ℕ) = _
      rw [sum_cons, sum_cons, Nat.cast_add]
      ring
    rw [hspl, length_cons, Nat.cast_add, Nat.cast_one]
    refine (abs_add_le _ _).trans ?_
    linarith

theorem length_le_sum_mul {n : ℕ} {ps : List ℚ} (h : ∀ p ∈ ps, 1 ≤ p * n) :
    (ps.length : ℚ) ≤ ps.sum * n := by
  induction ps with
  | nil => simp
  | cons p ps ih =>
    have hp := h p mem_cons_self
    have hr := ih fun q hq => h q (mem_cons_of_mem _ hq)
    rw [sum_cons, length_cons, Nat.cast_add, Nat.cast_one, add_mul]
    linarith

section Valid

variable {numRows : ℕ} {ps : List ℚ}
  (hvalid : (SplitSizes.percentages ps).validate numRows = .ok ())
include hvalid

theorem one_le_of_mem_rounded : ∀ c ∈ rounded numRows ps, 1 ≤ c := by
  intro c hc
  obtain ⟨p, hp, rfl⟩ := mem_map.1 hc
  exact one_le_roundU64 ((validate_percentages.1 hvalid).1 p hp).2.2

theorem sum_mul_le : ps.sum * numRows ≤ numRows := by
  have hrows : (0 : ℚ) ≤ numRows := Nat.cast_nonneg numRows
  calc ps.sum * numRows ≤ 1 * numRows :=
        mul_le_mul_of_nonneg_right (validate_percentages.1 hvalid).2 hrows
    _ = numRows := one_mul _

theorem length_le_numRows : ps.length ≤ numRows := by
  obtain ⟨hall, -⟩ := validate_percentages.1 hvalid
  have hrows : (ps.length : ℚ) ≤ ps.sum * numRows := length_le_sum_mul fun p hp => (hall p hp).2.2
  exact_mod_cast hrows.trans (sum_mul_le hvalid)

theorem surplus_le : 2 * surplus numRows ps ≤ ps.length := by
  obtain ⟨hall, -⟩ := validate_percentages.1 hvalid
  have habs := abs_le.1 (abs_sum_rounded (n := numRows) fun p hp => (hall p hp).1)
  have hcast : (2 * surplus numRows ps : ℚ) ≤ ps.length := by
    simp only [surplus, Int.cast_sub, Int.cast_natCast]
    linarith [habs.1, sum_mul_le hvalid]
  exact_mod_cast hcast

end Valid

/-! ### The two loops -/

/-- Splits that have a row to drop lose one each, from the first one behind `pre` on. -/
theorem dropExcess_once {fuel : ℕ} (pre mid suf : List ℕ) (hmid : ∀ c ∈ mid, 0 < c)
    (hfuel : mid.length ≤ fuel) :
    dropExcess fuel (pre ++ (mid ++ suf)) mid.length pre.length =
      some (pre ++ (mid.map (· - 1) ++ suf)) := by
  induction mid generalizing pre fuel with
  | nil => cases fuel <;> rfl
  | cons c mid ih =>
    rw [length_cons] at hfuel
    obtain ⟨fuel, rfl⟩ := Nat.exists_eq_add_one_of_ne_zero (Nat.ne_zero_of_lt hfuel)
    have hget : (pre ++ (c :: mid ++ suf)).getD pre.length 0 = c := by simp
    have hr := ih (pre ++ [c - 1]) (fun x hx => hmid x (mem_cons_of_mem _ hx))
      (Nat.le_of_succ_le_succ hfuel)
    rw [append_assoc, length_append] at hr
    rw [dropExcess, if_neg (by simp), hget, if_pos (hmid c mem_cons_self), cons_append,
      modify_length_append]
    by_cases hl : pre.length + 1 = (pre ++ c :: (mid ++ suf)).length
    · -- nothing is left to drop behind the last split
      have hnil : mid ++ suf = [] := by
        rw [length_append, length_cons] at hl
        exact length_eq_zero_iff.1 (by omega)
      obtain ⟨rfl, rfl⟩ := append_eq_nil_iff.1 hnil
      cases fuel <;> rfl
    · rw [if_neg hl]
      simpa using hr

variable {counts : List ℕ} {excess : ℕ}

/-- No more rows can be dropped than there are: the loop goes round without an end. -/
theorem dropExcess_eq_none (h : counts.sum < excess) (fuel dropIdx : ℕ) :
    dropExcess fuel counts excess dropIdx = none := by
  induction fuel generalizing counts excess dropIdx with
  | zero => exact if_neg (by omega)
  | succ fuel ih =>
    rw [dropExcess, if_neg (by omega)]
    by_cases hpos : 0 < counts.getD dropIdx 0
    · have hget : counts[dropIdx]? = some (counts.getD dropIdx 0) := by
        rw [getD_eq_getElem?_getD] at hpos ⊢
        cases hcnt : counts[dropIdx]? with
        | none => simp [hcnt] at hpos
        | some c => rfl
      have hsum := sum_modify (f := (· - 1)) hget
      rw [if_pos hpos]
      exact ih (by omega) _
    · rw [if_neg hpos]
      exact ih h _

theorem addMissing_spec {missing addIdx : ℕ} (hidx : addIdx < counts.length)
    (hpos : ∀ c ∈ counts, 1 ≤ c) (hmax : counts.sum + missing < 2 ^ 64) :
    (addMissing missing counts addIdx).length = counts.length ∧
      (addMissing missing counts addIdx).sum = counts.sum + missing ∧
      ∀ c ∈ addMissing missing counts addIdx, 1 ≤ c := by
  induction missing generalizing counts addIdx with
  | zero => exact ⟨rfl, rfl, hpos⟩
  | succ missing ih =>
    have hcnt : counts[addIdx] ≤ counts.sum := le_sum_of_mem (getElem_mem hidx)
    have hadd : (counts.modify addIdx fun count => (count + 1) % 2 ^ 64) =
        counts.modify addIdx (· + 1) := by
      rw [modify_eq_take_cons_drop hidx, modify_eq_take_cons_drop hidx, Nat.mod_eq_of_lt (by omega)]
    have hsum := sum_modify (f := (· + 1)) (getElem?_eq_getElem hidx)
    have hlng : (counts.modify addIdx (· + 1)).length = counts.length :=
      length_modify ..
    have hn : (if addIdx + 1 = counts.length then 0 else addIdx + 1) <
        (counts.modify addIdx (· + 1)).length := by
      split_ifs <;> omega
    obtain ⟨hlen, htot, hall⟩ := ih hn
      (forall_mem_modify addIdx hpos fun c _ => Nat.le_add_left 1 c) (by omega)
    rw [addMissing, hadd]
    refine ⟨hlen.trans hlng, ?_, hall⟩
    rw [htot]
    omega

/-! ### Making up for rounding -/

/-- Fewer rows are too many than there are splits: the first splits lose one each. -/
theorem adjustCounts_of_pos (isBasicallyOne : Bool) (hpos : ∀ c ∈ counts, 1 ≤ c)
    (hexc : 0 < excess) (hle : excess ≤ counts.length) :
    adjustCounts isBasicallyOne excess counts =
      .ok ((counts.take excess).map (· - 1) ++ counts.drop excess) := by
  have hlen : (counts.take excess).length = excess := length_take_of_le hle
  have hfuel : (counts.take excess).length ≤ excess * counts.length := by
    rw [hlen]
    exact Nat.le_mul_of_pos_right _ (by omega)
  have hd := dropExcess_once [] (counts.take excess) (counts.drop excess)
    (fun c hc => hpos c (mem_of_mem_take hc)) hfuel
  rw [hlen, nil_append, nil_append, take_append_drop, length_nil] at hd
  have hne : counts.isEmpty = false := by
    rw [isEmpty_eq_false_iff, ← length_pos_iff]
    omega
  have hadd : (-(excess : ℤ)).toNat = 0 := by omega
  rw [adjustCounts, hne, if_neg (by simp), Int.toNat_natCast, hd]
  cases isBasicallyOne with
  | false => rfl
  | true =>
    simp only [if_true, hadd, addMissing]
    exact if_neg fun h => absurd h.2 (by omega)

theorem adjustCounts_of_nonpos {isBasicallyOne : Bool} {excess : ℤ} (hexc : excess ≤ 0)
    (hne : isBasicallyOne → counts = [] → excess = 0) :
    adjustCounts isBasicallyOne excess counts =
      .ok (if isBasicallyOne then addMissing (-excess).toNat counts 0 else counts) := by
  have hd : dropExcess (excess.toNat * counts.length) counts excess.toNat 0 = some counts := by
    rw [Int.toNat_of_nonpos hexc, Nat.zero_mul]
    rfl
  rw [adjustCounts, if_neg (by omega), hd]
  cases isBasicallyOne with
  | false => rfl
  | true =>
    simp only [if_true]
    refine if_neg fun h => ?_
    have := hne rfl (List.isEmpty_iff.1 h.1)
    omega

theorem adjustCounts_of_lt (isBasicallyOne : Bool) (hlt : counts.sum < excess) :
    adjustCounts isBasicallyOne excess counts =
      .error (if counts.isEmpty then .panic "index out of bounds" else .diverges) := by
  rw [adjustCounts, Int.toNat_natCast, dropExcess_eq_none hlt]
  by_cases hemp : counts.isEmpty = true
  · rw [if_pos ⟨hemp, by omega⟩, if_pos hemp]
  · rw [if_neg fun h => hemp h.1, if_neg hemp]

/-! ### The counts -/

/-- What percentages promise: all splits have rows, the table has enough rows for them, and none
is left over when the percentages sum to one. -/
structure FairCounts (numRows : ℕ) (ps : List ℚ) (counts : List ℕ) : Prop where
  length : counts.length = ps.length
  sum_le : counts.sum ≤ numRows
  sum_eq : ps.sum = 1 → counts.sum = numRows
  pos : ∀ c ∈ counts, 1 ≤ c

theorem bmod_sumU64_sub (numRows : ℕ) (ps : List ℚ) :
    ((sumU64 (rounded numRows ps) : ℤ) - numRows).bmod (2 ^ 64) =
      (surplus numRows ps).bmod (2 ^ 64) := by
  rw [surplus, ← Int.emod_sub_bmod ((rounded numRows ps).sum : ℤ), sumU64, Int.natCast_emod]

theorem toCounts_of_adjust {numRows : ℕ} {ps : List ℚ} {excess : ℤ}
    (hexc : (surplus numRows ps).bmod (2 ^ 64) = excess)
    (h : adjustCounts (isBasicallyOne numRows ps) excess (rounded numRows ps) = .ok counts)
    (hsum : counts.sum ≤ numRows) :
    (SplitSizes.percentages ps).toCounts numRows = .ok counts := by
  rw [← hexc, ← bmod_sumU64_sub] at h
  rw [SplitSizes.toCounts]
  refine Except.bind_eq_ok.2 ⟨counts, h, if_pos ?_⟩
  exact (Nat.mod_le _ _).trans hsum

theorem toCounts_of_adjust_error {numRows : ℕ} {ps : List ℚ} {excess : ℤ} {e : LoaderError}
    (hexc : (surplus numRows ps).bmod (2 ^ 64) = excess)
    (h : adjustCounts (isBasicallyOne numRows ps) excess (rounded numRows ps) = .error e) :
    (SplitSizes.percentages ps).toCounts numRows = .error e := by
  rw [← hexc, ← bmod_sumU64_sub] at h
  have h' : (adjustCounts (isBasicallyOne numRows ps)
      (((sumU64 (rounded numRows ps) : ℤ) - numRows).bmod (2 ^ 64)) (rounded numRows ps) >>=
      fun counts => if sumU64 counts ≤ numRows then Except.ok counts
        else Except.error (.panic "assertion failed: sizes.iter().sum::<u64>() <= num_rows")) =
      .error e := by
    rw [h]
    rfl
  exact h'

theorem sum_map_pred (hpos : ∀ c ∈ counts, 1 ≤ c) :
    (counts.map (· - 1)).sum + counts.length = counts.sum := by
  induction counts with
  | nil => rfl
  | cons c counts ih =>
    have hc := hpos c mem_cons_self
    have hr := ih fun x hx => hpos x (mem_cons_of_mem _ hx)
    simp only [map_cons, sum_cons, length_cons]
    omega

section Valid

variable {numRows : ℕ} {ps : List ℚ} (hrows : numRows < 2 ^ 64)

include hrows in
/-- The sizes are so far below the number of rows that the excess wraps around. -/
theorem toCounts_of_wrapped (hlow : surplus numRows ps < -2 ^ 63) :
    (SplitSizes.percentages ps).toCounts numRows =
      .error (if ps.isEmpty then .panic "index out of bounds" else .diverges) := by
  obtain ⟨excess, hexc⟩ : ∃ excess : ℕ, (excess : ℤ) = surplus numRows ps + 2 ^ 64 := by
    refine ⟨(surplus numRows ps + 2 ^ 64).toNat, Int.toNat_of_nonneg ?_⟩
    rw [surplus]
    omega
  have hbmod : (surplus numRows ps).bmod (2 ^ 64) = excess := by
    rw [hexc, ← Int.add_bmod_right]
    exact Int.bmod_eq_of_le_mul_two (by push_cast; omega) (by push_cast; omega)
  have hlt : (rounded numRows ps).sum < excess := by
    rw [surplus] at hexc
    omega
  have hadj := adjustCounts_of_lt (isBasicallyOne numRows ps) hlt
  rw [rounded, isEmpty_map] at hadj
  exact toCounts_of_adjust_error hbmod hadj

variable (hvalid : (SplitSizes.percentages ps).validate numRows = .ok ())
include hvalid

include hrows in
/-- Rounding gave out more rows than there are: the first splits lose one each. -/
theorem toCounts_of_surplus (hpos : 0 < surplus numRows ps) :
    (SplitSizes.percentages ps).toCounts numRows =
        .ok (((rounded numRows ps).take (surplus numRows ps).toNat).map (· - 1) ++
          (rounded numRows ps).drop (surplus numRows ps).toNat) ∧
      (((rounded numRows ps).take (surplus numRows ps).toNat).map (· - 1) ++
          (rounded numRows ps).drop (surplus numRows ps).toNat).sum = numRows := by
  have hhalf := surplus_le hvalid
  have hlen := length_le_numRows hvalid
  obtain ⟨excess, hexc⟩ := Int.eq_ofNat_of_zero_le hpos.le
  have hle : excess ≤ (rounded numRows ps).length := by
    rw [length_rounded]
    omega
  have hbmod : (surplus numRows ps).bmod (2 ^ 64) = excess := by
    rw [← hexc]
    exact Int.bmod_eq_of_le_mul_two (by push_cast; omega) (by push_cast; omega)
  have hadj := adjustCounts_of_pos (isBasicallyOne numRows ps)
    (one_le_of_mem_rounded hvalid) (by omega) hle
  have hsum : (((rounded numRows ps).take excess).map (· - 1) ++
      (rounded numRows ps).drop excess).sum = numRows := by
    have hd := sum_map_pred fun c hc =>
      one_le_of_mem_rounded hvalid c (mem_of_mem_take (i := excess) hc)
    have hpts := sum_take_add_sum_drop (rounded numRows ps) excess
    rw [length_take_of_le hle] at hd
    rw [surplus] at hexc
    rw [sum_append]
    omega
  rw [hexc, Int.toNat_natCast]
  exact ⟨toCounts_of_adjust hbmod hadj hsum.le, hsum⟩

omit hvalid in
theorem surplus_eq_zero_of_nil (hone : isBasicallyOne numRows ps = true)
    (hnil : rounded numRows ps = []) : surplus numRows ps = 0 := by
  obtain rfl := map_eq_nil_iff.1 hnil
  rw [isBasicallyOne_iff, sum_nil, zero_mul, sub_zero, Nat.abs_cast] at hone
  have hz : numRows < 1 := by
    have : (numRows : ℚ) < 1 := by linarith
    exact_mod_cast this
  rw [surplus, hnil, sum_nil]
  omega

include hrows in
theorem toCounts_of_deficit (hlow : -2 ^ 63 ≤ surplus numRows ps)
    (hle : surplus numRows ps ≤ 0) :
    ∃ counts, (SplitSizes.percentages ps).toCounts numRows = .ok counts ∧
      FairCounts numRows ps counts := by
  have hbmod : (surplus numRows ps).bmod (2 ^ 64) = surplus numRows ps :=
    Int.bmod_eq_of_le_mul_two (by push_cast; omega) (by push_cast; omega)
  have hpos := one_le_of_mem_rounded hvalid
  have hadj := adjustCounts_of_nonpos hle fun hone hnil =>
    surplus_eq_zero_of_nil hone hnil
  by_cases hone : isBasicallyOne numRows ps = true
  · rw [if_pos hone] at hadj
    obtain ⟨hlen, hsum, hall⟩ :
        (addMissing (-surplus numRows ps).toNat (rounded numRows ps) 0).length =
            (rounded numRows ps).length ∧
          (addMissing (-surplus numRows ps).toNat (rounded numRows ps) 0).sum =
            (rounded numRows ps).sum + (-surplus numRows ps).toNat ∧
          ∀ c ∈ addMissing (-surplus numRows ps).toNat (rounded numRows ps) 0, 1 ≤ c := by
      rcases eq_or_ne (rounded numRows ps) [] with hnil | hne
      · rw [surplus_eq_zero_of_nil hone hnil]
        exact ⟨rfl, rfl, hpos⟩
      · refine addMissing_spec (length_pos_iff.2 hne) hpos ?_
        rw [surplus] at hle ⊢
        omega
    have htot : (addMissing (-surplus numRows ps).toNat (rounded numRows ps) 0).sum =
        numRows := by
      rw [hsum]
      rw [surplus] at hle ⊢
      omega
    exact ⟨_, toCounts_of_adjust hbmod hadj htot.le, hlen.trans (length_rounded _ _), htot.le,
      fun _ => htot, hall⟩
  · rw [if_neg hone] at hadj
    have hsum : (rounded numRows ps).sum ≤ numRows := by
      rw [surplus] at hle
      omega
    refine ⟨_, toCounts_of_adjust hbmod hadj hsum, length_rounded _ _, hsum, fun hps => ?_, hpos⟩
    rw [isBasicallyOne_iff, hps, one_mul, sub_self, abs_zero] at hone
    exact absurd (by norm_num) hone

include hrows in
/-- **The sizes of percentage splits** are as promised where the excess does not wrap around, and
the splits that lose a row have another one: rows are taken back from the first splits, which may
be the small ones. -/
theorem percentages_fair_iff : (∃ counts, (SplitSizes.percentages ps).toCounts numRows =
      .ok counts ∧ FairCounts numRows ps counts) ↔ -2 ^ 63 ≤ surplus numRows ps ∧
        ∀ c ∈ (rounded numRows ps).take (surplus numRows ps).toNat, 2 ≤ c := by
  constructor
  · rintro ⟨counts, hcnts, hfair⟩
    refine ⟨?_, fun c hc => ?_⟩
    · by_contra hlow
      rw [toCounts_of_wrapped hrows (not_le.1 hlow)] at hcnts
      cases hcnts
    · have hpos : 0 < surplus numRows ps := by
        by_contra hle
        rw [Int.toNat_of_nonpos (not_lt.1 hle), take_zero] at hc
        cases hc
      rw [(toCounts_of_surplus hrows hvalid hpos).1] at hcnts
      obtain rfl := Except.ok.inj hcnts
      have := hfair.pos (c - 1) (mem_append_left _ (mem_map_of_mem hc))
      omega
  · rintro ⟨hlow, htwo⟩
    rcases lt_or_ge 0 (surplus numRows ps) with hpos | hle
    · obtain ⟨hcnts, hsum⟩ := toCounts_of_surplus hrows hvalid hpos
      refine ⟨_, hcnts, ?_, hsum.le, fun _ => hsum, fun c hc => ?_⟩
      · rw [length_append, length_map, ← length_append, take_append_drop,
          length_rounded]
      · rcases mem_append.1 hc with hc | hc
        · obtain ⟨d, hd, rfl⟩ := mem_map.1 hc
          have := htwo d hd
          omega
        · exact one_le_of_mem_rounded hvalid c (mem_of_mem_drop hc)
    · exact toCounts_of_deficit hrows hvalid hlow hle

end Valid

theorem percentages_fair_thirds :
    ∃ counts, (SplitSizes.percentages [1 / 3, 1 / 3, (1 / 3 : ℚ)]).toCounts 10 = .ok counts ∧
      FairCounts 10 [1 / 3, 1 / 3, 1 / 3] counts :=
  (percentages_fair_iff (by decide) (validate_percentages.2 (by decide +kernel))).2
    (by decide +kernel)

/-- A quarter of four rows is one row, and it is taken back. -/
theorem percentages_empty_split :
    (SplitSizes.percentages [1 / 4, 3 / 8, (3 / 8 : ℚ)]).validate 4 = .ok () ∧
      (SplitSizes.percentages [1 / 4, 3 / 8, (3 / 8 : ℚ)]).toCounts 4 = .ok [0, 2, 2] := by
  refine ⟨validate_percentages.2 (by decide +kernel), by decide +kernel⟩

end Permutation

end LanceDB
