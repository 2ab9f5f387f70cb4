import Mathlib.Data.List.Sort
import Mathlib.Tactic.Linarith
import Mathlib.Tactic.Positivity
import Mathlib.Tactic.Ring

/-!
# Fusing ranked lists

Two ranked lists of hits are fused by reciprocal rank: a hit scores `1 / (i + k)` for every place
`i` it has in a list, the first occurrence of every identity is kept, and the hits are sorted by
score.  Identities are only ever compared, so how the hits are labelled does not matter.

* `Fusion.firstMask`, `Fusion.keep` : the first occurrence of every identity.
* `Fusion.contribution` : what a list adds to the score of an identity.
* `Fusion.Sorter` : a sort of indices by descending score.
* `Fusion.fuse` : the fusion, with the place the first hit of a list has.
* `Fusion.fuse_congr`, `Fusion.fuse_map` — relabelling the hits does not change it.
* `Fusion.contribution_shift` — counting from a later place is the same as a larger constant.
* `Fusion.fuse_perm`, `Fusion.fuse_sorted` — every identity once, by descending score.
-/

namespace Fusion

open List

variable {ι κ H : Type*}
variable {f : H → ι} {g : H → κ} {hs : List H}

/-! ### First occurrences -/

/-- Marks the elements that were not seen before. -/
def firstMask [DecidableEq ι] (seen : List ι) : List ι → List Bool
  | [] => []
  | x :: xs => decide (x ∉ seen) :: firstMask (x :: seen) xs

/-- The elements a mask keeps. -/
def keep : List Bool → List H → List H
  | b :: mask, h :: hs => if b then h :: keep mask hs else keep mask hs
  | _, _ => []

@[simp] theorem keep_nil (mask : List Bool) : keep mask ([] : List H) = [] := by
  cases mask <;> rfl

@[simp] theorem length_firstMask [DecidableEq ι] (seen xs : List ι) :
    (firstMask seen xs).length = xs.length := by
  induction xs generalizing seen with
  | nil => rfl
  | cons x xs ih => rw [firstMask, length_cons, ih, length_cons]

theorem keep_map (g : H → κ) (mask : List Bool) (hs : List H) :
    keep mask (hs.map g) = (keep mask hs).map g := by
  induction hs generalizing mask with
  | nil => simp
  | cons h hs ih =>
    cases mask with
    | nil => rfl
    | cons b mask => cases b <;> simp [keep, ih]

theorem keep_sublist (mask : List Bool) (hs : List H) : (keep mask hs).Sublist hs := by
  induction hs generalizing mask with
  | nil => simp
  | cons h hs ih =>
    cases mask with
    | nil => exact nil_sublist _
    | cons b mask =>
      cases b
      · exact (ih mask).cons h
      · exact (ih mask).cons_cons h

theorem keep_firstMask_self [DecidableEq ι] (seen xs : List ι) :
    (keep (firstMask seen xs) xs).Nodup ∧
      ∀ x, x ∈ keep (firstMask seen xs) xs ↔ x ∈ xs ∧ x ∉ seen := by
  induction xs generalizing seen with
  | nil => simp
  | cons y xs ih =>
    obtain ⟨hnd, hmem⟩ := ih (y :: seen)
    rw [firstMask, keep]
    by_cases hy : y ∈ seen
    · simp only [hy, not_true_eq_false, decide_false, Bool.false_eq_true, if_false]
      refine ⟨hnd, fun x => ?_⟩
      rw [hmem x, mem_cons, mem_cons, not_or]
      constructor
      · rintro ⟨hx, -, hseen⟩
        exact ⟨.inr hx, hseen⟩
      · rintro ⟨rfl | hx, hseen⟩
        · exact absurd hy hseen
        · exact ⟨hx, fun heq => hseen (heq ▸ hy), hseen⟩
    · simp only [hy, not_false_eq_true, decide_true, if_true]
      refine ⟨nodup_cons.2 ⟨fun h => ((hmem y).1 h).2 mem_cons_self, hnd⟩, fun x => ?_⟩
      rw [mem_cons, hmem x, mem_cons, mem_cons, not_or]
      constructor
      · rintro (rfl | ⟨hx, -, hseen⟩)
        · exact ⟨.inl rfl, hy⟩
        · exact ⟨.inr hx, hseen⟩
      · rintro ⟨rfl | hx, hseen⟩
        · exact .inl rfl
        · by_cases hxy : x = y
          · exact .inl hxy
          · exact .inr ⟨hx, hxy, hseen⟩

/-- Two labellings tell the same hits apart. -/
def SameIdentity (f : H → ι) (g : H → κ) (hs : List H) : Prop :=
  ∀ a ∈ hs, ∀ b ∈ hs, f a = f b ↔ g a = g b

theorem SameIdentity.mono {hs' : List H} (h : SameIdentity f g hs) (hsub : hs' ⊆ hs) :
    SameIdentity f g hs' :=
  fun a ha b hb => h a (hsub ha) b (hsub hb)

theorem firstMask_congr [DecidableEq ι] [DecidableEq κ] {seen : List H}
    (h : SameIdentity f g (seen ++ hs)) :
    firstMask (seen.map f) (hs.map f) = firstMask (seen.map g) (hs.map g) := by
  induction hs generalizing seen with
  | nil => rfl
  | cons x hs ih =>
    have hmem : x ∈ seen ++ x :: hs := by simp
    have hseen : f x ∈ seen.map f ↔ g x ∈ seen.map g := by
      simp only [mem_map]
      refine exists_congr fun a => and_congr_right fun ha => ?_
      exact h a (by simp [ha]) x hmem
    rw [map_cons, map_cons, firstMask, firstMask, decide_eq_decide.2 (not_congr hseen)]
    rw [← map_cons, ← map_cons, ih (h.mono fun a ha => ?_)]
    rw [cons_append, mem_cons] at ha
    rcases ha with rfl | ha
    · exact hmem
    · rcases mem_append.1 ha with ha | ha <;> simp [ha]

/-! ### Scores -/

/-- What the places of an identity in a list add to its score, the first place being `i`. -/
def contribution [DecidableEq ι] (k : ℚ) (id : ι) : ℕ → List ι → ℚ
  | _, [] => 0
  | i, x :: xs => (if x = id then 1 / (i + k) else 0) + contribution k id (i + 1) xs

section Contribution

variable [DecidableEq ι] [DecidableEq κ] {k : ℚ} {id : ι}
variable {xs : List ι}

theorem contribution_shift (i j : ℕ) (xs : List ι) :
    contribution k id (i + j) xs = contribution (k + j) id i xs := by
  induction xs generalizing i with
  | nil => rfl
  | cons x xs ih =>
    have hsucc : i + j + 1 = i + 1 + j := by omega
    have hpl : ((i + j : ℕ) : ℚ) + k = i + (k + j) := by
      push_cast
      ring
    rw [contribution, contribution, hsucc, ih, hpl]

theorem contribution_of_not_mem {i : ℕ} (h : id ∉ xs) : contribution k id i xs = 0 := by
  induction xs generalizing i with
  | nil => rfl
  | cons x xs ih =>
    rw [mem_cons, not_or] at h
    rw [contribution, if_neg (Ne.symm h.1), ih h.2, add_zero]

theorem contribution_of_nodup {i : ℕ} (hnd : xs.Nodup) (h : id ∈ xs) :
    contribution k id i xs = 1 / ((i + xs.idxOf id : ℕ) + k) := by
  induction xs generalizing i with
  | nil => cases h
  | cons x xs ih =>
    obtain ⟨hx, hnd⟩ := nodup_cons.1 hnd
    rw [contribution]
    by_cases hxid : x = id
    · subst hxid
      rw [if_pos rfl, contribution_of_not_mem hx, idxOf_cons_self, add_zero, Nat.add_zero]
    · have hmem : id ∈ xs := (mem_cons.1 h).resolve_left (Ne.symm hxid)
      rw [if_neg hxid, ih hnd hmem, idxOf_cons_ne _ hxid, zero_add]
      congr 3
      omega

theorem contribution_anti {k' : ℚ} (hk : 0 < k) (hkk : k ≤ k') (i : ℕ) (xs : List ι) :
    contribution k' id i xs ≤ contribution k id i xs := by
  induction xs generalizing i with
  | nil => exact le_rfl
  | cons x xs ih =>
    rw [contribution, contribution]
    have hpl : (if x = id then 1 / ((i : ℚ) + k') else 0) ≤ if x = id then 1 / (i + k) else 0 := by
      split_ifs
      · gcongr
      · exact le_rfl
    exact add_le_add hpl (ih (i + 1))

theorem contribution_lt {k' : ℚ} (hk : 0 < k) (hkk : k < k') {i : ℕ} (h : id ∈ xs) :
    contribution k' id i xs < contribution k id i xs := by
  induction xs generalizing i with
  | nil => cases h
  | cons x xs ih =>
    rw [contribution, contribution]
    by_cases hx : x = id
    · rw [if_pos hx, if_pos hx]
      refine add_lt_add_of_lt_of_le ?_ (contribution_anti hk hkk.le (i + 1) xs)
      gcongr
    · have hmem : id ∈ xs := (mem_cons.1 h).resolve_left (Ne.symm hx)
      rw [if_neg hx, if_neg hx, zero_add, zero_add]
      exact ih hmem

theorem contribution_congr {a : H} (h : SameIdentity f g (a :: hs)) (i : ℕ) :
    contribution k (f a) i (hs.map f) = contribution k (g a) i (hs.map g) := by
  induction hs generalizing i with
  | nil => rfl
  | cons x hs ih =>
    have hx : f x = f a ↔ g x = g a := h x (by simp) a (by simp)
    have hr : SameIdentity f g (a :: hs) := h.mono fun b hb => by
      rcases mem_cons.1 hb with rfl | hb <;> simp [*]
    simp only [map_cons, contribution, hx, ih hr]

end Contribution

/-! ### Sorting -/

/-- A sort of the indices of a list of scores by descending score. -/
structure Sorter where
  run : List ℚ → List ℕ
  perm : ∀ scores, (run scores).Perm (List.range scores.length)
  sorted : ∀ scores, (run scores).Pairwise fun i j => scores.getD j 0 ≤ scores.getD i 0

/-- The sort that keeps the order of equal scores. -/
def Sorter.stable : Sorter where
  run scores :=
    (List.range scores.length).insertionSort fun i j => scores.getD j 0 ≤ scores.getD i 0
  perm scores := perm_insertionSort _ _
  sorted scores := by
    have htot : Std.Total fun i j : ℕ => scores.getD j 0 ≤ scores.getD i 0 :=
      ⟨fun i j => le_total _ _⟩
    have htrans : IsTrans ℕ fun i j => scores.getD j 0 ≤ scores.getD i 0 :=
      ⟨fun i j l hij hjl => hjl.trans hij⟩
    exact pairwise_insertionSort _ _

/-- The elements at some indices. -/
def takeIndices (indices : List ℕ) (hs : List H) : List H := indices.filterMap (hs[·]?)

theorem takeIndices_map (g : H → κ) (indices : List ℕ) (hs : List H) :
    takeIndices indices (hs.map g) = (takeIndices indices hs).map g := by
  simp [takeIndices, map_filterMap]

theorem takeIndices_range (hs : List H) : takeIndices (List.range hs.length) hs = hs := by
  induction hs using List.reverseRecOn with
  | nil => rfl
  | append_singleton hs h ih =>
    rw [length_append, length_singleton, range_succ, takeIndices,
      filterMap_append]
    have hinit : (List.range hs.length).filterMap ((hs ++ [h])[·]?) = hs := by
      conv_rhs => rw [← ih, takeIndices]
      refine filterMap_congr fun i hi => ?_
      exact getElem?_append_left (mem_range.1 hi)
    rw [hinit]
    simp

theorem takeIndices_perm {indices : List ℕ} (h : indices.Perm (List.range hs.length)) :
    (takeIndices indices hs).Perm hs := by
  have hp := h.filterMap (hs[·]?)
  rwa [← takeIndices, ← takeIndices, takeIndices_range] at hp

theorem takeIndices_sorted {indices : List ℕ} (score : H → ℚ)
    (h : indices.Pairwise fun i j => (hs.map score).getD j 0 ≤ (hs.map score).getD i 0) :
    (takeIndices indices hs).Pairwise fun a b => score b ≤ score a := by
  rw [takeIndices, pairwise_filterMap]
  refine h.imp fun {i j} hij a ha b hb => ?_
  have hsc : ∀ {n : ℕ} {c : H}, hs[n]? = some c → (hs.map score).getD n 0 = score c := by
    intro n c hc
    simp [List.getD, hc]
  rwa [hsc ha, hsc hb] at hij

/-! ### The fusion -/

variable [DecidableEq ι] [DecidableEq κ]

/-- The score of a hit: what both lists add to it, the first place of a list being `origin`. -/
def score (origin : ℕ) (k : ℚ) (id : H → ι) (first second : List H) (h : H) : ℚ :=
  contribution k (id h) origin (first.map id) + contribution k (id h) origin (second.map id)

/-- The first occurrence of every identity. -/
def merged (id : H → ι) (first second : List H) : List H :=
  keep (firstMask [] ((first ++ second).map id)) (first ++ second)

/-- The hits of both lists, each identity once, with their scores. -/
def scored (origin : ℕ) (k : ℚ) (id : H → ι) (first second : List H) : List (H × ℚ) :=
  (merged id first second).map fun h => (h, score origin k id first second h)

/-- **Reciprocal rank fusion.** -/
def fuse (sort : Sorter) (origin : ℕ) (k : ℚ) (id : H → ι) (first second : List H) :
    List (H × ℚ) :=
  takeIndices (sort.run ((scored origin k id first second).map Prod.snd))
    (scored origin k id first second)

section Fuse

variable {sort : Sorter} {origin : ℕ} {k : ℚ} {id : H → ι} {first second : List H}

theorem merged_subset : merged id first second ⊆ first ++ second :=
  (keep_sublist _ _).subset

theorem merged_congr {id' : H → κ} (h : SameIdentity id id' (first ++ second)) :
    merged id first second = merged id' first second := by
  have hmask : firstMask (([] : List H).map id) ((first ++ second).map id) =
      firstMask (([] : List H).map id') ((first ++ second).map id') := firstMask_congr h
  simp only [map_nil] at hmask
  rw [merged, merged, hmask]

/-- **Relabelling the hits does not change their fusion.** -/
theorem fuse_congr {id' : H → κ} (h : SameIdentity id id' (first ++ second)) :
    fuse sort origin k id first second = fuse sort origin k id' first second := by
  have hscored : scored origin k id first second = scored origin k id' first second := by
    rw [scored, scored, merged_congr h]
    refine map_congr_left fun a ha => ?_
    have ha' : a ∈ first ++ second := by
      rw [← merged_congr h] at ha
      exact merged_subset ha
    have hsub : ∀ hs, hs ⊆ first ++ second → SameIdentity id id' (a :: hs) := fun hs hhs =>
      h.mono (cons_subset.2 ⟨ha', hhs⟩)
    rw [score, score, contribution_congr (hsub first (by simp)) origin,
      contribution_congr (hsub second (by simp)) origin]
  rw [fuse, fuse, hscored]

theorem fuse_map {H' : Type*} (g : H → H') (id : H' → ι) (first second : List H) :
    fuse sort origin k id (first.map g) (second.map g) =
      (fuse sort origin k (fun h => id (g h)) first second).map fun p => (g p.1, p.2) := by
  have hscored : scored origin k id (first.map g) (second.map g) =
      (scored origin k (fun h => id (g h)) first second).map fun p => (g p.1, p.2) := by
    simp only [scored, merged, ← map_append, keep_map, map_map, score, Function.comp_def]
  rw [fuse, fuse, hscored, takeIndices_map, map_map]
  rfl

theorem fuse_perm :
    (fuse sort origin k id first second).Perm (scored origin k id first second) := by
  refine takeIndices_perm ?_
  have hp := sort.perm ((scored origin k id first second).map Prod.snd)
  rwa [length_map] at hp

theorem snd_of_mem_fuse {p : H × ℚ} (h : p ∈ fuse sort origin k id first second) :
    p.2 = score origin k id first second p.1 := by
  obtain ⟨a, -, rfl⟩ := mem_map.1 (fuse_perm.mem_iff.1 h)
  rfl

theorem map_id_merged :
    (merged id first second).map id =
      keep (firstMask [] ((first ++ second).map id)) ((first ++ second).map id) :=
  (keep_map ..).symm

/-- **Every identity comes once.** -/
theorem nodup_fuse : ((fuse sort origin k id first second).map fun p => id p.1).Nodup := by
  have hids : ((scored origin k id first second).map fun p => id p.1) =
      (merged id first second).map id := by
    rw [scored, map_map]
    rfl
  rw [(fuse_perm.map _).nodup_iff, hids, map_id_merged]
  exact (keep_firstMask_self [] _).1

theorem mem_ids_fuse {x : ι} :
    (x ∈ (fuse sort origin k id first second).map fun p => id p.1) ↔
      x ∈ first.map id ∨ x ∈ second.map id := by
  have hids : ((scored origin k id first second).map fun p => id p.1) =
      (merged id first second).map id := by
    rw [scored, map_map]
    rfl
  rw [(fuse_perm.map _).mem_iff, hids, map_id_merged, (keep_firstMask_self [] _).2 x,
    map_append, mem_append]
  simp

/-- **The hits come by descending score.** -/
theorem fuse_sorted :
    (fuse sort origin k id first second).Pairwise fun a b => b.2 ≤ a.2 :=
  takeIndices_sorted _ (sort.sorted _)

/-- Counting places from `origin` is counting them from 0 with a larger constant. -/
theorem fuse_origin :
    fuse sort origin k id first second = fuse sort 0 (k + origin) id first second := by
  have hsc : ∀ h, score origin k id first second h = score 0 (k + origin) id first second h := by
    intro h
    rw [score, score]
    conv_lhs => rw [← Nat.zero_add origin]
    rw [contribution_shift, contribution_shift]
  simp only [fuse, scored, hsc]

end Fuse

end Fusion
