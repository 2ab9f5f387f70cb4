import LanceDB.Base.Lists
import Mathlib.GroupTheory.Perm.Fin

/-!
# Lists in clumps

A list is cut into clumps of `size` consecutive elements (the last may be shorter), and the clumps
are put in another order, or distributed to several lists.  Neither loses or repeats an element.

* `Clumps.flatMap_clump` — the clumps one after the other are the list.
* `Clumps.distributed_perm` — clumps distributed to several lists.
* `Clumps.clumps`, `Clumps.Aligned` : the list of clumps, and blocks that are clumps again when
  they are put together (`Clumps.Aligned.clumps_flatten`).
* `Clumps.Reorders` : the clumps in another order; each stays in one piece.
-/

namespace Clumps

open List

variable {β : Type*}
variable {blocks : List (List β)} {xs : List β}
variable {size : ℕ}

/-- The number of clumps of a list. -/
def count (size : ℕ) (xs : List β) : ℕ := (xs.length + size - 1) / size

/-- Clump `c` of a list. -/
def clump (size : ℕ) (xs : List β) (c : ℕ) : List β := (xs.drop (c * size)).take size

theorem flatMap_clump_take (size k : ℕ) (xs : List β) :
    (List.range k).flatMap (clump size xs) = xs.take (k * size) := by
  induction k with
  | zero => simp
  | succ k ih =>
    rw [range_succ, flatMap_append, flatMap_singleton, ih, clump, Nat.succ_mul,
      take_add]

theorem flatMap_clump (hs : 0 < size) (xs : List β) :
    (List.range (count size xs)).flatMap (clump size xs) = xs := by
  rw [flatMap_clump_take, take_of_length_le]
  -- the clumps cover the list
  have hdiv := Nat.div_add_mod (xs.length + size - 1) size
  have hmod := Nat.mod_lt (xs.length + size - 1) hs
  rw [count, Nat.mul_comm]
  omega

/-- **Distributed clumps**: what `n` lists hold together when each index `c` goes to list `g c`. -/
theorem distributed_perm {n : ℕ} {g : ℕ → ℕ} {cs : List ℕ} (hg : ∀ c ∈ cs, g c < n)
    (f : ℕ → List β) :
    ((List.range n).flatMap fun k => (cs.filter fun c => g c = k).flatMap f).Perm
      (cs.flatMap f) := by
  induction cs with
  | nil => simp
  | cons c cs ih =>
    have hc : g c < n := hg c mem_cons_self
    have hspl : ∀ k, ((c :: cs).filter fun c => g c = k).flatMap f =
        (if g c ∈ [k] then f c else []) ++ (cs.filter fun c => g c = k).flatMap f := by
      intro k
      by_cases h : g c = k <;> simp [h]
    have hone : ((List.range n).flatMap fun k => if g c ∈ [k] then f c else []) = f c := by
      refine flatMap_ite_mem ?_ _
      rw [flatMap_singleton']
      exact count_eq_one_of_mem nodup_range (mem_range.2 hc)
    simp only [hspl]
    refine (flatMap_append_perm _ _ _).symm.trans ?_
    rw [hone, flatMap_cons]
    exact (ih fun c' hc' => hg c' (mem_cons_of_mem _ hc')).append_left _

/-! ### The list of clumps -/

/-- The clumps of a list. -/
def clumps (size : ℕ) (xs : List β) : List (List β) :=
  (List.range (count size xs)).map (clump size xs)

theorem flatten_clumps (hs : 0 < size) (xs : List β) : (clumps size xs).flatten = xs := by
  rw [clumps, ← flatMap_def, flatMap_clump hs]

@[simp] theorem clumps_nil (hs : 0 < size) : clumps size ([] : List β) = [] := by
  have hcnt : count size ([] : List β) = 0 := Nat.div_eq_of_lt (by simp; omega)
  rw [clumps, hcnt]
  rfl

theorem count_append (hs : 0 < size) (xs ys : List β) (hxs : xs.length = size) :
    count size (xs ++ ys) = count size ys + 1 := by
  have hlen : (xs ++ ys).length + size - 1 = ys.length + size - 1 + size := by
    rw [length_append, hxs]
    omega
  rw [count, hlen, Nat.add_div_right _ hs, count]

theorem clumps_append (hs : 0 < size) (ys : List β) (hxs : xs.length = size) :
    clumps size (xs ++ ys) = xs :: clumps size ys := by
  rw [clumps, count_append hs xs ys hxs, range_succ_eq_map, map_cons, map_map]
  refine congrArg₂ List.cons ?_ (map_congr_left fun c _ => ?_)
  · rw [clump, Nat.zero_mul, drop_zero, ← hxs, take_left]
  · rw [Function.comp_apply, clump, clump, Nat.succ_mul, ← hxs, Nat.add_comm, drop_append,
      drop_eq_nil_of_le (Nat.le_add_right _ _), nil_append, Nat.add_sub_cancel_left]

theorem clumps_of_length_le (hpos : 0 < xs.length) (hle : xs.length ≤ size) :
    clumps size xs = [xs] := by
  have hcnt : count size xs = 1 := by
    rw [count, Nat.div_eq_of_lt_le] <;> omega
  rw [clumps, hcnt]
  simp [clump, hle]

/-- Blocks of one size, the last of which may be shorter. -/
inductive Aligned (size : ℕ) : List (List β) → Prop
  | nil : Aligned size []
  | last {block : List β} : 0 < block.length → block.length ≤ size → Aligned size [block]
  | cons {block : List β} {blocks : List (List β)} : block.length = size → Aligned size blocks →
      Aligned size (block :: blocks)

/-- **Aligned blocks** are the clumps of what they hold. -/
theorem Aligned.clumps_flatten (hs : 0 < size) (h : Aligned size blocks) :
    clumps size blocks.flatten = blocks := by
  induction h with
  | nil => exact clumps_nil hs
  | last hpos hle => rw [flatten_singleton, clumps_of_length_le hpos hle]
  | cons hblk _ ih => rw [flatten_cons, clumps_append hs _ hblk, ih]

theorem Aligned.append {full : List (List β)} (hf : ∀ block ∈ full, block.length = size)
    (h : Aligned size blocks) : Aligned size (full ++ blocks) := by
  induction full with
  | nil => exact h
  | cons block full ih =>
    exact .cons (hf block mem_cons_self)
      (ih fun b hb => hf b (mem_cons_of_mem _ hb))

theorem Aligned.of_full {full : List (List β)} (hf : ∀ block ∈ full, block.length = size) :
    Aligned size full := by
  have h := Aligned.append hf .nil
  rwa [append_nil] at h

theorem Aligned.sublist {blocks' : List (List β)} (h : Aligned size blocks)
    (hsub : blocks'.Sublist blocks) : Aligned size blocks' := by
  induction h generalizing blocks' with
  | nil =>
    rw [sublist_nil.1 hsub]
    exact .nil
  | last hpos hle =>
    rcases sublist_singleton.1 hsub with rfl | rfl
    · exact .nil
    · exact .last hpos hle
  | cons hblk _ ih =>
    cases hsub with
    | cons _ hsub => exact ih hsub
    | cons_cons _ hsub => exact .cons hblk (ih hsub)

theorem aligned_clumps (hs : 0 < size) (xs : List β) : Aligned size (clumps size xs) := by
  induction hn : xs.length using Nat.strong_induction_on generalizing xs with
  | _ n ih =>
    rcases Nat.lt_or_ge size n with hlt | hle
    · have ht : (xs.take size).length = size := by
        rw [length_take]
        omega
      rw [← take_append_drop size xs, clumps_append hs _ ht]
      refine .cons ht (ih _ ?_ _ rfl)
      rw [length_drop]
      omega
    · rcases Nat.eq_zero_or_pos n with rfl | hpos
      · rw [length_eq_zero_iff.1 hn, clumps_nil hs]
        exact .nil
      · rw [clumps_of_length_le (hn ▸ hpos) (hn ▸ hle)]
        exact .last (hn ▸ hpos) (hn ▸ hle)

theorem clumps_append_of_dvd (hs : 0 < size) (ys : List β) (hxs : size ∣ xs.length) :
    clumps size (xs ++ ys) = clumps size xs ++ clumps size ys := by
  obtain ⟨m, hm⟩ := hxs
  induction m generalizing xs with
  | zero =>
    rw [length_eq_zero_iff.1 hm, clumps_nil hs]
    rfl
  | succ m ih =>
    have ht : (xs.take size).length = size := by
      rw [length_take, hm, Nat.mul_succ]
      omega
    have hd : (xs.drop size).length = size * m := by
      rw [length_drop, hm, Nat.mul_succ]
      omega
    rw [← take_append_drop size xs, append_assoc, clumps_append hs _ ht,
      clumps_append hs _ ht, ih hd]
    rfl

theorem length_of_mem_clumps_of_dvd (hs : 0 < size) (hxs : size ∣ xs.length) {block : List β}
    (hblk : block ∈ clumps size xs) : block.length = size := by
  obtain ⟨m, hm⟩ := hxs
  obtain ⟨c, hc, rfl⟩ := mem_map.1 hblk
  have hcnt : count size xs = m := by
    rw [count, hm, Nat.div_eq_of_lt_le] <;> rw [Nat.mul_comm]
    · omega
    · rw [Nat.succ_mul]
      omega
  rw [mem_range, hcnt] at hc
  have hle : (c + 1) * size ≤ m * size := Nat.mul_le_mul_right size hc
  rw [clump, length_take, length_drop, hm, Nat.mul_comm size m]
  rw [Nat.succ_mul] at hle
  omega

/-! ### Clumps in another order -/

/-- The clumps of a list in another order, one after the other. -/
def Reorders (size : ℕ) (xs ys : List β) : Prop :=
  ∃ order : List (List β), order.Perm (clumps size xs) ∧ ys = order.flatten

theorem Reorders.perm (hs : 0 < size) {ys : List β} (h : Reorders size xs ys) : ys.Perm xs := by
  obtain ⟨order, hp, rfl⟩ := h
  have hflat := hp.flatten
  rwa [flatten_clumps hs] at hflat

/-- A clump stays in one piece. -/
theorem Reorders.isInfix {ys : List β} (h : Reorders size xs ys) {c : ℕ} (hc : c < count size xs) :
    clump size xs c <:+: ys := by
  obtain ⟨order, hp, rfl⟩ := h
  have hmem : clump size xs c ∈ order :=
    hp.mem_iff.2 (mem_map.2 ⟨c, mem_range.2 hc, rfl⟩)
  obtain ⟨before, after, rfl⟩ := append_of_mem hmem
  exact ⟨before.flatten, after.flatten, by simp⟩

theorem reorders_perm (size : ℕ) (xs : List β) (σ : Equiv.Perm (Fin (count size xs))) :
    Reorders size xs (((List.finRange (count size xs)).map σ).flatMap
      fun c : Fin (count size xs) => clump size xs c) := by
  refine ⟨((List.finRange (count size xs)).map σ).map fun c : Fin (count size xs) =>
    clump size xs c, ?_, flatMap_def ..⟩
  refine ((Equiv.Perm.map_finRange_perm σ).map _).trans (List.Perm.of_eq ?_)
  rw [clumps, ← map_coe_finRange_eq_range, map_map]
  rfl

end Clumps
