import Mathlib.Order.WellFounded

/-!
# Kernels

A kernel of a relation is a set that keeps an element exactly when none of the elements before it is
kept: no two kept elements are related, and everything left out has a kept element before it.  On a
well-founded relation there is one kernel, whatever procedure computed it.

* `IsKernel` : the elements left out of a kernel.
* `IsKernel.independent`, `IsKernel.dominated` — what a kernel is for.
* `IsKernel.unique` — two procedures that leave out a kernel leave out the same elements.
-/

variable {α : Type*} {r : α → α → Prop} {removed removed' : Set α}

/-- An element is left out exactly when an element before it is kept. -/
def IsKernel (r : α → α → Prop) (removed : Set α) : Prop :=
  ∀ v, v ∈ removed ↔ ∃ u, r u v ∧ u ∉ removed

namespace IsKernel

theorem independent (h : IsKernel r removed) {u v : α} (hu : u ∉ removed) (hv : v ∉ removed) :
    ¬ r u v :=
  fun huv => hv ((h v).2 ⟨u, huv, hu⟩)

theorem dominated (h : IsKernel r removed) {v : α} (hv : v ∈ removed) : ∃ u, r u v ∧ u ∉ removed :=
  (h v).1 hv

/-- **A well-founded relation has one kernel.** -/
theorem unique (hwf : WellFounded r) (h : IsKernel r removed) (h' : IsKernel r removed') :
    removed = removed' := by
  ext v
  -- whether `v` is left out is decided by the elements before it
  induction v using hwf.induction with
  | _ v ih =>
    rw [h v, h' v]
    refine exists_congr fun u => and_congr_right fun huv => not_congr (ih u huv)

end IsKernel
