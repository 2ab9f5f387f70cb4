import Mathlib.Logic.Relation

/-!
# Relations without cycles

* `Acyclic` : nothing leads back to itself.
* `Acyclic.mono` — fewer edges make no cycle.
* `Acyclic.insert` — an edge makes no cycle when its end does not lead back to its beginning.
* `Acyclic.of_kept` — new elements that no edge leads to make no cycle.
-/

namespace LanceDB

open Relation

variable {α : Type*} {r r' : α → α → Prop}

/-- No element leads back to itself. -/
def Acyclic (r : α → α → Prop) : Prop := ∀ a, ¬ TransGen r a a

theorem Acyclic.mono (h : Acyclic r) (hsub : ∀ a b, r' a b → r a b) : Acyclic r' :=
  fun a hcyc => h a (TransGen.mono hsub _ _ hcyc)

/-- A path with one more edge: it is a path without it, or it goes over the edge. -/
theorem TransGen.of_insert {a b : α} (hr : ∀ x y, r' x y → r x y ∨ (x = a ∧ y = b)) {x y : α}
    (hp : TransGen r' x y) :
    TransGen r x y ∨ (ReflTransGen r x a ∧ ReflTransGen r b y) := by
  have hedge : ∀ {x y}, r' x y → TransGen r x y ∨ (ReflTransGen r x a ∧ ReflTransGen r b y) := by
    intro x y hxy
    rcases hr x y hxy with hold | ⟨rfl, rfl⟩
    · exact .inl (.single hold)
    · exact .inr ⟨.refl, .refl⟩
  induction hp with
  | single hxy => exact hedge hxy
  | tail _ hyz ih =>
    rcases ih with hold | ⟨hxa, hby⟩ <;> rcases hedge hyz with hold' | ⟨hya, hbz⟩
    · exact .inl (hold.trans hold')
    · exact .inr ⟨hold.to_reflTransGen.trans hya, hbz⟩
    · exact .inr ⟨hxa, hby.trans hold'.to_reflTransGen⟩
    · exact .inr ⟨hxa, hbz⟩

/-- **One more edge** makes no cycle when its end does not lead back to its beginning. -/
theorem Acyclic.insert {a b : α} (h : Acyclic r) (hr : ∀ x y, r' x y → r x y ∨ (x = a ∧ y = b))
    (hback : ¬ ReflTransGen r b a) : Acyclic r' := by
  intro x hcyc
  rcases TransGen.of_insert hr hcyc with hold | ⟨hxa, hbx⟩
  · exact h x hold
  · exact hback (hbx.trans hxa)

/-- **Elements that no edge leads to** make no cycle: a cycle passes over the kept elements only,
and their edges were there before. -/
theorem Acyclic.of_kept {kept : α → Prop} (h : Acyclic r) (hin : ∀ a b, r' a b → kept b)
    (hout : ∀ a b, kept a → r' a b → r a b) : Acyclic r' := by
  have hp : ∀ {a b}, kept a → TransGen r' a b → TransGen r a b := by
    intro a b ha hab
    induction hab with
    | single hab => exact .single (hout _ _ ha hab)
    | tail hab hbc ih =>
      obtain ⟨c, -, hcb⟩ := TransGen.tail'_iff.1 hab
      exact ih.tail (hout _ _ (hin _ _ hcb) hbc)
  intro a hcyc
  obtain ⟨b, -, hba⟩ := TransGen.tail'_iff.1 hcyc
  exact h a (hp (hin _ _ hba) hcyc)

end LanceDB
