import Mathlib

/-!
# Hoare triples over `EStateM`

The stateful parts of the model are programs in `EStateM`, specified by Hoare triples.

* `EStateM.triple_iff` — what a triple says about the value of a run.
* `EStateM.ok_of_triple` — what it says of a run that returns.
* `EStateM.triple_exists` — an auxiliary variable of a triple may be chosen by the start state.
* `EStateM.triple_bind` — sequencing, where the second triple is chosen by the state in between.
-/

open Std.Do

namespace EStateM

variable {ε σ α : Type} {P : σ → Prop} {Q : α → σ → Prop} {E : ε → σ → Prop}
  {m : EStateM ε σ α}

/-! ### Running a program step by step -/

@[simp] theorem bind_apply {β : Type} (m : EStateM ε σ α) (f : α → EStateM ε σ β) (s : σ) :
    (m >>= f) s = match m s with
      | .ok a s' => f a s'
      | .error e s' => .error e s' := rfl

@[simp] theorem map_apply {β : Type} (g : α → β) (m : EStateM ε σ α) (s : σ) :
    (g <$> m) s = match m s with
      | .ok a s' => .ok (g a) s'
      | .error e s' => .error e s' := rfl

@[simp] theorem pure_apply (a : α) (s : σ) : (pure a : EStateM ε σ α) s = .ok a s := rfl

@[simp] theorem get_apply (s : σ) : (get : EStateM ε σ σ) s = .ok s s := rfl

@[simp] theorem modify_apply (f : σ → σ) (s : σ) :
    (modify f : EStateM ε σ PUnit) s = .ok () (f s) := rfl

/-- The value a run returns, if it does not raise. -/
def Result.value? : Result ε σ α → Option α
  | .ok a _ => some a
  | .error _ _ => none

theorem Result.exists_of_value? {r : Result ε σ α} {a : α} (h : r.value? = some a) :
    ∃ s, r = .ok a s := by
  cases r with
  | ok b s =>
    obtain rfl : b = a := by simpa [value?] using h
    exact ⟨s, rfl⟩
  | error e s => simp [value?] at h

theorem Result.error_of_value? {r : Result ε σ α} (h : r.value? = none) :
    ∃ e s, r = .error e s := by
  cases r with
  | ok a s => simp [value?] at h
  | error e s => exact ⟨e, s, rfl⟩

/-! ### Triples -/

/-- A triple with a postcondition `Q` and an exceptional one `E`. -/
abbrev Spec (P : σ → Prop) (m : EStateM ε σ α) (Q : α → σ → Prop) (E : ε → σ → Prop) : Prop :=
  ⦃fun s => ⌜P s⌝⦄ m ⦃post⟨fun a s => ⌜Q a s⌝, fun e s => ⌜E e s⌝⟩⦄

/-- A triple holds when every run from a state of the precondition ends in the postcondition, or
raises in the exceptional one. -/
theorem triple_iff :
    Spec P m Q E ↔
      ∀ s, P s → (∀ a s', m s = .ok a s' → Q a s') ∧ (∀ e s', m s = .error e s' → E e s') := by
  constructor
  · intro h s hs
    have := h s hs
    simp only [WP.wp, PredTrans.apply, EStateM.run] at this
    constructor
    · intro a s' hm
      rw [hm] at this
      exact this
    · intro e s' hm
      rw [hm] at this
      exact this
  · intro h s hs
    obtain ⟨hok, herr⟩ := h s hs
    simp only [WP.wp, PredTrans.apply, EStateM.run]
    cases hm : m s with
    | ok a s' => exact hok a s' hm
    | error e s' => exact herr e s' hm

/-- A run that returns satisfies the postcondition of every triple of the program. -/
theorem ok_of_triple (h : Spec P m Q E) {s s' : σ} {a : α} (hs : P s) (hm : m s = .ok a s') :
    Q a s' :=
  (triple_iff.1 h s hs).1 a s' hm

/-- An auxiliary variable may be chosen by the state the program starts in. -/
theorem triple_exists {ι : Type} {P : ι → σ → Prop} {Q : ι → α → σ → Prop}
    (h : ∀ x, Spec (P x) m (Q x) E) :
    Spec (fun s => ∃ x, P x s) m (fun a s => ∃ x, Q x a s) E := by
  refine triple_iff.2 fun s ⟨x, hs⟩ => ?_
  obtain ⟨hok, herr⟩ := triple_iff.1 (h x) s hs
  exact ⟨fun a s' hm => ⟨x, hok a s' hm⟩, herr⟩

/-- Sequencing, where the precondition of the second program is chosen by the state the first one
ends in. -/
theorem triple_bind {β : Type} {R : α → σ → Prop} {T : β → σ → Prop} {f : α → EStateM ε σ β}
    (hm : Spec P m R E) (hf : ∀ a s, R a s → ∃ P', P' s ∧ Spec P' (f a) T E) :
    Spec P (m >>= f) T E := by
  refine triple_iff.2 fun s hs => ?_
  obtain ⟨hok, herr⟩ := triple_iff.1 hm s hs
  rw [bind_apply]
  cases hms : m s with
  | ok a s' =>
    obtain ⟨P', hP', hfa⟩ := hf a s' (hok a s' hms)
    exact triple_iff.1 hfa s' hP'
  | error e s' =>
    refine ⟨fun b t ht => (by cases ht), fun e' t ht => ?_⟩
    cases ht
    exact herr e s' hms

end EStateM
