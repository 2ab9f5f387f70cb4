import Mathlib.Data.List.Induction
import Mathlib.Data.Nat.Find
import Mathlib.Order.Basic

/-!
# Finite runs and infinite traces

A system is a function that says what an action makes of a state, if the action can be taken.
Safety is about the states that finite runs reach; progress is about infinite traces, in which some
actions are taken again and again.

* `Reaches`, `Reaches.invariant` : finite runs, and what every step keeps.
* `Trace` : an infinite run.
* `Trace.invariant`, `Trace.persists` — what every step keeps holds from then on.
* `Trace.settles` — a rank that no step raises is constant from some point on.
* `Trace.exists_first` — the first of the actions of a kind, and what is kept until then.
-/

variable {σ α : Type*}

/-- Finite runs of a system. -/
inductive Reaches (step : σ → α → Option σ) (s : σ) : σ → Prop
  | refl : Reaches step s s
  | tail {s' s'' : σ} {a : α} : Reaches step s s' → step s' a = some s'' → Reaches step s s''

/-- **The invariant rule** for finite runs. -/
theorem Reaches.invariant {step : σ → α → Option σ} {I : σ → Prop} {s s' : σ}
    (h : Reaches step s s') (hI : I s) (hs : ∀ s a s', step s a = some s' → I s → I s') :
    I s' := by
  induction h with
  | refl => exact hI
  | tail _ ha ih => exact hs _ _ _ ha ih

theorem Reaches.of_foldlM {step : σ → α → Option σ} {s s' : σ} {actions : List α}
    (h : actions.foldlM step s = some s') : Reaches step s s' := by
  induction actions using List.reverseRecOn generalizing s' with
  | nil =>
    cases h
    exact .refl
  | append_singleton actions a ih =>
    rw [List.foldlM_append] at h
    obtain ⟨s₁, hs₁, h⟩ := Option.bind_eq_some_iff.1 h
    obtain ⟨s₂, hs₂, h⟩ := Option.bind_eq_some_iff.1 h
    cases h
    exact (ih hs₁).tail hs₂

/-- An infinite run of a system. -/
structure Trace (step : σ → α → Option σ) where
  state : ℕ → σ
  action : ℕ → α
  next : ∀ n, step (state n) (action n) = some (state (n + 1))

namespace Trace

variable {step : σ → α → Option σ} {t : Trace step} {n m : ℕ}

/-- What every step keeps holds from then on. -/
theorem persists {I : σ → Prop} (hs : ∀ s a s', step s a = some s' → I s → I s')
    (hn : I (t.state n)) (hle : n ≤ m) : I (t.state m) := by
  induction m, hle using Nat.le_induction with
  | base => exact hn
  | succ m _ ih => exact hs _ _ _ (t.next m) ih

/-- **The invariant rule** for traces. -/
theorem invariant {I : σ → Prop} (hs : ∀ s a s', step s a = some s' → I s → I s')
    (hI : I (t.state 0)) (n : ℕ) : I (t.state n) :=
  persists hs hI (Nat.zero_le n)

/-- **A rank that no step raises is constant from some point on.** -/
theorem settles (rank : ℕ → ℕ) (hrank : ∀ n, rank (n + 1) ≤ rank n) :
    ∃ N, ∀ n, N ≤ n → rank n = rank N := by
  classical
  have hanti : ∀ {n m}, n ≤ m → rank m ≤ rank n := fun {n m} hle => by
    induction m, hle using Nat.le_induction with
    | base => exact le_rfl
    | succ m _ ih => exact (hrank m).trans ih
  -- the least rank that is ever reached
  have hex : ∃ k n, rank n = k := ⟨rank 0, 0, rfl⟩
  obtain ⟨N, hN⟩ := Nat.find_spec hex
  refine ⟨N, fun n hn => le_antisymm (hanti hn) ?_⟩
  rw [hN]
  exact Nat.find_min' hex ⟨n, rfl⟩

/-- The first action of a kind from a point on, and what the other actions keep until then. -/
theorem exists_first {P : α → Prop} {I : ℕ → Prop} (hex : ∃ m, n ≤ m ∧ P (t.action m)) (hn : I n)
    (hkeep : ∀ k, n ≤ k → ¬ P (t.action k) → I k → I (k + 1)) :
    ∃ m, n ≤ m ∧ P (t.action m) ∧ I m := by
  classical
  obtain ⟨hle, hP⟩ := Nat.find_spec hex
  refine ⟨Nat.find hex, hle, hP, ?_⟩
  have huntil : ∀ k, n ≤ k → k ≤ Nat.find hex → I k := by
    intro k hk
    induction k, hk using Nat.le_induction with
    | base => exact fun _ => hn
    | succ k hk ih =>
      intro hlt
      exact hkeep k hk (fun hPk => Nat.find_min hex (by omega) ⟨hk, hPk⟩) (ih (by omega))
  exact huntil _ hle le_rfl

end Trace
