import Mathlib.Data.List.Count

/-!
# Committing the snapshots of several producers

Each key is owned by at most one producer.  A producer sends snapshots of *all* keys: its own
keys move on from snapshot to snapshot, the others stay where they were at the start.  A consumer
merges the snapshots in the order they arrive, keeping for each key the value that is further on.

* `Merge V` : an order of progress on the values of a key, and the merge that keeps the further one.
* `Producers M` : the producers, their keys and their snapshots.
* `Producers.current` : what the owners had reached with the snapshots that have arrived.
* `Producers.merge_current` — one arrival; `Producers.deliver_owner` — any arrivals, in any order
  that keeps the order of each producer.
-/

namespace LanceDB

open Function

namespace Deliveries

universe u v w

/-- A merge that keeps the value that is further on. -/
structure Merge (V : Type u) where
  /-- The second value is at least as far on as the first. -/
  le : V → V → Prop
  le_refl : ∀ a, le a a
  merge : V → V → V
  merge_of_le : ∀ {a b}, le a b → merge a b = b
  merge_of_ge : ∀ {a b}, le b a → merge a b = a

/-- Producers of snapshots over the keys `κ`. -/
structure Producers {V : Type u} (M : Merge V) (κ : Type v) (ω : Type w) where
  /-- The values of the keys when the producers start. -/
  init : κ → V
  /-- The producer that owns a key. -/
  owner : κ → Option ω
  /-- The `m`-th snapshot of a producer; the `0`-th is the start. -/
  snap : ω → ℕ → κ → V
  snap_zero : ∀ p k, snap p 0 k = init k
  mono : ∀ p k, owner k = some p → ∀ m m', m ≤ m' → M.le (snap p m k) (snap p m' k)
  foreign : ∀ p k, owner k ≠ some p → ∀ m, snap p m k = init k

variable {V : Type u} {M : Merge V} {κ : Type v} {ω : Type w} [DecidableEq ω]

/-- Snapshots arrive one after the other, each the next one of its producer. -/
def deliver {σ E : Type*} (commit : σ → ω → ℕ → Except E σ) :
    (ω → ℕ) → σ → List ω → Except E σ
  | _, st, [] => .ok st
  | arrived, st, p :: trace =>
    match commit st p (arrived p + 1) with
    | .error e => .error e
    | .ok st => deliver commit (update arrived p (arrived p + 1)) st trace

namespace Producers

variable (P : Producers M κ ω)

/-- What the owner of a key had reached with its last snapshot that has arrived. -/
def current (arrived : ω → ℕ) (k : κ) : V :=
  match P.owner k with
  | some p => P.snap p (arrived p) k
  | none => P.init k

variable {P}
variable {arrived : ω → ℕ}

omit [DecidableEq ω] in
theorem current_of_owner {k : κ} {p : ω} (h : P.owner k = some p) :
    P.current arrived k = P.snap p (arrived p) k := by
  simp only [current, h]

omit [DecidableEq ω] in
theorem current_of_none {k : κ} (h : P.owner k = none) : P.current arrived k = P.init k := by
  simp only [current, h]

omit [DecidableEq ω] in
theorem current_zero (k : κ) : P.current (fun _ => 0) k = P.init k := by
  cases h : P.owner k with
  | none => exact current_of_none h
  | some p => rw [current_of_owner h, P.snap_zero]

/-- **One arrival**: merging the next snapshot of a producer moves exactly its own keys on. -/
theorem merge_current (arrived : ω → ℕ) (p : ω) (k : κ) :
    M.merge (P.current arrived k) (P.snap p (arrived p + 1) k) =
      P.current (update arrived p (arrived p + 1)) k := by
  by_cases hown : P.owner k = some p
  · rw [current_of_owner hown, current_of_owner hown, update_self]
    exact M.merge_of_le (P.mono p k hown _ _ (Nat.le_succ _))
  · -- a foreign entry is at the start, and the owner is not behind it
    rw [P.foreign p k hown]
    cases howner : P.owner k with
    | none =>
      rw [current_of_none howner, current_of_none howner]
      exact M.merge_of_le (M.le_refl _)
    | some q =>
      have hqp : q ≠ p := by
        rintro rfl
        exact hown howner
      rw [current_of_owner howner, current_of_owner howner, update_of_ne hqp]
      refine M.merge_of_ge ?_
      rw [← P.snap_zero q k]
      exact P.mono q k howner _ _ (Nat.zero_le _)

/-- **Any arrivals**: if a commit merges a snapshot into what is visible of a state, then after any
arrivals every key is where its owner was with its last snapshot that has arrived. -/
theorem deliver_current {σ E : Type*} {commit : σ → ω → ℕ → Except E σ} {view : σ → κ → V}
    (hcmt : ∀ st p m, ∃ st', commit st p m = .ok st' ∧
    ∀ k, view st' k = M.merge (view st k) (P.snap p m k)) (trace : List ω) {st : σ}
    (hview : ∀ k, view st k = P.current arrived k) :
    ∃ st', deliver commit arrived st trace = .ok st' ∧
      ∀ k, view st' k = P.current (fun p => arrived p + trace.count p) k := by
  induction trace generalizing st arrived with
  | nil => exact ⟨st, rfl, hview⟩
  | cons p trace ih =>
    obtain ⟨st₁, hst₁, hview₁⟩ := hcmt st p (arrived p + 1)
    have hview' : ∀ k, view st₁ k = P.current (update arrived p (arrived p + 1)) k := by
      intro k
      rw [hview₁, hview, merge_current]
    obtain ⟨st₂, hst₂, hview₂⟩ := ih hview'
    refine ⟨st₂, by rw [deliver, hst₁]; exact hst₂, fun k => ?_⟩
    rw [hview₂]
    congr 1
    funext q
    by_cases hq : q = p
    · subst hq
      rw [update_self, List.count_cons_self]
      omega
    · rw [update_of_ne hq, List.count_cons_of_ne (Ne.symm hq)]

/-- Arrivals from the start on, key by key. -/
theorem deliver_owner {σ E : Type*} {commit : σ → ω → ℕ → Except E σ} {view : σ → κ → V}
    (hcmt : ∀ st p m, ∃ st', commit st p m = .ok st' ∧
      ∀ k, view st' k = M.merge (view st k) (P.snap p m k))
    (trace : List ω) {st : σ} (hview : ∀ k, view st k = P.init k) :
    ∃ st', deliver commit (fun _ => 0) st trace = .ok st' ∧
      (∀ k p, P.owner k = some p → view st' k = P.snap p (trace.count p) k) ∧
      ∀ k, P.owner k = none → view st' k = P.init k := by
  obtain ⟨st', hst', hview'⟩ := deliver_current hcmt trace fun k => by rw [hview, current_zero]
  simp only [Nat.zero_add] at hview'
  exact ⟨st', hst', fun k p hp => by rw [hview', current_of_owner hp],
    fun k hn => by rw [hview', current_of_none hn]⟩

end Producers

end Deliveries

end LanceDB
