import Mathlib.Data.Nat.Basic
import Mathlib.Tactic.Common

/-!
# Retry loops

A body is run again after a failure that allows it, up to a number of times.  The body is told how
often it has failed.

* `Attempt` : how a run of the body ends.
* `retry` : the loop.
* `retry_spec` — which runs of the body a loop has made, with an invariant between them.
-/

variable {S ε α : Type}

/-- How a run of the body ends: with a result, or with an error after which it may be run again. -/
inductive Attempt (ε α : Type)
  | done (result : Except ε α)
  | again (error : ε)

/-- Run a body, which has failed a number of times, and again up to `left` times. -/
def retry (body : ℕ → S → S × Attempt ε α) : ℕ → ℕ → S → S × Except ε α
  | 0, failures, s =>
    match body failures s with
    | (s', .done result) => (s', result)
    | (s', .again error) => (s', .error error)
  | left + 1, failures, s =>
    match body failures s with
    | (s', .done result) => (s', result)
    | (s', .again _) => retry body left (failures + 1) s'

variable {body : ℕ → S → S × Attempt ε α} {I : ℕ → S → Prop}

theorem retry_done {left k : ℕ} {s s' : S} {result : Except ε α}
    (h : body k s = (s', .done result)) : retry body left k s = (s', result) := by
  cases left <;> simp [retry, h]

theorem retry_zero {k : ℕ} {s s' : S} {e : ε} (h : body k s = (s', .again e)) :
    retry body 0 k s = (s', .error e) := by
  simp [retry, h]

theorem retry_succ {left k : ℕ} {s s' : S} {e : ε} (h : body k s = (s', .again e)) :
    retry body (left + 1) k s = retry body left (k + 1) s' := by
  rw [retry, h]

/-- **What a loop does.**  It ends with the run of the body after `m` failures, and all runs before
that one have asked for another.  The last run is done, or there was none left. -/
theorem retry_spec
    (hstep : ∀ k s e, I k s → (body k s).2 = .again e → I (k + 1) (body k s).1)
    (left k : ℕ) (s : S) (h : I k s) :
    ∃ m s', k ≤ m ∧ m ≤ k + left ∧ I m s' ∧
      (∀ j, k ≤ j → j < m → ∃ s e, I j s ∧ (body j s).2 = .again e) ∧
      (retry body left k s).1 = (body m s').1 ∧
      ((body m s').2 = .done (retry body left k s).2 ∨
        ∃ e, (body m s').2 = .again e ∧ m = k + left ∧ (retry body left k s).2 = .error e) := by
  induction left generalizing k s with
  | zero =>
    refine ⟨k, s, le_rfl, le_rfl, h, fun j hj hlt => absurd hlt (by omega), ?_⟩
    rcases hbody : body k s with ⟨s', result | error⟩
    · rw [retry_done hbody]
      exact ⟨rfl, .inl rfl⟩
    · rw [retry_zero hbody]
      exact ⟨rfl, .inr ⟨error, rfl, rfl, rfl⟩⟩
  | succ left ih =>
    rcases hbody : body k s with ⟨s', result | error⟩
    · refine ⟨k, s, le_rfl, by omega, h, fun j hj hlt => absurd hlt (by omega), ?_⟩
      rw [retry_done hbody, hbody]
      exact ⟨rfl, .inl rfl⟩
    · have hn : I (k + 1) s' := by
        have := hstep k s error h (by rw [hbody])
        rwa [hbody] at this
      obtain ⟨m, s'', hle, hm, hI, hbef, hs, hend⟩ := ih (k + 1) s' hn
      rw [retry_succ hbody]
      refine ⟨m, s'', by omega, by omega, hI, fun j hj hlt => ?_, hs, ?_⟩
      · rcases Nat.eq_or_lt_of_le hj with rfl | hlt'
        · exact ⟨s, error, h, by rw [hbody]⟩
        · exact hbef j hlt' hlt
      · rcases hend with hd | ⟨e, hagain, hl, herr⟩
        · exact .inl hd
        · exact .inr ⟨e, hagain, by omega, herr⟩
