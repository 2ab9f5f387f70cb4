import LanceDB.Remote.TokenRotation

/-!
# What a logout leaves behind

`logout` deletes the cached record without the file lock.  A refresh that has read the record by
then stores the token it gets for it afterwards, and so does a login or an acquisition that has
started before: the identity is logged in again, with no login after the logout.

* `Role.carries` : a call that may still store a token.
* `Undisturbed` : no such call is there when a record is deleted by a logout.
* `logout_undone` — a refresh brings the session back.
* `logout_permanent` — in a run whose logouts are all undisturbed, nothing is cached after a logout
  until the next login or acquisition starts.
-/

namespace LanceDB.TokenCache

open Machine

/-- The call has a token that it may store, or waits for one. -/
def Role.carries : Role → Bool
  | .outside | .holder => false
  | _ => true

/-- When a logout deletes the record, no other call may still store a token, and none starts to
acquire one before the logout has returned. -/
def Undisturbed : Condition State Thread Action := fun c i a =>
  (c.thread i = .deleting → ∀ j, j ≠ i → (c.thread j).role.carries = false) ∧
    ∀ s' t', step c.shared (c.thread i) a = some (s', t', some .acquires) →
      ∀ j, c.thread j ≠ .deleted

/-- Nothing is cached, and no call may store a token. -/
structure Clear (c : Config State Thread) : Prop where
  cache : c.shared.session.cache = none
  idle : ∀ i, (c.thread i).role.carries = false

/-- Without a token, a call can only acquire one. -/
theorem Flow.clear {s s' : Session} {r r' : Role} {o : Option Event} (h : Flow s r s' r' o)
    (hca : s.cache = none) (hr : r.carries = false) (ho : o ≠ some .acquires) :
    s'.cache = none ∧ r'.carries = false := by
  cases h <;> simp_all [Role.carries, Session.delete]

variable {s s' : State}

theorem refresh_ne_deleted {h token : ℕ} {answer : Answer} {o : Option Event} :
    refresh s h token answer ≠ some (s', .deleted, o) := by
  cases answer with
  | refreshed returned => cases returned <;> simp [refresh]
  | _ => simp [refresh]

theorem refresh_ne_loggedOut {h token : ℕ} {answer : Answer} {t' : Thread} :
    refresh s h token answer ≠ some (s', t', some .loggedOut) := by
  cases answer with
  | refreshed returned => cases returned <;> simp [refresh]
  | _ => simp [refresh]

theorem step_deleted {t : Thread} {a : Action} {o : Option Event}
    (h : step s t a = some (s', .deleted, o)) : t = .deleting ∧ s'.session.cache = none := by
  rw [step.eq_def] at h
  split at h
  all_goals try cases h
  all_goals try split_ifs at h
  all_goals try cases h
  · split at h <;> cases h
  · exact absurd h refresh_ne_deleted
  · exact ⟨rfl, rfl⟩

theorem step_loggedOut {t t' : Thread} {a : Action}
    (h : step s t a = some (s', t', some .loggedOut)) : t = .deleted := by
  rw [step.eq_def] at h
  split at h
  all_goals try cases h
  all_goals try split_ifs at h
  all_goals try cases h
  · split at h <;> cases h
  · exact absurd h refresh_ne_loggedOut
  · rfl

section

variable {C : Condition State Thread Action} {c c' : Config State Thread} {i : ℕ}
  {o : Option Event}

theorem Clear.fires (h : Clear c) (hf : machine.Fires C c i o c') (ho : o ≠ some .acquires) :
    Clear c' := by
  obtain ⟨a, hs, -, hoth⟩ := hf.exists_step
  obtain ⟨hca, hown⟩ := (flow_of_step hs).clear h.cache (h.idle i) ho
  refine ⟨hca, fun j => ?_⟩
  by_cases hj : j = i
  · rwa [hj]
  · rw [hoth j hj]
    exact h.idle j

/-- Nothing is stored until the next acquisition starts. -/
theorem Clear.run {es : List (ℕ × Event)} (h : Clear c) (hrun : machine.Run C c es c')
    (hes : ∀ e ∈ es, e.2 ≠ .acquires) : Clear c' := by
  induction hrun with
  | refl c => exact h
  | silent hf _ ih => exact ih (h.fires hf (by simp)) hes
  | event hf _ ih =>
    obtain ⟨he, hes⟩ := List.forall_mem_cons.1 hes
    exact ih (h.fires hf (by simpa using he)) hes

theorem clear_of_deleted (hf : machine.Fires Undisturbed c i o c')
    (h : ∀ j, c.thread j = .deleted → Clear c) : ∀ j, c'.thread j = .deleted → Clear c' := by
  intro j hj
  obtain ⟨a, hs, hq, hoth⟩ := hf.exists_step
  by_cases hji : j = i
  · subst hji
    rw [hj] at hs
    obtain ⟨hdel, hca⟩ := step_deleted hs
    refine ⟨hca, fun k => ?_⟩
    by_cases hk : k = j
    · rw [hk, hj]
      rfl
    · rw [hoth k hk]
      exact hq.1 hdel k hk
  · rw [hoth j hji] at hj
    refine (h j hj).fires hf ?_
    rintro rfl
    exact hq.2 _ _ hs j hj

/-- **A logout that nothing disturbs is permanent**: after it has returned, no refresh token is
cached until the next login or acquisition starts. -/
theorem logout_permanent {es fs : List (ℕ × Event)} (hinit : Initial c)
    (hrun : machine.Run Undisturbed c (es ++ (i, .loggedOut) :: fs) c')
    (hfs : ∀ e ∈ fs, e.2 ≠ .acquires) : c'.shared.session.cache = none := by
  obtain ⟨c₁, c₂, hbef, hret, haft⟩ := hrun.of_append_cons
  have hclear : ∀ j, c₁.thread j = .deleted → Clear c₁ :=
    hbef.invariant (I := fun c => ∀ j, c.thread j = .deleted → Clear c)
      (fun _ _ _ _ hfi h => clear_of_deleted hfi h)
      (fun j hj => by rw [hinit.idle j] at hj; cases hj)
  have hdeleted : c₁.thread i = .deleted := by
    obtain ⟨a, t', hs, -, -⟩ := hret
    exact step_loggedOut hs
  exact (((hclear i hdeleted).fires hret (by simp)).run haft hfs).cache

end

/-- A check of the condition for three threads, of which none acquires a token. -/
def undisturbedCheck (c : Config State Thread) (i : ℕ) (a : Action) : Bool :=
  i < 3 && match c.thread i, step c.shared (c.thread i) a with
    | _, some (_, _, some .acquires) => false
    | .deleting, _ => (List.range 3).all fun j => j = i || !(c.thread j).role.carries
    | _, _ => true

theorem undisturbed_of_check {c : Config State Thread} {i : ℕ} {a : Action}
    (hi : ∀ j, 3 ≤ j → c.thread j = .idle) (h : undisturbedCheck c i a) :
    Undisturbed c i a := by
  obtain ⟨-, hchk⟩ := Bool.and_eq_true_iff.1 h
  refine ⟨fun hdel j hj => ?_, fun s' t' hs => by simp [hs] at hchk⟩
  rcases lt_or_ge j 3 with hlt | hge
  · rw [hdel] at hchk
    split at hchk
    · cases hchk
    · simpa [hj] using List.all_eq_true.1 hchk j (List.mem_range.2 hlt)
    · contradiction
  · rw [hi j hge]
    rfl

/-- A refresh is stored before thread 1 deletes the record.  Thread 2 has started another one by
then, and finds no record when it gets the file lock. -/
def demoBetween : List (ℕ × Action) :=
  demoRead 0 ++ [(0, .refresh (.refreshed (.fresh ()))), (0, .proceed), (0, .proceed),
    (1, .logout), (2, .getValidToken 2), (2, .check true), (2, .check true), (1, .proceed),
    (2, .proceed), (1, .proceed), (2, .proceed), (2, .proceed)]

theorem demoBetween_run :
    machine.Run Undisturbed demoStart ([(0, .presents 0)] ++ (1, .loggedOut) :: [])
      (machine.after demoStart demoBetween) := by
  have hexec : machine.exec undisturbedCheck demoStart demoBetween =
      some (machine.after demoStart demoBetween, [(0, .presents 0), (1, .loggedOut)]) := rfl
  have hrun := run_of_exec (C := fun c i a => undisturbedCheck c i a) (fun _ _ _ h => h) hexec
  refine hrun.strengthen (I := fun c => ∀ j, 3 ≤ j → c.thread j = .idle)
    (fun c i o c' hf hidle j hj => ?_)
    (fun _ _ _ _ _ hidle hchk => undisturbed_of_check hidle hchk) (fun _ _ => rfl)
  obtain ⟨a, -, hchk, hoth⟩ := hf.exists_step
  have hi : i < 3 := of_decide_eq_true (Bool.and_eq_true_iff.1 hchk).1
  rw [hoth j (by omega), hidle j hj]

/-- The token that a refresh has stored is gone after the logout, and the next refresh finds no
record. -/
theorem logout_permanent_demo :
    (machine.after demoStart (demoBetween.take 7)).shared.session.cache = some 1 ∧
      (machine.after demoStart demoBetween).shared.session.cache = none :=
  ⟨rfl, logout_permanent demoStart_initial demoBetween_run (by simp)⟩

/-- A logout between the answer of the server and the store. -/
def demoUndone : List (ℕ × Action) :=
  demoRead 0 ++ [(0, .refresh (.refreshed (.fresh ()))), (1, .logout), (1, .proceed), (1, .proceed),
    (0, .proceed)]

/-- **A logout may be undone by a refresh**: the token that replaces the one it has deleted is
stored afterwards. -/
theorem logout_undone : Initial demoStart ∧ ∃ c,
    machine.Run .any demoStart ([(0, .presents 0)] ++ (1, .loggedOut) :: []) c ∧
      c.shared.session.cache = some 1 :=
  ⟨demoStart_initial, machine.after demoStart demoUndone, run_after (by decide), rfl⟩

end LanceDB.TokenCache
