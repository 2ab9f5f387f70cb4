import LanceDB.Remote.TokenCache
import Mathlib.Algebra.Order.Group.Nat

/-!
# A rotated refresh token is never presented again

A new token is in the hands of one call until that call stores it; from then on it is read and
presented only under the file lock, and the call that had it rotated replaces it before the lock is
released.  Deleting the record, with the lock or without, does no harm.

* `fileLock`, `tokenLock` : the file lock, and a new token as a lock that is never free again.
* `Safe` : where the tokens are, in every reachable state.
* `Safe.fires` — every step keeps it.
* `rotated_never_presented` — no request carries a token that the server has rotated.
* `cached_not_rotated` — nor does the cache hold one while the lock is free.
-/

namespace LanceDB.TokenCache

open Machine

/-- The call holds the file lock. -/
def Role.holds : Role → Bool
  | .outside | .fetches | .brings _ => false
  | _ => true

/-- The token a call has read from the cache and may present or store again. -/
def Role.old : Role → Option ℕ
  | .reads token | .keeps token => some token
  | _ => none

/-- The token a call got from the server and has not stored yet. -/
def Role.new : Role → Option ℕ
  | .swaps _ token | .brings token | .stores token => some token
  | _ => none

variable {token : ℕ}

theorem Role.holds_of_old {r : Role} (h : r.old = some token) : r.holds = true := by
  cases r <;> simp_all [Role.old, Role.holds]

/-! ### What a flow does -/

namespace Flow

variable {s s' : Session} {r r' : Role} {o : Option Event}

theorem issued_le (h : Flow s r s' r' o) : s.issued ≤ s'.issued := by
  cases h <;> simp [Session.store, Session.delete]

/-- Only the token that a call has read is rotated, and the call gets the next one for it. -/
theorem rotated (h : Flow s r s' r' o) : s'.rotated = s.rotated ∨
    ∃ token, r = .reads token ∧ s'.rotated = token :: s.rotated ∧ r' = .swaps token s.issued := by
  cases h <;> simp [Session.store, Session.delete]

/-- The cache is left alone, deleted, or gets the token of a call. -/
theorem cache (h : Flow s r s' r' o) : s'.cache = s.cache ∨ s'.cache = none ∨
    ∃ token, s'.cache = some token ∧ r' = .holder ∧ (r = .keeps token ∨ r.new = some token) := by
  cases h <;> simp [Session.store, Session.delete, Role.new]

theorem old (h : Flow s r s' r' o) (htoken : r'.old = some token) :
    r.old = some token ∨ r = .holder ∧ s' = s ∧ s.cache = some token ∧ r' = .reads token := by
  cases h <;> simp_all [Role.old]

theorem new (h : Flow s r s' r' o) (htoken : r'.new = some token) :
    r.new = some token ∨ token = s.issued ∧ s'.issued = s.issued + 1 ∧ s'.cache = s.cache := by
  cases h <;> simp_all [Role.new]

/-- A call does not give up a new token for a rotated one before it is stored. -/
theorem swaps {rotated : ℕ} (h : Flow s (.swaps rotated token) s' r' o) :
    r' = .swaps rotated token ∨ s'.cache = some token := by
  cases h <;> simp [Session.store]

theorem presents (h : Flow s r s' r' (some (.presents token))) : r = .reads token := by
  cases h with
  | present | keep | rotate => rfl

theorem lock_cases (h : Flow s r s' r' o) : (r'.holds = r.holds ∧ s'.locked = s.locked) ∨
    (s.locked = false ∧ s'.locked = true) ∨ (r.holds = true ∧ r'.holds = false) := by
  cases h <;> simp_all [Role.holds, Session.store, Session.delete]

theorem token_cases (h : Flow s r s' r' o) (token : ℕ) :
    ((r'.new = some token ↔ r.new = some token) ∧ (token < s'.issued ↔ token < s.issued)) ∨
      (¬ token < s.issued ∧ token < s'.issued) ∨ (r.new = some token ∧ r'.new ≠ some token) := by
  cases h <;> simp [Role.new, Session.store, Session.delete] <;> omega

end Flow

/-- The file lock. -/
def fileLock : machine.Lock where
  locked s := s.session.locked = true
  holds t := t.role.holds = true
  step {s t a s' t' o} h := by
    rcases (flow_of_step h).lock_cases with ⟨hr, hs⟩ | ⟨hf, hlock⟩ | ⟨hheld, hgone⟩
    · exact .inl ⟨by rw [hr], by rw [hs]⟩
    · exact .inr (.inl ⟨by simp [hf], hlock⟩)
    · exact .inr (.inr ⟨hheld, by simp [hgone]⟩)

/-- A new token: taken when it is issued, by the call it is issued to, and never free again. -/
def tokenLock (token : ℕ) : machine.Lock where
  locked s := token < s.session.issued
  holds t := t.role.new = some token
  step h := (flow_of_step h).token_cases token

/-! ### Where the tokens are -/

/-- Where the tokens are.  The cached token is not rotated, unless a call is about to replace it;
tokens that calls have read are not rotated; and new tokens are nowhere but with the call that got
them. -/
structure Safe (c : Config State Thread) : Prop where
  lock : fileLock.Exclusive c
  token : ∀ token, (tokenLock token).Exclusive c
  rotated : ∀ token ∈ c.shared.session.rotated, token < c.shared.session.issued
  cached : ∀ token, c.shared.session.cache = some token → token < c.shared.session.issued ∧
    (token ∈ c.shared.session.rotated → ∃ i new, (c.thread i).role = .swaps token new)
  old : ∀ i token, (c.thread i).role.old = some token →
    token < c.shared.session.issued ∧ token ∉ c.shared.session.rotated
  new : ∀ i token, (c.thread i).role.new = some token →
    token ∉ c.shared.session.rotated ∧ c.shared.session.cache ≠ some token ∧
      ∀ j, (c.thread j).role.old ≠ some token

theorem Initial.safe {c : Config State Thread} (h : Initial c) : Safe c := by
  obtain ⟨hunlocked, hrot, hissued, hi⟩ := h
  have hrole : ∀ i, (c.thread i).role = .outside := fun i => by rw [hi i]; rfl
  constructor
  · constructor <;> simp [fileLock, hrole, Role.holds]
  · intro token
    constructor <;> simp [tokenLock, hrole, Role.new]
  · simp [hrot]
  · exact fun token htoken => ⟨hissued token htoken, by simp [hrot]⟩
  · simp [hrole, Role.old]
  · simp [hrole, Role.new]

/-- What a step of call `i` does to the tokens. -/
structure Moves (c : Config State Thread) (i : ℕ) (o : Option Event) (c' : Config State Thread) :
    Prop where
  flow : Flow c.shared.session (c.thread i).role c'.shared.session (c'.thread i).role o
  other : ∀ k, k ≠ i → c'.thread k = c.thread k

section

variable {c c' : Config State Thread} {i : ℕ} {o : Option Event}

theorem moves_of_fires (h : machine.Fires .any c i o c') : Moves c i o c' := by
  obtain ⟨a, hs, -, hoth⟩ := h.exists_step
  exact ⟨flow_of_step hs, hoth⟩

namespace Safe

theorem rotated_moves (h : Safe c) (hm : Moves c i o c') :
    ∀ token ∈ c'.shared.session.rotated, token < c'.shared.session.issued := by
  intro token hmem
  have hle := hm.flow.issued_le
  rcases hm.flow.rotated with heq | ⟨token', hrds, heq, -⟩
  · rw [heq] at hmem
    exact (h.rotated token hmem).trans_le hle
  · rw [heq, List.mem_cons] at hmem
    rcases hmem with rfl | hmem
    · exact (h.old i token (by rw [hrds]; rfl)).1.trans_le hle
    · exact (h.rotated token hmem).trans_le hle

theorem replaced_moves (h : Safe c) (hm : Moves c i o c')
    (heq : c'.shared.session.cache = c.shared.session.cache)
    (hca : c.shared.session.cache = some token) (hmem : token ∈ c'.shared.session.rotated) :
    ∃ j new, (c'.thread j).role = .swaps token new := by
  by_cases hrot : token ∈ c.shared.session.rotated
  · obtain ⟨j, new, hj⟩ := (h.cached token hca).2 hrot
    by_cases hji : j = i
    · subst hji
      have hflow := hm.flow
      rw [hj] at hflow
      rcases hflow.swaps with hkeep | hsto
      · exact ⟨j, new, hkeep⟩
      · -- the new token is not in the cache yet
        exact absurd (heq ▸ hsto) (h.new j new (by rw [hj]; rfl)).2.1
    · exact ⟨j, new, by rw [hm.other j hji, hj]⟩
  · rcases hm.flow.rotated with heq' | ⟨token', hrds, heq', hsw⟩
    · exact absurd (heq' ▸ hmem) hrot
    · rw [heq', List.mem_cons] at hmem
      rcases hmem with rfl | hmem
      · exact ⟨i, _, hsw⟩
      · exact absurd hmem hrot

theorem cached_moves (h : Safe c) (hm : Moves c i o c')
    (hca : c'.shared.session.cache = some token) :
    token < c'.shared.session.issued ∧
      (token ∈ c'.shared.session.rotated → ∃ j new, (c'.thread j).role = .swaps token new) := by
  have hle := hm.flow.issued_le
  rcases hm.flow.cache with heq | hn | ⟨token', hsto, hrole, hsrc⟩
  · have hca' := heq ▸ hca
    exact ⟨(h.cached token hca').1.trans_le hle, h.replaced_moves hm heq hca'⟩
  · rw [hn] at hca
    cases hca
  · obtain rfl : token' = token := by
      rw [hsto] at hca
      exact Option.some.inj hca
    have hs : c'.shared.session.rotated = c.shared.session.rotated := by
      rcases hm.flow.rotated with heq | ⟨_, _, _, hsw⟩
      · exact heq
      · rw [hsw] at hrole
        cases hrole
    rw [hs]
    rcases hsrc with hkeeps | hnew
    · obtain ⟨hlt, hnot⟩ := h.old i token' (by rw [hkeeps]; rfl)
      exact ⟨hlt.trans_le hle, fun hmem => absurd hmem hnot⟩
    · have hlt : token' < c.shared.session.issued := (h.token token').locked i hnew
      exact ⟨hlt.trans_le hle, fun hmem => absurd hmem (h.new i token' hnew).1⟩

theorem not_rotated_of_load (h : Safe c) (hi : (c.thread i).role = .holder)
    (hca : c.shared.session.cache = some token) : token ∉ c.shared.session.rotated := by
  intro hmem
  obtain ⟨j, new, hj⟩ := (h.cached token hca).2 hmem
  have hij : j = i := h.lock.eq j i (by simp [fileLock, hj, Role.holds])
    (by simp [fileLock, hi, Role.holds])
  rw [hij, hi] at hj
  cases hj

theorem old_moves (h : Safe c) (hm : Moves c i o c') {k : ℕ}
    (hold : (c'.thread k).role.old = some token) :
    token < c'.shared.session.issued ∧ token ∉ c'.shared.session.rotated := by
  have hle := hm.flow.issued_le
  by_cases hk : k = i
  · subst hk
    rcases hm.flow.old hold with hold' | ⟨hholder, heq, hca, -⟩
    · refine ⟨(h.old k token hold').1.trans_le hle, ?_⟩
      rcases hm.flow.rotated with heq | ⟨_, _, _, hsw⟩
      · rw [heq]
        exact (h.old k token hold').2
      · rw [hsw] at hold
        cases hold
    · rw [heq]
      exact ⟨(h.cached token hca).1, h.not_rotated_of_load hholder hca⟩
  · rw [hm.other k hk] at hold
    refine ⟨(h.old k token hold).1.trans_le hle, ?_⟩
    rcases hm.flow.rotated with heq | ⟨token', hrds, -, -⟩
    · rw [heq]
      exact (h.old k token hold).2
    · -- both calls hold the lock
      have hi : (c.thread i).role.old = some token' := by rw [hrds]; rfl
      exact absurd (h.lock.eq k i (Role.holds_of_old hold) (Role.holds_of_old hi)) hk

theorem new_moves_of_new (h : Safe c) (hm : Moves c i o c') {k : ℕ}
    (hnew : (c.thread k).role.new = some token) (hnew' : (c'.thread k).role.new = some token) :
    token ∉ c'.shared.session.rotated ∧ c'.shared.session.cache ≠ some token ∧
      ∀ j, (c'.thread j).role.old ≠ some token := by
  obtain ⟨hrot, hcch, hold⟩ := h.new k token hnew
  refine ⟨?_, ?_, fun j => ?_⟩
  · rcases hm.flow.rotated with heq | ⟨token', hrds, heq, -⟩
    · rwa [heq]
    · rw [heq, List.mem_cons, not_or]
      refine ⟨?_, hrot⟩
      rintro rfl
      exact hold i (by rw [hrds]; rfl)
  · rcases hm.flow.cache with heq | hn | ⟨token', hsto, hrole, hsrc⟩
    · rwa [heq]
    · simp [hn]
    · rw [hsto]
      intro heq
      obtain rfl := Option.some.inj heq
      rcases hsrc with hkeeps | hsrc
      · exact hold i (by rw [hkeeps]; rfl)
      · -- the call that stores a new token has it no longer
        have hki : k = i := (h.token token').eq k i hnew hsrc
        rw [hki, hrole] at hnew'
        cases hnew'
  · by_cases hj : j = i
    · subst hj
      intro hold'
      rcases hm.flow.old hold' with h' | ⟨-, -, h', -⟩
      · exact hold j h'
      · exact hcch h'
    · rw [hm.other j hj]
      exact hold j

theorem new_moves_of_issued (h : Safe c) (hm : Moves c i o c')
    (hca : c'.shared.session.cache = c.shared.session.cache) :
    c.shared.session.issued ∉ c'.shared.session.rotated ∧
      c'.shared.session.cache ≠ some c.shared.session.issued ∧
      ∀ j, (c'.thread j).role.old ≠ some c.shared.session.issued := by
  refine ⟨fun hmem => ?_, fun hmem => ?_, fun j hold => ?_⟩
  · rcases hm.flow.rotated with heq | ⟨token', hrds, heq, -⟩
    · rw [heq] at hmem
      exact (h.rotated _ hmem).ne rfl
    · rw [heq, List.mem_cons] at hmem
      rcases hmem with heq | hmem
      · exact (h.old i token' (by rw [hrds]; rfl)).1.ne heq.symm
      · exact (h.rotated _ hmem).ne rfl
  · rw [hca] at hmem
    exact (h.cached _ hmem).1.ne rfl
  · by_cases hj : j = i
    · subst hj
      rcases hm.flow.old hold with hold' | ⟨-, -, hcch, -⟩
      · exact (h.old j _ hold').1.ne rfl
      · exact (h.cached _ hcch).1.ne rfl
    · rw [hm.other j hj] at hold
      exact (h.old j _ hold).1.ne rfl

theorem new_moves (h : Safe c) (hm : Moves c i o c') {k : ℕ}
    (hnew : (c'.thread k).role.new = some token) :
    token ∉ c'.shared.session.rotated ∧ c'.shared.session.cache ≠ some token ∧
      ∀ j, (c'.thread j).role.old ≠ some token := by
  by_cases hk : k = i
  · subst hk
    rcases hm.flow.new hnew with hnew' | ⟨rfl, -, hca⟩
    · exact h.new_moves_of_new hm hnew' hnew
    · exact h.new_moves_of_issued hm hca
  · exact h.new_moves_of_new hm (hm.other k hk ▸ hnew) hnew

/-- **Every step keeps the tokens where they are safe.** -/
theorem fires (h : Safe c) (hf : machine.Fires .any c i o c') : Safe c' where
  lock := h.lock.fires hf
  token token := (h.token token).fires hf
  rotated := h.rotated_moves (moves_of_fires hf)
  cached _ := h.cached_moves (moves_of_fires hf)
  old _ _ := h.old_moves (moves_of_fires hf)
  new _ _ := h.new_moves (moves_of_fires hf)

end Safe

/-- **A rotated refresh token is never presented again**: in every run of any number of calls of
`get_valid_token`, `login` and `logout`, no request carries a token that the server has rotated. -/
theorem rotated_never_presented {es : List (ℕ × Event)} (hinit : Initial c)
    (hrun : machine.Run .any c es c') {c'' : Config State Thread} {token : ℕ}
    (hpresents : machine.Fires .any c' i (some (.presents token)) c'') :
    token ∉ c'.shared.session.rotated := by
  have hsafe : Safe c' := hrun.invariant (fun _ _ _ _ hfi h => h.fires hfi) hinit.safe
  have hrds := (moves_of_fires hpresents).flow.presents
  exact (hsafe.old i token (by rw [hrds]; rfl)).2

/-- **At rest the cached token is good**: while no call holds the file lock, the server has not
rotated the token in the cache. -/
theorem cached_not_rotated {es : List (ℕ × Event)} (hinit : Initial c)
    (hrun : machine.Run .any c es c') (hfree : c'.shared.session.locked = false) {token : ℕ}
    (hcached : c'.shared.session.cache = some token) : token ∉ c'.shared.session.rotated := by
  have hsafe : Safe c' := hrun.invariant (fun _ _ _ _ hfi h => h.fires hfi) hinit.safe
  intro hrot
  obtain ⟨j, new, hrole⟩ := (hsafe.cached token hcached).2 hrot
  have hlock : c'.shared.session.locked = true :=
    hsafe.lock.locked j (congrArg Role.holds hrole)
  rw [hfree] at hlock
  cases hlock

end

/-- A session is cached, and nothing runs. -/
def demoStart : Config State Thread where
  shared := ⟨⟨some 0, false, 1, []⟩, fun _ => ⟨⟨false, none⟩, false⟩⟩
  thread _ := .idle

theorem demoStart_initial : Initial demoStart where
  unlocked := rfl
  rotated := rfl
  issued token h := by
    cases h
    decide
  idle _ := rfl

/-- A call that has read the record. -/
def demoRead (i : ℕ) : List (ℕ × Action) :=
  [(i, .getValidToken i), (i, .check true), (i, .check true), (i, .proceed), (i, .proceed)]

/-- Two handles refresh, one after the other, and the server rotates the token each time. -/
def demoRefreshes : List (ℕ × Action) :=
  demoRead 0 ++ [(0, .refresh (.refreshed (.fresh ()))), (0, .proceed), (0, .proceed)] ++
    demoRead 1

/-- The second call presents the token that the first one has stored. -/
theorem rotated_never_presented_demo : ∃ c' c'',
    machine.Run .any demoStart [(0, .presents 0)] c' ∧
      machine.Fires .any c' 1 (some (.presents 1)) c'' ∧
      c'.shared.session.rotated = [0] ∧ 1 ∉ c'.shared.session.rotated := by
  have hrun : machine.Run .any demoStart [(0, .presents 0)]
      (machine.after demoStart demoRefreshes) := run_after (by decide)
  have hfi : machine.Fires .any (machine.after demoStart demoRefreshes) 1
      (some (.presents 1))
      ⟨_, Function.update (machine.after demoStart demoRefreshes).thread 1 (.failing 1)⟩ :=
    ⟨.refresh .failed, .failing 1, rfl, trivial, rfl⟩
  exact ⟨_, _, hrun, hfi, rfl, rotated_never_presented demoStart_initial hrun hfi⟩

theorem cached_not_rotated_demo :
    1 ∉ (machine.after demoStart (demoRefreshes.take 8)).shared.session.rotated :=
  cached_not_rotated demoStart_initial (run_after rfl) rfl rfl

end LanceDB.TokenCache
