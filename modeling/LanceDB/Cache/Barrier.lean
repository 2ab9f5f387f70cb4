import LanceDB.Cache.Order

/-!
# Invalidation as a barrier

A call of `get` or `try_get` that starts after an `invalidate` has returned gets nothing that was
fetched or seeded before.  An older fetch may still complete and its task may still run: the
generation keeps the task from storing the result, and no later call can come to wait for it.

* `Later` : the results of later fetches, and the values seeded later, have a property.
* `laterStep` — what a step does to the values that can still be handed out.
* `invalidate_barrier` — later calls return values with the property.
-/

namespace LanceDB

open Machine

variable {V E : Type} {p : CachePolicy} {origin : V → ℕ} {P : V → Prop} {g n : ℕ}

/-- From fetch `n` on the results have the property, and so do the values that are seeded. -/
def Later (P : V → Prop) (n : ℕ) : Condition (CacheShared V E) CacheCall (CacheStep V E) :=
  fun _ _ step =>
    match step with
    | .complete f (.ok v) => n ≤ f → P v
    | .seed v => P v
    | _ => True

/-- What the cache can hand out since generation `g` comes from fetch `n` or later. -/
structure Renewed (P : V → Prop) (g n : ℕ) (s : CacheShared V E) : Prop where
  good : s.cache.Good P g
  bounded : s.cache.Bounded
  since : ∀ f, s.cache.Since g f → n ≤ f
  le : n ≤ s.cache.fetches.length

/-- What a step does after an invalidation. -/
structure LaterStep (P : V → Prop) (g n : ℕ) (s : CacheShared V E) (call : CacheCall)
    (s' : CacheShared V E) (call' : CacheCall) (event : Option (CacheEvent V E)) : Prop where
  renewed : Renewed P g n s'
  since : ∀ f, s.cache.Since g f → s'.cache.Since g f
  wait : ∀ f, call' = .waiting f → call = .waiting f ∨ s'.cache.Since g f
  returned : ∀ v now, event = some (.returned v now) →
    (∀ f, call = .waiting f → s.cache.Since g f) → P v

namespace LaterStep

variable {s s' : CacheShared V E} {call call' : CacheCall} {event : Option (CacheEvent V E)}

theorem of_same (h : Renewed P g n s) (hc : ∀ f, call' ≠ .waiting f)
    (hret : ∀ v now, event = some (.returned v now) →
      (∀ f, call = .waiting f → s.cache.Since g f) → P v) :
    LaterStep P g n s call s call' event :=
  ⟨h, fun _ hf => hf, fun f hf => absurd hf (hc f), hret⟩

theorem of_fresh {v : V} (hs : Renewed P g n s) (h : s.cache.state.freshValue p s.now = some v) :
    LaterStep P g n s call s .idle (some (.returned v s.now)) := by
  refine of_same hs (by simp) ?_
  rintro _ _ ⟨⟩ -
  exact hs.good.freshValue h

theorem of_since (h : Renewed P g n s) (hgood : s'.cache.Good P g) (hbdd : s'.cache.Bounded)
    (hsi : ∀ f, s'.cache.Since g f ↔ s.cache.Since g f)
    (hlen : s'.cache.fetches.length = s.cache.fetches.length)
    (hev : ∀ v now, event ≠ some (.returned v now)) : LaterStep P g n s call s' call event :=
  ⟨⟨hgood, hbdd, fun f hf => h.since f ((hsi f).1 hf), hlen ▸ h.le⟩, fun f => (hsi f).2,
    fun _ => .inl, fun v now hv => absurd hv (hev v now)⟩

theorem of_next (h : cacheNext p s call = some (s', call', event)) (hs : Renewed P g n s) :
    LaterStep P g n s call s' call' event := by
  cases call with
  | idle => cases h
  | trying | fast =>
    simp only [cacheNext] at h
    split at h <;> cases h
    · exact of_fresh hs ‹_›
    · exact of_same hs (by simp) (by simp)
  | slow =>
    have hlen := Cache.length_le_determineAction p s.now s.cache
    have hrenewed : Renewed P g n ⟨(s.cache.determineAction p s.now).1, s.now⟩ := by
      refine ⟨hs.good.determineAction, hs.bounded.determineAction, fun f hf => ?_, hs.le.trans hlen⟩
      by_cases hlt : f < s.cache.fetches.length
      · exact hs.since f ((Cache.since_determineAction hlt).1 hf)
      · exact hs.le.trans (Nat.not_lt.1 hlt)
    have hsi : ∀ f, s.cache.Since g f → (s.cache.determineAction p s.now).1.Since g f :=
      fun f hf => (Cache.since_determineAction hf.lt).2 hf
    simp only [cacheNext] at h
    split at h <;> cases h
    · refine ⟨hrenewed, hsi, by simp, ?_⟩
      rintro _ _ ⟨⟩ -
      exact hs.good.value ‹_›
    · refine ⟨hrenewed, hsi, ?_, by simp⟩
      rintro _ ⟨⟩
      exact .inr (hs.good.wait ‹_›)
  | waiting f =>
    simp only [cacheNext] at h
    split at h <;> cases h
    · refine of_same hs (by simp) ?_
      rintro _ _ ⟨⟩ hc
      exact hs.good.peek (hc f rfl) ‹_›
    · exact of_same hs (by simp) (by simp)

end LaterStep

/-- **The steps after an invalidation.** -/
theorem laterStep {c : Config (CacheShared V E) CacheCall} {i : ℕ} {step : CacheStep V E}
    {s' : CacheShared V E} {call' : CacheCall} {event : Option (CacheEvent V E)}
    (h : (cacheMachine p origin).step c.shared (c.thread i) step = some (s', call', event))
    (hlat : Later P n c i step) (hs : Renewed P g n c.shared) :
    LaterStep P g n c.shared (c.thread i) s' call' event := by
  cases step with
  | get | tryGet =>
    simp only [cacheMachine] at h
    split_ifs at h
    cases h
    exact .of_same hs (by simp) (by simp)
  | next => exact .of_next h hs
  | complete f result =>
    obtain ⟨⟨s'', event'⟩, henv, ⟨⟩⟩ := Option.map_eq_some_iff.1 h
    have hgood : (c.shared.cache.complete c.shared.now f result).Good P g := by
      refine hs.good.complete ?_
      rintro v hf rfl
      exact hlat (hs.since f hf)
    obtain ⟨rfl, rfl, -⟩ := complete_cases henv
    exact .of_since hs hgood (hs.bounded.modify fun _ => rfl) (fun _ => Cache.since_complete)
      (List.length_modify ..) (by simp)
  | task f =>
    obtain ⟨⟨s'', event'⟩, henv, ⟨⟩⟩ := Option.map_eq_some_iff.1 h
    simp only [cacheEnv] at henv
    split at henv
    · cases henv
      exact .of_since hs (hs.good.runTask ‹_› rfl) (hs.bounded.modify fun _ => rfl)
        (fun _ => Cache.since_runTask) (List.length_modify ..) (by simp)
    · cases henv
  | tick duration =>
    cases h
    exact .of_since hs hs.good hs.bounded (fun _ => Iff.rfl) rfl (by simp)
  | seed v =>
    cases h
    refine .of_since hs ⟨hs.good.generation, ?_, by simp [Cache.seed, CacheState.future],
      hs.good.result⟩ hs.bounded (fun _ => Iff.rfl) rfl (by simp)
    intro w t hw
    obtain ⟨rfl, -⟩ : v = w ∧ _ := by simpa [Cache.seed, CacheState.content] using hw
    exact hlat
  | invalidate =>
    cases h
    exact .of_since hs hs.good.invalidate hs.bounded.invalidate (fun _ => Cache.since_invalidate)
      rfl (by simp)

theorem follows_later :
    (cacheMachine (E := E) p origin).Follows (Later P n) (fun c => Renewed P g n c.shared)
      fun s call => ∀ f, call = .waiting f → s.cache.Since g f where
  keeps hfi hc := by
    obtain ⟨step, call', hs, hlat, -⟩ := hfi
    exact (laterStep hs hlat hc).renewed
  own hs hlat hc hcall f hf := by
    have hfc := laterStep hs hlat hc
    rcases hfc.wait f hf with hold | hnew
    · exact hfc.since f (hcall f hold)
    · exact hnew
  other hs hlat hc _ hk f hf := (laterStep hs hlat hc).since f (hk f hf)

/-- **Invalidation is a barrier**: a call that starts after an `invalidate` returns nothing that was
fetched or seeded before, so what it returns has every property of the values fetched and seeded
later. -/
theorem invalidate_barrier {now₀ i j now : ℕ} {w : V} {pre mid post : List (ℕ × CacheEvent V E)}
    {c₀ c₁ c₂ : Config (CacheShared V E) CacheCall} {event : Option (CacheEvent V E)}
    (hpre : (cacheMachine p origin).Run Condition.any (cacheStart now₀) pre c₀)
    (hinvalidate : (cacheMachine p origin).step c₀.shared (c₀.thread i) .invalidate =
      some (c₁.shared, c₁.thread i, event))
    (hrun : (cacheMachine p origin).Run (Later P c₁.shared.cache.fetches.length) c₁
      (mid ++ (j, .started) :: (post ++ [(j, .returned w now)])) c₂) : P w := by
  have hany : (cacheMachine p origin).Run (Later (fun _ => True) 0) (cacheStart now₀) pre c₀ := by
    refine hpre.mono fun _ _ step _ => ?_
    cases step with
    | complete f result => cases result <;> simp [Later]
    | _ => simp [Later]
  have hsta : Renewed (E := E) (fun _ : V => True) 0 0 (cacheStart now₀).shared :=
    ⟨⟨Nat.zero_le _, fun _ _ _ => trivial, by simp [cacheStart, CacheState.future],
      fun _ _ _ _ _ _ _ => trivial⟩, by simp [cacheStart, Cache.Bounded],
      fun f _ => Nat.zero_le f, Nat.zero_le _⟩
  have hbdd := (hany.invariant (fun _ _ _ _ => follows_later.keeps) hsta).bounded
  have hshared : c₁.shared = ⟨c₀.shared.cache.invalidate, c₀.shared.now⟩ :=
    (congrArg Prod.fst (Option.some.inj hinvalidate)).symm
  have hc₁ : Renewed P (c₀.shared.cache.generation + 1) c₁.shared.cache.fetches.length
      c₁.shared := by
    rw [hshared]
    refine ⟨Cache.good_invalidate P hbdd, hbdd.invalidate, ?_, le_rfl⟩
    rintro f ⟨fetch, hfet, hgen⟩
    have := hbdd fetch (List.mem_of_getElem? hfet)
    omega
  -- a call that has just started waits for nothing yet
  obtain ⟨c₃, c₄, hc₃, hc, ⟨step, call', hs, hlat, -⟩, -⟩ :=
    hrun.follow follows_later hc₁ fun _ _ _ _ hs _ _ f hf =>
      absurd hf (not_waiting_of_started hs f)
  exact (laterStep hs hlat hc₃).returned w now rfl hc

/-- Fetch 0 is under way. -/
def demoFetching : Config (CacheShared ℕ Unit) CacheCall :=
  (cacheMachine demoPolicy id).after (cacheStart 0) [(0, .get), (0, .next), (0, .next)]

/-- The task of fetch 0 runs after the invalidation; a call that starts then starts fetch 1. -/
theorem invalidate_barrier_demo : ∃ c₁ c₂ : Config (CacheShared ℕ Unit) CacheCall,
    (cacheMachine demoPolicy id).Run (Later (1 ≤ ·) 1) c₁
      ([] ++ (2, .started) :: ([] ++ [(2, .returned 1 0)])) c₂ ∧ 1 ≤ 1 := by
  let c₁ : Config (CacheShared ℕ Unit) CacheCall :=
    ⟨⟨demoFetching.shared.cache.invalidate, 0⟩, demoFetching.thread⟩
  obtain ⟨c₂, hexec⟩ : ∃ c₂, (cacheMachine demoPolicy id).exec
      (fun _ _ step => match step with
        | .complete f (.ok v) => f < 1 || 1 ≤ v
        | .seed v => 1 ≤ v
        | _ => true) c₁
      [(0, .complete 0 (.ok 0)), (0, .task 0), (2, .get), (2, .next), (2, .next),
        (0, .complete 1 (.ok 1)), (2, .next)] =
      some (c₂, [] ++ (2, .started) :: ([] ++ [(2, .returned 1 0)])) := ⟨_, rfl⟩
  have hrun : (cacheMachine demoPolicy id).Run (Later (1 ≤ ·) 1) c₁ _ c₂ := run_of_exec (by
    intro _ _ step hs
    cases step with
    | complete f result =>
      cases result with
      | error error => trivial
      | ok v => simp_all [Later]; omega
    | _ => simp_all [Later]) hexec
  have hpre : (cacheMachine demoPolicy id).Run Condition.any (cacheStart 0) _ demoFetching :=
    run_after rfl
  have hinv : (cacheMachine demoPolicy id).step demoFetching.shared (demoFetching.thread 1)
      .invalidate = some (c₁.shared, c₁.thread 1, some .invalidated) := rfl
  exact ⟨c₁, c₂, hrun, invalidate_barrier hpre hinv hrun⟩

end LanceDB
