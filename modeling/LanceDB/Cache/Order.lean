import LanceDB.Cache.Background

/-!
# The order of the values a cache returns

A machine of callers around one `BackgroundCache`.  A call of `get` takes the lock for its fast path
and again for its slow path, and may then wait for a fetch; fetches complete, their tasks run and
the clock advances at any time in between.

The generation of a cache only tells whether it has been invalidated.  A task that runs late
therefore overwrites what later fetches have brought, and gives its old value a new time to live.

* `cacheMachine` : the calls of `get` and `try_get`, with the fetches and tasks they leave behind.
* `InOrder`, `Young` : no value older than one that has been seen is returned, and none that has
  expired.
* `not_inOrder` — a late task breaks the order.
* `prompt_inOrder` — the order holds if tasks run before another fetch is started, and no value is
  returned too late if they also run before the clock advances.
-/

namespace LanceDB

open List

/-- A cache and the clock. -/
structure CacheShared (V E : Type) where
  cache : Cache V E
  now : ℕ

/-- Where a caller is. -/
inductive CacheCall
  | idle
  | trying
  /-- Before the fast path of `get`. -/
  | fast
  /-- Between the fast path and the slow path. -/
  | slow
  | waiting (future : ℕ)
  deriving DecidableEq

/-- What can happen.  A caller moves on by `next`; the rest is done by tasks, the environment or
other callers. -/
inductive CacheStep (V E : Type)
  | get
  | tryGet
  | next
  | complete (future : ℕ) (result : Except E V)
  | task (future : ℕ)
  | tick (duration : ℕ)
  | seed (value : V)
  | invalidate

/-- What a caller sees. -/
inductive CacheEvent (V E : Type)
  | started
  | returned (value : V) (now : ℕ)
  | missed
  | failed (error : E)
  | invalidated

variable {V E : Type}
variable {result : Except E V} {f : ℕ}

section Machine

variable (p : CachePolicy) (origin : V → ℕ)

/-- A caller moves on. -/
def cacheNext (s : CacheShared V E) :
    CacheCall → Option (CacheShared V E × CacheCall × Option (CacheEvent V E))
  | .idle => none
  | .trying =>
    match s.cache.state.freshValue p s.now with
    | some value => some (s, .idle, some (.returned value s.now))
    | none => some (s, .idle, some .missed)
  | .fast =>
    match s.cache.state.freshValue p s.now with
    | some value => some (s, .idle, some (.returned value s.now))
    | none => some (s, .slow, none)
  | .slow =>
    let (cache, action) := s.cache.determineAction p s.now
    match action with
    | .value value => some (⟨cache, s.now⟩, .idle, some (.returned value s.now))
    | .wait future => some (⟨cache, s.now⟩, .waiting future, none)
  | .waiting future =>
    match s.cache.peek future with
    | some (.ok value) => some (s, .idle, some (.returned value s.now))
    | some (.error error) => some (s, .idle, some (.failed error))
    | none => none

/-- Everything else that happens to a cache.  A value tells by which fetch it was produced. -/
def cacheEnv (s : CacheShared V E) :
    CacheStep V E → Option (CacheShared V E × Option (CacheEvent V E))
  | .complete future result =>
    match s.cache.fetches[future]? with
    | some ⟨_, none, _⟩ =>
      match result with
      | .ok value =>
        if origin value = future then some (⟨s.cache.complete s.now future result, s.now⟩, none)
        else none
      | .error _ => some (⟨s.cache.complete s.now future result, s.now⟩, none)
    | _ => none
  | .task future =>
    match s.cache.fetches[future]? with
    | some ⟨generation, some (result, time), false⟩ =>
      some (⟨s.cache.runTask s.now future ⟨generation, some (result, time), false⟩ result, s.now⟩,
        none)
    | _ => none
  | .tick duration => some (⟨s.cache, s.now + duration⟩, none)
  | .seed value => some (⟨s.cache.seed s.now value, s.now⟩, none)
  | .invalidate => some (⟨s.cache.invalidate, s.now⟩, some .invalidated)
  | _ => none

/-- Callers of a cache. -/
def cacheMachine : Machine (CacheShared V E) CacheCall (CacheStep V E) (CacheEvent V E) where
  step s call
    | .get => if call = .idle then some (s, .fast, some .started) else none
    | .tryGet => if call = .idle then some (s, .trying, some .started) else none
    | .next => cacheNext p s call
    | step => (cacheEnv origin s step).map fun (s', event) => (s', call, event)

/-- A new cache, and nobody has called it. -/
def cacheStart (now : ℕ) : Machine.Config (CacheShared V E) CacheCall :=
  ⟨⟨⟨.empty, 0, []⟩, now⟩, fun _ => .idle⟩

/-- No seed and no invalidation. -/
def Unseeded : Machine.Condition (CacheShared V E) CacheCall (CacheStep V E) := fun _ _ step =>
  match step with
  | .seed _ | .invalidate => False
  | _ => True

/-- The order in which a cache under some condition returns its values. -/
structure InOrder (C : Machine.Condition (CacheShared V E) CacheCall (CacheStep V E)) (now₀ : ℕ) :
    Prop where
  /-- A call that starts after a value has been stored does not return an older one. -/
  stored : ∀ {pre mid post c₁ c₂ v t j w now},
    (cacheMachine p origin).Run C (cacheStart now₀) pre c₁ →
    c₁.shared.cache.state = .current v t →
    (cacheMachine p origin).Run C c₁
      (mid ++ (j, .started) :: (post ++ [(j, .returned w now)])) c₂ →
    origin v ≤ origin w
  /-- A call that starts after a value has been returned does not return an older one. -/
  returned : ∀ {pre mid post c i v time j w now},
    (cacheMachine p origin).Run C (cacheStart now₀) (pre ++ (i, .returned v time) ::
      (mid ++ (j, .started) :: (post ++ [(j, .returned w now)]))) c →
    origin v ≤ origin w

/-- A cache under some condition returns no value after its time to live. -/
def Young (C : Machine.Condition (CacheShared V E) CacheCall (CacheStep V E)) (now₀ : ℕ) : Prop :=
  ∀ {pre c c' i v now}, (cacheMachine p origin).Run C (cacheStart now₀) pre c →
    (cacheMachine p origin).Fires C c i (some (.returned v now)) c' →
    ∃ fetch t, c'.shared.cache.fetches[origin v]? = some fetch ∧
      fetch.result = some (.ok v, t) ∧ now ≤ t + p.ttl

end Machine

/-! ### A late task -/

/-- Values are the numbers of the fetches that produced them.  The task of fetch 0 runs only after
fetch 1 has been started, has completed and has been returned. -/
def lateTask : List (ℕ × CacheStep ℕ Unit) :=
  [(0, .get), (0, .next), (0, .next), (0, .complete 0 (.ok 0)),
    (1, .get), (1, .next), (1, .next), (0, .tick 10),
    (2, .get), (2, .next), (2, .next), (0, .complete 1 (.ok 1)),
    (3, .get), (3, .next), (3, .next), (0, .task 0),
    (4, .get), (4, .next)]

/-- After fetch 1 has been returned, the value of fetch 0 comes back. -/
theorem not_inOrder : ¬ InOrder demoPolicy id (Unseeded (V := ℕ) (E := Unit)) 0 := by
  intro h
  obtain ⟨c, hexec⟩ : ∃ c, (cacheMachine demoPolicy id).exec
      (fun _ _ step => match step with | .seed _ | .invalidate => false | _ => true)
      (cacheStart 0) lateTask = some (c,
        [(0, .started), (1, .started), (1, .returned 0 0), (2, .started), (3, .started)] ++
          (3, .returned 1 10) :: ([] ++ (4, .started) :: ([] ++ [(4, .returned 0 10)]))) :=
    ⟨_, rfl⟩
  have hrun : (cacheMachine demoPolicy id).Run Unseeded _ _ c := Machine.run_of_exec (by
    intro _ _ step hs
    cases step <;> simp_all [Unseeded]) hexec
  exact absurd (h.returned hrun) (by decide)

/-! ### Prompt tasks -/

namespace CacheShared

variable {p : CachePolicy} {origin : V → ℕ} {clock : Prop} {s s' : CacheShared V E} {n : ℕ}
variable {fetch : Fetch V E}

/-- The tasks of all fetches that have completed have run. -/
def AllRan (s : CacheShared V E) : Prop :=
  ∀ (f : ℕ) (fetch : Fetch V E), s.cache.fetches[f]? = some fetch → fetch.result.isSome →
    fetch.taskRan = true

/-- The moves of the shared state when tasks are prompt, and with `clock` the clock waits for
them. -/
inductive Moves (p : CachePolicy) (origin : V → ℕ) (clock : Prop) (s : CacheShared V E) :
    CacheShared V E → Prop
  | same : Moves p origin clock s s
  | decide : ((s.cache.determineAction p s.now).1.fetches = s.cache.fetches ∨ s.AllRan) →
      Moves p origin clock s ⟨(s.cache.determineAction p s.now).1, s.now⟩
  | complete {f : ℕ} {fetch : Fetch V E} {result : Except E V} :
      s.cache.fetches[f]? = some fetch → fetch.result = none →
      (∀ v, result = .ok v → origin v = f) →
      Moves p origin clock s ⟨s.cache.complete s.now f result, s.now⟩
  | task {f : ℕ} {fetch : Fetch V E} {result : Except E V} {t : ℕ} :
      s.cache.fetches[f]? = some fetch → fetch.result = some (result, t) → fetch.taskRan = false →
      Moves p origin clock s ⟨s.cache.runTask s.now f fetch result, s.now⟩
  | tick (duration : ℕ) : (clock → s.AllRan) → Moves p origin clock s ⟨s.cache, s.now + duration⟩

/-- What prompt tasks keep: only the last fetch can be under way or wait for its task.  If the clock
waits, it has completed just now, and what the cache holds has the time at which its fetch
completed. -/
structure Tracks (origin : V → ℕ) (clock : Prop) (s : CacheShared V E) : Prop where
  generation : ∀ (f : ℕ) (fetch : Fetch V E), s.cache.fetches[f]? = some fetch →
    s.cache.generation = fetch.generation
  produced : ∀ (f : ℕ) (fetch : Fetch V E) (v : V) (t : ℕ), s.cache.fetches[f]? = some fetch →
    fetch.result = some (.ok v, t) → origin v = f
  last : ∀ (f : ℕ) (fetch : Fetch V E), s.cache.fetches[f]? = some fetch →
    fetch.taskRan = false → f + 1 = s.cache.fetches.length
  justNow : ∀ (f : ℕ) (fetch : Fetch V E) (r : Except E V) (t : ℕ),
    s.cache.fetches[f]? = some fetch → fetch.result = some (r, t) → fetch.taskRan = false →
    clock → t = s.now
  underWay : ∀ (f : ℕ) (fetch : Fetch V E), s.cache.fetches[f]? = some fetch →
    fetch.result = none → fetch.taskRan = false ∧ s.cache.state.future = some f
  future : ∀ f, s.cache.state.future = some f →
    ∃ fetch, s.cache.fetches[f]? = some fetch ∧ fetch.taskRan = false
  content : ∀ v t, s.cache.state.content = some (v, t) → ∃ fetch t',
    s.cache.fetches[origin v]? = some fetch ∧ fetch.result = some (.ok v, t') ∧ (clock → t' = t)

/-- The cache hands out nothing any more that is older than fetch `n`. -/
structure Beyond (p : CachePolicy) (origin : V → ℕ) (n : ℕ) (s : CacheShared V E) : Prop where
  lt : n < s.cache.fetches.length
  content : ∀ v t, s.cache.state.content = some (v, t) → n ≤ origin v ∨ p.ttl ≤ s.now - t
  future : ∀ f, s.cache.state.future = some f → n ≤ f

theorem Tracks.future_last (h : Tracks origin clock s) (hf : s.cache.state.future = some f) :
    f + 1 = s.cache.fetches.length := by
  obtain ⟨fetch, hfet, hran⟩ := h.future f hf
  exact h.last f fetch hfet hran

/-- What the cache holds, or has just been told, was produced by the fetch it tells. -/
theorem Tracks.of_peek (h : Tracks origin clock s) {v : V} (hf : s.cache.state.future = some f)
    (hpeek : s.cache.peek f = some (.ok v)) :
    origin v = f ∧ ∃ fetch t, s.cache.fetches[f]? = some fetch ∧
      fetch.result = some (.ok v, t) ∧ (clock → t = s.now) := by
  obtain ⟨fetch, t, hfet, hres⟩ := Cache.peek_eq_some.1 hpeek
  obtain ⟨fetch', hfet', hran⟩ := h.future f hf
  obtain rfl : fetch = fetch' := by simpa [hfet] using hfet'
  exact ⟨h.produced f fetch v _ hfet hres, fetch, t, hfet, hres,
    h.justNow f fetch _ t hfet hres hran⟩

/-- What the cache holds is the latest that it will hand out. -/
theorem Tracks.beyond (h : Tracks origin clock s) {v : V} {t : ℕ}
    (hc : s.cache.state.content = some (v, t)) : Beyond p origin (origin v) s := by
  obtain ⟨fetch, _, hfet, -⟩ := h.content v t hc
  have hlt := (List.getElem?_eq_some_iff.1 hfet).1
  refine ⟨hlt, fun v' t' hc' => ?_, fun f hf => ?_⟩
  · obtain ⟨rfl, -⟩ : v = v' ∧ t = t' := by simpa [hc] using hc'
    exact .inl le_rfl
  · have := h.future_last hf
    omega

/-- **The order is kept**: the cache never goes back behind a fetch. -/
theorem Beyond.moves (hb : Beyond p origin n s) (h : Tracks origin clock s)
    (hm : Moves p origin clock s s') : Beyond p origin n s' := by
  cases hm with
  | same => exact hb
  | decide _ =>
    have hs : Cache.Decided p s.now s.cache _ _ := Cache.determineAction_spec
    have hc : ∀ v t, (s.cache.determineAction p s.now).1.state.content = some (v, t) →
        n ≤ origin v ∨ p.ttl ≤ s.now - t := by
      intro v t hvt
      rcases hs.content v t hvt with hold | ⟨-, f, hf, hpeek⟩
      · exact hb.content v t hold
      · exact .inl ((h.of_peek hf hpeek).1 ▸ hb.future f hf)
    rcases hs.fetches with ⟨hfs, hfut, -⟩ | ⟨hfs, hfut, -⟩
    · exact ⟨hfs ▸ hb.lt, hc, fun f hf => hb.future f (hfut f hf).1⟩
    · have hlt := hb.lt
      refine ⟨?_, hc, fun f hf => ?_⟩
      · rw [hfs, length_append]
        omega
      · obtain rfl : s.cache.fetches.length = f := by simpa [hfut] using hf
        exact hlt.le
  | complete hfet hn horig =>
    refine ⟨?_, hb.content, hb.future⟩
    rw [Cache.complete, length_modify]
    exact hb.lt
  | @task f fetch result t hfet hres hran =>
    have hl := h.last f fetch hfet hran
    have hlt := hb.lt
    have hgen := h.generation f fetch hfet
    refine ⟨?_, fun v t' hc => ?_, fun f' hf' => ?_⟩
    · rw [Cache.runTask, length_modify]
      exact hlt
    · simp only [Cache.runTask, if_pos hgen] at hc
      rcases Cache.applyResult_content hc with hold | ⟨-, rfl⟩
      · exact hb.content v t' hold
      · have := h.produced f fetch v t hfet hres
        exact .inl (by omega)
    · simp only [Cache.runTask, if_pos hgen, Cache.applyResult_future] at hf'
      cases hf'
  | tick duration _ =>
    refine ⟨hb.lt, fun v t hc => ?_, hb.future⟩
    rcases hb.content v t hc with hle | hexp
    · exact .inl hle
    · exact .inr (hexp.trans (by simp only; omega))

/-- When a fetch is started, all others have completed and their tasks have run. -/
theorem Tracks.ran_of_start (h : Tracks origin clock s) (hall : s.AllRan)
    (hd : ∀ f, s.cache.state.future = some f → s.cache.peek f ≠ none)
    (hfet : s.cache.fetches[f]? = some fetch) : fetch.result.isSome ∧ fetch.taskRan = true := by
  have hs : fetch.result.isSome := by
    by_contra hn
    rw [Option.not_isSome_iff_eq_none] at hn
    refine hd f (h.underWay f fetch hfet hn).2 ?_
    simp [Cache.peek, hfet, hn]
  exact ⟨hs, hall f fetch hfet hs⟩

/-- What `Tracks` says of one fetch. -/
structure Tracks.Each (origin : V → ℕ) (clock : Prop) (s : CacheShared V E) (f : ℕ)
    (fetch : Fetch V E) : Prop where
  generation : s.cache.generation = fetch.generation
  produced : ∀ v t, fetch.result = some (.ok v, t) → origin v = f
  last : fetch.taskRan = false → f + 1 = s.cache.fetches.length
  justNow : ∀ r t, fetch.result = some (r, t) → fetch.taskRan = false → clock → t = s.now
  underWay : fetch.result = none → fetch.taskRan = false ∧ s.cache.state.future = some f

theorem Tracks.each (h : Tracks origin clock s) (hfet : s.cache.fetches[f]? = some fetch) :
    Each origin clock s f fetch where
  generation := h.generation f fetch hfet
  produced v t := h.produced f fetch v t hfet
  last := h.last f fetch hfet
  justNow r t := h.justNow f fetch r t hfet
  underWay := h.underWay f fetch hfet

theorem Tracks.of_each
    (h : ∀ (f : ℕ) (fetch : Fetch V E), s.cache.fetches[f]? = some fetch →
      Each origin clock s f fetch)
    (hfut : ∀ f, s.cache.state.future = some f →
      ∃ fetch, s.cache.fetches[f]? = some fetch ∧ fetch.taskRan = false)
    (hc : ∀ v t, s.cache.state.content = some (v, t) → ∃ fetch t',
      s.cache.fetches[origin v]? = some fetch ∧ fetch.result = some (.ok v, t') ∧
        (clock → t' = t)) :
    Tracks origin clock s where
  generation f fetch hfet := (h f fetch hfet).generation
  produced f fetch v t hfet := (h f fetch hfet).produced v t
  last f fetch hfet := (h f fetch hfet).last
  justNow f fetch r t hfet := (h f fetch hfet).justNow r t
  underWay f fetch hfet := (h f fetch hfet).underWay
  future := hfut
  content := hc

theorem Tracks.decide (h : Tracks origin clock s)
    (hpr : (s.cache.determineAction p s.now).1.fetches = s.cache.fetches ∨ s.AllRan) :
    Tracks origin clock ⟨(s.cache.determineAction p s.now).1, s.now⟩ := by
  have hs : Cache.Decided p s.now s.cache _ _ := Cache.determineAction_spec
  have hc : ∀ v t, (s.cache.determineAction p s.now).1.state.content = some (v, t) →
      ∃ fetch t', s.cache.fetches[origin v]? = some fetch ∧ fetch.result = some (.ok v, t') ∧
        (clock → t' = t) := by
    intro v t hvt
    rcases hs.content v t hvt with hold | ⟨rfl, f, hf, hpeek⟩
    · exact h.content v t hold
    · obtain ⟨rfl, hfet⟩ := h.of_peek hf hpeek
      exact hfet
  rcases hs.fetches with ⟨hfs, hfut, hn⟩ | ⟨hfs, hfut, hd⟩
  · refine .of_each ?_ ?_ ?_ <;> simp only [hfs]
    · intro f fetch hfet
      have hold := h.each hfet
      refine ⟨hs.generation.trans hold.generation, hold.produced,
        fun hran => (hold.last hran).trans (congrArg _ hfs.symm), hold.justNow,
        fun hres => ⟨(hold.underWay hres).1, ?_⟩⟩
      -- a fetch that has not completed is still waited for
      have hf := (hold.underWay hres).2
      cases hfut' : (s.cache.determineAction p s.now).1.state.future with
      | none => exact absurd (by simp [Cache.peek, hfet, hres]) (hn hfut' f hf)
      | some f' => rw [← (hfut f' hfut').1, hf]
    · exact fun f hf => h.future f (hfut f hf).1
    · exact hc
  · have hall : s.AllRan := by
      rcases hpr with hsame | hall
      · rw [hfs] at hsame
        simpa using congrArg List.length hsame
      · exact hall
    refine .of_each ?_ ?_ ?_ <;> simp only [hfs]
    · intro f fetch hfet
      -- an old fetch, or the new one at the end
      rw [getElem?_append] at hfet
      split_ifs at hfet with hlt
      · have hold := h.each hfet
        obtain ⟨hsome, hran⟩ := h.ran_of_start hall hd hfet
        exact ⟨hs.generation.trans hold.generation, hold.produced, by simp [hran],
          hold.justNow, fun hres => by simp [hres] at hsome⟩
      · have hend := (List.getElem?_eq_some_iff.1 hfet).1
        rw [length_singleton] at hend
        obtain rfl : f = s.cache.fetches.length := by omega
        obtain rfl := mem_singleton.1 (mem_of_getElem? hfet)
        exact ⟨hs.generation, by simp, fun _ => by simp [hfs], by simp,
          fun _ => ⟨rfl, hfut⟩⟩
    · intro f hf
      obtain rfl : s.cache.fetches.length = f := by simpa [hfut] using hf
      exact ⟨_, getElem?_concat_length, rfl⟩
    · intro v t hvt
      obtain ⟨fetch, t', hfet, hres⟩ := hc v t hvt
      exact ⟨fetch, t', getElem?_append_left (List.getElem?_eq_some_iff.1 hfet).1 ▸ hfet, hres⟩

theorem Tracks.complete (h : Tracks origin clock s) (hfet : s.cache.fetches[f]? = some fetch)
    (hn : fetch.result = none) (horig : ∀ v, result = .ok v → origin v = f) :
    Tracks origin clock ⟨s.cache.complete s.now f result, s.now⟩ := by
  obtain ⟨hran, hfut⟩ := h.underWay f fetch hfet hn
  have hlen : (s.cache.complete s.now f result).fetches.length = s.cache.fetches.length :=
    length_modify ..
  refine .of_each (fun f' fetch' hfet' => ?_) (fun f' hf' => ?_) fun v t hvt => ?_
  · obtain ⟨old, hget, rfl | ⟨rfl, rfl⟩⟩ := getElem?_modify_cases hfet'
    -- every other fetch is as it was
    · have hold := h.each hget
      exact { hold with last := fun hran' => (hold.last hran').trans hlen.symm }
    · obtain rfl : fetch = old := by simpa [hfet] using hget
      have hold := h.each hfet
      refine ⟨hold.generation, fun v t hres => ?_,
        fun hran' => (hold.last hran').trans hlen.symm, fun r t hres _ _ => ?_, by simp⟩
      · obtain ⟨rfl, -⟩ : result = .ok v ∧ s.now = t := by simpa using hres
        exact horig v rfl
      · obtain ⟨-, rfl⟩ : result = r ∧ s.now = t := by simpa using hres
        rfl
  · obtain rfl := Option.some.inj (hfut.symm.trans hf')
    refine ⟨{ fetch with result := some (result, s.now) }, ?_, hran⟩
    rw [Cache.complete, getElem?_modify, hfet]
    simp
  · obtain ⟨fetch', t', hfet', hres, htime⟩ := h.content v t hvt
    -- what the cache holds comes from a fetch that had completed before
    have hne : origin v ≠ f := by
      rintro rfl
      obtain rfl : fetch = fetch' := by simpa [hfet] using hfet'
      simp [hn] at hres
    refine ⟨fetch', t', ?_, hres, htime⟩
    rw [Cache.complete, getElem?_modify, hfet']
    simp [hne.symm]

theorem Tracks.task (h : Tracks origin clock s) {t : ℕ} (hfet : s.cache.fetches[f]? = some fetch)
    (hres : fetch.result = some (result, t)) (hran : fetch.taskRan = false) :
    Tracks origin clock ⟨s.cache.runTask s.now f fetch result, s.now⟩ := by
  have hl := h.last f fetch hfet hran
  have hs : (s.cache.runTask s.now f fetch result).state = s.cache.applyResult s.now result :=
    if_pos (h.generation f fetch hfet)
  have hlen : (s.cache.runTask s.now f fetch result).fetches.length = s.cache.fetches.length :=
    length_modify ..
  have hkeep : ∀ {f' : ℕ} {old : Fetch V E}, s.cache.fetches[f']? = some old →
      (s.cache.runTask s.now f fetch result).fetches[f']? =
        some (if f = f' then { old with taskRan := true } else old) := by
    intro f' old hold
    rw [Cache.runTask, getElem?_modify, hold]
    rfl
  have hc : ∀ {f' : ℕ} {old : Fetch V E} {v : V} {t : ℕ}, s.cache.fetches[f']? = some old →
      old.result = some (.ok v, t) →
      ∃ fetch', (s.cache.runTask s.now f fetch result).fetches[f']? = some fetch' ∧
        fetch'.result = some (.ok v, t) :=
    fun hold hres' => ⟨_, hkeep hold, by split_ifs <;> exact hres'⟩
  refine .of_each (fun f' fetch' hfet' => ?_) (fun f' hf' => ?_) fun v t' hvt => ?_
  · obtain ⟨old, hget, -⟩ := getElem?_modify_cases hfet'
    obtain rfl := Option.some.inj ((hkeep hget).symm.trans hfet')
    have hold := h.each hget
    -- a fetch under way would be the last one, which is the one whose task runs
    have hd : old.result ≠ none := by
      intro hn
      have hl' := hold.last (hold.underWay hn).1
      obtain rfl : f' = f := by omega
      obtain rfl : fetch = old := by simpa [hfet] using hget
      simp [hres] at hn
    split_ifs
    · exact ⟨hold.generation, hold.produced, by simp, by simp, fun hn => absurd hn hd⟩
    · exact { hold with
        last := fun hran' => (hold.last hran').trans hlen.symm
        underWay := fun hn => absurd hn hd }
  · rw [hs, Cache.applyResult_future] at hf'
    cases hf'
  · rw [hs] at hvt
    rcases Cache.applyResult_content hvt with hold | ⟨rfl, rfl⟩
    · obtain ⟨old, u, hold', hres', htime⟩ := h.content v t' hold
      obtain ⟨fetch', hfet', hres'⟩ := hc hold' hres'
      exact ⟨fetch', u, hfet', hres', htime⟩
    · obtain rfl := h.produced f fetch v _ hfet hres
      obtain ⟨fetch', hfet', hres'⟩ := hc hfet hres
      exact ⟨fetch', t, hfet', hres', h.justNow _ fetch _ t hfet hres hran⟩

theorem Tracks.tick (h : Tracks origin clock s) (hall : clock → s.AllRan) (duration : ℕ) :
    Tracks origin clock ⟨s.cache, s.now + duration⟩ := by
  refine ⟨h.generation, h.produced, h.last, ?_, h.underWay, h.future, h.content⟩
  intro f fetch r t hfet hres hran hclock
  have := hall hclock f fetch hfet (by simp [hres])
  simp [hran] at this

/-- **Prompt tasks keep the cache in order.** -/
theorem Tracks.moves (h : Tracks origin clock s) (hm : Moves p origin clock s s') :
    Tracks origin clock s' := by
  cases hm with
  | same => exact h
  | decide hpr => exact h.decide hpr
  | complete hfet hn horig => exact h.complete hfet hn horig
  | task hfet hres hran => exact h.task hfet hres hran
  | tick duration hall => exact h.tick hall duration

end CacheShared

section Prompt

open Machine CacheShared

variable (p : CachePolicy) (origin : V → ℕ) (clock : Prop)

/-- Tasks are prompt: a fetch is started only when the tasks of all fetches that have completed have
run.  With `clock`, the clock too advances only then, and a caller that waits for a fetch is not
left waiting for the time to live after it has completed. -/
def Prompt : Condition (CacheShared V E) CacheCall (CacheStep V E) := fun c i step =>
  match step with
  | .tick _ => clock → c.shared.AllRan
  | .next =>
    (c.thread i = .slow →
      (c.shared.cache.determineAction p c.shared.now).1.fetches = c.shared.cache.fetches ∨
        c.shared.AllRan) ∧
    ∀ (f : ℕ) (fetch : Fetch V E) (r : Except E V) (t : ℕ), c.thread i = .waiting f →
      c.shared.cache.fetches[f]? = some fetch → fetch.result = some (r, t) → clock →
      c.shared.now ≤ t + p.ttl
  | .seed _ | .invalidate => False
  | _ => True

/-- What a step under this condition does. -/
structure PromptStep (s : CacheShared V E) (call : CacheCall) (s' : CacheShared V E)
    (call' : CacheCall) (event : Option (CacheEvent V E)) : Prop where
  moves : Moves p origin clock s s'
  /-- A caller begins to wait when what the cache holds has expired. -/
  wait : ∀ f, call' = .waiting f → call = .waiting f ∨
    (s'.cache.state.future = some f ∧
      ∀ v t, s'.cache.state.content = some (v, t) → p.ttl ≤ s'.now - t)
  /-- A value comes from the cache, or from the fetch the caller waited for. -/
  returned : ∀ v now, event = some (.returned v now) →
    (now = s'.now ∧ ∃ t, s'.cache.state.content = some (v, t) ∧ s'.now - t < p.ttl) ∨
    (s' = s ∧ ∃ f fetch t, call = .waiting f ∧ s.cache.fetches[f]? = some fetch ∧
      fetch.result = some (.ok v, t) ∧ (clock → now ≤ t + p.ttl))

variable {p origin clock} {s s' : CacheShared V E} {call call' : CacheCall}
  {event : Option (CacheEvent V E)} {c c' : Config (CacheShared V E) CacheCall} {i : ℕ}
  {step : CacheStep V E}

theorem PromptStep.of_same (hc : ∀ f, call' = .waiting f → call = .waiting f)
    (hev : ∀ v now, event ≠ some (.returned v now)) :
    PromptStep p origin clock s call s call' event :=
  ⟨.same, fun f hf => .inl (hc f hf), fun v now h => absurd h (hev v now)⟩

theorem PromptStep.of_fresh {v : V} (h : s.cache.state.freshValue p s.now = some v) :
    PromptStep p origin clock s call s .idle (some (.returned v s.now)) := by
  refine ⟨.same, by simp, ?_⟩
  rintro _ _ ⟨⟩
  obtain ⟨t, hc, hlt⟩ := CacheState.freshValue_spec h
  exact .inl ⟨rfl, t, hc, hlt⟩

theorem promptStep_next (h : cacheNext p s call = some (s', call', event))
    (hs : call = .slow →
      (s.cache.determineAction p s.now).1.fetches = s.cache.fetches ∨ s.AllRan)
    (hwait : ∀ (f : ℕ) (fetch : Fetch V E) (r : Except E V) (t : ℕ), call = .waiting f →
      s.cache.fetches[f]? = some fetch → fetch.result = some (r, t) → clock → s.now ≤ t + p.ttl) :
    PromptStep p origin clock s call s' call' event := by
  cases call with
  | idle => cases h
  | trying | fast =>
    simp only [cacheNext] at h
    split at h <;> cases h
    · exact .of_fresh ‹_›
    · exact .of_same (by simp) (by simp)
  | slow =>
    have hspec : Cache.Decided p s.now s.cache _ _ := Cache.determineAction_spec
    simp only [cacheNext] at h
    split at h <;> cases h
    · rename_i v hact
      refine ⟨.decide (hs rfl), by simp, ?_⟩
      rintro _ _ ⟨⟩
      obtain ⟨t, hc, hlt⟩ := hspec.value v hact
      exact .inl ⟨rfl, t, hc, hlt⟩
    · rename_i f hact
      refine ⟨.decide (hs rfl), ?_, by simp⟩
      rintro _ ⟨⟩
      exact .inr (hspec.wait f hact)
  | waiting f =>
    simp only [cacheNext] at h
    split at h <;> cases h
    · rename_i v hpeek
      refine ⟨.same, by simp, ?_⟩
      rintro _ _ ⟨⟩
      obtain ⟨fetch, t, hfet, hres⟩ := Cache.peek_eq_some.1 hpeek
      exact .inr ⟨rfl, f, fetch, t, rfl, hfet, hres, hwait f fetch _ t rfl hfet hres⟩
    · exact .of_same (by simp) (by simp)

theorem complete_cases (h : cacheEnv origin s (.complete f result) = some (s', event)) :
    s' = ⟨s.cache.complete s.now f result, s.now⟩ ∧ event = none ∧
      ∃ fetch, s.cache.fetches[f]? = some fetch ∧ fetch.result = none ∧
        ∀ v, result = .ok v → origin v = f := by
  simp only [cacheEnv] at h
  split at h
  · rename_i hfet
    split at h
    · split_ifs at h with horig
      cases h
      refine ⟨rfl, rfl, _, hfet, rfl, ?_⟩
      rintro _ ⟨⟩
      exact horig
    · cases h
      exact ⟨rfl, rfl, _, hfet, rfl, by simp⟩
  · cases h

/-- **The steps under this condition.** -/
theorem promptStep (h : (cacheMachine p origin).step c.shared (c.thread i) step =
    some (s', call', event)) (hpr : Prompt p clock c i step) :
    PromptStep p origin clock c.shared (c.thread i) s' call' event := by
  -- a step of the environment leaves the caller where it is
  have henv : ∀ {s'}, Moves p origin clock c.shared s' →
      PromptStep p origin clock c.shared (c.thread i) s' (c.thread i) none := fun hm =>
    ⟨hm, fun f hf => .inl hf, by simp⟩
  cases step with
  | get | tryGet =>
    simp only [cacheMachine] at h
    split_ifs at h
    cases h
    exact .of_same (by simp) (by simp)
  | next => exact promptStep_next h hpr.1 hpr.2
  | complete f result =>
    obtain ⟨⟨s'', event'⟩, henvstep, ⟨⟩⟩ := Option.map_eq_some_iff.1 h
    obtain ⟨rfl, rfl, fetch, hfet, hn, horig⟩ := complete_cases henvstep
    exact henv (.complete hfet hn horig)
  | task f =>
    obtain ⟨⟨s'', event'⟩, henvstep, ⟨⟩⟩ := Option.map_eq_some_iff.1 h
    simp only [cacheEnv] at henvstep
    split at henvstep
    · rename_i generation result t hfet
      cases henvstep
      exact henv (.task hfet rfl rfl)
    · cases henvstep
  | tick duration =>
    cases h
    exact henv (.tick duration hpr)
  | seed | invalidate => exact absurd hpr id

/-- A caller that waits for a fetch will not be overtaken by an older value. -/
def WaitsBeyond (p : CachePolicy) (origin : V → ℕ) (s : CacheShared V E) (call : CacheCall) :
    Prop :=
  ∀ f, call = .waiting f → Beyond p origin f s

theorem PromptStep.waitsBeyond (h : PromptStep p origin clock s call s' call' event)
    (htrk : Tracks origin clock s) (hc : WaitsBeyond p origin s call) :
    WaitsBeyond p origin s' call' := by
  intro f hf
  rcases h.wait f hf with hold | ⟨hfut, hexp⟩
  · exact (hc f hold).moves htrk h.moves
  · have hl := (htrk.moves h.moves).future_last hfut
    refine ⟨by omega, fun v t hcont => .inr (hexp v t hcont), fun f' hf' => ?_⟩
    obtain rfl := Option.some.inj (hfut.symm.trans hf')
    exact le_rfl

/-- What holds of the cache when the value of fetch `seen` has been seen, if any has. -/
structure SeenShared (p : CachePolicy) (origin : V → ℕ) (clock : Prop) (seen : Option ℕ)
    (s : CacheShared V E) : Prop where
  tracks : Tracks origin clock s
  beyond : ∀ n ∈ seen, Beyond p origin n s

/-- What holds of a call, in particular if it is one of `later` that started after that. -/
structure SeenCall (p : CachePolicy) (origin : V → ℕ) (seen : Option ℕ) (later : ℕ → Prop) (i : ℕ)
    (s : CacheShared V E) (call : CacheCall) : Prop where
  waits : WaitsBeyond p origin s call
  later : later i → ∀ n ∈ seen, ∀ f, call = .waiting f → n ≤ f

theorem keeps_seen (seen : Option ℕ) (later : ℕ → Prop) :
    (cacheMachine (E := E) p origin).Keeps (Prompt p clock) (SeenShared p origin clock seen)
      (SeenCall p origin seen later) := by
  intro c i step s' call' event hs hpr hc
  have hfc := promptStep hs hpr
  have htrk := hc.shared.tracks
  have hby : ∀ n ∈ seen, Beyond p origin n s' := fun n hn =>
    (hc.shared.beyond n hn).moves htrk hfc.moves
  refine ⟨⟨htrk.moves hfc.moves, hby⟩, ⟨?_, ?_⟩, fun k _ hk => ⟨?_, hk.later⟩⟩
  · exact hfc.waitsBeyond htrk (hc.thread i).waits
  · intro hlat n hn f hf
    rcases hfc.wait f hf with hold | ⟨hfut, -⟩
    · exact (hc.thread i).later hlat n hn f hold
    · exact (hby n hn).future f hfut
  · exact fun f hf => (hk.waits f hf).moves htrk hfc.moves

theorem cacheEnv_event (h : cacheEnv origin s step = some (s', event)) : event ≠ some .started := by
  cases step <;> simp only [cacheEnv] at h
  all_goals (repeat' split at h) <;> cases h
  all_goals simp

theorem not_waiting_of_started (h : (cacheMachine p origin).step s call step =
    some (s', call', some .started)) (f : ℕ) : call' ≠ .waiting f := by
  cases step with
  | get | tryGet =>
    simp only [cacheMachine] at h
    split_ifs at h
    cases h
    simp
  | next =>
    cases call <;> simp only [cacheMachine, cacheNext] at h
    case idle => cases h
    all_goals (split at h <;> cases h)
  | complete future result | task future =>
    obtain ⟨⟨s'', event'⟩, henv, ⟨⟩⟩ := Option.map_eq_some_iff.1 h
    exact absurd rfl (cacheEnv_event henv)
  | _ => cases h

/-- A call that starts after fetch `n` has been seen does not return an older value. -/
theorem le_of_returned {n j now : ℕ} {w : V} {mid post : List (ℕ × CacheEvent V E)}
    (hseen : Holds (SeenShared p origin clock (some n))
      (SeenCall p origin (some n) fun _ => False) c)
    (h : (cacheMachine p origin).Run (Prompt p clock) c
      (mid ++ (j, .started) :: (post ++ [(j, .returned w now)])) c') : n ≤ origin w := by
  obtain ⟨c₁, c₂, hmid, hst, hr⟩ := h.of_append_cons
  obtain ⟨c₃, c₄, hpost, hret, -⟩ := hr.of_append_cons
  have hs₂ := hst.holds (keeps_seen _ _) (hmid.invariants (keeps_seen _ _) hseen)
  -- the call has just started, so it is one that may be held to the fetch that has been seen
  have hlat : Holds (SeenShared p origin clock (some n))
      (SeenCall p origin (some n) (· = j)) c₂ := by
    refine ⟨hs₂.shared, fun k => ⟨(hs₂.thread k).waits, ?_⟩⟩
    rintro rfl _ _ f hf
    obtain ⟨step, hs, -, -⟩ := hst.exists_step
    exact absurd hf (not_waiting_of_started hs f)
  have hs₃ := hpost.invariants (keeps_seen _ _) hlat
  have htrk := hs₃.shared.tracks
  obtain ⟨step, call', hs, hpr, -⟩ := hret
  have hfc := promptStep hs hpr
  rcases hfc.returned w now rfl with
    ⟨-, t, hcont, hlt⟩ | ⟨-, f, fetch, t, hc, hfet, hres, -⟩
  · have hby := (hs₃.shared.beyond n rfl).moves htrk hfc.moves
    rcases hby.content w t hcont with hle | hexp
    · exact hle
    · omega
  · rw [htrk.produced f fetch w t hfet hres]
    exact (hs₃.thread j).later rfl n rfl f hc

theorem holds_start (now₀ : ℕ) :
    Holds (SeenShared p origin clock none) (SeenCall p origin none fun _ => False)
      (cacheStart (V := V) (E := E) now₀) := by
  refine ⟨⟨⟨?_, ?_, ?_, ?_, ?_, ?_, ?_⟩, by simp⟩, fun _ => ⟨?_, by simp⟩⟩ <;>
    simp [cacheStart, CacheState.content, CacheState.future, WaitsBeyond]

/-- With prompt tasks, no value older than one that has been stored or returned is returned to a
later call. -/
theorem inOrder_of_prompt (now₀ : ℕ) : InOrder p origin (Prompt (E := E) p clock) now₀ := by
  refine ⟨?_, ?_⟩
  · intro pre mid post c₁ c₂ v t j w now hpre hs hrun
    have hb := hpre.invariants (keeps_seen _ _) (holds_start now₀)
    have hby : Beyond p origin (origin v) c₁.shared :=
      hb.shared.tracks.beyond (by rw [hs]; rfl)
    refine le_of_returned ⟨⟨hb.shared.tracks, ?_⟩, fun k => ⟨(hb.thread k).waits, ?_⟩⟩ hrun
    · rintro _ ⟨⟩
      exact hby
    · exact fun h => h.elim
  · intro pre mid post c i v time j w now hrun
    obtain ⟨c₁, c₂, hpre, hret, hr⟩ := hrun.of_append_cons
    have hb := hpre.invariants (keeps_seen _ _) (holds_start now₀)
    have hb₂ := hret.holds (keeps_seen _ _) hb
    have hby : Beyond p origin (origin v) c₂.shared := by
      obtain ⟨step, call', hstep, hpr, -⟩ := hret
      rcases (promptStep hstep hpr).returned v time rfl with
        ⟨-, t, hcont, -⟩ | ⟨hsame, f, fetch, t, hc, hfet, hres, -⟩
      · exact hb₂.shared.tracks.beyond hcont
      · -- the caller was waiting, so what the cache held had expired
        rw [hsame, hb.shared.tracks.produced f fetch v t hfet hres]
        exact (hb.thread i).waits f hc
    refine le_of_returned ⟨⟨hb₂.shared.tracks, ?_⟩, fun k => ⟨(hb₂.thread k).waits, ?_⟩⟩ hr
    · rintro _ ⟨⟩
      exact hby
    · exact fun h => h.elim

/-- If the clock waits for the tasks too, no value is returned after its time to live. -/
theorem young_of_prompt (now₀ : ℕ) : Young p origin (Prompt (E := E) p True) now₀ := by
  intro pre c c' i v now hpre hret
  have hb := hpre.invariants (keeps_seen _ _) (holds_start now₀)
  have hb' := hret.holds (keeps_seen _ _) hb
  obtain ⟨step, call', hstep, hpr, -⟩ := hret
  rcases (promptStep hstep hpr).returned v now rfl with
    ⟨rfl, t, hc, hlt⟩ | ⟨hs, f, fetch, t, hcall, hfet, hres, hle⟩
  · obtain ⟨fetch, t', hfet, hres, htime⟩ := hb'.shared.tracks.content v t hc
    obtain rfl := htime trivial
    exact ⟨fetch, t', hfet, hres, by omega⟩
  · obtain rfl := hb.shared.tracks.produced f fetch v t hfet hres
    exact ⟨fetch, t, by rw [hs, hfet], hres, hle trivial⟩

/-- **The order of values**: if the task of every completed fetch runs before another fetch is
started, no value older than one that has been stored or returned is returned to a later call; if
it also runs before the clock advances, no value is returned after its time to live. -/
theorem prompt_inOrder (p : CachePolicy) (origin : V → ℕ) (now₀ : ℕ) :
    InOrder p origin (Prompt (E := E) p False) now₀ ∧
      Young p origin (Prompt (E := E) p True) now₀ :=
  ⟨inOrder_of_prompt now₀, young_of_prompt now₀⟩

/-- Fetch 0 is returned, expires, and fetch 1 takes its place. -/
def promptTasks : List (ℕ × CacheStep ℕ Unit) :=
  [(0, .get), (0, .next), (0, .next), (0, .complete 0 (.ok 0)), (0, .task 0),
    (1, .get), (1, .next), (0, .tick 10),
    (2, .get), (2, .next), (2, .next), (0, .complete 1 (.ok 1)), (0, .task 1),
    (3, .get), (3, .next)]

/-- No caller or clock moves on before a task, and no caller that waits is resumed. -/
def promptCheck (c : Config (CacheShared ℕ Unit) CacheCall) (i : ℕ) : CacheStep ℕ Unit → Bool
  | .seed _ | .invalidate => false
  | .get | .tryGet | .complete .. | .task _ => true
  | .tick _ => c.shared.cache.fetches.all fun fetch => fetch.result.isNone || fetch.taskRan
  | .next => (c.shared.cache.fetches.all fun fetch => fetch.result.isNone || fetch.taskRan) &&
      c.thread i matches .idle | .trying | .fast | .slow

theorem prompt_of_check {c : Config (CacheShared ℕ Unit) CacheCall} {step : CacheStep ℕ Unit}
    (h : promptCheck c i step = true) : Prompt demoPolicy clock c i step := by
  have hran : (c.shared.cache.fetches.all fun fetch =>
      fetch.result.isNone || fetch.taskRan) = true → c.shared.AllRan := by
    intro hall f fetch hfet hs
    have hfet := List.all_eq_true.1 hall fetch (mem_of_getElem? hfet)
    cases hres : fetch.result <;> simp_all
  cases step with
  | seed | invalidate => cases h
  | get | tryGet | complete | task => trivial
  | tick => exact fun _ => hran h
  | next =>
    obtain ⟨hall, hc⟩ := Bool.and_eq_true_iff.1 h
    refine ⟨fun _ => .inr (hran hall), fun f _ _ _ hwait => ?_⟩
    rw [hwait] at hc
    cases hc

theorem prompt_inOrder_demo : ∃ c c' : Config (CacheShared ℕ Unit) CacheCall,
    (cacheMachine demoPolicy id).Run (Prompt demoPolicy True) (cacheStart 0)
      ([(0, .started), (1, .started)] ++ (1, .returned 0 0) ::
        ([(2, .started)] ++ (3, .started) :: ([] ++ [(3, .returned 1 10)]))) c ∧
    id 0 ≤ id 1 ∧ ∃ fetch t, c'.shared.cache.fetches[1]? = some fetch ∧
      fetch.result = some (.ok 1, t) ∧ 10 ≤ t + demoPolicy.ttl := by
  obtain ⟨c, hexec⟩ : ∃ c,
      (cacheMachine demoPolicy id).exec promptCheck (cacheStart 0) promptTasks =
        some (c, [(0, .started), (1, .started)] ++ (1, .returned 0 0) ::
          ([(2, .started)] ++ (3, .started) :: ([] ++ [(3, .returned 1 10)]))) := ⟨_, rfl⟩
  have hrun : ∀ clock, (cacheMachine demoPolicy id).Run (Prompt demoPolicy clock) _ _ c :=
    fun _ => run_of_exec (fun _ _ _ => prompt_of_check) hexec
  obtain ⟨hinOrder, hyoung⟩ := prompt_inOrder (E := Unit) demoPolicy id 0
  obtain ⟨c₁, c₂, hpre, hret, -⟩ :=
    (show (cacheMachine demoPolicy id).Run (Prompt demoPolicy True) _ ([(0, .started),
      (1, .started), (1, .returned 0 0), (2, .started), (3, .started)] ++
        (3, .returned 1 10) :: []) c from hrun True).of_append_cons
  exact ⟨c, c₂, hrun True, hinOrder.returned (hrun False), hyoung hpre hret⟩

end Prompt

end LanceDB
