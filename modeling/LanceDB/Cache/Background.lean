import LanceDB.Base.Threads
import LanceDB.Base.Lists

/-!
# A cache that refreshes in the background

`BackgroundCache` keeps one value.  When it comes close to its time to live, a `get` starts a fetch
in the background and returns the value it has; when it has expired, a `get` waits for the fetch.
Several callers share one fetch.  What a fetch returned reaches the state on two ways: a task that
is spawned with the fetch stores it when it is scheduled, and a `get` that finds the fetch completed
stores it itself.

* `Cache` : the state of a cache together with the fetches it has spawned.
* `Cache.determineAction`, `Cache.startFetch`, `Cache.runTask` : the functions of the source.
* `Cache.determineAction_spec` — what a `get` does, in terms of what the cache holds before and
  after.
* `Cache.Good` : everything the cache can still hand out has a property.
* `Cache.good_invalidate` — after an invalidation only later fetches count.
-/

namespace LanceDB

open List

/-- The time to live of a value, and how long before its end it is refreshed. -/
structure CachePolicy where
  ttl : ℕ
  refreshWindow : ℕ
  /-- Asserted by `BackgroundCache::new`. -/
  lt : refreshWindow < ttl

/-- Values live for ten units. -/
def demoPolicy : CachePolicy := ⟨10, 1, by decide⟩

/-- `State`.  A shared future is the number of its fetch. -/
inductive CacheState (V : Type)
  | empty
  | current (value : V) (cachedAt : ℕ)
  | refreshing (previous : Option (V × ℕ)) (future : ℕ)
  deriving DecidableEq

/-- A fetch with the task that is spawned with it. -/
structure Fetch (V E : Type) where
  /-- The generation of the cache when the fetch was started. -/
  generation : ℕ
  /-- What it returned, and when. -/
  result : Option (Except E V × ℕ)
  /-- Its task has run. -/
  taskRan : Bool

/-- `CacheInner`, with all fetches that have been started. -/
structure Cache (V E : Type) where
  state : CacheState V
  generation : ℕ
  fetches : List (Fetch V E)

/-- `Action`. -/
inductive CacheAction (V : Type)
  | value (value : V)
  | wait (future : ℕ)

variable {V E : Type}
variable {v : V}

namespace CacheState

/-- The value in a state, with its time. -/
def content : CacheState V → Option (V × ℕ)
  | empty => none
  | current value cachedAt => some (value, cachedAt)
  | refreshing previous _ => previous

/-- The future in a state. -/
def future : CacheState V → Option ℕ
  | refreshing _ future => some future
  | _ => none

/-- `fresh_value`. -/
def freshValue (p : CachePolicy) (now : ℕ) : CacheState V → Option V
  | current value cachedAt =>
    if now - cachedAt < p.ttl - p.refreshWindow then some value else none
  | refreshing (some (value, cachedAt)) _ =>
    if now - cachedAt < p.ttl - p.refreshWindow then some value else none
  | _ => none

/-- The state after a failed fetch. -/
def ofPrevious : Option (V × ℕ) → CacheState V
  | some (value, cachedAt) => current value cachedAt
  | none => empty

@[simp] theorem content_ofPrevious (previous : Option (V × ℕ)) :
    (ofPrevious previous).content = previous := by
  cases previous <;> rfl

@[simp] theorem future_ofPrevious (previous : Option (V × ℕ)) :
    (ofPrevious previous).future = none := by
  cases previous <;> rfl

theorem freshValue_spec {p : CachePolicy} {now : ℕ} {st : CacheState V}
    (h : st.freshValue p now = some v) : ∃ t, st.content = some (v, t) ∧ now - t < p.ttl := by
  have hlt : p.ttl - p.refreshWindow ≤ p.ttl := Nat.sub_le _ _
  unfold freshValue at h
  split at h
  · split_ifs at h with hfr
    cases h
    exact ⟨_, rfl, by omega⟩
  · split_ifs at h with hfr
    cases h
    exact ⟨_, rfl, by omega⟩
  · cases h

end CacheState

namespace Cache

variable (p : CachePolicy) (now : ℕ) (c : Cache V E)

/-- `peek` of a shared future. -/
def peek (future : ℕ) : Option (Except E V) := do
  let fetch ← c.fetches[future]?
  let (result, _) ← fetch.result
  return result

/-- The shortcut of `determine_action`: a fetch that has completed is applied. -/
def settle : Cache V E :=
  match c.state with
  | .refreshing previous future =>
    match c.peek future with
    | some (.ok value) => { c with state := .current value now }
    | some (.error _) => { c with state := .ofPrevious previous }
    | none => c
  | _ => c

/-- `start_fetch`. -/
def startFetch (previous : Option (V × ℕ)) : Cache V E :=
  { c with
    state := .refreshing previous c.fetches.length
    fetches := c.fetches ++ [⟨c.generation, none, false⟩] }

/-- The part of `determine_action` after the shortcut. -/
def act : Cache V E × CacheAction V :=
  match c.state with
  | .empty => (c.startFetch none, .wait c.fetches.length)
  | .current value cachedAt =>
    if now - cachedAt < p.ttl - p.refreshWindow then
      (c, .value value)
    else if now - cachedAt < p.ttl then
      (c.startFetch (some (value, cachedAt)), .value value)
    else
      (c.startFetch (some (value, cachedAt)), .wait c.fetches.length)
  | .refreshing (some (value, cachedAt)) future =>
    if now - cachedAt < p.ttl then (c, .value value) else (c, .wait future)
  | .refreshing none future => (c, .wait future)

/-- `determine_action`. -/
def determineAction : Cache V E × CacheAction V := (c.settle now).act p now

/-- A fetch completes. -/
def complete (future : ℕ) (result : Except E V) : Cache V E :=
  { c with
    fetches := c.fetches.modify future fun fetch => { fetch with result := some (result, now) } }

/-- What the task of a fetch does with its result. -/
def applyResult (result : Except E V) : CacheState V :=
  match result with
  | .ok value => .current value now
  | .error _ =>
    match c.state with
    | .refreshing previous _ => .ofPrevious previous
    | _ => .empty

/-- The task of a fetch runs. -/
def runTask (future : ℕ) (fetch : Fetch V E) (result : Except E V) : Cache V E :=
  { c with
    state := if c.generation = fetch.generation then c.applyResult now result else c.state
    fetches := c.fetches.modify future fun fetch => { fetch with taskRan := true } }

/-- `invalidate`. -/
def invalidate : Cache V E := { c with state := .empty, generation := c.generation + 1 }

/-- `seed`. -/
def seed (value : V) : Cache V E := { c with state := .current value now }

/-! ### What the functions do -/

variable {p now c}
variable {result : Except E V} {f i : ℕ}

theorem peek_eq_some {future : ℕ} :
    c.peek future = some result ↔
      ∃ fetch t, c.fetches[future]? = some fetch ∧ fetch.result = some (result, t) := by
  simp only [peek, Option.bind_eq_bind, Option.bind_eq_some_iff, Option.pure_def,
    Option.some.injEq, Prod.exists]
  constructor
  · rintro ⟨fetch, hfet, result', t, hres, rfl⟩
    exact ⟨fetch, t, hfet, hres⟩
  · rintro ⟨fetch, t, hfet, hres⟩
    exact ⟨fetch, hfet, result, t, hres, rfl⟩

/-- What a cache holds after it has been looked at: what it held, or what its fetch returned. -/
structure Settled (now : ℕ) (c c' : Cache V E) : Prop where
  generation : c'.generation = c.generation
  fetches : c'.fetches = c.fetches
  content : ∀ v t, c'.state.content = some (v, t) → c.state.content = some (v, t) ∨
    (t = now ∧ ∃ f, c.state.future = some f ∧ c.peek f = some (.ok v))
  future : ∀ f, c'.state.future = some f → c.state.future = some f ∧ c.peek f = none
  /-- The fetch that was under way has completed if there is none under way any more. -/
  completed : c'.state.future = none → ∀ f, c.state.future = some f → c.peek f ≠ none

theorem settle_spec : Settled now c (c.settle now) := by
  unfold settle
  split
  · rename_i previous future hs
    split
    · rename_i value hpeek
      refine ⟨rfl, rfl, ?_, ?_, ?_⟩
      · intro v t hc
        obtain ⟨rfl, rfl⟩ : value = v ∧ now = t := by simpa [CacheState.content] using hc
        exact .inr ⟨rfl, future, by rw [hs]; rfl, hpeek⟩
      · simp [CacheState.future]
      · intro _ f hf
        obtain rfl : future = f := by simpa [hs, CacheState.future] using hf
        simp [hpeek]
    · rename_i error hpeek
      refine ⟨rfl, rfl, ?_, ?_, ?_⟩
      · intro v t hc
        rw [CacheState.content_ofPrevious] at hc
        exact .inl (by rw [hs]; exact hc)
      · simp
      · intro _ f hf
        obtain rfl : future = f := by simpa [hs, CacheState.future] using hf
        simp [hpeek]
    · rename_i hpeek
      refine ⟨rfl, rfl, fun v t h => .inl h, ?_, ?_⟩
      · intro f hf
        obtain rfl : future = f := by simpa [hs, CacheState.future] using hf
        exact ⟨hf, hpeek⟩
      · simp [hs, CacheState.future]
  · rename_i hs
    have hn : c.state.future = none := by
      cases hst : c.state with
      | refreshing previous future => exact absurd hst (hs previous future)
      | _ => rfl
    exact ⟨rfl, rfl, fun v t h => .inl h, by simp [hn], by simp [hn]⟩

/-- What the slow path of a `get` does: it hands out a value that is in the cache and has not
expired, or it waits for the fetch that is under way and what the cache holds has expired; and it
starts a fetch only if none is under way. -/
structure Decided (p : CachePolicy) (now : ℕ) (c c' : Cache V E) (action : CacheAction V) :
    Prop where
  generation : c'.generation = c.generation
  content : ∀ v t, c'.state.content = some (v, t) → c.state.content = some (v, t) ∨
    (t = now ∧ ∃ f, c.state.future = some f ∧ c.peek f = some (.ok v))
  fetches :
    (c'.fetches = c.fetches ∧
      (∀ f, c'.state.future = some f → c.state.future = some f ∧ c.peek f = none) ∧
      (c'.state.future = none → ∀ f, c.state.future = some f → c.peek f ≠ none)) ∨
    (c'.fetches = c.fetches ++ [⟨c.generation, none, false⟩] ∧
      c'.state.future = some c.fetches.length ∧
      ∀ f, c.state.future = some f → c.peek f ≠ none)
  value : ∀ v, action = .value v → ∃ t, c'.state.content = some (v, t) ∧ now - t < p.ttl
  wait : ∀ f, action = .wait f → c'.state.future = some f ∧
    ∀ v t, c'.state.content = some (v, t) → p.ttl ≤ now - t

theorem Settled.started {c' : Cache V E} {action : CacheAction V} (h : Settled now c c')
    (hn : c'.state.future = none)
    (hval : ∀ v, action = .value v → ∃ t, c'.state.content = some (v, t) ∧ now - t < p.ttl)
    (hwait : ∀ f, action = .wait f → f = c.fetches.length ∧
      ∀ v t, c'.state.content = some (v, t) → p.ttl ≤ now - t) :
    Decided p now c (c'.startFetch c'.state.content) action := by
  refine ⟨h.generation, h.content, .inr ⟨?_, ?_, h.completed hn⟩, hval, ?_⟩
  · rw [startFetch, h.fetches, h.generation]
  · rw [startFetch, h.fetches]
    rfl
  · intro f hf
    obtain ⟨rfl, hexp⟩ := hwait f hf
    refine ⟨?_, hexp⟩
    rw [startFetch, h.fetches]
    rfl

/-- **The slow path of a `get`.** -/
theorem determineAction_spec :
    Decided p now c (c.determineAction p now).1 (c.determineAction p now).2 := by
  have h : Settled now c (c.settle now) := settle_spec
  have hlt : p.ttl - p.refreshWindow ≤ p.ttl := Nat.sub_le _ _
  have hk : ∀ action, (∀ v, action = .value v → ∃ t,
      (c.settle now).state.content = some (v, t) ∧ now - t < p.ttl) →
      (∀ f, action = .wait f → (c.settle now).state.future = some f ∧
        ∀ v t, (c.settle now).state.content = some (v, t) → p.ttl ≤ now - t) →
      Decided p now c (c.settle now) action := fun action hval hwait =>
    ⟨h.generation, h.content, .inl ⟨h.fetches, h.future, h.completed⟩, hval, hwait⟩
  rw [determineAction, act]
  split
  · rename_i hs
    have hn : (c.settle now).state.content = none := by rw [hs]; rfl
    rw [← hn]
    refine h.started (by rw [hs]; rfl) (by simp) ?_
    rintro f ⟨⟩
    exact ⟨by rw [h.fetches], by simp [hn]⟩
  · rename_i value cachedAt hs
    have hc : (c.settle now).state.content = some (value, cachedAt) := by rw [hs]; rfl
    have hn : (c.settle now).state.future = none := by rw [hs]; rfl
    split_ifs with hfr hyoung
    · refine hk _ ?_ (by simp)
      rintro v ⟨⟩
      exact ⟨cachedAt, hc, by omega⟩
    · rw [← hc]
      refine h.started hn ?_ (by simp)
      rintro v ⟨⟩
      exact ⟨cachedAt, hc, hyoung⟩
    · rw [← hc]
      refine h.started hn (by simp) ?_
      rintro f ⟨⟩
      refine ⟨by rw [h.fetches], fun v t hvt => ?_⟩
      obtain ⟨rfl, rfl⟩ : value = v ∧ cachedAt = t := by simpa [hc] using hvt
      omega
  · rename_i value cachedAt future hs
    have hc : (c.settle now).state.content = some (value, cachedAt) := by rw [hs]; rfl
    split_ifs with hyoung
    · refine hk _ ?_ (by simp)
      rintro v ⟨⟩
      exact ⟨cachedAt, hc, hyoung⟩
    · refine hk _ (by simp) ?_
      rintro f ⟨⟩
      refine ⟨by rw [hs]; rfl, fun v t hvt => ?_⟩
      obtain ⟨rfl, rfl⟩ : value = v ∧ cachedAt = t := by simpa [hc] using hvt
      omega
  · rename_i future hs
    refine hk _ (by simp) ?_
    rintro f ⟨⟩
    exact ⟨by rw [hs]; rfl, by simp [hs, CacheState.content]⟩

theorem length_le_determineAction (p : CachePolicy) (now : ℕ) (c : Cache V E) :
    c.fetches.length ≤ (c.determineAction p now).1.fetches.length := by
  have hs : Decided p now c _ _ := determineAction_spec
  rcases hs.fetches with ⟨hfs, -⟩ | ⟨hfs, -⟩
  · rw [hfs]
  · rw [hfs, length_append]
    exact Nat.le_add_right _ _

theorem applyResult_content {t : ℕ} (h : (c.applyResult now result).content = some (v, t)) :
    c.state.content = some (v, t) ∨ (t = now ∧ result = .ok v) := by
  unfold applyResult at h
  split at h
  · obtain ⟨rfl, rfl⟩ : _ = v ∧ now = t := by simpa [CacheState.content] using h
    exact .inr ⟨rfl, rfl⟩
  · split at h
    · rename_i hs
      rw [CacheState.content_ofPrevious] at h
      exact .inl (by rw [hs]; exact h)
    · cases h

theorem applyResult_future (result : Except E V) : (c.applyResult now result).future = none := by
  unfold applyResult
  split
  · rfl
  · split
    · exact CacheState.future_ofPrevious _
    · rfl

/-! ### Later fetches only -/

/-- Fetch `f` was started in generation `g` or later. -/
def Since (g : ℕ) (c : Cache V E) (f : ℕ) : Prop :=
  ∃ fetch, c.fetches[f]? = some fetch ∧ g ≤ fetch.generation

theorem since_modify {c' : Cache V E} {g : ℕ} {h : Fetch V E → Fetch V E}
    (hc' : c'.fetches = c.fetches.modify i h)
    (hgen : ∀ fetch, (h fetch).generation = fetch.generation) : c'.Since g f ↔ c.Since g f := by
  constructor
  · rintro ⟨fetch, hfet, hle⟩
    rw [hc'] at hfet
    obtain ⟨old, hold, rfl | ⟨-, rfl⟩⟩ := getElem?_modify_cases hfet
    · exact ⟨_, hold, hle⟩
    · exact ⟨old, hold, hgen old ▸ hle⟩
  · rintro ⟨fetch, hfet, hle⟩
    refine ⟨if i = f then h fetch else fetch, ?_, ?_⟩
    · rw [hc', getElem?_modify, hfet]
      rfl
    · split_ifs
      · rwa [hgen]
      · exact hle

@[simp] theorem since_complete {g : ℕ} : (c.complete now i result).Since g f ↔ c.Since g f :=
  since_modify rfl fun _ => rfl

@[simp] theorem since_runTask {g : ℕ} {fetch : Fetch V E} :
    (c.runTask now i fetch result).Since g f ↔ c.Since g f :=
  since_modify rfl fun _ => rfl

@[simp] theorem since_invalidate {g : ℕ} : c.invalidate.Since g f ↔ c.Since g f := Iff.rfl

theorem since_determineAction {g : ℕ} (hlt : f < c.fetches.length) :
    (c.determineAction p now).1.Since g f ↔ c.Since g f := by
  have hspec : Decided p now c _ _ := determineAction_spec
  have hs : (c.determineAction p now).1.fetches[f]? = c.fetches[f]? := by
    rcases hspec.fetches with ⟨hfs, -⟩ | ⟨hfs, -⟩
    · rw [hfs]
    · rw [hfs, getElem?_append_left hlt]
  rw [Since, Since, hs]

theorem Since.lt {g : ℕ} (h : c.Since g f) : f < c.fetches.length := by
  obtain ⟨fetch, hfet, -⟩ := h
  exact (List.getElem?_eq_some_iff.1 hfet).1

/-- No fetch is of a generation to come. -/
def Bounded (c : Cache V E) : Prop := ∀ fetch ∈ c.fetches, fetch.generation ≤ c.generation

/-- What the cache can still hand out has a property: the value it holds, and the results of the
fetches since generation `g`, of which the one under way is one. -/
structure Good (P : V → Prop) (g : ℕ) (c : Cache V E) : Prop where
  generation : g ≤ c.generation
  content : ∀ v t, c.state.content = some (v, t) → P v
  future : ∀ f, c.state.future = some f → c.Since g f
  result : ∀ (f : ℕ) (fetch : Fetch V E) (v : V) (t : ℕ), c.fetches[f]? = some fetch →
    g ≤ fetch.generation → fetch.result = some (.ok v, t) → P v

/-- After an invalidation only fetches of the new generation count, and there is none yet. -/
theorem good_invalidate (P : V → Prop) (h : c.Bounded) :
    Good P (c.generation + 1) c.invalidate := by
  refine ⟨le_rfl, by simp [invalidate, CacheState.content], by simp [invalidate, CacheState.future],
    fun f fetch v t hfet hgen _ => ?_⟩
  have := h fetch (mem_of_getElem? hfet)
  omega

namespace Bounded

theorem determineAction (h : c.Bounded) : (c.determineAction p now).1.Bounded := by
  have hs : Decided p now c _ _ := determineAction_spec
  rcases hs.fetches with ⟨hfs, -⟩ | ⟨hfs, -⟩
  · rw [Bounded, hfs, hs.generation]
    exact h
  · rw [Bounded, hfs, hs.generation]
    intro fetch hfet
    rcases mem_append.1 hfet with hold | hnew
    · exact h fetch hold
    · rw [mem_singleton.1 hnew]

theorem invalidate (h : c.Bounded) : c.invalidate.Bounded := fun fetch hfet =>
  (h fetch hfet).trans (Nat.le_succ _)

theorem modify {f : Fetch V E → Fetch V E} (h : c.Bounded)
    (hgen : ∀ fetch, (f fetch).generation = fetch.generation) :
    ∀ fetch ∈ c.fetches.modify i f, fetch.generation ≤ c.generation := by
  intro fetch hfet
  obtain ⟨j, hj⟩ := mem_iff_getElem?.1 hfet
  obtain ⟨old, hold, rfl | ⟨-, rfl⟩⟩ := getElem?_modify_cases hj
  · exact h _ (mem_of_getElem? hold)
  · rw [hgen]
    exact h old (mem_of_getElem? hold)

end Bounded

namespace Good

variable {P : V → Prop} {g : ℕ}

theorem peek (h : Good P g c) (hf : c.Since g f) (hpeek : c.peek f = some (.ok v)) : P v := by
  obtain ⟨fetch, t, hfet, hres⟩ := peek_eq_some.1 hpeek
  obtain ⟨fetch', hfet', hgen⟩ := hf
  obtain rfl : fetch = fetch' := by simpa [hfet] using hfet'
  exact h.result f fetch v t hfet hgen hres

theorem mono {Q : V → Prop} (h : Good P g c) (hPQ : ∀ v, P v → Q v) : Good Q g c :=
  ⟨h.generation, fun v t hv => hPQ v (h.content v t hv), h.future,
    fun f fetch v t hfet hgen hres => hPQ v (h.result f fetch v t hfet hgen hres)⟩

theorem freshValue (h : Good P g c) (hv : c.state.freshValue p now = some v) : P v := by
  obtain ⟨t, hc, -⟩ := CacheState.freshValue_spec hv
  exact h.content v t hc

theorem determineAction (h : Good P g c) : Good P g (c.determineAction p now).1 := by
  have hs : Decided p now c _ _ := determineAction_spec
  have hc : ∀ v t, (c.determineAction p now).1.state.content = some (v, t) → P v := by
    intro v t hvt
    rcases hs.content v t hvt with hold | ⟨-, f, hf, hpeek⟩
    · exact h.content v t hold
    · exact h.peek (h.future f hf) hpeek
  rcases hs.fetches with ⟨hfs, hfut, -⟩ | ⟨hfs, hfut, -⟩
  · refine ⟨hs.generation ▸ h.generation, hc, fun f hf => ?_, ?_⟩
    · obtain ⟨fetch, hfet, hgen⟩ := h.future f (hfut f hf).1
      exact ⟨fetch, by rw [hfs, hfet], hgen⟩
    · rw [hfs]
      exact h.result
  · refine ⟨hs.generation ▸ h.generation, hc, fun f hf => ?_, ?_⟩
    · obtain rfl : c.fetches.length = f := by simpa [hfut] using hf
      exact ⟨_, by rw [hfs, getElem?_concat_length], h.generation⟩
    · intro f fetch v t hfet hgen hres
      rw [hfs, getElem?_append] at hfet
      split_ifs at hfet
      · exact h.result f fetch v t hfet hgen hres
      · -- the new fetch has no result yet
        obtain rfl := mem_singleton.1 (mem_of_getElem? hfet)
        cases hres

theorem value (h : Good P g c) (hv : (c.determineAction p now).2 = .value v) : P v := by
  obtain ⟨t, hc, -⟩ := determineAction_spec.value v hv
  exact h.determineAction.content v t hc

theorem wait (h : Good P g c) (hf : (c.determineAction p now).2 = .wait f) :
    (c.determineAction p now).1.Since g f :=
  h.determineAction.future f (determineAction_spec.wait f hf).1

theorem invalidate (h : Good P g c) : Good P g c.invalidate :=
  ⟨h.generation.trans (Nat.le_succ _), by simp [Cache.invalidate, CacheState.content],
    by simp [Cache.invalidate, CacheState.future], h.result⟩

/-- A fetch completes with a value that has the property, or one that does not count. -/
theorem complete (h : Good P g c) (hP : ∀ v, c.Since g f → result = .ok v → P v) :
    Good P g (c.complete now f result) := by
  refine ⟨h.generation, h.content, fun f' hf' => since_complete.2 (h.future f' hf'), ?_⟩
  intro f' fetch v t hfet hgen hres
  obtain ⟨fetch', hfet', hcs⟩ := getElem?_modify_cases hfet
  rcases hcs with rfl | ⟨rfl, rfl⟩
  · exact h.result f' fetch v t hfet' hgen hres
  · obtain ⟨rfl, rfl⟩ : result = .ok v ∧ now = t := by simpa using hres
    exact hP v ⟨fetch', hfet', hgen⟩ rfl

theorem runTask (h : Good P g c) {fetch : Fetch V E} {t : ℕ} (hfet : c.fetches[f]? = some fetch)
    (hres : fetch.result = some (result, t)) : Good P g (c.runTask now f fetch result) := by
  refine ⟨h.generation, ?_, ?_, ?_⟩
  · intro v t' hc
    simp only [Cache.runTask] at hc
    split_ifs at hc with hgen
    · rcases applyResult_content hc with hold | ⟨-, rfl⟩
      · exact h.content v t' hold
      · exact h.result f fetch v t hfet (hgen ▸ h.generation) hres
    · exact h.content v t' hc
  · intro f' hf'
    simp only [Cache.runTask] at hf'
    split_ifs at hf' with hgen
    · rw [applyResult_future] at hf'
      cases hf'
    · exact since_runTask.2 (h.future f' hf')
  · intro f' fetch' v t' hfet' hgen hres'
    obtain ⟨fetch'', hfet'', hcs⟩ := getElem?_modify_cases hfet'
    rcases hcs with rfl | ⟨rfl, rfl⟩
    · exact h.result f' fetch' v t' hfet'' hgen hres'
    · exact h.result f' fetch'' v t' hfet'' hgen hres'

end Good

end Cache

end LanceDB
