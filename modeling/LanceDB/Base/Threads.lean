import Mathlib.Data.List.Basic

/-!
# Threads over a shared state

A program whose calls interleave at their locks and awaits is a machine: what one thread does to the
shared state between two such points is one step.  A step may show an event, such as the start of a
call or what it returned.  Runs are constrained by a condition that every step has to meet, and
observed through the events they show.

* `Machine`, `Machine.Fires`, `Machine.Run` : steps of threads, and runs with their events.
* `Machine.Run.of_append`, `Machine.Run.of_cons` — a run can be cut at its events.
* `Machine.Run.invariant` — an invariant that every step keeps.
* `Machine.Run.invariants` — the same for an invariant of the shared state together with one of
  every thread.
* `Machine.Run.follow` — what holds of one call from one of its events on.
* `Machine.Lock`, `Machine.Lock.Exclusive` — a lock is held by at most one thread.
* `Machine.run_of_exec`, `Machine.run_after` — runs can be computed.
* `Machine.run_of_solo` — the steps of a call that nothing interrupts.
-/

variable {S T A O : Type}

/-- A machine: what a step of a thread makes of the shared state and of its own, and the event it
shows. -/
structure Machine (S T A O : Type) where
  step : S → T → A → Option (S × T × Option O)

namespace Machine

open Function Option

/-- A shared state and the state of every thread. -/
structure Config (S T : Type) where
  shared : S
  thread : ℕ → T

/-- What every step of a run has to meet. -/
abbrev Condition (S T A : Type) := Config S T → ℕ → A → Prop

variable {M : Machine S T A O} {C : Condition S T A}

/-- The condition that every step meets. -/
def Condition.any : Condition S T A := fun _ _ _ => True

/-- Thread `i` takes a step. -/
def Fires (M : Machine S T A O) (C : Condition S T A) (c : Config S T) (i : ℕ) (o : Option O)
    (c' : Config S T) : Prop :=
  ∃ a t', M.step c.shared (c.thread i) a = some (c'.shared, t', o) ∧ C c i a ∧
    c'.thread = Function.update c.thread i t'

/-- What a step does to its own thread and to the others. -/
theorem Fires.exists_step {c c' : Config S T} {i : ℕ} {o : Option O} (h : M.Fires C c i o c') :
    ∃ a, M.step c.shared (c.thread i) a = some (c'.shared, c'.thread i, o) ∧ C c i a ∧
      ∀ k, k ≠ i → c'.thread k = c.thread k := by
  obtain ⟨a, t', hs, hc, hthr⟩ := h
  rw [hthr, update_self]
  exact ⟨a, hs, hc, fun k hk => update_of_ne hk _ _⟩

/-- Runs, with the events they show. -/
inductive Run (M : Machine S T A O) (C : Condition S T A) :
    Config S T → List (ℕ × O) → Config S T → Prop
  | refl (c : Config S T) : Run M C c [] c
  | silent {c c' c'' : Config S T} {i : ℕ} {es : List (ℕ × O)} :
      Fires M C c i none c' → Run M C c' es c'' → Run M C c es c''
  | event {c c' c'' : Config S T} {i : ℕ} {o : O} {es : List (ℕ × O)} :
      Fires M C c i (some o) c' → Run M C c' es c'' → Run M C c ((i, o) :: es) c''

namespace Run

variable {c c' c'' : Config S T} {es fs : List (ℕ × O)} {i : ℕ} {o : O}

theorem trans (h : M.Run C c es c') (h' : M.Run C c' fs c'') : M.Run C c (es ++ fs) c'' := by
  induction h with
  | refl c => exact h'
  | silent hf _ ih => exact .silent hf (ih h')
  | event hf _ ih => exact .event hf (ih h')

/-- A run under a condition is one under every condition that its steps then meet, as long as an
invariant holds. -/
theorem strengthen {C' : Condition S T A} {I : Config S T → Prop}
    (hs : ∀ c i o c', M.Fires C c i o c' → I c → I c')
    (hC : ∀ c i a r, M.step c.shared (c.thread i) a = some r → I c → C c i a → C' c i a)
    (h : M.Run C c es c') (hc : I c) : M.Run C' c es c' := by
  induction h with
  | refl c => exact .refl c
  | silent hf _ ih =>
    have hr := ih (hs _ _ _ _ hf hc)
    obtain ⟨a, t', hn, hcond, hthr⟩ := hf
    exact .silent ⟨a, t', hn, hC _ _ _ _ hn hc hcond, hthr⟩ hr
  | event hf _ ih =>
    have hr := ih (hs _ _ _ _ hf hc)
    obtain ⟨a, t', hn, hcond, hthr⟩ := hf
    exact .event ⟨a, t', hn, hC _ _ _ _ hn hc hcond, hthr⟩ hr

theorem mono {C' : Condition S T A} (h : M.Run C c es c') (hC : ∀ c i a, C c i a → C' c i a) :
    M.Run C' c es c' :=
  h.strengthen (I := fun _ => True) (fun _ _ _ _ _ _ => trivial)
    (fun _ _ _ _ _ _ hc => hC _ _ _ hc) trivial

theorem of_cons (h : M.Run C c ((i, o) :: es) c'') :
    ∃ c₁ c₂, M.Run C c [] c₁ ∧ M.Fires C c₁ i (some o) c₂ ∧ M.Run C c₂ es c'' := by
  generalize hall : (i, o) :: es = all at h
  induction h with
  | refl c => cases hall
  | silent hf _ ih =>
    obtain ⟨c₁, c₂, hrun, hf', hr⟩ := ih hall
    exact ⟨c₁, c₂, .silent hf hrun, hf', hr⟩
  | event hf hr _ =>
    cases hall
    exact ⟨_, _, .refl _, hf, hr⟩

theorem of_append (h : M.Run C c (es ++ fs) c'') :
    ∃ c', M.Run C c es c' ∧ M.Run C c' fs c'' := by
  induction es generalizing c with
  | nil => exact ⟨c, .refl c, h⟩
  | cons e es ih =>
    obtain ⟨c₁, c₂, hrun, hf, hr⟩ := of_cons h
    obtain ⟨c', hes, hfs⟩ := ih hr
    exact ⟨c', hrun.trans (.event hf hes), hfs⟩

/-- The run up to an event, and the step that shows it. -/
theorem of_append_cons (h : M.Run C c (es ++ (i, o) :: fs) c'') :
    ∃ c₁ c₂, M.Run C c es c₁ ∧ M.Fires C c₁ i (some o) c₂ ∧ M.Run C c₂ fs c'' := by
  obtain ⟨c', hes, hr⟩ := of_append h
  obtain ⟨c₁, c₂, hrun, hf, hfs⟩ := of_cons hr
  have hboth := hes.trans hrun
  rw [List.append_nil] at hboth
  exact ⟨c₁, c₂, hboth, hf, hfs⟩

/-! ### Invariants -/

/-- **The invariant rule.** -/
theorem invariant {I : Config S T → Prop}
    (hs : ∀ c i o c', M.Fires C c i o c' → I c → I c')
    (h : M.Run C c es c') (hc : I c) : I c' := by
  induction h with
  | refl c => exact hc
  | silent hf _ ih | event hf _ ih => exact ih (hs _ _ _ _ hf hc)

end Run

/-- An invariant of the shared state together with one of every thread. -/
structure Holds (I : S → Prop) (J : ℕ → S → T → Prop) (c : Config S T) : Prop where
  shared : I c.shared
  thread : ∀ i, J i c.shared (c.thread i)

section Invariants

variable {I : S → Prop} {J : ℕ → S → T → Prop} {c c' : Config S T} {es : List (ℕ × O)} {i : ℕ}
  {o : Option O}

/-- What a step has to keep: the invariant of the shared state, its own, and those of the other
threads. -/
def Keeps (M : Machine S T A O) (C : Condition S T A) (I : S → Prop) (J : ℕ → S → T → Prop) :
    Prop :=
  ∀ c i a s' t' o, M.step c.shared (c.thread i) a = some (s', t', o) → C c i a → Holds I J c →
    I s' ∧ J i s' t' ∧ ∀ k, k ≠ i → J k c.shared (c.thread k) → J k s' (c.thread k)

theorem Fires.holds (hkeeps : M.Keeps C I J) (h : M.Fires C c i o c') (hc : Holds I J c) :
    Holds I J c' := by
  obtain ⟨a, hs, hcond, hoth⟩ := h.exists_step
  obtain ⟨hI, hown, hoths⟩ := hkeeps c i a _ _ o hs hcond hc
  refine ⟨hI, fun k => ?_⟩
  by_cases hk : k = i
  · rwa [hk]
  · rw [hoth k hk]
    exact hoths k hk (hc.thread k)

/-- **The invariant rule** for shared state and threads. -/
theorem Run.invariants (hkeeps : M.Keeps C I J) (h : M.Run C c es c') (hc : Holds I J c) :
    Holds I J c' :=
  h.invariant (fun _ _ _ _ hf => hf.holds hkeeps) hc

end Invariants

/-! ### Following a call -/

/-- What every step keeps of a call that is followed, as long as an invariant holds: the steps of
its own thread, and those of the others. -/
structure Follows (M : Machine S T A O) (C : Condition S T A) (I : Config S T → Prop)
    (F : S → T → Prop) : Prop where
  keeps : ∀ {c i o c'}, M.Fires C c i o c' → I c → I c'
  own : ∀ {c i a s' t' o}, M.step c.shared (c.thread i) a = some (s', t', o) → C c i a → I c →
    F c.shared (c.thread i) → F s' t'
  other : ∀ {c i a s' t' o}, M.step c.shared (c.thread i) a = some (s', t', o) → C c i a → I c →
    ∀ k, F c.shared (c.thread k) → F s' (c.thread k)

section Follows

variable {I : Config S T → Prop} {F : S → T → Prop} {c c' : Config S T} {j : ℕ} {o o' : O}

theorem Follows.fires (hF : M.Follows C I F) {i : ℕ} {event : Option O}
    (hf : M.Fires C c i event c') (hc : I c ∧ F c.shared (c.thread j)) :
    I c' ∧ F c'.shared (c'.thread j) := by
  refine ⟨hF.keeps hf hc.1, ?_⟩
  obtain ⟨a, hs, hcond, hoth⟩ := hf.exists_step
  by_cases hj : j = i
  · subst hj
    exact hF.own hs hcond hc.1 hc.2
  · rw [hoth j hj]
    exact hF.other hs hcond hc.1 j hc.2

/-- **A call is followed** from one of its events to another one. -/
theorem Run.follow {es fs gs : List (ℕ × O)}
    (h : M.Run C c (es ++ (j, o) :: (fs ++ (j, o') :: gs)) c') (hF : M.Follows C I F) (hc : I c)
    (hs : ∀ c a s' t', M.step c.shared (c.thread j) a = some (s', t', some o) → C c j a → I c →
      F s' t') :
    ∃ c₁ c₂, I c₁ ∧ F c₁.shared (c₁.thread j) ∧ M.Fires C c₁ j (some o') c₂ ∧
      M.Run C c₂ gs c' := by
  obtain ⟨c₁, c₂, hes, hf, hr⟩ := h.of_append_cons
  obtain ⟨c₃, c₄, hfs, hf', hgs⟩ := hr.of_append_cons
  have hc₁ := hes.invariant (fun _ _ _ _ => hF.keeps) hc
  have hc₂ : I c₂ ∧ F c₂.shared (c₂.thread j) := by
    refine ⟨hF.keeps hf hc₁, ?_⟩
    obtain ⟨a, hstep, hcond, -⟩ := hf.exists_step
    exact hs c₁ a _ _ hstep hcond hc₁
  obtain ⟨hc₃, hown⟩ := hfs.invariant (fun _ _ _ _ => hF.fires) hc₂
  exact ⟨c₃, c₄, hc₃, hown, hf', hgs⟩

end Follows

/-! ### Locks -/

/-- A lock: every step leaves it alone, takes it while it is free, or releases it. -/
structure Lock (M : Machine S T A O) where
  locked : S → Prop
  holds : T → Prop
  step : ∀ {s t a s' t' o}, M.step s t a = some (s', t', o) →
    ((holds t' ↔ holds t) ∧ (locked s' ↔ locked s)) ∨ (¬ locked s ∧ locked s') ∨
      (holds t ∧ ¬ holds t')

/-- At most one thread holds the lock, and the lock is not free then. -/
structure Lock.Exclusive (L : M.Lock) (c : Config S T) : Prop where
  locked : ∀ i, L.holds (c.thread i) → L.locked c.shared
  eq : ∀ i j, L.holds (c.thread i) → L.holds (c.thread j) → i = j

theorem Lock.Exclusive.fires {L : M.Lock} {c c' : Config S T} {i : ℕ} {o : Option O}
    (h : L.Exclusive c) (hf : M.Fires C c i o c') : L.Exclusive c' := by
  obtain ⟨a, hstep, -, hoth⟩ := hf.exists_step
  rcases L.step hstep with ⟨hhl, hlock⟩ | ⟨hfree, hlock⟩ | ⟨hheld, hgone⟩
  · have hs : ∀ k, L.holds (c'.thread k) ↔ L.holds (c.thread k) := by
      intro k
      by_cases hk : k = i
      · rw [hk, hhl]
      · rw [hoth k hk]
    exact ⟨fun k hk => hlock.2 (h.locked k ((hs k).1 hk)),
      fun k l hk hl => h.eq k l ((hs k).1 hk) ((hs l).1 hl)⟩
  · -- nobody held it
    have honly : ∀ k, L.holds (c'.thread k) → k = i := by
      intro k hk
      by_contra hne
      rw [hoth k hne] at hk
      exact hfree (h.locked k hk)
    exact ⟨fun _ _ => hlock, fun k l hk hl => (honly k hk).trans (honly l hl).symm⟩
  · have hn : ∀ k, ¬ L.holds (c'.thread k) := by
      intro k hk
      by_cases hki : k = i
      · rw [hki] at hk
        exact hgone hk
      · rw [hoth k hki] at hk
        exact hki (h.eq k i hk hheld)
    exact ⟨fun k hk => absurd hk (hn k), fun k _ hk _ => absurd hk (hn k)⟩

/-! ### Computing runs -/

/-- The steps of a schedule that all meet a condition, with the events they show. -/
def exec (M : Machine S T A O) (check : Config S T → ℕ → A → Bool) :
    Config S T → List (ℕ × A) → Option (Config S T × List (ℕ × O))
  | c, [] => some (c, [])
  | c, (i, a) :: schedule =>
    if check c i a then do
      let (s', t', o) ← M.step c.shared (c.thread i) a
      let (c', es) ← exec M check ⟨s', Function.update c.thread i t'⟩ schedule
      return (c', o.toList.map (i, ·) ++ es)
    else none

/-- Where a schedule leads. -/
def after (M : Machine S T A O) (c : Config S T) (schedule : List (ℕ × A)) : Config S T :=
  match M.exec (fun _ _ _ => true) c schedule with
  | some (c', _) => c'
  | none => c

theorem run_of_exec {check : Config S T → ℕ → A → Bool} (hchk : ∀ c i a, check c i a → C c i a)
    {c c' : Config S T} {schedule : List (ℕ × A)} {es : List (ℕ × O)}
    (h : M.exec check c schedule = some (c', es)) : M.Run C c es c' := by
  induction schedule generalizing c es with
  | nil =>
    cases h
    exact .refl _
  | cons e schedule ih =>
    obtain ⟨i, a⟩ := e
    rw [exec] at h
    split_ifs at h with hc
    obtain ⟨⟨s', t', o⟩, hs, h⟩ := bind_eq_some_iff.1 h
    obtain ⟨⟨c'', fs⟩, hr, h⟩ := bind_eq_some_iff.1 h
    cases h
    have hf : M.Fires C c i o ⟨s', Function.update c.thread i t'⟩ :=
      ⟨a, t', hs, hchk c i a hc, rfl⟩
    cases o with
    | none => exact .silent hf (ih hr)
    | some o => exact .event hf (ih hr)

theorem run_after {c : Config S T} {schedule : List (ℕ × A)} {es : List (ℕ × O)}
    (h : (M.exec (fun _ _ _ => true) c schedule).map Prod.snd = some es) :
    M.Run Condition.any c es (M.after c schedule) := by
  obtain ⟨⟨c', es'⟩, hexec, rfl⟩ := map_eq_some_iff.1 h
  rw [after, hexec]
  exact run_of_exec (fun _ _ _ _ => trivial) hexec

/-! ### One thread alone -/

/-- Steps of one thread alone. -/
def solo (M : Machine S T A O) : S → T → List A → Option (S × T × List O)
  | s, t, [] => some (s, t, [])
  | s, t, a :: actions => do
    let (s', t', o) ← M.step s t a
    let (s'', t'', es) ← solo M s' t' actions
    return (s'', t'', o.toList ++ es)

theorem run_of_solo {actions : List A} {s s' : S} {t t' : T} {es : List O}
    (h : M.solo s t actions = some (s', t', es)) {c : Config S T} {i : ℕ} (hs : c.shared = s)
    (ht : c.thread i = t) :
    M.Run Condition.any c (es.map (i, ·)) ⟨s', Function.update c.thread i t'⟩ := by
  induction actions generalizing s t es c with
  | nil =>
    cases h
    rw [← hs, ← ht, update_eq_self]
    exact .refl c
  | cons a actions ih =>
    obtain ⟨⟨s₁, t₁, o⟩, hstep, h⟩ := bind_eq_some_iff.1 h
    obtain ⟨⟨s₂, t₂, es'⟩, hr, h⟩ := bind_eq_some_iff.1 h
    cases h
    have hf : M.Fires Condition.any c i o ⟨s₁, Function.update c.thread i t₁⟩ :=
      ⟨a, t₁, by rw [hs, ht]; exact hstep, trivial, rfl⟩
    have hrun := ih hr (c := ⟨s₁, Function.update c.thread i t₁⟩) rfl (update_self ..)
    rw [update_idem] at hrun
    cases o with
    | none => exact .silent hf hrun
    | some o => exact .event hf hrun

end Machine
