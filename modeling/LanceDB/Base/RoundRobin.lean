import LanceDB.Base.Lists

/-!
# Fair service of several queues

A server hands out the items of the queues `0, …, n - 1` in rounds.  It is *memoryless*: whom it
serves next depends only on how often each queue has been served and on what the queues hold.
The next queue is the one served least often, the lowest index first; a round starts only when
every queue has an item, and a queue that has fallen behind is served as long as it has one.

* `least c n` : the first index below `n` with the least count.
* `State γ`, `step`, `run` : the server; `run_add` — a run can be cut anywhere.
* `step_eq_some_of_level`, `step_eq_some_of_behind` — when a queue is served.
* `length_run_le_size` — a run ends.
* `run_rounds`, `run_rounds_end` — what full rounds hand out, and where they end.
-/

namespace LanceDB

open List

namespace RoundRobin

/-! ### The queue served least often -/

/-- The first index below `n` with the least count. -/
def least (c : ℕ → ℕ) : ℕ → ℕ
  | 0 => 0
  | k + 1 => if c k < c (least c k) then k else least c k

theorem least_lt (c : ℕ → ℕ) {n : ℕ} (hn : 0 < n) : least c n < n := by
  induction n with
  | zero => omega
  | succ k ih =>
    rw [least]
    split_ifs
    · omega
    · rcases Nat.eq_zero_or_pos k with rfl | hk
      · simp [least]
      · exact (ih hk).trans (Nat.lt_succ_self k)

theorem least_le (c : ℕ → ℕ) {n i : ℕ} (hi : i < n) : c (least c n) ≤ c i := by
  induction n with
  | zero => omega
  | succ k ih =>
    rw [least]
    rcases Nat.lt_succ_iff_lt_or_eq.1 hi with hlt | rfl
    · have := ih hlt
      split_ifs <;> omega
    · split_ifs <;> omega

theorem lt_of_lt_least (c : ℕ → ℕ) {n i : ℕ} (hi : i < least c n) : c (least c n) < c i := by
  induction n with
  | zero => simp [least] at hi
  | succ k ih =>
    rw [least] at hi ⊢
    split_ifs at hi ⊢ with hk
    · exact hk.trans_le (least_le c hi)
    · exact ih hi

theorem least_eq {c : ℕ → ℕ} {n j : ℕ} (hj : j < n) (hle : ∀ i < n, c j ≤ c i)
    (hlt : ∀ i < j, c j < c i) : least c n = j := by
  have hn : 0 < n := Nat.zero_lt_of_lt hj
  have hl := least_lt c hn
  have h1 := hle _ hl
  have h2 := least_le c hj
  rcases Nat.lt_trichotomy (least c n) j with h | h | h
  · have := hlt _ h
    omega
  · exact h
  · have := lt_of_lt_least c h
    omega

/-! ### The server -/

variable {γ : Type*}

/-- How often each queue has been served, and the items it still holds. -/
@[ext] structure State (γ : Type*) where
  count : ℕ → ℕ
  rest : ℕ → List γ

namespace State

/-- Queue `i` is served, which leaves it with `items`. -/
def serve (s : State γ) (i : ℕ) (items : List γ) : State γ :=
  ⟨Function.update s.count i (s.count i + 1), Function.update s.rest i items⟩

@[simp] theorem serve_count (s : State γ) (i : ℕ) (items : List γ) :
    (s.serve i items).count = Function.update s.count i (s.count i + 1) := rfl

@[simp] theorem serve_rest (s : State γ) (i : ℕ) (items : List γ) :
    (s.serve i items).rest = Function.update s.rest i items := rfl

/-- All of the first `n` queues have been served equally often: a round is complete. -/
def Level (n : ℕ) (s : State γ) : Prop := ∀ i < n, s.count i = s.count 0

instance (n : ℕ) (s : State γ) : Decidable (s.Level n) :=
  inferInstanceAs (Decidable (∀ i < n, s.count i = s.count 0))

/-- All of the first `n` queues hold an item. -/
def Full (n : ℕ) (s : State γ) : Prop := ∀ i < n, (s.rest i).isEmpty = false

instance (n : ℕ) (s : State γ) : Decidable (s.Full n) :=
  inferInstanceAs (Decidable (∀ i < n, (s.rest i).isEmpty = false))

end State

/-- One step of the server: the queue it serves, the item and the state after it; `none` when the
server stops. -/
def step (n : ℕ) (s : State γ) : Option (ℕ × γ × State γ) :=
  let i := least s.count n
  if n = 0 ∨ (s.Level n ∧ ¬ s.Full n) then none
  else match s.rest i with
    | [] => none
    | x :: items => some (i, x, s.serve i items)

/-- At most `k` steps: what is handed out, and the state after it. -/
def run (n : ℕ) : ℕ → State γ → List (ℕ × γ) × State γ
  | 0, s => ([], s)
  | k + 1, s =>
    match step n s with
    | none => ([], s)
    | some (i, x, s') => ((i, x) :: (run n k s').1, (run n k s').2)

variable {n : ℕ} {s s' : State γ} {i : ℕ} {x : γ} {items : List γ}

theorem step_eq_some_of_level (hn : 0 < n) (hlvl : s.Level n) (hf : s.Full n)
    (hr : s.rest 0 = x :: items) : step n s = some (0, x, s.serve 0 items) := by
  have hlst : least s.count n = 0 := by
    refine least_eq hn (fun i hi => ?_) (fun i hi => by omega)
    rw [hlvl i hi]
  have hgo : ¬ (n = 0 ∨ (s.Level n ∧ ¬ s.Full n)) := by
    rintro (h | h)
    · omega
    · exact h.2 hf
  simp only [step, hlst, hr, if_neg hgo]

/-- A queue that has fallen behind is served as long as it holds an item. -/
theorem step_eq_some_of_behind (hi : i < n) (hle : ∀ j < n, s.count i ≤ s.count j)
    (hlt : ∀ j < i, s.count i < s.count j) (hlvl : ¬ s.Level n)
    (hr : s.rest i = x :: items) : step n s = some (i, x, s.serve i items) := by
  have hgo : ¬ (n = 0 ∨ (s.Level n ∧ ¬ s.Full n)) := by
    rintro (h | h)
    · omega
    · exact hlvl h.1
  simp only [step, least_eq hi hle hlt, hr, if_neg hgo]

theorem step_eq_none_of_level (hlvl : s.Level n) (hf : ¬ s.Full n) : step n s = none := by
  simp [step, hlvl, hf]

theorem step_eq_none_of_behind (hi : i < n) (hle : ∀ j < n, s.count i ≤ s.count j)
    (hlt : ∀ j < i, s.count i < s.count j) (hr : s.rest i = []) : step n s = none := by
  simp [step, least_eq hi hle hlt, hr]

theorem step_eq_some (h : step n s = some (i, x, s')) :
    i < n ∧ i = least s.count n ∧ ∃ items, s.rest i = x :: items ∧ s' = s.serve i items := by
  simp only [step] at h
  split_ifs at h with hgo
  have hn : 0 < n := Nat.pos_of_ne_zero fun h0 => hgo (Or.inl h0)
  split at h
  · cases h
  · rename_i y items hr
    simp only [Option.some.injEq, Prod.mk.injEq] at h
    obtain ⟨rfl, rfl, rfl⟩ := h
    exact ⟨least_lt _ hn, rfl, items, hr, rfl⟩

/-! ### Runs -/

@[simp] theorem run_zero : run n 0 s = ([], s) := rfl

theorem run_succ_none (k : ℕ) (h : step n s = none) : run n k s = ([], s) := by
  cases k with
  | zero => rfl
  | succ k => simp [run, h]

theorem run_succ_some (k : ℕ) (h : step n s = some (i, x, s')) :
    run n (k + 1) s = ((i, x) :: (run n k s').1, (run n k s').2) := by
  simp [run, h]

/-- **A run can be cut anywhere**: the server has no memory beyond its state. -/
theorem run_add (k m : ℕ) : run n (k + m) s =
    ((run n k s).1 ++ (run n m (run n k s).2).1, (run n m (run n k s).2).2) := by
  induction k generalizing s with
  | zero => simp
  | succ k ih =>
    rw [Nat.add_right_comm]
    cases h : step n s with
    | none => rw [run_succ_none _ h, run_succ_none _ h, run_succ_none _ h]; rfl
    | some r =>
      obtain ⟨i, x, s'⟩ := r
      rw [run_succ_some _ h, run_succ_some _ h, ih]
      rfl

theorem length_run_le (n k : ℕ) (s : State γ) : (run n k s).1.length ≤ k := by
  induction k generalizing s with
  | zero => simp
  | succ k ih =>
    cases h : step n s with
    | none => simp [run_succ_none _ h]
    | some r =>
      obtain ⟨i, x, s'⟩ := r
      simpa [run_succ_some _ h] using ih s'

/-- The items the queues still hold. -/
def State.size (n : ℕ) (s : State γ) : ℕ := ∑ i ∈ Finset.range n, (s.rest i).length

theorem size_step (h : step n s = some (i, x, s')) : s'.size n + 1 = s.size n := by
  obtain ⟨hi, -, items, hr, rfl⟩ := step_eq_some h
  have hfun : (fun j => ((s.serve i items).rest j).length) =
      Function.update (fun j => (s.rest j).length) i items.length := by
    funext j
    by_cases hj : j = i
    · subst hj; simp
    · simp [hj]
  have hsum := Finset.sum_update_add (Finset.mem_range.2 hi) (fun j => (s.rest j).length)
    items.length
  simp only [← hfun, hr, length_cons] at hsum
  simp only [State.size]
  omega

/-- **A run ends**: the server hands out no more items than the queues hold. -/
theorem length_run_le_size (k : ℕ) : (run n k s).1.length ≤ s.size n := by
  induction k generalizing s with
  | zero => simp
  | succ k ih =>
    cases h : step n s with
    | none => simp [run_succ_none _ h]
    | some r =>
      obtain ⟨i, x, s'⟩ := r
      have hs := size_step h
      have hrun := ih (s := s')
      rw [run_succ_some _ h, length_cons]
      omega

/-! ### Full rounds -/

namespace State

/-- The items of a round: the `k`-th ones of the first `i` queues. -/
def row (s : State γ) (i k : ℕ) : List (ℕ × γ) :=
  (List.range i).filterMap fun j => (s.rest j)[k]?.map (Prod.mk j)

/-- The first `i` queues have been served once. -/
def served (s : State γ) (i : ℕ) : State γ where
  count j := if j < i then s.count j + 1 else s.count j
  rest j := if j < i then (s.rest j).tail else s.rest j

/-- The first `n` queues have been served `m` times. -/
def rounds (s : State γ) (n m : ℕ) : State γ where
  count j := if j < n then s.count j + m else s.count j
  rest j := if j < n then (s.rest j).drop m else s.rest j

theorem rounds_zero (s : State γ) (n : ℕ) : s.rounds n 0 = s := by
  simp [rounds]

theorem served_zero (s : State γ) : s.served 0 = s := by
  simp [served]

theorem serve_served (s : State γ) (h : s.rest i = x :: items) :
    (s.served i).serve i items = s.served (i + 1) := by
  have hcnt : ((s.served i).serve i items).count = (s.served (i + 1)).count := by
    funext j
    by_cases hj : j = i
    · subst hj
      simp [served]
    · simp only [serve_count, Function.update_of_ne hj, served]
      split_ifs <;> omega
  have hr : ((s.served i).serve i items).rest = (s.served (i + 1)).rest := by
    funext j
    by_cases hj : j = i
    · subst hj
      simp [served, h]
    · have hiff : j < i ↔ j < i + 1 := by omega
      simp only [serve_rest, Function.update_of_ne hj, served, hiff]
  exact State.ext hcnt hr

theorem served_rounds (s : State γ) (n m : ℕ) : (s.rounds n m).served n = s.rounds n (m + 1) := by
  simp only [served, rounds, State.mk.injEq]
  constructor
  · funext j
    split_ifs <;> omega
  · funext j
    split_ifs <;> simp

theorem row_rounds (s : State γ) (n m : ℕ) : (s.rounds n m).row n 0 = s.row n m := by
  refine filterMap_congr fun j hj => ?_
  rw [mem_range] at hj
  simp [rounds, hj]

theorem Level.rounds (h : s.Level n) (m : ℕ) : (s.rounds n m).Level n := by
  intro i hi
  simp [State.rounds, hi, Nat.zero_lt_of_lt hi, h i hi]

end State

/-- In a round the queues are served in order. -/
theorem step_served (hlvl : s.Level n) (hf : s.Full n) (hi : i < n)
    (hr : s.rest i = x :: items) : step n (s.served i) = some (i, x, s.served (i + 1)) := by
  have hcnt : ∀ j < n, (s.served i).count j = if j < i then s.count 0 + 1 else s.count 0 := by
    intro j hj
    simp [State.served, hlvl j hj]
  have hlst : least (s.served i).count n = i := by
    refine least_eq hi (fun j hj => ?_) fun j hj => ?_
    · rw [hcnt i hi, hcnt j hj]
      split_ifs <;> omega
    · rw [hcnt i hi, hcnt j (hj.trans hi), if_pos hj, if_neg (Nat.lt_irrefl i)]
      omega
  have hgo : ¬ (n = 0 ∨ ((s.served i).Level n ∧ ¬ (s.served i).Full n)) := by
    rintro (h | ⟨hlvl', hnot⟩)
    · omega
    · -- only the start of a round is level
      rcases Nat.eq_zero_or_pos i with rfl | hpos
      · rw [s.served_zero] at hnot
        exact hnot hf
      · have := hlvl' i hi
        rw [hcnt i hi, hcnt 0 (by omega), if_pos hpos, if_neg (Nat.lt_irrefl i)] at this
        omega
  have hhd : (s.served i).rest i = x :: items := by simp [State.served, hr]
  simp only [step, hlst, hhd, if_neg hgo, s.serve_served hr]

theorem run_served (hlvl : s.Level n) (hf : s.Full n) (hi : i ≤ n) :
    run n i s = (s.row i 0, s.served i) := by
  induction i with
  | zero => simp [State.row, s.served_zero]
  | succ i ih =>
    have hne : s.rest i ≠ [] := by simpa using hf i hi
    obtain ⟨x, items, hr⟩ := exists_cons_of_ne_nil hne
    have hs := step_served hlvl hf (show i < n by omega) hr
    rw [run_add, ih (by omega), run_succ_some 0 hs]
    simp [State.row, range_succ, hr]

/-- **Full rounds** hand out the items of the queues in order, round by round. -/
theorem run_rounds (hlvl : s.Level n) (m : ℕ) (hlen : ∀ i < n, m ≤ (s.rest i).length) :
    run n (m * n) s = ((List.range m).flatMap (s.row n), s.rounds n m) := by
  induction m with
  | zero => simp [s.rounds_zero]
  | succ m ih =>
    have hf : (s.rounds n m).Full n := by
      intro i hi
      have := hlen i hi
      simp only [State.rounds, hi, if_true, isEmpty_eq_false_iff, ne_eq, drop_eq_nil_iff]
      omega
    rw [Nat.succ_mul, run_add, ih fun i hi => (Nat.le_succ m).trans (hlen i hi),
      run_served (hlvl.rounds m) hf le_rfl, s.served_rounds, s.row_rounds, range_succ,
      flatMap_append, flatMap_singleton]

/-- The server stops when a queue is empty at the end of a round. -/
theorem run_rounds_end (hlvl : s.Level n) {m : ℕ} (hlen : ∀ i < n, m ≤ (s.rest i).length)
    (hi : i < n) (hend : (s.rest i).length = m) (k : ℕ) :
    run n (m * n + k) s = ((List.range m).flatMap (s.row n), s.rounds n m) := by
  have hnot : ¬ (s.rounds n m).Full n := by
    intro hf
    have := hf i hi
    simp [State.rounds, hi, ← hend] at this
  rw [run_add, run_rounds hlvl m hlen,
    run_succ_none k (step_eq_none_of_level (hlvl.rounds m) hnot), append_nil]

end RoundRobin

end LanceDB
