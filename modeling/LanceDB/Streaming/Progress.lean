import LanceDB.Streaming.PipelineInvariant
import LanceDB.Streaming.Rows

/-!
# The counters of a generator only move forward

Whatever the transform does and whichever reads fail: a generator that yields a row moves the
counters of one owned split forward and touches no other, and a split never has more samples than
positions.  Nothing here depends on what the rows are.

* `Source.Behind` : the rows ahead of a pipeline lie behind given positions, in increasing order.
* `Reader.Counters` : the counters of a dataset in terms of those it was opened on, the samples
  yielded since and the positions reached.
* `Reader.take_progress` — they hold after any calls of `next`, and no count or position goes back.
* `RowState.Sound` : no split has more samples than positions.
-/

open Std.Do EStateM

set_option mvcgen.warning false

namespace LanceDB

open List Function

namespace Streaming

variable {α β ε : Type}

/-! ### Positions ahead of the pipeline -/

namespace Source

/-- The rows ahead of the pipeline lie at increasing positions, none before `pos`. -/
def Behind (src : Source α β ε) (pos : ℕ → ℕ) (p : Pipe α β) : Prop :=
  ∃ todo, src.PipeInv todo p ∧
    ∀ i < src.n, (todo i).Pairwise (·.1 < ·.1) ∧ ∀ x ∈ todo i, pos i ≤ x.1

theorem Behind.congr {src : Source α β ε} {pos pos' : ℕ → ℕ} {p : Pipe α β}
    (h : src.Behind pos p) (hpos : ∀ i < src.n, pos' i = pos i) : src.Behind pos' p := by
  obtain ⟨todo, hinv, ht⟩ := h
  refine ⟨todo, hinv, fun i hi => ⟨(ht i hi).1, fun x hx => ?_⟩⟩
  rw [hpos i hi]
  exact (ht i hi).2 x hx

variable (src : Source α β ε) {i : ℕ} (hi : i < src.n) (pos : ℕ → ℕ)

theorem behind_init : src.Behind src.initialPositions src.init := by
  refine ⟨src.accepted, src.pipeInv_init, fun i _ => ⟨?_, ?_⟩⟩
  · exact pairwise_map.1
      (List.Pairwise.sublist (src.accepted_positions i) pairwise_lt_range')
  · intro x hx
    have hmem := (src.accepted_positions i).subset (mem_map_of_mem (f := Prod.fst) hx)
    exact (mem_range'_1.1 hmem).1

theorem fillIo_ok (i : ℕ) (p : Pipe α β) : ∃ q, src.fillIo i p = .ok () q := by
  have hsub : ∀ p, ∃ q, src.submitIo i p = .ok () q := by
    intro p
    by_cases hrem : (src.rows i).length - (p.lanes i).fetchHead = 0
    · exact ⟨p, by simp [submitIo, hrem]⟩
    · simp [submitIo, hrem, setLane]
  have hloop : ∀ k p, ∃ q, src.fillIoLoop i k p = .ok () q := by
    intro k
    induction k with
    | zero => exact fun p => ⟨p, rfl⟩
    | succ k ih =>
      intro p
      obtain ⟨p₁, hp₁⟩ := hsub p
      obtain ⟨q, hq⟩ := ih p₁
      by_cases hroom : (p.lanes i).ioPending.length + (p.lanes i).rawBatches.length <
          src.limits.ioQueueDepth ∧ (p.lanes i).fetchHead < (src.rows i).length
      · exact ⟨q, by simp [fillIoLoop, hroom, hp₁, hq]⟩
      · exact ⟨p, by simp [fillIoLoop, hroom]⟩
  exact hloop _ p

include hi

theorem fillIo_behind :
    Spec (src.Behind pos) (src.fillIo i) (fun _ => src.Behind pos) fun _ _ => True := by
  refine triple_iff.2 fun p ⟨todo, hinv, hpos⟩ => ⟨fun r q hq => ?_, fun _ _ _ => trivial⟩
  have hs := src.fillIo_spec todo (fun _ => False) (src.potential i (p.lanes i)) hi
  exact ⟨todo, (ok_of_triple hs ⟨hinv, fun _ _ hf => hf.elim, le_rfl⟩ hq).1.inv, hpos⟩

theorem ensureCooked_behind :
    Spec (src.Behind pos) (src.ensureCooked i) (fun _ => src.Behind pos) fun _ _ => True := by
  refine triple_iff.2 fun p ⟨todo, hinv, hpos⟩ => ⟨fun r q hq => ?_, fun _ _ _ => trivial⟩
  have hs := src.ensureCooked_spec todo (fun _ => False) hi
  exact ⟨todo, (ok_of_triple hs ⟨hinv, fun _ _ hf => hf.elim⟩ hq).1, hpos⟩

omit hi in
theorem fillAllFrom_behind (k : ℕ) {i : ℕ} (hik : i + k = src.n) {p : Pipe α β}
    (hbh : src.Behind pos p) :
    ∃ q, src.fillAllFrom i k p = .ok () q ∧ src.Behind pos q := by
  induction k generalizing i p with
  | zero => exact ⟨p, rfl, hbh⟩
  | succ k ih =>
    obtain ⟨p₁, hp₁⟩ := src.fillIo_ok i p
    have hs := ok_of_triple (src.fillIo_behind (by omega) pos) hbh hp₁
    obtain ⟨q, hq, hbh'⟩ := ih (i := i + 1) (by omega) hs
    exact ⟨q, by simp [fillAllFrom, hp₁, hq], hbh'⟩

/-- A row that is taken lies behind the position of its split, and moves the position past it. -/
theorem takeRow_behind : Spec (src.Behind pos) (src.takeRow i)
    (fun r p => match r with
      | none => src.Behind pos p
      | some row => pos i ≤ row.1 ∧ src.Behind (Function.update pos i (row.1 + 1)) p)
    fun _ _ => True := by
  refine triple_iff.2 fun p ⟨todo, hinv, hpos⟩ => ⟨fun r q hq => ?_, fun _ _ _ => trivial⟩
  obtain ⟨todo', hinv', ht⟩ := ok_of_triple (src.takeRow_step todo hi) hinv hq
  cases r with
  | none =>
    refine ⟨todo', hinv', fun j hj => ?_⟩
    have hs : todo j = todo' j := by simpa [rowsOf] using ht j
    rw [← hs]
    exact hpos j hj
  | some row =>
    have hrow : todo i = row :: todo' i := by simpa [rowsOf] using ht i
    obtain ⟨hsort, hge⟩ := hpos i hi
    rw [hrow] at hsort hge
    refine ⟨hge row mem_cons_self, todo', hinv', fun j hj => ?_⟩
    by_cases hji : j = i
    · subst hji
      rw [update_self]
      exact ⟨(pairwise_cons.1 hsort).2, (pairwise_cons.1 hsort).1⟩
    · rw [update_of_ne hji]
      have hs : todo j = todo' j := by simpa [rowsOf, Ne.symm hji] using ht j
      rw [← hs]
      exact hpos j hj

end Source

/-! ### The counters of a generator -/

/-- The owned splits are listed in increasing order. -/
def Increasing (n : ℕ) (split : ℕ → ℕ) : Prop := ∀ i j, i < j → j < n → split i < split j

theorem Increasing.ne {n : ℕ} {split : ℕ → ℕ} (h : Increasing n split) {i j : ℕ} (hi : i < n)
    (hj : j < n) (hne : i ≠ j) : split i ≠ split j := by
  rcases Nat.lt_or_gt_of_ne hne with hlt | hlt
  · exact (h i j hlt hj).ne
  · exact (h j i hlt hi).ne'

variable {mySplits : List ℕ} {i split : ℕ}

theorem increasing_of_sorted (hsort : mySplits.Pairwise (· < ·)) :
    Increasing mySplits.length (mySplits.getD · 0) := by
  intro i j hij hj
  show mySplits.getD i 0 < mySplits.getD j 0
  rw [getD_eq_getElem _ _ (hij.trans hj), getD_eq_getElem _ _ hj]
  exact pairwise_iff_getElem.1 hsort i j (hij.trans hj) hj hij

theorem mem_splits (hi : i < mySplits.length) : mySplits.getD i 0 ∈ mySplits := by
  rw [getD_eq_getElem _ _ hi]
  exact getElem_mem hi

theorem exists_split_eq (h : split ∈ mySplits) :
    ∃ i < mySplits.length, mySplits.getD i 0 = split := by
  obtain ⟨i, hi, rfl⟩ := mem_iff_getElem.1 h
  exact ⟨i, hi, getD_eq_getElem _ _ hi⟩

theorem split_ne (h : split ∉ mySplits) : ∀ i < mySplits.length, mySplits.getD i 0 ≠ split := by
  rintro i hi rfl
  exact h (mem_splits hi)

theorem sum_update_succ {n : ℕ} (hi : i < n) (f : ℕ → ℕ) :
    ∑ j ∈ Finset.range n, Function.update f i (f i + 1) j = ∑ j ∈ Finset.range n, f j + 1 := by
  have hmem := Finset.mem_range.2 hi
  rw [Finset.sum_update_of_mem hmem, ← Finset.add_sum_erase _ f hmem,
    Finset.sdiff_singleton_eq_erase]
  omega

namespace Reader

variable {rd : Reader α β ε} {st₀ st : RowState}

/-- The counters of the splits a generator does not own, and the uniformity flag, are as they
were when it was opened. -/
structure Frame (rd : Reader α β ε) (st₀ st : RowState) : Prop where
  samples : ∀ split, (∀ i < rd.src.n, rd.split i ≠ split) →
    st.resumeSamples split = st₀.resumeSamples split
  positions : ∀ split, (∀ i < rd.src.n, rd.split i ≠ split) →
    st.resumePositions split = st₀.resumePositions split
  uniform : st.requiresUniform = st₀.requiresUniform

theorem Frame.record (h : rd.Frame st₀ st) (hi : i < rd.src.n) (samples position : ℕ) :
    rd.Frame st₀ (st.record (rd.split i) samples position) := by
  refine ⟨fun split hsplit => ?_, fun split hsplit => ?_, h.uniform⟩
  · rw [← h.samples split hsplit]
    exact update_of_ne (hsplit i hi).symm _ _
  · rw [← h.positions split hsplit]
    exact update_of_ne (hsplit i hi).symm _ _

/-- The counters `st` of a dataset whose generator was opened on the counters `st₀` and has since
yielded `consumed i` samples of owned split `i`, up to position `pos i`. -/
structure Counters (rd : Reader α β ε) (st₀ : RowState) (consumed pos : ℕ → ℕ)
    (st : RowState) : Prop where
  waiting : ∀ i < rd.src.n, consumed i = 0 → pos i = st₀.startPos (rd.split i) ∧
    st.resumeSamples (rd.split i) = st₀.resumeSamples (rd.split i) ∧
    st.resumePositions (rd.split i) = st₀.resumePositions (rd.split i)
  yielded : ∀ i < rd.src.n, 0 < consumed i →
    st.resumeSamples (rd.split i) = some (rd.initialSamples i + consumed i) ∧
    st.resumePositions (rd.split i) = some (pos i)
  sample_le : ∀ i < rd.src.n, rd.initialSamples i + consumed i ≤ pos i
  frame : rd.Frame st₀ st
  offset : rd.realWorker = true → st.resumeOffset = st₀.resumeOffset

theorem Counters.record {consumed pos : ℕ → ℕ} (h : rd.Counters st₀ consumed pos st)
    (hsplit : Increasing rd.src.n rd.split) {q : ℕ} (hi : i < rd.src.n) (hq : pos i ≤ q) :
    rd.Counters st₀ (Function.update consumed i (consumed i + 1)) (Function.update pos i (q + 1))
      (st.record (rd.split i) (rd.initialSamples i + (consumed i + 1)) (q + 1)) := by
  have hoth : ∀ j < rd.src.n, j ≠ i →
      (st.record (rd.split i) (rd.initialSamples i + (consumed i + 1)) (q + 1)).resumeSamples
          (rd.split j) = st.resumeSamples (rd.split j) ∧
      (st.record (rd.split i) (rd.initialSamples i + (consumed i + 1)) (q + 1)).resumePositions
          (rd.split j) = st.resumePositions (rd.split j) := by
    intro j hj hji
    exact ⟨update_of_ne (hsplit.ne hj hi hji) _ _,
      update_of_ne (hsplit.ne hj hi hji) _ _⟩
  refine ⟨fun j hj hz => ?_, fun j hj hpos => ?_, fun j hj => ?_, h.frame.record hi _ _,
    h.offset⟩
  · have hji : j ≠ i := by
      rintro rfl
      simp at hz
    rw [update_of_ne hji] at hz ⊢
    rw [(hoth j hj hji).1, (hoth j hj hji).2]
    exact h.waiting j hj hz
  · by_cases hji : j = i
    · subst hji
      simp [RowState.record]
    · rw [update_of_ne hji] at hpos ⊢
      rw [update_of_ne hji, (hoth j hj hji).1, (hoth j hj hji).2]
      exact h.yielded j hj hpos
  · by_cases hji : j = i
    · subst hji
      have := h.sample_le j hj
      simp only [update_self]
      omega
    · rw [update_of_ne hji, update_of_ne hji]
      exact h.sample_le j hj

/-- The generator has reached the samples and positions `lo`. -/
def Advanced (rd : Reader α β ε) (st₀ : RowState) (lo : ℕ → ℕ × ℕ) (it : Iter α β) : Prop :=
  ∃ pos, rd.src.Behind pos it.pipe ∧ rd.Counters st₀ it.localConsumed pos it.st ∧
    ∀ i < rd.src.n, (lo i).1 ≤ it.localConsumed i ∧ (lo i).2 ≤ pos i

/-- The generator is suspended at an owned split. -/
def PhaseIn (rd : Reader α β ε) : Phase → Prop
  | .finished => True
  | .cycle i => i < rd.src.n
  | .catchUp _ pending => 0 < rd.src.n ∧ ∀ e ∈ pending, e.2.2 < rd.src.n

/-- The generator has reached `lo` and yielded `y` samples, of all owned splits. -/
def Counted (rd : Reader α β ε) (st₀ : RowState) (lo : ℕ → ℕ × ℕ) (y : ℕ) (it : Iter α β) : Prop :=
  rd.Advanced st₀ lo it ∧ ∑ i ∈ Finset.range rd.src.n, it.localConsumed i = y

variable {lo : ℕ → ℕ × ℕ} {y : ℕ} {it it' : Iter α β} (h : rd.Counted st₀ lo y it)
include h

theorem Counted.atPhase (phase : Phase) : rd.Counted st₀ lo y (it.atPhase phase) := h

theorem Counted.setOffset (hreal : rd.realWorker = false) (offset : ℕ) :
    rd.Counted st₀ lo y { it with st := { it.st with resumeOffset := offset } } := by
  obtain ⟨⟨pos, hbh, hcs, hlo⟩, hy⟩ := h
  refine ⟨⟨pos, hbh, ⟨hcs.waiting, hcs.yielded, hcs.sample_le,
    ⟨hcs.frame.samples, hcs.frame.positions, hcs.frame.uniform⟩, ?_⟩, hlo⟩, hy⟩
  rw [hreal]
  exact fun h => nomatch h

omit h

/-- The generator has come as far and its dataset has the counters `s`. -/
abbrev CountedAt (rd : Reader α β ε) (st₀ : RowState) (lo : ℕ → ℕ × ℕ) (y : ℕ) (s : RowState)
    (it : Iter α β) : Prop :=
  rd.Counted st₀ lo y it ∧ it.st = s

/-- The generator is suspended behind a row, if there was one. -/
abbrev Yielded (rd : Reader α β ε) (st₀ : RowState) (lo : ℕ → ℕ × ℕ) (y : ℕ) (r : Option β)
    (it : Iter α β) : Prop :=
  rd.Counted st₀ lo (y + r.toList.length) it ∧ rd.PhaseIn it.phase

section Step

variable (rd st₀ lo y) (s : RowState) (hsplit : Increasing rd.src.n rd.split) (hi : i < rd.src.n)

include hi in
theorem ensureCooked_progress :
    Spec (rd.CountedAt st₀ lo y s) (liftPump (rd.src.ensureCooked i))
      (fun _ => rd.CountedAt st₀ lo y s) fun _ it => it.st = s := by
  refine triple_iff.2 fun it ⟨⟨⟨pos, hbh, hcs, hlo⟩, hy⟩, hs⟩ => ?_
  cases hq : rd.src.ensureCooked i it.pipe with
  | error e q => simpa [liftPump, hq] using hs
  | ok u q =>
    have hbh' := ok_of_triple (rd.src.ensureCooked_behind hi pos) hbh hq
    simpa [liftPump, hq] using ⟨⟨⟨pos, hbh', hcs, hlo⟩, hy⟩, hs⟩

include hsplit hi in
theorem yieldRow_progress :
    Spec (rd.CountedAt st₀ lo y s) (rd.yieldRow i)
      (fun r => rd.Counted st₀ lo (y + r.toList.length)) fun _ it => it.st = s := by
  refine triple_iff.2 fun it ⟨⟨⟨pos, hbh, hcs, hlo⟩, hy⟩, hs⟩ => ?_
  cases hq : rd.src.takeRow i it.pipe with
  | error e q => simpa [yieldRow, liftPump, hq] using hs
  | ok row q =>
    refine ⟨fun r it' hrun => ?_, by cases row <;> simp [yieldRow, liftPump, hq]⟩
    have ht := ok_of_triple (rd.src.takeRow_behind hi pos) hbh hq
    cases row with
    | none =>
      obtain ⟨rfl, rfl⟩ : none = r ∧ { it with pipe := q } = it' := by
        simpa [yieldRow, liftPump, hq] using hrun
      exact ⟨⟨pos, ht, hcs, hlo⟩, hy⟩
    | some row =>
      obtain ⟨hle, hbh'⟩ := ht
      obtain ⟨rfl, rfl⟩ : some row.2 = r ∧ _ = it' := by
        simpa [yieldRow, liftPump, hq] using hrun
      refine ⟨⟨_, hbh', by simpa using hcs.record hsplit hi hle, fun j hj => ?_⟩,
        hy ▸ sum_update_succ hi _⟩
      have hj' := hlo j hj
      by_cases hji : j = i
      · subst hji
        simp only [update_self]
        omega
      · simpa [hji] using hj'

include hsplit hi in
theorem cycleRow_progress :
    Spec (rd.CountedAt st₀ lo y s) (rd.cycleRow i) (rd.Yielded st₀ lo y)
      fun _ it => it.st = s := by
  have hyield := yieldRow_progress rd st₀ lo y s hsplit hi
  unfold cycleRow updateProgressStats suspend
  mvcgen [hyield]
  all_goals grind [PhaseIn, Iter.atPhase, Counted.atPhase, Counted.setOffset]

theorem ensureAllFrom_progress (k : ℕ) (hik : i + k = rd.src.n) :
    Spec (rd.CountedAt st₀ lo y s) (rd.ensureAllFrom i k) (fun _ => rd.CountedAt st₀ lo y s)
      fun _ it => it.st = s := by
  induction k generalizing i with
  | zero =>
    unfold ensureAllFrom
    mvcgen
  | succ k ih =>
    have hens := ensureCooked_progress rd st₀ lo y s (i := i) (by omega)
    have hr := ih (i := i + 1) (by omega)
    unfold ensureAllFrom
    mvcgen [hens, hr]

include hsplit in
theorem startCycle_progress (hn : 0 < rd.src.n) :
    Spec (rd.CountedAt st₀ lo y s) rd.startCycle (rd.Yielded st₀ lo y) fun _ it => it.st = s := by
  have hens := ensureAllFrom_progress rd st₀ lo y s rd.src.n (Nat.zero_add _)
  have hrow := cycleRow_progress rd st₀ lo y s hsplit hn
  unfold startCycle suspend
  mvcgen [hens, hrow]
  all_goals grind [PhaseIn, Iter.atPhase, Counted.atPhase]

include hsplit hi in
theorem catchUpRow_progress {catchUpTo consumed split : ℕ} {pending : List (ℕ × ℕ × ℕ)}
    (hpend : ∀ e ∈ pending, e.2.2 < rd.src.n) :
    Spec (rd.CountedAt st₀ lo y s) (rd.catchUpRow catchUpTo consumed split i pending)
      (rd.Yielded st₀ lo y) fun _ it => it.st = s := by
  have hens := ensureCooked_progress rd st₀ lo y s hi
  have hyield := yieldRow_progress rd st₀ lo y s hsplit hi
  unfold catchUpRow updateProgressStats suspend
  mvcgen [hens, hyield]
  all_goals
    grind [PhaseIn, Iter.atPhase, Counted.atPhase, Counted.setOffset, mem_orderedInsert]

include hsplit in
/-- **One call moves the counters forward** by the row it yields, and one that raises leaves them
as they were. -/
theorem resume_progress :
    Spec (fun it => rd.CountedAt st₀ lo y s it ∧ rd.PhaseIn it.phase) rd.resume
      (rd.Yielded st₀ lo y) fun _ it => it.st = s := by
  have hs := startCycle_progress rd st₀ lo y s hsplit
  have hrow := fun i => @cycleRow_progress _ _ _ i rd st₀ lo y s hsplit
  have hcatch := fun i => @catchUpRow_progress _ _ _ i rd st₀ lo y s hsplit
  unfold resume
  mvcgen [hs, hrow, hcatch]
  -- what is left: the place the generator is suspended at is an owned split
  all_goals grind [PhaseIn, mem_cons_self, mem_cons_of_mem]

end Step

theorem next_progress (hsplit : Increasing rd.src.n rd.split) (hcntd : rd.Counted st₀ lo y it)
    (hph : rd.PhaseIn it.phase) :
    (∀ r it', rd.next it = .ok r it' → rd.Yielded st₀ lo y r it') ∧
    ∀ e it', rd.next it = .error e it' → it'.st = it.st := by
  obtain ⟨hok, herr⟩ := triple_iff.1 (resume_progress rd st₀ lo y it.st hsplit) it
    ⟨⟨hcntd, rfl⟩, hph⟩
  cases h : rd.resume it <;> grind [next, Iter.atPhase]

/-- **Any calls of `next` move the counters forward**, by the rows they yield. -/
theorem take_progress (hsplit : Increasing rd.src.n rd.split) (k : ℕ)
    (hcntd : rd.Counted st₀ lo y it) (hph : rd.PhaseIn it.phase) {r : List β × Bool}
    (hrun : rd.take k it = .ok r it') :
    rd.Counted st₀ lo (y + r.1.length) it' ∧ rd.PhaseIn it'.phase := by
  induction k generalizing it y r with
  | zero => grind [take]
  | succ k ih =>
    have hs := (next_progress hsplit hcntd hph).1
    rw [take] at hrun
    split at hrun
    · cases hrun
    · rename_i it₁ hn
      obtain ⟨rfl, rfl⟩ : ([], true) = r ∧ it₁ = it' := by simpa using hrun
      exact hs none it₁ hn
    · rename_i row it₁ hn
      obtain ⟨hcntd₁, hph₁⟩ := hs (some row) it₁ hn
      split at hrun
      · cases hrun
      · rename_i rows ended it₂ hr
        obtain ⟨rfl, rfl⟩ : (row :: rows, ended) = r ∧ it₂ = it' := by simpa using hrun
        rw [length_cons, Nat.add_comm rows.length, ← Nat.add_assoc]
        exact ih hcntd₁ hph₁ hr

theorem firstPhase_in : rd.PhaseIn rd.firstPhase := by
  rw [firstPhase]
  split_ifs with hn hlvl
  · trivial
  · exact Nat.pos_of_ne_zero hn
  · refine ⟨Nat.pos_of_ne_zero hn, fun e he => ?_⟩
    rw [mem_insertionSort, mem_map] at he
    obtain ⟨i, hi, rfl⟩ := he
    exact mem_range.1 (mem_filter.1 hi).1

end Reader

/-- **No split has more samples than positions.** -/
def RowState.Sound (st : RowState) : Prop :=
  ∀ split p, st.resumePositions split = some p → ∃ c ≤ p, st.resumeSamples split = some c

theorem RowState.Sound.sampleCount_le {st : RowState} (h : st.Sound) (split : ℕ) :
    st.sampleCount split ≤ st.startPos split := by
  cases hp : st.resumePositions split with
  | none => simp [RowState.startPos, hp]
  | some p =>
    obtain ⟨c, hc, hs⟩ := h split p hp
    simpa [RowState.sampleCount, RowState.startPos, hp, hs] using hc

namespace Reader

theorem make_of_open {tbl : SplitTable α β ε} {cfg : Config} {worker : Option WorkerInfo}
    {realWorker : Bool} {schedule : ℕ → List Completion} {st : RowState} {rd : Reader α β ε}
    {it : Iter α β} (h : Reader.open tbl cfg worker realWorker schedule st = .ok (rd, it)) :
    ∃ mySplits, cfg.resolveMySplits worker = .ok mySplits ∧
      make tbl mySplits realWorker schedule st = rd ∧
      (make tbl mySplits realWorker schedule st).start st = it := by
  rw [Reader.open] at h
  split at h
  · cases h
  · rename_i mySplits hasg
    split at h
    · cases h
    · simp only [Except.ok.injEq, Prod.mk.injEq] at h
      exact ⟨mySplits, hasg, h.1, h.2⟩

theorem start_progress (tbl : SplitTable α β ε) (mySplits : List ℕ) (realWorker : Bool)
    (schedule : ℕ → List Completion) {st : RowState} (hs : st.Sound) :
    let rd := make tbl mySplits realWorker schedule st
    rd.Advanced st (fun i => (0, st.startPos (rd.split i))) (rd.start st) ∧
      rd.PhaseIn (rd.start st).phase := by
  intro rd
  obtain ⟨q, hq, hbh⟩ := rd.src.fillAllFrom_behind _ rd.src.n (Nat.zero_add _)
    rd.src.behind_init
  have hpipe : (rd.start st).pipe = q := by simp [start, hq]
  refine ⟨⟨fun i => st.startPos (rd.split i), ?_, ?_, fun i _ => ⟨le_rfl, le_rfl⟩⟩, firstPhase_in⟩
  · rw [hpipe]
    exact hbh
  · exact ⟨fun i _ _ => ⟨rfl, rfl, rfl⟩, fun i _ h => absurd h (Nat.lt_irrefl 0),
      fun i _ => hs.sampleCount_le _, ⟨fun _ _ => rfl, fun _ _ => rfl, rfl⟩, fun _ => rfl⟩

variable {rd : Reader α β ε} {st₀ st : RowState} {consumed pos : ℕ → ℕ}
  (h : rd.Counters st₀ consumed pos st)
include h

theorem Counters.sound (hsnd : st₀.Sound) : st.Sound := by
  intro split p hp
  by_cases hfo : ∀ i < rd.src.n, rd.split i ≠ split
  · rw [h.frame.positions split hfo] at hp
    rw [h.frame.samples split hfo]
    exact hsnd split p hp
  · push Not at hfo
    obtain ⟨i, hi, rfl⟩ := hfo
    rcases Nat.eq_zero_or_pos (consumed i) with hz | hpos
    · obtain ⟨-, hs, hposn⟩ := h.waiting i hi hz
      rw [hposn] at hp
      rw [hs]
      exact hsnd _ p hp
    · obtain ⟨hs, hposn⟩ := h.yielded i hi hpos
      obtain rfl : pos i = p := by rw [hposn] at hp; exact Option.some.inj hp
      exact ⟨_, h.sample_le i hi, hs⟩

theorem Counters.owned (hreal : rd.realWorker = true) (hi : i < rd.src.n)
    (hinit : rd.initialSamples i = st₀.sampleCount (rd.split i)) :
    st.sampleCount (rd.split i) = st₀.sampleCount (rd.split i) + consumed i ∧
      st.startPos (rd.split i) = pos i := by
  rcases Nat.eq_zero_or_pos (consumed i) with hz | hpos
  · obtain ⟨hpos, hs, hposn⟩ := h.waiting i hi hz
    simp only [RowState.sampleCount, RowState.startPos, hs, hposn, h.offset hreal,
      hz, Nat.add_zero, hpos, and_self]
  · obtain ⟨hs, hposn⟩ := h.yielded i hi hpos
    simp [RowState.sampleCount, RowState.startPos, hs, hposn, hinit]

theorem Counters.foreign (hreal : rd.realWorker = true)
    (hfo : ∀ i < rd.src.n, rd.split i ≠ split) :
    st.sampleCount split = st₀.sampleCount split ∧ st.startPos split = st₀.startPos split := by
  simp only [RowState.sampleCount, RowState.startPos, h.frame.samples split hfo,
    h.frame.positions split hfo, h.offset hreal, and_self]

end Reader

end Streaming

end LanceDB
