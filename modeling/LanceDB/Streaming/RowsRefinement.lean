import LanceDB.Base.RoundRobin
import LanceDB.Streaming.Progress

/-!
# The row-mode generator is a memoryless fair server

The generator keeps a heap, a place in the current cycle and four queues for each split.  None of
it matters for what it yields: seen from the consumer it is the fair server of
`LanceDB.RoundRobin`, whose whole state is how many samples each owned split has yielded and which
rows it still has to deliver, and both are what the checkpoint counters record.

* `SplitTable.Tracks` : the counters of a dataset record a server state.
* `Reader.Sim` : a suspended generator implements a server state.
* `Reader.next_sim` : a call of `next` is a step of the server.
* `Reader.take_sim` : calls of `next` are a run of the server.
-/

namespace LanceDB

open List Function RoundRobin

namespace Streaming

open RoundRobin (State)

variable {α β ε : Type}
variable {rest : List (ℕ × β)} {batch : List α} {p : Pipe α β} {st : RowState} {absPos i pos : ℕ}
  {todo : ℕ → List (ℕ × β)}
variable {items : List (ℕ × β)} {row : β} {split : ℕ}

/-! ### The rows a transform accepts -/

namespace RowTransform

variable (f : RowTransform α β ε)

/-- The rows of a batch that the transform accepts, with their absolute positions. -/
def goods : ℕ → List α → List (ℕ × β)
  | _, [] => []
  | absPos, a :: batch =>
    match f.row a with
    | some row => (absPos, row) :: goods (absPos + 1) batch
    | none => goods (absPos + 1) batch

@[simp] theorem goods_nil (absPos : ℕ) : f.goods absPos [] = [] := rfl

theorem goods_append (absPos : ℕ) (xs ys : List α) :
    f.goods absPos (xs ++ ys) = f.goods absPos xs ++ f.goods (absPos + xs.length) ys := by
  induction xs generalizing absPos with
  | nil => simp
  | cons a xs ih =>
    have hpos : absPos + (xs.length + 1) = absPos + 1 + xs.length := by omega
    cases h : f.row a <;> simp [goods, h, ih, hpos]

theorem length_goods_le (absPos : ℕ) (xs : List α) : (f.goods absPos xs).length ≤ xs.length := by
  induction xs generalizing absPos with
  | nil => simp
  | cons a xs ih =>
    have := ih (absPos + 1)
    cases h : f.row a <;> simp [goods, h] <;> omega

theorem goods_eq_cons {xs : List α} (h : f.goods absPos xs = (pos, row) :: rest) :
    ∃ k < xs.length, pos = absPos + k ∧ rest = f.goods (pos + 1) (xs.drop (k + 1)) := by
  induction xs generalizing absPos with
  | nil => simp at h
  | cons a xs ih =>
    cases ha : f.row a with
    | some b =>
      obtain ⟨⟨rfl, -⟩, rfl⟩ : (absPos = pos ∧ b = row) ∧ f.goods (absPos + 1) xs = rest := by
        simpa [goods, ha] using h
      exact ⟨0, by simp, rfl, rfl⟩
    | none =>
      obtain ⟨k, hk, hpos, hr⟩ := ih (by simpa [goods, ha] using h)
      exact ⟨k + 1, by simpa using hk, by omega, by simpa using hr⟩

theorem goods_of_mapM {rows : List β} (h : batch.mapM f.row = some rows) :
    rows.length = batch.length ∧
      ∀ absPos, (rows.zipIdx absPos).map Prod.swap = f.goods absPos batch := by
  induction batch generalizing rows with
  | nil =>
    obtain rfl : [] = rows := by simpa using h
    exact ⟨rfl, fun _ => rfl⟩
  | cons a batch ih =>
    obtain ⟨b, ha, bs, hb, rfl⟩ : ∃ b, f.row a = some b ∧ ∃ bs, batch.mapM f.row = some bs ∧
        b :: bs = rows := by simpa [mapM_cons, Option.bind_eq_some_iff] using h
    simp [goods, ha, ih hb]

end RowTransform

namespace Source

variable {src : Source α β ε} {f : RowTransform α β ε}

theorem transformIsolated_eq_goods (hrun : src.finalTransform = f.run) {out : List (ℕ × β)}
    (h : src.transformIsolated absPos batch = .ok out) : out = f.goods absPos batch := by
  induction batch generalizing absPos out with
  | nil => simpa [transformIsolated, eq_comm] using h
  | cons a batch ih =>
    rcases src.transformIsolated_cons_ok h with ⟨⟨exc, hexc⟩, h'⟩ | ⟨row, out', hrow, rfl, h'⟩
    · have hn : f.row a = none := by
        refine Option.eq_none_iff_forall_ne_some.2 fun b hb => ?_
        have := (f.run_eq_ok [a] [b]).2 (by simp [hb])
        rw [← hrun, hexc] at this
        cases this
      simpa [RowTransform.goods, hn] using ih h'
    · have hrow' : f.row a = some row := by
        simpa [mapM_cons, Option.bind_eq_some_iff] using (f.run_eq_ok [a] [row]).1 (hrun ▸ hrow)
      rw [RowTransform.goods, hrow', ih h']

/-- A row-by-row transform delivers exactly the rows it accepts. -/
theorem transformBatch_eq_goods (hrun : src.finalTransform = f.run) {absStart : ℕ}
    {out : List (ℕ × β)} (h : src.transformBatch absStart batch = .ok out) :
    out = f.goods absStart batch := by
  rcases src.transform_cases batch h with ⟨-, h⟩ | ⟨rows, hr, -, h⟩ | ⟨e, he, -⟩
  · exact transformIsolated_eq_goods hrun h
  · rw [← (f.goods_of_mapM ((f.run_eq_ok batch rows).1 (hrun ▸ hr))).2]
    exact (Except.ok.inj h).symm
  · cases he

/-- No exception can reach the consumer. -/
def Unfailing (src : Source α β ε) : Prop := ∀ e, ¬ src.Justified e

theorem Unfailing.delivered_eq (hfine : src.Unfailing) (hrun : src.finalTransform = f.run)
    (b : ℕ × List α) : src.delivered b = f.goods b.1 b.2 := by
  rw [delivered]
  split
  · rename_i rows hr
    exact transformBatch_eq_goods hrun hr
  · rename_i e he
    exact absurd (src.transformBatch_justified he) (hfine e)

/-- **Where the batches are cut does not matter**: a split delivers the rows of its permutation
that the transform accepts. -/
theorem Unfailing.accepted_eq (hfine : src.Unfailing) (hrun : src.finalTransform = f.run) (i : ℕ) :
    src.accepted i = f.goods (src.initialPositions i) (src.rows i) := by
  have hfrom : ∀ head, (src.batchesFrom i head).flatMap src.delivered =
      f.goods (src.initialPositions i + head) ((src.rows i).drop head) := by
    intro head
    induction head using src.batchesFrom_induction (i := i) with
    | nil head hle hnil => rw [hnil, drop_eq_nil_of_le hle, flatMap_nil, RowTransform.goods_nil]
    | cons head fetch hle hcons ih =>
      have hlen : (((src.rows i).drop head).take fetch).length = fetch :=
        length_take_of_le (by rw [length_drop]; omega)
      rw [hcons, flatMap_cons, hfine.delivered_eq hrun, ih]
      conv_rhs => rw [← take_append_drop fetch ((src.rows i).drop head)]
      rw [RowTransform.goods_append, hlen, drop_drop, Nat.add_assoc]
  simpa [accepted] using hfrom 0

end Source

/-! ### What the counters record -/

namespace SplitTable

variable (tbl : SplitTable α β ε)

/-- The rows a split still has to deliver behind a position. -/
def accepted (split pos : ℕ) : List (ℕ × β) :=
  tbl.finalTransform.goods pos ((tbl.rows split).drop pos)

variable {tbl}

theorem accepted_eq_cons {start : ℕ} (h : tbl.accepted split start = (pos, row) :: rest) :
    start ≤ pos ∧ pos < (tbl.rows split).length ∧ rest = tbl.accepted split (pos + 1) := by
  obtain ⟨k, hk, rfl, rfl⟩ := tbl.finalTransform.goods_eq_cons h
  simp only [length_drop] at hk
  refine ⟨by omega, by omega, ?_⟩
  rw [accepted, drop_drop, Nat.add_assoc]

/-- **The counters record a server state**: for each owned split its sample count, and a position
behind which lie the rows it still has to deliver. -/
structure Tracks (tbl : SplitTable α β ε) (n : ℕ) (split : ℕ → ℕ) (st : RowState)
    (s : State (ℕ × β)) : Prop where
  count : ∀ i < n, s.count i = st.sampleCount (split i)
  rest : ∀ i < n, s.rest i = tbl.accepted (split i) (st.startPos (split i))
  startPos_le : ∀ i < n, st.startPos (split i) ≤ (tbl.rows (split i)).length

theorem Tracks.congr {n : ℕ} {split : ℕ → ℕ} {st' : RowState} {s : State (ℕ × β)}
    (h : tbl.Tracks n split st s)
    (hcnt : ∀ i < n, st'.sampleCount (split i) = st.sampleCount (split i))
    (hpos : ∀ i < n, st'.startPos (split i) = st.startPos (split i)) :
    tbl.Tracks n split st' s := by
  refine ⟨fun i hi => ?_, fun i hi => ?_, fun i hi => ?_⟩
  · rw [hcnt i hi]; exact h.count i hi
  · rw [hpos i hi]; exact h.rest i hi
  · rw [hpos i hi]; exact h.startPos_le i hi

end SplitTable

theorem RowState.record_sampleCount (st : RowState) (split samples position split' : ℕ) :
    (st.record split samples position).sampleCount split' =
      if split' = split then samples else st.sampleCount split' := by
  by_cases h : split' = split
  · subst h; simp [record, sampleCount]
  · simp [record, sampleCount, h]

theorem RowState.record_startPos (st : RowState) (split samples position split' : ℕ) :
    (st.record split samples position).startPos split' =
      if split' = split then position else st.startPos split' := by
  by_cases h : split' = split
  · subst h; simp [record, startPos]
  · simp [record, startPos, sampleCount, h]

theorem SplitTable.Tracks.serve {tbl : SplitTable α β ε} {n : ℕ} {split : ℕ → ℕ} {s : State (ℕ × β)}
    (h : tbl.Tracks n split st s) (hsplit : Increasing n split) (hi : i < n)
    (hr : s.rest i = (pos, row) :: items) :
    tbl.Tracks n split (st.record (split i) (s.count i + 1) (pos + 1)) (s.serve i items) := by
  have hacc := h.rest i hi
  rw [hr] at hacc
  obtain ⟨-, hlt, hitems⟩ := accepted_eq_cons hacc.symm
  refine ⟨fun j hj => ?_, fun j hj => ?_, fun j hj => ?_⟩
  · rw [RowState.record_sampleCount]
    by_cases hji : j = i
    · subst hji; simp
    · simp [hji, hsplit.ne hj hi hji, h.count j hj]
  · rw [RowState.record_startPos]
    by_cases hji : j = i
    · subst hji; simp [hitems]
    · simp [hji, hsplit.ne hj hi hji, h.rest j hj]
  · rw [RowState.record_startPos]
    by_cases hji : j = i
    · subst hji; simpa using hlt
    · simpa [hsplit.ne hj hi hji] using h.startPos_le j hj

/-! ### Pumps that cannot fail -/

namespace Source

variable {src : Source α β ε}

theorem Unfailing.ok (hfine : src.Unfailing) {γ : Type} {m : PumpM α β ε γ} {P : Pipe α β → Prop}
    {Q : γ → Pipe α β → Prop} (h : src.Pumps P m Q) (hp : P p) :
    ∃ a q, m p = .ok a q ∧ Q a q := by
  obtain ⟨hok, herr⟩ := EStateM.triple_iff.1 h p hp
  cases hm : m p with
  | ok a q => exact ⟨a, q, rfl, hok a q hm⟩
  | error e q => exact absurd (herr e q hm).2 (hfine e)

theorem PipeInv.todo_ne_nil (h : src.PipeInv todo p) (hc : (p.lanes i).cooked ≠ []) :
    todo i ≠ [] := by
  rw [← (h.lanes i).ahead_eq]
  simp [ahead, hc]

theorem fillAllFrom_ok (hfine : src.Unfailing) (k : ℕ) (hik : i + k = src.n)
    (hinv : src.PipeInv todo p) : ∃ q, src.fillAllFrom i k p = .ok () q ∧ src.PipeInv todo q := by
  induction k generalizing i p with
  | zero => exact ⟨p, rfl, hinv⟩
  | succ k ih =>
    obtain ⟨u, q, hq, hpumped, -⟩ := hfine.ok
      (src.fillIo_spec todo (fun _ => False) (src.potential i (p.lanes i)) (by omega))
      ⟨hinv, fun _ _ hf => hf.elim, le_rfl⟩
    obtain ⟨q', hq', hinv'⟩ := ih (i := i + 1) (by omega) hpumped.inv
    exact ⟨q', by simp [Source.fillAllFrom, hq, hq'], hinv'⟩

end Source

/-! ### The generator -/

namespace Reader

variable {rd : Reader α β ε} {tbl : SplitTable α β ε} {it : Iter α β}

/-- The other owned splits of `ready` have a row ready. -/
def OthersReady (i : ℕ) (ready : ℕ → Prop) (p : Pipe α β) : Prop :=
  ∀ j, j ≠ i → ready j → (p.lanes j).cooked ≠ []

theorem ensureCooked_ok (hfine : rd.src.Unfailing) (hi : i < rd.src.n)
    (hinv : rd.src.PipeInv todo it.pipe) (ready : ℕ → Prop) (hrdy : OthersReady i ready it.pipe) :
    ∃ q, liftPump (rd.src.ensureCooked i) it = .ok () { it with pipe := q } ∧
      rd.src.PipeInv todo q ∧ OthersReady i ready q ∧ ((q.lanes i).cooked = [] ↔ todo i = []) := by
  obtain ⟨u, q, hq, hinv', hrdy', hnil⟩ :=
    hfine.ok (rd.src.ensureCooked_spec todo ready hi) ⟨hinv, hrdy⟩
  refine ⟨q, by simp [liftPump, hq], hinv', hrdy', ?_, ?_⟩
  · exact fun h => (hinv'.lanes i).todo_eq_nil (hnil h)
  · intro ht
    by_contra hne
    exact hinv'.todo_ne_nil hne ht

/-- The generator after a row of owned split `i`, before it is suspended again. -/
def served (rd : Reader α β ε) (it : Iter α β) (i pos : ℕ) (q : Pipe α β) : Iter α β :=
  { it with
    pipe := q
    localConsumed := Function.update it.localConsumed i (it.localConsumed i + 1)
    st := it.st.record (rd.split i) (rd.initialSamples i + (it.localConsumed i + 1)) (pos + 1) }

theorem ensureAllFrom_ok (hfine : rd.src.Unfailing) (k : ℕ) (hik : i + k = rd.src.n)
    (hinv : rd.src.PipeInv todo it.pipe) (hrdy : ∀ j < i, (it.pipe.lanes j).cooked ≠ []) :
    ∃ b q, rd.ensureAllFrom i k it = .ok b { it with pipe := q } ∧ rd.src.PipeInv todo q ∧
      (b = true → ∀ j < rd.src.n, (q.lanes j).cooked ≠ []) ∧
      (b = false → ∃ j < rd.src.n, todo j = []) := by
  induction k generalizing i it with
  | zero =>
    refine ⟨true, it.pipe, rfl, hinv, fun _ j hj => hrdy j (by omega), by simp⟩
  | succ k ih =>
    obtain ⟨q, hq, hinv', hrdy', hnil⟩ :=
      ensureCooked_ok hfine (i := i) (by omega) hinv (· < i) fun j _ hj => hrdy j hj
    by_cases hc : (q.lanes i).cooked = []
    · refine ⟨false, q, ?_, hinv', by simp, fun _ => ⟨i, by omega, hnil.1 hc⟩⟩
      simp [ensureAllFrom, hq, hc]
    · have hinv_next : rd.src.PipeInv todo { it with pipe := q }.pipe := hinv'
      obtain ⟨b, q', hq', hinv'', htrue, hfalse⟩ :=
        ih (i := i + 1) (by omega) hinv_next (fun j hj => by
          rcases Nat.lt_succ_iff_lt_or_eq.1 hj with hlt | rfl
          · exact hrdy' j (by omega) hlt
          · exact hc)
      refine ⟨b, q', ?_, hinv'', htrue, hfalse⟩
      simp [ensureAllFrom, hq, hc, hq']

/-! ### The simulation -/

/-- What the place where the generator is suspended says about the server state. -/
def PhaseOk (rd : Reader α β ε) (p : Pipe α β) (s : State (ℕ × β)) : Phase → Prop
  | .finished => step rd.src.n s = none
  | .cycle 0 => 0 < rd.src.n ∧ s.Level rd.src.n
  | .cycle (k + 1) => k + 1 < rd.src.n ∧
    (∀ i < rd.src.n, s.count i = if i ≤ k then s.count (k + 1) + 1 else s.count (k + 1)) ∧
    ∀ i < rd.src.n, k < i → (p.lanes i).cooked ≠ []
  | .catchUp catchUpTo pending => 0 < rd.src.n ∧
    (∀ i < rd.src.n, s.count i ≤ catchUpTo) ∧ (∃ i < rd.src.n, s.count i = catchUpTo) ∧
    pending.Pairwise heapLe ∧ pending.Nodup ∧
    ∀ e, e ∈ pending ↔ ∃ i < rd.src.n, s.count i < catchUpTo ∧ e = (s.count i, rd.split i, i)

/-- The pipeline and the counters of a generator that was opened on the counters `st₀` implement
a server state. -/
structure Core (rd : Reader α β ε) (tbl : SplitTable α β ε) (st₀ : RowState) (it : Iter α β)
    (s : State (ℕ × β)) : Prop where
  pipe : ∃ todo, rd.src.PipeInv todo it.pipe ∧ ∀ i < rd.src.n, todo i = s.rest i
  count : ∀ i < rd.src.n, s.count i = rd.initialSamples i + it.localConsumed i
  tracks : tbl.Tracks rd.src.n rd.split it.st s
  offset_le : ∀ i < rd.src.n, it.st.resumeOffset ≤ s.count i
  frame : rd.Frame st₀ it.st
  offset_worker : rd.realWorker = true → it.st.resumeOffset = st₀.resumeOffset

/-- The offset of a generator outside a worker is the least count of its splits. -/
def OffsetExact (rd : Reader α β ε) (st : RowState) (s : State (ℕ × β)) : Prop :=
  rd.realWorker = false → ∃ i < rd.src.n, st.resumeOffset = s.count i

/-- **A suspended generator implements a server state.** -/
structure Sim (rd : Reader α β ε) (tbl : SplitTable α β ε) (st₀ : RowState) (it : Iter α β)
    (s : State (ℕ × β)) : Prop extends rd.Core tbl st₀ it s where
  phase : rd.PhaseOk it.pipe s it.phase
  offset_exact : (∃ i < rd.src.n, st₀.resumeOffset = rd.initialSamples i) →
    rd.OffsetExact it.st s

variable {s : State (ℕ × β)} {st₀ : RowState}
variable {pending : List (ℕ × ℕ × ℕ)} {q : Pipe α β} {catchUpTo : ℕ}

theorem Core.atPhase (h : rd.Core tbl st₀ it s) (phase : Phase) :
    rd.Core tbl st₀ (it.atPhase phase) s :=
  ⟨h.pipe, h.count, h.tracks, h.offset_le, h.frame, h.offset_worker⟩

theorem Core.withPipe (h : rd.Core tbl st₀ it s)
    (hq : ∃ todo, rd.src.PipeInv todo q ∧ ∀ i < rd.src.n, todo i = s.rest i) :
    rd.Core tbl st₀ { it with pipe := q } s :=
  ⟨hq, h.count, h.tracks, h.offset_le, h.frame, h.offset_worker⟩

theorem Core.served (h : rd.Core tbl st₀ it s) (hsplit : Increasing rd.src.n rd.split)
    (hi : i < rd.src.n) (hr : s.rest i = (pos, row) :: items)
    (hq : ∃ todo, rd.src.PipeInv todo q ∧
    ∀ j < rd.src.n, todo j = (s.serve i items).rest j) :
    rd.Core tbl st₀ (rd.served it i pos q) (s.serve i items) := by
  refine ⟨hq, fun j hj => ?_, ?_, fun j hj => ?_, h.frame.record hi _ _, h.offset_worker⟩
  · by_cases hji : j = i
    · subst hji
      simp [Reader.served, h.count j hj, Nat.add_assoc]
    · simp [Reader.served, hji, h.count j hj]
  · have := h.tracks.serve hsplit hi hr
    rwa [h.count i hi, Nat.add_assoc] at this
  · have := h.offset_le j hj
    by_cases hji : j = i
    · subst hji
      simp only [Reader.served, RowState.record, State.serve_count, update_self]
      omega
    · simpa [Reader.served, RowState.record, hji] using this

section

variable (hfine : rd.src.Unfailing) (hsplit : Increasing rd.src.n rd.split)
include hfine hsplit

theorem Core.yieldRow (h : rd.Core tbl st₀ it s) (hi : i < rd.src.n)
    (hr : s.rest i = (pos, row) :: items) (ready : ℕ → Prop)
    (hrdy : OthersReady i ready it.pipe) (hc : (it.pipe.lanes i).cooked ≠ []) :
    ∃ q, rd.yieldRow i it = .ok (some row) (rd.served it i pos q) ∧
      rd.Core tbl st₀ (rd.served it i pos q) (s.serve i items) ∧ OthersReady i ready q := by
  obtain ⟨todo, hinv, ht⟩ := h.pipe
  obtain ⟨r, q, hq, rfl, hinv', hrdy'⟩ := hfine.ok
    (rd.src.takeRow_spec todo ready hi (pos, row) items ((ht i hi).trans hr))
    ⟨hinv, hc, hrdy⟩
  refine ⟨q, ?_, h.served hsplit hi hr ⟨_, hinv', fun j hj => ?_⟩, hrdy'⟩
  · simp [Reader.yieldRow, liftPump, hq, Reader.served]
  · by_cases hji : j = i
    · subst hji; simp
    · simp [hji, ht j hj]

omit hfine hsplit in
theorem leastProgress_spec (hn : 0 < rd.src.n) (c : ℕ → ℕ) :
    (∀ i < rd.src.n, rd.leastProgress c ≤ rd.initialSamples i + c i) ∧
      ∃ i < rd.src.n, rd.leastProgress c = rd.initialSamples i + c i := by
  set xs := (List.range rd.src.n).map fun j => rd.initialSamples j + c j with hxs
  have hmem : ∀ i < rd.src.n, rd.initialSamples i + c i ∈ xs := fun i hi =>
    mem_map.2 ⟨i, mem_range.2 hi, rfl⟩
  cases hmin : xs.min? with
  | none =>
    rw [min?_eq_none_iff] at hmin
    have := hmem 0 hn
    simp [hmin] at this
  | some a =>
    have ha : rd.leastProgress c = a := by rw [leastProgress, ← hxs, hmin, Option.getD_some]
    obtain ⟨hin, hle⟩ := min?_eq_some_iff.1 hmin
    obtain ⟨i, hi, rfl⟩ := mem_map.1 hin
    exact ⟨fun j hj => ha.trans_le (hle _ (hmem j hj)), i, mem_range.1 hi, ha⟩

omit hfine hsplit in
/-- `_update_progress_stats` does not change what the counters record: a split without an entry
of its own is at the least count. -/
theorem Core.updateProgressStats (h : rd.Core tbl st₀ it s) (hn : 0 < rd.src.n) :
    ∃ st, rd.updateProgressStats it = .ok () { it with st := st } ∧
      rd.Core tbl st₀ { it with st := st } s ∧ rd.OffsetExact st s := by
  cases hreal : rd.realWorker with
  | true =>
    refine ⟨it.st, ?_, h, fun hfalse => ?_⟩
    · simp [Reader.updateProgressStats, hreal]
    · rw [hreal] at hfalse
      cases hfalse
  | false =>
    obtain ⟨hle, i₀, hi₀, heq⟩ := rd.leastProgress_spec hn it.localConsumed
    refine ⟨{ it.st with resumeOffset := rd.leastProgress it.localConsumed }, ?_, ?_,
      fun _ => ⟨i₀, hi₀, heq.trans (h.count i₀ hi₀).symm⟩⟩
    · simp [Reader.updateProgressStats, hreal]
    · have hframe : rd.Frame st₀
          { it.st with resumeOffset := rd.leastProgress it.localConsumed } :=
        ⟨h.frame.samples, h.frame.positions, h.frame.uniform⟩
      have hsample : ∀ i < rd.src.n, RowState.sampleCount
          { it.st with resumeOffset := rd.leastProgress it.localConsumed } (rd.split i) =
            it.st.sampleCount (rd.split i) := by
        intro i hi
        cases hent : it.st.resumeSamples (rd.split i) with
        | some c => simp [RowState.sampleCount, hent]
        | none =>
          have hcnt := h.tracks.count i hi
          have h₀ := h.offset_le i₀ hi₀
          have h₁ := hle i hi
          rw [← h.count i hi] at h₁
          rw [h.count i₀ hi₀, ← heq] at h₀
          simp only [RowState.sampleCount, hent, Option.getD_none] at hcnt ⊢
          omega
      refine ⟨h.pipe, h.count, h.tracks.congr hsample fun i hi => ?_, fun i hi => ?_, hframe,
        fun htrue => by rw [hreal] at htrue; cases htrue⟩
      · simp only [RowState.startPos, hsample i hi]
      · rw [h.count i hi]
        exact hle i hi

theorem Core.cycleRow (h : rd.Core tbl st₀ it s) (hi : i < rd.src.n)
    (hc : ∀ j < rd.src.n, i ≤ j → (it.pipe.lanes j).cooked ≠ [])
    (hcnt : ∀ j < rd.src.n, s.count j = if j < i then s.count i + 1 else s.count i)
    (hex : (∃ i < rd.src.n, st₀.resumeOffset = rd.initialSamples i) → rd.OffsetExact it.st s)
    (hr : s.rest i = (pos, row) :: items) :
    ∃ it', rd.cycleRow i it = .ok (some row) it' ∧ rd.Sim tbl st₀ it' (s.serve i items) := by
  obtain ⟨q, hq, hsvd, hrdy⟩ := h.yieldRow hfine hsplit hi hr
    (fun j => j < rd.src.n ∧ i < j) (fun j _ hj => hc j hj.1 hj.2.le) (hc i hi le_rfl)
  by_cases hl : i + 1 = rd.src.n
  · obtain ⟨st, hst, hcore, hex'⟩ := hsvd.updateProgressStats (by omega)
    refine ⟨Iter.atPhase { rd.served it i pos q with st := st } (.cycle 0), ?_, hcore.atPhase _,
      ⟨by omega, fun j hj => ?_⟩, fun _ => hex'⟩
    · simp [Reader.cycleRow, hq, hl, hst, suspend]
    · have h0 := hcnt 0 (by omega)
      have hj' := hcnt j hj
      simp only [State.serve_count, update_apply]
      split_ifs at h0 hj' ⊢ <;> omega
  · refine ⟨(rd.served it i pos q).atPhase (.cycle (i + 1)), ?_, hsvd.atPhase _,
      ⟨by omega, fun j hj => ?_, fun j hj hij => ?_⟩, fun h₀ hreal => ?_⟩
    · simp [Reader.cycleRow, hq, hl, suspend]
    · have h1 := hcnt (i + 1) (by omega)
      have hj' := hcnt j hj
      simp only [State.serve_count, update_apply]
      split_ifs at h1 hj' ⊢ <;> omega
    · exact hrdy j (by omega) ⟨hj, hij⟩
    · -- the next split of the cycle still has the least count
      obtain ⟨j, hj, hoff⟩ := hex h₀ hreal
      have hle := h.offset_le i hi
      have h1 := hcnt (i + 1) (by omega)
      have hj' := hcnt j hj
      refine ⟨i + 1, by omega, ?_⟩
      show it.st.resumeOffset = (s.serve i items).count (i + 1)
      simp only [State.serve_count, update_apply]
      split_ifs at h1 hj' ⊢ <;> omega

/-- **A call that follows the server**: it ends exactly when the server stops, without touching the
counters, and otherwise yields the row the server hands out. -/
def Follows (rd : Reader α β ε) (tbl : SplitTable α β ε) (st₀ : RowState) (s : State (ℕ × β))
    (it : Iter α β) (result : EStateM.Result (Failure ε) (Iter α β) (Option β)) : Prop :=
  (step rd.src.n s = none ∧
    ∃ it', result = .ok none it' ∧ it'.st = it.st ∧ rd.Sim tbl st₀ it' s) ∨
  ∃ i x s' it', step rd.src.n s = some (i, x, s') ∧ result = .ok (some x.2) it' ∧
    rd.Sim tbl st₀ it' s'

theorem Core.startCycle (h : rd.Core tbl st₀ it s) (hn : 0 < rd.src.n) (hlvl : s.Level rd.src.n)
    (hex : (∃ i < rd.src.n, st₀.resumeOffset = rd.initialSamples i) →
      rd.OffsetExact it.st s) : rd.Follows tbl st₀ s it (rd.startCycle it) := by
  obtain ⟨todo, hinv, ht⟩ := h.pipe
  obtain ⟨b, q, hq, hinv', htrue, hfalse⟩ :=
    ensureAllFrom_ok hfine rd.src.n (Nat.zero_add _) hinv (by simp)
  have hcore : rd.Core tbl st₀ { it with pipe := q } s := h.withPipe ⟨todo, hinv', ht⟩
  cases b with
  | false =>
    left
    obtain ⟨j, hj, hnil⟩ := hfalse rfl
    have hs : step rd.src.n s = none := by
      refine step_eq_none_of_level hlvl fun hf => ?_
      have := hf j hj
      rw [← ht j hj, hnil] at this
      simp at this
    refine ⟨hs, Iter.atPhase { it with pipe := q } .finished, ?_, rfl, hcore.atPhase _, hs,
      hex⟩
    simp [Reader.startCycle, hq, suspend]
  | true =>
    right
    have hne : ∀ j < rd.src.n, s.rest j ≠ [] := fun j hj => by
      rw [← ht j hj]
      exact hinv'.todo_ne_nil (htrue rfl j hj)
    obtain ⟨⟨pos, row⟩, items, hr⟩ := exists_cons_of_ne_nil (hne 0 hn)
    have hs := step_eq_some_of_level hn hlvl
      (fun j hj => by simpa using hne j hj) hr
    obtain ⟨it', hit', hsim⟩ := hcore.cycleRow hfine hsplit hn (fun j hj _ => htrue rfl j hj)
      (fun j hj => by simpa using hlvl j hj) hex hr
    refine ⟨0, (pos, row), _, it', hs, ?_, hsim⟩
    simp [Reader.startCycle, hq, hit']

/-! ### Catching up -/

instance : Std.Total heapLe := ⟨fun a b => by simp only [heapLe]; omega⟩

instance : IsTrans (ℕ × ℕ × ℕ) heapLe := ⟨fun a b c => by simp only [heapLe]; omega⟩

omit hfine in
/-- The head of the heap is the split the server serves next. -/
theorem least_of_catchUp {consumed : ℕ}
    (h : rd.PhaseOk p s (.catchUp catchUpTo ((consumed, split, i) :: pending))) :
    i < rd.src.n ∧ s.count i = consumed ∧ split = rd.split i ∧ consumed < catchUpTo ∧
      (∀ j < rd.src.n, s.count i ≤ s.count j) ∧ (∀ j < i, s.count i < s.count j) ∧
      ¬ s.Level rd.src.n := by
  obtain ⟨-, hle, ⟨i₀, hi₀, htop⟩, hsort, -, hmem⟩ := h
  obtain ⟨i', hi', hlt, heq⟩ := (hmem _).1 mem_cons_self
  simp only [Prod.mk.injEq] at heq
  obtain ⟨rfl, rfl, rfl⟩ := heq
  have hhd : ∀ j < rd.src.n, s.count j < catchUpTo →
      heapLe (s.count i, rd.split i, i) (s.count j, rd.split j, j) := by
    intro j hj hjlt
    rcases mem_cons.1 ((hmem _).2 ⟨j, hj, hjlt, rfl⟩) with heq | hin
    · rw [heq]; simp [heapLe]
    · exact (pairwise_cons.1 hsort).1 _ hin
  refine ⟨hi', rfl, rfl, hlt, fun j hj => ?_, fun j hj => ?_, fun hlvl => ?_⟩
  · by_cases hjlt : s.count j < catchUpTo
    · have := hhd j hj hjlt
      simp only [heapLe] at this
      omega
    · omega
  · by_cases hjlt : s.count j < catchUpTo
    · have hle' := hhd j (hj.trans hi') hjlt
      have := hsplit j i hj hi'
      simp only [heapLe] at hle'
      omega
    · omega
  · have h₀ := hlvl i₀ hi₀
    have h₁ := hlvl i hi'
    omega

omit hfine hsplit in
theorem phaseOk_catchUp_serve
    (h : rd.PhaseOk p s (.catchUp catchUpTo ((s.count i, rd.split i, i) :: pending)))
    (hi : i < rd.src.n) (hlt : s.count i < catchUpTo) (items : List (ℕ × β)) :
    rd.PhaseOk q (s.serve i items) (.catchUp catchUpTo
      (if s.count i + 1 < catchUpTo then
        pending.orderedInsert heapLe (s.count i + 1, rd.split i, i) else pending)) := by
  obtain ⟨hn, hle, ⟨i₀, hi₀, htop⟩, hsort, hnd, hmem⟩ := h
  obtain ⟨hsort', htail⟩ := pairwise_cons.1 hsort
  obtain ⟨hnotin, hnd'⟩ := nodup_cons.1 hnd
  -- the tail of the heap holds the other lagging splits
  have hmem' : ∀ e, e ∈ pending ↔
      ∃ j < rd.src.n, j ≠ i ∧ s.count j < catchUpTo ∧ e = (s.count j, rd.split j, j) := by
    intro e
    constructor
    · intro he
      obtain ⟨j, hj, hjlt, rfl⟩ := (hmem e).1 (mem_cons_of_mem _ he)
      refine ⟨j, hj, fun hji => hnotin ?_, hjlt, rfl⟩
      rwa [hji] at he
    · rintro ⟨j, hj, hji, hjlt, rfl⟩
      rcases mem_cons.1 ((hmem _).2 ⟨j, hj, hjlt, rfl⟩) with heq | hin
      · simp only [Prod.mk.injEq] at heq
        exact absurd heq.2.2 hji
      · exact hin
  have hnew : (s.count i + 1, rd.split i, i) ∉ pending := by
    intro hin
    obtain ⟨j, -, hji, -, heq⟩ := (hmem' _).1 hin
    simp only [Prod.mk.injEq] at heq
    exact hji heq.2.2.symm
  refine ⟨hn, fun j hj => ?_, ⟨i₀, hi₀, ?_⟩, ?_, ?_, fun e => ?_⟩
  · have := hle j hj
    simp only [State.serve_count, update_apply]
    split_ifs <;> omega
  · have hne : i₀ ≠ i := fun heq => by rw [heq] at htop; omega
    simpa [hne] using htop
  · split_ifs
    · exact htail.orderedInsert _ _
    · exact htail
  · split_ifs
    · exact (perm_orderedInsert heapLe _ _).nodup_iff.2 (nodup_cons.2 ⟨hnew, hnd'⟩)
    · exact hnd'
  · have hserve : (∃ j < rd.src.n, (s.serve i items).count j < catchUpTo ∧
        e = ((s.serve i items).count j, rd.split j, j)) ↔
        (s.count i + 1 < catchUpTo ∧ e = (s.count i + 1, rd.split i, i)) ∨ e ∈ pending := by
      rw [hmem']
      constructor
      · rintro ⟨j, hj, hjlt, rfl⟩
        by_cases hji : j = i
        · subst hji
          left
          simpa using hjlt
        · right
          exact ⟨j, hj, hji, by simpa [hji] using hjlt, by simp [hji]⟩
      · rintro (⟨hlt', rfl⟩ | ⟨j, hj, hji, hjlt, rfl⟩)
        · exact ⟨i, hi, by simpa using hlt', by simp⟩
        · exact ⟨j, hj, by simpa [hji] using hjlt, by simp [hji]⟩
    rw [hserve]
    split_ifs with hagain
    · simp [mem_orderedInsert, hagain]
    · simp [hagain]

theorem Sim.catchUp (h : rd.Sim tbl st₀ it s) {consumed : ℕ}
    (hph : it.phase = .catchUp catchUpTo ((consumed, split, i) :: pending)) :
    rd.Follows tbl st₀ s it (rd.resume it) := by
  have hok := h.phase
  rw [hph] at hok
  obtain ⟨hi, rfl, rfl, hlt, hle, hfst, hlvl⟩ := least_of_catchUp hsplit hok
  obtain ⟨todo, hinv, ht⟩ := h.pipe
  obtain ⟨q, hq, hinv', -, hnil⟩ :=
    ensureCooked_ok hfine hi hinv (fun _ => False) fun _ _ hf => hf.elim
  have hcore : rd.Core tbl st₀ { it with pipe := q } s := h.toCore.withPipe ⟨todo, hinv', ht⟩
  cases hr : s.rest i with
  | nil =>
    left
    have hc : (q.lanes i).cooked = [] := hnil.2 ((ht i hi).trans hr)
    have hs := step_eq_none_of_behind hi hle hfst hr
    refine ⟨hs, Iter.atPhase { it with pipe := q } .finished, ?_, rfl, hcore.atPhase _, hs,
      h.offset_exact⟩
    simp [Reader.resume, Reader.catchUpRow, hph, hq, hc, suspend]
  | cons x items =>
    right
    obtain ⟨pos, row⟩ := x
    have hne : (q.lanes i).cooked ≠ [] := fun hc => by
      have := (ht i hi).symm.trans (hnil.1 hc)
      simp [hr] at this
    have hs := step_eq_some_of_behind hi hle hfst hlvl hr
    obtain ⟨q', hq', hsvd, -⟩ := hcore.yieldRow hfine hsplit hi hr (fun _ => False)
      (fun _ _ hf => hf.elim) hne
    set pending' := if s.count i + 1 < catchUpTo then
      pending.orderedInsert heapLe (s.count i + 1, rd.split i, i) else pending with hpend'
    obtain ⟨st, hst, hfinal, hex⟩ :=
      (hsvd.atPhase (.catchUp catchUpTo pending')).updateProgressStats (Nat.zero_lt_of_lt hi)
    refine ⟨i, (pos, row), _, _, hs, ?_, hfinal, phaseOk_catchUp_serve hok hi hlt items,
      fun _ => hex⟩
    simp only [hph] at hq hq' hst ⊢
    by_cases hagain : s.count i + 1 < catchUpTo
    · rw [hpend', if_pos hagain] at hst ⊢
      simp [Reader.resume, Reader.catchUpRow, hph, hq, hne, hq', hagain, hst, suspend]
    · rw [hpend', if_neg hagain] at hst ⊢
      simp [Reader.resume, Reader.catchUpRow, hph, hq, hne, hq', hagain, hst, suspend]

/-- **A call of `next` is a step of the server.** -/
theorem next_sim (h : rd.Sim tbl st₀ it s) : rd.Follows tbl st₀ s it (rd.next it) := by
  have hresume : rd.Follows tbl st₀ s it (rd.resume it) := by
    have hph := h.phase
    cases hp : it.phase with
    | finished =>
      rw [hp] at hph
      exact Or.inl ⟨hph, it, by simp [Reader.resume, hp], rfl, h⟩
    | cycle k =>
      rw [hp] at hph
      cases k with
      | zero =>
        have hrun : rd.resume it = rd.startCycle it := by simp [Reader.resume, hp]
        rw [hrun]
        exact h.toCore.startCycle hfine hsplit hph.1 hph.2 h.offset_exact
      | succ k =>
        have hrun : rd.resume it = rd.cycleRow (k + 1) it := by simp [Reader.resume, hp]
        obtain ⟨hk, hcnt, hc⟩ := hph
        obtain ⟨todo, hinv, ht⟩ := h.pipe
        have hne : s.rest (k + 1) ≠ [] := by
          rw [← ht _ hk]
          exact hinv.todo_ne_nil (hc _ hk (Nat.lt_succ_self k))
        obtain ⟨⟨pos, row⟩, items, hr⟩ := exists_cons_of_ne_nil hne
        have hcnt' : ∀ j < rd.src.n,
            s.count j = if j < k + 1 then s.count (k + 1) + 1 else s.count (k + 1) := by
          intro j hj
          simpa [Nat.lt_succ_iff] using hcnt j hj
        obtain ⟨it', hit', hsim⟩ := h.toCore.cycleRow hfine hsplit hk
          (fun j hj hkj => hc j hj (by omega)) hcnt' h.offset_exact hr
        refine Or.inr ⟨k + 1, (pos, row), _, it', ?_, hrun.trans hit', hsim⟩
        refine step_eq_some_of_behind hk (fun j hj => ?_) (fun j hj => ?_)
          (fun hlvl => ?_) hr
        · have := hcnt' j hj
          split_ifs at this <;> omega
        · rw [hcnt' j (by omega), if_pos hj]
          omega
        · have h0 := hcnt' 0 (by omega)
          have h1 := hlvl (k + 1) hk
          simp only [Nat.zero_lt_succ, if_true] at h0
          omega
    | catchUp catchUpTo pending =>
      cases pending with
      | nil =>
        rw [hp] at hph
        obtain ⟨hn, hle, -, -, -, hmem⟩ := hph
        -- nobody lags behind any more
        have htop : ∀ i < rd.src.n, s.count i = catchUpTo := fun i hi => by
          by_contra hne
          have := (hmem _).2 ⟨i, hi, lt_of_le_of_ne (hle i hi) hne, rfl⟩
          simp at this
        have hlvl : s.Level rd.src.n := fun i hi => (htop i hi).trans (htop 0 hn).symm
        have hrun : rd.resume it = rd.startCycle it := by simp [Reader.resume, hp]
        rw [hrun]
        exact h.toCore.startCycle hfine hsplit hn hlvl h.offset_exact
      | cons e pending =>
        obtain ⟨consumed, split, i⟩ := e
        exact h.catchUp hfine hsplit hp
  rcases hresume with ⟨hno, it', hit', hst, hsim⟩ | ⟨i, x, s', it', hs, hit', hsim⟩
  · exact Or.inl ⟨hno, it', by simp [Reader.next, hit'], hst, hsim⟩
  · exact Or.inr ⟨i, x, s', it', hs, by simp [Reader.next, hit'], hsim⟩

/-- **Calls of `next` are a run of the server.** -/
theorem take_sim (k : ℕ) {s : State (ℕ × β)} (h : rd.Sim tbl st₀ it s) :
    ∃ it', rd.take k it = .ok ((run rd.src.n k s).1.map (·.2.2),
        decide ((run rd.src.n k s).1.length < k)) it' ∧
      rd.Sim tbl st₀ it' (run rd.src.n k s).2 := by
  induction k generalizing it s with
  | zero => exact ⟨it, by simp [Reader.take], h⟩
  | succ k ih =>
    rcases next_sim hfine hsplit h with
      ⟨hn, it', hit', -, hsim⟩ | ⟨i, x, s', it', hs, hit', hsim⟩
    · rw [run_succ_none _ hn]
      exact ⟨it', by simp [Reader.take, hit'], hsim⟩
    · obtain ⟨it'', hit'', hsim'⟩ := ih hsim
      rw [run_succ_some _ hs]
      exact ⟨it'', by simp [Reader.take, hit', hit''], hsim'⟩

/-! ### Opening a generator -/

end

/-- Before its first row the generator serves the lagging splits, if there are any. -/
theorem phaseOk_firstPhase (p : Pipe α β)
    (hcnt : ∀ i < rd.src.n, s.count i = rd.initialSamples i) :
    rd.PhaseOk p s rd.firstPhase := by
  set xs := (List.range rd.src.n).map rd.initialSamples with hxs
  have hmem : ∀ i < rd.src.n, rd.initialSamples i ∈ xs := fun i hi =>
    mem_map.2 ⟨i, mem_range.2 hi, rfl⟩
  rw [firstPhase, ← hxs]
  split_ifs with hn hlvl
  · simp [PhaseOk, step, hn]
  · have hn' : 0 < rd.src.n := Nat.pos_of_ne_zero hn
    refine ⟨hn', fun i hi => ?_⟩
    rw [hcnt i hi, hcnt 0 hn', hlvl i hi, hlvl 0 hn']
  · have hn' : 0 < rd.src.n := Nat.pos_of_ne_zero hn
    cases hmax : xs.max? with
    | none =>
      rw [max?_eq_none_iff] at hmax
      have := hmem 0 hn'
      simp [hmax] at this
    | some top =>
      obtain ⟨hin, hle⟩ := max?_eq_some_iff.1 hmax
      obtain ⟨i₀, hi₀, htop⟩ := mem_map.1 hin
      simp only [Option.getD_some]
      refine ⟨hn', fun i hi => ?_, ⟨i₀, mem_range.1 hi₀, ?_⟩,
        pairwise_insertionSort _ _, ?_, fun e => ?_⟩
      · rw [hcnt i hi]
        exact hle _ (hmem i hi)
      · rw [hcnt i₀ (mem_range.1 hi₀), htop]
      · refine (perm_insertionSort heapLe _).nodup_iff.2 ((nodup_range.filter _).map ?_)
        intro i j hij
        simp only [Prod.mk.injEq] at hij
        exact hij.2.2
      · rw [mem_insertionSort, mem_map]
        constructor
        · rintro ⟨i, hi, rfl⟩
          simp only [mem_filter, mem_range, decide_eq_true_eq] at hi
          exact ⟨i, hi.1, by rw [hcnt i hi.1]; exact hi.2, by rw [hcnt i hi.1]⟩
        · rintro ⟨i, hi, hlt, rfl⟩
          rw [hcnt i hi] at hlt ⊢
          exact ⟨i, by simp [hi, hlt], rfl⟩

end Reader

/-- Neither a read nor the transform can end an iteration: no read fails, and the exceptions of
the transform are skipped. -/
structure SplitTable.Unfailing (tbl : SplitTable α β ε) : Prop where
  read : ∀ split absStart, tbl.readError split absStart = none
  transform : ∀ batch exc, tbl.finalTransform.run batch = .error exc →
    tbl.onTransformError.shouldSkip exc = true

theorem SplitTable.Unfailing.source {tbl : SplitTable α β ε} (h : tbl.Unfailing)
    {src : Source α β ε} (htr : src.finalTransform = tbl.finalTransform.run)
    (hpolicy : src.onTransformError = tbl.onTransformError)
    (hr : ∀ i absStart, src.readError i absStart = none) : src.Unfailing := by
  intro e he
  cases e with
  | io exc =>
    obtain ⟨i, absStart, hexc⟩ := he
    simp [hr] at hexc
  | transform exc =>
    obtain ⟨hskip, batch, hbat⟩ := he
    rw [htr] at hbat
    rw [hpolicy, h.transform batch exc hbat] at hskip
    cases hskip
  | rowCount rows numRows =>
    obtain ⟨hne, batch, out, hout, rfl, rfl⟩ := he
    rw [htr, tbl.finalTransform.run_eq_ok] at hout
    exact hne (tbl.finalTransform.goods_of_mapM hout).1

/-- The splits without an entry of their own are at the least count. -/
def RowState.OffsetLeast (st : RowState) : Prop :=
  ∀ split, st.resumeOffset ≤ st.sampleCount split

/-- A generator that has just been made implements the server state its counters record. -/
theorem Reader.start_sim {tbl : SplitTable α β ε} (hfine : tbl.Unfailing) {mySplits : List ℕ}
    (realWorker : Bool) (schedule : ℕ → List Completion) (hlst : st.OffsetLeast)
    {s : State (ℕ × β)} (htrk : tbl.Tracks mySplits.length (mySplits.getD · 0) st s) :
    let rd := Reader.make tbl mySplits realWorker schedule st
    rd.src.Unfailing ∧ rd.Sim tbl st (rd.start st) s := by
  intro rd
  have hunf : rd.src.Unfailing := hfine.source rfl rfl fun i absStart => hfine.read _ _
  obtain ⟨q, hq, hinv⟩ :=
    Source.fillAllFrom_ok hunf rd.src.n (Nat.zero_add _) rd.src.pipeInv_init
  have hpipe : (rd.start st).pipe = q := by simp [Reader.start, hq]
  refine ⟨hunf, ⟨⟨_, hpipe ▸ hinv, fun i hi => ?_⟩, htrk.count, htrk, fun i hi => ?_,
    ⟨fun _ _ => rfl, fun _ _ => rfl, rfl⟩, fun _ => rfl⟩, ?_, ?_⟩
  · rw [hunf.accepted_eq (f := tbl.finalTransform) rfl]
    exact (htrk.rest i hi).symm
  · rw [htrk.count i hi]
    exact hlst _
  · exact Reader.phaseOk_firstPhase _ htrk.count
  · rintro ⟨i, hi, hoff⟩ -
    exact ⟨i, hi, hoff.trans (htrk.count i hi).symm⟩

/-- **Opening a generator** on counters that record a server state succeeds. -/
theorem Reader.open_eq {tbl : SplitTable α β ε} {cfg : Config} {worker : Option WorkerInfo}
    {mySplits : List ℕ} (hasg : cfg.resolveMySplits worker = .ok mySplits) (realWorker : Bool)
    (schedule : ℕ → List Completion) {s : State (ℕ × β)}
    (htrk : tbl.Tracks mySplits.length (mySplits.getD · 0) st s) :
    Reader.open tbl cfg worker realWorker schedule st =
      .ok (Reader.make tbl mySplits realWorker schedule st,
        (Reader.make tbl mySplits realWorker schedule st).start st) := by
  have hskip :
      mySplits.find? (fun split => (tbl.rows split).length < st.startPos split) = none := by
    rw [find?_eq_none]
    intro split hsplit
    obtain ⟨i, hi, rfl⟩ := mem_iff_getElem.1 hsplit
    have := htrk.startPos_le i hi
    rw [getD_eq_getElem _ _ hi] at this
    simpa using this
  simp only [Reader.open, hasg, hskip]

end Streaming

end LanceDB
