import LanceDB.Base.Lists
import LanceDB.Base.EState
import LanceDB.Streaming.Pipeline

/-!
# The pipeline invariant

The queues of a split hold its rows in order: what is ready to yield, what the transforms in
flight will return, what has landed, what the reads in flight will fetch and what has not been
requested.  Each pump moves rows from one queue to the next, so what a split still has to deliver
does not depend on when the futures complete.

* `Source.accepted` : the rows a split delivers, defined without any queue.
* `Source.ahead`, `Source.LaneInv` : the rows the queues of a split have ahead of them, and the
  invariant of the queues with both bounds.
* `Source.PipeInv`, `Source.Pumped` : the invariant of the pipeline, between two pumps and inside
  one; every pump has a triple about it.
* `Source.calls_schedule_independent` — any calls of the pumps, under any schedule.
-/

open Std.Do EStateM Except

set_option mvcgen.warning false

namespace LanceDB

open List Function

namespace Streaming

variable {α β ε : Type}

/-- What a read asks for, without the state of its future. -/
def IoTask.request (t : IoTask) : ℕ × ℕ × ℕ := (t.absStart, t.start, t.fetch)

/-- What a transform works on, without the state of its future. -/
def TxTask.work (t : TxTask α) : ℕ × List α := (t.absStart, t.batch)

/-- The transforms of a lane that hold a slot of the semaphore. -/
def Lane.running (lane : Lane α β) : ℕ := lane.txPending.countP fun t => t.phase = .running

/-- What a lane holds: the fetch head, the reads, the raw batches, the transforms and the rows. -/
abbrev LaneView (α β : Type) :=
  ℕ × List (ℕ × ℕ × ℕ) × List (ℕ × List α) × List (ℕ × List α) × List (ℕ × β)

/-- The queues of a lane without the state of their futures. -/
def Lane.view (lane : Lane α β) : LaneView α β :=
  (lane.fetchHead, lane.ioPending.map IoTask.request, lane.rawBatches,
    lane.txPending.map TxTask.work, lane.cooked)

@[simp] theorem Lane.view_finishIo (lane : Lane α β) (j : ℕ) :
    (lane.finishIo j).view = lane.view := by
  have := map_modify_of_eq (f := fun t : IoTask => { t with done := true })
    (g := IoTask.request) (fun _ => rfl) lane.ioPending j
  simp only [Lane.view, Lane.finishIo, this]

@[simp] theorem Lane.view_stepTx (lane : Lane α β) (j : ℕ) :
    (lane.stepTx j).view = lane.view := by
  have := map_modify_of_eq (f := fun t : TxTask α => { t with phase := t.phase.next })
    (g := TxTask.work) (fun _ => rfl) lane.txPending j
  simp only [Lane.view, Lane.stepTx, this]

theorem Lane.view_eq {lane lane' : Lane α β} (h : lane'.view = lane.view) :
    lane'.fetchHead = lane.fetchHead ∧ lane'.ioPending.length = lane.ioPending.length ∧
      lane'.rawBatches = lane.rawBatches ∧ lane'.txPending.length = lane.txPending.length ∧
      lane'.cooked = lane.cooked := by
  simp only [Lane.view, Prod.mk.injEq] at h
  obtain ⟨hhd, hio, hraw, htx, hc⟩ := h
  refine ⟨hhd, ?_, hraw, ?_, hc⟩
  · simpa using congrArg List.length hio
  · simpa using congrArg List.length htx

/-- Progress of a future is invisible in the queues. -/
@[simp] theorem Pipe.view_complete (p : Pipe α β) (c : Completion) (j : ℕ) :
    ((p.complete c).lanes j).view = (p.lanes j).view := by
  cases c with
  | io i k =>
    by_cases hj : j = i
    · subst hj; simp [Pipe.complete]
    · simp [Pipe.complete, hj]
  | tx i k =>
    rw [Pipe.complete]
    split
    · rfl
    · by_cases hj : j = i
      · subst hj; simp
      · simp [hj]

theorem Pipe.view_foldl_complete (p : Pipe α β) (cs : List Completion) (j : ℕ) :
    ((cs.foldl Pipe.complete p).lanes j).view = (p.lanes j).view := by
  induction cs generalizing p with
  | nil => rfl
  | cons c cs ih => rw [foldl_cons, ih, p.view_complete]

/-! ### The two outcomes of a transform -/

namespace Source

variable (src : Source α β ε)
variable {e : Failure ε} {out : List (ℕ × β)} {batch : List α} {absPos absStart : ℕ}

/-- The exceptions that may reach the consumer: a failed read, an exception of the transform that
the policy does not skip, or a transform that does not return one row for each row. -/
def Justified : Failure ε → Prop
  | .io exc => ∃ i absStart, src.readError i absStart = some exc
  | .transform exc =>
    src.onTransformError.shouldSkip exc = false ∧ ∃ batch, src.finalTransform batch = .error exc
  | .rowCount rows numRows => rows ≠ numRows ∧
    ∃ batch out, src.finalTransform batch = .ok out ∧ batch.length = numRows ∧ out.length = rows

theorem transform_cases (batch : List α) {γ : Type}
    {isolated result : Except (Failure ε) γ} {returned : List β → Except (Failure ε) γ}
    (h : (match src.finalTransform batch with
      | .error exc =>
        if src.onTransformError.shouldSkip exc then isolated else .error (.transform exc)
      | .ok rows => do
        checkRowCount rows batch.length
        returned rows) = result) :
    ((∃ exc, src.finalTransform batch = .error exc) ∧ isolated = result) ∨
    (∃ rows, src.finalTransform batch = .ok rows ∧ rows.length = batch.length ∧
      returned rows = result) ∨
    ∃ e, result = .error e ∧ src.Justified e := by
  cases hr : src.finalTransform batch with
  | error exc =>
    cases hs : src.onTransformError.shouldSkip exc with
    | false =>
      exact .inr (.inr ⟨.transform exc, by simpa [hr, hs] using h.symm, hs, batch, hr⟩)
    | true => exact .inl ⟨⟨exc, rfl⟩, by simpa [hr, hs] using h⟩
  | ok rows =>
    rw [hr] at h
    by_cases hlen : rows.length = batch.length
    · refine .inr (.inl ⟨rows, rfl, hlen, ?_⟩)
      simpa [checkRowCount, hlen, bind, Except.bind] using h
    · refine .inr (.inr ⟨.rowCount _ _, ?_, hlen, batch, rows, hr, rfl, rfl⟩)
      simpa [checkRowCount, hlen, bind, Except.bind] using h.symm

theorem transformIsolated_cons_ok {a : α}
    (h : src.transformIsolated absPos (a :: batch) = .ok out) :
    ((∃ exc, src.finalTransform [a] = .error exc) ∧
      src.transformIsolated (absPos + 1) batch = .ok out) ∨
    ∃ row out', src.finalTransform [a] = .ok [row] ∧ out = (absPos, row) :: out' ∧
      src.transformIsolated (absPos + 1) batch = .ok out' := by
  rcases src.transform_cases [a] h with h | ⟨rows, hr, hlen, h⟩ | ⟨e, he, -⟩
  · exact .inl h
  · obtain ⟨row, rfl⟩ := length_eq_one_iff.1 hlen
    obtain ⟨out', hout', h⟩ := bind_eq_ok.1 h
    exact .inr ⟨row, out', hr, (ok.inj h).symm, hout'⟩
  · cases he

theorem transformIsolated_positions (h : src.transformIsolated absPos batch = .ok out) :
    (out.map Prod.fst).Sublist (List.range' absPos batch.length) := by
  induction batch generalizing absPos out with
  | nil =>
    obtain rfl : [] = out := by simpa [transformIsolated] using h
    simp
  | cons a batch ih =>
    rw [length_cons, range'_succ]
    rcases src.transformIsolated_cons_ok h with ⟨-, h'⟩ | ⟨row, out', -, rfl, h'⟩
    · exact (ih h').cons _
    · exact (ih h').cons_cons _

/-- **A transform that succeeds delivers rows at increasing positions of its batch**, whether or
not it had to be re-run row by row. -/
theorem transformBatch_positions (h : src.transformBatch absStart batch = .ok out) :
    (out.map Prod.fst).Sublist (List.range' absStart batch.length) := by
  rcases src.transform_cases batch h with ⟨-, h⟩ | ⟨rows, -, hlen, h⟩ | ⟨e, he, -⟩
  · exact src.transformIsolated_positions h
  · obtain rfl := ok.inj h
    have hfst : ((rows.zipIdx absStart).map Prod.swap).map Prod.fst =
        List.range' absStart batch.length := by
      rw [map_map, ← hlen, ← zipIdx_map_snd]
      rfl
    rw [hfst]
  · cases he

theorem ioCall_justified {i : ℕ} {t : IoTask} (h : src.ioCall i t = .error e) :
    src.Justified e := by
  rw [ioCall] at h
  split at h
  · rename_i exc hexc
    cases h
    exact ⟨i, t.absStart, hexc⟩
  · cases h

theorem transformIsolated_justified (h : src.transformIsolated absPos batch = .error e) :
    src.Justified e := by
  induction batch generalizing absPos with
  | nil => cases h
  | cons a batch ih =>
    rcases src.transform_cases [a] h with ⟨-, h⟩ | ⟨rows, -, -, h⟩ | ⟨e', he, hjust⟩
    · exact ih h
    · cases ho : src.transformIsolated (absPos + 1) batch with
      | error e' =>
        obtain rfl : e' = e := by simpa [ho, bind, Except.bind] using h
        exact ih ho
      | ok out => simp [ho, bind, Except.bind, pure, Except.pure] at h
    · obtain rfl := error.inj he
      exact hjust

theorem transformBatch_justified (h : src.transformBatch absStart batch = .error e) :
    src.Justified e := by
  rcases src.transform_cases batch h with ⟨-, h⟩ | ⟨rows, -, -, h⟩ | ⟨e', he, hjust⟩
  · exact src.transformIsolated_justified h
  · cases h
  · obtain rfl := error.inj he
    exact hjust

/-! ### The rows of a split -/

/-- The rows a batch contributes; a batch whose transform raises ends the iteration. -/
def delivered (b : ℕ × List α) : List (ℕ × β) :=
  match src.transformBatch b.1 b.2 with
  | .ok rows => rows
  | .error _ => []

theorem delivered_positions (b : ℕ × List α) :
    ((src.delivered b).map Prod.fst).Sublist (List.range' b.1 b.2.length) := by
  rw [delivered]
  split
  · rename_i rows hr
    exact src.transformBatch_positions hr
  · simp

/-- The reads that have not been requested when `head` rows have been: the rows behind the head,
cut into batches of `read_batch_size` rows. -/
def batchesFrom (i head : ℕ) : List (ℕ × List α) :=
  let size := src.limits.readBatchSize
  (List.range (((src.rows i).length - head + (size - 1)) / size)).map fun k =>
    (src.initialPositions i + (head + k * size), ((src.rows i).drop (head + k * size)).take size)

theorem batchesFrom_eq_nil {i head : ℕ} (h : (src.rows i).length ≤ head) :
    src.batchesFrom i head = [] := by
  have hpos := src.limits.readBatchSize_pos
  have hz : ((src.rows i).length - head + (src.limits.readBatchSize - 1)) /
      src.limits.readBatchSize = 0 := Nat.div_eq_of_lt (by omega)
  simp [batchesFrom, hz]

theorem batchesFrom_eq_cons {i head fetch : ℕ} (h : head < (src.rows i).length)
    (hfet : fetch = min src.limits.readBatchSize ((src.rows i).length - head)) :
    src.batchesFrom i head =
      (src.initialPositions i + head, ((src.rows i).drop head).take fetch) ::
        src.batchesFrom i (head + fetch) := by
  have hpos := src.limits.readBatchSize_pos
  rcases Nat.le_total src.limits.readBatchSize ((src.rows i).length - head) with hle | hle
  · obtain rfl : fetch = src.limits.readBatchSize := by omega
    have hcnt : ((src.rows i).length - head + (src.limits.readBatchSize - 1)) /
        src.limits.readBatchSize =
          ((src.rows i).length - (head + src.limits.readBatchSize) +
            (src.limits.readBatchSize - 1)) / src.limits.readBatchSize + 1 := by
      rw [← Nat.add_div_right _ hpos]
      congr 1
      omega
    simp only [batchesFrom, hcnt, range_succ_eq_map, map_cons, map_map]
    refine cons_eq_cons.2 ⟨by simp, map_congr_left fun k _ => ?_⟩
    have hsf : head + (k + 1) * src.limits.readBatchSize =
        head + src.limits.readBatchSize + k * src.limits.readBatchSize := by ring
    simp only [Function.comp, hsf]
  · obtain rfl : fetch = (src.rows i).length - head := by omega
    have hcnt : ((src.rows i).length - head + (src.limits.readBatchSize - 1)) /
        src.limits.readBatchSize = 1 := by
      rw [Nat.div_eq_iff hpos]
      omega
    rw [src.batchesFrom_eq_nil (i := i) (show _ ≤ head + ((src.rows i).length - head) by omega)]
    simp only [batchesFrom, hcnt, range_one, map_singleton, Nat.zero_mul,
      Nat.add_zero]
    rw [take_of_length_le (by simpa using hle), take_of_length_le (by simp)]

/-- Read by read, from behind. -/
theorem batchesFrom_induction {i : ℕ} {P : ℕ → Prop}
    (nil : ∀ head, (src.rows i).length ≤ head → src.batchesFrom i head = [] → P head)
    (cons : ∀ head fetch, head + fetch ≤ (src.rows i).length →
      src.batchesFrom i head = (src.initialPositions i + head,
        ((src.rows i).drop head).take fetch) :: src.batchesFrom i (head + fetch) →
      P (head + fetch) → P head) (head : ℕ) : P head := by
  induction hk : (src.rows i).length - head using Nat.strongRecOn generalizing head with
  | ind k ih =>
    by_cases hlt : head < (src.rows i).length
    · have hpos := src.limits.readBatchSize_pos
      exact cons head _ (by omega) (src.batchesFrom_eq_cons hlt rfl) (ih _ (by omega) _ rfl)
    · exact nil head (by omega) (src.batchesFrom_eq_nil (by omega))

/-- The rows split `i` delivers: what the transform makes of its batches, in permutation order. -/
def accepted (i : ℕ) : List (ℕ × β) := (src.batchesFrom i 0).flatMap src.delivered

theorem accepted_positions (i : ℕ) : ((src.accepted i).map Prod.fst).Sublist
    (List.range' (src.initialPositions i) (src.rows i).length) := by
  have hfrom : ∀ head, (((src.batchesFrom i head).flatMap src.delivered).map Prod.fst).Sublist
      (List.range' (src.initialPositions i + head) ((src.rows i).length - head)) := by
    intro head
    induction head using src.batchesFrom_induction (i := i) with
    | nil head _ hnil => simp [hnil]
    | cons head fetch hle hcons htail =>
      have hhd := src.delivered_positions
        (src.initialPositions i + head, ((src.rows i).drop head).take fetch)
      rw [length_take_of_le (by rw [length_drop]; omega)] at hhd
      obtain ⟨k, hk⟩ := Nat.exists_eq_add_of_le hle
      rw [hk, Nat.add_sub_cancel_left] at htail
      rw [hcons, flatMap_cons, map_append, hk, Nat.add_assoc, Nat.add_sub_cancel_left,
        ← range'_append_1, Nat.add_assoc]
      exact hhd.append htail
  simpa [accepted] using hfrom 0

/-! ### The invariant of a lane -/

/-- The batch a read asks for. -/
def readBatch (i : ℕ) (t : ℕ × ℕ × ℕ) : ℕ × List α :=
  (t.1, ((src.rows i).drop t.2.1).take t.2.2)

/-- The rows split `i` still has to deliver: those in its queues, front to back, and those not
requested yet. -/
def ahead (i : ℕ) (lane : Lane α β) : List (ℕ × β) :=
  lane.cooked
    ++ (lane.txPending.map TxTask.work).flatMap src.delivered
    ++ lane.rawBatches.flatMap src.delivered
    ++ (lane.ioPending.map IoTask.request).flatMap (fun t => src.delivered (src.readBatch i t))
    ++ (src.batchesFrom i lane.fetchHead).flatMap src.delivered

/-- The two queue bounds. -/
structure Bounded (lane : Lane α β) : Prop where
  io : lane.ioPending.length + lane.rawBatches.length ≤ src.limits.ioQueueDepth
  cooked : ∀ d ∈ src.limits.transformQueueDepth,
    lane.cooked.length + lane.txPending.length * src.limits.readBatchSize ≤
      d * src.limits.readBatchSize

/-- The invariant of the queues of split `i`, which has the rows `todo` left to deliver. -/
structure LaneInv (i : ℕ) (todo : List (ℕ × β)) (lane : Lane α β) : Prop where
  ahead_eq : src.ahead i lane = todo
  bounded : src.Bounded lane
  fetchHead_le : lane.fetchHead ≤ (src.rows i).length
  io_le : ∀ t ∈ lane.ioPending.map IoTask.request, t.2.2 ≤ src.limits.readBatchSize
  raw_le : ∀ b ∈ lane.rawBatches, b.2.length ≤ src.limits.readBatchSize
  tx_le : ∀ b ∈ lane.txPending.map TxTask.work, b.2.length ≤ src.limits.readBatchSize

variable {src} {i : ℕ} {todo : List (ℕ × β)} {lane lane' : Lane α β}
variable {t : TxTask α}

theorem Bounded.congr (h : src.Bounded lane)
    (hio : lane'.ioPending.length + lane'.rawBatches.length ≤
      lane.ioPending.length + lane.rawBatches.length)
    (hc : lane'.cooked.length + lane'.txPending.length * src.limits.readBatchSize ≤
      lane.cooked.length + lane.txPending.length * src.limits.readBatchSize) :
    src.Bounded lane' :=
  ⟨hio.trans h.io, fun d hd => hc.trans (h.cooked d hd)⟩

theorem Bounded.popIo (h : src.Bounded lane) {t : IoTask} {rest : List IoTask}
    (hio : lane.ioPending = t :: rest) : src.Bounded { lane with ioPending := rest } :=
  h.congr (by simp [hio]) le_rfl

theorem Bounded.popTx (h : src.Bounded lane) {rest : List (TxTask α)}
    (htx : lane.txPending = t :: rest) : src.Bounded { lane with txPending := rest } := by
  refine h.congr le_rfl ?_
  simp only [htx, length_cons, Nat.add_mul]
  omega

/-- The state of the futures plays no part in the invariant. -/
theorem LaneInv.congr (h : src.LaneInv i todo lane) (hview : lane'.view = lane.view) :
    src.LaneInv i todo lane' := by
  obtain ⟨-, hlen, -, hlen', -⟩ := Lane.view_eq hview
  simp only [Lane.view, Prod.mk.injEq] at hview
  obtain ⟨hhd, hio, hraw, htx, hc⟩ := hview
  refine ⟨?_, h.bounded.congr ?_ ?_, ?_, ?_, ?_, ?_⟩
  · rw [← h.ahead_eq]
    simp only [ahead, hhd, hio, hraw, htx, hc]
  · rw [hlen, hraw]
  · rw [hc, hlen']
  · rw [hhd]; exact h.fetchHead_le
  · rw [hio]; exact h.io_le
  · rw [hraw]; exact h.raw_le
  · rw [htx]; exact h.tx_le

theorem LaneInv.submitIo (h : src.LaneInv i todo lane)
    (hroom : lane.ioPending.length + lane.rawBatches.length < src.limits.ioQueueDepth)
    (hlt : lane.fetchHead < (src.rows i).length) {fetch : ℕ}
    (hfet : fetch = min src.limits.readBatchSize ((src.rows i).length - lane.fetchHead)) :
    src.LaneInv i todo { lane with
      fetchHead := lane.fetchHead + fetch
      ioPending := lane.ioPending ++
        [⟨src.initialPositions i + lane.fetchHead, lane.fetchHead, fetch, false⟩] } := by
  have hle := h.fetchHead_le
  refine ⟨?_, ⟨?_, h.bounded.cooked⟩, ?_, ?_, h.raw_le, h.tx_le⟩
  · rw [← h.ahead_eq]
    simp only [ahead, map_append, flatMap_append, src.batchesFrom_eq_cons hlt hfet,
      append_assoc]
    simp [IoTask.request, readBatch]
  · simp only [length_append, length_singleton]
    omega
  · show lane.fetchHead + fetch ≤ _
    omega
  · rw [map_append]
    refine forall_mem_append.2 ⟨h.io_le, forall_mem_singleton.2 ?_⟩
    show fetch ≤ _
    omega

theorem LaneInv.landIo (h : src.LaneInv i todo lane) {t : IoTask} {rest : List IoTask}
    (hio : lane.ioPending = t :: rest) (hc : src.ioCall i t = .ok batch) :
    src.LaneInv i todo { lane with
      ioPending := rest
      rawBatches := lane.rawBatches ++ [(t.absStart, batch)] } := by
  have hbat : src.readBatch i t.request = (t.absStart, batch) := by
    rw [ioCall] at hc
    split at hc
    · cases hc
    · simpa [readBatch, IoTask.request] using hc
  obtain ⟨hle, hr⟩ := forall_mem_cons.1 (hio ▸ h.io_le)
  have hlen : batch.length ≤ src.limits.readBatchSize := by
    obtain rfl := (Prod.mk.inj hbat).2
    rw [length_take]
    omega
  refine ⟨?_, h.bounded.congr ?_ le_rfl, h.fetchHead_le, hr,
    forall_mem_append.2 ⟨h.raw_le, forall_mem_singleton.2 hlen⟩, h.tx_le⟩
  · rw [← h.ahead_eq]
    simp [ahead, hio, hbat]
  · simp only [hio, length_append, length_cons, length_nil]
    omega

theorem LaneInv.submitTx (h : src.LaneInv i todo lane) {rest : List (ℕ × List α)}
    (hraw : lane.rawBatches = (absStart, batch) :: rest)
    (hroom : ∀ d ∈ src.limits.transformQueueDepth,
    lane.cooked.length + (lane.txPending.length + 1) * src.limits.readBatchSize ≤
    d * src.limits.readBatchSize) :
    src.LaneInv i todo { lane with
      rawBatches := rest
      txPending := lane.txPending ++ [⟨absStart, batch, .running⟩] } := by
  obtain ⟨hle, hr⟩ := forall_mem_cons.1 (hraw ▸ h.raw_le)
  refine ⟨?_, ⟨?_, ?_⟩, h.fetchHead_le, h.io_le, hr, ?_⟩
  · rw [← h.ahead_eq]
    simp [ahead, hraw, TxTask.work]
  · have := h.bounded.io
    simp only [hraw, length_cons] at this
    show lane.ioPending.length + rest.length ≤ _
    omega
  · intro d hd
    simpa using hroom d hd
  · rw [map_append]
    exact forall_mem_append.2 ⟨h.tx_le, forall_mem_singleton.2 hle⟩

theorem LaneInv.landTx (h : src.LaneInv i todo lane) {rest : List (TxTask α)}
    (htx : lane.txPending = t :: rest) {rows : List (ℕ × β)}
    (hr : src.transformBatch t.absStart t.batch = .ok rows) :
    src.LaneInv i todo { lane with txPending := rest, cooked := lane.cooked ++ rows } := by
  have hdeliv : src.delivered t.work = rows := by simp [delivered, TxTask.work, hr]
  obtain ⟨hle, hrest⟩ := forall_mem_cons.1 (htx ▸ h.tx_le)
  have hlen : rows.length ≤ src.limits.readBatchSize := by
    have hsub := (src.transformBatch_positions hr).length_le
    rw [length_map, length_range'] at hsub
    exact hsub.trans hle
  refine ⟨?_, h.bounded.congr le_rfl ?_, h.fetchHead_le, h.io_le, h.raw_le, hrest⟩
  · rw [← h.ahead_eq]
    simp [ahead, htx, hdeliv]
  · simp only [htx, length_append, length_cons, Nat.add_mul, Nat.one_mul]
    omega

theorem LaneInv.pop (h : src.LaneInv i todo lane) {row : ℕ × β} {rest : List (ℕ × β)}
    (hc : lane.cooked = row :: rest) :
    ∃ todo', todo = row :: todo' ∧ src.LaneInv i todo' { lane with cooked := rest } := by
  refine ⟨src.ahead i { lane with cooked := rest }, ?_, rfl, h.bounded.congr le_rfl ?_,
    h.fetchHead_le, h.io_le, h.raw_le, h.tx_le⟩
  · rw [← h.ahead_eq]
    simp [ahead, hc]
  · simp only [hc, length_cons]
    omega

/-- Split `i` is exhausted: every row has been requested and every queue is empty. -/
structure Exhausted (src : Source α β ε) (i : ℕ) (lane : Lane α β) : Prop where
  cooked : lane.cooked = []
  txPending : lane.txPending = []
  rawBatches : lane.rawBatches = []
  ioPending : lane.ioPending = []
  fetchHead : (src.rows i).length ≤ lane.fetchHead

theorem LaneInv.todo_eq_nil (h : src.LaneInv i todo lane) (hex : src.Exhausted i lane) :
    todo = [] := by
  rw [← h.ahead_eq]
  simp [ahead, hex.cooked, hex.txPending, hex.rawBatches, hex.ioPending,
    src.batchesFrom_eq_nil hex.fetchHead]

/-! ### The invariant of the pipeline -/

variable (src)

/-- The transforms of the owned splits that hold a slot. -/
def running (p : Pipe α β) : ℕ := ∑ i ∈ Finset.range src.n, (p.lanes i).running

/-- Both queue bounds have held at every moment so far. -/
def Safe (p : Pipe α β) : Prop := ∀ lane ∈ p.moments, src.Bounded lane

/-- What is known when a pump raises. -/
def Raised (e : Failure ε) (p : Pipe α β) : Prop := src.Safe p ∧ src.Justified e

/-- A triple about a pump. -/
abbrev Pumps {γ : Type} (P : Pipe α β → Prop) (m : PumpM α β ε γ) (Q : γ → Pipe α β → Prop) :
    Prop :=
  EStateM.Spec P m Q src.Raised

/-- The invariant of the pipeline, where split `i` has the rows `todo i` left to deliver. -/
structure PipeInv (todo : ℕ → List (ℕ × β)) (p : Pipe α β) : Prop where
  lanes : ∀ i, src.LaneInv i (todo i) (p.lanes i)
  safe : src.Safe p
  slots : p.txSemaphore + src.running p = src.limits.transformParallelism
  idle : ∀ i, src.n ≤ i → (p.lanes i).txPending = []

/-- `_fill_io` has nothing to do on a lane: the read budget is used up or every row requested. -/
def Filled (i : ℕ) (lane : Lane α β) : Prop :=
  src.limits.ioQueueDepth ≤ lane.ioPending.length + lane.rawBatches.length ∨
    (src.rows i).length ≤ lane.fetchHead

/-- Reads have been requested as far ahead as they may, or a transform is in flight. -/
def Ready (i : ℕ) (lane : Lane α β) : Prop := src.Filled i lane ∨ lane.txPending ≠ []

/-- A raw batch is waiting, and there is room for its rows behind the transform stage. -/
def CanSubmit (view : LaneView α β) : Prop :=
  view.2.2.1 ≠ [] ∧ ∀ d ∈ src.limits.transformQueueDepth,
    view.2.2.2.2.length + (view.2.2.2.1.length + 1) * src.limits.readBatchSize ≤
      d * src.limits.readBatchSize

/-- The invariant while split `i` is pumped: the other splits of `others` keep a row ready, and
at most `fuel` stage moves are left in split `i`. -/
structure Pumped (todo : ℕ → List (ℕ × β)) (i : ℕ) (others : ℕ → Prop) (fuel : ℕ)
    (p : Pipe α β) : Prop where
  inv : src.PipeInv todo p
  frame : ∀ j, j ≠ i → others j → (p.lanes j).cooked ≠ []
  potential_le : src.potential i (p.lanes i) ≤ fuel

variable {src} {todo : ℕ → List (ℕ × β)} {others : ℕ → Prop} {fuel : ℕ} {p q : Pipe α β}

theorem Pumped.mono {fuel' : ℕ} (h : src.Pumped todo i others fuel p) (hle : fuel ≤ fuel') :
    src.Pumped todo i others fuel' p :=
  ⟨h.inv, h.frame, h.potential_le.trans hle⟩

theorem running_update (hi : i < src.n) (hq : q.lanes = Function.update p.lanes i lane) :
    src.running q + (p.lanes i).running = src.running p + lane.running := by
  have hfun : (fun j => (q.lanes j).running) =
      Function.update (fun j => (p.lanes j).running) i lane.running := by
    funext j
    by_cases hj : j = i
    · subst hj; simp [hq]
    · simp [hq, hj]
  have := Finset.sum_update_add (Finset.mem_range.2 hi) (fun j => (p.lanes j).running) lane.running
  rw [← hfun] at this
  exact this

theorem PipeInv.update (h : src.PipeInv todo p) (hi : i < src.n) {rest : List (ℕ × β)}
    (hlns : q.lanes = Function.update p.lanes i lane) (hsafe : src.Safe q)
    (hlane : src.LaneInv i rest lane)
    (hslots : q.txSemaphore + lane.running = p.txSemaphore + (p.lanes i).running) :
    src.PipeInv (Function.update todo i rest) q := by
  refine ⟨?_, hsafe, ?_, ?_⟩
  · intro j
    by_cases hj : j = i
    · subst hj; simpa [hlns] using hlane
    · simpa [hlns, hj] using h.lanes j
  · have := running_update hi hlns
    have := h.slots
    omega
  · intro j hj
    have hne : j ≠ i := by omega
    simpa [hlns, hne] using h.idle j hj

theorem Pumped.update {fuel' : ℕ} (h : src.Pumped todo i others fuel p) (hi : i < src.n)
    (hlns : q.lanes = Function.update p.lanes i lane) (hsafe : src.Safe q)
    (hlane : src.LaneInv i (todo i) lane)
    (hslots : q.txSemaphore + lane.running = p.txSemaphore + (p.lanes i).running)
    (hpot : src.potential i lane ≤ fuel') : src.Pumped todo i others fuel' q := by
  refine ⟨?_, ?_, ?_⟩
  · have := h.inv.update hi hlns hsafe hlane hslots
    rwa [update_eq_self] at this
  · intro j hj hrdy
    simpa [hlns, hj] using h.frame j hj hrdy
  · simpa [hlns] using hpot

/-! ### The pools -/

theorem lane_lt_of_tx (h : src.PipeInv todo p) {j : ℕ} (ht : (p.lanes i).txPending[j]? = some t) :
    i < src.n := by
  by_contra hi
  simp [h.idle i (by omega)] at ht

theorem running_stepTx {j : ℕ} (ht : lane.txPending[j]? = some t) :
    (if t.phase = .running then 1 else 0) + (lane.stepTx j).running = lane.running := by
  have := countP_modify (f := fun t : TxTask α => { t with phase := t.phase.next })
    (p := fun t => decide (t.phase = .running)) ht
  have hn : t.phase.next ≠ .running := by cases t.phase <;> simp [TxPhase.next]
  simp only [hn, decide_false, Bool.false_eq_true, if_false, Nat.add_zero] at this
  simp only [Lane.running, Lane.stepTx, ← this, decide_eq_true_eq]
  omega

theorem PipeInv.complete (h : src.PipeInv todo p) (c : Completion) :
    src.PipeInv todo (p.complete c) := by
  have hlns : ∀ k, src.LaneInv k (todo k) ((p.complete c).lanes k) := fun k =>
    (h.lanes k).congr (p.view_complete c k)
  cases c with
  | io i j =>
    have htx : ∀ k, ((p.complete (.io i j)).lanes k).txPending = (p.lanes k).txPending := by
      intro k
      by_cases hk : k = i
      · subst hk; simp [Pipe.complete, Lane.finishIo]
      · simp [Pipe.complete, hk]
    refine ⟨hlns, h.safe, ?_, fun k hk => (htx k).trans (h.idle k hk)⟩
    rw [← h.slots]
    simp only [running, Lane.running, htx]
    rfl
  | tx i j =>
    have hi := hlns i
    rw [Pipe.complete] at hi ⊢
    split
    · exact h
    · rename_i t ht
      have hlane : src.LaneInv i (todo i) ((p.lanes i).stepTx j) :=
        (h.lanes i).congr (Lane.view_stepTx _ j)
      have hrun := running_stepTx ht
      have hs := h.update (q := { p with
          lanes := Function.update p.lanes i ((p.lanes i).stepTx j)
          txSemaphore := p.txSemaphore + if t.phase = .running then 1 else 0 })
        (lane_lt_of_tx h ht) rfl h.safe hlane (by dsimp only; omega)
      rwa [update_eq_self] at hs

theorem Pumped.complete (h : src.Pumped todo i others fuel p) (c : Completion) :
    src.Pumped todo i others fuel (p.complete c) := by
  refine ⟨h.inv.complete c, fun j hj hrdy => ?_, ?_⟩
  · rw [(Lane.view_eq (p.view_complete c j)).2.2.2.2]
    exact h.frame j hj hrdy
  · obtain ⟨hhd, hio, hraw, htx, -⟩ := Lane.view_eq (p.view_complete c i)
    have := h.potential_le
    simpa only [potential, hhd, hio, hraw, htx] using this

theorem Pumped.foldl_complete (h : src.Pumped todo i others fuel p) (cs : List Completion) :
    src.Pumped todo i others fuel (cs.foldl Pipe.complete p) := by
  induction cs generalizing p with
  | nil => exact h
  | cons c cs ih => exact ih (h.complete c)

theorem firstRunning_spec {c : Completion} (h : src.firstRunning p = some c) :
    (p.complete c).txSemaphore = p.txSemaphore + 1 := by
  obtain ⟨i, -, hc⟩ := exists_of_findSome?_eq_some h
  obtain ⟨j, hj, rfl⟩ := Option.map_eq_some_iff.1 hc
  obtain ⟨hlt, hrun, -⟩ := findIdx?_eq_some_iff_getElem.1 hj
  have hget : (p.lanes i).txPending[j]? = some ((p.lanes i).txPending.get ⟨j, hlt⟩) :=
    getElem?_eq_getElem hlt
  simp only [Pipe.complete, hget]
  simpa using hrun

/-- When every slot is taken, a transform of an owned split holds one. -/
theorem exists_firstRunning (h : src.PipeInv todo p) (hsem : p.txSemaphore = 0) :
    ∃ c, src.firstRunning p = some c := by
  by_contra hn
  have hidle : ∀ i ∈ Finset.range src.n, (p.lanes i).running = 0 := by
    intro i hi
    have hfind : src.firstRunning p = none := by
      cases hf : src.firstRunning p with
      | none => rfl
      | some c => exact absurd ⟨c, hf⟩ hn
    have := findSome?_eq_none_iff.1 hfind i (mem_range.2 (Finset.mem_range.1 hi))
    simp only [Option.map_eq_none_iff, findIdx?_eq_none_iff] at this
    exact countP_eq_zero.2 fun t ht => by simpa using this t ht
  have := h.slots
  have := src.limits.transformParallelism_pos
  have hsum : src.running p = 0 := Finset.sum_eq_zero hidle
  omega

theorem Pumped.waitSlot (h : src.Pumped todo i others fuel p) :
    src.Pumped todo i others fuel (src.waitSlot p) ∧ 0 < (src.waitSlot p).txSemaphore ∧
      ((src.waitSlot p).lanes i).view = (p.lanes i).view := by
  unfold Source.waitSlot
  split_ifs with hsem
  · obtain ⟨c, hc⟩ := exists_firstRunning h.inv hsem
    simp only [hc, Option.map_some, Option.getD_some]
    refine ⟨h.complete c, ?_, p.view_complete c i⟩
    rw [firstRunning_spec hc]
    omega
  · exact ⟨h, by omega, rfl⟩

theorem canSubmit_of_hasRoom (hraw : lane.rawBatches ≠ []) (hroom : src.hasRoom lane = true) :
    src.CanSubmit lane.view := by
  refine ⟨hraw, fun d hd => ?_⟩
  have hd' : src.limits.transformQueueDepth = some d := hd
  simp only [hasRoom, Limits.maxCookedRows, hd', Option.map_some, decide_eq_true_eq] at hroom
  simpa [Lane.view, Nat.add_mul, Nat.add_assoc] using hroom

/-- With nothing behind the transform stage there is room for a batch. -/
theorem canSubmit_of_empty (hraw : lane.rawBatches ≠ []) (htx : lane.txPending = [])
    (hc : lane.cooked = []) : src.CanSubmit lane.view := by
  refine ⟨hraw, fun d hd => ?_⟩
  have := src.limits.transformQueueDepth_pos d hd
  simp only [Lane.view, htx, hc, map_nil, length_nil, Nat.zero_add, Nat.one_mul]
  exact Nat.le_mul_of_pos_left _ this

theorem Ready.exhausted (hrdy : src.Ready i lane) (hc : lane.cooked = [])
    (htx : lane.txPending = []) (hraw : lane.rawBatches = []) (hio : lane.ioPending = []) :
    src.Exhausted i lane := by
  refine ⟨hc, htx, hraw, hio, ?_⟩
  have := src.limits.ioQueueDepth_pos
  rcases hrdy with hf | hne
  · rcases hf with hfull | hall
    · simp only [hraw, hio, length_nil] at hfull
      omega
    · exact hall
  · exact absurd htx hne

/-! ### The pumps -/

section Specs

variable (src) (todo : ℕ → List (ℕ × β)) (others : ℕ → Prop) (fuel : ℕ) (hi : i < src.n)
include hi

omit hi in
theorem tick_spec (S : LaneView α β → Prop) :
    src.Pumps (fun p => src.Pumped todo i others fuel p ∧ S (p.lanes i).view) src.tick
      fun _ p => src.Pumped todo i others fuel p ∧ S (p.lanes i).view := by
  unfold tick
  mvcgen
  case vc1 p h _ =>
    have h' := h.1.foldl_complete (src.schedule p.clock)
    refine ⟨⟨⟨h'.inv.lanes, h'.inv.safe, h'.inv.slots, h'.inv.idle⟩, h'.frame, h'.potential_le⟩, ?_⟩
    have := h.2
    rwa [← p.view_foldl_complete (src.schedule p.clock) i] at this

theorem submitIo_spec (k : ℕ) :
    src.Pumps (fun p => src.Pumped todo i others fuel p ∧
        (p.lanes i).ioPending.length + (p.lanes i).rawBatches.length < src.limits.ioQueueDepth ∧
        (p.lanes i).fetchHead < (src.rows i).length ∧
        src.limits.ioQueueDepth ≤
        k + 1 + ((p.lanes i).ioPending.length + (p.lanes i).rawBatches.length)) (src.submitIo i)
      fun _ p => src.Pumped todo i others fuel p ∧
        src.limits.ioQueueDepth ≤
        k + ((p.lanes i).ioPending.length + (p.lanes i).rawBatches.length) := by
  unfold submitIo setLane
  mvcgen
  case vc1 p h lane remaining hrem =>
    have := h.2.2.1
    simp only [remaining, lane] at hrem
    omega
  case vc2 p h lane remaining hrem fetch start task _ =>
    obtain ⟨h, hroom, hlt, hk⟩ := h
    have hlane := (h.inv.lanes i).submitIo hroom hlt (rfl : fetch = _)
    refine ⟨h.update hi rfl (forall_mem_cons.2 ⟨hlane.bounded, h.inv.safe⟩) hlane rfl ?_, ?_⟩
    · have hpot := h.potential_le
      have := src.limits.readBatchSize_pos
      simp only [potential, fetch, start, remaining, lane, length_append,
        length_singleton] at hpot ⊢ hrem
      omega
    · show _ ≤ k + ((Function.update p.lanes i _ i).ioPending.length +
        (Function.update p.lanes i _ i).rawBatches.length)
      simp only [update_self, length_append, length_singleton, lane]
      omega

theorem landIo_spec :
    src.Pumps (fun p => src.Pumped todo i others fuel p ∧ (p.lanes i).ioPending ≠ []) (src.landIo i)
      fun _ => src.Pumped todo i others (fuel - 1) := by
  unfold landIo setLane
  mvcgen
  case vc1 p h lane hnil => exact absurd hnil h.2
  case vc2 p h lane t rest hio _ exc hc =>
    exact ⟨forall_mem_cons.2 ⟨(h.1.inv.lanes i).bounded.popIo hio, h.1.inv.safe⟩,
      src.ioCall_justified hc⟩
  case vc3 p h lane t rest hio _ batch hc _ =>
    simp only [lane] at hio
    have hlane := (h.1.inv.lanes i).landIo hio hc
    have hmid := (h.1.inv.lanes i).bounded.popIo hio
    refine h.1.update hi (update_idem _ _ _)
      (forall_mem_cons.2 ⟨hlane.bounded, forall_mem_cons.2 ⟨hmid, h.1.inv.safe⟩⟩)
      hlane rfl ?_
    have := h.1.potential_le
    simp only [lane, potential, hio, length_cons, length_append, length_nil]
      at this ⊢
    omega

theorem submitTx_spec :
    src.Pumps (fun p => src.Pumped todo i others fuel { p with txSemaphore := p.txSemaphore + 1 } ∧
        src.CanSubmit (p.lanes i).view) (submitTx i : PumpM α β ε Unit)
      fun _ p => src.Pumped todo i others (fuel - 1) p ∧ (p.lanes i).txPending ≠ [] := by
  unfold submitTx setLane
  mvcgen
  case vc1 p h lane hnil => exact absurd hnil h.2.1
  case vc2 p h lane absStart batch rest hraw _ _ =>
    obtain ⟨h, -, hroom⟩ := h
    simp only [Lane.view, length_map] at hroom
    simp only [lane] at hraw
    have hlane := (h.inv.lanes i).submitTx hraw hroom
    have hmid : src.Bounded { lane with rawBatches := rest } := by
      refine (h.inv.lanes i).bounded.congr ?_ le_rfl
      simp [lane, hraw]
    refine ⟨h.update hi (update_idem _ _ _)
      (forall_mem_cons.2 ⟨hlane.bounded, forall_mem_cons.2 ⟨hmid, h.inv.safe⟩⟩)
      hlane ?_ ?_, ?_⟩
    · show p.txSemaphore + Lane.running _ = p.txSemaphore + 1 + (p.lanes i).running
      simp only [lane, Lane.running, countP_append, countP_singleton, decide_true,
        if_true]
      omega
    · have := h.potential_le
      simp only [lane, potential, hraw, length_cons, length_append, length_nil]
        at this ⊢
      omega
    · show (Function.update (Function.update p.lanes i _) i _ i).txPending ≠ []
      simp

theorem landTx_spec :
    src.Pumps (fun p => src.Pumped todo i others fuel p ∧ (p.lanes i).txPending ≠ []) (src.landTx i)
      fun _ => src.Pumped todo i others (fuel - 1) := by
  unfold landTx setLane
  mvcgen
  case vc1 p h lane hnil => exact absurd hnil h.2
  case vc2 p h lane t rest htx _ _ exc hr =>
    exact ⟨forall_mem_cons.2 ⟨(h.1.inv.lanes i).bounded.popTx htx, h.1.inv.safe⟩,
      src.transformBatch_justified hr⟩
  case vc3 p h lane t rest htx _ _ rows hr _ =>
    obtain ⟨h, -⟩ := h
    simp only [lane] at htx
    have hlane := (h.inv.lanes i).landTx htx hr
    have hmid := (h.inv.lanes i).bounded.popTx htx
    refine h.update hi (update_idem _ _ _)
      (forall_mem_cons.2 ⟨hlane.bounded, forall_mem_cons.2 ⟨hmid, h.inv.safe⟩⟩)
      hlane ?_ ?_
    · show p.txSemaphore + _ + Lane.running _ = p.txSemaphore + (p.lanes i).running
      simp only [Lane.running, htx, countP_cons, decide_eq_true_eq]
      omega
    · have := h.potential_le
      simp only [lane, potential, htx, length_cons] at this ⊢
      omega

theorem fillIoLoop_spec (k : ℕ) :
    src.Pumps (fun p => src.Pumped todo i others fuel p ∧
        src.limits.ioQueueDepth ≤
        k + ((p.lanes i).ioPending.length + (p.lanes i).rawBatches.length)) (src.fillIoLoop i k)
      fun _ p => src.Pumped todo i others fuel p ∧ src.Filled i (p.lanes i) := by
  induction k with
  | zero =>
    unfold fillIoLoop
    mvcgen
    rename_i p h
    exact ⟨h.1, Or.inl (by omega)⟩
  | succ k ih =>
    have hsub := src.submitIo_spec todo others fuel hi k
    unfold fillIoLoop
    mvcgen [hsub, ih]
    case vc1 p h lane hroom => exact ⟨h.1, hroom.1, hroom.2, h.2⟩
    case vc3 p h lane hf =>
      refine ⟨h.1, ?_⟩
      by_contra hnot
      simp only [Filled, not_or, Nat.not_le] at hnot
      exact hf hnot

theorem fillIo_spec :
    src.Pumps (src.Pumped todo i others fuel) (src.fillIo i)
      fun _ p => src.Pumped todo i others fuel p ∧ src.Filled i (p.lanes i) := by
  have hloop := src.fillIoLoop_spec todo others fuel hi src.limits.ioQueueDepth
  unfold fillIo
  mvcgen [hloop]
  rename_i p h
  exact ⟨h, by omega⟩

omit hi in
theorem ioHeadDone_spec :
    src.Pumps (src.Pumped todo i others fuel) (src.ioHeadDone i)
      fun b p => src.Pumped todo i others fuel p ∧ (b = true → (p.lanes i).ioPending ≠ []) := by
  have htick := src.tick_spec (i := i) todo others fuel (fun _ => True)
  unfold ioHeadDone
  mvcgen [htick]
  rename_i p h
  exact ⟨h, fun hd hnil => by simp [hnil] at hd⟩

theorem drainIoLoop_spec (k : ℕ) :
    src.Pumps (src.Pumped todo i others fuel) (src.drainIoLoop i k)
      fun _ => src.Pumped todo i others fuel := by
  induction k with
  | zero =>
    unfold drainIoLoop
    mvcgen
  | succ k ih =>
    have hhd := src.ioHeadDone_spec (i := i) todo others fuel
    have hland := src.landIo_spec todo others fuel hi
    unfold drainIoLoop
    mvcgen [hhd, hland, ih]
    case vc2 _ _ _ hd p h => exact ⟨h.1, h.2 hd⟩
    case vc3 _ _ _ _ _ _ _ p h =>
      exact h.mono (Nat.sub_le _ _)
    case vc4 _ _ _ _ p h => exact h.1

theorem drainIo_spec :
    src.Pumps (src.Pumped todo i others fuel) (src.drainIo i)
      fun _ => src.Pumped todo i others fuel := by
  have hloop := src.drainIoLoop_spec todo others fuel hi
  unfold drainIo
  mvcgen [hloop]

omit hi in
theorem txHeadDone_spec :
    src.Pumps (src.Pumped todo i others fuel) (src.txHeadDone i)
      fun b p => src.Pumped todo i others fuel p ∧ (b = true → (p.lanes i).txPending ≠ []) := by
  have htick := src.tick_spec (i := i) todo others fuel (fun _ => True)
  unfold txHeadDone
  mvcgen [htick]
  rename_i p h
  exact ⟨h, fun hd hnil => by simp [hnil] at hd⟩

theorem drainTxLoop_spec (k : ℕ) :
    src.Pumps (src.Pumped todo i others fuel) (src.drainTxLoop i k)
      fun _ => src.Pumped todo i others fuel := by
  induction k with
  | zero =>
    unfold drainTxLoop
    mvcgen
  | succ k ih =>
    have hhd := src.txHeadDone_spec (i := i) todo others fuel
    have hland := src.landTx_spec todo others fuel hi
    unfold drainTxLoop
    mvcgen [hhd, hland, ih]
    case vc2 _ _ _ hd p h => exact ⟨h.1, h.2 hd⟩
    case vc3 _ _ _ _ _ _ _ p h =>
      exact h.mono (Nat.sub_le _ _)
    case vc4 _ _ _ _ p h => exact h.1

theorem drainTx_spec :
    src.Pumps (src.Pumped todo i others fuel) (src.drainTx i)
      fun _ => src.Pumped todo i others fuel := by
  have hloop := src.drainTxLoop_spec todo others fuel hi
  unfold drainTx
  mvcgen [hloop]

omit hi in
theorem tryAcquire_spec (S : LaneView α β → Prop) :
    src.Pumps (fun p => src.Pumped todo i others fuel p ∧ S (p.lanes i).view) src.tryAcquire
      fun b p => (b = true →
        src.Pumped todo i others fuel { p with txSemaphore := p.txSemaphore + 1 }) ∧
        (b = false → src.Pumped todo i others fuel p) ∧ S (p.lanes i).view := by
  have htick := src.tick_spec (i := i) todo others fuel S
  unfold tryAcquire
  mvcgen [htick]
  case vc2 _ _ _ p h _ => exact ⟨by simp, h⟩
  case vc3 _ _ _ p h hsem =>
    refine ⟨?_, by simp, h.2⟩
    rw [Nat.sub_add_cancel (by omega)]
    exact h.1

theorem trySubmitTxLoop_spec (k : ℕ) :
    src.Pumps (src.Pumped todo i others fuel) (src.trySubmitTxLoop i k)
      fun _ => src.Pumped todo i others fuel := by
  induction k with
  | zero =>
    unfold trySubmitTxLoop
    mvcgen
  | succ k ih =>
    have hacq := src.tryAcquire_spec (i := i) todo others fuel src.CanSubmit
    have hsub := src.submitTx_spec todo others fuel hi
    unfold trySubmitTxLoop
    mvcgen [hacq, hsub, ih]
    case vc2 p h lane hraw hroom =>
      exact ⟨h, canSubmit_of_hasRoom (by simpa [lane] using hraw) hroom⟩
    case vc3 b hb p h => exact ⟨h.1 hb, h.2.2⟩
    case vc4 p h =>
      exact h.1.mono (Nat.sub_le _ _)
    case vc5 b hb p h =>
      exact h.2.1 (by simpa using hb)

theorem trySubmitTx_spec :
    src.Pumps (src.Pumped todo i others fuel) (src.trySubmitTx i)
      fun _ => src.Pumped todo i others fuel := by
  have hloop := src.trySubmitTxLoop_spec todo others fuel hi
  unfold trySubmitTx
  mvcgen [hloop]

theorem advance_spec :
    src.Pumps (src.Pumped todo i others fuel) (src.advance i)
      fun _ p => src.Pumped todo i others fuel p ∧ src.Filled i (p.lanes i) := by
  have hio := src.drainIo_spec todo others fuel hi
  have htx := src.drainTx_spec todo others fuel hi
  have hsub := src.trySubmitTx_spec todo others fuel hi
  have hf := src.fillIo_spec todo others fuel hi
  unfold advance
  mvcgen [hio, htx, hsub, hf]

omit hi in
theorem acquire_spec (S : LaneView α β → Prop) :
    src.Pumps (fun p => src.Pumped todo i others fuel p ∧ S (p.lanes i).view) src.acquire
      fun _ p => src.Pumped todo i others fuel { p with txSemaphore := p.txSemaphore + 1 } ∧
        S (p.lanes i).view := by
  have htick := src.tick_spec (i := i) todo others fuel S
  unfold acquire
  mvcgen [htick]
  rename_i p h _ _
  obtain ⟨h', hpos, hview⟩ := h.1.waitSlot
  refine ⟨?_, ?_⟩
  · show src.Pumped todo i others fuel
      { src.waitSlot p with txSemaphore := (src.waitSlot p).txSemaphore - 1 + 1 }
    rw [Nat.sub_add_cancel hpos]
    exact h'
  · have := h.2
    rwa [← hview] at this

theorem waitTx_spec :
    src.Pumps (fun p => src.Pumped todo i others fuel p ∧ (p.lanes i).txPending ≠ []) (src.waitTx i)
      fun _ p => src.Pumped todo i others (fuel - 1) p ∧ src.Ready i (p.lanes i) := by
  have htick := src.tick_spec (i := i) todo others fuel (fun view => view.2.2.2.1 ≠ [])
  have hland := src.landTx_spec todo others fuel hi
  have hadv := src.advance_spec todo others (fuel - 1) hi
  unfold waitTx
  mvcgen [htick, hland, hadv]
  case vc1 p h => exact ⟨h.1, by simpa [Lane.view] using h.2⟩
  case vc2 p h => exact ⟨h.1, by simpa [Lane.view] using h.2⟩
  exact fun h hf => ⟨h, Or.inl hf⟩

theorem waitIo_spec :
    src.Pumps (fun p => src.Pumped todo i others fuel p ∧ (p.lanes i).ioPending ≠ []) (src.waitIo i)
      fun _ p => src.Pumped todo i others (fuel - 1) p ∧ src.Ready i (p.lanes i) := by
  have htick := src.tick_spec (i := i) todo others fuel (fun view => view.2.1 ≠ [])
  have hland := src.landIo_spec todo others fuel hi
  have hadv := src.advance_spec todo others (fuel - 1) hi
  unfold waitIo
  mvcgen [htick, hland, hadv]
  case vc1 p h => exact ⟨h.1, by simpa [Lane.view] using h.2⟩
  case vc2 p h => exact ⟨h.1, by simpa [Lane.view] using h.2⟩
  exact fun h hf => ⟨h, Or.inl hf⟩

theorem forceTx_spec :
    src.Pumps (fun p => src.Pumped todo i others fuel p ∧ (p.lanes i).rawBatches ≠ [] ∧
        (p.lanes i).txPending = [] ∧ (p.lanes i).cooked = []) (src.forceTx i)
      fun _ p => src.Pumped todo i others (fuel - 1) p ∧ src.Ready i (p.lanes i) := by
  have hacq := src.acquire_spec (i := i) todo others fuel src.CanSubmit
  have hsub := src.submitTx_spec todo others fuel hi
  unfold forceTx
  mvcgen [hacq, hsub]
  case vc1 p h => exact ⟨h.1, canSubmit_of_empty h.2.1 h.2.2.1 h.2.2.2⟩
  exact fun h htx => ⟨h, Or.inr htx⟩

theorem ensureCookedLoop_spec (k : ℕ) :
    src.Pumps (fun p => src.Pumped todo i others fuel p ∧ fuel < k ∧ src.Ready i (p.lanes i))
      (src.ensureCookedLoop i k)
      fun _ p => src.Pumped todo i others fuel p ∧
        ((p.lanes i).cooked = [] → src.Exhausted i (p.lanes i)) := by
  induction k generalizing fuel with
  | zero =>
    unfold ensureCookedLoop
    mvcgen
    rename_i p h
    omega
  | succ k ih =>
    have hwaitTx := src.waitTx_spec todo others fuel hi
    have hforceTx := src.forceTx_spec todo others fuel hi
    have hwaitIo := src.waitIo_spec todo others fuel hi
    have hloop := ih (fuel - 1)
    -- a lane that is not empty has a stage move left, so the fuel of the next turn suffices
    have hturn : ∀ p : Pipe α β, src.Pumped todo i others fuel p → fuel < k + 1 →
        ((p.lanes i).txPending ≠ [] ∨ (p.lanes i).rawBatches ≠ [] ∨ (p.lanes i).ioPending ≠ []) →
        fuel - 1 < k := by
      intro p h hfuel hne
      have := h.potential_le
      simp only [potential] at this
      rcases hne with hne | hne | hne <;>
      · have := length_pos_iff.2 hne
        omega
    have hmono := fun (p : Pipe α β) (h : src.Pumped todo i others (fuel - 1) p) =>
      h.mono (Nat.sub_le _ _)
    unfold ensureCookedLoop
    mvcgen [hwaitTx, hforceTx, hwaitIo, hloop]
    case vc1 p h lane _ htx => exact ⟨h.1, by simpa [lane] using htx⟩
    case vc2 q hq lane _ htx _ p h =>
      exact ⟨h.1, hturn q hq.1 hq.2.1 (Or.inl (by simpa [lane] using htx)), h.2⟩
    case vc3 p => exact fun h hnil => ⟨hmono p h, hnil⟩
    case vc4 p h lane hc htx hraw =>
      exact ⟨h.1, by simpa [lane] using hraw, by simpa [lane] using htx,
        by simpa [lane] using hc⟩
    case vc5 q hq lane _ _ hraw _ p h =>
      exact ⟨h.1, hturn q hq.1 hq.2.1 (Or.inr (Or.inl (by simpa [lane] using hraw))), h.2⟩
    case vc6 p => exact fun h hnil => ⟨hmono p h, hnil⟩
    case vc7 p h lane _ _ _ hio =>
      exact ⟨h.1, by simpa [lane] using hio⟩
    case vc8 q hq lane _ _ _ hio _ p h =>
      exact ⟨h.1, hturn q hq.1 hq.2.1 (Or.inr (Or.inr (by simpa [lane] using hio))), h.2⟩
    case vc9 p => exact fun h hnil => ⟨hmono p h, hnil⟩
    case vc10 p h lane hc htx hraw hio =>
      exact ⟨h.1, fun _ => h.2.2.exhausted (by simpa [lane] using hc)
        (by simpa [lane] using htx) (by simpa [lane] using hraw) (by simpa [lane] using hio)⟩
    case vc11 p h lane hc =>
      exact ⟨h.1, fun hnil => absurd (by simpa [lane] using hnil) hc⟩

/-- `_ensure_cooked` keeps the invariant, and leaves the queue empty only when the split is
exhausted. -/
theorem ensureCooked_spec :
    src.Pumps (fun p => src.PipeInv todo p ∧ ∀ j, j ≠ i → others j → (p.lanes j).cooked ≠ [])
      (src.ensureCooked i)
      fun _ p => src.PipeInv todo p ∧ (∀ j, j ≠ i → others j → (p.lanes j).cooked ≠ []) ∧
        ((p.lanes i).cooked = [] → src.Exhausted i (p.lanes i)) := by
  have hadv := triple_exists fun fuel => src.advance_spec todo others fuel hi
  have hloop := fun k => triple_exists fun fuel =>
    src.ensureCookedLoop_spec todo others fuel hi k
  unfold ensureCooked
  mvcgen [hadv, hloop]
  case vc1 p h => exact ⟨_, h.1, h.2, le_rfl⟩
  case vc2 p h =>
    obtain ⟨_, h, hf⟩ := h
    exact ⟨_, ⟨h.inv, h.frame, le_rfl⟩, Nat.lt_succ_self _, Or.inl hf⟩
  case vc3 p =>
    rintro ⟨_, h, hnil⟩
    exact ⟨h.inv, h.frame, hnil⟩

/-- Taking a row off the front delivers the next row of the split. -/
theorem takeRow_spec (row : ℕ × β) (rest : List (ℕ × β)) (ht : todo i = row :: rest) :
    src.Pumps (fun p => src.PipeInv todo p ∧ (p.lanes i).cooked ≠ [] ∧
        ∀ j, j ≠ i → others j → (p.lanes j).cooked ≠ []) (src.takeRow i)
      fun r p => r = some row ∧ src.PipeInv (Function.update todo i rest) p ∧
        ∀ j, j ≠ i → others j → (p.lanes j).cooked ≠ [] := by
  have hadv := triple_exists fun fuel =>
    src.advance_spec (Function.update todo i rest) others fuel hi
  unfold takeRow setLane
  mvcgen [hadv]
  case vc1 p h lane hnil => exact absurd hnil h.2.1
  case vc2 p h lane row' rest' hc _ =>
    obtain ⟨h, -, hframe⟩ := h
    obtain ⟨todo', ht', hlane⟩ := (h.lanes i).pop hc
    obtain ⟨rfl, rfl⟩ : row' = row ∧ todo' = rest := by simpa [ht'] using ht
    refine ⟨_, h.update hi rfl (forall_mem_cons.2 ⟨hlane.bounded, h.safe⟩) hlane rfl, ?_,
      le_rfl⟩
    intro j hj hrdy
    show (Function.update p.lanes i _ j).cooked ≠ []
    simpa [hj] using hframe j hj hrdy
  case vc3 q hq lane row' rest' hc _ _ p h =>
    obtain ⟨todo', ht', -⟩ := (hq.1.lanes i).pop hc
    obtain ⟨_, h, -⟩ := h
    refine ⟨?_, h.inv, h.frame⟩
    rw [ht'] at ht
    exact congrArg some (List.cons.inj ht).1

end Specs

/-! ### Any run of the pumps -/

/-- The calls the consumer makes of the pipeline. -/
inductive Call
  | fillIo (i : ℕ)
  | ensureCooked (i : ℕ)
  | takeRow (i : ℕ)

/-- The split a call is about. -/
def Call.split : Call → ℕ
  | .fillIo i => i
  | .ensureCooked i => i
  | .takeRow i => i

variable (src)

/-- A run of calls, with the rows it takes and the splits they come from. -/
def calls : List Call → PumpM α β ε (List (ℕ × ℕ × β))
  | [] => pure []
  | .fillIo i :: cs => do
    src.fillIo i
    calls cs
  | .ensureCooked i :: cs => do
    src.ensureCooked i
    calls cs
  | .takeRow i :: cs => do
    let row ← src.takeRow i
    let rows ← calls cs
    return (row.map fun row => (i, row)).toList ++ rows

/-- The rows of a run that come from split `i`. -/
def rowsOf (i : ℕ) (rows : List (ℕ × ℕ × β)) : List (ℕ × β) :=
  (rows.filter fun row => row.1 = i).map Prod.snd

variable {src}

theorem rowsOf_append (i : ℕ) (xs ys : List (ℕ × ℕ × β)) :
    rowsOf i (xs ++ ys) = rowsOf i xs ++ rowsOf i ys := by
  simp [rowsOf]

variable (src) in
theorem pipeInv_init :
    src.PipeInv src.accepted src.init := by
  have hbdd : src.Bounded (Lane.empty : Lane α β) := by
    refine ⟨by simp [Lane.empty], fun d _ => by simp [Lane.empty]⟩
  refine ⟨fun i => ?_, ?_, ?_, fun i _ => rfl⟩
  · refine ⟨by simp [ahead, init, Lane.empty, accepted], hbdd, by simp [init, Lane.empty],
      ?_, ?_, ?_⟩
      <;> simp [init, Lane.empty]
  · intro lane hlane
    obtain rfl : lane = Lane.empty := by simpa [init] using hlane
    exact hbdd
  · simp [running, init, Lane.running, Lane.empty]

variable (src) in
theorem takeRow_step (todo : ℕ → List (ℕ × β)) (hi : i < src.n) :
    src.Pumps (src.PipeInv todo) (src.takeRow i)
      fun r p => ∃ todo', src.PipeInv todo' p ∧
        ∀ j, todo j = rowsOf j (r.map fun row => (i, row)).toList ++ todo' j := by
  refine triple_iff.2 fun p h => ?_
  cases hc : (p.lanes i).cooked with
  | nil =>
    have hrun : src.takeRow i p = .ok none p := by
      simp [takeRow, hc]
    rw [hrun]
    refine ⟨fun r q hq => ?_, fun e q hq => (by cases hq)⟩
    cases hq
    exact ⟨todo, h, fun j => by simp [rowsOf]⟩
  | cons row rest =>
    obtain ⟨todo', ht, -⟩ := (h.lanes i).pop hc
    have hs := triple_iff.1
      (src.takeRow_spec todo (fun _ => False) hi row todo' ht) p
      ⟨h, by simp [hc], fun _ _ hf => hf.elim⟩
    refine ⟨fun r q hq => ?_, hs.2⟩
    obtain ⟨rfl, hinv, -⟩ := hs.1 r q hq
    refine ⟨_, hinv, fun j => ?_⟩
    by_cases hj : j = i
    · subst hj; simp [rowsOf, ht]
    · simp [rowsOf, hj, Ne.symm hj]

variable (src) in
theorem calls_spec {cs : List Call} (hcs : ∀ c ∈ cs, c.split < src.n)
    (todo : ℕ → List (ℕ × β)) :
    src.Pumps (src.PipeInv todo) (src.calls cs)
      fun rows p => ∃ todo', src.PipeInv todo' p ∧ ∀ j, todo j = rowsOf j rows ++ todo' j := by
  induction cs generalizing todo with
  | nil =>
    unfold calls
    mvcgen
    rename_i p h
    exact ⟨todo, h, fun j => by simp [rowsOf]⟩
  | cons c cs ih =>
    have hr := ih fun c hc => hcs c (mem_cons_of_mem _ hc)
    cases c with
    | fillIo i =>
      have hi : i < src.n := hcs _ mem_cons_self
      have hfill := triple_exists fun fuel =>
        src.fillIo_spec todo (fun _ => False) fuel hi
      have hr := hr todo
      unfold calls
      mvcgen [hfill, hr]
      case vc1 p h => exact ⟨_, h, fun _ _ hf => hf.elim, le_rfl⟩
      case vc2 p h => exact h.choose_spec.1.inv
    | ensureCooked i =>
      have hi : i < src.n := hcs _ mem_cons_self
      have hens := src.ensureCooked_spec todo (fun _ => False) hi
      have hr := hr todo
      unfold calls
      mvcgen [hens, hr]
      case vc1 p h => exact ⟨h, fun _ _ hf => hf.elim⟩
      case vc2 p h => exact h.1
    | takeRow i =>
      have hi : i < src.n := hcs _ mem_cons_self
      unfold calls
      -- what is left after the row is known only once the row has been taken
      refine triple_bind (src.takeRow_step todo hi) fun r p h => ?_
      obtain ⟨todo', hinv, ht⟩ := h
      refine ⟨_, hinv, ?_⟩
      have hr := hr todo'
      mvcgen [hr]
      rename_i h
      obtain ⟨todo'', hinv'', ht''⟩ := h
      refine ⟨todo'', hinv'', fun j => ?_⟩
      rw [ht, ht'', rowsOf_append, append_assoc]

/-- **Schedule independence of the pipeline.**  Whatever the consumer calls and in whatever order
the pools complete the futures: the rows taken from a split are those the transform makes of it,
each once, in permutation order; when `_ensure_cooked` leaves the queue of a split empty, the
split is exhausted and they are all of them; and both queue bounds hold at every moment, also when
a call raises, which it does only for a failed read, for an exception of the transform that the
policy does not skip and for a transform that does not return one row for each row. -/
theorem calls_schedule_independent (src : Source α β ε) {cs : List Call}
    (hcs : ∀ c ∈ cs, c.split < src.n) :
    (∀ i, ((src.accepted i).map Prod.fst).Sublist
      (List.range' (src.initialPositions i) (src.rows i).length)) ∧
    (∀ rows p, src.calls cs src.init = .ok rows p →
      src.Safe p ∧
      (∀ i, rowsOf i rows <+: src.accepted i) ∧
      ∀ i < src.n, ∀ q, src.ensureCooked i p = .ok () q → (q.lanes i).cooked = [] →
        src.Exhausted i (q.lanes i) ∧ rowsOf i rows = src.accepted i) ∧
    ∀ e p, src.calls cs src.init = .error e p → src.Safe p ∧ src.Justified e := by
  have hs := triple_iff.1 (src.calls_spec hcs _) src.init src.pipeInv_init
  refine ⟨src.accepted_positions, fun rows p hrun => ?_, hs.2⟩
  obtain ⟨todo, hinv, ht⟩ := hs.1 rows p hrun
  refine ⟨hinv.safe, fun i => ⟨todo i, (ht i).symm⟩, fun i hi q hq hnil => ?_⟩
  obtain ⟨hinv', -, hemp⟩ := ok_of_triple
    (src.ensureCooked_spec todo (fun _ => False) hi) ⟨hinv, fun _ _ hf => hf.elim⟩ hq
  refine ⟨hemp hnil, ?_⟩
  rw [ht i, (hinv'.lanes i).todo_eq_nil (hemp hnil), append_nil]

/-- Three rows in batches of two.  The transform rejects the row `2`, and no future is seen done
before the consumer waits for it. -/
def demo : Source ℕ ℕ Unit where
  n := 1
  rows := fun _ => [1, 2, 3]
  initialPositions := fun _ => 0
  finalTransform := fun batch => if 2 ∈ batch then .error () else .ok batch
  onTransformError := .skip
  readError := fun _ _ => none
  limits := tightLimits
  schedule := fun _ => []

/-- The calls of an iteration over `demo`. -/
def demoCalls : List Call :=
  [.fillIo 0, .ensureCooked 0, .takeRow 0, .ensureCooked 0, .takeRow 0]

theorem calls_demo : ∃ p, demo.calls demoCalls demo.init = .ok [(0, 0, 1), (0, 2, 3)] p ∧
    demo.Safe p ∧ rowsOf 0 [(0, 0, 1), (0, 2, 3)] <+: demo.accepted 0 := by
  obtain ⟨p, hp⟩ := EStateM.Result.exists_of_value?
    (show (demo.calls demoCalls demo.init).value? = some [(0, 0, 1), (0, 2, 3)] by
      decide +kernel)
  obtain ⟨hsafe, hr, -⟩ := (demo.calls_schedule_independent
    (show ∀ c ∈ demoCalls, c.split < demo.n by decide)).2.1 _ _ hp
  exact ⟨p, hp, hsafe, hr 0⟩

end Source

end Streaming

end LanceDB
