import LanceDB.Base.Lists
import LanceDB.Base.Threads

/-!
# Inserting in parallel

Every partition of the input writes its rows on its own and leaves a transaction in a list that all
partitions share.  Nobody coordinates them: the partition whose transaction is the last one takes
the list, merges the transactions and commits them.

* `mergeTransactions`, `machine` : the source, with a partition as a thread.
* `mergeTransactions_perm` — what the merged transaction holds.
* `Effect`, `effect_of_step` — what a step can do.
* `Phase`, `Inv.fires` — the transactions are in the list, or with the partition that took it, or
  committed.
* `insert_all_or_nothing` — the result.
* `exists_settled` — partitions that have written come to an end.
-/

namespace LanceDB

open List

namespace Insert

/-! ### Transactions -/

/-- A fragment that was written: the rows it holds, and what `Fragment::num_rows` tells of them. -/
structure Fragment where
  id : ℕ
  rows : ℕ
  numRows : Option ℕ
  deriving DecidableEq

/-- `Operation`, with the operations that hold no new rows as one. -/
inductive Operation
  | append (fragments : List Fragment)
  | overwrite (fragments : List Fragment)
  | other
  deriving DecidableEq

/-- `Transaction`. -/
structure Transaction where
  operation : Operation
  deriving DecidableEq

/-- The errors of a partition. -/
inductive InsertError
  | input
  | invalidInput (message : String)
  | write
  | commit
  | panic (message : String)
  deriving DecidableEq

/-- `operation_fragments`. -/
def operationFragments : Operation → List Fragment
  | .append fragments => fragments
  | .overwrite fragments => fragments
  | .other => []

/-- `count_rows_from_operation`. -/
def countRowsFromOperation (operation : Operation) : ℕ :=
  ((operationFragments operation).map fun f => f.numRows.getD 0).sum

/-- The fragments of a transaction are added to the first one, by `operation_fragments_mut`. -/
def extendFragments (first txn : Transaction) : Except InsertError Transaction :=
  match first.operation with
  | .append fragments => .ok ⟨.append (fragments ++ operationFragments txn.operation)⟩
  | .overwrite fragments => .ok ⟨.overwrite (fragments ++ operationFragments txn.operation)⟩
  | .other => .error (.panic "Unsupported operation type for getting mutable fragments")

/-- `merge_transactions`. -/
def mergeTransactions (transactions : List Transaction) : Except InsertError (Option Transaction) :=
  match transactions.getLast? with
  | none => .ok none
  | some first => do
    let merged ← transactions.dropLast.foldlM extendFragments first
    return some merged

/-! ### Partitions -/

/-- A batch of the input: its columns, with `none` for a null. -/
structure Batch where
  columns : List (String × List (Option ℕ))
  numRows : ℕ

/-- `ensure_batch_writes_no_computed_values`. -/
def ensureBatchWritesNoComputedValues (declared : List String) (batch : Batch) :
    Except InsertError Unit :=
  declared.forM fun name =>
    match batch.columns.lookup name with
    | none => .ok ()
    | some column =>
      if column.count none ≠ column.length then
        .error (.invalidInput <| s!"column '{name}' is computed; its values come from refresh " ++
          "and cannot be written directly")
      else
        .ok ()

/-- A partition in `InsertExec::execute`.  The transaction is kept to tell what was written. -/
inductive Partition
  /-- The input is read and written; so many rows so far. -/
  | reading (rows : ℕ)
  | written (txn : Transaction)
  /-- The list of transactions was complete, and was taken. -/
  | taken (txn : Transaction) (transactions : List Transaction)
  | committing (txn merged : Transaction)
  /-- The number of rows was returned. -/
  | returned (txn : Transaction)
  | failed (e : InsertError)
  | commitFailed (txn : Transaction) (e : InsertError)

/-- What the partitions share, and the table. -/
structure Shared where
  /-- `partial_transactions`. -/
  partials : List Transaction
  /-- The transactions that `CommitBuilder` was given. -/
  attempts : List Transaction
  /-- Those of them that were committed. -/
  committed : List Transaction

inductive Action
  | batch (batch : Batch)
  | inputError
  | writeError
  | finish (operation : Operation)
  | push
  | merge
  | commitOk
  | commitError

/-- What `execute_uncommitted_stream` gives: the fragments hold the rows that were read, and tell
so. -/
def Operation.Wrote (rows : ℕ) (operation : Operation) : Prop :=
  operation ≠ .other ∧ ((operationFragments operation).map Fragment.rows).sum = rows ∧
    ∀ f ∈ operationFragments operation, f.numRows = some f.rows

instance (rows : ℕ) (operation : Operation) : Decidable (operation.Wrote rows) :=
  inferInstanceAs (Decidable (_ ∧ _))

/-- `InsertExec::execute` on one of `totalPartitions` partitions; `push` is what happens under the
lock of the list. -/
def machine (totalPartitions : ℕ) (declared : List String) :
    Machine Shared Partition Action Empty where
  step s t a := match t, a with
    | .reading rows, .batch batch =>
      match ensureBatchWritesNoComputedValues declared batch with
      | .ok () => some (s, .reading (rows + batch.numRows), none)
      | .error e => some (s, .failed e, none)
    | .reading _, .inputError => some (s, .failed .input, none)
    | .reading _, .writeError => some (s, .failed .write, none)
    | .reading rows, .finish operation =>
      if operation.Wrote rows then some (s, .written ⟨operation⟩, none) else none
    | .written txn, .push =>
      let txns := s.partials ++ [txn]
      if txns.length = totalPartitions then
        some ({ s with partials := [] }, .taken txn txns, none)
      else
        some ({ s with partials := txns }, .returned txn, none)
    | .taken txn txns, .merge =>
      match mergeTransactions txns with
      | .ok none => some (s, .returned txn, none)
      | .ok (some merged) =>
        some ({ s with attempts := s.attempts ++ [merged] }, .committing txn merged, none)
      | .error e => some (s, .commitFailed txn e, none)
    | .committing txn merged, .commitOk =>
      some ({ s with committed := s.committed ++ [merged] }, .returned txn, none)
    | .committing txn _, .commitError => some (s, .commitFailed txn .commit, none)
    | _, _ => none

/-- The start of an insert. -/
def start : Machine.Config Shared Partition := ⟨⟨[], [], []⟩, fun _ => .reading 0⟩

/-- Only the partitions of the plan run. -/
def within (totalPartitions : ℕ) : Machine.Condition Shared Partition Action :=
  fun _ i _ => i < totalPartitions

/-! ### Merging -/

theorem extendFragments_spec {first : Transaction} (hfst : first.operation ≠ .other)
    (txn : Transaction) :
    ∃ merged, extendFragments first txn = .ok merged ∧ merged.operation ≠ .other ∧
      operationFragments merged.operation =
        operationFragments first.operation ++ operationFragments txn.operation := by
  obtain ⟨operation⟩ := first
  cases operation with
  | append | overwrite => exact ⟨_, rfl, by simp, rfl⟩
  | other => exact absurd rfl hfst

theorem foldlM_extendFragments {first : Transaction} (hfst : first.operation ≠ .other)
    (txns : List Transaction) :
    ∃ merged, txns.foldlM extendFragments first = .ok merged ∧ merged.operation ≠ .other ∧
      operationFragments merged.operation = operationFragments first.operation ++
        txns.flatMap fun txn => operationFragments txn.operation := by
  induction txns generalizing first with
  | nil => exact ⟨first, rfl, hfst, by simp⟩
  | cons txn txns ih =>
    obtain ⟨merged, hmgd, hother, hfrs⟩ := extendFragments_spec hfst txn
    obtain ⟨all, hall, hoth', hfrs'⟩ := ih hother
    refine ⟨all, ?_, hoth', ?_⟩
    · rw [foldlM_cons, hmgd]
      exact hall
    · rw [hfrs', hfrs, flatMap_cons, append_assoc]

/-- **Merging** loses no fragment and repeats none. -/
theorem mergeTransactions_perm {txns : List Transaction} (hne : txns ≠ [])
    (hwr : ∀ txn ∈ txns, txn.operation ≠ .other) :
    ∃ merged, mergeTransactions txns = .ok (some merged) ∧
      (operationFragments merged.operation).Perm
        (txns.flatMap fun txn => operationFragments txn.operation) := by
  obtain ⟨merged, hmgd, -, hfrs⟩ := foldlM_extendFragments
    (hwr _ (getLast_mem hne)) txns.dropLast
  refine ⟨merged, ?_, ?_⟩
  · rw [mergeTransactions, getLast?_eq_some_getLast hne]
    exact Except.bind_eq_ok.2 ⟨merged, hmgd, rfl⟩
  · rw [hfrs]
    refine perm_append_comm.trans (List.Perm.of_eq ?_)
    conv_rhs => rw [← dropLast_append_getLast hne]
    rw [flatMap_append, flatMap_singleton]

/-! ### Steps -/

/-- The transaction of a partition that has pushed it. -/
def Partition.pushed : Partition → Option Transaction
  | .taken txn _ | .committing txn _ | .returned txn | .commitFailed txn _ => some txn
  | .reading _ | .written _ | .failed _ => none

/-- The transaction of a partition that has written it. -/
def Partition.wrote : Partition → Option Transaction
  | .written txn => some txn
  | t => t.pushed

/-- A partition that neither took the list nor commits. -/
def Partition.Idle (t : Partition) : Prop :=
  (∀ txn txns, t ≠ .taken txn txns) ∧ ∀ txn merged, t ≠ .committing txn merged

/-- What a step of a partition does. -/
inductive Effect (totalPartitions : ℕ) : Shared → Partition → Shared → Partition → Prop
  /-- The input is read and written, or fails. -/
  | input {s : Shared} {t t' : Partition} (hbefore : t.wrote = none)
      (hafter : t'.wrote = none ∨ ∃ txn rows, t' = .written txn ∧ txn.operation.Wrote rows) :
      Effect totalPartitions s t s t'
  | pushMore {s : Shared} {txn : Transaction}
      (hmore : s.partials.length + 1 ≠ totalPartitions) :
      Effect totalPartitions s (.written txn) { s with partials := s.partials ++ [txn] }
        (.returned txn)
  | pushLast {s : Shared} {txn : Transaction}
      (hlast : s.partials.length + 1 = totalPartitions) :
      Effect totalPartitions s (.written txn) { s with partials := [] }
        (.taken txn (s.partials ++ [txn]))
  | attempt {s : Shared} {txn merged : Transaction} {txns : List Transaction}
      (hmerge : mergeTransactions txns = .ok (some merged)) :
      Effect totalPartitions s (.taken txn txns) { s with attempts := s.attempts ++ [merged] }
        (.committing txn merged)
  | noMerge {s : Shared} {txn : Transaction} {txns : List Transaction} {t' : Partition}
      (hmerge : ∀ merged, mergeTransactions txns ≠ .ok (some merged)) :
      Effect totalPartitions s (.taken txn txns) s t'
  | commit {s : Shared} {txn merged : Transaction} :
      Effect totalPartitions s (.committing txn merged)
        { s with committed := s.committed ++ [merged] } (.returned txn)
  | commitError {s : Shared} {txn merged : Transaction} :
      Effect totalPartitions s (.committing txn merged) s (.commitFailed txn .commit)

variable {t : Partition} {total i : ℕ} {c c' : Machine.Config Shared Partition}
  {declared : List String} {o : Option Empty}

theorem effect_of_step {s s' : Shared} {t' : Partition} {a : Action}
    (h : (machine total declared).step s t a = some (s', t', o)) :
    Effect total s t s' t' := by
  simp only [machine] at h
  split at h
  · split at h <;> cases h
    · exact .input rfl (.inl rfl)
    · exact .input rfl (.inl rfl)
  · cases h
    exact .input rfl (.inl rfl)
  · cases h
    exact .input rfl (.inl rfl)
  · split_ifs at h with hwr
    cases h
    exact .input rfl (.inr ⟨_, _, rfl, hwr⟩)
  · rw [length_append, length_singleton] at h
    split_ifs at h with hl
    · cases h
      exact .pushLast hl
    · cases h
      exact .pushMore hl
  · split at h <;> cases h
    · exact .noMerge fun merged hmrg => by simp_all
    · exact .attempt ‹_›
    · exact .noMerge fun merged hmrg => by simp_all
  · cases h
    exact .commit
  · cases h
    exact .commitError
  · cases h

/-! ### Where the transactions are -/

/-- The transactions that were pushed. -/
def gathered (totalPartitions : ℕ) (c : Machine.Config Shared Partition) : List Transaction :=
  (List.range totalPartitions).filterMap fun i => (c.thread i).pushed

/-- Where the transactions are. -/
inductive Phase (totalPartitions : ℕ) (c : Machine.Config Shared Partition) : Prop
  /-- They are in the list, which is not complete. -/
  | collecting (hpartials : c.shared.partials.Perm (gathered totalPartitions c))
      (hmore : c.shared.partials.length < totalPartitions) (hattempts : c.shared.attempts = [])
      (hcommitted : c.shared.committed = []) (hidle : ∀ i, (c.thread i).Idle)
  /-- A partition has taken them. -/
  | taken (i : ℕ) (txn : Transaction) (txns : List Transaction)
      (htaken : c.thread i = .taken txn txns) (htxns : txns.Perm (gathered totalPartitions c))
      (hall : txns.length = totalPartitions) (hattempts : c.shared.attempts = [])
      (hcommitted : c.shared.committed = []) (hidle : ∀ k, k ≠ i → (c.thread k).Idle)
  /-- They are merged, and the commit is attempted. -/
  | attempted (merged : Transaction) (hattempts : c.shared.attempts = [merged])
      (hfragments : (operationFragments merged.operation).Perm
        ((gathered totalPartitions c).flatMap fun txn => operationFragments txn.operation))
      (hall : (gathered totalPartitions c).length = totalPartitions)
      (hcommitted : ∀ txn ∈ c.shared.committed, txn = merged)
      (htaken : ∀ i txn txns, c.thread i ≠ .taken txn txns)
      (hcommitting : ∀ i txn merged', c.thread i = .committing txn merged' → merged' = merged)

/-- The invariant of an insert. -/
structure Inv (totalPartitions : ℕ) (c : Machine.Config Shared Partition) : Prop where
  /-- Only the partitions of the plan have written. -/
  inPlan : ∀ i txn, (c.thread i).wrote = some txn → i < totalPartitions
  wrote : ∀ i txn, (c.thread i).wrote = some txn → ∃ rows, txn.operation.Wrote rows
  phase : Phase totalPartitions c

theorem length_gathered_le (total : ℕ) (c : Machine.Config Shared Partition) :
    (gathered total c).length ≤ total := by
  refine (length_filterMap_le _ _).trans ?_
  rw [length_range]

theorem length_gathered_iff :
    (gathered total c).length = total ↔
      ∀ i < total, ((c.thread i).pushed).isSome := by
  conv_lhs => rhs; rw [← length_range (n := total)]
  rw [gathered, filterMap_length_eq_length]
  simp only [mem_range]

theorem idle_of_pushed_none (h : t.pushed = none) : t.Idle := by
  constructor
  · rintro txn txns rfl
    cases h
  · rintro txn merged rfl
    cases h

/-- A partition that may be there while `merged` is committed. -/
def Partition.At (merged : Transaction) (t : Partition) : Prop :=
  (∀ txn txns, t ≠ .taken txn txns) ∧ ∀ txn merged', t = .committing txn merged' → merged' = merged

theorem Partition.Idle.at (h : t.Idle) (merged : Transaction) : t.At merged :=
  ⟨h.1, fun txn merged' heq => absurd heq (h.2 txn merged')⟩

theorem pushed_of_wrote_none (h : t.wrote = none) : t.pushed = none := by
  cases t <;> simp_all [Partition.wrote, Partition.pushed]

variable {txn merged : Transaction}

theorem Partition.wrote_of_pushed (h : t.pushed = some txn) : t.wrote = some txn := by
  cases t <;> simp_all [Partition.wrote, Partition.pushed]

/-! ### One step -/

section Step

variable (hother : ∀ k, k ≠ i → c'.thread k = c.thread k)
include hother

theorem forall_thread {P : Partition → Prop} (hown : P (c'.thread i))
    (h : ∀ k, k ≠ i → P (c.thread k)) (k : ℕ) : P (c'.thread k) := by
  by_cases hk : k = i
  · rwa [hk]
  · rw [hother k hk]
    exact h k hk

theorem gathered_of_eq (h : (c'.thread i).pushed = (c.thread i).pushed) :
    gathered total c' = gathered total c := by
  refine filterMap_congr fun k _ => ?_
  by_cases hk : k = i
  · rw [hk, h]
  · rw [hother k hk]

theorem gathered_of_push (hi : i < total) (hbef : (c.thread i).pushed = none)
    (haft : (c'.thread i).pushed = some txn) :
    (gathered total c').Perm (txn :: gathered total c) := by
  have hupdate : (fun k => (c'.thread k).pushed) =
      Function.update (fun k => (c.thread k).pushed) i (some txn) := by
    funext k
    by_cases hk : k = i
    · rw [hk, Function.update_self, haft]
    · rw [Function.update_of_ne hk, hother k hk]
  rw [gathered, hupdate]
  exact filterMap_update_perm txn nodup_range (mem_range.2 hi) hbef

theorem Phase.input (h : Phase total c) (hshared : c'.shared = c.shared)
    (hbef : (c.thread i).pushed = none) (haft : (c'.thread i).pushed = none) :
    Phase total c' := by
  have hgath : gathered total c' = gathered total c :=
    gathered_of_eq hother (haft.trans hbef.symm)
  have hi := idle_of_pushed_none haft
  cases h with
  | collecting hpts hmore hatt hc hoths =>
    rw [← hgath, ← hshared] at hpts
    rw [← hshared] at hmore hatt hc
    exact .collecting hpts hmore hatt hc
      (forall_thread hother hi fun k _ => hoths k)
  | taken j txn txns htk htxns hall hatt hc hoths =>
    have hne : j ≠ i := by
      rintro rfl
      rw [htk] at hbef
      cases hbef
    rw [← hgath] at htxns
    rw [← hshared] at hatt hc
    refine .taken j txn txns ((hother j hne).trans htk) htxns hall hatt hc ?_
    intro k hk
    by_cases hki : k = i
    · rwa [hki]
    · rw [hother k hki]
      exact hoths k hk
  | attempted merged hatt hfrs hall hc htk hcmtg =>
    rw [← hgath] at hfrs hall
    rw [← hshared] at hatt hc
    have hat := forall_thread (P := (·.At merged)) hother (hi.at merged)
      fun k _ => ⟨htk k, hcmtg k⟩
    exact .attempted merged hatt hfrs hall hc (fun k => (hat k).1)
      fun k => (hat k).2

omit hother in
theorem Phase.of_not_pushed (h : Phase total c) (hi : i < total)
    (hbef : (c.thread i).pushed = none) :
    c.shared.partials.Perm (gathered total c) ∧ c.shared.attempts = [] ∧
      c.shared.committed = [] ∧ ∀ k, (c.thread k).Idle := by
  have hlen : ¬ (gathered total c).length = total := by
    intro hall
    have hs := length_gathered_iff.1 hall i hi
    rw [hbef] at hs
    cases hs
  cases h with
  | collecting hpts hmore hatt hc hoths =>
    exact ⟨hpts, hatt, hc, hoths⟩
  | taken j txn txns htk htxns hall =>
    exact absurd (htxns.length_eq.symm.trans hall) hlen
  | attempted merged hatt hfrs hall => exact absurd hall hlen

theorem Phase.push (h : Phase total c) (hi : i < total)
    (hbef : (c.thread i).pushed = none) (haft : (c'.thread i).pushed = some txn)
    (hatt : c'.shared.attempts = c.shared.attempts)
    (hc : c'.shared.committed = c.shared.committed)
    (hpush : (c.shared.partials.length + 1 ≠ total ∧
    c'.shared.partials = c.shared.partials ++ [txn] ∧ (c'.thread i).Idle) ∨
    (c.shared.partials.length + 1 = total ∧
    c'.thread i = .taken txn (c.shared.partials ++ [txn]))) : Phase total c' := by
  obtain ⟨hpts, hn, hn', hidle⟩ := h.of_not_pushed hi hbef
  have hgath : (c.shared.partials ++ [txn]).Perm (gathered total c') :=
    perm_append_comm.trans ((hpts.cons txn).trans
      (gathered_of_push hother hi hbef haft).symm)
  rw [hn] at hatt
  rw [hn'] at hc
  rcases hpush with ⟨hmore, hlist, hown⟩ | ⟨hl, htk⟩
  · have hle := hgath.length_eq.le.trans (length_gathered_le total c')
    rw [length_append, length_singleton] at hle
    refine .collecting (by rwa [hlist]) ?_ hatt hc
      (forall_thread hother hown fun k _ => hidle k)
    rw [hlist, length_append, length_singleton]
    omega
  · refine .taken i txn _ htk hgath ?_ hatt hc fun k hk => ?_
    · rw [length_append, length_singleton, hl]
    · rw [hother k hk]
      exact hidle k

theorem Phase.attempt (h : Phase total c)
    (hwr : ∀ k txn, (c.thread k).pushed = some txn → txn.operation ≠ .other)
    (hpos : 0 < total) {txns : List Transaction}
    (hbef : c.thread i = .taken txn txns) :
    ∃ merged, mergeTransactions txns = .ok (some merged) ∧
      (c'.thread i = .committing txn merged → c'.shared.attempts = c.shared.attempts ++ [merged] →
        c'.shared.committed = c.shared.committed → Phase total c') := by
  cases h with
  | collecting hpts hmore hatt hc hoths =>
    exact absurd hbef ((hoths i).1 txn txns)
  | taken j txn' txns' htk htxns hall hatt hc hoths =>
    obtain rfl : i = j := by
      by_contra hne
      exact (hoths i hne).1 txn txns hbef
    rw [hbef] at htk
    cases htk
    have hne : txns ≠ [] := by
      rintro rfl
      simp at hall
      omega
    have hops : ∀ t ∈ txns, t.operation ≠ .other := by
      intro t ht
      obtain ⟨k, -, hk⟩ := mem_filterMap.1 (htxns.mem_iff.1 ht)
      exact hwr k t hk
    obtain ⟨merged, hmrg, hp⟩ := mergeTransactions_perm hne hops
    refine ⟨merged, hmrg, fun haft hatt' hc' => ?_⟩
    have hgath : gathered total c' = gathered total c :=
      gathered_of_eq hother (by rw [haft, hbef]; rfl)
    rw [hatt, nil_append] at hatt'
    rw [hc] at hc'
    have hown : (c'.thread i).At merged := by
      rw [haft]
      exact ⟨nofun, fun _ _ heq => by cases heq; rfl⟩
    have hat := forall_thread (P := (·.At merged)) hother hown fun k hk => (hoths k hk).at merged
    refine .attempted merged hatt' ?_ ?_ (by simp [hc']) (fun k => (hat k).1)
      fun k => (hat k).2
    · rw [hgath]
      exact hp.trans (htxns.flatMap_right _)
    · rw [hgath, ← htxns.length_eq, hall]
  | attempted merged hatt hfrs hall hc htk hcmtg =>
    exact absurd hbef (htk i txn txns)

theorem Phase.commit (h : Phase total c) (hbef : c.thread i = .committing txn merged)
    (haft : (c'.thread i).pushed = some txn) (hi : (c'.thread i).Idle)
    (hatt : c'.shared.attempts = c.shared.attempts)
    (hc : c'.shared.committed = c.shared.committed ∨
    c'.shared.committed = c.shared.committed ++ [merged]) : Phase total c' := by
  cases h with
  | collecting hpts hmore hatt hc hoths =>
    exact absurd hbef ((hoths i).2 txn merged)
  | taken j txn' txns' htk htxns hall hatt hc hoths =>
    by_cases hij : i = j
    · rw [← hij, hbef] at htk
      cases htk
    · exact absurd hbef ((hoths i hij).2 txn merged)
  | attempted merged' hatt' hfrs hall hc' htk hcmtg =>
    obtain rfl := hcmtg i txn merged hbef
    have hgath : gathered total c' = gathered total c :=
      gathered_of_eq hother (by rw [haft, hbef]; rfl)
    rw [← hgath] at hfrs hall
    have hat := forall_thread (P := (·.At merged)) hother (hi.at merged)
      fun k _ => ⟨htk k, hcmtg k⟩
    refine .attempted merged (hatt.trans hatt') hfrs hall ?_ (fun k => (hat k).1)
      fun k => (hat k).2
    rcases hc with hs | hmore
    · rwa [hs]
    · rw [hmore]
      exact forall_mem_append.2 ⟨hc', forall_mem_singleton.2 rfl⟩

end Step

/-- The invariant after a step of partition `i`, of which only that partition is left to see. -/
theorem Inv.of_own (h : Inv total c) (hi : i < total)
    (hother : ∀ k, k ≠ i → c'.thread k = c.thread k)
    (hown : ∀ txn, (c'.thread i).wrote = some txn → (c.thread i).wrote = some txn ∨
      ∃ rows, txn.operation.Wrote rows) (hph : Phase total c') :
    Inv total c' := by
  refine ⟨fun k txn hk => ?_, fun k txn hk => ?_, hph⟩
  · by_cases hki : k = i
    · rwa [hki]
    · rw [hother k hki] at hk
      exact h.inPlan k txn hk
  · by_cases hki : k = i
    · rw [hki] at hk
      rcases hown txn hk with hk | hk
      · exact h.wrote i txn hk
      · exact hk
    · rw [hother k hki] at hk
      exact h.wrote k txn hk

theorem Inv.fires (h : Inv total c)
    (hf : (machine total declared).Fires (within total) c i o c') :
    Inv total c' := by
  obtain ⟨a, hstep, hi, hother⟩ := hf.exists_step
  have hi : i < total := hi
  have heff := effect_of_step hstep
  have hops : ∀ k txn, (c.thread k).pushed = some txn → txn.operation ≠ .other := by
    intro k txn hk
    obtain ⟨rows, hwr⟩ := h.wrote k txn (Partition.wrote_of_pushed hk)
    exact hwr.1
  have hsame (hwr : (c'.thread i).wrote = (c.thread i).wrote) :
      Phase total c' → Inv total c' :=
    h.of_own hi hother fun txn htxn => .inl (hwr ▸ htxn)
  generalize hs : c.shared = s at heff
  generalize ht : c.thread i = t at heff
  generalize hs' : c'.shared = s' at heff
  generalize ht' : c'.thread i = t' at heff
  cases heff with
  | input hbef haft =>
    have hpushed : (c'.thread i).pushed = none := by
      rw [ht']
      rcases haft with haft | ⟨txn, rows, rfl, -⟩
      · exact pushed_of_wrote_none haft
      · rfl
    refine h.of_own hi hother ?_ (h.phase.input hother (hs'.trans hs.symm)
      (by rw [ht]; exact pushed_of_wrote_none hbef) hpushed)
    intro txn hwr
    rw [ht'] at hwr
    rcases haft with haft | ⟨txn', rows, rfl, hr⟩
    · rw [haft] at hwr
      cases hwr
    · cases hwr
      exact .inr ⟨rows, hr⟩
  | pushMore hmore =>
    subst hs
    refine hsame (by rw [ht, ht']; rfl) (h.phase.push hother hi (by rw [ht]; rfl)
      (by rw [ht']; rfl) (by rw [hs']) (by rw [hs']) (.inl ⟨hmore, by rw [hs'], ?_⟩))
    rw [ht']
    exact ⟨nofun, nofun⟩
  | pushLast hl =>
    subst hs
    exact hsame (by rw [ht, ht']; rfl) (h.phase.push hother hi (by rw [ht]; rfl)
      (by rw [ht']; rfl) (by rw [hs']) (by rw [hs']) (.inr ⟨hl, ht'⟩))
  | attempt hmrg =>
    subst hs
    obtain ⟨merged, hmrg', hph⟩ := h.phase.attempt hother hops (Nat.zero_lt_of_lt hi) ht
    rw [hmrg] at hmrg'
    cases hmrg'
    exact hsame (by rw [ht, ht']; rfl) (hph ht' (by rw [hs']) (by rw [hs']))
  | noMerge hmrg =>
    obtain ⟨merged, hmrg', -⟩ := h.phase.attempt hother hops (Nat.zero_lt_of_lt hi) ht
    exact absurd hmrg' (hmrg merged)
  | commit =>
    subst hs
    refine hsame (by rw [ht, ht']; rfl) (h.phase.commit hother ht (by rw [ht']; rfl)
      ?_ (by rw [hs']) (.inr (by rw [hs'])))
    rw [ht']
    exact ⟨nofun, nofun⟩
  | commitError =>
    subst hs
    refine hsame (by rw [ht, ht']; rfl) (h.phase.commit hother ht (by rw [ht']; rfl)
      ?_ (by rw [hs']) (.inl (by rw [hs'])))
    rw [ht']
    exact ⟨nofun, nofun⟩

theorem inv_start (hpos : 0 < total) : Inv total start := by
  refine ⟨nofun, nofun, .collecting ?_ hpos rfl rfl fun _ => idle_of_pushed_none rfl⟩
  have hn : gathered total start = [] := filterMap_eq_nil_iff.2 fun _ _ => rfl
  rw [hn]
  exact List.Perm.refl []

/-! ### Coming to an end -/

/-- The partition has come to an end. -/
def Partition.Settled : Partition → Prop
  | .returned _ | .failed _ | .commitFailed _ _ => True
  | .reading _ | .written _ | .taken _ _ | .committing _ _ => False

/-- The steps a partition that has written has before it. -/
def Partition.remaining : Partition → ℕ
  | .written _ => 3
  | .taken _ _ => 2
  | .committing _ _ => 1
  | _ => 0

section Progress

variable (declared)

theorem exists_fires (hi : i < total) (hwr : (c.thread i).wrote = some txn)
    (hunsettled : ¬ (c.thread i).Settled) :
    ∃ c', (machine total declared).Fires (within total) c i none c' ∧
      (∀ k, k ≠ i → c'.thread k = c.thread k) ∧ (c'.thread i).wrote = some txn ∧
      (c'.thread i).remaining < (c.thread i).remaining := by
  suffices hs : ∃ a s' t', (machine total declared).step c.shared (c.thread i) a =
      some (s', t', none) ∧ t'.wrote = some txn ∧ t'.remaining < (c.thread i).remaining by
    obtain ⟨a, s', t', hs, hwr', hless⟩ := hs
    refine ⟨⟨s', Function.update c.thread i t'⟩, ⟨a, t', hs, hi, rfl⟩, ?_, ?_, ?_⟩
    · exact fun k hk => Function.update_of_ne hk _ _
    · simpa using hwr'
    · simpa using hless
  generalize ht : c.thread i = t at *
  cases t with
  | reading | failed => cases hwr
  | returned | commitFailed => exact absurd trivial hunsettled
  | committing txn' merged =>
    exact ⟨.commitOk, _, .returned txn', rfl, hwr, Nat.lt_succ_self 0⟩
  | taken txn' txns =>
    cases hmrg : mergeTransactions txns with
    | error e =>
      refine ⟨.merge, c.shared, .commitFailed txn' e, ?_, hwr, Nat.succ_pos 1⟩
      simp [machine, hmrg]
    | ok result =>
      cases result with
      | none =>
        refine ⟨.merge, c.shared, .returned txn', ?_, hwr, Nat.succ_pos 1⟩
        simp [machine, hmrg]
      | some merged =>
        refine ⟨.merge, { c.shared with attempts := c.shared.attempts ++ [merged] },
          .committing txn' merged, ?_, hwr, Nat.lt_succ_self 1⟩
        simp [machine, hmrg]
  | written txn' =>
    by_cases hl : (c.shared.partials ++ [txn']).length = total
    · exact ⟨.push, _, .taken txn' _, if_pos hl, hwr, Nat.lt_succ_self 2⟩
    · exact ⟨.push, _, .returned txn', if_neg hl, hwr, Nat.succ_pos 2⟩

theorem exists_settled_one (hi : i < total) (hwr : (c.thread i).wrote = some txn) :
    ∃ c', (machine total declared).Run (within total) c [] c' ∧
      (∀ k, k ≠ i → c'.thread k = c.thread k) ∧ (c'.thread i).wrote = some txn ∧
      (c'.thread i).Settled := by
  generalize hn : (c.thread i).remaining = n
  induction n using Nat.strong_induction_on generalizing c with
  | h n ih =>
    by_cases hset : (c.thread i).Settled
    · exact ⟨c, .refl c, fun _ _ => rfl, hwr, hset⟩
    · obtain ⟨c₁, hf, hother, hwr₁, hless⟩ :=
        exists_fires declared hi hwr hset
      obtain ⟨c', hrun, hoth', hwr', hset'⟩ := ih _ (hn ▸ hless) hwr₁ rfl
      exact ⟨c', .silent hf hrun, fun k hk => (hoth' k hk).trans (hother k hk), hwr',
        hset'⟩

/-- **Partitions that have written come to an end.** -/
theorem exists_settled (hwr : ∀ i < total, ((c.thread i).wrote).isSome) :
    ∃ c', (machine total declared).Run (within total) c [] c' ∧
      ∀ i < total, ((c'.thread i).wrote).isSome ∧ (c'.thread i).Settled := by
  -- one partition after the other
  have hfst : ∀ n ≤ total, ∃ c',
      (machine total declared).Run (within total) c [] c' ∧
        (∀ i < total, ((c'.thread i).wrote).isSome) ∧
        ∀ i < n, (c'.thread i).Settled := by
    intro n
    induction n with
    | zero => exact fun _ => ⟨c, .refl c, hwr, nofun⟩
    | succ n ih =>
      intro hn
      obtain ⟨c₁, hrun, hwr₁, hset⟩ := ih (Nat.le_of_succ_le hn)
      obtain ⟨txn, htxn⟩ := Option.isSome_iff_exists.1 (hwr₁ n hn)
      obtain ⟨c', hrun', hother, hwr', hset'⟩ :=
        exists_settled_one declared hn htxn
      refine ⟨c', hrun.trans hrun', fun i hi => ?_, fun i hi => ?_⟩
      · by_cases hin : i = n
        · rw [hin, hwr']
          rfl
        · rw [hother i hin]
          exact hwr₁ i hi
      · by_cases hin : i = n
        · rwa [hin]
        · rw [hother i hin]
          exact hset i (by omega)
  obtain ⟨c', hrun, hwr', hset⟩ := hfst total (Nat.le_refl _)
  exact ⟨c', hrun, fun i hi => ⟨hwr' i hi, hset i hi⟩⟩

end Progress

/-! ### All or nothing -/

/-- The rows of the fragments of a transaction. -/
def Transaction.rows (txn : Transaction) : ℕ :=
  ((operationFragments txn.operation).map Fragment.rows).sum

theorem countRowsFromOperation_eq {rows : ℕ} (h : txn.operation.Wrote rows) :
    countRowsFromOperation txn.operation = txn.rows := by
  rw [countRowsFromOperation, Transaction.rows]
  refine congrArg List.sum (map_congr_left fun f hf => ?_)
  rw [h.2.2 f hf, Option.getD_some]

/-- The fragments of the transactions of all partitions. -/
def union (totalPartitions : ℕ) (txns : ℕ → Transaction) : List Fragment :=
  (List.range totalPartitions).flatMap fun i => operationFragments (txns i).operation

theorem gathered_eq_map {txns : ℕ → Transaction}
    (h : ∀ i < total, (c.thread i).pushed = some (txns i)) :
    gathered total c = (List.range total).map txns := by
  rw [gathered, ← filterMap_eq_map]
  exact filterMap_congr fun i hi => h i (mem_range.1 hi)

theorem exists_txns (h : ∀ i < total, ((c.thread i).pushed).isSome) :
    ∃ txns : ℕ → Transaction, ∀ i < total, (c.thread i).pushed = some (txns i) := by
  refine ⟨fun i => (c.thread i).pushed.getD ⟨.other⟩, fun i hi => ?_⟩
  obtain ⟨txn, htxn⟩ := Option.isSome_iff_exists.1 (h i hi)
  simp only [htxn, Option.getD_some]

theorem Phase.of_attempt (h : Phase total c) (hmem : merged ∈ c.shared.attempts) :
    c.shared.attempts = [merged] ∧ ∃ txns : ℕ → Transaction,
      (∀ i < total, (c.thread i).pushed = some (txns i)) ∧
        (operationFragments merged.operation).Perm (union total txns) := by
  cases h with
  | collecting _ _ hatt | taken _ _ _ _ _ _ hatt => simp [hatt] at hmem
  | attempted merged' hatt hfrs hall hc =>
    rw [hatt, mem_singleton] at hmem
    subst hmem
    obtain ⟨txns, htxns⟩ := exists_txns (length_gathered_iff.1 hall)
    rw [gathered_eq_map htxns, flatMap_map] at hfrs
    exact ⟨hatt, txns, htxns, hfrs⟩

theorem Phase.mem_attempts (h : Phase total c) (hmem : merged ∈ c.shared.committed) :
    merged ∈ c.shared.attempts := by
  cases h with
  | collecting _ _ _ hc | taken _ _ _ _ _ _ _ hc => simp [hc] at hmem
  | attempted merged' hatt hfrs hall hc =>
    rw [hatt, hc merged hmem]
    exact mem_singleton_self _

theorem Phase.of_settled (h : Phase total c)
    (hpushed : ∀ i < total, ((c.thread i).pushed).isSome)
    (hset : ∀ i txn txns, c.thread i ≠ .taken txn txns) :
    c.shared.attempts.length = 1 := by
  have hlen := length_gathered_iff.2 hpushed
  cases h with
  | collecting hpts hmore =>
    rw [hpts.length_eq, hlen] at hmore
    exact absurd hmore (Nat.lt_irrefl _)
  | taken i txn txns htk => exact absurd htk (hset i txn txns)
  | attempted merged hatt => rw [hatt, length_singleton]

theorem pushed_of_settled (h : t.Settled) (hwr : t.wrote.isSome) : t.pushed.isSome := by
  cases t <;> simp_all [Partition.Settled, Partition.wrote, Partition.pushed]

theorem wrote_of_settled (h : t.Settled) (hfail : ∀ e, t ≠ .failed e) : t.wrote.isSome := by
  cases t <;> simp_all [Partition.Settled, Partition.wrote, Partition.pushed]

theorem Inv.attempts_of_settled (h : Inv total c)
    (hset : ∀ i < total, ((c.thread i).wrote).isSome ∧ (c.thread i).Settled) :
    c.shared.attempts.length = 1 := by
  refine h.phase.of_settled (fun i hi => ?_) fun i txn txns htk => ?_
  · exact pushed_of_settled (hset i hi).2 (hset i hi).1
  · have hi : i < total := h.inPlan i txn (by rw [htk]; rfl)
    have := (hset i hi).2
    rw [htk] at this
    exact this

/-- **Inserting in parallel is all or nothing**, in every order of the steps of the partitions: at
most one commit is attempted, and it has the fragments of all partitions; none is attempted when a
partition fails; when all partitions write there is one; and what the partitions return adds up to
the rows that were committed. -/
theorem insert_all_or_nothing {totalPartitions : ℕ} (hpos : 1 ≤ totalPartitions)
    {declared : List String} {es : List (ℕ × Empty)} {c : Machine.Config Shared Partition}
    (h : (machine totalPartitions declared).Run (within totalPartitions) start es c) :
    c.shared.attempts.length ≤ 1 ∧
    (∀ merged ∈ c.shared.attempts, ∃ txns : ℕ → Transaction,
      (∀ i < totalPartitions, (c.thread i).wrote = some (txns i)) ∧
        (operationFragments merged.operation).Perm (union totalPartitions txns)) ∧
    ((∃ i < totalPartitions, ∃ e, c.thread i = .failed e) → c.shared.attempts = []) ∧
    ((∀ i < totalPartitions, (c.thread i).Settled ∧ ∀ e, c.thread i ≠ .failed e) →
      c.shared.attempts.length = 1) ∧
    ((∀ i < totalPartitions, ((c.thread i).wrote).isSome) → ∃ c',
      (machine totalPartitions declared).Run (within totalPartitions) c [] c' ∧
        (∀ i < totalPartitions, (c'.thread i).Settled) ∧ c'.shared.attempts.length = 1) ∧
    ∀ merged ∈ c.shared.committed, ∀ txns : ℕ → Transaction,
      (∀ i < totalPartitions, c.thread i = .returned (txns i)) →
        ((List.range totalPartitions).map fun i =>
          countRowsFromOperation (txns i).operation).sum = merged.rows := by
  have hkeeps : ∀ c i o c', (machine totalPartitions declared).Fires (within totalPartitions) c i
      o c' → Inv totalPartitions c → Inv totalPartitions c' :=
    fun _ _ _ _ hfi h => h.fires hfi
  have hinv : Inv totalPartitions c := h.invariant hkeeps (inv_start hpos)
  refine ⟨?_, fun merged hmem => ?_, ?_, fun hsettl => ?_, fun hwr => ?_, ?_⟩
  · cases hatt : c.shared.attempts with
    | nil => exact Nat.zero_le 1
    | cons merged attempts =>
      have hmem : merged ∈ c.shared.attempts := by
        rw [hatt]
        exact mem_cons_self
      rw [← hatt, (hinv.phase.of_attempt hmem).1, length_singleton]
  · obtain ⟨-, txns, htxns, hfrags⟩ := hinv.phase.of_attempt hmem
    exact ⟨txns, fun i hi => Partition.wrote_of_pushed (htxns i hi), hfrags⟩
  · rintro ⟨i, hi, e, hfail⟩
    exact (hinv.phase.of_not_pushed hi (by rw [hfail]; rfl)).2.1
  · exact hinv.attempts_of_settled fun i hi =>
      ⟨wrote_of_settled (hsettl i hi).1 (hsettl i hi).2, (hsettl i hi).1⟩
  · obtain ⟨c', hrun, hsettl⟩ := exists_settled declared hwr
    exact ⟨c', hrun, fun i hi => (hsettl i hi).2,
      (hrun.invariant hkeeps hinv).attempts_of_settled hsettl⟩
  · intro merged hmem txns hret
    obtain ⟨-, txns', htxns', hfrags⟩ := hinv.phase.of_attempt (hinv.phase.mem_attempts hmem)
    have hcnts : ∀ i ∈ List.range totalPartitions,
        countRowsFromOperation (txns i).operation = (txns' i).rows := by
      intro i hi
      have hi := mem_range.1 hi
      have hs := htxns' i hi
      rw [hret i hi] at hs
      rw [← Option.some.inj hs]
      obtain ⟨rows, hwr⟩ := hinv.wrote i (txns i) (by rw [hret i hi]; rfl)
      exact countRowsFromOperation_eq hwr
    rw [map_congr_left hcnts, Transaction.rows, (hfrags.map _).sum_eq, union,
      map_flatMap, flatMap_def, sum_flatten, map_map]
    rfl

/-- Two partitions: the second one finishes first, and the first one commits. -/
def demoSchedule : List (ℕ × Action) :=
  [(0, .batch ⟨[("id", [some 1, some 2])], 2⟩), (1, .batch ⟨[("id", [some 3])], 1⟩),
    (1, .finish (.append [⟨7, 1, some 1⟩])), (1, .push),
    (0, .finish (.append [⟨8, 2, some 2⟩])), (0, .push), (0, .merge), (0, .commitOk)]

/-- Where the schedule leads. -/
def demo : Machine.Config Shared Partition := (machine 2 ["score"]).after start demoSchedule

theorem insert_all_or_nothing_demo :
    demo.shared.committed = [⟨.append [⟨8, 2, some 2⟩, ⟨7, 1, some 1⟩]⟩] ∧
      demo.shared.attempts.length = 1 ∧
      countRowsFromOperation (.append [⟨8, 2, some 2⟩]) +
        countRowsFromOperation (.append [⟨7, 1, some 1⟩]) = 3 := by
  have hexec : (machine 2 ["score"]).exec (fun _ i _ => decide (i < 2)) start demoSchedule =
      some (demo, []) := rfl
  have hrun : (machine 2 ["score"]).Run (within 2) start [] demo :=
    Machine.run_of_exec (fun _ i _ h => (of_decide_eq_true h : i < 2)) hexec
  obtain ⟨-, -, -, hone, -, hr⟩ := insert_all_or_nothing (by decide) hrun
  have hends : demo.thread 0 = .returned ⟨.append [⟨8, 2, some 2⟩]⟩ ∧
      demo.thread 1 = .returned ⟨.append [⟨7, 1, some 1⟩]⟩ := ⟨rfl, rfl⟩
  have hcomm : demo.shared.committed = [⟨.append [⟨8, 2, some 2⟩, ⟨7, 1, some 1⟩]⟩] := rfl
  refine ⟨hcomm, hone fun i hi => ?_, ?_⟩
  · match i, hi with
    | 0, _ => exact ⟨by rw [hends.1]; trivial, by simp [hends.1]⟩
    | 1, _ => exact ⟨by rw [hends.2]; trivial, by simp [hends.2]⟩
  · have hsum := hr _ (by rw [hcomm]; exact mem_singleton_self _)
      (fun i => if i = 0 then ⟨.append [⟨8, 2, some 2⟩]⟩ else ⟨.append [⟨7, 1, some 1⟩]⟩) ?_
    · exact hsum
    · intro i hi
      match i, hi with
      | 0, _ => exact hends.1
      | 1, _ => exact hends.2

end Insert

end LanceDB
