import LanceDB.Streaming.Commit
import LanceDB.Streaming.Resume

/-!
# Merging the states of ranks

The state of a rank records its own splits exactly.  The splits of the other ranks it reports at
`_resume_offset` unless it has entries for them, and the merge takes the largest values, so it is
exact only while no rank reports more of a foreign split than the owner has yielded.

* `Reader.Rounds` : the rounds a generator has completed since a level start.
* `RankRun` : how the state of a rank comes about.
* `mergeStateDicts_ranks` — the merge of the states of all ranks.
* `mergeExact_iff` — when it is exact.
-/

open Std.Do EStateM

set_option mvcgen.warning false

namespace LanceDB

open List

namespace Streaming

variable {α β ε : Type}
variable {i split : ℕ}

/-! ### Completed rounds -/

namespace Reader

variable {rd : Reader α β ε} {it it' : Iter α β}
variable {c : ℕ}

/-- A generator that started with `c₀` samples of each of its splits has completed `c` rounds and
yielded the first `i` rows of the next one. -/
structure Rounds (rd : Reader α β ε) (c₀ c i : ℕ) (it : Iter α β) : Prop where
  lt : i < rd.src.n
  consumed : ∀ j < rd.src.n, it.localConsumed j = if j < i then c + 1 else c
  offset : rd.realWorker = false → it.st.resumeOffset = c₀ + c

theorem Rounds.withPipe {c₀ : ℕ} (h : rd.Rounds c₀ c i it) (q : Pipe α β) :
    rd.Rounds c₀ c i { it with pipe := q } :=
  ⟨h.lt, h.consumed, h.offset⟩

theorem Rounds.atPhase {c₀ : ℕ} (h : rd.Rounds c₀ c i it) (phase : Phase) :
    rd.Rounds c₀ c i (it.atPhase phase) :=
  ⟨h.lt, h.consumed, h.offset⟩

theorem leastProgress_eq {c₀ : ℕ} (hlevel : ∀ j < rd.src.n, rd.initialSamples j = c₀)
    {consumed : ℕ → ℕ} (hle : ∀ j < rd.src.n, c ≤ consumed j) (hi : i < rd.src.n)
    (heq : consumed i = c) : rd.leastProgress consumed = c₀ + c := by
  obtain ⟨hmin, j, hj, hmem⟩ := rd.leastProgress_spec (Nat.zero_lt_of_lt hi) consumed
  have h₁ := hmin i hi
  have h₂ := hle j hj
  rw [hlevel i hi, heq] at h₁
  rw [hlevel j hj] at hmem
  omega

theorem Rounds.of_stats {c₀ : ℕ} (hlevel : ∀ j < rd.src.n, rd.initialSamples j = c₀)
    (hi : i < rd.src.n)
    (hconsumed : ∀ j < rd.src.n, it.localConsumed j = if j < i then c + 1 else c) :
    rd.Rounds c₀ c i (if rd.realWorker then it
      else { it with st := { it.st with resumeOffset := rd.leastProgress it.localConsumed } }) := by
  have hlst : rd.leastProgress it.localConsumed = c₀ + c :=
    leastProgress_eq hlevel (fun j hj => by grind) hi (by grind)
  constructor <;> grind

theorem liftPump_rounds (rd : Reader α β ε) (c₀ c i : ℕ) {γ : Type} (m : PumpM α β ε γ) :
    Spec (rd.Rounds c₀ c i) (liftPump m) (fun _ => rd.Rounds c₀ c i) fun _ _ => True := by
  refine triple_iff.2 fun it h => ⟨fun r it' hrun => ?_, fun _ _ _ => trivial⟩
  cases hq : m it.pipe with
  | error e q => simp [liftPump, hq] at hrun
  | ok u q =>
    obtain ⟨-, rfl⟩ : u = r ∧ { it with pipe := q } = it' := by simpa [liftPump, hq] using hrun
    exact h.withPipe q

theorem ensureAllFrom_rounds (rd : Reader α β ε) (c₀ c i k j : ℕ) :
    Spec (rd.Rounds c₀ c i) (rd.ensureAllFrom j k) (fun _ => rd.Rounds c₀ c i)
      fun _ _ => True := by
  induction k generalizing j with
  | zero =>
    unfold ensureAllFrom
    mvcgen
  | succ k ih =>
    have hpump := liftPump_rounds rd c₀ c i (rd.src.ensureCooked j)
    unfold ensureAllFrom
    mvcgen [hpump, ih]

/-- The rounds after the outcome of a call: a row moves them on by one. -/
def RoundsAfter (rd : Reader α β ε) (c₀ y : ℕ) (it : Iter α β) : Option β → Prop
  | none => ∃ c i, rd.Rounds c₀ c i it ∧ c * rd.src.n + i = y
  | some _ => ∃ c i, rd.Rounds c₀ c i it ∧ c * rd.src.n + i = y + 1 ∧ it.phase = .cycle i

section Step

variable {c₀ : ℕ} (hlevel : ∀ j < rd.src.n, rd.initialSamples j = c₀)
include hlevel

theorem cycleRow_rounds (c i : ℕ) :
    Spec (rd.Rounds c₀ c i) (rd.cycleRow i)
      (fun r it => rd.RoundsAfter c₀ (c * rd.src.n + i) it r) fun _ _ => True := by
  have hpump := liftPump_rounds rd c₀ c i (rd.src.takeRow i)
  unfold cycleRow yieldRow updateProgressStats suspend
  mvcgen [hpump]
  case vc2 h _ _ _ _ =>
    exact ⟨c, i, (Rounds.of_stats hlevel h.lt h.consumed).atPhase _, rfl⟩
  case vc3 h _ _ _ => exact ⟨c, i, h.atPhase _, rfl⟩
  case vc4 h _ _ hl _ _ =>
    refine ⟨c + 1, 0, (Rounds.of_stats hlevel (by omega) fun j hj => ?_).atPhase _, ?_, rfl⟩
    · grind [h.consumed, h.lt, Function.update_apply]
    · grind
  case vc5 h _ _ _ _ =>
    refine ⟨c, i + 1, ⟨?_, fun j hj => ?_, h.offset⟩, rfl, rfl⟩
    · grind [h.lt]
    · show Function.update _ i _ j = _
      grind [h.consumed, h.lt, Function.update_apply]

/-- **One call of `next`**, at a place of a round or at the end. -/
theorem Rounds.next (h : rd.Rounds c₀ c i it) (hph : it.phase = .cycle i) {row : Option β}
    (hrun : rd.next it = .ok row it') : rd.RoundsAfter c₀ (c * rd.src.n + i) it' row := by
  have hens := ensureAllFrom_rounds rd c₀ c 0 rd.src.n 0
  have hrow := cycleRow_rounds hlevel c
  have hresume : Spec (· = it) rd.resume
      (fun r x => rd.RoundsAfter c₀ (c * rd.src.n + i) x r) fun _ _ => True := by
    unfold resume startCycle suspend
    mvcgen [hens, hrow]
    all_goals grind [RoundsAfter, Rounds.atPhase]
  cases h : rd.resume it <;> grind [Reader.next, ok_of_triple hresume rfl]

/-- **Calls of `next`.** -/
theorem Rounds.take (k : ℕ) (h : rd.Rounds c₀ c i it) (hph : it.phase = .cycle i) {rows : List β}
    {ended : Bool} (hrun : rd.take k it = .ok (rows, ended) it') :
    ∃ c' i', rd.Rounds c₀ c' i' it' ∧ c' * rd.src.n + i' = c * rd.src.n + i + rows.length := by
  induction k generalizing it c i rows ended with
  | zero =>
    obtain ⟨⟨rfl, -⟩, rfl⟩ : ([] = rows ∧ false = ended) ∧ it = it' := by
      simpa [Reader.take] using hrun
    exact ⟨c, i, h, rfl⟩
  | succ k ih =>
    rw [Reader.take] at hrun
    split at hrun
    · cases hrun
    · rename_i it₁ hn
      obtain ⟨⟨rfl, -⟩, rfl⟩ : ([] = rows ∧ true = ended) ∧ it₁ = it' := by simpa using hrun
      exact h.next hlevel hph hn
    · rename_i row it₁ hn
      obtain ⟨c₁, i₁, h₁, hsum, hph₁⟩ := h.next hlevel hph hn
      split at hrun
      · cases hrun
      · rename_i rows' ended' it₂ hr
        obtain ⟨⟨rfl, -⟩, rfl⟩ : (row :: rows' = rows ∧ ended' = ended) ∧ it₂ = it' := by
          simpa using hrun
        obtain ⟨c₂, i₂, h₂, hsum₂⟩ := ih h₁ hph₁ hr
        refine ⟨c₂, i₂, h₂, ?_⟩
        rw [hsum₂, hsum, length_cons]
        omega

end Step

end Reader

/-! ### The states of ranks -/

/-- The counters all ranks of a run start from: fresh ones, or those of a checkpoint (one merged
from the states of an earlier run, or an old one, with a number for all splits or a number for each
of them). -/
inductive RowState.Start (tbl : SplitTable α β ε) (cfg : Config) : RowState → Prop
  | fresh : Start tbl cfg .fresh
  | load {states : List (Config × RowState)} {state : StateDict} {st : RowState} :
      (∀ x ∈ states, x.2.Reachable tbl) → mergeStateDicts (snapshots states) = .ok state →
      loadStateDict cfg state = .ok st → Start tbl cfg st
  | loadUniform {state : StateDict} {st : RowState} {count : ℕ} :
      state.samplesConsumedPerSplit = .uniform count → state.positionsConsumedPerSplit = none →
      loadStateDict cfg state = .ok st → Start tbl cfg st
  | loadCounts {state : StateDict} {st : RowState} {counts : List ℕ} :
      state.samplesConsumedPerSplit = .perSplit counts → counts.length = cfg.numSplits →
      state.positionsConsumedPerSplit = none → loadStateDict cfg state = .ok st →
      Start tbl cfg st

/-- There is an entry for every split. -/
def RowState.Explicit (cfg : Config) (st : RowState) : Prop :=
  ∀ split < cfg.numSplits, (st.resumeSamples split).isSome

/-- There is no entry for any split. -/
def RowState.Bare (st : RowState) : Prop :=
  ∀ split, st.resumeSamples split = none ∧ st.resumePositions split = none

/-- How a rank gets from the counters `st₀` of the start to the counters `st`: it iterates its
dataset itself and has yielded `some y` samples, or it commits what the workers of a loader
deliver. -/
inductive RankRun (tbl : SplitTable α β ε) (cfg : Config) (st₀ : RowState) :
    Option ℕ → RowState → Prop
  | inProcess {schedule : ℕ → List Completion} {k : ℕ} {rows : List β} {ended : Bool}
      {st : RowState} :
      (Dataset.mk tbl cfg none false).iterate st₀ schedule k = .ok (rows, ended, st) →
      RankRun tbl cfg st₀ (some rows.length) st
  | loader {numWorkers : ℕ} {workers : Fin numWorkers → LoaderWorker}
      {deliveries : List (Fin numWorkers)} {requireUniform : Bool} {st : RowState} :
      (∀ w : Fin numWorkers,
        cfg.resolveMySplits (some ⟨w, numWorkers⟩) = .ok (workers w).mySplits) →
      Deliveries.deliver (rowCommit workers tbl cfg st₀ requireUniform) (fun _ => 0) st₀
        deliveries = .ok st →
      RankRun tbl cfg st₀ none st

variable {tbl : SplitTable α β ε} {cfg : Config} {st₀ st : RowState}

theorem RowState.Start.sound (h : st₀.Start tbl cfg) : st₀.Sound := by
  have hreach : st₀.Reachable tbl := by
    cases h with
    | fresh => exact .fresh
    | load hsts hmrg hl => exact .load hsts hmrg hl
    | loadUniform _ hn hl | loadCounts _ _ hn hl => exact .loadOld hn hl
  exact hreach.sound

theorem RowState.Start.explicit_or_bare (h : st₀.Start tbl cfg) :
    st₀.Explicit cfg ∨ st₀.Bare := by
  cases h with
  | fresh => exact Or.inr fun _ => ⟨rfl, rfl⟩
  | @load states state _ _ hmrg hl =>
    left
    cases states with
    | nil => cases hmrg
    | cons x xs =>
      obtain ⟨-, rfl⟩ := (mergeStateDicts_snapshots x xs).1 hmrg
      rw [loadStateDict] at hl
      split_ifs at hl with hspls
      intro split hlt
      cases hl
      have hlt' : split < x.1.numSplits := by
        rw [show x.1.numSplits = cfg.numSplits from not_not.1 hspls]
        exact hlt
      simp [hlt']
  | loadUniform hs hn hl =>
    right
    rw [loadStateDict, hs, hn] at hl
    split_ifs at hl
    cases hl
    exact fun _ => ⟨rfl, rfl⟩
  | loadCounts hs hlen hn hl =>
    left
    rw [loadStateDict, hs] at hl
    split_ifs at hl
    cases hl
    intro split hlt
    simp [hlen, hlt]

/-- What the state of a rank says: its own splits have moved on from the start; the splits of
the others are where they were at the start, or at the rounds the rank has completed itself. -/
structure RankCounts (cfg : Config) (st₀ : RowState) (yielded : Option ℕ) (st : RowState) :
    Prop where
  own : ∀ split ∈ cfg.rankSplits, st₀.sampleCount split ≤ st.sampleCount split ∧
    st₀.startPos split ≤ st.startPos split ∧ st.sampleCount split ≤ st.startPos split
  foreign : ∀ split < cfg.numSplits, split ∉ cfg.rankSplits → st₀.Explicit cfg ∨ yielded = none →
    st.sampleCount split = st₀.sampleCount split ∧ st.startPos split = st₀.startPos split
  ahead : st₀.Bare → ∀ y, yielded = some y → ∀ split < cfg.numSplits, split ∉ cfg.rankSplits →
    st.sampleCount split = st₀.resumeOffset + y / cfg.splitsPerRank ∧
    st.startPos split = st₀.resumeOffset + y / cfg.splitsPerRank
  least : st₀.Bare → ∀ y, yielded = some y → 0 < cfg.numSplits →
    (∀ split ∈ cfg.rankSplits,
      st₀.resumeOffset + y / cfg.splitsPerRank ≤ st.sampleCount split) ∧
    ∃ split ∈ cfg.rankSplits, st.sampleCount split = st₀.resumeOffset + y / cfg.splitsPerRank

theorem RowState.counts_congr (hs : st.resumeSamples split = st₀.resumeSamples split)
    (hpos : st.resumePositions split = st₀.resumePositions split)
    (hsome : (st₀.resumeSamples split).isSome) :
    st.sampleCount split = st₀.sampleCount split ∧ st.startPos split = st₀.startPos split := by
  obtain ⟨c, hc⟩ := Option.isSome_iff_exists.1 hsome
  simp [RowState.sampleCount, RowState.startPos, hs, hpos, hc]

theorem RowState.counts_of_none (hs : st.resumeSamples split = none)
    (hpos : st.resumePositions split = none) :
    st.sampleCount split = st.resumeOffset ∧ st.startPos split = st.resumeOffset := by
  simp [RowState.sampleCount, RowState.startPos, hs, hpos]

theorem Reader.start_rounds (tbl : SplitTable α β ε) {mySplits : List ℕ} (hne : mySplits ≠ [])
    (realWorker : Bool) (schedule : ℕ → List Completion) {st : RowState} (hbare : st.Bare) :
    let rd := make tbl mySplits realWorker schedule st
    (∀ j < rd.src.n, rd.initialSamples j = st.resumeOffset) ∧
      rd.Rounds st.resumeOffset 0 0 (rd.start st) ∧ (rd.start st).phase = .cycle 0 := by
  intro rd
  have hn : 0 < rd.src.n := length_pos_iff.2 hne
  have hlevel : ∀ j < rd.src.n, rd.initialSamples j = st.resumeOffset := by
    intro j _
    show (st.resumeSamples _).getD st.resumeOffset = st.resumeOffset
    rw [(hbare _).1]
    rfl
  refine ⟨hlevel, ⟨hn, fun _ _ => rfl, fun _ => rfl⟩, ?_⟩
  have hmax : ((List.range rd.src.n).map rd.initialSamples).max?.getD 0 = st.resumeOffset := by
    have hmap : (List.range rd.src.n).map rd.initialSamples =
        List.replicate rd.src.n st.resumeOffset := by
      rw [eq_replicate_iff]
      refine ⟨by simp, fun b hb => ?_⟩
      obtain ⟨j, hj, rfl⟩ := mem_map.1 hb
      exact hlevel j (mem_range.1 hj)
    rw [hmap, max?_replicate_of_pos hn]
    rfl
  show rd.firstPhase = .cycle 0
  simp only [firstPhase, hmax]
  rw [if_neg (Nat.pos_iff_ne_zero.1 hn), if_pos hlevel]

section InProcess

variable {schedule : ℕ → List Completion} {k : ℕ} {rows : List β} {ended : Bool} {it' : Iter α β}
  (htake : (Reader.make tbl cfg.rankSplits false schedule st₀).take k
    ((Reader.make tbl cfg.rankSplits false schedule st₀).start st₀) = .ok (rows, ended) it')
include htake

theorem take_counters (hs : st₀.Sound) :
    ∃ pos, (Reader.make tbl cfg.rankSplits false schedule st₀).Counters st₀ it'.localConsumed pos
        it'.st ∧
      ∀ i < cfg.rankSplits.length, st₀.startPos (cfg.rankSplits.getD i 0) ≤ pos i := by
  obtain ⟨hadv, hph⟩ := Reader.start_progress tbl cfg.rankSplits false schedule hs
  have hasg : cfg.resolveMySplits none = .ok cfg.rankSplits := rfl
  obtain ⟨⟨⟨pos, -, hcs, hlo⟩, -⟩, -⟩ := Reader.take_progress
    (increasing_of_sorted (Config.resolveMySplits_sorted _ hasg).1) k ⟨hadv, rfl⟩ hph htake
  exact ⟨pos, hcs, fun i hi => (hlo i hi).2⟩

theorem take_rounds (hbare : st₀.Bare) (hpos : 0 < cfg.splitsPerRank) :
    ∃ i, (Reader.make tbl cfg.rankSplits false schedule st₀).Rounds st₀.resumeOffset
      (rows.length / cfg.splitsPerRank) i it' := by
  have hne : cfg.rankSplits ≠ [] := by
    rw [← length_pos_iff, cfg.length_rankSplits]
    exact hpos
  obtain ⟨hlevel, hstart, hcyc⟩ := Reader.start_rounds tbl hne false schedule hbare
  obtain ⟨c, i, hrnds, hsum⟩ := hstart.take hlevel k hcyc htake
  have hn : (Reader.make tbl cfg.rankSplits false schedule st₀).src.n = cfg.splitsPerRank :=
    cfg.length_rankSplits
  have hlt : i < cfg.splitsPerRank := hn ▸ hrnds.lt
  have hdiv : rows.length / cfg.splitsPerRank = c := by
    rw [Nat.div_eq_iff hpos]
    rw [hn, Nat.zero_mul, Nat.zero_add] at hsum
    omega
  rw [hdiv]
  exact ⟨i, hrnds⟩

/-- From a start without entries, an owned split is at the samples it has yielded: as long as it
has none, no round is complete. -/
theorem take_sampleCount (hsnd : st₀.Sound) (hbare : st₀.Bare) {j : ℕ}
    (hrnds : (Reader.make tbl cfg.rankSplits false schedule st₀).Rounds st₀.resumeOffset
    (rows.length / cfg.splitsPerRank) i it') (hj : j < cfg.rankSplits.length) :
    it'.st.sampleCount (cfg.rankSplits.getD j 0) = st₀.resumeOffset + it'.localConsumed j := by
  obtain ⟨pos, hcs, -⟩ := take_counters htake hsnd
  have hbare' := hbare (cfg.rankSplits.getD j 0)
  rcases Nat.eq_zero_or_pos (it'.localConsumed j) with hz | hpos
  · obtain ⟨-, hs, -⟩ := hcs.waiting j hj hz
    have hcnt := hrnds.consumed j hj
    have hoff := hrnds.offset rfl
    have hs' : it'.st.resumeSamples (cfg.rankSplits.getD j 0) = none :=
      hs.trans hbare'.1
    rw [RowState.sampleCount, hs', Option.getD_none, hoff]
    generalize rows.length / cfg.splitsPerRank = c at hcnt ⊢
    split_ifs at hcnt <;> omega
  · obtain ⟨hs, -⟩ := hcs.yielded j hj hpos
    have hinit : st₀.sampleCount (cfg.rankSplits.getD j 0) = st₀.resumeOffset := by
      rw [RowState.sampleCount, hbare'.1, Option.getD_none]
    have hs' : it'.st.resumeSamples (cfg.rankSplits.getD j 0) =
        some (st₀.sampleCount (cfg.rankSplits.getD j 0) + it'.localConsumed j) := hs
    rw [RowState.sampleCount, hs', Option.getD_some, hinit]

end InProcess

theorem RankCounts.of_iterate (hstart : st₀.Start tbl cfg) {schedule : ℕ → List Completion}
    {k : ℕ} {rows : List β} {ended : Bool}
    (hrun : (Dataset.mk tbl cfg none false).iterate st₀ schedule k = .ok (rows, ended, st)) :
    RankCounts cfg st₀ (some rows.length) st := by
  obtain ⟨it', htake, rfl⟩ : ∃ it', (Reader.make tbl cfg.rankSplits false schedule st₀).take k
      ((Reader.make tbl cfg.rankSplits false schedule st₀).start st₀) = .ok (rows, ended) it' ∧
      it'.st = st := by
    rw [Dataset.iterate] at hrun
    split at hrun
    · cases hrun
    · rename_i rd it hopen
      obtain ⟨mySplits, hasg, rfl, rfl⟩ := Reader.make_of_open hopen
      obtain rfl : cfg.rankSplits = mySplits := Except.ok.inj hasg
      split at hrun
      · cases hrun
      · rename_i rows' ended' it' htake
        simp only [Except.ok.injEq, Prod.mk.injEq] at hrun
        obtain ⟨rfl, rfl, rfl⟩ := hrun
        exact ⟨it', htake, rfl⟩
  have hs := hstart.sound
  obtain ⟨pos, hcs, hlo⟩ := take_counters htake hs
  refine ⟨fun split hspl => ?_, fun split hlt hfo hexpl => ?_,
    fun hbare y hy split hlt hfo => ?_, fun hbare y hy hlt => ?_⟩
  · have hlt := cfg.rankSplits_lt hspl
    have hle := (hcs.sound hs).sampleCount_le split
    obtain ⟨i, hi, rfl⟩ := exists_split_eq hspl
    rcases Nat.eq_zero_or_pos (it'.localConsumed i) with hz | hpos
    · obtain ⟨-, hsamp, hposn⟩ := hcs.waiting i hi hz
      rcases hstart.explicit_or_bare with hexpl | hbare
      · obtain ⟨hcnt, hpos⟩ := RowState.counts_congr hsamp hposn (hexpl _ hlt)
        exact ⟨hcnt.ge, hpos.ge, hle⟩
      · obtain ⟨_, hrnds⟩ := take_rounds htake hbare (cfg.splitsPerRank_pos hlt)
        have hmoved : st₀.resumeOffset ≤ it'.st.resumeOffset := by
          rw [hrnds.offset rfl]
          exact Nat.le_add_right _ _
        obtain ⟨hcnt₀, hpos₀⟩ := RowState.counts_of_none (hbare _).1 (hbare _).2
        obtain ⟨hcnt, hpos⟩ := RowState.counts_of_none (hsamp.trans (hbare _).1)
          (hposn.trans (hbare _).2)
        exact ⟨hcnt₀.le.trans (hmoved.trans hcnt.ge), hpos₀.le.trans (hmoved.trans hpos.ge),
          hle⟩
    · obtain ⟨hsamp, hposn⟩ := hcs.yielded i hi hpos
      have hcnt : it'.st.sampleCount (cfg.rankSplits.getD i 0) =
          st₀.sampleCount (cfg.rankSplits.getD i 0) + it'.localConsumed i :=
        congrArg (Option.getD · _) hsamp
      have hpos : it'.st.startPos (cfg.rankSplits.getD i 0) = pos i :=
        congrArg (Option.getD · _) hposn
      exact ⟨hcnt ▸ Nat.le_add_right _ _, hpos ▸ hlo i hi, hle⟩
  · refine RowState.counts_congr (hcs.frame.samples split (split_ne hfo))
      (hcs.frame.positions split (split_ne hfo)) ?_
    rcases hexpl with hexpl | hn
    · exact hexpl split hlt
    · cases hn
  · cases hy
    obtain ⟨hcnt, hpos⟩ := RowState.counts_of_none
      ((hcs.frame.samples split (split_ne hfo)).trans (hbare split).1)
      ((hcs.frame.positions split (split_ne hfo)).trans (hbare split).2)
    obtain ⟨i, hrnds⟩ := take_rounds htake hbare (cfg.splitsPerRank_pos hlt)
    rw [hcnt, hpos, hrnds.offset rfl]
    exact ⟨rfl, rfl⟩
  · cases hy
    obtain ⟨i, hrnds⟩ := take_rounds htake hbare (cfg.splitsPerRank_pos hlt)
    have hi : i < cfg.rankSplits.length := hrnds.lt
    refine ⟨fun split hspl => ?_, cfg.rankSplits.getD i 0, ?_, ?_⟩
    · obtain ⟨j, hj, rfl⟩ := exists_split_eq hspl
      rw [take_sampleCount htake hs hbare hrnds hj, hrnds.consumed j hj]
      split_ifs <;> omega
    · rw [getD_eq_getElem _ _ hi]
      exact getElem_mem hi
    · rw [take_sampleCount htake hs hbare hrnds hi, hrnds.consumed i hi,
        if_neg (Nat.lt_irrefl i)]

theorem RankCounts.of_deliver (hs : st₀.Sound) {numWorkers : ℕ}
    {workers : Fin numWorkers → LoaderWorker} {deliveries : List (Fin numWorkers)}
    {requireUniform : Bool}
    (hasg : ∀ w : Fin numWorkers,
      cfg.resolveMySplits (some ⟨w, numWorkers⟩) = .ok (workers w).mySplits)
    (hrun : Deliveries.deliver (rowCommit workers tbl cfg st₀ requireUniform) (fun _ => 0) st₀
      deliveries = .ok st) : RankCounts cfg st₀ none st := by
  have hdisj : DisjointSplits workers := by
    intro w w' hne
    exact cfg.worker_disjoint w.2 w'.2 (fun h => hne (Fin.ext h)) (hasg w) (hasg w')
  obtain ⟨st', hst', hown, hn⟩ :=
    deliver_row tbl cfg hs requireUniform hdisj deliveries
  obtain rfl : st' = st := Except.ok.inj (hst'.symm.trans hrun)
  refine ⟨fun split hspl => ?_, fun split hlt hfo _ => hn split hlt fun w hw => ?_,
    fun _ y hy => (by cases hy), fun _ y hy => (by cases hy)⟩
  · have hlt := cfg.rankSplits_lt hspl
    by_cases hwkr : ∃ w, split ∈ (workers w).mySplits
    · obtain ⟨w, hw⟩ := hwkr
      obtain ⟨hsamp, hpos⟩ := hown w split hw hlt
      have hmono := (workers w).rowAfter_mono tbl hs hw (Nat.zero_le (deliveries.count w))
      have hle := ((workers w).rowAfter_sound tbl hs (deliveries.count w)).sampleCount_le split
      rw [hsamp, hpos]
      exact ⟨hmono.1, hmono.2, hle⟩
    · obtain ⟨hsamp, hpos⟩ := hn split hlt fun w hw => hwkr ⟨w, hw⟩
      rw [hsamp, hpos]
      exact ⟨le_rfl, le_rfl, hs.sampleCount_le split⟩
  · exact hfo ((cfg.resolveMySplits_sublist (hasg w)).subset hw)

theorem RankRun.counts {yielded : Option ℕ} (h : RankRun tbl cfg st₀ yielded st)
    (hstart : st₀.Start tbl cfg) : RankCounts cfg st₀ yielded st := by
  cases h with
  | inProcess hrun => exact .of_iterate hstart hrun
  | loader hasg hrun => exact .of_deliver hstart.sound hasg hrun

/-! ### The merge -/

/-- The count and the position a state dict records for a split. -/
def StateDict.recorded (state : StateDict) (split : ℕ) : Option ℕ × Option ℕ :=
  (match state.samplesConsumedPerSplit with
    | .perSplit counts => counts[split]?
    | .uniform count => some count,
  state.positionsConsumedPerSplit.bind (·[split]?))

/-- **The merge of states of one run** succeeds, and records the largest count and the largest
position of every split. -/
theorem mergeStateDicts_isGreatest {states : List (Config × RowState)} (hne : states ≠ [])
    (hs : ∀ x ∈ states, cfg.SameRun x.1) :
    ∃ counts positions : ℕ → ℕ,
      mergeStateDicts (snapshots states) = .ok (.ofCounts cfg counts positions) ∧
      ∀ split, IsGreatest {c | ∃ x ∈ states, x.2.sampleCount split = c} (counts split) ∧
        IsGreatest {p | ∃ x ∈ states, x.2.startPos split = p} (positions split) := by
  obtain ⟨x, xs, rfl⟩ := exists_cons_of_ne_nil hne
  have hmax : ∀ f : Config × RowState → ℕ,
      IsGreatest {c | ∃ y ∈ x :: xs, f y = c} (xs.foldl (fun m y => max m (f y)) (f x)) := by
    intro f
    simpa using isGreatest_foldl_max f xs (f x)
  refine ⟨_, _, (mergeStateDicts_snapshots x xs).2 ⟨fun y hy => ?_, ?_⟩, fun split =>
    ⟨hmax fun y => y.2.sampleCount split, hmax fun y => y.2.startPos split⟩⟩
  · obtain ⟨h₁, h₂, h₃⟩ := hs x mem_cons_self
    obtain ⟨h₁', h₂', h₃'⟩ := hs y (mem_cons_of_mem _ hy)
    exact ⟨h₁'.trans h₁.symm, h₂'.trans h₂.symm, h₃'.trans h₃.symm⟩
  · obtain ⟨h₁, h₂, h₃⟩ := hs x mem_cons_self
    simp only [StateDict.ofCounts, mergedSnapshot, h₁, h₂, h₃]

theorem mergeStateDicts_ranks (cfg : Config) (st : Fin cfg.worldSize → RowState) :
    ∃ counts positions : ℕ → ℕ,
      mergeStateDicts (List.ofFn fun r => (st r).checkpointSnapshot (cfg.withRank r)) =
        .ok (.ofCounts cfg counts positions) ∧
      ∀ split, IsGreatest (Set.range fun r => (st r).sampleCount split) (counts split) ∧
        IsGreatest (Set.range fun r => (st r).startPos split) (positions split) := by
  set states := (List.finRange cfg.worldSize).map fun r => (cfg.withRank r, st r) with hsts
  have hlist : (List.ofFn fun r => (st r).checkpointSnapshot (cfg.withRank r)) =
      snapshots states := by
    rw [snapshots, hsts, map_map, ofFn_eq_map]
    rfl
  have hne : states ≠ [] := by
    rw [hsts, ← length_pos_iff, length_map, length_finRange]
    exact cfg.worldSize_pos
  have hs : ∀ x ∈ states, cfg.SameRun x.1 := by
    intro x hx
    obtain ⟨r, -, rfl⟩ := mem_map.1 hx
    exact ⟨rfl, rfl, rfl⟩
  have hrng : ∀ f : RowState → ℕ,
      {c | ∃ x ∈ states, f x.2 = c} = Set.range fun r => f (st r) := by
    intro f
    ext c
    simp [hsts]
  obtain ⟨counts, positions, hmrg, hmax⟩ := mergeStateDicts_isGreatest hne hs
  refine ⟨counts, positions, hlist ▸ hmrg, fun split => ?_⟩
  rw [← hrng fun st => st.sampleCount split, ← hrng fun st => st.startPos split]
  exact hmax split

theorem RowState.Start.withRank (h : st₀.Start tbl cfg) (r : Fin cfg.worldSize) :
    st₀.Start tbl (cfg.withRank r) := by
  cases h with
  | fresh => exact .fresh
  | load hsts hmrg hl => exact .load hsts hmrg hl
  | loadUniform hs hn hl => exact .loadUniform hs hn hl
  | loadCounts hs hlen hn hl => exact .loadCounts hs hlen hn hl

/-- The merge of the states either fails or records every split as its owner does. -/
def MergeExact (cfg : Config) (states : Fin cfg.worldSize → StateDict) : Prop :=
  (∃ e, mergeStateDicts (List.ofFn states) = .error e) ∨
    ∃ merged, mergeStateDicts (List.ofFn states) = .ok merged ∧
      ∀ r, ∀ split ∈ (cfg.withRank r).rankSplits,
        merged.recorded split = (states r).recorded split

/-- No rank is ahead of the owner of a split. -/
def OwnersLead (cfg : Config) (st : Fin cfg.worldSize → RowState) : Prop :=
  ∀ r, ∀ split ∈ (cfg.withRank r).rankSplits, ∀ q,
    (st q).sampleCount split ≤ (st r).sampleCount split ∧
    (st q).startPos split ≤ (st r).startPos split

/-- The merge is exact when no rank records more of a split than its owner. -/
theorem mergeExact_iff_le (cfg : Config) (st : Fin cfg.worldSize → RowState) :
    MergeExact cfg (fun r => (st r).checkpointSnapshot (cfg.withRank r)) ↔ OwnersLead cfg st := by
  obtain ⟨counts, positions, hmrg, hmax⟩ := mergeStateDicts_ranks cfg st
  have hrec : ∀ split < cfg.numSplits, (StateDict.ofCounts cfg counts positions).recorded
      split = (some (counts split), some (positions split)) := by
    intro split hlt
    simp [StateDict.recorded, StateDict.ofCounts, hlt]
  have hrank : ∀ r, ∀ split < cfg.numSplits,
      ((st r).checkpointSnapshot (cfg.withRank r)).recorded split =
        (some ((st r).sampleCount split), some ((st r).startPos split)) :=
    fun r split (hlt : split < (cfg.withRank r).numSplits) => by
      simp [StateDict.recorded, RowState.checkpointSnapshot, hlt]
  constructor
  · rintro (⟨e, he⟩ | ⟨merged, hmgd, hex⟩) r split hspl q
    · rw [hmrg] at he
      cases he
    · obtain rfl := Except.ok.inj (hmrg.symm.trans hmgd)
      have hlt : split < cfg.numSplits := (cfg.withRank r).rankSplits_lt hspl
      have hown := hex r split hspl
      simp only [hrec split hlt, hrank r split hlt, Prod.mk.injEq, Option.some.injEq] at hown
      obtain ⟨hcnts, hpos⟩ := hmax split
      rw [← hown.1, ← hown.2]
      exact ⟨hcnts.2 ⟨q, rfl⟩, hpos.2 ⟨q, rfl⟩⟩
  · intro hle
    refine Or.inr ⟨_, hmrg, fun r split hspl => ?_⟩
    have hlt : split < cfg.numSplits := (cfg.withRank r).rankSplits_lt hspl
    obtain ⟨⟨⟨q, hq⟩, hcnts⟩, ⟨q', hq'⟩, hpos⟩ := hmax split
    simp only [hrec split hlt, hrank r split hlt, Prod.mk.injEq, Option.some.injEq]
    refine ⟨le_antisymm ?_ (hcnts ⟨r, rfl⟩), le_antisymm ?_ (hpos ⟨r, rfl⟩)⟩
    · rw [← hq]
      exact (hle r split hspl q).1
    · rw [← hq']
      exact (hle r split hspl q').2

theorem stateDict_eq_snapshot {state : StateDict} (h : st.stateDict cfg = .ok state) :
    st.checkpointSnapshot cfg = state := by
  rw [RowState.stateDict] at h
  split_ifs at h
  exact Except.ok.inj h

section Exact

variable (hstart : st₀.Start tbl cfg) {yielded : Fin cfg.worldSize → Option ℕ}
  {st : Fin cfg.worldSize → RowState}
  (hrun : ∀ r, RankRun tbl (cfg.withRank r) st₀ (yielded r) (st r))
include hstart hrun

/-- No rank that iterates its dataset itself has completed more rounds than another has yielded
samples of one of its splits. -/
theorem le_owner_iff : OwnersLead cfg st ↔
    st₀.Explicit cfg ∨ ∀ q y, yielded q = some y → ∀ r, ∀ split ∈ (cfg.withRank r).rankSplits,
      st₀.resumeOffset + y / cfg.splitsPerRank ≤ (st r).sampleCount split := by
  have hcnts := fun r => (hrun r).counts (hstart.withRank r)
  constructor
  · intro hle
    rcases hstart.explicit_or_bare with hexpl | hbare
    · exact Or.inl hexpl
    · refine Or.inr fun q y hy r split hspl => ?_
      have hlt : split < cfg.numSplits := (cfg.withRank r).rankSplits_lt hspl
      by_cases hq : split ∈ (cfg.withRank q).rankSplits
      · refine (((hcnts q).least hbare y hy (Nat.zero_lt_of_lt hlt)).1 split hq).trans ?_
        exact (hle r split hspl q).1
      · exact ((hcnts q).ahead hbare y hy split hlt hq).1.ge.trans (hle r split hspl q).1
  · intro hc r split hspl q
    have hlt : split < cfg.numSplits := (cfg.withRank r).rankSplits_lt hspl
    obtain ⟨hown₁, hown₂, hown₃⟩ := (hcnts r).own split hspl
    by_cases hq : split ∈ (cfg.withRank q).rankSplits
    · obtain rfl : q = r := (cfg.existsUnique_rank hlt).unique hq hspl
      exact ⟨le_rfl, le_rfl⟩
    · -- a foreign entry is at the start, or at the rounds of the rank that reports it
      by_cases hfixed : st₀.Explicit (cfg.withRank q) ∨ yielded q = none
      · obtain ⟨hs, hpos⟩ := (hcnts q).foreign split hlt hq hfixed
        rw [hs, hpos]
        exact ⟨hown₁, hown₂⟩
      · obtain ⟨hnot, hsome⟩ := not_or.1 hfixed
        obtain ⟨y, hy⟩ := Option.ne_none_iff_exists'.1 hsome
        have hbare : st₀.Bare := hstart.explicit_or_bare.resolve_left hnot
        obtain ⟨hs, hpos⟩ := (hcnts q).ahead hbare y hy split hlt hq
        have hle := hc.resolve_left hnot q y hy r split hspl
        rw [hs, hpos]
        exact ⟨hle, hle.trans hown₃⟩

/-- If every rank iterates its dataset itself, from a start without entries, the ranks must have
completed the same number of rounds. -/
theorem le_owner_iff_lockstep (hbare : st₀.Bare) (hspls : 0 < cfg.numSplits)
    {y : Fin cfg.worldSize → ℕ} (hy : ∀ r, yielded r = some (y r)) :
    OwnersLead cfg st ↔ ∀ q r, y q / cfg.splitsPerRank = y r / cfg.splitsPerRank := by
  have hlst := fun r =>
    ((hrun r).counts (hstart.withRank r)).least hbare (y r) (hy r) hspls
  have hexpl : ¬ st₀.Explicit cfg := by
    intro h
    have := h 0 hspls
    rw [(hbare 0).1] at this
    cases this
  rw [le_owner_iff hstart hrun]
  constructor
  · rintro (h | h) q r
    · exact absurd h hexpl
    · have hle : ∀ q r, y q / cfg.splitsPerRank ≤ y r / cfg.splitsPerRank := by
        intro q r
        obtain ⟨-, split, hspl, heq⟩ := hlst r
        have := (h q (y q) (hy q) r split hspl).trans heq.le
        exact Nat.le_of_add_le_add_left this
      exact le_antisymm (hle q r) (hle r q)
  · intro h
    refine Or.inr fun q y' hy' r split hspl => ?_
    obtain rfl : y q = y' := Option.some.inj ((hy q).symm.trans hy')
    rw [h q r]
    exact (hlst r).1 split hspl

end Exact

/-- **When a merge is exact.**  All ranks of a run start from the same counters, each goes on by
itself, and the states are merged.  The merge fails or is exact if and only if the start had an
entry for every split, or no rank that iterates its dataset itself has completed more rounds than
another rank has yielded samples of one of its splits.  If no rank uses a loader and the start had
no entries, that means that all have completed the same number of rounds. -/
theorem mergeExact_iff {tbl : SplitTable α β ε} {cfg : Config} {st₀ : RowState}
    (hstart : st₀.Start tbl cfg) {yielded : Fin cfg.worldSize → Option ℕ}
    {st : Fin cfg.worldSize → RowState}
    (hrun : ∀ r, RankRun tbl (cfg.withRank r) st₀ (yielded r) (st r))
    {states : Fin cfg.worldSize → StateDict}
    (hstate : ∀ r, (st r).stateDict (cfg.withRank r) = .ok (states r)) :
    (MergeExact cfg states ↔
      st₀.Explicit cfg ∨ ∀ q y, yielded q = some y → ∀ r, ∀ split ∈ (cfg.withRank r).rankSplits,
        st₀.resumeOffset + y / cfg.splitsPerRank ≤ (st r).sampleCount split) ∧
    (st₀.Bare → 0 < cfg.numSplits → ∀ y : Fin cfg.worldSize → ℕ, (∀ r, yielded r = some (y r)) →
      (MergeExact cfg states ↔ ∀ q r, y q / cfg.splitsPerRank = y r / cfg.splitsPerRank)) := by
  obtain rfl : (fun r => (st r).checkpointSnapshot (cfg.withRank r)) = states := by
    funext r
    exact stateDict_eq_snapshot (hstate r)
  rw [mergeExact_iff_le]
  exact ⟨le_owner_iff hstart hrun, fun hbare hspls y hy =>
    le_owner_iff_lockstep hstart hrun hbare hspls hy⟩

theorem RankRun.of_evaluated {schedule : ℕ → List Completion} {k y : ℕ} {state : StateDict}
    (h : ((Dataset.mk tbl cfg none false).iterate st₀ schedule k).map
      (fun x => (x.1.length, x.2.2.stateDict cfg)) = .ok (y, .ok state)) :
    ∃ st, RankRun tbl cfg st₀ (some y) st ∧ st.stateDict cfg = .ok state := by
  cases hrun : (Dataset.mk tbl cfg none false).iterate st₀ schedule k with
  | error e =>
    rw [hrun] at h
    cases h
  | ok x =>
    obtain ⟨rows, ended, st⟩ := x
    rw [hrun] at h
    obtain ⟨rfl, hs⟩ : rows.length = y ∧ st.stateDict cfg = .ok state := by
      simpa [Except.map] using h
    exact ⟨st, .inProcess hrun, hs⟩

/-- Two splits of four rows. -/
def pairTable : SplitTable ℕ ℕ Unit where
  rows split := if split = 0 then [0, 1, 2, 3] else [4, 5, 6, 7]
  finalTransform := .ofRow some ()
  onTransformError := .raise
  readError _ _ := none
  limits := demoLimits

/-- Two ranks, with a split each. -/
def pairConfig : Config := ⟨2, 2, 0, 7, 0, by decide, Nat.two_pos⟩

/-- The state dict of a rank that reports `own` for its split and `foreign` for the other. -/
def pairState (r : Fin 2) (own foreign : ℕ) : StateDict :=
  let counts := if r = 0 then [own, foreign] else [foreign, own]
  ⟨7, 2, 0, .perSplit counts, some counts⟩

theorem pair_run {y : Fin 2 → ℕ}
    (h : ∀ r : Fin 2,
      ((Dataset.mk pairTable (pairConfig.withRank r) none false).iterate .fresh (fun _ => [])
        (y r)).map (fun x => (x.1.length, x.2.2.stateDict (pairConfig.withRank r))) =
          .ok (y r, .ok (pairState r (y r) (y r)))) :
    ∃ st : Fin 2 → RowState,
      (∀ r, RankRun pairTable (pairConfig.withRank r) .fresh (some (y r)) (st r)) ∧
      ∀ r, (st r).stateDict (pairConfig.withRank r) = .ok (pairState r (y r) (y r)) := by
  choose st hst using fun r => RankRun.of_evaluated (h r)
  exact ⟨st, fun r => (hst r).1, fun r => (hst r).2⟩

theorem mergeExact_demo :
    ∃ st : Fin 2 → RowState,
      (∀ r, RankRun pairTable (pairConfig.withRank r) .fresh (some 2) (st r)) ∧
      (∀ r, (st r).stateDict (pairConfig.withRank r) = .ok (pairState r 2 2)) ∧
      MergeExact pairConfig fun r => pairState r 2 2 := by
  obtain ⟨st, hrun, hsta⟩ := pair_run (y := fun _ => 2) (by decide +kernel)
  have hiff := (mergeExact_iff .fresh hrun hsta).2 (fun _ => ⟨rfl, rfl⟩) (by decide)
    (fun _ => 2) fun _ => rfl
  exact ⟨st, hrun, hsta, hiff.2 fun _ _ => rfl⟩

/-- **A rank that is ahead overtakes the others**: after three samples rank `0` reports three of the
split of rank `1`, which has yielded one, and the merge records three. -/
theorem merge_overtakes :
    ∃ st : Fin 2 → RowState,
      (∀ r, RankRun pairTable (pairConfig.withRank r) .fresh (some (3 - 2 * r)) (st r)) ∧
      (∀ r : Fin 2, (st r).stateDict (pairConfig.withRank r) =
        .ok (pairState r (3 - 2 * r) (3 - 2 * r))) ∧
      (1 ∈ (pairConfig.withRank (1 : Fin 2)).rankSplits) ∧
      (∃ merged, mergeStateDicts [pairState 0 3 3, pairState 1 1 1] = .ok merged ∧
        merged.recorded 1 = (some 3, some 3)) ∧
      (pairState 1 1 1).recorded 1 = (some 1, some 1) ∧
      ¬ MergeExact pairConfig fun r : Fin 2 => pairState r (3 - 2 * r) (3 - 2 * r) := by
  obtain ⟨st, hrun, hsta⟩ := pair_run (y := fun r => 3 - 2 * r) (by decide +kernel)
  refine ⟨st, hrun, hsta, by decide, ⟨_, rfl, by decide⟩, by decide, ?_⟩
  rintro (⟨e, he⟩ | ⟨merged, hmgd, hex⟩)
  · cases he
  · obtain rfl := Except.ok.inj hmgd
    have := hex (1 : Fin 2) 1 (by decide)
    revert this
    decide

end Streaming

end LanceDB
