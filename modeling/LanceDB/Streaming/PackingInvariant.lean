import LanceDB.Streaming.Packing
import LanceDB.Streaming.Progress

/-!
# The packed state only moves forward

Whatever the documents are and whichever reads fail: a packed generator that emits a block moves
its own splits forward and touches no other.  A split moves forward by a document or by a block,
so two states of a split with the same blocks emitted and positions consumed are the same state.

* `PackState.view` : what a checkpoint says about a split; `viewLe` : the order of progress.
* `PackReader.Advanced` : the invariant of the working state of a generator.
* `PackReader.take_progress` — it holds after any calls of `next`.
-/

open Std.Do EStateM

set_option mvcgen.warning false

namespace LanceDB

namespace Streaming

variable {α ε : Type}

/-! ### What a checkpoint says about a split -/

namespace PackState

/-- Blocks emitted, positions consumed and the partial block of a split. -/
def view (st : PackState) (split : ℕ) : ℕ × ℕ × Buffer :=
  (st.emitted split, st.consumed split, st.buffer split)

variable (st : PackState) {split split' : ℕ}

@[simp] theorem setDefault_view (split split' : ℕ) :
    (st.setDefault split).view split' = st.view split' := by
  by_cases h : split' = split
  · subst h; simp [view, setDefault, buffer]
  · simp [view, setDefault, buffer, h]

theorem addDocument_view (eosId : ℤ) (pos : ℕ) (tokens : List ℤ) :
    (st.addDocument eosId split pos tokens).view split' = if split' = split then
      (st.emitted split, pos + 1, (st.buffer split).push eosId tokens) else st.view split' := by
  by_cases h : split' = split
  · subst h; simp [view, addDocument, buffer]
  · simp [view, addDocument, buffer, h]

theorem emit_view (cfg : PackConfig) : (st.emit cfg split).2.view split' = if split' = split then
    (st.emitted split + 1, st.consumed split,
      ((st.buffer split).pad cfg.packLen cfg.padId).cut cfg.packLen) else st.view split' := by
  by_cases h : split' = split
  · subst h; simp [view, emit, buffer]
  · simp [view, emit, buffer, h]

end PackState

/-- The second of two views of a split is at least as far on as the first. -/
def viewLe (a b : ℕ × ℕ × Buffer) : Prop := a = b ∨ progressLt (a.1, a.2.1) (b.1, b.2.1)

theorem viewLe_refl (a : ℕ × ℕ × Buffer) : viewLe a a := Or.inl rfl

theorem viewLe_trans {a b c : ℕ × ℕ × Buffer} (hab : viewLe a b) (hbc : viewLe b c) :
    viewLe a c := by
  rcases hab with rfl | hab
  · exact hbc
  · rcases hbc with rfl | hbc
    · exact Or.inr hab
    · right
      simp only [progressLt] at hab hbc ⊢
      omega

/-! ### The packed state only moves forward -/

namespace PackReader

variable {rd : PackReader α ε} {st₀ : PackState}

/-- The working state of a generator that was opened on `st₀` and has reached `lo`: the rows ahead
of the pipeline lie behind the positions consumed, and the splits the generator does not own are
untouched. -/
structure Advanced (rd : PackReader α ε) (st₀ : PackState) (lo : ℕ → ℕ × ℕ × Buffer)
    (it : PackIter α) : Prop where
  behind : rd.src.Behind (fun i => it.work.consumed (rd.split i)) it.pipe
  reached : ∀ i < rd.src.n, viewLe (lo i) (it.work.view (rd.split i))
  frame : ∀ split, (∀ i < rd.src.n, rd.split i ≠ split) →
    it.work.view split = st₀.view split

/-- The generator is suspended at an owned split, and its working state is committed. -/
def Suspended (rd : PackReader α ε) (it : PackIter α) : Prop :=
  it.st = it.work ∧ match it.phase with
    | .finished => True
    | .start => 0 < rd.src.n
    | .cycle i => i < rd.src.n

/-- The generator has reached `lo` and emitted `y` blocks, of all owned splits. -/
def Counted (rd : PackReader α ε) (st₀ : PackState) (lo : ℕ → ℕ × ℕ × Buffer) (y : ℕ)
    (it : PackIter α) : Prop :=
  rd.Advanced st₀ lo it ∧ ∑ i ∈ Finset.range rd.src.n, it.work.emitted (rd.split i) = y

/-- The generator has come as far and its dataset has the state `s`. -/
abbrev CountedAt (rd : PackReader α ε) (st₀ : PackState) (lo : ℕ → ℕ × ℕ × Buffer) (y : ℕ)
    (s : PackState) (it : PackIter α) : Prop :=
  rd.Counted st₀ lo y it ∧ it.st = s

/-- The generator is suspended behind a block, if there was one. -/
abbrev Emitted (rd : PackReader α ε) (st₀ : PackState) (lo : ℕ → ℕ × ℕ × Buffer) (y : ℕ)
    (r : Option Block) (it : PackIter α) : Prop :=
  rd.Counted st₀ lo (y + r.toList.length) it ∧ rd.Suspended it

variable {lo : ℕ → ℕ × ℕ × Buffer} {y : ℕ} {it it' : PackIter α}

theorem Counted.setDefault (h : rd.Counted st₀ lo y it) (split : ℕ) :
    rd.Counted st₀ lo y { it with work := it.work.setDefault split } := by
  refine ⟨⟨h.1.behind, fun i hi => ?_, fun split' hfo => ?_⟩, h.2⟩
  · rw [PackState.setDefault_view]
    exact h.1.reached i hi
  · rw [PackState.setDefault_view]
    exact h.1.frame split' hfo

section Step

variable (rd st₀ lo y) (s : PackState)
  (hsplit : Increasing rd.src.n rd.split) {i : ℕ} (hi : i < rd.src.n)

include hi in
theorem ensureCooked_progress :
    Spec (rd.CountedAt st₀ lo y s) (packPump (rd.src.ensureCooked i))
      (fun _ => rd.CountedAt st₀ lo y s) fun _ it => it.st = s := by
  refine triple_iff.2 fun it ⟨⟨h, hy⟩, hs⟩ => ?_
  cases hq : rd.src.ensureCooked i it.pipe with
  | error e q => simpa [packPump, hq] using hs
  | ok u q =>
    have hbh := ok_of_triple (rd.src.ensureCooked_behind hi _) h.behind hq
    simpa [packPump, hq] using ⟨⟨⟨hbh, h.reached, h.frame⟩, hy⟩, hs⟩

include hsplit hi in
theorem takeRow_progress :
    Spec (rd.CountedAt st₀ lo y s) (packPump (rd.src.takeRow i))
      (fun r it => (match r with
        | none => rd.Counted st₀ lo y it
        | some (pos, tokens) => rd.Counted st₀ lo y
            { it with work := it.work.addDocument rd.cfg.eosId (rd.split i) pos tokens }) ∧
        it.st = s)
      fun _ it => it.st = s := by
  refine triple_iff.2 fun it ⟨⟨h, hy⟩, hs⟩ => ?_
  cases hq : rd.src.takeRow i it.pipe with
  | error e q => simpa [packPump, hq] using hs
  | ok row q =>
    refine ⟨fun r it' hrun => ?_, by simp [packPump, hq]⟩
    obtain ⟨rfl, rfl⟩ : row = r ∧ { it with pipe := q } = it' := by
      simpa [packPump, hq] using hrun
    have ht := ok_of_triple (rd.src.takeRow_behind hi _) h.behind hq
    refine ⟨?_, hs⟩
    cases row with
    | none => exact ⟨⟨ht, h.reached, h.frame⟩, hy⟩
    | some row =>
      obtain ⟨pos, tokens⟩ := row
      obtain ⟨hle, hbh⟩ := ht
      refine ⟨⟨hbh.congr fun j hj => ?_, fun j hj => ?_, fun split hfo => ?_⟩, hy⟩
      · by_cases hji : j = i
        · subst hji; simp [PackState.addDocument]
        · simp [PackState.addDocument, hji, hsplit.ne hj hi hji]
      · rw [PackState.addDocument_view]
        refine viewLe_trans (h.reached j hj) ?_
        by_cases hji : j = i
        · subst hji
          rw [if_pos rfl]
          exact Or.inr (Or.inr ⟨rfl, Nat.lt_succ_of_le hle⟩)
        · rw [if_neg (hsplit.ne hj hi hji)]
          exact viewLe_refl _
      · rw [PackState.addDocument_view, if_neg (hfo i hi).symm]
        exact h.frame split hfo

include hsplit hi in
theorem fillBlockLoop_progress (fuel : ℕ) :
    Spec (rd.CountedAt st₀ lo y s) (rd.fillBlockLoop i fuel) (fun _ => rd.CountedAt st₀ lo y s)
      fun _ it => it.st = s := by
  induction fuel with
  | zero =>
    unfold fillBlockLoop
    mvcgen
  | succ fuel ih =>
    have hens := ensureCooked_progress rd st₀ lo y s hi
    have ht := takeRow_progress rd st₀ lo y s hsplit hi
    unfold fillBlockLoop
    mvcgen [hens, ht, ih]

include hsplit in
theorem fillFrom_progress (k : ℕ) (hik : i + k = rd.src.n) :
    Spec (rd.CountedAt st₀ lo y s) (rd.fillFrom i k) (fun _ => rd.CountedAt st₀ lo y s)
      fun _ it => it.st = s := by
  induction k generalizing i with
  | zero =>
    unfold fillFrom
    mvcgen
  | succ k ih =>
    have hloop := fillBlockLoop_progress rd st₀ lo y s hsplit (i := i) (by omega)
    have hr := ih (i := i + 1) (by omega)
    unfold fillFrom fillBlock
    mvcgen [hloop, hr]
    case vc1 it h _ => exact ⟨h.1.setDefault _, h.2⟩

include hsplit hi in
theorem emitBlock_progress :
    Spec (rd.Counted st₀ lo y) (rd.emitBlock i) (rd.Emitted st₀ lo y) fun _ _ => False := by
  refine triple_iff.2 fun it ⟨h, hy⟩ => ⟨fun r it' hrun => ?_, by simp [emitBlock]⟩
  obtain ⟨rfl, rfl⟩ : _ = r ∧ _ = it' := by simpa [emitBlock] using hrun
  refine ⟨⟨⟨h.behind, fun j hj => ?_, fun split hfo => ?_⟩, ?_⟩, rfl, ?_⟩
  · rw [PackState.emit_view]
    refine viewLe_trans (h.reached j hj) ?_
    by_cases hji : j = i
    · subst hji
      rw [if_pos rfl]
      exact Or.inr (Or.inl (Nat.lt_succ_self _))
    · rw [if_neg (hsplit.ne hj hi hji)]
      exact viewLe_refl _
  · rw [PackState.emit_view, if_neg (hfo i hi).symm]
    exact h.frame split hfo
  · refine Eq.trans (Finset.sum_congr rfl fun j hj => ?_)
      ((sum_update_succ hi fun j => it.work.emitted (rd.split j)).trans (congrArg (· + 1) hy))
    have hne := hsplit.ne (Finset.mem_range.1 hj) hi
    by_cases hji : j = i
    · subst hji; simp [PackState.emit]
    · simp [PackState.emit, hji, hne hji]
  · by_cases hl : i + 1 = rd.src.n
    · simp only [hl, if_true]
      omega
    · simp only [hl, if_false]
      omega

include hsplit in
theorem startCycle_progress (hn : 0 < rd.src.n) :
    Spec (fun it => rd.CountedAt st₀ lo y s it ∧ it.st = it.work) rd.startCycle
      (rd.Emitted st₀ lo y) fun _ it => it.st = s := by
  have hf := fillFrom_progress rd st₀ lo y s hsplit rd.src.n (Nat.zero_add _)
  have hemit := emitBlock_progress rd st₀ lo y hsplit hn
  unfold startCycle
  mvcgen [hf, hemit]
  case vc4 it h _ _ =>
    exact ⟨⟨⟨h.1.1.1.behind, h.1.1.1.reached, h.1.1.1.frame⟩, h.1.1.2⟩, h.2, trivial⟩
  all_goals grind

include hsplit in
/-- **One call moves the packed state forward** by the block it emits and commits it; one that
raises leaves the committed state as it was. -/
theorem resume_progress :
    Spec (fun it => rd.CountedAt st₀ lo y s it ∧ rd.Suspended it) rd.resume
      (rd.Emitted st₀ lo y) fun _ it => it.st = s := by
  have hs := startCycle_progress rd st₀ lo y s hsplit
  have hemit := @emitBlock_progress _ _ rd st₀ lo y hsplit
  unfold resume
  mvcgen [hs, hemit]
  -- what is left: the place the generator is suspended at is an owned split
  all_goals grind [Suspended]

end Step

theorem next_progress (hsplit : Increasing rd.src.n rd.split) (hcntd : rd.Counted st₀ lo y it)
    (hsus : rd.Suspended it) :
    (∀ r it', rd.next it = .ok r it' → rd.Emitted st₀ lo y r it') ∧
    ∀ e it', rd.next it = .error e it' → it'.st = it.st := by
  obtain ⟨hok, herr⟩ := triple_iff.1 (resume_progress rd st₀ lo y it.st hsplit) it
    ⟨⟨hcntd, rfl⟩, hsus⟩
  cases h : rd.resume it <;> grind [next]

/-- **Any calls of `next` move the packed state forward**, by the blocks they emit. -/
theorem take_progress (hsplit : Increasing rd.src.n rd.split) (k : ℕ)
    (hcntd : rd.Counted st₀ lo y it) (hsus : rd.Suspended it) {r : List Block}
    (hrun : rd.take k it = .ok r it') :
    rd.Counted st₀ lo (y + r.length) it' ∧ rd.Suspended it' := by
  induction k generalizing it y r with
  | zero =>
    obtain ⟨rfl, rfl⟩ : [] = r ∧ it = it' := by simpa [take] using hrun
    exact ⟨hcntd, hsus⟩
  | succ k ih =>
    have hs := (next_progress hsplit hcntd hsus).1
    rw [take] at hrun
    split at hrun
    · cases hrun
    · rename_i it₁ hn
      obtain ⟨rfl, rfl⟩ : [] = r ∧ it₁ = it' := by simpa using hrun
      exact hs none it₁ hn
    · rename_i block it₁ hn
      obtain ⟨hcntd₁, hsus₁⟩ := hs (some block) it₁ hn
      split at hrun
      · cases hrun
      · rename_i blocks it₂ hr
        obtain ⟨rfl, rfl⟩ : block :: blocks = r ∧ it₂ = it' := by simpa using hrun
        rw [List.length_cons, Nat.add_comm blocks.length, ← Nat.add_assoc]
        exact ih hcntd₁ hsus₁ hr

theorem start_progress (tbl : SplitTable α (List ℤ) ε) (cfg : PackConfig) (mySplits : List ℕ)
    (schedule : ℕ → List Completion) (st : PackState) :
    let rd := make tbl cfg mySplits schedule st
    rd.Advanced st (fun i => st.view (rd.split i)) (rd.start st) ∧ rd.Suspended (rd.start st) := by
  intro rd
  obtain ⟨q, hq, hbh⟩ := rd.src.fillAllFrom_behind _ rd.src.n (Nat.zero_add _)
    rd.src.behind_init
  have hpipe : (rd.start st).pipe = q := by simp [start, hq]
  refine ⟨⟨?_, fun _ _ => viewLe_refl _, fun _ _ => rfl⟩, rfl, ?_⟩
  · rw [hpipe]
    exact hbh
  · by_cases hn : rd.src.n = 0
    · simp [start, hn]
    · simp only [start, hn, if_false]
      omega

end PackReader

end Streaming

end LanceDB
