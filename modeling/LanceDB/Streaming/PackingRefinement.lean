import LanceDB.Streaming.PackingInvariant
import LanceDB.Streaming.RowsRefinement

/-!
# Packed blocks are the blocks of the stream of a split

Whatever the buffers look like when a generator is opened: as long as the buffer of each split lies
where the blocks emitted and the positions consumed say (`Lawful`), the blocks the generator emits
are those of the stream of the documents of the split.

* `SplitTable.documents`, `blockAt` : the documents of a split, and the blocks of their stream.
* `Lawful` : the buffer of a split lies at its offset of the stream.
* `Lawful.emit` — a full buffer emits the next block of the stream.
* `PackReader.Sim` : a suspended generator has emitted a number of blocks.
* `PackReader.take_sim` — calls of `next` emit the next blocks, split by split.
-/

namespace LanceDB

open List Chunking

namespace Streaming

open Chunking (Window)

variable {α ε : Type}
variable {st : PackState}

/-! ### The law of a split -/

/-- The documents of a split. -/
def SplitTable.documents (tbl : SplitTable α (List ℤ) ε) (split : ℕ) : List (List ℤ) :=
  (tbl.accepted split 0).map (·.2)

/-- Block `e` of the stream of documents: its tokens, padded behind the end of the stream, and for
each place the number of documents that start behind the first place of the block up to it. -/
def blockAt (cfg : PackConfig) (docs : List (List ℤ)) (e : ℕ) : Block where
  inputIds := padTo cfg.packLen cfg.padId
    (((stream cfg.eosId docs).drop (e * cfg.packLen)).take cfg.packLen)
  docIds := (List.range cfg.packLen).map fun p => (starts 0 docs).countP fun s =>
    decide (e * cfg.packLen < s ∧ s ≤ e * cfg.packLen + p)

/-- What the state says about a split (blocks emitted, positions consumed, buffer) fits its
documents. -/
structure Lawful (cfg : PackConfig) (tbl : SplitTable α (List ℤ) ε) (split : ℕ)
    (v : ℕ × ℕ × Buffer) : Prop where
  window : Window.At cfg.eosId (tbl.documents split) (v.1 * cfg.packLen) v.2.2
    ((tbl.accepted split v.2.1).map (·.2))
  le : v.2.1 ≤ (tbl.rows split).length

/-- The buffer of a split holds a block, or the split is exhausted. -/
def Filled (cfg : PackConfig) (tbl : SplitTable α (List ℤ) ε) (split : ℕ) (v : ℕ × ℕ × Buffer) :
    Prop :=
  cfg.packLen ≤ v.2.2.tokens.length ∨ tbl.accepted split v.2.1 = []

section Law

variable {cfg : PackConfig} {tbl : SplitTable α (List ℤ) ε} {split : ℕ} {v : ℕ × ℕ × Buffer}

theorem lawful_fresh (cfg : PackConfig) (tbl : SplitTable α (List ℤ) ε) (split : ℕ) :
    Lawful cfg tbl split (PackState.fresh.view split) := by
  refine ⟨?_, Nat.zero_le _⟩
  show Window.At cfg.eosId (tbl.documents split) (0 * cfg.packLen) Window.empty _
  rw [Nat.zero_mul]
  exact Window.At.empty _ _

theorem Lawful.push (h : Lawful cfg tbl split v) {pos : ℕ} {tokens : List ℤ}
    {rest : List (ℕ × List ℤ)} (hn : tbl.accepted split v.2.1 = (pos, tokens) :: rest) :
    Lawful cfg tbl split (v.1, pos + 1, v.2.2.push cfg.eosId tokens) ∧
      rest = tbl.accepted split (pos + 1) := by
  obtain ⟨-, hlt, rfl⟩ := SplitTable.accepted_eq_cons hn
  refine ⟨⟨?_, hlt⟩, rfl⟩
  have hwindow := h.window
  rw [hn, map_cons] at hwindow
  exact hwindow.push

theorem docIds_eq {off : ℕ} {w : Buffer} {docs rest : List (List ℤ)}
    (h : Window.At cfg.eosId docs off w rest)
    (hf : cfg.packLen ≤ w.tokens.length ∨ rest = []) :
    docIds cfg.packLen w.starts = (List.range cfg.packLen).map fun p =>
      (starts 0 docs).countP fun s => decide (off < s ∧ s ≤ off + p) := by
  set ds := w.starts.filter fun s => decide (0 < s ∧ s < cfg.packLen) with hds
  have hlen : (docIds cfg.packLen w.starts).length = cfg.packLen := by
    rw [docIds, length_cumsum, length_map, length_range]
  refine ext_getElem? fun p => ?_
  by_cases hp : p < cfg.packLen
  · have ht : ((List.range cfg.packLen).map fun q => if q ∈ ds then 1 else 0).take (p + 1) =
        (List.range (p + 1)).map fun q => if q ∈ ds then 1 else 0 := by
      rw [← map_take, take_range, Nat.min_eq_left hp]
    have hcnt : ds.countP (· < p + 1) =
        w.starts.countP fun s => decide (0 < s ∧ s ≤ p) := by
      rw [hds, countP_filter]
      refine countP_congr fun s _ => ?_
      simp only [Bool.and_eq_true, decide_eq_true_eq]
      omega
    rw [docIds, getElem?_cumsum 0 _ (by simpa using hp), ht,
      sum_indicator (h.nodup_starts.filter _), hcnt, h.countP_starts hf hp,
      getElem?_map, getElem?_range hp]
    simp
  · rw [getElem?_eq_none (by rw [hlen]; omega), getElem?_eq_none (by simpa using hp)]

/-- **A filled buffer emits the next block of the stream.** -/
theorem Lawful.emit (h : Lawful cfg tbl split (st.view split))
    (hfill : Filled cfg tbl split (st.view split)) :
    (st.emit cfg split).1 = blockAt cfg (tbl.documents split) (st.emitted split) ∧
      Lawful cfg tbl split ((st.emit cfg split).2.view split) := by
  have hf : cfg.packLen ≤ (st.buffer split).tokens.length ∨
      (tbl.accepted split (st.consumed split)).map (·.2) = [] :=
    hfill.imp_right fun hnil => congrArg (List.map (·.2)) hnil
  have hwindow : Window.At cfg.eosId (tbl.documents split) (st.emitted split * cfg.packLen)
      (st.buffer split) ((tbl.accepted split (st.consumed split)).map (·.2)) := h.window
  have hids := docIds_eq hwindow hf
  refine ⟨?_, ?_⟩
  · show Block.mk _ _ = Block.mk _ _
    rw [hwindow.block_eq hf cfg.padId]
    congr 1
  · rw [PackState.emit_view, if_pos rfl, Window.cut_pad]
    refine ⟨?_, h.le⟩
    show Window.At _ _ ((st.emitted split + 1) * cfg.packLen) _ _
    rw [Nat.add_mul, Nat.one_mul]
    exact hwindow.cut hf

end Law

/-! ### Filling the buffers -/

namespace PackReader

variable {rd : PackReader α ε} {tbl : SplitTable α (List ℤ) ε} {it it' it'' : PackIter α} {i : ℕ}

/-- The pipeline delivers the documents behind the positions consumed, and the buffers of the
owned splits fit their documents. -/
structure Core (rd : PackReader α ε) (tbl : SplitTable α (List ℤ) ε) (it : PackIter α) : Prop where
  pipe : ∃ todo, rd.src.PipeInv todo it.pipe ∧
    ∀ i < rd.src.n, todo i = tbl.accepted (rd.split i) (it.work.consumed (rd.split i))
  lawful : ∀ i < rd.src.n, Lawful rd.cfg tbl (rd.split i) (it.work.view (rd.split i))

/-- What filling the buffer of owned split `i` leaves as it is. -/
structure Refilled (rd : PackReader α ε) (i : ℕ) (it it' : PackIter α) : Prop where
  st : it'.st = it.st
  phase : it'.phase = it.phase
  emitted : it'.work.emitted = it.work.emitted
  view : ∀ split, split ≠ rd.split i → it'.work.view split = it.work.view split

theorem Core.addDocument (h : rd.Core tbl it) (hsplit : Increasing rd.src.n rd.split)
    (hi : i < rd.src.n) {pos : ℕ} {tokens : List ℤ} {rest : List (ℕ × List ℤ)}
    (hn : tbl.accepted (rd.split i) (it.work.consumed (rd.split i)) = (pos, tokens) :: rest)
    {todo : ℕ → List (ℕ × List ℤ)} {q : Pipe α (List ℤ)}
    (ht : ∀ i < rd.src.n, todo i = tbl.accepted (rd.split i) (it.work.consumed (rd.split i)))
    (hq : rd.src.PipeInv (Function.update todo i rest) q) :
    rd.Core tbl { it with
      pipe := q
      work := it.work.addDocument rd.cfg.eosId (rd.split i) pos tokens } := by
  obtain ⟨hlawful, hr⟩ := (h.lawful i hi).push hn
  refine ⟨⟨_, hq, fun j hj => ?_⟩, fun j hj => ?_⟩
  · by_cases hji : j = i
    · subst hji
      simp [PackState.addDocument, hr]
    · simp [PackState.addDocument, hji, hsplit.ne hj hi hji, ht j hj]
  · show Lawful _ _ _ ((it.work.addDocument rd.cfg.eosId (rd.split i) pos tokens).view _)
    rw [PackState.addDocument_view]
    by_cases hji : j = i
    · subst hji
      rw [if_pos rfl]
      exact hlawful
    · rw [if_neg (hsplit.ne hj hi hji)]
      exact h.lawful j hj

section Fill

variable (hfine : rd.src.Unfailing) (hsplit : Increasing rd.src.n rd.split)
include hfine hsplit

/-- **The loop of `_fill_block`** stops with a full buffer or an exhausted split: every turn adds at
least a token. -/
theorem fillBlockLoop_ok (hi : i < rd.src.n) (fuel : ℕ) (h : rd.Core tbl it)
    (hfuel : rd.cfg.packLen ≤ (it.work.buffer (rd.split i)).tokens.length + fuel) :
    ∃ it', rd.fillBlockLoop i fuel it = .ok () it' ∧ rd.Core tbl it' ∧ rd.Refilled i it it' ∧
      Filled rd.cfg tbl (rd.split i) (it'.work.view (rd.split i)) := by
  induction fuel generalizing it with
  | zero => exact ⟨it, rfl, h, ⟨rfl, rfl, rfl, fun _ _ => rfl⟩, Or.inl hfuel⟩
  | succ fuel ih =>
    by_cases hfull : (it.work.buffer (rd.split i)).tokens.length < rd.cfg.packLen
    · obtain ⟨todo, hinv, ht⟩ := h.pipe
      obtain ⟨u, q, hq, hinv', -, hnil⟩ :=
        hfine.ok (rd.src.ensureCooked_spec todo (fun _ => False) hi) ⟨hinv, fun _ _ hf => hf.elim⟩
      by_cases hc : (q.lanes i).cooked = []
      · refine ⟨{ it with pipe := q }, ?_, ⟨⟨todo, hinv', ht⟩, h.lawful⟩,
          ⟨rfl, rfl, rfl, fun _ _ => rfl⟩, Or.inr ?_⟩
        · simp [fillBlockLoop, hfull, packPump, hq, hc]
        · exact (ht i hi).symm.trans ((hinv'.lanes i).todo_eq_nil (hnil hc))
      · obtain ⟨⟨pos, tokens⟩, rest, hn⟩ :=
          exists_cons_of_ne_nil (hinv'.todo_ne_nil hc)
        obtain ⟨r, q', hq', rfl, hinv'', -⟩ := hfine.ok
          (rd.src.takeRow_spec todo (fun _ => False) hi (pos, tokens) rest hn)
          ⟨hinv', hc, fun _ _ hf => hf.elim⟩
        have hcore := h.addDocument hsplit hi ((ht i hi).symm.trans hn) ht hinv''
        obtain ⟨it', hit', hcore', hrf, hfill⟩ := ih hcore (by
          simp only [PackState.addDocument, PackState.buffer, Function.update_self,
            Option.getD_some, Window.push, length_append, length_singleton]
          simp only [PackState.buffer] at hfuel
          omega)
        refine ⟨it', ?_, hcore', ⟨hrf.st, hrf.phase, hrf.emitted,
          fun split hne => ?_⟩, hfill⟩
        · simp [fillBlockLoop, hfull, packPump, hq, hc, hq', hit']
        · rw [hrf.view split hne, PackState.addDocument_view, if_neg hne]
    · refine ⟨it, ?_, h, ⟨rfl, rfl, rfl, fun _ _ => rfl⟩, Or.inl (Nat.not_lt.1 hfull)⟩
      simp [fillBlockLoop, hfull]

theorem fillBlock_ok (hi : i < rd.src.n) (h : rd.Core tbl it) :
    ∃ it', rd.fillBlock i it = .ok () it' ∧ rd.Core tbl it' ∧ rd.Refilled i it it' ∧
      Filled rd.cfg tbl (rd.split i) (it'.work.view (rd.split i)) := by
  have hcore : rd.Core tbl { it with work := it.work.setDefault (rd.split i) } := by
    refine ⟨h.pipe, fun j hj => ?_⟩
    rw [PackState.setDefault_view]
    exact h.lawful j hj
  obtain ⟨it', hit', hcore', hrf, hf⟩ :=
    fillBlockLoop_ok hfine hsplit hi rd.cfg.packLen hcore (Nat.le_add_left _ _)
  refine ⟨it', ?_, hcore', ⟨hrf.st, hrf.phase, hrf.emitted,
    fun split hne => ?_⟩, hf⟩
  · simp [fillBlock, hit']
  · rw [hrf.view split hne, PackState.setDefault_view]

theorem fillFrom_ok (k : ℕ) (hik : i + k = rd.src.n) (h : rd.Core tbl it)
    (hf : ∀ j < i, Filled rd.cfg tbl (rd.split j) (it.work.view (rd.split j))) :
    ∃ it', rd.fillFrom i k it = .ok () it' ∧ rd.Core tbl it' ∧
      it'.work.emitted = it.work.emitted ∧
      ∀ j < rd.src.n, Filled rd.cfg tbl (rd.split j) (it'.work.view (rd.split j)) := by
  induction k generalizing i it with
  | zero => exact ⟨it, rfl, h, rfl, fun j hj => hf j (by omega)⟩
  | succ k ih =>
    have hi : i < rd.src.n := by omega
    obtain ⟨it₁, hit₁, hcore₁, hrf, hf₁⟩ := fillBlock_ok hfine hsplit hi h
    obtain ⟨it', hit', hcore', hemit, hall⟩ :=
      ih (i := i + 1) (by omega) hcore₁ (fun j hj => by
        rcases Nat.lt_succ_iff_lt_or_eq.1 hj with hlt | rfl
        · rw [hrf.view _ (hsplit.ne (by omega) hi (by omega))]
          exact hf j hlt
        · exact hf₁)
    refine ⟨it', ?_, hcore', hemit.trans hrf.emitted, hall⟩
    simp [fillFrom, hit₁, hit']

end Fill

/-! ### The simulation -/

/-- **A suspended generator** has emitted block `e` of the first `i` owned splits, and the blocks
before it of all of them. -/
structure Sim (rd : PackReader α ε) (tbl : SplitTable α (List ℤ) ε) (e i : ℕ) (it : PackIter α) :
    Prop extends rd.Core tbl it where
  lt : i < rd.src.n
  emitted : ∀ j < rd.src.n, it.work.emitted (rd.split j) = if j < i then e + 1 else e
  committed : it.st = it.work
  budget : e * rd.src.n + i ≤ rd.cfg.blocksPerSplit * rd.src.n
  phase : if i = 0 then it.phase = .start ∨ it.phase = .cycle 0 ∨
      it.phase = .finished ∧ e = rd.cfg.blocksPerSplit
    else it.phase = .cycle i ∧
      ∀ j < rd.src.n, i ≤ j → Filled rd.cfg tbl (rd.split j) (it.work.view (rd.split j))

/-- Block number `y` of a generator: the splits take turns. -/
def blockNo (rd : PackReader α ε) (tbl : SplitTable α (List ℤ) ε) (y : ℕ) : Block :=
  blockAt rd.cfg (tbl.documents (rd.split (y % rd.src.n))) (y / rd.src.n)

variable {e : ℕ}

theorem blockNo_eq (hi : i < rd.src.n) :
    rd.blockNo tbl (e * rd.src.n + i) = blockAt rd.cfg (tbl.documents (rd.split i)) e := by
  have hn : 0 < rd.src.n := Nat.zero_lt_of_lt hi
  rw [blockNo, Nat.mul_comm, Nat.mul_add_mod, Nat.mod_eq_of_lt hi, Nat.mul_add_div hn,
    Nat.div_eq_of_lt hi, Nat.add_zero]

/-- **A call that emits the next block**, until the budget is used up. -/
def Emits (rd : PackReader α ε) (tbl : SplitTable α (List ℤ) ε) (e i : ℕ)
    (result : EStateM.Result (PackFailure ε) (PackIter α) (Option Block)) : Prop :=
  (e * rd.src.n + i = rd.cfg.blocksPerSplit * rd.src.n ∧
    ∃ it', result = .ok none it' ∧ rd.Sim tbl e i it') ∨
  (e * rd.src.n + i < rd.cfg.blocksPerSplit * rd.src.n ∧ ∃ it' e' i',
    result = .ok (some (rd.blockNo tbl (e * rd.src.n + i))) it' ∧
    rd.Sim tbl e' i' it' ∧ e' * rd.src.n + i' = e * rd.src.n + i + 1)

theorem emitBlock_ok (hsplit : Increasing rd.src.n rd.split) (hcore : rd.Core tbl it)
    (hi : i < rd.src.n) (he : e < rd.cfg.blocksPerSplit)
    (hemit : ∀ j < rd.src.n, it.work.emitted (rd.split j) = if j < i then e + 1 else e)
    (hf : ∀ j < rd.src.n, i ≤ j →
      Filled rd.cfg tbl (rd.split j) (it.work.view (rd.split j))) :
    rd.Emits tbl e i (rd.emitBlock i it) := by
  have hcnt : it.work.emitted (rd.split i) = e := by rw [hemit i hi, if_neg (Nat.lt_irrefl i)]
  obtain ⟨hblk, hlawful⟩ := (hcore.lawful i hi).emit (hf i hi le_rfl)
  rw [hcnt] at hblk
  set work := (it.work.emit rd.cfg (rd.split i)).2 with hwork
  have hoth : ∀ j < rd.src.n, j ≠ i → work.view (rd.split j) = it.work.view (rd.split j) := by
    intro j hj hji
    rw [hwork, PackState.emit_view, if_neg (hsplit.ne hj hi hji)]
  have hcore' : ∀ phase, rd.Core tbl { it with st := work, work := work, phase := phase } := by
    intro phase
    refine ⟨hcore.pipe, fun j hj => ?_⟩
    by_cases hji : j = i
    · subst hji
      exact hlawful
    · show Lawful _ _ _ (work.view (rd.split j))
      rw [hoth j hj hji]
      exact hcore.lawful j hj
  have hemit' : ∀ j < rd.src.n, work.emitted (rd.split j) = if j < i + 1 then e + 1 else e := by
    intro j hj
    by_cases hji : j = i
    · subst hji
      simp [hwork, PackState.emit, hcnt]
    · have hview := congrArg Prod.fst (hoth j hj hji)
      simp only [PackState.view] at hview
      rw [hview, hemit j hj]
      split_ifs <;> omega
  have hle : (e + 1) * rd.src.n ≤ rd.cfg.blocksPerSplit * rd.src.n := Nat.mul_le_mul_right _ he
  rw [Nat.add_mul, Nat.one_mul] at hle
  refine .inr ⟨by omega, ?_⟩
  by_cases hl : i + 1 = rd.src.n
  · refine ⟨{ it with st := work, work := work, phase := .cycle 0 }, e + 1, 0, ?_,
      ⟨hcore' _, by omega, fun j hj => ?_, rfl, ?_, Or.inr (Or.inl rfl)⟩, ?_⟩
    · simp [emitBlock, hblk, blockNo_eq hi, hl, ← hwork]
    · rw [hemit' j hj, if_pos (by omega), if_neg (Nat.not_lt_zero j)]
    · rw [Nat.add_mul, Nat.one_mul]
      omega
    · rw [Nat.add_mul, Nat.one_mul]
      omega
  · refine ⟨{ it with st := work, work := work, phase := .cycle (i + 1) }, e, i + 1, ?_,
      ⟨hcore' _, by omega, hemit', rfl, by omega, ?_⟩, by omega⟩
    · simp [emitBlock, hblk, blockNo_eq hi, hl, ← hwork]
    · rw [if_neg (Nat.succ_ne_zero i)]
      refine ⟨rfl, fun j hj hij => ?_⟩
      show Filled _ _ _ (work.view (rd.split j))
      rw [hoth j hj (by omega)]
      exact hf j hj (by omega)

section Run

variable (hfine : rd.src.Unfailing) (hsplit : Increasing rd.src.n rd.split)
include hfine hsplit

theorem startCycle_ok (h : rd.Core tbl it) (hn : 0 < rd.src.n) (hc : it.st = it.work)
    (hbud : e ≤ rd.cfg.blocksPerSplit)
    (hemit : ∀ j < rd.src.n, it.work.emitted (rd.split j) = e) :
    rd.Emits tbl e 0 (rd.startCycle it) := by
  have hz := hemit 0 hn
  rcases Nat.lt_or_eq_of_le hbud with hlt | rfl
  · obtain ⟨it₁, hit₁, hcore₁, hs, hf⟩ :=
      fillFrom_ok hfine hsplit rd.src.n (Nat.zero_add _) h fun j hj => absurd hj (Nat.not_lt_zero j)
    have hrun : rd.startCycle it = rd.emitBlock 0 it₁ := by simp [startCycle, hz, hlt, hit₁]
    rw [hrun]
    exact emitBlock_ok hsplit hcore₁ hn hlt
      (fun j hj => by rw [hs, hemit j hj, if_neg (Nat.not_lt_zero j)])
      fun j hj _ => hf j hj
  · left
    refine ⟨rfl, { it with phase := .finished }, ?_,
      ⟨⟨h.pipe, h.lawful⟩, hn, fun j hj => ?_, hc, by omega, ?_⟩⟩
    · simp [startCycle, hz]
    · rw [if_neg (Nat.not_lt_zero j)]
      exact hemit j hj
    · exact Or.inr (Or.inr ⟨rfl, rfl⟩)

/-- **A call of `next`** emits the next block. -/
theorem next_sim (h : rd.Sim tbl e i it) : rd.Emits tbl e i (rd.next it) := by
  have hi := h.lt
  have hn : 0 < rd.src.n := Nat.zero_lt_of_lt hi
  have hbud := h.budget
  have hresume : rd.Emits tbl e i (rd.resume it) := by
    cases i with
    | succ i =>
      have hlt : e < rd.cfg.blocksPerSplit := by
        by_contra hge
        have := Nat.mul_le_mul_right rd.src.n (Nat.not_lt.1 hge)
        omega
      obtain ⟨hph, hf⟩ := (if_neg (Nat.succ_ne_zero i)).mp h.phase
      have hrun : rd.resume it = rd.emitBlock (i + 1) it := by simp [resume, hph]
      rw [hrun]
      exact emitBlock_ok hsplit h.toCore hi hlt h.emitted hf
    | zero =>
      have hle : e ≤ rd.cfg.blocksPerSplit := Nat.le_of_mul_le_mul_right hbud hn
      have hemit : ∀ j < rd.src.n, it.work.emitted (rd.split j) = e := by
        intro j hj
        rw [h.emitted j hj, if_neg (Nat.not_lt_zero j)]
      -- a cycle starts, from the first one on
      have hcyc := startCycle_ok hfine hsplit h.toCore hn h.committed hle hemit
      rcases (if_pos rfl).mp h.phase with hph | hph | ⟨hph, rfl⟩
      · have halgn : ∀ j < rd.src.n,
            it.work.emitted (rd.split j) = it.work.emitted (rd.split 0) := by
          intro j hj
          rw [hemit j hj, hemit 0 hn]
        have hrun : rd.resume it = rd.startCycle it := by
          simp only [resume, EStateM.bind_apply, EStateM.get_apply, hph, if_pos halgn]
        rwa [hrun]
      · have hrun : rd.resume it = rd.startCycle it := by simp [resume, hph]
        rwa [hrun]
      · exact .inl ⟨rfl, it, by simp [resume, hph], h⟩
  rcases hresume with ⟨hend, it', hit', hsim⟩ | ⟨hlt, it', e', i', hit', hsim⟩
  · exact .inl ⟨hend, it', by simp [PackReader.next, hit'], hsim⟩
  · exact .inr ⟨hlt, it', e', i', by simp [PackReader.next, hit'], hsim⟩

/-- **Calls of `next`** emit the next blocks. -/
theorem take_sim (k : ℕ) (h : rd.Sim tbl e i it) :
    ∃ it' e' i', rd.take k it = .ok ((List.range' (e * rd.src.n + i)
        (min k (rd.cfg.blocksPerSplit * rd.src.n - (e * rd.src.n + i)))).map (rd.blockNo tbl)) it' ∧
      rd.Sim tbl e' i' it' ∧
      e' * rd.src.n + i' = min (e * rd.src.n + i + k) (rd.cfg.blocksPerSplit * rd.src.n) := by
  induction k generalizing it e i with
  | zero =>
    have := h.budget
    exact ⟨it, e, i, by simp [PackReader.take], h, by omega⟩
  | succ k ih =>
    rcases next_sim hfine hsplit h with
      ⟨hend, it', hit', hsim⟩ | ⟨hlt, it', e', i', hit', hsim, hsum⟩
    · refine ⟨it', e, i, ?_, hsim, by omega⟩
      rw [hend, Nat.sub_self, Nat.min_zero]
      simp [PackReader.take, hit']
    · obtain ⟨it'', e'', i'', hit'', hsim', hsum'⟩ := ih hsim
      refine ⟨it'', e'', i'', ?_, hsim', by omega⟩
      have hmin : min (k + 1) (rd.cfg.blocksPerSplit * rd.src.n - (e * rd.src.n + i)) =
          min k (rd.cfg.blocksPerSplit * rd.src.n - (e * rd.src.n + i + 1)) + 1 := by
        omega
      rw [hsum] at hit''
      rw [hmin, range'_succ, map_cons]
      simp [PackReader.take, hit', hit'']

end Run

/-! ### Opening a generator -/

theorem start_sim (hfine : tbl.Unfailing) (cfg : PackConfig) {mySplits : List ℕ}
    (hne : mySplits ≠ []) (schedule : ℕ → List Completion) (he : e ≤ cfg.blocksPerSplit)
    (hst : ∀ split ∈ mySplits, st.emitted split = e ∧ Lawful cfg tbl split (st.view split)) :
    let rd := make tbl cfg mySplits schedule st
    rd.src.Unfailing ∧ rd.Sim tbl e 0 (rd.start st) := by
  intro rd
  have hn : 0 < rd.src.n := length_pos_iff.2 hne
  have hmem : ∀ i < rd.src.n, rd.split i ∈ mySplits := fun i hi => mem_splits hi
  have hunf : rd.src.Unfailing := hfine.source rfl rfl fun i absStart => hfine.read _ _
  obtain ⟨q, hq, hinv⟩ :=
    Source.fillAllFrom_ok hunf rd.src.n (Nat.zero_add _) rd.src.pipeInv_init
  have hpipe : (rd.start st).pipe = q := by simp [start, hq]
  refine ⟨hunf, ⟨⟨_, hpipe ▸ hinv, fun i hi => ?_⟩, fun i hi => (hst _ (hmem i hi)).2⟩, hn,
    fun i hi => ?_, rfl, ?_, ?_⟩
  · rw [hunf.accepted_eq (f := tbl.finalTransform) rfl]
    rfl
  · rw [if_neg (Nat.not_lt_zero i)]
    exact (hst _ (hmem i hi)).1
  · rw [Nat.add_zero]
    exact Nat.mul_le_mul_right _ he
  · exact Or.inl (if_neg (Nat.pos_iff_ne_zero.1 hn))

theorem open_eq {cfg : PackConfig} {worker : Option WorkerInfo} {mySplits : List ℕ}
    (hasg : cfg.resolveMySplits worker = .ok mySplits) (schedule : ℕ → List Completion)
    (hst : ∀ split ∈ mySplits, Lawful cfg tbl split (st.view split)) :
    PackReader.open tbl cfg worker schedule st =
      .ok (make tbl cfg mySplits schedule st, (make tbl cfg mySplits schedule st).start st) := by
  have hskip :
      mySplits.find? (fun split => (tbl.rows split).length < st.consumed split) = none := by
    rw [find?_eq_none]
    intro split hsplit
    have hle : st.consumed split ≤ (tbl.rows split).length := (hst split hsplit).le
    simpa using hle
  simp only [PackReader.open, hasg, hskip]

end PackReader

end Streaming

end LanceDB
