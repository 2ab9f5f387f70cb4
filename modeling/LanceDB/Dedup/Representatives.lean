import LanceDB.Base.Kernel
import LanceDB.Base.Lists
import Mathlib.Data.List.Sort

/-!
# Choosing representatives among duplicates

Vector dedup receives pairs of rows whose vectors are duplicates of each other and removes rows
until no two of those that are left are.  The pairs come in any order and any orientation.  They are
put the smaller row first, sorted by a sort that may spill, and scanned once: a pair of two rows
that are both still there keeps its smaller row and removes the other.  Only the two masks stay in
memory.

The scan sees all pairs whose larger row is `a` before the first pair whose smaller row is `a`, so
what it has decided about `a` is final by then.  This makes one pass compute the kernel of "is a
smaller neighbour of" (`LanceDB.Base.Kernel`).

* `selectRepresentatives` : the function of the source, over the batches of a stream that may fail.
* `execute` : the rows of the dataset that are left.
* `scan_chosen` — what the masks are after any sorted prefix of the pairs.
* `removed_kernel`, `select_same` — the kernel, whatever order the pairs came in.
-/

namespace LanceDB.Dedup

open List

/-- A duplicate pair of row ids. -/
abbrev Edge := ℕ × ℕ

/-- The smaller row of a pair first. -/
def canonical (p : Edge) : Edge := (min p.1 p.2, max p.1 p.2)

/-- The order of `sort_by(vec![col("a"), col("b")])`. -/
def Before (p q : Edge) : Prop := p.1 < q.1 ∨ p.1 = q.1 ∧ p.2 ≤ q.2

instance (p q : Edge) : Decidable (Before p q) := inferInstanceAs (Decidable (_ ∨ _))

theorem Before.trans {p q r : Edge} (h : Before p q) (h' : Before q r) : Before p r := by
  simp only [Before] at h h' ⊢
  omega

theorem Before.total (p q : Edge) : Before p q ∨ Before q p := by
  simp only [Before]
  omega

/-- The external sort: it returns the pairs it was given in order, cut into any batches. -/
structure ExternalSort where
  run : List (List Edge) → List (List Edge)
  sorted : ∀ batches, (run batches).flatten.Pairwise Before
  perm : ∀ batches, (run batches).flatten.Perm batches.flatten

/-- The two masks: rows that are removed, and rows kept in the place of a removed one. -/
structure Selection where
  removed : Finset ℕ
  representatives : Finset ℕ
deriving DecidableEq

/-- What the scan makes of one pair. -/
def Selection.visit (s : Selection) (p : Edge) : Selection :=
  if p.1 ≠ p.2 ∧ p.1 ∉ s.removed ∧ p.2 ∉ s.removed then
    { removed := insert p.2 s.removed, representatives := insert p.1 s.representatives }
  else s

/-- The masks the scan starts with. -/
def Selection.empty : Selection := ⟨∅, ∅⟩

variable {ε : Type}
variable {batches : List (List Edge)}

/-- `select_representatives`: a batch of the stream may be an error, which the sort passes on. -/
def selectRepresentatives (sort : ExternalSort) (stream : List (Except ε (List Edge))) :
    Except ε Selection := do
  let batches ← stream.mapM id
  let sorted := sort.run (batches.map (·.map canonical))
  return sorted.foldl (fun s batch => batch.foldl Selection.visit s) Selection.empty

/-- Errors of the operator. -/
inductive DedupError (ε : Type)
  | plan (message : String)
  | external (error : ε)
deriving DecidableEq

/-- `VectorDedupExec::execute`: the dataset is scanned with the removed rows blocked.  The pairs are
those of all partitions of the input, coalesced into one stream. -/
def execute {Row : Type} (sort : ExternalSort) (dataset : List (ℕ × Row)) (partition : ℕ)
    (pairs : List (Except ε (List Edge))) : Except (DedupError ε) (List (ℕ × Row)) :=
  if partition ≠ 0 then .error (.plan "invalid dedup output partition")
  else
    match selectRepresentatives sort pairs with
    | .error e => .error (.external e)
    | .ok selection => .ok (dataset.filter fun row => row.1 ∉ selection.removed)

/-! ### What the masks are after a prefix -/

/-- The masks after the pairs `done`: a row is removed exactly when a smaller row it is paired with
is not, and a row is a representative when it is the smallest such row of a removed one. -/
structure Chosen (done : List Edge) (s : Selection) : Prop where
  removed : ∀ v, v ∈ s.removed ↔ ∃ u, (u, v) ∈ done ∧ u < v ∧ u ∉ s.removed
  representatives : ∀ a, a ∈ s.representatives ↔
    ∃ b, (a, b) ∈ done ∧ a < b ∧ a ∉ s.removed ∧ ∀ u < a, (u, b) ∈ done → u ∈ s.removed

theorem Chosen.nil : Chosen [] Selection.empty :=
  ⟨by simp [Selection.empty], by simp [Selection.empty]⟩

section Visit

variable {done : List Edge} {s : Selection} {a b : ℕ}

theorem Chosen.skip (h : Chosen done s)
    (hskip : a < b → a ∈ s.removed ∨ ∃ u, u ≤ a ∧ (u, b) ∈ done ∧ u ∉ s.removed)
    (hlat : ∀ u v, (u, v) ∈ done → u ≤ a) : Chosen (done ++ [(a, b)]) s := by
  refine ⟨fun v => ?_, fun a' => ?_⟩ <;> simp only [mem_append, mem_singleton, Prod.mk.injEq]
  · rw [h.removed v]
    constructor
    · rintro ⟨u, hmem, huv, hu⟩
      exact ⟨u, .inl hmem, huv, hu⟩
    · rintro ⟨u, hmem | ⟨rfl, rfl⟩, huv, hu⟩
      · exact ⟨u, hmem, huv, hu⟩
      · obtain ⟨w, hwu, hw, hk⟩ := (hskip huv).resolve_left hu
        exact ⟨w, hw, by omega, hk⟩
  · rw [h.representatives a']
    constructor
    · rintro ⟨b', hmem, hlt, hk, hfst⟩
      refine ⟨b', .inl hmem, hlt, hk, ?_⟩
      rintro u hu (huv | ⟨rfl, rfl⟩)
      · exact hfst u hu huv
      · -- the new pair is not before an old one
        have := hlat _ _ hmem
        omega
    · rintro ⟨b', hmem | ⟨rfl, rfl⟩, hlt, hk, hfst⟩
      · exact ⟨b', hmem, hlt, hk, fun u hu huv => hfst u hu (.inl huv)⟩
      · obtain ⟨w, hwa, hw, hwkept⟩ := (hskip hlt).resolve_left hk
        rcases Nat.lt_or_eq_of_le hwa with hwlt | rfl
        · exact absurd (hfst w hwlt (.inl hw)) hwkept
        · exact ⟨b', hw, hlt, hk, fun u hu huv => hfst u hu (.inl huv)⟩

theorem Chosen.remove (h : Chosen done s) (hab : a < b) (ha : a ∉ s.removed) (hb : b ∉ s.removed)
    (hlat : ∀ u v, (u, v) ∈ done → u ≤ a) :
    Chosen (done ++ [(a, b)]) ⟨insert b s.removed, insert a s.representatives⟩ := by
  -- `b` is the smaller row of no pair yet, so removing it changes nothing decided before
  have hold : ∀ {u v}, (u, v) ∈ done → (u ∈ insert b s.removed ↔ u ∈ s.removed) := by
    intro u v hmem
    have hle := hlat u v hmem
    rw [Finset.mem_insert, or_iff_right (by omega)]
  have hakept : a ∉ insert b s.removed := by
    rw [Finset.mem_insert, not_or]
    exact ⟨hab.ne, ha⟩
  refine ⟨fun v => ?_, fun a' => ?_⟩ <;> simp only [mem_append, mem_singleton, Prod.mk.injEq] <;>
    constructor
  · intro hv
    rcases Finset.mem_insert.1 hv with rfl | hv
    · exact ⟨a, .inr ⟨rfl, rfl⟩, hab, hakept⟩
    · obtain ⟨u, hmem, huv, hu⟩ := (h.removed v).1 hv
      exact ⟨u, .inl hmem, huv, mt (hold hmem).1 hu⟩
  · rintro ⟨u, hmem | ⟨rfl, rfl⟩, huv, hu⟩
    · exact Finset.mem_insert_of_mem ((h.removed v).2 ⟨u, hmem, huv, mt (hold hmem).2 hu⟩)
    · exact Finset.mem_insert_self ..
  · intro ha'
    rcases Finset.mem_insert.1 ha' with rfl | ha'
    · refine ⟨b, .inr ⟨rfl, rfl⟩, hab, hakept, ?_⟩
      rintro u hu (huv | ⟨rfl, -⟩)
      · by_contra hk
        exact hb ((h.removed b).2 ⟨u, huv, by omega, mt (hold huv).2 hk⟩)
      · omega
    · obtain ⟨b', hmem, hlt, hk, hfst⟩ := (h.representatives a').1 ha'
      refine ⟨b', .inl hmem, hlt, mt (hold hmem).1 hk, ?_⟩
      rintro u hu (huv | ⟨rfl, rfl⟩)
      · exact (hold huv).2 (hfst u hu huv)
      · have := hlat _ _ hmem
        omega
  · rintro ⟨b', hmem | ⟨rfl, rfl⟩, hlt, hk, hfst⟩
    · exact Finset.mem_insert_of_mem ((h.representatives a').2 ⟨b', hmem, hlt,
        mt (hold hmem).2 hk, fun u hu huv => (hold huv).1 (hfst u hu (.inl huv))⟩)
    · exact Finset.mem_insert_self ..

/-- **One pair.** -/
theorem Chosen.visit (h : Chosen done s) (hcn : a ≤ b)
    (hbef : ∀ p ∈ done, Before p (a, b)) : Chosen (done ++ [(a, b)]) (s.visit (a, b)) := by
  have hlat : ∀ u v, (u, v) ∈ done → u ≤ a := by
    intro u v hmem
    rcases hbef _ hmem with hlt | ⟨heq, -⟩
    · exact hlt.le
    · exact heq.le
  rw [Selection.visit]
  split_ifs with hc
  · obtain ⟨hne, ha, hb⟩ := hc
    exact h.remove (lt_of_le_of_ne hcn hne) ha hb hlat
  · refine h.skip (fun hlt => ?_) hlat
    by_cases ha : a ∈ s.removed
    · exact .inl ha
    · -- the larger row is removed already, by a row that is not larger than `a`
      have hb : b ∈ s.removed := by
        by_contra hb
        exact hc ⟨hlt.ne, ha, hb⟩
      obtain ⟨u, hmem, -, hu⟩ := (h.removed b).1 hb
      exact .inr ⟨u, hlat u b hmem, hmem, hu⟩

end Visit

/-- **The whole scan.** -/
theorem scan_chosen {edges : List Edge} (hsort : edges.Pairwise Before)
    (hcn : ∀ p ∈ edges, p.1 ≤ p.2) :
    Chosen edges (edges.foldl Selection.visit Selection.empty) := by
  induction edges using List.reverseRecOn with
  | nil => exact Chosen.nil
  | append_singleton edges p ih =>
    obtain ⟨hsort, -, hl⟩ := pairwise_append.1 hsort
    rw [foldl_append, foldl_cons, foldl_nil]
    refine (ih hsort fun q hq => hcn q (by simp [hq])).visit (hcn p (by simp)) ?_
    exact fun q hq => hl q hq p (by simp)

/-! ### The selection of a stream -/

/-- Two rows are neighbours when the stream pairs them, in either orientation. -/
def Neighbour (batches : List (List Edge)) (u v : ℕ) : Prop :=
  u ≠ v ∧ ((u, v) ∈ batches.flatten ∨ (v, u) ∈ batches.flatten)

theorem Neighbour.symm {u v : ℕ} (h : Neighbour batches u v) : Neighbour batches v u :=
  ⟨h.1.symm, h.2.symm⟩

/-- A pair of the sorted stream is a pair of neighbours, the smaller one first. -/
theorem mem_sorted_iff (sort : ExternalSort) {u v : ℕ} (huv : u < v) :
    (u, v) ∈ (sort.run (batches.map (·.map canonical))).flatten ↔ Neighbour batches u v := by
  rw [(sort.perm _).mem_iff, ← map_flatten, mem_map]
  constructor
  · rintro ⟨⟨a, b⟩, hmem, hcn⟩
    simp only [canonical, Prod.mk.injEq] at hcn
    refine ⟨huv.ne, ?_⟩
    rcases le_total a b with hab | hab
    · rw [min_eq_left hab, max_eq_right hab] at hcn
      exact .inl (by rwa [← hcn.1, ← hcn.2])
    · rw [min_eq_right hab, max_eq_left hab] at hcn
      exact .inr (by rwa [← hcn.1, ← hcn.2])
  · rintro ⟨-, hmem | hmem⟩
    · exact ⟨(u, v), hmem, by simp [canonical, huv.le]⟩
    · exact ⟨(v, u), hmem, by simp [canonical, huv.le]⟩

/-- What a stream without errors selects. -/
def selection (sort : ExternalSort) (batches : List (List Edge)) : Selection :=
  (sort.run (batches.map (·.map canonical))).flatten.foldl Selection.visit Selection.empty

theorem selectRepresentatives_ok (sort : ExternalSort) (batches : List (List Edge)) :
    selectRepresentatives (ε := ε) sort (batches.map .ok) = .ok (selection sort batches) := by
  have hr : (batches.map (Except.ok (ε := ε))).mapM id = .ok batches := by
    rw [mapM_eq_ok_iff, forall₂_map_left_iff]
    exact forall₂_same.2 fun _ _ => rfl
  simp [selectRepresentatives, hr, selection, foldl_flatten, bind, Except.bind, pure,
    Except.pure]

theorem selection_chosen (sort : ExternalSort) (batches : List (List Edge)) :
    Chosen (sort.run (batches.map (·.map canonical))).flatten (selection sort batches) := by
  refine scan_chosen (sort.sorted _) fun p hp => ?_
  rw [(sort.perm _).mem_iff, ← map_flatten, mem_map] at hp
  obtain ⟨q, -, rfl⟩ := hp
  exact min_le_max

/-- Being a smaller neighbour. -/
def SmallerNeighbour (batches : List (List Edge)) (u v : ℕ) : Prop :=
  u < v ∧ Neighbour batches u v

theorem smallerNeighbour_wf (batches : List (List Edge)) :
    WellFounded (SmallerNeighbour batches) :=
  Subrelation.wf (fun h => h.1) (wellFounded_lt (α := ℕ))

/-- The rows that are removed are those left out of the kernel of "is a smaller neighbour of". -/
theorem removed_kernel (sort : ExternalSort) (batches : List (List Edge)) :
    IsKernel (SmallerNeighbour batches) {v | v ∈ (selection sort batches).removed} := by
  intro v
  rw [Set.mem_ofPred_eq, (selection_chosen sort batches).removed v]
  refine exists_congr fun u => ?_
  constructor
  · rintro ⟨hmem, huv, hu⟩
    exact ⟨⟨huv, (mem_sorted_iff sort huv).1 hmem⟩, hu⟩
  · rintro ⟨⟨huv, hmem⟩, hu⟩
    exact ⟨(mem_sorted_iff sort huv).2 hmem, huv, hu⟩

/-- A representative is the smallest kept neighbour of a row that is larger. -/
theorem mem_representatives_iff (sort : ExternalSort) (batches : List (List Edge)) (a : ℕ) :
    a ∈ (selection sort batches).representatives ↔
      ∃ b, SmallerNeighbour batches a b ∧ a ∉ (selection sort batches).removed ∧
        ∀ u < a, Neighbour batches u b → u ∈ (selection sort batches).removed := by
  rw [(selection_chosen sort batches).representatives a]
  refine exists_congr fun b => ?_
  constructor
  · rintro ⟨hmem, hab, ha, hfst⟩
    refine ⟨⟨hab, (mem_sorted_iff sort hab).1 hmem⟩, ha, fun u hu hn => ?_⟩
    exact hfst u hu ((mem_sorted_iff sort (hu.trans hab)).2 hn)
  · rintro ⟨⟨hab, hmem⟩, ha, hfst⟩
    refine ⟨(mem_sorted_iff sort hab).2 hmem, hab, ha, fun u hu hn => ?_⟩
    exact hfst u hu ((mem_sorted_iff sort (hu.trans hab)).1 hn)

theorem select_same (sort sort' : ExternalSort) {batches' : List (List Edge)}
    (hsame : ∀ u v, Neighbour batches u v ↔ Neighbour batches' u v) :
    selection sort batches = selection sort' batches' := by
  have hrel : SmallerNeighbour batches = SmallerNeighbour batches' := by
    funext u v
    exact propext (and_congr_right fun _ => hsame u v)
  have hkernel := removed_kernel sort' batches'
  rw [← hrel] at hkernel
  have hremoved : (selection sort batches).removed = (selection sort' batches').removed := by
    ext v
    exact Set.ext_iff.1
      ((removed_kernel sort batches).unique (smallerNeighbour_wf batches) hkernel) v
  have hrepresentatives :
      (selection sort batches).representatives = (selection sort' batches').representatives := by
    ext a
    simp only [mem_representatives_iff, hremoved, hrel, hsame]
  cases hs : selection sort batches
  cases hs' : selection sort' batches'
  simp_all

/-- **Vector dedup keeps the first independent rows.**  Whatever the order, the orientation and the
batches of the duplicate pairs, the selection succeeds; a row is removed exactly when a smaller
neighbour of it is not; so no two rows that are left are neighbours, every removed row has a
neighbour that is left, no representative is removed, and another stream with the same neighbours
gives the same selection.  The rows the operator returns are those of the dataset that are left. -/
theorem select_representatives_kernel {Row : Type} (sort : ExternalSort)
    (batches : List (List Edge)) :
    ∃ s, selectRepresentatives (ε := ε) sort (batches.map .ok) = .ok s ∧
      (∀ v, v ∈ s.removed ↔ ∃ u < v, Neighbour batches u v ∧ u ∉ s.removed) ∧
      (∀ u v, u ∉ s.removed → v ∉ s.removed → ¬ Neighbour batches u v) ∧
      (∀ v ∈ s.removed, ∃ u ∉ s.removed, Neighbour batches u v) ∧
      (∀ a ∈ s.representatives, a ∉ s.removed) ∧
      (∀ (sort' : ExternalSort) (batches' : List (List Edge)),
        (∀ u v, Neighbour batches' u v ↔ Neighbour batches u v) →
          selectRepresentatives (ε := ε) sort' (batches'.map .ok) = .ok s) ∧
      ∀ dataset : List (ℕ × Row), execute (ε := ε) sort dataset 0 (batches.map .ok) =
        .ok (dataset.filter fun row => row.1 ∉ s.removed) := by
  have hkernel := removed_kernel sort batches
  refine ⟨selection sort batches, selectRepresentatives_ok sort batches, ?_, ?_, ?_, ?_, ?_, ?_⟩
  · intro v
    refine (hkernel v).trans (exists_congr fun u => ?_)
    exact and_assoc
  · intro u v hu hv hn
    rcases Nat.lt_or_gt_of_ne hn.1 with hlt | hlt
    · exact hkernel.independent hu hv ⟨hlt, hn⟩
    · exact hkernel.independent hv hu ⟨hlt, hn.symm⟩
  · intro v hv
    obtain ⟨u, hn, hu⟩ := hkernel.dominated hv
    exact ⟨u, hu, hn.2⟩
  · intro a ha
    obtain ⟨-, -, hk, -⟩ := (mem_representatives_iff sort batches a).1 ha
    exact hk
  · intro sort' batches' hs
    rw [selectRepresentatives_ok, select_same sort' sort hs]
  · intro dataset
    simp [execute, selectRepresentatives_ok]

/-- A sort in memory is an external sort. -/
def ExternalSort.inMemory : ExternalSort where
  run batches := [batches.flatten.mergeSort fun p q => decide (Before p q)]
  sorted batches := by
    rw [flatten_singleton]
    have hsort := @pairwise_mergeSort _ (fun p q => decide (Before p q))
      (fun p q r hpq hqr => decide_eq_true ((of_decide_eq_true hpq).trans (of_decide_eq_true hqr)))
      (fun p q => by simpa using Before.total p q) batches.flatten
    exact hsort.imp fun h => of_decide_eq_true h
  perm batches := by
    rw [flatten_singleton]
    exact mergeSort_perm ..

end LanceDB.Dedup
