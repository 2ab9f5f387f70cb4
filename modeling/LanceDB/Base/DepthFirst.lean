import LanceDB.Base.Acyclic
import LanceDB.Base.Lists

/-!
# Finding a cycle depth first

A graph is given by the list of the nodes each node reads.  The search marks a node open when it
enters it and done when it leaves it, and it meets an open node exactly when there is a cycle.

* `DepthFirst.visit`, `DepthFirst.check` : the search from one node, and from every node.
* `DepthFirst.visit_ok` — what is done stays closed under reading and has no cycle in it.
* `DepthFirst.visit_ends` — an open node that is met lies on a cycle, and the fuel suffices.
* `DepthFirst.check_eq_ok_iff` — the search succeeds exactly when there is no cycle.
-/

namespace LanceDB.DepthFirst

open Relation List Function

/-- How far the search is with a node it has entered. -/
inductive Visit where
  | opened
  | done
  deriving DecidableEq, Repr

variable {α : Type*} [DecidableEq α] (reads : α → List α)

/-- The search from the node `a`.  The error is the node it met open, or that the fuel ran out. -/
def visit : ℕ → α → (α → Option Visit) → Except (Option α) (α → Option Visit)
  | 0, _, _ => .error none
  | fuel + 1, a, st =>
    match st a with
    | some .done => .ok st
    | some .opened => .error (some a)
    | none => do
      let st ← (reads a).foldlM (fun st b => visit fuel b st)
        (Function.update st a (some .opened))
      return Function.update st a (some .done)

/-- The search from every node of a list. -/
def check (nodes : List α) : Except (Option α) (α → Option Visit) :=
  nodes.foldlM (fun st a => visit reads (nodes.length + 1) a st) (fun _ => none)

/-- The node `a` reads the node `b`. -/
def Reads (a b : α) : Prop := b ∈ reads a

variable {reads}
variable {nodes : List α} {st : α → Option Visit}

/-! ### Success -/

/-- The done nodes read done nodes only, and none of them is on a cycle. -/
def Clean (reads : α → List α) (st : α → Option Visit) : Prop :=
  ∀ a, st a = some .done → (∀ b ∈ reads a, st b = some .done) ∧ ¬ TransGen (Reads reads) a a

/-- No mark of an entered node is lost. -/
def Extends (st st' : α → Option Visit) : Prop :=
  ∀ a v, st a = some v → st' a = some v

omit [DecidableEq α] in
theorem Extends.trans {st' st'' : α → Option Visit} (h : Extends st st') (h' : Extends st' st'') :
    Extends st st'' := fun a v ha => h' a v (h a v ha)

omit [DecidableEq α] in
theorem Clean.done_of_transGen (hcln : Clean reads st) {a b : α} (ha : st a = some .done)
    (hp : TransGen (Reads reads) a b) : st b = some .done := by
  induction hp with
  | single hab => exact (hcln a ha).1 _ hab
  | tail _ hbc ih => exact (hcln _ ih).1 _ hbc

theorem Clean.enter (hcln : Clean reads st) {a : α} (ha : st a = none) :
    Clean reads (Function.update st a (some .opened)) := by
  have hne : ∀ b, st b = some .done → b ≠ a := by
    rintro b hb rfl
    simp [ha] at hb
  intro b hb
  obtain ⟨-, hb⟩ | hb := update_eq_cases hb
  · cases hb
  refine ⟨fun c hc => ?_, (hcln b hb).2⟩
  have hd := (hcln b hb).1 c hc
  rw [update_of_ne (hne c hd)]
  exact hd

/-- Leaving an open node that reads done nodes only makes no cycle: a way back to it would pass
over done nodes, and it is not done yet. -/
theorem Clean.leave (hcln : Clean reads st) {a : α} (ha : st a = some .opened)
    (hrds : ∀ b ∈ reads a, st b = some .done) :
    Clean reads (Function.update st a (some .done)) := by
  have hne : ∀ b, st b = some .done → b ≠ a := by
    rintro b hb rfl
    simp [ha] at hb
  intro b hb
  obtain ⟨rfl, -⟩ | hb := update_eq_cases hb
  · refine ⟨fun c hc => ?_, fun hcyc => ?_⟩
    · rw [update_of_ne (hne c (hrds c hc))]
      exact hrds c hc
    · obtain ⟨c, hac, hcb⟩ := TransGen.head'_iff.1 hcyc
      have hc := hrds c hac
      rcases reflTransGen_iff_eq_or_transGen.1 hcb with rfl | hp
      · exact hne _ hc rfl
      · exact hne _ (hcln.done_of_transGen hc hp) rfl
  · refine ⟨fun c hc => ?_, (hcln b hb).2⟩
    have hd := (hcln b hb).1 c hc
    rw [update_of_ne (hne c hd)]
    exact hd

omit [DecidableEq α] in
theorem foldlM_ok {f : (α → Option Visit) → α → Except (Option α) (α → Option Visit)}
    (hf : ∀ a st st', f st a = .ok st' → Clean reads st →
      Clean reads st' ∧ Extends st st' ∧ st' a = some .done) (l : List α) :
    ∀ {st st' : α → Option Visit}, l.foldlM f st = .ok st' → Clean reads st →
      Clean reads st' ∧ Extends st st' ∧ ∀ a ∈ l, st' a = some .done := by
  induction l with
  | nil =>
    intro st st' h hcln
    obtain rfl : st = st' := Except.ok.inj h
    exact ⟨hcln, fun a v ha => ha, by simp⟩
  | cons a l ih =>
    intro st st' h hcln
    rw [foldlM_cons] at h
    obtain ⟨st₁, hfa, h⟩ := Except.bind_eq_ok.1 h
    obtain ⟨hcln₁, hext₁, ha⟩ := hf a st st₁ hfa hcln
    obtain ⟨hcln', hext', hl⟩ := ih h hcln₁
    exact ⟨hcln', hext₁.trans hext', forall_mem_cons.2 ⟨hext' _ _ ha, hl⟩⟩

/-- **A search that succeeds** leaves its node done, and what is done has no cycle. -/
theorem visit_ok (fuel : ℕ) : ∀ (a : α) (st st' : α → Option Visit),
    visit reads fuel a st = .ok st' → Clean reads st →
      Clean reads st' ∧ Extends st st' ∧ st' a = some .done := by
  induction fuel with
  | zero =>
    intro a st st' h
    simp [visit] at h
  | succ fuel ih =>
    intro a st st' h hcln
    rw [visit] at h
    split at h
    · rename_i hd
      obtain rfl : st = st' := Except.ok.inj h
      exact ⟨hcln, fun b v hb => hb, hd⟩
    · simp at h
    · rename_i hn
      obtain ⟨st₁, hfold, h⟩ := Except.bind_eq_ok.1 h
      obtain rfl : Function.update st₁ a (some .done) = st' := Except.ok.inj h
      obtain ⟨hcln₁, hext, hrds⟩ := foldlM_ok ih (reads a) hfold (hcln.enter hn)
      have hopen : st₁ a = some .opened := hext a _ (by simp)
      refine ⟨hcln₁.leave hopen hrds, ?_, by simp⟩
      intro b v hb
      have hba : b ≠ a := by
        rintro rfl
        simp [hn] at hb
      rw [update_of_ne hba]
      exact hext b v (by rw [update_of_ne hba]; exact hb)

/-! ### Failure -/

/-- The open nodes are those of the list `stack`, which all lead to the node `a`. -/
structure Stack (reads : α → List α) (nodes stack : List α) (a : α) (st : α → Option Visit) :
    Prop where
  nodup : stack.Nodup
  subset : ∀ b ∈ stack, b ∈ nodes
  opened : ∀ b, st b = some .opened ↔ b ∈ stack
  leads : ∀ b ∈ stack, TransGen (Reads reads) b a

/-- The search leaves the nodes of the list `stack` open, or it has met a node on a cycle. -/
def Ends (reads : α → List α) (stack : List α) : Except (Option α) (α → Option Visit) → Prop
  | .ok st => ∀ b, st b = some .opened ↔ b ∈ stack
  | .error e => ∃ b, e = some b ∧ TransGen (Reads reads) b b

omit [DecidableEq α] in
theorem foldlM_ends {f : (α → Option Visit) → α → Except (Option α) (α → Option Visit)}
    {stack l : List α}
    (hf : ∀ a ∈ l, ∀ st, (∀ b, st b = some .opened ↔ b ∈ stack) → Ends reads stack (f st a)) :
    ∀ st, (∀ b, st b = some .opened ↔ b ∈ stack) → Ends reads stack (l.foldlM f st) := by
  induction l with
  | nil => exact fun st hst => hst
  | cons a l ih =>
    intro st hst
    rw [forall_mem_cons] at hf
    have hends := hf.1 st hst
    rw [foldlM_cons]
    cases hfa : f st a with
    | error e =>
      rw [hfa] at hends
      exact hends
    | ok st₁ =>
      rw [hfa] at hends
      exact ih hf.2 st₁ hends

/-- **The search ends**: an open node that is met leads to itself, and the open nodes are different
nodes, so that the depth stays below the number of nodes. -/
theorem visit_ends (hns : ∀ a, ∀ b ∈ reads a, b ∈ nodes) (fuel : ℕ) :
    ∀ (a : α) (stack : List α) (st : α → Option Visit), a ∈ nodes →
      Stack reads nodes stack a st → nodes.length + 1 ≤ stack.length + fuel →
      Ends reads stack (visit reads fuel a st) := by
  induction fuel with
  | zero =>
    intro a stack st ha hstk hfuel
    have := (hstk.nodup.subperm hstk.subset).length_le
    omega
  | succ fuel ih =>
    intro a stack st ha hstk hfuel
    rw [visit]
    split
    · exact hstk.opened
    · rename_i hopen
      exact ⟨a, rfl, hstk.leads a ((hstk.opened a).1 hopen)⟩
    · rename_i hn
      have hfr : a ∉ stack := by
        intro hmem
        rw [← hstk.opened, hn] at hmem
        simp at hmem
      have hop : ∀ b, Function.update st a (some .opened) b = some .opened ↔
          b ∈ a :: stack := by
        intro b
        by_cases hba : b = a
        · simp [hba]
        · simp [hba, hstk.opened b]
      have hends := foldlM_ends (f := fun st b => visit reads fuel b st) (l := reads a) (by
        intro b hb st₁ hst₁
        refine ih b (a :: stack) st₁ (hns a b hb) ⟨?_, ?_, hst₁, ?_⟩ (by simp; omega)
        · exact nodup_cons.2 ⟨hfr, hstk.nodup⟩
        · simpa using ⟨ha, hstk.subset⟩
        · exact forall_mem_cons.2 ⟨.single hb, fun c hc => (hstk.leads c hc).tail hb⟩)
        _ hop
      cases hfold : (reads a).foldlM (fun st b => visit reads fuel b st)
          (Function.update st a (some .opened)) with
      | error e =>
        rw [hfold] at hends
        exact hends
      | ok st' =>
        rw [hfold] at hends
        intro b
        by_cases hba : b = a
        · subst hba
          simp [hfr]
        · rw [update_of_ne hba, hends b]
          simp [hba]

theorem check_ends (hns : ∀ a, ∀ b ∈ reads a, b ∈ nodes) : Ends reads [] (check reads nodes) :=
  foldlM_ends (fun a ha st hst => visit_ends hns _ a [] st ha
    ⟨nodup_nil, by simp, hst, by simp⟩ (by simp)) _ (by simp)

/-- **The search succeeds exactly when there is no cycle.** -/
theorem check_eq_ok_iff (hns : ∀ a, ∀ b ∈ reads a, a ∈ nodes ∧ b ∈ nodes) :
    (∃ st, check reads nodes = .ok st) ↔ Acyclic (Reads reads) := by
  constructor
  · rintro ⟨st, hst⟩ a hcyc
    obtain ⟨hcln, -, hd⟩ := foldlM_ok (visit_ok (nodes.length + 1)) nodes hst
      (fun b hb => by simp at hb)
    obtain ⟨b, hab, -⟩ := TransGen.head'_iff.1 hcyc
    exact (hcln a (hd a (hns a b hab).1)).2 hcyc
  · intro hacyc
    have hends := check_ends fun a b hb => (hns a b hb).2
    cases hchk : check reads nodes with
    | ok st => exact ⟨st, rfl⟩
    | error e =>
      rw [hchk] at hends
      obtain ⟨b, -, hcyc⟩ := hends
      exact absurd hcyc (hacyc b)

end LanceDB.DepthFirst
