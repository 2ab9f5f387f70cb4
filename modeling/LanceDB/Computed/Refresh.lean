import LanceDB.Base.Lists

/-!
# Refreshing a computed column

A refresh goes through the fragments of a table.  A fragment whose inputs have changed is computed
anew; in the others only rows without a value are filled, and a fragment that would gain none is
left alone.  The rows that keep their value are evaluated too, with null inputs.  A fragment all of
whose live rows were computed is recorded as such.

* `countFragmentGains`, `fillStream`, `refreshColumn` : the functions of the source.
* `Filled` : what a refresh makes of the rows of a fragment.
* `refresh_converges` — what a refresh changes, counts and records, and that a second one changes
  nothing.
-/

namespace LanceDB.Computed

open List Except

variable {V E : Type}

/-- A row of a fragment's files.  A deleted row has no row id. -/
structure PhysicalRow (V : Type) where
  rowId : Option ℕ
  cell : String → Option V

/-- A row with another value in a column. -/
def PhysicalRow.set (column : String) (row : PhysicalRow V) (value : Option V) : PhysicalRow V :=
  { row with cell := Function.update row.cell column value }

/-- An expression that treats the rows of a batch one by one. -/
structure BoundExpression (V E : Type) where
  /-- The columns it reads. -/
  roots : List String
  /-- Its value, from those of the columns. -/
  physical : List (Option V) → Except E (Option V)

/-! ### One fragment -/

section Fragment

variable (bound : BoundExpression V E) (column : String)

/-- `evaluate`, on the `evaluation_batch` of a row: a row that is masked out has null inputs. -/
def evaluate (maskOut : Bool) (row : PhysicalRow V) : Except E (Option V) :=
  bound.physical (bound.roots.map fun name => if maskOut then none else row.cell name)

/-- The rows to fill: the live ones without a value, or all live ones. -/
def fills (recompute : Bool) (row : PhysicalRow V) : Bool :=
  if recompute then row.rowId.isSome else (row.cell column).isNone && row.rowId.isSome

/-- The rows that gain a value. -/
def gains (recompute : Bool) (row : PhysicalRow V) : Bool :=
  fills column recompute row && (evaluate bound false row).toOption.join.isSome

/-- `count_fragment_gains`: the rows that would gain a value, and the rows scanned. -/
def countFragmentGains (rows : List (PhysicalRow V)) : Except E (ℕ × ℕ) := do
  let scanned := rows.filter (fills column false)
  let evaluated ← scanned.mapM (evaluate bound false)
  return (scanned.length - evaluated.countP (·.isNone), scanned.length)

/-- `fill_stream`: the column of a fragment, and the rows that gain a value. -/
def fillStream (recompute : Bool) (rows : List (PhysicalRow V)) :
    Except E (List (Option V) × ℕ) := do
  let fill := fills column recompute
  let computed ← rows.mapM fun row => evaluate bound (!fill row) row
  return (zipWith (fun row value => if fill row then value else row.cell column) rows computed,
    (zipWith (fun row value => fill row && value.isSome) rows computed).count true)

/-- The rows to fill get the value of the expression, and the others keep theirs. -/
def Filled (recompute : Bool) : List (PhysicalRow V) → List (PhysicalRow V) → Prop :=
  Forall₂ fun row new => ∃ value, new = row.set column value ∧
    if fills column recompute row then evaluate bound false row = .ok value
    else value = row.cell column

variable {bound column} {recompute : Bool} {rows : List (PhysicalRow V)}

theorem fillStream_spec {out : List (Option V) × ℕ}
    (h : fillStream bound column recompute rows = .ok out) :
    Filled bound column recompute rows (zipWith (PhysicalRow.set column) rows out.1) ∧
      out.2 = rows.countP (gains bound column recompute) := by
  obtain ⟨computed, hcomp, ⟨⟩⟩ := bind_eq_ok.1 h
  have hr := mapM_eq_ok_iff.1 hcomp
  clear h hcomp
  induction hr with
  | nil => exact ⟨.nil, rfl⟩
  | @cons row value _ _ hval _ ih =>
    obtain ⟨hfil, hcnt⟩ := ih
    cases hf : fills column recompute row with
    | false =>
      exact ⟨.cons ⟨_, rfl, by simp [hf]⟩ hfil, by simpa [hf, gains] using hcnt⟩
    | true =>
      have hrow : evaluate bound false row = .ok value := by simpa [hf] using hval
      refine ⟨.cons ⟨_, rfl, by simpa [hf] using hrow⟩ hfil, ?_⟩
      simpa [hf, gains, hrow, Except.toOption, countP_cons, count_cons] using hcnt

theorem countFragmentGains_spec {gained scanned : ℕ}
    (h : countFragmentGains bound column rows = .ok (gained, scanned)) :
    gained = rows.countP (gains bound column false) ∧ scanned = rows.countP (fills column false) ∧
      ∀ row ∈ rows, fills column false row → ∃ value, evaluate bound false row = .ok value := by
  obtain ⟨evaluated, heval, ⟨⟩⟩ := bind_eq_ok.1 h
  refine ⟨?_, countP_eq_length_filter.symm, fun row hrow hf => ?_⟩
  · have hvals := eq_map_of_mapM_ok (g := fun row => (evaluate bound false row).toOption.join)
      heval fun row _ value hval => by rw [hval]; rfl
    have hlen := evaluated.length_eq_countP_add_countP (·.isNone)
    have hs : (rows.filter (fills column false)).length = evaluated.length := by simp [hvals]
    rw [hs, hlen, Nat.add_sub_cancel_left, hvals, countP_map, countP_filter]
    exact countP_congr fun row _ => by simp [gains, and_comm, Option.isSome_iff_ne_none]
  · obtain ⟨value, -, hval⟩ := exists_mem_of_forall₂ (mapM_eq_ok_iff.1 heval)
      (mem_filter.2 ⟨hrow, hf⟩)
    exact ⟨value, hval⟩

end Fragment

/-! ### All fragments -/

/-- A fragment of a table. -/
structure Fragment (V : Type) where
  id : ℕ
  rows : List (PhysicalRow V)

/-- A fragment with its column replaced. -/
def Fragment.write (column : String) (f : Fragment V) (values : List (Option V)) : Fragment V :=
  { f with rows := zipWith (PhysicalRow.set column) f.rows values }

/-- What becomes of a fragment. -/
structure Round (V : Type) where
  fragment : Fragment V
  staged : Bool
  gained : ℕ
  /-- All live rows have been computed. -/
  whole : Bool

/-- What a refresh returns. -/
structure Refreshed (V : Type) where
  /-- The fragments, with the replacements committed. -/
  fragments : List (Fragment V)
  rowsFilled : ℕ
  /-- The fragments that are staged; nothing is committed for none. -/
  replacements : List ℕ
  /-- The fragments that are recorded as computed. -/
  computed : List ℕ

section Refresh

variable (bound : BoundExpression V E) (column : String)

/-- One round of the loop of `execute_refresh_column_with_source`. -/
def refreshFragment (recompute : Bool) (f : Fragment V) : Except E (Round V) := do
  if recompute then
    let (values, gained) ← fillStream bound column true f.rows
    return ⟨f.write column values, true, gained, true⟩
  else
    let (gained, unfilled) ← countFragmentGains bound column f.rows
    if gained = 0 then return ⟨f, false, 0, false⟩
    let (values, _) ← fillStream bound column false f.rows
    return ⟨f.write column values, true, gained, unfilled = f.rows.countP (·.rowId.isSome)⟩

/-- The loop and the commit of `execute_refresh_column_with_source`. -/
def refreshColumn (isDirty : ℕ → Bool) (fragments : List (Fragment V)) :
    Except E (Refreshed V) := do
  let rounds ← fragments.mapM fun f => refreshFragment bound column (isDirty f.id) f
  return { fragments := rounds.map (·.fragment)
           rowsFilled := (rounds.map (·.gained)).sum
           replacements := (rounds.filter (·.staged)).map (·.fragment.id)
           computed := (rounds.filter (·.whole)).map (·.fragment.id) }

variable {bound column} {recompute : Bool} {f : Fragment V}

theorem refreshFragment_spec {round : Round V}
    (h : refreshFragment bound column recompute f = .ok round) :
    (round.fragment.id = f.id ∧ Filled bound column recompute f.rows round.fragment.rows) ∧
    round.gained = f.rows.countP (gains bound column recompute) ∧
    (round.whole → ∀ row ∈ f.rows, row.rowId.isSome → fills column recompute row) := by
  cases recompute with
  | true =>
    obtain ⟨out, hout, ⟨⟩⟩ := bind_eq_ok.1 h
    obtain ⟨hfil, hgained⟩ := fillStream_spec hout
    exact ⟨⟨rfl, hfil⟩, hgained, fun _ _ _ hl => hl⟩
  | false =>
    obtain ⟨⟨gained, unfilled⟩, hgains, hr⟩ := bind_eq_ok.1 h
    obtain ⟨rfl, rfl, hok⟩ := countFragmentGains_spec hgains
    by_cases hz : f.rows.countP (gains bound column false) = 0
    · simp only [hz, if_true] at hr
      cases hr
      refine ⟨⟨rfl, forall₂_same.2 fun row hrow => ⟨row.cell column, ?_, ?_⟩⟩, hz.symm, nofun⟩
      · rw [PhysicalRow.set, Function.update_eq_self]
      · split_ifs with hf
        · obtain ⟨value, hval⟩ := hok row hrow hf
          have hemp : row.cell column = none := by simp_all [fills]
          rw [hval, hemp]
          simpa [gains, hf, hval, Except.toOption] using countP_eq_zero.1 hz row hrow
        · rfl
    · simp only [hz, if_false] at hr
      obtain ⟨out, hout, ⟨⟩⟩ := bind_eq_ok.1 hr
      refine ⟨⟨rfl, (fillStream_spec hout).1⟩, rfl, fun hwh row hrow hl => ?_⟩
      -- as many rows are scanned as are live
      have hscanned : f.rows.filter (fills column false) <+ f.rows.filter (·.rowId.isSome) :=
        monotone_filter_right _ fun row hf => by simp_all [fills]
      have heq := hscanned.eq_of_length (by simpa [countP_eq_length_filter] using hwh)
      exact (mem_filter.1 (heq.symm ▸ mem_filter.2 ⟨hrow, hl⟩)).2

theorem evaluate_set (hroots : column ∉ bound.roots) (row : PhysicalRow V) (value : Option V) :
    evaluate bound false (row.set column value) = evaluate bound false row :=
  congrArg bound.physical (map_congr_left fun _ hn =>
    Function.update_of_ne (ne_of_mem_of_not_mem hn hroots) _ _)

theorem refreshFragment_filled (hroots : column ∉ bound.roots) {rows : List (PhysicalRow V)}
    (h : Filled bound column recompute rows f.rows) :
    refreshFragment bound column false f = .ok ⟨f, false, 0, false⟩ := by
  have hn : ∀ new ∈ f.rows.filter (fills column false), evaluate bound false new = .ok none := by
    intro new hnew
    obtain ⟨hmem, hf⟩ := mem_filter.1 hnew
    obtain ⟨row, -, value, rfl, hrow⟩ := exists_mem_of_forall₂ h.flip hmem
    rw [evaluate_set hroots]
    obtain ⟨rfl, hl⟩ : value = none ∧ row.rowId.isSome := by
      simpa [fills, PhysicalRow.set] using hf
    cases recompute <;> cases hcell : row.cell column <;> simp_all [fills]
  rw [refreshFragment, if_neg (by simp), countFragmentGains, mapM_eq_ok hn]
  simp [bind, Except.bind, pure, Except.pure, countP_replicate]

/-- **A refresh converges.**  It changes no value but those of the rows to fill, which get the value
of the expression, null included; `rowsFilled` counts those that gain one; a fragment that is
recorded has the value of the expression in every live row; and refreshed again, no row is filled
and nothing is committed. -/
theorem refresh_converges (hroots : column ∉ bound.roots) {isDirty : ℕ → Bool}
    {fragments : List (Fragment V)} {out : Refreshed V}
    (h : refreshColumn bound column isDirty fragments = .ok out) :
    Forall₂ (fun f new => new.id = f.id ∧ Filled bound column (isDirty f.id) f.rows new.rows)
      fragments out.fragments ∧
    out.rowsFilled =
      (fragments.map fun f => f.rows.countP (gains bound column (isDirty f.id))).sum ∧
    (∀ id ∈ out.computed, ∃ new ∈ out.fragments, new.id = id ∧ ∀ row ∈ new.rows,
      row.rowId.isSome → evaluate bound false row = .ok (row.cell column)) ∧
    refreshColumn bound column (fun _ => false) out.fragments =
      .ok ⟨out.fragments, 0, [], []⟩ := by
  obtain ⟨rounds, hok, ⟨⟩⟩ := bind_eq_ok.1 h
  have hrnds := mapM_eq_ok_iff.1 hok
  refine ⟨forall₂_map_right_iff.2 ?_, congrArg sum ?_, fun id hid => ?_, ?_⟩
  · exact hrnds.imp fun _ _ hround => (refreshFragment_spec hround).1
  · rw [← forall₂_eq_eq_eq, forall₂_map_left_iff, forall₂_map_right_iff]
    exact hrnds.flip.imp fun _ _ hround => (refreshFragment_spec hround).2.1
  · obtain ⟨round, hmem, rfl⟩ := mem_map.1 hid
    obtain ⟨hmem, hwh⟩ := mem_filter.1 hmem
    obtain ⟨f, -, hround⟩ := exists_mem_of_forall₂ hrnds.flip hmem
    obtain ⟨⟨-, hfill⟩, -, hall⟩ := refreshFragment_spec hround
    refine ⟨round.fragment, mem_map.2 ⟨_, hmem, rfl⟩, rfl, fun row hrow hl => ?_⟩
    obtain ⟨row, hold, value, rfl, hval⟩ := exists_mem_of_forall₂ hfill.flip hrow
    rw [if_pos (hall hwh row hold hl)] at hval
    rw [evaluate_set hroots, hval]
    simp [PhysicalRow.set]
  · have hsettl : ∀ new ∈ rounds.map (·.fragment),
        refreshFragment bound column false new = .ok ⟨new, false, 0, false⟩ := by
      intro new hnew
      obtain ⟨round, hmem, rfl⟩ := mem_map.1 hnew
      obtain ⟨f, -, hround⟩ := exists_mem_of_forall₂ hrnds.flip hmem
      exact refreshFragment_filled hroots (refreshFragment_spec hround).1.2
    rw [refreshColumn, mapM_eq_ok hsettl]
    simp [bind, Except.bind, pure, Except.pure, filter_map, Function.comp_def]

end Refresh

/-- `c` is twice `a`. -/
def demoDoubled : BoundExpression ℕ Unit :=
  ⟨["a"], fun inputs => .ok (inputs.head?.join.map (2 * ·))⟩

/-- A deleted row, and one to be filled. -/
def demoFragment : Fragment ℕ :=
  ⟨0, [none, some 1].map (⟨·, fun name => if name = "a" then some 1 else none⟩)⟩

theorem refresh_converges_demo :
    ∃ out, refreshColumn demoDoubled "c" (fun _ => false) [demoFragment] = .ok out ∧
      out.rowsFilled = 1 ∧ out.computed = [0] ∧
      refreshColumn demoDoubled "c" (fun _ => false) out.fragments =
        .ok ⟨out.fragments, 0, [], []⟩ := by
  have hout : refreshColumn demoDoubled "c" (fun _ => false) [demoFragment] = .ok _ := rfl
  exact ⟨_, hout, rfl, rfl, (refresh_converges (by decide) hout).2.2.2⟩

end LanceDB.Computed
