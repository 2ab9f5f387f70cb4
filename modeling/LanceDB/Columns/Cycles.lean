import LanceDB.Columns.Runs

/-!
# Cycles of computed columns are found

`ensure_computed_inputs_acyclic` keeps what a column reads by the name of the column.  An Arrow
schema may repeat a name, and then only the reads of the last column of the name are searched.

* `ComputedFrom` : a computed column has an input whose root is a computed column.
* `searchCycle_ne_none` — the search ends.
* `inputs_acyclic_exact` — without repeated names exactly the cycles are refused.
* `repeated_name_hides_cycle` — a column that reads itself, hidden by a later one of its name.
-/

namespace LanceDB.Columns

open Relation

variable {L : Lance}

/-- The computed columns among the fields of an Arrow schema, whose names may repeat. -/
def computedFields (L : Lance) (fields : List Field) : List ComputedColumn :=
  fields.filterMap (computedColumnFromField L)

/-- A column `a` is computed from an input whose root is the computed column `b`. -/
def ComputedFrom (L : Lance) (columns : List ComputedColumn) (bindings : List FunctionBinding)
    (a b : String) : Prop :=
  ∃ column ∈ columns, column.name = a ∧ (∃ path ∈ inputPaths bindings column, root L path = b) ∧
    b ∈ columns.map (·.name)

theorem searchCycle_ne_none (columns : List ComputedColumn) (bindings : List FunctionBinding) :
    searchCycle L columns bindings ≠ .error none := by
  intro hn
  have hends : DepthFirst.Ends (computedReads L columns bindings) []
      (searchCycle L columns bindings) :=
    DepthFirst.check_ends fun _ _ hb => (mem_of_computedReads hb).2
  rw [hn] at hends
  obtain ⟨_, ⟨⟩, -⟩ := hends

/-- **Cycles are found exactly**, self-reads included, in every schema whose computed columns have
different names. -/
theorem inputs_acyclic_exact (fields : List Field) (bindings : List FunctionBinding)
    (hnodup : ((computedFields L fields).map (·.name)).Nodup) :
    searchCycle L (computedFields L fields) bindings ≠ .error none ∧
      (ensureInputsAcyclic L (computedFields L fields) bindings = .ok () ↔
        ¬ ∃ a, TransGen (ComputedFrom L (computedFields L fields) bindings) a a) := by
  have hrds : DepthFirst.Reads (computedReads L (computedFields L fields) bindings) =
      ComputedFrom L (computedFields L fields) bindings := by
    funext a b
    simp only [DepthFirst.Reads, mem_computedReads, List.find?_reverse_key_eq_some hnodup,
      ComputedFrom, and_assoc]
  refine ⟨searchCycle_ne_none _ _, ?_⟩
  rw [ensureInputsAcyclic_eq_ok_iff, hrds, not_exists]
  rfl

/-- A binding whose input is a field of the column `size`. -/
def nestedBinding : FunctionBinding :=
  { demoBinding with inputs := [⟨"p", 0, "size.x", "utf8", true⟩] }

/-- The SQL column `size` reads `search`, whose binding reads a field of `size`. -/
def cyclicFields : List Field :=
  [⟨"size", .primitive .utf8, true, sqlMetadata "length of search" "search"⟩,
    ⟨"search", .primitive .utf8, true, functionMetadata "0"⟩]

theorem inputs_acyclic_demo :
    ∃ a, TransGen (ComputedFrom demoLance (computedFields demoLance cyclicFields)
      [nestedBinding]) a a := by
  have h := (inputs_acyclic_exact (L := demoLance) cyclicFields [nestedBinding]
    (by decide +kernel)).2
  have hrefused : ensureInputsAcyclic demoLance (computedFields demoLance cyclicFields)
      [nestedBinding] ≠ .ok () := by decide +kernel
  exact not_not.1 fun hn => hrefused (h.2 hn)

/-- Two columns of one name, the first of which reads itself. -/
def repeatedFields : List Field :=
  [⟨"x", .primitive .utf8, true, sqlMetadata "trim of x" "x"⟩,
    ⟨"x", .primitive .utf8, true, sqlMetadata "trim of y" "y"⟩]

/-- **A cycle that is not found.** -/
theorem repeated_name_hides_cycle :
    ensureInputsAcyclic demoLance (computedFields demoLance repeatedFields) [] = .ok () ∧
      ∃ a, TransGen (ComputedFrom demoLance (computedFields demoLance repeatedFields) []) a a := by
  refine ⟨by decide +kernel, "x",
    .single ⟨⟨"x", .sql "trim of x", ["x"]⟩, ?_, rfl, ⟨"x", ?_, ?_⟩, ?_⟩⟩
  all_goals decide +kernel

end LanceDB.Columns
