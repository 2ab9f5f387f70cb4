import LanceDB.Base.Acyclic
import LanceDB.Base.Lists

/-!
# The sources of materialized views

A materialized view is a table whose schema metadata carries a definition, and the definition names
the table the view reads.  The names are resolved when the view is refreshed: a table may be dropped
and made again under the same name, as a view or not.

* `ensureNoSourceCycle`, `createIn` : the creation of a view, as the source has it.
* `Request`, `run` : creations and drops, one after the other.
* `walk_ok` — a walk that comes to an end has not met the new view.
* `createIn_acyclic`, `createTable_acyclic`, `dropTable_acyclic`, `next_acyclic` — one request.
* `views_acyclic` — the result, where no table is created with the schema of a view.
-/

namespace LanceDB

namespace View

open Relation

/-- Where a table is: a namespace, empty for the root, and a name. -/
structure TableId where
  namespacePath : List String
  name : String
  deriving DecidableEq

/-- The part of `MaterializedViewDefinition` that names the source. -/
structure Definition where
  sourceNamespace : List String
  sourceTable : String
  deriving DecidableEq

def Definition.source (definition : Definition) : TableId :=
  ⟨definition.sourceNamespace, definition.sourceTable⟩

/-- `StoredDefinition`. -/
inductive StoredDefinition
  | query (definition : Definition)
  | newer (format : String)
  deriving DecidableEq

/-- The errors of a creation; `storage` is one of the object store. -/
inductive ViewError
  | invalidInput (message : String)
  | tableAlreadyExists (name : String)
  | tableNotFound (name : String)
  | runtime (message : String)
  | storage
  deriving DecidableEq

/-- How a definition is kept in the metadata of a schema. -/
structure Codec (M : Type) where
  /-- `read_definition`; `none` for a plain table. -/
  read : M → Except ViewError (Option StoredDefinition)
  /-- The metadata of a new view. -/
  write : Definition → M
  /-- What is stored is read back equal. -/
  read_write : ∀ definition, read (write definition) = .ok (some (.query definition))

variable {M : Type}

/-- The tables with the metadata of their schemas. -/
abbrev Database (M : Type) := TableId → Option M

/-! ### Creating a view -/

/-- `MAX_SOURCE_DEPTH`. -/
def maxSourceDepth : ℕ := 32

/-- The loop of `ensure_no_source_cycle`, with the iterations that are left: the tables it opens,
and how it ends.  Some tables may be unavailable. -/
def walk (codec : Codec M) (db : Database M) (unavailable : TableId → Bool) (view : TableId) :
    ℕ → TableId → List String → List TableId × Except ViewError Unit
  | 0, _, _ => ([], .error (.invalidInput
      s!"materialized view '{view.name}' would nest deeper than {maxSourceDepth} views"))
  | n + 1, source, path =>
    let path := path ++ [source.name]
    if source = view then
      let joined := String.intercalate " -> " path
      ([], .error (.invalidInput
        s!"materialized view '{view.name}' would read itself: {joined}"))
    else if unavailable source then
      ([source], .error .storage)
    else
      match db source with
      -- a missing source ends the chain
      | none => ([source], .ok ())
      | some metadata =>
        match codec.read metadata with
        | .ok (some (.query upstream)) =>
          let (opened, result) := walk codec db unavailable view n upstream.source path
          (source :: opened, result)
        | _ => ([source], .ok ())

/-- `ensure_no_source_cycle`. -/
def ensureNoSourceCycle (codec : Codec M) (db : Database M) (unavailable : TableId → Bool)
    (view : TableId) (definition : Definition) : List TableId × Except ViewError Unit :=
  walk codec db unavailable view maxSourceDepth definition.source [view.name]

/-- `CreateTableMode`. -/
inductive CreateTableMode
  | create
  | existOk
  | overwrite
  deriving DecidableEq

/-- `Database::create_table`. -/
def createTable (db : Database M) (table : TableId) (metadata : M) (mode : CreateTableMode) :
    Except ViewError (Database M) :=
  match mode, db table with
  | .create, some _ => .error (.tableAlreadyExists table.name)
  | .existOk, some _ => .ok db
  | _, _ => .ok (Function.update db table (some metadata))

/-- `PreparedDeclaration::create_in`. -/
def createIn (codec : Codec M) (db : Database M) (unavailable : TableId → Bool) (view : TableId)
    (definition : Definition) : Except ViewError (Database M) := do
  (ensureNoSourceCycle codec db unavailable view definition).2
  createTable db view (codec.write definition) .create

/-- `Database::drop_table`. -/
def dropTable (db : Database M) (table : TableId) : Except ViewError (Database M) :=
  if (db table).isSome then .ok (Function.update db table none)
  else .error (.tableNotFound table.name)

/-! ### Requests -/

/-- What is asked of the database. -/
inductive Request (M : Type)
  | createView (view : TableId) (definition : Definition) (unavailable : TableId → Bool)
  | createTable (table : TableId) (metadata : M) (mode : CreateTableMode)
  | drop (table : TableId)

/-- The answer to a request. -/
def apply (codec : Codec M) (db : Database M) : Request M → Except ViewError (Database M)
  | .createView view definition unavailable => createIn codec db unavailable view definition
  | .createTable table metadata mode => createTable db table metadata mode
  | .drop table => dropTable db table

/-- The database after a request; one that fails changes nothing. -/
def next (codec : Codec M) (db : Database M) (request : Request M) : Database M :=
  (apply codec db request).toOption.getD db

/-- The database after some requests. -/
def run (codec : Codec M) (db : Database M) (requests : List (Request M)) : Database M :=
  requests.foldl (next codec) db

/-- The schema of a table that is created carries no definition of a view. -/
def Request.Plain (codec : Codec M) : Request M → Prop
  | .createTable _ metadata _ => codec.read metadata = .ok none
  | _ => True

/-! ### Sources -/

/-- The first table is a view that reads the second one.  A definition that cannot be read leads
nowhere. -/
def Source (codec : Codec M) (db : Database M) (view source : TableId) : Prop :=
  ∃ metadata definition, db view = some metadata ∧
    codec.read metadata = .ok (some (.query definition)) ∧ definition.source = source

section

variable {codec : Codec M} {db : Database M}
variable {db' : Database M} {table : TableId} {unavailable : TableId → Bool}
variable {source view : TableId}

/-- A walk that comes to an end has seen all that its first table leads to, and the new view was
not there. -/
theorem walk_ok {n : ℕ} {path : List String}
    (h : (walk codec db unavailable view n source path).2 = .ok ()) :
    ¬ ReflTransGen (Source codec db) source view := by
  induction n generalizing source path with
  | zero => cases h
  | succ n ih =>
    rw [walk] at h
    by_cases hself : source = view
    · rw [if_pos hself] at h
      cases h
    rw [if_neg hself] at h
    intro hp
    obtain rfl | ⟨upstream, hsrc, hrest⟩ := hp.cases_head
    · exact hself rfl
    obtain ⟨metadata, definition, hmeta, hr, rfl⟩ := hsrc
    by_cases hunav : unavailable source = true
    · rw [if_pos hunav] at h
      cases h
    rw [if_neg hunav, hmeta] at h
    simp only [hr] at h
    exact ih h hrest

/-- `ensure_no_source_cycle` opens one table per level. -/
theorem length_walk_le {n : ℕ} {path : List String} :
    (walk codec db unavailable view n source path).1.length ≤ n := by
  induction n generalizing source path with
  | zero => exact Nat.le_refl 0
  | succ n ih =>
    rw [walk]
    split_ifs
    · exact Nat.zero_le _
    · exact Nat.succ_le_succ (Nat.zero_le n)
    · split
      · exact Nat.succ_le_succ (Nat.zero_le n)
      · split
        · exact Nat.succ_le_succ ih
        · exact Nat.succ_le_succ (Nat.zero_le n)

/-- A table is dropped, or a plain one is put in its place: there are fewer sources. -/
theorem source_of_update {entry : Option M}
    (hp : ∀ metadata, entry = some metadata → codec.read metadata = .ok none)
    (h : Source codec (Function.update db table entry) view source) :
    Source codec db view source := by
  obtain ⟨metadata, definition, hmeta, hr, hsrc⟩ := h
  rcases List.update_eq_cases hmeta with ⟨-, hent⟩ | hold
  · rw [hp metadata hent] at hr
    cases hr
  · exact ⟨metadata, definition, hold, hr, hsrc⟩

theorem source_of_create {definition : Definition}
    (h : Source codec (Function.update db table (some (codec.write definition))) view source) :
    Source codec db view source ∨ (view = table ∧ source = definition.source) := by
  obtain ⟨metadata, definition', hmeta, hr, rfl⟩ := h
  rcases List.update_eq_cases hmeta with ⟨rfl, hent⟩ | hold
  · obtain rfl := Option.some.inj hent
    rw [codec.read_write] at hr
    cases hr
    exact .inr ⟨rfl, rfl⟩
  · exact .inl ⟨metadata, definition', hold, hr, rfl⟩

theorem eq_of_createTable {metadata : M} {mode : CreateTableMode}
    (h : createTable db table metadata mode = .ok db') :
    (mode = .existOk ∧ db' = db) ∨ db' = Function.update db table (some metadata) := by
  rw [createTable.eq_def] at h
  split at h
  · cases h
  · exact .inl ⟨rfl, (Except.ok.inj h).symm⟩
  · exact .inr (Except.ok.inj h).symm

theorem createIn_acyclic (hacyc : Acyclic (Source codec db)) {definition : Definition}
    (h : createIn codec db unavailable view definition = .ok db') : Acyclic (Source codec db') := by
  obtain ⟨⟨⟩, hwalk, hcreate⟩ := Except.bind_eq_ok.1 h
  rcases eq_of_createTable hcreate with ⟨hmode, -⟩ | rfl
  · cases hmode
  · exact hacyc.insert (fun _ _ => source_of_create) (walk_ok hwalk)

theorem createTable_acyclic (hacyc : Acyclic (Source codec db)) {metadata : M}
    (hp : codec.read metadata = .ok none) {mode : CreateTableMode}
    (h : createTable db table metadata mode = .ok db') : Acyclic (Source codec db') := by
  rcases eq_of_createTable h with ⟨-, rfl⟩ | rfl
  · exact hacyc
  · refine hacyc.mono fun _ _ => source_of_update fun metadata' hs => ?_
    obtain rfl := Option.some.inj hs
    exact hp

theorem dropTable_acyclic (hacyc : Acyclic (Source codec db))
    (h : dropTable db table = .ok db') : Acyclic (Source codec db') := by
  rw [dropTable] at h
  split_ifs at h
  obtain rfl := Except.ok.inj h
  exact hacyc.mono fun _ _ => source_of_update nofun

theorem next_acyclic (hacyc : Acyclic (Source codec db)) {request : Request M}
    (hp : request.Plain codec) : Acyclic (Source codec (next codec db request)) := by
  rw [next]
  cases happly : apply codec db request with
  | error e => exact hacyc
  | ok db' =>
    cases request with
    | createView view definition unavailable => exact createIn_acyclic hacyc happly
    | createTable table metadata mode => exact createTable_acyclic hacyc hp happly
    | drop table => exact dropTable_acyclic hacyc happly

end

/-- **Views never form a cycle of sources**: after any creations and drops, no view leads back to
itself, and `ensure_no_source_cycle` opens a bounded number of tables. -/
theorem views_acyclic (codec : Codec M) {db : Database M} (hacyclic : Acyclic (Source codec db))
    {requests : List (Request M)} (hplain : ∀ request ∈ requests, request.Plain codec) :
    Acyclic (Source codec (run codec db requests)) ∧
      ∀ unavailable view definition, (ensureNoSourceCycle codec (run codec db requests)
        unavailable view definition).1.length ≤ maxSourceDepth := by
  refine ⟨?_, fun _ _ _ => length_walk_le⟩
  induction requests generalizing db with
  | nil => exact hacyclic
  | cons request requests ih =>
    obtain ⟨hfst, hr⟩ := List.forall_mem_cons.1 hplain
    exact ih (next_acyclic hacyclic hfst) hr

/-- Metadata that holds the definition as it is. -/
def demoCodec : Codec (Option Definition) where
  read metadata := .ok (metadata.map .query)
  write := some
  read_write _ := rfl

/-- A table, a view of it, and the table is made again as a view of the view: this is refused. -/
def demoRequests : List (Request (Option Definition)) :=
  [.createTable ⟨[], "docs"⟩ none .create,
    .createView ⟨[], "recent"⟩ ⟨[], "docs"⟩ fun _ => false,
    .drop ⟨[], "docs"⟩,
    .createView ⟨[], "docs"⟩ ⟨[], "recent"⟩ fun _ => false]

theorem views_acyclic_demo :
    Acyclic (Source demoCodec (run demoCodec (fun _ => none) demoRequests)) ∧
      run demoCodec (fun _ => none) demoRequests ⟨[], "docs"⟩ = none := by
  have hemp : Acyclic (Source demoCodec fun _ => none) := by
    intro table hcyc
    obtain ⟨_, ⟨_, _, h, -⟩, -⟩ := TransGen.head'_iff.1 hcyc
    cases h
  have hpl : ∀ request ∈ demoRequests, request.Plain demoCodec := by
    simp [demoRequests, Request.Plain, demoCodec]
  exact ⟨(views_acyclic demoCodec hemp hpl).1, by decide +kernel⟩

/-- The table is made again from data with the schema of the view. -/
def copyRequests : List (Request (Option Definition)) :=
  demoRequests.take 3 ++ [.createTable ⟨[], "docs"⟩ (some ⟨[], "docs"⟩) .create]

/-- `create_table` stores the schema as it is given: `docs` reads itself. -/
theorem copied_view_reads_itself :
    ¬ Acyclic (Source demoCodec (run demoCodec (fun _ => none) copyRequests)) := by
  intro hacyc
  have hdocs : run demoCodec (fun _ => none) copyRequests ⟨[], "docs"⟩ =
      some (some ⟨[], "docs"⟩) := by decide +kernel
  exact hacyc ⟨[], "docs"⟩ (.single ⟨_, _, hdocs, rfl, rfl⟩)

end View

end LanceDB
