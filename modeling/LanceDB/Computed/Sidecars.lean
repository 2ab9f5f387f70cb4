import LanceDB.Table.Wrapper

/-!
# Signature sidecars

The signature map of a computed column is an object under `_computed/`, named by the digest of its
content.  `write_signatures` puts the object, and then commits a version whose field metadata
references it.  `prune_sidecars` lists the objects that were not modified for a week, collects what
the retained versions of all branches reference, and deletes the others.

A stamp may put an object that a prune has listed before: the digest is the one of an old map.  Its
age at the listing does not protect it then, and the prune deletes what the new version references.

* `sidecarMachine` : stamps and prunes, with the commits, branches and cleanups around them.
* `Timely` : no stamp puts a digest that a running prune may still delete, and every stamp is
  committed within a week of its put.
* `referenced_present` — what a retained version references is there, in every state of such a run.
* `prune_deletes_referenced` — without the condition it need not be.
-/

namespace LanceDB.Computed

open Machine List Function Option

/-! ### Versions and objects -/

/-- `{fragment id -> input signature}`, sorted by the ids. -/
abbrev SignatureMap := List (ℕ × String)

/-- The source signature in the metadata of a field: inline, or a reference to a sidecar. -/
inductive Encoded (Digest : Type)
  | inline
  | sidecar (digest : Digest)
  deriving DecidableEq

/-- A version, as far as signatures go: the fields that have one. -/
structure StampedVersion (Digest : Type) where
  fields : List (String × Encoded Digest)

/-- The objects under `_computed/`, with the times of their last modification, and the retained
versions. -/
structure SidecarStore (Digest : Type) where
  now : ℕ
  objects : List (Digest × ℕ)
  /-- The branches besides `main`. -/
  branches : List Branch
  versions : Branch → List (StampedVersion Digest)

/-- `SIDECAR_UNVERIFIED_THRESHOLD_DAYS`, in seconds. -/
def sidecarUnverifiedThreshold : ℕ := 7 * 24 * 60 * 60

variable {Digest : Type}

/-- The sidecars that a version references. -/
def StampedVersion.digests (version : StampedVersion Digest) : List Digest :=
  version.fields.filterMap fun field =>
    match field.2 with
    | .inline => none
    | .sidecar digest => some digest

/-- `update_field_metadata` of a column. -/
def StampedVersion.stamp (version : StampedVersion Digest) (column : String)
    (encoded : Encoded Digest) : StampedVersion Digest :=
  ⟨version.fields.map fun field => if field.1 = column then (column, encoded) else field⟩

namespace SidecarStore

variable (s : SidecarStore Digest)

/-- `referenced_digests` of a branch. -/
def referencedDigests (branch : Branch) : List Digest :=
  (s.versions branch).flatMap (·.digests)

/-- What `prune_sidecars` collects: the references of `main` and of every branch. -/
def collected : List Digest :=
  s.referencedDigests none ++ s.branches.flatMap s.referencedDigests

/-- The objects last modified more than a week ago. -/
def unmodified : List Digest :=
  (s.objects.filter fun object => object.2 + sidecarUnverifiedThreshold < s.now).map (·.1)

/-- The versions of a branch. -/
def setVersions (branch : Branch) (versions : List (StampedVersion Digest)) :
    SidecarStore Digest :=
  { s with versions := Function.update s.versions branch versions }

def hasBranch (branch : Branch) : Bool := branch = none || branch ∈ s.branches

/-- A commit on a branch, on top of its latest version. -/
def commit (branch : Branch) (change : StampedVersion Digest → StampedVersion Digest) :
    Option (SidecarStore Digest) := do
  let latest ← (s.versions branch).getLast?
  if s.hasBranch branch then
    return s.setVersions branch (s.versions branch ++ [change latest])
  else none

/-- A new branch is taken from a retained version. -/
def createBranch (name source : Branch) (index : ℕ) : Option (SidecarStore Digest) := do
  let version ← (s.versions source)[index]?
  if s.hasBranch source && !s.hasBranch name then
    return { s.setVersions name [version] with branches := s.branches ++ [name] }
  else none

/-- A branch is deleted. -/
def deleteBranch (name : Branch) : SidecarStore Digest :=
  { s with branches := s.branches.filter (· ≠ name) }

/-- A version of a branch is cleaned up. -/
def cleanup (branch : Branch) (index : ℕ) : SidecarStore Digest :=
  s.setVersions branch ((s.versions branch).eraseIdx index)

variable [DecidableEq Digest]

/-- The put of `write_sidecar`. -/
def put (digest : Digest) : SidecarStore Digest :=
  { s with objects := s.objects.filter (·.1 ≠ digest) ++ [(digest, s.now)] }

def delete (digest : Digest) : SidecarStore Digest :=
  { s with objects := s.objects.filter (·.1 ≠ digest) }

/-- The sidecar is there. -/
def Present (digest : Digest) : Prop := ∃ modified, (digest, modified) ∈ s.objects

/-- A retained version references the sidecar. -/
def Referenced (digest : Digest) : Prop := digest ∈ s.collected

end SidecarStore

/-! ### Stamps and prunes -/

/-- Where a call is. -/
inductive SidecarCall (Digest : Type)
  | idle
  /-- In `write_signatures`, with the merged map. -/
  | stamping (branch : Branch) (column : String) (merged : SignatureMap)
  /-- The sidecar is durable since some time, but not referenced yet. -/
  | committing (branch : Branch) (column : String) (encoded : Encoded Digest) (since : ℕ)
  /-- In `prune_sidecars`. -/
  | pruning
  | listed (present : List Digest)
  | deleting (present referenced : List Digest) (removed : ℕ)

/-- What can happen. -/
inductive SidecarStep
  | writeSignatures (branch : Branch) (column : String) (merged : SignatureMap)
  | pruneSidecars
  | next
  /-- Storage fails. -/
  | fail
  | tick (duration : ℕ)
  /-- Another commit keeps the stamps of some columns. -/
  | commit (branch : Branch) (keep : String → Bool)
  | createBranch (name source : Branch) (index : ℕ)
  | deleteBranch (name : Branch)
  | cleanup (branch : Branch) (index : ℕ)

/-- What a caller sees. -/
inductive SidecarEvent
  | stamped
  | pruned (removed : ℕ)
  | failed

section Machine

variable [DecidableEq Digest] (digestOf : SignatureMap → Digest)

/-- The steps of `write_signatures`: the sidecar is durable before a commit references it. -/
def stampNext (s : SidecarStore Digest) :
    SidecarCall Digest → Option (SidecarStore Digest × SidecarCall Digest × Option SidecarEvent)
  | .stamping branch column merged =>
    if merged = [] then some (s, .committing branch column .inline s.now, none)
    else
      some (s.put (digestOf merged),
        .committing branch column (.sidecar (digestOf merged)) s.now, none)
  | .committing branch column encoded _ =>
    match s.commit branch (·.stamp column encoded) with
    | some s' => some (s', .idle, some .stamped)
    | none => some (s, .idle, some .failed)
  | _ => none

/-- The steps of `prune_sidecars`, with `delete_unverified` off. -/
def pruneNext (s : SidecarStore Digest) :
    SidecarCall Digest → Option (SidecarStore Digest × SidecarCall Digest × Option SidecarEvent)
  | .pruning =>
    if s.unmodified = [] then some (s, .idle, some (.pruned 0))
    else some (s, .listed s.unmodified, none)
  | .listed present => some (s, .deleting present s.collected 0, none)
  | .deleting [] _ removed => some (s, .idle, some (.pruned removed))
  | .deleting (digest :: present) referenced removed =>
    if digest ∈ referenced then some (s, .deleting present referenced removed, none)
    else some (s.delete digest, .deleting present referenced (removed + 1), none)
  | _ => none

/-- A call moves on. -/
def sidecarNext (s : SidecarStore Digest) (call : SidecarCall Digest) :
    Option (SidecarStore Digest × SidecarCall Digest × Option SidecarEvent) :=
  match call with
  | .idle => none
  | .stamping .. | .committing .. => stampNext digestOf s call
  | .pruning | .listed _ | .deleting .. => pruneNext s call

/-- Any number of stamps and prunes, with what else happens to the versions of the table. -/
def sidecarMachine :
    Machine (SidecarStore Digest) (SidecarCall Digest) SidecarStep SidecarEvent where
  step s call
    | .writeSignatures branch column merged =>
      match call with
      | .idle => some (s, .stamping branch column merged, none)
      | _ => none
    | .pruneSidecars =>
      match call with
      | .idle => some (s, .pruning, none)
      | _ => none
    | .next => sidecarNext digestOf s call
    | .fail =>
      match call with
      | .idle => none
      | _ => some (s, .idle, some .failed)
    | .tick duration => some ({ s with now := s.now + duration }, call, none)
    | .commit branch keep =>
      (s.commit branch fun version => ⟨version.fields.filter (keep ·.1)⟩).map (·, call, none)
    | .createBranch name source index => (s.createBranch name source index).map (·, call, none)
    | .deleteBranch name => some (s.deleteBranch name, call, none)
    | .cleanup branch index => some (s.cleanup branch index, call, none)

end Machine

/-! ### What a step does -/

/-- The sidecar that a stamp has put and not committed yet, and since when. -/
def SidecarCall.publishes : SidecarCall Digest → Option (Digest × ℕ)
  | .committing _ _ (.sidecar digest) since => some (digest, since)
  | _ => none

/-- A prune may delete the sidecar. -/
def SidecarCall.Lists (digest : Digest) : SidecarCall Digest → Prop
  | .listed present => digest ∈ present
  | .deleting present referenced _ => digest ∈ present ∧ digest ∉ referenced
  | _ => False

/-- A prune will delete the sidecar. -/
def SidecarCall.Dooms (digest : Digest) : SidecarCall Digest → Prop
  | .deleting present referenced _ => digest ∈ present ∧ digest ∉ referenced
  | _ => False

section Steps

variable {s s' : SidecarStore Digest} {call call' : SidecarCall Digest}
  {event : Option SidecarEvent} {digest : Digest}
variable {version : StampedVersion Digest}

theorem StampedVersion.mem_digests :
    digest ∈ version.digests ↔ ∃ column, (column, .sidecar digest) ∈ version.fields := by
  simp only [digests, mem_filterMap]
  constructor
  · rintro ⟨⟨column, encoded⟩, hfld, hdig⟩
    cases encoded with
    | inline => cases hdig
    | sidecar other =>
      cases hdig
      exact ⟨column, hfld⟩
  · rintro ⟨column, hfld⟩
    exact ⟨_, hfld, rfl⟩

theorem StampedVersion.mem_digests_stamp {column : String} {encoded : Encoded Digest}
    (h : digest ∈ (version.stamp column encoded).digests) :
    digest ∈ version.digests ∨ encoded = .sidecar digest := by
  obtain ⟨name, hfld⟩ := mem_digests.1 h
  obtain ⟨field, hold, hstmp⟩ := mem_map.1 hfld
  split_ifs at hstmp
  · cases hstmp
    exact .inr rfl
  · subst hstmp
    exact .inl (mem_digests.2 ⟨name, hold⟩)

theorem StampedVersion.mem_digests_filter {keep : String × Encoded Digest → Bool}
    (h : digest ∈ StampedVersion.digests ⟨version.fields.filter keep⟩) :
    digest ∈ version.digests := by
  obtain ⟨name, hfld⟩ := mem_digests.1 h
  exact mem_digests.2 ⟨name, (mem_filter.1 hfld).1⟩

namespace SidecarStore

theorem referenced_iff :
    s.Referenced digest ↔
      ∃ branch, s.hasBranch branch ∧ ∃ version ∈ s.versions branch, digest ∈ version.digests := by
  simp only [Referenced, collected, referencedDigests, mem_append, mem_flatMap, hasBranch,
    Bool.or_eq_true, decide_eq_true_eq]
  constructor
  · rintro (⟨version, hver, hdig⟩ | ⟨branch, hbr, version, hver, hdig⟩)
    · exact ⟨none, .inl rfl, version, hver, hdig⟩
    · exact ⟨branch, .inr hbr, version, hver, hdig⟩
  · rintro ⟨branch, rfl | hbr, version, hver, hdig⟩
    · exact .inl ⟨version, hver, hdig⟩
    · exact .inr ⟨branch, hbr, version, hver, hdig⟩

/-- What changes neither the objects nor adds references. -/
structure Quiet (s s' : SidecarStore Digest) : Prop where
  now : s.now ≤ s'.now
  objects : s'.objects = s.objects
  referenced : ∀ digest, s'.Referenced digest → s.Referenced digest

theorem Quiet.refl (s : SidecarStore Digest) : Quiet s s := ⟨le_rfl, rfl, fun _ h => h⟩

theorem Quiet.of_versions (hnow : s'.now = s.now) (hobjs : s'.objects = s.objects)
    (h : ∀ k version, s'.hasBranch k → version ∈ s'.versions k →
      ∃ branch, s.hasBranch branch ∧ version ∈ s.versions branch) : s.Quiet s' := by
  refine ⟨hnow.ge, hobjs, fun digest hdig => ?_⟩
  obtain ⟨k, hk, version, hver, hmem⟩ := referenced_iff.1 hdig
  obtain ⟨branch, hbr, hold⟩ := h k version hk hver
  exact referenced_iff.2 ⟨branch, hbr, version, hold, hmem⟩

/-- A commit references what its branch did before, and what it adds. -/
theorem commit_spec {branch : Branch} {change : StampedVersion Digest → StampedVersion Digest}
    (h : s.commit branch change = some s') :
    s'.now = s.now ∧ s'.objects = s.objects ∧
      ∀ digest, s'.Referenced digest → s.Referenced digest ∨
        ∃ latest ∈ s.versions branch, s.hasBranch branch ∧ digest ∈ (change latest).digests := by
  obtain ⟨latest, hlat, h⟩ := bind_eq_some_iff.1 h
  split_ifs at h with hbr
  cases h
  refine ⟨rfl, rfl, fun digest hdig => ?_⟩
  obtain ⟨k, hk, version, hver, hmem⟩ := referenced_iff.1 hdig
  simp only [setVersions, update_apply] at hver
  split_ifs at hver with hkb
  · rcases mem_append.1 hver with hold | hnew
    · exact .inl (referenced_iff.2 ⟨branch, hbr, version, hold, hmem⟩)
    · rw [mem_singleton.1 hnew] at hmem
      exact .inr ⟨latest, mem_of_getLast? hlat, hbr, hmem⟩
  · exact .inl (referenced_iff.2 ⟨k, hk, version, hver, hmem⟩)

end SidecarStore

open SidecarStore

theorem createBranch_quiet {name source : Branch} {index : ℕ}
    (h : s.createBranch name source index = some s') : s.Quiet s' := by
  obtain ⟨version, hver, h⟩ := bind_eq_some_iff.1 h
  split_ifs at h with hbr
  cases h
  simp only [Bool.and_eq_true, Bool.not_eq_true'] at hbr
  refine .of_versions rfl rfl fun k found hk hfd => ?_
  simp only [setVersions, update_apply] at hfd
  split_ifs at hfd with hkn
  · rw [mem_singleton.1 hfd]
    exact ⟨source, hbr.1, mem_of_getElem? hver⟩
  · exact ⟨k, by simpa [hasBranch, hkn] using hk, hfd⟩

variable [DecidableEq Digest] {digestOf : SignatureMap → Digest}

/-- What a step does to the store and its own call. -/
inductive Acts (digestOf : SignatureMap → Digest) : SidecarStep →
    SidecarStore Digest → SidecarCall Digest → SidecarStore Digest → SidecarCall Digest → Prop
  /-- Nothing that concerns the sidecars. -/
  | quiet {step : SidecarStep} {s s' : SidecarStore Digest} {call : SidecarCall Digest} :
      s.Quiet s' → Acts digestOf step s call s' call
  /-- A call starts or ends. -/
  | turn {step : SidecarStep} {s s' : SidecarStore Digest} {call call' : SidecarCall Digest} :
      s.Quiet s' → call'.publishes = none → (∀ digest, ¬ call'.Lists digest) →
      Acts digestOf step s call s' call'
  | put {s : SidecarStore Digest} {branch : Branch} {column : String} {merged : SignatureMap} :
      merged ≠ [] →
      Acts digestOf .next s (.stamping branch column merged) (s.put (digestOf merged))
        (.committing branch column (.sidecar (digestOf merged)) s.now)
  | commit {s s' : SidecarStore Digest} {branch : Branch} {column : String} {digest : Digest}
      {since : ℕ} : s'.now = s.now → s'.objects = s.objects →
      (∀ other, s'.Referenced other → s.Referenced other ∨ other = digest) →
      Acts digestOf .next s (.committing branch column (.sidecar digest) since) s' .idle
  | list {s : SidecarStore Digest} : Acts digestOf .next s .pruning s (.listed s.unmodified)
  | collect {s : SidecarStore Digest} {present : List Digest} :
      Acts digestOf .next s (.listed present) s (.deleting present s.collected 0)
  | skip {s : SidecarStore Digest} {digest : Digest} {present referenced : List Digest}
      {removed : ℕ} : digest ∈ referenced →
      Acts digestOf .next s (.deleting (digest :: present) referenced removed) s
        (.deleting present referenced removed)
  | delete {s : SidecarStore Digest} {digest : Digest} {present referenced : List Digest}
      {removed : ℕ} : digest ∉ referenced →
      Acts digestOf .next s (.deleting (digest :: present) referenced removed) (s.delete digest)
        (.deleting present referenced (removed + 1))

theorem stampNext_acts (h : stampNext digestOf s call = some (s', call', event)) :
    Acts digestOf .next s call s' call' := by
  cases call with
  | stamping branch column merged =>
    simp only [stampNext] at h
    split_ifs at h with hemp <;> cases h
    · exact .turn (.refl s) rfl fun _ => id
    · exact .put hemp
  | committing branch column encoded since =>
    simp only [stampNext] at h
    split at h <;> cases h
    · obtain ⟨hnow, hobjs, href⟩ := commit_spec ‹_›
      have hstmp : ∀ other, s'.Referenced other →
          s.Referenced other ∨ encoded = .sidecar other := by
        intro other hoth
        rcases href other hoth with hold | ⟨latest, hlat, hbr, hmem⟩
        · exact .inl hold
        · exact (StampedVersion.mem_digests_stamp hmem).imp_left fun hold =>
            referenced_iff.2 ⟨branch, hbr, latest, hlat, hold⟩
      cases encoded with
      | inline =>
        exact .turn ⟨hnow.ge, hobjs, fun other hoth =>
          (hstmp other hoth).resolve_right nofun⟩ rfl fun _ => id
      | sidecar digest =>
        refine .commit hnow hobjs fun other hoth => (hstmp other hoth).imp_right ?_
        rintro ⟨⟩
        rfl
    · exact .turn (.refl s) rfl fun _ => id
  | _ => cases h

theorem pruneNext_acts (h : pruneNext s call = some (s', call', event)) :
    Acts digestOf .next s call s' call' := by
  cases call with
  | pruning =>
    simp only [pruneNext] at h
    split_ifs at h <;> cases h
    · exact .turn (.refl s) rfl fun _ => id
    · exact .list
  | listed present =>
    cases h
    exact .collect
  | deleting present referenced removed =>
    cases present with
    | nil =>
      cases h
      exact .turn (.refl s) rfl fun _ => id
    | cons digest present =>
      simp only [pruneNext] at h
      split_ifs at h with hmem <;> cases h
      · exact .skip hmem
      · exact .delete hmem
  | _ => cases h

theorem step_acts {step : SidecarStep}
    (h : (sidecarMachine digestOf).step s call step = some (s', call', event)) :
    Acts digestOf step s call s' call' := by
  cases step with
  | next =>
    cases call with
    | idle => cases h
    | stamping | committing => exact stampNext_acts h
    | pruning | listed | deleting => exact pruneNext_acts h
  | writeSignatures | pruneSidecars =>
    cases call <;> cases h
    exact .turn (.refl s) rfl fun _ => id
  | fail =>
    cases call <;> cases h <;> exact .turn (.refl s) rfl fun _ => id
  | tick duration =>
    cases h
    exact .quiet ⟨Nat.le_add_right .., rfl, fun _ h => h⟩
  | commit branch keep =>
    obtain ⟨_, hcmt, ⟨⟩⟩ := map_eq_some_iff.1 h
    obtain ⟨hnow, hobjs, href⟩ := commit_spec hcmt
    refine .quiet ⟨hnow.ge, hobjs, fun digest hdig => ?_⟩
    rcases href digest hdig with hold | ⟨latest, hlat, hbr, hmem⟩
    · exact hold
    · exact referenced_iff.2
        ⟨branch, hbr, latest, hlat, StampedVersion.mem_digests_filter hmem⟩
  | createBranch name source index =>
    obtain ⟨_, hcreate, ⟨⟩⟩ := map_eq_some_iff.1 h
    exact .quiet (createBranch_quiet hcreate)
  | deleteBranch name =>
    cases h
    refine .quiet (.of_versions rfl rfl fun k found hk hfd => ⟨k, ?_, hfd⟩)
    simp only [hasBranch, SidecarStore.deleteBranch, Bool.or_eq_true, decide_eq_true_eq,
      mem_filter] at hk ⊢
    exact hk.imp_right And.left
  | cleanup branch index =>
    cases h
    refine .quiet (.of_versions rfl rfl fun k found hk hfd => ⟨k, hk, ?_⟩)
    simp only [SidecarStore.cleanup, setVersions, update_apply] at hfd
    split_ifs at hfd with hkb
    · subst hkb
      exact mem_of_mem_eraseIdx hfd
    · exact hfd

end Steps

/-! ### Sidecars that are referenced -/

section Guarded

variable {s s' : SidecarStore Digest} {call call' : SidecarCall Digest} {digest : Digest}

/-- No stamp puts a sidecar that a running prune may still delete, and every stamp is committed
within a week of its put. -/
def Timely (digestOf : SignatureMap → Digest) :
    Condition (SidecarStore Digest) (SidecarCall Digest) SidecarStep := fun c i step =>
  match step with
  | .next =>
    match c.thread i with
    | .stamping _ _ merged => merged ≠ [] → ∀ k, ¬ (c.thread k).Lists (digestOf merged)
    | .committing _ _ (.sidecar _) since => c.shared.now ≤ since + sidecarUnverifiedThreshold
    | _ => True
  | _ => True

/-- What a stamp has put is there for a week, and not older than its put. -/
def Published (s : SidecarStore Digest) (call : SidecarCall Digest) : Prop :=
  ∀ digest since, call.publishes = some (digest, since) → since ≤ s.now ∧
    (s.now ≤ since + sidecarUnverifiedThreshold →
      s.Present digest ∧ ∀ modified, (digest, modified) ∈ s.objects → since ≤ modified)

/-- A prune has collected the references to what it does not delete. -/
def Spared (s : SidecarStore Digest) (call : SidecarCall Digest) : Prop :=
  ∀ digest, call.Dooms digest → ¬ s.Referenced digest

/-- A prune that may delete what a stamp has put did so more than a week later. -/
def Clear (s : SidecarStore Digest) (stamp prune : SidecarCall Digest) : Prop :=
  ∀ digest since, stamp.publishes = some (digest, since) → prune.Lists digest →
    since + sidecarUnverifiedThreshold < s.now

/-- What stamps and prunes keep. -/
structure Guarded (c : Config (SidecarStore Digest) (SidecarCall Digest)) : Prop where
  present : ∀ digest, c.shared.Referenced digest → c.shared.Present digest
  published : ∀ i, Published c.shared (c.thread i)
  spared : ∀ i, Spared c.shared (c.thread i)
  clear : ∀ i k, Clear c.shared (c.thread i) (c.thread k)

theorem SidecarCall.lists_of_dooms (h : call.Dooms digest) : call.Lists digest := by
  cases call with
  | deleting => exact h
  | _ => cases h

theorem SidecarCall.not_lists {since : ℕ} {other : Digest}
    (h : call.publishes = some (digest, since)) : ¬ call.Lists other := by
  cases call with
  | committing => exact id
  | _ => cases h

/-- What a prune will delete later it would have deleted before. -/
theorem dooms_of_rest {present referenced : List Digest} {removed : ℕ} {other : Digest}
    (hc : call = .deleting (digest :: present) referenced removed)
    (h : other ∈ present ∧ other ∉ referenced) : call.Dooms other := by
  rw [hc]
  exact ⟨mem_cons_of_mem _ h.1, h.2⟩

theorem Clear.self (s : SidecarStore Digest) (call : SidecarCall Digest) : Clear s call call :=
  fun _ _ hstm hprune => absurd hprune (SidecarCall.not_lists hstm)

/-- A step of one thread: what has to hold of its call, and of the calls of the others. -/
theorem Guarded.update {c : Config (SidecarStore Digest) (SidecarCall Digest)} {i : ℕ}
    (hpres : ∀ digest, s'.Referenced digest → s'.Present digest)
    (hoths : ∀ k, k ≠ i → Published s' (c.thread k) ∧ Spared s' (c.thread k) ∧
      Clear s' (c.thread k) call' ∧ Clear s' call' (c.thread k) ∧
      ∀ j, j ≠ i → Clear s' (c.thread k) (c.thread j))
    (hpublished : Published s' call') (hspared : Spared s' call') :
    Guarded ⟨s', Function.update c.thread i call'⟩ := by
  refine ⟨hpres, fun k => ?_, fun k => ?_, fun k j => ?_⟩
  · by_cases hk : k = i
    · simpa only [hk, update_self] using hpublished
    · simpa only [update_of_ne hk] using (hoths k hk).1
  · by_cases hk : k = i
    · simpa only [hk, update_self] using hspared
    · simpa only [update_of_ne hk] using (hoths k hk).2.1
  · by_cases hk : k = i <;> by_cases hj : j = i
    · simpa only [hk, hj, update_self] using Clear.self s' call'
    · simpa only [hk, update_self, update_of_ne hj] using
        (hoths j hj).2.2.2.1
    · simpa only [hj, update_self, update_of_ne hk] using (hoths k hk).2.2.1
    · simpa only [update_of_ne hk, update_of_ne hj] using
        (hoths k hk).2.2.2.2 j hj

/-! ### What keeps the guard -/

theorem Published.mono (h : Published s call) (hnow : s.now ≤ s'.now)
    (hobjs : s'.objects = s.objects) : Published s' call := by
  intro digest since hc
  obtain ⟨hle, hfr⟩ := h digest since hc
  refine ⟨hle.trans hnow, fun hnow' => ?_⟩
  rw [SidecarStore.Present, hobjs]
  exact hfr (hnow.trans hnow')

theorem Clear.mono {stamp prune : SidecarCall Digest} (h : Clear s stamp prune)
    (hnow : s.now ≤ s'.now) : Clear s' stamp prune :=
  fun digest since hstm hprune => (h digest since hstm hprune).trans_le hnow

theorem Published.list (h : Published s call) : Clear s call (.listed s.unmodified) := by
  intro digest since hc hls
  obtain ⟨⟨_, modified⟩, hmem, rfl⟩ := mem_map.1 hls
  obtain ⟨hobject, hold⟩ := mem_filter.1 hmem
  have hold : modified + sidecarUnverifiedThreshold < s.now := by simpa using hold
  by_contra hnow
  have hsi := ((h _ since hc).2 (not_lt.1 hnow)).2 modified hobject
  omega

namespace Guarded

variable {c : Config (SidecarStore Digest) (SidecarCall Digest)} {i : ℕ}

theorem of_idle (hi : ∀ i, c.thread i = .idle)
    (hpres : ∀ digest, c.shared.Referenced digest → c.shared.Present digest) : Guarded c := by
  refine ⟨hpres, fun i => ?_, fun i => ?_, fun i k => ?_⟩
  · rw [hi]
    exact fun _ _ h => by cases h
  · rw [hi]
    exact fun _ h => h.elim
  · rw [hi]
    exact fun _ _ h => by cases h

theorem quiet (hc : Guarded c) (hq : c.shared.Quiet s') : Guarded ⟨s', c.thread⟩ where
  present digest h := by
    rw [SidecarStore.Present, hq.objects]
    exact hc.present digest (hq.referenced digest h)
  published k := (hc.published k).mono hq.now hq.objects
  spared k digest hdooms h := hc.spared k digest hdooms (hq.referenced digest h)
  clear k j := (hc.clear k j).mono hq.now

theorem turn (hc : Guarded c) (hpub : call'.publishes = none)
    (hclear : ∀ k, Clear c.shared (c.thread k) call') (hspared : Spared c.shared call') :
    Guarded ⟨c.shared, Function.update c.thread i call'⟩ := by
  refine .update hc.present (fun k _ => ?_) ?_ hspared
  · exact ⟨hc.published k, hc.spared k, hclear k, by simp [Clear, hpub],
      fun j _ => hc.clear k j⟩
  · simp [Published, hpub]

theorem commit (hc : Guarded c) {branch : Branch} {column : String} {since : ℕ}
    (hcall : c.thread i = .committing branch column (.sidecar digest) since)
    (htimely : c.shared.now ≤ since + sidecarUnverifiedThreshold) (hnow : s'.now = c.shared.now)
    (hobjs : s'.objects = c.shared.objects)
    (href : ∀ other, s'.Referenced other → c.shared.Referenced other ∨ other = digest) :
    Guarded ⟨s', Function.update c.thread i .idle⟩ := by
  have hpub : (c.thread i).publishes = some (digest, since) := by rw [hcall]; rfl
  refine .update (fun other hoth => ?_) (fun k hk => ⟨?_, ?_, ?_, ?_, fun j hj => ?_⟩) ?_ ?_
  · rw [SidecarStore.Present, hobjs]
    rcases href other hoth with hold | rfl
    · exact hc.present other hold
    · exact ((hc.published i other since hpub).2 htimely).1
  · exact (hc.published k).mono hnow.ge hobjs
  · intro other hdooms hoth
    rcases href other hoth with hold | rfl
    · exact hc.spared k other hdooms hold
    · -- no prune dooms what was put within a week
      have := hc.clear i k other since hpub (SidecarCall.lists_of_dooms hdooms)
      omega
  · exact fun _ _ _ h => h.elim
  · exact fun _ _ h => by cases h
  · exact (hc.clear k j).mono hnow.ge
  · exact fun _ _ h => by cases h
  · exact fun _ h => h.elim

end Guarded

variable [DecidableEq Digest] {modified : ℕ} {other : Digest}

theorem mem_put : (other, modified) ∈ (s.put digest).objects ↔
    ((other, modified) ∈ s.objects ∧ other ≠ digest) ∨ (other = digest ∧ modified = s.now) := by
  simp [SidecarStore.put]

theorem mem_delete : (other, modified) ∈ (s.delete digest).objects ↔
    (other, modified) ∈ s.objects ∧ other ≠ digest := by
  simp [SidecarStore.delete]

theorem present_put (h : s.Present other) : (s.put digest).Present other := by
  obtain ⟨modified, hmem⟩ := h
  by_cases hoth : other = digest
  · exact ⟨s.now, mem_put.2 (.inr ⟨hoth, rfl⟩)⟩
  · exact ⟨modified, mem_put.2 (.inl ⟨hmem, hoth⟩)⟩

theorem Published.put (h : Published s call) : Published (s.put digest) call := by
  intro other since hc
  obtain ⟨hle, hfr⟩ := h other since hc
  refine ⟨hle, fun hnow => ?_⟩
  obtain ⟨hpres, hold⟩ := hfr hnow
  refine ⟨present_put hpres, fun modified hmem => ?_⟩
  rcases mem_put.1 hmem with ⟨hmem, -⟩ | ⟨-, rfl⟩
  · exact hold modified hmem
  · exact hle

/-- What a prune deletes is not what a stamp of this week has put. -/
theorem Published.delete {prune : SidecarCall Digest} (h : Published s call)
    (hclear : Clear s call prune) (hls : prune.Lists digest) :
    Published (s.delete digest) call := by
  intro other since hc
  obtain ⟨hle, hfr⟩ := h other since hc
  refine ⟨hle, fun hnow => ?_⟩
  have hoth : other ≠ digest := by
    rintro rfl
    exact absurd hnow (not_le.2 (hclear other since hc hls))
  obtain ⟨⟨modified, hmem⟩, hold⟩ := hfr hnow
  exact ⟨⟨modified, mem_delete.2 ⟨hmem, hoth⟩⟩, fun modified' hmem' =>
    hold modified' (mem_delete.1 hmem').1⟩

namespace Guarded

variable {c : Config (SidecarStore Digest) (SidecarCall Digest)} {i : ℕ}

/-- A stamp puts a sidecar that no prune has listed. -/
theorem put (hc : Guarded c) (hls : ∀ k, ¬ (c.thread k).Lists digest) (branch : Branch)
    (column : String) :
    Guarded ⟨c.shared.put digest, Function.update c.thread i
      (.committing branch column (.sidecar digest) c.shared.now)⟩ := by
  refine .update (fun other hoth => present_put (hc.present other hoth))
    (fun k hk => ⟨(hc.published k).put, hc.spared k, ?_, ?_, fun j _ => hc.clear k j⟩) ?_ ?_
  · exact fun _ _ _ h => h.elim
  · rintro _ _ ⟨⟩ hlisted
    exact absurd hlisted (hls k)
  · rintro _ _ ⟨⟩
    refine ⟨le_rfl, fun _ => ⟨⟨_, mem_put.2 (.inr ⟨rfl, rfl⟩)⟩, fun modified hmem => ?_⟩⟩
    rcases mem_put.1 hmem with ⟨-, hne⟩ | ⟨-, rfl⟩
    · exact absurd rfl hne
    · exact le_rfl
  · exact fun _ h => h.elim

theorem delete (hc : Guarded c) {present referenced : List Digest} {removed : ℕ}
    (hcall : c.thread i = .deleting (digest :: present) referenced removed)
    (hmem : digest ∉ referenced) :
    Guarded ⟨c.shared.delete digest, Function.update c.thread i
      (.deleting present referenced (removed + 1))⟩ := by
  have hdooms : (c.thread i).Dooms digest := by
    rw [hcall]
    exact ⟨mem_cons_self .., hmem⟩
  refine .update (fun other hoth => ?_) (fun k hk => ⟨?_, hc.spared k, ?_, ?_, ?_⟩) ?_ ?_
  · obtain ⟨modified, hobject⟩ := hc.present other hoth
    refine ⟨modified, mem_delete.2 ⟨hobject, ?_⟩⟩
    rintro rfl
    exact hc.spared i other hdooms hoth
  · exact (hc.published k).delete (hc.clear k i) (SidecarCall.lists_of_dooms hdooms)
  · exact fun other since hstm hls =>
      hc.clear k i other since hstm (SidecarCall.lists_of_dooms (dooms_of_rest hcall hls))
  · exact fun _ _ h => by cases h
  · exact fun j _ => hc.clear k j
  · exact fun _ _ h => by cases h
  · exact fun other hoth => hc.spared i other (dooms_of_rest hcall hoth)

/-- **Timely stamps and prunes keep the guard.** -/
theorem step {digestOf : SignatureMap → Digest} {step : SidecarStep} (hc : Guarded c)
    (htimely : Timely digestOf c i step)
    (ha : Acts digestOf step c.shared (c.thread i) s' call') :
    Guarded ⟨s', Function.update c.thread i call'⟩ := by
  generalize hsto : c.shared = s at ha
  generalize hcall : c.thread i = call at ha
  cases ha with
  | quiet hq =>
    rw [← hcall, update_eq_self]
    exact hc.quiet (hsto ▸ hq)
  | turn hq hpub hls =>
    refine (hc.quiet (hsto ▸ hq)).turn hpub (fun k => ?_) ?_
    · exact fun digest _ _ h => absurd h (hls digest)
    · exact fun digest h => absurd (SidecarCall.lists_of_dooms h) (hls digest)
  | put hmgd =>
    subst hsto
    simp only [Timely, hcall] at htimely
    exact hc.put (htimely hmgd) _ _
  | commit hnow hobjs href =>
    subst hsto
    simp only [Timely, hcall] at htimely
    exact hc.commit hcall htimely hnow hobjs href
  | list =>
    subst hsto
    exact hc.turn rfl (fun k => (hc.published k).list) fun _ h => h.elim
  | collect =>
    subst hsto
    refine hc.turn rfl (fun k digest since hstm hls => ?_) fun _ h => h.2
    exact hc.clear k i digest since hstm (by rw [hcall]; exact hls.1)
  | skip hmem =>
    subst hsto
    refine hc.turn rfl (fun k digest since hstm hls => ?_) fun other h =>
      hc.spared i other (dooms_of_rest hcall h)
    exact hc.clear k i digest since hstm (SidecarCall.lists_of_dooms (dooms_of_rest hcall hls))
  | delete hmem =>
    subst hsto
    exact hc.delete hcall hmem

end Guarded

end Guarded

/-! ### Whole runs -/

variable [DecidableEq Digest] {digestOf : SignatureMap → Digest}
  {c c' : Config (SidecarStore Digest) (SidecarCall Digest)}

/-- **A sidecar that a retained version references is there**, in every state of a run of timely
stamps and prunes: no prune ever deletes it. -/
theorem referenced_present {es : List (ℕ × SidecarEvent)} (hidle : ∀ i, c.thread i = .idle)
    (hpresent : ∀ digest, c.shared.Referenced digest → c.shared.Present digest)
    (hrun : (sidecarMachine digestOf).Run (Timely digestOf) c es c') :
    ∀ digest, c'.shared.Referenced digest → c'.shared.Present digest := by
  refine (hrun.invariant ?_ (Guarded.of_idle hidle hpresent)).present
  rintro c i event ⟨s', thread⟩ ⟨step, call', hs, htimely, rfl⟩ hc
  exact hc.step htimely (step_acts hs)

/-! ### Two runs -/

/-- A table with a computed column and an old sidecar that nothing references any more. -/
def oldSidecar : Config (SidecarStore ℕ) (SidecarCall ℕ) where
  shared :=
    { now := 8 * 24 * 60 * 60
      objects := [(1, 0)]
      branches := []
      versions := Function.update (fun _ => []) none [⟨[("c", .inline)]⟩] }
  thread _ := .idle

theorem oldSidecar_present :
    ∀ digest, oldSidecar.shared.Referenced digest → oldSidecar.shared.Present digest := by
  simp [oldSidecar, SidecarStore.Referenced, SidecarStore.collected,
    SidecarStore.referencedDigests, StampedVersion.digests]

/-- A stamp, and a prune a week later. -/
def stampThenPrune : List (ℕ × SidecarStep) :=
  [(0, .next), (1, .tick (8 * 24 * 60 * 60)), (1, .pruneSidecars), (1, .next), (1, .next),
    (1, .next), (1, .next)]

/-- Steps other than a put, commits in time. -/
def timelyCheck (c : Config (SidecarStore ℕ) (SidecarCall ℕ)) (i : ℕ) : SidecarStep → Bool
  | .next =>
    match c.thread i with
    | .stamping .. => false
    | .committing _ _ (.sidecar _) since => c.shared.now ≤ since + sidecarUnverifiedThreshold
    | _ => true
  | _ => true

theorem timely_of_check {digestOf : SignatureMap → ℕ}
    (c : Config (SidecarStore ℕ) (SidecarCall ℕ)) (i : ℕ) (step : SidecarStep)
    (h : timelyCheck c i step) : Timely digestOf c i step := by
  cases step with
  | next =>
    cases hc : c.thread i with
    | stamping => simp [timelyCheck, hc] at h
    | committing branch column encoded since =>
      cases encoded with
      | inline => simp [Timely, hc]
      | sidecar digest => simpa [Timely, timelyCheck, hc] using h
    | _ => simp [Timely, hc]
  | _ => trivial

/-- A stamp has started.  The digest of its map is the one of the old sidecar. -/
def demoStart : Config (SidecarStore ℕ) (SidecarCall ℕ) :=
  (sidecarMachine List.length).after oldSidecar [(0, .writeSignatures none "c" [(0, "a")])]

/-- It has put its sidecar. -/
def demoPut : Config (SidecarStore ℕ) (SidecarCall ℕ) :=
  (sidecarMachine List.length).after demoStart [(0, .next)]

/-- It is committed and referenced, when a prune runs a week later. -/
def demoPruned : Config (SidecarStore ℕ) (SidecarCall ℕ) :=
  (sidecarMachine List.length).after demoPut stampThenPrune

theorem demoPruned_run :
    (sidecarMachine List.length).Run (Timely List.length) oldSidecar
      [(0, .stamped), (1, .pruned 0)] demoPruned := by
  have hs : (sidecarMachine List.length).exec timelyCheck oldSidecar
      [(0, .writeSignatures none "c" [(0, "a")])] = some (demoStart, []) := rfl
  have hput : (sidecarMachine List.length).Fires (Timely List.length) demoStart 0 none demoPut := by
    refine ⟨.next, _, rfl, ?_, rfl⟩
    -- no prune is running
    rintro - (_ | k) h
    · exact h
    · exact h
  have hr : (sidecarMachine List.length).exec timelyCheck demoPut stampThenPrune =
      some (demoPruned, [(0, .stamped), (1, .pruned 0)]) := rfl
  exact (run_of_exec timely_of_check hs).trans
    (.silent hput (run_of_exec timely_of_check hr))

/-- The prune has listed the sidecar and spared it. -/
theorem referenced_present_demo :
    demoPruned.shared.Referenced 1 ∧ demoPruned.shared.Present 1 := by
  have href : demoPruned.shared.Referenced 1 := mem_of_getElem? (i := 0) rfl
  exact ⟨href,
    referenced_present (fun _ => rfl) oldSidecar_present demoPruned_run 1 href⟩

/-- A prune lists the old sidecar and collects the references.  Before it deletes, a stamp with the
same map puts the sidecar again and commits. -/
def stampInPrune : List (ℕ × SidecarStep) :=
  [(1, .pruneSidecars), (1, .next), (1, .next), (0, .writeSignatures none "c" [(0, "a")]),
    (0, .next), (0, .next), (1, .next)]

/-- **A prune may delete a sidecar that a retained version references.** -/
theorem prune_deletes_referenced :
    ∃ c, (sidecarMachine List.length).Run Condition.any oldSidecar [(0, .stamped)] c ∧
      c.shared.Referenced 1 ∧ ¬ c.shared.Present 1 := by
  have hrun : (sidecarMachine List.length).Run Condition.any oldSidecar [(0, .stamped)]
      ((sidecarMachine List.length).after oldSidecar stampInPrune) := run_after rfl
  refine ⟨_, hrun, mem_of_getElem? (i := 0) rfl, ?_⟩
  rintro ⟨modified, hmem⟩
  cases hmem

end LanceDB.Computed
