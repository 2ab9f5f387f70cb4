import LanceDB.MemWal.Session

/-!
# The rows of a MemWAL stay

Where the rows of a session are, and that no step loses one, as long as closing a writer overlaps
neither a read nor the opening of another writer.

* `Apart` : this condition.
* `Session.Moves`, `moves_of_apart` — what a step under the condition does to the session.
* `Session.Sound` : a writer knows what is on disk, generations only grow, and a base version has
  the rows of the SSTables up to its watermarks.
* `Session.Sound.moves`, `Session.Stored.moves` — every step keeps the invariant and the rows.
-/

namespace LanceDB.MemWal

open Machine List Function Option

variable {R : Type}
variable {frozen : List (Memtable R)} {memtable : Memtable R} {generation shardId : ℕ}

/-! ### Where a row is -/

/-- The row is in an SSTable of the manifest. -/
def ShardManifest.Holds (manifest : ShardManifest R) (r : R) : Prop :=
  ∃ sstable ∈ manifest.sstables, r ∈ sstable.rows

/-- The row is in a memtable. -/
def InMemoryMemTables.Holds (memtables : InMemoryMemTables R) (r : R) : Prop :=
  ∃ memtable ∈ memtables.active :: memtables.frozen, r ∈ memtable.rows

/-- A snapshot retains the row. -/
def ShardSnapshot.Holds (snapshot : ShardSnapshot R) (r : R) : Prop :=
  ∃ sstable ∈ snapshot.sstables, r ∈ sstable.rows

/-- A read has the row. -/
def ReadContext.Holds (context : ReadContext R) (r : R) : Prop :=
  r ∈ context.base.rows ∨ (∃ snapshot ∈ context.snapshots, snapshot.Holds r) ∨
    ∃ inMemory ∈ context.inMemory, inMemory.2.Holds r

/-- A writer has the row in a memtable or in an SSTable that it knows of. -/
def ShardWriter.Holds (writer : ShardWriter R) (r : R) : Prop :=
  writer.inMemoryMemtableRefs.Holds r ∨ writer.manifest.Holds r

/-- The row is in the manifest of a shard on disk. -/
def Session.OnDisk (s : Session R) (shardId : ℕ) (r : R) : Prop :=
  ∃ manifest, s.disk shardId = some manifest ∧ manifest.Holds r

/-- The row is in a writer that is not closed yet, or on disk. -/
def Session.Stored (s : Session R) (r : R) : Prop :=
  (∃ (e : ℕ) (entry : ShardWriterEntry R), s.entries[e]? = some entry ∧ entry.phase ≠ .closed ∧
      entry.writer.Holds r) ∨
    ∃ shardId, s.OnDisk shardId r

/-- The cached writer has the row. -/
def Session.InSlot (s : Session R) (r : R) : Prop :=
  ∃ (shardId e : ℕ) (entry : ShardWriterEntry R), s.slot = some (shardId, e) ∧
    s.entries[e]? = some entry ∧ entry.writer.Holds r

/-! ### The condition -/

/-- A call is between the start of a read and its return. -/
def Call.reading : Call R → Bool
  | .listing _ | .loading .. | .capturing .. | .captured .. => true
  | _ => false

/-- Every writer that is not in the slot is closed. -/
def Session.Drained (s : Session R) : Prop :=
  ∀ (e : ℕ) (entry : ShardWriterEntry R), s.entries[e]? = some entry → entry.phase ≠ .closed →
    ∃ shardId, s.slot = some (shardId, e)

/-- Closing a writer overlaps neither a read nor the opening of another writer. -/
def Apart : Condition (Session R) (Call R) (Step R) := fun c i step =>
  match step with
  | .read .. => c.shared.Drained
  | .next =>
    match c.thread i with
    | .opening .. => c.shared.slot = none → c.shared.Drained
    | .draining => c.shared.slot ≠ none → ∀ k, (c.thread k).reading = false
    | _ => True
  | _ => True

/-! ### What a step does -/

/-- What happens to the writer of an entry. -/
inductive Writes : ShardWriter R → ShardWriter R → Prop
  | put {writer : ShardWriter R} (rows : List R) : Writes writer (writer.put rows)
  | freeze {writer : ShardWriter R} : Writes writer writer.freeze
  | recorded {writer : ShardWriter R} {memtable : Memtable R} {frozen : List (Memtable R)} :
      writer.frozen = memtable :: frozen → writer.stage = .written →
      Writes writer { writer with
        manifest := writer.manifest.record memtable
        stage := .recorded }
  | dropped {writer : ShardWriter R} {memtable : Memtable R} {frozen : List (Memtable R)} :
      writer.frozen = memtable :: frozen → writer.stage = .recorded →
      Writes writer { writer with frozen := frozen, stage := .waiting }

/-- What happens to a session, where no writer leaves the slot while a read goes on. -/
inductive Session.Moves (reading : Prop) : Session R → Session R → Prop
  | same {s : Session R} : Moves reading s s
  | writes {s : Session R} {e : ℕ} {entry : ShardWriterEntry R} {writer : ShardWriter R} :
      s.entries[e]? = some entry → entry.phase ≠ .closed → Writes entry.writer writer →
      Moves reading s (s.setEntry e { entry with writer := writer })
  | written {s : Session R} {e : ℕ} {entry : ShardWriterEntry R} {memtable : Memtable R}
      {frozen : List (Memtable R)} {manifest : ShardManifest R} :
      s.entries[e]? = some entry → entry.phase ≠ .closed →
      entry.writer.frozen = memtable :: frozen → entry.writer.stage = .waiting →
      s.disk entry.shardId = some manifest →
      Moves reading s
        ((s.setEntry e { entry with writer := { entry.writer with stage := .written } }).setManifest
          entry.shardId (manifest.record memtable))
  | opened {s : Session R} (shardId : ℕ) : s.slot = none → s.Drained →
      Moves reading s (s.memWalWriter shardId)
  | taken {s : Session R} : ¬ reading → Moves reading s { s with slot := none }
  | closing {s : Session R} {e : ℕ} {entry : ShardWriterEntry R} :
      s.entries[e]? = some entry → entry.phase = .open → (∀ shardId, s.slot ≠ some (shardId, e)) →
      Moves reading s (s.setEntry e { entry with phase := .closing })
  | closed {s : Session R} {e : ℕ} {entry : ShardWriterEntry R} :
      s.entries[e]? = some entry → (∀ shardId, s.slot ≠ some (shardId, e)) →
      entry.writer.active.rows = [] → entry.writer.frozen = [] →
      Moves reading s (s.setEntry e { entry with phase := .closed })
  | compacted {s : Session R} {shardId generation : ℕ} {manifest : ShardManifest R}
      {base : BaseVersion R} (indexCatchup : List IndexCatchup) :
      s.disk shardId = some manifest → base ∈ s.versions →
      (∃ sstable ∈ manifest.sstables, sstable.generation = generation) →
      Moves reading s
        { s with
          versions := s.versions ++
            [⟨⟨⟨shardId, generation⟩ ::
                base.details.compactedSstables.filter (·.shardId ≠ shardId), indexCatchup⟩,
              base.rows ++
                (manifest.sstables.filter (·.generation ≤ generation)).flatMap (·.rows)⟩] }

/-- An entry that is being closed is not in the slot. -/
def Call.Owns (s : Session R) : Call R → Prop
  | .closing e | .flushing e => e < s.entries.length ∧ ∀ shardId, s.slot ≠ some (shardId, e)
  | _ => True

section Cases

variable {s s' : Session R} {call call' : Call R} {event : Option (Event R)} {reading : Prop}

theorem freeze_moves {e : ℕ} (h : s.freeze e = some s') : s.Moves reading s' := by
  obtain ⟨entry, hent, h⟩ := bind_eq_some_iff.1 h
  split_ifs at h with hph
  cases h
  exact .writes hent hph .freeze

theorem flush_moves {e : ℕ} (h : s.flush e = some s') : s.Moves reading s' := by
  obtain ⟨entry, hent, h⟩ := bind_eq_some_iff.1 h
  split_ifs at h with hph
  split at h
  · cases h
  · obtain ⟨manifest, hd, ⟨⟩⟩ := bind_eq_some_iff.1 h
    exact .written hent hph ‹_› ‹_› hd
  · cases h
    exact .writes hent hph (.recorded ‹_› ‹_›)
  · cases h
    exact .writes hent hph (.dropped ‹_› ‹_›)

theorem compact_moves {indexCatchup : List IndexCatchup}
    (h : s.compact shardId generation indexCatchup = some s') : s.Moves reading s' := by
  obtain ⟨manifest, hd, h⟩ := bind_eq_some_iff.1 h
  obtain ⟨base, hb, h⟩ := bind_eq_some_iff.1 h
  split_ifs at h with hany
  cases h
  refine .compacted indexCatchup hd (mem_of_getLast? hb) ?_
  simpa using hany

theorem readNext_same (h : readNext s call = some (s', call', event)) : s' = s := by
  cases call with
  | loading task shards snapshots =>
    cases shards <;> simp only [readNext] at h <;> split at h <;> cases h <;> rfl
  | capturing | captured =>
    obtain ⟨entry, -, ⟨⟩⟩ := bind_eq_some_iff.1 h
    rfl
  | listing task =>
    cases h
    rfl
  | _ => cases h

theorem useCached_same {cached e : ℕ} {rows : List R}
    (h : useCached s cached e shardId rows = some (s', call', event)) : s' = s := by
  rw [useCached] at h
  split_ifs at h <;> cases h <;> rfl

theorem insertNext_moves (h : insertNext s call = some (s', call', event))
    (hopening : ∀ shardId rows, call = .opening shardId rows → s.slot = none → s.Drained) :
    s.Moves reading s' := by
  cases call with
  | writerFor shardId rows =>
    simp only [insertNext] at h
    split at h
    · rw [useCached_same h]
      exact .same
    · cases h
      exact .same
  | opening shardId rows =>
    simp only [insertNext] at h
    split at h
    · rw [useCached_same h]
      exact .same
    · cases h
      exact .opened shardId ‹_› (hopening _ _ rfl ‹_›)
  | putting e rows =>
    obtain ⟨entry, hent, h⟩ := bind_eq_some_iff.1 h
    split_ifs at h with hph
    · cases h
      exact .writes hent (by simp [hph]) (.put rows)
    · cases h
      exact .same
  | added rows =>
    cases h
    exact .same
  | _ => cases h

theorem drainNext_moves (h : drainNext s call = some (s', call', event))
    (hdr : call = .draining → s.slot ≠ none → ¬ reading) (howns : call.Owns s) :
    s.Moves reading s' := by
  cases call with
  | draining =>
    simp only [drainNext] at h
    split at h <;> cases h
    · exact .taken (hdr rfl (by simp [*]))
    · exact .same
  | closing e =>
    obtain ⟨entry, hent, h⟩ := bind_eq_some_iff.1 h
    split_ifs at h with hph
    · cases h
      exact .closing hent hph howns.2
    · cases h
      exact .same
  | flushing e =>
    obtain ⟨entry, hent, h⟩ := bind_eq_some_iff.1 h
    split_ifs at h with hact hfrz
    · obtain ⟨_, hfreeze, ⟨⟩⟩ := map_eq_some_iff.1 h
      exact freeze_moves hfreeze
    · obtain ⟨_, hfl, ⟨⟩⟩ := map_eq_some_iff.1 h
      exact flush_moves hfl
    · cases h
      exact .closed hent howns.2 (by simpa using hact) (by simpa using hfrz)
  | _ => cases h

theorem next_cases (h : next s call = some (s', call', event)) :
    insertNext s call = some (s', call', event) ∨ drainNext s call = some (s', call', event) ∨
      readNext s call = some (s', call', event) := by
  cases call with
  | idle => cases h
  | writerFor | opening | putting | added => exact .inl h
  | draining | closing | flushing => exact .inr (.inl h)
  | listing | loading | capturing | captured => exact .inr (.inr h)

/-- A step is one of a call under way, or starts or ends one without an effect, or leaves its call
where it is. -/
theorem step_cases (reading : Prop) {step : Step R}
    (h : memWalMachine.step s call step = some (s', call', event)) :
    (step = .next ∧ next s call = some (s', call', event)) ∨
      (s' = s ∧ call' = .idle ∧ event = some .failed) ∨
      (s' = s ∧ start s step = some (s, call', event)) ∨
      (call' = call ∧ event = none ∧ s.Moves reading s') := by
  cases step with
  | next => exact .inl ⟨rfl, h⟩
  | fail =>
    simp only [memWalMachine, fails] at h
    split at h <;> cases h
    exact .inr (.inl ⟨rfl, rfl, rfl⟩)
  | freeze e =>
    obtain ⟨_, hfreeze, ⟨⟩⟩ := map_eq_some_iff.1 h
    exact .inr (.inr (.inr ⟨rfl, rfl, freeze_moves hfreeze⟩))
  | flush e =>
    obtain ⟨_, hfl, ⟨⟩⟩ := map_eq_some_iff.1 h
    exact .inr (.inr (.inr ⟨rfl, rfl, flush_moves hfl⟩))
  | compact shardId generation indexCatchup =>
    obtain ⟨_, hcomp, ⟨⟩⟩ := map_eq_some_iff.1 h
    exact .inr (.inr (.inr ⟨rfl, rfl, compact_moves hcomp⟩))
  | mergeInsert | drainAndClose =>
    simp only [memWalMachine] at h
    split at h <;> cases h
    exact .inr (.inr (.inl ⟨rfl, rfl⟩))
  | read version indexNames =>
    simp only [memWalMachine] at h
    split at h
    · obtain ⟨base, hb, ⟨⟩⟩ := map_eq_some_iff.1 h
      exact .inr (.inr (.inl ⟨rfl, h⟩))
    · cases h

theorem moves_of_apart {c : Config (Session R) (Call R)} {i : ℕ} {step : Step R}
    (h : memWalMachine.step c.shared (c.thread i) step = some (s', call', event))
    (hap : Apart c i step) (howns : (c.thread i).Owns c.shared) :
    c.shared.Moves (∃ k, (c.thread k).reading = true) s' := by
  rcases step_cases _ h with ⟨rfl, hn⟩ | ⟨rfl, -⟩ | ⟨rfl, -⟩ | ⟨-, -, hm⟩
  · rcases next_cases hn with hins | hdr | hr
    · refine insertNext_moves hins ?_
      intro shardId rows hc
      simpa only [Apart, hc] using hap
    · refine drainNext_moves hdr ?_ howns
      intro hc hs hrd
      simp only [Apart, hc] at hap
      obtain ⟨k, hk⟩ := hrd
      rw [hap hs k] at hk
      cases hk
    · rw [readNext_same hr]
      exact .same
  · exact .same
  · exact .same
  · exact hm

end Cases

/-! ### Writers -/

namespace ShardWriter

/-- The manifest on disk, as the writer knows it. -/
def onDisk (writer : ShardWriter R) : ShardManifest R :=
  match writer.stage, writer.frozen with
  | .written, memtable :: _ => writer.manifest.record memtable
  | _, _ => writer.manifest

/-- The frozen memtables that are not on disk yet. -/
def waiting (writer : ShardWriter R) : List (Memtable R) :=
  match writer.stage with
  | .waiting => writer.frozen
  | _ => writer.frozen.tail

/-- The generations that are not on disk yet. -/
def unwritten (writer : ShardWriter R) : List ℕ :=
  writer.waiting.map (·.generation) ++ [writer.active.generation]

/-- What a writer keeps about its memtables. -/
structure Sound (writer : ShardWriter R) : Prop where
  flushing : writer.stage ≠ .waiting → writer.frozen ≠ []
  recorded : writer.stage = .recorded → ∀ memtable ∈ writer.frozen.head?,
    ⟨memtable.generation, memtable.rows⟩ ∈ writer.manifest.sstables
  sorted : writer.unwritten.Pairwise (· < ·)
  later : ∀ generation ∈ writer.unwritten, writer.onDisk.currentGeneration ≤ generation

variable {writer writer' : ShardWriter R} {r : R}

theorem opened_sound (manifest : ShardManifest R) : (opened manifest).Sound where
  flushing h := absurd rfl h
  recorded h := by cases h
  sorted := by simp [unwritten, waiting, opened]
  later := by simp [unwritten, waiting, opened, onDisk]

theorem le_active (h : writer.Sound) (hmem : generation ∈ writer.unwritten) :
    generation ≤ writer.active.generation := by
  have hsort := pairwise_append.1 h.sorted
  rcases mem_append.1 hmem with hfrz | hact
  · exact Nat.le_of_lt (hsort.2.2 _ hfrz _ (mem_singleton_self _))
  · exact Nat.le_of_eq (mem_singleton.1 hact)

theorem unwritten_freeze (h : writer.Sound) :
    writer.freeze.unwritten = writer.unwritten ++ [writer.active.generation + 1] := by
  cases hstg : writer.stage with
  | waiting => simp [unwritten, waiting, freeze, hstg]
  | written | recorded =>
    have hne := h.flushing (by simp [hstg])
    simp [unwritten, waiting, freeze, hstg, tail_append_of_ne_nil hne]

theorem onDisk_freeze (h : writer.Sound) : writer.freeze.onDisk = writer.onDisk := by
  cases hstg : writer.stage with
  | waiting | recorded => simp [onDisk, freeze, hstg]
  | written =>
    obtain ⟨memtable, frozen, hfrz⟩ := exists_cons_of_ne_nil (h.flushing (by simp [hstg]))
    simp [onDisk, freeze, hstg, hfrz]

theorem freeze_sound (h : writer.Sound) : writer.freeze.Sound where
  flushing _ := by simp [freeze]
  recorded hstg := by
    obtain ⟨memtable, frozen, hfrz⟩ :=
      exists_cons_of_ne_nil (h.flushing (by simp_all [freeze]))
    have hrec := h.recorded hstg
    simpa [freeze, hfrz] using hrec
  sorted := by
    rw [unwritten_freeze h, pairwise_append]
    refine ⟨h.sorted, pairwise_singleton .., ?_⟩
    intro g hg g' hg'
    rw [mem_singleton.1 hg']
    exact Nat.lt_succ_of_le (le_active h hg)
  later := by
    rw [unwritten_freeze h, onDisk_freeze h]
    intro g hg
    rcases mem_append.1 hg with hold | hnew
    · exact h.later g hold
    · have hact := h.later writer.active.generation (by simp [unwritten])
      rw [mem_singleton.1 hnew]
      omega

theorem written_sound (h : writer.Sound) (hwait : writer.stage = .waiting)
    (hfrz : writer.frozen = memtable :: frozen) : { writer with stage := .written }.Sound := by
  have hunw : writer.unwritten =
      memtable.generation :: { writer with stage := FlushStage.written }.unwritten := by
    simp [unwritten, waiting, hwait, hfrz]
  have hsort := h.sorted
  rw [hunw, pairwise_cons] at hsort
  refine ⟨fun _ => by simp [hfrz], fun hrec => (by cases hrec), hsort.2, ?_⟩
  intro g hg
  have hlt : memtable.generation + 1 ≤ g := hsort.1 g hg
  simpa [onDisk, hfrz, ShardManifest.record] using hlt

/-- What is on disk stays, and so do the generations that are not. -/
theorem Sound.same (h : writer.Sound) (hod : writer'.onDisk = writer.onDisk)
    (hunw : writer'.unwritten = writer.unwritten)
    (hflushing : writer'.stage ≠ .waiting → writer'.frozen ≠ [])
    (hrec : writer'.stage = .recorded → ∀ memtable ∈ writer'.frozen.head?,
      ⟨memtable.generation, memtable.rows⟩ ∈ writer'.manifest.sstables) :
    writer'.Sound ∧ writer'.onDisk = writer.onDisk :=
  ⟨⟨hflushing, hrec, hunw ▸ h.sorted, hunw ▸ hod ▸ h.later⟩, hod⟩

theorem recorded_sound (h : writer.Sound) (hwr : writer.stage = .written)
    (hfrz : writer.frozen = memtable :: frozen) :
    { writer with manifest := writer.manifest.record memtable, stage := .recorded }.Sound ∧
      { writer with manifest := writer.manifest.record memtable, stage := .recorded }.onDisk =
        writer.onDisk := by
  refine h.same ?_ ?_ (fun _ => by simp [hfrz]) ?_
  · simp [onDisk, hwr, hfrz]
  · simp [unwritten, waiting, hwr]
  · intro _ m hm
    obtain rfl : memtable = m := by simpa [hfrz] using hm
    simp [ShardManifest.record]

theorem dropped_sound (h : writer.Sound) (hrec : writer.stage = .recorded)
    (hfrz : writer.frozen = memtable :: frozen) :
    { writer with frozen := frozen, stage := .waiting }.Sound ∧
      { writer with frozen := frozen, stage := .waiting }.onDisk = writer.onDisk := by
  refine h.same ?_ ?_ (fun hne => absurd rfl hne) (fun hstg => by cases hstg)
  · simp [onDisk, hrec]
  · simp [unwritten, waiting, hrec, hfrz]

/-- What is on disk is known to the writer, or in the memtable that is being flushed. -/
theorem holds_of_onDisk (h : writer.onDisk.Holds r) : writer.Holds r := by
  rw [onDisk] at h
  split at h
  · obtain ⟨sstable, hsst, hr⟩ := h
    rcases mem_append.1 hsst with hold | hnew
    · exact .inr ⟨sstable, hold, hr⟩
    · rw [mem_singleton.1 hnew] at hr
      exact .inl ⟨_, mem_cons_of_mem _ (by simp [inMemoryMemtableRefs, *]), hr⟩
  · exact .inr h

theorem mem_onDisk {sstable : SsTable R} (h : sstable ∈ writer.manifest.sstables) :
    sstable ∈ writer.onDisk.sstables := by
  rw [onDisk]
  split
  · exact mem_append_left _ h
  · exact h

end ShardWriter

section Writes

variable {writer writer' : ShardWriter R} {r : R}

/-- **What a writer does keeps its invariant**, and leaves the manifest on disk alone. -/
theorem Writes.sound (hws : Writes writer writer') (h : writer.Sound) :
    writer'.Sound ∧ writer'.onDisk = writer.onDisk := by
  cases hws with
  | put rows => exact ⟨⟨h.flushing, h.recorded, h.sorted, h.later⟩, rfl⟩
  | freeze => exact ⟨ShardWriter.freeze_sound h, ShardWriter.onDisk_freeze h⟩
  | recorded hfrz hstg => exact ShardWriter.recorded_sound h hstg hfrz
  | dropped hfrz hstg => exact ShardWriter.dropped_sound h hstg hfrz

theorem Writes.manifest (hws : Writes writer writer') (h : writer.manifest.Holds r) :
    writer'.manifest.Holds r := by
  cases hws with
  | recorded =>
    obtain ⟨sstable, hsst, hr⟩ := h
    exact ⟨sstable, mem_append_left _ hsst, hr⟩
  | _ => exact h

theorem Writes.holds (hws : Writes writer writer') (hs : writer.Sound)
    (h : writer.Holds r) : writer'.Holds r := by
  rcases h with ⟨memtable, hmemtable, hr⟩ | hman
  · cases hws with
    | put rows =>
      rcases mem_cons.1 hmemtable with rfl | hfrz
      · exact .inl ⟨_, mem_cons_self .., mem_append_left _ hr⟩
      · exact .inl ⟨memtable, mem_cons_of_mem _ hfrz, hr⟩
    | freeze =>
      refine .inl ⟨memtable, mem_cons_of_mem _ (mem_append.2 ?_), hr⟩
      rcases mem_cons.1 hmemtable with rfl | hfrz
      · exact .inr (mem_singleton_self _)
      · exact .inl hfrz
    | recorded => exact .inl ⟨memtable, hmemtable, hr⟩
    | @dropped oldest _ hfrz hstg =>
      rcases mem_cons.1 hmemtable with rfl | hmem
      · exact .inl ⟨_, mem_cons_self .., hr⟩
      · rw [ShardWriter.inMemoryMemtableRefs, hfrz] at hmem
        rcases mem_cons.1 hmem with rfl | hmem
        · -- the SSTable of the dropped memtable is in the manifest
          exact .inr ⟨_, hs.recorded hstg _ (by simp [hfrz]), hr⟩
        · exact .inl ⟨memtable, mem_cons_of_mem _ hmem, hr⟩
  · exact .inr (hws.manifest hman)

end Writes

/-! ### Sessions -/

/-- A version has the rows of the SSTables up to a compacted generation, and no SSTable of such a
generation will be added. -/
def Session.Compacted (s : Session R) (version : BaseVersion R) (entry : CompactedSsTable) : Prop :=
  ∃ manifest, s.disk entry.shardId = some manifest ∧
    entry.generation < manifest.currentGeneration ∧
    ∀ sstable ∈ manifest.sstables, sstable.generation ≤ entry.generation →
      ∀ r ∈ sstable.rows, r ∈ version.rows

/-- At most one writer is not closed. -/
def Session.OneOpen (s : Session R) : Prop :=
  ∀ (e e' : ℕ) (entry entry' : ShardWriterEntry R), s.entries[e]? = some entry →
    s.entries[e']? = some entry' → entry.phase ≠ .closed → entry'.phase ≠ .closed → e = e'

/-- What a session keeps. -/
structure Session.Sound (s : Session R) : Prop where
  slot : ∀ shardId e, s.slot = some (shardId, e) → ∃ entry : ShardWriterEntry R,
    s.entries[e]? = some entry ∧ entry.shardId = shardId ∧ entry.phase = .open
  unique : ∀ (e e' : ℕ) (entry entry' : ShardWriterEntry R), s.entries[e]? = some entry →
    s.entries[e']? = some entry' → entry.phase ≠ .closed → entry'.phase ≠ .closed → e = e'
  listed : ∀ shardId manifest, s.disk shardId = some manifest → shardId ∈ s.shards
  generations : ∀ shardId manifest, s.disk shardId = some manifest →
    ∀ sstable ∈ manifest.sstables, sstable.generation < manifest.currentGeneration
  writers : ∀ (e : ℕ) (entry : ShardWriterEntry R), s.entries[e]? = some entry →
    entry.phase ≠ .closed →
      entry.writer.Sound ∧ s.disk entry.shardId = some entry.writer.onDisk
  versions : ∀ version ∈ s.versions, ∀ entry ∈ version.details.compactedSstables,
    s.Compacted version entry

namespace Session

variable {s s' : Session R} {reading : Prop} {e : ℕ} {entry entry' : ShardWriterEntry R} {r : R}
variable {manifest : ShardManifest R}

theorem getElem?_setEntry (hent : s.entries[e]? = some entry) (k : ℕ) :
    (s.setEntry e entry').entries[k]? = if e = k then some entry' else s.entries[k]? := by
  have hlt : e < s.entries.length := (List.getElem?_eq_some_iff.1 hent).1
  rw [setEntry, getElem?_set]
  by_cases hk : e = k
  · subst hk
    simp [hlt]
  · simp [hk]

theorem Sound.open_of_slot (hs : s.Sound) (hent : s.entries[e]? = some entry)
    (hsl : s.slot = some (shardId, e)) : entry.shardId = shardId ∧ entry.phase = .open := by
  obtain ⟨found, hfd, hopen⟩ := hs.slot shardId e hsl
  obtain rfl := Option.some.inj (hent.symm.trans hfd)
  exact hopen

theorem Sound.slot_setEntry (hs : s.Sound) (hent : s.entries[e]? = some entry)
    (hsh : entry'.shardId = entry.shardId)
    (hsl : ∀ shardId, s.slot = some (shardId, e) → entry'.phase = .open) :
    ∀ shardId k, s.slot = some (shardId, k) → ∃ found : ShardWriterEntry R,
      (s.setEntry e entry').entries[k]? = some found ∧ found.shardId = shardId ∧
        found.phase = .open := by
  intro shardId k hk
  rw [getElem?_setEntry hent]
  by_cases hek : e = k
  · subst hek
    exact ⟨entry', if_pos rfl, hsh.trans (hs.open_of_slot hent hk).1, hsl shardId hk⟩
  · rw [if_neg hek]
    exact hs.slot shardId k hk

theorem OneOpen.setEntry (hs : s.OneOpen) (hent : s.entries[e]? = some entry)
    (hph : entry'.phase ≠ .closed → entry.phase ≠ .closed) : (s.setEntry e entry').OneOpen := by
  have hold : ∀ (k : ℕ) (found : ShardWriterEntry R),
      (s.setEntry e entry').entries[k]? = some found → found.phase ≠ .closed →
      ∃ found', s.entries[k]? = some found' ∧ found'.phase ≠ .closed := by
    intro k found hk hl
    rw [getElem?_setEntry hent] at hk
    split_ifs at hk with hek
    · cases hk
      exact ⟨entry, hek ▸ hent, hph hl⟩
    · exact ⟨found, hk, hl⟩
  intro k k' found found' hk hk' hl hl'
  obtain ⟨_, hk, hl⟩ := hold k found hk hl
  obtain ⟨_, hk', hl'⟩ := hold k' found' hk' hl'
  exact hs k k' _ _ hk hk' hl hl'

theorem disk_setManifest (k shardId : ℕ) (manifest : ShardManifest R) :
    (s.setManifest k manifest).disk shardId =
      if shardId = k then some manifest else s.disk shardId := by
  simp only [setManifest, update_apply]

theorem Sound.setEntry (hs : s.Sound) (hent : s.entries[e]? = some entry)
    (hsh : entry'.shardId = entry.shardId)
    (hph : entry'.phase ≠ .closed → entry.phase ≠ .closed)
    (hsl : ∀ shardId, s.slot = some (shardId, e) → entry'.phase = .open)
    (hwriter : entry'.phase ≠ .closed →
      entry'.writer.Sound ∧ entry'.writer.onDisk = entry.writer.onDisk) :
    (s.setEntry e entry').Sound where
  slot := hs.slot_setEntry hent hsh hsl
  unique := OneOpen.setEntry hs.unique hent hph
  listed := hs.listed
  generations := hs.generations
  writers k found hk hl := by
    rw [getElem?_setEntry hent] at hk
    split_ifs at hk with hek
    · cases hk
      obtain ⟨hsnd, hod⟩ := hwriter hl
      rw [hsh, hod]
      exact ⟨hsnd, (hs.writers e entry hent (hph hl)).2⟩
    · exact hs.writers k found hk hl
  versions := hs.versions

theorem Compacted.record {version : BaseVersion R} {compacted : CompactedSsTable}
    (h : s.Compacted version compacted) (hd : s.disk shardId = some manifest)
    (hlat : manifest.currentGeneration ≤ memtable.generation)
    (hs' : s'.disk = (s.setManifest shardId (manifest.record memtable)).disk) :
    s'.Compacted version compacted := by
  obtain ⟨m, hm, hlt, hr⟩ := h
  by_cases hid : compacted.shardId = shardId
  · rw [hid, hd] at hm
    cases hm
    refine ⟨manifest.record memtable, by rw [hs', disk_setManifest, if_pos hid], ?_, ?_⟩
    · simp only [ShardManifest.record]
      omega
    · intro sstable hsst hle
      rcases mem_append.1 hsst with hold | hnew
      · exact hr sstable hold hle
      · -- a new generation is later than what is compacted
        rw [mem_singleton.1 hnew] at hle
        simp only at hle
        omega
  · exact ⟨m, by rw [hs', disk_setManifest, if_neg hid, hm], hlt, hr⟩

theorem Sound.written (hs : s.Sound) (hent : s.entries[e]? = some entry)
    (hl : entry.phase ≠ .closed) (hfrz : entry.writer.frozen = memtable :: frozen)
    (hstg : entry.writer.stage = .waiting) (hd : s.disk entry.shardId = some manifest) :
    ((s.setEntry e { entry with writer := { entry.writer with stage := .written } }).setManifest
      entry.shardId (manifest.record memtable)).Sound := by
  obtain ⟨hwriter, hod⟩ := hs.writers e entry hent hl
  have hman : manifest = entry.writer.manifest := by
    rw [hd] at hod
    simpa [ShardWriter.onDisk, hstg] using Option.some.inj hod
  have hlat : manifest.currentGeneration ≤ memtable.generation := by
    have := hwriter.later memtable.generation
      (by simp [ShardWriter.unwritten, ShardWriter.waiting, hstg, hfrz])
    simpa [ShardWriter.onDisk, hstg, hman] using this
  -- there is only one writer that is not closed
  have hph : { entry with writer := { entry.writer with stage := .written } }.phase ≠ .closed →
      entry.phase ≠ .closed := id
  have huq := OneOpen.setEntry hs.unique hent hph
  refine ⟨hs.slot_setEntry hent rfl fun _ hsl => (hs.open_of_slot hent hsl).2, huq,
    ?_, ?_, ?_, ?_⟩
  · intro shardId m hm
    rw [disk_setManifest] at hm
    split_ifs at hm with hid
    · subst hid
      exact hs.listed _ _ hd
    · exact hs.listed _ _ hm
  · intro shardId m hm sstable hsst
    rw [disk_setManifest] at hm
    split_ifs at hm with hid
    · cases hm
      rcases mem_append.1 hsst with hold | hnew
      · have := hs.generations _ _ hd sstable hold
        simp only [ShardManifest.record]
        omega
      · rw [mem_singleton.1 hnew]
        exact Nat.lt_succ_self _
    · exact hs.generations _ _ hm sstable hsst
  · intro k found hk hl'
    have hek : k = e :=
      huq k e found _ hk ((getElem?_setEntry hent e).trans (if_pos rfl)) hl' hl
    subst hek
    have hfd := (getElem?_setEntry hent k).symm.trans hk
    rw [if_pos rfl] at hfd
    cases hfd
    refine ⟨ShardWriter.written_sound hwriter hstg hfrz, ?_⟩
    rw [disk_setManifest, if_pos rfl]
    simp only [ShardWriter.onDisk, hfrz, hman]
  · intro version hver compacted hcomp
    exact (hs.versions version hver compacted hcomp).record hd hlat rfl

theorem disk_memWalWriter (h : s.disk shardId = some manifest) (k : ℕ) :
    (s.memWalWriter k).disk shardId = some manifest := by
  simp only [memWalWriter]
  by_cases hid : shardId = k
  · subst hid
    rw [update_self, manifestOf, h]
    rfl
  · rw [update_of_ne hid, h]

theorem entry_of_opened (hs : s.slot = none) (hdrn : s.Drained) {k : ℕ}
    (hk : (s.memWalWriter shardId).entries[k]? = some entry) (hl : entry.phase ≠ .closed) :
    k = s.entries.length ∧ entry = ⟨shardId, .open, .opened (s.manifestOf shardId)⟩ := by
  simp only [memWalWriter, getElem?_append] at hk
  split_ifs at hk with hlt
  · obtain ⟨_, hcch⟩ := hdrn k entry hk hl
    rw [hs] at hcch
    cases hcch
  · obtain ⟨hlt, hfd⟩ := List.getElem?_eq_some_iff.1 hk
    rw [length_singleton] at hlt
    simp only [getElem_singleton] at hfd
    exact ⟨by omega, hfd.symm⟩

theorem OneOpen.opened (hs : s.slot = none) (hdrn : s.Drained) (shardId : ℕ) :
    (s.memWalWriter shardId).OneOpen := by
  intro k k' found found' hk hk' hl hl'
  rw [(entry_of_opened hs hdrn hk hl).1, (entry_of_opened hs hdrn hk' hl').1]

theorem Sound.opened (hs : s.Sound) (hsl : s.slot = none) (hdrn : s.Drained) (shardId : ℕ) :
    (s.memWalWriter shardId).Sound := by
  have hman : (s.memWalWriter shardId).disk shardId = some (s.manifestOf shardId) :=
    update_self ..
  have hoth : ∀ k manifest, k ≠ shardId → (s.memWalWriter shardId).disk k = some manifest →
      s.disk k = some manifest := by
    intro k manifest hk hd
    simpa only [memWalWriter, update_of_ne hk] using hd
  refine ⟨?_, OneOpen.opened hsl hdrn shardId, ?_, ?_, ?_, ?_⟩
  · rintro _ _ ⟨⟩
    exact ⟨_, getElem?_concat_length, rfl, rfl⟩
  · intro k manifest hd
    have hsubset : ∀ j ∈ s.shards, j ∈ (s.memWalWriter shardId).shards := by
      intro j hj
      simp only [memWalWriter]
      split_ifs
      · exact hj
      · exact mem_append_left _ hj
    by_cases hk : k = shardId
    · subst hk
      simp only [memWalWriter]
      split_ifs with hmem
      · exact hmem
      · exact mem_append_right _ (mem_singleton_self _)
    · exact hsubset k (hs.listed k manifest (hoth k manifest hk hd))
  · intro k manifest hd
    by_cases hk : k = shardId
    · subst hk
      rw [hman] at hd
      cases hd
      cases hold : s.disk k with
      | none => simp [manifestOf, hold]
      | some manifest =>
        rw [manifestOf, hold]
        exact hs.generations k manifest hold
    · exact hs.generations k manifest (hoth k manifest hk hd)
  · intro k found hk hl
    obtain ⟨-, rfl⟩ := entry_of_opened hsl hdrn hk hl
    exact ⟨ShardWriter.opened_sound _, hman⟩
  · intro version hver compacted hcomp
    obtain ⟨manifest, hd, hlt, hr⟩ := hs.versions version hver compacted hcomp
    exact ⟨manifest, disk_memWalWriter hd shardId, hlt, hr⟩

theorem Sound.compacted (hs : s.Sound) {base : BaseVersion R} (indexCatchup : List IndexCatchup)
    (hd : s.disk shardId = some manifest) (hb : base ∈ s.versions)
    (hgen : ∃ sstable ∈ manifest.sstables, sstable.generation = generation) :
    Sound { s with
      versions := s.versions ++
        [⟨⟨⟨shardId, generation⟩ ::
            base.details.compactedSstables.filter (·.shardId ≠ shardId), indexCatchup⟩,
          base.rows ++
            (manifest.sstables.filter (·.generation ≤ generation)).flatMap (·.rows)⟩] } := by
  refine ⟨hs.slot, hs.unique, hs.listed, hs.generations, hs.writers, ?_⟩
  intro version hver compacted hcomp
  rcases mem_append.1 hver with hold | hnew
  · exact hs.versions version hold compacted hcomp
  · rw [mem_singleton.1 hnew] at hcomp ⊢
    rcases mem_cons.1 hcomp with rfl | hoth
    · obtain ⟨sstable, hsst, rfl⟩ := hgen
      refine ⟨manifest, hd, hs.generations _ _ hd sstable hsst, ?_⟩
      intro sstable' hsst' hle r hr
      refine mem_append_right _ (mem_flatMap.2 ⟨sstable', ?_, hr⟩)
      exact mem_filter.2 ⟨hsst', decide_eq_true hle⟩
    · obtain ⟨m, hm, hlt, hrows⟩ :=
        hs.versions base hb compacted (mem_filter.1 hoth).1
      exact ⟨m, hm, hlt, fun sstable hsst hle r hr =>
        mem_append_left _ (hrows sstable hsst hle r hr)⟩

/-- **What happens to a session keeps its invariant.** -/
theorem Sound.moves (hs : s.Sound) (h : s.Moves reading s') : s'.Sound := by
  cases h with
  | same => exact hs
  | writes hent hl hws =>
    exact hs.setEntry hent rfl id (fun _ hsl => (hs.open_of_slot hent hsl).2)
      fun _ => hws.sound (hs.writers _ _ hent hl).1
  | written hent hl hfrz hstg hd => exact hs.written hent hl hfrz hstg hd
  | opened shardId hsl hdrn => exact hs.opened hsl hdrn shardId
  | taken =>
    exact ⟨fun _ _ h => (by cases h), hs.unique, hs.listed, hs.generations, hs.writers, hs.versions⟩
  | closing hent hopen hsl =>
    refine hs.setEntry hent rfl (fun _ => by simp [hopen]) (fun k hk => absurd hk (hsl k)) ?_
    exact fun _ => ⟨(hs.writers _ _ hent (by simp [hopen])).1, rfl⟩
  | closed hent hsl =>
    exact hs.setEntry hent rfl (fun h => absurd rfl h) (fun k hk => absurd hk (hsl k))
      fun h => absurd rfl h
  | compacted indexCatchup hd hb hgen =>
    exact hs.compacted indexCatchup hd hb hgen

/-! ### Rows stay -/

theorem Moves.mem_versions (h : s.Moves reading s') {version : BaseVersion R}
    (hver : version ∈ s.versions) : version ∈ s'.versions := by
  cases h with
  | compacted => exact mem_append_left _ hver
  | _ => exact hver

/-- No writer leaves the slot while a read goes on. -/
theorem Moves.slot (h : s.Moves reading s') (hrd : reading) {cached : ℕ × ℕ}
    (hs : s.slot = some cached) : s'.slot = some cached := by
  cases h with
  | opened shardId hn => rw [hn] at hs; cases hs
  | taken hnot => exact absurd hrd hnot
  | _ => exact hs

theorem OnDisk.moves (h : s.OnDisk shardId r) (hmoves : s.Moves reading s') :
    s'.OnDisk shardId r := by
  obtain ⟨manifest, hd, sstable, hsst, hr⟩ := h
  cases hmoves with
  | @written e entry memtable frozen m hent hl hfrz hstg hm =>
    by_cases hid : shardId = entry.shardId
    · subst hid
      obtain rfl := Option.some.inj (hd.symm.trans hm)
      refine ⟨manifest.record memtable, ?_, sstable, mem_append_left _ hsst, hr⟩
      rw [disk_setManifest, if_pos rfl]
    · refine ⟨manifest, ?_, sstable, hsst, hr⟩
      rw [disk_setManifest, if_neg hid]
      exact hd
  | opened k => exact ⟨manifest, disk_memWalWriter hd k, sstable, hsst, hr⟩
  | _ => exact ⟨manifest, hd, sstable, hsst, hr⟩

/-- How an entry moves on. -/
structure EntryMoves (entry entry' : ShardWriterEntry R) : Prop where
  holds : ∀ r, entry.writer.Holds r → entry'.writer.Holds r
  manifest : ∀ r, entry.writer.manifest.Holds r → entry'.writer.manifest.Holds r
  closed : entry'.phase = .closed →
    entry.phase = .closed ∨ (entry.writer.active.rows = [] ∧ entry.writer.frozen = [])

theorem EntryMoves.refl (entry : ShardWriterEntry R) : EntryMoves entry entry :=
  ⟨fun _ h => h, fun _ h => h, .inl⟩

theorem Moves.entryMoves (h : s.Moves reading s') (hs : s.Sound)
    (hent : s.entries[e]? = some entry) :
    ∃ entry', s'.entries[e]? = some entry' ∧ EntryMoves entry entry' := by
  -- an entry is set, and this one is it or another one
  have hset : ∀ (k : ℕ) (old new : ShardWriterEntry R), s.entries[k]? = some old →
      EntryMoves old new →
      ∃ entry', (s.setEntry k new).entries[e]? = some entry' ∧ EntryMoves entry entry' := by
    intro k old new hold hm
    rw [getElem?_setEntry hold]
    by_cases hke : k = e
    · subst hke
      obtain rfl := Option.some.inj (hold.symm.trans hent)
      exact ⟨new, if_pos rfl, hm⟩
    · exact ⟨entry, by rw [if_neg hke, hent], .refl entry⟩
  cases h with
  | writes hold hl hws =>
    refine hset _ _ _ hold ⟨fun r => ?_, fun r => hws.manifest, .inl⟩
    exact hws.holds (hs.writers _ _ hold hl).1
  | written hold => exact hset _ _ _ hold ⟨fun _ h => h, fun _ h => h, .inl⟩
  | opened =>
    refine ⟨entry, ?_, .refl entry⟩
    exact getElem?_append_left (List.getElem?_eq_some_iff.1 hent).1 |>.trans hent
  | closing hold => exact hset _ _ _ hold ⟨fun _ h => h, fun _ h => h, fun h => (by cases h)⟩
  | closed hold _ hact hfrz =>
    exact hset _ _ _ hold ⟨fun _ h => h, fun _ h => h, fun _ => .inr ⟨hact, hfrz⟩⟩
  | _ => exact ⟨entry, hent, .refl entry⟩

theorem InSlot.moves (h : s.InSlot r) (hs : s.Sound) (hm : s.Moves reading s')
    (hrd : reading) : s'.InSlot r := by
  obtain ⟨shardId, e, entry, hsl, hent, hhl⟩ := h
  obtain ⟨entry', hent', hmv⟩ := hm.entryMoves hs hent
  exact ⟨shardId, e, entry', hm.slot hrd hsl, hent', hmv.holds r hhl⟩

theorem Sound.onDisk_of_manifest (hs : s.Sound) (hent : s.entries[e]? = some entry)
    (hl : entry.phase ≠ .closed) (h : entry.writer.manifest.Holds r) :
    s.OnDisk entry.shardId r := by
  obtain ⟨sstable, hsst, hr⟩ := h
  exact ⟨_, (hs.writers e entry hent hl).2, sstable, ShardWriter.mem_onDisk hsst, hr⟩

/-- **No stored row is lost.** -/
theorem Stored.moves (h : s.Stored r) (hs : s.Sound) (hm : s.Moves reading s') :
    s'.Stored r := by
  rcases h with ⟨e, entry, hent, hl, hhl⟩ | ⟨shardId, hd⟩
  · obtain ⟨entry', hent', hmv⟩ := hm.entryMoves hs hent
    by_cases hcl : entry'.phase = .closed
    · -- a writer is closed when its memtables are flushed
      rcases hmv.closed hcl with hcontra | ⟨hact, hfrz⟩
      · exact absurd hcontra hl
      · rcases hhl with ⟨memtable, hmem, hr⟩ | hman
        · have hact' : memtable = entry.writer.active := by
            simpa [ShardWriter.inMemoryMemtableRefs, hfrz] using hmem
          rw [hact', hact] at hr
          cases hr
        · exact .inr ⟨_, (hs.onDisk_of_manifest hent hl hman).moves hm⟩
    · exact .inl ⟨e, entry', hent', hcl, hmv.holds r hhl⟩
  · exact .inr ⟨shardId, hd.moves hm⟩

end Session

end LanceDB.MemWal
