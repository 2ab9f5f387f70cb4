import LanceDB.MemWal.Rows
import LanceDB.Base.Lists

/-!
# Reads of a MemWAL

A row that was acknowledged before a read starts should be in what the read collects.  A read loads
the manifests on disk first and looks at the cached writer last.  A `drain_and_close` takes the
writer out of the cache before its memtables are flushed: a read that starts then, or that has
loaded the manifests before, finds the rows neither on disk nor in the cache.

* `Call.Covers` : a read has a row, or will find it.
* `read_complete` — a read returns every row that was acknowledged before it started, if closing a
  writer overlaps neither reads nor the opening of a writer.
* `read_loses_row` — without the condition it may lose one.
-/

namespace LanceDB.MemWal

open Machine List Option

variable {R : Type}
variable {shardId : ℕ}

/-! ### What a read drops -/

theorem watermark_le (details : MemWalIndexDetails) (indexNames : List String)
    (entry : CompactedSsTable) : details.watermark indexNames entry ≤ entry.generation := by
  -- every index can only lower it
  have hfold : ∀ (names : List String) (watermark : ℕ),
      names.foldl (details.lower entry.shardId) watermark ≤ watermark := by
    intro names
    induction names with
    | nil => exact fun _ => le_rfl
    | cons name names ih =>
      intro watermark
      refine (ih _).trans ?_
      rw [MemWalIndexDetails.lower]
      split
      · exact min_le_left _ _
      · exact Nat.zero_le _
  exact hfold indexNames entry.generation

/-- A watermark comes from an entry of its shard. -/
theorem exclusionWatermarks_spec {details : MemWalIndexDetails} {indexNames : List String}
    {watermark : ℕ} (h : exclusionWatermarks details indexNames shardId = some watermark) :
    ∃ entry ∈ details.compactedSstables,
      entry.shardId = shardId ∧ watermark ≤ entry.generation := by
  have hfold : ∀ (entries : List CompactedSsTable) (exclude : ℕ → Option ℕ),
      entries.foldl (details.insertWatermark indexNames) exclude shardId = some watermark →
      exclude shardId = some watermark ∨
        ∃ entry ∈ entries, entry.shardId = shardId ∧ watermark ≤ entry.generation := by
    intro entries
    induction entries with
    | nil => exact fun exclude h => .inl h
    | cons entry entries ih =>
      intro exclude h
      rcases ih _ h with hfst | ⟨later, hlat, hs⟩
      · rw [MemWalIndexDetails.insertWatermark] at hfst
        split_ifs at hfst
        · exact .inl hfst
        · rcases update_eq_cases hfst with ⟨rfl, hid⟩ | hold
          · cases hid
            exact .inr ⟨entry, mem_cons_self .., rfl, watermark_le details indexNames entry⟩
          · exact .inl hold
      · exact .inr ⟨later, mem_cons_of_mem _ hlat, hs⟩
  rcases hfold details.compactedSstables _ h with hn | hent
  · cases hn
  · exact hent

section Reads

variable {s s' : Session R} {reading : Prop} {r : R} {task : ReadTask R} {call call' : Call R}
  {event : Option (Event R)}
variable {snapshots : List (ShardSnapshot R)}

/-- A row of an SSTable on disk is in the snapshot of a manifest that has the SSTable, or in the
base version. -/
theorem snapshot_holds (hs : s.Sound) (hb : task.base ∈ s.versions)
    {manifest onDisk : ShardManifest R} (hd : s.disk shardId = some onDisk)
    (hsubset : ∀ sstable ∈ manifest.sstables, sstable ∈ onDisk.sstables) (h : manifest.Holds r) :
    r ∈ task.base.rows ∨ (snapshotFromManifest shardId manifest task.exclude).Holds r := by
  obtain ⟨sstable, hsst, hr⟩ := h
  by_cases hexcl : (task.exclude shardId).any (sstable.generation ≤ ·) = true
  · cases hwm : task.exclude shardId with
    | none => simp [hwm] at hexcl
    | some watermark =>
      -- the SSTable is excluded, because the base version has its rows
      have hle : sstable.generation ≤ watermark := by simpa [hwm] using hexcl
      obtain ⟨entry, hent, rfl, hbd⟩ := exclusionWatermarks_spec hwm
      obtain ⟨m, hm, -, hrows⟩ := hs.versions task.base hb entry hent
      obtain rfl := Option.some.inj (hd.symm.trans hm)
      exact .inl (hrows sstable (hsubset sstable hsst) (hle.trans hbd) r hr)
  · exact .inr ⟨sstable, mem_filter.2 ⟨hsst, by simpa using hexcl⟩, hr⟩

/-- A read has the row, or will find it in the slot or in a manifest that it has not loaded yet. -/
def Session.Finds (s : Session R) (task : ReadTask R) (shards : List ℕ)
    (snapshots : List (ShardSnapshot R)) (r : R) : Prop :=
  r ∈ task.base.rows ∨ s.InSlot r ∨ ∃ shardId, s.OnDisk shardId r ∧
    (shardId ∈ shards ∨ ∃ snapshot ∈ snapshots, snapshot.shardId = shardId ∧ snapshot.Holds r)

/-- What a read has of a row once it has captured the memtables.  A snapshot of the shard of the
slot does not count: it will be overridden. -/
def Session.Captures (s : Session R) (task : ReadTask R) (snapshots : List (ShardSnapshot R))
    (shardId e : ℕ) (memtables : Option (InMemoryMemTables R)) (r : R) : Prop :=
  r ∈ task.base.rows ∨ (∃ captured ∈ memtables, captured.Holds r) ∨
    (∃ entry : ShardWriterEntry R, s.entries[e]? = some entry ∧ entry.writer.manifest.Holds r) ∨
    ∃ snapshot ∈ snapshots, snapshot.shardId ≠ shardId ∧ snapshot.Holds r

/-- A read that is under way covers the row. -/
def Call.Covers (s : Session R) (r : R) : Call R → Prop
  | .listing task => task.base ∈ s.versions ∧ (s.InSlot r ∨ ∃ shardId, s.OnDisk shardId r)
  | .loading task shards snapshots => task.base ∈ s.versions ∧ s.Finds task shards snapshots r
  | .capturing task snapshots shardId e =>
    task.base ∈ s.versions ∧ s.slot = some (shardId, e) ∧ s.Finds task [] snapshots r
  | .captured task snapshots shardId e memtables =>
    task.base ∈ s.versions ∧ s.slot = some (shardId, e) ∧
      s.Captures task snapshots shardId e memtables r
  | _ => True

theorem covers_of_not_reading (h : call.reading = false) : call.Covers s r := by
  cases call with
  | listing | loading | capturing | captured => cases h
  | _ => trivial

theorem Session.Finds.moves {shards : List ℕ} (h : s.Finds task shards snapshots r) (hs : s.Sound)
    (hm : s.Moves reading s') (hrd : reading) : s'.Finds task shards snapshots r := by
  rcases h with hb | hsl | ⟨shardId, hd, hfd⟩
  · exact .inl hb
  · exact .inr (.inl (hsl.moves hs hm hrd))
  · exact .inr (.inr ⟨shardId, hd.moves hm, hfd⟩)

theorem Call.Covers.moves (h : call.Covers s r) (hs : s.Sound) (hm : s.Moves reading s')
    (hrd : call.reading = true → reading) : call.Covers s' r := by
  cases call with
  | listing task =>
    refine ⟨hm.mem_versions h.1, ?_⟩
    rcases h.2 with hsl | ⟨shardId, hd⟩
    · exact .inl (hsl.moves hs hm (hrd rfl))
    · exact .inr ⟨shardId, hd.moves hm⟩
  | loading task shards snapshots =>
    exact ⟨hm.mem_versions h.1, h.2.moves hs hm (hrd rfl)⟩
  | capturing task snapshots shardId e =>
    obtain ⟨hb, hsl, hfds⟩ := h
    exact ⟨hm.mem_versions hb, hm.slot (hrd rfl) hsl,
      hfds.moves hs hm (hrd rfl)⟩
  | captured task snapshots shardId e memtables =>
    obtain ⟨hb, hsl, hcapt⟩ := h
    refine ⟨hm.mem_versions hb, hm.slot (hrd rfl) hsl, ?_⟩
    rcases hcapt with hin | hmems | ⟨entry, hent, hman⟩ | hsnap
    · exact .inl hin
    · exact .inr (.inl hmems)
    · obtain ⟨entry', hent', hmv⟩ := hm.entryMoves hs hent
      exact .inr (.inr (.inl ⟨entry', hent', hmv.manifest r hman⟩))
    · exact .inr (.inr (.inr hsnap))
  | _ => trivial

/-- What is on disk of the shard in the slot, the cached writer has. -/
theorem Session.Sound.inSlot (hs : s.Sound) {e : ℕ} (hsl : s.slot = some (shardId, e))
    (h : s.OnDisk shardId r) : s.InSlot r := by
  obtain ⟨entry, hent, rfl, hopen⟩ := hs.slot shardId e hsl
  obtain ⟨manifest, hd, hhl⟩ := h
  obtain ⟨-, hod⟩ := hs.writers e entry hent (by simp [hopen])
  obtain rfl := Option.some.inj (hd.symm.trans hod)
  exact ⟨_, e, entry, hsl, hent, ShardWriter.holds_of_onDisk hhl⟩

theorem Session.Finds.load (hs : s.Sound) (hb : task.base ∈ s.versions) {shards : List ℕ}
    (h : s.Finds task (shardId :: shards) snapshots r) {manifest : ShardManifest R}
    (hd : s.disk shardId = some manifest) :
    s.Finds task shards (snapshots ++ [snapshotFromManifest shardId manifest task.exclude]) r := by
  rcases h with hin | hsl | ⟨k, hk, hsh | ⟨snapshot, hsnap, hid, hhl⟩⟩
  · exact .inl hin
  · exact .inr (.inl hsl)
  · rcases mem_cons.1 hsh with rfl | hshards
    · obtain ⟨m, hm, hhl⟩ := hk
      obtain rfl := Option.some.inj (hd.symm.trans hm)
      rcases snapshot_holds hs hb hd (fun _ h => h) hhl with hin | hsnap
      · exact .inl hin
      · exact .inr (.inr ⟨k, ⟨_, hd, hhl⟩, .inr ⟨_, by simp, rfl, hsnap⟩⟩)
    · exact .inr (.inr ⟨k, hk, .inl hshards⟩)
  · exact .inr (.inr ⟨k, hk, .inr ⟨snapshot, mem_append_left _ hsnap, hid, hhl⟩⟩)

theorem Session.Finds.capture (hs : s.Sound) {e : ℕ} {entry : ShardWriterEntry R}
    (hsl : s.slot = some (shardId, e)) (hent : s.entries[e]? = some entry)
    (h : s.Finds task [] snapshots r) :
    s.Captures task snapshots shardId e (some entry.writer.inMemoryMemtableRefs) r := by
  have hcch : s.InSlot r →
      s.Captures task snapshots shardId e (some entry.writer.inMemoryMemtableRefs) r := by
    rintro ⟨_, _, entry', hs', hent', hhl⟩
    rw [hsl] at hs'
    cases hs'
    obtain rfl := Option.some.inj (hent.symm.trans hent')
    rcases hhl with hmems | hman
    · exact .inr (.inl ⟨_, rfl, hmems⟩)
    · exact .inr (.inr (.inl ⟨entry, hent, hman⟩))
  rcases h with hin | hin | ⟨k, hk, hsh | ⟨snapshot, hsnap, hid, hhl⟩⟩
  · exact .inl hin
  · exact hcch hin
  · cases hsh
  · by_cases hsame : k = shardId
    · -- the snapshot of this shard will be overridden, but the writer has the row
      subst hsame
      exact hcch (hs.inSlot hsl hk)
    · exact .inr (.inr (.inr ⟨snapshot, hsnap, hid ▸ hsame, hhl⟩))

theorem mem_override_self (snapshot : ShardSnapshot R) (snapshots : List (ShardSnapshot R)) :
    snapshot ∈ override snapshot snapshots := by
  induction snapshots with
  | nil => exact mem_singleton_self _
  | cons existing snapshots ih =>
    rw [override]
    split_ifs
    · exact mem_cons_self ..
    · exact mem_cons_of_mem _ ih

theorem mem_override_of_ne {snapshot other : ShardSnapshot R} (h : other ∈ snapshots)
    (hne : other.shardId ≠ snapshot.shardId) : other ∈ override snapshot snapshots := by
  induction snapshots with
  | nil => cases h
  | cons existing snapshots ih =>
    rw [override]
    rcases mem_cons.1 h with rfl | hr
    · rw [if_neg hne]
      exact mem_cons_self ..
    · split_ifs
      · exact mem_cons_of_mem _ hr
      · exact mem_cons_of_mem _ (ih hr)

/-- The manifest of the cached writer overrides the one on disk. -/
theorem Session.Captures.returned (hs : s.Sound) (hb : task.base ∈ s.versions) {e : ℕ}
    {entry : ShardWriterEntry R} {memtables : Option (InMemoryMemTables R)}
    (hsl : s.slot = some (shardId, e)) (hent : s.entries[e]? = some entry)
    (h : s.Captures task snapshots shardId e memtables r) :
    ReadContext.Holds ⟨task.base,
      override (snapshotFromManifest shardId entry.writer.manifest task.exclude) snapshots,
      memtables.map (shardId, ·)⟩ r := by
  obtain ⟨entry', hent', rfl, hopen⟩ := hs.slot shardId e hsl
  obtain rfl := Option.some.inj (hent.symm.trans hent')
  rcases h with hin | ⟨captured, hcaptured, hhl⟩ | ⟨entry', hent', hman⟩ |
    ⟨snapshot, hsnap, hne, hhl⟩
  · exact .inl hin
  · exact .inr (.inr ⟨_, mem_map_of_mem _ hcaptured, hhl⟩)
  · obtain rfl := Option.some.inj (hent.symm.trans hent')
    obtain ⟨-, hod⟩ := hs.writers e entry hent (by simp [hopen])
    rcases snapshot_holds hs hb hod (fun _ => ShardWriter.mem_onDisk) hman with
      hin | hsnap
    · exact .inl hin
    · exact .inr (.inl ⟨_, mem_override_self _ _, hsnap⟩)
  · exact .inr (.inl ⟨snapshot, mem_override_of_ne hsnap hne, hhl⟩)

/-- **A read that covers a row goes on to cover it, and returns it.** -/
theorem readNext_covers (h : readNext s call = some (s', call', event)) (hs : s.Sound)
    (hcov : call.Covers s r) :
    call'.Covers s r ∧ ∀ context, event = some (.readReturned context) → context.Holds r := by
  cases call with
  | listing task =>
    cases h
    obtain ⟨hb, hrow⟩ := hcov
    refine ⟨⟨hb, ?_⟩, by simp⟩
    rcases hrow with hsl | ⟨shardId, manifest, hd, hhl⟩
    · exact .inr (.inl hsl)
    · exact .inr (.inr ⟨shardId, ⟨manifest, hd, hhl⟩, .inl (hs.listed _ _ hd)⟩)
  | loading task shards snapshots =>
    obtain ⟨hb, hfds⟩ := hcov
    cases shards with
    | cons shardId shards =>
      simp only [readNext] at h
      split at h <;> cases h
      · exact ⟨⟨hb, hfds.load hs hb ‹_›⟩, by simp⟩
      · -- a shard without a manifest has no rows on disk
        refine ⟨⟨hb, ?_⟩, by simp⟩
        rcases hfds with hin | hsl | ⟨k, hk, hsh | hsnap⟩
        · exact .inl hin
        · exact .inr (.inl hsl)
        · rcases mem_cons.1 hsh with rfl | hshards
          · obtain ⟨manifest, hd, -⟩ := hk
            simp_all
          · exact .inr (.inr ⟨k, hk, .inl hshards⟩)
        · exact .inr (.inr ⟨k, hk, .inr hsnap⟩)
    | nil =>
      simp only [readNext] at h
      split at h <;> cases h
      · exact ⟨⟨hb, ‹_›, hfds⟩, by simp⟩
      · refine ⟨trivial, ?_⟩
        rintro _ ⟨⟩
        rcases hfds with hin | ⟨_, _, _, hsl, -⟩ | ⟨k, hk, hsh | ⟨snapshot, hmem, -, hhl⟩⟩
        · exact .inl hin
        · simp_all
        · cases hsh
        · exact .inr (.inl ⟨snapshot, hmem, hhl⟩)
  | capturing task snapshots shardId e =>
    obtain ⟨entry, hent, ⟨⟩⟩ := bind_eq_some_iff.1 h
    obtain ⟨hb, hsl, hfds⟩ := hcov
    have hopen := (hs.open_of_slot hent hsl).2
    refine ⟨⟨hb, hsl, ?_⟩, by simp⟩
    rw [if_pos hopen]
    exact hfds.capture hs hsl hent
  | captured task snapshots shardId e memtables =>
    obtain ⟨entry, hent, ⟨⟩⟩ := bind_eq_some_iff.1 h
    obtain ⟨hb, hsl, hcapt⟩ := hcov
    have hopen := (hs.open_of_slot hent hsl).2
    refine ⟨trivial, ?_⟩
    rintro _ ⟨⟩
    rw [if_pos hopen]
    exact hcapt.returned hs hb hsl hent
  | _ => cases h

/-! ### Whole runs -/

theorem Call.Owns.moves (h : call.Owns s) (hm : s.Moves reading s') : call.Owns s' := by
  have howned : ∀ e, (e < s.entries.length ∧ ∀ shardId, s.slot ≠ some (shardId, e)) →
      e < s'.entries.length ∧ ∀ shardId, s'.slot ≠ some (shardId, e) := by
    rintro e ⟨hlt, hs⟩
    cases hm with
    | opened shardId =>
      refine ⟨by simp only [Session.memWalWriter, length_append]; omega, ?_⟩
      rintro _ ⟨⟩
      exact Nat.lt_irrefl _ hlt
    | taken => exact ⟨hlt, by simp⟩
    | writes | closing | closed => exact ⟨by simpa [Session.setEntry] using hlt, hs⟩
    | written => exact ⟨by simpa [Session.setEntry, Session.setManifest] using hlt, hs⟩
    | _ => exact ⟨hlt, hs⟩
  cases call with
  | closing e | flushing e => exact howned e h
  | _ => trivial

/-- The rows that a `merge_insert` has added are stored. -/
def Call.Kept (s : Session R) : Call R → Prop
  | .added rows => ∀ r ∈ rows, s.Stored r
  | _ => True

theorem Call.Kept.moves (h : call.Kept s) (hs : s.Sound) (hm : s.Moves reading s') :
    call.Kept s' := by
  cases call with
  | added rows => exact fun r hr => (h r hr).moves hs hm
  | _ => trivial

/-- What a step leaves that is not one of a read. -/
structure Leaves (s : Session R) (call : Call R) (event : Option (Event R)) : Prop where
  reading : call.reading = false
  owns : call.Owns s
  kept : call.Kept s
  acknowledged : ∀ rows, event = some (.acknowledged rows) → ∀ r ∈ rows, s.Stored r
  returned : ∀ context, event ≠ some (.readReturned context)

theorem insertNext_leaves (h : insertNext s call = some (s', call', event))
    (hk : call.Kept s) : Leaves s' call' event := by
  have hcch : ∀ {cached e shardId : ℕ} {rows : List R},
      useCached s cached e shardId rows = some (s', call', event) → Leaves s' call' event := by
    intro cached e shardId rows h
    rw [useCached] at h
    split_ifs at h <;> cases h <;> exact ⟨rfl, trivial, trivial, by simp, by simp⟩
  cases call with
  | writerFor shardId rows | opening shardId rows =>
    simp only [insertNext] at h
    split at h
    · exact hcch h
    · cases h
      exact ⟨rfl, trivial, trivial, by simp, by simp⟩
  | putting e rows =>
    obtain ⟨entry, hent, h⟩ := bind_eq_some_iff.1 h
    split_ifs at h with hopen <;> cases h
    · refine ⟨rfl, trivial, fun r hr => ?_, by simp, by simp⟩
      refine .inl ⟨e, { entry with writer := entry.writer.put rows }, ?_, by simp [hopen], .inl ?_⟩
      · exact (Session.getElem?_setEntry hent e).trans (if_pos rfl)
      · exact ⟨_, mem_cons_self .., mem_append_right _ hr⟩
    · exact ⟨rfl, trivial, trivial, by simp, by simp⟩
  | added rows =>
    cases h
    refine ⟨rfl, trivial, trivial, ?_, by simp⟩
    rintro _ ⟨⟩
    exact hk
  | _ => cases h

theorem drainNext_leaves (h : drainNext s call = some (s', call', event)) (hs : s.Sound)
    (hm : s.Moves reading s') (howns : call.Owns s) : Leaves s' call' event := by
  cases call with
  | draining =>
    simp only [drainNext] at h
    split at h
    · obtain ⟨entry, hent, -⟩ := hs.slot _ _ ‹_›
      cases h
      refine ⟨rfl, ⟨(List.getElem?_eq_some_iff.1 hent).1, by simp⟩, trivial, by simp, by simp⟩
    · cases h
      exact ⟨rfl, trivial, trivial, by simp, by simp⟩
  | closing e =>
    obtain ⟨entry, hent, h⟩ := bind_eq_some_iff.1 h
    split_ifs at h <;> cases h
    · exact ⟨rfl, howns.moves hm, trivial, by simp, by simp⟩
    · exact ⟨rfl, trivial, trivial, by simp, by simp⟩
  | flushing e =>
    obtain ⟨entry, hent, h⟩ := bind_eq_some_iff.1 h
    split_ifs at h
    · obtain ⟨_, -, ⟨⟩⟩ := map_eq_some_iff.1 h
      exact ⟨rfl, howns.moves hm, trivial, by simp, by simp⟩
    · obtain ⟨_, -, ⟨⟩⟩ := map_eq_some_iff.1 h
      exact ⟨rfl, howns.moves hm, trivial, by simp, by simp⟩
    · cases h
      exact ⟨rfl, trivial, trivial, by simp, by simp⟩
  | _ => cases h

theorem readNext_plain (h : readNext s call = some (s', call', event)) :
    call'.Owns s' ∧ call'.Kept s' ∧ (∀ rows, event ≠ some (.acknowledged rows)) ∧
      event ≠ some .readStarted := by
  cases call with
  | loading task shards snapshots =>
    cases shards <;> simp only [readNext] at h <;> split at h <;> cases h <;>
      exact ⟨trivial, trivial, by simp, by simp⟩
  | capturing | captured =>
    obtain ⟨entry, -, ⟨⟩⟩ := bind_eq_some_iff.1 h
    exact ⟨trivial, trivial, by simp, by simp⟩
  | listing task =>
    cases h
    exact ⟨trivial, trivial, by simp, by simp⟩
  | _ => cases h

theorem start_plain {step : Step R} (h : start s step = some (s', call', event)) :
    call'.Owns s' ∧ call'.Kept s' ∧ ∀ rows, event ≠ some (.acknowledged rows) := by
  cases step with
  | mergeInsert | drainAndClose =>
    cases h
    exact ⟨trivial, trivial, by simp⟩
  | read version indexNames =>
    obtain ⟨base, -, ⟨⟩⟩ := map_eq_some_iff.1 h
    exact ⟨trivial, trivial, by simp⟩
  | _ => cases h

variable {c c' : Config (Session R) (Call R)} {i : ℕ} {step : Step R}

/-- A step keeps what its call owns and has stored, and acknowledges only rows that are stored. -/
theorem step_kept (h : memWalMachine.step c.shared (c.thread i) step = some (s', call', event))
    (hap : Apart c i step) (hs : c.shared.Sound) (howns : (c.thread i).Owns c.shared)
    (hk : (c.thread i).Kept c.shared) :
    call'.Owns s' ∧ call'.Kept s' ∧
      ∀ rows, event = some (.acknowledged rows) → ∀ r ∈ rows, s'.Stored r := by
  have hm := moves_of_apart h hap howns
  rcases step_cases False h with ⟨rfl, hn⟩ | ⟨rfl, rfl, rfl⟩ | ⟨rfl, hst⟩ |
    ⟨rfl, rfl, hm⟩
  · rcases next_cases hn with hins | hdr | hrd
    · have hlvs := insertNext_leaves hins hk
      exact ⟨hlvs.owns, hlvs.kept, hlvs.acknowledged⟩
    · have hlvs := drainNext_leaves hdr hs hm howns
      exact ⟨hlvs.owns, hlvs.kept, hlvs.acknowledged⟩
    · obtain ⟨howns', hk', hev, -⟩ := readNext_plain hrd
      exact ⟨howns', hk', fun rows hr => absurd hr (hev rows)⟩
  · exact ⟨trivial, trivial, by simp⟩
  · obtain ⟨howns', hk', hev⟩ := start_plain hst
    exact ⟨howns', hk', fun rows hr => absurd hr (hev rows)⟩
  · exact ⟨howns.moves hm, hk.moves hs hm, by simp⟩

theorem keeps_sound :
    memWalMachine.Keeps Apart (fun s : Session R => s.Sound) fun _ s call =>
      call.Owns s ∧ call.Kept s := by
  intro c i step s' call' event hs hap hc
  obtain ⟨howns, hk⟩ := hc.thread i
  have hm := moves_of_apart hs hap howns
  obtain ⟨howns', hk', -⟩ := step_kept hs hap hc.shared howns hk
  refine ⟨hc.shared.moves hm, ⟨howns', hk'⟩, ?_⟩
  rintro k - ⟨hownsk, hkeptk⟩
  exact ⟨hownsk.moves hm, hkeptk.moves hc.shared hm⟩

/-- A read that starts while every writer outside the slot is closed covers what is stored. -/
theorem covers_of_drained (hsto : s.Stored r) (hdrn : s.Drained)
    (hb : task.base ∈ s.versions) : (Call.listing task).Covers s r := by
  refine ⟨hb, ?_⟩
  rcases hsto with ⟨e, entry, hent, hl, hhl⟩ | hd
  · obtain ⟨shardId, hs⟩ := hdrn e entry hent hl
    exact .inl ⟨shardId, e, entry, hs, hent, hhl⟩
  · exact .inr hd

/-- The reads of a thread cover a stored row from their start on, and return it. -/
theorem step_covers (h : memWalMachine.step c.shared (c.thread i) step = some (s', call', event))
    (hap : Apart c i step) (hs : c.shared.Sound) (howns : (c.thread i).Owns c.shared)
    (hk : (c.thread i).Kept c.shared) (hsto : c.shared.Stored r)
    (hcov : event ≠ some .readStarted → (c.thread i).Covers c.shared r) :
    call'.Covers s' r ∧ ∀ context, event = some (.readReturned context) → context.Holds r := by
  have hm := moves_of_apart h hap howns
  rcases step_cases False h with ⟨rfl, hn⟩ | ⟨rfl, rfl, rfl⟩ | ⟨rfl, hst⟩ | ⟨rfl, rfl, -⟩
  · rcases next_cases hn with hins | hdr | hr
    · have hlvs := insertNext_leaves hins hk
      exact ⟨covers_of_not_reading hlvs.reading, fun _ h => absurd h (hlvs.returned _)⟩
    · have hlvs := drainNext_leaves hdr hs hm howns
      exact ⟨covers_of_not_reading hlvs.reading, fun _ h => absurd h (hlvs.returned _)⟩
    · have hcovered := readNext_covers hr hs (hcov (readNext_plain hr).2.2.2)
      rwa [readNext_same hr]
  · exact ⟨trivial, by simp⟩
  · cases step with
    | mergeInsert | drainAndClose =>
      cases hst
      exact ⟨trivial, by simp⟩
    | read version indexNames =>
      obtain ⟨base, hb, ⟨⟩⟩ := map_eq_some_iff.1 hst
      exact ⟨covers_of_drained hsto hap (mem_of_getElem? hb), by simp⟩
    | _ => cases hst
  · exact ⟨(hcov (by simp)).moves hs hm fun hrd => ⟨i, hrd⟩, by simp⟩

theorem follows_covers (r : R) :
    memWalMachine.Follows Apart
      (Holds (fun s : Session R => s.Sound ∧ s.Stored r) fun _ s call => call.Owns s ∧ call.Kept s)
      fun s call => call.Covers s r where
  keeps {c i event c'} hf hc := by
    have hsnd := hf.holds keeps_sound ⟨hc.shared.1, hc.thread⟩
    obtain ⟨step, call', hs, hap, -⟩ := hf
    have hm := moves_of_apart hs hap (hc.thread i).1
    exact ⟨⟨hsnd.shared, hc.shared.2.moves hc.shared.1 hm⟩, hsnd.thread⟩
  own {c i step s' call' event} hs hap hc hcov :=
    (step_covers hs hap hc.shared.1 (hc.thread i).1 (hc.thread i).2 hc.shared.2
      fun _ => hcov).1
  other {c i step s' call' event} hs hap hc k hk :=
    hk.moves hc.shared.1 (moves_of_apart hs hap (hc.thread i).1) fun hrd => ⟨k, hrd⟩

theorem newTable_sound (specId : ℕ) (rows : List R) :
    Holds Session.Sound (fun _ s call => call.Owns s ∧ call.Kept s) (newTable specId rows) where
  shared := by
    refine ⟨?_, ?_, ?_, ?_, ?_, ?_⟩ <;> simp [newTable]
  thread _ := ⟨trivial, trivial⟩

/-- **A read returns every row that was acknowledged before it started**, in the base version, in an
SSTable of a snapshot or in a memtable, if closing a writer overlaps neither reads nor the opening
of a writer. -/
theorem read_complete {specId : ℕ} {base rows : List R} {j : ℕ} {context : ReadContext R}
    {pre post : List (ℕ × Event R)}
    (hrun : memWalMachine.Run Apart (newTable specId base)
      (pre ++ (i, .readStarted) :: (post ++ [(i, .readReturned context)])) c)
    (hrows : (j, .acknowledged rows) ∈ pre) (hr : r ∈ rows) : context.Holds r := by
  obtain ⟨pre, mid, rfl⟩ := append_of_mem hrows
  rw [append_assoc, cons_append] at hrun
  -- the row is stored when it is acknowledged
  obtain ⟨c₁, c₂, hpre, hack, hrest⟩ := hrun.of_append_cons
  have hso₁ := hpre.invariants keeps_sound (newTable_sound specId base)
  have hso₂ := hack.holds keeps_sound hso₁
  have hsto : c₂.shared.Stored r := by
    obtain ⟨step, call', hs, hap, -⟩ := hack
    exact (step_kept hs hap hso₁.shared (hso₁.thread j).1 (hso₁.thread j).2).2.2
      rows rfl r hr
  -- it is covered from the start of the read on
  obtain ⟨c₃, c₄, hc₃, hcov, ⟨step, call', hs, hap, -⟩, -⟩ :=
    hrest.follow (follows_covers r) ⟨⟨hso₂.shared, hsto⟩, hso₂.thread⟩
      fun _ _ _ _ hs hap hc =>
        (step_covers hs hap hc.shared.1 (hc.thread i).1 (hc.thread i).2 hc.shared.2
          fun h => absurd rfl h).1
  exact (step_covers hs hap hc₃.shared.1 (hc₃.thread i).1 (hc₃.thread i).2 hc₃.shared.2
    fun _ => hcov).2 context rfl

end Reads

/-! ### Two runs -/

/-- Steps of a session with a single writer, which stays in the slot. -/
def oneWriterCheck (c : Config (Session R) (Call R)) (i : ℕ) : Step R → Bool
  | .read .. => c.shared.entries.length ≤ 1 && c.shared.slot.any (·.2 = 0)
  | .next =>
    match c.thread i with
    | .opening .. => c.shared.entries.isEmpty
    | .draining => false
    | _ => true
  | _ => true

theorem apart_of_check (c : Config (Session R) (Call R)) (i : ℕ) (step : Step R)
    (h : oneWriterCheck c i step) : Apart c i step := by
  cases step with
  | read version indexNames =>
    simp only [oneWriterCheck, Bool.and_eq_true, decide_eq_true_eq] at h
    obtain ⟨hlen, hs⟩ := h
    intro e entry hent _
    have hlt := (List.getElem?_eq_some_iff.1 hent).1
    obtain rfl : e = 0 := by omega
    cases hcch : c.shared.slot with
    | none => simp [hcch] at hs
    | some cached =>
      obtain ⟨shardId, e⟩ := cached
      obtain rfl : e = 0 := by simpa [hcch] using hs
      exact ⟨shardId, rfl⟩
  | next =>
    cases hc : c.thread i with
    | opening shardId rows =>
      have hemp : c.shared.entries = [] := by simpa [oneWriterCheck, hc] using h
      simp only [Apart, hc]
      intro _ e entry hent
      simp [hemp] at hent
    | draining => simp [oneWriterCheck, hc] at h
    | _ => simp [Apart, hc]
  | _ => trivial

/-- A row is inserted and frozen.  Its flush and a read overlap. -/
def flushSchedule : List (ℕ × Step ℕ) :=
  [(0, .mergeInsert 0 [7]), (0, .next), (0, .next), (0, .next), (0, .next), (2, .freeze 0),
    (2, .flush 0), (1, .read 0 []), (1, .next), (1, .next), (1, .next), (2, .flush 0),
    (2, .flush 0), (1, .next), (1, .next)]

/-- What the read returns. -/
def flushedContext : ReadContext ℕ :=
  ⟨⟨⟨[], []⟩, []⟩, [⟨0, 5, 2, [⟨1, [7]⟩]⟩], some (0, ⟨⟨2, []⟩, []⟩)⟩

/-- The memtable is dropped before the read captures the others, but the manifest has the row. -/
theorem read_complete_demo : flushedContext.Holds 7 := by
  have hexec : memWalMachine.exec oneWriterCheck (newTable 5 []) flushSchedule =
      some (memWalMachine.after (newTable 5 []) flushSchedule,
        [(0, .acknowledged [7])] ++ (1, .readStarted) ::
          ([] ++ [(1, .readReturned flushedContext)])) := rfl
  exact read_complete (run_of_exec apart_of_check hexec) (mem_singleton_self _)
    (mem_singleton_self _)

/-- A row is inserted.  A read starts when the writer was taken out of the cache to be closed. -/
def drainSchedule : List (ℕ × Step ℕ) :=
  [(0, .mergeInsert 0 [7]), (0, .next), (0, .next), (0, .next), (0, .next), (1, .drainAndClose),
    (1, .next), (2, .read 0 []), (2, .next), (2, .next), (2, .next)]

/-- **A read may lose an acknowledged row**: the memtables of the writer are not flushed yet, and
the slot is empty. -/
theorem read_loses_row :
    ∃ c context, memWalMachine.Run Condition.any (newTable 5 [])
        [(0, .acknowledged [7]), (2, .readStarted), (2, .readReturned context)] c ∧
      ¬ ReadContext.Holds context 7 := by
  have hrun : memWalMachine.Run Condition.any (newTable 5 [])
      [(0, .acknowledged [7]), (2, .readStarted),
        (2, .readReturned ⟨⟨⟨[], []⟩, []⟩, [⟨0, 5, 1, []⟩], none⟩)]
      (memWalMachine.after (newTable 5 []) drainSchedule) := run_after rfl
  refine ⟨_, _, hrun, ?_⟩
  simp [ReadContext.Holds, ShardSnapshot.Holds]

end LanceDB.MemWal
