import LanceDB.Remote.Handle

/-!
# The schema of the selected version

A `schema` call that starts after a checkout has returned, with no later checkout, returns the
schema of the version that the checkout has selected.  What it returns may come from the cache, from
a fetch that it joins, or from its own.  The cache was invalidated by the checkout, so only fetches
started since count; and one of them returns a schema only if its snapshot is of the current
generation, which means that it was taken after the checkout.

* `ReadSnapshot.Known`, `Handle.Sound` : snapshots of the current generation are for the selected
  version.
* `Handle.Selects` : a schema is for the selected version.
* `Handle.Serves`, `Handle.Serves.moves` — only such schemas can still be returned.
* `schema_selected` — what `schema` returns, and when it retries.
* `schema_retries_idle` — a call may retry although no checkout overlaps with it.
-/

namespace LanceDB.Remote

open Machine List Function

variable {policy : CachePolicy} {interval : Option ℕ} {s s' : Handle}
  {call call' mover : HandleCall} {event : Option HandleEvent} {g : ℕ}
variable {c c' : Config Handle HandleCall} {version : Option ℕ} {snapshot : ReadSnapshot} {i : ℕ}
variable {schema : Described}

/-! ### Snapshots -/

/-- A snapshot of the current generation is for the selected version, and asks for everything that
was committed before the last `checkout_latest`. -/
structure ReadSnapshot.Known (s : Handle) (snapshot : ReadSnapshot) : Prop where
  le : snapshot.freshness.generation ≤ s.freshness.generation
  version : snapshot.freshness.generation = s.freshness.generation → snapshot.version = s.version
  baseline : snapshot.freshness.generation = s.freshness.generation → s.version = none →
    ∀ b ∈ s.freshness.checkoutBaseline, ∃ b' ∈ snapshot.freshness.minTimestamp, b ≤ b'

theorem known_readSnapshot (h : s.Aligned) : (s.readSnapshot interval).Known s := by
  refine ⟨(FreshnessState.generation_headers ..).le, fun _ => rfl, fun _ hver b hb => ?_⟩
  simp only [Handle.readSnapshot, FreshnessState.headers, h hver, Bool.false_eq_true,
    if_false]
  exact FreshnessState.le_computeMinTimestamp interval s.now hb

theorem ReadSnapshot.Known.moves (h : snapshot.Known s) (hm : Moves policy mover s s') :
    snapshot.Known s' := by
  rcases hm.selector with ⟨-, version, baseline, rfl, -⟩ | ⟨hgen, hver, hbase⟩
  · -- the snapshot is of an older generation now
    have hlt : snapshot.freshness.generation < s.freshness.generation + 1 :=
      Nat.lt_succ_of_le h.le
    exact ⟨hlt.le, fun heq => absurd heq hlt.ne, fun heq => absurd heq hlt.ne⟩
  · refine ⟨hgen ▸ h.le, fun heq => ?_, fun heq hn b hb => ?_⟩
    · rw [hver]
      exact h.version (heq.trans hgen)
    · exact h.baseline (heq.trans hgen) (hver ▸ hn) b (hbase ▸ hb)

/-! ### What always holds -/

/-- Fetches have snapshots that are known, and return what was decided; a fetch that found the
selector changed has an older snapshot. -/
structure Handle.Sound (s : Handle) : Prop where
  aligned : s.Aligned
  bounded : s.schemaCache.Bounded
  baseline : ∀ b ∈ s.freshness.checkoutBaseline, b ≤ s.now
  described : ∀ f d, s.describes f = some d → f < s.schemaCache.fetches.length ∧ d.snapshot.Known s
  changed : ∀ f snapshot, s.describes f = some ⟨snapshot, some (.error .selectorChanged)⟩ →
    snapshot.freshness.generation < s.freshness.generation
  finished : ∀ f fetch result t, s.schemaCache.fetches[f]? = some fetch →
    fetch.result = some (result, t) → ∃ snapshot, s.describes f = some ⟨snapshot, some result⟩

/-- What the slow path of the cache does to the fetches. -/
theorem getSchema_describes (s : Handle) (snapshot : ReadSnapshot) {f : ℕ} {d : Describe}
    (h : (s.getSchema policy snapshot).describes f = some d) :
    s.describes f = some d ∨ (f = s.schemaCache.fetches.length ∧ d = ⟨snapshot, none⟩ ∧
      (s.getSchema policy snapshot).schemaCache.fetches.length ≠ s.schemaCache.fetches.length) := by
  simp only [Handle.getSchema] at h ⊢
  split_ifs at h with hlen
  · exact .inl h
  · rcases update_eq_cases h with ⟨rfl, hd⟩ | hold
    · exact .inr ⟨rfl, (Option.some.inj hd).symm, hlen⟩
    · exact .inl hold

theorem getSchema_length_le (p : CachePolicy) (s : Handle) (snapshot : ReadSnapshot) :
    s.schemaCache.fetches.length ≤
      (s.getSchema p snapshot).schemaCache.fetches.length :=
  Cache.length_le_determineAction ..

theorem Handle.Sound.getSchema (h : s.Sound) (hkn : snapshot.Known s) :
    (s.getSchema policy snapshot).Sound := by
  have hle := getSchema_length_le policy s snapshot
  have hm : Moves policy (.schemaSlow snapshot) s (s.getSchema policy snapshot) := .get rfl
  refine ⟨h.aligned, h.bounded.determineAction, h.baseline, fun f d hd => ?_,
    fun f snapshot' hd => ?_, fun f fetch result t hfet hres => ?_⟩
  · rcases getSchema_describes s snapshot hd with hold | ⟨rfl, rfl, hne⟩
    · obtain ⟨hlt, hd⟩ := h.described f d hold
      exact ⟨hlt.trans_le hle, hd.moves hm⟩
    · exact ⟨lt_of_le_of_ne hle hne.symm, hkn.moves hm⟩
  · rcases getSchema_describes s snapshot hd with hold | ⟨-, hnew, -⟩
    · exact h.changed f snapshot' hold
    · cases hnew
  · -- a fetch with a result is not the one that was started
    have hs : Cache.Decided policy s.now s.schemaCache _ _ := Cache.determineAction_spec
    rcases hs.fetches with ⟨hfs, -⟩ | ⟨hfs, -⟩
    · simp only [Handle.getSchema, hfs] at hfet ⊢
      exact h.finished f fetch result t hfet hres
    · simp only [Handle.getSchema, hfs, length_append] at hfet ⊢
      rw [getElem?_append] at hfet
      split_ifs at hfet with hlt
      · obtain ⟨snapshot', hd⟩ := h.finished f fetch result t hfet hres
        exact ⟨snapshot', by simp [update_of_ne hlt.ne, hd]⟩
      · obtain rfl := mem_singleton.1 (mem_of_getElem? hfet)
        cases hres

theorem decided_describes {future f : ℕ} {result : Except SchemaError Described} {d : Describe}
    (h : (s.decided future snapshot result).describes f = some d) :
    (f = future ∧ d = ⟨snapshot, some result⟩) ∨ s.describes f = some d :=
  (update_eq_cases h).imp_left fun ⟨hf, hd⟩ => ⟨hf, (Option.some.inj hd).symm⟩

theorem Handle.Sound.decided (h : s.Sound) {future : ℕ} {result : Except SchemaError Described}
    (hd : s.describes future = some ⟨snapshot, none⟩)
    (hres : result = .error .selectorChanged →
    snapshot.freshness.generation < s.freshness.generation) :
    (s.decided future snapshot result).Sound := by
  refine ⟨h.aligned, h.bounded, h.baseline, fun f d hf => ?_, fun f snapshot' hf => ?_,
    fun f fetch result' t hfet hres' => ?_⟩
  · rcases decided_describes hf with ⟨rfl, rfl⟩ | hold
    · obtain ⟨hlt, hkn⟩ := h.described f _ hd
      exact ⟨hlt, hkn.le, hkn.version, hkn.baseline⟩
    · obtain ⟨hlt, hkn⟩ := h.described f d hold
      exact ⟨hlt, hkn.le, hkn.version, hkn.baseline⟩
  · rcases decided_describes hf with ⟨rfl, heq⟩ | hold
    · obtain ⟨rfl, hres'⟩ := Describe.mk.inj heq
      exact hres (Option.some.inj hres').symm
    · exact h.changed f snapshot' hold
  · obtain ⟨snapshot', hf⟩ := h.finished f fetch result' t hfet hres'
    have hff : f ≠ future := by
      rintro rfl
      rw [hd] at hf
      cases hf
    exact ⟨snapshot', by simp only [Handle.decided, update_of_ne hff, hf]⟩

theorem Handle.Sound.freshness (h : s.Sound) {st : FreshnessState}
    (hgen : st.generation = s.freshness.generation) (hpin : st.pinned = s.freshness.pinned)
    (hbase : st.checkoutBaseline = s.freshness.checkoutBaseline) :
    { s with freshness := st }.Sound := by
  refine ⟨fun hver => hpin.trans (h.aligned hver), h.bounded,
    fun b hb => h.baseline b (hbase ▸ hb), fun f d hd => ?_, fun f snapshot hd => ?_, h.finished⟩
  · obtain ⟨hlt, hk⟩ := h.described f d hd
    exact ⟨hlt, hgen.symm ▸ hk.le, fun heq => hk.version (heq.trans hgen),
      fun heq hn b hb => hk.baseline (heq.trans hgen) hn b (hbase ▸ hb)⟩
  · exact hgen.symm ▸ h.changed f snapshot hd

theorem schemaOf_error {version : ℕ} (hkn : snapshot.Known s)
    (h : s.schemaOf snapshot version = .error .selectorChanged) :
    snapshot.freshness.generation < s.freshness.generation := by
  unfold Handle.schemaOf at h
  split_ifs at h with hgen
  exact lt_of_le_of_ne hkn.le fun heq => hgen heq.symm

theorem Handle.Sound.moves (h : s.Sound)
    (hslow : ∀ snapshot, mover = .schemaSlow snapshot → snapshot.Known s)
    (hm : Moves policy mover s s') : s'.Sound := by
  have halgn := h.aligned.moves hm
  have hdesc : ∀ f d, s.describes f = some d →
      f < s.schemaCache.fetches.length ∧ d.snapshot.Known s' := fun f d hd =>
    (h.described f d hd).imp id (·.moves hm)
  cases hm with
  | same | commit | release =>
    exact ⟨halgn, h.bounded, h.baseline, hdesc, h.changed, h.finished⟩
  | tick duration =>
    exact ⟨halgn, h.bounded, fun b hb => (h.baseline b hb).trans (Nat.le_add_right ..),
      hdesc, h.changed, h.finished⟩
  | observe | track => exact h.freshness (by simp) (by simp) (by simp)
  | select version hfree hbase =>
    refine ⟨halgn, h.bounded, fun b hb => ?_, hdesc,
      fun f snapshot hd => (h.changed f snapshot hd).trans (Nat.lt_succ_self _), h.finished⟩
    obtain rfl : _ = some b := hb
    split_ifs at hbase
    exact (Option.some.inj hbase).le
  | invalidate =>
    exact ⟨halgn, h.bounded.invalidate, h.baseline, hdesc, h.changed, h.finished⟩
  | get hc => exact h.getSchema (hslow _ hc)
  | @answer future version snapshot hd hme =>
    have hdec : (s.decided future snapshot (s.schemaOf snapshot version)).Sound :=
      h.decided hd (schemaOf_error (h.described _ _ hd).2)
    exact hdec.freshness (FreshnessState.trackReadVersion_keeps ..).1
      (FreshnessState.trackReadVersion_keeps ..).2.1 (FreshnessState.trackReadVersion_keeps ..).2.2
  | fail hd => exact h.decided hd (by simp)
  | @finish future snapshot result hd =>
    refine ⟨halgn, h.bounded.modify fun _ => rfl, h.baseline, fun f d hf => ?_, h.changed,
      fun f fetch result' t hfet hres => ?_⟩
    · rw [Cache.complete, length_modify]
      exact hdesc f d hf
    · obtain ⟨old, hold, rfl | ⟨rfl, rfl⟩⟩ := getElem?_modify_cases hfet
      · exact h.finished f _ result' t hold hres
      · obtain ⟨rfl, -⟩ : result = result' ∧ s.now = t := by simpa using hres
        exact ⟨snapshot, hd⟩
  | @task future t fetch result hfet hres =>
    refine ⟨halgn, h.bounded.modify fun _ => rfl, h.baseline, fun f d hf => ?_, h.changed,
      fun f fetch' result' t' hfet' hres' => ?_⟩
    · rw [Cache.runTask, length_modify]
      exact hdesc f d hf
    · obtain ⟨old, hold, rfl | ⟨rfl, rfl⟩⟩ := getElem?_modify_cases hfet'
      · exact h.finished f _ result' t' hold hres'
      · exact h.finished f old result' t' hold hres'

/-! ### Schemas of the selected version -/

/-- A schema is for the selected version: it was fetched for it, and it is that of the version, or
it includes every commit before the last `checkout_latest`. -/
structure Handle.Selects (s : Handle) (schema : Described) : Prop where
  generation : schema.snapshot.freshness.generation = s.freshness.generation
  selected : schema.snapshot.version = s.version
  fixed : ∀ v ∈ s.version, schema.version = v
  latest : s.version = none → ∀ b ∈ s.freshness.checkoutBaseline,
    ∀ k (hk : k < s.commits.length), s.commits[k] < b → k + 1 ≤ schema.version

theorem Handle.Sound.selects_commit (h : s.Sound) (hs : s.Selects schema) :
    { s with commits := s.commits ++ [s.now] }.Selects schema := by
  refine ⟨hs.generation, hs.selected, hs.fixed, fun hn b hb k hk hlt => ?_⟩
  by_cases hold : k < s.commits.length
  · rw [getElem_append_left hold] at hlt
    exact hs.latest hn b hb k hold hlt
  · obtain rfl : k = s.commits.length := by
      have : k < s.commits.length + 1 := by simpa using hk
      omega
    have hle := h.baseline b hb
    simp only [getElem_concat_length] at hlt
    omega

theorem Handle.Sound.selects_moves (h : s.Sound) (hs : s.Selects schema)
    (hm : Moves policy mover s s') (hgen : s'.freshness.generation = s.freshness.generation) :
    s'.Selects schema := by
  cases hm with
  | commit => exact h.selects_commit hs
  | select version hf hbase => exact absurd hgen (Nat.succ_ne_self _)
  | observe | answer =>
    exact ⟨hs.generation.trans hgen.symm, hs.selected, hs.fixed, fun hn b hb =>
      hs.latest hn b ((FreshnessState.trackReadVersion_keeps ..).2.2.symm.trans hb)⟩
  | track =>
    exact ⟨hs.generation.trans hgen.symm, hs.selected, hs.fixed, fun hn b hb =>
      hs.latest hn b ((FreshnessState.trackWriteVersion_keeps ..).2.2.symm.trans hb)⟩
  | _ => exact ⟨hs.generation, hs.selected, hs.fixed, hs.latest⟩

theorem selects_of_schemaOf {version : ℕ} (hkn : snapshot.Known s)
    (hm : Meets s.commits snapshot version) (h : s.schemaOf snapshot version = .ok schema) :
    s.Selects schema := by
  unfold Handle.schemaOf at h
  split_ifs at h with hgen
  cases h
  have hver := hkn.version hgen.symm
  refine ⟨hgen.symm, hver, fun v hv => ?_, fun hn b hb k hk hlt => ?_⟩
  · rw [hv] at hver
    simpa only [Meets, hver] using hm
  · obtain ⟨b', hb', hle⟩ := hkn.baseline hgen.symm hn b hb
    simp only [Meets, hver, hn] at hm
    exact hm.2.2 b' hb' k hk (hlt.le.trans hle)

/-- The cache, and the fetches since generation `g` of it, bring only schemas of the selected
version. -/
structure Handle.Serves (g : ℕ) (s : Handle) : Prop where
  cache : s.schemaCache.Good s.Selects g
  decided : ∀ f snapshot schema, s.describes f = some ⟨snapshot, some (.ok schema)⟩ →
    s.schemaCache.Since g f → s.Selects schema

theorem Handle.Sound.serves_invalidate (h : s.Sound) :
    { s with schemaCache := s.schemaCache.invalidate }.Serves (s.schemaCache.generation + 1) := by
  refine ⟨Cache.good_invalidate _ h.bounded, fun f snapshot schema _ hsi => ?_⟩
  obtain ⟨fetch, hfet, hlt⟩ := hsi
  have hle := h.bounded fetch (mem_of_getElem? hfet)
  exact absurd hlt (Nat.not_le_of_lt (Nat.lt_succ_of_le hle))

/-- As long as no checkout resets the freshness, only schemas of the selected version can be
returned. -/
theorem Handle.Serves.moves (h : s.Serves g) (hsnd : s.Sound) (hm : Moves policy mover s s')
    (hgen : s'.freshness.generation = s.freshness.generation) : s'.Serves g := by
  have hsel : ∀ schema, s.Selects schema → s'.Selects schema := fun schema hs =>
    hsnd.selects_moves hs hm hgen
  have hca := h.cache.mono hsel
  have hdec : ∀ f snapshot schema, s.describes f = some ⟨snapshot, some (.ok schema)⟩ →
      s.schemaCache.Since g f → s'.Selects schema := fun f snapshot schema hd hsi =>
    hsel schema (h.decided f snapshot schema hd hsi)
  cases hm with
  | invalidate => exact ⟨hca.invalidate, hdec⟩
  | @get snapshot hslow =>
    refine ⟨hca.determineAction, fun f snapshot' schema hd hsi => ?_⟩
    rcases getSchema_describes s snapshot hd with hold | ⟨-, hnew, -⟩
    · have hlt := (hsnd.described f _ hold).1
      exact hdec f snapshot' schema hold ((Cache.since_determineAction hlt).1 hsi)
    · cases hnew
  | @answer future version snapshot hd hme =>
    refine ⟨hca, fun f snapshot' schema hf hsi => ?_⟩
    rcases decided_describes hf with ⟨rfl, heq⟩ | hold
    · obtain ⟨rfl, hres⟩ := Describe.mk.inj heq
      exact hsel schema
        (selects_of_schemaOf (hsnd.described f _ hd).2 hme (Option.some.inj hres).symm)
    · exact hdec f snapshot' schema hold hsi
  | fail hd =>
    refine ⟨hca, fun f snapshot' schema hf hsi => ?_⟩
    rcases decided_describes hf with ⟨rfl, heq⟩ | hold
    · cases heq
    · exact hdec f snapshot' schema hold hsi
  | @finish future snapshot result hd =>
    refine ⟨hca.complete fun schema hsi hres => ?_, fun f snapshot' schema hf hsi => ?_⟩
    · subst hres
      exact hdec future snapshot schema hd hsi
    · exact hdec f snapshot' schema hf (Cache.since_complete.1 hsi)
  | task hfet hres =>
    exact ⟨hca.runTask hfet hres, fun f snapshot' schema hf hsi =>
      hdec f snapshot' schema hf (Cache.since_runTask.1 hsi)⟩
  | _ => exact ⟨hca, hdec⟩

/-! ### What holds in all runs -/

/-- The write lock of the version. -/
def handleLock (policy : CachePolicy) (interval : Option ℕ) :
    (handleMachine policy interval).Lock where
  locked s := s.locked = true
  holds := HandleCall.Holds
  step {s call step s' call' event} hs := by
    obtain ⟨-, ha⟩ := handle_cases hs
    cases ha with
    | stay _ hlock => exact .inl ⟨Iff.rfl, by rw [hlock]⟩
    | plain hs' hf hp =>
      have hf' : ¬ call'.Holds := by
        cases call' with
        | selecting | selected => exact hp.elim
        | _ => exact id
      exact .inl ⟨iff_of_false hf' hf, by rw [hs']⟩
    | fresh hs' hf => exact .inl ⟨iff_of_false id hf, by rw [hs']⟩
    | selecting _ hf hs' => exact .inr (.inl ⟨by simp [hf], by rw [hs']; rfl⟩)
    | released => exact .inr (.inr ⟨trivial, id⟩)
    | committed hs' | observed hs' | written hs' | issued hs' | returned hs' | snapshot hs'
    | tried hs' | missed hs' | value hs' | wait hs' | waited hs' | again hs' | selected hs' =>
      exact .inl ⟨Iff.rfl, by subst hs'; exact Iff.rfl⟩

/-- What a call knows about the handle. -/
def HandleCall.Learnt (s : Handle) : HandleCall → Prop
  | .schemaSnapshot snapshot | .schemaTried snapshot | .schemaSlow snapshot => snapshot.Known s
  | .selecting version => s.version = version
  | .selected version => s.version = version ∧ ∃ g, s.Serves g
  | _ => True

theorem HandleCall.Learnt.slow (h : call.Learnt s) (snapshot : ReadSnapshot)
    (hslow : call = .schemaSlow snapshot) : snapshot.Known s := by
  subst hslow
  exact h

theorem HandleCall.Learnt.moves (h : call.Learnt s) (hs : s.Sound)
    (hheld : call.Holds → s.locked = true) (hm : Moves policy mover s s') :
    call.Learnt s' := by
  cases call with
  | schemaSnapshot | schemaTried | schemaSlow => exact ReadSnapshot.Known.moves h hm
  | selecting version =>
    rcases hm.selector with ⟨hf, -⟩ | ⟨-, hver, -⟩
    · exact absurd (hheld trivial) (by simp [hf])
    · exact hver.trans h
  | selected version =>
    rcases hm.selector with ⟨hf, -⟩ | ⟨hgen, hver, -⟩
    · exact absurd (hheld trivial) (by simp [hf])
    · obtain ⟨heq, g, hsrv⟩ := h
      exact ⟨hver.trans heq, g, hsrv.moves hs hm hgen⟩
  | _ => trivial

theorem HandleCall.Learnt.acts (h : call.Learnt s) (hs : s.Sound)
    (hheld : call.Holds → s.locked = true) (hm : Moves policy call s s')
    (ha : Acts policy interval s s' call call' event) : call'.Learnt s' := by
  cases ha with
  | stay => exact h.moves hs hheld hm
  | plain _ _ hp =>
    cases call' with
    | schemaSnapshot | schemaTried | schemaSlow | selecting | selected => exact hp.elim
    | _ => trivial
  | snapshot hs' =>
    subst hs'
    exact known_readSnapshot hs.aligned
  | tried hs' | missed hs' =>
    subst hs'
    exact h
  | selecting _ _ hs' =>
    subst hs'
    rfl
  | selected hs' =>
    subst hs'
    exact ⟨h, _, hs.serves_invalidate⟩
  | _ => trivial

/-- What holds in every run. -/
structure Ordered (policy : CachePolicy) (interval : Option ℕ) (c : Config Handle HandleCall) :
    Prop where
  exclusive : (handleLock policy interval).Exclusive c
  sound : c.shared.Sound
  learnt : ∀ i, (c.thread i).Learnt c.shared

theorem Ordered.fires {C : Condition Handle HandleCall HandleStep} (h : Ordered policy interval c)
    (hf : (handleMachine policy interval).Fires C c i event c') :
    Ordered policy interval c' := by
  refine ⟨h.exclusive.fires hf, ?_, fun k => ?_⟩
  all_goals
    obtain ⟨step, hs, -, hoth⟩ := hf.exists_step
    obtain ⟨hm, ha⟩ := handle_cases hs
  · exact h.sound.moves (h.learnt i).slow hm
  · by_cases hk : k = i
    · subst hk
      exact (h.learnt k).acts h.sound (h.exclusive.locked k) hm ha
    · rw [hoth k hk]
      exact (h.learnt k).moves h.sound (h.exclusive.locked k) hm

theorem ordered_newHandle (policy : CachePolicy) (interval : Option ℕ) (commits : Commits)
    (now : ℕ) (version : Option ℕ) (seed : Option Described) :
    Ordered policy interval (newHandle commits now version seed) := by
  refine ⟨⟨fun _ h => h.elim, fun _ _ h => h.elim⟩,
    ⟨aligned_newHandle commits now version seed, by simp [newHandle, Cache.Bounded],
      fun b hb => ?_, by simp [newHandle], by simp [newHandle], by simp [newHandle]⟩,
    fun _ => trivial⟩
  cases version <;> cases seed <;> simp [newHandle, FreshnessState.fresh] at hb

/-! ### Schema calls after a checkout -/

/-- No checkout takes the write lock. -/
def Quiet : Condition Handle HandleCall HandleStep := fun c i step =>
  ∀ answer, step = .next answer → ¬ (c.thread i).Switches

theorem next_of_selecting {step : HandleStep}
    (h : (handleMachine policy interval).step s call step = some (s', .selecting version, event))
    (hsw : call.Switches) : ∃ answer, step = .next answer := by
  have hne : call ≠ .selecting version := by
    rintro rfl
    exact hsw
  cases step with
  | next answer => exact ⟨answer, rfl⟩
  | fail =>
    obtain ⟨⟨call', event'⟩, hfls, ⟨⟩⟩ := Option.map_eq_some_iff.1 h
    exact (handleFails_plain hfls).2.1.elim
  | retry =>
    simp only [handleMachine] at h
    split at h <;> cases h
  | describe future answer | finish future | task future =>
    obtain ⟨_, -, ⟨⟩⟩ := Option.map_eq_some_iff.1 h
    exact absurd rfl hne
  | invalidate | commit | tick =>
    cases h
    exact absurd rfl hne
  | write | read | schema | checkout | checkoutLatest =>
    simp only [handleMachine] at h
    split_ifs at h with hi
    subst hi
    exact hsw.elim

theorem generation_of_quiet {step : HandleStep}
    (h : (handleMachine policy interval).step s call step = some (s', call', event))
    (hq : ∀ answer, step = .next answer → ¬ call.Switches) :
    s'.freshness.generation = s.freshness.generation := by
  obtain ⟨-, ha⟩ := handle_cases h
  cases ha with
  | stay _ _ hgen => exact hgen
  | observed hs' | returned hs' =>
    rw [hs']
    exact (FreshnessState.trackReadVersion_keeps ..).1
  | written hs' =>
    rw [hs']
    exact (FreshnessState.trackWriteVersion_keeps ..).1
  | selecting hsw =>
    obtain ⟨answer, rfl⟩ := next_of_selecting h hsw
    exact absurd hsw (hq answer rfl)
  | plain hs' | committed hs' | issued hs' | snapshot hs' | tried hs' | missed hs' | fresh hs'
  | value hs' | wait hs' | waited hs' | again hs' | selected hs' | released hs' =>
    subst hs'
    rfl

/-- A call that started after the cache was invalidated waits for a fetch that has started since,
too. -/
def HandleCall.Since (g : ℕ) (s : Handle) (call : HandleCall) : Prop :=
  ∀ f, call = .schemaWaiting f → s.schemaCache.Since g f

theorem since_moves {f : ℕ} (h : s.schemaCache.Since g f) (hm : Moves policy mover s s') :
    s'.schemaCache.Since g f := by
  cases hm with
  | get => exact (Cache.since_determineAction h.lt).2 h
  | finish => exact Cache.since_complete.2 h
  | task => exact Cache.since_runTask.2 h
  | _ => exact h

theorem HandleCall.Since.acts (h : call.Since g s) (hsrv : s.Serves g)
    (hm : Moves policy call s s') (ha : Acts policy interval s s' call call' event) :
    call'.Since g s' := by
  intro f hwait
  subst hwait
  cases ha with
  | stay => exact since_moves (h f rfl) hm
  | plain _ _ hp => exact hp.elim
  | wait hs' hact =>
    rw [hs']
    exact hsrv.cache.wait hact

theorem selects_of_returned (hsrv : s.Serves g) (hc : call.Since g s)
    (ha : Acts policy interval s s' call call' (some (.schemaReturned schema))) :
    s.Selects schema := by
  cases ha with
  | plain _ _ _ hev => simp at hev
  | fresh _ _ hfr => exact hsrv.cache.freshValue hfr
  | value _ hact => exact hsrv.cache.value hact
  | waited _ hpeek => exact hsrv.cache.peek (hc _ rfl) hpeek

/-- After a checkout of a version has returned. -/
structure Served (policy : CachePolicy) (interval : Option ℕ) (g : ℕ) (version : Option ℕ)
    (c : Config Handle HandleCall) : Prop where
  ordered : Ordered policy interval c
  version : c.shared.version = version
  serves : c.shared.Serves g

theorem Served.fires (h : Served policy interval g version c)
    (hf : (handleMachine policy interval).Fires Quiet c i event c') :
    Served policy interval g version c' := by
  have hord := h.ordered.fires hf
  obtain ⟨step, call', hs, hq, -⟩ := hf
  obtain ⟨hm, -⟩ := handle_cases hs
  have hgen := generation_of_quiet hs hq
  refine ⟨hord, ?_, h.serves.moves h.ordered.sound hm hgen⟩
  rcases hm.selector with ⟨-, _, _, heq, -⟩ | ⟨-, hver, -⟩
  · rw [heq] at hgen
    exact absurd hgen (Nat.succ_ne_self _)
  · exact hver.trans h.version

theorem served_of_checkout (h : Ordered policy interval c)
    (hf : (handleMachine policy interval).Fires .any c i (some (.checkoutReturned version)) c') :
    ∃ g, Served policy interval g version c' := by
  have hord := h.fires hf
  have hlearnt := h.learnt i
  obtain ⟨step, call', hs, -, -⟩ := hf
  obtain ⟨hm, ha⟩ := handle_cases hs
  generalize c.thread i = call at hlearnt hm ha
  cases ha with
  | plain _ _ _ hev => simp at hev
  | released hs' =>
    obtain ⟨hver, g, hsrv⟩ := hlearnt
    have hgen : c'.shared.freshness.generation = c.shared.freshness.generation := by rw [hs']
    exact ⟨g, hord, by rw [hs']; exact hver, hsrv.moves h.sound hm hgen⟩

/-- The call of thread `j` started after that, too. -/
structure Follows (policy : CachePolicy) (interval : Option ℕ) (g : ℕ) (version : Option ℕ) (j : ℕ)
    (c : Config Handle HandleCall) : Prop where
  served : Served policy interval g version c
  since : (c.thread j).Since g c.shared

theorem Follows.fires {j : ℕ} (h : Follows policy interval g version j c)
    (hfi : (handleMachine policy interval).Fires Quiet c i event c') :
    Follows policy interval g version j c' := by
  refine ⟨h.served.fires hfi, ?_⟩
  obtain ⟨step, hs, -, hoth⟩ := hfi.exists_step
  obtain ⟨hm, ha⟩ := handle_cases hs
  by_cases hj : j = i
  · subst hj
    exact h.since.acts h.served.serves hm ha
  · rw [hoth j hj]
    exact fun f hf => since_moves (h.since f hf) hm

theorem follows_of_started {j : ℕ} (h : Served policy interval g version c)
    (hf : (handleMachine policy interval).Fires Quiet c j (some .schemaStarted) c') :
    Follows policy interval g version j c' := by
  refine ⟨h.fires hf, ?_⟩
  obtain ⟨step, hs, -, -⟩ := hf.exists_step
  obtain ⟨-, ha⟩ := handle_cases hs
  generalize c.thread j = call at ha
  generalize c'.thread j = call' at ha ⊢
  cases ha with
  | plain _ _ hp =>
    rintro f rfl
    exact hp.elim

/-- What the call returns stays a schema of the selected version. -/
structure Returned (policy : CachePolicy) (interval : Option ℕ) (g : ℕ) (version : Option ℕ)
    (schema : Described) (c : Config Handle HandleCall) : Prop where
  served : Served policy interval g version c
  selects : c.shared.Selects schema

theorem Returned.fires (h : Returned policy interval g version schema c)
    (hf : (handleMachine policy interval).Fires Quiet c i event c') :
    Returned policy interval g version schema c' := by
  refine ⟨h.served.fires hf, ?_⟩
  obtain ⟨step, call', hs, hq, -⟩ := hf
  exact h.served.ordered.sound.selects_moves h.selects (handle_cases hs).1
    (generation_of_quiet hs hq)

theorem returned_of_follows {j : ℕ} (h : Follows policy interval g version j c)
    (hf : (handleMachine policy interval).Fires Quiet c j (some (.schemaReturned schema)) c') :
    Returned policy interval g version schema c' := by
  have hsel : c.shared.Selects schema := by
    obtain ⟨step, call', hs, -, -⟩ := hf
    exact selects_of_returned h.served.serves h.since (handle_cases hs).2
  exact Returned.fires ⟨h.served, hsel⟩ hf

/-- **Schemas follow the selector.**  A `schema` call that starts after a checkout has returned,
with no checkout taking the lock before it returns, returns a schema of the selected version.  And a
call retries only if the fetch it has waited for was prepared before the last checkout. -/
theorem schema_selected {commits : Commits} {now : ℕ} {opened : Option ℕ} {seed : Option Described}
    {pre : List (ℕ × HandleEvent)} {c : Config Handle HandleCall}
    (hpre : (handleMachine policy interval).Run .any (newHandle commits now opened seed) pre c) :
    (∀ i version c₁ mid j post schema c₂,
      (handleMachine policy interval).Fires .any c i (some (.checkoutReturned version)) c₁ →
      (handleMachine policy interval).Run Quiet c₁
        (mid ++ (j, .schemaStarted) :: (post ++ [(j, .schemaReturned schema)])) c₂ →
      c₂.shared.version = version ∧ c₂.shared.Selects schema) ∧
    (∀ j c', (handleMachine policy interval).Fires .any c j (some .schemaRetried) c' →
      ∃ f snapshot result, c.thread j = .schemaWaiting f ∧
        c.shared.describes f = some ⟨snapshot, result⟩ ∧
        snapshot.freshness.generation < c.shared.freshness.generation) := by
  have hc : Ordered policy interval c :=
    hpre.invariant (fun _ _ _ _ hfi h => h.fires hfi) (ordered_newHandle ..)
  constructor
  · intro i version c₁ mid j post schema c₂ hco hrun
    obtain ⟨g, hc₁⟩ := served_of_checkout hc hco
    obtain ⟨c₃, c₄, hmid, hsta, hrun⟩ := hrun.of_append_cons
    obtain ⟨c₅, c₆, hpost, hreturn, hend⟩ := hrun.of_append_cons
    have hc₃ := hmid.invariant (fun _ _ _ _ hfi h => Served.fires h hfi) hc₁
    have hc₄ := follows_of_started hc₃ hsta
    have hc₅ := hpost.invariant (fun _ _ _ _ hfi h => Follows.fires h hfi) hc₄
    have hc₆ := returned_of_follows hc₅ hreturn
    have hc₂ := hend.invariant (fun _ _ _ _ hfi h => Returned.fires h hfi) hc₆
    exact ⟨hc₂.served.version, hc₂.selects⟩
  · intro j c' hretry
    obtain ⟨step, call', hs, -, -⟩ := hretry
    obtain ⟨-, ha⟩ := handle_cases hs
    generalize hcall : c.thread j = call at ha
    cases ha with
    | plain _ _ _ hev => simp at hev
    | @again f _ hpeek =>
      obtain ⟨fetch, t, hfet, hres⟩ := Cache.peek_eq_some.1 hpeek
      obtain ⟨snapshot, hd⟩ := hc.sound.finished f fetch _ t hfet hres
      exact ⟨f, snapshot, _, rfl, hd, hc.sound.changed f snapshot hd⟩

/-- A check of the condition. -/
def quietCheck (c : Config Handle HandleCall) (i : ℕ) (step : HandleStep) : Bool :=
  match step, c.thread i with
  | .next _, .checkoutValid _ | .next _, .latestStart => false
  | _, _ => true

theorem quiet_of_check (c : Config Handle HandleCall) (i : ℕ) (step : HandleStep)
    (h : quietCheck c i step = true) : Quiet c i step := by
  rintro answer rfl
  cases hc : c.thread i with
  | checkoutValid | latestStart => simp [quietCheck, hc] at h
  | _ => exact id

/-- A handle of a table with two versions, when a checkout of the first is about to return. -/
def selectedConfig : Config Handle HandleCall :=
  defaultMachine.after (newHandle [0, 0] 0 none none)
    [(0, .checkout 1), (0, .next 0), (0, .next 0), (0, .next 0)]

/-- It has returned. -/
def checkedOutConfig : Config Handle HandleCall :=
  defaultMachine.after selectedConfig [(0, .next 0)]

/-- A `schema` call that fetches. -/
def fetchSchedule : List (ℕ × HandleStep) :=
  [(1, .schema), (1, .next 0), (1, .next 0), (1, .next 0), (1, .next 0), (2, .describe 0 (some 1)),
    (2, .finish 0), (1, .next 0)]

/-- The schema of the first version. -/
def firstSchema : Described := ⟨1, ⟨some 1, ⟨1, none, none, none⟩⟩⟩

theorem schema_selected_demo :
    (defaultMachine.after checkedOutConfig fetchSchedule).shared.version = some 1 ∧
      (defaultMachine.after checkedOutConfig fetchSchedule).shared.Selects firstSchema := by
  have hpre : defaultMachine.Run .any (newHandle [0, 0] 0 none none) [] selectedConfig :=
    run_after rfl
  have hco : defaultMachine.Fires .any selectedConfig 0 (some (.checkoutReturned (some 1)))
      checkedOutConfig := ⟨.next 0, .idle, rfl, trivial, rfl⟩
  have hexec : defaultMachine.exec quietCheck checkedOutConfig fetchSchedule =
      some (defaultMachine.after checkedOutConfig fetchSchedule,
        [] ++ (1, .schemaStarted) :: ([] ++ [(1, .schemaReturned firstSchema)])) := rfl
  exact (schema_selected hpre).1 0 (some 1) _ [] 1 [] firstSchema _ hco
    (run_of_exec quiet_of_check hexec)

/-- A `schema` call has taken its snapshot and found nothing in the cache.  Then `checkout_latest`
is called, and returns. -/
def latestConfig : Config Handle HandleCall :=
  defaultMachine.after (newHandle [0] 0 none none)
    [(0, .schema), (0, .next 0), (0, .next 0), (0, .next 0),
      (1, .checkoutLatest), (1, .next 0), (1, .next 0), (1, .next 0)]

/-- The call starts its fetch, and another one joins it. -/
def joinSchedule : List (ℕ × HandleStep) :=
  [(0, .next 0), (2, .schema), (2, .next 0), (2, .next 0), (2, .next 0), (2, .next 0),
    (3, .describe 0 (some 1)), (3, .finish 0), (2, .next 0)]

/-- **A call may retry although no checkout overlaps with it.**  The call of thread `2` starts after
`checkout_latest` has returned, and joins the fetch of an older call, whose snapshot is from before
the checkout. -/
theorem schema_retries_idle :
    defaultMachine.Run .any (newHandle [0] 0 none none)
      [(0, .schemaStarted), (1, .checkoutReturned none)] latestConfig ∧
    latestConfig.shared.locked = false ∧
    defaultMachine.Run Quiet latestConfig [(2, .schemaStarted), (2, .schemaRetried)]
      (defaultMachine.after latestConfig joinSchedule) := by
  refine ⟨run_after rfl, rfl, ?_⟩
  have hexec : defaultMachine.exec quietCheck latestConfig joinSchedule =
      some (defaultMachine.after latestConfig joinSchedule,
        [(2, .schemaStarted), (2, .schemaRetried)]) := rfl
  exact run_of_exec quiet_of_check hexec

end LanceDB.Remote
