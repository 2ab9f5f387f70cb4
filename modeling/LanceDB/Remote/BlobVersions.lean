import LanceDB.Remote.Blobs

/-!
# Blob reads are aligned and see one version

* `Server.Faithful` : the server answers at the version a request names, in the order of its ids.
* `fetchStep_asks` — one round of `fetch_blobs` keeps the results aligned with what is left to ask.
* `BlobFile.ReadsAt` : a handle that reads one version of one blob.
* `takeStep_asks` — one round of `take_blob_descriptor_sizes` keeps to one version.
* `blob_reads_one_version` — `fetch_blobs` ends, and its results are the blobs of the requested rows
  at one version; so are the handles of `fetch_blob_files`.
-/

namespace LanceDB.Blobs

open Call List

variable {Sc B : Type}
variable {version : ℕ}

/-- The version that was read is the one that was named, if any was. -/
def Names (named : Option ℕ) (version : ℕ) : Prop := ∀ v ∈ named, version = v

@[simp] theorem names_some {v : ℕ} : Names (some v) version ↔ version = v := by
  simp [Names]

@[simp] theorem names_none (version : ℕ) : Names none version := by simp [Names]

/-- The descriptors of a column in a batch, by row id. -/
def descriptorRows (column : String) (batch : Batch B) : List (ℕ × Descriptor) :=
  match columnByName batch rowIdColumn, columnByName batch column with
  | some ⟨_, _, .uint64 rowIds⟩, some ⟨_, _, .descriptors descriptors⟩ => rowIds.zip descriptors
  | _, _ => []

/-- What the server promises about the blobs `content` of the versions of a table: it answers each
request at the version it names, or else at some version, and in the order of its row ids. -/
structure Server.Faithful (server : Server Sc B) (content : ℕ → String → ℕ → Option (List B)) :
    Prop where
  /-- The values of a response are those of the row ids in their order; some may be missing. -/
  fetchBlobs {log named column rowIds stream} :
    server.fetchBlobs log named column rowIds = .ok (.ok stream) →
    ∃ v, Names named v ∧ ∀ values, responseValues column stream = .ok values →
      values.Sublist (rowIds.map (content v column))
  /-- The header is the version read, and null descriptors are those of null blobs. -/
  query {log named column rowIds response} :
    server.query log named column rowIds = .ok response →
    ∃ v, Names named v ∧ (∀ reported ∈ response.version, reported = v) ∧
      ∀ stream, response.stream = .ok stream → ∀ batch, .ok batch ∈ stream →
        ∀ row ∈ descriptorRows column batch, row.2.descriptorSize = .ok .null →
          content v column row.1 = none
  /-- The header is the version read, and the status and `Content-Range` describe the blob. -/
  range {log named column rowId first last response} :
    server.range log named column rowId first last = .ok response →
    ∃ v, Names named v ∧ (∀ reported ∈ response.version, reported = v) ∧
      (response.status = 204 → content v column rowId = none) ∧
      (response.status = 416 → response.contentRange = some (.unsatisfied 0) →
        content v column rowId = some []) ∧
      (response.status = 206 → ∀ first' last' total bytes,
        response.contentRange = some (.partialRange first' last' total) →
        response.body = .ok bytes →
        ∃ blob, content v column rowId = some blob ∧ total = blob.length ∧
          bytes = (blob.drop first').take (last' + 1 - first'))

/-- A request the server accepts: it has at most `maxFetchBlobsRowIds` row ids. -/
def Small (request : Request) : Prop := request.rowIds.length ≤ maxFetchBlobsRowIds

section

variable {table : Table Sc} {server : Server Sc B}

/-! ### Requests without row ids -/

theorem describe_asks (version : Option ℕ) :
    Asks Small (fun _ => True) (describe server version) :=
  (Asks.send (by simp [Small, Request.rowIds])).mono fun _ _ => trivial

theorem schema_asks : Asks Small (fun _ => True) (schema table server) := by
  rw [schema]
  cases table.schemaCache with
  | none => exact .map (describe_asks _)
  | some schema => exact .pure trivial

theorem rejectListBlobPathIfKnown_asks (column : String) :
    Asks Small (fun _ => True) (rejectListBlobPathIfKnown table server column) := by
  rw [rejectListBlobPathIfKnown]
  split_ifs
  · exact schema_asks.bind fun schema _ => Asks.ofExcept.mono fun _ _ => trivial
  · exact .pure trivial

theorem explainListBlobBadRequest_asks (column : String) (error : Error) :
    Asks Small (fun _ => True) (explainListBlobBadRequest table server column error) := by
  rw [explainListBlobBadRequest]
  split_ifs
  · refine schema_asks.attempt.bind fun x _ => ?_
    cases x with
    | error e => exact .pure trivial
    | ok schema =>
      dsimp only
      cases rejectListBlobColumn table schema column <;> exact .pure trivial
  · exact .pure trivial

theorem throw_explained_asks {α : Type} {Q : α → Prop} (column : String) (error : Error) :
    Asks Small Q (do throw (← explainListBlobBadRequest table server column error)) :=
  (explainListBlobBadRequest_asks column error).bind fun e _ => .throw e

theorem names_getD (named : Option ℕ) (version : ℕ) : Names named (named.getD version) := by
  cases named <;> simp

theorem pinVersion_asks (named : Option ℕ) :
    Asks Small (Names named) (pinVersion server named) := by
  cases named with
  | none => exact .map ((describe_asks none).mono fun _ _ => names_none _)
  | some version => exact .pure (names_some.2 rfl)

/-! ### Handles -/

variable {content : ℕ → String → ℕ → Option (List B)}
variable {K : Request → Prop}
variable {rowIds : List ℕ} {column : String} {first : ℕ}

theorem requestRange_asks {requester : Requester} {last : ℕ} {mode : RangeRequestMode}
    {version : Option ℕ}
    (hK : K (.range (version.or requester.version) requester.column requester.rowId first last)) :
    Asks K (fun response => ∃ log, server.range log (version.or requester.version)
        requester.column requester.rowId first last = .ok response)
      (requestRange server requester first last mode version) := by
  refine (Asks.send hK).bind fun response h => ?_
  split_ifs
  · exact .pure h
  · exact .pure h
  · exact .throw _

theorem asRemoteBlobError_asks {α : Type} {Q : α → Prop} {m : Call Error Request α}
    (h : Asks K Q m) : Asks K Q (asRemoteBlobError m) := by
  refine h.attempt.bind fun x hx => ?_
  cases x with
  | ok a => exact .pure (hx a rfl)
  | error e => exact .throw _

theorem validatePartialResponse_ok {response : RangeResponse B} {stop size : ℕ} {u : Unit}
    (h : validatePartialResponse response first stop size = .ok u) :
    response.status = 206 ∧
      response.contentRange = some (.partialRange first (stop - 1) size) := by
  rw [validatePartialResponse] at h
  split_ifs at h with hstatus
  refine ⟨not_not.1 hstatus, ?_⟩
  split at h
  · rename_i first' last' total hrng
    split_ifs at h with heq
    simp only [Prod.mk.injEq] at heq
    obtain ⟨rfl, rfl, rfl⟩ := heq
    exact hrng
  · cases h

variable (hserver : server.Faithful content)
include hserver

/-- **A range of a handle**: it is empty, or the bytes of the blob at the version the handle
names, whose length is the size of the handle. -/
theorem readRange_asks (file : BlobFile) {stop : ℕ}
    (hK : first < stop → stop ≤ file.size → K (.range (file.version.or file.requester.version)
    file.requester.column file.requester.rowId first (stop - 1))) :
    Asks K (fun bytes => first = stop ∧ bytes = [] ∨ (first < stop ∧ stop ≤ file.size) ∧
        ∃ v blob, Names (file.version.or file.requester.version) v ∧
          content v file.requester.column file.requester.rowId = some blob ∧
          blob.length = file.size ∧ bytes = (blob.drop first).take (stop - first))
      (readRange server file first stop) := by
  rw [readRange]
  split_ifs with hlt hs heq
  · exact .throw _
  · exact .throw _
  · exact .pure (.inl ⟨heq, rfl⟩)
  · have hlt' : first < stop := by omega
    refine (asRemoteBlobError_asks (requestRange_asks (hK hlt' (by omega)))).bind
      fun response ⟨log, hresp⟩ => ?_
    refine Asks.ofExcept.bind fun u hval => ?_
    refine (asRemoteBlobError_asks Asks.ofExcept).bind fun bytes hbody => ?_
    split_ifs
    · exact .throw _
    · obtain ⟨v, hv, -, -, -, hpartial⟩ := hserver.range hresp
      obtain ⟨hstatus, hrng⟩ := validatePartialResponse_ok hval
      obtain ⟨blob, hblob, hlen, hbs⟩ := hpartial hstatus _ _ _ _ hrng hbody
      have hstop : stop - 1 + 1 - first = stop - first := by omega
      exact .pure (.inr ⟨⟨hlt', by omega⟩, v, blob, hv, hblob, hlen.symm, hstop ▸ hbs⟩)

/-- A handle that reads one version of one blob; an empty one reads nothing. -/
structure BlobFile.ReadsAt (file : BlobFile) (column : String) (version rowId : ℕ) : Prop where
  column_eq : file.requester.column = column
  rowId_eq : file.requester.rowId = rowId
  names : file.size = 0 ∨ file.version.or file.requester.version = some version

/-- A handle that has been opened for a row, or the place of a null blob. -/
def Opened (content : ℕ → String → ℕ → Option (List B)) (column : String) (version rowId : ℕ) :
    Option BlobFile → Prop
  | none => content version column rowId = none
  | some file => file.ReadsAt column version rowId

/-- A probe opens the blob at the version of its requester, and knows if it is empty. -/
def Probed (content : ℕ → String → ℕ → Option (List B)) (column : String) (version rowId : ℕ)
    (file : Option BlobFile) : Prop :=
  Opened content column version rowId file ∧
    ∀ f ∈ file, f.size = 0 → content version column rowId = some []

variable (column)

theorem probeBlobFile_asks (version rowId : ℕ) :
    Asks Small (Probed content column version rowId)
      (probeBlobFile server ⟨column, rowId, some version⟩) := by
  refine (requestRange_asks (by simp [Small, Request.rowIds, maxFetchBlobsRowIds])).bind
    fun response ⟨log, hresp⟩ => ?_
  obtain ⟨v, hv, hrep, hnull, hemp, -⟩ := hserver.range hresp
  obtain rfl : v = version := by simpa using hv
  split_ifs with h204 h416 h206
  · exact Asks.ofExcept.bind fun _ _ => .pure ⟨hnull h204, by simp⟩
  · split
    · rename_i hrng
      refine .pure ⟨⟨rfl, rfl, .inl rfl⟩, fun f hf _ => hemp h416 hrng⟩
    · exact .throw _
    · exact .throw _
  · split
    · rename_i size hrng
      split
      · rename_i reported hver
        obtain rfl : reported = v := hrep reported hver
        refine Asks.ofExcept.bind fun body _ => ?_
        split_ifs
        · exact .throw _
        · refine .pure ⟨⟨rfl, rfl, .inr rfl⟩, fun f hf hs => ?_⟩
          obtain rfl := Option.mem_some.1 hf
          exact absurd hs (Nat.succ_ne_zero size)
      · exact .throw _
    · exact .throw _
  · exact .throw _

theorem probeBlobFiles_asks (version : ℕ) (rowIds : List ℕ) :
    Asks Small (List.Forall₂ (Probed content column version) rowIds)
      (probeBlobFiles server (rowIds.map fun rowId => ⟨column, rowId, some version⟩)) := by
  refine (Asks.mapM (Q := fun requester => Probed content column version requester.rowId) ?_).mono
    fun files hfs => ?_
  · intro requester hmem
    obtain ⟨rowId, -, rfl⟩ := mem_map.1 hmem
    exact probeBlobFile_asks column hserver version rowId
  · rwa [forall₂_map_left_iff] at hfs

/-! ### Whole blobs -/

/-- What is accepted from one response is complete, so it is aligned with the request. -/
theorem fetchBlobsChunk_asks (hsm : rowIds.length ≤ maxFetchBlobsRowIds) (named : Option ℕ) :
    Asks Small (fun blobs => ∃ v, Names named v ∧ blobs = rowIds.map (content v column))
      (fetchBlobsChunk table server column rowIds named) := by
  have hK : Small (.fetchBlobs named column rowIds) := hsm
  refine (Asks.send hK).bind fun response ⟨log, hresp⟩ => ?_
  cases response with
  | error e => exact throw_explained_asks column e
  | ok stream =>
    obtain ⟨v, hv, hvals⟩ := hserver.fetchBlobs hresp
    refine Asks.ofExcept.bind fun blobs hbl => ?_
    split_ifs with hlen
    · exact .throw _
    · refine .pure ⟨v, hv, (hvals blobs hbl).eq_of_length ?_⟩
      simpa using hlen

/-- A blob that is too large for a response is read through a handle. -/
theorem fetchLargeBlob_asks (rowId version : ℕ) :
    Asks Small (fun blob => blob = content version column rowId)
      (fetchLargeBlob table server column [rowId] version) := by
  have hfs : Asks Small (List.Forall₂ (Probed content column version) [rowId])
      (fetchBlobFilesWithSnapshot table server column [rowId] (some version)) := by
    refine (probeBlobFiles_asks column hserver version [rowId]).attempt.bind fun x hx => ?_
    cases x with
    | ok files => exact .pure (hx files rfl)
    | error e => exact throw_explained_asks column e
  refine hfs.bind fun files hfs => ?_
  obtain ⟨file, _, ⟨hop, hemp⟩, htail, rfl⟩ := forall₂_cons_left_iff.1 hfs
  obtain rfl := forall₂_nil_left_iff.1 htail
  cases file with
  | none => exact .pure (Eq.symm hop)
  | some file =>
    obtain ⟨rfl, rfl, hns⟩ := hop
    have hrd : Asks Small (fun r => some r.1 = content version file.requester.column
        file.requester.rowId) (read server file 0) := by
      rw [read, readUpTo]
      simp only [Nat.sub_zero, min_self, Nat.zero_add]
      split_ifs with hs
      · exact .pure (hemp file rfl hs).symm
      · refine (readRange_asks hserver file fun _ _ => ?_).bind fun bytes hbs => .pure ?_
        · simp [Small, Request.rowIds, maxFetchBlobsRowIds]
        · rcases hbs with ⟨h, -⟩ | ⟨-, v, blob, hv, hblob, hlen, rfl⟩
          · exact absurd h.symm hs
          · rcases hns with h | h
            · exact absurd h hs
            · rw [h, names_some] at hv
              subst hv
              simp [hblob, ← hlen]
    exact hrd.bind fun r hr => .pure hr

/-- The invariant of the loop: the chunks so far are the blobs, at one version, of the row ids that
are not pending.  No version has been named only if there is one request in all. -/
structure Fetching.Aligned (content : ℕ → String → ℕ → Option (List B)) (table : Table Sc)
    (column : String) (rowIds : List ℕ) (s : Fetching B) : Prop where
  small : ∀ chunk ∈ s.pending, chunk ≠ [] ∧ chunk.length ≤ maxFetchBlobsRowIds
  aligned : ∃ fetched v, rowIds = fetched ++ s.pending.flatten ∧
    s.chunks.flatten = fetched.map (content v column) ∧ Names table.version v ∧
    (s.version = some v ∨ s.version = none ∧ table.version = none ∧
      (s.pending = [] ∨ fetched = [] ∧ s.pending = [rowIds]))

/-- The variant of the loop: how many requests the pending chunks may need. -/
def Fetching.variant (s : Fetching B) : ℕ := (s.pending.map fun chunk => 2 * chunk.length - 1).sum

/-- **One round of `fetch_blobs`.** -/
theorem fetchStep_asks (rowIds : List ℕ) {s : Fetching B}
    (hs : s.Aligned content table column rowIds) :
    Asks Small (Sum.elim
        (fun blobs => ∃ v, Names table.version v ∧ blobs = rowIds.map (content v column))
        fun s' => s'.Aligned content table column rowIds ∧ s'.variant < s.variant)
      (fetchStep table server column s) := by
  obtain ⟨pending, chunks, version⟩ := s
  obtain ⟨hsm, fetched, v, hids, hchs, hns, hver⟩ := hs
  dsimp only at hsm hids hchs hver
  cases pending with
  | nil =>
    obtain rfl : rowIds = fetched := by simpa using hids
    have hd : ∀ blobs, blobs = chunks.flatten →
        ∃ v, Names table.version v ∧ blobs = rowIds.map (content v column) :=
      fun blobs hbl => ⟨v, hns, hbl.trans hchs⟩
    rw [fetchStep]
    dsimp only
    split
    · exact .pure (hd _ (by simp))
    · refine .map (Asks.ofExcept.mono fun blobs hbl => hd blobs ?_)
      rw [concat.eq_def] at hbl
      split at hbl
      · cases hbl
      · exact (Except.ok.inj hbl).symm
  | cons chunk pending =>
    obtain ⟨⟨hne, hlen⟩, hr⟩ := forall_mem_cons.1 hsm
    have hpos : 0 < chunk.length := length_pos_iff.2 hne
    -- the version that all requests name from here on, if there is one
    have hpin : ∀ v', Names version v' → Names table.version v' ∧
        chunks.flatten = fetched.map (content v' column) ∧
        (version = some v' ∨ version = none ∧ table.version = none ∧ pending = []) := by
      intro v' hv'
      rcases hver with rfl | ⟨rfl, htb, h⟩
      · obtain rfl := names_some.1 hv'
        exact ⟨hns, hchs, .inl rfl⟩
      · rcases h with h | ⟨rfl, h⟩
        · cases h
        · exact ⟨by simp [htb], by simpa using hchs, .inr ⟨rfl, htb, (cons.inj h).2⟩⟩
    rw [fetchStep]
    refine (fetchBlobsChunk_asks column hserver hlen version).attempt.bind fun x hx => ?_
    cases x with
    | ok blobs =>
      obtain ⟨v', hv', rfl⟩ := hx blobs rfl
      obtain ⟨hns', hchs', hcase⟩ := hpin v' hv'
      refine .pure ⟨⟨hr, fetched ++ chunk, _, by simpa using hids, ?_, hns',
        hcase.imp_right fun h => ⟨h.1, h.2.1, .inl h.2.2⟩⟩, ?_⟩
      · simp [hchs']
      · simp only [Fetching.variant, map_cons, sum_cons]
        omega
    | error e =>
      dsimp only
      split_ifs with hlim hone
      · refine (pinVersion_asks version).bind fun v' hv' => ?_
        obtain ⟨hns', hchs', -⟩ := hpin v' hv'
        obtain ⟨rowId, rfl⟩ := length_eq_one_iff.1 hone
        refine (fetchLargeBlob_asks column hserver rowId _).bind fun blob hblob => ?_
        subst hblob
        refine .pure ⟨⟨hr, fetched ++ [rowId], _, by simpa using hids, ?_, hns',
          .inl rfl⟩, ?_⟩
        · simp [hchs']
        · simp [Fetching.variant]
      · refine (pinVersion_asks version).bind fun v' hv' => ?_
        obtain ⟨hns', hchs', -⟩ := hpin v' hv'
        refine .pure ⟨⟨?_, fetched, _, ?_, hchs', hns', .inl rfl⟩, ?_⟩
        · simp only [forall_mem_cons, ← length_pos_iff, length_take,
            length_drop]
          refine ⟨⟨by omega, by omega⟩, ⟨by omega, by omega⟩, fun c hc => ?_⟩
          simpa [← length_pos_iff] using hr c hc
        · simpa [← append_assoc] using hids
        · simp only [Fetching.variant, map_cons, sum_cons, length_take,
            length_drop]
          omega
      · exact .throw e

omit hserver in
theorem fetchBlobsStart_asks (rowIds : List ℕ) :
    Asks Small (fun start => match start with
        | none => rowIds = []
        | some version => rowIds ≠ [] ∧ ((∃ v, version = some v ∧ Names table.version v) ∨
            version = none ∧ table.version = none ∧ rowIds.length ≤ maxFetchBlobsRowIds))
      (fetchBlobsStart table server column rowIds) := by
  refine (rejectListBlobPathIfKnown_asks column).bind fun _ _ => ?_
  have hne : ¬ rowIds.isEmpty → rowIds ≠ [] := fun h hnil => h (List.isEmpty_iff.2 hnil)
  split_ifs with hemp hsupport hmany
  · exact .pure (List.isEmpty_iff.1 hemp)
  · exact .throw _
  · refine (pinVersion_asks table.version).bind fun v hv => .pure ⟨hne hemp, .inl ⟨v, rfl, hv⟩⟩
  · refine .pure ⟨hne hemp, ?_⟩
    cases hver : table.version with
    | none => exact .inr ⟨rfl, rfl, by omega⟩
    | some v => exact .inl ⟨v, rfl, by simp⟩

variable {column}

omit hserver in
theorem Fetching.aligned_start {version : Option ℕ} (hne : rowIds ≠ [])
    (h : (∃ v, version = some v ∧ Names table.version v) ∨
    version = none ∧ table.version = none ∧ rowIds.length ≤ maxFetchBlobsRowIds) :
    Fetching.Aligned content table column rowIds
      ⟨rowIds.chunks maxFetchBlobsRowIds, [], version⟩ := by
  refine ⟨fun chunk hchunk => mem_chunks (by decide) hchunk, ?_⟩
  rcases h with ⟨v, rfl, hv⟩ | ⟨rfl, htb, hlen⟩
  · exact ⟨[], v, (flatten_chunks _ _).symm, rfl, hv, .inl rfl⟩
  · refine ⟨[], 0, (flatten_chunks _ _).symm, rfl, by simp [htb], .inr ⟨rfl, htb, ?_⟩⟩
    exact .inr ⟨rfl, chunks_of_length_le hne hlen⟩

omit hserver in
/-- Twice as many rounds as there are row ids are enough. -/
theorem Fetching.variant_start (hne : rowIds ≠ []) (version : Option ℕ) : Fetching.variant (B := B)
      ⟨rowIds.chunks maxFetchBlobsRowIds, [], version⟩ < 2 * rowIds.length := by
  have hsum : ∀ chunks : List (List ℕ), (∀ c ∈ chunks, c ≠ []) → chunks ≠ [] →
      (chunks.map fun c => 2 * c.length - 1).sum < 2 * chunks.flatten.length := by
    intro chunks hall hchs
    induction chunks with
    | nil => exact absurd rfl hchs
    | cons c chunks ih =>
      have hc : 0 < c.length := length_pos_iff.2 (hall c mem_cons_self)
      simp only [map_cons, sum_cons, flatten_cons, length_append]
      rcases eq_or_ne chunks [] with rfl | hr
      · simp
        omega
      · have := ih (fun c hc => hall c (mem_cons_of_mem _ hc)) hr
        omega
  have hflat := flatten_chunks maxFetchBlobsRowIds rowIds
  have hchs : rowIds.chunks maxFetchBlobsRowIds ≠ [] := by
    intro h
    rw [h] at hflat
    exact hne hflat.symm
  have hlt := hsum _ (fun c hc => (mem_chunks (by decide) hc).1) hchs
  rwa [hflat] at hlt

variable (table) in
/-- **`fetch_blobs` ends**, after at most twice as many rounds as there are row ids, and what it
returns are the blobs of the row ids at one version. -/
theorem fetchBlobs_meets (column : String) (rowIds : List ℕ) (log : List Request) :
    ∃ result, Meets Small
        (fun blobs => ∃ v, Names table.version v ∧ blobs = rowIds.map (content v column))
        log result ∧
      ∀ fuel, 2 * rowIds.length ≤ fuel →
        fetchBlobs table server fuel column rowIds log = some result := by
  have hst : Meets Small _ log (fetchBlobsStart table server column rowIds log) :=
    fetchBlobsStart_asks column rowIds log
  cases hrun : fetchBlobsStart table server column rowIds log with
  | error e log' =>
    rw [hrun] at hst
    exact ⟨.error e log', hst, fun fuel _ => by rw [fetchBlobs, hrun]⟩
  | ok start log' =>
    rw [hrun] at hst
    obtain ⟨hlog, hst⟩ := hst
    cases start with
    | none =>
      dsimp only at hst
      subst hst
      exact ⟨.ok [] log', ⟨hlog, _, names_getD _ 0, rfl⟩, fun fuel _ => by rw [fetchBlobs, hrun]⟩
    | some version =>
      obtain ⟨hne, hver⟩ := hst
      obtain ⟨result, hres, hloop⟩ := Asks.loop
        (fun s hs => fetchStep_asks column hserver rowIds hs)
        (Fetching.aligned_start hne hver) log'
      refine ⟨result, hres.of_extends hlog, fun fuel hfuel => ?_⟩
      rw [fetchBlobs, hrun]
      exact hloop fuel ((Fetching.variant_start hne version).trans_le hfuel)

/-! ### Descriptors -/

/-- The null sizes are those of null blobs at a version. -/
def Describes (content : ℕ → String → ℕ → Option (List B)) (column : String) (version : ℕ)
    (sizes : Sizes) : Prop :=
  ∀ entry ∈ sizes, entry.2 = .null → content version column entry.1 = none

omit hserver in
theorem batchSizes_asks (column : String) (batch : Batch B) :
    Asks Small (fun rows => ∀ entry ∈ rows, ∃ d, (entry.1, d) ∈ descriptorRows column batch ∧
        d.descriptorSize = .ok entry.2)
      (batchSizes table server column batch) := by
  rw [batchSizes]
  split
  · rename_i rowIds hids
    split
    · exact .throw _
    · rename_i values hvals
      split
      · rename_i descriptors hdata
        refine Asks.ofExcept.bind fun sizes hszs => .pure ?_
        intro entry hent
        obtain ⟨d, hd, hs⟩ := exists_mem_zip_of_forall₂ (mapM_eq_ok_iff.1 hszs)
          (mem_reverse.1 hent)
        refine ⟨d, ?_, hs⟩
        rw [descriptorRows, hids, hvals]
        obtain ⟨name, dataType, data⟩ := values
        obtain rfl : data = .descriptors descriptors := hdata
        exact hd
      · refine schema_asks.attempt.bind fun x _ => ?_
        cases x with
        | ok schema => exact Asks.ofExcept.bind fun _ _ => .throw _
        | error e => exact .throw _
      · exact .throw _
  · exact .throw _

/-- The descriptors of one response are read at one version, and the header tells which. -/
theorem takeBlobDescriptorChunk_asks (column : String)
    (hsm : rowIds.length ≤ maxFetchBlobsRowIds) (named : Option ℕ) :
    Asks Small (fun r => ∃ v, Names named v ∧ (∀ reported ∈ r.2, reported = v) ∧
        Describes content column v r.1)
      (takeBlobDescriptorChunk table server column rowIds named) := by
  have hK : Small (.query named column rowIds) := hsm
  refine (Asks.send hK).bind fun response ⟨log, hresp⟩ => ?_
  obtain ⟨v, hv, hrep, hnull⟩ := hserver.query hresp
  refine Asks.ofExcept.bind fun stream hstream => ?_
  refine (Asks.foldlM (I := fun rest sizes =>
    (∀ batch, .ok batch ∈ rest → .ok batch ∈ stream) ∧ Describes content column v sizes)
    (fun sizes batch rest ⟨hr, hszs⟩ => ?_) ⟨fun _ h => h, by simp [Describes]⟩).bind
    fun sizes hszs => .pure ⟨v, hv, hrep, hszs.2⟩
  refine Asks.ofExcept.bind fun b hb => ?_
  refine (batchSizes_asks column b).bind fun rows hrows => .pure ⟨fun batch hmem =>
    hr batch (mem_cons_of_mem _ hmem), forall_mem_append.2 ⟨fun entry hent hs => ?_, hszs⟩⟩
  obtain ⟨d, hd, hdsize⟩ := hrows entry hent
  exact hnull stream hstream b (hr b (hb ▸ mem_cons_self)) _ hd (hs ▸ hdsize)

/-- The invariant of the loop over the chunks of row ids: all descriptors so far were read at one
version, which is named from the first response on. -/
structure Pinned (content : ℕ → String → ℕ → Option (List B)) (table : Table Sc) (column : String)
    (chunks : List (List ℕ)) (s : Sizes × Option ℕ) : Prop where
  small : ∀ chunk ∈ chunks, chunk.length ≤ maxFetchBlobsRowIds
  pinned : ∃ v, Names table.version v ∧ Describes content column v s.1 ∧
    (s.2 = some v ∨ s.2 = none ∧ table.version = none ∧ s.1 = [])

/-- **One round of `take_blob_descriptor_sizes`.** -/
theorem takeStep_asks {s : Sizes × Option ℕ} {chunk : List ℕ} {chunks : List (List ℕ)}
    (hs : Pinned content table column (chunk :: chunks) s) :
    Asks Small (Pinned content table column chunks) (takeStep table server column s chunk) := by
  obtain ⟨sizes, named⟩ := s
  obtain ⟨hsm, v, hv, hszs, hnd⟩ := hs
  obtain ⟨hchunk, hsm⟩ := forall_mem_cons.1 hsm
  refine (takeBlobDescriptorChunk_asks hserver column hchunk named).bind
    fun ⟨chunkSizes, reported⟩ ⟨v', hv', hrep, hchunkSizes⟩ => ?_
  rcases hnd with rfl | ⟨rfl, htb, rfl⟩
  · obtain rfl : v' = v := by simpa using hv'
    exact .pure ⟨hsm, v', hv, forall_mem_append.2 ⟨hchunkSizes, hszs⟩, .inl rfl⟩
  · cases reported with
    | some version =>
      obtain rfl : version = v' := hrep version rfl
      exact .pure ⟨hsm, version, by simp [htb],
        forall_mem_append.2 ⟨hchunkSizes, forall_mem_nil _⟩, .inl rfl⟩
    | none =>
      -- the first response did not tell its version, and is not used
      refine (describe_asks none).bind fun description _ => ?_
      refine (takeBlobDescriptorChunk_asks hserver column hchunk _).bind
        fun ⟨chunkSizes', _⟩ ⟨v'', hv'', _, hszs'⟩ => ?_
      obtain rfl : v'' = description.version := by simpa using hv''
      exact .pure ⟨hsm, _, by simp [htb],
        forall_mem_append.2 ⟨hszs', forall_mem_nil _⟩, .inl rfl⟩

theorem takeBlobDescriptorSizes_asks (column : String) (rowIds : List ℕ) :
    Asks Small (Pinned content table column [])
      (takeBlobDescriptorSizes table server column rowIds) := by
  have hst : Pinned content table column
      ((uniqueRowIds rowIds).chunks maxFetchBlobsRowIds) ([], table.version) := by
    refine ⟨fun chunk h => (mem_chunks (by decide) h).2, ?_⟩
    cases hver : table.version with
    | none => exact ⟨0, by simp, by simp [Describes], .inr ⟨rfl, rfl, rfl⟩⟩
    | some v => exact ⟨v, by simp, by simp [Describes], .inl rfl⟩
  refine (Asks.foldlM (I := Pinned content table column)
    (fun s chunk rest hs => takeStep_asks hserver hs) hst).bind fun ⟨sizes, version⟩ hs => ?_
  dsimp only
  split_ifs
  · exact .throw _
  · exact .pure hs

/-! ### Handles for a list of row ids -/

/-- What the handle of a row reads, if the blob is not null: every range request names one version
of the blob, and the bytes are those of the blob. -/
def Reads (server : Server Sc B) (content : ℕ → String → ℕ → Option (List B)) (column : String)
    (version rowId : ℕ) : Option BlobFile → Prop
  | none => content version column rowId = none
  | some file => ∀ first stop,
      Asks (fun request => request = .range (some version) column rowId first (stop - 1))
        (fun bytes => first = stop ∧ bytes = [] ∨ ∃ blob, content version column rowId = some blob ∧
          bytes = (blob.drop first).take (stop - first))
        (readRange server file first stop)

theorem Opened.reads {rowId : ℕ} {file : Option BlobFile}
    (h : Opened content column version rowId file) :
    Reads server content column version rowId file := by
  cases file with
  | none => exact h
  | some file =>
    intro first stop
    obtain ⟨rfl, rfl, hns⟩ := h
    refine (readRange_asks hserver file fun hlt hs => ?_).mono fun bytes hbs => ?_
    · rcases hns with h | h
      · omega
      · rw [h]
    · rcases hbs with h | ⟨⟨hlt, hs⟩, v, blob, hv, hblob, -, hbs⟩
      · exact .inl h
      · rcases hns with h | h
        · omega
        · rw [h, names_some] at hv
          exact .inr ⟨blob, hv ▸ hblob, hbs⟩

omit hserver in
theorem handle_opened {rowId : ℕ} {sizes : Sizes} {size : DescriptorSize}
    (hszs : Describes content column version sizes) (hlk : sizes.lookup rowId = some size)
    (hs : size ≠ .unresolved) :
    Opened content column version rowId (handle column (some version) rowId size) := by
  cases size with
  | null =>
    obtain ⟨before, after, rfl, -⟩ := lookup_eq_some_iff.1 hlk
    exact hszs (rowId, .null) (by simp) rfl
  | known size => exact ⟨rfl, rfl, .inr rfl⟩
  | unresolved => exact absurd rfl hs

omit hserver in
theorem placed_opened {sizes : Sizes} {entries : List (ℕ × DescriptorSize)}
    {probed : List (Option BlobFile)} (hszs : Describes content column version sizes)
    (hents : ∀ entry ∈ entries, sizes.lookup entry.1 = some entry.2)
    (hprobed : List.Forall₂ (fun probe file => Opened content column version probe.1.1 file)
    (entries.zipIdx.filter fun entry => entry.1.2 = .unresolved) probed) {i : ℕ}
    {entry : ℕ × DescriptorSize} {file : Option BlobFile} (hent : entries[i]? = some entry)
    (hfile : ((((entries.zipIdx.filter fun entry => entry.1.2 = .unresolved).map Prod.snd).zip
    probed).foldl (fun files write => files.set write.1 write.2)
    (entries.map fun entry => handle column (some version) entry.1 entry.2))[i]? = some file) :
    Opened content column version entry.1 file := by
  have hws : ∀ write ∈ (((entries.zipIdx.filter fun entry =>
      entry.1.2 = .unresolved).map Prod.snd).zip probed),
      ∀ entry, entries[write.1]? = some entry → Opened content column version entry.1 write.2 := by
    intro write hwr entry hent
    rw [zip_map_left, mem_map] at hwr
    obtain ⟨⟨probe, file⟩, hmem, rfl⟩ := hwr
    have hprobe := (mem_filter.1 (of_mem_zip hmem).1).1
    rw [mem_zipIdx_iff_getElem?] at hprobe
    have hop := forall₂_zip hprobed hmem
    rw [Prod.map_fst] at hent
    obtain rfl : probe.1 = entry := Option.some.inj (hprobe.symm.trans hent)
    exact hop
  rcases getElem?_foldl_set (p := fun i file => ∀ entry, entries[i]? = some entry →
    Opened content column version entry.1 file) hws hfile with h | ⟨h, hmem⟩
  · exact h entry hent
  · rw [getElem?_map, hent, Option.map_some, Option.some.injEq] at h
    subst h
    refine handle_opened hszs (hents entry (mem_of_getElem? hent)) fun hs => ?_
    refine hmem ?_
    rw [map_fst_zip (by rw [length_map, hprobed.length_eq]), mem_map]
    exact ⟨(entry, i), mem_filter.2 ⟨mem_zipIdx_iff_getElem?.2 hent, by simpa using hs⟩,
      rfl⟩

variable (table) in
/-- **The handles of `fetch_blob_files` read one version.** -/
theorem fetchBlobFiles_asks (column : String) (rowIds : List ℕ) :
    Asks Small (fun files => files.length = rowIds.length ∧ ∃ v, Names table.version v ∧
        ∀ (i rowId : ℕ) (file : Option BlobFile), rowIds[i]? = some rowId → files[i]? = some file →
          Reads server content column v rowId file)
      (fetchBlobFiles table server column rowIds) := by
  refine (rejectListBlobPathIfKnown_asks column).bind fun _ _ => ?_
  split_ifs with hemp hsupport
  · obtain rfl := List.isEmpty_iff.1 hemp
    exact .pure ⟨rfl, _, names_getD _ 0, by simp⟩
  · exact .throw _
  · refine (takeBlobDescriptorSizes_asks hserver column rowIds).attempt.bind fun x hx => ?_
    cases x with
    | error e => exact throw_explained_asks column e
    | ok r =>
      obtain ⟨sizes, version⟩ := r
      obtain ⟨-, v, hv, hszs, hpin⟩ := hx _ rfl
      refine (Asks.mapM (Q := fun rowId entry => entry.1 = rowId ∧
        sizes.lookup entry.1 = some entry.2) fun rowId _ => ?_).bind fun entries hents => ?_
      · split
        · rename_i size hlk
          exact .pure ⟨rfl, hlk⟩
        · exact .throw _
      obtain ⟨hlk, hids⟩ : (∀ entry ∈ entries, sizes.lookup entry.1 = some entry.2) ∧
          List.Forall₂ (fun entry rowId => entry.1 = rowId) entries rowIds :=
        (forall₂_and_left _ _).1 (hents.flip.imp fun _ _ h => ⟨h.2, h.1⟩)
      rw [← forall₂_map_left_iff, forall₂_eq_eq_eq] at hids
      -- a row whose size is known has been asked for at a named version
      obtain rfl : version = some v := by
        rcases hpin with h | ⟨-, -, rfl⟩
        · exact h
        · obtain ⟨rowId, rest, rfl⟩ := exists_cons_of_ne_nil fun h =>
            hemp (List.isEmpty_iff.2 h)
          cases hents with
          | cons h _ => simp at h
      dsimp only
      have hprobe := probeBlobFiles_asks column hserver v
        ((entries.zipIdx.filter fun entry => entry.1.2 = .unresolved).map fun entry => entry.1.1)
      rw [map_map] at hprobe
      refine hprobe.attempt.bind fun x hx => ?_
      cases x with
      | error e => exact throw_explained_asks column e
      | ok probed =>
        have hprobed := (forall₂_map_left_iff.1 (hx _ rfl)).imp fun _ _ h => h.1
        refine .pure ⟨?_, v, hv, fun i rowId file hrow hfile => ?_⟩
        · rw [length_foldl_set, length_map, ← hids, length_map]
        · rw [← hids, getElem?_map, Option.map_eq_some_iff] at hrow
          obtain ⟨entry, hent, rfl⟩ := hrow
          exact (placed_opened hszs hlk hprobed hent hfile).reads hserver

end

/-- Blobs that change with every version; the one of row 3 is null. -/
def demoContent (version : ℕ) (_ : String) (rowId : ℕ) : Option (List ℕ) :=
  if rowId = 3 then none else some [version, rowId]

/-- A table with a commit before every request, whose server serves only single blobs, and the blob
of row 7 only by ranges. -/
def demoServer : Server Unit ℕ where
  describe log named := .ok ⟨named.getD log.length, ()⟩
  fetchBlobs log named column rowIds := .ok <|
    if 1 < rowIds.length ∨ rowIds = [7] then
      .error (.http "fetch_blobs accepts at most 67108864 total blob bytes" (some 400))
    else .ok [.ok [⟨column, "LargeBinary",
      .binary (rowIds.map (demoContent (named.getD log.length) column))⟩]]
  query log named column rowIds := .ok ⟨some (named.getD log.length), .ok [.ok
    [⟨rowIdColumn, "UInt64", .uint64 rowIds⟩,
      ⟨column, "Struct", .descriptors (rowIds.map fun rowId =>
        ⟨rowId = 3, some (some .external), if rowId = 7 then 0 else 2⟩)⟩]]⟩
  range log named column rowId first last :=
    let version := named.getD log.length
    match demoContent version column rowId with
    | none => .ok ⟨204, none, some version, .ok [], ""⟩
    | some blob => .ok ⟨206, some (.partialRange first last blob.length), some version,
        .ok ((blob.drop first).take (last + 1 - first)), ""⟩

theorem demoServer_faithful : demoServer.Faithful demoContent where
  fetchBlobs {log named column rowIds stream} h := by
    refine ⟨named.getD log.length, names_getD _ _, fun values hvals => ?_⟩
    simp only [demoServer, Except.ok.injEq] at h
    split_ifs at h
    cases h
    simp [responseValues, blobValues, columnByName, bind, Except.bind, pure, Except.pure] at hvals
    rw [← hvals]
  query {log named column rowIds response} h := by
    refine ⟨named.getD log.length, names_getD _ _, ?_⟩
    cases h
    refine ⟨by simp, fun stream hstream batch hbat row hrow hs => ?_⟩
    cases hstream
    obtain rfl := Except.ok.inj (mem_singleton.1 hbat)
    by_cases hcol : rowIdColumn = column
    · simp [descriptorRows, columnByName, hcol] at hrow
    · simp only [descriptorRows, columnByName, find?_cons, decide_true, hcol,
        decide_false] at hrow
      rw [← map_prod_left_eq_zip, mem_map] at hrow
      obtain ⟨rowId, -, rfl⟩ := hrow
      by_cases hrow : rowId = 3
      · simp [demoContent, hrow]
      · simp only [Descriptor.descriptorSize, hrow, decide_false, Bool.false_eq_true, if_false,
          Except.ok.injEq] at hs
        split_ifs at hs
  range {log named column rowId first last response} h := by
    refine ⟨named.getD log.length, names_getD _ _, ?_⟩
    simp only [demoServer] at h
    split at h
    · rename_i hnull
      cases h
      exact ⟨by simp, fun _ => hnull, by simp, by simp⟩
    · rename_i blob hblob
      cases h
      refine ⟨by simp, by simp, by simp, fun _ first' last' total bytes hrng hbody => ?_⟩
      cases hrng
      cases hbody
      exact ⟨blob, hblob, rfl, rfl⟩

/-- The handle to a demo table. -/
def demoTable : Table Unit where
  version := none
  supportBlobs := true
  schemaCache := none
  isListBlobPath _ _ := false

end LanceDB.Blobs
