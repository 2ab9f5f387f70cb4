import LanceDB.Base.Calls
import LanceDB.Base.Lists

/-!
# Reading blobs of a remote table

`fetch_blobs` asks for the blobs of a list of row ids, at most 1024 in one request.  The server may
reject a request because its blobs have too many bytes; the request is then cut in two, and a single
blob that is too large is read through a byte-range handle.  As soon as more than one request is
needed, all of them name one version of the table.  `fetch_blob_files` opens such handles, whose
sizes come from queries for the descriptors of the blobs.

Nothing is assumed about when requests fail, nor about the commits between them: the answers of the
server may depend on all requests before.

* `Request`, `Server` : the requests, and what the server answers to them.
* `BlobFile`, `readRange`, `read`, `probeBlobFile` : byte-range handles.
* `fetchBlobsChunk`, `fetchBlobs` : whole blobs.
* `takeBlobDescriptorSizes`, `fetchBlobFiles` : handles for a list of row ids.
-/

namespace LanceDB.Blobs

variable {Sc B : Type}

/-- `MAX_FETCH_BLOBS_ROW_IDS`. -/
def maxFetchBlobsRowIds : ℕ := 1024

/-- The name of the row id column. -/
def rowIdColumn : String := "_rowid"

inductive Error
  | http (source : String) (statusCode : Option ℕ)
  | invalidInput (message : String)
  | notSupported (message : String)
  /-- An error of a blob handle. -/
  | lance (message : String)
  | arrow (message : String)
  /-- A lookup or an `unwrap` that the code takes for granted. -/
  | panicked
  deriving DecidableEq

/-- The text of an error. -/
def Error.text : Error → String
  | .http source _ => source
  | .invalidInput message => message
  | .notSupported message => message
  | .lance message => message
  | .arrow message => message
  | .panicked => ""

/-- `is_fetch_blobs_byte_limit_error`. -/
def isFetchBlobsByteLimitError : Error → Bool
  | .http source (some 400) =>
    decide ("fetch_blobs accepts at most".toList <:+: source.toList) &&
      decide ("total blob bytes".toList <:+: source.toList)
  | _ => false

/-- A response with the status `BAD_REQUEST` or `UNPROCESSABLE_ENTITY`. -/
def Error.isBadRequest : Error → Bool
  | .http _ (some code) => code == 400 || code == 422
  | _ => false

/-! ### Requests and answers -/

/-- A request; `version` is the version of the table it names, if any. -/
inductive Request
  | describe (version : Option ℕ)
  | fetchBlobs (version : Option ℕ) (column : String) (rowIds : List ℕ)
  /-- The query for the descriptors of some rows. -/
  | query (version : Option ℕ) (column : String) (rowIds : List ℕ)
  /-- The bytes `first` to `last` of a blob. -/
  | range (version : Option ℕ) (column : String) (rowId first last : ℕ)
  deriving DecidableEq

/-- The row ids in a request. -/
def Request.rowIds : Request → List ℕ
  | .describe _ => []
  | .fetchBlobs _ _ rowIds => rowIds
  | .query _ _ rowIds => rowIds
  | .range _ _ rowId _ _ => [rowId]

/-- `TableDescription`. -/
structure Description (Sc : Type) where
  version : ℕ
  schema : Sc

inductive BlobKind
  | inline
  | packed
  | dedicated
  | external
  deriving DecidableEq

/-- A row of a blob v2 descriptor array. -/
structure Descriptor where
  isNull : Bool
  /-- The `kind` child: null, or a number, which may be none of a kind. -/
  kind : Option (Option BlobKind)
  size : ℕ

inductive ColumnData (B : Type)
  /-- `Binary`, `LargeBinary` or `BinaryView`. -/
  | binary (values : List (Option (List B)))
  | uint64 (values : List ℕ)
  /-- A struct with the children `kind` and `size` of a descriptor. -/
  | descriptors (values : List Descriptor)
  /-- `List`, `LargeList` or `FixedSizeList`. -/
  | list
  | other

/-- A column of a batch, with the display of its type. -/
structure Column (B : Type) where
  name : String
  dataType : String
  data : ColumnData B

abbrev Batch (B : Type) := List (Column B)

/-- `RecordBatch::column_by_name`. -/
def columnByName (batch : Batch B) (name : String) : Option (Column B) :=
  batch.find? (·.name = name)

/-- The response to a query: the version header, and the stream that `read_arrow_response` makes of
it. -/
structure QueryResponse (B : Type) where
  version : Option ℕ
  stream : Except Error (List (Except Error (Batch B)))

/-- The `Content-Range` header, as `parse_content_range` and `parse_unsatisfied_content_range` read
it. -/
inductive ContentRange
  | partialRange (first last total : ℕ)
  | unsatisfied (total : ℕ)
  deriving DecidableEq

/-- The response to a range request. -/
structure RangeResponse (B : Type) where
  status : ℕ
  contentRange : Option ContentRange
  version : Option ℕ
  body : Except Error (List B)
  /-- What `check_response` says if the status is an error. -/
  failure : String

/-- What the server answers, by the requests sent before. -/
structure Server (Sc B : Type) where
  describe : List Request → Option ℕ → Except Error (Description Sc)
  /-- The request may fail to be sent, and its response to be a stream. -/
  fetchBlobs : List Request → Option ℕ → String → List ℕ →
    Except Error (Except Error (List (Except Error (Batch B))))
  query : List Request → Option ℕ → String → List ℕ → Except Error (QueryResponse B)
  range : List Request → Option ℕ → String → (rowId first last : ℕ) →
    Except Error (RangeResponse B)

/-- The parts of a `RemoteTable` that reads use: the version of its snapshot, what the server
supports, and the cached schema. -/
structure Table (Sc : Type) where
  version : Option ℕ
  supportBlobs : Bool
  schemaCache : Option Sc
  /-- `is_list_blob_path`, for some field of a schema. -/
  isListBlobPath : Sc → String → Bool

section

variable (table : Table Sc) (server : Server Sc B)

/-- `describe_read_snapshot`. -/
def describe (version : Option ℕ) : Call Error Request (Description Sc) :=
  Call.send (.describe version) (server.describe · version)

/-- `RemoteTable::schema`. -/
def schema : Call Error Request Sc :=
  match table.schemaCache with
  | some schema => pure schema
  | none => Description.schema <$> describe server table.version

/-- `reject_list_blob_column`. -/
def rejectListBlobColumn (schema : Sc) (column : String) : Except Error Unit :=
  if table.isListBlobPath schema column then
    .error (.invalidInput ("column '" ++ column ++
      "' contains a blob inside a list; blobs inside lists cannot be fetched by row id yet"))
  else .ok ()

/-- `reject_list_blob_path_if_known`. -/
def rejectListBlobPathIfKnown (column : String) : Call Error Request Unit :=
  if column.toList.contains '.' || table.schemaCache.isSome then do
    let schema ← schema table server
    Call.ofExcept (rejectListBlobColumn table schema column)
  else pure ()

/-- `explain_list_blob_bad_request`: an error that a list column would explain. -/
def explainListBlobBadRequest (column : String) (error : Error) : Call Error Request Error :=
  if error.isBadRequest then do
    match ← (schema table server).attempt with
    | .ok schema =>
      match rejectListBlobColumn table schema column with
      | .error listError => pure listError
      | .ok () => pure error
    | .error _ => pure error
  else pure error

/-! ### Byte-range handles -/

inductive RangeRequestMode
  | sizeProbe
  | dataRead
  deriving DecidableEq

/-- `TableBlobRangeRequester`. -/
structure Requester where
  column : String
  rowId : ℕ
  version : Option ℕ

/-- `RemoteBlobFile`. -/
structure BlobFile where
  requester : Requester
  size : ℕ
  version : Option ℕ

/-- `request_range`. -/
def requestRange (requester : Requester) (first last : ℕ) (mode : RangeRequestMode)
    (version : Option ℕ) : Call Error Request (RangeResponse B) := do
  let version := version.or requester.version
  let response ← Call.send (.range version requester.column requester.rowId first last)
    (server.range · version requester.column requester.rowId first last)
  -- a size probe detects empty blobs by this status
  if response.status = 416 ∧ mode = .sizeProbe then pure response
  else if 200 ≤ response.status ∧ response.status < 300 then pure response
  else throw (.http response.failure (some response.status))

/-- `remote_blob_error`. -/
def remoteBlobError (error : String) : Error := .lance ("remote blob read failed: " ++ error)

/-- `map_err(remote_blob_error)`. -/
def asRemoteBlobError {α : Type} (m : Call Error Request α) : Call Error Request α := do
  match ← m.attempt with
  | .ok a => pure a
  | .error e => throw (remoteBlobError e.text)

/-- `validate_partial_response`: a `200 OK` may hold the entire object and is rejected. -/
def validatePartialResponse (response : RangeResponse B) (first stop size : ℕ) :
    Except Error Unit :=
  if response.status ≠ 206 then
    .error (remoteBlobError ("expected HTTP 206 Partial Content, got " ++ toString response.status))
  else match response.contentRange with
    | some (.partialRange first' last' total) =>
      if (first', last', total) = (first, stop - 1, size) then .ok ()
      else .error (remoteBlobError ("expected Content-Range 'bytes " ++ toString first ++ "-" ++
        toString (stop - 1) ++ "/" ++ toString size ++ "', got 'bytes " ++ toString first' ++ "-" ++
        toString last' ++ "/" ++ toString total ++ "'"))
    | _ => .error (remoteBlobError "response is missing a valid Content-Range header")

/-- `RemoteBlobFile::read_range`, of an open handle. -/
def readRange (file : BlobFile) (first stop : ℕ) : Call Error Request (List B) := do
  if first > stop then
    throw (.lance ("blob range start " ++ toString first ++ " exceeds end " ++ toString stop))
  else if stop > file.size then
    throw (.lance ("blob range end " ++ toString stop ++ " exceeds blob size " ++
      toString file.size))
  else if first = stop then pure []
  else do
    let response ← asRemoteBlobError
      (requestRange server file.requester first (stop - 1) .dataRead file.version)
    Call.ofExcept (validatePartialResponse response first stop file.size)
    let bytes ← asRemoteBlobError (Call.ofExcept response.body)
    if bytes.length ≠ stop - first then
      throw (remoteBlobError ("byte range returned " ++ toString bytes.length ++
        " bytes, expected " ++ toString (stop - first)))
    else pure bytes

/-- `RemoteBlobFile::read_up_to`: the bytes, and the cursor after them. -/
def readUpTo (file : BlobFile) (cursor len : ℕ) : Call Error Request (List B × ℕ) := do
  let targetLen := min (file.size - cursor) len
  if targetLen = 0 then pure ([], cursor)
  else do
    let bytes ← readRange server file cursor (cursor + targetLen)
    pure (bytes, cursor + targetLen)

/-- `RemoteBlobFile::read`: from the cursor to the end of the blob. -/
def read (file : BlobFile) (cursor : ℕ) : Call Error Request (List B × ℕ) :=
  readUpTo server file cursor (file.size - cursor)

/-- `probe_blob_file`: `204` stands for null, `416` for an empty blob. -/
def probeBlobFile (requester : Requester) : Call Error Request (Option BlobFile) := do
  let response ← requestRange server requester 0 0 .sizeProbe none
  if response.status = 204 then do
    let _ ← Call.ofExcept response.body
    pure none
  else if response.status = 416 then
    match response.contentRange with
    -- an empty handle never makes a range request, so no version is needed
    | some (.unsatisfied 0) => pure (some ⟨requester, 0, none⟩)
    | some (.unsatisfied total) => throw (.http
        ("blob size probe returned HTTP 416 for a " ++ toString total ++ "-byte blob") (some 416))
    | _ => throw (.http "blob size probe returned an invalid Content-Range header" (some 416))
  else if response.status = 206 then
    match response.contentRange with
    | some (.partialRange 0 0 (size + 1)) =>
      match response.version with
      | some version => do
        let body ← Call.ofExcept response.body
        if body.length ≠ 1 then
          throw (.http ("blob size probe returned " ++ toString body.length ++
            " bytes, expected 1") (some 206))
        else pure (some ⟨requester, size + 1, some version⟩)
      | none => throw (.http
          "blob size probe returned a missing or invalid x-lancedb-version header" (some 206))
    | _ => throw (.http "blob size probe returned an invalid Content-Range header" (some 206))
  else throw (.http ("blob size probe expected HTTP 206 Partial Content, got " ++
    toString response.status) (some response.status))

/-- `probe_blob_files`: the results are in the order of the requesters. -/
def probeBlobFiles (requesters : List Requester) : Call Error Request (List (Option BlobFile)) :=
  requesters.mapM (probeBlobFile server)

/-- `fetch_blob_files_with_snapshot`. -/
def fetchBlobFilesWithSnapshot (column : String) (rowIds : List ℕ) (version : Option ℕ) :
    Call Error Request (List (Option BlobFile)) := do
  match ← (probeBlobFiles server (rowIds.map fun rowId => ⟨column, rowId, version⟩)).attempt with
  | .ok files => pure files
  | .error e => throw (← explainListBlobBadRequest table server column e)

/-! ### Whole blobs -/

/-- The values of the column in one batch of a response to `fetch_blobs`. -/
def blobValues (column : String) (batch : Batch B) : Except Error (List (Option (List B))) :=
  match columnByName batch column with
  | none => .error (.http ("fetch_blobs response is missing the '" ++ column ++ "' column") none)
  | some found =>
    match found.data with
    | .binary values => .ok values
    | _ => .error (.http ("fetch_blobs response column has type " ++ found.dataType ++
        ", expected Binary, LargeBinary, or BinaryView") none)

/-- The values of the column in all batches of a response to `fetch_blobs`. -/
def responseValues (column : String) (stream : List (Except Error (Batch B))) :
    Except Error (List (Option (List B))) := do
  let blobChunks ← stream.mapM fun batch => do blobValues column (← batch)
  return blobChunks.flatten

/-- `fetch_blobs_chunk`. -/
def fetchBlobsChunk (column : String) (rowIds : List ℕ) (version : Option ℕ) :
    Call Error Request (List (Option (List B))) := do
  let response ← Call.send (.fetchBlobs version column rowIds)
    (server.fetchBlobs · version column rowIds)
  match response with
  | .error e => throw (← explainListBlobBadRequest table server column e)
  | .ok stream => do
    let blobs ← Call.ofExcept (responseValues column stream)
    if blobs.length ≠ rowIds.length then
      throw (.http ("fetch_blobs returned " ++ toString blobs.length ++ " rows for " ++
        toString rowIds.length ++ " row ids") none)
    else pure blobs

/-- The variables of the loop of `fetch_blobs`; `pending` has the top of the stack first. -/
structure Fetching (B : Type) where
  pending : List (List ℕ)
  chunks : List (List (Option (List B)))
  version : Option ℕ

/-- `arrow::compute::concat`. -/
def concat {α : Type} : List (List α) → Except Error (List α)
  | [] => .error (.arrow "concat requires input of at least one array")
  | chunks => .ok chunks.flatten

/-- The version of the snapshot, or else the latest one by now. -/
def pinVersion : Option ℕ → Call Error Request ℕ
  | some version => pure version
  | none => Description.version <$> describe server none

/-- A single blob that is too large for `fetch_blobs`. -/
def fetchLargeBlob (column : String) (rowIds : List ℕ) (version : ℕ) :
    Call Error Request (Option (List B)) := do
  let files ← fetchBlobFilesWithSnapshot table server column rowIds (some version)
  match files.getLast? with
  | none => throw .panicked
  | some none => pure none
  | some (some file) => do
    let (bytes, _) ← read server file 0
    pure (some bytes)

/-- One round of the loop of `fetch_blobs`. -/
def fetchStep (column : String) (s : Fetching B) :
    Call Error Request (List (Option (List B)) ⊕ Fetching B) :=
  match s.pending with
  | [] =>
    match s.chunks with
    | [chunk] => pure (.inl chunk)
    | chunks => .inl <$> Call.ofExcept (concat chunks)
  | rowIds :: pending => do
    match ← (fetchBlobsChunk table server column rowIds s.version).attempt with
    | .ok blobs => pure (.inr { s with pending, chunks := s.chunks ++ [blobs] })
    | .error e =>
      if isFetchBlobsByteLimitError e then do
        -- no bytes of the failed request were used
        let version ← pinVersion server s.version
        if rowIds.length = 1 then do
          let blob ← fetchLargeBlob table server column rowIds version
          pure (.inr ⟨pending, s.chunks ++ [[blob]], some version⟩)
        else
          let mid := rowIds.length / 2
          pure (.inr ⟨rowIds.take mid :: rowIds.drop mid :: pending, s.chunks, some version⟩)
      else throw e

/-- What `fetch_blobs` does before its loop: the version its requests name, or `none` if there is
nothing to fetch. -/
def fetchBlobsStart (column : String) (rowIds : List ℕ) : Call Error Request (Option (Option ℕ)) :=
  do
    rejectListBlobPathIfKnown table server column
    if rowIds.isEmpty then pure none
    else if !table.supportBlobs then
      throw (.notSupported "fetch_blobs is not supported by this LanceDB server.")
    else if rowIds.length > maxFetchBlobsRowIds then do
      -- a selection that spans requests must use one version
      let version ← pinVersion server table.version
      pure (some (some version))
    else pure (some table.version)

/-- `fetch_blobs_impl`. -/
def fetchBlobs (fuel : ℕ) (column : String) (rowIds : List ℕ) (log : List Request) :
    Option (EStateM.Result Error (List Request) (List (Option (List B)))) :=
  match fetchBlobsStart table server column rowIds log with
  | .error e log => some (.error e log)
  | .ok none log => some (.ok [] log)
  | .ok (some version) log =>
    Call.loop (fetchStep table server column) fuel
      ⟨rowIds.chunks maxFetchBlobsRowIds, [], version⟩ log

/-! ### Handles for a list of row ids -/

/-- `DescriptorSize`. -/
inductive DescriptorSize
  | null
  | known (size : ℕ)
  /-- An external blob that recorded no size. -/
  | unresolved
  deriving DecidableEq

/-- `BlobDescriptorSizes::size`. -/
def Descriptor.descriptorSize (d : Descriptor) : Except Error DescriptorSize :=
  if d.isNull then .ok .null
  else match d.kind with
    | none => .ok .null
    | some none => .error (.lance "invalid blob kind")
    | some (some kind) =>
      .ok (if kind = .external ∧ d.size = 0 then .unresolved else .known d.size)

/-- The sizes by row id; entries at the front replace later ones. -/
abbrev Sizes := List (ℕ × DescriptorSize)

/-- The rows of one batch of descriptors. -/
def batchSizes (column : String) (batch : Batch B) : Call Error Request Sizes := do
  match columnByName batch rowIdColumn with
  | some ⟨_, _, .uint64 takenRowIds⟩ =>
    match columnByName batch column with
    | none => throw (.http ("blob descriptor take is missing '" ++ column ++ "'") none)
    | some values => do
      match values.data with
      | .descriptors descriptors =>
        let sizes ← Call.ofExcept (descriptors.mapM Descriptor.descriptorSize)
        pure (takenRowIds.zip sizes).reverse
      | .list => do
        -- a list column that was not known is explained before the generic error
        match ← (schema table server).attempt with
        | .ok schema => Call.ofExcept (rejectListBlobColumn table schema column)
        | .error _ => pure ()
        throw (.invalidInput ("column '" ++ column ++ "' is not a blob column"))
      | _ => throw (.invalidInput ("column '" ++ column ++ "' is not a blob column"))
  | _ => throw (.http ("blob descriptor take is missing UInt64 '" ++ rowIdColumn ++ "'") none)

/-- `take_blob_descriptor_chunk`. -/
def takeBlobDescriptorChunk (column : String) (rowIds : List ℕ) (version : Option ℕ) :
    Call Error Request (Sizes × Option ℕ) := do
  let response ← Call.send (.query version column rowIds) (server.query · version column rowIds)
  let stream ← Call.ofExcept response.stream
  let sizes ← stream.foldlM (fun sizes batch => do
    let batch ← Call.ofExcept batch
    let rows ← batchSizes table server column batch
    pure (rows ++ sizes)) []
  pure (sizes, response.version)

/-- One round of the loop of `take_blob_descriptor_sizes`. -/
def takeStep (column : String) (s : Sizes × Option ℕ) (chunk : List ℕ) :
    Call Error Request (Sizes × Option ℕ) := do
  let (chunkSizes, responseVersion) ← takeBlobDescriptorChunk table server column chunk s.2
  match s.2, responseVersion with
  | some version, _ => pure (chunkSizes ++ s.1, some version)
  | none, some version => pure (chunkSizes ++ s.1, some version)
  | none, none => do
    -- the take may have read an older version than a describe now returns
    let description ← describe server none
    let (chunkSizes, _) ← takeBlobDescriptorChunk table server column chunk
      (some description.version)
    pure (chunkSizes ++ s.1, some description.version)

/-- `sort_unstable` and `dedup`. -/
def uniqueRowIds (rowIds : List ℕ) : List ℕ :=
  (rowIds.insertionSort (· ≤ ·)).destutter (· ≠ ·)

/-- `take_blob_descriptor_sizes`: the sizes, and the version of the snapshot after it. -/
def takeBlobDescriptorSizes (column : String) (rowIds : List ℕ) :
    Call Error Request (Sizes × Option ℕ) := do
  let unique := uniqueRowIds rowIds
  let (sizes, version) ← (unique.chunks maxFetchBlobsRowIds).foldlM
    (takeStep table server column) ([], table.version)
  let found := (unique.filter fun rowId => (sizes.lookup rowId).isSome).length
  if found < unique.length then
    throw (.invalidInput ("blob read for column '" ++ column ++ "' requested " ++
      toString unique.length ++ " row ids but only " ++ toString found ++
      " exist in the table; pass row ids collected from this table"))
  else pure (sizes, version)

/-- The handle of a row whose size is known; a place is kept for one that is probed. -/
def handle (column : String) (version : Option ℕ) (rowId : ℕ) : DescriptorSize → Option BlobFile
  | .null => none
  | .known size => some ⟨⟨column, rowId, version⟩, size, version⟩
  | .unresolved => none

/-- `fetch_blob_files_impl`. -/
def fetchBlobFiles (column : String) (rowIds : List ℕ) :
    Call Error Request (List (Option BlobFile)) := do
  rejectListBlobPathIfKnown table server column
  if rowIds.isEmpty then pure []
  else if !table.supportBlobs then
    throw (.notSupported "fetch_blob_files requires LanceDB server 0.5.0 or newer.")
  else
    match ← (takeBlobDescriptorSizes table server column rowIds).attempt with
    | .error e => throw (← explainListBlobBadRequest table server column e)
    | .ok (sizes, version) => do
      let entries ← rowIds.mapM fun rowId =>
        match sizes.lookup rowId with
        | some size => pure (rowId, size)
        | none => throw .panicked
      let files := entries.map fun entry => handle column version entry.1 entry.2
      let probes := entries.zipIdx.filter fun entry => entry.1.2 = .unresolved
      let requesters := probes.map fun entry => (⟨column, entry.1.1, version⟩ : Requester)
      match ← (probeBlobFiles server requesters).attempt with
      | .error e => throw (← explainListBlobBadRequest table server column e)
      | .ok probed =>
        pure (((probes.map Prod.snd).zip probed).foldl (fun files (index, file) =>
          files.set index file) files)

end

end LanceDB.Blobs
