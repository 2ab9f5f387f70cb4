import LanceDB.Base.Lists
import Mathlib.Data.Nat.Digits.Lemmas

/-!
# The bytes of a signature sidecar

A sidecar holds the signature map of a column: `CSIG`, a format byte, the number of entries, and
twelve bytes for each of them, all numbers little-endian.

* `encodeSidecar`, `decodeSidecar` : the code, with the slices that may panic.
* `sidecar_encoding_exact` — a map has one encoding, which is read back, and what is not an encoding
  of the recorded length is rejected.
-/

namespace LanceDB.Computed

open List

/-! ### Numbers as bytes and as hex digits -/

/-- `to_le_bytes` of a number of some width. -/
def leBytes (width n : ℕ) : List UInt8 := (Nat.digitsAppend 256 width n).map UInt8.ofNat

/-- `from_le_bytes`. -/
def ofLeBytes (bytes : List UInt8) : ℕ := Nat.ofDigits 256 (bytes.map UInt8.toNat)

theorem length_leBytes {width n : ℕ} (h : n < 256 ^ width) : (leBytes width n).length = width := by
  rw [leBytes, length_map, Nat.length_digitsAppend (by decide) _ h]

theorem ofLeBytes_leBytes {width n : ℕ} (h : n < 256 ^ width) :
    ofLeBytes (leBytes width n) = n := by
  have hbs : ∀ d ∈ Nat.digitsAppend 256 width n, (UInt8.toNat ∘ UInt8.ofNat) d = d :=
    fun d hd => Nat.mod_eq_of_lt (Nat.lt_of_mem_digitsAppend (by decide) _ _ hd)
  rw [ofLeBytes, leBytes, map_map, map_congr_left hbs, map_id']
  exact (Nat.setInvOn_digitsAppend_ofDigits (by decide) width).2 h

theorem ofLeBytes_lt (bytes : List UInt8) : ofLeBytes bytes < 256 ^ bytes.length := by
  rw [ofLeBytes, ← length_map (f := UInt8.toNat)]
  refine Nat.ofDigits_lt_base_pow_length (by decide) fun d hd => ?_
  obtain ⟨b, -, rfl⟩ := mem_map.1 hd
  exact b.toNat_lt

/-- `format!("{hash:016x}")`. -/
def hex16 (hash : ℕ) : String :=
  String.ofList ((Nat.digitsAppend 16 16 hash).reverse.map Nat.digitChar)

/-- `to_digit(16)`. -/
def toDigit (c : Char) : Except Unit ℕ :=
  if c.isDigit then .ok (c.toNat - '0'.toNat)
  else if 'a' ≤ c ∧ c ≤ 'f' then .ok (c.toNat - 'a'.toNat + 10)
  else if 'A' ≤ c ∧ c ≤ 'F' then .ok (c.toNat - 'A'.toNat + 10)
  else .error ()

/-- `u64::from_str_radix` with radix 16. -/
def u64FromHex (text : String) : Except Unit ℕ := do
  let digits := match text.toList with
    | '+' :: digits => digits
    | digits => digits
  let n := Nat.ofDigits 16 (← digits.mapM toDigit).reverse
  if digits ≠ [] ∧ n < 2 ^ 64 then .ok n else .error ()

def hexDigits : List Char := "0123456789abcdef".toList

/-- Sixteen lowercase hex digits. -/
def Signature (s : String) : Prop := s.toList.length = 16 ∧ ∀ c ∈ s.toList, c ∈ hexDigits

theorem signature_hex16 {hash : ℕ} (h : hash < 2 ^ 64) : Signature (hex16 hash) := by
  have hchar : ∀ d < 16, Nat.digitChar d ∈ hexDigits := by decide
  rw [Signature, hex16, String.toList_ofList]
  refine ⟨?_, fun c hc => ?_⟩
  · simpa using Nat.length_digitsAppend (b := 16) (by decide) 16 h
  · obtain ⟨d, hd, rfl⟩ := mem_map.1 hc
    exact hchar d (Nat.lt_of_mem_digitsAppend (by decide) _ _ (mem_reverse.1 hd))

theorem exists_u64FromHex {s : String} (h : Signature s) :
    ∃ hash < 2 ^ 64, u64FromHex s = .ok hash ∧ hex16 hash = s := by
  have hdigit : ∀ c ∈ hexDigits, toDigit c = .ok (hexDigits.idxOf c) ∧
      Nat.digitChar (hexDigits.idxOf c) = c ∧ hexDigits.idxOf c < 16 ∧ c ≠ '+' :=
    forall_iff_forall_mem.1 (by decide)
  set values := s.toList.map hexDigits.idxOf
  have hvals : s.toList.mapM toDigit = .ok values := by
    rw [mapM_eq_ok_iff, forall₂_map_right_iff, forall₂_same]
    exact fun c hc => (hdigit c (h.2 c hc)).1
  have hlist : values.reverse.length = 16 ∧ ∀ d ∈ values.reverse, d < 16 := by
    refine ⟨by simpa [values] using h.1, fun d hd => ?_⟩
    obtain ⟨c, hc, rfl⟩ := mem_map.1 (mem_reverse.1 hd)
    exact (hdigit c (h.2 c hc)).2.2.1
  have hlt := Nat.ofDigits_lt_base_pow_length (by decide) hlist.2
  rw [hlist.1] at hlt
  have hplus : ∀ digits, s.toList ≠ '+' :: digits := fun digits hs =>
    (hdigit '+' (h.2 '+' (by simp [hs]))).2.2.2 rfl
  have hne : s.toList ≠ [] := ne_nil_of_length_eq_add_one h.1
  refine ⟨_, hlt, ?_, ?_⟩
  · simp only [u64FromHex, hvals]
    exact if_pos ⟨hne, hlt⟩
  · have hchars : ∀ c ∈ s.toList, (Nat.digitChar ∘ (hexDigits.idxOf ·)) c = c :=
      fun c hc => (hdigit c (h.2 c hc)).2.1
    rw [hex16, (Nat.setInvOn_digitsAppend_ofDigits (by decide) 16).1 hlist, reverse_reverse,
      map_map, map_congr_left hchars, map_id', String.ofList_toList]

/-! ### The sidecar -/

/-- An entry of a signature map: a fragment and its signature. -/
abbrev Entry := Fin (2 ^ 32) × String

/-- A `BTreeMap<u32, String>`. -/
@[ext] structure SidecarMap where
  entries : List Entry
  sorted : entries.Pairwise (·.1 < ·.1)

/-- `collect`: of several entries for one fragment the last one stays. -/
def SidecarMap.collect (entries : List Entry) : SidecarMap where
  entries := (entries.pwFilter (·.1 ≠ ·.1)).insertionSort (·.1 ≤ ·.1)
  sorted := by
    have : Std.Total fun a b : Entry => a.1 ≤ b.1 := ⟨fun a b => le_total _ _⟩
    have : IsTrans Entry fun a b => a.1 ≤ b.1 := ⟨fun a b c => le_trans⟩
    have hne := ((perm_insertionSort (·.1 ≤ ·.1) _).pairwise_iff Ne.symm).2
      (pairwise_pwFilter (R := (·.1 ≠ ·.1)) entries)
    exact ((pairwise_insertionSort _ _).and hne).imp fun h => lt_of_le_of_ne h.1 h.2

/-- `SIDECAR_MAGIC`, which is `CSIG`. -/
def sidecarMagic : List UInt8 := [67, 83, 73, 71]

/-- `SIDECAR_FORMAT`. -/
def sidecarFormat : UInt8 := 1

/-- The loop of `encode_sidecar`. -/
def encodeEntries : List Entry → Except String (List UInt8)
  | [] => .ok []
  | (fragmentId, signature) :: entries =>
    match u64FromHex signature with
    | .ok hash => return leBytes 4 fragmentId ++ leBytes 8 hash ++ (← encodeEntries entries)
    | .error _ => .error ("signature '" ++ signature ++ "' is not a 64-bit hex digest")

/-- `encode_sidecar`. -/
def encodeSidecar (map : SidecarMap) : Except String (List UInt8) :=
  if map.entries.length < 2 ^ 32 then
    return sidecarMagic ++ [sidecarFormat] ++ leBytes 4 map.entries.length ++
      (← encodeEntries map.entries)
  else .error "too many fragments for a signature sidecar"

/-- How `decode_sidecar` fails. -/
inductive Fault
  | malformed
  | panic

/-- The entries of the chunks of twelve bytes.  On a shorter chunk `unwrap` panics. -/
def decodeEntries : ℕ → List UInt8 → Except Fault (List Entry)
  | 0, _ => .ok []
  | count + 1, body =>
    let entry := body.take 12
    if entry.length = 12 then
      return (Fin.ofNat _ (ofLeBytes (entry.take 4)), hex16 (ofLeBytes (entry.drop 4))) ::
        (← decodeEntries count (body.drop 12))
    else .error .panic

/-- The number of entries that a sidecar records. -/
def recordedCount (bytes : List UInt8) : ℕ := ofLeBytes ((bytes.drop 5).take 4)

/-- `decode_sidecar`.  The length is tested first, so that the header can be read. -/
def decodeSidecar (bytes : List UInt8) : Except Fault SidecarMap :=
  let body := bytes.drop 9
  if bytes.length < 9 ∨ bytes.take 4 ≠ sidecarMagic ∨ bytes[4]? ≠ some sidecarFormat then
    .error .malformed
  else if body.length ≠ recordedCount bytes * 12 then .error .malformed
  else return .collect (← decodeEntries (body.length / 12) body)

/-- The magic, the format and the length are right. -/
abbrev WellFormed (bytes : List UInt8) : Prop :=
  bytes.take 4 = sidecarMagic ∧ bytes[4]? = some sidecarFormat ∧
    bytes.length = 9 + 12 * recordedCount bytes

theorem decodeSidecar_eq (bytes : List UInt8) : decodeSidecar bytes =
    if WellFormed bytes then return .collect (← decodeEntries (recordedCount bytes) (bytes.drop 9))
    else .error .malformed := by
  simp only [decodeSidecar, length_drop]
  split_ifs with hheader h hbody h h
  · obtain ⟨hmagic, hformat, hlen⟩ := h
    rcases hheader with h | h | h
    · omega
    · exact absurd hmagic h
    · exact absurd hformat h
  · rfl
  · omega
  · rfl
  · rw [not_not.1 hbody, Nat.mul_div_cancel _ (by decide)]
  · push Not at hheader
    exact absurd ⟨hheader.2.1, hheader.2.2, by omega⟩ h

theorem SidecarMap.collect_entries (map : SidecarMap) : collect map.entries = map := by
  have hne : map.entries.pwFilter (·.1 ≠ ·.1) = map.entries :=
    pwFilter_eq_self.2 (map.sorted.imp fun h => h.ne)
  ext1
  exact (congrArg (insertionSort _) hne).trans (map.sorted.imp fun h => h.le).insertionSort_eq

theorem exists_encodeEntries {entries : List Entry} (h : ∀ e ∈ entries, Signature e.2) :
    ∃ body, encodeEntries entries = .ok body ∧ body.length = 12 * entries.length ∧
      decodeEntries entries.length body = .ok entries := by
  induction entries with
  | nil => exact ⟨[], rfl, rfl, rfl⟩
  | cons e entries ih =>
    obtain ⟨fragmentId, signature⟩ := e
    obtain ⟨h, hr⟩ := forall_mem_cons.1 h
    obtain ⟨hash, hlt, hprs, hhex⟩ := exists_u64FromHex h
    obtain ⟨body, hbody, hlen, hdec⟩ := ih hr
    have hid : (leBytes 4 fragmentId).length = 4 := length_leBytes fragmentId.2
    have hhash : (leBytes 8 hash).length = 8 := length_leBytes hlt
    have hent : (leBytes 4 fragmentId ++ leBytes 8 hash).length = 12 := by simp [hid, hhash]
    refine ⟨leBytes 4 fragmentId ++ leBytes 8 hash ++ body, ?_, ?_, ?_⟩
    · simp only [encodeEntries, hprs, hbody]
      rfl
    · rw [length_append, hent, hlen, length_cons]
      omega
    · have hfrag : Fin.ofNat _ (ofLeBytes (leBytes 4 fragmentId)) = fragmentId := by
        rw [ofLeBytes_leBytes fragmentId.2]
        exact Fin.ofNat_val_eq_self fragmentId
      have hval : ofLeBytes (leBytes 8 hash) = hash := ofLeBytes_leBytes hlt
      simp only [decodeEntries, length_cons, take_left' hent, drop_left' hent, hdec, hent,
        if_true, take_left' hid, drop_left' hid, hfrag, hval, hhex]
      rfl

theorem decodeEntries_valid {count : ℕ} {body : List UInt8} {entries : List Entry}
    (h : decodeEntries count body = .ok entries) :
    entries.length = count ∧ ∀ e ∈ entries, Signature e.2 := by
  induction count generalizing body entries with
  | zero =>
    obtain rfl := Except.ok.inj h
    simp
  | succ count ih =>
    simp only [decodeEntries] at h
    split_ifs at h with hlen
    obtain ⟨rest, hr, h⟩ := Except.bind_eq_ok.1 h
    obtain rfl := Except.ok.inj h
    obtain ⟨hcnt, hval⟩ := ih hr
    refine ⟨by rw [length_cons, hcnt], forall_mem_cons.2 ⟨signature_hex16 ?_, hval⟩⟩
    have hlt := ofLeBytes_lt ((body.take 12).drop 4)
    rwa [length_drop, hlen] at hlt

/-- A map that has an encoding. -/
def SidecarMap.Valid (map : SidecarMap) : Prop :=
  map.entries.length < 2 ^ 32 ∧ ∀ e ∈ map.entries, Signature e.2

theorem SidecarMap.Valid.read_back {map : SidecarMap} (h : map.Valid) :
    ∃ bytes, encodeSidecar map = .ok bytes ∧ decodeSidecar bytes = .ok map := by
  obtain ⟨body, hbody, hlen, hdec⟩ := exists_encodeEntries h.2
  have hcnt : (leBytes 4 map.entries.length).length = 4 := length_leBytes h.1
  obtain ⟨bytes, hbs⟩ : ∃ bytes, sidecarMagic ++ [sidecarFormat] ++
      leBytes 4 map.entries.length ++ body = bytes := ⟨_, rfl⟩
  have hrec : recordedCount bytes = map.entries.length := by
    rw [← hbs]
    exact (congrArg ofLeBytes (take_left' hcnt)).trans (ofLeBytes_leBytes h.1)
  have hwell : WellFormed bytes := by
    rw [WellFormed, hrec, ← hbs]
    refine ⟨rfl, rfl, ?_⟩
    simp only [length_append, hcnt, hlen]
    rfl
  have hd : bytes.drop 9 = body := hbs ▸ drop_left' (by rw [length_append, hcnt]; rfl)
  refine ⟨bytes, by rw [encodeSidecar, if_pos h.1, hbody, ← hbs]; rfl, ?_⟩
  rw [decodeSidecar_eq, if_pos hwell, hrec, hd, hdec]
  exact congrArg Except.ok map.collect_entries

theorem valid_of_decodeSidecar {bytes : List UInt8} {map : SidecarMap}
    (h : decodeSidecar bytes = .ok map) : map.Valid := by
  rw [decodeSidecar_eq] at h
  split_ifs at h
  obtain ⟨entries, hents, h⟩ := Except.bind_eq_ok.1 h
  obtain rfl := Except.ok.inj h
  obtain ⟨hcnt, hval⟩ := decodeEntries_valid hents
  refine ⟨?_, fun e he => hval e (pwFilter_subset _ ((mem_insertionSort _).1 he))⟩
  calc (SidecarMap.collect entries).entries.length
      ≤ recordedCount bytes := by
        rw [← hcnt, SidecarMap.collect, length_insertionSort]
        exact (pwFilter_sublist _).length_le
    _ < 256 ^ ((bytes.drop 5).take 4).length := ofLeBytes_lt _
    _ ≤ 256 ^ 4 := Nat.pow_le_pow_right (by decide) (by simp)

/-- **A signature map has one encoding.**  It is read back; what is read can be written again; and
everything with another magic, format or length is rejected. -/
theorem sidecar_encoding_exact :
    (∀ map : SidecarMap, map.Valid → ∃ bytes, encodeSidecar map = .ok bytes ∧
      decodeSidecar bytes = .ok map ∧
      ∀ map' : SidecarMap, map'.Valid → encodeSidecar map' = .ok bytes → map' = map) ∧
    (∀ map map' : SidecarMap, (∀ e, e ∈ map.entries ↔ e ∈ map'.entries) →
      encodeSidecar map = encodeSidecar map') ∧
    (∀ bytes map, decodeSidecar bytes = .ok map →
      ∃ bytes', encodeSidecar map = .ok bytes' ∧ decodeSidecar bytes' = .ok map) ∧
    ∀ bytes, ¬ WellFormed bytes → decodeSidecar bytes = .error .malformed := by
  refine ⟨fun map h => ?_, fun map map' h => ?_, fun bytes map h => ?_, fun bytes h => ?_⟩
  · obtain ⟨bytes, henc, hdec⟩ := h.read_back
    refine ⟨bytes, henc, hdec, fun map' h' henc' => ?_⟩
    obtain ⟨bytes', hbs', hdec'⟩ := h'.read_back
    obtain rfl := Except.ok.inj (henc'.symm.trans hbs')
    exact Except.ok.inj (hdec'.symm.trans hdec)
  · have hnd : ∀ map : SidecarMap, map.entries.Nodup := fun map =>
      map.sorted.imp fun h heq => (heq ▸ h).false
    rw [SidecarMap.ext (Perm.eq_of_pairwise (fun a b _ _ hab hba => absurd hab hba.asymm)
      map.sorted map'.sorted ((perm_ext_iff_of_nodup (hnd map) (hnd map')).2 h))]
  · exact (valid_of_decodeSidecar h).read_back
  · rw [decodeSidecar_eq, if_neg h]

end LanceDB.Computed
