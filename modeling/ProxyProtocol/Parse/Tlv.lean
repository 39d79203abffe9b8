import Mathlib.Data.List.Induction
import ProxyProtocol.Types

/-! # TLV extensions

`parse/tlv.rs`. Both loops of the file, over the TLVs of a payload and over
the sub-TLVs of an SSL value, are `Wire.tlvLoop` with their own visitor.

* `isSslValue_of_parseSsl` and `parseSsl_of_isSslValue`: an SSL value parses
  iff its sub-TLV region is a concatenation of whole records, and then gives
  `sslInfo` of them.
* `of_parseTlvs` and `parseTlvs_encodeAll`: a region parses iff it is a
  concatenation of whole records each of which its type allows (`Accepted`),
  and then gives `collect` of them.
* `collect_eq`: what the records of a region carry, field by field.
* `parseTlvs_endsIn`: neither loop panics or runs on.
-/

namespace ProxyProtocol

open Wire Wire.Record

/-! ## The code -/

/-- UTF-8 where the bytes are, with replacement where they are not. -/
def bytesToString (bytes : List UInt8) : Str :=
  match Str.fromUtf8 bytes with
  | some s => s
  | none => Str.fromUtf8Lossy bytes

/-- Text that was written is read back. -/
theorem bytesToString_bytes (s : Str) : bytesToString s.bytes = s := by
  rw [bytesToString, Str.fromUtf8_eq_some.mpr rfl]

def malformedTlv (offset : ℕ) : ParseError := .invalid (.malformedTlv offset)

/-- The `match sub_type` of `parse_ssl`. -/
def setSslField (r : Record) (ssl : SslInfo) : SslInfo :=
  match r.1 with
  | 0x21 => { ssl with version := some (bytesToString r.2) }
  | 0x22 => { ssl with cn := some (bytesToString r.2) }
  | 0x23 => { ssl with cipher := some (bytesToString r.2) }
  | 0x24 => { ssl with sigAlg := some (bytesToString r.2) }
  | 0x25 => { ssl with keyAlg := some (bytesToString r.2) }
  | 0x26 => { ssl with group := some (bytesToString r.2) }
  | 0x27 => { ssl with sigScheme := some (bytesToString r.2) }
  | 0x28 => { ssl with clientCert := some r.2 }
  -- unknown sub-TLVs are skipped
  | _ => ssl

def parseSsl (data : List UInt8) (outerOffset : ℕ) : ParseResult SslInfo := do
  let clientByte ← Outcome.index data 0
  let v0 ← Outcome.index data 1
  let v1 ← Outcome.index data 2
  let v2 ← Outcome.index data 3
  let v3 ← Outcome.index data 4
  let verify := be32 v0 v1 v2 v3
  let ssl : SslInfo :=
    { clientFlags := .fromBitsTruncate clientByte, verified := verify == 0 }
  let subData ← Outcome.sliceFrom data 5
  let subOffset ← Outcome.add outerOffset 5
  tlvLoop malformedTlv (fun _ r ssl => .ok (setSslField r ssl))
    (subData.length + 1) subData subOffset ssl

/-- The body of the loop of `parse_tlvs` for one whole TLV at `offset`. -/
def visitTlv (offset : ℕ) (r : Record) (tlvs : Tlvs) : ParseResult Tlvs :=
  -- all TLVs are stored in `raw`, known ones included
  let tlvs := { tlvs with raw := tlvs.raw ++ [r] }
  match r.1 with
  | 0x01 => .ok { tlvs with alpn := some r.2 }
  | 0x02 => .ok { tlvs with authority := some (bytesToString r.2) }
  | 0x03 =>
      if r.2.length ≠ 4 then .err (malformedTlv offset)
      else do
        -- the `try_into().unwrap()` of the source; the length was just checked
        let bytes ← Outcome.unwrap (Octets.tryFrom 4 r.2)
        .ok { tlvs with crc32c := some bytes.be32 }
  -- padding is kept in `raw` only
  | 0x04 => .ok tlvs
  | 0x05 =>
      if r.2.length > 128 then .err (malformedTlv offset)
      else .ok { tlvs with uniqueId := some r.2 }
  | 0x20 =>
      if r.2.length < 5 then .err (malformedTlv offset)
      else do
        -- errors inside are reported from the start of the value
        let outerOffset ← Outcome.add offset 3
        let ssl ← parseSsl r.2 outerOffset
        .ok { tlvs with ssl := some ssl }
  | 0x30 => .ok { tlvs with netns := some (bytesToString r.2) }
  | _ => .ok tlvs

def parseTlvs (data : List UInt8) : ParseResult Tlvs :=
  tlvLoop malformedTlv visitTlv (data.length + 1) data 0 {}

/-! ## SSL values -/

/-- The SSL data of a flag byte, a verification result and sub-TLVs. -/
def sslInfo (clientByte : UInt8) (verify : UInt32) (subs : List Record) : SslInfo :=
  subs.foldl (fun ssl r => setSslField r ssl)
    { clientFlags := .fromBitsTruncate clientByte, verified := verify == 0 }

/-- What an SSL value has to look like, and what it says. -/
def IsSslValue (value : List UInt8) (ssl : SslInfo) : Prop :=
  ∃ (c v0 v1 v2 v3 : UInt8) (subs : List Record), (∀ r ∈ subs, r.Fits) ∧
    value = c :: v0 :: v1 :: v2 :: v3 :: encodeAll subs ∧
    ssl = sslInfo c (be32 v0 v1 v2 v3) subs

/-- `parse_ssl` after its fixed part. -/
theorem parseSsl_cons (c v0 v1 v2 v3 : UInt8) {subs : List Record} {tail : List UInt8}
    (hsubs : ∀ r ∈ subs, r.Fits) (htail : next tail = none) (outerOffset : ℕ) :
    parseSsl (c :: v0 :: v1 :: v2 :: v3 :: (encodeAll subs ++ tail)) outerOffset =
      (Outcome.add outerOffset 5 >>= fun subOffset =>
        visitAll (fun _ r ssl => .ok (setSslField r ssl)) subs subOffset
          { clientFlags := .fromBitsTruncate c, verified := be32 v0 v1 v2 v3 == 0 } >>= fun p =>
        if tail = [] then .ok p.2 else .err (malformedTlv p.1)) := by
  have hfuel := length_lt_fuel subs tail
  simp only [parseSsl, Outcome.index_zero, Outcome.index_succ, Outcome.ok_bind]
  rw [Outcome.sliceFrom_of_le (by simp)]
  simp only [Outcome.ok_bind, List.drop_succ_cons, List.drop_zero]
  congr 1
  funext subOffset
  exact tlvLoop_eq malformedTlv _ hsubs htail _ subOffset _ hfuel

theorem isSslValue_of_parseSsl {value : List UInt8} {outerOffset : ℕ} {ssl : SslInfo}
    (h : parseSsl value outerOffset = .ok ssl) : IsSslValue value ssl := by
  match value with
  -- `parse_ssl` indexes its fixed part, so a shorter value panics
  | [] | [_] | [_, _] | [_, _, _] | [_, _, _, _] =>
      simp [parseSsl, Outcome.index, Outcome.unwrap] at h
  | c :: v0 :: v1 :: v2 :: v3 :: sub =>
      rcases exists_decomposition sub with ⟨subs, tail, rfl, hsubs, htail⟩
      rw [parseSsl_cons c v0 v1 v2 v3 hsubs htail] at h
      rcases Outcome.bind_eq_ok.mp h with ⟨subOffset, -, h⟩
      rcases Outcome.bind_eq_ok.mp h with ⟨p, hall, hend⟩
      split at hend
      · rename_i hnil
        cases hend
        have hfold := of_visitAll_eq_ok (f := setSslField) (P := fun _ => True)
          (by intro r _ _ acc acc' _ h; cases h; exact ⟨trivial, rfl⟩) hall
        exact ⟨c, v0, v1, v2, v3, subs, hsubs, by simp [hnil], hfold.2⟩
      · cases hend

theorem parseSsl_of_isSslValue {value : List UInt8} {ssl : SslInfo} (h : IsSslValue value ssl)
    {outerOffset : ℕ} (hoff : outerOffset + value.length ≤ Outcome.usizeMax) :
    parseSsl value outerOffset = .ok ssl := by
  rcases h with ⟨c, v0, v1, v2, v3, subs, hsubs, rfl, rfl⟩
  simp only [List.length_cons] at hoff
  have h := parseSsl_cons c v0 v1 v2 v3 hsubs (show next [] = none from rfl) outerOffset
  rw [List.append_nil, Outcome.add_of_le (by omega), Outcome.ok_bind,
    visitAll_eq_ok (f := setSslField) (fun _ _ _ _ _ => rfl) _ _ (by omega)] at h
  exact h

/-- The SSL data of a value, wherever it stands. -/
def decodeSsl (value : List UInt8) : Option SslInfo :=
  match parseSsl value 0 with
  | .ok ssl => some ssl
  | _ => none

theorem decodeSsl_eq_some {value : List UInt8} {ssl : SslInfo} (h : IsSslValue value ssl)
    (hlen : value.length ≤ Outcome.usizeMax) : decodeSsl value = some ssl := by
  have hparse : parseSsl value 0 = .ok ssl := parseSsl_of_isSslValue h (by omega)
  simp [decodeSsl, hparse]

/-! ## TLV regions -/

/-- What the type of a record asks of its value. -/
structure Accepted (r : Record) : Prop where
  crc32c : r.1 = 0x03 → r.2.length = 4
  uniqueId : r.1 = 0x05 → r.2.length ≤ 128
  ssl : r.1 = 0x20 → ∃ ssl, IsSslValue r.2 ssl

/-- The effect of an accepted record. -/
def record (r : Record) (tlvs : Tlvs) : Tlvs :=
  let tlvs := { tlvs with raw := tlvs.raw ++ [r] }
  match r.1 with
  | 0x01 => { tlvs with alpn := some r.2 }
  | 0x02 => { tlvs with authority := some (bytesToString r.2) }
  | 0x03 => { tlvs with crc32c := (Octets.tryFrom 4 r.2).map Octets.be32 }
  | 0x05 => { tlvs with uniqueId := some r.2 }
  | 0x20 => { tlvs with ssl := decodeSsl r.2 }
  | 0x30 => { tlvs with netns := some (bytesToString r.2) }
  | _ => tlvs

/-- The extensions a list of records carries. -/
def collect (rs : List Record) : Tlvs := rs.foldl (fun tlvs r => record r tlvs) {}

theorem visitTlv_of_accepted {r : Record} (h : Accepted r) {offset : ℕ} (tlvs : Tlvs)
    (hoff : offset + size r ≤ Outcome.usizeMax) :
    visitTlv offset r tlvs = .ok (record r tlvs) := by
  rcases r with ⟨ty, value⟩
  simp only [size] at hoff
  simp only [visitTlv, record]
  split
  · rfl
  · rfl
  · have hlen : value.length = 4 := h.crc32c rfl
    simp [hlen, Octets.tryFrom_of_length]
  · rfl
  · have hlen : value.length ≤ 128 := h.uniqueId rfl
    rw [if_neg (by omega)]
    rfl
  · rcases h.ssl rfl with ⟨ssl, hssl⟩
    change IsSslValue value ssl at hssl
    have hlen : 5 ≤ value.length := by
      rcases hssl with ⟨c, v0, v1, v2, v3, subs, -, rfl, -⟩
      simp
    rw [if_neg (by omega), Outcome.add_of_le (by omega), Outcome.ok_bind,
      parseSsl_of_isSslValue hssl (by omega), decodeSsl_eq_some hssl (by omega)]
    rfl
  · rfl
  · split <;> first | contradiction | rfl

theorem accepted_of_visitTlv {r : Record} {offset : ℕ} {tlvs tlvs' : Tlvs}
    (h : visitTlv offset r tlvs = .ok tlvs') : Accepted r := by
  rcases r with ⟨ty, value⟩
  refine ⟨?_, ?_, ?_⟩
  · rintro rfl
    by_contra hlen
    simp [visitTlv, hlen] at h
  · rintro rfl
    by_contra hlen
    rw [visitTlv, if_pos (Nat.lt_of_not_le hlen)] at h
    cases h
  · rintro rfl
    simp only [visitTlv] at h
    split at h
    · cases h
    · rcases Outcome.bind_eq_ok.mp h with ⟨outerOffset, -, h⟩
      rcases Outcome.bind_eq_ok.mp h with ⟨ssl, hssl, -⟩
      exact ⟨ssl, isSslValue_of_parseSsl hssl⟩

/-- A region of whole accepted records parses to what they carry. -/
theorem parseTlvs_encodeAll {rs : List Record} (h : ∀ r ∈ rs, r.Fits ∧ Accepted r)
    (hlen : (encodeAll rs).length ≤ Outcome.usizeMax) :
    parseTlvs (encodeAll rs) = .ok (collect rs) := by
  have hall := visitAll_eq_ok (f := record)
    (fun r hr _ tlvs hoff => visitTlv_of_accepted (h r hr).2 tlvs hoff) 0 {} (by omega)
  exact tlvLoop_of_visitAll malformedTlv (fun r hr => (h r hr).1) hall

/-- A region that parses consists of whole accepted records. -/
theorem of_parseTlvs {d : List UInt8} {tlvs : Tlvs} (h : parseTlvs d = .ok tlvs) :
    ∃ rs : List Record, d = encodeAll rs ∧ (∀ r ∈ rs, r.Fits ∧ Accepted r) ∧ tlvs = collect rs := by
  rcases exists_decomposition d with ⟨rs, tail, rfl, hrs, htail⟩
  rw [parseTlvs, tlvLoop_eq malformedTlv visitTlv hrs htail _ _ _ (length_lt_fuel rs tail)] at h
  rcases Outcome.bind_eq_ok.mp h with ⟨p, hall, hend⟩
  split at hend
  · rename_i hnil
    cases hend
    -- a visit that succeeds was of an accepted record, whose effect is known
    have hstep : ∀ r ∈ rs, ∀ offset acc acc', offset + size r ≤ Outcome.usizeMax →
        visitTlv offset r acc = .ok acc' → Accepted r ∧ acc' = record r acc := by
      intro r _ offset acc acc' hoff hvisit
      have hr := accepted_of_visitTlv hvisit
      rw [visitTlv_of_accepted hr acc hoff] at hvisit
      cases hvisit
      exact ⟨hr, rfl⟩
    rcases of_visitAll_eq_ok hstep hall with ⟨hacc, hfold⟩
    exact ⟨rs, by simp [hnil], fun r hr => ⟨hrs r hr, hacc r hr⟩, hfold⟩
  · cases hend

/-! ## Both loops end -/

theorem isInvalid_malformedTlv (offset : ℕ) : (malformedTlv offset).IsInvalid := ⟨_, rfl⟩

theorem parseSsl_endsIn {value : List UInt8} (hlen : 5 ≤ value.length) {outerOffset : ℕ}
    (hoff : outerOffset + value.length ≤ Outcome.usizeMax) :
    (parseSsl value outerOffset).EndsIn ParseError.IsInvalid := by
  match value with
  | [] | [_] | [_, _] | [_, _, _] | [_, _, _, _] => simp at hlen
  | c :: v0 :: v1 :: v2 :: v3 :: sub =>
      simp only [List.length_cons] at hoff
      simp only [parseSsl, Outcome.index_zero, Outcome.index_succ, Outcome.ok_bind]
      rw [Outcome.sliceFrom_of_le (by simp), Outcome.ok_bind, Outcome.add_of_le (by omega),
        Outcome.ok_bind]
      apply tlvLoop_endsIn
      · exact isInvalid_malformedTlv
      · intro r _ offset ssl _
        exact trivial
      · simp only [List.drop_succ_cons, List.drop_zero]
        omega

theorem visitTlv_endsIn (r : Record) (offset : ℕ) (tlvs : Tlvs)
    (hoff : offset + size r ≤ Outcome.usizeMax) :
    (visitTlv offset r tlvs).EndsIn ParseError.IsInvalid := by
  have hmalformed := isInvalid_malformedTlv offset
  rcases r with ⟨ty, value⟩
  simp only [size] at hoff
  simp only [visitTlv]
  split
  · exact trivial
  · exact trivial
  · by_cases hlen : value.length = 4
    · rw [if_neg (not_not.mpr hlen), Octets.tryFrom_of_length hlen]
      exact trivial
    · rw [if_pos hlen]
      exact hmalformed
  · exact trivial
  · split
    · exact hmalformed
    · exact trivial
  · split
    · exact hmalformed
    · rename_i hlen
      rw [Outcome.add_of_le (by omega), Outcome.ok_bind]
      have hsum : offset + 3 + value.length ≤ Outcome.usizeMax := by omega
      refine Outcome.EndsIn.bind (parseSsl_endsIn (Nat.not_lt.mp hlen) hsum) ?_
      intro ssl _
      exact trivial
  · exact trivial
  · exact trivial

theorem parseTlvs_endsIn {d : List UInt8} (hlen : d.length ≤ Outcome.usizeMax) :
    (parseTlvs d).EndsIn ParseError.IsInvalid :=
  tlvLoop_endsIn malformedTlv isInvalid_malformedTlv
    (fun r _ offset tlvs hoff => visitTlv_endsIn r offset tlvs hoff) d 0 {} (by omega)

/-! ## What the records carry -/

/-- The value of the last record of a type. -/
def lastOf (ty : UInt8) : List Record → Option (List UInt8)
  | [] => none
  | r :: rs => (lastOf ty rs).or (if r.1 = ty then some r.2 else none)

theorem lastOf_concat (ty : UInt8) (rs : List Record) (r : Record) :
    lastOf ty (rs ++ [r]) = if r.1 = ty then some r.2 else lastOf ty rs := by
  induction rs with
  | nil => simp [lastOf]
  | cons q rs ih =>
      simp only [List.cons_append, lastOf, ih]
      split <;> simp

theorem lastOf_eq_none {ty : UInt8} {rs : List Record} :
    lastOf ty rs = none ↔ ∀ r ∈ rs, r.1 ≠ ty := by
  induction rs with
  | nil => simp [lastOf]
  | cons r rs ih =>
      rw [lastOf, Option.or_eq_none_iff, ih]
      by_cases h : r.1 = ty <;> simp [h]

theorem mem_of_lastOf {ty : UInt8} {rs : List Record} {value : List UInt8}
    (h : lastOf ty rs = some value) : (ty, value) ∈ rs := by
  induction rs with
  | nil => cases h
  | cons r rs ih =>
      rw [lastOf, Option.or_eq_some_iff] at h
      rcases h with h | ⟨-, h⟩
      · exact List.mem_cons_of_mem _ (ih h)
      · split at h
        · rename_i hty
          cases h
          simp [← hty]
        · cases h

theorem lastOf_append (ty : UInt8) (rs ss : List Record) :
    lastOf ty (rs ++ ss) = (lastOf ty ss).or (lastOf ty rs) := by
  induction rs with
  | nil => simp [lastOf]
  | cons r rs ih => rw [List.cons_append, lastOf, ih, lastOf, Option.or_assoc]

theorem lastOf_split {ty : UInt8} {value : List UInt8} {pre post : List Record}
    (hpost : ∀ r ∈ post, r.1 ≠ ty) : lastOf ty (pre ++ (ty, value) :: post) = some value := by
  rw [lastOf_append, lastOf, lastOf_eq_none.mpr hpost]
  simp

/-- A list that has a record of a type has a first one. -/
theorem exists_first {ty : UInt8} {rs : List Record} (h : lastOf ty rs ≠ none) :
    ∃ pre value post, rs = pre ++ (ty, value) :: post ∧ ∀ r ∈ pre, r.1 ≠ ty := by
  induction rs with
  | nil => exact absurd rfl h
  | cons r rs ih =>
      by_cases hr : r.1 = ty
      · exact ⟨[], r.2, rs, by rw [← hr]; rfl, by simp⟩
      · have hrs : lastOf ty rs ≠ none := by
          simpa [lastOf, hr] using h
        rcases ih hrs with ⟨pre, value, post, heq, hpre⟩
        refine ⟨r :: pre, value, post, by rw [heq]; rfl, ?_⟩
        intro q hq
        rcases List.mem_cons.mp hq with rfl | hq
        · exact hr
        · exact hpre q hq

theorem collect_concat (rs : List Record) (r : Record) :
    collect (rs ++ [r]) = record r (collect rs) := by
  simp [collect]

/-- `raw` keeps every record in order; a typed field holds the decoding of the
last record of its type. -/
theorem collect_eq (rs : List Record) :
    collect rs =
      { alpn := lastOf 0x01 rs
        authority := (lastOf 0x02 rs).map bytesToString
        crc32c := (lastOf 0x03 rs).bind fun v => (Octets.tryFrom 4 v).map Octets.be32
        uniqueId := lastOf 0x05 rs
        netns := (lastOf 0x30 rs).map bytesToString
        ssl := (lastOf 0x20 rs).bind decodeSsl
        raw := rs } := by
  -- on the list from its end: the last record of a type is the one that counts
  induction rs using List.reverseRecOn with
  | nil => rfl
  | append_singleton rs r ih =>
      rw [collect_concat, ih]
      simp only [lastOf_concat]
      rcases r with ⟨ty, value⟩
      simp only [record]
      split <;> simp_all

/-- A checksum is reported only if some TLV is one. -/
theorem lastOf_of_crc32c {rs : List Record} (h : (collect rs).crc32c ≠ none) :
    lastOf 0x03 rs ≠ none := by
  intro hnone
  rw [collect_eq, hnone] at h
  exact h rfl

/-- A field of an SSL value holds the last sub-TLV of its type. -/
theorem sslInfo_eq (clientByte : UInt8) (verify : UInt32) (subs : List Record) :
    sslInfo clientByte verify subs =
      { clientFlags := .fromBitsTruncate clientByte
        verified := verify == 0
        version := (lastOf 0x21 subs).map bytesToString
        cn := (lastOf 0x22 subs).map bytesToString
        cipher := (lastOf 0x23 subs).map bytesToString
        sigAlg := (lastOf 0x24 subs).map bytesToString
        keyAlg := (lastOf 0x25 subs).map bytesToString
        group := (lastOf 0x26 subs).map bytesToString
        sigScheme := (lastOf 0x27 subs).map bytesToString
        clientCert := lastOf 0x28 subs } := by
  induction subs using List.reverseRecOn with
  | nil => rfl
  | append_singleton subs r ih =>
      rw [sslInfo] at ih
      rw [sslInfo, List.foldl_concat, ih]
      simp only [lastOf_concat]
      rcases r with ⟨ty, value⟩
      simp only [setSslField]
      split <;> simp_all

@[simp] theorem raw_collect (rs : List Record) : (collect rs).raw = rs := by
  rw [collect_eq]

end ProxyProtocol
