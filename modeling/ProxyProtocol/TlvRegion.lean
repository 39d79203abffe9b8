import ProxyProtocol.Parse.Tlv

/-! # TLV regions: fields and faults

What `parse_tlvs` promises its callers about a region it was given.

* `typed_fields_follow_raw`: an accepted region is the concatenation of the
  entries of `raw`, and every typed field is the decoding of the last entry of
  its type; other types leave no trace outside `raw`.
* `malformed_tlv_offset`: a refused region is refused with an offset, and
  there stands the TLV, or the sub-TLV of an SSL value, that is at fault.
* `parse_tlvs_append`: the result for two regions, one behind the other, from
  the results for each.

The second rests on `exists_tlvLoop_err`: the two offset counters of the file
count the bytes of the records passed so far, each from its own base.
-/

namespace ProxyProtocol

open Wire Wire.Record

/-! ## Accepted regions -/

/-- Where a field comes from: nowhere if no entry has its type, otherwise from
the value of the last such entry, which stands at an offset of the region. -/
def Reports {α : Type} (raw : List Record) (ty : UInt8) (decodes : ℕ → List UInt8 → α → Prop)
    (field : Option α) : Prop :=
  (field = none ↔ ∀ r ∈ raw, r.1 ≠ ty) ∧
    ∀ pre value post, raw = pre ++ (ty, value) :: post → (∀ r ∈ post, r.1 ≠ ty) →
      ∃ a, field = some a ∧ decodes (encodeAll pre).length value a

/-- A field that is computed from the last entry of a type, when every such
entry can be decoded. -/
theorem reports_of_bind {α : Type} {raw : List Record} {ty : UInt8}
    {decodes : ℕ → List UInt8 → α → Prop} {decode : List UInt8 → Option α} {field : Option α}
    (hfield : field = (lastOf ty raw).bind decode)
    (h : ∀ pre value post, raw = pre ++ (ty, value) :: post →
      ∃ a, decode value = some a ∧ decodes (encodeAll pre).length value a) :
    Reports raw ty decodes field := by
  subst hfield
  constructor
  · rw [← lastOf_eq_none]
    cases hlast : lastOf ty raw with
    | none => simp
    | some value =>
        rcases List.append_of_mem (mem_of_lastOf hlast) with ⟨pre, post, hraw⟩
        rcases h pre value post hraw with ⟨a, ha, -⟩
        simp [ha]
  · intro pre value post hraw hpost
    rcases h pre value post hraw with ⟨a, ha, hdecodes⟩
    refine ⟨a, ?_, hdecodes⟩
    rw [hraw, lastOf_split hpost, Option.bind_some, ha]

theorem reports_of_map {α : Type} {raw : List Record} {ty : UInt8} {f : List UInt8 → α}
    {field : Option α} (hfield : field = (lastOf ty raw).map f) :
    Reports raw ty (fun _ value a => a = f value) field := by
  rw [Option.map_eq_bind] at hfield
  apply reports_of_bind hfield
  intro pre value post _
  exact ⟨f value, rfl, rfl⟩

/-- TLV types that set a field of their own. -/
def typedTlvs : List UInt8 := [0x01, 0x02, 0x03, 0x05, 0x20, 0x30]

/-- Every typed field is what the last entry of its type says. -/
structure FollowsRaw (t : Tlvs) (rs : List Record) : Prop where
  alpn : Reports rs 0x01 (fun _ value alpn => alpn = value) t.alpn
  authority : Reports rs 0x02 (fun _ value authority => authority = bytesToString value) t.authority
  crc32c : Reports rs 0x03 (fun _ value crc => value = be32Bytes crc) t.crc32c
  uniqueId : Reports rs 0x05 (fun _ value id => id = value) t.uniqueId
  ssl : Reports rs 0x20 (fun offset value ssl => parseSsl value (offset + 3) = .ok ssl) t.ssl
  netns : Reports rs 0x30 (fun _ value netns => netns = bytesToString value) t.netns

/-- The fields of a region whose entries its types allow. -/
theorem followsRaw_collect {rs : List Record} (hrs : ∀ r ∈ rs, r.Fits ∧ Accepted r)
    (hmax : (encodeAll rs).length ≤ Outcome.usizeMax) : FollowsRaw (collect rs) rs := by
  have hmem : ∀ {pre value post ty}, rs = pre ++ (ty, value) :: post →
      Accepted (ty, value) := by
    intro pre value post ty hsplit
    exact (hrs (ty, value) (by simp [hsplit])).2
  have hcollect := collect_eq rs
  have hid : ∀ ty, lastOf ty rs = (lastOf ty rs).map id := fun ty => Option.map_id'.symm
  constructor
  case alpn => exact reports_of_map (f := id) ((congrArg Tlvs.alpn hcollect).trans (hid 0x01))
  case authority => exact reports_of_map (congrArg Tlvs.authority hcollect)
  case crc32c =>
    -- a checksum entry has four bytes
    apply reports_of_bind (congrArg Tlvs.crc32c hcollect)
    intro pre value post hsplit
    rcases exists_be32Bytes ((hmem hsplit).crc32c rfl) with ⟨crc, rfl⟩
    exact ⟨crc, be32_tryFrom_be32Bytes crc, rfl⟩
  case uniqueId =>
    exact reports_of_map (f := id) ((congrArg Tlvs.uniqueId hcollect).trans (hid 0x05))
  case ssl =>
    apply reports_of_bind (congrArg Tlvs.ssl hcollect)
    intro pre value post hsplit
    rcases (hmem hsplit).ssl rfl with ⟨ssl, hssl⟩
    -- the value lies inside the region, so no offset in it overflows
    have hend : (encodeAll pre).length + 3 + value.length ≤ Outcome.usizeMax := by
      rw [hsplit] at hmax
      simp only [encodeAll_append, encodeAll_cons, List.length_append, length_encode, size] at hmax
      omega
    exact ⟨ssl, decodeSsl_eq_some hssl (by omega), parseSsl_of_isSslValue hssl hend⟩
  case netns => exact reports_of_map (congrArg Tlvs.netns hcollect)

/-- No whole TLV starts here: the type and length are cut off, or the value
they announce is. -/
def Truncated (bytes : List UInt8) : Prop :=
  bytes.length < 3 ∨ bytes.length < 3 + (be16 (bytes.getD 1 0) (bytes.getD 2 0)).toNat

theorem truncated_of_next {bytes : List UInt8} (h : next bytes = none) : Truncated bytes := by
  match bytes with
  | [] | [_] | [_, _] => exact .inl (by simp)
  | ty :: hi :: lo :: rest =>
      right
      simp only [next] at h
      split at h
      · cases h
      · rename_i hshort
        simp only [List.length_cons, List.getD_cons_succ, List.getD_cons_zero]
        omega

/-- A whole TLV with a value of a length that its type does not allow. -/
def BreaksLengthRule (r : Record) : Prop :=
  (r.1 = 0x03 ∧ r.2.length ≠ 4) ∨ (r.1 = 0x05 ∧ 128 < r.2.length) ∨
    (r.1 = 0x20 ∧ r.2.length < 5)

/-- The TLV at `offset` is the first that is at fault. -/
def OuterFault (d : List UInt8) (offset : ℕ) : Prop :=
  (∃ t, parseTlvs (d.take offset) = .ok t) ∧
    (Truncated (d.drop offset) ∨
      ∃ r rest, d.drop offset = encode r ++ rest ∧ r.Fits ∧ BreaksLengthRule r)

/-- A whole SSL TLV at `o`, with `len` bytes of value, is the first TLV that is
at fault, because of its sub-TLV at `offset`. -/
structure SslFault (d : List UInt8) (o len offset : ℕ) : Prop where
  accepted : ∃ t, parseTlvs (d.take o) = .ok t
  type_eq : d[o]? = some 0x20
  len_eq : ∃ hi lo, d[o + 1]? = some hi ∧ d[o + 2]? = some lo ∧ (be16 hi lo).toNat = len
  whole : o + 3 + len ≤ d.length
  five_le : 5 ≤ len
  le_offset : o + 8 ≤ offset
  offset_lt : offset < o + 3 + len
  subs : ∃ subs : List Record, (∀ s ∈ subs, s.Fits) ∧
    (d.take offset).drop (o + 8) = encodeAll subs
  truncated : Truncated ((d.take (o + 3 + len)).drop offset)

/-- An error of `parse_ssl` is about the first sub-TLV that is cut off. -/
theorem exists_parseSsl_err {value : List UInt8} {outerOffset : ℕ} {e : ParseError}
    (h : parseSsl value outerOffset = .err e) :
    ∃ (fixed : List UInt8) (subs : List Record) (tail : List UInt8), fixed.length = 5 ∧
      value = fixed ++ (encodeAll subs ++ tail) ∧ (∀ s ∈ subs, s.Fits) ∧
      tail ≠ [] ∧ next tail = none ∧
      e = malformedTlv (outerOffset + 5 + (encodeAll subs).length) := by
  match value with
  | [] | [_] | [_, _] | [_, _, _] | [_, _, _, _] =>
      simp [parseSsl, Outcome.index, Outcome.unwrap] at h
  | c :: v0 :: v1 :: v2 :: v3 :: sub =>
      simp only [parseSsl, Outcome.index_zero, Outcome.index_succ, Outcome.ok_bind] at h
      rw [Outcome.sliceFrom_of_le (by simp), Outcome.ok_bind] at h
      rcases Outcome.bind_eq_err.mp h with hadd | ⟨subOffset, hadd, hloop⟩
      · exact absurd hadd Outcome.add_ne_err
      · rcases Outcome.add_eq_ok.mp hadd with ⟨hle, rfl⟩
        rcases exists_tlvLoop_err malformedTlv hloop with
          ⟨subs, tail, p, hsub, hsubs, hall, ⟨hne, hnext, rfl⟩ | ⟨r, rest, -, -, hvisit⟩⟩
        · rw [(offset_of_visitAll hle hall).1]
          exact ⟨[c, v0, v1, v2, v3], subs, tail, rfl, congrArg ([c, v0, v1, v2, v3] ++ ·) hsub,
            hsubs, hne, hnext, rfl⟩
        · -- no sub-TLV that is there is refused
          cases hvisit

/-- An error about a whole TLV: its length, or something inside an SSL value. -/
theorem exists_visitTlv_err {offset : ℕ} {r : Record} {tlvs : Tlvs} {e : ParseError}
    (h : visitTlv offset r tlvs = .err e) :
    (BreaksLengthRule r ∧ e = malformedTlv offset) ∨
      (r.1 = 0x20 ∧ 5 ≤ r.2.length ∧ parseSsl r.2 (offset + 3) = .err e) := by
  rcases r with ⟨ty, value⟩
  simp only [visitTlv] at h
  split at h
  · cases h
  · cases h
  · left
    by_cases hlen : value.length = 4
    · rw [if_neg (not_not.mpr hlen), Octets.tryFrom_of_length hlen] at h
      cases h
    · rw [if_pos hlen] at h
      cases h
      exact ⟨.inl ⟨rfl, hlen⟩, rfl⟩
  · cases h
  · left
    split at h
    · rename_i hlen
      cases h
      exact ⟨.inr (.inl ⟨rfl, hlen⟩), rfl⟩
    · cases h
  · split at h
    · rename_i hlen
      cases h
      exact .inl ⟨.inr (.inr ⟨rfl, hlen⟩), rfl⟩
    · rename_i hlen
      right
      rcases Outcome.bind_eq_err.mp h with hadd | ⟨outerOffset, hadd, hrest⟩
      · exact absurd hadd Outcome.add_ne_err
      · rcases Outcome.add_eq_ok.mp hadd with ⟨-, rfl⟩
        rcases Outcome.bind_eq_err.mp hrest with hssl | ⟨ssl, -, hok⟩
        · exact ⟨rfl, Nat.not_lt.mp hlen, hssl⟩
        · cases hok
  · cases h
  · cases h

/-- A sub-TLV that is cut off, seen from the region in which the SSL value
stands behind `front`. -/
theorem sslFault_of_cut {front value fixed tail : List UInt8} {subs : List Record} {t : Tlvs}
    (hfront : parseTlvs front = .ok t) (hfits : Fits (0x20, value))
    (hvalue : value = fixed ++ (encodeAll subs ++ tail)) (hfixed : fixed.length = 5)
    (hsubs : ∀ s ∈ subs, s.Fits) (hne : tail ≠ []) (hnext : next tail = none)
    (rest : List UInt8) :
    SslFault (front ++ (encode (0x20, value) ++ rest)) front.length value.length
      (front.length + 3 + 5 + (encodeAll subs).length) := by
  have hpos := List.length_pos_iff.mpr hne
  have hlen : value.length = 5 + (encodeAll subs).length + tail.length := by
    rw [hvalue]
    simp only [List.length_append, hfixed]
    omega
  -- the region is cut in front of the sub-TLVs, and behind the whole ones
  have hstart : (front ++ head (0x20, value) ++ fixed).length = front.length + 8 := by
    simp only [List.length_append, length_head, hfixed]
  have hend : (front ++ head (0x20, value) ++ fixed ++ encodeAll subs).length =
      front.length + 3 + 5 + (encodeAll subs).length := by
    rw [List.length_append, hstart]
  have hcut : front ++ (encode (0x20, value) ++ rest) =
      (front ++ head (0x20, value) ++ fixed) ++ (encodeAll subs ++ (tail ++ rest)) := by
    rw [encode_eq_head]
    simp only [hvalue, List.append_assoc]
  have hcut' : front ++ (encode (0x20, value) ++ rest) =
      (front ++ head (0x20, value) ++ fixed ++ encodeAll subs) ++ (tail ++ rest) := by
    rw [hcut, List.append_assoc _ (encodeAll subs)]
  have hindex : ∀ i, (front ++ (encode (0x20, value) ++ rest))[front.length + i]? =
      (encode (0x20, value) ++ rest)[i]? := by
    intro i
    rw [List.getElem?_append_right (by omega), Nat.add_sub_cancel_left]
  exact {
    accepted := ⟨t, by rw [List.take_left]; exact hfront⟩
    type_eq := hindex 0
    len_eq := ⟨_, _, hindex 1, hindex 2, toNat_length_field hfits⟩
    whole := by
      simp only [List.length_append, length_encode, size]
      omega
    five_le := by omega
    le_offset := by omega
    offset_lt := by omega
    subs := by
      refine ⟨subs, hsubs, ?_⟩
      rw [hcut]
      exact Outcome.drop_take_append hstart (by rw [hstart]) _
    truncated := by
      rw [hcut', Outcome.drop_take_append hend (by rw [hend, hlen]; omega)]
      exact truncated_of_next hnext }

/-- Malformed-TLV errors point at the offending TLV, and there are no others. -/
theorem malformed_tlv_offset {d : List UInt8} {e : ParseError} (h : parseTlvs d = .err e) :
    ∃ offset, e = .invalid (.malformedTlv offset) ∧ offset < d.length ∧
      (OuterFault d offset ∨ ∃ o len, SslFault d o len offset) := by
  rcases exists_tlvLoop_err malformedTlv h with ⟨rs, rest, p, rfl, hrs, hall, hfault⟩
  -- the records passed are accepted, and the offset counts their bytes
  have haccepted : parseTlvs (encodeAll rs) = .ok p.2 := tlvLoop_of_visitAll malformedTlv hrs hall
  have hoffset : p.1 = (encodeAll rs).length := by
    have := (offset_of_visitAll (Nat.zero_le _) hall).1
    omega
  rw [hoffset] at hfault
  have htake : (encodeAll rs ++ rest).take (encodeAll rs).length = encodeAll rs := List.take_left
  have hdrop : (encodeAll rs ++ rest).drop (encodeAll rs).length = rest := List.drop_left
  rcases hfault with ⟨hne, hnext, rfl⟩ | ⟨r, tail, hrest, hfits, hvisit⟩
  · have hpos := List.length_pos_iff.mpr hne
    refine ⟨_, rfl, by rw [List.length_append]; omega, .inl ⟨⟨p.2, by rw [htake]; exact haccepted⟩,
      .inl ?_⟩⟩
    rw [hdrop]
    exact truncated_of_next hnext
  · have hlt : (encodeAll rs).length + size r ≤ (encodeAll rs ++ rest).length := by
      rw [hrest]
      simp only [List.length_append, length_encode]
      omega
    simp only [size] at hlt
    rcases exists_visitTlv_err hvisit with ⟨hrule, rfl⟩ | ⟨hty, hfive, hssl⟩
    · refine ⟨_, rfl, by omega, .inl ⟨⟨p.2, by rw [htake]; exact haccepted⟩, .inr ?_⟩⟩
      exact ⟨r, tail, hdrop.trans hrest, hfits, hrule⟩
    · rcases exists_parseSsl_err hssl with
        ⟨fixed, subs, cut, hfixed, hvalue, hsubs, hne, hnext, rfl⟩
      rcases r with ⟨ty, value⟩
      change ty = 0x20 at hty
      subst hty hrest
      have hcut := sslFault_of_cut haccepted hfits hvalue hfixed hsubs hne hnext tail
      have hend := hcut.offset_lt
      have hwhole := hcut.whole
      exact ⟨_, rfl, by omega, .inr ⟨_, _, hcut⟩⟩

/-- Behind an ALPN TLV of four bytes an SSL TLV whose only sub-TLV announces
five bytes and has one. -/
theorem malformed_tlv_offset_ssl :
    let d : List UInt8 := [0x01, 0, 1, 0x68, 0x20, 0, 9, 1, 0, 0, 0, 0, 0x21, 0, 5, 0x54]
    parseTlvs d = .err (.invalid (.malformedTlv 12)) ∧ 12 < d.length ∧
      (OuterFault d 12 ∨ ∃ o len, SslFault d o len 12) := by
  intro d
  have h : parseTlvs d = .err (.invalid (.malformedTlv 12)) := by decide
  rcases malformed_tlv_offset h with ⟨offset, he, hlt, hfault⟩
  cases he
  exact ⟨h, hlt, hfault⟩

/-! ## Concatenated regions -/

/-- The error of a region that stands `k` bytes further on. -/
def ParseError.shift (k : ℕ) : ParseError → ParseError
  | .invalid (.malformedTlv offset) => .invalid (.malformedTlv (k + offset))
  | e => e

/-- The TLVs of two regions: the fields of the one behind count where it has
them. -/
def Tlvs.merge (front behind : Tlvs) : Tlvs where
  alpn := behind.alpn.or front.alpn
  authority := behind.authority.or front.authority
  crc32c := behind.crc32c.or front.crc32c
  uniqueId := behind.uniqueId.or front.uniqueId
  netns := behind.netns.or front.netns
  ssl := behind.ssl.or front.ssl
  raw := front.raw ++ behind.raw

theorem merge_empty (front : Tlvs) : front.merge {} = front := by
  simp [Tlvs.merge]

theorem shift_malformedTlv (k offset : ℕ) :
    malformedTlv (k + offset) = (malformedTlv offset).shift k := rfl

/-- An SSL value further on: its errors move with it. -/
theorem parseSsl_relocate {value : List UInt8} (hlen : 5 ≤ value.length) {k outerOffset : ℕ}
    (hoff : k + outerOffset + value.length ≤ Outcome.usizeMax) :
    parseSsl value (k + outerOffset) =
      (parseSsl value outerOffset).bimap (ParseError.shift k) id := by
  match value with
  | [] | [_] | [_, _] | [_, _, _] | [_, _, _, _] => simp at hlen
  | c :: v0 :: v1 :: v2 :: v3 :: sub =>
      simp only [List.length_cons] at hoff
      simp only [parseSsl, Outcome.index_zero, Outcome.index_succ, Outcome.ok_bind]
      rw [Outcome.sliceFrom_of_le (by simp), Outcome.ok_bind, Outcome.ok_bind,
        Outcome.add_of_le (by omega), Outcome.add_of_le (by omega), Outcome.ok_bind,
        Outcome.ok_bind, Nat.add_assoc]
      exact tlvLoop_relocate malformedTlv (f := id) (shift_malformedTlv k) (fun _ _ _ _ => rfl) _
        (outerOffset + 5) _ (by simp only [List.drop_succ_cons, List.drop_zero]; omega)

/-- One TLV further on, behind others. -/
theorem visitTlv_relocate (front : Tlvs) {k offset : ℕ} (r : Record) (tlvs : Tlvs)
    (hoff : k + offset + size r ≤ Outcome.usizeMax) :
    visitTlv (k + offset) r (front.merge tlvs) =
      (visitTlv offset r tlvs).bimap (ParseError.shift k) front.merge := by
  rcases r with ⟨ty, value⟩
  simp only [size] at hoff
  simp only [visitTlv]
  split
  · simp [Outcome.bimap, Tlvs.merge]
  · simp [Outcome.bimap, Tlvs.merge]
  · split
    · rfl
    · rename_i hlen
      rw [Octets.tryFrom_of_length (not_not.mp hlen)]
      simp [Outcome.unwrap, Outcome.bimap, Tlvs.merge]
  · simp [Outcome.bimap, Tlvs.merge]
  · split
    · rfl
    · simp [Outcome.bimap, Tlvs.merge]
  · split
    · rfl
    · rename_i hlen
      rw [Outcome.add_of_le (by omega), Outcome.add_of_le (by omega), Outcome.ok_bind,
        Outcome.ok_bind, Nat.add_assoc, parseSsl_relocate (Nat.not_lt.mp hlen) (by omega)]
      refine Outcome.bimap_bind ?_
      intro ssl _
      simp [Outcome.bimap, Tlvs.merge]
  · simp [Outcome.bimap, Tlvs.merge]
  · simp [Outcome.bimap, Tlvs.merge]

/-- `parse_tlvs` of two regions, one behind the other, of which the first is
accepted: the result for the second, with its entries behind those of the
first, its fields in place of theirs, and its errors moved by the length of
the first. -/
theorem parse_tlvs_append {a : List UInt8} {front : Tlvs} (ha : parseTlvs a = .ok front)
    (b : List UInt8) (hmax : (a ++ b).length ≤ Outcome.usizeMax) :
    parseTlvs (a ++ b) = (parseTlvs b).bimap (ParseError.shift a.length) front.merge := by
  rcases of_parseTlvs ha with ⟨rs, rfl, hrs, rfl⟩
  rw [List.length_append] at hmax
  have hall : visitAll visitTlv rs 0 {} = .ok ((encodeAll rs).length, collect rs) := by
    have h := visitAll_eq_ok (f := record)
      (fun r hr _ tlvs hoff => visitTlv_of_accepted (hrs r hr).2 tlvs hoff) 0 {} (by omega)
    rwa [Nat.zero_add] at h
  rw [parseTlvs, tlvLoop_append malformedTlv (fun r hr => (hrs r hr).1) hall, parseTlvs]
  have hmove := tlvLoop_relocate malformedTlv (f := (collect rs).merge)
    (shift_malformedTlv (encodeAll rs).length) (fun r _ tlvs => visitTlv_relocate _ r tlvs) b 0 {}
    (by omega)
  rwa [Nat.add_zero, merge_empty] at hmove

/-- Behind a protocol name: another one, which replaces it, and an SSL value
whose sub-TLV is cut off, six bytes further on than it is alone. -/
theorem parse_tlvs_append_name :
    let name : List UInt8 := [0x01, 0, 3, 0x66, 0x6F, 0x6F]
    parseTlvs (name ++ [0x01, 0, 1, 0x68]) =
        .ok { alpn := some [0x68], raw := [(0x01, [0x66, 0x6F, 0x6F]), (0x01, [0x68])] } ∧
      parseTlvs (name ++ [0x20, 0, 7, 1, 0, 0, 0, 0, 0x21, 0]) =
        .err (.invalid (.malformedTlv 14)) := by
  intro name
  have hname : parseTlvs name =
      .ok { alpn := some [0x66, 0x6F, 0x6F], raw := [(0x01, [0x66, 0x6F, 0x6F])] } := by decide
  rw [parse_tlvs_append hname _ (by decide), parse_tlvs_append hname _ (by decide)]
  decide

end ProxyProtocol
