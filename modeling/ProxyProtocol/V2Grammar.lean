import ProxyProtocol.Integrity
import ProxyProtocol.TlvRegion
import ProxyProtocol.Verdicts

/-! # The grammar of v2 headers

Which buffers the v2 parser accepts, said without the parser: a command byte,
for PROXY a family and a protocol and an address block, then a concatenation of
TLVs each of which its type allows, then a checksum that matches if there is
one.

* `parseV2_grammar`: acceptance, "incomplete" and refusal, each as an iff or a
  case of this grammar.
* `local_block_ignored_iff`: what happens to the address block of a LOCAL
  header, which the parser reads as TLVs.
-/

namespace ProxyProtocol

open Wire Wire.Record

/-! ## The grammar -/

/-- The payload length of the prelude. -/
def payloadLen (b : List UInt8) : ℕ := (be16 (b.getD 14 0) (b.getD 15 0)).toNat

/-- The announced payload, as far as it is there. -/
def payloadOf (b : List UInt8) : List UInt8 := (b.drop 16).take (payloadLen b)

/-- What the type of a TLV asks of its value. -/
structure WellFormed (r : Record) : Prop where
  crc32c : r.1 = 0x03 → r.2.length = 4
  uniqueId : r.1 = 0x05 → r.2.length ≤ 128
  ssl : r.1 = 0x20 → 5 ≤ r.2.length ∧
    ∃ subs : List Record, (∀ s ∈ subs, s.Fits) ∧ r.2.drop 5 = encodeAll subs

/-- `region` is the concatenation of the complete TLVs `rs`. -/
def IsTlvList (region : List UInt8) (rs : List Record) : Prop :=
  region = encodeAll rs ∧ ∀ r ∈ rs, r.Fits ∧ WellFormed r

/-- Each checksum TLV among `rs`, which start at `tlvStart`, holds the checksum
of the header in which its own value is zero. -/
def CrcMatches (C : Crc32c) (b : List UInt8) (tlvStart : ℕ) (rs : List Record) : Prop :=
  ∀ pre value post, rs = pre ++ (0x03, value) :: post →
    value = be32Bytes (C.crc32c
      (zeroAt (b.take (16 + payloadLen b)) (tlvStart + (encodeAll pre).length + 3)))

/-- A PROXY header as far as its payload goes. -/
def ProxyGrammar (C : Crc32c) (b : List UInt8) : Prop :=
  b[12]? = some 0x21 ∧ ∃ (f : AddressFamily) (p : TransportProtocol) (rs : List Record),
    b.getD 13 0 >>> 4 = f.nibble ∧ b.getD 13 0 &&& 0x0F = p.nibble ∧
    f.blockLen ≤ payloadLen b ∧ IsTlvList ((payloadOf b).drop f.blockLen) rs ∧
    CrcMatches C b (16 + f.blockLen) rs

/-- A LOCAL header: TLVs with a matching checksum, or any other payload. -/
def LocalGrammar (C : Crc32c) (b : List UInt8) : Prop :=
  b[12]? = some 0x20 ∧
    ((¬ ∃ rs, IsTlvList (payloadOf b) rs) ∨
      ∃ rs, IsTlvList (payloadOf b) rs ∧ CrcMatches C b 16 rs)

/-- Where the TLVs start in the payload: behind the block of the announced
family, at the front for LOCAL. -/
def tlvOffsetOf (b : List UInt8) : ℕ :=
  if b[12]? = some 0x20 then 0
  else match b.getD 13 0 >>> 4 with
    | 1 => 12
    | 2 => 36
    | 3 => 216
    | _ => 0

/-- If the TLV region is a concatenation of TLVs, at most one is a checksum. -/
def AtMostOneCrc (b : List UInt8) : Prop :=
  ∀ rs, IsTlvList ((payloadOf b).drop (tlvOffsetOf b)) rs →
    (rs.filter fun r => r.1 = 0x03).length ≤ 1

/-! ## Lists of TLVs -/

theorem accepted_iff_wellFormed {r : Record} : Accepted r ↔ WellFormed r := by
  constructor
  · intro h
    refine ⟨h.crc32c, h.uniqueId, ?_⟩
    intro hty
    rcases h.ssl hty with ⟨_, c, v0, v1, v2, v3, subs, hsubs, hvalue, -⟩
    rw [hvalue]
    exact ⟨by simp, subs, hsubs, rfl⟩
  · intro h
    refine ⟨h.crc32c, h.uniqueId, ?_⟩
    intro hty
    rcases h.ssl hty with ⟨hlen, subs, hsubs, hdrop⟩
    match hvalue : r.2 with
    | [] | [_] | [_, _] | [_, _, _] | [_, _, _, _] =>
        rw [hvalue] at hlen
        simp at hlen
    | c :: v0 :: v1 :: v2 :: v3 :: rest =>
        rw [hvalue] at hdrop
        exact ⟨_, c, v0, v1, v2, v3, subs, hsubs, by rw [← hdrop]; rfl, rfl⟩

theorem IsTlvList.unique {region : List UInt8} {rs ss : List Record} (hrs : IsTlvList region rs)
    (hss : IsTlvList region ss) : ss = rs :=
  encodeAll_inj (fun r hr => (hss.2 r hr).1) (fun r hr => (hrs.2 r hr).1)
    (hss.1.symm.trans hrs.1)

/-- The TLV parser accepts the concatenations of TLVs. -/
theorem parseTlvs_eq_ok {region : List UInt8} (hlen : region.length ≤ 65535) {tlvs : Tlvs} :
    parseTlvs region = .ok tlvs ↔ ∃ rs, IsTlvList region rs ∧ tlvs = collect rs := by
  constructor
  · intro h
    rcases of_parseTlvs h with ⟨rs, hregion, hrs, htlvs⟩
    have hwell : ∀ r ∈ rs, r.Fits ∧ WellFormed r :=
      fun r hr => ⟨(hrs r hr).1, accepted_iff_wellFormed.mp (hrs r hr).2⟩
    exact ⟨rs, ⟨hregion, hwell⟩, htlvs⟩
  · rintro ⟨rs, ⟨rfl, hrs⟩, rfl⟩
    refine parseTlvs_encodeAll ?_ (by simp only [Outcome.usizeMax]; omega)
    exact fun r hr => ⟨(hrs r hr).1, accepted_iff_wellFormed.mpr (hrs r hr).2⟩

theorem exists_parseTlvs_err {region : List UInt8} (hlen : region.length ≤ 65535)
    (hno : ¬ ∃ rs, IsTlvList region rs) : ∃ e, parseTlvs region = .err e := by
  refine (parseTlvs_endsIn (by simp only [Outcome.usizeMax]; omega)).returns.exists_err ?_
  intro tlvs htlvs
  rcases (parseTlvs_eq_ok hlen).mp htlvs with ⟨rs, hrs, -⟩
  exact hno ⟨rs, hrs⟩

/-! ## Checksums -/

/-- A list with one record of a type splits at it in one way. -/
theorem eq_of_single {ty : UInt8} {rs pre post pre' post' : List Record} {v v' : List UInt8}
    (hone : (rs.filter fun r => r.1 = ty).length ≤ 1) (h : rs = pre ++ (ty, v) :: post)
    (h' : rs = pre' ++ (ty, v') :: post') : pre' = pre ∧ v' = v := by
  subst h
  rcases List.append_eq_append_iff.mp h' with ⟨a, rfl, ha⟩ | ⟨a, rfl, ha⟩
  · cases a with
    | nil => simp_all
    | cons c a =>
        -- both records would be of the type
        simp only [List.cons_append, List.cons.injEq] at ha
        simp [ha.2] at hone
        omega
  · cases a with
    | nil => simp_all
    | cons c a =>
        simp only [List.cons_append, List.cons.injEq] at ha
        simp [← ha.1] at hone
        omega

/-- The fields of the prelude, read off the bytes. -/
theorem prelude_fields (vc fp : UInt8) {payload : List UInt8} (hlen : payload.length ≤ 65535)
    (extra : List UInt8) {b : List UInt8}
    (hb : b = v2Signature ++ (vc :: fp ::
      (be16Bytes (UInt16.ofNat payload.length) ++ payload)) ++ extra) :
    b[12]? = some vc ∧ b.getD 13 0 = fp ∧ payloadLen b = payload.length ∧
      payloadOf b = payload := by
  have hfield : payloadLen b = payload.length := by
    rw [hb]
    exact toNat_length_field hlen
  refine ⟨by rw [hb]; rfl, by rw [hb]; rfl, hfield, ?_⟩
  rw [payloadOf, hfield, hb]
  exact List.take_left

theorem V2Header.fields (h : V2Header) (extra : List UInt8) :
    (h.encode ++ extra)[12]? = some h.target.command.verCmd ∧
      (h.encode ++ extra).getD 13 0 = h.target.famProto ∧
      payloadLen (h.encode ++ extra) = h.payload.length ∧
      payloadOf (h.encode ++ extra) = h.payload :=
  prelude_fields _ _ h.length_payload_le extra rfl

/-- A header with at most one checksum TLV is accepted iff that matches. -/
theorem parse_header_iff {C : Crc32c} (hC : C.Composes) {h : V2Header}
    (hone : (h.tlvs.filter fun r => r.1 = 0x03).length ≤ 1) (extra : List UInt8) :
    (∃ r, parse C (h.encode ++ extra) = .ok r) ↔
      CrcMatches C (h.encode ++ extra) h.tlvStart h.tlvs := by
  have htake : (h.encode ++ extra).take (16 + payloadLen (h.encode ++ extra)) = h.encode := by
    rw [(h.fields extra).2.2.1, ← h.length_encode, List.take_left]
  rw [parse_eq_parseV2 C (h.take_signature extra), CrcMatches, htake]
  by_cases hcrc : lastOf 0x03 h.tlvs = none
  · rw [parseV2_of_no_crc C (lastOf_eq_none.mp hcrc)]
    refine ⟨?_, fun _ => ⟨_, rfl⟩⟩
    rintro - pre value post htlvs
    exact absurd rfl (lastOf_eq_none.mp hcrc (0x03, value) (by simp [htlvs]))
  · rcases exists_first hcrc with ⟨pre, v, post, htlvs, hpre⟩
    have hlast : lastOf 0x03 h.tlvs = some v := by
      rcases Option.ne_none_iff_exists'.mp hcrc with ⟨w, hw⟩
      rcases List.append_of_mem (mem_of_lastOf hw) with ⟨pre', post', htlvs'⟩
      rw [hw, (eq_of_single hone htlvs htlvs').2]
    rcases exists_be32Bytes ((h.tlvs_ok (0x03, v) (by simp [htlvs])).2.crc32c rfl) with ⟨c, rfl⟩
    have hc : h.info.tlvs.crc32c = some c := by
      rw [h.crc32c_info, hlast, Option.bind_some, be32_tryFrom_be32Bytes]
    have hzeroed : h.zeroed =
        zeroAt h.encode (h.tlvStart + (encodeAll pre).length + 3) := by
      rw [V2Header.zeroed, htlvs, crcOffset_first hpre]
      rfl
    rw [parseV2_of_crc hC hc, hzeroed]
    constructor
    · rintro ⟨r, hr⟩ pre' value post' htlvs'
      rcases eq_of_single hone htlvs htlvs' with ⟨rfl, rfl⟩
      split at hr
      · rename_i heq
        rw [heq]
      · cases hr
    · intro hmatch
      have heq := be32_tryFrom_eq_some.mpr (hmatch pre _ post htlvs)
      rw [be32_tryFrom_be32Bytes, Option.some.injEq] at heq
      exact ⟨_, if_pos heq.symm⟩

/-! ## Acceptance -/

theorem length_payloadOf_le (b : List UInt8) : (payloadOf b).length ≤ 65535 := by
  have hle : payloadLen b ≤ 65535 := toNat_be16_le _ _
  rw [payloadOf, List.length_take]
  omega

theorem tlvOffsetOf_eq {b : List UInt8} {t : Target}
    (hcmd : b[12]? = some t.command.verCmd) (hfam : b.getD 13 0 = t.famProto) :
    tlvOffsetOf b = t.block.length := by
  unfold tlvOffsetOf
  rw [hcmd, hfam]
  rcases t with famProto | ⟨a, p⟩
  · rfl
  · rw [(nibbles_famProto a p).1, Target.block, a.length_encode]
    cases a.family <;> rfl

/-- What an accepted v2 header consists of. -/
theorem of_parse_v2 {C : Crc32c} {b : List UInt8} {info : ProxyInfo} {n : ℕ}
    (hsig : v2Signature <+: b) (h : parse C b = .ok (info, n)) :
    ∃ (t : Target) (region extra : List UInt8), (t.block ++ region).length ≤ 65535 ∧
      b = v2Signature ++ (t.command.verCmd :: t.famProto ::
        (be16Bytes (UInt16.ofNat (t.block ++ region).length) ++ (t.block ++ region))) ++ extra ∧
      ReadsTlvs t.command region info.tlvs ∧ n = 16 + (t.block ++ region).length := by
  have htake : b.take 12 = v2Signature := (List.prefix_iff_eq_take.mp hsig).symm
  rw [parse_eq_parseV2 C htake] at h
  rcases Outcome.bind_eq_ok.mp h with ⟨⟨info', n', off⟩, hstructure, hrest⟩
  rcases Outcome.bind_eq_ok.mp hrest with ⟨_, -, hok⟩
  cases hok
  rcases of_v2Structure hstructure with ⟨sig, t, region, extra, hsig12, hlen, hb, hreads, -, hn, -⟩
  have hsigEq : sig = v2Signature := by
    rw [← htake, hb, List.append_assoc, ← hsig12, List.take_left]
  rw [hsigEq] at hb
  exact ⟨t, region, extra, hlen, hb, hreads, hn⟩

theorem consumed_of_parse_v2 {C : Crc32c} {b : List UInt8} {info : ProxyInfo} {n : ℕ}
    (hsig : v2Signature <+: b) (h : parse C b = .ok (info, n)) :
    n = 16 + payloadLen b ∧ n ≤ b.length := by
  rcases of_parse_v2 hsig h with ⟨t, region, extra, hle, hb, -, hn⟩
  rw [(prelude_fields _ _ hle extra hb).2.2.1]
  exact ⟨hn, (parse_settles C).le h⟩

/-- The prelude behind the signature. -/
theorem exists_fields {b : List UInt8} (hsig : v2Signature <+: b) (hlen : 16 ≤ b.length) :
    ∃ (vc fp hi lo : UInt8) (rest : List UInt8),
      b = v2Signature ++ (vc :: fp :: hi :: lo :: rest) := by
  rcases exists_prelude hlen with ⟨sig, vc, fp, hi, lo, rest, hsig12, rfl⟩
  rw [List.prefix_iff_eq_take] at hsig
  refine ⟨vc, fp, hi, lo, rest, ?_⟩
  rw [hsig]
  exact congrArg (· ++ _) (List.take_left' hsig12).symm

/-- The fields of a prelude and a payload of TLVs make a header. -/
theorem exists_header_of_payload {b : List UInt8} (hsig : v2Signature <+: b)
    (hlen : 16 + payloadLen b ≤ b.length) {t : Target}
    (hcmd : b[12]? = some t.command.verCmd) (hfam : b.getD 13 0 = t.famProto)
    {region : List UInt8} (hpayload : payloadOf b = t.block ++ region) {rs : List Record}
    (hrs : IsTlvList region rs) :
    ∃ (h : V2Header) (extra : List UInt8), h.target = t ∧ h.tlvs = rs ∧
      b = h.encode ++ extra := by
  rcases exists_fields hsig (by omega) with ⟨vc, fp, hi, lo, rest, rfl⟩
  obtain rfl : vc = t.command.verCmd := Option.some.inj hcmd
  obtain rfl : fp = t.famProto := hfam
  change rest.take (be16 hi lo).toNat = t.block ++ region at hpayload
  change 16 + (be16 hi lo).toNat ≤ rest.length + 16 at hlen
  rcases hrs with ⟨rfl, hrs⟩
  have hsum : (be16 hi lo).toNat = (t.block ++ encodeAll rs).length := by
    rw [← hpayload, List.length_take]
    omega
  have hword : be16Bytes (UInt16.ofNat (t.block ++ encodeAll rs).length) = [hi, lo] := by
    rw [← hsum, UInt16.ofNat_toNat, be16Bytes_be16]
  refine ⟨⟨t, rs, fun r hr => ⟨(hrs r hr).1, accepted_iff_wellFormed.mpr (hrs r hr).2⟩, ?_⟩,
    rest.drop (be16 hi lo).toNat, rfl, rfl, ?_⟩
  · rw [← List.length_append, ← hsum]
    exact toNat_be16_le hi lo
  · simp only [V2Header.encode, headerBytes, hword]
    rw [← hpayload]
    simp

/-- A LOCAL header whose payload is no list of TLVs is accepted without any. -/
theorem parse_local_of_no_tlvs (C : Crc32c) {b : List UInt8} (hsig : v2Signature <+: b)
    (hlen : 16 + payloadLen b ≤ b.length) (hcmd : b[12]? = some 0x20)
    (hno : ¬ ∃ rs, IsTlvList (payloadOf b) rs) :
    parse C b = .ok (⟨.v2, .local, none, none, none, {}⟩, 16 + payloadLen b) := by
  have herr := exists_parseTlvs_err (length_payloadOf_le b) hno
  rcases exists_fields hsig (by omega) with ⟨vc, fp, hi, lo, rest, rfl⟩
  obtain rfl : vc = Command.local.verCmd := Option.some.inj hcmd
  change 16 + (be16 hi lo).toNat ≤ rest.length + 16 at hlen
  change ∃ e, parseTlvs (rest.take (be16 hi lo).toNat) = .err e at herr
  have htlvs : v2Tlvs .local (rest.take (be16 hi lo).toNat) 0 = .ok {} :=
    (@v2Tlvs_eq_ok .local [] _ _).mpr (.inr ⟨rfl, herr, rfl⟩)
  rw [parse_eq_parseV2 C rfl, parseV2_eq C rfl, v2Command_eq_ok.mpr rfl, Outcome.ok_bind,
    if_neg (by omega), v2Payload, v2Addresses]
  simp only [Outcome.ok_bind, htlvs]
  rfl

/-- For a list of TLVs behind the block of `t`, it is the checksum that decides. -/
theorem parse_payload_iff {C : Crc32c} (hC : C.Composes) {b : List UInt8}
    (hsig : v2Signature <+: b) (hone : AtMostOneCrc b) (hlen : 16 + payloadLen b ≤ b.length)
    {t : Target} {region : List UInt8} {rs : List Record}
    (hcmd : b[12]? = some t.command.verCmd) (hfam : b.getD 13 0 = t.famProto)
    (hpayload : payloadOf b = t.block ++ region) (hrs : IsTlvList region rs) :
    (∃ r, parse C b = .ok r) ↔ CrcMatches C b (16 + t.block.length) rs := by
  have hcount := hone rs (by rwa [tlvOffsetOf_eq hcmd hfam, hpayload, List.drop_left])
  rcases exists_header_of_payload hsig hlen hcmd hfam hpayload hrs with
      ⟨hdr, extra, rfl, rfl, rfl⟩
  exact parse_header_iff hC hcount extra

theorem accepts_iff {C : Crc32c} (hC : C.Composes) {b : List UInt8} (hsig : v2Signature <+: b)
    (hone : AtMostOneCrc b) :
    (∃ r, parse C b = .ok r) ↔
      16 + payloadLen b ≤ b.length ∧ (ProxyGrammar C b ∨ LocalGrammar C b) := by
  constructor
  · rintro ⟨⟨info, n⟩, h⟩
    rcases of_parse_v2 hsig h with ⟨t, region, extra, hle, hb, hreads, rfl⟩
    rcases prelude_fields _ _ hle extra hb with ⟨hcmd, hfam, hlen, hpayload⟩
    have htotal : 16 + payloadLen b ≤ b.length := hlen ▸ (parse_settles C).le h
    refine ⟨htotal, ?_⟩
    rcases hreads with hparse | ⟨hlocal, ⟨e, he⟩, -⟩
    · rcases (parseTlvs_eq_ok (by rw [List.length_append] at hle; omega)).mp hparse with
          ⟨rs, hrs, -⟩
      have hmatch := (parse_payload_iff hC hsig hone htotal hcmd hfam hpayload hrs).mp ⟨_, h⟩
      rcases t with famProto | ⟨a, p⟩
      · exact .inr ⟨hcmd, .inr ⟨rs, by rwa [hpayload], hmatch⟩⟩
      · rcases nibbles_famProto a p with ⟨hf, hp⟩
        rw [← hfam] at hf hp
        rw [Target.block, a.length_encode] at hmatch
        refine .inl ⟨hcmd, a.family, p, rs, hf, hp, ?_, ?_, hmatch⟩
        · rw [hlen, List.length_append, Target.block, a.length_encode]
          omega
        · rwa [hpayload, Target.block, ← a.length_encode, List.drop_left]
    · rcases t with famProto | ⟨a, p⟩
      · refine .inr ⟨hcmd, .inl ?_⟩
        rintro ⟨rs, hrs⟩
        rw [hpayload] at hrs
        have hok := (parseTlvs_eq_ok hle).mpr ⟨rs, hrs, rfl⟩
        cases he.symm.trans hok
      · cases hlocal
  · rintro ⟨hlen, hgrammar⟩
    have hpayloadLen : (payloadOf b).length = payloadLen b := by
      rw [payloadOf, List.length_take, List.length_drop]
      omega
    rcases hgrammar with ⟨hcmd, f, p, rs, hf, hp, hblock, hrs, hmatch⟩ |
      ⟨hcmd, hno | ⟨rs, hrs, hmatch⟩⟩
    · rcases exists_addresses (hpayloadLen ▸ hblock) with ⟨a, region, rfl, hpayload⟩
      rcases nibbles_famProto a p with ⟨hf', hp'⟩
      have hfam : b.getD 13 0 = (Target.proxy a p).famProto :=
        eq_of_nibbles (hf.trans hf'.symm) (hp.trans hp'.symm)
      rw [hpayload, ← a.length_encode, List.drop_left] at hrs
      rw [← a.length_encode] at hmatch
      exact (parse_payload_iff (t := .proxy a p) hC hsig hone hlen hcmd hfam hpayload hrs).mpr
        hmatch
    · exact ⟨_, parse_local_of_no_tlvs C hsig hlen hcmd hno⟩
    · exact (parse_payload_iff (t := .local (b.getD 13 0)) hC hsig hone hlen hcmd rfl rfl hrs).mpr
        hmatch

/-! ## Other verdicts -/

/-- More bytes are asked for until the announced ones are there. -/
theorem incomplete_iff (C : Crc32c) {b : List UInt8} (hsig : v2Signature <+: b) :
    parse C b = .err .incomplete ↔
      b.length < 16 ∨
        (b[12]? = some 0x20 ∨ b[12]? = some 0x21) ∧ b.length < 16 + payloadLen b := by
  have htake : b.take 12 = v2Signature := (List.prefix_iff_eq_take.mp hsig).symm
  rw [parse_eq_parseV2 C htake]
  by_cases hshort : b.length < 16
  · rw [parseV2_of_short C hshort]
    simp [hshort]
  · rcases exists_fields hsig (Nat.not_lt.mp hshort) with ⟨vc, fp, hi, lo, rest, rfl⟩
    have hlen : (v2Signature ++ (vc :: fp :: hi :: lo :: rest)).length = rest.length + 16 := rfl
    have hpayload : payloadLen (v2Signature ++ (vc :: fp :: hi :: lo :: rest)) =
        (be16 hi lo).toNat := rfl
    have hbyte : (v2Signature ++ (vc :: fp :: hi :: lo :: rest))[12]? = some vc := rfl
    rw [hlen, hpayload, hbyte]
    constructor
    · intro h
      rw [parseV2, Outcome.bind_eq_err] at h
      rcases h with h | ⟨⟨info, n, off⟩, hs, h⟩
      · rw [v2Structure_eq rfl, Outcome.bind_eq_err] at h
        rcases h with hcmd | ⟨command, hcmd, h⟩
        · exact absurd rfl ((v2Command_endsIn vc).of_err hcmd).ne.1
        · rw [v2Command_eq_ok.mp hcmd]
          split at h
          · refine .inr ⟨?_, by omega⟩
            rcases command with _ | _
            · exact .inl rfl
            · exact .inr rfl
          · -- the payload is there, and its errors are of another kind
            have hle := toNat_be16_le hi lo
            rcases Outcome.bind_eq_err.mp h with hpay | ⟨p, -, hok⟩
            · have hinvalid := (v2Payload_endsIn (by rw [List.length_take]; omega)).of_err hpay
              exact absurd rfl hinvalid.ne.1
            · cases hok
      · rcases Outcome.bind_eq_err.mp h with hcrc | ⟨_, -, hok⟩
        · rcases (validateCrc32c_endsIn C hs).of_err hcrc with ⟨expected, actual, hne⟩
          cases hne
        · cases hok
    · rintro (h | ⟨hcmd, h⟩)
      · omega
      · obtain ⟨command, rfl⟩ : ∃ command : Command, vc = command.verCmd := by
          rcases hcmd with hcmd | hcmd
          · exact ⟨.local, Option.some.inj hcmd⟩
          · exact ⟨.proxy, Option.some.inj hcmd⟩
        rw [parseV2_eq C rfl, v2Command_eq_ok.mpr rfl, Outcome.ok_bind, if_pos (by omega)]

/-- The v2 parser accepts exactly its grammar. -/
theorem parseV2_grammar {C : Crc32c} (hC : C.Composes) {b : List UInt8}
    (hsig : v2Signature <+: b) (hone : AtMostOneCrc b) :
    (parse C b = .err .incomplete ↔
      b.length < 16 ∨
        (b[12]? = some 0x20 ∨ b[12]? = some 0x21) ∧ b.length < 16 + payloadLen b) ∧
    (∀ n, (∃ info, parse C b = .ok (info, n)) ↔
      n = 16 + payloadLen b ∧ n ≤ b.length ∧ (ProxyGrammar C b ∨ LocalGrammar C b)) ∧
    (∀ info n, parse C b = .ok (info, n) → b[12]? = some 0x20 →
      (¬ ∃ rs, IsTlvList (payloadOf b) rs) → info.tlvs = {}) ∧
    (parse C b ≠ .err .incomplete → (∀ r, parse C b ≠ .ok r) →
      (∃ reason, parse C b = .err (.invalid reason)) ∨
        ∃ expected actual, parse C b = .err (.crcMismatch expected actual)) := by
  refine ⟨incomplete_iff C hsig, ?_, ?_, ?_⟩
  · intro n
    constructor
    · rintro ⟨info, h⟩
      rcases consumed_of_parse_v2 hsig h with ⟨hn, hle⟩
      exact ⟨hn, hle, ((accepts_iff hC hsig hone).mp ⟨_, h⟩).2⟩
    · rintro ⟨rfl, hle, hgrammar⟩
      rcases (accepts_iff hC hsig hone).mpr ⟨hle, hgrammar⟩ with ⟨⟨info, n⟩, h⟩
      exact ⟨info, by rw [h, (consumed_of_parse_v2 hsig h).1]⟩
  · intro info n h hcmd hno
    rcases consumed_of_parse_v2 hsig h with ⟨rfl, hle⟩
    rw [parse_local_of_no_tlvs C hsig hle hcmd hno, Outcome.ok.injEq, Prod.mk.injEq] at h
    rw [← h.1]
  · intro hincomplete hno
    have htake : b.take 12 = v2Signature := (List.prefix_iff_eq_take.mp hsig).symm
    rcases (parse_returns C b).exists_err hno with ⟨e, he⟩
    have hne := (parseV2_endsIn C b).of_err (by rw [← parse_eq_parseV2 C htake, he])
    cases e with
    | notProxyProtocol => exact absurd rfl hne
    | incomplete => exact absurd he hincomplete
    | invalid reason => exact .inl ⟨reason, he⟩
    | crcMismatch expected actual => exact .inr ⟨expected, actual, he⟩

theorem atMostOneCrc_of_region {b : List UInt8} {rs : List Record}
    (hregion : (payloadOf b).drop (tlvOffsetOf b) = encodeAll rs) (hfits : ∀ r ∈ rs, r.Fits)
    (hone : (rs.filter fun r => r.1 = 0x03).length ≤ 1) : AtMostOneCrc b := by
  rintro rs' ⟨hregion', hrs'⟩
  rwa [encodeAll_inj (fun r hr => (hrs' r hr).1) hfits (hregion'.symm.trans hregion)]

/-- A PROXY header with an ALPN TLV and a checksum. -/
theorem parseV2_grammar_checksum :
    let b : List UInt8 := v2Signature ++ [0x21, 0x11, 0, 24, 192, 0, 2, 1, 198, 51, 100, 7,
      220, 4, 1, 187, 0x01, 0, 2, 0x68, 0x32, 0x03, 0, 4, 215, 94, 174, 163]
    ProxyGrammar .castagnoli b ∨ LocalGrammar .castagnoli b := by
  intro b
  have hone : AtMostOneCrc b :=
    @atMostOneCrc_of_region _ [(0x01, [0x68, 0x32]), (0x03, [215, 94, 174, 163])]
      (by unfold b; decide) (by decide) (by decide)
  have h := parseV2_grammar Crc32c.castagnoli_composes ⟨_, rfl⟩ hone
  refine ((h.2.1 40).mp ⟨⟨.v2, .proxy, some ⟨.inet, .stream⟩,
    some (.inet (.v4 (.new 192 0 2 1) 56324)), some (.inet (.v4 (.new 198 51 100 7) 443)),
    { alpn := some [0x68, 0x32], crc32c := some 3613306531,
      raw := [(0x01, [0x68, 0x32]), (0x03, [215, 94, 174, 163])] }⟩, ?_⟩).2.2
  decide +kernel

/-! ## The address block of a LOCAL header -/

/-- A LOCAL header that names a family and a protocol. -/
def localHeader (f : AddressFamily) (p : TransportProtocol) (block : List UInt8) : List UInt8 :=
  v2Signature ++ (Command.local.verCmd :: ((f.nibble <<< 4) ||| p.nibble) ::
    (be16Bytes (UInt16.ofNat block.length) ++ block))

/-- No field but `raw` is set. -/
structure Untyped (tlvs : Tlvs) : Prop where
  alpn : tlvs.alpn = none
  authority : tlvs.authority = none
  crc32c : tlvs.crc32c = none
  uniqueId : tlvs.uniqueId = none
  netns : tlvs.netns = none
  ssl : tlvs.ssl = none

/-- The data of a header from which no address was taken. -/
structure SaysNothing (info : ProxyInfo) : Prop where
  command : info.command = .local
  transport : info.transport = none
  source : info.source = none
  destination : info.destination = none
  tlvs : Untyped info.tlvs

theorem untyped_collect_iff {rs : List Record} (hrs : ∀ r ∈ rs, r.Fits ∧ Accepted r)
    (hmax : (encodeAll rs).length ≤ Outcome.usizeMax) :
    Untyped (collect rs) ↔ ∀ r ∈ rs, r.1 ∉ typedTlvs := by
  have hf := followsRaw_collect hrs hmax
  constructor
  · intro h r hr hty
    simp only [typedTlvs, List.mem_cons, List.not_mem_nil, or_false] at hty
    rcases hty with hty | hty | hty | hty | hty | hty
    · exact hf.alpn.1.mp h.alpn r hr hty
    · exact hf.authority.1.mp h.authority r hr hty
    · exact hf.crc32c.1.mp h.crc32c r hr hty
    · exact hf.uniqueId.1.mp h.uniqueId r hr hty
    · exact hf.ssl.1.mp h.ssl r hr hty
    · exact hf.netns.1.mp h.netns r hr hty
  · intro h
    have hno : ∀ ty ∈ typedTlvs, ∀ r ∈ rs, r.1 ≠ ty := by
      rintro ty hty r hr rfl
      exact h r hr hty
    exact {
      alpn := hf.alpn.1.mpr (hno 0x01 (by decide))
      authority := hf.authority.1.mpr (hno 0x02 (by decide))
      crc32c := hf.crc32c.1.mpr (hno 0x03 (by decide))
      uniqueId := hf.uniqueId.1.mpr (hno 0x05 (by decide))
      netns := hf.netns.1.mpr (hno 0x30 (by decide))
      ssl := hf.ssl.1.mpr (hno 0x20 (by decide)) }

/-- A LOCAL header with TLVs says nothing iff none of them sets a field. -/
theorem saysNothing_iff (C : Crc32c) {h : V2Header} {famProto : UInt8}
    (htarget : h.target = .local famProto) (extra : List UInt8) :
    (∃ info, parse C (h.encode ++ extra) = .ok (info, h.encode.length) ∧ SaysNothing info) ↔
      ∀ r ∈ h.tlvs, r.1 ∉ typedTlvs := by
  have huntyped : Untyped h.info.tlvs ↔ ∀ r ∈ h.tlvs, r.1 ∉ typedTlvs := by
    refine untyped_collect_iff h.tlvs_ok ?_
    have := h.length_le
    simp only [Outcome.usizeMax]
    omega
  rw [parse_eq_parseV2 C (h.take_signature extra)]
  constructor
  · rintro ⟨info, hparse, hnothing⟩
    rw [parseV2_encode] at hparse
    rcases Outcome.bind_eq_ok.mp hparse with ⟨_, -, hok⟩
    rw [Outcome.ok.injEq, Prod.mk.injEq] at hok
    rw [← hok.1] at hnothing
    exact huntyped.mp hnothing.tlvs
  · intro hno
    -- without a checksum among them nothing is left to fail
    have hcrc : ∀ r ∈ h.tlvs, r.1 ≠ 0x03 := by
      intro r hr hty
      exact hno r hr (by rw [hty]; decide)
    refine ⟨h.info, parseV2_of_no_crc C hcrc extra, ?_⟩
    refine ⟨?_, ?_, ?_, ?_, huntyped.mpr hno⟩ <;> simp only [V2Header.info, htarget] <;> rfl

/-- The block of a LOCAL header goes through the TLV parser. It is ignored
unless it happens to be a list of TLVs one of which sets a field. -/
theorem local_block_ignored_iff (C : Crc32c) (f : AddressFamily) (p : TransportProtocol)
    {block : List UInt8} (hblock : block.length = f.blockLen) (rest : List UInt8) :
    (∃ info, parse C (localHeader f p block ++ rest) = .ok (info, 16 + block.length) ∧
        SaysNothing info) ↔
      ¬ ∃ rs, IsTlvList block rs ∧ ∃ r ∈ rs, r.1 ∈ typedTlvs := by
  have hsmall : block.length ≤ 65535 := by
    rw [hblock]
    cases f <;> decide
  generalize hb : localHeader f p block ++ rest = b
  have hsig : v2Signature <+: b := hb ▸ ⟨_, by rw [localHeader, List.append_assoc]⟩
  rcases prelude_fields _ _ hsmall rest hb.symm with ⟨hcmd, hfam, hlen, hpayload⟩
  have htotal : 16 + payloadLen b ≤ b.length := by
    rw [hlen, ← hb]
    simp [localHeader, v2Signature]
    omega
  by_cases hlist : ∃ rs, IsTlvList block rs
  · rcases hlist with ⟨rs, hrs⟩
    have hunique : (∃ ss, IsTlvList block ss ∧ ∃ r ∈ ss, r.1 ∈ typedTlvs) ↔
        ∃ r ∈ rs, r.1 ∈ typedTlvs := by
      constructor
      · rintro ⟨ss, hss, hr⟩
        rwa [hrs.unique hss] at hr
      · intro hr
        exact ⟨rs, hrs, hr⟩
    rcases exists_header_of_payload (t := .local ((f.nibble <<< 4) ||| p.nibble)) hsig htotal hcmd
        hfam hpayload hrs with ⟨hdr, extra, htarget, rfl, rfl⟩
    rw [hunique, ← hlen, (hdr.fields extra).2.2.1, ← hdr.length_encode,
      saysNothing_iff C htarget extra]
    push Not
    rfl
  · constructor
    · rintro - ⟨rs, hrs, -⟩
      exact hlist ⟨rs, hrs⟩
    · intro _
      rw [← hpayload] at hlist
      rw [← hlen]
      exact ⟨_, parse_local_of_no_tlvs C hsig htotal hcmd hlist, rfl, rfl, rfl, rfl,
        ⟨rfl, rfl, rfl, rfl, rfl, rfl⟩⟩

/-- The block of 0.0.0.0:0 to 0.0.0.0:0 is ignored: it is a list of TLVs, all
of type zero. -/
theorem local_block_ignored_zero :
    ¬ ∃ rs, IsTlvList (List.replicate 12 0) rs ∧ ∃ r ∈ rs, r.1 ∈ typedTlvs :=
  (local_block_ignored_iff .castagnoli .inet .stream rfl []).mp
    ⟨⟨.v2, .local, none, none, none, { raw := List.replicate 4 (0, []) }⟩, by decide +kernel,
      rfl, rfl, rfl, rfl, ⟨rfl, rfl, rfl, rfl, rfl, rfl⟩⟩

/-- The block of a connection from 1.0.9.192 reads as an ALPN TLV. -/
theorem local_block_sets_alpn :
    let block : List UInt8 := [1, 0, 9, 192, 198, 51, 100, 7, 220, 4, 1, 187]
    block.length = AddressFamily.inet.blockLen ∧
      parse .castagnoli (localHeader .inet .stream block) =
        .ok (⟨.v2, .local, none, none, none,
          { alpn := some [192, 198, 51, 100, 7, 220, 4, 1, 187],
            raw := [(0x01, [192, 198, 51, 100, 7, 220, 4, 1, 187])] }⟩, 28) := by
  decide +kernel

end ProxyProtocol
