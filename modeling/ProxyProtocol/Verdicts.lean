import Mathlib.Data.List.TakeWhile
import ProxyProtocol.Format

/-! # What every verdict satisfies

Two properties of `parse` that hold whatever the bytes are.

* `parse_returns`: there is a verdict. No index or slice is out of range, no
  sum overflows, and every loop ends.
* `parse_consistent`: the data of an accepted header fits together. Transport,
  source and destination come all or none, and the addresses are of the family
  that the transport names.
-/

namespace ProxyProtocol

open Wire Wire.Record

/-! ## There is a verdict -/

theorem v1Fields_endsIn (parts : List Str) : (v1Fields parts).EndsIn ParseError.IsInvalid := by
  have hfamily : ∀ transport, (v1Family transport).EndsIn ParseError.IsInvalid := by
    intro transport
    unfold v1Family
    split
    · exact trivial
    · split
      · exact trivial
      · exact ⟨_, rfl⟩
  have hcheck : ∀ family text ip, (checkFamily family text ip).EndsIn ParseError.IsInvalid := by
    intro family text ip
    unfold checkFamily
    split
    · exact trivial
    · exact trivial
    · exact ⟨_, rfl⟩
  unfold v1Fields
  -- every step that can fail is an `ok_or`, a comparison or a parse with an error
  refine Outcome.EndsIn.bind (Outcome.endsIn_okOr ⟨_, rfl⟩ _) fun transport _ => ?_
  refine Outcome.EndsIn.bind (Outcome.endsIn_okOr ⟨_, rfl⟩ _) fun srcIp _ => ?_
  refine Outcome.EndsIn.bind (Outcome.endsIn_okOr ⟨_, rfl⟩ _) fun dstIp _ => ?_
  refine Outcome.EndsIn.bind (Outcome.endsIn_okOr ⟨_, rfl⟩ _) fun srcPort _ => ?_
  refine Outcome.EndsIn.bind (Outcome.endsIn_okOr ⟨_, rfl⟩ _) fun dstPort _ => ?_
  split
  · exact ⟨_, rfl⟩
  · refine Outcome.EndsIn.bind (hfamily _) fun _ _ => ?_
    refine Outcome.EndsIn.bind (Outcome.endsIn_okOr ⟨_, rfl⟩ _) fun _ _ => ?_
    refine Outcome.EndsIn.bind (Outcome.endsIn_okOr ⟨_, rfl⟩ _) fun _ _ => ?_
    refine Outcome.EndsIn.bind (hcheck _ _ _) fun _ _ => ?_
    refine Outcome.EndsIn.bind (hcheck _ _ _) fun _ _ => ?_
    refine Outcome.EndsIn.bind (Outcome.endsIn_okOr ⟨_, rfl⟩ _) fun _ _ => ?_
    exact Outcome.EndsIn.bind (Outcome.endsIn_okOr ⟨_, rfl⟩ _) fun _ _ => trivial

/-- Whatever is wrong with a line, it is not that bytes are missing. -/
theorem parseV1Line_endsIn (line : Str) : (parseV1Line line).EndsIn ParseError.IsInvalid := by
  unfold parseV1Line
  split
  · exact trivial
  · exact v1Fields_endsIn _

/-- Bytes are missing only while the line may still be short enough. -/
theorem parseV1_endsIn (buf : List UInt8) :
    (parseV1 buf).EndsIn fun e =>
      e = .incomplete ∧ buf.length < v1MaxLen ∨ ParseError.IsInvalid e := by
  rw [parseV1_eq]
  split
  · split
    · rename_i hlt
      exact .inl ⟨rfl, hlt⟩
    · exact .inr ⟨_, rfl⟩
  · have hline : ∀ line, (parseV1Line line).EndsIn fun e =>
        e = .incomplete ∧ buf.length < v1MaxLen ∨ ParseError.IsInvalid e :=
      fun line => (parseV1Line_endsIn line).mono fun _ => Or.inr
    refine Outcome.EndsIn.bind ?_ fun _ _ => trivial
    exact Outcome.EndsIn.bind (Outcome.endsIn_okOr (.inr ⟨_, rfl⟩) _) fun line _ => hline line

theorem gated_returns {signature : List UInt8}
    {inner : List UInt8 → ParseResult (ProxyInfo × ℕ)} {buf : List UInt8}
    (h : (inner buf).Returns) : (gated signature inner buf).Returns := by
  unfold gated
  split
  · exact trivial
  · split
    · exact h
    · exact trivial

theorem parse_returns (C : Crc32c) (buf : List UInt8) : (parse C buf).Returns := by
  refine parse_cases C (motive := fun _ r => r.Returns) ?_ ?_ ?_ ?_ buf
  · exact trivial
  · intro rest
    exact gated_returns (parseV2_endsIn C _).returns
  · intro rest
    exact gated_returns (parseV1_endsIn _).returns
  · intro b rest
    exact trivial

/-- The parser never panics and never loops: `parse` and the two version
parsers on every buffer, address blocks and path fields of any length, and
what they call on any slice that can exist. `parse_ssl` relies on the five
bytes that its caller has checked for. -/
theorem parse_never_panics (C : Crc32c) (buf : List UInt8) :
    (parse C buf).Returns ∧ (parseV1 buf).Returns ∧ (parseV2 C buf).Returns ∧
    (∀ familyNibble protoNibble, (parseV2Addresses familyNibble protoNibble buf).Returns) ∧
    (extractUnixPath buf).Returns ∧
    (buf.length ≤ Outcome.isizeMax → (parseTlvs buf).Returns) ∧
    (5 ≤ buf.length → buf.length ≤ Outcome.isizeMax → ∀ outerOffset ≤ Outcome.isizeMax,
      (parseSsl buf outerOffset).Returns) ∧
    (∀ totalLen tlvStart, totalLen ≤ buf.length → totalLen ≤ Outcome.isizeMax →
      tlvStart ≤ Outcome.isizeMax → (computeCrc32c C buf totalLen tlvStart).Returns) := by
  have hisize : Outcome.isizeMax = 9223372036854775807 := rfl
  have husize : Outcome.usizeMax = 18446744073709551615 := rfl
  refine ⟨parse_returns C buf, (parseV1_endsIn buf).returns, (parseV2_endsIn C buf).returns,
    ?_, ?_, ?_, ?_, ?_⟩
  · intro familyNibble protoNibble
    exact (parseV2Addresses_endsIn familyNibble protoNibble buf).returns
  · rw [extractUnixPath_eq]
    exact trivial
  · intro hlen
    exact (parseTlvs_endsIn (by omega)).returns
  · intro hfive hlen outerOffset hoff
    exact (parseSsl_endsIn hfive (by omega)).returns
  · intro totalLen tlvStart hle hsmall hstart
    rcases exists_computeCrc32c C hle hsmall hstart with ⟨crc, hcrc⟩
    rw [hcrc]
    exact trivial

/-- A header cut off inside an SSL value, and the SSL value alone. -/
theorem parse_never_panics_cut :
    (parse .castagnoli (v2Signature ++ [0x20, 0x00, 0x00, 0x04, 0x20, 0x00, 0x05, 0x01])).Returns ∧
      (parseTlvs [0x20, 0x00, 0x05, 0x01]).Returns ∧
      (parseSsl [0x01, 0, 0, 0, 0, 0x21] 3).Returns := by
  have hbuf := parse_never_panics .castagnoli
    (v2Signature ++ [0x20, 0x00, 0x00, 0x04, 0x20, 0x00, 0x05, 0x01])
  have htlvs := parse_never_panics .castagnoli [0x20, 0x00, 0x05, 0x01]
  have hssl := parse_never_panics .castagnoli [0x01, 0, 0, 0, 0, 0x21]
  exact ⟨hbuf.1, htlvs.2.2.2.2.2.1 (by decide),
    hssl.2.2.2.2.2.2.1 (by decide) (by decide) 3 (by decide)⟩

/-! ## Accepted headers are consistent -/

/-- An address that a header of a family can carry. -/
def ProxyAddress.IsOf : AddressFamily → ProxyAddress → Prop
  | .inet, .inet (.v4 _ _) => True
  | .inet6, .inet (.v6 _ _ flowinfo scopeId) => flowinfo = 0 ∧ scopeId = 0
  | .unix, .unix path => path.length ≤ 108 ∧ 0 ∉ path
  | _, _ => False

/-- Transport, source and destination: all of them and of one family, or none. -/
inductive Endpoints : Option Transport → Option ProxyAddress → Option ProxyAddress → Prop
  | absent : Endpoints none none none
  | present {transport : Transport} {source destination : ProxyAddress}
      (source_isOf : source.IsOf transport.family)
      (destination_isOf : destination.IsOf transport.family) :
      Endpoints (some transport) (some source) (some destination)

/-- The buffer starts with a v2 LOCAL header. -/
def IsLocalHeader (b : List UInt8) : Prop := v2Signature ++ [Command.local.verCmd] <+: b

/-- The `n` bytes of a v1 header are an `UNKNOWN` line and its line end. -/
def IsUnknownHeader (b : List UInt8) (n : ℕ) : Prop :=
  ∃ line, IsUnknownLine line ∧ b.take n = line ++ crlf

/-- What the data of a header of `n` bytes at the start of `b` satisfies. -/
structure Consistent (b : List UInt8) (info : ProxyInfo) (n : ℕ) : Prop where
  endpoints : Endpoints info.transport info.source info.destination
  absent_iff : info.transport = none ↔
    info.version = .v2 ∧ IsLocalHeader b ∨ info.version = .v1 ∧ IsUnknownHeader b n
  local_iff : info.command = .local ↔ info.version = .v2 ∧ IsLocalHeader b
  v1 : info.version = .v1 →
    info.command = .proxy ∧ (∀ t, info.transport = some t → t.protocol = .stream) ∧
      info.tlvs = {}
  uniqueId : ∀ id, info.tlvs.uniqueId = some id → id.length ≤ 128
  raw : info.version = .v2 → 16 + totalSize info.tlvs.raw ≤ n

theorem isOf_new (ip : IpAddr) (port : UInt16) :
    (ProxyAddress.inet (SocketAddr.new ip port)).IsOf ip.family := by
  cases ip with
  | v4 addr => exact trivial
  | v6 addr => exact ⟨rfl, rfl⟩

theorem isOf_unixPath (field : Octets 108) :
    (ProxyAddress.unix (unixPath field.bytes)).IsOf .unix := by
  refine ⟨?_, ?_⟩
  · have hle := (List.takeWhile_sublist (· != 0) (l := field.bytes)).length_le
    rwa [field.length_eq] at hle
  · intro hmem
    have hne := List.mem_takeWhile_imp hmem
    simp at hne

theorem Addresses.isOf (a : Addresses) :
    a.source.IsOf a.family ∧ a.destination.IsOf a.family := by
  cases a with
  | inet src dst srcPort dstPort => exact ⟨isOf_new (.v4 src) srcPort, isOf_new (.v4 dst) dstPort⟩
  | inet6 src dst srcPort dstPort => exact ⟨isOf_new (.v6 src) srcPort, isOf_new (.v6 dst) dstPort⟩
  | unix src dst => exact ⟨isOf_unixPath src, isOf_unixPath dst⟩

theorem Target.endpoints (t : Target) : Endpoints t.transport t.source t.destination := by
  rcases t with famProto | ⟨a, p⟩
  · exact .absent
  · exact .present a.isOf.1 a.isOf.2

theorem Target.transport_eq_none {t : Target} : t.transport = none ↔ t.command = .local := by
  rcases t with famProto | ⟨a, p⟩
  · simp [transport, command]
  · simp [transport, command]

/-- What every TLV region that was read satisfies. -/
theorem ReadsTlvs.bounds {command : Command} {region : List UInt8} {tlvs : Tlvs}
    (h : ReadsTlvs command region tlvs) :
    (∀ id, tlvs.uniqueId = some id → id.length ≤ 128) ∧ totalSize tlvs.raw ≤ region.length := by
  rcases h with hparse | ⟨-, -, rfl⟩
  · rcases of_parseTlvs hparse with ⟨rs, rfl, hrs, rfl⟩
    refine ⟨?_, ?_⟩
    · intro id hid
      rw [collect_eq] at hid
      exact (hrs _ (mem_of_lastOf hid)).2.uniqueId rfl
    · rw [raw_collect, length_encodeAll]
  · exact ⟨nofun, Nat.zero_le _⟩

theorem parseV1_consistent {b : List UInt8} {info : ProxyInfo} {n : ℕ}
    (hproxy : v1Signature <+: b) (h : parseV1 b = .ok (info, n)) : Consistent b info n := by
  rcases (parseV1_eq_ok hproxy).mp h with ⟨line, rest, rfl, hcrlf, rfl, -, -, hsays⟩
  have htake : (line ++ (crlf ++ rest)).take (line.length + 2) = line ++ crlf := by
    rw [List.take_length_add_append]
    rfl
  rcases hsays with ⟨hunknown, rfl⟩ | ⟨src, dst, hline, rfl⟩
  · exact {
      endpoints := .absent
      absent_iff := ⟨fun _ => .inr ⟨rfl, line, hunknown, htake⟩, fun _ => rfl⟩
      local_iff := by simp [unknownInfo]
      v1 := fun _ => ⟨rfl, nofun, rfl⟩
      uniqueId := nofun
      raw := nofun }
  · have habsent : ¬ IsUnknownHeader (line ++ (crlf ++ rest)) (line.length + 2) := by
      rintro ⟨line', hunknown, heq⟩
      rw [htake, List.append_cancel_right_eq] at heq
      subst heq
      exact not_isUnknownLine hline hunknown
    exact {
      endpoints := by
        cases hline with
        | @intro _ _ _ _ srcIp dstIp sp dp _ hkeyword =>
            refine .present ?_ ?_
            · simpa using isOf_new srcIp sp
            · have hdst := isOf_new dstIp dp
              rw [← keyword_eq_iff.mp hkeyword] at hdst
              simpa using hdst
      absent_iff := by simp [tcpInfo, habsent]
      local_iff := by simp [tcpInfo]
      v1 := fun _ => ⟨rfl, by simp [tcpInfo], rfl⟩
      uniqueId := nofun
      raw := nofun }

theorem parseV2_consistent {C : Crc32c} {b : List UInt8} {info : ProxyInfo} {n : ℕ}
    (hsig : b.take 12 = v2Signature) (h : parseV2 C b = .ok (info, n)) : Consistent b info n := by
  rcases Outcome.bind_eq_ok.mp h with ⟨⟨info', n', off⟩, hstructure, hrest⟩
  rcases Outcome.bind_eq_ok.mp hrest with ⟨_, -, hok⟩
  cases hok
  rcases of_v2Structure hstructure with
      ⟨sig, t, region, extra, hsig12, -, hbuf, hreads, hinfo, rfl, -⟩
  rcases hreads.bounds with ⟨hid, hraw⟩
  have hlocal : IsLocalHeader b ↔ t.command = .local := by
    rw [hbuf, List.append_assoc, ← hsig12, List.take_left] at hsig
    rw [hbuf, hsig, IsLocalHeader, List.append_assoc, List.prefix_append_right_inj,
      List.cons_append, List.cons_prefix_cons]
    rcases t.command with _ | _ <;> simp [Command.verCmd]
  rw [hinfo]
  exact {
    endpoints := t.endpoints
    absent_iff := by simp [hlocal, Target.transport_eq_none]
    local_iff := by simp [hlocal]
    v1 := nofun
    uniqueId := hid
    raw := by
      intro _
      simp only [List.length_append]
      omega }

/-- Every accepted header has consistent data. -/
theorem parse_consistent {C : Crc32c} {b : List UInt8} {info : ProxyInfo} {n : ℕ}
    (h : parse C b = .ok (info, n)) : Consistent b info n := by
  rcases of_parse h with ⟨hsig, hparse⟩ | ⟨hproxy, hparse⟩
  · exact parseV2_consistent hsig hparse
  · exact parseV1_consistent hproxy hparse

/-- A v1 line with IPv6 addresses. -/
theorem parse_consistent_tcp6 :
    Consistent
      (v1Signature ++ [0x54, 0x43, 0x50, 0x36, 0x20, 0x3A, 0x3A, 0x31, 0x20, 0x3A, 0x3A, 0x32, 0x20,
        0x38, 0x30, 0x20, 0x34, 0x34, 0x33, 0x0D, 0x0A])
      (tcpInfo
        (.v6 ⟨⟨[0, 0, 0, 0, 0, 0, 0, 0, 0, 0, 0, 0, 0, 0, 0, 1], rfl⟩⟩ 80 0 0)
        (.v6 ⟨⟨[0, 0, 0, 0, 0, 0, 0, 0, 0, 0, 0, 0, 0, 0, 0, 2], rfl⟩⟩ 443 0 0)) 27 :=
  @parse_consistent .castagnoli _ _ _ (by decide +kernel)

end ProxyProtocol
