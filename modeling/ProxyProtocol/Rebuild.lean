import ProxyProtocol.Sender

/-! # Building again what was read

What a receiver was told can be told again: from every header that the parser
accepts, of either version, for IP addresses, Unix paths or no addresses at all,
the builder makes a header that says the same.

The bytes may differ. A v1 line may write its ports with zeros in front, a Unix
path may be followed by anything behind its NUL, and a LOCAL header has a byte
and perhaps a payload that mean nothing; so a checksum that was read cannot be
passed on, and is left out or made anew.

* `rebuild_says_same`: the header that is built again, what it says, and that
  building it once more gives the same bytes.
-/

namespace ProxyProtocol

open Wire Wire.Record

/-! ## The calls -/

namespace ProxyInfo

/-- The constructor for what was read. -/
def constructor (info : ProxyInfo) : Constructor :=
  match info.version, info.source, info.destination with
  | .v1, some (.inet source), some (.inet destination) => .v1Proxy source destination
  | .v1, _, _ => .v1Unknown
  | .v2, some (.inet source), some (.inet destination) => .v2 (.proxy source destination)
  | .v2, some (.unix source), some (.unix destination) => .v2 (.unix source destination .stream)
  | .v2, _, _ => .v2 .local

/-- The TLVs without checksums. -/
def unchecked (info : ProxyInfo) : List Record := info.tlvs.raw.filter fun r => r.1 != 0x03

/-- The calls for what was read. -/
def calls (info : ProxyInfo) (checksum : Bool) : List WithCall :=
  (info.transport.map fun t => WithCall.transportProtocol t.protocol).toList ++
    (info.unchecked.map WithCall.ofRecord ++ if checksum then [.crc32c] else [])

def rebuild (C : Crc32c) (info : ProxyInfo) (checksum : Bool) : BuildResult (List UInt8) :=
  info.constructor.run >>= applyAll (info.calls checksum) >>= HeaderBuilder.build C

/-- What a header says that was built again: the same, but for the checksums. -/
def rebuilt (C : Crc32c) (info : ProxyInfo) (checksum : Bool) (header : List UInt8) : ProxyInfo :=
  { info with
    tlvs := collect (info.unchecked ++ if checksum then
      [(0x03, be32Bytes (C.crc32c (patch header (header.length - 4) [0, 0, 0, 0])))] else []) }

end ProxyInfo

/-- The calls are the same for a header that was built again. -/
theorem rebuild_rebuilt (C : Crc32c) (info : ProxyInfo) (checksum : Bool) (header : List UInt8) :
    (info.rebuilt C checksum header).rebuild C checksum = info.rebuild C checksum := by
  have hunchecked : (info.rebuilt C checksum header).unchecked = info.unchecked := by
    simp only [ProxyInfo.rebuilt, ProxyInfo.unchecked, raw_collect, List.filter_append,
      List.filter_filter, Bool.and_self]
    cases checksum <;> simp
  rw [ProxyInfo.rebuild, ProxyInfo.calls, hunchecked]
  rfl

/-! ## v2 -/

theorem applyAll_append (xs ys : List WithCall) (b : HeaderBuilder) :
    applyAll (xs ++ ys) b = applyAll xs b >>= applyAll ys := by
  induction xs generalizing b with
  | nil => rfl
  | cons x xs ih =>
      simp only [List.cons_append, applyAll, bind_assoc]
      congr 1
      funext b'
      exact ih b'

/-- The calls behind the first one, on a fresh builder. -/
theorem applyAll_unchecked {b : HeaderBuilder} (rs : List Record) (checksum : Bool)
    (hnil : b.tlvEntries = []) (hno : b.addCrc32c = false) :
    applyAll (rs.map WithCall.ofRecord ++ if checksum then [.crc32c] else []) b =
      .ok { b with tlvEntries := rs, addCrc32c := checksum } := by
  rw [applyAll_append, applyAll_ofRecord, Outcome.ok_bind, hnil, List.nil_append]
  cases checksum with
  | false =>
      simp only [Bool.false_eq_true, if_false, applyAll, Outcome.ok.injEq]
      rw [← hno]
  | true => rfl

/-- Two targets that say the same and have blocks of one length. -/
structure Alike (t t' : Target) : Prop where
  command : t.command = t'.command
  transport : t.transport = t'.transport
  source : t.source = t'.source
  destination : t.destination = t'.destination
  length : t.block.length = t'.block.length

theorem Alike.refl (t : Target) : Alike t t := ⟨rfl, rfl, rfl, rfl, rfl⟩

/-- A Unix path that was read has no NUL, so all of it arrives again. -/
theorem unixPath_idem {field : List UInt8} (h : field.length = 108) :
    unixPath ((unixPath field).take 108) = unixPath field := by
  have hfront : unixPath field <+: field := List.takeWhile_prefix _
  have hle : (unixPath field).length ≤ 108 := h ▸ hfront.length_le
  rw [List.take_of_length_le hle, unixPath, unixPath, List.takeWhile_takeWhile]
  simp only [and_self, Bool.decide_eq_true]

/-- The protocol, the TLVs and the checksum do not change whom a builder is
about. -/
theorem Describes.update {b : HeaderBuilder} {a : Addresses} {q : TransportProtocol}
    (hd : Describes b (.proxy a q)) (p : TransportProtocol) (rs : List Record) (checksum : Bool) :
    Describes { b.withTransportProtocol p with tlvEntries := rs, addCrc32c := checksum }
      (.proxy a p) := by
  refine ⟨hd.version, hd.command, ?_, ?_, hd.block⟩
  · simp [HeaderBuilder.withTransportProtocol, hd.transport, Target.transport]
  · simp only [HeaderBuilder.famProto, HeaderBuilder.withTransportProtocol, hd.transport,
      Target.transport, Option.map_some, Target.famProto]
    cases a.family <;> cases p <;> rfl

/-- A builder for what a header says. -/
structure Rebuilds (b : HeaderBuilder) (t : Target) (hdr : V2Header) (checksum : Bool) :
    Prop where
  describes : Describes b t
  alike : Alike t hdr.target
  tlvEntries : b.tlvEntries = hdr.info.unchecked
  addCrc32c : b.addCrc32c = checksum

theorem exists_rebuilds (hdr : V2Header) (checksum : Bool) :
    ∃ b t, (hdr.info.constructor.run >>= applyAll (hdr.info.calls checksum)) = .ok b ∧
      Rebuilds b t hdr checksum := by
  -- a builder for the addresses, and then the calls
  have hproxy : ∀ {c : V2Constructor} {b : HeaderBuilder} {a : Addresses} {p q : TransportProtocol},
      hdr.info.constructor = .v2 c → c.run = .ok b → Describes b (.proxy a q) →
      hdr.info.transport = some ⟨a.family, p⟩ → Alike (.proxy a p) hdr.target →
      ∃ b t, (hdr.info.constructor.run >>= applyAll (hdr.info.calls checksum)) = .ok b ∧
        Rebuilds b t hdr checksum := by
    intro c b a p q hc hrun hd htransport halike
    rcases fresh_of_run hrun with ⟨hnil, hno⟩
    refine ⟨_, _, ?_, hd.update p hdr.info.unchecked checksum, halike, rfl, rfl⟩
    rw [hc, Constructor.run, hrun, Outcome.ok_bind, ProxyInfo.calls, htransport]
    exact applyAll_unchecked (b := b.withTransportProtocol p) _ _ hnil hno
  rcases hdr with ⟨famProto | ⟨a, p⟩, tlvs, tlvs_ok, length_le⟩
  · refine ⟨_, .local 0, applyAll_unchecked _ _ rfl rfl, ?_, ⟨rfl, rfl, rfl, rfl, rfl⟩, rfl, rfl⟩
    exact ⟨rfl, rfl, rfl, describes_v2Local.famProto, describes_v2Local.block⟩
  · by_cases hf : a.family = .unix
    · rcases a with _ | _ | ⟨src, dst⟩
      · cases hf
      · cases hf
      · refine hproxy rfl rfl (describes_v2Unix _ _ .stream) rfl ⟨rfl, rfl, ?_, ?_, ?_⟩
        · simp only [Target.source, Addresses.source, unixPath_unixOctets,
            unixPath_idem src.length_eq]
        · simp only [Target.destination, Addresses.destination, unixPath_unixOctets,
            unixPath_idem dst.length_eq]
        · rw [Target.block, Addresses.length_encode, Target.block, Addresses.length_encode]
          rfl
    · rcases exists_v2Proxy hf with ⟨src, dst, b, hsrc, hdst, hb, hd⟩
      refine hproxy ?_ (show (V2Constructor.proxy src dst).run = .ok b from hb) hd rfl (.refl _)
      simp only [ProxyInfo.constructor, V2Header.info, Target.source, Target.destination, hsrc,
        hdst]

/-- Every v2 header that was accepted says what some header of the format says.
A LOCAL header whose payload is no list of TLVs says what the empty one says. -/
theorem exists_header_le {C : Crc32c} {buf : List UInt8} {info : ProxyInfo} {n : ℕ}
    (hsig : buf.take 12 = v2Signature) (h : parseV2 C buf = .ok (info, n)) :
    ∃ hdr : V2Header, info = hdr.info ∧ hdr.encode.length ≤ n := by
  rcases Outcome.bind_eq_ok.mp h with ⟨⟨info', n', off⟩, hstructure, hrest⟩
  rcases Outcome.bind_eq_ok.mp hrest with ⟨_, -, hok⟩
  cases hok
  by_cases hproper : info.command = .proxy ∨ info.tlvs ≠ {}
  · rcases exists_header hsig hstructure hproper with ⟨hdr, _, -, hinfo, rfl, -⟩
    exact ⟨hdr, hinfo, Nat.le_refl _⟩
  · rcases not_or.mp hproper with ⟨hlocal, hempty⟩
    rcases of_v2Structure hstructure with ⟨_, t, _, _, -, -, -, -, hinfo, rfl, -⟩
    rw [hinfo] at hlocal
    rcases t with famProto | ⟨a, p⟩
    · refine ⟨⟨.local famProto, [], by simp, Nat.zero_le _⟩, ?_, ?_⟩
      · rw [hinfo, not_not.mp hempty]
        rfl
      · rw [V2Header.encode, length_headerBytes]
        exact Nat.add_le_add_left (Nat.zero_le _) 16
    · exact absurd rfl hlocal

/-- The checksum that is left out makes room for the one that is added. -/
theorem room_for_checksum {hdr : V2Header} {checksum : Bool}
    (hsum : checksum = true → hdr.info.tlvs.crc32c ≠ none) :
    totalSize hdr.info.unchecked + (if checksum then 7 else 0) ≤ totalSize hdr.tlvs := by
  rw [ProxyInfo.unchecked, V2Header.info, raw_collect]
  cases checksum with
  | false => exact totalSize_filter_le _ hdr.tlvs
  | true =>
      rcases exists_first (lastOf_of_crc32c (hsum rfl)) with ⟨pre, value, post, hsplit, -⟩
      have hmem : ((0x03, value) : Record) ∈ hdr.tlvs := by
        rw [hsplit]
        simp
      have hlen : value.length = 4 := (hdr.tlvs_ok _ hmem).2.crc32c rfl
      have hroom := totalSize_filter_add_le (p := fun r => r.1 != 0x03) hmem rfl
      rw [size, hlen] at hroom
      exact hroom

theorem rebuild_v2 {C : Crc32c} (hC : C.Composes) (hdr : V2Header) {checksum : Bool}
    (hsum : checksum = true → hdr.info.tlvs.crc32c ≠ none) :
    ∃ header, hdr.info.rebuild C checksum = .ok header ∧ header.length ≤ hdr.encode.length ∧
      ∀ r, parse C (header ++ r) = .ok (hdr.info.rebuilt C checksum header, header.length) := by
  rcases exists_rebuilds hdr checksum with ⟨b, t, hb, hre⟩
  have hroom := room_for_checksum hsum
  have hlen := hdr.length_le
  have hsize : t.block.length + (encodeAll (withChecksum C b.addCrc32c t b.tlvEntries)).length ≤
      hdr.target.block.length + totalSize hdr.tlvs := by
    rw [length_withChecksum, hre.alike.length, hre.tlvEntries, hre.addCrc32c]
    exact Nat.add_le_add_left hroom _
  rw [length_encodeAll] at hlen
  have hbuild : b.build C =
      .ok (headerBytes t (withChecksum C b.addCrc32c t b.tlvEntries)) := by
    rw [buildV2_of_payload hre.describes, if_pos (Nat.le_trans hsize hlen)]
  -- what is left of the TLVs was accepted before
  have hacc : ∀ q ∈ b.tlvEntries, Accepted q ∧ q.1 ≠ 0x03 := by
    intro q hq
    rw [hre.tlvEntries, ProxyInfo.unchecked, V2Header.info, raw_collect, List.mem_filter] at hq
    exact ⟨(hdr.tlvs_ok q hq.1).2, by simpa using hq.2⟩
  refine ⟨headerBytes t (withChecksum C b.addCrc32c t b.tlvEntries), ?_, ?_, ?_⟩
  · rw [ProxyInfo.rebuild, hb, Outcome.ok_bind]
    exact hbuild
  · rw [V2Header.encode, length_headerBytes, length_headerBytes, length_encodeAll hdr.tlvs]
    omega
  · intro r
    rcases parse_built hC hre.describes hacc hbuild r with ⟨hdr', rfl, htlvs, hencode, hparse⟩
    have hrecords := withChecksum_eq b.tlvEntries b.addCrc32c
      (show hdr'.encode = headerBytes hdr'.target _ from hencode.symm)
    rw [hparse, hencode]
    have hinfo : hdr'.info = hdr.info.rebuilt C checksum hdr'.encode := by
      rw [V2Header.info, htlvs, hrecords, hre.alike.command, hre.alike.transport,
        hre.alike.source, hre.alike.destination, hre.tlvEntries, hre.addCrc32c]
      rfl
    rw [hinfo]

/-! ## v1 -/

/-- The addresses of a line are of one family, and have no scope. -/
theorem of_tcpLine {IsPort : List UInt8 → UInt16 → Prop} {line : List UInt8}
    {src dst : SocketAddr} (h : TcpLine IsPort line src dst) :
    src.isIpv4 = dst.isIpv4 ∧ SocketAddr.new src.ip src.port = src ∧
      SocketAddr.new dst.ip dst.port = dst := by
  cases h with
  | @intro _ _ _ _ srcIp dstIp _ _ _ keyword _ _ _ _ =>
      cases srcIp <;> cases dstIp
      · exact ⟨rfl, rfl, rfl⟩
      · cases keyword
      · cases keyword
      · exact ⟨rfl, rfl, rfl⟩

theorem rebuild_v1 (C : Crc32c) {buf : List UInt8} {info : ProxyInfo} {n : ℕ}
    (hproxy : v1Signature <+: buf) (h : parseV1 buf = .ok (info, n)) :
    ∃ header, info.rebuild C false = .ok header ∧
      ∀ r, parse C (header ++ r) = .ok (info, header.length) := by
  rcases (parseV1_eq_ok hproxy).mp h with
    ⟨line, rest, -, -, -, -, -, ⟨-, rfl⟩ | ⟨src, dst, htcp, rfl⟩⟩
  · exact ⟨proxyUnknown ++ crlf, rfl, parse_unknownLine C⟩
  · rcases of_tcpLine htcp with ⟨hfamily, hsrc, hdst⟩
    refine ⟨tcpText src dst ++ crlf, ?_, ?_⟩
    · have hnew : ∃ b, HeaderBuilder.v1Proxy src dst = .ok b := ⟨_, if_pos hfamily⟩
      rcases hnew with ⟨b, hb⟩
      rw [ProxyInfo.rebuild, show (tcpInfo src dst).constructor.run = .ok b from hb,
        Outcome.ok_bind]
      have hcalls : applyAll ((tcpInfo src dst).calls false) b =
          .ok (b.withTransportProtocol .stream) := rfl
      rw [hcalls, Outcome.ok_bind]
      exact build_v1 C hb hcalls
    · intro r
      rw [parse_tcpText C hfamily, hsrc, hdst]

/-! ## Both -/

section Rebuild

variable {C : Crc32c} {buf : List UInt8} {info : ProxyInfo} {n : ℕ}

/-- Without a checksum there is nothing to leave out. -/
theorem V2Header.rebuilt_of_none {hdr : V2Header} (hnone : hdr.info.tlvs.crc32c = none)
    (header : List UInt8) : hdr.info.rebuilt C false header = hdr.info := by
  have hno : lastOf 0x03 hdr.tlvs = none := by
    cases hlast : lastOf 0x03 hdr.tlvs with
    | none => rfl
    | some value =>
        have hlen : value.length = 4 := (hdr.tlvs_ok _ (mem_of_lastOf hlast)).2.crc32c rfl
        rw [hdr.crc32c_info, hlast, Option.bind_some, Octets.tryFrom_of_length hlen] at hnone
        cases hnone
  have hall : hdr.info.unchecked = hdr.tlvs := by
    rw [ProxyInfo.unchecked, V2Header.info, raw_collect, List.filter_eq_self]
    intro r hr
    simpa using lastOf_eq_none.mp hno r hr
  rw [ProxyInfo.rebuilt, hall, if_neg Bool.false_ne_true, List.append_nil]
  rfl

/-- Every header that is accepted can be built again: the builder, called with
what the parser has returned, makes a header that says the same whatever follows
it, with its checksums left out or replaced by a new one. Without a checksum
nothing at all is different. No v2 header gets longer, so the new one fits where
the old one did; and building it again from what it says gives the same bytes. -/
theorem rebuild_says_same (hC : C.Composes) (h : parse C buf = .ok (info, n)) (checksum : Bool)
    (hsum : checksum = true → info.tlvs.crc32c ≠ none) :
    ∃ header, info.rebuild C checksum = .ok header ∧ (info.version = .v2 → header.length ≤ n) ∧
      (∀ r, parse C (header ++ r) = .ok (info.rebuilt C checksum header, header.length)) ∧
      (info.tlvs.crc32c = none → info.rebuilt C checksum header = info) ∧
      (info.rebuilt C checksum header).rebuild C checksum = .ok header := by
  rcases of_parse h with ⟨hsig, hparse⟩ | ⟨hproxy, hparse⟩
  · rcases exists_header_le hsig hparse with ⟨hdr, rfl, hle⟩
    rcases rebuild_v2 hC hdr hsum with ⟨header, hbuild, hlen, hread⟩
    refine ⟨header, hbuild, fun _ => Nat.le_trans hlen hle, hread, ?_, ?_⟩
    · intro hnone
      cases checksum with
      | false => exact hdr.rebuilt_of_none hnone header
      | true => exact absurd hnone (hsum rfl)
    · rw [rebuild_rebuilt, hbuild]
  · rcases of_parseV1 hproxy hparse with ⟨hversion, -, htlvs⟩
    cases checksum with
    | true =>
        refine absurd ?_ (hsum rfl)
        rw [htlvs]
    | false =>
        rcases rebuild_v1 C hproxy hparse with ⟨header, hbuild, hread⟩
        have hsame : info.rebuilt C false header = info := by
          rw [ProxyInfo.rebuilt, ProxyInfo.unchecked, htlvs]
          cases info
          cases htlvs
          rfl
        refine ⟨header, hbuild, ?_, ?_, fun _ => hsame, ?_⟩
        · rw [hversion]
          rintro ⟨⟩
        · rw [hsame]
          exact hread
        · rw [hsame, hbuild]

/-- A LOCAL header with a byte that means nothing and a checksum over it, and a
line with a zero in front of a port. -/
theorem rebuild_says_same_local :
    (∃ header info, header.length ≤ 27 ∧ parse .castagnoli header = .ok (info, header.length) ∧
      info.command = .local ∧ info.tlvs.alpn = some [0x61]) ∧
    ∃ header, parse .castagnoli header =
      .ok (tcpInfo (.v4 (.new 1 2 3 4) 8) (.v4 (.new 5 6 7 8) 9), header.length) := by
  have hlocal : parse .castagnoli (v2Signature ++ [0x20, 0x77, 0, 11, 0x01, 0, 1, 0x61,
      0x03, 0, 4, 232, 105, 132, 77]) = .ok (⟨.v2, .local, none, none, none,
        { alpn := some [0x61], crc32c := some 0xE869844D,
          raw := [(0x01, [0x61]), (0x03, [232, 105, 132, 77])] }⟩, 27) := by decide +kernel
  have hline : parse .castagnoli (v1Signature ++ [0x54, 0x43, 0x50, 0x34, 0x20, 0x31, 0x2E, 0x32,
      0x2E, 0x33, 0x2E, 0x34, 0x20, 0x35, 0x2E, 0x36, 0x2E, 0x37, 0x2E, 0x38, 0x20, 0x30, 0x38,
      0x20, 0x39, 0x0D, 0x0A]) =
      .ok (tcpInfo (.v4 (.new 1 2 3 4) 8) (.v4 (.new 5 6 7 8) 9), 33) := by decide +kernel
  constructor
  · rcases rebuild_says_same Crc32c.castagnoli_composes hlocal true (by simp) with
      ⟨header, -, hlen, hread, -⟩
    have hparse := hread []
    rw [List.append_nil] at hparse
    exact ⟨header, _, hlen rfl, hparse, rfl, rfl⟩
  · rcases rebuild_says_same Crc32c.castagnoli_composes hline false (by simp) with
      ⟨header, -, -, hread, hsame, -⟩
    have hparse := hread []
    rw [List.append_nil, hsame rfl] at hparse
    exact ⟨header, hparse⟩

end Rebuild

end ProxyProtocol
