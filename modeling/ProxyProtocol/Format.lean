import ProxyProtocol.Parse.Dispatch

/-! # The v2 format

What a v2 header is, apart from how it is read and written: a target (LOCAL,
or PROXY with an address block and a protocol) and a list of TLVs. `V2Header`
holds these with the proofs that they can be written down, so the byte string
`V2Header.encode` always exists.

Reading and writing are both stated against it. Here is the reading half:

* `parseV2_encode`: a buffer that starts with the bytes of a header is parsed
  to that header's data, up to the checksum.
* `exists_header`: a buffer that passes the structural checks starts with the
  bytes of a header.
-/

namespace ProxyProtocol

open Wire Wire.Record

/-! ## Address blocks -/

/-- The size of an address block. -/
def AddressFamily.blockLen : AddressFamily → ℕ
  | .inet => 12
  | .inet6 => 36
  | .unix => 216

/-- The address block of a PROXY header. -/
inductive Addresses where
  | inet (src dst : Ipv4Addr) (srcPort dstPort : UInt16)
  | inet6 (src dst : Ipv6Addr) (srcPort dstPort : UInt16)
  | unix (src dst : Octets 108)

/-- A path in a fixed-size field ends at the first NUL. -/
def unixPath (field : List UInt8) : List UInt8 := field.takeWhile (· != 0)

namespace Addresses

def family : Addresses → AddressFamily
  | inet _ _ _ _ => .inet
  | inet6 _ _ _ _ => .inet6
  | unix _ _ => .unix

def source : Addresses → ProxyAddress
  | inet src _ srcPort _ => .inet (SocketAddr.new (.v4 src) srcPort)
  | inet6 src _ srcPort _ => .inet (SocketAddr.new (.v6 src) srcPort)
  | unix src _ => .unix (unixPath src.bytes)

def destination : Addresses → ProxyAddress
  | inet _ dst _ dstPort => .inet (SocketAddr.new (.v4 dst) dstPort)
  | inet6 _ dst _ dstPort => .inet (SocketAddr.new (.v6 dst) dstPort)
  | unix _ dst => .unix (unixPath dst.bytes)

def encode : Addresses → List UInt8
  | inet src dst srcPort dstPort =>
      src.octets.bytes ++ (dst.octets.bytes ++ (be16Bytes srcPort ++ be16Bytes dstPort))
  | inet6 src dst srcPort dstPort =>
      src.octets.bytes ++ (dst.octets.bytes ++ (be16Bytes srcPort ++ be16Bytes dstPort))
  | unix src dst => src.bytes ++ dst.bytes

theorem length_encode (a : Addresses) : a.encode.length = a.family.blockLen := by
  cases a with
  | inet src dst srcPort dstPort =>
      simp [encode, family, AddressFamily.blockLen, src.octets.length_eq, dst.octets.length_eq]
  | inet6 src dst srcPort dstPort =>
      simp [encode, family, AddressFamily.blockLen, src.octets.length_eq, dst.octets.length_eq]
  | unix src dst => simp [encode, family, AddressFamily.blockLen, src.length_eq, dst.length_eq]

end Addresses

theorem extractUnixPath_eq (field : List UInt8) :
    extractUnixPath field = .ok (unixPath field) := by
  have htake : unixPath field = field.take (field.findIdx (· == 0)) := by
    rw [unixPath, List.takeWhile_eq_take_findIdx_not]
    simp only [bne, Bool.not_not]
  unfold extractUnixPath
  split
  · rename_i pos hpos
    rcases List.findIdx?_eq_some_iff_findIdx_eq.mp hpos with ⟨hlt, rfl⟩
    rw [Outcome.sliceTo_of_le (by omega), htake]
  · rename_i hnone
    rw [htake, List.findIdx_eq_length.mpr, List.take_length]
    simpa [List.findIdx?_eq_none_iff] using hnone

/-- The family nibble. -/
def AddressFamily.nibble : AddressFamily → UInt8
  | .inet => 1
  | .inet6 => 2
  | .unix => 3

/-- The protocol nibble. -/
def TransportProtocol.nibble : TransportProtocol → UInt8
  | .stream => 1
  | .datagram => 2

theorem familyOf_eq_ok {n : UInt8} {f : AddressFamily} : familyOf n = .ok f ↔ n = f.nibble := by
  constructor
  · intro h
    unfold familyOf at h
    split at h <;> cases h <;> rfl
  · rintro rfl
    cases f <;> rfl

theorem protocolOf_eq_ok {n : UInt8} {p : TransportProtocol} :
    protocolOf n = .ok p ↔ n = p.nibble := by
  constructor
  · intro h
    unfold protocolOf at h
    split at h <;> cases h <;> rfl
  · rintro rfl
    cases p <;> rfl

/-- Blocks that were written are read back. -/
theorem parseV2Addresses_encode (a : Addresses) (p : TransportProtocol) (region : List UInt8) :
    parseV2Addresses a.family.nibble p.nibble (a.encode ++ region) =
      .ok (some ⟨a.family, p⟩, some a.source, some a.destination, a.encode.length) := by
  have hlen := a.length_encode
  have hge : ¬ (a.encode ++ region).length < a.family.blockLen := by
    rw [List.length_append, hlen, Nat.not_lt]
    exact Nat.le_add_right _ _
  rw [parseV2Addresses, familyOf_eq_ok.mpr rfl, protocolOf_eq_ok.mpr rfl, hlen]
  simp only [Outcome.ok_bind]
  cases a with
  | inet src dst srcPort dstPort =>
      rcases src.exists_octets with ⟨s0, s1, s2, s3, rfl⟩
      rcases dst.exists_octets with ⟨d0, d1, d2, d3, rfl⟩
      simp only [Addresses.family, AddressFamily.blockLen] at hge ⊢
      simp only [if_neg hge]
      simp only [Addresses.encode, Ipv4Addr.bytes_new, be16Bytes, List.cons_append,
        List.nil_append, Outcome.index_zero, Outcome.index_succ, Outcome.ok_bind, be16_of_bytes]
      rfl
  | inet6 src dst srcPort dstPort =>
      -- the ports stand behind both addresses
      have hindex : ∀ i, (Outcome.index (src.octets.bytes ++ (dst.octets.bytes ++
          (be16Bytes srcPort ++ (be16Bytes dstPort ++ region)))) (32 + i) : ParseResult UInt8) =
          Outcome.index (be16Bytes srcPort ++ (be16Bytes dstPort ++ region)) i := by
        intro i
        rw [← List.append_assoc]
        exact Outcome.index_append_right
          (by rw [List.length_append, src.octets.length_eq, dst.octets.length_eq]) _ i
      have h32 := hindex 0
      have h33 := hindex 1
      have h34 := hindex 2
      have h35 := hindex 3
      simp only [be16Bytes, List.cons_append, List.nil_append, Outcome.index_zero,
        Outcome.index_succ, Nat.reduceAdd] at h32 h33 h34 h35
      simp only [Addresses.family, AddressFamily.blockLen] at hge ⊢
      simp only [if_neg hge]
      simp only [Addresses.encode, List.append_assoc]
      rw [Outcome.sliceTo_append src.octets.length_eq, Outcome.ok_bind,
        Octets.tryFrom_of_length src.octets.length_eq, Outcome.unwrap_some, Outcome.ok_bind,
        Outcome.slice_append src.octets.length_eq (by rw [src.octets.length_eq,
          dst.octets.length_eq]), Outcome.ok_bind,
        Octets.tryFrom_of_length dst.octets.length_eq, Outcome.unwrap_some, Outcome.ok_bind]
      simp only [be16Bytes, List.cons_append, List.nil_append, h32, h33, h34, h35,
        Outcome.ok_bind, be16_of_bytes]
      rfl
  | unix src dst =>
      simp only [Addresses.family, AddressFamily.blockLen] at hge ⊢
      simp only [if_neg hge]
      simp only [Addresses.encode, List.append_assoc]
      rw [Outcome.sliceTo_append src.length_eq, Outcome.ok_bind, extractUnixPath_eq,
        Outcome.ok_bind, Outcome.slice_append src.length_eq (by rw [src.length_eq,
          dst.length_eq]), Outcome.ok_bind, extractUnixPath_eq, Outcome.ok_bind]
      rfl

/-- Every payload that is long enough starts with a block. -/
theorem exists_addresses {f : AddressFamily} {payload : List UInt8}
    (h : f.blockLen ≤ payload.length) :
    ∃ (a : Addresses) (region : List UInt8), a.family = f ∧ payload = a.encode ++ region := by
  -- two addresses of `n` bytes and two ports
  have hinet : ∀ n, n + (n + 4) ≤ payload.length → ∃ (src dst : Octets n) (sp dp : UInt16)
      (region : List UInt8), payload =
        src.bytes ++ (dst.bytes ++ (be16Bytes sp ++ (be16Bytes dp ++ region))) := by
    intro n hn
    rcases Octets.exists_append (Nat.le_trans (Nat.le_add_right n _) hn) with ⟨src, rest, rfl⟩
    rw [List.length_append, src.length_eq] at hn
    rcases Octets.exists_append (show n ≤ rest.length by omega) with ⟨dst, rest, rfl⟩
    rw [List.length_append, dst.length_eq] at hn
    rcases exists_be16Bytes_append (show 2 ≤ rest.length by omega) with ⟨sp, rest, rfl⟩
    rw [List.length_append, length_be16Bytes] at hn
    rcases exists_be16Bytes_append (show 2 ≤ rest.length by omega) with ⟨dp, rest, rfl⟩
    exact ⟨src, dst, sp, dp, rest, rfl⟩
  cases f with
  | inet =>
      rcases hinet 4 h with ⟨src, dst, sp, dp, region, rfl⟩
      exact ⟨.inet ⟨src⟩ ⟨dst⟩ sp dp, region, rfl, by simp [Addresses.encode]⟩
  | inet6 =>
      rcases hinet 16 h with ⟨src, dst, sp, dp, region, rfl⟩
      exact ⟨.inet6 ⟨src⟩ ⟨dst⟩ sp dp, region, rfl, by simp [Addresses.encode]⟩
  | unix =>
      simp only [AddressFamily.blockLen] at h
      rcases Octets.exists_append (show 108 ≤ payload.length by omega) with ⟨src, rest, rfl⟩
      rw [List.length_append, src.length_eq] at h
      rcases Octets.exists_append (show 108 ≤ rest.length by omega) with ⟨dst, region, rfl⟩
      exact ⟨.unix src dst, region, rfl, by simp [Addresses.encode]⟩

/-- A block that is read was written there. -/
theorem of_parseV2Addresses {familyNibble protoNibble : UInt8} {payload : List UInt8}
    {r : AddressParseResult} (h : parseV2Addresses familyNibble protoNibble payload = .ok r) :
    ∃ (a : Addresses) (p : TransportProtocol) (region : List UInt8),
      familyNibble = a.family.nibble ∧ protoNibble = p.nibble ∧ payload = a.encode ++ region ∧
      r = (some ⟨a.family, p⟩, some a.source, some a.destination, a.encode.length) := by
  have hparse := h
  rw [parseV2Addresses] at h
  rcases Outcome.bind_eq_ok.mp h with ⟨f, hf, hrest⟩
  rcases Outcome.bind_eq_ok.mp hrest with ⟨p, hp, hblock⟩
  obtain rfl := familyOf_eq_ok.mp hf
  obtain rfl := protocolOf_eq_ok.mp hp
  -- each branch starts with its own length check
  have hlen : f.blockLen ≤ payload.length := by
    by_contra hlt
    rw [Nat.not_le] at hlt
    cases f with
    | inet | inet6 | unix =>
        simp only [AddressFamily.blockLen] at hlt
        simp only [if_pos hlt] at hblock
        cases hblock
  rcases exists_addresses hlen with ⟨a, region, rfl, rfl⟩
  rw [parseV2Addresses_encode] at hparse
  cases hparse
  exact ⟨a, p, region, rfl, rfl, rfl, rfl⟩

/-! ## Headers -/

/-- Version 2 and the command in one byte. -/
def Command.verCmd : Command → UInt8
  | .local => 0x20
  | .proxy => 0x21

/-- Whom a header speaks about. The family and protocol byte of a LOCAL header
means nothing. -/
inductive Target where
  | local (famProto : UInt8)
  | proxy (addresses : Addresses) (protocol : TransportProtocol)

namespace Target

def command : Target → Command
  | .local _ => .local
  | .proxy _ _ => .proxy

def famProto : Target → UInt8
  | .local famProto => famProto
  | .proxy a p => (a.family.nibble <<< 4) ||| p.nibble

/-- The address block. -/
def block : Target → List UInt8
  | .local _ => []
  | .proxy a _ => a.encode

def transport : Target → Option Transport
  | .local _ => none
  | .proxy a p => some ⟨a.family, p⟩

def source : Target → Option ProxyAddress
  | .local _ => none
  | .proxy a _ => some a.source

def destination : Target → Option ProxyAddress
  | .local _ => none
  | .proxy a _ => some a.destination

end Target

/-- The bytes of a target and TLVs behind it. -/
def headerBytes (t : Target) (rs : List Record) : List UInt8 :=
  v2Signature ++ (t.command.verCmd :: t.famProto ::
    (be16Bytes (UInt16.ofNat (t.block ++ encodeAll rs).length) ++ (t.block ++ encodeAll rs)))

theorem length_headerBytes (t : Target) (rs : List Record) :
    (headerBytes t rs).length = 16 + (t.block.length + (encodeAll rs).length) := by
  simp [headerBytes, v2Signature]
  omega

/-- A v2 header: its length fields can express what it holds, and each TLV is
one its type allows. -/
structure V2Header where
  target : Target
  tlvs : List Record
  tlvs_ok : ∀ r ∈ tlvs, r.Fits ∧ Accepted r
  length_le : target.block.length + (encodeAll tlvs).length ≤ 65535

namespace V2Header

def payload (h : V2Header) : List UInt8 := h.target.block ++ encodeAll h.tlvs

def encode (h : V2Header) : List UInt8 := headerBytes h.target h.tlvs

/-- What the header says. -/
def info (h : V2Header) : ProxyInfo where
  version := .v2
  command := h.target.command
  transport := h.target.transport
  source := h.target.source
  destination := h.target.destination
  tlvs := collect h.tlvs

/-- Where the TLVs start. -/
def tlvStart (h : V2Header) : ℕ := v2HeaderLen + h.target.block.length

theorem length_payload_le (h : V2Header) : h.payload.length ≤ 65535 := by
  rw [payload, List.length_append]
  exact h.length_le

@[simp] theorem length_encode (h : V2Header) : h.encode.length = 16 + h.payload.length := by
  rw [encode, length_headerBytes, payload, List.length_append]

end V2Header

/-! ## Reading headers -/

theorem nibbles_famProto (a : Addresses) (p : TransportProtocol) :
    (Target.proxy a p).famProto >>> 4 = a.family.nibble ∧
      (Target.proxy a p).famProto &&& 0x0F = p.nibble := by
  simp only [Target.famProto]
  cases a.family <;> cases p <;> decide

theorem v2Command_eq_ok {vc : UInt8} {command : Command} :
    v2Command vc = .ok command ↔ vc = command.verCmd := by
  constructor
  · intro h
    simp only [v2Command] at h
    split at h
    · cases h
    · rename_i hversion
      have hhi : vc >>> 4 = command.verCmd >>> 4 := by
        rw [Decidable.not_not.mp hversion]
        cases command <;> rfl
      split at h
      · rename_i hlo
        cases h
        exact eq_of_nibbles hhi hlo
      · rename_i hlo
        cases h
        exact eq_of_nibbles hhi hlo
      · cases h
  · rintro rfl
    cases command <;> rfl

theorem v2Addresses_block (t : Target) (region : List UInt8) :
    v2Addresses t.command t.famProto (t.block ++ region) =
      .ok (t.transport, t.source, t.destination, t.block.length) := by
  rcases t with famProto | ⟨a, p⟩
  · rfl
  · rcases nibbles_famProto a p with ⟨hf, hp⟩
    have hne : ¬ (a.family.nibble = 0 ∨ p.nibble = 0) := by
      cases a.family <;> cases p <;> decide
    simp only [v2Addresses, Target.command, hf, hp, if_neg hne]
    exact parseV2Addresses_encode a p region

/-- What the TLVs of a header come from: a region that parses or, for LOCAL,
any other, which counts as empty. -/
def ReadsTlvs (command : Command) (region : List UInt8) (tlvs : Tlvs) : Prop :=
  parseTlvs region = .ok tlvs ∨
    command = .local ∧ (∃ e, parseTlvs region = .err e) ∧ tlvs = {}

theorem v2Tlvs_eq_ok {command : Command} {block region : List UInt8} {tlvs : Tlvs} :
    v2Tlvs command (block ++ region) block.length = .ok tlvs ↔
      ReadsTlvs command region tlvs := by
  unfold v2Tlvs ReadsTlvs
  by_cases hlt : block.length < (block ++ region).length
  · rw [if_pos hlt, Outcome.sliceFrom_of_le (by simp), List.drop_left, Outcome.ok_bind]
    cases hparse : parseTlvs region <;> rcases command with _ | _ <;> simp [eq_comm]
  · -- the source calls `parse_tlvs` only when bytes are left
    have hnil : region = [] := by
      cases region with
      | nil => rfl
      | cons b region =>
          simp only [List.length_append, List.length_cons] at hlt
          omega
    have hempty : parseTlvs [] = .ok {} := rfl
    rw [if_neg hlt, hnil, hempty]
    simp

theorem v2Payload_payload (h : V2Header) :
    v2Payload h.target.command h.target.famProto h.payload =
      .ok (h.info, h.target.block.length) := by
  have hlen := h.length_le
  have hparse := parseTlvs_encodeAll h.tlvs_ok (by simp only [Outcome.usizeMax]; omega)
  simp only [v2Payload, V2Header.payload, v2Addresses_block, Outcome.ok_bind]
  rw [v2Tlvs_eq_ok.mpr (.inl hparse)]
  rfl

/-- The prelude of a header in a buffer. -/
theorem headerBytes_append {t : Target} {rs : List Record}
    (hlen : (t.block ++ encodeAll rs).length ≤ 65535) (extra : List UInt8) :
    ∃ hi lo, (be16 hi lo).toNat = (t.block ++ encodeAll rs).length ∧
      headerBytes t rs ++ extra = v2Signature ++
        (t.command.verCmd :: t.famProto :: hi :: lo :: (t.block ++ encodeAll rs ++ extra)) :=
  ⟨_, _, toNat_length_field hlen, by simp [headerBytes, be16Bytes]⟩

theorem encode_append (h : V2Header) (extra : List UInt8) :
    ∃ hi lo, (be16 hi lo).toNat = h.payload.length ∧
      h.encode ++ extra = v2Signature ++
        (h.target.command.verCmd :: h.target.famProto :: hi :: lo :: (h.payload ++ extra)) :=
  headerBytes_append h.length_payload_le extra

/-- Headers that were written pass the structural checks. -/
theorem v2Structure_encode (h : V2Header) (extra : List UInt8) :
    v2Structure (h.encode ++ extra) =
      .ok (h.info, h.encode.length, h.target.block.length) := by
  rcases encode_append h extra with ⟨hi, lo, hlen, hbytes⟩
  rw [hbytes, v2Structure_eq rfl, v2Command_eq_ok.mpr rfl, Outcome.ok_bind, hlen,
    if_neg (by simp), List.take_left, v2Payload_payload, h.length_encode]
  rfl

theorem parseV2_encode (C : Crc32c) (h : V2Header) (extra : List UInt8) :
    parseV2 C (h.encode ++ extra) =
      (validateCrc32c C h.encode h.encode.length h.target.block.length h.info.tlvs >>= fun _ =>
        .ok (h.info, h.encode.length)) := by
  rw [parseV2, v2Structure_encode]
  simp only [Outcome.ok_bind]
  rw [validateCrc32c_take C (by simp), List.take_left]

theorem of_v2Addresses {command : Command} {famProto : UInt8} {payload : List UInt8}
    {r : AddressParseResult} (h : v2Addresses command famProto payload = .ok r) :
    ∃ (t : Target) (region : List UInt8), t.command = command ∧ t.famProto = famProto ∧
      payload = t.block ++ region ∧
      r = (t.transport, t.source, t.destination, t.block.length) := by
  rcases command with _ | _
  · cases h
    exact ⟨.local famProto, payload, rfl, rfl, rfl, rfl⟩
  · simp only [v2Addresses] at h
    split at h
    · cases h
    · rcases of_parseV2Addresses h with ⟨a, p, region, hf, hp, rfl, rfl⟩
      rcases nibbles_famProto a p with ⟨hf', hp'⟩
      exact ⟨.proxy a p, region, rfl, eq_of_nibbles (hf'.trans hf.symm) (hp'.trans hp.symm),
        rfl, rfl⟩

/-- What the payload of an accepted header consists of. -/
theorem of_v2Payload {command : Command} {famProto : UInt8} {payload : List UInt8}
    {info : ProxyInfo} {tlvOffset : ℕ}
    (h : v2Payload command famProto payload = .ok (info, tlvOffset)) :
    ∃ (t : Target) (region : List UInt8), t.command = command ∧ t.famProto = famProto ∧
      payload = t.block ++ region ∧ ReadsTlvs t.command region info.tlvs ∧
      info = ⟨.v2, t.command, t.transport, t.source, t.destination, info.tlvs⟩ ∧
      tlvOffset = t.block.length := by
  rcases Outcome.bind_eq_ok.mp h with ⟨r, haddr, hrest⟩
  rcases of_v2Addresses haddr with ⟨t, region, rfl, rfl, rfl, rfl⟩
  rcases Outcome.bind_eq_ok.mp hrest with ⟨tlvs, htlvs, hok⟩
  cases hok
  exact ⟨t, region, rfl, rfl, rfl, v2Tlvs_eq_ok.mp htlvs, rfl, rfl⟩

/-- What a buffer that passes the structural checks consists of. -/
theorem of_v2Structure {buf : List UInt8} {info : ProxyInfo} {n tlvOffset : ℕ}
    (hs : v2Structure buf = .ok (info, n, tlvOffset)) :
    ∃ (sig : List UInt8) (t : Target) (region extra : List UInt8), sig.length = 12 ∧
      (t.block ++ region).length ≤ 65535 ∧
      buf = sig ++ (t.command.verCmd :: t.famProto ::
        (be16Bytes (UInt16.ofNat (t.block ++ region).length) ++ (t.block ++ region))) ++ extra ∧
      ReadsTlvs t.command region info.tlvs ∧
      info = ⟨.v2, t.command, t.transport, t.source, t.destination, info.tlvs⟩ ∧
      n = 16 + (t.block ++ region).length ∧ tlvOffset = t.block.length := by
  have hlen : v2HeaderLen ≤ buf.length := by
    by_contra hlt
    rw [v2Structure, if_pos (Nat.lt_of_not_le hlt)] at hs
    cases hs
  rcases exists_prelude hlen with ⟨sig, vc, fp, hi, lo, rest, hsig, rfl⟩
  rw [v2Structure_eq hsig] at hs
  rcases Outcome.bind_eq_ok.mp hs with ⟨command, hcmd, hrest⟩
  obtain rfl := v2Command_eq_ok.mp hcmd
  split at hrest
  · cases hrest
  · rename_i hlong
    rcases Outcome.bind_eq_ok.mp hrest with ⟨p, hpayload, hok⟩
    cases hok
    rcases of_v2Payload hpayload with ⟨t, region, rfl, rfl, hblock, hreads, hinfo, hoff⟩
    -- the length in the prelude is the one of what follows
    have hsum : (be16 hi lo).toNat = (t.block ++ region).length := by
      rw [← hblock, List.length_take]
      omega
    have hword : be16Bytes (UInt16.ofNat (t.block ++ region).length) = [hi, lo] := by
      rw [← hsum, UInt16.ofNat_toNat, be16Bytes_be16]
    refine ⟨sig, t, region, rest.drop (be16 hi lo).toNat, hsig, ?_, ?_, hreads, hinfo, ?_, hoff⟩
    · rw [← hsum]
      exact toNat_be16_le hi lo
    · rw [hword, ← hblock]
      simp
    · rw [hsum]

/-- A buffer that passes the structural checks starts with a header. The
exception is a LOCAL header whose payload is no list of TLVs. -/
theorem exists_header {buf : List UInt8} {info : ProxyInfo} {n tlvOffset : ℕ}
    (hsig : buf.take 12 = v2Signature) (hs : v2Structure buf = .ok (info, n, tlvOffset))
    (hproper : info.command = .proxy ∨ info.tlvs ≠ {}) :
    ∃ (h : V2Header) (extra : List UInt8), buf = h.encode ++ extra ∧ info = h.info ∧
      n = h.encode.length ∧ tlvOffset = h.target.block.length := by
  rcases of_v2Structure hs with ⟨sig, t, region, extra, hsig12, hlen, rfl, hreads, hinfo, rfl, rfl⟩
  rw [List.append_assoc, ← hsig12, List.take_left] at hsig
  subst hsig
  rcases hreads with hparse | ⟨hlocal, -, hempty⟩
  · rcases of_parseTlvs hparse with ⟨rs, rfl, hrs, htlvs⟩
    refine ⟨⟨t, rs, hrs, by rwa [List.length_append] at hlen⟩, extra, rfl, ?_, ?_, rfl⟩
    · rw [hinfo, htlvs]
      rfl
    · simp [V2Header.payload]
  · -- LOCAL: a region that does not parse leaves no TLVs
    rcases hproper with hproxy | htlvs
    · rw [hinfo] at hproxy
      exact absurd (hproxy.symm.trans hlocal) (by decide)
    · exact absurd hempty htlvs

/-- A PROXY header that was accepted and is no v1 line, and what it is. -/
theorem exists_header_of_parse {C : Crc32c} {b : List UInt8} {info : ProxyInfo} {n : ℕ}
    (h : parse C b = .ok (info, n)) (hv : info.version = .v2 ∨ info.tlvs ≠ {})
    (hc : info.command = .proxy) :
    ∃ (hdr : V2Header) (a : Addresses) (p : TransportProtocol) (extra : List UInt8),
      hdr.target = .proxy a p ∧ info = hdr.info ∧ b = hdr.encode ++ extra ∧
      n = hdr.encode.length := by
  rcases of_parse h with ⟨hsig, hparse⟩ | ⟨hproxy, hparse⟩
  · rcases Outcome.bind_eq_ok.mp hparse with ⟨⟨info', n', off⟩, hstructure, hrest⟩
    rcases Outcome.bind_eq_ok.mp hrest with ⟨_, -, hok⟩
    cases hok
    rcases exists_header hsig hstructure (.inl hc) with ⟨hdr, extra, rfl, rfl, rfl, -⟩
    rcases ht : hdr.target with famProto | ⟨a, p⟩
    · -- LOCAL
      rw [V2Header.info, ht] at hc
      cases hc
    · exact ⟨hdr, a, p, extra, ht, rfl, rfl, rfl⟩
  · -- a v1 line has neither version 2 nor TLVs
    rcases of_parseV1 hproxy hparse with ⟨hversion, -, htlvs⟩
    rcases hv with hv | hv
    · rw [hversion] at hv
      cases hv
    · exact absurd htlvs hv

/-! ## Checksums -/

/-- Where the first checksum TLV starts in a list of TLVs. -/
def crcOffset : List Record → ℕ
  | [] => 0
  | r :: rs => if r.1 = 0x03 then 0 else size r + crcOffset rs

theorem crcOffset_first {pre post : List Record} {v : List UInt8}
    (hpre : ∀ r ∈ pre, r.1 ≠ 0x03) :
    crcOffset (pre ++ (0x03, v) :: post) = (encodeAll pre).length := by
  induction pre with
  | nil => rfl
  | cons r pre ih =>
      rw [List.cons_append, crcOffset, if_neg (hpre r (by simp)),
        ih (fun q hq => hpre q (by simp [hq])), encodeAll_cons, List.length_append,
        Record.length_encode]

namespace V2Header

theorem crc32c_info (h : V2Header) : h.info.tlvs.crc32c =
    (lastOf 0x03 h.tlvs).bind fun v => (Octets.tryFrom 4 v).map Octets.be32 := by
  simp only [info, collect_eq]

/-- The header with the value of its first checksum TLV set to zero. -/
def zeroed (h : V2Header) : List UInt8 :=
  patch h.encode (h.tlvStart + crcOffset h.tlvs + 3) [0, 0, 0, 0]

/-- Everything in front of the TLVs. -/
def front (h : V2Header) : List UInt8 :=
  v2Signature ++ (h.target.command.verCmd :: h.target.famProto ::
    (be16Bytes (UInt16.ofNat (h.target.block ++ encodeAll h.tlvs).length) ++ h.target.block))

theorem encode_eq_front (h : V2Header) : h.encode = h.front ++ encodeAll h.tlvs := by
  simp [encode, headerBytes, front]

theorem length_front (h : V2Header) : h.front.length = h.tlvStart := by
  simp [front, v2Signature, tlvStart, v2HeaderLen]
  omega

/-- The checksum that `parse_v2` computes for a header with a checksum TLV. -/
theorem computeCrc32c_encode (C : Crc32c) {h : V2Header} (hcrc : lastOf 0x03 h.tlvs ≠ none) :
    computeCrc32c C h.encode h.encode.length h.tlvStart =
      .ok (C.crc32cAppend (C.crc32cAppend
        (C.crc32c (h.encode.take (h.tlvStart + crcOffset h.tlvs + 3))) [0, 0, 0, 0])
        (h.encode.drop (h.tlvStart + crcOffset h.tlvs + 3 + 4))) := by
  rcases exists_first hcrc with ⟨pre, v, post, htlvs, hpre⟩
  have hok : ∀ r : Record, r ∈ pre ++ (0x03, v) :: post → r.Fits ∧ Accepted r :=
    htlvs ▸ h.tlvs_ok
  have hcrc : IsCrcTlv (0x03, v) := ⟨rfl, (hok (0x03, v) (by simp)).2.crc32c rfl⟩
  have hlen := h.length_payload_le
  have hencode := h.encode_eq_front
  have hoffset : crcOffset h.tlvs = (encodeAll pre).length := by
    rw [htlvs, crcOffset_first hpre]
  rw [htlvs] at hencode
  rw [← h.length_front, hoffset]
  exact computeCrc32c_pieces C (fun r hr => (hok r hr).1) (fun r hr hcrc => hpre r hr hcrc.1) hcrc
    hencode rfl (by rw [h.length_encode]; simp only [Outcome.usizeMax]; omega)

end V2Header

/-- Without a checksum TLV a header is accepted as it is. -/
theorem parseV2_of_no_crc (C : Crc32c) {h : V2Header} (hno : ∀ r ∈ h.tlvs, r.1 ≠ 0x03)
    (extra : List UInt8) : parseV2 C (h.encode ++ extra) = .ok (h.info, h.encode.length) := by
  have hnone : h.info.tlvs.crc32c = none := by
    rw [h.crc32c_info, lastOf_eq_none.mpr hno]
    rfl
  rw [parseV2_encode, validateCrc32c, hnone]
  rfl

/-- A header with a checksum: the checksum check in terms of the hash. -/
theorem validateCrc32c_encode (C : Crc32c) {h : V2Header} {c actual : UInt32}
    (hc : h.info.tlvs.crc32c = some c)
    (hactual : computeCrc32c C h.encode h.encode.length h.tlvStart = .ok actual) :
    validateCrc32c C h.encode h.encode.length h.target.block.length h.info.tlvs =
      if actual = c then .ok () else .err (.crcMismatch c actual) := by
  have hblock : h.target.block.length ≤ 65535 := by
    have := h.length_le
    omega
  have hstart : v2HeaderLen + h.target.block.length = h.tlvStart := rfl
  rw [validateCrc32c, hc]
  simp only []
  rw [Outcome.add_of_lt (by simp only [v2HeaderLen]; omega), Outcome.ok_bind, hstart, hactual,
    Outcome.ok_bind]
  by_cases heq : actual = c
  · simp [heq]
  · simp [heq]

theorem tlvs_ne_default {tlvs : Tlvs} {c : UInt32} (hc : tlvs.crc32c = some c) : tlvs ≠ {} := by
  rintro rfl
  cases hc

/-- With checksum TLVs, the value of the last is compared with the checksum
over the header in which the value of the first is zero. -/
theorem parseV2_of_crc {C : Crc32c} (hC : C.Composes) {h : V2Header} {c : UInt32}
    (hc : h.info.tlvs.crc32c = some c) (extra : List UInt8) :
    parseV2 C (h.encode ++ extra) =
      if C.crc32c h.zeroed = c then .ok (h.info, h.encode.length)
      else .err (.crcMismatch c (C.crc32c h.zeroed)) := by
  have hlast : lastOf 0x03 h.tlvs ≠ none :=
    lastOf_of_crc32c (Option.ne_none_iff_exists'.mpr ⟨c, hc⟩)
  have hactual : computeCrc32c C h.encode h.encode.length h.tlvStart =
      .ok (C.crc32c h.zeroed) := by
    rw [V2Header.computeCrc32c_encode C hlast, hC, hC, List.append_assoc]
    rfl
  rw [parseV2_encode, validateCrc32c_encode C hc hactual]
  by_cases heq : C.crc32c h.zeroed = c
  · rw [if_pos heq, if_pos heq]
    rfl
  · rw [if_neg heq, if_neg heq]
    rfl

/-! ## The parser ends -/

theorem parseV2Addresses_endsIn (familyNibble protoNibble : UInt8) (payload : List UInt8) :
    (parseV2Addresses familyNibble protoNibble payload).EndsIn ParseError.IsInvalid := by
  have hfamily : (familyOf familyNibble).EndsIn ParseError.IsInvalid := by
    unfold familyOf
    split <;> first | exact trivial | exact ⟨_, rfl⟩
  have hprotocol : (protocolOf protoNibble).EndsIn ParseError.IsInvalid := by
    unfold protocolOf
    split <;> first | exact trivial | exact ⟨_, rfl⟩
  by_cases hok : ∃ f p, familyOf familyNibble = .ok f ∧ protocolOf protoNibble = .ok p ∧
      f.blockLen ≤ payload.length
  · rcases hok with ⟨f, p, hf, hp, hlen⟩
    obtain rfl := familyOf_eq_ok.mp hf
    obtain rfl := protocolOf_eq_ok.mp hp
    rcases exists_addresses hlen with ⟨a, region, rfl, rfl⟩
    rw [parseV2Addresses_encode]
    exact trivial
  · -- an unknown family or protocol, or a payload that is too short
    refine Outcome.EndsIn.bind hfamily fun f hf => Outcome.EndsIn.bind hprotocol fun p hp => ?_
    have hshort : payload.length < f.blockLen := by
      by_contra hle
      exact hok ⟨f, p, hf, hp, Nat.not_lt.mp hle⟩
    cases f with
    | inet | inet6 | unix =>
        simp only [AddressFamily.blockLen] at hshort
        simp only [if_pos hshort]
        exact ⟨_, rfl⟩

theorem v2Payload_endsIn {command : Command} {famProto : UInt8} {payload : List UInt8}
    (hlen : payload.length ≤ 65535) :
    (v2Payload command famProto payload).EndsIn ParseError.IsInvalid := by
  refine Outcome.EndsIn.bind ?_ ?_
  · unfold v2Addresses
    rcases command with _ | _
    · exact trivial
    · simp only []
      split
      · exact ⟨_, rfl⟩
      · exact parseV2Addresses_endsIn _ _ _
  · rintro ⟨transport, source, destination, tlvOffset⟩ -
    refine Outcome.EndsIn.bind ?_ fun _ _ => trivial
    unfold v2Tlvs
    split
    · rename_i hlt
      -- for LOCAL the error is dropped, but a panic would not be
      have hregion : (parseTlvs (payload.drop tlvOffset)).EndsIn ParseError.IsInvalid :=
        parseTlvs_endsIn (by rw [List.length_drop, Outcome.usizeMax]; omega)
      rw [Outcome.sliceFrom_of_le (by omega), Outcome.ok_bind]
      rcases command with _ | _
      · simp only []
        split
        · exact trivial
        · exact hregion
      · exact hregion
    · exact trivial

theorem v2Command_endsIn (vc : UInt8) : (v2Command vc).EndsIn ParseError.IsInvalid := by
  simp only [v2Command]
  split
  · exact ⟨_, rfl⟩
  · split <;> first | exact trivial | exact ⟨_, rfl⟩

theorem v2Structure_endsIn (buf : List UInt8) :
    (v2Structure buf).EndsIn (· ≠ .notProxyProtocol) := by
  by_cases hshort : buf.length < v2HeaderLen
  · rw [v2Structure, if_pos hshort]
    rintro ⟨⟩
  · rcases exists_prelude (Nat.not_lt.mp hshort) with ⟨sig, vc, fp, hi, lo, rest, hsig, rfl⟩
    rw [v2Structure_eq hsig]
    refine Outcome.EndsIn.bind ((v2Command_endsIn vc).mono fun _ he => he.ne.2) ?_
    intro command _
    split
    · rintro ⟨⟩
    · have hle := toNat_be16_le hi lo
      refine Outcome.EndsIn.bind ((v2Payload_endsIn ?_).mono fun _ he => he.ne.2) fun _ _ => trivial
      rw [List.length_take]
      omega

/-- The search for a checksum ends, and what it finds lies inside the header.
Every iteration but the last passes the three bytes in front of a value. -/
theorem findCrcTlv_spec {header : List UInt8} {totalLen : ℕ} (hlen : header.length = totalLen)
    (hsmall : totalLen ≤ Outcome.isizeMax) :
    ∀ fuel pos, pos ≤ Outcome.isizeMax → totalLen < pos + 3 * fuel + 3 →
      ∃ r, findCrcTlv header totalLen (fuel + 1) pos = .ok r ∧
        ∀ crcValueStart, r = .found crcValueStart → crcValueStart + 4 ≤ totalLen := by
  have hisize : Outcome.isizeMax = 9223372036854775807 := rfl
  have husize : Outcome.usizeMax = 18446744073709551615 := rfl
  intro fuel
  induction fuel with
  | zero =>
      intro pos hpos hfuel
      rw [findCrcTlv, Outcome.add_of_le (by omega), Outcome.ok_bind]
      refine ⟨.exhausted, if_neg (by omega), ?_⟩
      rintro _ ⟨⟩
  | succ fuel ih =>
      intro pos hpos hfuel
      rw [findCrcTlv, Outcome.add_of_le (by omega), Outcome.ok_bind]
      by_cases hle : pos + 3 ≤ totalLen
      · rw [if_pos hle, Outcome.index_of_lt (by omega), Outcome.index_of_lt (by omega),
          Outcome.index_of_lt (by omega)]
        simp only [Outcome.ok_bind]
        generalize header.get ⟨pos, _⟩ = tlvType
        generalize header.get ⟨pos + 1, _⟩ = hi
        generalize header.get ⟨pos + 2, _⟩ = lo
        have htlv := toNat_be16_le hi lo
        rw [Outcome.add_of_le (by omega), Outcome.ok_bind]
        by_cases hbroke : pos + 3 + (be16 hi lo).toNat > totalLen
        · refine ⟨.broke, if_pos hbroke, ?_⟩
          rintro _ ⟨⟩
        · rw [if_neg hbroke]
          by_cases hcrc : tlvType = 0x03 ∧ (be16 hi lo).toNat = 4
          · refine ⟨.found (pos + 3), if_pos hcrc, ?_⟩
            rintro _ ⟨⟩
            omega
          · rw [if_neg hcrc]
            exact ih _ (by omega) (by omega)
      · refine ⟨.exhausted, if_neg hle, ?_⟩
        rintro _ ⟨⟩

theorem exists_computeCrc32c (C : Crc32c) {buf : List UInt8} {totalLen tlvStart : ℕ}
    (hle : totalLen ≤ buf.length) (hsmall : totalLen ≤ Outcome.isizeMax)
    (hstart : tlvStart ≤ Outcome.isizeMax) :
    ∃ crc, computeCrc32c C buf totalLen tlvStart = .ok crc := by
  have hisize : Outcome.isizeMax = 9223372036854775807 := rfl
  have husize : Outcome.usizeMax = 18446744073709551615 := rfl
  have hlen : (buf.take totalLen).length = totalLen := List.length_take_of_le hle
  rcases findCrcTlv_spec hlen hsmall totalLen tlvStart hstart (by omega) with ⟨r, hsearch, hinside⟩
  rw [computeCrc32c, Outcome.sliceTo_of_le hle, Outcome.ok_bind, hsearch, Outcome.ok_bind]
  cases r with
  | found crcValueStart =>
      have hfour := hinside crcValueStart rfl
      simp only []
      rw [Outcome.sliceTo_of_le (by omega), Outcome.ok_bind, Outcome.add_of_le (by omega),
        Outcome.ok_bind, Outcome.sliceFrom_of_le (by omega)]
      exact ⟨_, rfl⟩
  | broke => exact ⟨_, rfl⟩
  | exhausted => exact ⟨_, rfl⟩

theorem v2Structure_length {buf : List UInt8} {info : ProxyInfo} {n tlvOffset : ℕ}
    (hs : v2Structure buf = .ok (info, n, tlvOffset)) :
    n ≤ buf.length ∧ n ≤ 16 + 65535 ∧ tlvOffset ≤ 65535 := by
  rcases of_v2Structure hs with ⟨sig, t, region, extra, hsig, hlen, rfl, -, -, rfl, rfl⟩
  simp only [List.length_append, List.length_cons, length_be16Bytes] at hlen ⊢
  omega

/-- The only error of the checksum check is a mismatch. -/
theorem validateCrc32c_endsIn (C : Crc32c) {buf : List UInt8} {info : ProxyInfo}
    {n tlvOffset : ℕ} (hs : v2Structure buf = .ok (info, n, tlvOffset)) :
    (validateCrc32c C buf n tlvOffset info.tlvs).EndsIn fun e =>
      ∃ expected actual, e = .crcMismatch expected actual := by
  have hisize : Outcome.isizeMax = 9223372036854775807 := rfl
  rcases v2Structure_length hs with ⟨hn, hmax, hoff⟩
  unfold validateCrc32c
  split
  · exact trivial
  · rw [Outcome.add_of_lt (by simp only [v2HeaderLen]; omega), Outcome.ok_bind]
    have hstart : v2HeaderLen + tlvOffset ≤ Outcome.isizeMax := by
      simp only [v2HeaderLen]
      omega
    rcases exists_computeCrc32c C hn (by omega) hstart with ⟨actual, hactual⟩
    rw [hactual, Outcome.ok_bind]
    split
    · exact ⟨_, _, rfl⟩
    · exact trivial

/-- The v2 parser ends on every buffer, and leaves the signature to its caller. -/
theorem parseV2_endsIn (C : Crc32c) (buf : List UInt8) :
    (parseV2 C buf).EndsIn (· ≠ .notProxyProtocol) := by
  refine Outcome.EndsIn.bind (v2Structure_endsIn buf) ?_
  rintro ⟨info, n, tlvOffset⟩ hs
  refine Outcome.EndsIn.bind ((validateCrc32c_endsIn C hs).mono ?_) fun _ _ => trivial
  rintro _ ⟨expected, actual, rfl⟩
  exact nofun

end ProxyProtocol
