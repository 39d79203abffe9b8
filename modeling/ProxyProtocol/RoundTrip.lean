import ProxyProtocol.Builder

/-! # Round trips

Writing and reading v2 headers undo each other.

* `parse_build_v2`: the parser reads back what the builder wrote, whatever
  calls were made and whatever follows the header.
* `build_parse_v2`: a header with IP addresses that was read can be built
  again, byte for byte; so the parser is injective on these headers.
* `parse_encode_ssl`: SSL metadata is read back field by field.

The first two go through `V2Header`: the builder writes the bytes of one
(`Describes`, `buildV2_eq_ok`), the parser accepts exactly those bytes
(`parseV2_encode`, `exists_header`).
-/

namespace ProxyProtocol

open Wire Wire.Record

/-- The constructors of v2 builders. -/
inductive V2Constructor where
  | proxy (source destination : SocketAddr)
  | local
  | unix (source destination : List UInt8) (protocol : TransportProtocol)
deriving DecidableEq, Repr

namespace V2Constructor

def run : V2Constructor → BuildResult HeaderBuilder
  | .proxy source destination => HeaderBuilder.v2Proxy source destination
  | .local => .ok HeaderBuilder.v2Local
  | .unix source destination protocol => .ok (HeaderBuilder.v2Unix source destination protocol)

/-- What arrives of an IP address. -/
def inetAddress (addr : SocketAddr) : ProxyAddress := .inet (SocketAddr.new addr.ip addr.port)

/-- What arrives of a Unix path: its first 108 bytes, up to the first NUL. -/
def unixAddress (path : List UInt8) : ProxyAddress := .unix (unixPath (path.take 108))

/-- The source address that arrives. -/
def source : V2Constructor → Option ProxyAddress
  | .proxy source _ => some (inetAddress source)
  | .local => none
  | .unix source _ _ => some (unixAddress source)

/-- The destination address that arrives. -/
def destination : V2Constructor → Option ProxyAddress
  | .proxy _ destination => some (inetAddress destination)
  | .local => none
  | .unix _ destination _ => some (unixAddress destination)

/-- The length of the address block. -/
def blockLen : V2Constructor → ℕ
  | .proxy source _ => if source.isIpv4 then 12 else 36
  | .local => 0
  | .unix _ _ _ => 216

end V2Constructor

/-! ## Builders describe targets -/

/-- The field of a path, as an array. -/
def unixOctets (path : List UInt8) : Octets 108 :=
  ⟨path.take 108 ++ List.replicate (108 - path.length) 0, by simp; omega⟩

/-- Filling up with NULs does not change where a path ends. -/
theorem unixPath_unixOctets (path : List UInt8) :
    unixPath (unixOctets path).bytes = unixPath (path.take 108) := by
  have hfill : (List.replicate (108 - path.length) (0 : UInt8)).takeWhile (· != 0) = [] := by
    cases 108 - path.length <;> simp [List.replicate_succ]
  simp only [unixOctets, unixPath, List.takeWhile_append, hfill, List.append_nil]
  split
  · -- no NUL in the path: the filling ends it
    rename_i h
    have hfront : (path.take 108).takeWhile (· != 0) <+: path.take 108 :=
      List.takeWhile_prefix _
    exact (hfront.eq_of_length h).symm
  · rfl

theorem describes_v2Local : Describes HeaderBuilder.v2Local (.local 0) where
  version := rfl
  command := rfl
  transport := rfl
  famProto := rfl
  block buf := by simp [HeaderBuilder.encodeBlock, HeaderBuilder.v2Local, Target.block]

theorem describes_v2Unix (source destination : List UInt8) (protocol : TransportProtocol) :
    Describes (HeaderBuilder.v2Unix source destination protocol)
      (.proxy (.unix (unixOctets source) (unixOctets destination)) protocol) where
  version := rfl
  command := rfl
  transport := rfl
  famProto := by cases protocol <;> rfl
  block buf := by
    simp only [HeaderBuilder.encodeBlock, HeaderBuilder.encodeAddresses, HeaderBuilder.v2Unix,
      unixField_eq, Outcome.ok_bind]
    rfl

/-- The address block of two addresses of one family. -/
def inetAddresses : SocketAddr → SocketAddr → Option Addresses
  | .v4 src srcPort, .v4 dst dstPort => some (.inet src dst srcPort dstPort)
  | .v6 src srcPort _ _, .v6 dst dstPort _ _ => some (.inet6 src dst srcPort dstPort)
  | _, _ => none

theorem describes_v2Proxy {source destination : SocketAddr} {b : HeaderBuilder}
    (h : HeaderBuilder.v2Proxy source destination = .ok b) :
    ∃ a, inetAddresses source destination = some a ∧ Describes b (.proxy a .stream) := by
  simp only [HeaderBuilder.v2Proxy, HeaderBuilder.proxy] at h
  rcases source with ⟨src, srcPort⟩ | ⟨src, srcPort, _, _⟩ <;>
    rcases destination with ⟨dst, dstPort⟩ | ⟨dst, dstPort, _, _⟩
  · cases h
    exact ⟨_, rfl, rfl, rfl, rfl, rfl, fun _ => rfl⟩
  · cases h
  · cases h
  · cases h
    exact ⟨_, rfl, rfl, rfl, rfl, rfl, fun _ => rfl⟩

theorem source_inetAddresses {source destination : SocketAddr} {a : Addresses}
    (h : inetAddresses source destination = some a) :
    a.source = V2Constructor.inetAddress source ∧
      a.destination = V2Constructor.inetAddress destination := by
  rcases source with ⟨src, srcPort⟩ | ⟨src, srcPort, _, _⟩ <;>
    rcases destination with ⟨dst, dstPort⟩ | ⟨dst, dstPort, _, _⟩ <;>
    cases h <;> exact ⟨rfl, rfl⟩

theorem length_inetAddresses {source destination : SocketAddr} {a : Addresses}
    (h : inetAddresses source destination = some a) :
    a.encode.length = if source.isIpv4 then 12 else 36 := by
  rw [a.length_encode]
  rcases source with ⟨src, srcPort⟩ | ⟨src, srcPort, _, _⟩ <;>
    rcases destination with ⟨dst, dstPort⟩ | ⟨dst, dstPort, _, _⟩ <;>
    cases h <;> rfl

/-- Every constructor makes a builder about a target with its addresses. -/
theorem describes_run {c : V2Constructor} {b : HeaderBuilder} (h : c.run = .ok b) :
    ∃ t, Describes b t ∧ t.source = c.source ∧ t.destination = c.destination ∧
      t.block.length = c.blockLen := by
  rcases c with ⟨source, destination⟩ | _ | ⟨source, destination, protocol⟩
  · rcases describes_v2Proxy h with ⟨a, ha, hd⟩
    rcases source_inetAddresses ha with ⟨hsrc, hdst⟩
    exact ⟨_, hd, congrArg some hsrc, congrArg some hdst, length_inetAddresses ha⟩
  · cases h
    exact ⟨_, describes_v2Local, rfl, rfl, rfl⟩
  · cases h
    refine ⟨_, describes_v2Unix source destination protocol, ?_, ?_,
      Addresses.length_encode (.unix (unixOctets source) (unixOctets destination))⟩
    · simp only [Target.source, Addresses.source, unixPath_unixOctets]
      rfl
    · simp only [Target.destination, Addresses.destination, unixPath_unixOctets]
      rfl

/-- A fresh builder has no TLVs and asks for no checksum. -/
theorem fresh_of_run {c : V2Constructor} {b : HeaderBuilder} (h : c.run = .ok b) :
    b.tlvEntries = [] ∧ b.addCrc32c = false := by
  rcases c with ⟨source, destination⟩ | _ | ⟨source, destination, protocol⟩
  · simp only [V2Constructor.run, HeaderBuilder.v2Proxy, HeaderBuilder.proxy,
      Outcome.ite_panic_eq_ok] at h
    rcases h with ⟨-, rfl⟩
    exact ⟨rfl, rfl⟩
  · cases h
    exact ⟨rfl, rfl⟩
  · cases h
    exact ⟨rfl, rfl⟩

/-- Calls change the protocol of the target at most. -/
theorem Describes.ran {b b' : HeaderBuilder} {t : Target} {calls : List WithCall}
    (hd : Describes b t) (hr : Ran calls b b') :
    ∃ t', Describes b' t' ∧ t'.source = t.source ∧ t'.destination = t.destination ∧
      t'.block = t.block := by
  -- the address block depends on fields that no call changes
  have hblock : ∀ buf, b'.encodeBlock buf = b.encodeBlock buf := by
    intro buf
    simp only [HeaderBuilder.encodeBlock, HeaderBuilder.encodeAddresses, hr.command, hr.source,
      hr.destination]
  have hfamily := hr.family
  rw [hd.transport] at hfamily
  rcases t with famProto | ⟨a, p⟩
  · have hnone : b'.transport = none := by
      simpa [Target.transport] using hfamily
    have hzero : b.famProto = b'.famProto := by
      simp only [HeaderBuilder.famProto, hnone, hd.transport, Target.transport]
    exact ⟨.local famProto, ⟨hr.version.trans hd.version, hr.command.trans hd.command, hnone,
      hzero ▸ hd.famProto, fun buf => (hblock buf).trans (hd.block buf)⟩, rfl, rfl, rfl⟩
  · obtain ⟨⟨f, p'⟩, htr, hf⟩ : ∃ tr, b'.transport = some tr ∧ tr.family = a.family := by
      simpa [Target.transport] using hfamily
    simp only at hf
    subst hf
    refine ⟨.proxy a p', ⟨hr.version.trans hd.version, hr.command.trans hd.command, htr, ?_,
      fun buf => (hblock buf).trans (hd.block buf)⟩, rfl, rfl, rfl⟩
    simp only [HeaderBuilder.famProto, htr, Target.famProto]
    cases a.family <;> cases p' <;> rfl

/-- A builder that a constructor and calls have made: its target, its TLVs and
whether it adds a checksum. -/
theorem describes_calls {c : V2Constructor} {calls : List WithCall} {b : HeaderBuilder}
    (hb : (c.run >>= applyAll calls) = .ok b) :
    ∃ t, Describes b t ∧ t.source = c.source ∧ t.destination = c.destination ∧
      t.block.length = c.blockLen ∧ b.tlvEntries = calls.flatMap WithCall.pushed ∧
      b.addCrc32c = decide (.crc32c ∈ calls) := by
  rcases Outcome.bind_eq_ok.mp hb with ⟨b₀, hrun, hcalls⟩
  rcases describes_run hrun with ⟨t₀, hd₀, hsrc₀, hdst₀, hlen₀⟩
  rcases fresh_of_run hrun with ⟨hnil, hno⟩
  have hran := applyAll_spec hcalls
  rcases hd₀.ran hran with ⟨t, hd, hsrc, hdst, hblock⟩
  refine ⟨t, hd, hsrc.trans hsrc₀, hdst.trans hdst₀, by rw [hblock, hlen₀], ?_, ?_⟩
  · rw [hran.tlvEntries, hnil, List.nil_append]
  · rw [hran.addCrc32c, hno, Bool.false_or]

/-! ## Reading what was built -/

/-- The checksum TLV at the end of a header, zeroed again. -/
theorem patch_concat_crc (t : Target) (rs : List Record) {v : List UInt8} {pos : ℕ}
    (hv : v.length = 4) (hpos : (crcFront t rs).length = pos) :
    patch (headerBytes t (rs ++ [(0x03, v)])) pos [0, 0, 0, 0] =
      headerBytes t (rs ++ [zeroCrc]) := by
  have hzero : headerBytes t (rs ++ [zeroCrc]) = crcFront t rs ++ [0, 0, 0, 0] :=
    headerBytes_concat_crc t rs rfl
  have h := patch_append hpos (show v.length = ([0, 0, 0, 0] : List UInt8).length from hv) []
  rwa [List.append_nil, List.append_nil, ← headerBytes_concat_crc t rs hv, ← hzero] at h

theorem length_crcFront (t : Target) (rs : List Record) :
    (crcFront t rs).length = 16 + t.block.length + (encodeAll rs).length + 3 := by
  simp [crcFront, v2Signature]
  omega

/-- A header whose only checksum is the one `build` computes is accepted. -/
theorem parseV2_withChecksum {C : Crc32c} (hC : C.Composes) {h : V2Header} {addCrc32c : Bool}
    {rs : List Record} (htlvs : h.tlvs = withChecksum C addCrc32c h.target rs)
    (hrs : ∀ q ∈ rs, q.1 ≠ 0x03) (r : List UInt8) :
    parseV2 C (h.encode ++ r) = .ok (h.info, h.encode.length) := by
  cases addCrc32c with
  | false =>
      apply parseV2_of_no_crc
      rw [htlvs]
      exact hrs
  | true =>
      simp only [withChecksum, if_true] at htlvs
      have hc : h.info.tlvs.crc32c =
          some (C.crc32c (headerBytes h.target (rs ++ [zeroCrc]))) := by
        rw [h.crc32c_info, htlvs, lastOf_concat, if_pos rfl, Option.bind_some]
        exact be32_tryFrom_be32Bytes _
      -- zeroing the only checksum gives the bytes `build` has hashed
      have hzeroed : h.zeroed = headerBytes h.target (rs ++ [zeroCrc]) := by
        rw [V2Header.zeroed, V2Header.encode, htlvs, crcOffset_first hrs]
        exact patch_concat_crc h.target rs rfl (length_crcFront h.target rs)
      rw [parseV2_of_crc hC hc, hzeroed, if_pos rfl]

/-- A header that the builder wrote is accepted. -/
theorem parse_built {C : Crc32c} (hC : C.Composes) {b : HeaderBuilder} {t : Target}
    (hd : Describes b t) (hacc : ∀ r ∈ b.tlvEntries, Accepted r ∧ r.1 ≠ 0x03)
    {bytes : List UInt8} (hbuild : b.build C = .ok bytes) (r : List UInt8) :
    ∃ h : V2Header, h.target = t ∧ h.tlvs = withChecksum C b.addCrc32c t b.tlvEntries ∧
      bytes = h.encode ∧ parse C (bytes ++ r) = .ok (h.info, bytes.length) := by
  rw [HeaderBuilder.build, hd.version] at hbuild
  rcases (buildV2_eq_ok hd).mp hbuild with ⟨hfits, hlen, rfl⟩
  -- the pushed TLVs are accepted, and the checksum TLV has four bytes
  have hok : ∀ q ∈ withChecksum C b.addCrc32c t b.tlvEntries, q.Fits ∧ Accepted q := by
    intro q hq
    have hpushed : q ∈ b.tlvEntries → q.Fits ∧ Accepted q := fun h => ⟨hfits q h, (hacc q h).1⟩
    unfold withChecksum at hq
    split at hq
    · rcases List.mem_append.mp hq with hq | hq
      · exact hpushed hq
      · rw [List.mem_singleton] at hq
        subst hq
        exact ⟨by simp [Fits], ⟨fun _ => rfl, fun h => by simp at h, fun h => by simp at h⟩⟩
    · exact hpushed hq
  refine ⟨⟨t, _, hok, hlen⟩, rfl, rfl, rfl, ?_⟩
  rw [parse_eq_parseV2 C rfl]
  exact parseV2_withChecksum hC (h := ⟨t, _, hok, hlen⟩) rfl (fun q hq => (hacc q hq).2) r

theorem lastOf_withChecksum {C : Crc32c} {addCrc32c : Bool} {t : Target} {rs : List Record}
    {ty : UInt8} (h : (0x03 : UInt8) ≠ ty) :
    lastOf ty (withChecksum C addCrc32c t rs) = lastOf ty rs := by
  unfold withChecksum
  split
  · rw [lastOf_concat, if_neg h]
  · rfl

/-- Decode undoes encode. -/
theorem parse_build_v2 {C : Crc32c} (hC : C.Composes) (c : V2Constructor) (calls : List WithCall)
    (hraw : ∀ call ∈ calls, ¬ call.IsChecked) {b : HeaderBuilder} {h : List UInt8}
    (hb : (c.run >>= applyAll calls) = .ok b) (hh : b.build C = .ok h) (r : List UInt8) :
    ∃ info, parse C (h ++ r) = .ok (info, h.length) ∧
      info.version = .v2 ∧ info.command = b.command ∧ info.transport = b.transport ∧
      info.source = c.source ∧ info.destination = c.destination ∧
      info.tlvs.raw = calls.flatMap WithCall.pushed ++
        (if .crc32c ∈ calls then
          [(0x03, be32Bytes (C.crc32c (patch h (h.length - 4) [0, 0, 0, 0])))] else []) ∧
      info.tlvs.alpn = lastOf 0x01 (calls.flatMap WithCall.pushed) ∧
      info.tlvs.authority = (lastOf 0x02 (calls.flatMap WithCall.pushed)).map bytesToString ∧
      info.tlvs.uniqueId = lastOf 0x05 (calls.flatMap WithCall.pushed) ∧
      info.tlvs.netns = (lastOf 0x30 (calls.flatMap WithCall.pushed)).map bytesToString := by
  rcases Outcome.bind_eq_ok.mp hb with ⟨b₀, -, hcalls⟩
  -- constructor and calls, then the build
  rcases describes_calls hb with ⟨t, hd, hsrc, hdst, -, hentries, hflag⟩
  have hacc := accepted_of_applyAll hcalls hraw
  rw [← hentries] at hacc ⊢
  rcases parse_built hC hd hacc hh r with ⟨hdr, rfl, htlvs, rfl, hparse⟩
  refine ⟨_, hparse, rfl, hd.command.symm, hd.transport.symm, hsrc, hdst, ?_, ?_⟩
  · rw [V2Header.info, raw_collect, htlvs, withChecksum, hflag]
    by_cases hcrc : .crc32c ∈ calls
    · -- the hashed bytes are the header itself with its last four bytes zero
      have hencode : hdr.encode = headerBytes hdr.target (b.tlvEntries ++
          [(0x03, be32Bytes (C.crc32c (headerBytes hdr.target (b.tlvEntries ++ [zeroCrc]))))]) := by
        rw [V2Header.encode, htlvs, withChecksum, hflag]
        simp [hcrc]
      have hpos : (crcFront hdr.target b.tlvEntries).length = hdr.encode.length - 4 := by
        rw [hencode, headerBytes_concat_crc _ _ rfl, List.length_append, length_be32Bytes,
          Nat.add_sub_cancel]
      have hzero := patch_concat_crc hdr.target b.tlvEntries (length_be32Bytes
        (C.crc32c (headerBytes hdr.target (b.tlvEntries ++ [zeroCrc])))) hpos
      rw [← hencode] at hzero
      rw [if_pos hcrc, hzero]
      simp [hcrc]
    · simp [hcrc]
  · simp only [V2Header.info, collect_eq, htlvs]
    refine ⟨?_, ?_, ?_, ?_⟩ <;> rw [lastOf_withChecksum (by decide)]

/-- Two IPv4 addresses, a protocol name and a checksum, followed by data. -/
theorem parse_build_v2_alpn_checksum :
    ∃ info, parse .castagnoli (v2Signature ++ [0x21, 0x11, 0, 24, 192, 0, 2, 1, 198, 51, 100, 7,
        220, 4, 1, 187, 0x01, 0, 2, 0x68, 0x32, 0x03, 0, 4, 215, 94, 174, 163] ++ [0x47]) =
          .ok (info, 40) ∧
      info.source = some (.inet (.v4 (.new 192 0 2 1) 56324)) ∧
      info.tlvs.alpn = some [0x68, 0x32] := by
  let b : HeaderBuilder :=
    { version := .v2, command := .proxy, transport := some ⟨.inet, .stream⟩,
      source := some (.inet (.v4 (.new 192 0 2 1) 56324)),
      destination := some (.inet (.v4 (.new 198 51 100 7) 443)),
      tlvEntries := [(0x01, [0x68, 0x32])], addCrc32c := true }
  have hb : ((V2Constructor.proxy (.v4 (.new 192 0 2 1) 56324) (.v4 (.new 198 51 100 7) 443)).run
      >>= applyAll [.alpn [0x68, 0x32], .crc32c]) = .ok b := rfl
  have hh : b.build .castagnoli = .ok (v2Signature ++ [0x21, 0x11, 0, 24, 192, 0, 2, 1, 198, 51,
      100, 7, 220, 4, 1, 187, 0x01, 0, 2, 0x68, 0x32, 0x03, 0, 4, 215, 94, 174, 163]) := by
    decide +kernel
  rcases parse_build_v2 Crc32c.castagnoli_composes _ _ (by simp [WithCall.IsChecked]) hb hh [0x47]
      with ⟨info, hparse, -, -, -, hsrc, -, -, halpn, -⟩
  exact ⟨info, hparse, hsrc, halpn⟩

/-! ## Building what was read -/

/-- The call that pushes a record as it is. -/
def WithCall.ofRecord (r : Record) : WithCall := .rawTlv r.1 r.2

theorem applyAll_ofRecord (rs : List Record) (b : HeaderBuilder) :
    applyAll (rs.map WithCall.ofRecord) b = .ok { b with tlvEntries := b.tlvEntries ++ rs } := by
  induction rs generalizing b with
  | nil => simp [applyAll]
  | cons r rs ih =>
      rw [List.map_cons, applyAll]
      simp only [WithCall.ofRecord, WithCall.apply, Outcome.ok_bind, ih,
        HeaderBuilder.withRawTlv, HeaderBuilder.push]
      simp

/-- IP addresses that arrived are accepted by `v2_proxy`. -/
theorem exists_v2Proxy {a : Addresses} (hf : a.family ≠ .unix) :
    ∃ src dst b, a.source = .inet src ∧ a.destination = .inet dst ∧
      HeaderBuilder.v2Proxy src dst = .ok b ∧ Describes b (.proxy a .stream) := by
  have hmk : ∀ src dst b, HeaderBuilder.v2Proxy src dst = .ok b →
      inetAddresses src dst = some a → Describes b (.proxy a .stream) := by
    intro src dst b hb ha
    rcases describes_v2Proxy hb with ⟨a', ha', hd⟩
    rw [ha] at ha'
    cases ha'
    exact hd
  rcases a with ⟨src, dst, sp, dp⟩ | ⟨src, dst, sp, dp⟩ | ⟨src, dst⟩
  · exact ⟨.v4 src sp, .v4 dst dp, _, rfl, rfl, rfl, hmk (.v4 src sp) (.v4 dst dp) _ rfl rfl⟩
  · exact ⟨.v6 src sp 0 0, .v6 dst dp 0 0, _, rfl, rfl, rfl,
      hmk (.v6 src sp 0 0) (.v6 dst dp 0 0) _ rfl rfl⟩
  · exact absurd rfl hf

/-- A header with IP addresses is what the builder makes of its parts. -/
theorem build_header (C : Crc32c) {h : V2Header} {a : Addresses} {p : TransportProtocol}
    (ht : h.target = .proxy a p) (hf : a.family ≠ .unix) :
    ∃ src dst, a.source = .inet src ∧ a.destination = .inet dst ∧
      (HeaderBuilder.v2Proxy src dst >>=
        applyAll (.transportProtocol p :: h.tlvs.map WithCall.ofRecord) >>=
        HeaderBuilder.build C) = .ok h.encode := by
  rcases exists_v2Proxy hf with ⟨src, dst, b, hsrc, hdst, hb, hd⟩
  refine ⟨src, dst, hsrc, hdst, ?_⟩
  rcases fresh_of_run (show (V2Constructor.proxy src dst).run = .ok b from hb) with ⟨hnil, hno⟩
  have hd' : Describes { b.withTransportProtocol p with tlvEntries := h.tlvs } (.proxy a p) := by
    refine ⟨hd.version, hd.command, ?_, ?_, hd.block⟩
    · simp [HeaderBuilder.withTransportProtocol, hd.transport, Target.transport]
    · simp only [HeaderBuilder.famProto, HeaderBuilder.withTransportProtocol, hd.transport,
        Target.transport, Option.map_some, Target.famProto]
      cases a.family <;> cases p <;> rfl
  rw [hb, Outcome.ok_bind, applyAll]
  simp only [WithCall.apply, Outcome.ok_bind, applyAll_ofRecord]
  rw [show (b.withTransportProtocol p).tlvEntries = [] from hnil, List.nil_append,
    HeaderBuilder.build, hd'.version]
  have hlen := h.length_le
  rw [ht] at hlen
  have hrecords : withChecksum C (b.withTransportProtocol p).addCrc32c (.proxy a p) h.tlvs =
      h.tlvs := by
    rw [show (b.withTransportProtocol p).addCrc32c = false from hno]
    rfl
  refine (buildV2_eq_ok hd').mpr ⟨fun r hr => (h.tlvs_ok r hr).1, ?_, ?_⟩
  · rwa [hrecords]
  · rw [hrecords, V2Header.encode, ht]

/-- Encode undoes decode for PROXY headers with IP addresses, and so no two of
them say the same. -/
theorem build_parse_v2 (C : Crc32c) {b : List UInt8} {info : ProxyInfo} {n : ℕ}
    (h : parse C b = .ok (info, n)) (hv : info.version = .v2) (hc : info.command = .proxy)
    {tr : Transport} (htr : info.transport = some tr)
    (hf : tr.family = .inet ∨ tr.family = .inet6) :
    (∃ src dst, info.sourceInet = some src ∧ info.destinationInet = some dst ∧
      (HeaderBuilder.v2Proxy src dst >>=
        applyAll (.transportProtocol tr.protocol :: info.tlvs.raw.map WithCall.ofRecord) >>=
        HeaderBuilder.build C) = .ok (b.take n)) ∧
    ∀ b' n', parse C b' = .ok (info, n') → b'.take n' = b.take n := by
  -- the builder's result is a function of `info`
  have hbuild : ∀ {b : List UInt8} {n : ℕ}, parse C b = .ok (info, n) →
      ∃ src dst, info.sourceInet = some src ∧ info.destinationInet = some dst ∧
        (HeaderBuilder.v2Proxy src dst >>=
          applyAll (.transportProtocol tr.protocol :: info.tlvs.raw.map WithCall.ofRecord) >>=
          HeaderBuilder.build C) = .ok (b.take n) := by
    intro b n h
    rcases exists_header_of_parse h (.inl hv) hc with ⟨hdr, a, p, extra, ht, rfl, rfl, rfl⟩
    have htransport : tr = ⟨a.family, p⟩ := by
      rw [V2Header.info, ht] at htr
      exact (Option.some.inj htr).symm
    subst htransport
    have hfamily : a.family ≠ .unix := by
      rcases hf with hf | hf <;> simp only at hf <;> rw [hf] <;> decide
    rcases build_header C ht hfamily with ⟨src, dst, hsrc, hdst, hbuilt⟩
    refine ⟨src, dst, ?_, ?_, ?_⟩
    · simp [ProxyInfo.sourceInet, V2Header.info, ht, Target.source, hsrc, ProxyAddress.asInet]
    · simp [ProxyInfo.destinationInet, V2Header.info, ht, Target.destination, hdst,
        ProxyAddress.asInet]
    · rw [List.take_left, ← hbuilt, V2Header.info, raw_collect]
  refine ⟨hbuild h, ?_⟩
  -- so two headers with the same data are the result of the same calls
  intro b' n' h'
  rcases hbuild h with ⟨src, dst, hsrc, hdst, hbuilt⟩
  rcases hbuild h' with ⟨src', dst', hsrc', hdst', hbuilt'⟩
  rw [hsrc] at hsrc'
  rw [hdst] at hdst'
  cases hsrc'
  cases hdst'
  rw [hbuilt] at hbuilt'
  exact (Outcome.ok.inj hbuilt').symm

/-- A header for two IPv4 addresses with a padding TLV. -/
theorem build_parse_v2_padding :
    let b : List UInt8 := v2Signature ++ [0x21, 0x11, 0, 16, 192, 0, 2, 1, 198, 51, 100, 7,
      220, 4, 1, 187, 0x04, 0, 1, 0]
    ∃ src dst, (HeaderBuilder.v2Proxy src dst >>=
      applyAll [.transportProtocol .stream, .rawTlv 0x04 [0]] >>=
      HeaderBuilder.build .castagnoli) = .ok b := by
  intro b
  have hparse : parse .castagnoli b = .ok (⟨.v2, .proxy, some ⟨.inet, .stream⟩,
      some (.inet (.v4 (.new 192 0 2 1) 56324)), some (.inet (.v4 (.new 198 51 100 7) 443)),
      { raw := [(0x04, [0])] }⟩, 32) := by decide
  rcases build_parse_v2 .castagnoli hparse rfl rfl rfl (.inl rfl) with ⟨⟨src, dst, -, -, hbuild⟩, -⟩
  exact ⟨src, dst, hbuild⟩

/-! ## SSL values -/

theorem lastOf_optional (ty ty' : UInt8) (field : Option (List UInt8)) :
    lastOf ty (optional ty' field) = if ty' = ty then field else none := by
  cases field <;> simp [optional, lastOf]

/-- The fields of a list of sub-TLVs, one for each field that is present. -/
theorem sslInfo_sslSubTlvs {ssl : SslInfo}
    (hflags : ssl.clientFlags.bits &&& SslClientFlags.all = ssl.clientFlags.bits) :
    sslInfo ssl.clientFlags.bits (if ssl.verified then 0 else 1) (sslSubTlvs ssl) = ssl := by
  have htext : ∀ field : Option Str, (field.map Str.bytes).map bytesToString = field := by
    intro field
    cases field with
    | none => rfl
    | some s => exact congrArg some (bytesToString_bytes s)
  have hflags' : SslClientFlags.fromBitsTruncate ssl.clientFlags.bits = ssl.clientFlags :=
    congrArg SslClientFlags.mk hflags
  have hverified : ((if ssl.verified then 0 else 1 : UInt32) == 0) = ssl.verified := by
    cases ssl.verified <;> rfl
  rw [sslInfo_eq, hflags', hverified]
  -- every type stands for one field, so the other pieces of the list have no part in it
  simp only [sslSubTlvs, lastOf_append, lastOf_optional]
  simp [htext]

/-- Every value that is present can be the value of a sub-TLV. -/
def SslInfo.ValuesFit (ssl : SslInfo) : Prop :=
  (∀ field ∈ [ssl.version, ssl.cipher, ssl.sigAlg, ssl.keyAlg, ssl.cn, ssl.group,
    ssl.sigScheme], ∀ s ∈ field, s.bytes.length ≤ 65535) ∧
  ∀ cert ∈ ssl.clientCert, cert.length ≤ 65535

theorem fits_of_optional {ty : UInt8} {field : Option (List UInt8)}
    (h : ∀ value ∈ field, value.length ≤ 65535) : ∀ r ∈ optional ty field, r.Fits := by
  intro r hr
  simp only [optional, Option.mem_toList, Option.map_eq_some_iff] at hr
  rcases hr with ⟨value, hvalue, rfl⟩
  exact h value hvalue

theorem SslInfo.ValuesFit.fits {ssl : SslInfo} (h : ssl.ValuesFit) :
    ∀ r ∈ sslSubTlvs ssl, r.Fits := by
  have htext : ∀ {ty : UInt8} (field : Option Str), field ∈ [ssl.version, ssl.cipher, ssl.sigAlg,
      ssl.keyAlg, ssl.cn, ssl.group, ssl.sigScheme] →
      ∀ r ∈ optional ty (field.map Str.bytes), r.Fits := by
    intro ty field hfield
    apply fits_of_optional
    intro value hvalue
    rcases Option.map_eq_some_iff.mp hvalue with ⟨s, hs, rfl⟩
    exact h.1 field hfield s hs
  intro r hr
  simp only [sslSubTlvs, List.mem_append] at hr
  rcases hr with hr | hr | hr | hr | hr | hr | hr | hr
  · exact htext ssl.version (by simp) r hr
  · exact htext ssl.cn (by simp) r hr
  · exact htext ssl.cipher (by simp) r hr
  · exact htext ssl.sigAlg (by simp) r hr
  · exact htext ssl.keyAlg (by simp) r hr
  · exact htext ssl.group (by simp) r hr
  · exact htext ssl.sigScheme (by simp) r hr
  · exact fits_of_optional h.2 r hr

/-- SSL metadata survives encoding. The offset is where the value stands in
the region `parse_tlvs` was given, so the value ends inside the address space. -/
theorem parse_encode_ssl {ssl : SslInfo}
    (hflags : ssl.clientFlags.bits &&& SslClientFlags.all = ssl.clientFlags.bits)
    (hfit : ssl.ValuesFit) :
    ∃ value, encodeSslTlvValue ssl = .ok value ∧ 5 ≤ value.length ∧
      ∀ outerOffset, outerOffset + value.length ≤ Outcome.usizeMax →
        parseSsl value outerOffset = .ok ssl := by
  have hencode := encodeSslTlvValue_eq_ok.mpr ⟨hfit.fits, rfl⟩
  have hvalue := isSslValue_of_encode hencode
  rw [sslInfo_sslSubTlvs hflags] at hvalue
  refine ⟨_, hencode, ?_, fun outerOffset hoff => parseSsl_of_isSslValue hvalue hoff⟩
  simp only [List.length_cons, List.length_append, length_be32Bytes]
  omega

/-- A verified connection with a version, an empty cipher and a certificate
whose bytes look like a sub-TLV. -/
theorem parse_encode_ssl_certificate :
    let ssl : SslInfo :=
      { clientFlags := ⟨0x05⟩, verified := true,
        version := some ⟨[0x54, 0x4C, 0x53, 0x76, 0x31, 0x2E, 0x33], by decide⟩,
        cipher := some ⟨[], by decide⟩, clientCert := some [0x22, 0x00, 0x01, 0x41] }
    let value : List UInt8 :=
      [0x05, 0, 0, 0, 0, 0x21, 0x00, 0x07, 0x54, 0x4C, 0x53, 0x76, 0x31, 0x2E, 0x33,
        0x23, 0x00, 0x00, 0x28, 0x00, 0x04, 0x22, 0x00, 0x01, 0x41]
    encodeSslTlvValue ssl = .ok value ∧ parseSsl value 3 = .ok ssl ∧
      parseSsl value Outcome.isizeMax = .ok ssl := by
  intro ssl value
  have hfit : ssl.ValuesFit := by
    unfold ssl
    simp [SslInfo.ValuesFit]
  have hvalue : encodeSslTlvValue ssl = .ok value := by decide
  rcases parse_encode_ssl (show ssl.clientFlags.bits &&& SslClientFlags.all = _ by decide) hfit with
    ⟨value', hvalue', -, hparse⟩
  rw [hvalue] at hvalue'
  cases hvalue'
  exact ⟨hvalue, hparse 3 (by decide), hparse _ (by decide)⟩

end ProxyProtocol
