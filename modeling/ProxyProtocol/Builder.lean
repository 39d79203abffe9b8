import ProxyProtocol.Format

/-! # The header builder

`builder.rs`. Assertions of the source are panics of the model; nothing else
can go wrong, so the error type is empty.

A builder is made by one of five constructors and then changed by any number
of `with_*` calls; `WithCall` lists these, and `applyAll` runs a sequence of
them.

* `applyAll_spec`: what a sequence of calls leaves in a builder.
* `buildV2_eq`: building a v2 header is writing the bytes of a target and the
  pushed TLVs, with a checksum TLV at the end if one was asked for.
-/

namespace ProxyProtocol

open Wire Wire.Record

/-- Results of the builder: a value or a panic. -/
abbrev BuildResult (α : Type) := Outcome Empty α

structure HeaderBuilder where
  version : Version
  command : Command
  transport : Option Transport
  source : Option ProxyAddress
  destination : Option ProxyAddress
  tlvEntries : List Record
  addCrc32c : Bool
deriving DecidableEq, Repr

/-! ## SSL values -/

def encodeSubTlv (buf : List UInt8) (typeByte : UInt8) (value : List UInt8) :
    BuildResult (List UInt8) :=
  if value.length ≤ 65535 then .ok (buf ++ encode (typeByte, value)) else .panic

/-- A sub-TLV for a field that is present. -/
def encodeOptional (typeByte : UInt8) (field : Option (List UInt8)) (buf : List UInt8) :
    BuildResult (List UInt8) :=
  match field with
  | some value => encodeSubTlv buf typeByte value
  | none => .ok buf

def encodeSslTlvValue (ssl : SslInfo) : BuildResult (List UInt8) := do
  let buf := [ssl.clientFlags.bits]
  -- zero stands for a verified certificate
  let verify : UInt32 := if ssl.verified then 0 else 1
  let buf := buf ++ be32Bytes verify
  let buf ← encodeOptional 0x21 (ssl.version.map Str.bytes) buf
  let buf ← encodeOptional 0x22 (ssl.cn.map Str.bytes) buf
  let buf ← encodeOptional 0x23 (ssl.cipher.map Str.bytes) buf
  let buf ← encodeOptional 0x24 (ssl.sigAlg.map Str.bytes) buf
  let buf ← encodeOptional 0x25 (ssl.keyAlg.map Str.bytes) buf
  let buf ← encodeOptional 0x26 (ssl.group.map Str.bytes) buf
  let buf ← encodeOptional 0x27 (ssl.sigScheme.map Str.bytes) buf
  encodeOptional 0x28 ssl.clientCert buf

namespace HeaderBuilder

/-! ## Constructors -/

/-- A PROXY header for two addresses of one family. -/
def proxy (version : Version) (source destination : SocketAddr) : BuildResult HeaderBuilder :=
  if source.isIpv4 = destination.isIpv4 then
    .ok { version, command := .proxy,
          transport := some ⟨if source.isIpv4 then .inet else .inet6, .stream⟩,
          source := some (.inet source), destination := some (.inet destination),
          tlvEntries := [], addCrc32c := false }
  else .panic

def v2Proxy (source destination : SocketAddr) : BuildResult HeaderBuilder :=
  proxy .v2 source destination

def v1Proxy (source destination : SocketAddr) : BuildResult HeaderBuilder :=
  proxy .v1 source destination

def v2Local : HeaderBuilder where
  version := .v2
  command := .local
  transport := none
  source := none
  destination := none
  tlvEntries := []
  addCrc32c := false

def v1Unknown : HeaderBuilder where
  version := .v1
  command := .proxy
  transport := none
  source := none
  destination := none
  tlvEntries := []
  addCrc32c := false

def v2Unix (source destination : List UInt8) (protocol : TransportProtocol) : HeaderBuilder where
  version := .v2
  command := .proxy
  transport := some ⟨.unix, protocol⟩
  source := some (.unix source)
  destination := some (.unix destination)
  tlvEntries := []
  addCrc32c := false

/-! ## Calls -/

def push (b : HeaderBuilder) (r : Record) : HeaderBuilder :=
  { b with tlvEntries := b.tlvEntries ++ [r] }

def withTransportProtocol (b : HeaderBuilder) (protocol : TransportProtocol) : HeaderBuilder :=
  { b with transport := b.transport.map fun t => { t with protocol } }

def withAuthority (b : HeaderBuilder) (authority : Str) : HeaderBuilder :=
  b.push (0x02, authority.bytes)

def withUniqueId (b : HeaderBuilder) (id : List UInt8) : BuildResult HeaderBuilder :=
  if id.length ≤ 128 then .ok (b.push (0x05, id)) else .panic

def withAlpn (b : HeaderBuilder) (alpn : List UInt8) : HeaderBuilder := b.push (0x01, alpn)

def withSsl (b : HeaderBuilder) (ssl : SslInfo) : BuildResult HeaderBuilder := do
  let value ← encodeSslTlvValue ssl
  .ok (b.push (0x20, value))

def withNetns (b : HeaderBuilder) (netns : Str) : HeaderBuilder := b.push (0x30, netns.bytes)

def withRawTlv (b : HeaderBuilder) (typeByte : UInt8) (value : List UInt8) : HeaderBuilder :=
  b.push (typeByte, value)

def withPadding (b : HeaderBuilder) (len : UInt16) : HeaderBuilder :=
  b.push (0x04, List.replicate len.toNat 0)

def withCrc32c (b : HeaderBuilder) : HeaderBuilder := { b with addCrc32c := true }

end HeaderBuilder

/-- A `with_*` call. -/
inductive WithCall where
  | transportProtocol (protocol : TransportProtocol)
  | authority (s : Str)
  | uniqueId (id : List UInt8)
  | alpn (value : List UInt8)
  | ssl (info : SslInfo)
  | netns (s : Str)
  | rawTlv (typeByte : UInt8) (value : List UInt8)
  | padding (len : UInt16)
  | crc32c
deriving DecidableEq, Repr

def WithCall.apply (b : HeaderBuilder) : WithCall → BuildResult HeaderBuilder
  | .transportProtocol p => .ok (b.withTransportProtocol p)
  | .authority s => .ok (b.withAuthority s)
  | .uniqueId id => b.withUniqueId id
  | .alpn v => .ok (b.withAlpn v)
  | .ssl info => b.withSsl info
  | .netns s => .ok (b.withNetns s)
  | .rawTlv ty v => .ok (b.withRawTlv ty v)
  | .padding len => .ok (b.withPadding len)
  | .crc32c => .ok b.withCrc32c

def applyAll : List WithCall → HeaderBuilder → BuildResult HeaderBuilder
  | [], b => .ok b
  | call :: calls, b => do
      let b ← call.apply b
      applyAll calls b

namespace HeaderBuilder

/-! ## Building -/

/-- `PROXY`, the keyword and the rest of the line. -/
def v1Text (fields : List (List UInt8)) : List UInt8 :=
  List.intercalate [0x20] ([0x50, 0x52, 0x4F, 0x58, 0x59] :: fields) ++ [0x0D, 0x0A]

def buildV1 (b : HeaderBuilder) : BuildResult (List UInt8) :=
  match b.source, b.destination, b.transport with
  | some (.inet src), some (.inet dst), some transport => do
      let proto ← match transport.family with
        | .inet => .ok tcp4
        | .inet6 => .ok tcp6
        -- `unreachable!()`
        | .unix => .panic
      .ok (v1Text [proto, src.ip.display, dst.ip.display, digitsOf 10 src.port.toNat,
        digitsOf 10 dst.port.toNat])
  | _, _, _ => .ok (proxyUnknown ++ [0x0D, 0x0A])

/-- A path in a field of 108 bytes, cut or filled with NULs. -/
def unixField (path : List UInt8) : BuildResult (List UInt8) := do
  let head ← Outcome.sliceTo path (min path.length 108)
  Outcome.copyFromSlice (List.replicate 108 0) 0 head

def encodeAddresses (b : HeaderBuilder) (buf : List UInt8) : BuildResult (List UInt8) :=
  match b.source, b.destination with
  | some (.inet src), some (.inet dst) =>
      match src.ip, dst.ip with
      | .v4 s, .v4 d =>
          .ok (buf ++ (s.octets.bytes ++
            (d.octets.bytes ++ (be16Bytes src.port ++ be16Bytes dst.port))))
      | .v6 s, .v6 d =>
          .ok (buf ++ (s.octets.bytes ++
            (d.octets.bytes ++ (be16Bytes src.port ++ be16Bytes dst.port))))
      -- mixed families, which no constructor makes, write nothing
      | _, _ => .ok buf
  | some (.unix src), some (.unix dst) => do
      let srcField ← unixField src
      let dstField ← unixField dst
      .ok (buf ++ (srcField ++ dstField))
  | _, _ => .ok buf

/-- LOCAL headers have no address block. -/
def encodeBlock (b : HeaderBuilder) (buf : List UInt8) : BuildResult (List UInt8) :=
  match b.command with
  | .local => .ok buf
  | .proxy => b.encodeAddresses buf

/-- The loop over the pushed TLVs. -/
def encodeTlvs : List Record → List UInt8 → BuildResult (List UInt8)
  | [], buf => .ok buf
  | r :: rs, buf =>
      if r.2.length ≤ 65535 then encodeTlvs rs (buf ++ encode r) else .panic

/-- The family and protocol byte. -/
def famProto (b : HeaderBuilder) : UInt8 :=
  let (fam, proto) : UInt8 × UInt8 := match b.transport with
    | some t =>
        (match t.family with | .inet => 1 | .inet6 => 2 | .unix => 3,
          match t.protocol with | .stream => 1 | .datagram => 2)
    | none => (0, 0)
  (fam <<< 4) ||| proto

/-- The end of `build_v2`: the checksum TLV, the payload length and the
checksum. -/
def finishV2 (C : Crc32c) (addCrc32c : Bool) (lenPos : ℕ) (buf : List UInt8) :
    BuildResult (List UInt8) := do
  -- placeholder for the checksum, always last
  let buf := if addCrc32c then buf ++ ([0x03] ++ be16Bytes 4 ++ [0, 0, 0, 0]) else buf
  let payloadLen ← Outcome.sub buf.length 16
  if payloadLen ≤ 65535 then do
    -- the length goes in first, so that the checksum covers it
    let buf ← Outcome.copyFromSlice buf lenPos (be16Bytes (UInt16.ofNat payloadLen))
    if addCrc32c then do
      let crcPos ← Outcome.sub buf.length 4
      Outcome.copyFromSlice buf crcPos (be32Bytes (C.crc32c buf))
    else .ok buf
  else .panic

def buildV2 (C : Crc32c) (b : HeaderBuilder) : BuildResult (List UInt8) := do
  let cmdNibble : UInt8 := match b.command with
    | .local => 0x00
    | .proxy => 0x01
  let buf := v2Signature ++ [0x20 ||| cmdNibble] ++ [b.famProto]
  -- placeholder for the payload length
  let lenPos := buf.length
  let buf ← b.encodeBlock (buf ++ [0, 0])
  let buf ← encodeTlvs b.tlvEntries buf
  finishV2 C b.addCrc32c lenPos buf

def build (C : Crc32c) (b : HeaderBuilder) : BuildResult (List UInt8) :=
  match b.version with
  | .v1 => b.buildV1
  | .v2 => b.buildV2 C

end HeaderBuilder

/-! ## SSL values as records -/

/-- The record of an optional field. -/
def optional (ty : UInt8) (field : Option (List UInt8)) : List Record :=
  (field.map fun value => (ty, value)).toList

def sslSubTlvs (ssl : SslInfo) : List Record :=
  optional 0x21 (ssl.version.map Str.bytes) ++ (optional 0x22 (ssl.cn.map Str.bytes) ++
    (optional 0x23 (ssl.cipher.map Str.bytes) ++ (optional 0x24 (ssl.sigAlg.map Str.bytes) ++
      (optional 0x25 (ssl.keyAlg.map Str.bytes) ++ (optional 0x26 (ssl.group.map Str.bytes) ++
        (optional 0x27 (ssl.sigScheme.map Str.bytes) ++ optional 0x28 ssl.clientCert))))))

theorem encodeOptional_eq_ok {ty : UInt8} {field : Option (List UInt8)} {buf out : List UInt8} :
    encodeOptional ty field buf = .ok out ↔
      (∀ r ∈ optional ty field, r.Fits) ∧ buf ++ encodeAll (optional ty field) = out := by
  cases field with
  | none => simp [encodeOptional, optional]
  | some value =>
      by_cases h : value.length ≤ 65535 <;>
        simp [encodeOptional, encodeSubTlv, optional, Fits, h]

/-- The SSL value is written iff every sub-TLV fits. -/
theorem encodeSslTlvValue_eq_ok {ssl : SslInfo} {value : List UInt8} :
    encodeSslTlvValue ssl = .ok value ↔
      (∀ r ∈ sslSubTlvs ssl, r.Fits) ∧
        ssl.clientFlags.bits :: (be32Bytes (if ssl.verified then 0 else 1) ++
          encodeAll (sslSubTlvs ssl)) = value := by
  simp only [encodeSslTlvValue, Outcome.bind_eq_ok, encodeOptional_eq_ok, sslSubTlvs,
    List.mem_append, encodeAll_append]
  constructor
  · rintro ⟨_, ⟨h₁, rfl⟩, _, ⟨h₂, rfl⟩, _, ⟨h₃, rfl⟩, _, ⟨h₄, rfl⟩, _, ⟨h₅, rfl⟩, _,
      ⟨h₆, rfl⟩, _, ⟨h₇, rfl⟩, h₈, rfl⟩
    refine ⟨?_, by simp⟩
    rintro r (h | h | h | h | h | h | h | h)
    · exact h₁ r h
    · exact h₂ r h
    · exact h₃ r h
    · exact h₄ r h
    · exact h₅ r h
    · exact h₆ r h
    · exact h₇ r h
    · exact h₈ r h
  · rintro ⟨h, rfl⟩
    exact ⟨_, ⟨fun r hr => h r (by simp [hr]), rfl⟩, _, ⟨fun r hr => h r (by simp [hr]), rfl⟩,
      _, ⟨fun r hr => h r (by simp [hr]), rfl⟩, _, ⟨fun r hr => h r (by simp [hr]), rfl⟩,
      _, ⟨fun r hr => h r (by simp [hr]), rfl⟩, _, ⟨fun r hr => h r (by simp [hr]), rfl⟩,
      _, ⟨fun r hr => h r (by simp [hr]), rfl⟩, fun r hr => h r (by simp [hr]), by simp⟩

/-- What `encode_ssl_tlv_value` writes, `parse_ssl` accepts. -/
theorem isSslValue_of_encode {ssl : SslInfo} {value : List UInt8}
    (h : encodeSslTlvValue ssl = .ok value) :
    IsSslValue value (sslInfo ssl.clientFlags.bits (if ssl.verified then 0 else 1)
      (sslSubTlvs ssl)) := by
  rcases encodeSslTlvValue_eq_ok.mp h with ⟨hfits, rfl⟩
  exact ⟨_, _, _, _, _, sslSubTlvs ssl, hfits, rfl, by rw [be32_of_bytes]⟩

/-! ## Sequences of calls -/

/-- The TLV a call pushes. -/
def WithCall.pushed : WithCall → List Record
  | .transportProtocol _ => []
  | .authority s => [(0x02, s.bytes)]
  | .uniqueId id => [(0x05, id)]
  | .alpn v => [(0x01, v)]
  | .ssl info =>
      -- the call panics where this is not a value
      match encodeSslTlvValue info with
      | .ok value => [(0x20, value)]
      | _ => []
  | .netns s => [(0x30, s.bytes)]
  | .rawTlv ty v => [(ty, v)]
  | .padding len => [(0x04, List.replicate len.toNat 0)]
  | .crc32c => []

/-- The effect of a sequence of calls that did not panic. -/
structure Ran (calls : List WithCall) (b b' : HeaderBuilder) : Prop where
  version : b'.version = b.version
  command : b'.command = b.command
  source : b'.source = b.source
  destination : b'.destination = b.destination
  family : b'.transport.map Transport.family = b.transport.map Transport.family
  tlvEntries : b'.tlvEntries = b.tlvEntries ++ calls.flatMap WithCall.pushed
  addCrc32c : b'.addCrc32c = (b.addCrc32c || decide (.crc32c ∈ calls))

/-- One call. -/
theorem apply_spec {call : WithCall} {b b' : HeaderBuilder} (h : call.apply b = .ok b') :
    Ran [call] b b' := by
  cases call with
  | transportProtocol p =>
      cases h
      constructor <;> simp [HeaderBuilder.withTransportProtocol, WithCall.pushed]
      cases b.transport <;> rfl
  | uniqueId id =>
      simp only [WithCall.apply, HeaderBuilder.withUniqueId] at h
      split at h
      · cases h
        constructor <;> simp [HeaderBuilder.push, WithCall.pushed]
      · cases h
  | ssl info =>
      rcases Outcome.bind_eq_ok.mp h with ⟨value, hvalue, h⟩
      cases h
      constructor <;> simp [HeaderBuilder.push, WithCall.pushed, hvalue]
  | crc32c =>
      cases h
      constructor <;> simp [HeaderBuilder.withCrc32c, WithCall.pushed]
  | authority | alpn | netns | rawTlv | padding =>
      cases h
      constructor <;> simp [HeaderBuilder.withAuthority, HeaderBuilder.withAlpn,
        HeaderBuilder.withNetns, HeaderBuilder.withRawTlv, HeaderBuilder.withPadding,
        HeaderBuilder.push, WithCall.pushed]

/-- Any number of calls. -/
theorem applyAll_spec {calls : List WithCall} {b b' : HeaderBuilder}
    (h : applyAll calls b = .ok b') : Ran calls b b' := by
  induction calls generalizing b with
  | nil =>
      cases h
      constructor <;> simp
  | cons call calls ih =>
      rcases Outcome.bind_eq_ok.mp h with ⟨b₁, hcall, hrest⟩
      -- effects compose: the fixed parts by transitivity, the TLVs in call order
      have h₁ := apply_spec hcall
      have h₂ := ih hrest
      refine ⟨h₂.version.trans h₁.version, h₂.command.trans h₁.command,
        h₂.source.trans h₁.source, h₂.destination.trans h₁.destination,
        h₂.family.trans h₁.family, ?_, ?_⟩
      · rw [h₂.tlvEntries, h₁.tlvEntries]
        simp
      · rw [h₂.addCrc32c, h₁.addCrc32c]
        simp [Bool.or_assoc]

/-- A raw TLV of a type whose values the parser checks. -/
def WithCall.IsChecked : WithCall → Prop
  | .rawTlv ty _ => ty = 0x03 ∨ ty = 0x05 ∨ ty = 0x20
  | _ => False

/-- The typed calls push TLVs the parser accepts, and never a checksum. -/
theorem accepted_of_apply {call : WithCall} {b b' : HeaderBuilder} (h : call.apply b = .ok b')
    (hraw : ¬ call.IsChecked) : ∀ r ∈ call.pushed, Accepted r ∧ r.1 ≠ 0x03 := by
  intro r hr
  cases call with
  | transportProtocol p => cases hr
  | crc32c => cases hr
  | uniqueId id =>
      simp only [WithCall.apply, HeaderBuilder.withUniqueId] at h
      split at h
      · rename_i hlen
        simp only [WithCall.pushed, List.mem_singleton] at hr
        subst hr
        exact ⟨⟨fun h => by simp at h, fun _ => hlen, fun h => by simp at h⟩, by simp⟩
      · cases h
  | ssl info =>
      rcases Outcome.bind_eq_ok.mp h with ⟨value, hvalue, -⟩
      simp only [WithCall.pushed, hvalue, List.mem_singleton] at hr
      subst hr
      exact ⟨⟨fun h => by simp at h, fun h => by simp at h,
        fun _ => ⟨_, isSslValue_of_encode hvalue⟩⟩, by simp⟩
  | rawTlv ty v =>
      simp only [WithCall.pushed, List.mem_singleton] at hr
      subst hr
      simp only [WithCall.IsChecked, not_or] at hraw
      exact ⟨⟨fun h => absurd h hraw.1, fun h => absurd h hraw.2.1,
        fun h => absurd h hraw.2.2⟩, hraw.1⟩
  | authority | alpn | netns | padding =>
      simp only [WithCall.pushed, List.mem_singleton] at hr
      subst hr
      exact ⟨⟨fun h => by simp at h, fun h => by simp at h, fun h => by simp at h⟩, by simp⟩

theorem accepted_of_applyAll {calls : List WithCall} {b b' : HeaderBuilder}
    (h : applyAll calls b = .ok b') (hraw : ∀ call ∈ calls, ¬ call.IsChecked) :
    ∀ r ∈ calls.flatMap WithCall.pushed, Accepted r ∧ r.1 ≠ 0x03 := by
  induction calls generalizing b with
  | nil => simp
  | cons call calls ih =>
      rcases Outcome.bind_eq_ok.mp h with ⟨b₁, hcall, hrest⟩
      intro r hr
      rw [List.flatMap_cons, List.mem_append] at hr
      rcases hr with hr | hr
      · exact accepted_of_apply hcall (hraw call (by simp)) r hr
      · exact ih hrest (fun c hc => hraw c (by simp [hc])) r hr

/-! ## Building v2 headers -/

theorem unixField_eq (path : List UInt8) :
    HeaderBuilder.unixField path =
      .ok (path.take 108 ++ List.replicate (108 - path.length) 0) := by
  have hhead : path.take (min path.length 108) = path.take 108 := by
    rw [Nat.min_comm, ← List.take_take, List.take_length]
  rw [HeaderBuilder.unixField, Outcome.sliceTo_of_le (Nat.min_le_left _ _), Outcome.ok_bind, hhead,
    Outcome.copyFromSlice_of_le (by rw [List.length_take, List.length_replicate]; omega)]
  simp only [patch, List.take_zero, List.nil_append, List.drop_replicate, List.length_take]
  congr 3
  omega

/-- The loop panics at the first value that is too long. -/
theorem encodeTlvs_eq (rs : List Record) (buf : List UInt8) :
    HeaderBuilder.encodeTlvs rs buf =
      if ∀ r ∈ rs, r.Fits then .ok (buf ++ encodeAll rs) else .panic := by
  induction rs generalizing buf with
  | nil => simp [HeaderBuilder.encodeTlvs]
  | cons r rs ih =>
      rw [HeaderBuilder.encodeTlvs]
      by_cases h : r.2.length ≤ 65535
      · have hr : r.Fits := h
        rw [if_pos h, ih]
        simp only [List.forall_mem_cons, hr, true_and, encodeAll_cons, List.append_assoc]
      · rw [if_neg h, if_neg]
        intro hall
        exact h (hall r (by simp))

/-- The builder is about this target. -/
structure Describes (b : HeaderBuilder) (t : Target) : Prop where
  version : b.version = .v2
  command : b.command = t.command
  transport : b.transport = t.transport
  famProto : b.famProto = t.famProto
  block : ∀ buf, b.encodeBlock buf = .ok (buf ++ t.block)

/-- The checksum TLV before the checksum is known. -/
def zeroCrc : Record := (0x03, [0, 0, 0, 0])

/-- The TLVs that `build` writes: those pushed, and the checksum. -/
def withChecksum (C : Crc32c) (addCrc32c : Bool) (t : Target) (rs : List Record) : List Record :=
  if addCrc32c then rs ++ [(0x03, be32Bytes (C.crc32c (headerBytes t (rs ++ [zeroCrc]))))] else rs

/-- Filling in the length turns what was written so far into a header. -/
theorem patch_length (t : Target) (rs : List Record) :
    patch (v2Signature ++ [t.command.verCmd] ++ [t.famProto] ++ [0, 0] ++ t.block ++ encodeAll rs)
        14 (be16Bytes (UInt16.ofNat (t.block ++ encodeAll rs).length)) =
      headerBytes t rs := by
  have hbuf : v2Signature ++ [t.command.verCmd] ++ [t.famProto] ++ [0, 0] ++ t.block ++
      encodeAll rs = (v2Signature ++ [t.command.verCmd, t.famProto]) ++
        ([0, 0] ++ (t.block ++ encodeAll rs)) := by simp
  have hpos : (v2Signature ++ [t.command.verCmd, t.famProto]).length = 14 := rfl
  have htwo : ([0, 0] : List UInt8).length =
      (be16Bytes (UInt16.ofNat (t.block ++ encodeAll rs).length)).length := rfl
  rw [hbuf, patch_append hpos htwo, headerBytes]
  simp only [List.append_assoc, List.cons_append, List.nil_append]

/-- Everything of a header in front of the value of a checksum TLV at its end. -/
def crcFront (t : Target) (rs : List Record) : List UInt8 :=
  v2Signature ++ (t.command.verCmd :: t.famProto ::
    (be16Bytes (UInt16.ofNat (t.block.length + ((encodeAll rs).length + 7))) ++
      (t.block ++ (encodeAll rs ++ [0x03, 0x00, 0x04]))))

theorem headerBytes_concat_crc (t : Target) (rs : List Record) {v : List UInt8}
    (hv : v.length = 4) : headerBytes t (rs ++ [(0x03, v)]) = crcFront t rs ++ v := by
  have henc : encodeAll (rs ++ [(0x03, v)]) = encodeAll rs ++ ([0x03, 0x00, 0x04] ++ v) := by
    have hfour : be16Bytes 4 = [0x00, 0x04] := by decide
    simp [encode, hv, hfour]
  have hlen : (t.block ++ encodeAll (rs ++ [(0x03, v)])).length =
      t.block.length + ((encodeAll rs).length + 7) := by
    simp only [henc, List.length_append, List.length_cons, List.length_nil, hv]
  rw [headerBytes, hlen, henc, crcFront]
  simp only [List.append_assoc, List.cons_append, List.nil_append]

/-- Filling in the checksum. -/
theorem patch_checksum (t : Target) (rs : List Record) {v : List UInt8} (hv : v.length = 4) :
    patch (headerBytes t (rs ++ [zeroCrc])) ((headerBytes t (rs ++ [zeroCrc])).length - 4) v =
      headerBytes t (rs ++ [(0x03, v)]) := by
  have hzero : headerBytes t (rs ++ [zeroCrc]) = crcFront t rs ++ ([0, 0, 0, 0] ++ []) :=
    headerBytes_concat_crc t rs rfl
  rw [hzero, patch_append (by simp) (by simp [hv]), headerBytes_concat_crc t rs hv, List.append_nil]

theorem finishV2_eq (C : Crc32c) (addCrc32c : Bool) (t : Target) (rs : List Record) :
    HeaderBuilder.finishV2 C addCrc32c 14 (v2Signature ++ [t.command.verCmd] ++ [t.famProto] ++
        [0, 0] ++ t.block ++ encodeAll rs) =
      if t.block.length + (encodeAll (withChecksum C addCrc32c t rs)).length ≤ 65535 then
        .ok (headerBytes t (withChecksum C addCrc32c t rs))
      else .panic := by
  -- filling in the length, whatever happens next
  have hfill : ∀ (rs : List Record) (k : List UInt8 → BuildResult (List UInt8)),
      (Outcome.sub (v2Signature ++ [t.command.verCmd] ++ [t.famProto] ++ [0, 0] ++ t.block ++
          encodeAll rs).length 16 >>= fun payloadLen =>
        if payloadLen ≤ 65535 then
          Outcome.copyFromSlice (v2Signature ++ [t.command.verCmd] ++ [t.famProto] ++ [0, 0] ++
            t.block ++ encodeAll rs) 14 (be16Bytes (UInt16.ofNat payloadLen)) >>= k
        else .panic) =
      if t.block.length + (encodeAll rs).length ≤ 65535 then k (headerBytes t rs) else .panic := by
    intro rs k
    have hlen : (v2Signature ++ [t.command.verCmd] ++ [t.famProto] ++ [0, 0] ++ t.block ++
        encodeAll rs).length = 16 + (t.block ++ encodeAll rs).length := by
      simp [v2Signature]
      omega
    rw [Outcome.sub_of_le (by omega), Outcome.ok_bind, hlen, Nat.add_sub_cancel_left,
      Outcome.copyFromSlice_of_le (by rw [hlen, length_be16Bytes]; omega), patch_length,
      Outcome.ok_bind, List.length_append]
  cases addCrc32c with
  | false =>
      simp only [HeaderBuilder.finishV2, withChecksum, Bool.false_eq_true, if_false, hfill]
  | true =>
      -- the placeholder is the record `zeroCrc`, and the checksum has its size
      have hzero : v2Signature ++ [t.command.verCmd] ++ [t.famProto] ++ [0, 0] ++ t.block ++
          encodeAll rs ++ ([0x03] ++ be16Bytes 4 ++ [0, 0, 0, 0]) =
          v2Signature ++ [t.command.verCmd] ++ [t.famProto] ++ [0, 0] ++ t.block ++
            encodeAll (rs ++ [zeroCrc]) := by
        simp [zeroCrc, encode]
      have hsize : (encodeAll (rs ++ [zeroCrc])).length = (encodeAll (rs ++ [(0x03,
          be32Bytes (C.crc32c (headerBytes t (rs ++ [zeroCrc]))))])).length := by
        simp [zeroCrc, size]
      have hlen := length_headerBytes t (rs ++ [zeroCrc])
      simp only [HeaderBuilder.finishV2, withChecksum, if_true, hzero, hfill, ← hsize]
      rw [Outcome.sub_of_le (by omega), Outcome.ok_bind,
        Outcome.copyFromSlice_of_le (by rw [length_be32Bytes]; omega), patch_checksum _ _ rfl]

/-- Building a v2 header panics exactly when a length does not fit, and
otherwise writes the target, the pushed TLVs and the checksum. -/
theorem buildV2_eq (C : Crc32c) {b : HeaderBuilder} {t : Target} (hd : Describes b t) :
    b.buildV2 C =
      if (∀ r ∈ b.tlvEntries, r.Fits) ∧
          t.block.length + (encodeAll (withChecksum C b.addCrc32c t b.tlvEntries)).length ≤ 65535
      then .ok (headerBytes t (withChecksum C b.addCrc32c t b.tlvEntries))
      else .panic := by
  have hcmd : (0x20 ||| match b.command with
      | .local => (0x00 : UInt8)
      | .proxy => 0x01) = t.command.verCmd := by
    rw [hd.command]
    cases t.command <;> rfl
  simp only [HeaderBuilder.buildV2, hcmd, hd.famProto, hd.block, Outcome.ok_bind, encodeTlvs_eq]
  by_cases hfits : ∀ r ∈ b.tlvEntries, r.Fits
  · rw [if_pos hfits, Outcome.ok_bind]
    refine (finishV2_eq C b.addCrc32c t b.tlvEntries).trans ?_
    simp only [eq_true hfits, true_and]
  · rw [if_neg hfits, if_neg (fun h => hfits h.1)]
    rfl

theorem buildV2_eq_ok {C : Crc32c} {b : HeaderBuilder} {t : Target} (hd : Describes b t)
    {bytes : List UInt8} :
    b.buildV2 C = .ok bytes ↔
      (∀ r ∈ b.tlvEntries, r.Fits) ∧
        t.block.length + (encodeAll (withChecksum C b.addCrc32c t b.tlvEntries)).length ≤ 65535 ∧
        headerBytes t (withChecksum C b.addCrc32c t b.tlvEntries) = bytes := by
  rw [buildV2_eq C hd, Outcome.ite_panic_eq_ok, and_assoc]

end ProxyProtocol
