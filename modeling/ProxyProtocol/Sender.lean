import ProxyProtocol.Building
import ProxyProtocol.Lib.Writer
import ProxyProtocol.Outcomes

/-! # From sender to application

The sender's side of a connection, `write_to` of `builder.rs`, and the whole
way of a header: built, written through short writes, cut into segments by the
network, read by the listener and taken off in front of the application's data.

* `parse_announced`: what a header says that was built in any of the five ways.
* `calls_arrive`: the last call decides on each field of the TLVs.
* `write_to_all_or_incomplete`: a header arrives whole, or as a part for which
  the parser waits for more.
* `sent_is_served`: what the sender announced and sent is what the application
  gets.
-/

namespace ProxyProtocol

open Wire Wire.Record

/-! ## Writing a header -/

/-- `io::ErrorKind::WriteZero`. -/
def writeZero : IoError := ⟨.other, "write zero"⟩

/-- `write_to`, and the writer afterwards. -/
def HeaderBuilder.writeTo {σ : Type} (C : Crc32c) (b : HeaderBuilder)
    (writer : Sink σ UInt8 IoError) (s : σ) : Outcome IoError ℕ × σ :=
  match b.build C with
  | .ok bytes =>
      match writeAll writer writeZero (bytes.length + 1) s bytes with
      | (.ok (), s) => (.ok bytes.length, s)
      | (.err e, s) => (.err e, s)
      | (.panic, s) => (.panic, s)
      | (.diverge, s) => (.diverge, s)
  | .panic => (.panic, s)
  | .diverge => (.diverge, s)

section Written

variable {σ : Type} {C : Crc32c} {c : Constructor} {calls : List WithCall} {b : HeaderBuilder}

/-- Building gives a header or panics. -/
theorem build_cases (C : Crc32c) (hb : (c.run >>= applyAll calls) = .ok b) :
    (∃ h, b.build C = .ok h) ∨ b.build C = .panic ∧ 65535 < payloadSize c calls := by
  cases hversion : b.version with
  | v1 => exact .inl (buildV1_returns C hb hversion)
  | v2 =>
      rcases exists_target hb hversion C with ⟨t, hd, hsize⟩
      rw [buildV2_of_payload hd, hsize]
      by_cases hle : payloadSize c calls ≤ 65535
      · exact .inl ⟨_, if_pos hle⟩
      · exact .inr ⟨if_neg hle, Nat.not_le.mp hle⟩

/-- What a call of `write_to` has done to the writer. -/
inductive Written (C : Crc32c) (b : HeaderBuilder) (writer : Sink σ UInt8 IoError) (s : σ) :
    Outcome IoError ℕ × σ → Prop where
  | all {h : List UInt8} {s' : σ} (built : b.build C = .ok h)
      (taken : writer.taken s' = writer.taken s ++ h) : Written C b writer s (.ok h.length, s')
  | part {h : List UInt8} {e : IoError} {s' : σ} (built : b.build C = .ok h) (k : ℕ)
      (less : k < h.length) (taken : writer.taken s' = writer.taken s ++ h.take k) :
      Written C b writer s (.err e, s')
  | panic (built : b.build C = .panic) : Written C b writer s (.panic, s)

theorem written_writeTo (hb : (c.run >>= applyAll calls) = .ok b)
    (writer : Sink σ UInt8 IoError) (s : σ) : Written C b writer s (b.writeTo C writer s) := by
  unfold HeaderBuilder.writeTo
  rcases build_cases C hb with ⟨h, hbuild⟩ | ⟨hbuild, -⟩
  · have hspec := writeAll_spec writer writeZero (h.length + 1) s h (Nat.lt_succ_self _)
    simp only [hbuild]
    generalize writeAll writer writeZero (h.length + 1) s h = r at hspec
    cases hspec with
    | all taken => exact .all hbuild taken
    | part k less taken => exact .part hbuild k less taken
  · simp only [hbuild]
    exact .panic hbuild

end Written

/-! ## What a header says -/

/-- The source address that arrives. -/
def Constructor.source : Constructor → Option ProxyAddress
  | .v1Proxy source _ => some (V2Constructor.inetAddress source)
  | .v1Unknown => none
  | .v2 constructor => constructor.source

/-- The destination address that arrives. -/
def Constructor.destination : Constructor → Option ProxyAddress
  | .v1Proxy _ destination => some (V2Constructor.inetAddress destination)
  | .v1Unknown => none
  | .v2 constructor => constructor.destination

/-- The transport that arrives: a v1 line has no word for the protocol. -/
def Constructor.transport (b : HeaderBuilder) : Constructor → Option Transport
  | .v1Proxy source _ => some ⟨source.family, .stream⟩
  | .v1Unknown => none
  | .v2 _ => b.transport

/-- The TLVs that arrive: none with a v1 line, and otherwise those that the
calls have pushed, and the checksum. -/
def Constructor.records (C : Crc32c) (calls : List WithCall) (header : List UInt8) :
    Constructor → List Record
  | .v1Proxy _ _ => []
  | .v1Unknown => []
  | .v2 _ => calls.flatMap WithCall.pushed ++
      if .crc32c ∈ calls then
        [(0x03, be32Bytes (C.crc32c (patch header (header.length - 4) [0, 0, 0, 0])))] else []

/-- The TLVs that calls put into a header: all of them, or none if it is a v1
line. -/
def Constructor.carried (calls : List WithCall) : Constructor → List Record
  | .v1Proxy _ _ => []
  | .v1Unknown => []
  | .v2 _ => calls.flatMap WithCall.pushed

/-- What the receiver of a header is told that was built from a constructor and
calls. -/
def announced (C : Crc32c) (c : Constructor) (calls : List WithCall) (b : HeaderBuilder)
    (header : List UInt8) : ProxyInfo where
  version := b.version
  command := b.command
  transport := c.transport b
  source := c.source
  destination := c.destination
  tlvs := collect (c.records C calls header)

section V1

variable {C : Crc32c} {src dst : SocketAddr}

/-- The line of two addresses is read back, whatever follows it. -/
theorem parse_tcpText (C : Crc32c) (h : src.isIpv4 = dst.isIpv4) (r : List UInt8) :
    parse C (tcpText src dst ++ crlf ++ r) =
      .ok (tcpInfo (SocketAddr.new src.ip src.port) (SocketAddr.new dst.ip dst.port),
        (tcpText src dst ++ crlf).length) := by
  have hcr := no_cr_tcpText src dst
  have hlen := length_tcpText_le src dst
  have hproxy : v1Signature <+: tcpText src dst ++ crlf ++ r := by
    rcases tcpLine_text (tcpLine_tcpText h) with ⟨rest, hrest⟩
    exact ⟨0x54 :: rest ++ crlf ++ r, by rw [hrest]; rfl⟩
  have hline : ¬ crlf <:+: tcpText src dst := by
    intro hinside
    exact hcr (hinside.subset (by decide))
  have htcp := ((parse_tcp_iff C hproxy).mpr ⟨tcpText src dst, r, _, _, by rw [List.append_assoc],
    hline, rfl, by omega, tcpLine_tcpText h, rfl⟩).1
  rw [htcp, List.length_append]
  rfl

theorem parse_unknownLine (C : Crc32c) (r : List UInt8) :
    parse C (proxyUnknown ++ crlf ++ r) = .ok (unknownInfo, (proxyUnknown ++ crlf).length) := by
  have hline : parse C (proxyUnknown ++ crlf) = .ok (unknownInfo, 15) := rfl
  rw [(parse_settles C).append (by rw [hline]; simp), hline]
  rfl

end V1

section Announced

variable {C : Crc32c} {c : Constructor} {calls : List WithCall} {b : HeaderBuilder}
  {h : List UInt8}

/-- The checksum that `build` has put into the last four bytes of a header is
the one of the header with these bytes zero. -/
theorem withChecksum_eq {t : Target} (rs : List Record) (addCrc32c : Bool)
    (hh : h = headerBytes t (withChecksum C addCrc32c t rs)) :
    withChecksum C addCrc32c t rs = rs ++ if addCrc32c then
      [(0x03, be32Bytes (C.crc32c (patch h (h.length - 4) [0, 0, 0, 0])))] else [] := by
  cases addCrc32c with
  | false => simp [withChecksum]
  | true =>
      simp only [withChecksum, if_true] at hh ⊢
      have hpos : (crcFront t rs).length = h.length - 4 := by
        rw [hh, headerBytes_concat_crc _ _ rfl, List.length_append, length_be32Bytes,
          Nat.add_sub_cancel]
      have hzero := patch_concat_crc t rs
        (length_be32Bytes (C.crc32c (headerBytes t (rs ++ [zeroCrc])))) hpos
      rw [← hh] at hzero
      rw [hzero]

/-- What a v2 header says, by its target and its TLVs. -/
theorem announced_eq {constructor : V2Constructor} {t : Target} (hd : Describes b t)
    (hsrc : t.source = constructor.source) (hdst : t.destination = constructor.destination)
    (hentries : b.tlvEntries = calls.flatMap WithCall.pushed)
    (hflag : b.addCrc32c = decide (.crc32c ∈ calls))
    (hh : h = headerBytes t (withChecksum C b.addCrc32c t b.tlvEntries)) :
    announced C (.v2 constructor) calls b h =
      ⟨.v2, t.command, t.transport, t.source, t.destination,
        collect (withChecksum C b.addCrc32c t b.tlvEntries)⟩ := by
  have hrecords := withChecksum_eq b.tlvEntries b.addCrc32c hh
  rw [hrecords, hentries, hflag, announced, hd.version, hd.command, ← hd.transport, hsrc, hdst]
  simp only [Constructor.records, decide_eq_true_eq]
  rfl

/-- Every header whose TLVs the parser accepts, and none of which is a checksum
that the caller has pushed, says what its constructor and calls have said. -/
theorem parse_of_accepted (hC : C.Composes)
    (hacc : ∀ q ∈ c.carried calls, Accepted q ∧ q.1 ≠ 0x03)
    (hb : (c.run >>= applyAll calls) = .ok b) (hh : b.build C = .ok h) (r : List UInt8) :
    parse C (h ++ r) = .ok (announced C c calls b h, h.length) := by
  rcases Outcome.bind_eq_ok.mp hb with ⟨b₀, hrun, hcalls⟩
  have hran := applyAll_spec hcalls
  cases c with
  | v1Proxy source destination =>
      rw [build_v1 C hrun hcalls] at hh
      rw [Constructor.run, HeaderBuilder.v1Proxy, HeaderBuilder.proxy,
        Outcome.ite_panic_eq_ok] at hrun
      rcases hrun with ⟨hfamily, rfl⟩
      cases hh
      rw [parse_tcpText C hfamily]
      have hinfo : tcpInfo (SocketAddr.new source.ip source.port)
          (SocketAddr.new destination.ip destination.port) =
          announced C (.v1Proxy source destination) calls b
            (tcpText source destination ++ crlf) := by
        rw [announced, hran.version, hran.command]
        cases source <;> rfl
      rw [hinfo]
  | v1Unknown =>
      cases hrun
      have hsource : b.source = none := hran.source
      have hversion : b.version = .v1 := hran.version
      rw [HeaderBuilder.build, hversion] at hh
      simp only [HeaderBuilder.buildV1, hsource] at hh
      cases hh
      rw [show proxyUnknown ++ [0x0D, 0x0A] = proxyUnknown ++ crlf from rfl, parse_unknownLine,
        announced, hran.version, hran.command]
      rfl
  | v2 constructor =>
      rcases describes_calls hb with ⟨t, hd, hsrc, hdst, -, hentries, hflag⟩
      rw [Constructor.carried, ← hentries] at hacc
      rcases parse_built hC hd hacc hh r with ⟨hdr, rfl, htlvs, rfl, hparse⟩
      have hinfo := announced_eq hd hsrc hdst hentries hflag
        (show hdr.encode = headerBytes hdr.target _ by rw [V2Header.encode, htlvs])
      rw [hparse, hinfo, V2Header.info, htlvs]

/-- Every header that was built says what its constructor and calls have said,
whatever follows it, if no raw TLV of a type that the parser checks is among
them. -/
theorem parse_announced (hC : C.Composes) (hraw : ∀ call ∈ calls, ¬ call.IsChecked)
    (hb : (c.run >>= applyAll calls) = .ok b) (hh : b.build C = .ok h) (r : List UInt8) :
    parse C (h ++ r) = .ok (announced C c calls b h, h.length) := by
  refine parse_of_accepted hC ?_ hb hh r
  rcases Outcome.bind_eq_ok.mp hb with ⟨b₀, -, hcalls⟩
  cases c with
  | v1Proxy source destination => simp [Constructor.carried]
  | v1Unknown => simp [Constructor.carried]
  | v2 constructor => exact accepted_of_applyAll hcalls hraw

end Announced

/-! ## What the calls say -/

section Calls

variable {α : Type} {g : List UInt8 → Option α} {o o' : Option (List UInt8)} {x x' : Option α}

/-- What is read from an optional value, with nothing lost. -/
def Decodes (g : List UInt8 → Option α) (o : Option (List UInt8)) (x : Option α) : Prop :=
  o.bind g = x ∧ (x = none → o = none)

theorem Decodes.or (h : Decodes g o x) (h' : Decodes g o' x') : Decodes g (o.or o') (x.or x') := by
  rcases h with ⟨rfl, hnone⟩
  cases o with
  | none => exact h'
  | some value =>
      cases hvalue : g value with
      | none => cases hnone hvalue
      | some a =>
          simp only [Option.bind_some, hvalue, Option.some_or]
          exact ⟨hvalue, by rintro ⟨⟩⟩

/-- What the last call says that says anything. -/
def lastCall (f : WithCall → Option α) : List WithCall → Option α
  | [] => none
  | call :: calls => (lastCall f calls).or (f call)

/-- The last TLV of a type says what the last call says that pushes one. -/
theorem decodes_lastOf {ty : UInt8} {f : WithCall → Option α} {calls : List WithCall}
    (h : ∀ call ∈ calls, Decodes g (lastOf ty call.pushed) (f call)) :
    Decodes g (lastOf ty (calls.flatMap WithCall.pushed)) (lastCall f calls) := by
  induction calls with
  | nil => exact ⟨rfl, fun _ => rfl⟩
  | cons call calls ih =>
      rw [List.flatMap_cons, lastOf_append, lastCall]
      exact (ih fun c hc => h c (by simp [hc])).or (h call (by simp))

end Calls

namespace WithCall

/-- The value of a raw TLV of a type. -/
def raw (ty : UInt8) : WithCall → Option (List UInt8)
  | .rawTlv ty' value => if ty' = ty then some value else none
  | _ => none

def setsAlpn : WithCall → Option (List UInt8)
  | .alpn value => some value
  | call => call.raw 0x01

def setsAuthority : WithCall → Option Str
  | .authority s => some s
  | call => (call.raw 0x02).map bytesToString

def setsUniqueId : WithCall → Option (List UInt8)
  | .uniqueId id => some id
  | call => call.raw 0x05

def setsNetns : WithCall → Option Str
  | .netns s => some s
  | call => (call.raw 0x30).map bytesToString

/-- SSL metadata as they arrive: undefined flag bits are dropped. -/
def setsSsl : WithCall → Option SslInfo
  | .ssl info => some { info with clientFlags := .fromBitsTruncate info.clientFlags.bits }
  | _ => none

end WithCall

theorem sslInfo_truncate (bits : UInt8) (verify : UInt32) (subs : List Record) :
    sslInfo (bits &&& SslClientFlags.all) verify subs = sslInfo bits verify subs := by
  simp only [sslInfo, SslClientFlags.fromBitsTruncate, UInt8.and_assoc, UInt8.and_self]

theorem decodeSsl_of_encode {info : SslInfo} {value : List UInt8}
    (h : encodeSslTlvValue info = .ok value) (hlen : value.length ≤ 65535) :
    decodeSsl value = (WithCall.ssl info).setsSsl := by
  have hvalue := isSslValue_of_encode h
  rw [← sslInfo_truncate] at hvalue
  have hread := decodeSsl_eq_some hvalue (Nat.le_trans hlen (by decide))
  rw [hread, WithCall.setsSsl, Option.some.injEq]
  exact @sslInfo_sslSubTlvs
    { info with clientFlags := .fromBitsTruncate info.clientFlags.bits }
    (by simp [SslClientFlags.fromBitsTruncate, UInt8.and_assoc])

theorem lastOf_pushed_ssl {ty : UInt8} (hty : (0x20 : UInt8) ≠ ty) (info : SslInfo) :
    lastOf ty (WithCall.ssl info).pushed = none := by
  simp only [WithCall.pushed]
  split
  · simp [lastOf, hty]
  · rfl

/-- One call, and the fields that are read as they are. -/
theorem decodes_pushed (call : WithCall) :
    Decodes some (lastOf 0x01 call.pushed) call.setsAlpn ∧
    Decodes (fun v => some (bytesToString v)) (lastOf 0x02 call.pushed) call.setsAuthority ∧
    Decodes some (lastOf 0x05 call.pushed) call.setsUniqueId ∧
    Decodes (fun v => some (bytesToString v)) (lastOf 0x30 call.pushed) call.setsNetns := by
  cases call with
  | ssl info =>
      refine ⟨?_, ?_, ?_, ?_⟩ <;> rw [lastOf_pushed_ssl (by decide)] <;> exact ⟨rfl, fun _ => rfl⟩
  | rawTlv ty value =>
      refine ⟨?_, ?_, ?_, ?_⟩ <;>
        simp only [WithCall.pushed, WithCall.setsAlpn, WithCall.setsAuthority,
          WithCall.setsUniqueId, WithCall.setsNetns, WithCall.raw, lastOf, Option.none_or] <;>
        split <;> simp [Decodes]
  | _ =>
      simp [WithCall.pushed, WithCall.setsAlpn, WithCall.setsAuthority, WithCall.setsUniqueId,
        WithCall.setsNetns, WithCall.raw, Decodes, lastOf, bytesToString_bytes]

/-- One call, and the SSL metadata. -/
theorem decodes_pushed_ssl {call : WithCall} {b b' : HeaderBuilder} (h : call.apply b = .ok b')
    (hraw : ¬ call.IsChecked) (hfits : ∀ r ∈ call.pushed, r.Fits) :
    Decodes decodeSsl (lastOf 0x20 call.pushed) call.setsSsl := by
  cases call with
  | ssl info =>
      rcases Outcome.bind_eq_ok.mp h with ⟨value, hvalue, -⟩
      have hpushed : (WithCall.ssl info).pushed = [(0x20, value)] := by
        rw [WithCall.pushed, hvalue]
      rw [hpushed] at hfits ⊢
      refine ⟨decodeSsl_of_encode hvalue (hfits _ (List.mem_singleton.mpr rfl)), ?_⟩
      rintro ⟨⟩
  | rawTlv ty value =>
      have hty : ty ≠ 0x20 := fun h => hraw (.inr (.inr h))
      simp [WithCall.pushed, WithCall.setsSsl, Decodes, lastOf, hty]
  | _ => simp [WithCall.pushed, WithCall.setsSsl, Decodes, lastOf]

/-- No call of a sequence that did not panic has panicked. -/
theorem exists_apply {calls : List WithCall} {b b' : HeaderBuilder}
    (h : applyAll calls b = .ok b') : ∀ call ∈ calls, ∃ b₁ b₂, call.apply b₁ = .ok b₂ := by
  induction calls generalizing b with
  | nil => simp
  | cons call calls ih =>
      rcases Outcome.bind_eq_ok.mp h with ⟨b₁, hcall, hrest⟩
      intro c hc
      rcases List.mem_cons.mp hc with rfl | hmem
      · exact ⟨b, b₁, hcall⟩
      · exact ih hrest c hmem

section Arrive

variable {C : Crc32c} {c : V2Constructor} {calls : List WithCall} {b : HeaderBuilder}
  {h : List UInt8}

/-- The TLVs of a header that was built fit. -/
theorem fits_of_build (hb : (c.run >>= applyAll calls) = .ok b) (hh : b.build C = .ok h) :
    ∀ r ∈ calls.flatMap WithCall.pushed, r.Fits := by
  rcases describes_calls hb with ⟨t, hd, -, -, -, hentries, -⟩
  rw [buildV2_of_payload hd, Outcome.ite_panic_eq_ok] at hh
  rw [← hentries]
  exact fits_of_payload hh.1

theorem lastOf_records {ty : UInt8} (hty : (0x03 : UInt8) ≠ ty) :
    lastOf ty ((Constructor.v2 c).records C calls h) =
      lastOf ty (calls.flatMap WithCall.pushed) := by
  simp only [Constructor.records]
  split
  · rw [lastOf_concat, if_neg hty]
  · rw [List.append_nil]

/-- What the sender of a v2 header has set is what the receiver's fields hold:
for each field of the TLVs what the last call says that says anything about it.
Text and bytes arrive as they are, SSL metadata with their undefined flag bits
dropped, and a checksum iff one was asked for, that of the header with its last
four bytes zero. All this as long as no raw TLV is pushed of a type whose values
the parser checks. -/
theorem calls_arrive (hC : C.Composes) (hraw : ∀ call ∈ calls, ¬ call.IsChecked)
    (hb : (c.run >>= applyAll calls) = .ok b) (hh : b.build C = .ok h) (r : List UInt8) :
    ∃ info, parse C (h ++ r) = .ok (info, h.length) ∧
      info.tlvs.alpn = lastCall WithCall.setsAlpn calls ∧
      info.tlvs.authority = lastCall WithCall.setsAuthority calls ∧
      info.tlvs.uniqueId = lastCall WithCall.setsUniqueId calls ∧
      info.tlvs.netns = lastCall WithCall.setsNetns calls ∧
      info.tlvs.ssl = lastCall WithCall.setsSsl calls ∧
      info.tlvs.crc32c = if .crc32c ∈ calls then
        some (C.crc32c (patch h (h.length - 4) [0, 0, 0, 0])) else none := by
  rcases Outcome.bind_eq_ok.mp hb with ⟨b₀, -, hcalls⟩
  have hfits := fits_of_build hb hh
  have hssl : ∀ call ∈ calls, Decodes decodeSsl (lastOf 0x20 call.pushed) call.setsSsl := by
    intro call hcall
    rcases exists_apply hcalls call hcall with ⟨b₁, b₂, happly⟩
    exact decodes_pushed_ssl happly (hraw call hcall)
      fun r hr => hfits r (List.mem_flatMap.mpr ⟨call, hcall, hr⟩)
  have hno : lastOf 0x03 (calls.flatMap WithCall.pushed) = none :=
    lastOf_eq_none.mpr fun r hr => (accepted_of_applyAll hcalls hraw r hr).2
  refine ⟨_, @parse_announced C (.v2 c) calls b h hC hraw hb hh r, ?_⟩
  simp only [announced, collect_eq]
  refine ⟨?_, ?_, ?_, ?_, ?_, ?_⟩
  · rw [lastOf_records (by decide), ← (decodes_lastOf fun q _ => (decodes_pushed q).1).1]
    exact (Option.bind_fun_some _).symm
  · rw [lastOf_records (by decide), ← (decodes_lastOf fun q _ => (decodes_pushed q).2.1).1]
    exact Option.map_eq_bind
  · rw [lastOf_records (by decide), ← (decodes_lastOf fun q _ => (decodes_pushed q).2.2.1).1]
    exact (Option.bind_fun_some _).symm
  · rw [lastOf_records (by decide), ← (decodes_lastOf fun q _ => (decodes_pushed q).2.2.2).1]
    exact Option.map_eq_bind
  · rw [lastOf_records (by decide), ← (decodes_lastOf hssl).1]
  · simp only [Constructor.records]
    split
    · rw [lastOf_concat, if_pos rfl, Option.bind_some, be32_tryFrom_be32Bytes]
    · rw [List.append_nil, hno]
      rfl

/-- Two calls for SSL metadata, of which the second counts, with a flag bit that
is not defined. -/
theorem calls_arrive_ssl :
    let header : List UInt8 := v2Signature ++ [0x20, 0, 0, 24, 0x20, 0, 5, 1, 0, 0, 0, 0,
      0x20, 0, 9, 0x81, 0, 0, 0, 1, 0x22, 0, 1, 0x61, 0x30, 0, 1, 0x62]
    ∃ info, parse .castagnoli header = .ok (info, 40) ∧
      info.tlvs.ssl = some { clientFlags := ⟨0x01⟩, cn := some ⟨[0x61], by decide⟩ } ∧
      info.tlvs.netns = some ⟨[0x62], by decide⟩ ∧ info.tlvs.crc32c = none := by
  intro header
  let calls : List WithCall := [.ssl { clientFlags := ⟨0x01⟩, verified := true },
    .ssl { clientFlags := ⟨0x81⟩, cn := some ⟨[0x61], by decide⟩ }, .netns ⟨[0x62], by decide⟩]
  let b : HeaderBuilder := { HeaderBuilder.v2Local with tlvEntries := [(0x20, [1, 0, 0, 0, 0]),
    (0x20, [0x81, 0, 0, 0, 1, 0x22, 0, 1, 0x61]), (0x30, [0x62])] }
  have hb : (V2Constructor.local.run >>= applyAll calls) = .ok b := by decide +kernel
  have hh : b.build .castagnoli = .ok header := by decide +kernel
  rcases calls_arrive Crc32c.castagnoli_composes (by simp [calls, WithCall.IsChecked]) hb hh [] with
    ⟨info, hparse, -, -, -, hnetns, hssl, hcrc⟩
  rw [List.append_nil] at hparse
  exact ⟨info, hparse, hssl, hnetns, hcrc⟩

end Arrive

section Sent

variable {C : Crc32c} {c : Constructor} {calls : List WithCall} {b : HeaderBuilder}

/-! ## All or nothing -/

/-- A pipe that takes at most five bytes at once, and fails when `limit` bytes
have gone through it. -/
def pipe (limit : ℕ) : Sink (List UInt8) UInt8 IoError where
  taken s := s
  write s buf :=
    if limit ≤ s.length then (.error ⟨.other, "broken pipe"⟩, s)
    else (.ok (min 5 buf.length), s ++ buf.take (min 5 buf.length))
  write_ok h := by
    split at h <;> cases h
    exact ⟨Nat.min_le_right _ _, rfl⟩
  write_error h := by
    split at h <;> cases h
    rfl

/-- What the sender announced is what the application gets. A sender writes a
header to a fresh connection, and then data; the listener shakes hands on that
connection, gets the header in time and does not refuse it. However the writes
were shortened and the bytes cut into segments, the accepted stream carries the
announced metadata, and the data that were sent can be read from it, all of them
and nothing else. The header has no raw TLV of a type whose values the parser
checks, for which see `built_verdict`. -/
theorem sent_is_served {σ E : Type} (hC : C.Composes)
    (hraw : ∀ call ∈ calls, ¬ call.IsChecked) (hb : (c.run >>= applyAll calls) = .ok b)
    {writer : Sink σ UInt8 IoError} {s₀ s₁ s₂ : σ} {n : ℕ} {payload : List UInt8}
    {r : Outcome IoError Unit} (hfresh : writer.taken s₀ = [])
    (hheader : b.writeTo C writer s₀ = (.ok n, s₁))
    (hpayload : writeAll writer writeZero (payload.length + 1) s₁ payload = (r, s₂))
    {config : ProxyProtocolConfig E} {env : Handshake} {deadline : ℕ}
    (henv : HasDeadline config env deadline) {stream : TcpStream} {peerAddr : SocketAddr}
    (hpolicy : config.policy peerAddr = .require ∨ config.policy peerAddr = .use)
    (hstream : stream.unread = writer.taken s₂) (hlimit : n ≤ config.maxHeaderSize)
    (hintime : stream.arrival n ≤ deadline)
    (hadmits : ∀ header, b.build C = .ok header →
      ¬Refuses config peerAddr (announced C c calls b header)) :
    ∃ header st sent, b.build C = .ok header ∧
      accept C config env (.ok (stream, peerAddr)) = .ok st ∧
      st.proxyInfo = some (announced C c calls b header) ∧ st.peerAddr = peerAddr ∧
      Readable st sent ∧ sent <+: payload ∧ (r = .ok () → sent = payload) := by
  have hwritten := written_writeTo hb writer s₀ (C := C)
  rw [hheader] at hwritten
  cases hwritten with
  | @all header _ built taken =>
      rw [hfresh, List.nil_append] at taken
      -- what was sent behind the header
      have hsent : ∃ sent, writer.taken s₂ = header ++ sent ∧ sent <+: payload ∧
          (r = .ok () → sent = payload) := by
        have hspec := writeAll_spec writer writeZero (payload.length + 1) s₁ payload
          (Nat.lt_succ_self _)
        rw [hpayload] at hspec
        cases hspec with
        | all htaken =>
            rw [taken] at htaken
            exact ⟨payload, htaken, List.prefix_rfl, fun _ => rfl⟩
        | part k less htaken =>
            rw [taken] at htaken
            refine ⟨payload.take k, htaken, List.take_prefix k payload, ?_⟩
            rintro ⟨⟩
      rcases hsent with ⟨sent, htaken, hpart, hwhole⟩
      rw [htaken] at hstream
      have hparse := parse_announced hC hraw hb built sent
      have hle := (parse_settles C).le hparse
      rw [← hstream] at hparse hle
      have hfirst : FirstVerdict (verdict C) stream.unread header.length
          (.ok (announced C c calls b header, header.length)) := by
        refine ⟨hle, ?_, ?_⟩
        · intro k hk
          rw [verdict_eq_none, (parse_settles C).take hparse, if_pos hk]
        · rw [verdict_eq_some, (parse_settles C).take hparse, if_neg (Nat.lt_irrefl _)]
          exact ⟨rfl, by simp⟩
      rcases readAndValidate_in_time henv hfirst hlimit hintime with
        ⟨buf, rest, hbytes, hbuf, hresult⟩
      have hin := (parse_settles C).le hbuf
      refine ⟨header, .new rest (buf.drop header.length)
        (some (announced C c calls b header)) peerAddr, sent, built, ?_, rfl, rfl, ?_, hpart,
        hwhole⟩
      · rw [accept_of_handshake hpolicy, hresult]
        exact conclude_eq_ok.mpr (.inl ⟨_, _, rfl,
          checkHeader_of_not_refuses (hadmits header built), hin, rfl⟩)
      · have hreadable := readable_undelivered (ProxiedStream.valid_new rest
          (buf.drop header.length) (some (announced C c calls b header)) peerAddr)
        rwa [ProxiedStream.undelivered_new, ← List.drop_append_of_le_length hin, hbytes, hstream,
          List.drop_left] at hreadable

/-- An IPv4 header with a protocol name and three bytes of data, written in
pieces of five bytes and received in pieces of thirty. -/
theorem sent_is_served_pipe :
    let header : List UInt8 := v2Signature ++ [0x21, 0x11, 0, 17, 192, 0, 2, 1, 198, 51, 100, 7,
      220, 4, 1, 187, 0x01, 0, 2, 0x68, 0x32]
    let stream : TcpStream := ⟨[⟨2, header.take 30, by decide⟩,
      ⟨3, header.drop 30 ++ [0x47, 0x45, 0x54], by decide⟩], .silent⟩
    ∃ st, accept .castagnoli ({} : ProxyProtocolConfig Empty) ⟨0, .granted 1, 10000000000⟩
        (.ok (stream, .v4 (.new 10 1 2 3) 4000)) = .ok st ∧
      (∃ info, st.proxyInfo = some info ∧ info.tlvs.alpn = some [0x68, 0x32]) ∧
      Readable st [0x47, 0x45, 0x54] := by
  intro header stream
  let c : Constructor := .v2 (.proxy (.v4 (.new 192 0 2 1) 56324) (.v4 (.new 198 51 100 7) 443))
  let b : HeaderBuilder :=
    { version := .v2, command := .proxy, transport := some ⟨.inet, .stream⟩,
      source := some (.inet (.v4 (.new 192 0 2 1) 56324)),
      destination := some (.inet (.v4 (.new 198 51 100 7) 443)),
      tlvEntries := [(0x01, [0x68, 0x32])], addCrc32c := false }
  have hb : (c.run >>= applyAll [.alpn [0x68, 0x32]]) = .ok b := rfl
  have hbuild : b.build .castagnoli = .ok header := by decide +kernel
  have hheader : b.writeTo .castagnoli (pipe 100) [] = (.ok 33, header) := by
    decide +kernel
  have hpayload : writeAll (pipe 100) writeZero 4 header [0x47, 0x45, 0x54] =
      (.ok (), header ++ [0x47, 0x45, 0x54]) := by decide +kernel
  have henv : HasDeadline ({} : ProxyProtocolConfig Empty) ⟨0, .granted 1, 10000000000⟩
      5000000001 := ⟨1, rfl, by decide, by decide, by decide⟩
  have hadmits : ∀ header, b.build .castagnoli = .ok header →
      ¬Refuses ({} : ProxyProtocolConfig Empty) (.v4 (.new 10 1 2 3) 4000)
        (announced .castagnoli c [.alpn [0x68, 0x32]] b header) := by
    rintro _ - (hversion | ⟨_, _, hvalidator, -⟩)
    · cases hversion
    · cases hvalidator
  rcases sent_is_served Crc32c.castagnoli_composes (by simp [WithCall.IsChecked]) hb rfl hheader
      hpayload henv (.inl rfl) (show stream.unread = _ from rfl) (by decide) (by decide) hadmits
    with ⟨_, st, sent, hbuilt, haccept, hinfo, -, hreadable, -, hall⟩
  rw [hbuild] at hbuilt
  cases hbuilt
  rw [hall rfl] at hreadable
  exact ⟨st, haccept, ⟨_, hinfo, rfl⟩, hreadable⟩

end Sent

end ProxyProtocol
