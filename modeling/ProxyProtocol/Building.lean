import ProxyProtocol.RoundTrip
import ProxyProtocol.V1Grammar
import ProxyProtocol.V2Grammar

/-! # When building panics

`build` asserts twice, for every TLV and for the whole payload, and then
narrows two lengths to 16 bits; `build_v1` has an `unreachable!` arm. Which of
these a builder can run into depends on the constructor and the calls that made
it.

* `buildV1_returns`: no v1 builder gets to the `unreachable!` arm, since no
  call changes the family a constructor has stored.
* `buildV2_of_payload`: a v2 builder panics iff its payload does not fit the
  length field. The assertion on single TLVs adds nothing to that.
* `build_panics_iff`: both, and that a header that was built tells its length.
-/

namespace ProxyProtocol

open Wire Wire.Record

/-- The constructors of `HeaderBuilder`. -/
inductive Constructor where
  | v1Proxy (source destination : SocketAddr)
  | v1Unknown
  | v2 (constructor : V2Constructor)
deriving DecidableEq, Repr

namespace Constructor

def run : Constructor → BuildResult HeaderBuilder
  | .v1Proxy source destination => HeaderBuilder.v1Proxy source destination
  | .v1Unknown => .ok HeaderBuilder.v1Unknown
  | .v2 constructor => constructor.run

/-- The length of the address block; a v1 header has none. -/
def blockLen : Constructor → ℕ
  | .v1Proxy _ _ => 0
  | .v1Unknown => 0
  | .v2 constructor => constructor.blockLen

end Constructor

/-- The length of the payload that a constructor and calls ask for: the address
block, the pushed TLVs and the checksum TLV. -/
def payloadSize (c : Constructor) (calls : List WithCall) : ℕ :=
  c.blockLen + totalSize (calls.flatMap WithCall.pushed) + if .crc32c ∈ calls then 7 else 0

/-- The cast `n as u16` keeps `n`. -/
def KeptByCast (n : ℕ) : Prop := (UInt16.ofNat n).toNat = n

theorem keptByCast_of_le {n : ℕ} (h : n ≤ 65535) : KeptByCast n := by
  rw [KeptByCast, UInt16.toNat_ofNat']
  omega

/-! ## v1 -/

/-- The two v1 constructors and any calls. -/
theorem buildV1_returns (C : Crc32c) {c : Constructor} {calls : List WithCall} {b : HeaderBuilder}
    (hb : (c.run >>= applyAll calls) = .ok b) (hversion : b.version = .v1) :
    ∃ h, b.build C = .ok h := by
  rcases Outcome.bind_eq_ok.mp hb with ⟨b₀, hrun, hcalls⟩
  have hran := applyAll_spec hcalls
  cases c with
  | v1Proxy source destination => exact ⟨_, build_v1 C hrun hcalls⟩
  | v1Unknown =>
      cases hrun
      have hsource : b.source = none := hran.source
      refine ⟨proxyUnknown ++ [0x0D, 0x0A], ?_⟩
      rw [HeaderBuilder.build, hversion]
      simp only [HeaderBuilder.buildV1, hsource]
  | v2 constructor =>
      -- a v2 builder stays one
      rcases describes_calls hb with ⟨t, hd, -⟩
      rw [hd.version] at hversion
      cases hversion

/-! ## v2 -/

theorem length_withChecksum (C : Crc32c) (addCrc32c : Bool) (t : Target) (rs : List Record) :
    (encodeAll (withChecksum C addCrc32c t rs)).length =
      totalSize rs + if addCrc32c then 7 else 0 := by
  cases addCrc32c with
  | false => exact length_encodeAll rs
  | true =>
      simp only [withChecksum, if_true, encodeAll_append, List.length_append, length_encodeAll,
        totalSize, size, length_be32Bytes]

/-- A v2 builder and what it is about, in terms of its constructor and calls. -/
theorem exists_target {c : Constructor} {calls : List WithCall} {b : HeaderBuilder}
    (hb : (c.run >>= applyAll calls) = .ok b) (hversion : b.version = .v2) (C : Crc32c) :
    ∃ t, Describes b t ∧ t.block.length +
      (encodeAll (withChecksum C b.addCrc32c t b.tlvEntries)).length = payloadSize c calls := by
  cases c with
  | v1Proxy source destination =>
      rcases Outcome.bind_eq_ok.mp hb with ⟨b₀, hrun, hcalls⟩
      rw [Constructor.run, HeaderBuilder.v1Proxy, HeaderBuilder.proxy,
        Outcome.ite_panic_eq_ok] at hrun
      rw [(applyAll_spec hcalls).version, ← hrun.2] at hversion
      cases hversion
  | v1Unknown =>
      rw [(applyAll_spec hb).version] at hversion
      cases hversion
  | v2 constructor =>
      rcases describes_calls hb with ⟨t, hd, -, -, hblock, hentries, hflag⟩
      refine ⟨t, hd, ?_⟩
      rw [length_withChecksum, hblock, hentries, hflag, payloadSize, Constructor.blockLen]
      simp only [decide_eq_true_eq, Nat.add_assoc]

/-- The assertion on single TLVs follows from the one on the payload. -/
theorem fits_of_payload {C : Crc32c} {addCrc32c : Bool} {t : Target} {rs : List Record}
    (h : t.block.length + (encodeAll (withChecksum C addCrc32c t rs)).length ≤ 65535) :
    ∀ r ∈ rs, r.Fits := by
  intro r hr
  have hsize := size_le_totalSize hr
  rw [length_withChecksum] at h
  simp only [size] at hsize
  simp only [Fits]
  omega

/-- What building a v2 header gives. -/
theorem buildV2_of_payload {C : Crc32c} {b : HeaderBuilder} {t : Target} (hd : Describes b t) :
    b.build C =
      if t.block.length + (encodeAll (withChecksum C b.addCrc32c t b.tlvEntries)).length ≤ 65535
      then .ok (headerBytes t (withChecksum C b.addCrc32c t b.tlvEntries)) else .panic := by
  rw [HeaderBuilder.build, hd.version]
  refine (buildV2_eq C hd).trans ?_
  by_cases h : t.block.length +
      (encodeAll (withChecksum C b.addCrc32c t b.tlvEntries)).length ≤ 65535
  · rw [if_pos h, if_pos ⟨fits_of_payload h, h⟩]
  · rw [if_neg h, if_neg (fun hboth => h hboth.2)]

/-- Calls that did not panic have encoded their SSL values whole. -/
theorem fits_of_ssl_call {calls : List WithCall} {b b' : HeaderBuilder}
    (h : applyAll calls b = .ok b') {info : SslInfo} (hinfo : .ssl info ∈ calls) :
    ∀ r ∈ sslSubTlvs info, r.Fits := by
  induction calls generalizing b with
  | nil => cases hinfo
  | cons call calls ih =>
      rcases Outcome.bind_eq_ok.mp h with ⟨b₁, hcall, hrest⟩
      rcases List.mem_cons.mp hinfo with heq | hmem
      · rw [← heq] at hcall
        rcases Outcome.bind_eq_ok.mp hcall with ⟨value, hvalue, -⟩
        exact (encodeSslTlvValue_eq_ok.mp hvalue).1
      · exact ih hrest hmem

/-- The length field of a header that was built. -/
theorem payloadLen_headerBytes {t : Target} {rs : List Record}
    (h : t.block.length + (encodeAll rs).length ≤ 65535) :
    payloadLen (headerBytes t rs) = (headerBytes t rs).length - 16 := by
  have hle : (t.block ++ encodeAll rs).length ≤ 65535 := by
    rw [List.length_append]
    exact h
  have hfields := prelude_fields t.command.verCmd t.famProto hle [] rfl
  rw [List.append_nil] at hfields
  rw [length_headerBytes, Nat.add_sub_cancel_left, ← List.length_append]
  exact hfields.2.2.1

/-- `build` panics exactly as documented. A v1 builder never does; a v2 builder
does iff its payload exceeds 65535 bytes, and otherwise announces the length of
what it wrote, with no length cut down by a cast on the way. -/
theorem build_panics_iff (C : Crc32c) {c : Constructor} {calls : List WithCall}
    {b : HeaderBuilder} (hb : (c.run >>= applyAll calls) = .ok b) :
    (b.version = .v1 → ∃ h, b.build C = .ok h) ∧
    (b.version = .v2 →
      (b.build C = .panic ↔ 65535 < payloadSize c calls) ∧
      (b.build C = .panic ∨ ∃ h, b.build C = .ok h)) ∧
    (b.version = .v2 → ∀ h, b.build C = .ok h →
      16 ≤ h.length ∧ payloadLen h = h.length - 16 ∧ KeptByCast (h.length - 16) ∧
      (∀ r ∈ b.tlvEntries, KeptByCast r.2.length) ∧
      ∀ info, .ssl info ∈ calls → ∀ r ∈ sslSubTlvs info, KeptByCast r.2.length) := by
  refine ⟨buildV1_returns C hb, ?_, ?_⟩
  · intro hversion
    rcases exists_target hb hversion C with ⟨t, hd, hsize⟩
    rw [buildV2_of_payload hd, hsize]
    by_cases hle : payloadSize c calls ≤ 65535
    · rw [if_pos hle]
      refine ⟨⟨?_, ?_⟩, .inr ⟨_, rfl⟩⟩
      · rintro ⟨⟩
      · intro hlt
        omega
    · rw [if_neg hle]
      exact ⟨⟨fun _ => by omega, fun _ => rfl⟩, .inl rfl⟩
  · intro hversion h hbuild
    rcases exists_target hb hversion C with ⟨t, hd, -⟩
    rcases Outcome.bind_eq_ok.mp hb with ⟨b₀, -, hcalls⟩
    rw [buildV2_of_payload hd, Outcome.ite_panic_eq_ok] at hbuild
    rcases hbuild with ⟨hle, rfl⟩
    have hlen := length_headerBytes t (withChecksum C b.addCrc32c t b.tlvEntries)
    refine ⟨by omega, payloadLen_headerBytes hle, keptByCast_of_le (by omega), ?_, ?_⟩
    · intro r hr
      exact keptByCast_of_le (fits_of_payload hle r hr)
    · intro info hinfo r hr
      exact keptByCast_of_le (fits_of_ssl_call hcalls hinfo r hr)

/-- A LOCAL header whose one TLV just fills the payload, and one byte more. -/
theorem build_panics_iff_boundary :
    let b (n : ℕ) : HeaderBuilder :=
      { HeaderBuilder.v2Local with tlvEntries := [(0xE0, List.replicate n 0)] }
    (b 65533).build .castagnoli = .panic ∧
      ∃ h, (b 65532).build .castagnoli = .ok h ∧ payloadLen h = h.length - 16 := by
  intro b
  have hb : ∀ n, ((Constructor.v2 .local).run >>=
      applyAll [.rawTlv 0xE0 (List.replicate n 0)]) = .ok (b n) := fun _ => rfl
  have hsize : ∀ n, payloadSize (.v2 .local) [.rawTlv 0xE0 (List.replicate n 0)] = 3 + n := by
    intro n
    simp [payloadSize, Constructor.blockLen, V2Constructor.blockLen, WithCall.pushed, totalSize,
      size]
  rcases build_panics_iff .castagnoli (hb 65533) with ⟨-, hlong, -⟩
  rcases build_panics_iff .castagnoli (hb 65532) with ⟨-, hfull, hlength⟩
  refine ⟨(hlong rfl).1.mpr (by rw [hsize]; decide), ?_⟩
  rcases (hfull rfl).2 with hpanic | ⟨h, hbuild⟩
  · have hlt := (hfull rfl).1.mp hpanic
    rw [hsize] at hlt
    omega
  · exact ⟨h, hbuild, (hlength rfl h hbuild).2.1⟩

end ProxyProtocol
