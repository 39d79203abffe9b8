import ProxyProtocol.Lib.Crc32c
import ProxyProtocol.Parse.Tlv

/-! # The v2 parser

`parse/v2.rs`: a 16-byte prelude with the payload length, then an address
block, then TLVs; if one of these carries a checksum, it is checked last. The
checksum crate is the parameter `C`.

* `parseV2_eq`: the verdict on a buffer with a prelude, stage by stage.
* `parseV2_append` and `parseV2_take`: the verdict is settled by the prelude
  and the announced payload, and later bytes do not change it.
* `findCrcTlv_found` and `computeCrc32c_pieces`: the search stops at the first
  checksum TLV, and the header is hashed around its value.
-/

namespace ProxyProtocol

open Wire Wire.Record

/-! ## The code -/

def v2Signature : List UInt8 :=
  [0x0D, 0x0A, 0x0D, 0x0A, 0x00, 0x0D, 0x0A, 0x51, 0x55, 0x49, 0x54, 0x0A]

/-- Signature, version and command, family and protocol, length. -/
def v2HeaderLen : ℕ := 16

/-- Transport, source, destination and where the TLVs start. -/
abbrev AddressParseResult := Option Transport × Option ProxyAddress × Option ProxyAddress × ℕ

def extractUnixPath (field : List UInt8) : ParseResult (List UInt8) :=
  match field.findIdx? (· == 0) with
  | some pos => Outcome.sliceTo field pos
  | none => .ok field

def familyOf (familyNibble : UInt8) : ParseResult AddressFamily :=
  match familyNibble with
  | 1 => .ok .inet
  | 2 => .ok .inet6
  | 3 => .ok .unix
  | _ => .err (.invalid (.unknownFamily familyNibble))

def protocolOf (protoNibble : UInt8) : ParseResult TransportProtocol :=
  match protoNibble with
  | 1 => .ok .stream
  | 2 => .ok .datagram
  | _ => .err (.invalid (.unknownProtocol protoNibble))

def parseV2Addresses (familyNibble protoNibble : UInt8) (payload : List UInt8) :
    ParseResult AddressParseResult := do
  let family ← familyOf familyNibble
  let protocol ← protocolOf protoNibble
  let transport : Transport := ⟨family, protocol⟩
  match family with
  -- addresses, then ports; the payload may be longer, TLVs follow
  | .inet =>
      if payload.length < 12 then .err (.invalid (.payloadOverflow 12 payload.length))
      else do
        let s0 ← Outcome.index payload 0
        let s1 ← Outcome.index payload 1
        let s2 ← Outcome.index payload 2
        let s3 ← Outcome.index payload 3
        let d0 ← Outcome.index payload 4
        let d1 ← Outcome.index payload 5
        let d2 ← Outcome.index payload 6
        let d3 ← Outcome.index payload 7
        let sp0 ← Outcome.index payload 8
        let sp1 ← Outcome.index payload 9
        let dp0 ← Outcome.index payload 10
        let dp1 ← Outcome.index payload 11
        .ok (some transport,
          some (.inet (SocketAddr.new (.v4 (Ipv4Addr.new s0 s1 s2 s3)) (be16 sp0 sp1))),
          some (.inet (SocketAddr.new (.v4 (Ipv4Addr.new d0 d1 d2 d3)) (be16 dp0 dp1))), 12)
  | .inet6 =>
      if payload.length < 36 then .err (.invalid (.payloadOverflow 36 payload.length))
      else do
        let src ← Outcome.sliceTo payload 16
        let srcOctets ← Outcome.unwrap (Octets.tryFrom 16 src)
        let dst ← Outcome.slice payload 16 32
        let dstOctets ← Outcome.unwrap (Octets.tryFrom 16 dst)
        let sp0 ← Outcome.index payload 32
        let sp1 ← Outcome.index payload 33
        let dp0 ← Outcome.index payload 34
        let dp1 ← Outcome.index payload 35
        .ok (some transport,
          some (.inet (SocketAddr.new (.v6 ⟨srcOctets⟩) (be16 sp0 sp1))),
          some (.inet (SocketAddr.new (.v6 ⟨dstOctets⟩) (be16 dp0 dp1))), 36)
  | .unix =>
      if payload.length < 216 then .err (.invalid (.payloadOverflow 216 payload.length))
      else do
        let src ← Outcome.sliceTo payload 108
        let srcPath ← extractUnixPath src
        let dst ← Outcome.slice payload 108 216
        let dstPath ← extractUnixPath dst
        .ok (some transport, some (.unix srcPath), some (.unix dstPath), 216)

/-- How the search for the checksum TLV ends: at one, at a TLV that does not
fit, or at the end of the region. -/
inductive CrcSearch where
  | found (crcValueStart : ℕ)
  | broke
  | exhausted
deriving DecidableEq, Repr

/-- The loop of `compute_crc32c`. -/
def findCrcTlv (header : List UInt8) (totalLen : ℕ) : ℕ → ℕ → ParseResult CrcSearch
  | 0, _ => .diverge
  | fuel + 1, pos => do
      let valueStart ← Outcome.add pos 3
      if valueStart ≤ totalLen then do
        let tlvType ← Outcome.index header pos
        let hi ← Outcome.index header (pos + 1)
        let lo ← Outcome.index header (pos + 2)
        let tlvLen := (be16 hi lo).toNat
        let valueEnd ← Outcome.add valueStart tlvLen
        if valueEnd > totalLen then .ok .broke
        -- the first TLV that can be a checksum ends the search
        else if tlvType = 0x03 ∧ tlvLen = 4 then .ok (.found valueStart)
        else findCrcTlv header totalLen fuel valueEnd
      else .ok .exhausted

/-- The checksum over the header, with the checksum itself taken as zero. -/
def computeCrc32c (C : Crc32c) (buf : List UInt8) (totalLen tlvStart : ℕ) :
    ParseResult UInt32 := do
  let header ← Outcome.sliceTo buf totalLen
  match ← findCrcTlv header totalLen (totalLen + 1) tlvStart with
  | .found crcValueStart => do
      -- three pieces: before the value, four zero bytes, after the value
      let before ← Outcome.sliceTo header crcValueStart
      let crc := C.crc32cAppend (C.crc32c before) [0, 0, 0, 0]
      let afterStart ← Outcome.add crcValueStart 4
      let after ← Outcome.sliceFrom header afterStart
      .ok (C.crc32cAppend crc after)
  | .broke | .exhausted => .ok (C.crc32c header)

/-- Version and command, from byte 12. -/
def v2Command (verCmd : UInt8) : ParseResult Command :=
  let versionNibble := verCmd >>> 4
  let commandNibble := verCmd &&& 0x0F
  if versionNibble ≠ 0x02 then .err (.invalid (.unsupportedVersion versionNibble))
  else
    match commandNibble with
    | 0x00 => .ok .local
    | 0x01 => .ok .proxy
    | _ => .err (.invalid (.unknownCommand commandNibble))

/-- The address block: none for LOCAL, a concrete family and protocol for
PROXY. -/
def v2Addresses (command : Command) (famProto : UInt8) (payload : List UInt8) :
    ParseResult AddressParseResult :=
  let familyNibble := famProto >>> 4
  let protoNibble := famProto &&& 0x0F
  match command with
  | .local => .ok (none, none, none, 0)
  | .proxy =>
      if familyNibble = 0 ∨ protoNibble = 0 then .err (.invalid .unspecWithProxy)
      else parseV2Addresses familyNibble protoNibble payload

/-- The TLVs behind the address block. LOCAL tolerates a malformed payload. -/
def v2Tlvs (command : Command) (payload : List UInt8) (tlvOffset : ℕ) : ParseResult Tlvs :=
  if tlvOffset < payload.length then do
    let region ← Outcome.sliceFrom payload tlvOffset
    match command with
    | .local =>
        -- `unwrap_or_default`: an error is dropped, a panic is not
        match parseTlvs region with
        | .err _ => .ok {}
        | result => result
    | .proxy => parseTlvs region
  else .ok {}

/-- Everything behind the prelude except the checksum: the header data and
where its TLVs start in the payload. -/
def v2Payload (command : Command) (famProto : UInt8) (payload : List UInt8) :
    ParseResult (ProxyInfo × ℕ) := do
  let (transport, source, destination, tlvOffset) ← v2Addresses command famProto payload
  let tlvs ← v2Tlvs command payload tlvOffset
  .ok ({ version := .v2, command, transport, source, destination, tlvs }, tlvOffset)

/-- All structural checks of `parse_v2`: the header data, the total length and
where the TLVs start in the payload. -/
def v2Structure (buf : List UInt8) : ParseResult (ProxyInfo × ℕ × ℕ) :=
  if buf.length < v2HeaderLen then .err .incomplete
  else do
    let verCmd ← Outcome.index buf 12
    let command ← v2Command verCmd
    let famProto ← Outcome.index buf 13
    let hi ← Outcome.index buf 14
    let lo ← Outcome.index buf 15
    let payloadLen := (be16 hi lo).toNat
    let totalLen ← Outcome.add v2HeaderLen payloadLen
    if buf.length < totalLen then .err .incomplete
    else do
      let payload ← Outcome.slice buf v2HeaderLen totalLen
      let (info, tlvOffset) ← v2Payload command famProto payload
      .ok (info, totalLen, tlvOffset)

/-- The checksum check, made when a checksum TLV was seen. -/
def validateCrc32c (C : Crc32c) (buf : List UInt8) (totalLen tlvOffset : ℕ) (tlvs : Tlvs) :
    ParseResult Unit :=
  match tlvs.crc32c with
  | none => .ok ()
  | some expectedCrc => do
      let tlvStart ← Outcome.add v2HeaderLen tlvOffset
      let actualCrc ← computeCrc32c C buf totalLen tlvStart
      if actualCrc ≠ expectedCrc then .err (.crcMismatch expectedCrc actualCrc)
      else .ok ()

def parseV2 (C : Crc32c) (buf : List UInt8) : ParseResult (ProxyInfo × ℕ) := do
  let (info, totalLen, tlvOffset) ← v2Structure buf
  validateCrc32c C buf totalLen tlvOffset info.tlvs
  .ok (info, totalLen)

/-! ## Stages -/

/-- The prelude: a signature of twelve bytes, then four bytes of fields. -/
theorem exists_prelude {buf : List UInt8} (h : v2HeaderLen ≤ buf.length) :
    ∃ (sig : List UInt8) (vc fp hi lo : UInt8) (rest : List UInt8),
      sig.length = 12 ∧ buf = sig ++ (vc :: fp :: hi :: lo :: rest) := by
  have hlen : (buf.take 12).length = 12 := by
    simp only [List.length_take, v2HeaderLen] at h ⊢
    omega
  have hdrop : 4 ≤ (buf.drop 12).length := by
    simp only [List.length_drop, v2HeaderLen] at h ⊢
    omega
  match hrest : buf.drop 12 with
  | [] | [_] | [_, _] | [_, _, _] =>
      rw [hrest] at hdrop
      simp at hdrop
  | vc :: fp :: hi :: lo :: rest =>
      refine ⟨buf.take 12, vc, fp, hi, lo, rest, hlen, ?_⟩
      rw [← hrest, List.take_append_drop]

section Prelude

variable {sig : List UInt8} (hsig : sig.length = 12) (vc fp hi lo : UInt8) (rest : List UInt8)

include hsig

theorem index_prelude (i : ℕ) :
    (Outcome.index (sig ++ (vc :: fp :: hi :: lo :: rest)) (12 + i) : ParseResult UInt8) =
      Outcome.index (vc :: fp :: hi :: lo :: rest) i :=
  Outcome.index_append_right hsig _ i

theorem take_prelude (n : ℕ) :
    (sig ++ (vc :: fp :: hi :: lo :: rest)).take (16 + n) =
      sig ++ (vc :: fp :: hi :: lo :: rest.take n) := by
  rw [show 16 + n = sig.length + (n + 4) by omega, List.take_length_add_append]
  simp

theorem v2Structure_eq :
    v2Structure (sig ++ (vc :: fp :: hi :: lo :: rest)) =
      (v2Command vc >>= fun command =>
        if rest.length < (be16 hi lo).toNat then .err .incomplete
        else v2Payload command fp (rest.take (be16 hi lo).toNat) >>= fun p =>
          .ok (p.1, 16 + (be16 hi lo).toNat, p.2)) := by
  have hle := toNat_be16_le hi lo
  have hlen : (sig ++ (vc :: fp :: hi :: lo :: rest)).length = 16 + rest.length := by
    simp only [List.length_append, hsig, List.length_cons]
    omega
  have hpayload : (sig ++ (vc :: fp :: hi :: lo :: rest.take (be16 hi lo).toNat)).drop 16 =
      rest.take (be16 hi lo).toNat := by
    rw [show 16 = sig.length + 4 by omega, List.drop_length_add_append]
    simp
  have h12 := index_prelude hsig vc fp hi lo rest 0
  have h13 := index_prelude hsig vc fp hi lo rest 1
  have h14 := index_prelude hsig vc fp hi lo rest 2
  have h15 := index_prelude hsig vc fp hi lo rest 3
  simp only [Outcome.index_zero, Outcome.index_succ, Nat.reduceAdd] at h12 h13 h14 h15
  rw [v2Structure, hlen, if_neg (by simp only [v2HeaderLen]; omega)]
  simp only [h12, h13, h14, h15, Outcome.ok_bind, v2HeaderLen]
  congr 1
  funext command
  rw [Outcome.add_of_lt (by omega), Outcome.ok_bind]
  by_cases hshort : rest.length < (be16 hi lo).toNat
  · rw [if_pos (by omega), if_pos hshort]
  · rw [if_neg (by omega), if_neg hshort, Outcome.slice_of_le (by omega) (by omega),
      Outcome.ok_bind, take_prelude hsig, hpayload]

end Prelude

/-- `compute_crc32c` cuts the buffer itself before it looks at anything. -/
theorem computeCrc32c_take (C : Crc32c) {buf : List UInt8} {totalLen : ℕ}
    (h : totalLen ≤ buf.length) (tlvStart : ℕ) :
    computeCrc32c C buf totalLen tlvStart =
      computeCrc32c C (buf.take totalLen) totalLen tlvStart := by
  rw [computeCrc32c, computeCrc32c, Outcome.sliceTo_of_le h,
    Outcome.sliceTo_of_le (by simp [h]), List.take_take, Nat.min_self]

/-- The checksum check looks at the header only. -/
theorem validateCrc32c_take (C : Crc32c) {buf : List UInt8} {totalLen : ℕ}
    (h : totalLen ≤ buf.length) (tlvOffset : ℕ) (tlvs : Tlvs) :
    validateCrc32c C buf totalLen tlvOffset tlvs =
      validateCrc32c C (buf.take totalLen) totalLen tlvOffset tlvs := by
  simp only [validateCrc32c, computeCrc32c_take C h]

/-- The verdict on a buffer with a prelude. -/
theorem parseV2_eq (C : Crc32c) {sig : List UInt8} (hsig : sig.length = 12)
    (vc fp hi lo : UInt8) (rest : List UInt8) :
    parseV2 C (sig ++ (vc :: fp :: hi :: lo :: rest)) =
      (v2Command vc >>= fun command =>
        if rest.length < (be16 hi lo).toNat then .err .incomplete
        else v2Payload command fp (rest.take (be16 hi lo).toNat) >>= fun p =>
          validateCrc32c C (sig ++ (vc :: fp :: hi :: lo :: rest.take (be16 hi lo).toNat))
            (16 + (be16 hi lo).toNat) p.2 p.1.tlvs >>= fun _ =>
          .ok (p.1, 16 + (be16 hi lo).toNat)) := by
  rw [parseV2, v2Structure_eq hsig, bind_assoc]
  congr 1
  funext command
  by_cases hshort : rest.length < (be16 hi lo).toNat
  · rw [if_pos hshort, if_pos hshort]
    rfl
  · rw [if_neg hshort, if_neg hshort, bind_assoc]
    congr 1
    funext p
    have hlen : 16 + (be16 hi lo).toNat ≤ (sig ++ (vc :: fp :: hi :: lo :: rest)).length := by
      simp only [List.length_append, hsig, List.length_cons]
      omega
    simp only [Outcome.ok_bind]
    rw [validateCrc32c_take C hlen, take_prelude hsig]

theorem parseV2_of_short (C : Crc32c) {buf : List UInt8} (h : buf.length < v2HeaderLen) :
    parseV2 C buf = .err .incomplete := by
  rw [parseV2, v2Structure, if_pos h]
  rfl

/-- Once the verdict is not "incomplete", later bytes do not change it. -/
theorem parseV2_append {C : Crc32c} {buf : List UInt8} (h : parseV2 C buf ≠ .err .incomplete)
    (e : List UInt8) : parseV2 C (buf ++ e) = parseV2 C buf := by
  by_cases hshort : buf.length < v2HeaderLen
  · exact absurd (parseV2_of_short C hshort) h
  · rcases exists_prelude (Nat.not_lt.mp hshort) with ⟨sig, vc, fp, hi, lo, rest, hsig, rfl⟩
    rw [List.append_assoc]
    simp only [List.cons_append]
    rw [parseV2_eq C hsig] at h ⊢
    rw [parseV2_eq C hsig]
    cases hcmd : v2Command vc with
    -- refused from the prelude alone, whatever follows
    | err _ | panic | diverge => rfl
    | ok command =>
        rw [hcmd, Outcome.ok_bind] at h
        have hlong : ¬ rest.length < (be16 hi lo).toNat := by
          intro hlt
          exact h (by rw [if_pos hlt])
        simp only [Outcome.ok_bind]
        rw [if_neg hlong, if_neg (by rw [List.length_append]; omega),
          List.take_append_of_le_length (Nat.not_lt.mp hlong)]

/-- An accepted header has the length its prelude announces: it is accepted
alone, and every proper part of it is incomplete. -/
theorem parseV2_take {C : Crc32c} {buf : List UInt8} {info : ProxyInfo} {n : ℕ}
    (h : parseV2 C buf = .ok (info, n)) :
    v2HeaderLen ≤ n ∧ n ≤ buf.length ∧
      ∀ k, parseV2 C (buf.take k) = if k < n then .err .incomplete else .ok (info, n) := by
  by_cases hshort : buf.length < v2HeaderLen
  · rw [parseV2_of_short C hshort] at h
    cases h
  · rcases exists_prelude (Nat.not_lt.mp hshort) with ⟨sig, vc, fp, hi, lo, rest, hsig, rfl⟩
    rw [parseV2_eq C hsig] at h
    rcases Outcome.bind_eq_ok.mp h with ⟨command, hcmd, h⟩
    split at h
    · cases h
    · rename_i hlong
      rcases Outcome.bind_eq_ok.mp h with ⟨p, hpayload, h⟩
      rcases Outcome.bind_eq_ok.mp h with ⟨_, hcrc, h⟩
      cases h
      refine ⟨by simp only [v2HeaderLen]; omega, ?_, ?_⟩
      · simp only [List.length_append, hsig, List.length_cons]
        omega
      · intro k
        by_cases h16 : k < 16
        · -- not even the prelude
          rw [parseV2_of_short C (by rw [List.length_take, v2HeaderLen]; omega),
            if_pos (by omega)]
        · -- the prelude is there and says whether the payload is
          obtain ⟨j, rfl⟩ : ∃ j, k = 16 + j := ⟨k - 16, by omega⟩
          rw [take_prelude hsig, parseV2_eq C hsig, hcmd, Outcome.ok_bind]
          by_cases hj : j < (be16 hi lo).toNat
          · rw [if_pos (by rw [List.length_take]; omega), if_pos (by omega)]
          · rw [if_neg (by rw [List.length_take]; omega), List.take_take,
              Nat.min_eq_left (by omega), hpayload, Outcome.ok_bind, hcrc, if_neg (by omega)]
            rfl

/-! ## The checksum -/

/-- A record that `compute_crc32c` takes for the checksum. -/
def IsCrcTlv (r : Record) : Prop := r.1 = 0x03 ∧ r.2.length = 4

instance (r : Record) : Decidable (IsCrcTlv r) := inferInstanceAs (Decidable (_ ∧ _))

/-- One iteration of the search, on a whole TLV behind `front`. -/
theorem findCrcTlv_encode {front rest : List UInt8} {r : Record} (hfits : r.Fits)
    {totalLen : ℕ} (hlen : (front ++ (encode r ++ rest)).length = totalLen)
    (hword : totalLen ≤ Outcome.usizeMax) (fuel : ℕ) :
    findCrcTlv (front ++ (encode r ++ rest)) totalLen (fuel + 1) front.length =
      if IsCrcTlv r then .ok (.found (front.length + 3))
      else findCrcTlv (front ++ (encode r ++ rest)) totalLen fuel (front ++ encode r).length := by
  rcases r with ⟨ty, value⟩
  have hfield := toNat_length_field hfits
  have htotal : front.length + (3 + value.length) + rest.length = totalLen := by
    rw [← hlen]
    simp only [List.length_append, length_encode, size]
    omega
  have hnext : (front ++ encode (ty, value)).length = front.length + 3 + value.length := by
    simp only [List.length_append, length_encode, size]
    omega
  have hbytes : encode (ty, value) ++ rest =
      ty :: UInt8.ofNat ((UInt16.ofNat value.length).toNat / 256) ::
        UInt8.ofNat (UInt16.ofNat value.length).toNat :: (value ++ rest) := by
    simp [encode, be16Bytes]
  -- seen from the end of `front`, the code reads the three bytes of the TLV's head
  have hindex : ∀ i, (Outcome.index (front ++ (encode (ty, value) ++ rest)) (front.length + i) :
      ParseResult UInt8) = Outcome.index (encode (ty, value) ++ rest) i :=
    Outcome.index_append_right rfl _
  have h0 := hindex 0
  have h1 := hindex 1
  have h2 := hindex 2
  rw [Nat.add_zero] at h0
  rw [findCrcTlv, h0, h1, h2, Outcome.add_of_le (by omega), Outcome.ok_bind, if_pos (by omega)]
  simp only [hbytes, Outcome.index_zero, Outcome.index_succ, Outcome.ok_bind, hfield]
  rw [Outcome.add_of_le (by omega), Outcome.ok_bind, if_neg (by omega), hnext]
  rfl

/-- The search finds the first checksum TLV. -/
theorem findCrcTlv_found {pre post : List Record} {crc : Record}
    (hfits : ∀ r ∈ pre ++ crc :: post, r.Fits) (hpre : ∀ r ∈ pre, ¬ IsCrcTlv r)
    (hcrc : IsCrcTlv crc) {front : List UInt8} {totalLen : ℕ}
    (hlen : (front ++ encodeAll (pre ++ crc :: post)).length = totalLen)
    (hword : totalLen ≤ Outcome.usizeMax) {fuel : ℕ} (hfuel : pre.length < fuel) :
    findCrcTlv (front ++ encodeAll (pre ++ crc :: post)) totalLen fuel front.length =
      .ok (.found (front.length + (encodeAll pre).length + 3)) := by
  induction pre generalizing front fuel with
  | nil =>
      obtain ⟨fuel, rfl⟩ : ∃ k, fuel = k + 1 := ⟨fuel - 1, by omega⟩
      simp only [List.nil_append, encodeAll_cons] at hlen hfits ⊢
      rw [findCrcTlv_encode (hfits crc (by simp)) hlen hword, if_pos hcrc]
      rfl
  | cons r pre ih =>
      simp only [List.length_cons] at hfuel
      obtain ⟨fuel, rfl⟩ : ∃ k, fuel = k + 1 := ⟨fuel - 1, by omega⟩
      simp only [List.cons_append, encodeAll_cons] at hlen hfits ⊢
      have hlen' : ((front ++ encode r) ++ encodeAll (pre ++ crc :: post)).length = totalLen := by
        rw [List.append_assoc]
        exact hlen
      have hfuel' : pre.length < fuel := by omega
      -- `r` moves over to the bytes already passed
      have hrec := ih (fun q hq => hfits q (by simp [hq])) (fun q hq => hpre q (by simp [hq]))
        hlen' hfuel'
      rw [findCrcTlv_encode (hfits r (by simp)) hlen hword, if_neg (hpre r (by simp)),
        ← List.append_assoc, hrec]
      simp only [List.length_append, Nat.add_assoc]

section FirstCrc

variable {pre post : List Record} {crc : Record} {front header : List UInt8} {pos : ℕ}

/-- In a header whose TLVs stand behind `front`, the search of `compute_crc32c`
ends at the first checksum TLV. -/
theorem findCrcTlv_header (hfits : ∀ r ∈ pre ++ crc :: post, r.Fits)
    (hpre : ∀ r ∈ pre, ¬ IsCrcTlv r) (hcrc : IsCrcTlv crc)
    (hheader : header = front ++ encodeAll (pre ++ crc :: post))
    (hpos : pos = front.length + (encodeAll pre).length + 3)
    (hword : header.length ≤ Outcome.usizeMax) :
    findCrcTlv header header.length (header.length + 1) front.length = .ok (.found pos) := by
  have hfuel : pre.length < header.length + 1 := by
    have := length_lt_fuel pre (encodeAll (crc :: post))
    rw [hheader]
    simp only [encodeAll_append, List.length_append] at this ⊢
    omega
  have hfound := findCrcTlv_found hfits hpre hcrc (congrArg List.length hheader).symm hword hfuel
  rw [← hheader, ← hpos] at hfound
  exact hfound

/-- With a checksum TLV, the header is hashed in three pieces. -/
theorem computeCrc32c_pieces (C : Crc32c) (hfits : ∀ r ∈ pre ++ crc :: post, r.Fits)
    (hpre : ∀ r ∈ pre, ¬ IsCrcTlv r) (hcrc : IsCrcTlv crc)
    (hheader : header = front ++ encodeAll (pre ++ crc :: post))
    (hpos : pos = front.length + (encodeAll pre).length + 3)
    (hword : header.length ≤ Outcome.usizeMax) :
    computeCrc32c C header header.length front.length =
      .ok (C.crc32cAppend (C.crc32cAppend (C.crc32c (header.take pos)) [0, 0, 0, 0])
        (header.drop (pos + 4))) := by
  have hsize : pos + 4 ≤ header.length := by
    have h4 := hcrc.2
    rw [hpos, hheader]
    simp only [encodeAll_append, encodeAll_cons, List.length_append, length_encode, size]
    omega
  have hfound := findCrcTlv_header hfits hpre hcrc hheader hpos hword
  rw [computeCrc32c, Outcome.sliceTo_of_le (Nat.le_refl _), List.take_length, Outcome.ok_bind,
    hfound, Outcome.ok_bind]
  simp only []
  rw [Outcome.sliceTo_of_le (by omega), Outcome.ok_bind, Outcome.add_of_le (by omega),
    Outcome.ok_bind, Outcome.sliceFrom_of_le hsize]
  rfl

end FirstCrc

end ProxyProtocol
