import ProxyProtocol.Sender
import ProxyProtocol.TlvRegion

/-! # Headers with raw TLVs

`with_raw_tlv` takes any type and any value, also of the types whose values the
parser checks. What the receiver makes of such a header:

* `built_verdict`: for every header that can be built, whether it is accepted,
  what it then says, and otherwise which error is reported and where.

A LOCAL header is accepted even so, but then all its TLVs are dropped, those of
the typed calls included.
-/

namespace ProxyProtocol

open Wire Wire.Record

/-! ## TLVs that are refused -/

theorem accepted_of_parseTlvs {rs : List Record} {tlvs : Tlvs} (hfits : ∀ r ∈ rs, r.Fits)
    (h : parseTlvs (encodeAll rs) = .ok tlvs) : ∀ r ∈ rs, Accepted r := by
  rcases of_parseTlvs h with ⟨rs', heq, hrs', -⟩
  rw [encodeAll_inj hfits (fun r hr => (hrs' r hr).1) heq]
  exact fun r hr => (hrs' r hr).2

/-- The error about a whole TLV points at its start or inside it. -/
theorem offset_of_visitTlv_err {offset : ℕ} {q : Record} {tlvs : Tlvs} {e : ParseError}
    (h : visitTlv offset q tlvs = .err e) :
    ∃ k < size q, e = malformedTlv (offset + k) := by
  rcases exists_visitTlv_err h with ⟨-, rfl⟩ | ⟨-, -, hssl⟩
  · exact ⟨0, by simp only [size]; omega, rfl⟩
  · rcases exists_parseSsl_err hssl with ⟨fixed, subs, tail, hfixed, hvalue, -, hne, -, rfl⟩
    have hpos := List.length_pos_iff.mpr hne
    refine ⟨3 + 5 + (encodeAll subs).length, ?_, by simp only [Nat.add_assoc]⟩
    rw [size, hvalue, List.length_append, List.length_append]
    omega

/-- Of whole TLVs, the first that is not accepted is reported. -/
theorem exists_rejected {rs : List Record} (hfits : ∀ r ∈ rs, r.Fits)
    (hlen : (encodeAll rs).length ≤ Outcome.usizeMax) (hno : ¬∀ r ∈ rs, Accepted r) :
    ∃ pre q post, rs = pre ++ q :: post ∧ (∀ r ∈ pre, Accepted r) ∧ ¬Accepted q ∧
      ∃ k < size q,
        parseTlvs (encodeAll rs) = .err (malformedTlv ((encodeAll pre).length + k)) := by
  have herr : ∃ e, parseTlvs (encodeAll rs) = .err e :=
    (parseTlvs_endsIn hlen).returns.exists_err
      (fun tlvs htlvs => hno (accepted_of_parseTlvs hfits htlvs))
  rcases herr with ⟨e, he⟩
  have hfuel := length_lt_fuel rs []
  rw [List.append_nil] at hfuel
  have hloop := tlvLoop_eq malformedTlv visitTlv hfits (show next [] = none from rfl)
    ((encodeAll rs).length + 1) 0 {} hfuel
  rw [List.append_nil] at hloop
  have hwalk := he
  rw [parseTlvs, hloop] at hwalk
  rcases Outcome.bind_eq_err.mp hwalk with hvisit | ⟨p, -, hend⟩
  · rcases exists_visit_err hvisit with ⟨pre, q, post, p, rfl, hpre, hq⟩
    have hfront : ∀ r ∈ pre, r.Fits := fun r hr => hfits r (by simp [hr])
    have hoffset := (offset_of_visitAll (Nat.zero_le _) hpre).1
    rw [Nat.zero_add] at hoffset
    refine ⟨pre, q, post, rfl, ?_, ?_, ?_⟩
    · exact accepted_of_parseTlvs hfront (tlvLoop_of_visitAll malformedTlv hfront hpre)
    · intro hacc
      rw [encodeAll_append, encodeAll_cons, List.length_append, List.length_append,
        length_encode] at hlen
      rw [visitTlv_of_accepted hacc p.2 (by omega)] at hq
      cases hq
    · rcases offset_of_visitTlv_err hq with ⟨k, hk, rfl⟩
      rw [hoffset] at he
      exact ⟨k, hk, he⟩
  · cases hend

/-! ## Headers of any TLVs -/

section Headers

variable {C : Crc32c} {t : Target} {rs : List Record} {extra : List UInt8}

/-- The structural checks of a header, up to its TLVs. -/
theorem v2Structure_headerBytes (hlen : t.block.length + (encodeAll rs).length ≤ 65535) :
    v2Structure (headerBytes t rs ++ extra) =
      (v2Tlvs t.command (t.block ++ encodeAll rs) t.block.length >>= fun tlvs =>
        .ok (⟨.v2, t.command, t.transport, t.source, t.destination, tlvs⟩,
          (headerBytes t rs).length, t.block.length)) := by
  have hlen' : (t.block ++ encodeAll rs).length ≤ 65535 := by
    rw [List.length_append]
    exact hlen
  rcases headerBytes_append hlen' extra with ⟨hi, lo, hword, hbytes⟩
  rw [hbytes, v2Structure_eq rfl, v2Command_eq_ok.mpr rfl, Outcome.ok_bind, hword,
    if_neg (by simp), List.take_left, v2Payload, v2Addresses_block, length_headerBytes,
    List.length_append]
  simp only [Outcome.ok_bind, bind_assoc]

/-- A LOCAL header with a TLV that is not accepted says nothing. -/
theorem parse_local_rejected (hlen : t.block.length + (encodeAll rs).length ≤ 65535)
    (hlocal : t.command = .local) {e : ParseError} (herr : parseTlvs (encodeAll rs) = .err e) :
    parse C (headerBytes t rs ++ extra) =
      .ok (⟨.v2, t.command, t.transport, t.source, t.destination, {}⟩,
        (headerBytes t rs).length) := by
  have htlvs : v2Tlvs t.command (t.block ++ encodeAll rs) t.block.length = .ok {} :=
    v2Tlvs_eq_ok.mpr (.inr ⟨hlocal, ⟨e, herr⟩, rfl⟩)
  rw [parse_eq_parseV2 C rfl, parseV2, v2Structure_headerBytes hlen, htlvs]
  rfl

/-- A PROXY header with a TLV that is not accepted is refused as that is. -/
theorem parse_proxy_rejected (hlen : t.block.length + (encodeAll rs).length ≤ 65535)
    (hproxy : t.command = .proxy) {e : ParseError} (herr : parseTlvs (encodeAll rs) = .err e) :
    parse C (headerBytes t rs ++ extra) = .err e := by
  have htlvs : v2Tlvs t.command (t.block ++ encodeAll rs) t.block.length = .err e := by
    have hlt : t.block.length < (t.block ++ encodeAll rs).length := by
      cases henc : encodeAll rs with
      | nil =>
          rw [henc] at herr
          cases herr
      | cons x xs =>
          rw [List.length_append, List.length_cons]
          omega
    rw [v2Tlvs, if_pos hlt, Outcome.sliceFrom_of_le (by simp), List.drop_left, Outcome.ok_bind,
      hproxy]
    exact herr
  rw [parse_eq_parseV2 C rfl, parseV2, v2Structure_headerBytes hlen, htlvs]
  rfl

/-- A header with a checksum TLV: the last one is compared with the hash of the
header in which the first one is zeroed. -/
theorem parse_checksum (hC : C.Composes) (hdr : V2Header) (hcrc : lastOf 0x03 hdr.tlvs ≠ none)
    (extra : List UInt8) :
    ∃ sum, hdr.info.tlvs.crc32c = some sum ∧
      parse C (hdr.encode ++ extra) =
        if C.crc32c hdr.zeroed = sum then .ok (hdr.info, hdr.encode.length)
        else .err (.crcMismatch sum (C.crc32c hdr.zeroed)) := by
  rcases Option.ne_none_iff_exists'.mp hcrc with ⟨value, hvalue⟩
  have hfour : value.length = 4 := (hdr.tlvs_ok _ (mem_of_lastOf hvalue)).2.crc32c rfl
  rcases exists_be32Bytes hfour with ⟨sum, rfl⟩
  have hsum : hdr.info.tlvs.crc32c = some sum := by
    rw [hdr.crc32c_info, hvalue, Option.bind_some, be32_tryFrom_be32Bytes]
  refine ⟨sum, hsum, ?_⟩
  rw [parse_eq_parseV2 C (hdr.take_signature extra), parseV2_of_crc hC hsum]

end Headers

/-! ## Headers that were built -/

theorem crcOffset_append {rs : List Record} (h : ∃ q ∈ rs, q.1 = 0x03) (behind : List Record) :
    crcOffset (rs ++ behind) = crcOffset rs := by
  induction rs with
  | nil => simp at h
  | cons r rs ih =>
      rw [List.cons_append, crcOffset, crcOffset]
      by_cases hr : r.1 = 0x03
      · rw [if_pos hr, if_pos hr]
      · rw [if_neg hr, if_neg hr, ih (by simpa [hr] using h)]

/-- An element that those behind are not is one of those in front. -/
theorem exists_split_front {P : Record → Prop} {front behind pre post : List Record} {q : Record}
    (h : front ++ behind = pre ++ q :: post) (hbehind : ∀ r ∈ behind, P r) (hq : ¬P q) :
    ∃ post', front = pre ++ q :: post' := by
  rcases List.append_eq_append_iff.mp h with ⟨a, rfl, ha⟩ | ⟨a, rfl, ha⟩
  · exact absurd (hbehind q (by simp [ha])) hq
  · cases a with
    | nil => exact absurd (hbehind q (by rw [← List.nil_append behind, ← ha]; simp)) hq
    | cons x a =>
        rw [List.cons_append, List.cons.injEq] at ha
        exact ⟨a, by rw [ha.1]⟩

section Built

variable {C : Crc32c} {c : Constructor} {calls : List WithCall} {b : HeaderBuilder}
  {h : List UInt8}

/-- The checksum TLV that `build` adds, if any. -/
theorem exists_withChecksum (C : Crc32c) (addCrc32c : Bool) (t : Target) (rs : List Record) :
    ∃ behind, withChecksum C addCrc32c t rs = rs ++ behind ∧
      ∀ r ∈ behind, r.Fits ∧ Accepted r := by
  cases addCrc32c with
  | false => exact ⟨[], by simp [withChecksum], by simp⟩
  | true =>
      refine ⟨_, rfl, ?_⟩
      intro r hr
      rw [List.mem_singleton.mp hr]
      exact ⟨by simp [Fits], fun _ => rfl, by simp, by simp⟩

/-- What the receiver makes of any header that can be built, whatever raw TLVs
it carries. If all its TLVs are accepted, it says what was announced, unless
there is a raw checksum among them: then it depends on the first and the last
checksum. Otherwise a PROXY header is refused, with an error that points at or
into the first TLV that is not accepted, and a LOCAL header is accepted without
any of its TLVs. -/
theorem built_verdict (hC : C.Composes) (hb : (c.run >>= applyAll calls) = .ok b)
    (hh : b.build C = .ok h) (r : List UInt8) :
    ((∀ q ∈ c.carried calls, Accepted q ∧ q.1 ≠ 0x03) →
      parse C (h ++ r) = .ok (announced C c calls b h, h.length)) ∧
    ((∀ q ∈ c.carried calls, Accepted q) → (∃ q ∈ c.carried calls, q.1 = 0x03) →
      ∃ sum, (announced C c calls b h).tlvs.crc32c = some sum ∧
        parse C (h ++ r) =
          if C.crc32c (zeroAt h (16 + c.blockLen + crcOffset (c.carried calls) + 3)) = sum
          then .ok (announced C c calls b h, h.length)
          else .err (.crcMismatch sum
            (C.crc32c (zeroAt h (16 + c.blockLen + crcOffset (c.carried calls) + 3))))) ∧
    (¬(∀ q ∈ c.carried calls, Accepted q) →
      (b.command = .local → parse C (h ++ r) =
        .ok ({ announced C c calls b h with tlvs := {} }, h.length)) ∧
      (b.command = .proxy → ∃ pre q post, c.carried calls = pre ++ q :: post ∧
        (∀ p ∈ pre, Accepted p) ∧ ¬Accepted q ∧ ∃ k < size q,
          parse C (h ++ r) = .err (.invalid (.malformedTlv ((encodeAll pre).length + k))))) := by
  refine ⟨fun hacc => parse_of_accepted hC hacc hb hh r, ?_⟩
  cases c with
  | v1Proxy source destination => simp [Constructor.carried]
  | v1Unknown => simp [Constructor.carried]
  | v2 constructor =>
      rcases describes_calls hb with ⟨t, hd, hsrc, hdst, hblock, hentries, hflag⟩
      rw [buildV2_of_payload hd, Outcome.ite_panic_eq_ok] at hh
      rcases hh with ⟨hlen, hh⟩
      rw [announced_eq hd hsrc hdst hentries hflag hh.symm]
      have hfits := fits_of_payload hlen
      rcases exists_withChecksum C b.addCrc32c t b.tlvEntries with ⟨behind, hrecords, hbehind⟩
      rw [hrecords] at hlen hh ⊢
      subst hh
      simp only [Constructor.carried, Constructor.blockLen, ← hentries, ← hblock]
      constructor
      · intro hacc hcrc
        have hok : ∀ q ∈ b.tlvEntries ++ behind, q.Fits ∧ Accepted q :=
          List.forall_mem_append.mpr ⟨fun q hq => ⟨hfits q hq, hacc q hq⟩, hbehind⟩
        rw [← crcOffset_append hcrc behind]
        refine parse_checksum hC ⟨t, b.tlvEntries ++ behind, hok, hlen⟩ ?_ r
        rcases hcrc with ⟨q, hq, hty⟩
        exact fun hnone => lastOf_eq_none.mp hnone q (List.mem_append_left _ hq) hty
      · intro hno
        have hwhole : ∀ q ∈ b.tlvEntries ++ behind, q.Fits :=
          List.forall_mem_append.mpr ⟨hfits, fun q hq => (hbehind q hq).1⟩
        have hnot : ¬∀ q ∈ b.tlvEntries ++ behind, Accepted q :=
          fun hall => hno (fun q hq => hall q (List.mem_append_left _ hq))
        rcases exists_rejected hwhole (by simp only [Outcome.usizeMax]; omega) hnot with
          ⟨pre, q, post, hsplit, hpre, hq, k, hk, herr⟩
        rw [hd.command]
        refine ⟨fun hlocal => parse_local_rejected hlen hlocal herr, ?_⟩
        intro hproxy
        rcases exists_split_front hsplit (fun p hp => (hbehind p hp).2) hq with ⟨post', hfront⟩
        exact ⟨pre, q, post', hfront, hpre, hq, k, hk, parse_proxy_rejected hlen hproxy herr⟩

/-- A LOCAL header with an ALPN and a raw SSL TLV that has no value: the ALPN
is lost as well. -/
theorem built_verdict_local :
    let header : List UInt8 := v2Signature ++ [0x20, 0, 0, 8, 0x01, 0, 2, 0x68, 0x32, 0x20, 0, 0]
    parse .castagnoli header = .ok (⟨.v2, .local, none, none, none, {}⟩, 24) := by
  intro header
  let b : HeaderBuilder := { HeaderBuilder.v2Local with tlvEntries :=
    [(0x01, [0x68, 0x32]), (0x20, [])] }
  have hb : ((Constructor.v2 .local).run >>= applyAll [.alpn [0x68, 0x32], .rawTlv 0x20 []]) =
      .ok b := rfl
  have hh : b.build .castagnoli = .ok header := by decide +kernel
  have hno : ¬∀ q ∈ (Constructor.v2 .local).carried [.alpn [0x68, 0x32], .rawTlv 0x20 []],
      Accepted q := by
    intro hall
    rcases (hall (0x20, []) (by decide)).ssl rfl with ⟨ssl, _, _, _, _, _, _, -, hnil, -⟩
    cases hnil
  have h := ((built_verdict Crc32c.castagnoli_composes hb hh []).2.2 hno).1 rfl
  rw [List.append_nil] at h
  exact h

end Built

end ProxyProtocol
