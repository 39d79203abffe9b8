import ProxyProtocol.Format

/-! # Checksums and corruption

What the optional CRC-32C TLV of a v2 header protects.

* `compute_crc32c_eq_copy`: hashing around the first checksum TLV is hashing a
  copy of the header in which its value is zero.
* `crc_decision_iff`: the decision is the one over the reported checksum TLV
  exactly when that is the only one, or its value is what the value of the
  first one becomes on the way to it. The parser reports the last checksum TLV
  (`parse_tlvs` overwrites) and zeroes the first (`compute_crc32c` stops
  there), so two of them disagree unless their values happen to cancel.
* `corruption_detected`: a PROXY header with a checksum cannot be changed
  inside four neighbouring bytes of its addresses or of a TLV value without
  being rejected.
-/

namespace ProxyProtocol

open Wire Wire.Record

/-- A copy of a header in which a checksum value is zero. -/
def zeroAt (header : List UInt8) (pos : ℕ) : List UInt8 := patch header pos [0, 0, 0, 0]

/-! ## The checksum without a copy -/

/-- The copy-free checksum is the copying one. Where `parse_v2` calls it,
`compute_crc32c` walks over the TLVs that `parse_tlvs` has accepted, ends at the
first checksum TLV and hashes what a copy with that value zeroed would hold.
Lengths are machine words. -/
theorem compute_crc32c_eq_copy {C : Crc32c} (hC : C.Composes) {buf : List UInt8}
    {totalLen tlvStart : ℕ} (hword : totalLen ≤ Outcome.usizeMax) (hle : totalLen ≤ buf.length)
    (hstart : tlvStart ≤ totalLen) {t : Tlvs}
    (htlvs : parseTlvs ((buf.take totalLen).drop tlvStart) = .ok t) (hcrc : t.crc32c ≠ none) :
    ∃ pre value post pos, t.raw = pre ++ (0x03, value) :: post ∧ (∀ r ∈ pre, r.1 ≠ 0x03) ∧
      pos = tlvStart + totalSize pre + 3 ∧ value.length = 4 ∧
      ((buf.take totalLen).drop pos).take 4 = value ∧
      findCrcTlv (buf.take totalLen) totalLen (totalLen + 1) tlvStart = .ok (.found pos) ∧
      computeCrc32c C buf totalLen tlvStart =
        .ok (C.crc32c (zeroAt (buf.take totalLen) pos)) := by
  rcases of_parseTlvs htlvs with ⟨rs, hregion, hrs, rfl⟩
  rcases exists_first (lastOf_of_crc32c hcrc) with ⟨pre, value, post, rfl, hpre⟩
  have hfour : value.length = 4 := (hrs (0x03, value) (by simp)).2.crc32c rfl
  have hlen : (buf.take totalLen).length = totalLen := List.length_take_of_le hle
  -- the header is what stands in front of the TLVs, and the TLVs
  generalize hheader : buf.take totalLen = header at *
  have hfront : (header.take tlvStart).length = tlvStart := List.length_take_of_le (by omega)
  have hsplit : header = header.take tlvStart ++ encodeAll (pre ++ (0x03, value) :: post) := by
    rw [← hregion, List.take_append_drop]
  have hpos : tlvStart + totalSize pre + 3 =
      (header.take tlvStart).length + (encodeAll pre).length + 3 := by
    rw [hfront, length_encodeAll]
  have hfits : ∀ r : Record, r ∈ pre ++ (0x03, value) :: post → r.Fits :=
    fun r hr => (hrs r hr).1
  have hno : ∀ r ∈ pre, ¬ IsCrcTlv r := fun r hr hcrc => hpre r hr hcrc.1
  have hfound := findCrcTlv_header hfits hno ⟨rfl, hfour⟩ hsplit hpos (by omega)
  have hhash := computeCrc32c_pieces C hfits hno ⟨rfl, hfour⟩ hsplit hpos (by omega)
  rw [hfront, hlen] at hfound hhash
  refine ⟨pre, value, post, _, raw_collect _, hpre, rfl, hfour, ?_, hfound, ?_⟩
  · have hvalue := value_at hsplit
    rw [← hpos, hfour] at hvalue
    exact hvalue
  · rw [computeCrc32c_take C hle, hheader, hhash, hC, hC, List.append_assoc]
    rfl

/-- An ALPN value that looks like a checksum TLV, then the checksum TLV, then a
byte that is no part of the header. -/
theorem compute_crc32c_eq_copy_lookalike :
    let buf : List UInt8 := v2Signature ++ [0x21, 0x11, 0, 29, 192, 0, 2, 1, 198, 51, 100, 7,
      220, 4, 1, 187, 0x01, 0, 7, 0x03, 0, 4, 1, 2, 3, 4, 0x03, 0, 4, 9, 9, 9, 9, 0x47]
    computeCrc32c .castagnoli buf 45 28 =
      .ok (Crc32c.castagnoli.crc32c (zeroAt (buf.take 45) 41)) := by
  intro buf
  have htlvs : parseTlvs ((buf.take 45).drop 28) = .ok
      { alpn := some [0x03, 0, 4, 1, 2, 3, 4], crc32c := some 151587081,
        raw := [(0x01, [0x03, 0, 4, 1, 2, 3, 4]), (0x03, [9, 9, 9, 9])] } := by decide
  have hsearch : findCrcTlv (buf.take 45) 45 46 28 = .ok (.found 41) := by decide
  rcases compute_crc32c_eq_copy Crc32c.castagnoli_composes (by decide) (by decide) (by decide)
    htlvs (by decide) with ⟨pre, value, post, pos, -, -, -, -, -, hfound, hhash⟩
  rw [hsearch] at hfound
  cases hfound
  exact hhash

/-! ## The decision -/

theorem V2Header.take_signature (h : V2Header) (extra : List UInt8) :
    (h.encode ++ extra).take 12 = v2Signature := rfl

/-- The prelude holds the signature. -/
theorem V2Header.signature_of_prelude {h : V2Header} {b' extra : List UInt8}
    (hpre : b'.take 16 = (h.encode ++ extra).take 16) : b'.take 12 = v2Signature := by
  have hcut := congrArg (List.take 12) hpre
  simp only [List.take_take] at hcut
  exact hcut.trans (h.take_signature extra)

/-- The verdict on a buffer with a checksum TLV that passed the structural
checks. -/
theorem parse_of_structure {C : Crc32c} (hC : C.Composes) {b : List UInt8} {info : ProxyInfo}
    {n tlvOffset : ℕ} (hsig : b.take 12 = v2Signature)
    (hs : v2Structure b = .ok (info, n, tlvOffset)) {c : UInt32}
    (hc : info.tlvs.crc32c = some c) :
    parse C b =
      if C.crc32c (zeroAt (b.take n) (v2HeaderLen + tlvOffset + crcOffset info.tlvs.raw + 3)) = c
      then .ok (info, n)
      else .err (.crcMismatch c (C.crc32c
        (zeroAt (b.take n) (v2HeaderLen + tlvOffset + crcOffset info.tlvs.raw + 3)))) := by
  rcases exists_header hsig hs (.inr (tlvs_ne_default hc)) with ⟨h, extra, rfl, rfl, rfl, rfl⟩
  have hraw : h.info.tlvs.raw = h.tlvs := raw_collect h.tlvs
  rw [parse_eq_parseV2 C hsig, parseV2_of_crc hC hc, List.take_left, hraw]
  rfl

/-- The reported checksum is the value of the last checksum TLV. -/
theorem crc32c_of_raw {b : List UInt8} {info : ProxyInfo} {n tlvOffset : ℕ}
    (hsig : b.take 12 = v2Signature) (hs : v2Structure b = .ok (info, n, tlvOffset))
    {pre post : List Record} {v : List UInt8} (hraw : info.tlvs.raw = pre ++ (0x03, v) :: post)
    (hlast : ∀ r ∈ post, r.1 ≠ 0x03) :
    ∃ c, info.tlvs.crc32c = some c ∧ (Octets.tryFrom 4 v).map Octets.be32 = some c := by
  have hproper : info.tlvs ≠ {} := by
    intro hempty
    rw [hempty] at hraw
    simp at hraw
  rcases exists_header hsig hs (.inr hproper) with ⟨h, extra, rfl, rfl, rfl, rfl⟩
  have htlvs : h.tlvs = pre ++ (0x03, v) :: post := (raw_collect h.tlvs).symm.trans hraw
  have hmem : (0x03, v) ∈ h.tlvs := by
    rw [htlvs]
    simp
  rcases exists_be32Bytes ((h.tlvs_ok _ hmem).2.crc32c rfl) with ⟨c, rfl⟩
  refine ⟨c, ?_, be32_tryFrom_be32Bytes c⟩
  rw [h.crc32c_info, htlvs, lastOf_split hlast, Option.bind_some, be32_tryFrom_be32Bytes]

/-- The checksum decision as it is defined, for a header of `n` bytes whose last
checksum TLV stands behind the TLVs `pre` and has the value `v`: with `c` the
checksum that is reported, `b` is accepted if the header with this TLV's value
zeroed hashes to `c`, and otherwise refused with `c` and that hash. -/
def DecidesByLast (C : Crc32c) (b : List UInt8) (info : ProxyInfo) (n tlvOffset : ℕ)
    (pre : List Record) (v : List UInt8) : Prop :=
  ∃ c, info.tlvs.crc32c = some c ∧ (Octets.tryFrom 4 v).map Octets.be32 = some c ∧
    (C.crc32c (zeroAt (b.take n) (v2HeaderLen + tlvOffset + (encodeAll pre).length + 3)) = c →
      parse C b = .ok (info, n)) ∧
    (C.crc32c (zeroAt (b.take n) (v2HeaderLen + tlvOffset + (encodeAll pre).length + 3)) ≠ c →
      parse C b = .err (.crcMismatch c (C.crc32c (zeroAt (b.take n)
        (v2HeaderLen + tlvOffset + (encodeAll pre).length + 3)))))

/-- The parser zeroes the first checksum TLV, so zeroing the last one has to
give the same hash. -/
theorem decidesByLast_iff_same_hash {C : Crc32c} (hC : C.Composes) {b : List UInt8}
    {info : ProxyInfo} {n tlvOffset : ℕ} (hsig : b.take 12 = v2Signature)
    (hs : v2Structure b = .ok (info, n, tlvOffset)) {pre post : List Record} {v : List UInt8}
    (hraw : info.tlvs.raw = pre ++ (0x03, v) :: post) (hlast : ∀ r ∈ post, r.1 ≠ 0x03) :
    DecidesByLast C b info n tlvOffset pre v ↔
    C.crc32c (zeroAt (b.take n) (v2HeaderLen + tlvOffset + crcOffset info.tlvs.raw + 3)) =
      C.crc32c (zeroAt (b.take n) (v2HeaderLen + tlvOffset + (encodeAll pre).length + 3)) := by
  rcases crc32c_of_raw hsig hs hraw hlast with ⟨c, hc, hvalue⟩
  rw [DecidesByLast, parse_of_structure hC hsig hs hc]
  generalize C.crc32c (zeroAt (b.take n)
    (v2HeaderLen + tlvOffset + crcOffset info.tlvs.raw + 3)) = first
  generalize C.crc32c (zeroAt (b.take n)
    (v2HeaderLen + tlvOffset + (encodeAll pre).length + 3)) = last
  constructor
  · rintro ⟨c', hc', -, hsame, hother⟩
    rw [hc] at hc'
    cases hc'
    -- the decision shows `first`, by success or as the reported value
    by_cases hcase : last = c
    · have hok := hsame hcase
      split at hok
      · rename_i hfirst
        rw [hfirst, hcase]
      · cases hok
    · have herr := hother hcase
      split at herr
      · cases herr
      · cases herr
        rfl
  · rintro rfl
    refine ⟨c, hc, hvalue, ?_, ?_⟩
    · intro heq
      rw [if_pos heq]
    · intro hne
      rw [if_neg hne]

/-- Two checksum TLVs in a header: zeroing one hashes like zeroing the other iff
the value of the second is what that of the first becomes on the way there. -/
theorem same_hash_iff {header front : List UInt8} {pre mid post : List Record} {u v : List UInt8}
    (hu : u.length = 4) (hv : v.length = 4)
    (hheader : header = front ++ encodeAll ((pre ++ (0x03, u) :: mid) ++ (0x03, v) :: post)) :
    Crc32c.castagnoli.crc32c (zeroAt header (front.length + (encodeAll pre).length + 3)) =
        Crc32c.castagnoli.crc32c (zeroAt header
          (front.length + (encodeAll (pre ++ (0x03, u) :: mid)).length + 3)) ↔
      Crc32c.carried (7 + (encodeAll mid).length) u = Crc32c.window v := by
  -- the header as seven pieces, with `between` from one value to the other
  let before := front ++ (encodeAll pre ++ head (0x03, u))
  let between := encodeAll mid ++ head (0x03, v)
  have hbefore : before.length = front.length + (encodeAll pre).length + 3 := by
    simp [before, Nat.add_assoc]
  have hbetween : between.length = (encodeAll mid).length + 3 := by simp [between]
  have hpieces : header = before ++ (u ++ (between ++ (v ++ encodeAll post))) := by
    rw [hheader, List.append_assoc, List.cons_append, encodeAll_at_value, encodeAll_at_value]
    simp only [before, between, List.append_assoc]
  have hsecond : (before ++ (u ++ between)).length =
      front.length + (encodeAll (pre ++ (0x03, u) :: mid)).length + 3 := by
    rw [encodeAll_at_value]
    simp only [before, between, List.length_append, length_head]
    omega
  have hzeroFirst : zeroAt header (front.length + (encodeAll pre).length + 3) =
      before ++ ([0, 0, 0, 0] ++ (between ++ v) ++ encodeAll post) := by
    rw [zeroAt, hpieces, patch_append hbefore hu]
    simp only [List.append_assoc]
  have hzeroSecond : zeroAt header
      (front.length + (encodeAll (pre ++ (0x03, u) :: mid)).length + 3) =
      before ++ (u ++ (between ++ [0, 0, 0, 0]) ++ encodeAll post) := by
    have hsplit : header = (before ++ (u ++ between)) ++ (v ++ encodeAll post) := by
      rw [hpieces]
      simp only [List.append_assoc]
    rw [zeroAt, hsplit, patch_append hsecond hv]
    simp only [List.append_assoc]
  have hdistance : 4 + between.length = 7 + (encodeAll mid).length := by omega
  rw [hzeroFirst, hzeroSecond, Crc32c.castagnoli_move_iff hu hv, hdistance]

/-- The checksum decision is made over the header with the reported TLV's value
zeroed iff that TLV is the only one of its type, or its value `v` is what the
value `u` of the first one becomes in the register over the bytes from one value
to the other: seven, and those of the TLVs between them. -/
theorem crc_decision_iff {C : Crc32c} (hC : C.Composes)
    (hcrc : C.crc32c = Crc32c.castagnoli.crc32c) {b : List UInt8} {info : ProxyInfo}
    {n tlvOffset : ℕ} (hsig : b.take 12 = v2Signature)
    (hs : v2Structure b = .ok (info, n, tlvOffset)) {pre post : List Record} {v : List UInt8}
    (hraw : info.tlvs.raw = pre ++ (0x03, v) :: post) (hlast : ∀ r ∈ post, r.1 ≠ 0x03) :
    DecidesByLast C b info n tlvOffset pre v ↔
      (∀ r ∈ pre, r.1 ≠ 0x03) ∨
      ∃ front u mid, pre = front ++ (0x03, u) :: mid ∧ (∀ r ∈ front, r.1 ≠ 0x03) ∧
        Crc32c.carried (7 + (encodeAll mid).length) u = Crc32c.window v := by
  rw [decidesByLast_iff_same_hash hC hsig hs hraw hlast]
  rcases crc32c_of_raw hsig hs hraw hlast with ⟨c, hc, -⟩
  rcases exists_header hsig hs (.inr (tlvs_ne_default hc)) with ⟨h, extra, rfl, rfl, rfl, rfl⟩
  have htlvs : h.tlvs = pre ++ (0x03, v) :: post := (raw_collect h.tlvs).symm.trans hraw
  have hfour : ∀ w, (0x03, w) ∈ h.tlvs → w.length = 4 :=
    fun w hw => (h.tlvs_ok _ hw).2.crc32c rfl
  rw [List.take_left, hraw, hcrc]
  -- with another checksum TLV in front, the hashes agree iff the values cancel
  have hseveral : ∀ front u mid, pre = front ++ (0x03, u) :: mid → (∀ r ∈ front, r.1 ≠ 0x03) →
      (Crc32c.castagnoli.crc32c (zeroAt h.encode
          (h.tlvStart + crcOffset (pre ++ (0x03, v) :: post) + 3)) =
        Crc32c.castagnoli.crc32c (zeroAt h.encode (h.tlvStart + (encodeAll pre).length + 3)) ↔
      Crc32c.carried (7 + (encodeAll mid).length) u = Crc32c.window v) := by
    rintro front u mid rfl hfront
    have hoffset : crcOffset ((front ++ (0x03, u) :: mid) ++ (0x03, v) :: post) =
        (encodeAll front).length := by
      rw [List.append_assoc, List.cons_append, crcOffset_first hfront]
    have hhash := same_hash_iff (hfour u (by simp [htlvs])) (hfour v (by simp [htlvs]))
      (h.encode_eq_front.trans (by rw [htlvs]))
    rw [h.length_front] at hhash
    rw [hoffset]
    exact hhash
  constructor
  · intro hsame
    by_cases hone : ∀ r ∈ pre, r.1 ≠ 0x03
    · exact .inl hone
    · rcases exists_first (fun hnone => hone (lastOf_eq_none.mp hnone)) with
        ⟨front, u, mid, hpre, hfront⟩
      exact .inr ⟨front, u, mid, hpre, hfront, (hseveral front u mid hpre hfront).mp hsame⟩
  · rintro (hone | ⟨front, u, mid, hpre, hfront, hcarried⟩)
    · -- the first is the last
      rw [crcOffset_first hone]
    · exact (hseveral front u mid hpre hfront).mpr hcarried

/-- For each first value and distance one last value passes. -/
example : Crc32c.carried 7 [1, 2, 3, 4] = Crc32c.window [12, 13, 158, 128] := by
  decide +kernel

/-- One checksum TLV, with the right value. -/
theorem crc_decision_single :
    let b : List UInt8 := v2Signature ++ [0x21, 0x11, 0, 24, 192, 0, 2, 1, 198, 51, 100, 7,
      220, 4, 1, 187, 0x01, 0, 2, 0x68, 0x32, 0x03, 0, 4, 215, 94, 174, 163]
    ∃ info, parse .castagnoli b = .ok (info, 40) := by
  intro b
  have hs : v2Structure b = .ok (⟨.v2, .proxy, some ⟨.inet, .stream⟩,
      some (.inet (.v4 (.new 192 0 2 1) 56324)), some (.inet (.v4 (.new 198 51 100 7) 443)),
      { alpn := some [0x68, 0x32], crc32c := some 3613306531,
        raw := [(0x01, [0x68, 0x32]), (0x03, [215, 94, 174, 163])] }⟩, 40, 12) := by decide
  rcases (crc_decision_iff Crc32c.castagnoli_composes rfl (b := b) rfl hs
      (show _ = [(0x01, [0x68, 0x32])] ++ (0x03, [215, 94, 174, 163]) :: [] from rfl)
      (by simp)).mpr (.inl (by simp)) with ⟨c, hc, -, hsame, -⟩
  cases hc
  exact ⟨_, hsame (by decide +kernel)⟩

/-- Two checksum TLVs, of which the second is right when its own value is
zeroed: the parser zeroes the first instead and reports a mismatch. -/
theorem crc_decision_two_checksums :
    let b : List UInt8 := v2Signature ++ [0x21, 0x11, 0, 26, 192, 0, 2, 1, 198, 51, 100, 7,
      220, 4, 1, 187, 0x03, 0, 4, 1, 2, 3, 4, 0x03, 0, 4, 64, 229, 135, 8]
    ∃ info, v2Structure b = .ok (info, 42, 12) ∧ info.tlvs.crc32c = some 1088784136 ∧
      info.tlvs.raw = [(0x03, [1, 2, 3, 4])] ++ (0x03, [64, 229, 135, 8]) :: [] ∧
      Crc32c.castagnoli.crc32c (zeroAt (b.take 42)
        (v2HeaderLen + 12 + (encodeAll [(0x03, [1, 2, 3, 4])]).length + 3)) = 1088784136 ∧
      parse .castagnoli b = .err (.crcMismatch 1088784136 1244557640) := by
  intro b
  refine ⟨⟨.v2, .proxy, some ⟨.inet, .stream⟩, some (.inet (.v4 (.new 192 0 2 1) 56324)),
    some (.inet (.v4 (.new 198 51 100 7) 443)),
    { crc32c := some 1088784136,
      raw := [(0x03, [1, 2, 3, 4]), (0x03, [64, 229, 135, 8])] }⟩, ?_, rfl, rfl, ?_, ?_⟩
  · decide
  · decide +kernel
  · decide +kernel

/-! ## Corruption -/

/-- The bytes from `lo` to `hi` of a header lie in its address block or in the
value of one TLV that is no checksum. -/
def Covered (info : ProxyInfo) (lo hi : ℕ) : Prop :=
  ∃ tr, info.transport = some tr ∧
    ((v2HeaderLen ≤ lo ∧ hi ≤ v2HeaderLen + tr.family.blockLen) ∨
      ∃ pre ty v post, info.tlvs.raw = pre ++ (ty, v) :: post ∧ ty ≠ 0x03 ∧
        v2HeaderLen + tr.family.blockLen + (encodeAll pre).length + 3 ≤ lo ∧
        hi ≤ v2HeaderLen + tr.family.blockLen + (encodeAll pre).length + 3 + v.length)

/-- Two headers with one prelude are laid out alike. -/
theorem prelude_inj {h h' : V2Header} {e e' : List UInt8}
    (hpre : (h.encode ++ e).take 16 = (h'.encode ++ e').take 16) :
    h.target.command = h'.target.command ∧ h.target.block.length = h'.target.block.length ∧
      h.encode.length = h'.encode.length := by
  rcases encode_append h e with ⟨hi, lo, hlen, hbytes⟩
  rcases encode_append h' e' with ⟨hi', lo', hlen', hbytes'⟩
  have hcut := take_prelude (show v2Signature.length = 12 from rfl)
  rw [hbytes, hbytes', hcut _ _ _ _ _ 0, hcut _ _ _ _ _ 0] at hpre
  simp only [List.take_zero, List.append_cancel_left_eq, List.cons.injEq, and_true] at hpre
  rcases hpre with ⟨hvc, hfp, rfl, rfl⟩
  rw [h.length_encode, h'.length_encode, ← hlen, ← hlen']
  refine ⟨?_, ?_, rfl⟩
  · cases hc : h.target.command <;> cases hc' : h'.target.command <;> rw [hc, hc'] at hvc <;>
      first | rfl | cases hvc
  · rcases ht : h.target with fp | ⟨a, p⟩ <;> rcases ht' : h'.target with fp' | ⟨a', p'⟩ <;>
      rw [ht, ht'] at hvc hfp
    · rfl
    · cases hvc
    · cases hvc
    · have hnibble : a.family.nibble = a'.family.nibble := by
        rw [← (nibbles_famProto a p).1, ← (nibbles_famProto a' p').1, hfp]
      have hfamily : a.family = a'.family := by
        cases hf : a.family <;> cases hf' : a'.family <;> rw [hf, hf'] at hnibble <;>
          first | rfl | cases hnibble
      simp only [Target.block, Addresses.length_encode, hfamily]

/-- Byte 12 holds the command. -/
theorem command_of_v2Structure {buf : List UInt8} {info : ProxyInfo} {n tlvOffset : ℕ}
    (hs : v2Structure buf = .ok (info, n, tlvOffset)) :
    buf[12]? = some info.command.verCmd := by
  rcases of_v2Structure hs with ⟨sig, t, region, extra, hsig, -, rfl, -, hinfo, -, -⟩
  rw [hinfo, List.append_assoc, ← hsig, List.getElem?_append_right (Nat.le_refl _), Nat.sub_self]
  rfl

/-- Where the first checksum stands depends on types and lengths only. -/
theorem crcOffset_replace {ty : UInt8} {v w : List UInt8} (hlen : v.length = w.length)
    (pre post : List Record) :
    crcOffset (pre ++ (ty, v) :: post) = crcOffset (pre ++ (ty, w) :: post) := by
  induction pre with
  | nil => simp only [List.nil_append, crcOffset, size, hlen]
  | cons r pre ih => simp only [List.cons_append, crcOffset, ih]

/-- The first checksum TLV stands in front of another TLV or behind it. -/
theorem crcOffset_apart {ty : UInt8} (hty : ty ≠ 0x03) (v : List UInt8) {pre : List Record}
    (post : List Record) (hpre : ∀ r ∈ pre, Accepted r) :
    crcOffset (pre ++ (ty, v) :: post) + 7 ≤ (encodeAll pre).length ∨
      (encodeAll pre).length + (3 + v.length) ≤ crcOffset (pre ++ (ty, v) :: post) := by
  induction pre with
  | nil =>
      right
      simp only [List.nil_append, crcOffset, if_neg hty, size, encodeAll_nil, List.length_nil]
      omega
  | cons r pre ih =>
      simp only [List.cons_append, crcOffset, encodeAll_cons, List.length_append,
        Record.length_encode]
      by_cases hr : r.1 = 0x03
      · -- a checksum TLV takes seven bytes
        left
        have h4 := (hpre r (by simp)).crc32c hr
        simp only [if_pos hr, size]
        omega
      · simp only [if_neg hr]
        rcases ih (fun q hq => hpre q (by simp [hq])) with h | h
        · left
          omega
        · right
          omega

/-- Two headers that the checksum check treats alike, with a window apart from
what it zeroes. -/
structure SameCheck (h h' : V2Header) (lo hi : ℕ) : Prop where
  offset : crcOffset h'.tlvs = crcOffset h.tlvs
  value : lastOf 0x03 h'.tlvs = lastOf 0x03 h.tlvs
  apart : hi ≤ h.tlvStart + crcOffset h.tlvs + 3 ∨ h.tlvStart + crcOffset h.tlvs + 3 + 4 ≤ lo

section Window

variable {h h' : V2Header} {a x y z : List UInt8} (hx : h.encode = a ++ (x ++ z))
  (hy : h'.encode = a ++ (y ++ z)) (hlen : x.length = y.length) (hstart : h.tlvStart = h'.tlvStart)

include hx hy hlen hstart

/-- A change in front of the TLVs leaves them as they are. -/
theorem sameCheck_of_block (hhi : a.length + x.length ≤ h.tlvStart) :
    SameCheck h h' a.length (a.length + x.length) := by
  have htlvs : h'.tlvs = h.tlvs := by
    have hfront := h.length_front
    have hsplit : [] ++ (h.front ++ encodeAll h.tlvs) = a ++ (x ++ z) :=
      h.encode_eq_front.symm.trans hx
    rcases exists_window hsplit (Nat.zero_le _)
        (by rw [hfront, List.length_nil, Nat.zero_add]; exact hhi) with ⟨_, f, rfl, hf, rfl⟩
    have hy' : h'.front ++ encodeAll h'.tlvs = (a ++ (y ++ f)) ++ encodeAll h.tlvs := by
      rw [← h'.encode_eq_front, hy]
      simp only [List.append_assoc]
    -- equally long fronts, so the regions behind them are equal
    have hregion := List.append_inj hy' (by
      rw [h'.length_front, ← hstart, ← hfront, hf]
      simp [hlen])
    exact encodeAll_inj (fun r hr => (h'.tlvs_ok r hr).1) (fun r hr => (h.tlvs_ok r hr).1) hregion.2
  refine ⟨by rw [htlvs], by rw [htlvs], .inl ?_⟩
  omega

/-- A change in the value of a TLV changes that value only. -/
theorem sameCheck_of_value {pre post : List Record} {ty : UInt8} {v : List UInt8}
    (htlvs : h.tlvs = pre ++ (ty, v) :: post) (hty : ty ≠ 0x03)
    (hlo : h.tlvStart + (encodeAll pre).length + 3 ≤ a.length)
    (hhi : a.length + x.length ≤ h.tlvStart + (encodeAll pre).length + 3 + v.length) :
    SameCheck h h' a.length (a.length + x.length) := by
  have hok : ∀ r : Record, r ∈ pre ++ (ty, v) :: post → r.Fits ∧ Accepted r := htlvs ▸ h.tlvs_ok
  have hpre : ∀ r ∈ pre, Accepted r := fun r hr => (hok r (by simp [hr])).2
  obtain ⟨w, hw, htlvs'⟩ : ∃ w, v.length = w.length ∧ h'.tlvs = pre ++ (ty, w) :: post := by
    have hfront := h.length_front
    have hsplit : (h.front ++ (encodeAll pre ++ head (ty, v))) ++ (v ++ encodeAll post) =
        a ++ (x ++ z) := by
      rw [← hx, h.encode_eq_front, htlvs, encodeAll_at_value, List.append_assoc]
    -- the window cuts the value into `v₁ ++ x ++ v₂`
    rcases exists_window hsplit (by simp [hfront]; omega) (by simp [hfront]; omega) with
        ⟨v₁, v₂, rfl, rfl, rfl⟩
    refine ⟨v₁ ++ (y ++ v₂), by simp [hlen], ?_⟩
    have hy' : h'.front ++ encodeAll h'.tlvs =
        h.front ++ encodeAll (pre ++ (ty, v₁ ++ (y ++ v₂)) :: post) := by
      rw [← h'.encode_eq_front, hy, encodeAll_at_value]
      simp [head, hlen]
    have hregion := List.append_inj hy' (by rw [h'.length_front, hfront, hstart])
    refine encodeAll_inj (fun r hr => (h'.tlvs_ok r hr).1) ?_ hregion.2
    intro r hr
    rcases List.mem_append.mp hr with hmem | hmem
    · exact (hok r (by simp [hmem])).1
    · rcases List.mem_cons.mp hmem with rfl | hmem
      · have hfits := (hok _ (by simp : (ty, v₁ ++ (x ++ v₂)) ∈ _)).1
        simpa [Fits, hlen] using hfits
      · exact (hok r (by simp [hmem])).1
  refine ⟨?_, ?_, ?_⟩
  · rw [htlvs, htlvs', crcOffset_replace hw]
  · simp [htlvs, htlvs', lastOf_append, lastOf, hty]
  · rw [htlvs]
    rcases crcOffset_apart hty v post hpre with hbefore | hbehind
    · right
      omega
    · left
      omega

/-- The hashes that the check compares with the checksum differ. -/
theorem crc32c_zeroed_ne {C : Crc32c} (hB : C.DetectsBursts) (hfour : x.length ≤ 4) (hne : x ≠ y)
    (hsame : SameCheck h h' a.length (a.length + x.length)) :
    C.crc32c h.zeroed ≠ C.crc32c h'.zeroed := by
  have hapart : a.length + x.length ≤ h.tlvStart + crcOffset h.tlvs + 3 ∨
      h.tlvStart + crcOffset h.tlvs + 3 + ([0, 0, 0, 0] : List UInt8).length ≤ a.length :=
    hsame.apart
  rcases exists_patch_frame (z := z) hapart with ⟨a', z', hframe⟩
  rw [V2Header.zeroed, V2Header.zeroed, hsame.offset, ← hstart, hx, hy, hframe x rfl,
    hframe y hlen.symm]
  exact hB _ _ _ _ hlen hfour hne

end Window

/-- A buffer with the prelude of a PROXY header that passes the structural
checks is laid out like that header. -/
theorem exists_same_layout {h : V2Header} {ad : Addresses} {p : TransportProtocol}
    (htarget : h.target = .proxy ad p) {extra b' : List UInt8}
    (hpre : b'.take 16 = (h.encode ++ extra).take 16) {info : ProxyInfo} {n tlvOffset : ℕ}
    (hs : v2Structure b' = .ok (info, n, tlvOffset)) :
    ∃ (h' : V2Header) (extra' : List UInt8), b' = h'.encode ++ extra' ∧ info = h'.info ∧
      h.tlvStart = h'.tlvStart ∧ h.encode.length = h'.encode.length := by
  -- byte 12 rules out LOCAL, under which a malformed payload would pass
  have hcommand : info.command = .proxy := by
    have hbyte := congrArg (fun l => l[12]?) hpre
    simp only [List.getElem?_take, command_of_v2Structure hs,
      command_of_v2Structure (v2Structure_encode h extra), V2Header.info, htarget] at hbyte
    cases hc : info.command with
    | «local» =>
        rw [hc] at hbyte
        cases hbyte
    | proxy => rfl
  rcases exists_header (V2Header.signature_of_prelude hpre) hs (.inl hcommand) with
      ⟨h', extra', rfl, rfl, -, -⟩
  rcases prelude_inj hpre with ⟨-, hblock, hlen⟩
  refine ⟨h', extra', rfl, rfl, ?_, hlen.symm⟩
  rw [V2Header.tlvStart, V2Header.tlvStart, hblock]

/-- What a covered window is of a header: it lies behind the prelude, inside
the header, and in front of the TLVs or in a value. -/
theorem covered_info {h : V2Header} {ad : Addresses} {p : TransportProtocol}
    (htarget : h.target = .proxy ad p) {lo hi : ℕ} (hwin : Covered h.info lo hi) :
    v2HeaderLen ≤ lo ∧ hi ≤ h.encode.length ∧
      (hi ≤ h.tlvStart ∨ ∃ pre ty v post, h.tlvs = pre ++ (ty, v) :: post ∧ ty ≠ 0x03 ∧
        h.tlvStart + (encodeAll pre).length + 3 ≤ lo ∧
        hi ≤ h.tlvStart + (encodeAll pre).length + 3 + v.length) := by
  rcases hwin with ⟨tr, htr, hcase⟩
  have hfamily : tr.family.blockLen = h.target.block.length := by
    simp only [V2Header.info, htarget, Target.transport, Option.some.injEq] at htr
    simp only [htarget, ← htr, Target.block, Addresses.length_encode]
  have hstart : h.tlvStart = v2HeaderLen + tr.family.blockLen := by
    rw [hfamily]
    rfl
  have hlength : h.encode.length = h.tlvStart + (encodeAll h.tlvs).length := by
    rw [h.encode_eq_front, List.length_append, h.length_front]
  rw [← hstart] at hcase
  rcases hcase with ⟨hlo, hhi⟩ | ⟨pre, ty, v, post, hraw, hty, hlo, hhi⟩
  · exact ⟨hlo, by omega, .inl hhi⟩
  · have htlvs : h.tlvs = pre ++ (ty, v) :: post := (raw_collect h.tlvs).symm.trans hraw
    have hend : (encodeAll pre).length + (3 + v.length) ≤ (encodeAll h.tlvs).length := by
      rw [htlvs]
      simp [size]
    exact ⟨by omega, by omega, .inr ⟨pre, ty, v, post, htlvs, hty, hlo, hhi⟩⟩

/-- A PROXY header with a checksum that is changed in at most four neighbouring
bytes of its addresses or of one TLV value is not accepted. -/
theorem corruption_detected {C : Crc32c} (hC : C.Composes) (hB : C.DetectsBursts)
    {b : List UInt8} {info : ProxyInfo} {n : ℕ} (hparse : parse C b = .ok (info, n))
    (hcmd : info.command = .proxy) {c : UInt32} (hcrc : info.tlvs.crc32c = some c)
    {a x y z : List UInt8} (hb : b = a ++ (x ++ z)) (hlen : x.length = y.length)
    (hfour : x.length ≤ 4) (hne : x ≠ y)
    (hwin : Covered info a.length (a.length + x.length)) :
    ∃ e, parse C (a ++ (y ++ z)) = .err e := by
  rcases exists_header_of_parse hparse (.inr (tlvs_ne_default hcrc)) hcmd with
      ⟨h, ad, p, extra, htarget, rfl, hbytes, -⟩
  rcases covered_info htarget hwin with ⟨hlo, hhi, hwhere⟩
  -- the window lies behind the prelude, so the signature is still there
  have hpre : (a ++ (y ++ z)).take 16 = (h.encode ++ extra).take 16 := by
    rw [← hbytes, hb, List.take_append_of_le_length (i := 16) hlo,
      List.take_append_of_le_length (i := 16) hlo]
  have hsig := V2Header.signature_of_prelude hpre
  rw [parse_eq_parseV2 C hsig]
  refine (parseV2_endsIn C _).returns.exists_err ?_
  -- suppose the changed buffer was accepted: it is a header of the same layout
  intro accepted haccepted
  rcases Outcome.bind_eq_ok.mp haccepted with ⟨⟨info', n', off⟩, hs, -⟩
  rcases exists_same_layout htarget hpre hs with ⟨h', extra', hbytes', rfl, hstart, hlength⟩
  rcases exists_window (show [] ++ (h.encode ++ extra) = a ++ (x ++ z) from hbytes.symm.trans hb)
      (Nat.zero_le _) (by rw [List.length_nil, Nat.zero_add]; exact hhi) with ⟨_, z₁, rfl, hx, rfl⟩
  have hy : h'.encode = a ++ (y ++ z₁) := by
    have hassoc : h'.encode ++ extra' = (a ++ (y ++ z₁)) ++ extra := by
      rw [← hbytes']
      simp only [List.append_assoc]
    refine (List.append_inj hassoc ?_).1
    rw [← hlength, hx]
    simp [hlen]
  have hsame : SameCheck h h' a.length (a.length + x.length) := by
    rcases hwhere with hblock | ⟨pre, ty, v, post, htlvs, hty, hlo, hhi⟩
    · exact sameCheck_of_block hx hy hlen hstart hblock
    · exact sameCheck_of_value hx hy hlen hstart htlvs hty hlo hhi
  have hcrc' : h'.info.tlvs.crc32c = some c := by
    rw [h'.crc32c_info, hsame.value, ← h.crc32c_info, hcrc]
  -- both checks compare with the same checksum, so one of the hashes is wrong
  have hhash : C.crc32c h.zeroed = c := by
    by_contra hother
    rw [hbytes, parse_eq_parseV2 C (h.take_signature extra), parseV2_of_crc hC hcrc,
      if_neg hother] at hparse
    cases hparse
  have hhash' : C.crc32c h'.zeroed = c := by
    by_contra hother
    rw [hbytes', parseV2_of_crc hC hcrc', if_neg hother] at haccepted
    cases haccepted
  exact crc32c_zeroed_ne hx hy hlen hstart hB hfour hne hsame (hhash.trans hhash'.symm)

/-- A checksummed header with four bytes overwritten where its addresses meet. -/
theorem corruption_detected_addresses :
    ∃ e, parse .castagnoli (v2Signature ++ [0x21, 0x11, 0, 24, 192, 0] ++ ([10, 0, 198, 51] ++
      [100, 7, 220, 4, 1, 187, 0x01, 0, 2, 0x68, 0x32, 0x03, 0, 4, 215, 94, 174, 163])) =
        .err e := by
  have hparse : parse .castagnoli (v2Signature ++ [0x21, 0x11, 0, 24, 192, 0, 2, 1, 198, 51, 100,
      7, 220, 4, 1, 187, 0x01, 0, 2, 0x68, 0x32, 0x03, 0, 4, 215, 94, 174, 163]) =
      .ok (⟨.v2, .proxy, some ⟨.inet, .stream⟩,
        some (.inet (.v4 (.new 192 0 2 1) 56324)), some (.inet (.v4 (.new 198 51 100 7) 443)),
        { alpn := some [0x68, 0x32], crc32c := some 3613306531,
          raw := [(0x01, [0x68, 0x32]), (0x03, [215, 94, 174, 163])] }⟩, 40) := by
    decide +kernel
  exact corruption_detected Crc32c.castagnoli_composes Crc32c.castagnoli_detectsBursts hparse rfl
    rfl (x := [2, 1, 198, 51]) rfl rfl (by decide) (by decide)
    ⟨⟨.inet, .stream⟩, rfl, .inl ⟨by decide, by decide⟩⟩

end ProxyProtocol
