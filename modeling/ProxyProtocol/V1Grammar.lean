import ProxyProtocol.AddressText
import ProxyProtocol.Builder

/-! # The grammar of v1 headers

Which lines the v1 parser accepts, measured against the protocol's own rules.

* `parse_tcp_iff`: a buffer gives addresses iff it starts with a line of six
  fields whose ports are ports to `u16::from_str`.
* `v1_grammar_iff`: the protocol also rules out a plus sign and superfluous
  zeros in a port. The parser does not, and that is the only difference.
* `unknown_ignored_iff`: what follows `UNKNOWN` is skipped when it is UTF-8.
* `parse_build_v1`: lines that `HeaderBuilder` writes are read back.
-/

namespace ProxyProtocol

open Wire

/-! ## Ports -/

/-- A port as the protocol writes it: digits, and no superfluous zero. -/
def IsDecimalPort (text : List UInt8) (port : UInt16) : Prop := Numeral 10 text port.toNat

/-- A port with any number of zeros in front, and perhaps a plus sign. -/
def IsLoosePort (text : List UInt8) (port : UInt16) : Prop :=
  ∃ digits, (text = digits ∨ text = 0x2B :: digits) ∧ digits ≠ [] ∧
    (∀ b ∈ digits, (toDigit 10 b).isSome = true) ∧ digitsValue 10 digits = port.toNat

theorem IsDecimalPort.loose {text : List UInt8} {port : UInt16} (h : IsDecimalPort text port) :
    IsLoosePort text port :=
  ⟨text, .inl rfl, h.ne_nil, h.digits, h.value⟩

/-- The difference: a plus sign, and zeros in front. -/
theorem isDecimalPort_iff {text : List UInt8} {port : UInt16} :
    IsDecimalPort text port ↔
      IsLoosePort text port ∧ text.head? ≠ some 0x2B ∧
        (text.head? = some 0x30 → text.length = 1) := by
  constructor
  · intro h
    refine ⟨h.loose, ?_, h.no_zero⟩
    intro hhead
    have hplus := h.digits 0x2B (List.mem_of_mem_head? hhead)
    cases hplus
  · rintro ⟨⟨digits, htext, hne, hdigits, hvalue⟩, hplus, hzero⟩
    rcases htext with rfl | rfl
    · exact ⟨hne, hdigits, hzero, hvalue⟩
    · exact absurd rfl hplus

/-- A text without the plus sign in front. -/
def unsigned (text : List UInt8) : List UInt8 :=
  match text with
  | 0x2B :: rest => rest
  | _ => text

theorem eq_unsigned (text : List UInt8) :
    text = unsigned text ∨ text = 0x2B :: unsigned text := by
  unfold unsigned
  split
  · exact .inr rfl
  · exact .inl rfl

theorem unsigned_digits {digits : List UInt8} (h : ∀ b ∈ digits, (toDigit 10 b).isSome = true) :
    unsigned digits = digits := by
  unfold unsigned
  split
  · -- a plus sign is no digit
    have hplus := h 0x2B (by simp)
    cases hplus
  · rfl

/-- `u16::from_str` takes exactly the loose ports. -/
theorem isU16_iff {text : List UInt8} {port : UInt16} :
    IsU16 text port ↔ IsLoosePort text port := by
  have hport := port.toNat_lt
  have hread : u16FromStr text =
      if unsigned text ≠ [] ∧ (unsigned text).all (fun b => (toDigit 10 b).isSome) ∧
          digitsValue 10 (unsigned text) ≤ 65535 then
        some (UInt16.ofNat (digitsValue 10 (unsigned text)))
      else none := rfl
  rw [IsU16, hread]
  constructor
  · intro h
    split at h
    · rename_i hdigits
      rw [List.all_eq_true] at hdigits
      refine ⟨unsigned text, eq_unsigned text, hdigits.1, hdigits.2.1, ?_⟩
      rw [← Option.some.inj h, UInt16.toNat_ofNat']
      omega
    · cases h
  · rintro ⟨digits, htext, hne, hdigits, hvalue⟩
    have hunsigned : unsigned text = digits := by
      rcases htext with rfl | rfl
      · exact unsigned_digits hdigits
      · rfl
    rw [hunsigned, if_pos ⟨hne, by rwa [List.all_eq_true], by omega⟩, hvalue, UInt16.ofNat_toNat]

theorem IsLoosePort.ascii {text : List UInt8} {port : UInt16} (h : IsLoosePort text port) :
    ∀ b ∈ text, b.toNat ≤ 0x7F := by
  rcases h with ⟨digits, htext, -, hdigits, -⟩
  have hascii := (addressText_digits hdigits).ascii
  rcases htext with rfl | rfl
  · exact hascii
  · exact List.forall_mem_cons.mpr ⟨by decide, hascii⟩

/-! ## Lines -/

/-- `b` starts with a v1 header of `n` bytes that gives addresses. -/
def IsTcpHeader (IsPort : List UInt8 → UInt16 → Prop) (b : List UInt8) (info : ProxyInfo)
    (n : ℕ) : Prop :=
  ∃ line rest src dst, b = line ++ (crlf ++ rest) ∧ ¬ crlf <:+: line ∧ n = line.length + 2 ∧
    n ≤ 107 ∧ TcpLine IsPort line src dst ∧ info = tcpInfo src dst

/-- The six fields of a line; the ports are free to be written otherwise. -/
theorem TcpLine.fields {IsPort : List UInt8 → UInt16 → Prop} {line : List UInt8}
    {src dst : SocketAddr} (h : TcpLine IsPort line src dst) :
    ∃ keyword srcText dstText srcPort dstPort : List UInt8,
      line.splitOn 0x20 = [proxyWord, keyword, srcText, dstText, srcPort, dstPort] ∧
      IsPort srcPort src.port ∧ IsPort dstPort dst.port ∧
      ∀ IsPort' : List UInt8 → UInt16 → Prop, IsPort' srcPort src.port →
        IsPort' dstPort dst.port → TcpLine IsPort' line src dst := by
  have hport : ∀ (ip : IpAddr) (port : UInt16), (SocketAddr.new ip port).port = port := by
    intro ip port
    cases ip <;> rfl
  cases h with
  | @intro s d sp dp srcIp dstIp _ _ hspace hkeyword hsrc hdst hsp hdp =>
      refine ⟨srcIp.keyword, s, d, sp, dp, ?_, ?_, ?_, ?_⟩
      · refine List.splitOn_intercalate _ ?_ (by simp)
        have hword : (0x20 : UInt8) ∉ proxyWord := by decide
        have hkw : (0x20 : UInt8) ∉ srcIp.keyword := by
          cases srcIp <;> simp [IpAddr.keyword, tcp4, tcp6]
        exact List.forall_mem_cons.mpr ⟨hword, List.forall_mem_cons.mpr ⟨hkw, hspace⟩⟩
      · rwa [hport]
      · rwa [hport]
      · intro IsPort' hsp' hdp'
        rw [hport] at hsp' hdp'
        exact .intro hspace hkeyword hsrc hdst hsp' hdp'

theorem TcpLine.mono {P Q : List UInt8 → UInt16 → Prop} {line : List UInt8} {src dst : SocketAddr}
    (h : TcpLine P line src dst) (hPQ : ∀ {text port}, P text port → Q text port) :
    TcpLine Q line src dst := by
  rcases h.fields with ⟨_, _, _, _, _, -, hsp, hdp, hrebuild⟩
  exact hrebuild Q (hPQ hsp) (hPQ hdp)

theorem TcpLine.ascii {line : List UInt8} {src dst : SocketAddr}
    (h : TcpLine IsU16 line src dst) : ∀ b ∈ line, b.toNat ≤ 0x7F := by
  cases h with
  | @intro s d sp dp srcIp dstIp _ _ _ _ hsrc hdst hsp hdp =>
      have hkeyword : ∀ b ∈ srcIp.keyword, b.toNat ≤ 0x7F := by
        cases srcIp with
        | v4 addr => exact Utf8.ascii_of_all rfl
        | v6 addr => exact Utf8.ascii_of_all rfl
      have hspace : ∀ b ∈ ([0x20] : List UInt8), b.toNat ≤ 0x7F := Utf8.ascii_of_all rfl
      simp only [List.intercalate_cons_cons, List.intercalate_singleton, List.forall_mem_append]
      exact ⟨⟨Utf8.ascii_of_all rfl, hspace⟩, ⟨hkeyword, hspace⟩,
        ⟨(addressText_of_fromStr hsrc).ascii, hspace⟩,
        ⟨(addressText_of_fromStr hdst).ascii, hspace⟩,
        ⟨(isU16_iff.mp hsp).ascii, hspace⟩, (isU16_iff.mp hdp).ascii⟩

/-- A v1 buffer gives addresses iff it starts with a line that does. -/
theorem parse_tcp_iff (C : Crc32c) {b : List UInt8} (h : v1Signature <+: b) {info : ProxyInfo}
    {n : ℕ} :
    parse C b = .ok (info, n) ∧ info.transport ≠ none ↔ IsTcpHeader IsU16 b info n := by
  rw [parse_eq_parseV1 C h, parseV1_eq_ok h]
  constructor
  · rintro ⟨⟨line, rest, hb, hline, hn, hle, -, ⟨-, rfl⟩ | ⟨src, dst, htcp, rfl⟩⟩, htransport⟩
    · exact absurd rfl htransport
    · exact ⟨line, rest, src, dst, hb, hline, hn, hle, htcp, rfl⟩
  · rintro ⟨line, rest, src, dst, hb, hline, hn, hle, htcp, rfl⟩
    have hvalid := Utf8.valid_ascii htcp.ascii
    exact ⟨⟨line, rest, hb, hline, hn, hle, hvalid, .inr ⟨src, dst, htcp, rfl⟩⟩, nofun⟩

/-! ## Against the protocol -/

/-- The line is one the protocol allows, but for a plus sign or superfluous
zeros in a port. -/
def HasLoosePort (b : List UInt8) : Prop :=
  ∃ line rest src dst, b = line ++ (crlf ++ rest) ∧ ¬ crlf <:+: line ∧ line.length + 2 ≤ 107 ∧
    TcpLine IsLoosePort line src dst ∧ ¬ TcpLine IsDecimalPort line src dst

/-- The parser accepts what the protocol allows, and lines with a loose port. -/
theorem v1_grammar_iff (C : Crc32c) {b : List UInt8} (h : v1Signature <+: b) :
    (∀ info n, parse C b = .ok (info, n) ∧ info.transport ≠ none ↔
      IsTcpHeader IsDecimalPort b info n) ↔ ¬ HasLoosePort b := by
  constructor
  · rintro hgrammar ⟨line, rest, src, dst, hb, hline, hle, hloose, hnot⟩
    have haccepted := (parse_tcp_iff C h).mpr ⟨line, rest, src, dst, hb, hline, rfl, hle,
      hloose.mono isU16_iff.mpr, rfl⟩
    rcases (hgrammar _ _).mp haccepted with
        ⟨line', rest', src', dst', hb', hline', -, -, htcp, hinfo⟩
    rcases line_unique (hb.symm.trans hb') hline hline' with ⟨rfl, rfl⟩
    -- the data of the header determine the addresses
    simp only [tcpInfo, ProxyInfo.mk.injEq, Option.some.injEq, ProxyAddress.inet.injEq] at hinfo
    rcases hinfo with ⟨-, -, -, rfl, rfl, -⟩
    exact hnot htcp
  · intro hno info n
    rw [parse_tcp_iff C h]
    constructor
    · rintro ⟨line, rest, src, dst, hb, hline, rfl, hle, htcp, rfl⟩
      refine ⟨line, rest, src, dst, hb, hline, rfl, hle, ?_, rfl⟩
      by_contra hnot
      exact hno ⟨line, rest, src, dst, hb, hline, hle, htcp.mono isU16_iff.mp, hnot⟩
    · rintro ⟨line, rest, src, dst, hb, hline, hn, hle, htcp, hinfo⟩
      exact ⟨line, rest, src, dst, hb, hline, hn, hle,
        htcp.mono fun hport => isU16_iff.mpr hport.loose, hinfo⟩

/-- The fields of a header, found by cutting at the first CR LF and at spaces. -/
theorem fields_of_buffer {IsPort : List UInt8 → UInt16 → Prop} {line rest : List UInt8}
    {src dst : SocketAddr} (hline : ¬ crlf <:+: line) (htcp : TcpLine IsPort line src dst)
    {b : List UInt8} (hb : b = line ++ (crlf ++ rest)) {i : ℕ} (hi : crlfPosition b = some i)
    {f₀ f₁ f₂ f₃ srcPort dstPort : List UInt8}
    (hfields : (b.take i).splitOn 0x20 = [f₀, f₁, f₂, f₃, srcPort, dstPort]) :
    IsPort srcPort src.port ∧ IsPort dstPort dst.port ∧
      ∀ IsPort' : List UInt8 → UInt16 → Prop, IsPort' srcPort src.port →
        IsPort' dstPort dst.port → TcpLine IsPort' line src dst := by
  rw [crlfPosition_eq_some.mpr ⟨line, rest, hb, rfl, hline⟩, Option.some.injEq] at hi
  rw [← hi, hb, List.take_left] at hfields
  rcases htcp.fields with ⟨_, _, _, sp, dp, hsplit, hports⟩
  rw [hsplit] at hfields
  simp only [List.cons.injEq] at hfields
  rcases hfields with ⟨-, -, -, -, rfl, rfl, -⟩
  exact hports

/-- `PROXY TCP4 192.0.2.1 198.51.100.7 443 80`. -/
theorem v1_grammar_plain :
    IsTcpHeader IsDecimalPort
      (v1Signature ++ tcp4 ++ [0x20, 0x31, 0x39, 0x32, 0x2E, 0x30, 0x2E, 0x32, 0x2E, 0x31,
        0x20, 0x31, 0x39, 0x38, 0x2E, 0x35, 0x31, 0x2E, 0x31, 0x30, 0x30, 0x2E, 0x37,
        0x20, 0x34, 0x34, 0x33, 0x20, 0x38, 0x30, 0x0D, 0x0A])
      (tcpInfo (.v4 (.new 192 0 2 1) 443) (.v4 (.new 198 51 100 7) 80)) 42 := by
  refine ((v1_grammar_iff .castagnoli ⟨_, rfl⟩).mpr ?_ _ _).mp ⟨by decide +kernel, nofun⟩
  rintro ⟨line, rest, src, dst, hb, hline, -, hloose, hnot⟩
  have hports := @fields_of_buffer _ _ _ _ _ hline hloose _ hb 40 (by decide)
    proxyWord tcp4 [0x31, 0x39, 0x32, 0x2E, 0x30, 0x2E, 0x32, 0x2E, 0x31]
    [0x31, 0x39, 0x38, 0x2E, 0x35, 0x31, 0x2E, 0x31, 0x30, 0x30, 0x2E, 0x37]
    [0x34, 0x34, 0x33] [0x38, 0x30] (by decide)
  rcases hports with ⟨hsrc, hdst, hrebuild⟩
  exact hnot (hrebuild IsDecimalPort (isDecimalPort_iff.mpr ⟨hsrc, by decide, by decide⟩)
    (isDecimalPort_iff.mpr ⟨hdst, by decide, by decide⟩))

/-- `PROXY TCP4 192.0.2.1 198.51.100.7 +443 80` is accepted. -/
theorem v1_grammar_plus :
    let b := v1Signature ++ tcp4 ++ [0x20, 0x31, 0x39, 0x32, 0x2E, 0x30, 0x2E, 0x32, 0x2E, 0x31,
      0x20, 0x31, 0x39, 0x38, 0x2E, 0x35, 0x31, 0x2E, 0x31, 0x30, 0x30, 0x2E, 0x37,
      0x20, 0x2B, 0x34, 0x34, 0x33, 0x20, 0x38, 0x30, 0x0D, 0x0A]
    parse .castagnoli b =
        .ok (tcpInfo (.v4 (.new 192 0 2 1) 443) (.v4 (.new 198 51 100 7) 80), 43) ∧
      ∀ info n, ¬ IsTcpHeader IsDecimalPort b info n := by
  refine ⟨by decide +kernel, ?_⟩
  rintro info n ⟨line, rest, src, dst, hb, hline, -, -, htcp, -⟩
  have hport := (@fields_of_buffer _ _ _ _ _ hline htcp _ hb 41 (by decide)
    proxyWord tcp4 [0x31, 0x39, 0x32, 0x2E, 0x30, 0x2E, 0x32, 0x2E, 0x31]
    [0x31, 0x39, 0x38, 0x2E, 0x35, 0x31, 0x2E, 0x31, 0x30, 0x30, 0x2E, 0x37]
    [0x2B, 0x34, 0x34, 0x33] [0x38, 0x30] (by decide)).1
  exact (isDecimalPort_iff.mp hport).2.1 rfl

/-! ## UNKNOWN lines -/

/-- What follows the keyword is skipped iff it is UTF-8. -/
theorem unknown_ignored_iff (C : Crc32c) {g : List UInt8} (hcrlf : ¬ crlf <:+: g)
    (hlen : 16 + g.length ≤ 107) (rest : List UInt8) :
    parse C (proxyUnknown ++ 0x20 :: (g ++ (crlf ++ rest))) = .ok (unknownInfo, 16 + g.length) ↔
      Utf8.valid g = true := by
  have hassoc : proxyUnknown ++ 0x20 :: (g ++ (crlf ++ rest)) =
      (proxyUnknown ++ [0x20]) ++ g ++ (crlf ++ rest) := by simp
  have hline : ¬ crlf <:+: (proxyUnknown ++ [0x20]) ++ g := not_crlf_append (by decide) hcrlf
  have hvalid : Utf8.valid ((proxyUnknown ++ [0x20]) ++ g) = Utf8.valid g :=
    Utf8.valid_ascii_append (Utf8.ascii_of_all rfl) g
  have hlength : ((proxyUnknown ++ [0x20]) ++ g).length + 2 = 16 + g.length := by
    simp [proxyUnknown]
    omega
  have hproxy : v1Signature <+: proxyUnknown ++ 0x20 :: (g ++ (crlf ++ rest)) := ⟨_, rfl⟩
  rw [parse_eq_parseV1 C hproxy, parseV1_eq_ok hproxy]
  constructor
  · rintro ⟨line, rest', hb, hline', -, -, hvalid', -⟩
    rcases line_unique (hassoc.symm.trans hb) hline hline' with ⟨rfl, -⟩
    rwa [hvalid] at hvalid'
  · intro hg
    exact ⟨_, rest, hassoc, hline, hlength.symm, hlen, hvalid.trans hg,
      .inl ⟨.inr ⟨g, by simp⟩, rfl⟩⟩

/-- `PROXY UNKNOWN x`. -/
theorem unknown_ignored_text :
    parse .castagnoli (proxyUnknown ++ [0x20, 0x78, 0x0D, 0x0A]) = .ok (unknownInfo, 17) :=
  (@unknown_ignored_iff .castagnoli [0x78] (by decide) (by decide) []).mpr (by decide)

/-- One byte that is no UTF-8 behind the keyword. -/
theorem unknown_not_utf8 :
    parse .castagnoli (proxyUnknown ++ [0x20, 0xFF, 0x0D, 0x0A]) =
      .err (.invalid .v1NotUtf8) := by
  decide +kernel

/-! ## Building and parsing -/

theorem isU16_digitsOf (port : UInt16) : IsU16 (digitsOf 10 port.toNat) port :=
  isU16_iff.mpr (IsDecimalPort.loose (numeral_digitsOf (.inl rfl) _))

/-- The line that `build_v1` writes for two addresses. -/
def tcpText (src dst : SocketAddr) : List UInt8 :=
  [0x20].intercalate [proxyWord, src.ip.keyword, src.ip.display, dst.ip.display,
    digitsOf 10 src.port.toNat, digitsOf 10 dst.port.toNat]

theorem tcpLine_tcpText {src dst : SocketAddr} (h : src.isIpv4 = dst.isIpv4) :
    TcpLine IsU16 (tcpText src dst) (SocketAddr.new src.ip src.port)
      (SocketAddr.new dst.ip dst.port) := by
  have hspace : ∀ {text}, AddressText text → (0x20 : UInt8) ∉ text :=
    fun htext => htext.not_mem (by decide)
  have hport : ∀ port : UInt16, (0x20 : UInt8) ∉ digitsOf 10 port.toNat :=
    fun _ => hspace (addressText_digitsOf (.inl rfl) _)
  refine .intro ?_ ?_ (fromStr_display _) (fromStr_display _) (isU16_digitsOf _) (isU16_digitsOf _)
  · simp only [List.forall_mem_cons]
    exact ⟨hspace (addressText_display _).1, hspace (addressText_display _).1, hport _, hport _,
      nofun⟩
  · cases src <;> cases dst <;> first | rfl | cases h

theorem no_cr_tcpText (src dst : SocketAddr) : (0x0D : UInt8) ∉ tcpText src dst := by
  have htext : ∀ {text}, AddressText text → (0x0D : UInt8) ∉ text :=
    fun htext => htext.not_mem (by decide)
  have hport : ∀ port : UInt16, (0x0D : UInt8) ∉ digitsOf 10 port.toNat :=
    fun _ => htext (addressText_digitsOf (.inl rfl) _)
  have hkeyword : (0x0D : UInt8) ∉ src.ip.keyword := by
    cases src.ip <;> simp [IpAddr.keyword, tcp4, tcp6]
  simp only [tcpText, List.intercalate_cons_cons, List.intercalate_singleton, List.mem_append,
    not_or]
  exact ⟨⟨by decide, by decide⟩, ⟨hkeyword, by decide⟩,
    ⟨htext (addressText_display _).1, by decide⟩, ⟨htext (addressText_display _).1, by decide⟩,
    ⟨hport _, by decide⟩, hport _⟩

theorem length_tcpText_le (src dst : SocketAddr) : (tcpText src dst).length ≤ 105 := by
  have hport : ∀ port : UInt16, (digitsOf 10 port.toNat).length ≤ 5 := by
    intro port
    have hlt := port.toNat_lt
    exact length_digitsOf_le (.inl rfl) (by decide) (by omega)
  have hsrc := (addressText_display src.ip).2
  have hdst := (addressText_display dst.ip).2
  have hsp := hport src.port
  have hdp := hport dst.port
  have hkeyword : src.ip.keyword.length = 4 := by
    cases src.ip <;> rfl
  have hword : proxyWord.length = 5 := rfl
  simp only [tcpText, List.intercalate_cons_cons, List.intercalate_singleton, List.length_append,
    List.length_singleton]
  omega

/-- A byte string without CR, then CR LF: there is no other CR LF. -/
theorem crlf_unique {line a c : List UInt8} (hline : 0x0D ∉ line)
    (h : line ++ crlf = a ++ (crlf ++ c)) : a = line ∧ c = [] := by
  rcases List.append_eq_append_iff.mp h with ⟨t, rfl, ht⟩ | ⟨t, rfl, ht⟩
  · have hlen := congrArg List.length ht
    simp only [List.length_append] at hlen
    obtain rfl := List.length_eq_zero_iff.mp (show t.length = 0 by omega)
    obtain rfl := List.length_eq_zero_iff.mp (show c.length = 0 by omega)
    exact ⟨List.append_nil line, rfl⟩
  · cases t with
    | nil => exact ⟨(List.append_nil a).symm, by simpa using ht⟩
    | cons b t =>
        -- the first CR LF would start inside the line
        obtain rfl : 0x0D = b := (List.cons.inj ht).1
        exact absurd (by simp) hline

/-- What `build_v1` writes. -/
theorem build_v1 (C : Crc32c) {src dst : SocketAddr} {b b' : HeaderBuilder}
    (hnew : HeaderBuilder.v1Proxy src dst = .ok b) {calls : List WithCall}
    (hcalls : applyAll calls b = .ok b') : b'.build C = .ok (tcpText src dst ++ crlf) := by
  have hran := applyAll_spec hcalls
  rw [HeaderBuilder.v1Proxy, HeaderBuilder.proxy, Outcome.ite_panic_eq_ok] at hnew
  rcases hnew with ⟨-, rfl⟩
  rcases Option.map_eq_some_iff.mp hran.family with ⟨transport, htransport, hfamily⟩
  rw [HeaderBuilder.build, hran.version]
  simp only [HeaderBuilder.buildV1, hran.source, hran.destination, htransport]
  cases src with
  | v4 ip port =>
      rw [hfamily]
      rfl
  | v6 ip port flowinfo scopeId =>
      rw [hfamily]
      rfl

/-- Lines that were built are read back, whatever follows them. -/
theorem parse_build_v1 (C : Crc32c) {src dst : SocketAddr} (h : src.isIpv4 = dst.isIpv4) :
    ∃ b, HeaderBuilder.v1Proxy src dst = .ok b ∧
      ∀ calls b', applyAll calls b = .ok b' → ∃ header, b'.build C = .ok header ∧
        header.length ≤ 107 ∧
        (∃ line, header = line ++ crlf ∧
          ∀ a c, header = a ++ (crlf ++ c) → a = line ∧ c = []) ∧
        ∀ r, parse C (header ++ r) =
          .ok ({ version := .v1, command := .proxy, transport := some ⟨src.family, .stream⟩,
                 source := some (.inet (SocketAddr.new src.ip src.port)),
                 destination := some (.inet (SocketAddr.new dst.ip dst.port)), tlvs := {} },
            header.length) := by
  obtain ⟨b, hnew⟩ : ∃ b, HeaderBuilder.v1Proxy src dst = .ok b := ⟨_, if_pos h⟩
  refine ⟨b, hnew, ?_⟩
  intro calls b' hcalls
  have hcr := no_cr_tcpText src dst
  have hlen := length_tcpText_le src dst
  have htwo : (tcpText src dst ++ crlf).length = (tcpText src dst).length + 2 := List.length_append
  refine ⟨tcpText src dst ++ crlf, build_v1 C hnew hcalls, by omega,
    ⟨tcpText src dst, rfl, fun a c hac => crlf_unique hcr hac⟩, ?_⟩
  intro r
  have hproxy : v1Signature <+: tcpText src dst ++ crlf ++ r := by
    rcases tcpLine_text (tcpLine_tcpText h) with ⟨rest, hrest⟩
    exact ⟨0x54 :: rest ++ crlf ++ r, by rw [hrest]; rfl⟩
  have hline : ¬ crlf <:+: tcpText src dst := by
    intro hinside
    exact hcr (hinside.subset (by decide))
  have htcp := ((parse_tcp_iff C hproxy).mpr ⟨tcpText src dst, r, _, _, by rw [List.append_assoc],
    hline, rfl, by omega, tcpLine_tcpText h, rfl⟩).1
  rw [htcp, htwo, tcpInfo, SocketAddr.family_new]
  rfl

/-- From `[::1]:80` to `[::2]:443`, with a scope that the header does not carry. -/
theorem parse_build_v1_scoped :
    let src := SocketAddr.v6 ⟨⟨[0, 0, 0, 0, 0, 0, 0, 0, 0, 0, 0, 0, 0, 0, 0, 1], rfl⟩⟩ 80 0 3
    let dst := SocketAddr.v6 ⟨⟨[0, 0, 0, 0, 0, 0, 0, 0, 0, 0, 0, 0, 0, 0, 0, 2], rfl⟩⟩ 443 0 3
    ∃ header, (HeaderBuilder.v1Proxy src dst >>= HeaderBuilder.build .castagnoli) = .ok header ∧
      parse .castagnoli header =
        .ok (tcpInfo (SocketAddr.new src.ip 80) (SocketAddr.new dst.ip 443), header.length) := by
  intro src dst
  rcases @parse_build_v1 .castagnoli src dst rfl with ⟨b, hnew, hall⟩
  rcases hall [] b rfl with ⟨header, hbuild, -, -, hparse⟩
  have hself := hparse []
  rw [List.append_nil] at hself
  exact ⟨header, by rw [hnew]; exact hbuild, hself⟩

end ProxyProtocol
