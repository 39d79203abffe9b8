import ProxyProtocol.Types

/-! # The v1 parser

`parse/v1.rs`: a line of text up to CR LF, looked for in the first 107 bytes
only. The parser is `parseV1`; the part that works on the line alone is
`parseV1Line`.

* `parseV1_eq`: where the line ends and what the line says are the only two
  things that matter.
* `parseV1_append` and `parseV1_take`: the verdict is settled by the bytes up
  to the first CR LF, not earlier, and later bytes do not change it.
-/

namespace ProxyProtocol

open Wire

/-! ## The code -/

def v1MaxLen : ℕ := 107

/-- The position of the first CR LF: `windows(2).position(..)`. -/
def crlfPosition : List UInt8 → Option ℕ
  | a :: b :: rest =>
      -- a window starts at every byte, so a CR may follow a CR
      if a = 0x0D ∧ b = 0x0A then some 0 else (crlfPosition (b :: rest)).map (· + 1)
  | _ => none

/-- `PROXY UNKNOWN`. -/
def proxyUnknown : List UInt8 :=
  [0x50, 0x52, 0x4F, 0x58, 0x59, 0x20, 0x55, 0x4E, 0x4B, 0x4E, 0x4F, 0x57, 0x4E]

/-- `TCP4`. -/
def tcp4 : List UInt8 := [0x54, 0x43, 0x50, 0x34]

/-- `TCP6`. -/
def tcp6 : List UInt8 := [0x54, 0x43, 0x50, 0x36]

/-- `PROXY UNKNOWN`, alone or followed by a space and anything. -/
def isUnknownLine (line : Str) : Bool :=
  let rest := line.bytes.drop proxyUnknown.length
  proxyUnknown.isPrefixOf line.bytes && (rest.isEmpty || rest.head? == some 0x20)

/-- The address family a transport keyword names. -/
def v1Family (transport : Str) : ParseResult AddressFamily :=
  if transport.bytes = tcp4 then .ok .inet
  else if transport.bytes = tcp6 then .ok .inet6
  else .err (.invalid (.v1UnknownTransport transport))

/-- `src_ip_str.parse()`. -/
def v1Ip (text : Str) : ParseResult IpAddr :=
  Outcome.okOr (.invalid (.invalidIp text)) (IpAddr.fromStr text.bytes)

/-- The family of an address must be the announced one. -/
def checkFamily (family : AddressFamily) (text : Str) (ip : IpAddr) : ParseResult Unit :=
  match family, ip with
  | .inet, .v4 _ => .ok ()
  | .inet6, .v6 _ => .ok ()
  | _, _ => .err (.invalid (.invalidIp text))

/-- `src_port_str.parse()`. -/
def v1Port (text : Str) : ParseResult UInt16 :=
  Outcome.okOr (.invalid (.invalidPort text)) (u16FromStr text.bytes)

/-- The fields behind `PROXY`. -/
def v1Fields (parts : List Str) : ParseResult ProxyInfo := do
  let transportStr ← Outcome.okOr (.invalid .v1InvalidFormat) parts[0]?
  let srcIpStr ← Outcome.okOr (.invalid .v1InvalidFormat) parts[1]?
  let dstIpStr ← Outcome.okOr (.invalid .v1InvalidFormat) parts[2]?
  let srcPortStr ← Outcome.okOr (.invalid .v1InvalidFormat) parts[3]?
  let dstPortStr ← Outcome.okOr (.invalid .v1InvalidFormat) parts[4]?
  -- something behind the second port
  if parts[5]?.isSome then .err (.invalid .v1InvalidFormat)
  else do
    let family ← v1Family transportStr
    let srcIp ← v1Ip srcIpStr
    let dstIp ← v1Ip dstIpStr
    checkFamily family srcIpStr srcIp
    checkFamily family dstIpStr dstIp
    let srcPort ← v1Port srcPortStr
    let dstPort ← v1Port dstPortStr
    .ok { version := .v1, command := .proxy, transport := some ⟨family, .stream⟩,
          source := some (.inet (SocketAddr.new srcIp srcPort)),
          destination := some (.inet (SocketAddr.new dstIp dstPort)), tlvs := {} }

/-- The line without its CR LF. -/
def parseV1Line (line : Str) : ParseResult ProxyInfo :=
  if isUnknownLine line then
    .ok { version := .v1, command := .proxy, transport := none, source := none,
          destination := none, tlvs := {} }
  else
    -- the first field is `PROXY`, which the caller has seen
    v1Fields ((Str.splitn 0x20 (by decide) 7 line).drop 1)

def parseV1 (buf : List UInt8) : ParseResult (ProxyInfo × ℕ) := do
  let searchEnd := min buf.length v1MaxLen
  let window ← Outcome.sliceTo buf searchEnd
  let lineEnd ← Outcome.okOr
    (if buf.length < v1MaxLen then .incomplete else .invalid .v1TooLong) (crlfPosition window)
  let lineBytes ← Outcome.sliceTo buf lineEnd
  let line ← Outcome.okOr (.invalid .v1NotUtf8) (Str.fromUtf8 lineBytes)
  let consumed ← Outcome.add lineEnd 2
  let info ← parseV1Line line
  .ok (info, consumed)

/-! ## The end of the line -/

theorem le_of_crlfPosition {d : List UInt8} {i : ℕ} (h : crlfPosition d = some i) :
    i + 2 ≤ d.length := by
  induction d generalizing i with
  | nil => cases h
  | cons a d ih =>
      cases d with
      | nil => cases h
      | cons b d =>
          simp only [crlfPosition] at h
          split at h
          · cases h
            simp
          · obtain ⟨j, hj, rfl⟩ := Option.map_eq_some_iff.mp h
            have := ih hj
            simp only [List.length_cons] at this ⊢
            omega

/-- The first CR LF is found in every buffer that reaches past it, and in no
shorter one. -/
theorem crlfPosition_take {d : List UInt8} {i : ℕ} (h : crlfPosition d = some i) (k : ℕ) :
    crlfPosition (d.take k) = if i + 2 ≤ k then some i else none := by
  induction d generalizing i k with
  | nil => cases h
  | cons a d ih =>
      cases d with
      | nil => cases h
      | cons b d =>
          match k with
          -- no window fits into fewer than two bytes
          | 0 => simp [crlfPosition]
          | 1 => simp [crlfPosition]
          | k + 2 =>
              simp only [List.take_succ_cons, crlfPosition] at h ⊢
              split at h
              · rename_i hcrlf
                cases h
                simp [hcrlf]
              · rename_i hcrlf
                obtain ⟨j, hj, rfl⟩ := Option.map_eq_some_iff.mp h
                have hrec := ih hj (k + 1)
                rw [List.take_succ_cons] at hrec
                rw [if_neg hcrlf, hrec]
                by_cases hle : j + 2 ≤ k + 1
                · rw [if_pos hle, if_pos (by omega)]
                  rfl
                · rw [if_neg hle, if_neg (by omega)]
                  rfl

theorem crlfPosition_append {d : List UInt8} {i : ℕ} (h : crlfPosition d = some i)
    (e : List UInt8) : crlfPosition (d ++ e) = some i := by
  induction d generalizing i with
  | nil => cases h
  | cons a d ih =>
      cases d with
      | nil => cases h
      | cons b d =>
          simp only [List.cons_append, crlfPosition] at h ⊢
          split at h
          · rename_i hcrlf
            cases h
            simp [hcrlf]
          · rename_i hcrlf
            obtain ⟨j, hj, rfl⟩ := Option.map_eq_some_iff.mp h
            have hrec := ih hj
            rw [List.cons_append] at hrec
            rw [if_neg hcrlf, hrec]
            rfl

/-- The line end. -/
def crlf : List UInt8 := [0x0D, 0x0A]

/-- A line without a CR LF is found up to the one behind it. -/
theorem crlfPosition_line {line : List UInt8} (hline : ¬ crlf <:+: line) (rest : List UInt8) :
    crlfPosition (line ++ (crlf ++ rest)) = some line.length := by
  induction line with
  | nil => rfl
  | cons a line ih =>
      rw [List.infix_cons_iff, not_or] at hline
      rcases List.exists_cons_of_ne_nil (show line ++ (crlf ++ rest) ≠ [] by simp [crlf]) with
        ⟨b, d, hd⟩
      have hno : ¬ (a = 0x0D ∧ b = 0x0A) := by
        rintro ⟨rfl, rfl⟩
        cases line with
        | nil => cases hd
        | cons c line =>
            cases hd
            exact hline.1 ⟨line, rfl⟩
      rw [List.cons_append, hd, crlfPosition, if_neg hno, ← hd, ih hline.2]
      rfl

/-- What is found is a line without a CR LF, and one behind it. -/
theorem of_crlfPosition {d : List UInt8} {i : ℕ} (h : crlfPosition d = some i) :
    ∃ line rest, d = line ++ (crlf ++ rest) ∧ line.length = i ∧ ¬ crlf <:+: line := by
  induction d generalizing i with
  | nil => cases h
  | cons a d ih =>
      cases d with
      | nil => cases h
      | cons b d =>
          rw [crlfPosition] at h
          split at h
          · rename_i hcrlf
            rcases hcrlf with ⟨rfl, rfl⟩
            cases h
            exact ⟨[], d, rfl, rfl, by simp [crlf]⟩
          · rename_i hcrlf
            rcases Option.map_eq_some_iff.mp h with ⟨j, hj, rfl⟩
            rcases ih hj with ⟨line, rest, hd, rfl, hline⟩
            refine ⟨a :: line, rest, by rw [hd]; rfl, rfl, ?_⟩
            rw [List.infix_cons_iff]
            rintro (⟨t, ht⟩ | hinside)
            · -- a CR LF at the front would have been found
              cases line with
              | nil => cases ht
              | cons c line =>
                  cases ht
                  cases hd
                  exact hcrlf ⟨rfl, rfl⟩
            · exact hline hinside

theorem crlfPosition_eq_some {d : List UInt8} {i : ℕ} :
    crlfPosition d = some i ↔
      ∃ line rest, d = line ++ (crlf ++ rest) ∧ line.length = i ∧ ¬ crlf <:+: line := by
  constructor
  · exact of_crlfPosition
  · rintro ⟨line, rest, rfl, rfl, hline⟩
    exact crlfPosition_line hline rest

/-- The line end that comes first is determined. -/
theorem line_unique {line line' rest rest' : List UInt8}
    (h : line ++ (crlf ++ rest) = line' ++ (crlf ++ rest')) (hline : ¬ crlf <:+: line)
    (hline' : ¬ crlf <:+: line') : line = line' ∧ rest = rest' := by
  have hpos := crlfPosition_eq_some.mpr ⟨line, rest, rfl, rfl, hline⟩
  rw [crlfPosition_eq_some.mpr ⟨line', rest', h, rfl, hline'⟩, Option.some.injEq] at hpos
  obtain ⟨hlines, hrests⟩ := List.append_inj h hpos.symm
  exact ⟨hlines, List.append_cancel_left hrests⟩

theorem not_crlf_append {a line : List UInt8} (ha : 0x0D ∉ a) (hline : ¬ crlf <:+: line) :
    ¬ crlf <:+: a ++ line := by
  induction a with
  | nil => exact hline
  | cons b a ih =>
      rw [List.mem_cons, not_or] at ha
      rw [List.cons_append, List.infix_cons_iff, not_or]
      refine ⟨?_, ih ha.2⟩
      rintro ⟨t, ht⟩
      exact ha.1 (List.cons.inj ht).1

/-- The first CR LF lies inside the search window. -/
theorem crlfPosition_window {buf : List UInt8} {i : ℕ} :
    crlfPosition (buf.take v1MaxLen) = some i ↔
      ∃ line rest, buf = line ++ (crlf ++ rest) ∧ line.length = i ∧ ¬ crlf <:+: line ∧
        i + 2 ≤ v1MaxLen := by
  constructor
  · intro h
    have hle := le_of_crlfPosition h
    rw [List.length_take] at hle
    have hbuf := crlfPosition_append h (buf.drop v1MaxLen)
    rw [List.take_append_drop] at hbuf
    obtain ⟨line, rest, hd, hi, hline⟩ := crlfPosition_eq_some.mp hbuf
    exact ⟨line, rest, hd, hi, hline, by omega⟩
  · rintro ⟨line, rest, hd, hi, hline, hle⟩
    rw [crlfPosition_take (crlfPosition_eq_some.mpr ⟨line, rest, hd, hi, hline⟩), if_pos hle]

/-! ## What the verdict depends on -/

/-- What the bytes of the line say. -/
def v1Line (lineBytes : List UInt8) : ParseResult ProxyInfo :=
  Outcome.okOr (.invalid .v1NotUtf8) (Str.fromUtf8 lineBytes) >>= parseV1Line

theorem parseV1_eq (buf : List UInt8) :
    parseV1 buf =
      match crlfPosition (buf.take v1MaxLen) with
      | none => .err (if buf.length < v1MaxLen then .incomplete else .invalid .v1TooLong)
      | some lineEnd => v1Line (buf.take lineEnd) >>= fun info => .ok (info, lineEnd + 2) := by
  have hwindow : buf.take (min buf.length v1MaxLen) = buf.take v1MaxLen := by
    rw [Nat.min_comm, ← List.take_take, List.take_length]
  rw [parseV1, Outcome.sliceTo_of_le (Nat.min_le_left _ _), Outcome.ok_bind, hwindow]
  cases hpos : crlfPosition (buf.take v1MaxLen) with
  | none => rfl
  | some lineEnd =>
      have hle := le_of_crlfPosition hpos
      simp only [List.length_take, v1MaxLen] at hle
      simp only [Outcome.okOr_some, Outcome.ok_bind]
      rw [Outcome.sliceTo_of_le (by omega), Outcome.ok_bind, Outcome.add_of_lt (by omega)]
      simp only [v1Line, bind_assoc, Outcome.ok_bind]

/-- The verdict on a line that ends inside the window. -/
theorem parseV1_of_crlf {buf : List UInt8} {lineEnd : ℕ}
    (h : crlfPosition (buf.take v1MaxLen) = some lineEnd) :
    parseV1 buf = (v1Line (buf.take lineEnd) >>= fun info => .ok (info, lineEnd + 2)) := by
  rw [parseV1_eq, h]

theorem parseV1_of_none {buf : List UInt8} (h : crlfPosition (buf.take v1MaxLen) = none) :
    parseV1 buf = .err (if buf.length < v1MaxLen then .incomplete else .invalid .v1TooLong) := by
  rw [parseV1_eq, h]

/-- Once the verdict is not "incomplete", later bytes do not change it. -/
theorem parseV1_append {buf : List UInt8} (h : parseV1 buf ≠ .err .incomplete)
    (e : List UInt8) : parseV1 (buf ++ e) = parseV1 buf := by
  cases hpos : crlfPosition (buf.take v1MaxLen) with
  | none =>
      -- no line end in a full window: the search window does not grow further
      rw [parseV1_of_none hpos] at h ⊢
      have hlen : v1MaxLen ≤ buf.length := by
        by_contra hlt
        exact h (by rw [if_pos (Nat.lt_of_not_le hlt)])
      have hlen' : v1MaxLen ≤ (buf ++ e).length := by simp; omega
      rw [parseV1_of_none (by rwa [List.take_append_of_le_length hlen]),
        if_neg (Nat.not_lt.mpr hlen), if_neg (Nat.not_lt.mpr hlen')]
  | some lineEnd =>
      have hle := le_of_crlfPosition hpos
      rw [List.length_take] at hle
      have hpos' : crlfPosition ((buf ++ e).take v1MaxLen) = some lineEnd := by
        rw [List.take_append]
        exact crlfPosition_append hpos _
      rw [parseV1_of_crlf hpos, parseV1_of_crlf hpos',
        List.take_append_of_le_length (by omega)]

/-- An accepted header ends with the first CR LF: it is accepted alone, and
every proper part of it is incomplete. -/
theorem parseV1_take {buf : List UInt8} {info : ProxyInfo} {n : ℕ}
    (h : parseV1 buf = .ok (info, n)) :
    n ≤ buf.length ∧ n ≤ v1MaxLen ∧
      ∀ k, parseV1 (buf.take k) = if k < n then .err .incomplete else .ok (info, n) := by
  cases hpos : crlfPosition (buf.take v1MaxLen) with
  | none =>
      rw [parseV1_of_none hpos] at h
      cases h
  | some lineEnd =>
      have hle := le_of_crlfPosition hpos
      rw [List.length_take] at hle
      have hparse := parseV1_of_crlf hpos
      rw [h] at hparse
      obtain ⟨info', hline, hok⟩ := Outcome.bind_eq_ok.mp hparse.symm
      cases hok
      refine ⟨by omega, by omega, ?_⟩
      intro k
      -- cutting commutes with the window, so the cut buffer has this line end or none
      have hcut := crlfPosition_take hpos k
      rw [List.take_take, Nat.min_comm, ← List.take_take] at hcut
      by_cases hk : k < lineEnd + 2
      · rw [if_neg (by omega)] at hcut
        rw [parseV1_of_none hcut, if_pos (by rw [List.length_take]; omega), if_pos hk]
      · rw [if_pos (by omega)] at hcut
        rw [parseV1_of_crlf hcut, List.take_take, Nat.min_eq_left (by omega), hline, if_neg hk]
        rfl

/-! ## Lines -/

/-- The data of an `UNKNOWN` line. -/
def unknownInfo : ProxyInfo where
  version := .v1
  command := .proxy
  transport := none
  source := none
  destination := none
  tlvs := {}

/-- The data of a line with addresses. -/
def tcpInfo (src dst : SocketAddr) : ProxyInfo where
  version := .v1
  command := .proxy
  transport := some ⟨src.family, .stream⟩
  source := some (.inet src)
  destination := some (.inet dst)
  tlvs := {}

/-- `PROXY`. -/
def proxyWord : List UInt8 := [0x50, 0x52, 0x4F, 0x58, 0x59]

/-- The keyword for the family of an address. -/
def IpAddr.keyword : IpAddr → List UInt8
  | .v4 _ => tcp4
  | .v6 _ => tcp6

/-- A line with addresses: six fields with a space between each two. How a port
may be written is left to `IsPort`. -/
inductive TcpLine (IsPort : List UInt8 → UInt16 → Prop) :
    List UInt8 → SocketAddr → SocketAddr → Prop
  | intro {src dst srcPort dstPort : List UInt8} {srcIp dstIp : IpAddr} {sp dp : UInt16}
      (spaceless : ∀ field ∈ [src, dst, srcPort, dstPort], 0x20 ∉ field)
      (keyword : srcIp.keyword = dstIp.keyword)
      (src_ip : IpAddr.fromStr src = some srcIp) (dst_ip : IpAddr.fromStr dst = some dstIp)
      (src_port : IsPort srcPort sp) (dst_port : IsPort dstPort dp) :
      TcpLine IsPort
        ([0x20].intercalate [proxyWord, srcIp.keyword, src, dst, srcPort, dstPort])
        (SocketAddr.new srcIp sp) (SocketAddr.new dstIp dp)

/-- A port as `u16::from_str` takes it. -/
def IsU16 (text : List UInt8) (port : UInt16) : Prop := u16FromStr text = some port

theorem checkFamily_eq_ok {family : AddressFamily} {text : Str} {ip : IpAddr} {u : Unit} :
    checkFamily family text ip = .ok u ↔ ip.family = family := by
  cases family <;> cases ip <;> simp [checkFamily, IpAddr.family]

theorem v1Family_eq_ok {transport : Str} {ip : IpAddr} :
    v1Family transport = .ok ip.family ↔ transport.bytes = ip.keyword := by
  have hne : tcp6 ≠ tcp4 := by decide
  unfold v1Family
  cases ip with
  | v4 addr =>
      simp only [IpAddr.family, IpAddr.keyword]
      split
      · simpa
      · split <;> simpa
  | v6 addr =>
      simp only [IpAddr.family, IpAddr.keyword]
      split
      · rename_i h
        simp [h, hne.symm]
      · split <;> simpa

/-- `PROXY UNKNOWN`, alone or followed by a space and anything. -/
def IsUnknownLine (line : List UInt8) : Prop :=
  line = proxyUnknown ∨ ∃ g, line = proxyUnknown ++ 0x20 :: g

theorem isUnknownLine_iff {line : Str} : isUnknownLine line = true ↔ IsUnknownLine line.bytes := by
  unfold isUnknownLine IsUnknownLine
  rw [Bool.and_eq_true, List.isPrefixOf_iff_prefix]
  constructor
  · rintro ⟨⟨rest, hrest⟩, hsep⟩
    rw [← hrest, List.drop_left] at hsep
    cases rest with
    | nil => exact .inl (by rw [← hrest, List.append_nil])
    | cons b g =>
        have hb : b = 0x20 := by simpa using hsep
        exact .inr ⟨g, by rw [← hrest, hb]⟩
  · rintro (h | ⟨g, h⟩)
    · rw [h]
      exact ⟨List.prefix_rfl, by decide⟩
    · rw [h]
      refine ⟨List.prefix_append _ _, ?_⟩
      rw [List.drop_left]
      rfl

theorem tcpLine_text {IsPort : List UInt8 → UInt16 → Prop} {line : List UInt8}
    {src dst : SocketAddr} (h : TcpLine IsPort line src dst) :
    ∃ rest, line = proxyWord ++ 0x20 :: 0x54 :: rest := by
  cases h with
  | @intro _ _ _ _ srcIp =>
      cases srcIp <;> exact ⟨_, rfl⟩

/-- The seventh byte tells a line with addresses from an `UNKNOWN` line. -/
theorem not_isUnknownLine {IsPort : List UInt8 → UInt16 → Prop} {line : List UInt8}
    {src dst : SocketAddr} (h : TcpLine IsPort line src dst) : ¬ IsUnknownLine line := by
  obtain ⟨rest, rfl⟩ := tcpLine_text h
  rintro (h | ⟨g, h⟩)
  · cases h
  · cases h

theorem parseV1Line_eq (line : Str) :
    parseV1Line line =
      if isUnknownLine line then .ok unknownInfo
      else v1Fields ((Str.splitn 0x20 (by decide) 7 line).drop 1) := rfl

theorem keyword_eq_iff {ip ip' : IpAddr} : ip.keyword = ip'.keyword ↔ ip.family = ip'.family := by
  cases ip <;> cases ip' <;> simp [IpAddr.keyword, IpAddr.family, tcp4, tcp6]

theorem v1Fields_eq_ok {parts : List Str} {info : ProxyInfo} :
    v1Fields parts = .ok info ↔
      ∃ (src dst srcPort dstPort : List UInt8) (srcIp dstIp : IpAddr) (sp dp : UInt16),
        parts.map Str.bytes = [srcIp.keyword, src, dst, srcPort, dstPort] ∧
        srcIp.keyword = dstIp.keyword ∧ IpAddr.fromStr src = some srcIp ∧
        IpAddr.fromStr dst = some dstIp ∧ IsU16 srcPort sp ∧ IsU16 dstPort dp ∧
        info = tcpInfo (SocketAddr.new srcIp sp) (SocketAddr.new dstIp dp) := by
  constructor
  · intro h
    match parts with
    -- a field is missing, or there is one too many
    | [] | [_] | [_, _] | [_, _, _] | [_, _, _, _] | _ :: _ :: _ :: _ :: _ :: _ :: _ =>
        simp [v1Fields] at h
    | [transport, src, dst, srcPort, dstPort] =>
        simp only [v1Fields, List.getElem?_cons_zero, List.getElem?_cons_succ, Outcome.okOr_some,
          Outcome.ok_bind, List.getElem?_nil, Option.isSome_none, Bool.false_eq_true, if_false,
          Outcome.bind_eq_ok, v1Ip, v1Port, Outcome.okOr_eq_ok, checkFamily_eq_ok] at h
        obtain ⟨family, hfamily, srcIp, hsrc, dstIp, hdst, _, rfl, _, hfam, sp, hsp, dp, hdp, h⟩ :=
          h
        cases h
        exact ⟨src.bytes, dst.bytes, srcPort.bytes, dstPort.bytes, srcIp, dstIp, sp, dp,
          by simp [v1Family_eq_ok.mp hfamily], keyword_eq_iff.mpr hfam.symm, hsrc, hdst, hsp, hdp,
          by simp [tcpInfo]⟩
  · rintro ⟨src, dst, srcPort, dstPort, srcIp, dstIp, sp, dp, hparts, hkeyword, hsrc, hdst, hsp,
      hdp, rfl⟩
    match parts with
    | [] | [_] | [_, _] | [_, _, _] | [_, _, _, _] | _ :: _ :: _ :: _ :: _ :: _ :: _ =>
        simp at hparts
    | [transport, srcStr, dstStr, srcPortStr, dstPortStr] =>
        simp only [List.map_cons, List.map_nil, List.cons.injEq] at hparts
        obtain ⟨htransport, rfl, rfl, rfl, rfl, -⟩ := hparts
        have hsrcFamily : checkFamily srcIp.family srcStr srcIp = .ok () :=
          checkFamily_eq_ok.mpr rfl
        have hdstFamily : checkFamily srcIp.family dstStr dstIp = .ok () :=
          checkFamily_eq_ok.mpr (keyword_eq_iff.mp hkeyword).symm
        rw [IsU16] at hsp hdp
        simp [v1Fields, v1Family_eq_ok.mpr htransport, v1Ip, hsrc, hdst, hsrcFamily, hdstFamily,
          v1Port, hsp, hdp, tcpInfo]

/-- What the line of a v1 header says. -/
theorem parseV1Line_eq_ok {line : Str} (hproxy : proxyWord ++ [0x20] <+: line.bytes)
    {info : ProxyInfo} :
    parseV1Line line = .ok info ↔
      IsUnknownLine line.bytes ∧ info = unknownInfo ∨
      ∃ src dst, TcpLine IsU16 line.bytes src dst ∧ info = tcpInfo src dst := by
  by_cases hunknown : isUnknownLine line = true
  · have hbytes := isUnknownLine_iff.mp hunknown
    rw [parseV1Line_eq, if_pos hunknown]
    constructor
    · intro h
      cases h
      exact .inl ⟨hbytes, rfl⟩
    · rintro (⟨-, rfl⟩ | ⟨src, dst, hline, -⟩)
      · rfl
      · exact absurd hbytes (not_isUnknownLine hline)
  · obtain ⟨rest, hrest⟩ := hproxy
    rw [List.append_assoc, List.singleton_append] at hrest
    -- the text behind `PROXY` and a space, which is split further
    obtain ⟨tail, rfl⟩ : ∃ tail : Str, tail.bytes = rest :=
      ⟨⟨rest, (Utf8.valid_split (show (0x20 : UInt8).toNat ≤ 0x7F by decide)
        (hrest ▸ line.valid)).2⟩, rfl⟩
    have hsplit : Str.splitOnce 0x20 (by decide) line = some (⟨proxyWord, rfl⟩, tail) :=
      Str.splitOnce_eq_some.mpr ⟨hrest.symm, by decide⟩
    have hparts : (Str.splitn 0x20 (by decide) 7 line).drop 1 =
        Str.splitn 0x20 (by decide) 6 tail := by
      rw [Str.splitn, hsplit]
      rfl
    have hjoin : ∀ a b c d e : List UInt8, line.bytes = [0x20].intercalate
        [proxyWord, a, b, c, d, e] ↔ tail.bytes = [0x20].intercalate [a, b, c, d, e] := by
      intro a b c d e
      rw [← hrest]
      simp [List.intercalate]
    rw [parseV1Line_eq, if_neg hunknown, hparts, v1Fields_eq_ok]
    constructor
    · rintro ⟨src, dst, srcPort, dstPort, srcIp, dstIp, sp, dp, hfields, hkeyword, hsrc, hdst, hsp,
        hdp, rfl⟩
      obtain ⟨hbytes, hspace⟩ := (Str.splitn_eq_iff (by simp) (by simp)).mp hfields
      refine .inr ⟨SocketAddr.new srcIp sp, SocketAddr.new dstIp dp, ?_, rfl⟩
      rw [(hjoin _ _ _ _ _).mpr hbytes]
      exact .intro (List.forall_mem_cons.mp hspace).2 hkeyword hsrc hdst hsp hdp
    · rintro (⟨h, -⟩ | ⟨src, dst, hline, rfl⟩)
      · exact absurd (isUnknownLine_iff.mpr h) hunknown
      · generalize hbytes : line.bytes = bytes at hline
        cases hline with
        | @intro src dst srcPort dstPort srcIp dstIp sp dp hspace hkeyword hsrc hdst hsp hdp =>
            have hkeyspace : (0x20 : UInt8) ∉ srcIp.keyword := by
              cases srcIp <;> simp [IpAddr.keyword, tcp4, tcp6]
            refine ⟨src, dst, srcPort, dstPort, srcIp, dstIp, sp, dp, ?_, hkeyword, hsrc, hdst,
              hsp, hdp, rfl⟩
            exact (Str.splitn_eq_iff (by simp) (by simp)).mpr
              ⟨(hjoin _ _ _ _ _).mp hbytes, List.forall_mem_cons.mpr ⟨hkeyspace, hspace⟩⟩

theorem proxy_of_line {line rest : List UInt8}
    (h : proxyWord ++ [0x20] <+: line ++ (crlf ++ rest)) : proxyWord ++ [0x20] <+: line := by
  obtain ⟨t, ht⟩ := h
  rcases List.append_eq_append_iff.mp ht with ⟨a, hline, -⟩ | ⟨a, hword, ha⟩
  · exact ⟨a, hline.symm⟩
  · -- the line would end inside the word, which has no CR
    cases a with
    | nil => exact ⟨[], by rw [hword]; simp⟩
    | cons c a =>
        simp only [crlf, List.cons_append, List.cons.injEq] at ha
        have hmem : c ∈ proxyWord ++ [0x20] := by simp [hword]
        rw [← ha.1] at hmem
        exact absurd hmem (by decide)

/-- The v1 headers: the line up to the first CR LF, and what it says. -/
theorem parseV1_eq_ok {buf : List UInt8} (hproxy : proxyWord ++ [0x20] <+: buf)
    {info : ProxyInfo} {n : ℕ} :
    parseV1 buf = .ok (info, n) ↔
      ∃ line rest, buf = line ++ (crlf ++ rest) ∧ ¬ crlf <:+: line ∧ n = line.length + 2 ∧
        n ≤ v1MaxLen ∧ Utf8.valid line = true ∧
        (IsUnknownLine line ∧ info = unknownInfo ∨
          ∃ src dst, TcpLine IsU16 line src dst ∧ info = tcpInfo src dst) := by
  constructor
  · intro h
    cases hpos : crlfPosition (buf.take v1MaxLen) with
    | none =>
        rw [parseV1_of_none hpos] at h
        cases h
    | some lineEnd =>
        obtain ⟨line, rest, rfl, rfl, hline, hle⟩ := crlfPosition_window.mp hpos
        rw [parseV1_of_crlf hpos, List.take_left] at h
        obtain ⟨info', hinfo, hok⟩ := Outcome.bind_eq_ok.mp h
        cases hok
        obtain ⟨str, hstr, hsays⟩ := Outcome.bind_eq_ok.mp hinfo
        rw [Outcome.okOr_eq_ok, Str.fromUtf8_eq_some] at hstr
        subst hstr
        exact ⟨str.bytes, rest, rfl, hline, rfl, hle, str.valid,
          (parseV1Line_eq_ok (proxy_of_line hproxy)).mp hsays⟩
  · rintro ⟨line, rest, rfl, hline, rfl, hle, hvalid, hsays⟩
    have hstr : Str.fromUtf8 line = some ⟨line, hvalid⟩ := Str.fromUtf8_eq_some.mpr rfl
    rw [parseV1_of_crlf (crlfPosition_window.mpr ⟨line, rest, rfl, rfl, hline, hle⟩),
      List.take_left, v1Line, hstr, Outcome.okOr_some, Outcome.ok_bind,
      (@parseV1Line_eq_ok ⟨line, hvalid⟩ (proxy_of_line hproxy) info).mpr hsays]
    rfl

/-- What every v1 header has in common. -/
theorem of_parseV1 {buf : List UInt8} {info : ProxyInfo} {n : ℕ}
    (hproxy : proxyWord ++ [0x20] <+: buf) (h : parseV1 buf = .ok (info, n)) :
    info.version = .v1 ∧ info.command = .proxy ∧ info.tlvs = {} := by
  obtain ⟨line, rest, -, -, -, -, -, ⟨-, rfl⟩ | ⟨src, dst, -, rfl⟩⟩ := (parseV1_eq_ok hproxy).mp h
  · exact ⟨rfl, rfl, rfl⟩
  · exact ⟨rfl, rfl, rfl⟩

end ProxyProtocol
