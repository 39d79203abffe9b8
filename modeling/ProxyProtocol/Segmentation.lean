import ProxyProtocol.Listener

/-! # Segmentation

How much the outcome of a handshake depends on the way TCP cuts the peer's
bytes into reads.

* `segmentation_irrelevant`: not at all, when the parser's first verdict falls
  inside `max_header_size`.
* `size_limit_iff`: a header longer than `max_header_size` is refused whatever
  the cut only if it is refused anyway or lies a whole read behind the limit.
  The limit is tested when the parser asks for more, so the read that
  completes a header is never measured against it.
* `optional_direct_iff`: a direct connection under an optional policy passes
  whatever the cut iff the peer sends, and the limit leaves room for, as many
  bytes as the signature that its first byte begins.
-/

namespace ProxyProtocol

open Wire

/-! ## Handshakes in time -/

/-- The permit was granted in time, and reads have to complete by `deadline`. -/
def HasDeadline {E : Type} (config : ProxyProtocolConfig E) (env : Handshake) (deadline : ℕ) :
    Prop :=
  ∃ t, env.permit = .granted t ∧ t ≤ env.acceptedAt + config.headerTimeout.asNanos ∧
    t + config.headerTimeout.asNanos ≤ env.maxInstant ∧
    deadline = t + config.headerTimeout.asNanos

/-- A permit that is granted at once. -/
def promptly {E : Type} (config : ProxyProtocolConfig E) : Handshake :=
  ⟨0, .granted 0, config.headerTimeout.asNanos⟩

theorem hasDeadline_promptly {E : Type} (config : ProxyProtocolConfig E) :
    HasDeadline config (promptly config) config.headerTimeout.asNanos :=
  ⟨0, rfl, Nat.zero_le _, Nat.le_of_eq (Nat.zero_add _), (Nat.zero_add _).symm⟩

section Runs

variable {E : Type} {C : Crc32c} {config : ProxyProtocolConfig E} {peerAddr : SocketAddr}
  {required : Bool} {env : Handshake} {deadline : ℕ}

theorem readAndValidate_eq_feed (henv : HasDeadline config env deadline) (stream : TcpStream) :
    readAndValidate C config peerAddr env stream required =
      ofFeed config peerAddr required deadline
        (feed (timedSource deadline) (verdict C) config.maxHeaderSize [] stream) := by
  obtain ⟨t, hpermit, htime, hinstant, rfl⟩ := henv
  have hacquire : acquirePermit config peerAddr env = .ok t := by
    rw [acquirePermit, hpermit]
    simp only [if_pos htime]
  rw [readAndValidate, hacquire, Outcome.ok_bind, handshakeDeadline, if_pos hinstant,
    Outcome.ok_bind, readLoop_eq_feed _ _ _ (Nat.lt_succ_self _)]

/-- Data that is there in time flows. -/
theorem flows_arrival (deadline : ℕ) :
    Flows (timedSource deadline) fun n s => n ≤ s.unread.length ∧ s.arrival n ≤ deadline where
  read := by
    rintro n s ⟨hn, harrival⟩ hpos
    have hne : s.unread ≠ [] := List.length_pos_iff.mp (Nat.lt_of_lt_of_le hpos hn)
    obtain ⟨t, c, s', hread⟩ := TcpStream.exists_read hne readChunk
    obtain ⟨ht, hrest⟩ := (TcpStream.arrival_le_iff hread hpos).mp harrival
    refine ⟨c, s', timedSource_read.mpr ⟨t, ht, hread⟩, ?_, hrest⟩
    rw [(TcpStream.unread_of_read hread).1, List.length_append] at hn
    omega

/-! ## The outcome of one parse -/

/-- What the peer and the application can tell of an accepted stream: its
header, and the bytes to come. -/
def observe (result : AcceptResult E ProxiedStream) :
    AcceptResult E (Option ProxyInfo × List UInt8) := do
  let st ← result
  .ok (st.proxyInfo, st.undelivered)

/-- The outcome for a peer that sends `sent`, by the parser's verdict alone. -/
def oneShot (config : ProxyProtocolConfig E) (peerAddr : SocketAddr) (required : Bool)
    (sent : List UInt8) :
    ParseResult (ProxyInfo × ℕ) → AcceptResult E (Option ProxyInfo × List UInt8)
  | .ok (info, n) => do
      checkHeader config peerAddr info
      .ok (some info, sent.drop n)
  | .err .notProxyProtocol =>
      if required then .err (.parse .notProxyProtocol peerAddr) else .ok (none, sent)
  | .err e => .err (.parse e peerAddr)
  | .panic => .panic
  | .diverge => .diverge

theorem observe_conclude {buf : List UInt8} {r : ParseResult (ProxyInfo × ℕ)}
    (hparse : parse C buf = r) (s : TcpStream) :
    observe (conclude config peerAddr required s buf r) =
      oneShot config peerAddr required (buf ++ s.unread) r := by
  match r, hparse with
  | .ok (info, n), hparse =>
      have hle := (parse_settles C).le hparse
      have hdrop : (buf ++ s.unread).drop n = buf.drop n ++ s.unread :=
        List.drop_append_of_le_length hle
      simp only [conclude, oneShot, Outcome.sliceFrom_of_le hle, Outcome.ok_bind, hdrop]
      cases checkHeader config peerAddr info <;> rfl
  | .err .notProxyProtocol, _ => cases required <;> rfl
  | .err .incomplete, _ | .err (.invalid _), _ | .err (.crcMismatch _ _), _ => rfl
  | .panic, _ | .diverge, _ => rfl

/-- A handshake whose first verdict falls inside the limit, if the bytes it
takes are there in time. -/
theorem readAndValidate_in_time (henv : HasDeadline config env deadline) {stream : TcpStream}
    {p : ℕ} {r : ParseResult (ProxyInfo × ℕ)}
    (hfirst : FirstVerdict (verdict C) stream.unread p r) (hlimit : p ≤ config.maxHeaderSize)
    (hintime : stream.arrival p ≤ deadline) :
    ∃ buf s, buf ++ s.unread = stream.unread ∧ parse C buf = r ∧
      readAndValidate C config peerAddr env stream required =
        conclude config peerAddr required s buf r := by
  -- no verdict on the empty buffer
  have hpos : ([] : List UInt8).length < p := by
    by_contra hzero
    have hdecides := hfirst.decides
    rw [Nat.eq_zero_of_not_pos hzero] at hdecides
    cases hdecides
  obtain ⟨buf, s, hfeed⟩ := feed_decides (flows_arrival deadline) (stable_verdict C) hfirst hlimit
    stream [] ⟨hfirst.le, hintime⟩ rfl hpos
  have hspec := feed_spec (timedSource deadline) (verdict C) config.maxHeaderSize stream []
  rw [hfeed] at hspec
  refine ⟨buf, s, hspec.1, (verdict_eq_some.mp hspec.2).1, ?_⟩
  rw [readAndValidate_eq_feed henv, hfeed, ofFeed]

/-- The same when all of the peer's bytes are. -/
theorem readAndValidate_decides (henv : HasDeadline config env deadline) {stream : TcpStream}
    (hready : stream.ReadyBy deadline) {p : ℕ} {r : ParseResult (ProxyInfo × ℕ)}
    (hfirst : FirstVerdict (verdict C) stream.unread p r) (hlimit : p ≤ config.maxHeaderSize) :
    ∃ buf s, buf ++ s.unread = stream.unread ∧ parse C buf = r ∧
      readAndValidate C config peerAddr env stream required =
        conclude config peerAddr required s buf r := by
  refine readAndValidate_in_time henv hfirst hlimit ?_
  exact Nat.le_trans (TcpStream.arrivalIn_mono hfirst.le _)
    (TcpStream.arrival_unread_le_iff.mpr hready)

/-- When the shortest decided prefix of the peer's bytes has at most
`max_header_size` bytes, every way to cut them into reads leads to the outcome
of parsing that prefix. -/
theorem segmentation_irrelevant {sent : List UInt8} {p : ℕ} (hp : p ≤ sent.length)
    (hbefore : ∀ q < p, parse C (sent.take q) = .err .incomplete)
    (hdecided : parse C (sent.take p) ≠ .err .incomplete) (hlimit : p ≤ config.maxHeaderSize)
    (henv : HasDeadline config env deadline) {stream : TcpStream} (hsent : stream.unread = sent)
    (hready : stream.ReadyBy deadline) :
    observe (readAndValidate C config peerAddr env stream required) =
      oneShot config peerAddr required sent (parse C (sent.take p)) := by
  subst hsent
  have hfirst : FirstVerdict (verdict C) stream.unread p (parse C (stream.unread.take p)) :=
    ⟨hp, fun q hq => verdict_eq_none.mpr (hbefore q hq), verdict_eq_some.mpr ⟨rfl, hdecided⟩⟩
  obtain ⟨buf, s, hbytes, hparse, hresult⟩ := readAndValidate_decides henv hready hfirst hlimit
  rw [hresult, observe_conclude hparse, hbytes]

/-- A header in two segments, the second with a byte for the application. -/
theorem segmentation_irrelevant_two_segments :
    let info : ProxyInfo := ⟨.v2, .proxy, some ⟨.inet, .stream⟩,
      some (.inet (.v4 (.new 192 0 2 1) 56324)), some (.inet (.v4 (.new 198 51 100 7) 443)), {}⟩
    observe (readAndValidate .castagnoli ({} : ProxyProtocolConfig Empty)
      (.v4 (.new 10 1 2 3) 4000) ⟨0, .granted 1, 10000000000⟩
      ⟨[⟨3, v2Signature ++ [0x21], by decide⟩,
        ⟨8, [0x11, 0, 12, 192, 0, 2, 1, 198, 51, 100, 7, 220, 4, 1, 187, 0x47], by decide⟩],
        .silent⟩ true) = .ok (some info, [0x47]) := by
  intro info
  let sent : List UInt8 := v2Signature ++
    [0x21, 0x11, 0, 12, 192, 0, 2, 1, 198, 51, 100, 7, 220, 4, 1, 187, 0x47]
  have hparse : parse .castagnoli (sent.take 28) = .ok (info, 28) := by decide
  have hbefore : ∀ q < 28, parse .castagnoli (sent.take q) = .err .incomplete := by decide
  have henv : HasDeadline ({} : ProxyProtocolConfig Empty) ⟨0, .granted 1, 10000000000⟩
      5000000001 := ⟨1, rfl, by decide, by decide, by decide⟩
  rw [segmentation_irrelevant (by decide) hbefore (by rw [hparse]; simp) (by decide) henv rfl
    (by decide), hparse]
  rfl

/-! ## Adverse cuts -/

/-- A segment that fits one read is read whole. -/
theorem timedSource_segment {seg : Segment} (htime : seg.readyAt ≤ deadline)
    (hlen : seg.bytes.length ≤ readChunk) (segs : List Segment) (closing : Closing) :
    (timedSource deadline).read ⟨seg :: segs, closing⟩ = some (seg.bytes, ⟨segs, closing⟩) := by
  have hrest : seg.rest readChunk = [] := by
    rw [Segment.rest, dif_pos (List.drop_eq_nil_iff.mpr hlen)]
  refine timedSource_read.mpr ⟨_, htime, ?_⟩
  simp only [TcpStream.read, hrest, List.nil_append, List.take_of_length_le hlen]

/-- Bytes that arrive at once but one by one. -/
def singles (bytes : List UInt8) : List Segment := bytes.map fun b => ⟨0, [b], by simp⟩

theorem flatMap_singles (bytes : List UInt8) : (singles bytes).flatMap Segment.bytes = bytes := by
  induction bytes with
  | nil => rfl
  | cons b bytes ih =>
      rw [singles, List.map_cons, List.flatMap_cons, ← singles, ih]
      rfl

theorem readyAt_singles {bytes : List UInt8} {seg : Segment} (h : seg ∈ singles bytes) :
    seg.readyAt = 0 := by
  obtain ⟨b, -, rfl⟩ := List.mem_map.mp h
  rfl

/-- Segments that are there in time are collected while the parser asks for
more and the limit is not reached. -/
theorem feed_segments {limit : ℕ} (segs' : List Segment) (closing : Closing) {segs : List Segment}
    {bytes : List UInt8} (hbytes : segs.flatMap Segment.bytes = bytes) :
    ∀ buf : List UInt8, (∀ seg ∈ segs, seg.readyAt ≤ deadline) →
      (∀ k < bytes.length, verdict C (buf ++ bytes.take (k + 1)) = none ∧
        buf.length + (k + 1) < limit) →
      feed (timedSource deadline) (verdict C) limit buf ⟨segs ++ segs', closing⟩ =
        feed (timedSource deadline) (verdict C) limit (buf ++ bytes) ⟨segs', closing⟩ := by
  induction hn : bytes.length using Nat.strongRecOn generalizing segs bytes with
  | ind n ih =>
      subst hn
      intro buf hready h
      cases segs with
      | nil =>
          rw [← hbytes, List.flatMap_nil, List.append_nil]
          rfl
      | cons seg segs =>
          have hread : (timedSource deadline).read ⟨seg :: segs ++ segs', closing⟩ =
              some (seg.bytes.take readChunk, ⟨seg.rest readChunk ++ segs ++ segs', closing⟩) := by
            rw [List.append_assoc]
            exact timedSource_read.mpr ⟨_, hready seg (by simp), rfl⟩
          generalize hc : seg.bytes.take readChunk = c at hread
          generalize hrest : (seg.rest readChunk ++ segs).flatMap Segment.bytes = rest
          have hsplit : bytes = c ++ rest := by
            rw [← hbytes, ← hrest, List.flatMap_cons, List.flatMap_append, seg.flatMap_rest,
              ← List.append_assoc, ← hc, List.take_append_drop]
          subst hsplit
          have hpos := List.length_pos_iff.mpr ((timedSource deadline).read_nonempty hread)
          rw [List.length_append] at ih h
          -- the read itself is within the bytes that leave the parser undecided
          obtain ⟨m, hm⟩ : ∃ m, c.length = m + 1 := ⟨c.length - 1, by omega⟩
          obtain ⟨hverdict, hlimit⟩ := h m (by omega)
          rw [← hm, List.take_left] at hverdict
          rw [feed_more hread hverdict (by rw [List.length_append]; omega),
            ih rest.length (by omega) hrest rfl, List.append_assoc]
          · intro seg' hmem
            rcases List.mem_append.mp hmem with hmem | hmem
            · rw [Segment.readyAt_rest hmem]
              exact hready seg (by simp)
            · exact hready seg' (by simp [hmem])
          · intro k hk
            obtain ⟨hverdict, hlimit⟩ := h (c.length + k) (by omega)
            rw [Nat.add_assoc, List.take_length_add_append] at hverdict
            rw [List.append_assoc, List.length_append]
            exact ⟨hverdict, by omega⟩

/-! ## The size limit -/

/-- The configuration refuses a header: its version, or by the validator. -/
def Refuses (config : ProxyProtocolConfig E) (peerAddr : SocketAddr) (info : ProxyInfo) : Prop :=
  config.version.allows info.version = false ∨
    ∃ validate e, config.validator = some validate ∧ validate info peerAddr = .error e

theorem exists_err_of_refuses {info : ProxyInfo} (h : Refuses config peerAddr info) :
    ∃ e, checkHeader config peerAddr info = .err e := by
  unfold checkHeader
  by_cases hversion : config.version.allows info.version = true
  · rcases h with h | ⟨validate, e, hvalidator, he⟩
    · rw [h] at hversion
      cases hversion
    · simp [hversion, hvalidator, he]
  · exact ⟨_, if_neg hversion⟩

theorem checkHeader_of_not_refuses {info : ProxyInfo} (h : ¬Refuses config peerAddr info) :
    checkHeader config peerAddr info = .ok () := by
  obtain ⟨hversion, hvalidator⟩ := not_or.mp h
  refine checkHeader_eq_ok.mpr ⟨Bool.eq_true_of_not_eq_false hversion, ?_⟩
  intro validate hsome
  cases hresult : validate info peerAddr with
  | ok _ => rfl
  | error e => exact absurd ⟨validate, e, hsome, hresult⟩ hvalidator

/-- The deadlines that the clock can represent. -/
def Representable (config : ProxyProtocolConfig E) (env : Handshake) : Prop :=
  ∀ t, env.permit = .granted t → t + config.headerTimeout.asNanos ≤ env.maxInstant

theorem representable_promptly (config : ProxyProtocolConfig E) :
    Representable config (promptly config) := by
  rintro t ⟨⟩
  exact Nat.le_of_eq (Nat.zero_add _)

theorem acquirePermit_cases (peerAddr : SocketAddr) (hinstant : Representable config env) :
    (∃ e, acquirePermit config peerAddr env = .err e) ∨
      ∃ deadline, HasDeadline config env deadline := by
  unfold acquirePermit
  cases hpermit : env.permit with
  | granted t =>
      by_cases htime : t ≤ env.acceptedAt + config.headerTimeout.asNanos
      · exact .inr ⟨_, t, hpermit, htime, hinstant t hpermit, rfl⟩
      · exact .inl ⟨_, if_neg htime⟩
  | closed t =>
      left
      by_cases htime : t ≤ env.acceptedAt + config.headerTimeout.asNanos
      · exact ⟨_, if_pos htime⟩
      · exact ⟨_, if_neg htime⟩
  | never => exact .inl ⟨_, rfl⟩

/-- When every verdict the loop can reach is turned into an error, so is the
handshake. -/
theorem exists_err_of_decided {stream : TcpStream} (hinstant : Representable config env)
    (hdecided : ∀ deadline r buf s, feed (timedSource deadline) (verdict C) config.maxHeaderSize []
      stream = .decided r buf s → ∃ e, conclude config peerAddr required s buf r = .err e) :
    ∃ e, readAndValidate C config peerAddr env stream required = .err e := by
  rcases acquirePermit_cases peerAddr hinstant with ⟨e, he⟩ | ⟨deadline, henv⟩
  · exact ⟨e, by rw [readAndValidate, he]; rfl⟩
  · rw [readAndValidate_eq_feed henv]
    cases hfeed : feed (timedSource deadline) (verdict C) config.maxHeaderSize [] stream with
    | decided r buf s => exact hdecided deadline r buf s hfeed
    | overflow buf s => exact ⟨_, rfl⟩
    | starved buf s => exact ⟨_, rfl⟩

/-- A read of the handshake takes at most one chunk. -/
theorem length_le_readChunk {s s' : TcpStream} {c : List UInt8}
    (h : (timedSource deadline).read s = some (c, s')) : c.length ≤ readChunk := by
  obtain ⟨_, -, hread⟩ := timedSource_read.mp h
  exact (TcpStream.unread_of_read hread).2.1

/-- What the loop can decide on a stream that begins with a header. -/
theorem decided_header {sent : List UInt8} {info : ProxyInfo} {n : ℕ}
    (hparse : parse C sent = .ok (info, n)) {stream s : TcpStream} (hsent : stream.unread = sent)
    {r : ParseResult (ProxyInfo × ℕ)} {buf : List UInt8}
    (h : feed (timedSource deadline) (verdict C) config.maxHeaderSize [] stream =
      .decided r buf s) :
    r = .ok (info, n) ∧ n ≤ buf.length ∧ buf.length < max config.maxHeaderSize 1 + readChunk := by
  have hspec := feed_spec (timedSource deadline) (verdict C) config.maxHeaderSize stream []
  rw [h] at hspec
  obtain ⟨hbytes, hverdict⟩ := hspec
  obtain ⟨hbuf, hr⟩ := verdict_eq_some.mp hverdict
  have hsplit : buf ++ s.unread = sent := hbytes.trans hsent
  -- `buf` is a part of `sent`, and shorter than the header it would be incomplete
  have hcut := (parse_settles C).take hparse buf.length
  rw [← hsplit, List.take_left, hbuf] at hcut
  have hlength := length_lt_of_decided (fun hread => length_le_readChunk hread) stream []
    (by simp) h
  by_cases hshort : buf.length < n
  · rw [if_pos hshort] at hcut
    exact absurd hcut hr
  · rw [if_neg hshort] at hcut
    exact ⟨hcut, Nat.not_lt.mp hshort, hlength⟩

/-- Bytes that arrive together; no segment if there are none. -/
def piece (time : ℕ) (bytes : List UInt8) : List Segment :=
  if h : bytes = [] then [] else [⟨time, bytes, h⟩]

theorem flatMap_piece (time : ℕ) (bytes : List UInt8) :
    (piece time bytes).flatMap Segment.bytes = bytes := by
  unfold piece
  split
  · rename_i h
    exact h.symm
  · simp

theorem readyAt_piece {time : ℕ} {bytes : List UInt8} {seg : Segment} (h : seg ∈ piece time bytes) :
    seg.readyAt = time := by
  unfold piece at h
  split at h
  · cases h
  · rw [List.mem_singleton.mp h]

/-- A cut that gets a header past the limit and up to the deadline: what stays
below the limit comes early, and the rest of the header in one late read. -/
theorem exists_delivery {sent : List UInt8} {info : ProxyInfo} {n limit : ℕ}
    (hparse : parse C sent = .ok (info, n)) (hpos : 0 < n) (hnear : n < max limit 1 + readChunk)
    (early late : ℕ) :
    ∃ stream : TcpStream, stream.unread = sent ∧ late ≤ stream.arrival n ∧
      (∀ seg ∈ stream.incoming, seg.readyAt = early ∨ seg.readyAt = late) ∧
      ∀ deadline, early ≤ deadline → late ≤ deadline → ∃ s,
        feed (timedSource deadline) (verdict C) limit [] stream =
          .decided (.ok (info, n)) (sent.take n) s := by
  rw [readChunk] at hnear
  have hle := (parse_settles C).le hparse
  have hcut := (parse_settles C).take hparse
  -- `k` bytes leave the header unfinished and the buffer below the limit, so there is a next read
  obtain ⟨k, hk⟩ : ∃ k, k + 1 = min n (max limit 1) := ⟨min n (max limit 1) - 1, by omega⟩
  have hpieces : sent.take k ++ (sent.drop k).take (n - k) = sent.take n := by
    rw [← List.take_add, Nat.add_sub_of_le (by omega)]
  have hlen : ((sent.drop k).take (n - k)).length = n - k := by
    rw [List.length_take, List.length_drop]
    omega
  have hne : (sent.drop k).take (n - k) ≠ [] := by
    rw [← List.length_pos_iff, hlen]
    omega
  refine ⟨⟨piece early (sent.take k) ++ (⟨late, (sent.drop k).take (n - k), hne⟩ ::
    piece late (sent.drop n)), .silent⟩, ?_, ?_, ?_, ?_⟩
  · rw [TcpStream.unread, List.flatMap_append, List.flatMap_cons, flatMap_piece,
      flatMap_piece, ← List.append_assoc, hpieces, List.take_append_drop]
  · have hbefore : ((piece early (sent.take k)).flatMap Segment.bytes).length < n := by
      rw [flatMap_piece, List.length_take]
      omega
    exact @TcpStream.le_arrivalIn _ _ ⟨late, (sent.drop k).take (n - k), hne⟩ n hbefore
  · intro seg hmem
    rcases List.mem_append.mp hmem with hmem | hmem
    · exact .inl (readyAt_piece hmem)
    · rcases List.mem_cons.mp hmem with rfl | hmem
      · exact .inr rfl
      · exact .inr (readyAt_piece hmem)
  · intro deadline hearly hlate
    have hread : (timedSource deadline).read
        ⟨⟨late, (sent.drop k).take (n - k), hne⟩ :: piece late (sent.drop n), .silent⟩ =
        some ((sent.drop k).take (n - k), ⟨piece late (sent.drop n), .silent⟩) :=
      timedSource_segment hlate (by rw [hlen, readChunk]; omega) _ _
    refine ⟨⟨piece late (sent.drop n), .silent⟩, ?_⟩
    rw [feed_segments _ _ (flatMap_piece early (sent.take k)) [] ?early ?undecided,
      List.nil_append, feed_read hread, hpieces,
      verdict_eq_some.mpr ⟨(hcut n).trans (if_neg (Nat.lt_irrefl n)), by simp⟩]
    · intro seg hmem
      rw [readyAt_piece hmem]
      exact hearly
    · intro j hj
      rw [List.length_take] at hj
      rw [List.nil_append, List.take_take, Nat.min_eq_left (by omega), List.length_nil]
      exact ⟨verdict_eq_none.mpr ((hcut _).trans (if_pos (by omega))), by omega⟩

/-- A header of more than `max_header_size` bytes is refused however it is cut
iff the configuration refuses it anyway, or it is longer than the limit by at
least what one read can add. -/
theorem size_limit_iff {sent : List UInt8} {info : ProxyInfo} {n : ℕ}
    (hparse : parse C sent = .ok (info, n)) (hbig : config.maxHeaderSize < n) :
    (∀ env stream, Representable config env → stream.unread = sent →
      ∃ e, readAndValidate C config peerAddr env stream required = .err e) ↔
    Refuses config peerAddr info ∨ max config.maxHeaderSize 1 + 256 ≤ n := by
  constructor
  · intro hall
    by_contra hneither
    -- a header that passes the checks and ends within a read of the limit slips through
    obtain ⟨hadmits, hnear⟩ := not_or.mp hneither
    obtain ⟨stream, hsent, -, -, hfeed⟩ := exists_delivery hparse (Nat.zero_lt_of_lt hbig)
      (Nat.not_le.mp hnear) 0 0
    obtain ⟨s, hs⟩ := hfeed config.headerTimeout.asNanos (Nat.zero_le _) (Nat.zero_le _)
    obtain ⟨e, he⟩ := hall (promptly config) stream (representable_promptly config) hsent
    have hlen : n = (sent.take n).length :=
      (List.length_take_of_le ((parse_settles C).le hparse)).symm
    have hok : conclude config peerAddr required s (sent.take n) (.ok (info, n)) =
        .ok (.new s ((sent.take n).drop n) (some info) peerAddr) :=
      conclude_eq_ok.mpr (.inl ⟨info, n, rfl, checkHeader_of_not_refuses hadmits,
        Nat.le_of_eq hlen, rfl⟩)
    rw [readAndValidate_eq_feed (hasDeadline_promptly config), hs, ofFeed, hok] at he
    cases he
  · intro hcase env stream hinstant hsent
    apply exists_err_of_decided hinstant
    intro deadline r buf s hfeed
    -- a verdict can only be the header, in a buffer of less than limit and read
    obtain ⟨rfl, hle, hlt⟩ := decided_header hparse hsent hfeed
    rcases hcase with hrefuses | hfar
    · obtain ⟨e, he⟩ := exists_err_of_refuses hrefuses
      exact ⟨e, by simp only [conclude, he, Outcome.err_bind]⟩
    · simp only [readChunk] at hlt
      omega

/-- A header of 276 bytes, filled up by a NOOP, with a limit of 20: refused in
one segment, although nothing else is wrong with it. -/
theorem size_limit_refused :
    let config : ProxyProtocolConfig Empty := { maxHeaderSize := 20 }
    let peerAddr : SocketAddr := .v4 (.new 10 1 2 3) 4000
    let info : ProxyInfo := ⟨.v2, .proxy, some ⟨.inet, .stream⟩,
      some (.inet (.v4 (.new 192 0 2 1) 56324)), some (.inet (.v4 (.new 198 51 100 7) 443)),
      { raw := [(0x04, List.replicate 245 0)] }⟩
    let sent : List UInt8 := v2Signature ++ [0x21, 0x11, 1, 4, 192, 0, 2, 1, 198, 51, 100, 7,
      220, 4, 1, 187, 0x04, 0, 245] ++ List.replicate 245 0
    parse .castagnoli sent = .ok (info, 276) ∧ ¬Refuses config peerAddr info ∧
      ∃ e, readAndValidate .castagnoli config peerAddr ⟨0, .granted 1, 10000000000⟩
        ⟨[⟨3, sent, by decide⟩], .silent⟩ true = .err e := by
  intro config peerAddr info sent
  have hparse : parse .castagnoli sent = .ok (info, 276) := by decide +kernel
  refine ⟨hparse, ?_, ?_⟩
  · rintro (hversion | ⟨validate, e, hvalidator, -⟩)
    · cases hversion
    · cases hvalidator
  · refine (size_limit_iff hparse (by decide)).mpr (.inr (by decide)) _ _ ?_ (List.append_nil _)
    rintro t ⟨⟩
    decide

/-- The same header is let through with a limit of 20 when it comes in one
segment, and refused when it comes in two. -/
theorem size_limit_one_segment :
    let config : ProxyProtocolConfig Empty := { maxHeaderSize := 20 }
    let peerAddr : SocketAddr := .v4 (.new 10 1 2 3) 4000
    let env : Handshake := ⟨0, .granted 1, 10000000000⟩
    let info : ProxyInfo := ⟨.v2, .proxy, some ⟨.inet, .stream⟩,
      some (.inet (.v4 (.new 192 0 2 1) 56324)), some (.inet (.v4 (.new 198 51 100 7) 443)), {}⟩
    let one : TcpStream := ⟨[⟨3, v2Signature ++
      [0x21, 0x11, 0, 12, 192, 0, 2, 1, 198, 51, 100, 7, 220, 4, 1, 187], by decide⟩], .silent⟩
    let two : TcpStream := ⟨[⟨3, v2Signature ++ [0x21, 0x11, 0, 12, 192, 0, 2, 1], by decide⟩,
      ⟨4, [198, 51, 100, 7, 220, 4, 1, 187], by decide⟩], .silent⟩
    one.unread = two.unread ∧ parse .castagnoli one.unread = .ok (info, 28) ∧
      readAndValidate .castagnoli config peerAddr env one true =
        .ok (.new ⟨[], .silent⟩ [] (some info) peerAddr) ∧
      readAndValidate .castagnoli config peerAddr env two true =
        .err (.parse .incomplete peerAddr) := by
  decide +kernel

/-! ## Direct connections -/

/-- How many bytes decide whether a connection begins with a signature, by its
first byte. -/
def signatureLength : UInt8 → ℕ
  | 0x0D => 12
  | 0x50 => 6
  | _ => 1

theorem signatureLength_other {b : UInt8} (h₁ : b ≠ 0x0D) (h₂ : b ≠ 0x50) :
    signatureLength b = 1 := by
  unfold signatureLength
  split <;> simp_all

/-- Before that many bytes the parser waits. -/
theorem parse_take_signature (b : UInt8) (rest : List UInt8) {k : ℕ} (hk : k < signatureLength b) :
    parse C ((b :: rest).take k) = .err .incomplete := by
  cases k with
  | zero => rfl
  | succ k =>
      have hlen := List.length_take_le (k + 1) (b :: rest)
      rw [List.take_succ_cons] at hlen ⊢
      by_cases hv2 : b = 0x0D
      · subst hv2
        have h12 : k + 1 < v2Signature.length := hk
        rw [parse_v2_first, gated, if_pos (by omega)]
      · by_cases hv1 : b = 0x50
        · subst hv1
          have h6 : k + 1 < v1Signature.length := hk
          rw [parse_v1_first, gated, if_pos (by omega)]
        · rw [signatureLength_other hv2 hv1] at hk
          omega

theorem gated_of_mismatch {signature buf : List UInt8}
    {inner : List UInt8 → ParseResult (ProxyInfo × ℕ)} (hmiss : ¬signature <+: buf)
    (hlen : signature.length ≤ buf.length) :
    gated signature inner (buf.take signature.length) = .err .notProxyProtocol := by
  rw [gated, if_neg (by rw [List.length_take_of_le hlen]; omega), if_neg]
  rw [List.take_take, Nat.min_self]
  exact fun heq => hmiss (heq ▸ List.take_prefix _ _)

/-- With them it knows a direct connection. -/
theorem parse_direct {b : UInt8} {rest : List UInt8} (hv1 : ¬v1Signature <+: b :: rest)
    (hv2 : ¬v2Signature <+: b :: rest) (hlen : signatureLength b ≤ (b :: rest).length) :
    parse C ((b :: rest).take (signatureLength b)) = .err .notProxyProtocol := by
  by_cases h0D : b = 0x0D
  · subst h0D
    exact (parse_v2_first C _).trans (gated_of_mismatch hv2 hlen)
  · by_cases h50 : b = 0x50
    · subst h50
      exact (parse_v1_first C _).trans (gated_of_mismatch hv1 hlen)
    · rw [signatureLength_other h0D h50, List.take_succ_cons, parse_other_first C _ h0D h50]

/-- All of `bytes` can be read: once they are there, that many reads with room
deliver them. -/
def Readable (st : ProxiedStream) (bytes : List UInt8) : Prop :=
  ∀ (last : ℕ) (calls : List ReadCall), st.inner.ReadyBy last →
    (∀ call ∈ calls, last ≤ call.now ∧ 0 < call.capacity) → bytes.length ≤ calls.length →
    ∃ st', st.reads calls = .ok (bytes, st')

theorem readable_undelivered {st : ProxiedStream} (hv : st.Valid) :
    Readable st st.undelivered := by
  intro last calls hready hcalls hlen
  exact ProxiedStream.reads_all calls hcalls hv hready hlen

/-- A cut that stops a direct connection: one by one, so that the limit or the
end comes before the signature could be told. -/
theorem exists_err_singles {b : UInt8} {rest : List UInt8} (hpos : 0 < config.maxHeaderSize)
    (hshort : (b :: rest).length < signatureLength b ∨ config.maxHeaderSize < signatureLength b)
    (henv : HasDeadline config env deadline) :
    ∃ e, readAndValidate C config peerAddr env ⟨singles (b :: rest), .eof 0⟩ required =
      .err e := by
  rw [readAndValidate_eq_feed henv]
  have hundecided : ∀ k, k < signatureLength b → verdict C ((b :: rest).take k) = none :=
    fun k hk => verdict_eq_none.mpr (parse_take_signature b rest hk)
  have hintime : ∀ {bytes : List UInt8}, ∀ seg ∈ singles bytes, seg.readyAt ≤ deadline := by
    intro bytes seg hmem
    rw [readyAt_singles hmem]
    exact Nat.zero_le _
  generalize b :: rest = sent at hshort hundecided ⊢
  by_cases hend : sent.length < config.maxHeaderSize
  · -- the stream ends first
    have hall : feed (timedSource deadline) (verdict C) config.maxHeaderSize []
        ⟨singles sent ++ [], .eof 0⟩ = .starved ([] ++ sent) ⟨[], .eof 0⟩ := by
      rw [feed_segments [] (.eof 0) (flatMap_singles sent) [] hintime, feed_starved rfl]
      intro k hk
      rw [List.nil_append, List.length_nil]
      exact ⟨hundecided _ (by omega), by omega⟩
    rw [List.append_nil] at hall
    exact ⟨_, by rw [hall, ofFeed]⟩
  · -- the limit is reached first
    obtain ⟨k, hk⟩ : ∃ k, config.maxHeaderSize = k + 1 := ⟨config.maxHeaderSize - 1, by omega⟩
    obtain ⟨front, c, back, rfl, rfl⟩ : ∃ front c back, sent = front ++ c :: back ∧
        front.length = k := by
      refine ⟨sent.take k, sent.get ⟨k, by omega⟩, sent.drop (k + 1), ?_,
        List.length_take_of_le (by omega)⟩
      simp
    have hread : (timedSource deadline).read ⟨singles (c :: back), .eof 0⟩ =
        some ([c], ⟨singles back, .eof 0⟩) :=
      timedSource_segment (Nat.zero_le _) (by simp [readChunk]) _ _
    have hlast : verdict C (front ++ [c]) = none := by
      have htake := hundecided (front.length + 1) (by simp at hend hshort; omega)
      rwa [List.take_length_add_append] at htake
    have hall : feed (timedSource deadline) (verdict C) config.maxHeaderSize []
        ⟨singles front ++ singles (c :: back), .eof 0⟩ =
        .overflow (front ++ [c]) ⟨singles back, .eof 0⟩ := by
      rw [feed_segments _ (.eof 0) (flatMap_singles front) [] hintime, List.nil_append,
        feed_read hread, hlast]
      · simp only [List.length_append, List.length_singleton, hk, Nat.lt_irrefl, if_false]
      · intro j hj
        have htake := hundecided (j + 1) (by simp at hend hshort; omega)
        rw [List.take_append_of_le_length hj] at htake
        rw [List.nil_append, List.length_nil]
        exact ⟨htake, by omega⟩
    exact ⟨_, by rw [singles, List.map_append, ← singles, ← singles, hall, ofFeed]⟩

/-- Under an optional policy, a peer that sends no header and closes gets
through whatever the cut iff it sends as many bytes as the signature has that
its first byte begins, and the limit allows for them. -/
theorem optional_direct_iff {builder : ConfigBuilder E} (hbuild : builder.build = .ok config)
    (huse : config.policy peerAddr = .use) {b : UInt8} {rest : List UInt8}
    (hv1 : ¬v1Signature <+: b :: rest) (hv2 : ¬v2Signature <+: b :: rest) :
    (∀ env stream deadline time, HasDeadline config env deadline →
      stream.unread = b :: rest → stream.ReadyBy deadline → stream.closing = .eof time →
      time ≤ deadline →
      ∃ st, accept C config env (.ok (stream, peerAddr)) = .ok st ∧ st.proxyInfo = none ∧
        st.peerAddr = peerAddr ∧ st.clientAddr = st.peerAddr ∧ Readable st (b :: rest)) ↔
    signatureLength b ≤ (b :: rest).length ∧ signatureLength b ≤ config.maxHeaderSize := by
  have haccept : ∀ env stream, accept C config env (.ok (stream, peerAddr)) =
      readAndValidate C config peerAddr env stream false := by
    intro env stream
    simp only [accept, huse]
    rfl
  constructor
  · intro hall
    by_contra hshort
    rw [not_and_or, Nat.not_le, Nat.not_le] at hshort
    have hpos : 0 < config.maxHeaderSize := by
      obtain ⟨-, hsize, -, rfl⟩ := ConfigBuilder.build_eq_ok.mp hbuild
      exact hsize
    obtain ⟨st, hst, -⟩ := hall (promptly config) ⟨singles (b :: rest), .eof 0⟩ _ 0
      (hasDeadline_promptly config) (flatMap_singles _)
      (fun seg hseg => by rw [readyAt_singles hseg]; exact Nat.zero_le _) rfl (Nat.zero_le _)
    obtain ⟨e, he⟩ := exists_err_singles (C := C) hpos hshort (hasDeadline_promptly config)
    rw [haccept, he] at hst
    cases hst
  · rintro ⟨hlen, hlimit⟩ env stream deadline time henv hsent hready - -
    have hfirst : FirstVerdict (verdict C) stream.unread (signatureLength b)
        (.err .notProxyProtocol) := by
      rw [hsent]
      refine ⟨hlen, ?_, ?_⟩
      · intro k hk
        exact verdict_eq_none.mpr (parse_take_signature b rest hk)
      · exact verdict_eq_some.mpr ⟨parse_direct hv1 hv2 hlen, by simp⟩
    obtain ⟨buf, s, hbytes, -, hresult⟩ := readAndValidate_decides henv hready hfirst hlimit
    refine ⟨.new s buf none peerAddr, ?_, rfl, rfl, rfl, ?_⟩
    · rw [haccept, hresult]
      rfl
    · have hreadable := readable_undelivered (ProxiedStream.valid_new s buf none peerAddr)
      rwa [ProxiedStream.undelivered_new, hbytes, hsent] at hreadable

/-- A direct request in two segments. -/
theorem optional_direct_get :
    let peerAddr : SocketAddr := .v4 (.new 192 0 2 9) 4000
    ∃ st, accept .castagnoli ({ policy := optionalProxy } : ProxyProtocolConfig Empty)
        ⟨0, .granted 1, 10000000000⟩
        (.ok (⟨[⟨2, [0x47, 0x45], by decide⟩, ⟨3, [0x54], by decide⟩], .eof 4⟩, peerAddr)) =
          .ok st ∧
      st.proxyInfo = none ∧ st.clientAddr = peerAddr ∧ Readable st [0x47, 0x45, 0x54] := by
  intro peerAddr
  have hbuild : ({ policy := optionalProxy } : ConfigBuilder Empty).build =
      .ok { policy := optionalProxy } := rfl
  have huse : ({ policy := optionalProxy } : ProxyProtocolConfig Empty).policy peerAddr = .use :=
    rfl
  have henv : HasDeadline ({ policy := optionalProxy } : ProxyProtocolConfig Empty)
      ⟨0, .granted 1, 10000000000⟩ 5000000001 := ⟨1, rfl, by decide, by decide, by decide⟩
  have hdirect := (optional_direct_iff (C := .castagnoli) hbuild huse
    (show ¬v1Signature <+: 0x47 :: [0x45, 0x54] by decide) (by decide)).mpr ⟨by decide, by decide⟩
  obtain ⟨st, hst, hinfo, hpeer, hclient, hread⟩ := hdirect _
    ⟨[⟨2, [0x47, 0x45], by decide⟩, ⟨3, [0x54], by decide⟩], .eof 4⟩ _ 4 henv rfl (by decide) rfl
    (by decide)
  exact ⟨st, hst, hinfo, hclient.trans hpeer, hread⟩

/-- A direct connection that sends the letter P and closes, and one that sends
a longer request under a limit of four bytes, are refused as incomplete
headers. -/
theorem optional_direct_refused :
    let peerAddr : SocketAddr := .v4 (.new 192 0 2 9) 4000
    let env : Handshake := ⟨0, .granted 1, 10000000000⟩
    accept .castagnoli ({ policy := optionalProxy } : ProxyProtocolConfig Empty) env
        (.ok (⟨[⟨2, [0x50], by decide⟩], .eof 4⟩, peerAddr)) =
      .err (.parse .incomplete peerAddr) ∧
    accept .castagnoli ({ policy := optionalProxy, maxHeaderSize := 4 } :
        ProxyProtocolConfig Empty) env
        (.ok (⟨[⟨2, [0x50, 0x4F, 0x53, 0x54], by decide⟩, ⟨3, [0x20, 0x2F, 0x20], by decide⟩],
          .eof 4⟩, peerAddr)) =
      .err (.parse .incomplete peerAddr) := by
  decide +kernel

end Runs

end ProxyProtocol
