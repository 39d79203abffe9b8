import ProxyProtocol.Limits

/-! # The outcome of a handshake

What a handshake ends with, by what the peer sends and when it arrives.

* `handshake_outcome`: the outcome of every handshake whose verdict, if there
  is one, falls inside the limit: with the verdict if the bytes it takes are
  there in time, with a timeout if they are not, and without a verdict by the
  way the peer ends.
* `leftover_small`: the handshake reads less than one chunk past a header.
* `accept_returns_iff`: the one way for `accept` to panic.
-/

namespace ProxyProtocol

open Wire

/-! ## Data that is late -/

section Loop

variable {E : Type} {C : Crc32c} {config : ProxyProtocolConfig E} {peerAddr : SocketAddr}
  {required : Bool} {env : Handshake} {deadline limit : ℕ}

/-- A stream whose next data comes after the deadline. -/
def TooLate (deadline : ℕ) (s : TcpStream) : Prop :=
  ∃ t bytes rest, s.read readChunk = .data t bytes rest ∧ deadline < t

theorem starvedError_of_tooLate {s : TcpStream} (h : TooLate deadline s) (buf : List UInt8) :
    (starvedError peerAddr deadline buf s : AcceptError E) = .headerTimeout peerAddr := by
  rcases h with ⟨t, bytes, rest, hread, -⟩
  rw [starvedError, hread]

/-- The loop while the parser asks for more and the limit is not reached: if
the bytes it takes are not there in time, it ends where the first late one is
waited for. -/
theorem feed_late (s : TcpStream) :
    ∀ (buf : List UInt8) (n : ℕ), n ≤ s.unread.length →
      (∀ k < n, 0 < k → verdict C (buf ++ s.unread.take k) = none ∧ buf.length + k < limit) →
      deadline < s.arrival n →
      ∃ buf' s', feed (timedSource deadline) (verdict C) limit buf s = .starved buf' s' ∧
        TooLate deadline s' := by
  induction s using (timedSource deadline).induction with
  | h s ih =>
      intro buf n hn hasks hlate
      have hpos : 0 < n := by
        by_contra hzero
        rw [Nat.eq_zero_of_not_pos hzero, TcpStream.arrival, TcpStream.arrivalIn_zero] at hlate
        exact absurd hlate (Nat.not_lt_zero _)
      have hne : s.unread ≠ [] := List.length_pos_iff.mp (Nat.lt_of_lt_of_le hpos hn)
      rcases TcpStream.exists_read hne readChunk with ⟨t, c, s', hevent⟩
      by_cases ht : t ≤ deadline
      · have hread : (timedSource deadline).read s = some (c, s') :=
          timedSource_read.mpr ⟨t, ht, hevent⟩
        have hlate' : deadline < s'.arrival (n - c.length) := by
          by_contra hle
          exact absurd ((TcpStream.arrival_le_iff hevent hpos).mpr ⟨ht, Nat.not_lt.mp hle⟩)
            (Nat.not_le.mpr hlate)
        -- so the read was not the last one needed
        have hmore : c.length < n := by
          by_contra hle
          rw [Nat.sub_eq_zero_of_le (Nat.not_lt.mp hle), TcpStream.arrival,
            TcpStream.arrivalIn_zero] at hlate'
          exact absurd hlate' (Nat.not_lt_zero _)
        have hsplit : s.unread = c ++ s'.unread := (TcpStream.unread_of_read hevent).1
        have hc := List.length_pos_iff.mpr ((timedSource deadline).read_nonempty hread)
        have hstep := hasks c.length hmore hc
        rw [hsplit, List.take_left] at hstep
        rw [feed_more hread hstep.1 (by rw [List.length_append]; exact hstep.2)]
        refine ih c s' hread (buf ++ c) (n - c.length) ?_ ?_ hlate'
        · rw [hsplit, List.length_append] at hn
          omega
        · intro k hk hkpos
          have hnext := hasks (c.length + k) (by omega) (by omega)
          rw [hsplit, List.take_length_add_append, ← List.append_assoc] at hnext
          rw [List.length_append]
          exact ⟨hnext.1, by omega⟩
      · refine ⟨buf, s, feed_starved ?_, t, c, s', hevent, Nat.not_le.mp ht⟩
        cases hread : (timedSource deadline).read s with
        | none => rfl
        | some q =>
            rcases timedSource_read.mp hread with ⟨t', ht', hevent'⟩
            rw [hevent] at hevent'
            cases hevent'
            exact absurd ht' ht

/-! ## The outcome -/

/-- How a handshake ends that gets no verdict: by a timeout, unless all data
and then the end of the stream are there in time. -/
def ending (peerAddr : SocketAddr) (deadline : ℕ) (stream : TcpStream) : AcceptError E :=
  if stream.arrival stream.unread.length ≤ deadline then
    match stream.closing with
    | .silent => .headerTimeout peerAddr
    | .eof t =>
        if t ≤ deadline then
          if stream.unread.isEmpty then .emptyConnection peerAddr
          else .parse .incomplete peerAddr
        else .headerTimeout peerAddr
    | .failed t e => if t ≤ deadline then .io e else .headerTimeout peerAddr
  else .headerTimeout peerAddr

theorem timedSource_nil (closing : Closing) :
    (timedSource deadline).read ⟨[], closing⟩ = none := by
  cases closing <;> rfl

theorem starvedError_drained {closing : Closing} {incoming : List Segment}
    (hready : (⟨incoming, closing⟩ : TcpStream).ReadyBy deadline) :
    (starvedError peerAddr deadline (incoming.flatMap Segment.bytes) ⟨[], closing⟩ :
        AcceptError E) =
      ending peerAddr deadline ⟨incoming, closing⟩ := by
  rw [ending, if_pos (TcpStream.arrival_unread_le_iff.mpr hready), starvedError]
  cases closing <;> rfl

/-- A handshake without a verdict below the limit. -/
theorem readAndValidate_undecided (henv : HasDeadline config env deadline) {stream : TcpStream}
    (hundecided : ∀ q ≤ stream.unread.length,
      parse C (stream.unread.take q) = .err .incomplete)
    (hlimit : stream.unread.length < max config.maxHeaderSize 1) :
    readAndValidate C config peerAddr env stream required =
      .err (ending peerAddr deadline stream) := by
  have hverdict : ∀ k, verdict C (stream.unread.take k) = none := by
    intro k
    by_cases hk : k ≤ stream.unread.length
    · exact verdict_eq_none.mpr (hundecided k hk)
    · have hall := hundecided _ (Nat.le_refl _)
      rw [List.take_length] at hall
      rw [List.take_of_length_le (by omega)]
      exact verdict_eq_none.mpr hall
  have hasks : ∀ k < stream.unread.length, 0 < k →
      verdict C ([] ++ stream.unread.take k) = none ∧
        ([] : List UInt8).length + k < config.maxHeaderSize := by
    intro k hk hkpos
    rw [List.nil_append, List.length_nil]
    exact ⟨hverdict k, by omega⟩
  rw [readAndValidate_eq_feed henv]
  by_cases hready : stream.arrival stream.unread.length ≤ deadline
  · rcases stream with ⟨incoming, closing⟩
    have hall := TcpStream.arrival_unread_le_iff.mp hready
    have hfeed : feed (timedSource deadline) (verdict C) config.maxHeaderSize []
        ⟨incoming ++ [], closing⟩ =
        feed (timedSource deadline) (verdict C) config.maxHeaderSize
          ([] ++ incoming.flatMap Segment.bytes) ⟨[], closing⟩ := by
      refine feed_segments [] closing rfl [] hall ?_
      intro k hk
      have hk' : k < (⟨incoming, closing⟩ : TcpStream).unread.length := hk
      rw [List.nil_append, List.length_nil]
      exact ⟨hverdict (k + 1), by omega⟩
    rw [List.append_nil, List.nil_append] at hfeed
    rw [hfeed, feed_starved (timedSource_nil closing), ofFeed, starvedError_drained hall]
  · rcases feed_late stream [] _ (Nat.le_refl _) hasks (Nat.not_le.mp hready) with
      ⟨buf, s, hfeed, htoo⟩
    rw [hfeed, ofFeed, starvedError_of_tooLate htoo, ending, if_neg hready]

theorem observe_readAndValidate (henv : HasDeadline config env deadline) {stream : TcpStream}
    {p : ℕ} {r : ParseResult (ProxyInfo × ℕ)}
    (hfirst : FirstVerdict (verdict C) stream.unread p r) (hlimit : p ≤ config.maxHeaderSize) :
    observe (readAndValidate C config peerAddr env stream required) =
      if stream.arrival p ≤ deadline then oneShot config peerAddr required stream.unread r
      else .err (.headerTimeout peerAddr) := by
  by_cases hintime : stream.arrival p ≤ deadline
  · rcases readAndValidate_in_time henv hfirst hlimit hintime with ⟨buf, s, hbytes, hparse, hresult⟩
    rw [hresult, observe_conclude hparse, hbytes, if_pos hintime]
  · have hasks : ∀ k < p, 0 < k → verdict C ([] ++ stream.unread.take k) = none ∧
        ([] : List UInt8).length + k < config.maxHeaderSize := by
      intro k hk _
      rw [List.nil_append, List.length_nil]
      exact ⟨hfirst.undecided k hk, by omega⟩
    rcases feed_late stream [] p hfirst.le hasks (Nat.not_le.mp hintime) with
      ⟨buf, s, hfeed, htoo⟩
    rw [readAndValidate_eq_feed henv, hfeed, ofFeed, starvedError_of_tooLate htoo, if_neg hintime]
    rfl

/-- Every handshake, by the peer's bytes and the times at which they arrive.
If the shortest decided prefix of what the peer sends lies within
`max_header_size`, then the outcome is that of parsing this prefix when its
last byte is there by the deadline, and a timeout when it is not; when later
bytes come, and how the stream ends, does not matter. If no prefix is decided
and all of it is below the limit, then the handshake ends as the stream does,
provided that this is in time. -/
theorem handshake_outcome (henv : HasDeadline config env deadline) (stream : TcpStream) :
    (∀ p ≤ stream.unread.length,
      (∀ q < p, parse C (stream.unread.take q) = .err .incomplete) →
      parse C (stream.unread.take p) ≠ .err .incomplete → p ≤ config.maxHeaderSize →
      observe (readAndValidate C config peerAddr env stream required) =
        if stream.arrival p ≤ deadline then
          oneShot config peerAddr required stream.unread (parse C (stream.unread.take p))
        else .err (.headerTimeout peerAddr)) ∧
    ((∀ q ≤ stream.unread.length, parse C (stream.unread.take q) = .err .incomplete) →
      stream.unread.length < max config.maxHeaderSize 1 →
      readAndValidate C config peerAddr env stream required =
        .err (ending peerAddr deadline stream)) := by
  constructor
  · intro p hp hbefore hdecided hlimit
    have hfirst : FirstVerdict (verdict C) stream.unread p (parse C (stream.unread.take p)) :=
      ⟨hp, fun q hq => verdict_eq_none.mpr (hbefore q hq), verdict_eq_some.mpr ⟨rfl, hdecided⟩⟩
    exact observe_readAndValidate henv hfirst hlimit
  · intro hundecided hlimit
    exact readAndValidate_undecided henv hundecided hlimit

/-- A header in two segments, of which the second comes a moment too late; and
half a header and then the end of the stream. -/
theorem handshake_outcome_late :
    let config : ProxyProtocolConfig Empty := { headerTimeout := ⟨0, 100⟩ }
    let peerAddr : SocketAddr := .v4 (.new 10 1 2 3) 4000
    let late : TcpStream := ⟨[⟨3, v2Signature, by decide⟩, ⟨102, [0x20, 0, 0, 0], by decide⟩],
      .silent⟩
    let half : TcpStream := ⟨[⟨3, v2Signature, by decide⟩], .eof 101⟩
    observe (readAndValidate .castagnoli config peerAddr ⟨0, .granted 1, 1000⟩ late true) =
        .err (.headerTimeout peerAddr) ∧
      readAndValidate .castagnoli config peerAddr ⟨0, .granted 1, 1000⟩ half true =
        .err (.parse .incomplete peerAddr) := by
  intro config peerAddr late half
  have henv : HasDeadline config ⟨0, .granted 1, 1000⟩ 101 :=
    ⟨1, rfl, by decide, by decide, by decide⟩
  constructor
  · rw [(handshake_outcome henv late).1 16 (by decide) (by decide) (by decide) (by decide)]
    rfl
  · rw [(handshake_outcome henv half).2 (by decide) (by decide)]
    rfl

/-! ## How much is read ahead -/

/-- The last read before a verdict was made on a buffer without one. -/
theorem last_read_of_decided {r : ParseResult (ProxyInfo × ℕ)} {buf' : List UInt8}
    {s s' : TcpStream}
    (h : feed (timedSource deadline) (verdict C) limit [] s = .decided r buf' s') :
    ∃ before c, buf' = before ++ c ∧ verdict C before = none ∧ c.length ≤ readChunk := by
  let P (buf : List UInt8) (_ : TcpStream) : Prop :=
    ∃ before c, buf = before ++ c ∧ verdict C before = none ∧ c.length ≤ readChunk
  have hstart : P [] s := ⟨[], [], rfl, rfl, Nat.zero_le _⟩
  refine feed_keeps (P := P) ?_ s [] hstart rfl h
  intro buf s c s' _ hnone hread
  exact ⟨buf, c, rfl, hnone, length_le_readChunk hread⟩

/-- Behind a signature no connection is taken for a direct one, so the parser
waits no longer than for the signature to find that out. -/
theorem length_lt_of_gated {signature before c : List UInt8}
    {inner : List UInt8 → ParseResult (ProxyInfo × ℕ)}
    (hinner : ∀ buf, inner buf ≠ .err .notProxyProtocol)
    (hasks : gated signature inner before = .err .incomplete)
    (hdirect : gated signature inner (before ++ c) = .err .notProxyProtocol) :
    before.length < signature.length := by
  rcases incomplete_of_gated hasks with hshort | ⟨hsig, -⟩
  · exact hshort
  · have hlen : signature.length ≤ (before ++ c).length := by
      rw [List.length_append]
      exact Nat.le_trans hsig.length_le (Nat.le_add_right _ _)
    have htake : (before ++ c).take signature.length = signature :=
      (List.prefix_iff_eq_take.mp (hsig.trans (List.prefix_append _ _))).symm
    rw [gated, if_neg (Nat.not_lt.mpr hlen), if_pos htake] at hdirect
    exact absurd hdirect (hinner _)

theorem length_lt_of_direct {before c : List UInt8} (hasks : parse C before = .err .incomplete)
    (hdirect : parse C (before ++ c) = .err .notProxyProtocol) : before.length < 12 := by
  cases before with
  | nil => simp
  | cons b rest =>
      rw [List.cons_append] at hdirect
      by_cases hv2 : b = 0x0D
      · subst hv2
        rw [parse_v2_first] at hasks hdirect
        refine length_lt_of_gated ?_ hasks hdirect
        intro buf h
        exact absurd rfl ((parseV2_endsIn C buf).of_err h)
      · by_cases hv1 : b = 0x50
        · subst hv1
          rw [parse_v1_first] at hasks hdirect
          refine Nat.lt_trans (length_lt_of_gated ?_ hasks hdirect) (by decide)
          intro buf h
          rcases (parseV1_endsIn buf).of_err h with ⟨hincomplete, -⟩ | hinvalid
          · cases hincomplete
          · exact absurd rfl hinvalid.ne.2
        · rw [parse_other_first C rest hv2 hv1] at hasks
          cases hasks

/-- The handshake reads less than one chunk past the header: behind a header
at most 255 bytes are held for the application, and without one at most 267,
what is read until a signature can be told. -/
theorem leftover_small {stream : TcpStream} {st : ProxiedStream}
    (h : accept C config env (.ok (stream, peerAddr)) = .ok st) :
    (st.proxyInfo ≠ none → st.leftover.data.length ≤ 255) ∧ st.leftover.data.length ≤ 267 := by
  rcases accept_eq_ok.mp h with ⟨-, rfl⟩ | ⟨-, hok⟩
  · exact ⟨fun _ => Nat.zero_le _, Nat.zero_le _⟩
  · rcases exists_hasDeadline hok with ⟨deadline, henv⟩
    rw [readAndValidate_eq_feed henv] at hok
    rcases decided_of_ofFeed hok with ⟨r, buf, s, hfeed, hconclude⟩
    have hspec := feed_spec (timedSource deadline) (verdict C) config.maxHeaderSize stream []
    rw [hfeed] at hspec
    rcases verdict_eq_some.mp hspec.2 with ⟨hparse, -⟩
    rcases last_read_of_decided hfeed with ⟨before, c, rfl, hnone, hchunk⟩
    have hasks := verdict_eq_none.mp hnone
    rw [readChunk] at hchunk
    rcases conclude_eq_ok.mp hconclude with ⟨info, n, rfl, -, -, rfl⟩ | ⟨rfl, -, rfl⟩
    · -- before its last read the header was not complete
      have hshort : before.length < n := by
        by_contra hlong
        have hcut := (parse_settles C).take hparse before.length
        rw [List.take_left, if_neg hlong, hasks] at hcut
        cases hcut
      have hlen : ((before ++ c).drop n).length ≤ 255 := by
        rw [List.length_drop, List.length_append]
        omega
      exact ⟨fun _ => hlen, Nat.le_trans hlen (by decide)⟩
    · have hshort := length_lt_of_direct hasks hparse
      refine ⟨fun hinfo => absurd rfl hinfo, ?_⟩
      have hlen : (before ++ c).length ≤ 267 := by
        rw [List.length_append]
        omega
      exact hlen

/-- A LOCAL header with 300 bytes behind it, all in one segment: the read that
completes the header takes 256 of the 316 bytes. -/
theorem leftover_small_one_segment :
    let stream : TcpStream :=
      ⟨[⟨2, v2Signature ++ [0x20, 0, 0, 0] ++ List.replicate 300 0x47,
        List.cons_ne_nil _ _⟩], .silent⟩
    let st : ProxiedStream := .new ⟨[⟨2, List.replicate 60 0x47, List.cons_ne_nil _ _⟩], .silent⟩
      (List.replicate 240 0x47) (some ⟨.v2, .local, none, none, none, {}⟩)
      (.v4 (.new 10 1 2 3) 4000)
    accept .castagnoli ({} : ProxyProtocolConfig Empty) ⟨0, .granted 1, 10000000000⟩
        (.ok (stream, .v4 (.new 10 1 2 3) 4000)) = .ok st ∧ st.leftover.data.length ≤ 255 := by
  intro stream st
  have haccept : accept .castagnoli ({} : ProxyProtocolConfig Empty)
      ⟨0, .granted 1, 10000000000⟩ (.ok (stream, .v4 (.new 10 1 2 3) 4000)) = .ok st := by
    decide +kernel
  exact ⟨haccept, (leftover_small haccept).1 (Option.some_ne_none _)⟩

/-! ## When there is one -/

theorem returns_acquirePermit (env : Handshake) :
    (acquirePermit config peerAddr env).Returns := by
  unfold acquirePermit
  split
  · split <;> trivial
  · split <;> trivial
  · trivial

theorem returns_readAndValidate (henv : HasDeadline config env deadline) (stream : TcpStream) :
    (readAndValidate C config peerAddr env stream required).Returns := by
  rw [readAndValidate_eq_feed henv]
  exact returns_ofFeed stream

theorem returns_readAndValidate_iff (stream : TcpStream) (required : Bool) :
    (readAndValidate C config peerAddr env stream required).Returns ↔
      ¬∃ t, env.permit = .granted t ∧ t ≤ env.acceptedAt + config.headerTimeout.asNanos ∧
        env.maxInstant < t + config.headerTimeout.asNanos := by
  by_cases hgranted : ∃ t, acquirePermit config peerAddr env = .ok t
  · rcases hgranted with ⟨t, hacquire⟩
    rcases acquirePermit_eq_ok.mp hacquire with ⟨hpermit, htime⟩
    by_cases hclock : t + config.headerTimeout.asNanos ≤ env.maxInstant
    · refine iff_of_true (returns_readAndValidate ⟨t, hpermit, htime, hclock, rfl⟩ stream) ?_
      rintro ⟨t', hpermit', -, hlt⟩
      rw [hpermit] at hpermit'
      cases hpermit'
      omega
    · refine iff_of_false ?_ (not_not_intro ⟨t, hpermit, htime, Nat.not_le.mp hclock⟩)
      rw [readAndValidate, hacquire, Outcome.ok_bind, handshakeDeadline, if_neg hclock]
      exact id
  · -- without a permit the handshake ends with an error
    have herr : (readAndValidate C config peerAddr env stream required).Returns := by
      refine (returns_acquirePermit env).bind ?_
      intro t ht
      exact absurd ⟨t, ht⟩ hgranted
    refine iff_of_true herr ?_
    rintro ⟨t, hpermit, htime, -⟩
    exact hgranted ⟨t, acquirePermit_eq_ok.mpr ⟨hpermit, htime⟩⟩

theorem accept_of_handshake {stream : TcpStream}
    (hpolicy : config.policy peerAddr = .require ∨ config.policy peerAddr = .use) :
    accept C config env (.ok (stream, peerAddr)) =
      readAndValidate C config peerAddr env stream (config.policy peerAddr == .require) := by
  rcases hpolicy with hpolicy | hpolicy <;> simp only [accept, hpolicy]

/-- Without a handshake the policy alone decides. -/
theorem returns_accept_of_policy {stream : TcpStream}
    (hpolicy : ¬(config.policy peerAddr = .require ∨ config.policy peerAddr = .use)) :
    (accept C config env (.ok (stream, peerAddr))).Returns := by
  simp only [accept]
  cases hdecision : config.policy peerAddr with
  | reject => trivial
  | ignore => trivial
  | require => exact absurd (.inl hdecision) hpolicy
  | use => exact absurd (.inr hdecision) hpolicy

/-- A call of `accept` returns, with a stream or an error, whatever the peer
sends and whenever, unless it has to shake hands and gets its permit at a time
from which the clock cannot represent the deadline. -/
theorem accept_returns_iff (C : Crc32c) (config : ProxyProtocolConfig E) (env : Handshake)
    (incoming : Except IoError (TcpStream × SocketAddr)) :
    (accept C config env incoming).Returns ↔
      ¬∃ stream peerAddr t, incoming = .ok (stream, peerAddr) ∧
        (config.policy peerAddr = .require ∨ config.policy peerAddr = .use) ∧
        env.permit = .granted t ∧ t ≤ env.acceptedAt + config.headerTimeout.asNanos ∧
        env.maxInstant < t + config.headerTimeout.asNanos := by
  rcases incoming with e | ⟨stream, peerAddr⟩
  · exact iff_of_true trivial (by simp)
  · by_cases hpolicy : config.policy peerAddr = .require ∨ config.policy peerAddr = .use
    · rw [accept_of_handshake hpolicy, returns_readAndValidate_iff]
      refine not_congr ⟨?_, ?_⟩
      · rintro ⟨t, ht⟩
        exact ⟨stream, peerAddr, t, rfl, hpolicy, ht⟩
      · rintro ⟨_, _, t, ⟨⟩, -, ht⟩
        exact ⟨t, ht⟩
    · refine iff_of_true (returns_accept_of_policy hpolicy) ?_
      rintro ⟨_, _, _, ⟨⟩, h, -⟩
      exact hpolicy h

end Loop

end ProxyProtocol
