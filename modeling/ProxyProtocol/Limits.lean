import ProxyProtocol.Segmentation
import ProxyProtocol.V2Grammar

/-! # The limits of a handshake

How much of a peer's data, of the time and of the configured values a
handshake puts up with.

* `read_loop_bounded`: the read loop stops on every peer, also on one that
  never stops sending, after as many reads as the size limit or the longest
  header has bytes.
* `late_header_iff`: headers that come later than `header_timeout` after the
  accept are refused, unless the handshake had to wait for its permit. The
  wait and the reads have a whole `header_timeout` each.
* `validation_suffices_iff`: a configuration that `build` lets through works
  only below two limits that `build` does not look at, the permits that a
  semaphore can count and the instants that the clock can represent.
-/

namespace ProxyProtocol

open Wire

variable {E : Type} {C : Crc32c} {config : ProxyProtocolConfig E} {peerAddr : SocketAddr}

/-! ## How much is read -/

theorem incomplete_of_gated {signature buf : List UInt8}
    {inner : List UInt8 → ParseResult (ProxyInfo × ℕ)}
    (h : gated signature inner buf = .err .incomplete) :
    buf.length < signature.length ∨ signature <+: buf ∧ inner buf = .err .incomplete := by
  unfold gated at h
  split at h
  · rename_i hlt
    exact .inl hlt
  · split at h
    · rename_i hsig
      exact .inr ⟨List.prefix_iff_eq_take.mpr hsig.symm, h⟩
    · cases h

/-- A v1 header is asked for below 107 bytes. -/
theorem length_lt_v1 {rest : List UInt8} (h : parse C (0x50 :: rest) = .err .incomplete) :
    (0x50 :: rest : List UInt8).length < 107 := by
  rw [parse_v1_first] at h
  rcases incomplete_of_gated h with hshort | ⟨-, hinner⟩
  · exact Nat.lt_trans hshort (by decide)
  · rcases (parseV1_endsIn _).of_err hinner with ⟨-, hlt⟩ | hinvalid
    · exact hlt
    · exact absurd rfl hinvalid.ne.1

/-- A v2 header is asked for below its 16 and at most 65535 bytes. -/
theorem length_lt_v2 {rest : List UInt8} (h : parse C (0x0D :: rest) = .err .incomplete) :
    (0x0D :: rest : List UInt8).length < 65551 := by
  rcases incomplete_of_gated ((parse_v2_first C rest).symm.trans h) with hshort | ⟨hsig, -⟩
  · exact Nat.lt_trans hshort (by decide)
  · have hpayload : payloadLen (0x0D :: rest) ≤ 65535 := toNat_be16_le _ _
    rcases (incomplete_iff C hsig).mp h with hlt | ⟨-, hlt⟩ <;> omega

/-- The parser asks for more only on buffers shorter than the longest header. -/
theorem length_lt_of_incomplete {buf : List UInt8} (h : parse C buf = .err .incomplete) :
    buf.length < 65551 := by
  revert h
  refine parse_cases C (motive := fun buf r => r = .err .incomplete → buf.length < 65551)
    ?_ ?_ ?_ ?_ buf
  · intro _
    decide
  · intro rest h
    exact length_lt_v2 ((parse_v2_first C rest).trans h)
  · intro rest h
    exact Nat.lt_trans (length_lt_v1 ((parse_v1_first C rest).trans h)) (by decide)
  · intro b rest h
    cases h

/-- The loop of `read_and_validate` after `n` iterations against any peer:
`read` is the read of the loop, `none` when it fails. On a socket this is
`readLoop`, by `readLoop_eq_feedSteps`; here the peer need not stop sending. -/
def loopAfter {σ : Type} (C : Crc32c) (config : ProxyProtocolConfig E)
    (read : σ → Option (List UInt8 × σ)) (n : ℕ) (s : σ) :
    Progress σ UInt8 (ParseResult (ProxyInfo × ℕ)) :=
  feedSteps read (verdict C) config.maxHeaderSize n [] s

/-- The loop is over after `m` iterations, one read each, and at no time does
its buffer hold more than `m + 255` bytes. -/
structure StopsWithin {σ : Type} (C : Crc32c) (config : ProxyProtocolConfig E)
    (read : σ → Option (List UInt8 × σ)) (s : σ) (m : ℕ) : Prop where
  ends : ∃ r, ∀ n, m ≤ n → loopAfter C config read n s = .ended r
  buffer : ∀ n, (loopAfter C config read n s).buf.length ≤ m + 255

section Reads

variable {σ : Type} {read : σ → Option (List UInt8 × σ)}

theorem stopsWithin_of_bounds {live : List UInt8 → Prop} {cap : ℕ}
    (hsize : 0 < config.maxHeaderSize) (hcap : 0 < cap)
    (h : Bounds read (verdict C) live cap readChunk) {s : σ}
    (hlive : ∀ c s', read s = some (c, s') → live c) :
    StopsWithin C config read s (min config.maxHeaderSize cap) where
  ends := by
    have hpos : ([] : List UInt8).length < min config.maxHeaderSize cap :=
      Nat.lt_min.mpr ⟨hsize, hcap⟩
    exact feedSteps_ends h _ [] s hlive hpos (Nat.le_add_left _ _)
  buffer n := by
    have hlt := length_feedSteps_lt h n [] s hlive (Nat.lt_min.mpr ⟨hsize, hcap⟩)
    rw [readChunk] at hlt
    exact Nat.le_of_lt_succ hlt

/-- Every peer: the longest header has 16 and 65535 bytes. -/
theorem stopsWithin_any (hsize : 0 < config.maxHeaderSize)
    (hread : ∀ {s c s'}, read s = some (c, s') → c ≠ [] ∧ c.length ≤ readChunk) (s : σ) :
    StopsWithin C config read s (min config.maxHeaderSize 65551) := by
  have hbounds : Bounds read (verdict C) (fun _ => True) 65551 readChunk :=
    ⟨fun h => (hread h).1, fun h => (hread h).2, fun _ _ => trivial,
      fun _ hv => length_lt_of_incomplete (verdict_eq_none.mp hv)⟩
  exact stopsWithin_of_bounds hsize (by decide) hbounds fun _ _ _ => trivial

/-- A peer that begins like a v1 header. -/
theorem stopsWithin_v1 (hsize : 0 < config.maxHeaderSize)
    (hread : ∀ {s c s'}, read s = some (c, s') → c ≠ [] ∧ c.length ≤ readChunk) {s : σ}
    (hfirst : ∀ c s', read s = some (c, s') → c.head? = some 0x50) :
    StopsWithin C config read s (min config.maxHeaderSize 107) := by
  have hbounds : Bounds read (verdict C) (fun buf => buf.head? = some 0x50) 107 readChunk := by
    refine ⟨fun h => (hread h).1, fun h => (hread h).2, ?_, ?_⟩
    · intro buf c hbuf
      rw [List.head?_append, hbuf]
      rfl
    · intro buf hbuf hv
      rcases List.head?_eq_some_iff.mp hbuf with ⟨rest, rfl⟩
      exact length_lt_v1 (verdict_eq_none.mp hv)
  exact stopsWithin_of_bounds hsize (by decide) hbounds hfirst

end Reads

section Socket

variable {required : Bool} {deadline : ℕ}

theorem returns_checkHeader (info : ProxyInfo) : (checkHeader config peerAddr info).Returns := by
  unfold checkHeader
  split
  · split
    · trivial
    · split <;> trivial
  · trivial

/-- What the parser says of a buffer can be concluded from. -/
theorem returns_conclude {buf : List UInt8} {r : ParseResult (ProxyInfo × ℕ)}
    (hparse : parse C buf = r) (s : TcpStream) :
    (conclude config peerAddr required s buf r).Returns := by
  have hreturns := parse_returns C buf
  rw [hparse] at hreturns
  match r, hparse with
  | .ok (info, n), hparse =>
      have hle := (parse_settles C).le hparse
      refine (returns_checkHeader info).bind ?_
      intro _ _
      rw [Outcome.sliceFrom_of_le hle]
      trivial
  | .err .notProxyProtocol, _ => cases required <;> trivial
  | .err .incomplete, _ | .err (.invalid _), _ | .err (.crcMismatch _ _), _ => trivial

/-- What the loop ends with has an outcome. -/
theorem returns_ofFeed {limit : ℕ} (stream : TcpStream) :
    (ofFeed config peerAddr required deadline
      (feed (timedSource deadline) (verdict C) limit [] stream)).Returns := by
  have hspec := feed_spec (timedSource deadline) (verdict C) limit stream []
  cases hfeed : feed (timedSource deadline) (verdict C) limit [] stream with
  | decided r buf s =>
      rw [hfeed] at hspec
      exact returns_conclude (verdict_eq_some.mp hspec.2).1 s
  | overflow buf s => trivial
  | starved buf s => trivial

/-- On a socket the loop has returned after `m` iterations, and further ones
change nothing. -/
theorem readLoop_of_stopsWithin {m : ℕ} {stream : TcpStream}
    (h : StopsWithin C config (timedSource deadline).read stream m) {fuel : ℕ} (hfuel : m ≤ fuel) :
    ∃ r, loopAfter C config (timedSource deadline).read fuel stream = .ended r ∧
      readLoop C config peerAddr required deadline fuel stream [] =
        ofFeed config peerAddr required deadline r ∧
      r.buf.length ≤ m + 255 ∧ (ofFeed config peerAddr required deadline r).Returns ∧
      readLoop C config peerAddr required deadline fuel stream [] =
        readLoop C config peerAddr required deadline (stream.unread.length + 1) stream [] := by
  rcases h.ends with ⟨r, hr⟩
  -- far enough out both loops have ended, and in the same way
  have hfar := feedSteps_eq_feed (timedSource deadline) (verdict C) config.maxHeaderSize
    (max fuel (stream.unread.length + 1)) [] stream (Nat.le_max_right _ _)
  have hsame : r = feed (timedSource deadline) (verdict C) config.maxHeaderSize [] stream :=
    Progress.ended.inj ((hr _ (Nat.le_trans hfuel (Nat.le_max_left _ _))).symm.trans hfar)
  have hloop : readLoop C config peerAddr required deadline fuel stream [] =
      ofFeed config peerAddr required deadline r := by
    rw [readLoop_eq_feedSteps, ← loopAfter, hr fuel hfuel, ofProgress]
  have hbuf := h.buffer fuel
  rw [hr fuel hfuel] at hbuf
  refine ⟨r, hr fuel hfuel, hloop, hbuf, ?_, ?_⟩
  · rw [hsame]
    exact returns_ofFeed stream
  · rw [hloop, hsame, readLoop_eq_feed _ _ _ (Nat.lt_succ_self _)]

end Socket

/-- The header read loop is bounded against every peer. Whatever the reads
deliver, `min max_header_size 65551` of them end it, and 107 in the place of
65551 if the first byte is a `P`. Its buffer never holds 256 bytes more than
that. On a socket the loop of `read_and_validate` has therefore returned after
as many iterations, from a buffer of that size. -/
theorem read_loop_bounded (C : Crc32c) (hsize : 1 ≤ config.maxHeaderSize) :
    (∀ {σ : Type} (read : σ → Option (List UInt8 × σ)) (s : σ),
      (∀ {s c s'}, read s = some (c, s') → c ≠ [] ∧ c.length ≤ 256) →
      StopsWithin C config read s (min config.maxHeaderSize 65551) ∧
      ((∀ c s', read s = some (c, s') → c.head? = some 0x50) →
        StopsWithin C config read s (min config.maxHeaderSize 107))) ∧
    ∀ (peerAddr : SocketAddr) (required : Bool) (deadline m fuel : ℕ) (stream : TcpStream),
      m = min config.maxHeaderSize 65551 ∨
        stream.unread.head? = some 0x50 ∧ m = min config.maxHeaderSize 107 →
      m ≤ fuel →
      ∃ r, loopAfter C config (timedSource deadline).read fuel stream = .ended r ∧
        readLoop C config peerAddr required deadline fuel stream [] =
          ofFeed config peerAddr required deadline r ∧
        r.buf.length ≤ m + 255 ∧ (ofFeed config peerAddr required deadline r).Returns ∧
        readLoop C config peerAddr required deadline fuel stream [] =
          readLoop C config peerAddr required deadline (stream.unread.length + 1) stream [] := by
  constructor
  · intro σ read s hread
    exact ⟨stopsWithin_any hsize hread s, fun hfirst => stopsWithin_v1 hsize hread hfirst⟩
  · intro peerAddr required deadline m fuel stream hm hfuel
    have hread : ∀ {s c s'}, (timedSource deadline).read s = some (c, s') →
        c ≠ [] ∧ c.length ≤ readChunk :=
      fun h => ⟨(timedSource deadline).read_nonempty h, length_le_readChunk h⟩
    rcases hm with rfl | ⟨hfirst, rfl⟩
    · exact readLoop_of_stopsWithin (stopsWithin_any hsize hread stream) hfuel
    · refine readLoop_of_stopsWithin (stopsWithin_v1 hsize hread ?_) hfuel
      intro c s' h
      -- the first read is the front of what the peer sends
      rcases List.exists_cons_of_ne_nil (hread h).1 with ⟨b, rest, rfl⟩
      have hunread : stream.unread = _ := (timedSource deadline).read_pending h
      rw [hunread] at hfirst
      exact hfirst

/-- A peer that sends a v1 signature and then letters for ever, one byte at a
time. -/
theorem read_loop_bounded_endless :
    StopsWithin .castagnoli ({} : ProxyProtocolConfig Empty)
      (fun i : ℕ => some ([v1Signature.getD i 0x41], i + 1)) 0 107 := by
  refine ((@read_loop_bounded Empty {} .castagnoli (by decide)).1 _ 0 ?_).2 ?_
  · rintro i c i' ⟨⟩
    exact ⟨by simp, by simp⟩
  · rintro c i' ⟨⟩
    rfl

/-! ## How long it takes -/

theorem acquirePermit_eq_ok {env : Handshake} {t : ℕ} :
    acquirePermit config peerAddr env = .ok t ↔
      env.permit = .granted t ∧ t ≤ env.acceptedAt + config.headerTimeout.asNanos := by
  unfold acquirePermit
  cases env.permit with
  | granted t' =>
      simp only [Acquire.granted.injEq]
      split
      · rename_i htime
        rw [Outcome.ok.injEq]
        constructor
        · rintro rfl
          exact ⟨rfl, htime⟩
        · exact And.left
      · rename_i htime
        simp only [reduceCtorEq, false_iff]
        rintro ⟨rfl, htime'⟩
        exact htime htime'
  | closed t' =>
      dsimp only
      split <;> simp
  | never => simp

/-- A handshake that gives a stream had a deadline. -/
theorem exists_hasDeadline {env : Handshake} {stream : TcpStream} {required : Bool}
    {st : ProxiedStream} (h : readAndValidate C config peerAddr env stream required = .ok st) :
    ∃ deadline, HasDeadline config env deadline := by
  rcases Outcome.bind_eq_ok.mp h with ⟨t, hpermit, hrest⟩
  rcases Outcome.bind_eq_ok.mp hrest with ⟨deadline, hdeadline, -⟩
  rcases acquirePermit_eq_ok.mp hpermit with ⟨hgranted, htime⟩
  unfold handshakeDeadline at hdeadline
  split at hdeadline
  · rename_i hinstant
    exact ⟨_, t, hgranted, htime, hinstant, rfl⟩
  · cases hdeadline

/-- What the loop has collected was there by the deadline. -/
theorem arrival_of_decided {deadline limit : ℕ} {r : ParseResult (ProxyInfo × ℕ)}
    {buf' : List UInt8} {s' : TcpStream} (s : TcpStream) :
    ∀ buf : List UInt8,
      feed (timedSource deadline) (verdict C) limit buf s = .decided r buf' s' →
      ∃ m, buf'.length = buf.length + m ∧ s.arrival m ≤ deadline := by
  induction s using (timedSource deadline).induction with
  | h s ih =>
      intro buf h
      cases hread : (timedSource deadline).read s with
      | none =>
          rw [feed_starved hread] at h
          cases h
      | some p =>
          rcases p with ⟨c, t⟩
          rcases timedSource_read.mp hread with ⟨time, htime, hevent⟩
          rw [feed_read hread] at h
          cases hv : verdict C (buf ++ c) with
          | some r' =>
              rw [hv] at h
              cases h
              refine ⟨c.length, List.length_append, ?_⟩
              have hnone : s'.arrival 0 ≤ deadline := by
                rw [TcpStream.arrival, TcpStream.arrivalIn_zero]
                exact Nat.zero_le _
              exact TcpStream.arrival_of_read hevent htime hnone
          | none =>
              simp only [hv] at h
              by_cases hlen : (buf ++ c).length < limit
              · rw [if_pos hlen] at h
                rcases ih c t hread (buf ++ c) h with ⟨m, hm, harrival⟩
                refine ⟨c.length + m, ?_, TcpStream.arrival_of_read hevent htime harrival⟩
                rw [hm, List.length_append, Nat.add_assoc]
              · rw [if_neg hlen] at h
                cases h

/-- The bytes of a stream in front of those that are still to be delivered:
the header. -/
def headerLength (stream : TcpStream) (st : ProxiedStream) : ℕ :=
  stream.unread.length - st.undelivered.length

theorem headerLength_new {stream s : TcpStream} {buf : List UInt8} {n : ℕ} (hn : n ≤ buf.length)
    (hbytes : buf ++ s.unread = stream.unread) (info : Option ProxyInfo) :
    headerLength stream (.new s (buf.drop n) info peerAddr) = n := by
  rw [headerLength, ProxiedStream.undelivered_new, ← hbytes, List.length_append,
    List.length_append, List.length_drop]
  omega

/-- The permit was granted in time but not at once, and the clock can
represent the deadline that is counted from there. -/
def PermitWaits (config : ProxyProtocolConfig E) (env : Handshake) : Prop :=
  ∃ t, env.permit = .granted t ∧ env.acceptedAt < t ∧
    t ≤ env.acceptedAt + config.headerTimeout.asNanos ∧
    t + config.headerTimeout.asNanos ≤ env.maxInstant

/-- Some header gets through: the policy has headers read, and there is one
that fits and passes the checks. -/
def AdmitsHeader (C : Crc32c) (config : ProxyProtocolConfig E) (peerAddr : SocketAddr) : Prop :=
  (config.policy peerAddr = .require ∨ config.policy peerAddr = .use) ∧
    ∃ sent info n, parse C sent = .ok (info, n) ∧ checkHeader config peerAddr info = .ok () ∧
      n < max config.maxHeaderSize 1 + 256

/-- An accepted header, the deadline of its handshake, and its arrival. -/
theorem of_accept_header {env : Handshake} {stream : TcpStream} {st : ProxiedStream}
    {info : ProxyInfo} (h : accept C config env (.ok (stream, peerAddr)) = .ok st)
    (hinfo : st.proxyInfo = some info) :
    AdmitsHeader C config peerAddr ∧ ∃ deadline, HasDeadline config env deadline ∧
      stream.arrival (headerLength stream st) ≤ deadline := by
  rcases accept_eq_ok.mp h with ⟨-, rfl⟩ | ⟨hpolicy, hok⟩
  · cases hinfo
  · rcases exists_hasDeadline hok with ⟨deadline, henv⟩
    rw [readAndValidate_eq_feed henv] at hok
    rcases decided_of_ofFeed hok with ⟨r, buf, s, hfeed, hconclude⟩
    have hspec := feed_spec (timedSource deadline) (verdict C) config.maxHeaderSize stream []
    rw [hfeed] at hspec
    rcases hspec with ⟨hbytes, hverdict⟩
    rcases verdict_eq_some.mp hverdict with ⟨hparse, -⟩
    rcases conclude_eq_ok.mp hconclude with ⟨info, n, rfl, hcheck, hle, rfl⟩ | ⟨-, -, rfl⟩
    · have hlen := length_lt_of_decided (fun hread => length_le_readChunk hread) stream []
        (by simp) hfeed
      rcases arrival_of_decided stream [] hfeed with ⟨m, hm, harrival⟩
      rw [List.length_nil, Nat.zero_add] at hm
      refine ⟨⟨hpolicy, buf, info, n, hparse, hcheck, Nat.lt_of_le_of_lt hle hlen⟩, deadline,
        henv, ?_⟩
      rw [headerLength_new hle hbytes]
      exact Nat.le_trans (TcpStream.arrivalIn_mono (hm ▸ hle) _) harrival
    · cases hinfo

/-- A peer that sends a header at the last moment. -/
theorem exists_late_header {env : Handshake} (hwaits : PermitWaits config env)
    (hadmits : AdmitsHeader C config peerAddr) :
    ∃ stream st info, (∀ seg ∈ stream.incoming, env.acceptedAt ≤ seg.readyAt) ∧
      accept C config env (.ok (stream, peerAddr)) = .ok st ∧ st.proxyInfo = some info ∧
      env.acceptedAt + config.headerTimeout.asNanos <
        stream.arrival (headerLength stream st) := by
  rcases hwaits with ⟨t, hpermit, hlate, htime, hinstant⟩
  rcases hadmits with ⟨hpolicy, sent, info, n, hparse, hcheck, hnear⟩
  have henv : HasDeadline config env (t + config.headerTimeout.asNanos) :=
    ⟨t, hpermit, htime, hinstant, rfl⟩
  have hpos : 0 < n := by
    by_contra hzero
    have hnil := (parse_settles C).take hparse 0
    rw [if_neg hzero] at hnil
    cases hnil
  rcases exists_delivery hparse hpos hnear env.acceptedAt (t + config.headerTimeout.asNanos) with
      ⟨stream, hsent, harrival, hready, hfeed⟩
  rcases hfeed (t + config.headerTimeout.asNanos) (by omega) (Nat.le_refl _) with ⟨s, hs⟩
  have hspec := feed_spec (timedSource (t + config.headerTimeout.asNanos)) (verdict C)
    config.maxHeaderSize stream []
  rw [hs] at hspec
  have hle : n ≤ (sent.take n).length :=
    Nat.le_of_eq (List.length_take_of_le ((parse_settles C).le hparse)).symm
  refine ⟨stream, .new s ((sent.take n).drop n) (some info) peerAddr, info, ?_, ?_, rfl, ?_⟩
  · intro seg hmem
    rcases hready seg hmem with heq | heq <;> omega
  · refine accept_eq_ok.mpr (.inr ⟨hpolicy, ?_⟩)
    rw [readAndValidate_eq_feed henv, hs, ofFeed]
    exact conclude_eq_ok.mpr (.inl ⟨info, n, rfl, hcheck, hle, rfl⟩)
  · rw [headerLength_new hle hspec.1]
    omega

/-- Every header that `accept` hands on was there within `header_timeout` of
the accept iff the handshake does not have to wait for its permit, or no
header gets through at all. -/
theorem late_header_iff (C : Crc32c) (config : ProxyProtocolConfig E) (env : Handshake)
    (peerAddr : SocketAddr) :
    (∀ stream st info, (∀ seg ∈ stream.incoming, env.acceptedAt ≤ seg.readyAt) →
      accept C config env (.ok (stream, peerAddr)) = .ok st → st.proxyInfo = some info →
      stream.arrival (headerLength stream st) ≤
        env.acceptedAt + config.headerTimeout.asNanos) ↔
    ¬(PermitWaits config env ∧ AdmitsHeader C config peerAddr) := by
  constructor
  · rintro hall ⟨hwaits, hadmits⟩
    rcases exists_late_header hwaits hadmits with ⟨stream, st, info, hready, hok, hinfo, hlate⟩
    have hle := hall stream st info hready hok hinfo
    omega
  · intro hnot stream st info _ hok hinfo
    rcases of_accept_header hok hinfo with
        ⟨hadmits, deadline, ⟨t, hpermit, htime, hinstant, rfl⟩, harrival⟩
    -- without a wait the deadline is counted from the accept
    have hprompt : t ≤ env.acceptedAt := by
      by_contra hlate
      exact hnot ⟨⟨t, hpermit, Nat.not_le.mp hlate, htime, hinstant⟩, hadmits⟩
    omega

/-- With one permit, which another handshake holds for four of the five
seconds, a header that comes in the ninth second is accepted. -/
theorem late_header_contended :
    let config : ProxyProtocolConfig Empty := { maxPendingHandshakes := 1 }
    let env : Handshake := ⟨0, .granted 4000000000, 100000000000⟩
    let peerAddr : SocketAddr := .v4 (.new 10 1 2 3) 4000
    let info : ProxyInfo := ⟨.v2, .proxy, some ⟨.inet, .stream⟩,
      some (.inet (.v4 (.new 192 0 2 1) 56324)), some (.inet (.v4 (.new 198 51 100 7) 443)), {}⟩
    let stream : TcpStream := ⟨[⟨9000000000, v2Signature ++
      [0x21, 0x11, 0, 12, 192, 0, 2, 1, 198, 51, 100, 7, 220, 4, 1, 187], by decide⟩], .silent⟩
    let st : ProxiedStream := .new ⟨[], .silent⟩ [] (some info) peerAddr
    accept .castagnoli config env (.ok (stream, peerAddr)) = .ok st ∧
      headerLength stream st = 28 ∧ stream.arrival 28 = 9000000000 ∧
      env.acceptedAt + config.headerTimeout.asNanos = 5000000000 := by
  decide +kernel

/-! ## What the configuration allows -/

theorem returns_listener_new {L : Type} (listener : L) :
    (ProxyProtocolListener.new listener config : Outcome Empty _).Returns ↔
      config.maxPendingHandshakes ≤ Semaphore.maxPermits := by
  unfold ProxyProtocolListener.new Semaphore.new
  split
  · rename_i hle
    exact iff_of_true trivial hle
  · rename_i hgt
    exact iff_of_false id hgt

theorem returns_handshakeDeadline {env : Handshake} {now : ℕ} :
    (handshakeDeadline config env now).Returns ↔
      now + config.headerTimeout.asNanos ≤ env.maxInstant := by
  unfold handshakeDeadline
  split
  · rename_i hle
    exact iff_of_true trivial hle
  · rename_i hgt
    exact iff_of_false id hgt

/-- A configuration that passes `build` makes a listener, and a deadline at
time `now`, iff the last number of handshakes it was given can be counted by a
semaphore and the last timeout, from `now`, ends at an instant that the clock
can represent. -/
theorem validation_suffices_iff {L : Type} {setters : List (Setter E)}
    (hbuild : (ProxyProtocolConfig.builder.calls setters).build = .ok config) (listener : L)
    (env : Handshake) (now : ℕ) :
    (ProxyProtocolListener.new listener config : Outcome Empty _).Returns ∧
        (handshakeDeadline config env now).Returns ↔
      lastArg Setter.pendingArg 1024 setters ≤ Semaphore.maxPermits ∧
        now + (lastArg Setter.timeoutArg (.fromSecs 5) setters).asNanos ≤ env.maxInstant := by
  rcases ConfigBuilder.build_eq_ok.mp hbuild with ⟨-, -, -, rfl⟩
  rw [returns_listener_new, returns_handshakeDeadline]
  dsimp only
  rw [headerTimeout_calls, maxPendingHandshakes_calls]
  rfl

/-- Thirty seconds and as many handshakes as can be counted, set after a number
that cannot. -/
theorem validation_suffices_last :
    let config : ProxyProtocolConfig Empty :=
      { headerTimeout := .fromSecs 30, maxPendingHandshakes := Semaphore.maxPermits }
    (ProxyProtocolListener.new () config : Outcome Empty _).Returns ∧
      (handshakeDeadline config ⟨0, .granted 7, 9223372036854775807999999999⟩ 7).Returns := by
  intro config
  have hbuild : (ProxyProtocolConfig.builder.calls [.maxPendingHandshakes Outcome.usizeMax,
      .headerTimeout (.fromSecs 30), .maxPendingHandshakes Semaphore.maxPermits] :
        ConfigBuilder Empty).build = .ok config := rfl
  exact (validation_suffices_iff hbuild () _ 7).mpr ⟨by decide, by decide⟩

/-- Settings that mean "no limit" pass `build`. As a number of handshakes the
largest `usize` panics when the listener is made, and as a timeout the longest
duration panics at every handshake. -/
theorem validation_no_limit :
    let many : ConfigBuilder Empty :=
      ProxyProtocolConfig.builder.calls [.maxPendingHandshakes Outcome.usizeMax]
    let long : ConfigBuilder Empty :=
      ProxyProtocolConfig.builder.calls [.headerTimeout ⟨18446744073709551615, 999999999⟩]
    (∃ config, many.build = .ok config ∧
      (ProxyProtocolListener.new () config : Outcome Empty _) = .panic) ∧
    ∃ config, long.build = .ok config ∧ ∀ now permit,
      handshakeDeadline config ⟨0, permit, 9223372036854775807999999999⟩ now = .panic := by
  intro many long
  refine ⟨⟨_, rfl, ?_⟩, ⟨_, rfl, ?_⟩⟩
  · have hnew : (Semaphore.new Outcome.usizeMax : Outcome Empty _) = .panic :=
      if_neg (by decide)
    exact congrArg (· >>= _) hnew
  · intro now permit
    have hlong : 9223372036854775807999999999 <
        (⟨18446744073709551615, 999999999⟩ : Duration).asNanos := by decide
    exact if_neg (Nat.not_le.mpr (Nat.lt_of_lt_of_le hlong (Nat.le_add_left _ now)))

end ProxyProtocol
