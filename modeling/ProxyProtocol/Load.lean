import ProxyProtocol.Axum

/-! # A listener under load

What peers can do that connect and then say nothing, or too little. They take
permits, and they hold up a caller that makes one call after the other.

* `turned_away_only_when_full`: a call fails for want of a permit only if, when
  its timeout is over, `max_pending_handshakes` other calls hold one; and while
  fewer do, it gets its permit at the next poll.
* `stalled_peers_block`: in front of the adapter for axum each such peer holds
  up the ones behind it by the header timeout, however many permits are free.
-/

namespace ProxyProtocol

open Wire

variable {E : Type} {C : Crc32c} {config : ProxyProtocolConfig E} {maxInstant : ℕ}

/-! ## At the semaphore -/

section Semaphore

variable {s s' : Shared} {c c' : Call E}

/-- A call that has to shake hands starts at the semaphore. -/
theorem phase_start {peerAddr : SocketAddr} (h : Handshakes config peerAddr) (now : ℕ)
    (stream : TcpStream) : (Call.start config now stream peerAddr).phase = .waiting := by
  rcases h with h | h <;> simp [Call.start, h]

/-- A step that ends a call at the semaphore. -/
theorem unserved_of_step (h : (concurrent C config maxInstant).step s c s' c')
    {result : AcceptResult E ProxiedStream} (hphase : c'.phase = .returned .never result) :
    c = { c' with phase := .waiting } ∧ s.semaphore.permits = 0 ∧
      c'.acceptedAt + config.headerTimeout.asNanos ≤ s.now ∧
      result = .err (.headerTimeout c'.peerAddr) := by
  rcases h with h | h | h
  · cases polled_of_poll h with
    | unserved hwaiting hnone hlate =>
        cases hphase
        refine ⟨?_, hnone, hlate, rfl⟩
        rw [← hwaiting]
    | _ => cases hphase
  · rcases drop_cases h with ⟨rfl, -⟩
    cases hphase
  · rcases hand_cases h with ⟨-, -, -, rfl⟩
    cases hphase

/-- Nobody is turned away from a listener that has a permit to give. In every
state of every run, a call that waits while others hold, or have been handed,
fewer than `max_pending_handshakes` permits gets one when it is polled, and goes
on to read if the clock can represent its deadline. And a call that has failed
at the semaphore has failed with a timeout: there was a moment of the run, not
before its timeout was over, at which it was still waiting and every permit was
in use. -/
theorem turned_away_only_when_full {L : Type} {listener : L} {l : ProxyProtocolListener L E}
    {start : ℕ} {m : Machine Shared (Call E)}
    (hnew : (ProxyProtocolListener.new listener config : Outcome Empty _) = .ok l)
    (hrun : (concurrent C config maxInstant).Runs (l.idle start) m) :
    (∀ c ∈ m.tasks, c.phase = .waiting →
      (m.tasks.map Call.held).sum < config.maxPendingHandshakes →
      m.shared.now + config.headerTimeout.asNanos ≤ maxInstant →
      ∃ s', c.poll C config maxInstant m.shared = .ready (s', { c with
        phase := .reading m.shared.now (m.shared.now + config.headerTimeout.asNanos)
          c.stream [] })) ∧
    ∀ c ∈ m.tasks, Handshakes config c.peerAddr → ∀ result, c.phase = .returned .never result →
      result = .err (.headerTimeout c.peerAddr) ∧
      ∃ m₀, (concurrent C config maxInstant).Runs (l.idle start) m₀ ∧
        (concurrent C config maxInstant).Runs m₀ m ∧
        { c with phase := .waiting } ∈ m₀.tasks ∧
        c.acceptedAt + config.headerTimeout.asNanos ≤ m₀.shared.now ∧
        (m₀.tasks.map Call.held).sum = config.maxPendingHandshakes := by
  constructor
  · intro c hc hwaiting hbusy hclock
    have htotal := (semaphore_of_runs hnew hrun).1
    exact ⟨_, poll_finds (.free hwaiting (by omega)) hclock⟩
  · intro c hc hhandshakes result hphase
    rcases hrun.origin hc with hidle | ⟨s, calls, hstart⟩ | ⟨m₀, c₀, s', hto, hfrom, hmem, hstep⟩
    · cases hidle
    · -- no such call starts with an answer
      rcases hstart with ⟨stream, peerAddr, rfl⟩
      have hpolicy : Handshakes config peerAddr := hhandshakes
      rw [phase_start hpolicy] at hphase
      cases hphase
    · rcases unserved_of_step hstep hphase with ⟨rfl, hnone, hlate, rfl⟩
      have htotal := (semaphore_of_runs hnew hto).1
      exact ⟨rfl, m₀, hto, hfrom, hmem, hlate, by omega⟩

end Semaphore

/-- The first call waits for its peer, so the second is turned away. -/
theorem turned_away_only_when_full_narrow :
    let peerAddr : SocketAddr := .v4 (.new 192 0 2 9) 4000
    let turned := narrowCall 5 (.returned .never (.err (.headerTimeout peerAddr)))
    ∃ m₀, (concurrent .castagnoli narrowConfig 1000).Runs (narrowListener.idle 0) m₀ ∧
      (concurrent .castagnoli narrowConfig 1000).Runs m₀
        ⟨⟨100, ⟨0⟩⟩, [narrowCall 5 (.reading 0 100 (narrowStream 5) []), turned]⟩ ∧
      narrowCall 5 .waiting ∈ m₀.tasks ∧ 100 ≤ m₀.shared.now ∧
      (m₀.tasks.map Call.held).sum = 1 := by
  intro peerAddr turned
  have hstart := fun calls => punctual_within.next (next_narrow_start 5 calls)
  have hstarted := (Relation.ReflTransGen.single (hstart [])).tail (hstart _)
  have hgranted := hstarted.tail
    (@Rules.Next.step _ _ _ _ _ [] [narrowCall 5 .waiting] _ _ (.inl poll_narrow_granted))
  have hticks : Ticks ⟨0, ⟨0⟩⟩ [narrowCall 5 (.reading 0 100 (narrowStream 5) []),
      narrowCall 5 .waiting] ⟨100, ⟨0⟩⟩ := ⟨by decide, rfl⟩
  have hpoll : (narrowCall 5 .waiting).poll .castagnoli narrowConfig 1000 ⟨100, ⟨0⟩⟩ =
      .ready (⟨100, ⟨0⟩⟩, turned) := rfl
  have hrun := (hgranted.tail (.shift hticks)).tail
    (@Rules.Next.step _ _ _ _ _ [_] [] _ _ (.inl hpoll))
  exact ((turned_away_only_when_full new_narrowListener hrun).2 turned (by simp) (.inl rfl) _ rfl).2

/-! ## In front of the adapter -/

section Stalled

variable {peerAddr : SocketAddr} {required : Bool} {deadline now : ℕ} {stream : TcpStream}

theorem conclude_ne_late {buf : List UInt8} {r : ParseResult (ProxyInfo × ℕ)} {addr : SocketAddr} :
    conclude config peerAddr required stream buf r ≠ .err (.headerTimeout addr) := by
  intro h
  unfold conclude at h
  split at h
  · rcases Outcome.bind_eq_err.mp h with hcheck | ⟨-, -, h⟩
    · unfold checkHeader at hcheck
      split at hcheck
      · split at hcheck
        · cases hcheck
        · split at hcheck <;> cases hcheck
      · cases hcheck
    · rcases Outcome.bind_eq_err.mp h with hslice | ⟨leftover, -, hok⟩
      · rw [Outcome.sliceFrom, Outcome.slice] at hslice
        split at hslice <;> cases hslice
      · cases hok
  · split at h <;> cases h
  all_goals cases h

theorem turn_ne_late {buf chunk : List UInt8} {addr : SocketAddr} :
    turn C config peerAddr required stream buf chunk ≠ .leave (.err (.headerTimeout addr)) := by
  intro h
  rcases turn_cases C config peerAddr required stream buf chunk with
    ⟨e, hturn, rfl | rfl⟩ | ⟨hturn, -⟩ | hturn
  · rw [hturn] at h
    cases h
  · rw [hturn] at h
    cases h
  · rw [hturn] at h
    cases h
  · rw [hturn, Turn.leave.injEq] at h
    exact conclude_ne_late h

theorem readEnds_late {addr : SocketAddr}
    (h : (timedRead peerAddr deadline stream : AcceptResult E _) = .err (.headerTimeout addr))
    (now : ℕ) : readEnds deadline now stream = deadline := by
  unfold timedRead at h
  unfold readEnds
  cases hread : stream.read readChunk with
  | never => rfl
  | _ =>
      simp only [hread] at h ⊢
      split at h
      · cases h
      · omega

/-- A loop that times out ends at the deadline. -/
theorem readLoopAt_late {addr : SocketAddr} (fuel : ℕ) :
    ∀ (now : ℕ) (stream : TcpStream) (buf : List UInt8),
      (readLoopAt C config peerAddr required deadline fuel now stream buf).1 =
        .err (.headerTimeout addr) →
      (readLoopAt C config peerAddr required deadline fuel now stream buf).2 = deadline := by
  induction fuel with
  | zero =>
      intro now stream buf h
      cases h
  | succ fuel ih =>
      intro now stream buf h
      rw [readLoopAt] at h ⊢
      cases hread : (timedRead peerAddr deadline stream : AcceptResult E _) with
      | ok p =>
          rcases p with ⟨chunk, stream'⟩
          rw [hread] at h
          simp only [andThenAt] at h ⊢
          cases hturn : turn C config peerAddr required stream' buf chunk with
          | again buf' =>
              simp only [hturn] at h
              exact ih _ _ _ h
          | leave result =>
              simp only [hturn] at h
              rw [h] at hturn
              exact absurd hturn turn_ne_late
      | err e =>
          rw [hread] at h
          cases h
          exact readEnds_late hread now
      | panic =>
          rw [hread] at h
          cases h
      | diverge =>
          rw [hread] at h
          cases h

/-- A peer that keeps its handshake waiting: the policy has its header read, and
it sends nothing, or a part of a header that is below the size limit, and keeps
the connection open. -/
structure Stalls (C : Crc32c) (config : ProxyProtocolConfig E) (stream : TcpStream)
    (peerAddr : SocketAddr) : Prop where
  handshakes : Handshakes config peerAddr
  undecided : ∀ q ≤ stream.unread.length, parse C (stream.unread.take q) = .err .incomplete
  short : stream.unread.length < max config.maxHeaderSize 1
  silent : stream.closing = .silent

theorem attempt_of_handshake (h : Handshakes config peerAddr) :
    attempt C config maxInstant now (.ok (stream, peerAddr)) =
      readAndValidateAt C config maxInstant now stream peerAddr
        (config.policy peerAddr == .require) := by
  rcases h with h | h <;> simp only [attempt, h]

/-- A handshake with a stalled peer takes the whole timeout, at its reads or, if
the listener has no permits at all, at the semaphore. -/
theorem attempt_stalled (h : Stalls C config stream peerAddr)
    (hclock : now + config.headerTimeout.asNanos ≤ maxInstant) :
    attempt C config maxInstant now (.ok (stream, peerAddr)) =
      (.err (.headerTimeout peerAddr), now + config.headerTimeout.asNanos) := by
  rw [attempt_of_handshake h.handshakes]
  rcases Nat.eq_zero_or_pos config.maxPendingHandshakes with hnone | hsome
  · rw [readAndValidateAt_of_zero hnone]
  · have henv : HasDeadline config ⟨now, soleAcquire config now, maxInstant⟩
        (now + config.headerTimeout.asNanos) :=
      ⟨now, soleAcquire_of_pos hsome now, Nat.le_add_right _ _, hclock, rfl⟩
    have hresult : (readAndValidateAt C config maxInstant now stream peerAddr
        (config.policy peerAddr == .require)).1 = .err (.headerTimeout peerAddr) := by
      rw [readAndValidateAt_fst, readAndValidate_undecided henv h.undecided h.short, ending,
        h.silent]
      simp only [ite_self]
    rw [readAndValidateAt_of_pos hsome, handshakeDeadline_of_le hclock, andThenAt] at hresult ⊢
    exact Prod.ext hresult (readLoopAt_late _ _ _ _ hresult)

/-- Connections that the TCP listener returns, each from some time on. -/
def queued (peers : List (ℕ × TcpStream × SocketAddr)) : List Incoming :=
  peers.map fun peer => ⟨peer.1, .ok peer.2⟩

theorem axumAccept_err {incoming : Incoming} {e : AcceptError E} {time : ℕ}
    (h : attempt C config maxInstant (max now incoming.readyAt) incoming.connection =
      (.err e, time)) (backlog : List Incoming) :
    axumAccept C config maxInstant now (incoming :: backlog) =
      (axumAccept C config maxInstant (time + (handleAcceptError e).sleep.asNanos) backlog >>=
        fun p => .ok (p.1, handleAcceptError e :: p.2)) := by
  rw [axumAccept, h]

/-- The adapter does not sleep after a timeout. -/
theorem axumAccept_late {incoming : Incoming} {addr : SocketAddr} {time : ℕ}
    (backlog : List Incoming)
    (h : attempt C config maxInstant (max now incoming.readyAt) incoming.connection =
      (.err (.headerTimeout addr), time)) :
    axumAccept C config maxInstant now (incoming :: backlog) =
      (axumAccept C config maxInstant time backlog >>=
        fun p => .ok (p.1, handleAcceptError (.headerTimeout addr) :: p.2)) := by
  have hzero : (Duration.fromSecs 0).asNanos = 0 := by decide
  have hsleep : (handleAcceptError (.headerTimeout addr : AcceptError E)).sleep.asNanos = 0 := hzero
  rw [axumAccept_err h, hsleep, Nat.add_zero]

/-- Time goes by while the adapter waits. -/
theorem le_time_of_axumAccept {connected : Connected} (backlog : List Incoming) :
    ∀ (now : ℕ) (reactions : List (Reaction E)),
      axumAccept C config maxInstant now backlog = .ok (some connected, reactions) →
      now ≤ connected.time := by
  induction backlog with
  | nil =>
      intro now reactions h
      cases h
  | cons incoming backlog ih =>
      intro now reactions h
      have hends : max now incoming.readyAt ≤ (attempt C config maxInstant
          (max now incoming.readyAt) incoming.connection).2 := (attempt_snd _ _).1
      rcases hattempt : attempt C config maxInstant (max now incoming.readyAt)
        incoming.connection with ⟨result, time⟩
      rw [hattempt] at hends
      cases result with
      | ok stream =>
          rw [axumAccept, hattempt] at h
          cases h
          exact Nat.le_trans (Nat.le_max_left _ _) hends
      | err e =>
          rw [axumAccept_err hattempt] at h
          rcases Outcome.bind_eq_ok.mp h with ⟨⟨connected', reactions'⟩, hrest, hok⟩
          cases hok
          have hle := ih _ _ hrest
          have hmax := Nat.le_max_left now incoming.readyAt
          simp only at hends
          omega
      | panic =>
          rw [axumAccept, hattempt] at h
          cases h
      | diverge =>
          rw [axumAccept, hattempt] at h
          cases h

/-- The reactions to peers that time out. -/
def timeouts (peers : List (ℕ × TcpStream × SocketAddr)) : List (Reaction E) :=
  peers.map fun peer => handleAcceptError (.headerTimeout peer.2.2)

/-- A queue of stalled peers is worked off one timeout after the other. -/
theorem axumAccept_stalled (backlog : List Incoming) (peers : List (ℕ × TcpStream × SocketAddr)) :
    ∀ now : ℕ, (∀ peer ∈ peers, peer.1 ≤ now ∧ Stalls C config peer.2.1 peer.2.2) →
      now + peers.length * config.headerTimeout.asNanos ≤ maxInstant →
      axumAccept C config maxInstant now (queued peers ++ backlog) =
        (axumAccept C config maxInstant (now + peers.length * config.headerTimeout.asNanos)
          backlog >>= fun p => .ok (p.1, timeouts peers ++ p.2)) := by
  induction peers with
  | nil =>
      intro now _ _
      rw [List.length_nil, Nat.zero_mul, Nat.add_zero]
      exact (bind_pure _).symm
  | cons peer peers ih =>
      intro now hpeers hclock
      rcases hpeers peer (by simp) with ⟨hready, hstalls⟩
      rw [List.length_cons, Nat.succ_mul] at hclock ⊢
      have hattempt : attempt C config maxInstant (max now peer.1) (.ok peer.2) =
          (.err (.headerTimeout peer.2.2), now + config.headerTimeout.asNanos) := by
        rw [Nat.max_eq_left hready]
        exact attempt_stalled hstalls (by omega)
      have hlater : ∀ q ∈ peers, q.1 ≤ now + config.headerTimeout.asNanos ∧
          Stalls C config q.2.1 q.2.2 := by
        intro q hq
        rcases hpeers q (by simp [hq]) with ⟨hq, hstalls⟩
        exact ⟨by omega, hstalls⟩
      have hsum : now + config.headerTimeout.asNanos +
          peers.length * config.headerTimeout.asNanos =
          now + (peers.length * config.headerTimeout.asNanos + config.headerTimeout.asNanos) := by
        omega
      have hrest := ih (now + config.headerTimeout.asNanos) hlater (by omega)
      rw [hsum] at hrest
      have hfirst : axumAccept C config maxInstant now (queued (peer :: peers) ++ backlog) =
          (axumAccept C config maxInstant (now + config.headerTimeout.asNanos)
            (queued peers ++ backlog) >>=
              fun p => .ok (p.1, handleAcceptError (.headerTimeout peer.2.2) :: p.2)) :=
        axumAccept_late _ hattempt
      rw [hfirst, hrest, bind_assoc]
      rfl

/-- One peer after the other: an adapter that is called at `now`, with peers in
the queue that stall, logs a timeout for each of them, and gets to the
connections behind them after as many header timeouts. Before that it returns
no stream, whatever is behind them and however many permits are free. -/
theorem stalled_peers_block {peers : List (ℕ × TcpStream × SocketAddr)} (backlog : List Incoming)
    (hpeers : ∀ peer ∈ peers, peer.1 ≤ now ∧ Stalls C config peer.2.1 peer.2.2)
    (hclock : now + peers.length * config.headerTimeout.asNanos ≤ maxInstant) :
    axumAccept C config maxInstant now (queued peers ++ backlog) =
      (axumAccept C config maxInstant (now + peers.length * config.headerTimeout.asNanos)
        backlog >>= fun p => .ok (p.1, timeouts peers ++ p.2)) ∧
    ∀ connected reactions,
      axumAccept C config maxInstant now (queued peers ++ backlog) =
        .ok (some connected, reactions) →
      now + peers.length * config.headerTimeout.asNanos ≤ connected.time := by
  have heq := axumAccept_stalled backlog peers now hpeers hclock
  refine ⟨heq, ?_⟩
  intro connected reactions h
  rw [heq] at h
  rcases Outcome.bind_eq_ok.mp h with ⟨⟨connected', reactions'⟩, hrest, hok⟩
  cases hok
  exact le_time_of_axumAccept backlog _ _ hrest

/-- A silent peer, one that stops inside its header, and one with a header. -/
theorem stalled_peers_block_third :
    let config : ProxyProtocolConfig Empty := { headerTimeout := ⟨0, 100⟩ }
    let peerAddr : SocketAddr := .v4 (.new 192 0 2 9) 4000
    let peers : List (ℕ × TcpStream × SocketAddr) :=
      [(0, ⟨[], .silent⟩, peerAddr), (0, ⟨[⟨0, v1Signature, by decide⟩], .silent⟩, peerAddr)]
    let backlog : List Incoming :=
      [⟨0, .ok (⟨[⟨0, v2Signature ++ [0x20, 0, 0, 0], by decide⟩], .silent⟩, peerAddr)⟩]
    axumAccept .castagnoli config 1000 0 (queued peers ++ backlog) =
      (axumAccept .castagnoli config 1000 (0 + peers.length * config.headerTimeout.asNanos)
        backlog >>= fun p => .ok (p.1, timeouts peers ++ p.2)) := by
  intro config peerAddr peers backlog
  have hpeers : ∀ peer ∈ peers, peer.1 ≤ 0 ∧ Stalls .castagnoli config peer.2.1 peer.2.2 := by
    intro peer hpeer
    simp only [peers, List.mem_cons, List.not_mem_nil, or_false] at hpeer
    rcases hpeer with rfl | rfl
    · exact ⟨Nat.le_refl 0, .inl rfl, by decide, by decide, rfl⟩
    · exact ⟨Nat.le_refl 0, .inl rfl, by decide, by decide, rfl⟩
  exact (stalled_peers_block backlog hpeers (by decide)).1

end Stalled

end ProxyProtocol
