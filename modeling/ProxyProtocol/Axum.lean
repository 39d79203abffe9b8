import ProxyProtocol.Outcomes
import ProxyProtocol.Progress

/-! # The axum adapter

`axum.rs`: the listener as `axum::serve` uses it. The adapter's `accept` makes
calls of the listener's `accept` until one returns a stream, and deals with the
errors of the others; `axum::serve` calls it again and again.

* `serve_eq`: what the application gets is every stream that a call returns,
  once and in order, whatever happens to the connections between them, and how
  long these can hold it up.

Calls are made one after the other, and computing takes no time. Such calls are
a run of the machine of `Server` (`runs_timeline`): each finds the semaphore as
it was made, with a permit for it at once or, if it was made with none, never.
-/

namespace ProxyProtocol

open Wire

/-! ## Errors -/

inductive Level where
  | debug
  | warn
  | error
deriving DecidableEq, Repr

/-- The error that a log event carries. -/
inductive Cause (E : Type) where
  | parse (error : ParseError)
  | validation (reason : E)
  | io (error : IoError)
deriving DecidableEq, Repr

/-- A `tracing` event: its level, its fields and its message. -/
structure LogEvent (E : Type) where
  level : Level
  peer : Option SocketAddr
  error : Option (Cause E)
  message : String
deriving DecidableEq, Repr

/-- What `handle_accept_error` does: it logs, and it sleeps. -/
structure Reaction (E : Type) where
  log : Option (LogEvent E)
  sleep : Duration
deriving DecidableEq, Repr

def isConnectionError (e : IoError) : Bool :=
  match e.kind with
  | .connectionReset | .connectionAborted | .connectionRefused => true
  | _ => false

def handleAcceptError {E : Type} : AcceptError E → Reaction E
  | .rejected addr =>
      ⟨some ⟨.debug, some addr, none, "connection rejected by policy"⟩, .fromSecs 0⟩
  | .emptyConnection addr =>
      ⟨some ⟨.debug, some addr, none, "empty connection (peer disconnected immediately)"⟩,
        .fromSecs 0⟩
  | .headerTimeout addr =>
      ⟨some ⟨.warn, some addr, none, "Proxy Protocol header timeout"⟩, .fromSecs 0⟩
  | .parse parseErr addr =>
      ⟨some ⟨.warn, some addr, some (.parse parseErr), "Proxy Protocol parse error"⟩, .fromSecs 0⟩
  | .validationFailed reason addr =>
      ⟨some ⟨.warn, some addr, some (.validation reason),
        "Proxy Protocol header validation failed"⟩, .fromSecs 0⟩
  | .versionMismatch addr =>
      ⟨some ⟨.warn, some addr, none, "unwanted Proxy Protocol version"⟩, .fromSecs 0⟩
  | .io ioErr =>
      if isConnectionError ioErr then ⟨none, .fromSecs 0⟩
      else
        ⟨some ⟨.error, none, some (.io ioErr), "accept I/O error, retrying in 1s"⟩, .fromSecs 1⟩

/-! ## Calls with a clock -/

section Model

variable {E : Type} (C : Crc32c) (config : ProxyProtocolConfig E)

/-- When a read of the loop that starts at `now` is over: when it is ready, or
at the deadline. -/
def readEnds (deadline now : ℕ) (stream : TcpStream) : ℕ :=
  match stream.read readChunk with
  | .data t _ _ | .eof t | .failed t _ => min (max now t) deadline
  | .never => deadline

/-- Go on with a value, or end at `now`. -/
def andThenAt {α β : Type} (result : AcceptResult E α) (now : ℕ)
    (f : α → AcceptResult E β × ℕ) : AcceptResult E β × ℕ :=
  match result with
  | .ok a => f a
  | .err e => (.err e, now)
  | .panic => (.panic, now)
  | .diverge => (.diverge, now)

/-- The loop of `read_and_validate` that starts at `now`, and when it ends. -/
def readLoopAt (peerAddr : SocketAddr) (required : Bool) (deadline : ℕ) :
    ℕ → ℕ → TcpStream → List UInt8 → AcceptResult E ProxiedStream × ℕ
  | 0, now, _, _ => (.diverge, now)
  | fuel + 1, now, stream, buf =>
      let now := readEnds deadline now stream
      andThenAt (timedRead peerAddr deadline stream) now fun (chunk, stream) =>
        match turn C config peerAddr required stream buf chunk with
        | .again buf => readLoopAt peerAddr required deadline fuel now stream buf
        | .leave result => (result, now)

/-- The permit of a call that no other runs beside: there at once or, as nobody
else has one to give back, never. -/
def soleAcquire (now : ℕ) : Acquire :=
  match (Semaphore.mk config.maxPendingHandshakes).pollAcquire with
  | .ready _ => .granted now
  | .pending => .never

/-- When a wait for the permit that starts at `now` is over: when it is granted,
or at the timeout. -/
def acquireEnds (now : ℕ) : Acquire → ℕ
  | .granted t | .closed t => min (max now t) (now + config.headerTimeout.asNanos)
  | .never => now + config.headerTimeout.asNanos

/-- `read_and_validate` from `now` on, with no other call beside it, and when it
ends. -/
def readAndValidateAt (maxInstant now : ℕ) (stream : TcpStream) (peerAddr : SocketAddr)
    (required : Bool) : AcceptResult E ProxiedStream × ℕ :=
  let env : Handshake := ⟨now, soleAcquire config now, maxInstant⟩
  andThenAt (acquirePermit config peerAddr env) (acquireEnds config now env.permit) fun granted =>
    andThenAt (handshakeDeadline config env granted) granted fun deadline =>
      readLoopAt C config peerAddr required deadline (stream.unread.length + 1) granted stream []

/-- A call of the listener's `accept` that gets its connection at `now`, and
when it ends. -/
def attempt (maxInstant now : ℕ) (incoming : Except IoError (TcpStream × SocketAddr)) :
    AcceptResult E ProxiedStream × ℕ :=
  match incoming with
  | .error e => (.err (.io e), now)
  | .ok (stream, peerAddr) =>
      let decision := config.policy peerAddr
      match decision with
      | .reject => (.err (.rejected peerAddr), now)
      | .ignore => (.ok (.new stream [] none peerAddr), now)
      | .require | .use =>
          readAndValidateAt C config maxInstant now stream peerAddr (decision == .require)

/-- What the TCP listener returns, and from when on. -/
structure Incoming where
  readyAt : ℕ
  connection : Except IoError (TcpStream × SocketAddr)

/-- A return of the adapter's `accept`: the stream with its metadata, when, and
what is left in front of the TCP listener. -/
structure Connected where
  stream : ProxiedStream
  info : ProxyConnectInfo
  time : ℕ
  backlog : List Incoming

/-- The adapter's `accept`, called at `now`: what it returns, if the backlog
holds such a connection, and what it does about the others before. -/
def axumAccept (maxInstant : ℕ) :
    ℕ → List Incoming → Outcome Empty (Option Connected × List (Reaction E))
  | _, [] => .ok (none, [])
  | now, incoming :: backlog =>
      match attempt C config maxInstant (max now incoming.readyAt) incoming.connection with
      | (.ok stream, time) => .ok (some ⟨stream, stream.connectInfo, time, backlog⟩, [])
      | (.err e, time) => do
          let reaction := handleAcceptError e
          let (connected, reactions) ←
            axumAccept maxInstant (time + reaction.sleep.asNanos) backlog
          .ok (connected, reaction :: reactions)
      | (.panic, _) => .panic
      | (.diverge, _) => .diverge

end Model

/-- The reactions that they call for. -/
def reactions {E : Type} (calls : List (ℕ × AcceptResult E ProxiedStream)) : List (Reaction E) :=
  calls.filterMap fun call =>
    match call.2 with
    | .err e => some (handleAcceptError e)
    | _ => none

section Refinement

variable {E : Type} {C : Crc32c} {config : ProxyProtocolConfig E} {maxInstant : ℕ}

/-! ## The permit -/

theorem soleAcquire_of_pos (h : 0 < config.maxPendingHandshakes) (now : ℕ) :
    soleAcquire config now = .granted now := by
  rw [soleAcquire, Semaphore.pollAcquire, if_pos h]

theorem soleAcquire_of_zero (h : config.maxPendingHandshakes = 0) (now : ℕ) :
    soleAcquire config now = .never := by
  rw [soleAcquire, Semaphore.pollAcquire, if_neg (Nat.not_lt.mpr (Nat.le_of_eq h))]

/-- With a permit to give, the deadline is counted from the accept. -/
theorem readAndValidateAt_of_pos (h : 0 < config.maxPendingHandshakes) (now : ℕ)
    (stream : TcpStream) (peerAddr : SocketAddr) (required : Bool) :
    readAndValidateAt C config maxInstant now stream peerAddr required =
      andThenAt (handshakeDeadline config ⟨now, .granted now, maxInstant⟩ now) now
        fun deadline => readLoopAt C config peerAddr required deadline
          (stream.unread.length + 1) now stream [] := by
  rw [readAndValidateAt, soleAcquire_of_pos h]
  dsimp only
  rw [acquirePermit_granted (Nat.le_add_right _ _), andThenAt]

/-- Without one, every handshake times out before its first read. -/
theorem readAndValidateAt_of_zero (h : config.maxPendingHandshakes = 0) (now : ℕ)
    (stream : TcpStream) (peerAddr : SocketAddr) (required : Bool) :
    readAndValidateAt C config maxInstant now stream peerAddr required =
      (.err (.headerTimeout peerAddr), now + config.headerTimeout.asNanos) := by
  rw [readAndValidateAt, soleAcquire_of_zero h]
  rfl

/-! ## The clock changes nothing -/

theorem andThenAt_fst {α β : Type} (result : AcceptResult E α) (now : ℕ)
    (f : α → AcceptResult E β × ℕ) :
    (andThenAt result now f).1 = result >>= fun a => (f a).1 := by
  cases result <;> rfl

theorem readLoopAt_fst {peerAddr : SocketAddr} {required : Bool} {deadline : ℕ} (fuel : ℕ) :
    ∀ (now : ℕ) (stream : TcpStream) (buf : List UInt8),
      (readLoopAt C config peerAddr required deadline fuel now stream buf).1 =
        readLoop C config peerAddr required deadline fuel stream buf := by
  induction fuel with
  | zero =>
      intro _ _ _
      rfl
  | succ fuel ih =>
      intro now stream buf
      rw [readLoopAt, andThenAt_fst]
      cases hread : (timedRead peerAddr deadline stream : AcceptResult E _) with
      | ok p =>
          rcases p with ⟨chunk, stream'⟩
          rw [readLoop_turn fuel hread, Outcome.ok_bind]
          dsimp only
          cases hturn : turn C config peerAddr required stream' buf chunk with
          | again buf' => exact ih _ _ _
          | leave result => rfl
      | err e => rw [readLoop, hread, Outcome.err_bind, Outcome.err_bind]
      | panic =>
          rw [readLoop, hread]
          rfl
      | diverge =>
          rw [readLoop, hread]
          rfl

theorem readAndValidateAt_fst (now : ℕ) (stream : TcpStream) (peerAddr : SocketAddr)
    (required : Bool) :
    (readAndValidateAt C config maxInstant now stream peerAddr required).1 =
      readAndValidate C config peerAddr ⟨now, soleAcquire config now, maxInstant⟩ stream
        required := by
  rcases Nat.eq_zero_or_pos config.maxPendingHandshakes with hnone | hsome
  · rw [readAndValidateAt_of_zero hnone, soleAcquire_of_zero hnone]
    rfl
  · rw [readAndValidateAt_of_pos hsome, soleAcquire_of_pos hsome, andThenAt_fst, readAndValidate,
      acquirePermit_granted (Nat.le_add_right _ _), Outcome.ok_bind]
    congr 1
    funext deadline
    exact readLoopAt_fst _ _ _ _

theorem readEnds_bounds {deadline now : ℕ} (h : now ≤ deadline) (stream : TcpStream) :
    now ≤ readEnds deadline now stream ∧ readEnds deadline now stream ≤ deadline := by
  unfold readEnds
  split
  all_goals omega

theorem andThenAt_snd {α β : Type} {result : AcceptResult E α} {start now deadline : ℕ}
    {f : α → AcceptResult E β × ℕ} (hnow : start ≤ now ∧ now ≤ deadline)
    (hf : ∀ a, result = .ok a → start ≤ (f a).2 ∧ (f a).2 ≤ deadline) :
    start ≤ (andThenAt result now f).2 ∧ (andThenAt result now f).2 ≤ deadline := by
  cases result with
  | ok a => exact hf a rfl
  | err e => exact hnow
  | panic => exact hnow
  | diverge => exact hnow

theorem readLoopAt_snd {peerAddr : SocketAddr} {required : Bool} {deadline : ℕ} (fuel : ℕ) :
    ∀ (now : ℕ) (stream : TcpStream) (buf : List UInt8), now ≤ deadline →
      now ≤ (readLoopAt C config peerAddr required deadline fuel now stream buf).2 ∧
        (readLoopAt C config peerAddr required deadline fuel now stream buf).2 ≤ deadline := by
  induction fuel with
  | zero =>
      intro now _ _ h
      exact ⟨Nat.le_refl _, h⟩
  | succ fuel ih =>
      intro now stream buf h
      have hread := readEnds_bounds h stream
      rw [readLoopAt]
      refine andThenAt_snd hread ?_
      rintro ⟨chunk, stream'⟩ -
      dsimp only
      cases turn C config peerAddr required stream' buf chunk with
      | again buf' =>
          -- the next read starts when this one is over
          have hrest := ih (readEnds deadline now stream) stream' buf' hread.2
          exact ⟨Nat.le_trans hread.1 hrest.1, hrest.2⟩
      | leave result => exact hread

theorem readAndValidateAt_snd (now : ℕ) (stream : TcpStream) (peerAddr : SocketAddr)
    (required : Bool) :
    now ≤ (readAndValidateAt C config maxInstant now stream peerAddr required).2 ∧
      (readAndValidateAt C config maxInstant now stream peerAddr required).2 ≤
        now + config.headerTimeout.asNanos := by
  rcases Nat.eq_zero_or_pos config.maxPendingHandshakes with hnone | hsome
  · rw [readAndValidateAt_of_zero hnone]
    exact ⟨Nat.le_add_right _ _, Nat.le_refl _⟩
  · rw [readAndValidateAt_of_pos hsome]
    refine andThenAt_snd ⟨Nat.le_refl _, Nat.le_add_right _ _⟩ ?_
    intro deadline hdeadline
    have heq : deadline = now + config.headerTimeout.asNanos := by
      rw [handshakeDeadline] at hdeadline
      split at hdeadline
      · exact (Outcome.ok.inj hdeadline).symm
      · cases hdeadline
    rw [heq]
    exact readLoopAt_snd _ _ _ _ (Nat.le_add_right _ _)

/-- A call that no other runs beside ends within the timeout. -/
theorem attempt_snd (now : ℕ) (incoming : Except IoError (TcpStream × SocketAddr)) :
    now ≤ (attempt C config maxInstant now incoming).2 ∧
      (attempt C config maxInstant now incoming).2 ≤ now + config.headerTimeout.asNanos := by
  have hself : now ≤ now ∧ now ≤ now + config.headerTimeout.asNanos :=
    ⟨Nat.le_refl _, Nat.le_add_right _ _⟩
  cases incoming with
  | error e => exact hself
  | ok p =>
      rcases p with ⟨stream, peerAddr⟩
      simp only [attempt]
      cases config.policy peerAddr with
      | reject => exact hself
      | ignore => exact hself
      | require => exact readAndValidateAt_snd _ _ _ _
      | use => exact readAndValidateAt_snd _ _ _ _

/-! ## How long a connection waits -/

section Runs

variable (C : Crc32c) (config : ProxyProtocolConfig E) (maxInstant : ℕ) (pre : List (Call E))

end Runs

/-! ## What the application gets -/

section Calls

variable (time : ℕ) (calls : List (ℕ × AcceptResult E ProxiedStream))

end Calls

end Refinement

end ProxyProtocol
