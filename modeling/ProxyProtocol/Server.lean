import Mathlib.Algebra.BigOperators.Ring.List
import Mathlib.Algebra.Order.BigOperators.Group.List
import Mathlib.Algebra.Order.Ring.Nat
import ProxyProtocol.Connection
import ProxyProtocol.Lib.Tasks

/-! # Concurrent handshakes

`accept` takes the listener by shared reference, so several calls may be under
way at once. They share the handshake semaphore and the clock, and nothing
else. Here a call is a state machine that a scheduler polls; between two polls
time passes, other calls are polled or started, and callers drop the ones they
no longer want.

* `handshakes_bounded`: permits are neither lost nor duplicated, and they bound
  the handshakes and the memory that peers can take.
* `streams_from_own_bytes`: under every schedule, a stream is made of the bytes
  of its own peer.

The semaphore serves its waiters in some order that is left open. A permit that
it hands to a waiter is no longer free, and the waiter finds it at its next
poll, however late that is.
-/

namespace ProxyProtocol

open Wire

/-! ## Calls -/

/-- Where a call stands, from the moment the TCP listener returns a connection:
at the semaphore, there with a permit that it has yet to find, at a read of the
loop, returned, or dropped by its caller. A call that returned records how it
got its permit. -/
inductive Phase (E : Type) where
  | waiting
  | handed
  | reading (grantedAt deadline : ℕ) (stream : TcpStream) (buf : List UInt8)
  | returned (permit : Acquire) (result : AcceptResult E ProxiedStream)
  | dropped

/-- A call of `accept` and the connection it is about. -/
structure Call (E : Type) where
  stream : TcpStream
  peerAddr : SocketAddr
  acceptedAt : ℕ
  phase : Phase E

/-- What all calls see. -/
structure Shared where
  now : ℕ
  semaphore : Semaphore
deriving DecidableEq, Repr

/-- `Acquire::poll` of tokio, by the documentation of `Semaphore::acquire`: it
completes with one of the permits if one is available, and waits for one
otherwise (`pollAcquire_cases`). It fails only on a closed semaphore, and the
listener never closes its own. -/
def Semaphore.pollAcquire (semaphore : Semaphore) : Poll Semaphore :=
  if 0 < semaphore.permits then .ready ⟨semaphore.permits - 1⟩ else .pending

/-- A `SemaphorePermit` is dropped: by its documentation the permit is available
again. -/
def Semaphore.release (semaphore : Semaphore) : Semaphore := ⟨semaphore.permits + 1⟩

def Shared.release (s : Shared) : Shared := { s with semaphore := s.semaphore.release }

/-- `Timeout::poll` of tokio. By the documentation of `timeout`, a future that
completes in time gives its value and any other is given up, with an error, when
the time is over (`pollTimeout_late`, `pollTimeout_early`); a value that is
there at a poll counts even then, as the future is polled before the timer
(`pollTimeout_ready`). -/
def pollTimeout {α : Type} (deadline now : ℕ) : Poll α → Poll (Option α)
  | .ready a => .ready (some a)
  | .pending => if deadline ≤ now then .ready none else .pending

section Model

variable {E : Type} (C : Crc32c) (config : ProxyProtocolConfig E) (maxInstant : ℕ)

namespace Call

/-- The TCP listener returns a connection: the call runs up to its first
`await`. -/
def start (now : ℕ) (stream : TcpStream) (peerAddr : SocketAddr) : Call E where
  stream := stream
  peerAddr := peerAddr
  acceptedAt := now
  phase :=
    match config.policy peerAddr with
    | .reject => .returned .never (.err (.rejected peerAddr))
    | .ignore => .returned .never (.ok (.new stream [] none peerAddr))
    | .require | .use => .waiting

def required (c : Call E) : Bool := config.policy c.peerAddr == .require

/-- When the timer of the call fires. -/
def timer (c : Call E) : Option ℕ :=
  match c.phase with
  | .waiting | .handed => some (c.acceptedAt + config.headerTimeout.asNanos)
  | .reading _ deadline _ _ => some deadline
  | _ => none

/-- A call with a permit enters the loop, once it has computed its deadline. -/
def enter (s : Shared) (c : Call E) : AcceptResult E ℕ → Shared × Call E
  | .ok deadline => (s, { c with phase := .reading s.now deadline c.stream [] })
  -- the panic unwinds through the permit
  | _ => (s.release, { c with phase := .returned (.granted s.now) .panic })

/-- A poll of the call. Whatever ends it drops the permit. -/
def poll (s : Shared) (c : Call E) : Poll (Shared × Call E) :=
  match c.phase with
  | .waiting =>
      match pollTimeout (c.acceptedAt + config.headerTimeout.asNanos) s.now
          s.semaphore.pollAcquire with
      | .pending => .pending
      | .ready none =>
          .ready (s, { c with phase := .returned .never (.err (.headerTimeout c.peerAddr)) })
      | .ready (some semaphore) =>
          .ready (c.enter { s with semaphore }
            (handshakeDeadline config ⟨c.acceptedAt, .granted s.now, maxInstant⟩ s.now))
  -- the future is ready, so it does not matter whether the timer has fired
  | .handed =>
      .ready (c.enter s
        (handshakeDeadline config ⟨c.acceptedAt, .granted s.now, maxInstant⟩ s.now))
  | .reading grantedAt deadline stream buf =>
      match pollTimeout deadline s.now (stream.pollRead s.now readChunk).1 with
      | .pending => .pending
      | .ready none =>
          .ready (s.release, { c with
            phase := .returned (.granted grantedAt) (.err (.headerTimeout c.peerAddr)) })
      | .ready (some (.error e)) =>
          .ready (s.release, { c with phase := .returned (.granted grantedAt) (.err (.io e)) })
      | .ready (some (.ok chunk)) =>
          let stream := (stream.pollRead s.now readChunk).2
          match turn C config c.peerAddr (c.required config) stream buf chunk with
          | .again buf => .ready (s, { c with phase := .reading grantedAt deadline stream buf })
          | .leave result =>
              .ready (s.release, { c with phase := .returned (.granted grantedAt) result })
  | .returned _ _ | .dropped => .pending

/-- The caller drops the future, and with it the permit. -/
def drop (s : Shared) (c : Call E) : Option (Shared × Call E) :=
  match c.phase with
  | .waiting => some (s, { c with phase := .dropped })
  | .handed | .reading _ _ _ _ => some (s.release, { c with phase := .dropped })
  | .returned _ _ | .dropped => none

/-- The semaphore hands a permit to the call, which is not polled yet. -/
def hand (s : Shared) (c : Call E) : Option (Shared × Call E) :=
  match c.phase, s.semaphore.pollAcquire with
  | .waiting, .ready semaphore => some ({ s with semaphore }, { c with phase := .handed })
  | _, _ => none

/-- The permits that a call holds, found or not. -/
def held (c : Call E) : ℕ :=
  match c.phase with
  | .handed | .reading _ _ _ _ => 1
  | _ => 0

/-- The bytes that a call has buffered. -/
def buffered (c : Call E) : ℕ :=
  match c.phase with
  | .reading _ _ _ buf => buf.length
  | _ => 0

/-- The call is over. -/
def Settled (c : Call E) : Prop :=
  match c.phase with
  | .returned _ _ | .dropped => True
  | _ => False

end Call

/-- The clock moves on. -/
def Ticks (s : Shared) (_calls : List (Call E)) (s' : Shared) : Prop :=
  s.now ≤ s'.now ∧ s'.semaphore = s.semaphore

/-- The clock moves on, and not past a timer whose call was not polled. -/
def PunctualTicks (s : Shared) (calls : List (Call E)) (s' : Shared) : Prop :=
  Ticks s calls s' ∧ ∀ c ∈ calls, ∀ t, c.timer config = some t → s'.now ≤ t

/-- A listener that is used in any way: any number of calls at once, polled in
any order and however late. -/
def concurrent : Rules Shared (Call E) where
  shift := Ticks
  start s _ c := ∃ stream peerAddr, c = Call.start config s.now stream peerAddr
  step s c s' c' :=
    c.poll C config maxInstant s = .ready (s', c') ∨
      c.drop s = some (s', c') ∨ c.hand s = some (s', c')

/-- The same under a runtime that polls a call when its timer fires. -/
def punctual : Rules Shared (Call E) :=
  { concurrent C config maxInstant with shift := PunctualTicks config }

/-- Polls and the clock only: no new calls, and none is dropped. -/
def closing : Rules Shared (Call E) where
  shift := PunctualTicks config
  start _ _ _ := False
  step s c s' c' := c.poll C config maxInstant s = .ready (s', c')

/-- A caller that waits for each call before it makes the next. -/
def sequential : Rules Shared (Call E) :=
  { concurrent C config maxInstant with
    start := fun s calls c =>
      (∀ c' ∈ calls, c'.Settled) ∧ (concurrent C config maxInstant).start s calls c }

end Model

/-- A new listener at time `now`. -/
def ProxyProtocolListener.idle {L E : Type} (l : ProxyProtocolListener L E) (now : ℕ) :
    Machine Shared (Call E) :=
  ⟨⟨now, l.handshakeSemaphore⟩, []⟩

section Steps

variable {E : Type} {C : Crc32c} {config : ProxyProtocolConfig E} {maxInstant : ℕ}
  {s s' : Shared} {c c' : Call E}

/-! ## What a poll does -/

theorem pollAcquire_cases (semaphore : Semaphore) :
    (0 < semaphore.permits ∧ semaphore.pollAcquire = .ready ⟨semaphore.permits - 1⟩) ∨
      (semaphore.permits = 0 ∧ semaphore.pollAcquire = .pending) := by
  unfold Semaphore.pollAcquire
  split
  · rename_i h
    exact .inl ⟨h, rfl⟩
  · rename_i h
    exact .inr ⟨Nat.eq_zero_of_not_pos h, rfl⟩

theorem pollTimeout_ready {α : Type} (deadline now : ℕ) (a : α) :
    pollTimeout deadline now (.ready a) = .ready (some a) := rfl

theorem pollTimeout_late {α : Type} {deadline now : ℕ} (h : deadline ≤ now) :
    pollTimeout deadline now (.pending : Poll α) = .ready none := if_pos h

theorem pollTimeout_early {α : Type} {deadline now : ℕ} (h : now < deadline) :
    pollTimeout deadline now (.pending : Poll α) = .pending := if_neg (Nat.not_le.mpr h)

theorem handshakeDeadline_of_le {env : Handshake} {now : ℕ}
    (h : now + config.headerTimeout.asNanos ≤ env.maxInstant) :
    handshakeDeadline config env now = .ok (now + config.headerTimeout.asNanos) := if_pos h

theorem handshakeDeadline_of_lt {env : Handshake} {now : ℕ}
    (h : env.maxInstant < now + config.headerTimeout.asNanos) :
    handshakeDeadline config env now = .panic := if_neg (Nat.not_le.mpr h)

/-- The semaphore without one of its permits. -/
def Shared.acquired (s : Shared) : Shared :=
  { s with semaphore := ⟨s.semaphore.permits - 1⟩ }

/-- A call finds a permit: a free one, or the one that was handed to it. -/
inductive Finds (s : Shared) (c : Call E) : Shared → Prop where
  | free (hphase : c.phase = .waiting) (hfree : 0 < s.semaphore.permits) : Finds s c s.acquired
  | handed (hphase : c.phase = .handed) : Finds s c s

/-- Everything that a poll can do. -/
inductive Polled (C : Crc32c) (config : ProxyProtocolConfig E) (maxInstant : ℕ) (s : Shared)
    (c : Call E) : Shared → Call E → Prop where
  | granted {s' : Shared} (hfinds : Finds s c s')
      (hclock : s.now + config.headerTimeout.asNanos ≤ maxInstant) :
      Polled C config maxInstant s c s'
        { c with
          phase := .reading s.now (s.now + config.headerTimeout.asNanos) c.stream [] }
  | unrepresentable {s' : Shared} (hfinds : Finds s c s')
      (hclock : maxInstant < s.now + config.headerTimeout.asNanos) :
      Polled C config maxInstant s c s'.release
        { c with phase := .returned (.granted s.now) .panic }
  | unserved (hphase : c.phase = .waiting) (hnone : s.semaphore.permits = 0)
      (hlate : c.acceptedAt + config.headerTimeout.asNanos ≤ s.now) :
      Polled C config maxInstant s c s
        { c with phase := .returned .never (.err (.headerTimeout c.peerAddr)) }
  | again {grantedAt deadline : ℕ} {stream stream' : TcpStream} {buf chunk buf' : List UInt8}
      (hphase : c.phase = .reading grantedAt deadline stream buf)
      (hread : stream.pollRead s.now readChunk = (.ready (.ok chunk), stream'))
      (hturn : turn C config c.peerAddr (c.required config) stream' buf chunk = .again buf') :
      Polled C config maxInstant s c s
        { c with phase := .reading grantedAt deadline stream' buf' }
  | left {grantedAt deadline : ℕ} {stream stream' : TcpStream} {buf chunk : List UInt8}
      {result : AcceptResult E ProxiedStream}
      (hphase : c.phase = .reading grantedAt deadline stream buf)
      (hread : stream.pollRead s.now readChunk = (.ready (.ok chunk), stream'))
      (hturn : turn C config c.peerAddr (c.required config) stream' buf chunk = .leave result) :
      Polled C config maxInstant s c s.release
        { c with phase := .returned (.granted grantedAt) result }
  | failed {grantedAt deadline : ℕ} {stream : TcpStream} {buf : List UInt8} {e : IoError}
      (hphase : c.phase = .reading grantedAt deadline stream buf)
      (hread : (stream.pollRead s.now readChunk).1 = .ready (.error e)) :
      Polled C config maxInstant s c s.release
        { c with phase := .returned (.granted grantedAt) (.err (.io e)) }
  | late {grantedAt deadline : ℕ} {stream : TcpStream} {buf : List UInt8}
      (hphase : c.phase = .reading grantedAt deadline stream buf)
      (hread : (stream.pollRead s.now readChunk).1 = .pending) (hlate : deadline ≤ s.now) :
      Polled C config maxInstant s c s.release
        { c with phase := .returned (.granted grantedAt) (.err (.headerTimeout c.peerAddr)) }

theorem Finds.now_eq (h : Finds s c s') : s'.now = s.now := by
  cases h <;> rfl

/-- A poll that finds a permit goes on to the deadline. -/
theorem poll_of_finds (h : Finds s c s') :
    c.poll C config maxInstant s = .ready (c.enter s'
      (handshakeDeadline config ⟨c.acceptedAt, .granted s.now, maxInstant⟩ s.now)) := by
  cases h with
  | free hphase hfree =>
      rcases pollAcquire_cases s.semaphore with ⟨-, hacquire⟩ | ⟨hnone, -⟩
      · rw [Call.poll, hphase]
        dsimp only
        rw [hacquire, pollTimeout_ready]
        rfl
      · omega
  | handed hphase => rw [Call.poll, hphase]

/-- A permit is taken by the poll that finds it, however late that is. -/
theorem poll_finds (h : Finds s c s')
    (hclock : s.now + config.headerTimeout.asNanos ≤ maxInstant) :
    c.poll C config maxInstant s = .ready (s', { c with
      phase := .reading s.now (s.now + config.headerTimeout.asNanos) c.stream [] }) := by
  rw [poll_of_finds h, handshakeDeadline_of_le hclock, Call.enter, h.now_eq]

theorem polled_of_finds (h : Finds s c s') :
    ∃ s₁ c₁, c.poll C config maxInstant s = .ready (s₁, c₁) ∧
      Polled C config maxInstant s c s₁ c₁ := by
  by_cases hclock : s.now + config.headerTimeout.asNanos ≤ maxInstant
  · exact ⟨_, _, poll_finds h hclock, .granted h hclock⟩
  · have hlt := Nat.lt_of_not_le hclock
    refine ⟨_, _, ?_, .unrepresentable h hlt⟩
    rw [poll_of_finds h, handshakeDeadline_of_lt hlt, Call.enter, h.now_eq]
    simp

theorem poll_waiting (hphase : c.phase = .waiting) :
    (∃ s' c', c.poll C config maxInstant s = .ready (s', c') ∧
      Polled C config maxInstant s c s' c') ∨
    (c.poll C config maxInstant s = .pending ∧
      s.now < c.acceptedAt + config.headerTimeout.asNanos) := by
  rcases pollAcquire_cases s.semaphore with ⟨hfree, -⟩ | ⟨hnone, hacquire⟩
  · exact .inl (polled_of_finds (.free hphase hfree))
  · rw [Call.poll, hphase]
    dsimp only
    rw [hacquire]
    by_cases hlate : c.acceptedAt + config.headerTimeout.asNanos ≤ s.now
    · left
      refine ⟨_, _, ?_, .unserved hphase hnone hlate⟩
      rw [pollTimeout_late hlate]
    · right
      have hlt := Nat.lt_of_not_le hlate
      refine ⟨?_, hlt⟩
      rw [pollTimeout_early hlt]

theorem poll_reading {grantedAt deadline : ℕ} {stream : TcpStream} {buf : List UInt8}
    (hphase : c.phase = .reading grantedAt deadline stream buf) :
    (∃ s' c', c.poll C config maxInstant s = .ready (s', c') ∧
      Polled C config maxInstant s c s' c') ∨
    (c.poll C config maxInstant s = .pending ∧ s.now < deadline) := by
  rw [Call.poll, hphase]
  dsimp only
  rcases hread : stream.pollRead s.now readChunk with ⟨result, stream'⟩
  cases result with
  | pending =>
      by_cases hlate : deadline ≤ s.now
      · left
        refine ⟨_, _, ?_, .late hphase (by rw [hread]) hlate⟩
        rw [pollTimeout_late hlate]
      · right
        have hlt := Nat.lt_of_not_le hlate
        refine ⟨?_, hlt⟩
        rw [pollTimeout_early hlt]
  | ready r =>
      left
      cases r with
      | error e => exact ⟨_, _, rfl, .failed hphase (by rw [hread])⟩
      | ok chunk =>
          cases hturn : turn C config c.peerAddr (c.required config) stream' buf chunk with
          | again buf' =>
              refine ⟨_, _, ?_, .again hphase hread hturn⟩
              simp only [pollTimeout_ready, hturn]
          | leave result =>
              refine ⟨_, _, ?_, .left hphase hread hturn⟩
              simp only [pollTimeout_ready, hturn]

/-- A poll gets something done, or finds nothing to do and the timer not yet
fired. -/
theorem poll_cases (C : Crc32c) (config : ProxyProtocolConfig E) (maxInstant : ℕ) (s : Shared)
    (c : Call E) :
    (∃ s' c', c.poll C config maxInstant s = .ready (s', c') ∧
      Polled C config maxInstant s c s' c') ∨
    (c.poll C config maxInstant s = .pending ∧ ∀ t, c.timer config = some t → s.now < t) := by
  cases hphase : c.phase with
  | waiting =>
      rcases poll_waiting hphase with hready | ⟨hpending, hlt⟩
      · exact .inl hready
      · refine .inr ⟨hpending, ?_⟩
        intro t ht
        rw [Call.timer, hphase] at ht
        cases ht
        exact hlt
  | handed => exact .inl (polled_of_finds (.handed hphase))
  | reading grantedAt deadline stream buf =>
      rcases poll_reading hphase with hready | ⟨hpending, hlt⟩
      · exact .inl hready
      · refine .inr ⟨hpending, ?_⟩
        intro t ht
        rw [Call.timer, hphase] at ht
        cases ht
        exact hlt
  | returned permit result =>
      right
      simp [Call.poll, Call.timer, hphase]
  | dropped =>
      right
      simp [Call.poll, Call.timer, hphase]

theorem polled_of_poll (h : c.poll C config maxInstant s = .ready (s', c')) :
    Polled C config maxInstant s c s' c' := by
  rcases poll_cases C config maxInstant s c with ⟨s₁, c₁, hpoll, hpolled⟩ | ⟨hpending, -⟩
  · rw [hpoll, Poll.ready.injEq, Prod.mk.injEq] at h
    rcases h with ⟨rfl, rfl⟩
    exact hpolled
  · rw [hpending] at h
    cases h

/-- Everything that a drop can do. -/
theorem drop_cases (h : c.drop s = some (s', c')) :
    c' = { c with phase := .dropped } ∧
      ((c.phase = .waiting ∧ s' = s) ∨ (c.held = 1 ∧ s' = s.release)) := by
  cases hphase : c.phase with
  | waiting =>
      rw [Call.drop, hphase] at h
      cases h
      exact ⟨rfl, .inl ⟨rfl, rfl⟩⟩
  | handed =>
      rw [Call.drop, hphase] at h
      cases h
      exact ⟨rfl, .inr ⟨by simp only [Call.held, hphase], rfl⟩⟩
  | reading grantedAt deadline stream buf =>
      rw [Call.drop, hphase] at h
      cases h
      exact ⟨rfl, .inr ⟨by simp only [Call.held, hphase], rfl⟩⟩
  | returned permit result =>
      rw [Call.drop, hphase] at h
      cases h
  | dropped =>
      rw [Call.drop, hphase] at h
      cases h

/-- Everything that the semaphore can do to a call. -/
theorem hand_cases (h : c.hand s = some (s', c')) :
    c.phase = .waiting ∧ 0 < s.semaphore.permits ∧ s' = s.acquired ∧
      c' = { c with phase := .handed } := by
  unfold Call.hand at h
  rcases pollAcquire_cases s.semaphore with ⟨hfree, hacquire⟩ | ⟨-, hacquire⟩
  · rw [hacquire] at h
    cases hphase : c.phase with
    | waiting =>
        rw [hphase] at h
        cases h
        exact ⟨rfl, hfree, rfl, rfl⟩
    | _ =>
        rw [hphase] at h
        cases h
  · rw [hacquire] at h
    split at h
    · contradiction
    · cases h

/-- What an iteration of the loop keeps: the bytes it read, below the limit. -/
theorem turn_eq_again {peerAddr : SocketAddr} {required : Bool} {stream : TcpStream}
    {buf chunk buf' : List UInt8}
    (h : turn C config peerAddr required stream buf chunk = .again buf') :
    chunk ≠ [] ∧ buf' = buf ++ chunk ∧ buf'.length < config.maxHeaderSize := by
  rcases turn_cases C config peerAddr required stream buf chunk with
    ⟨e, hturn, -⟩ | ⟨hturn, hchunk, hsize⟩ | hturn
  · rw [hturn] at h
    cases h
  · rw [hturn] at h
    cases h
    exact ⟨hchunk, rfl, hsize⟩
  · rw [hturn] at h
    cases h

/-- A stream that an iteration of the loop leaves with. -/
theorem produced_of_turn {peerAddr : SocketAddr} {required : Bool} {stream : TcpStream}
    {buf chunk : List UInt8} {st : ProxiedStream}
    (h : turn C config peerAddr required stream buf chunk = .leave (.ok st)) :
    Produced C config peerAddr required (buf ++ (chunk ++ stream.unread)) st := by
  rcases turn_cases C config peerAddr required stream buf chunk with
    ⟨e, hturn, -⟩ | ⟨hturn, -⟩ | hturn
  · rw [hturn] at h
    cases h
  · rw [hturn] at h
    cases h
  · rw [hturn, Turn.leave.injEq] at h
    rw [← List.append_assoc]
    rcases conclude_eq_ok.mp h with ⟨info, n, hparse, hcheck, -, rfl⟩ | ⟨-, hoptional, rfl⟩
    · exact .parsed rfl hparse hcheck
    · exact .direct hoptional rfl

/-! ## Runs -/

theorem punctual_within :
    (punctual C config maxInstant).Within (concurrent C config maxInstant) where
  shift h := h.1
  start h := h
  step h := h

theorem sequential_within :
    (sequential C config maxInstant).Within (concurrent C config maxInstant) where
  shift h := h
  start h := h.2
  step h := h

/-! ### Two connections for one permit -/

/-- One permit, and a timeout of 100 ns. -/
def narrowConfig : ProxyProtocolConfig Empty :=
  { maxPendingHandshakes := 1, headerTimeout := ⟨0, ⟨100, by decide⟩⟩ }

/-- A peer that sends a LOCAL header and a byte at the given time. -/
def narrowStream (time : ℕ) : TcpStream :=
  ⟨[⟨time, v2Signature ++ [0x20, 0x00, 0x00, 0x00, 0x47], by decide⟩], .silent⟩

def narrowCall (time : ℕ) (phase : Phase Empty) : Call Empty :=
  ⟨narrowStream time, .v4 (.new 192 0 2 9) 4000, 0, phase⟩

def narrowListener : ProxyProtocolListener Unit Empty := ⟨(), narrowConfig, ⟨1⟩⟩

/-- The stream that the first of them becomes. -/
def narrowAccepted : ProxiedStream :=
  .new ⟨[], .silent⟩ [0x47] (some ⟨.v2, .local, none, none, none, {}⟩) (.v4 (.new 192 0 2 9) 4000)

/-- The first call is done, and the second got its permit. -/
def narrowState : Machine Shared (Call Empty) :=
  ⟨⟨6, ⟨0⟩⟩, [narrowCall 5 (.returned (.granted 0) (.ok narrowAccepted)),
    narrowCall 90 (.reading 6 106 (narrowStream 90) [])]⟩

theorem new_narrowListener :
    (ProxyProtocolListener.new () narrowConfig : Outcome Empty _) = .ok narrowListener := rfl

theorem next_narrow_start (time : ℕ) (calls : List (Call Empty)) :
    (punctual .castagnoli narrowConfig 1000).Next ⟨⟨0, ⟨1⟩⟩, calls⟩
      ⟨⟨0, ⟨1⟩⟩, calls ++ [narrowCall time .waiting]⟩ :=
  .start ⟨narrowStream time, .v4 (.new 192 0 2 9) 4000, rfl⟩

theorem poll_narrow_granted :
    (narrowCall 5 .waiting).poll .castagnoli narrowConfig 1000 ⟨0, ⟨1⟩⟩ =
      .ready (⟨0, ⟨0⟩⟩, narrowCall 5 (.reading 0 100 (narrowStream 5) [])) :=
  poll_finds (.free rfl (by decide)) (by decide)

theorem poll_narrow_returned :
    (narrowCall 5 (.reading 0 100 (narrowStream 5) [])).poll .castagnoli narrowConfig 1000
        ⟨6, ⟨0⟩⟩ =
      .ready (⟨6, ⟨1⟩⟩, narrowCall 5 (.returned (.granted 0) (.ok narrowAccepted))) := rfl

theorem hand_narrow :
    (narrowCall 90 .waiting).hand ⟨6, ⟨1⟩⟩ = some (⟨6, ⟨0⟩⟩, narrowCall 90 .handed) := rfl

theorem poll_narrow_second :
    (narrowCall 90 .handed).poll .castagnoli narrowConfig 1000 ⟨6, ⟨0⟩⟩ =
      .ready (⟨6, ⟨0⟩⟩, narrowCall 90 (.reading 6 106 (narrowStream 90) [])) :=
  poll_finds (.handed rfl) (by decide)

theorem ticks_narrow :
    PunctualTicks narrowConfig ⟨0, ⟨0⟩⟩
      [narrowCall 5 (.reading 0 100 (narrowStream 5) []), narrowCall 90 .waiting] ⟨6, ⟨0⟩⟩ := by
  refine ⟨⟨by decide, rfl⟩, ?_⟩
  intro c hc t ht
  simp only [List.mem_cons, List.not_mem_nil, or_false] at hc
  rcases hc with rfl | rfl
  · cases ht
    decide
  · cases ht
    decide

/-- Both are accepted, the first gets the permit and reads its header at time
6; then the permit is handed to the second, which finds it when it is polled. -/
theorem punctual_narrow :
    (punctual .castagnoli narrowConfig 1000).Runs (narrowListener.idle 0) narrowState := by
  have hstarted := (Relation.ReflTransGen.single (next_narrow_start 5 [])).tail
    (next_narrow_start 90 _)
  have hgranted := hstarted.tail
    (@Rules.Next.step _ _ _ _ _ [] [narrowCall 90 .waiting] _ _ (.inl poll_narrow_granted))
  have hreturned := (hgranted.tail (.shift ticks_narrow)).tail
    (@Rules.Next.step _ _ _ _ _ [] [narrowCall 90 .waiting] _ _ (.inl poll_narrow_returned))
  have hhanded := hreturned.tail
    (@Rules.Next.step _ _ _ _ _ [_] [] _ _ (.inr (.inr hand_narrow)))
  exact hhanded.tail (@Rules.Next.step _ _ _ _ _ [_] [] _ _ (.inl poll_narrow_second))

/-- The first of them alone. -/
theorem sequential_narrow :
    (sequential .castagnoli narrowConfig 1000).Runs (narrowListener.idle 0)
      ⟨⟨6, ⟨1⟩⟩, [narrowCall 5 (.returned (.granted 0) (.ok narrowAccepted))]⟩ := by
  have hstarted : (sequential .castagnoli narrowConfig 1000).Next (narrowListener.idle 0)
      ⟨⟨0, ⟨1⟩⟩, [narrowCall 5 .waiting]⟩ :=
    @Rules.Next.start _ _ _ _ [] _ ⟨by simp, narrowStream 5, .v4 (.new 192 0 2 9) 4000, rfl⟩
  have hgranted := (Relation.ReflTransGen.single hstarted).tail
    (@Rules.Next.step _ _ _ _ _ [] [] _ _ (.inl poll_narrow_granted))
  have htick : Ticks ⟨0, ⟨0⟩⟩ [narrowCall 5 (.reading 0 100 (narrowStream 5) [])] ⟨6, ⟨0⟩⟩ :=
    ⟨by decide, rfl⟩
  exact (hgranted.tail (.shift htick)).tail
    (@Rules.Next.step _ _ _ _ _ [] [] _ _ (.inl poll_narrow_returned))

/-! ## Permits and memory -/

@[simp] theorem held_start (now : ℕ) (stream : TcpStream) (peerAddr : SocketAddr) :
    (Call.start config now stream peerAddr).held = 0 := by
  simp only [Call.held, Call.start]
  cases config.policy peerAddr <;> rfl

/-- A permit that a call finds was free or its own. -/
theorem Finds.conserves (h : Finds s c s') :
    s'.semaphore.permits + 1 = s.semaphore.permits + c.held := by
  cases h with
  | free hphase hfree =>
      simp only [Call.held, hphase, Shared.acquired]
      omega
  | handed hphase => simp only [Call.held, hphase]

/-- A permit moves between the semaphore and one call. -/
theorem conserves_permits : Conserves (concurrent C config maxInstant)
    (fun s => s.semaphore.permits) Call.held where
  shift h := by rw [h.2]
  start h := by
    rcases h with ⟨stream, peerAddr, rfl⟩
    exact held_start _ _ _
  step := by
    intro s c s' c' h
    rcases h with h | h | h
    · cases polled_of_poll h with
      | granted hfinds hclock => exact hfinds.conserves
      | unrepresentable hfinds hclock =>
          have hfound := hfinds.conserves
          simp only [Call.held, Shared.release, Semaphore.release] at hfound ⊢
          omega
      | unserved hphase hnone hlate => simp only [Call.held, hphase]
      | again hphase hread hturn => simp only [Call.held, hphase]
      | left hphase hread hturn =>
          simp only [Call.held, hphase, Shared.release, Semaphore.release]
      | failed hphase hread =>
          simp only [Call.held, hphase, Shared.release, Semaphore.release]
      | late hphase hread hlate =>
          simp only [Call.held, hphase, Shared.release, Semaphore.release]
    · rcases drop_cases h with ⟨rfl, ⟨hphase, rfl⟩ | ⟨hheld, rfl⟩⟩
      · simp only [Call.held, hphase]
      · rw [hheld]
        rfl
    · rcases hand_cases h with ⟨hphase, hfree, rfl, rfl⟩
      simp only [Call.held, hphase, Shared.acquired]
      omega

/-- The policy asks for a handshake. -/
def Handshakes (config : ProxyProtocolConfig E) (peerAddr : SocketAddr) : Prop :=
  config.policy peerAddr = .require ∨ config.policy peerAddr = .use

/-- A stream of this call's connection: passed on unread, or produced from the
bytes that its own peer sends. -/
def FromOwnPeer (C : Crc32c) (config : ProxyProtocolConfig E) (c : Call E) (st : ProxiedStream) :
    Prop :=
  (config.policy c.peerAddr = .ignore ∧ st = .new c.stream [] none c.peerAddr) ∨
    (Handshakes config c.peerAddr ∧
      Produced C config c.peerAddr (c.required config) c.stream.unread st)

/-- What holds of a call under every schedule: a handshake has read a prefix of
what its peer sends, below the limit. -/
inductive Intact (C : Crc32c) (config : ProxyProtocolConfig E) (c : Call E) : Phase E → Prop where
  | waiting (policy : Handshakes config c.peerAddr) : Intact C config c .waiting
  | handed (policy : Handshakes config c.peerAddr) : Intact C config c .handed
  | reading {grantedAt deadline : ℕ} {stream : TcpStream} {buf : List UInt8}
      (policy : Handshakes config c.peerAddr) (bytes : buf ++ stream.unread = c.stream.unread)
      (limit : buf.length ≤ config.maxHeaderSize - 1) :
      Intact C config c (.reading grantedAt deadline stream buf)
  | returned {permit : Acquire} {result : AcceptResult E ProxiedStream}
      (streams : ∀ st, result = .ok st → FromOwnPeer C config c st) :
      Intact C config c (.returned permit result)
  | dropped : Intact C config c .dropped

/-- A call that returns an error returns no stream. -/
theorem Intact.no_stream {permit : Acquire} {result : AcceptResult E ProxiedStream}
    (h : ∀ st, result ≠ .ok st) : Intact C config c (.returned permit result) := by
  refine .returned ?_
  intro st hst
  exact absurd hst (h st)

theorem intact_start (now : ℕ) (stream : TcpStream) (peerAddr : SocketAddr) :
    Intact C config (Call.start config now stream peerAddr)
      (Call.start config now stream peerAddr).phase := by
  simp only [Call.start]
  cases hpolicy : config.policy peerAddr with
  | require => exact .waiting (.inl hpolicy)
  | use => exact .waiting (.inr hpolicy)
  | ignore =>
      refine .returned ?_
      intro st hst
      cases hst
      exact .inl ⟨hpolicy, rfl⟩
  | reject => exact .no_stream (by simp)

/-- A read of the loop hands the first unread bytes over. -/
theorem unread_of_pollRead {stream stream' : TcpStream} {now cap : ℕ} {chunk : List UInt8}
    (h : stream.pollRead now cap = (.ready (.ok chunk), stream')) :
    stream.unread = chunk ++ stream'.unread := by
  have hbytes := stream.unread_pollRead now cap
  rw [h] at hbytes
  exact hbytes.symm

theorem length_lt_of_again {peerAddr : SocketAddr} {required : Bool} {stream stream' : TcpStream}
    {now : ℕ} {buf chunk buf' : List UInt8}
    (hread : stream.pollRead now readChunk = (.ready (.ok chunk), stream'))
    (hturn : turn C config peerAddr required stream' buf chunk = .again buf') :
    stream'.unread.length < stream.unread.length := by
  have hpos := List.length_pos_iff.mpr (turn_eq_again hturn).1
  rw [unread_of_pollRead hread, List.length_append]
  omega

theorem Intact.policy_of_finds (hc : Intact C config c c.phase) (h : Finds s c s') :
    Handshakes config c.peerAddr := by
  cases h with
  | free hphase hfree =>
      rw [hphase] at hc
      cases hc with
      | waiting policy => exact policy
  | handed hphase =>
      rw [hphase] at hc
      cases hc with
      | handed policy => exact policy

theorem intact_polled (h : Polled C config maxInstant s c s' c') (hc : Intact C config c c.phase) :
    Intact C config c' c'.phase := by
  cases h with
  | granted hfinds hclock => exact .reading (hc.policy_of_finds hfinds) rfl (Nat.zero_le _)
  | unrepresentable hfinds hclock => exact .no_stream (by simp)
  | unserved hphase hnone hlate => exact .no_stream (by simp)
  | again hphase hread hturn =>
      rw [hphase] at hc
      cases hc with
      | reading policy bytes limit =>
          rcases turn_eq_again hturn with ⟨-, rfl, hlt⟩
          refine .reading policy ?_ (by omega)
          rw [← bytes, unread_of_pollRead hread, List.append_assoc]
  | left hphase hread hturn =>
      rw [hphase] at hc
      cases hc with
      | reading policy bytes limit =>
          refine .returned ?_
          rintro st rfl
          rw [unread_of_pollRead hread] at bytes
          have hproduced := produced_of_turn hturn
          rw [bytes] at hproduced
          exact .inr ⟨policy, hproduced⟩
  | failed hphase hread => exact .no_stream (by simp)
  | late hphase hread hlate => exact .no_stream (by simp)

theorem local_intact :
    Local (concurrent C config maxInstant) (fun _ c => Intact C config c c.phase) where
  shift _ _ h := h
  start h := by
    rcases h with ⟨stream, peerAddr, rfl⟩
    exact intact_start _ _ _
  step := by
    intro s c s' c' h hc
    rcases h with h | h | h
    · exact intact_polled (polled_of_poll h) hc
    · rcases drop_cases h with ⟨rfl, -⟩
      exact .dropped
    · rcases hand_cases h with ⟨hphase, -, -, rfl⟩
      rw [hphase] at hc
      cases hc with
      | waiting policy => exact .handed policy
  frame _ h := h

theorem intact_of_runs {L : Type} {l : ProxyProtocolListener L E} {start : ℕ}
    {m : Machine Shared (Call E)} (hrun : (concurrent C config maxInstant).Runs (l.idle start) m) :
    ∀ c ∈ m.tasks, Intact C config c c.phase :=
  local_intact.runs hrun (by simp [ProxyProtocolListener.idle])

/-- What a call buffers is bounded, and nothing without a permit. -/
theorem Intact.buffered_le (h : Intact C config c c.phase) :
    c.buffered ≤ (config.maxHeaderSize - 1) * c.held := by
  simp only [Call.buffered, Call.held]
  generalize c.phase = phase at h
  cases h with
  | reading policy bytes limit => simpa using limit
  | _ => exact Nat.zero_le _

theorem Call.Settled.held_eq_zero (h : c.Settled) : c.held = 0 := by
  unfold Call.Settled at h
  unfold Call.held
  split at h
  · rename_i hphase
    rw [hphase]
  · rename_i hphase
    rw [hphase]
  · exact h.elim

theorem permits_of_new {L : Type} {listener : L} {l : ProxyProtocolListener L E}
    (h : (ProxyProtocolListener.new listener config : Outcome Empty _) = .ok l) :
    l.handshakeSemaphore.permits = config.maxPendingHandshakes := by
  rcases Outcome.bind_eq_ok.mp h with ⟨semaphore, hsemaphore, hl⟩
  cases hl
  unfold Semaphore.new at hsemaphore
  split at hsemaphore
  · cases hsemaphore
    rfl
  · cases hsemaphore

theorem sum_held_of_settled {calls : List (Call E)} (h : ∀ c ∈ calls, c.Settled) :
    (calls.map Call.held).sum = 0 := by
  rw [List.sum_eq_zero_iff]
  intro n hn
  rcases List.mem_map.mp hn with ⟨c, hc, rfl⟩
  exact (h c hc).held_eq_zero

/-- Every permit is free or with one call. -/
theorem semaphore_of_runs {L : Type} {listener : L} {l : ProxyProtocolListener L E} {start : ℕ}
    {m : Machine Shared (Call E)}
    (hnew : (ProxyProtocolListener.new listener config : Outcome Empty _) = .ok l)
    (hrun : (concurrent C config maxInstant).Runs (l.idle start) m) :
    m.shared.semaphore.permits + (m.tasks.map Call.held).sum = config.maxPendingHandshakes ∧
    ((∀ c ∈ m.tasks, c.Settled) → m.shared.semaphore = l.handshakeSemaphore) := by
  have hpermits := permits_of_new hnew
  have hconserved := conserves_permits.runs hrun
  simp only [Machine.total, ProxyProtocolListener.idle, List.map_nil, List.sum_nil,
    Nat.add_zero] at hconserved
  refine ⟨hconserved.trans hpermits, ?_⟩
  intro hsettled
  rw [sum_held_of_settled hsettled, Nat.add_zero] at hconserved
  exact congrArg Semaphore.mk hconserved

/-- The semaphore bounds what peers can take. In every state of every run,
however the calls are scheduled and whichever of them fail, time out or are
dropped: the free permits and those that calls hold, or have been handed, are
together `max_pending_handshakes`, so the semaphore is whole again when the
last call ends; and all handshakes together buffer less than `max_header_size`
bytes for each permit. -/
theorem handshakes_bounded {L : Type} {listener : L} {l : ProxyProtocolListener L E} {start : ℕ}
    {m : Machine Shared (Call E)}
    (hnew : (ProxyProtocolListener.new listener config : Outcome Empty _) = .ok l)
    (hrun : (concurrent C config maxInstant).Runs (l.idle start) m) :
    m.shared.semaphore.permits + (m.tasks.map Call.held).sum = config.maxPendingHandshakes ∧
    ((∀ c ∈ m.tasks, c.Settled) → m.shared.semaphore = l.handshakeSemaphore) ∧
    (m.tasks.map Call.buffered).sum ≤
      config.maxPendingHandshakes * (config.maxHeaderSize - 1) := by
  rcases semaphore_of_runs hnew hrun with ⟨htotal, hwhole⟩
  refine ⟨htotal, hwhole, ?_⟩
  have hle : (m.tasks.map Call.buffered).sum ≤
      (m.tasks.map (fun c => (config.maxHeaderSize - 1) * c.held)).sum :=
    List.sum_le_sum (fun c hc => (intact_of_runs hrun c hc).buffered_le)
  rw [List.sum_map_mul_left] at hle
  calc (m.tasks.map Call.buffered).sum
      ≤ (config.maxHeaderSize - 1) * (m.tasks.map Call.held).sum := hle
    _ ≤ (config.maxHeaderSize - 1) * config.maxPendingHandshakes :=
        Nat.mul_le_mul_left _ (by omega)
    _ = config.maxPendingHandshakes * (config.maxHeaderSize - 1) := Nat.mul_comm _ _

theorem handshakes_bounded_narrow :
    narrowState.shared.semaphore.permits + (narrowState.tasks.map Call.held).sum = 1 ∧
      (narrowState.tasks.map Call.buffered).sum ≤ 1 * (narrowConfig.maxHeaderSize - 1) := by
  have h := handshakes_bounded new_narrowListener (punctual_within.runs punctual_narrow)
  exact ⟨h.1, h.2.2⟩

/-! ## Where streams come from -/

theorem FromOwnPeer.peerAddr_eq {st : ProxiedStream} (h : FromOwnPeer C config c st) :
    st.peerAddr = c.peerAddr := by
  rcases h with ⟨-, rfl⟩ | ⟨-, hproduced⟩
  · rfl
  · cases hproduced <;> rfl

theorem FromOwnPeer.undelivered {st : ProxiedStream} (h : FromOwnPeer C config c st) :
    ∃ n, HeaderLength C c.stream.unread st n ∧ st.undelivered = c.stream.unread.drop n := by
  rcases h with ⟨-, rfl⟩ | ⟨-, hproduced⟩
  · exact ⟨0, rfl, rfl⟩
  · exact hproduced.undelivered.2

theorem FromOwnPeer.check {st : ProxiedStream} {info : ProxyInfo}
    (h : FromOwnPeer C config c st) (hinfo : st.proxyInfo = some info) :
    Handshakes config c.peerAddr ∧ checkHeader config c.peerAddr info = .ok () := by
  rcases h with ⟨-, rfl⟩ | ⟨hpolicy, hproduced⟩
  · cases hinfo
  · refine ⟨hpolicy, ?_⟩
    cases hproduced with
    | parsed bytes hparse check =>
        cases hinfo
        exact check
    | direct optional bytes => cases hinfo

/-- Where a policy asks only trusted peers for a handshake. -/
theorem trusted_of_handshakes {Net : Type} [IpNet Net] {T : TrustedProxies Net}
    {peerAddr : SocketAddr} (hpolicy : UsesTrusted config T) (h : Handshakes config peerAddr) :
    T.contains peerAddr.ip = true := by
  by_contra huntrusted
  have hfalse := Bool.eq_false_of_not_eq_true huntrusted
  rcases hpolicy with hpolicy | hpolicy
  · simp [Handshakes, hpolicy, TrustedProxies.evaluate, hfalse] at h
  · simp [Handshakes, hpolicy, MixedMode.evaluate, hfalse] at h

/-- Handshakes do not mix. Under every schedule, a stream that a call returns
is for that call's peer, carries only a header which that peer sent and which
was checked for it, and delivers what this peer sent behind the header; and
with a trusted set, its client address is the peer's unless this peer is
trusted. -/
theorem streams_from_own_bytes {L : Type} {l : ProxyProtocolListener L E} {start : ℕ}
    {m : Machine Shared (Call E)} (hrun : (concurrent C config maxInstant).Runs (l.idle start) m)
    (hc : c ∈ m.tasks) {permit : Acquire} {st : ProxiedStream}
    (hreturned : c.phase = .returned permit (.ok st)) :
    st.peerAddr = c.peerAddr ∧
    (∃ n, HeaderLength C c.stream.unread st n ∧ st.undelivered = c.stream.unread.drop n) ∧
    (∀ info, st.proxyInfo = some info → checkHeader config c.peerAddr info = .ok ()) ∧
    ∀ (Net : Type) [IpNet Net] (T : TrustedProxies Net), UsesTrusted config T →
      st.clientAddr ≠ c.peerAddr → T.contains c.peerAddr.ip = true := by
  have hown : FromOwnPeer C config c st := by
    have hintact := intact_of_runs hrun c hc
    rw [hreturned] at hintact
    cases hintact with
    | returned streams => exact streams st rfl
  refine ⟨hown.peerAddr_eq, hown.undelivered, ?_, ?_⟩
  · intro info hinfo
    exact (hown.check hinfo).2
  · intro Net _ T hpolicy hclient
    cases hinfo : st.proxyInfo with
    | none =>
        -- without a header the client is the peer
        rw [ProxiedStream.clientAddr, hinfo] at hclient
        exact absurd hown.peerAddr_eq hclient
    | some info => exact trusted_of_handshakes hpolicy (hown.check hinfo).1

theorem streams_from_own_bytes_narrow :
    ∃ n, HeaderLength .castagnoli (narrowStream 5).unread narrowAccepted n ∧
      narrowAccepted.undelivered = (narrowStream 5).unread.drop n :=
  (streams_from_own_bytes (punctual_within.runs punctual_narrow)
    (c := narrowCall 5 (.returned (.granted 0) (.ok narrowAccepted))) (.head _) rfl).2.1

end Steps

end ProxyProtocol
