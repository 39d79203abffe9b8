import ProxyProtocol.Config
import ProxyProtocol.Lib.Incremental
import ProxyProtocol.Parse.Dispatch
import ProxyProtocol.Stream

/-! # The listener

`listener.rs`: accept a connection, ask the policy, read until the parser has
a verdict, check the header, and hand the stream on.

* `readLoop_eq_feedSteps`, `readLoop_eq_feed`: the read loop is the incremental
  reader of `Lib.Incremental`, over the socket as a source and `parse` as the
  decoder.
* `of_readAndValidate`, `of_accept`: every way to get a stream.

What lies outside the crate is an input: when the socket can be read (in the
socket), when the handshake permit is granted and which instants the clock can
represent (`Handshake`). A future under a timeout resolves iff it is ready by
the deadline.
-/

namespace ProxyProtocol

open Wire

/-- How the wait for a handshake permit ends. -/
inductive Acquire where
  | granted (time : ℕ)
  | closed (time : ℕ)
  | never
deriving DecidableEq, Repr

/-- What one `accept` call depends on besides the socket. -/
structure Handshake where
  acceptedAt : ℕ
  permit : Acquire
  maxInstant : ℕ
deriving DecidableEq, Repr

/-! ## Construction -/

/-- `tokio::sync::Semaphore`, as far as the listener builds one. -/
structure Semaphore where
  permits : ℕ
deriving DecidableEq, Repr

/-- The most permits that the semaphore can count, `usize::MAX >> 3`. -/
def Semaphore.maxPermits : ℕ := Outcome.usizeMax >>> 3

def Semaphore.new {ε : Type} (permits : ℕ) : Outcome ε Semaphore :=
  if permits ≤ maxPermits then .ok ⟨permits⟩ else .panic

/-- `L` stands for the TCP listener. -/
structure ProxyProtocolListener (L E : Type) where
  inner : L
  config : ProxyProtocolConfig E
  handshakeSemaphore : Semaphore

def ProxyProtocolListener.new {ε L E : Type} (listener : L) (config : ProxyProtocolConfig E) :
    Outcome ε (ProxyProtocolListener L E) := do
  let semaphore ← Semaphore.new config.maxPendingHandshakes
  .ok { inner := listener, config, handshakeSemaphore := semaphore }

/-! ## The handshake -/

abbrev AcceptResult (E : Type) := Outcome (AcceptError E)

/-- How an iteration of the loop goes on after its read. -/
inductive Turn (E : Type) where
  | again (buf : List UInt8)
  | leave (result : AcceptResult E ProxiedStream)

/-- `[0u8; 256]`, the buffer of one read. -/
def readChunk : ℕ := 256

section Model

variable {E : Type} (C : Crc32c) (config : ProxyProtocolConfig E) (peerAddr : SocketAddr)

/-- `timeout(header_timeout, handshake_semaphore.acquire())`. -/
def acquirePermit (env : Handshake) : AcceptResult E ℕ :=
  match env.permit with
  | .granted t =>
      if t ≤ env.acceptedAt + config.headerTimeout.asNanos then .ok t
      else .err (.headerTimeout peerAddr)
  | .closed t =>
      if t ≤ env.acceptedAt + config.headerTimeout.asNanos then
        .err (.io ⟨.other, "semaphore closed"⟩)
      else .err (.headerTimeout peerAddr)
  | .never => .err (.headerTimeout peerAddr)

/-- `Instant::now() + header_timeout`, at time `now`. -/
def handshakeDeadline (env : Handshake) (now : ℕ) : AcceptResult E ℕ :=
  if now + config.headerTimeout.asNanos ≤ env.maxInstant then
    .ok (now + config.headerTimeout.asNanos)
  else .panic

/-- `timeout_at(deadline, stream.read(&mut tmp))`: the bytes read, none at the
end of the stream. -/
def timedRead (deadline : ℕ) (stream : TcpStream) :
    AcceptResult E (List UInt8 × TcpStream) :=
  match stream.read readChunk with
  | .data t bytes rest =>
      if t ≤ deadline then .ok (bytes, rest) else .err (.headerTimeout peerAddr)
  | .eof t => if t ≤ deadline then .ok ([], stream) else .err (.headerTimeout peerAddr)
  | .failed t e => if t ≤ deadline then .err (.io e) else .err (.headerTimeout peerAddr)
  | .never => .err (.headerTimeout peerAddr)

/-- The version check, then the validator. -/
def checkHeader (info : ProxyInfo) : AcceptResult E Unit :=
  if config.version.allows info.version then
    match config.validator with
    | none => .ok ()
    | some validate =>
        match validate info peerAddr with
        | .ok () => .ok ()
        | .error e => .err (.validationFailed e peerAddr)
  else .err (.versionMismatch peerAddr)

/-- The arms of `match parse(&buf)` that leave the loop. -/
def conclude (required : Bool) (stream : TcpStream) (buf : List UInt8) :
    ParseResult (ProxyInfo × ℕ) → AcceptResult E ProxiedStream
  | .ok (info, consumed) => do
      checkHeader config peerAddr info
      let leftover ← Outcome.sliceFrom buf consumed
      .ok (.new stream leftover (some info) peerAddr)
  | .err .notProxyProtocol =>
      if required then .err (.parse .notProxyProtocol peerAddr)
      else .ok (.new stream buf none peerAddr)
  | .err e => .err (.parse e peerAddr)
  | .panic => .panic
  | .diverge => .diverge

/-- The rest of an iteration of the loop, once a read returned `chunk`. -/
def turn (required : Bool) (stream : TcpStream) (buf chunk : List UInt8) : Turn E :=
  -- a read of no bytes is the end of the stream
  if chunk.length = 0 then
    if buf.isEmpty then .leave (.err (.emptyConnection peerAddr))
    else .leave (.err (.parse .incomplete peerAddr))
  else
    let buf := buf ++ chunk
    match parse C buf with
    | .err .incomplete =>
        -- the only place where the limit is looked at
        if buf.length < config.maxHeaderSize then .again buf
        else .leave (.err (.parse .incomplete peerAddr))
    | verdict => .leave (conclude config peerAddr required stream buf verdict)

/-- The loop. One unit of fuel is one iteration. -/
def readLoop (required : Bool) (deadline : ℕ) :
    ℕ → TcpStream → List UInt8 → AcceptResult E ProxiedStream
  | 0, _, _ => .diverge
  | fuel + 1, stream, buf => do
      let (chunk, stream) ← timedRead peerAddr deadline stream
      match turn C config peerAddr required stream buf chunk with
      | .again buf => readLoop required deadline fuel stream buf
      | .leave result => result

/-- `read_and_validate`. Every iteration but the last takes a byte off the
stream, which bounds their number. -/
def readAndValidate (env : Handshake) (stream : TcpStream) (required : Bool) :
    AcceptResult E ProxiedStream := do
  let now ← acquirePermit config peerAddr env
  let deadline ← handshakeDeadline config env now
  readLoop C config peerAddr required deadline (stream.unread.length + 1) stream []

end Model

/-- `accept`: `incoming` is what the TCP listener returns. -/
def accept {E : Type} (C : Crc32c) (config : ProxyProtocolConfig E) (env : Handshake)
    (incoming : Except IoError (TcpStream × SocketAddr)) : AcceptResult E ProxiedStream :=
  match incoming with
  | .error e => .err (.io e)
  | .ok (stream, peerAddr) =>
      let decision := config.policy peerAddr
      match decision with
      | .reject => .err (.rejected peerAddr)
      -- not a byte of the socket is read
      | .ignore => .ok (.new stream [] none peerAddr)
      | .require | .use =>
          let required := decision == .require
          readAndValidate C config peerAddr env stream required

/-! ## The loop as an incremental reader -/

/-- The verdict on a buffer; `none` if the parser needs more. -/
def verdict (C : Crc32c) (buf : List UInt8) : Option (ParseResult (ProxyInfo × ℕ)) :=
  match parse C buf with
  | .err .incomplete => none
  | r => some r

theorem verdict_eq_none {C : Crc32c} {buf : List UInt8} :
    verdict C buf = none ↔ parse C buf = .err .incomplete := by
  unfold verdict
  split <;> simp_all

theorem verdict_eq_some {C : Crc32c} {buf : List UInt8} {r : ParseResult (ProxyInfo × ℕ)} :
    verdict C buf = some r ↔ parse C buf = r ∧ r ≠ .err .incomplete := by
  unfold verdict
  split
  · rename_i h
    rw [h]
    simp only [reduceCtorEq, false_iff, not_and, not_not]
    exact Eq.symm
  · rename_i h
    rw [Option.some.injEq]
    constructor
    · rintro rfl
      exact ⟨rfl, h⟩
    · exact And.left

theorem stable_verdict (C : Crc32c) : Stable (verdict C) := by
  intro buf extra r h
  rw [verdict_eq_some] at h ⊢
  obtain ⟨rfl, hr⟩ := h
  exact ⟨(parse_settles C).append hr extra, hr⟩

/-- Reads that complete by the deadline. -/
def timedSource (deadline : ℕ) : Source TcpStream UInt8 where
  pending := TcpStream.unread
  read s :=
    match s.read readChunk with
    | .data t bytes rest => if t ≤ deadline then some (bytes, rest) else none
    | _ => none
  read_pending := by
    intro s c s' h
    split at h
    · rename_i hread
      split at h
      · cases h
        exact (TcpStream.unread_of_read hread).1
      · cases h
    · cases h
  read_nonempty := by
    intro s c s' h
    split at h
    · rename_i hread
      split at h
      · cases h
        exact (TcpStream.unread_of_read hread).2.2 (by decide)
      · cases h
    · cases h

/-- The error of a loop that gets no more data. -/
def starvedError {E : Type} (peerAddr : SocketAddr) (deadline : ℕ) (buf : List UInt8)
    (stream : TcpStream) : AcceptError E :=
  match stream.read readChunk with
  | .eof t =>
      if t ≤ deadline then
        if buf.isEmpty then .emptyConnection peerAddr else .parse .incomplete peerAddr
      else .headerTimeout peerAddr
  | .failed t e => if t ≤ deadline then .io e else .headerTimeout peerAddr
  | _ => .headerTimeout peerAddr

section Refinement

variable {E : Type} {C : Crc32c} {config : ProxyProtocolConfig E} {peerAddr : SocketAddr}
  {required : Bool} {deadline : ℕ}

theorem timedSource_read {s s' : TcpStream} {c : List UInt8} :
    (timedSource deadline).read s = some (c, s') ↔
      ∃ t ≤ deadline, s.read readChunk = .data t c s' := by
  simp only [timedSource]
  split
  · rename_i t bytes rest hread
    by_cases ht : t ≤ deadline
    · simp only [if_pos ht, Option.some.injEq, Prod.mk.injEq, hread, ReadEvent.data.injEq]
      constructor
      · rintro ⟨rfl, rfl⟩
        exact ⟨t, ht, rfl, rfl, rfl⟩
      · rintro ⟨_, -, rfl, rfl, rfl⟩
        exact ⟨rfl, rfl⟩
    · simp only [if_neg ht, reduceCtorEq, false_iff, hread, ReadEvent.data.injEq]
      rintro ⟨t', ht', rfl, -, -⟩
      exact ht ht'
  · rename_i hread
    simp only [reduceCtorEq, false_iff]
    rintro ⟨t, -, h⟩
    exact hread _ _ _ h

/-- An iteration whose read returns. -/
theorem readLoop_turn {stream stream' : TcpStream} {buf chunk : List UInt8} (fuel : ℕ)
    (h : (timedRead peerAddr deadline stream : AcceptResult E _) = .ok (chunk, stream')) :
    readLoop C config peerAddr required deadline (fuel + 1) stream buf =
      match turn C config peerAddr required stream' buf chunk with
      | .again buf' => readLoop C config peerAddr required deadline fuel stream' buf'
      | .leave result => result := by
  rw [readLoop, h, Outcome.ok_bind]

/-- What an iteration makes of data. -/
theorem turn_data {stream : TcpStream} {buf chunk : List UInt8} (h : chunk ≠ []) :
    turn C config peerAddr required stream buf chunk =
      match verdict C (buf ++ chunk) with
      | some r => .leave (conclude config peerAddr required stream (buf ++ chunk) r)
      | none =>
          if (buf ++ chunk).length < config.maxHeaderSize then .again (buf ++ chunk)
          else .leave (.err (.parse .incomplete peerAddr)) := by
  have hpos := List.length_pos_iff.mpr h
  rw [turn, if_neg (Nat.pos_iff_ne_zero.mp hpos)]
  dsimp only
  cases hv : verdict C (buf ++ chunk) with
  | none => rw [verdict_eq_none.mp hv]
  | some r =>
      obtain ⟨hparse, hr⟩ := verdict_eq_some.mp hv
      rw [hparse]
      split
      · exact absurd rfl hr
      · rfl

/-- Everything that an iteration can do after its read: give up, go on with a
longer buffer below the limit, or leave with what the parser says of it. -/
theorem turn_cases (C : Crc32c) (config : ProxyProtocolConfig E) (peerAddr : SocketAddr)
    (required : Bool) (stream : TcpStream) (buf chunk : List UInt8) :
    (∃ e, turn C config peerAddr required stream buf chunk = .leave (.err e) ∧
      (e = .emptyConnection peerAddr ∨ e = .parse .incomplete peerAddr)) ∨
    (turn C config peerAddr required stream buf chunk = .again (buf ++ chunk) ∧ chunk ≠ [] ∧
      (buf ++ chunk).length < config.maxHeaderSize) ∨
    turn C config peerAddr required stream buf chunk =
      .leave (conclude config peerAddr required stream (buf ++ chunk)
        (parse C (buf ++ chunk))) := by
  by_cases hchunk : chunk = []
  · left
    rw [hchunk, turn]
    cases buf.isEmpty with
    | true => exact ⟨_, rfl, .inl rfl⟩
    | false => exact ⟨_, rfl, .inr rfl⟩
  · rw [turn_data hchunk]
    cases hv : verdict C (buf ++ chunk) with
    | none =>
        by_cases hsize : (buf ++ chunk).length < config.maxHeaderSize
        · exact .inr (.inl ⟨if_pos hsize, hchunk, hsize⟩)
        · exact .inl ⟨_, if_neg hsize, .inr rfl⟩
    | some r =>
        rw [(verdict_eq_some.mp hv).1]
        exact .inr (.inr rfl)

/-- An iteration that gets data. -/
theorem readLoop_read {s s' : TcpStream} {c : List UInt8} (fuel : ℕ) (buf : List UInt8)
    (h : (timedSource deadline).read s = some (c, s')) :
    readLoop C config peerAddr required deadline (fuel + 1) s buf =
      match verdict C (buf ++ c) with
      | some r => conclude config peerAddr required s' (buf ++ c) r
      | none =>
          if (buf ++ c).length < config.maxHeaderSize then
            readLoop C config peerAddr required deadline fuel s' (buf ++ c)
          else .err (.parse .incomplete peerAddr) := by
  obtain ⟨t, ht, hread⟩ := timedSource_read.mp h
  have htimed : (timedRead peerAddr deadline s : AcceptResult E _) = .ok (c, s') := by
    rw [timedRead, hread]
    simp only [if_pos ht]
  rw [readLoop_turn fuel htimed, turn_data ((timedSource deadline).read_nonempty h)]
  cases verdict C (buf ++ c) with
  | none =>
      by_cases hsize : (buf ++ c).length < config.maxHeaderSize <;>
        simp only [hsize, ↓reduceIte]
  | some r => rfl

/-- An iteration that gets none. -/
theorem readLoop_starved {s : TcpStream} (fuel : ℕ) (buf : List UInt8)
    (h : (timedSource deadline).read s = none) :
    readLoop C config peerAddr required deadline (fuel + 1) s buf =
      .err (starvedError peerAddr deadline buf s) := by
  rw [readLoop, timedRead, starvedError]
  cases hread : s.read readChunk with
  | data t bytes rest =>
      -- there is data, but not in time
      have hlate : ¬t ≤ deadline := by
        intro ht
        rw [timedSource_read.mpr ⟨t, ht, hread⟩] at h
        cases h
      simp only [if_neg hlate, Outcome.err_bind]
  | eof t =>
      by_cases ht : t ≤ deadline
      · simp only [if_pos ht, Outcome.ok_bind, turn, List.length_nil, if_true]
        cases buf.isEmpty <;> rfl
      · simp only [if_neg ht, Outcome.err_bind]
  | failed t e =>
      by_cases ht : t ≤ deadline
      · simp only [if_pos ht, Outcome.err_bind]
      · simp only [if_neg ht, Outcome.err_bind]
  | never => rfl

/-- What the end of the loop is turned into. -/
def ofFeed (config : ProxyProtocolConfig E) (peerAddr : SocketAddr) (required : Bool)
    (deadline : ℕ) :
    Feed TcpStream UInt8 (ParseResult (ProxyInfo × ℕ)) → AcceptResult E ProxiedStream
  | .decided r buf s => conclude config peerAddr required s buf r
  | .overflow _ _ => .err (.parse .incomplete peerAddr)
  | .starved buf s => .err (starvedError peerAddr deadline buf s)

def ofProgress (config : ProxyProtocolConfig E) (peerAddr : SocketAddr) (required : Bool)
    (deadline : ℕ) :
    Progress TcpStream UInt8 (ParseResult (ProxyInfo × ℕ)) → AcceptResult E ProxiedStream
  | .running _ _ => .diverge
  | .ended result => ofFeed config peerAddr required deadline result

/-- An iteration of the loop is a step of the incremental reader. -/
theorem readLoop_eq_feedSteps (fuel : ℕ) : ∀ (s : TcpStream) (buf : List UInt8),
    readLoop C config peerAddr required deadline fuel s buf =
      ofProgress config peerAddr required deadline
        (feedSteps (timedSource deadline).read (verdict C) config.maxHeaderSize fuel buf s) := by
  induction fuel with
  | zero => exact fun _ _ => rfl
  | succ fuel ih =>
      intro s buf
      cases hread : (timedSource deadline).read s with
      | none =>
          rw [readLoop_starved fuel buf hread, feedSteps_ended fuel (feedStep_starved hread)]
          rfl
      | some p =>
          obtain ⟨c, s'⟩ := p
          have hstep : feedStep (timedSource deadline).read (verdict C) config.maxHeaderSize buf s =
            _ := feedStep_read hread
          rw [readLoop_read fuel buf hread]
          cases hv : verdict C (buf ++ c) with
          | some r =>
              rw [hv] at hstep
              rw [feedSteps_ended fuel hstep]
              rfl
          | none =>
              rw [hv] at hstep
              by_cases hlt : (buf ++ c).length < config.maxHeaderSize
              · simp only [if_pos hlt] at hstep ⊢
                rw [feedSteps_running fuel hstep]
                exact ih s' (buf ++ c)
              · simp only [if_neg hlt] at hstep ⊢
                rw [feedSteps_ended fuel hstep]
                rfl

/-- The loop of `read_and_validate` is the incremental reader. -/
theorem readLoop_eq_feed (fuel : ℕ) (s : TcpStream) (buf : List UInt8)
    (hfuel : s.unread.length < fuel) :
    readLoop C config peerAddr required deadline fuel s buf =
      ofFeed config peerAddr required deadline
        (feed (timedSource deadline) (verdict C) config.maxHeaderSize buf s) := by
  rw [readLoop_eq_feedSteps, feedSteps_eq_feed _ _ _ _ _ _ hfuel, ofProgress]

/-! ## Every way to a stream -/

theorem checkHeader_eq_ok {info : ProxyInfo} :
    checkHeader config peerAddr info = .ok () ↔ config.version.allows info.version = true ∧
      ∀ validate, config.validator = some validate → validate info peerAddr = .ok () := by
  unfold checkHeader
  by_cases hversion : config.version.allows info.version = true
  · rw [if_pos hversion]
    cases hvalidator : config.validator with
    | none => simp [hversion]
    | some validate =>
        simp only [hversion, Option.some.injEq, forall_eq', true_and]
        split <;> simp_all
  · simp [hversion]

/-- What leaves the loop with a stream. -/
theorem conclude_eq_ok {stream : TcpStream} {buf : List UInt8} {r : ParseResult (ProxyInfo × ℕ)}
    {st : ProxiedStream} :
    conclude config peerAddr required stream buf r = .ok st ↔
      (∃ info n, r = .ok (info, n) ∧ checkHeader config peerAddr info = .ok () ∧
        n ≤ buf.length ∧ st = .new stream (buf.drop n) (some info) peerAddr) ∨
      (r = .err .notProxyProtocol ∧ required = false ∧ st = .new stream buf none peerAddr) := by
  constructor
  · intro h
    unfold conclude at h
    split at h
    · rename_i info n
      obtain ⟨_, hcheck, hrest⟩ := Outcome.bind_eq_ok.mp h
      obtain ⟨leftover, hslice, hok⟩ := Outcome.bind_eq_ok.mp hrest
      cases hok
      by_cases hle : n ≤ buf.length
      · rw [Outcome.sliceFrom_of_le hle] at hslice
        cases hslice
        exact .inl ⟨info, n, rfl, hcheck, hle, rfl⟩
      · simp [Outcome.sliceFrom, Outcome.slice, hle] at hslice
    · split at h
      · cases h
      · rename_i hrequired
        cases h
        exact .inr ⟨rfl, Bool.eq_false_of_not_eq_true hrequired, rfl⟩
    all_goals cases h
  · rintro (⟨info, n, rfl, hcheck, hle, rfl⟩ | ⟨rfl, rfl, rfl⟩)
    · simp only [conclude, hcheck, Outcome.ok_bind, Outcome.sliceFrom_of_le hle]
    · rfl

/-- A stream that `accept` may return for a peer that sends the given bytes:
with a header that was parsed and checked or, where it is optional, without
one. The socket stands where the bytes read from it end. -/
inductive Produced (C : Crc32c) (config : ProxyProtocolConfig E) (peerAddr : SocketAddr)
    (required : Bool) (sent : List UInt8) : ProxiedStream → Prop where
  | parsed {buf : List UInt8} {stream : TcpStream} {info : ProxyInfo} {n : ℕ}
      (bytes : buf ++ stream.unread = sent) (verdict : parse C buf = .ok (info, n))
      (check : checkHeader config peerAddr info = .ok ()) :
      Produced C config peerAddr required sent (.new stream (buf.drop n) (some info) peerAddr)
  | direct {buf : List UInt8} {stream : TcpStream} (optional : required = false)
      (bytes : buf ++ stream.unread = sent) :
      Produced C config peerAddr required sent (.new stream buf none peerAddr)

/-- Only a verdict makes a stream. -/
theorem decided_of_ofFeed {f : Feed TcpStream UInt8 (ParseResult (ProxyInfo × ℕ))}
    {st : ProxiedStream} (h : ofFeed config peerAddr required deadline f = .ok st) :
    ∃ r buf s, f = .decided r buf s ∧ conclude config peerAddr required s buf r = .ok st := by
  cases f with
  | decided r buf s => exact ⟨r, buf, s, rfl, h⟩
  | overflow buf s => cases h
  | starved buf s => cases h

theorem produced_of_readLoop {fuel : ℕ} {s : TcpStream} {buf : List UInt8}
    (hfuel : s.unread.length < fuel) {st : ProxiedStream}
    (h : readLoop C config peerAddr required deadline fuel s buf = .ok st) :
    Produced C config peerAddr required (buf ++ s.unread) st := by
  rw [readLoop_eq_feed fuel s buf hfuel] at h
  rcases decided_of_ofFeed h with ⟨r, buf', s', hfeed, hconclude⟩
  have hspec := feed_spec (timedSource deadline) (verdict C) config.maxHeaderSize s buf
  rw [hfeed] at hspec
  rcases hspec with ⟨hbytes, hverdict⟩
  rcases verdict_eq_some.mp hverdict with ⟨hparse, -⟩
  rcases conclude_eq_ok.mp hconclude with ⟨info, n, rfl, hcheck, -, rfl⟩ | ⟨-, hoptional, rfl⟩
  · exact .parsed hbytes hparse hcheck
  · exact .direct hoptional hbytes

theorem of_readAndValidate {env : Handshake} {stream : TcpStream} {st : ProxiedStream}
    (h : readAndValidate C config peerAddr env stream required = .ok st) :
    Produced C config peerAddr required stream.unread st := by
  obtain ⟨now, -, hrest⟩ := Outcome.bind_eq_ok.mp h
  obtain ⟨deadline, -, hloop⟩ := Outcome.bind_eq_ok.mp hrest
  exact produced_of_readLoop (Nat.lt_succ_self _) hloop

/-- Where a stream comes from: from the policy alone, or from the handshake. -/
theorem accept_eq_ok {env : Handshake} {stream : TcpStream} {st : ProxiedStream} :
    accept C config env (.ok (stream, peerAddr)) = .ok st ↔
      (config.policy peerAddr = .ignore ∧ st = .new stream [] none peerAddr) ∨
      (config.policy peerAddr = .require ∨ config.policy peerAddr = .use) ∧
        readAndValidate C config peerAddr env stream (config.policy peerAddr == .require) =
          .ok st := by
  simp only [accept]
  cases config.policy peerAddr with
  | require => simp
  | use => simp
  | ignore =>
      simp only [Outcome.ok.injEq, true_and, reduceCtorEq, or_self, false_and, or_false]
      exact eq_comm
  | reject => simp

/-- Every stream that `accept` returns. -/
theorem of_accept {env : Handshake} {stream : TcpStream} {st : ProxiedStream}
    (h : accept C config env (.ok (stream, peerAddr)) = .ok st) :
    config.policy peerAddr ≠ .reject ∧
      Produced C config peerAddr (config.policy peerAddr == .require) stream.unread st := by
  rcases accept_eq_ok.mp h with ⟨hignore, rfl⟩ | ⟨hpolicy, hread⟩
  · rw [hignore]
    exact ⟨by simp, .direct rfl rfl⟩
  · refine ⟨?_, of_readAndValidate hread⟩
    rcases hpolicy with hpolicy | hpolicy <;> rw [hpolicy] <;> simp

end Refinement

end ProxyProtocol
