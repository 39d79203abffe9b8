import ProxyProtocol.Types

/-! # Streams

The socket as its reader sees it, and `stream.rs`: a socket with the bytes
that were read past the header in front of it.

* `pollRead_spec`: one `poll_read` delivers a prefix of what is still to be
  delivered, and leaves the rest.
* `reads_spec`: so does any sequence of them.
* `reads_all`: once the peer's data is there, enough reads deliver all of it.

A socket is the list of pieces it will deliver, each with the time from which
it can be read, and how the connection ends. A read takes from the first piece
only, so a list of pieces is a way to cut the peer's bytes into reads. Time is
counted in nanoseconds.
-/

namespace ProxyProtocol

open Wire

/-! ## The socket -/

/-- Bytes that arrive together. -/
structure Segment where
  readyAt : ℕ
  bytes : List UInt8
  nonempty : bytes ≠ []
deriving DecidableEq

/-- What follows the last segment: silence, an orderly end, or an error. -/
inductive Closing where
  | silent
  | eof (time : ℕ)
  | failed (time : ℕ) (error : IoError)
deriving DecidableEq, Repr

/-- `tokio::net::TcpStream`, as far as it is read. -/
structure TcpStream where
  incoming : List Segment
  closing : Closing
deriving DecidableEq

/-- What a read resolves to, and when. -/
inductive ReadEvent where
  | data (readyAt : ℕ) (bytes : List UInt8) (rest : TcpStream)
  | eof (readyAt : ℕ)
  | failed (readyAt : ℕ) (error : IoError)
  | never

/-- What a read of `cap` bytes leaves of a segment. -/
def Segment.rest (seg : Segment) (cap : ℕ) : List Segment :=
  if h : seg.bytes.drop cap = [] then [] else [⟨seg.readyAt, seg.bytes.drop cap, h⟩]

namespace TcpStream

/-- All bytes that the peer sends and that were not read yet. -/
def unread (s : TcpStream) : List UInt8 := s.incoming.flatMap Segment.bytes

/-- Everything the peer sends can be read from a time on. -/
def ReadyBy (s : TcpStream) (time : ℕ) : Prop := ∀ seg ∈ s.incoming, seg.readyAt ≤ time

instance (s : TcpStream) (time : ℕ) : Decidable (s.ReadyBy time) :=
  inferInstanceAs (Decidable (∀ seg ∈ s.incoming, seg.readyAt ≤ time))

/-- When the first `n` bytes of the segments can be read. No byte is read
before the ones in front of it. -/
def arrivalIn : List Segment → ℕ → ℕ
  | [], _ => 0
  | seg :: segs, n =>
      if n = 0 then 0 else max seg.readyAt (arrivalIn segs (n - seg.bytes.length))

/-- When the first `n` bytes of the stream can be read. -/
def arrival (s : TcpStream) (n : ℕ) : ℕ := arrivalIn s.incoming n

/-- A read into a buffer of `cap` bytes. -/
def read (s : TcpStream) (cap : ℕ) : ReadEvent :=
  match s.incoming with
  | seg :: segs =>
      -- what does not fit stays readable as a segment of its own
      .data seg.readyAt (seg.bytes.take cap) { s with incoming := seg.rest cap ++ segs }
  | [] =>
      match s.closing with
      | .silent => .never
      | .eof t => .eof t
      | .failed t e => .failed t e

end TcpStream

/-- `std::task::Poll`. -/
inductive Poll (α : Type) where
  | pending
  | ready (a : α)
deriving DecidableEq, Repr

/-- The result of a `poll_read`, with the bytes it put into the buffer. -/
abbrev PollResult := Poll (Except IoError (List UInt8))

/-- The bytes a `poll_read` delivered. -/
def PollResult.bytes : PollResult → List UInt8
  | .ready (.ok bytes) => bytes
  | _ => []

/-- `TcpStream::poll_read` at time `now`. -/
def TcpStream.pollRead (s : TcpStream) (now cap : ℕ) : PollResult × TcpStream :=
  match s.read cap with
  | .data t bytes rest => if t ≤ now then (.ready (.ok bytes), rest) else (.pending, s)
  | .eof t => if t ≤ now then (.ready (.ok []), s) else (.pending, s)
  | .failed t e => if t ≤ now then (.ready (.error e), s) else (.pending, s)
  | .never => (.pending, s)

/-! ## The proxied stream -/

/-- `std::io::Cursor<Vec<u8>>`. -/
structure Cursor where
  data : List UInt8
  position : ℕ
deriving DecidableEq, Repr

structure ProxiedStream where
  inner : TcpStream
  leftover : Cursor
  proxyInfo : Option ProxyInfo
  peerAddr : SocketAddr
deriving DecidableEq

/-- Metadata of an accepted connection. -/
structure ProxyConnectInfo where
  clientAddr : SocketAddr
  peerAddr : SocketAddr
  proxyInfo : Option ProxyInfo
deriving DecidableEq, Repr

namespace ProxiedStream

def new (inner : TcpStream) (leftover : List UInt8) (proxyInfo : Option ProxyInfo)
    (peerAddr : SocketAddr) : ProxiedStream :=
  ⟨inner, ⟨leftover, 0⟩, proxyInfo, peerAddr⟩

def clientAddr (st : ProxiedStream) : SocketAddr :=
  (st.proxyInfo.bind ProxyInfo.sourceInet).getD st.peerAddr

def connectInfo (st : ProxiedStream) : ProxyConnectInfo :=
  ⟨st.clientAddr, st.peerAddr, st.proxyInfo⟩

/-- `poll_read` at time `now` into a buffer with room for `cap` bytes. The sum
is at most the length of the leftover, so only the subtraction and the slice
can fail. -/
def pollRead (st : ProxiedStream) (now cap : ℕ) : Outcome Empty (PollResult × ProxiedStream) := do
  let leftoverData := st.leftover.data
  let leftoverPos := st.leftover.position
  let leftoverRemaining ← Outcome.sub leftoverData.length leftoverPos
  if 0 < leftoverRemaining then
    -- the socket is not touched while leftover bytes remain
    let toCopy := min leftoverRemaining cap
    let bytes ← Outcome.slice leftoverData leftoverPos (leftoverPos + toCopy)
    .ok (.ready (.ok bytes), { st with leftover := ⟨leftoverData, leftoverPos + toCopy⟩ })
  else
    let (result, inner) := st.inner.pollRead now cap
    .ok (result, { st with inner := inner })

end ProxiedStream

/-- A call of `poll_read`: when, and with how much room. -/
structure ReadCall where
  now : ℕ
  capacity : ℕ
deriving DecidableEq, Repr

/-- A sequence of calls, and all the bytes they deliver. -/
def ProxiedStream.reads (st : ProxiedStream) :
    List ReadCall → Outcome Empty (List UInt8 × ProxiedStream)
  | [] => .ok ([], st)
  | call :: calls => do
      let (result, st) ← st.pollRead call.now call.capacity
      let (bytes, st) ← st.reads calls
      .ok (result.bytes ++ bytes, st)

/-! ## Delivery -/

theorem Segment.readyAt_rest {seg seg' : Segment} {cap : ℕ} (h : seg' ∈ seg.rest cap) :
    seg'.readyAt = seg.readyAt := by
  unfold Segment.rest at h
  split at h
  · cases h
  · rw [List.mem_singleton.mp h]

theorem Segment.flatMap_rest (seg : Segment) (cap : ℕ) :
    (seg.rest cap).flatMap Segment.bytes = seg.bytes.drop cap := by
  unfold Segment.rest
  split
  · rename_i hnil
    rw [hnil]
    rfl
  · simp

namespace TcpStream

/-- A read takes bytes off the front. -/
theorem unread_of_read {s rest : TcpStream} {cap t : ℕ} {bytes : List UInt8}
    (h : s.read cap = .data t bytes rest) :
    s.unread = bytes ++ rest.unread ∧ bytes.length ≤ cap ∧ (0 < cap → bytes ≠ []) := by
  unfold read at h
  split at h
  · rename_i seg segs hincoming
    cases h
    refine ⟨?_, List.length_take_le _ _, ?_⟩
    · simp only [unread, hincoming, List.flatMap_append, List.flatMap_cons, seg.flatMap_rest]
      rw [← List.append_assoc, List.take_append_drop]
    · intro hcap
      have hne := seg.nonempty
      simp only [ne_eq, List.take_eq_nil_iff, not_or]
      exact ⟨by omega, hne⟩
  · split at h <;> cases h

/-- When there is nothing to read, everything was read. -/
theorem unread_eq_nil {s : TcpStream} (h : s.incoming = []) : s.unread = [] := by
  rw [unread, h]
  rfl

theorem unread_pollRead (s : TcpStream) (now cap : ℕ) :
    (s.pollRead now cap).1.bytes ++ (s.pollRead now cap).2.unread = s.unread := by
  unfold pollRead
  split
  · rename_i t bytes rest hread
    split
    · exact (unread_of_read hread).1.symm
    · rfl
  all_goals first
    | rfl
    | split <;> rfl

theorem readyBy_of_read {s rest : TcpStream} {cap t now : ℕ} {bytes : List UInt8}
    (hall : s.ReadyBy now) (h : s.read cap = .data t bytes rest) : t ≤ now ∧ rest.ReadyBy now := by
  unfold read at h
  split at h
  · rename_i seg segs hincoming
    rw [ReadyBy, hincoming] at hall
    cases h
    refine ⟨hall seg (by simp), ?_⟩
    intro seg' hmem
    rcases List.mem_append.mp hmem with hrest | hsegs
    · rw [Segment.readyAt_rest hrest]
      exact hall seg (by simp)
    · exact hall seg' (by simp [hsegs])
  · split at h <;> cases h

@[simp] theorem arrivalIn_zero (segs : List Segment) : arrivalIn segs 0 = 0 := by
  cases segs with
  | nil => rfl
  | cons seg segs => exact if_pos rfl

theorem arrivalIn_mono {m n : ℕ} (h : m ≤ n) (segs : List Segment) :
    arrivalIn segs m ≤ arrivalIn segs n := by
  induction segs generalizing m n with
  | nil => exact Nat.le_refl _
  | cons seg segs ih =>
      rw [arrivalIn, arrivalIn]
      by_cases hm : m = 0
      · rw [if_pos hm]
        exact Nat.zero_le _
      · have hrest : arrivalIn segs (m - seg.bytes.length) ≤
            arrivalIn segs (n - seg.bytes.length) := ih (by omega)
        rw [if_neg hm, if_neg (by omega)]
        omega

/-- A byte is not there before its segment is. -/
theorem le_arrivalIn {pre post : List Segment} {seg : Segment} {n : ℕ}
    (h : (pre.flatMap Segment.bytes).length < n) :
    seg.readyAt ≤ arrivalIn (pre ++ seg :: post) n := by
  induction pre generalizing n with
  | nil =>
      rw [List.nil_append, arrivalIn, if_neg (by omega)]
      exact Nat.le_max_left _ _
  | cons seg' pre ih =>
      rw [List.flatMap_cons, List.length_append] at h
      rw [List.cons_append, arrivalIn, if_neg (by omega)]
      exact Nat.le_trans (ih (by omega)) (Nat.le_max_right _ _)

/-- A read that is made in time makes its bytes arrive in time. -/
theorem arrival_of_read {s rest : TcpStream} {cap t m time : ℕ} {bytes : List UInt8}
    (h : s.read cap = .data t bytes rest) (htime : t ≤ time) (hrest : rest.arrival m ≤ time) :
    s.arrival (bytes.length + m) ≤ time := by
  unfold read at h
  split at h
  · rename_i seg segs hincoming
    cases h
    rw [arrival, hincoming, arrivalIn]
    split
    · exact Nat.zero_le _
    · refine Nat.max_le.mpr ⟨htime, ?_⟩
      rw [arrival, Segment.rest] at hrest
      rw [List.length_take]
      split at hrest
      · -- the segment was read whole
        rename_i hwhole
        rw [List.drop_eq_nil_iff] at hwhole
        rw [Nat.min_eq_right hwhole, Nat.add_sub_cancel_left]
        exact hrest
      · -- what is left of it comes first, at the same time
        rename_i hpart
        rw [List.drop_eq_nil_iff] at hpart
        rw [List.singleton_append, arrivalIn, List.length_drop] at hrest
        rw [Nat.min_eq_left (by omega)]
        split at hrest
        · rename_i hm
          rw [hm, Nat.add_zero, Nat.sub_eq_zero_of_le (by omega), arrivalIn_zero]
          exact Nat.zero_le _
        · have hsub : cap + m - seg.bytes.length = m - (seg.bytes.length - cap) := by omega
          rw [hsub]
          exact (Nat.max_le.mp hrest).2
  · split at h <;> cases h

/-- The next read of a stream that has data. -/
theorem exists_read {s : TcpStream} (h : s.unread ≠ []) (cap : ℕ) :
    ∃ t bytes rest, s.read cap = .data t bytes rest := by
  cases hincoming : s.incoming with
  | nil => exact absurd (unread_eq_nil hincoming) h
  | cons seg segs =>
      refine ⟨seg.readyAt, seg.bytes.take cap,
        { s with incoming := seg.rest cap ++ segs }, ?_⟩
      rw [read, hincoming]

/-- Bytes are there in time iff the next read is, and the rest of them after
it. -/
theorem arrival_le_iff {s rest : TcpStream} {cap t n time : ℕ} {bytes : List UInt8}
    (h : s.read cap = .data t bytes rest) (hn : 0 < n) :
    s.arrival n ≤ time ↔ t ≤ time ∧ rest.arrival (n - bytes.length) ≤ time := by
  unfold read at h
  split at h
  · rename_i seg segs hincoming
    cases h
    simp only [arrival, hincoming]
    rw [arrivalIn, if_neg (Nat.pos_iff_ne_zero.mp hn), Nat.max_le, List.length_take, Segment.rest]
    split
    · -- the segment is read whole
      rename_i hwhole
      rw [Nat.min_eq_right (List.drop_eq_nil_iff.mp hwhole), List.nil_append]
    · rename_i hpart
      rw [List.drop_eq_nil_iff, Nat.not_le] at hpart
      rw [Nat.min_eq_left (Nat.le_of_lt hpart), List.singleton_append, arrivalIn,
        List.length_drop]
      split
      · -- and so not a byte of the next segment is asked for
        have hzero : n - seg.bytes.length = 0 := by omega
        rw [hzero, arrivalIn_zero]
      · have hsub : n - cap - (seg.bytes.length - cap) = n - seg.bytes.length := by omega
        rw [hsub, Nat.max_le]
        tauto
  · split at h <;> cases h

theorem arrivalIn_le_iff {segs : List Segment} {time : ℕ} :
    arrivalIn segs (segs.flatMap Segment.bytes).length ≤ time ↔
      ∀ seg ∈ segs, seg.readyAt ≤ time := by
  induction segs with
  | nil => simp [arrivalIn]
  | cons seg segs ih =>
      have hpos := List.length_pos_iff.mpr seg.nonempty
      rw [arrivalIn, List.flatMap_cons, List.length_append, if_neg (by omega), Nat.max_le,
        Nat.add_sub_cancel_left, ih, List.forall_mem_cons]

/-- All is there in time iff the last byte is. -/
theorem arrival_unread_le_iff {s : TcpStream} {time : ℕ} :
    s.arrival s.unread.length ≤ time ↔ s.ReadyBy time :=
  arrivalIn_le_iff

end TcpStream

namespace ProxiedStream

/-- The leftover bytes that were not delivered yet. -/
def remaining (st : ProxiedStream) : List UInt8 := st.leftover.data.drop st.leftover.position

/-- What a stream has still to deliver. -/
def undelivered (st : ProxiedStream) : List UInt8 := st.remaining ++ st.inner.unread

/-- The cursor stands inside its data. -/
def Valid (st : ProxiedStream) : Prop := st.leftover.position ≤ st.leftover.data.length

theorem valid_new (inner : TcpStream) (leftover : List UInt8) (proxyInfo : Option ProxyInfo)
    (peerAddr : SocketAddr) : (new inner leftover proxyInfo peerAddr).Valid := Nat.zero_le _

@[simp] theorem undelivered_new (inner : TcpStream) (leftover : List UInt8)
    (proxyInfo : Option ProxyInfo) (peerAddr : SocketAddr) :
    (new inner leftover proxyInfo peerAddr).undelivered = leftover ++ inner.unread := rfl

theorem length_remaining (st : ProxiedStream) :
    st.remaining.length = st.leftover.data.length - st.leftover.position :=
  List.length_drop

/-- While leftover bytes remain they are served, and nothing else. -/
theorem pollRead_remaining {st : ProxiedStream} (hrem : st.remaining ≠ []) (now cap : ℕ) :
    st.pollRead now cap = .ok (.ready (.ok (st.remaining.take cap)),
      { st with
        leftover := ⟨st.leftover.data, st.leftover.position + min st.remaining.length cap⟩ }) := by
  have hpos := List.length_pos_iff.mpr hrem
  rw [length_remaining] at hpos
  have hslice : (Outcome.slice st.leftover.data st.leftover.position
      (st.leftover.position + min st.remaining.length cap) : Outcome Empty _) =
      .ok (st.remaining.take cap) := by
    rw [Outcome.slice_of_le (by omega) (by rw [length_remaining]; omega), List.drop_take,
      Nat.add_sub_cancel_left, Nat.min_comm, ← remaining, ← List.take_eq_take_min]
  rw [pollRead, Outcome.sub_of_le (by omega), Outcome.ok_bind, if_pos hpos, ← length_remaining]
  simp only [hslice, Outcome.ok_bind]

/-- Without leftover bytes the socket is read. -/
theorem pollRead_inner {st : ProxiedStream} (hv : st.Valid) (hrem : st.remaining = [])
    (now cap : ℕ) :
    st.pollRead now cap =
      .ok ((st.inner.pollRead now cap).1, { st with inner := (st.inner.pollRead now cap).2 }) := by
  have hlen := congrArg List.length hrem
  rw [length_remaining, List.length_nil] at hlen
  rw [pollRead, Outcome.sub_of_le hv, Outcome.ok_bind, if_neg (by omega)]

/-- One `poll_read`: it returns, delivers a prefix of what is still to be
delivered and leaves the rest, and the metadata does not change. -/
theorem pollRead_spec {st : ProxiedStream} (hv : st.Valid) (now cap : ℕ) :
    ∃ result st', st.pollRead now cap = .ok (result, st') ∧ st'.Valid ∧
      result.bytes ++ st'.undelivered = st.undelivered ∧
      st'.connectInfo = st.connectInfo := by
  by_cases hrem : st.remaining = []
  · refine ⟨_, _, pollRead_inner hv hrem now cap, hv, ?_, rfl⟩
    have hunread := st.inner.unread_pollRead now cap
    rw [undelivered, undelivered, hrem, List.nil_append, ← hunread]
    -- the new stream has the old cursor
    change _ ++ (st.remaining ++ _) = _
    rw [hrem, List.nil_append]
  · have hpos := List.length_pos_iff.mpr hrem
    rw [length_remaining] at hpos
    refine ⟨_, _, pollRead_remaining hrem now cap, ?_, ?_, rfl⟩
    · simp only [Valid, length_remaining]
      omega
    · simp only [undelivered, PollResult.bytes, ← List.append_assoc]
      congr 1
      rw [List.take_eq_take_min, Nat.min_comm]
      simp only [remaining, ← List.drop_drop]
      exact List.take_append_drop _ _

/-- Any sequence of `poll_read` calls. -/
theorem reads_spec (calls : List ReadCall) : ∀ {st : ProxiedStream}, st.Valid →
    ∃ bytes st', st.reads calls = .ok (bytes, st') ∧ st'.Valid ∧
      bytes ++ st'.undelivered = st.undelivered ∧ st'.connectInfo = st.connectInfo := by
  induction calls with
  | nil => exact fun {st} hv => ⟨[], st, rfl, hv, rfl, rfl⟩
  | cons call calls ih =>
      intro st hv
      obtain ⟨result, st₁, hpoll, hv₁, hbytes₁, hinfo₁⟩ := pollRead_spec hv call.now call.capacity
      obtain ⟨bytes, st₂, hreads, hv₂, hbytes₂, hinfo₂⟩ := ih hv₁
      refine ⟨result.bytes ++ bytes, st₂, ?_, hv₂, ?_, hinfo₂.trans hinfo₁⟩
      · simp only [reads, hpoll, hreads, Outcome.ok_bind]
      · rw [List.append_assoc, hbytes₂, hbytes₁]

/-! ## Reading everything -/

/-- A read with room makes progress while there is something to deliver. -/
theorem pollRead_progress {st : ProxiedStream} (hv : st.Valid) {now cap : ℕ} (hcap : 0 < cap)
    (hready : st.inner.ReadyBy now) (hne : st.undelivered ≠ []) {result : PollResult}
    {st' : ProxiedStream} (h : st.pollRead now cap = .ok (result, st')) : result.bytes ≠ [] := by
  by_cases hrem : st.remaining = []
  · rw [pollRead_inner hv hrem] at h
    cases h
    cases hincoming : st.inner.incoming with
    | nil =>
        rw [undelivered, hrem, TcpStream.unread_eq_nil hincoming] at hne
        exact absurd rfl hne
    | cons seg segs =>
        have htime : seg.readyAt ≤ now := hready seg (by simp [hincoming])
        have hread : st.inner.read cap = .data seg.readyAt (seg.bytes.take cap)
            { st.inner with incoming := seg.rest cap ++ segs } := by
          rw [TcpStream.read, hincoming]
        rw [TcpStream.pollRead, hread]
        simp only [if_pos htime, PollResult.bytes]
        exact (TcpStream.unread_of_read hread).2.2 hcap
  · rw [pollRead_remaining hrem] at h
    cases h
    simp only [PollResult.bytes, ne_eq, List.take_eq_nil_iff, not_or]
    exact ⟨by omega, hrem⟩

theorem readyBy_pollRead {st : ProxiedStream} (hv : st.Valid) {now now' cap : ℕ}
    (hready : st.inner.ReadyBy now) {result : PollResult} {st' : ProxiedStream}
    (h : st.pollRead now' cap = .ok (result, st')) : st'.inner.ReadyBy now := by
  by_cases hrem : st.remaining = []
  · rw [pollRead_inner hv hrem] at h
    cases h
    unfold TcpStream.pollRead
    split
    · rename_i hread
      split
      · exact (TcpStream.readyBy_of_read hready hread).2
      · exact hready
    all_goals first
      | exact hready
      | split <;> exact hready
  · rw [pollRead_remaining hrem] at h
    cases h
    exact hready

/-- Once everything is there, as many reads with room as there are bytes
deliver all of them. -/
theorem reads_all (calls : List ReadCall) {last : ℕ}
    (hcalls : ∀ call ∈ calls, last ≤ call.now ∧ 0 < call.capacity) :
    ∀ {st : ProxiedStream}, st.Valid → st.inner.ReadyBy last →
      st.undelivered.length ≤ calls.length → ∃ st', st.reads calls = .ok (st.undelivered, st') := by
  induction calls with
  | nil =>
      intro st _ _ hlen
      rw [List.length_nil, Nat.le_zero, List.length_eq_zero_iff] at hlen
      rw [hlen]
      exact ⟨st, rfl⟩
  | cons call calls ih =>
      intro st hv hready hlen
      obtain ⟨hnow, hcap⟩ := hcalls call (by simp)
      obtain ⟨result, st₁, hpoll, hv₁, hbytes, -⟩ := pollRead_spec hv call.now call.capacity
      -- each call delivers at least a byte, as long as there is one
      have hshort : st₁.undelivered.length ≤ calls.length := by
        by_cases hne : st.undelivered = []
        · rw [hne, List.append_eq_nil_iff] at hbytes
          rw [hbytes.2]
          exact Nat.zero_le _
        · have hprogress := pollRead_progress hv hcap
            (fun seg hseg => Nat.le_trans (hready seg hseg) hnow) hne hpoll
          have hpos := List.length_pos_iff.mpr hprogress
          rw [← hbytes, List.length_append, List.length_cons] at hlen
          omega
      obtain ⟨st₂, hreads⟩ := ih (fun c hc => hcalls c (by simp [hc])) hv₁
        (readyBy_pollRead hv hready hpoll) hshort
      refine ⟨st₂, ?_⟩
      simp only [reads, hpoll, hreads, Outcome.ok_bind, hbytes]

end ProxiedStream

end ProxyProtocol
