import ProxyProtocol.Connection
import ProxyProtocol.Outcomes

/-! # Transparency

To the application an accepted stream is the peer's connection behind its
header. A socket has a choice at every read: it may deliver all that has
arrived or any part from the front of it. `MayRead` says what it may do, and
`MayPolls` what a sequence of reads, writes, flushes and shutdowns may give.

* `accepted_is_socket`: what such a sequence gives on a stream that `accept`
  returned is what it may give on the peer's own socket, once exactly the header
  was read from it. No call waits for bytes that have arrived, reports an end
  before the last byte, or loses, repeats or invents one.

The choices of the inner socket are the pieces that it is made of, and the
result is for all of them. The leftover bytes come in reads of their own, so not
every choice that a socket has is made by a stream.
-/

namespace ProxyProtocol

open Wire

/-! ## What a socket may do -/

namespace TcpStream

/-- A socket whose first `p` bytes were delivered has nothing to report yet:
neither the next byte nor the end. -/
def Quiet (s : TcpStream) (p now : ℕ) : Prop :=
  if p < s.unread.length then now < s.arrival (p + 1)
  else
    match s.closing with
    | .silent => True
    | .eof t | .failed t _ => now < t

/-- What a read at `now` with room for `cap` bytes may return on a socket whose
first `p` bytes were delivered, and how many are delivered after it. -/
inductive MayRead (s : TcpStream) (p now cap : ℕ) : PollResult → ℕ → Prop where
  -- some of what has arrived, and none of it only if there is no room
  | data {n : ℕ} (room : n ≤ cap) (progress : 0 < n ∨ cap = 0)
      (sent : p + max n 1 ≤ s.unread.length) (arrived : s.arrival (p + max n 1) ≤ now) :
      MayRead s p now cap (.ready (.ok ((s.unread.drop p).take n))) (p + n)
  | eof {t : ℕ} (all : p = s.unread.length) (closing : s.closing = .eof t) (due : t ≤ now) :
      MayRead s p now cap (.ready (.ok [])) p
  | failed {t : ℕ} {e : IoError} (all : p = s.unread.length) (closing : s.closing = .failed t e)
      (due : t ≤ now) : MayRead s p now cap (.ready (.error e)) p
  | pending (quiet : s.Quiet p now) : MayRead s p now cap .pending p

end TcpStream

/-- The write half of a socket, whatever it does with the bytes. -/
structure WriteHalf (σ : Type) where
  pollWrite : σ → ℕ → List UInt8 → Poll (Except IoError ℕ) × σ
  pollFlush : σ → ℕ → Poll (Except IoError Unit) × σ
  pollShutdown : σ → ℕ → Poll (Except IoError Unit) × σ

/-- A call of one of the four methods of `AsyncRead` and `AsyncWrite`. -/
inductive IoCall where
  | read (now capacity : ℕ)
  | write (now : ℕ) (buf : List UInt8)
  | flush (now : ℕ)
  | shutdown (now : ℕ)

def IoCall.now : IoCall → ℕ
  | .read now _ | .write now _ | .flush now | .shutdown now => now

inductive IoResult where
  | read (result : PollResult)
  | written (result : Poll (Except IoError ℕ))
  | done (result : Poll (Except IoError Unit))

/-- The bytes that a call delivered. -/
def IoResult.bytes : IoResult → List UInt8
  | .read result => result.bytes
  | _ => []

section Calls

variable {σ : Type} (half : WriteHalf σ)

/-- What a call may give on a socket, with its write half in the state `out`. -/
inductive TcpStream.MayPoll (s : TcpStream) :
    ℕ → σ → IoCall → IoResult → ℕ → σ → Prop where
  | read {p p' now cap : ℕ} {out : σ} {result : PollResult} (h : s.MayRead p now cap result p') :
      MayPoll s p out (.read now cap) (.read result) p' out
  | write (p : ℕ) (out : σ) (now : ℕ) (buf : List UInt8) :
      MayPoll s p out (.write now buf) (.written (half.pollWrite out now buf).1) p
        (half.pollWrite out now buf).2
  | flush (p : ℕ) (out : σ) (now : ℕ) :
      MayPoll s p out (.flush now) (.done (half.pollFlush out now).1) p (half.pollFlush out now).2
  | shutdown (p : ℕ) (out : σ) (now : ℕ) :
      MayPoll s p out (.shutdown now) (.done (half.pollShutdown out now).1) p
        (half.pollShutdown out now).2

/-- What a sequence of calls may give. -/
inductive TcpStream.MayPolls (s : TcpStream) :
    ℕ → σ → List IoCall → List IoResult → ℕ → σ → Prop where
  | nil (p : ℕ) (out : σ) : MayPolls s p out [] [] p out
  | cons {p₀ p₁ p₂ : ℕ} {out₀ out₁ out₂ : σ} {call : IoCall} {calls : List IoCall}
      {result : IoResult} {results : List IoResult}
      (first : s.MayPoll half p₀ out₀ call result p₁ out₁)
      (rest : MayPolls s p₁ out₁ calls results p₂ out₂) :
      MayPolls s p₀ out₀ (call :: calls) (result :: results) p₂ out₂

/-- A call on a stream: what is not read is left to the inner socket, whose
write half is in the state `out`. -/
def ProxiedStream.poll (st : ProxiedStream) (out : σ) :
    IoCall → Outcome Empty (IoResult × ProxiedStream × σ)
  | .read now cap => do
      let (result, st) ← st.pollRead now cap
      .ok (.read result, st, out)
  | .write now buf =>
      let (result, out) := half.pollWrite out now buf
      .ok (.written result, st, out)
  | .flush now =>
      let (result, out) := half.pollFlush out now
      .ok (.done result, st, out)
  | .shutdown now =>
      let (result, out) := half.pollShutdown out now
      .ok (.done result, st, out)

/-- The results of a sequence of calls, and the write half after it. -/
def ProxiedStream.polls (st : ProxiedStream) (out : σ) :
    List IoCall → Outcome Empty (List IoResult × σ)
  | [] => .ok ([], out)
  | call :: calls => do
      let (result, st, out) ← st.poll half out call
      let (results, out) ← st.polls out calls
      .ok (result :: results, out)

end Calls

/-! ## What it delivers -/

theorem TcpStream.MayRead.bytes {s : TcpStream} {p p' now cap : ℕ} {result : PollResult}
    (h : s.MayRead p now cap result p') :
    result.bytes ++ s.unread.drop p' = s.unread.drop p := by
  cases h with
  | @data n room progress sent arrived =>
      rw [PollResult.bytes, ← List.drop_drop, List.take_append_drop]
  | eof all closing due => rfl
  | failed all closing due => rfl
  | pending quiet => rfl

/-- The bytes of the connection, in their order, up to where it stands. -/
theorem TcpStream.MayPolls.bytes {σ : Type} {half : WriteHalf σ} {s : TcpStream} {p p' : ℕ}
    {out out' : σ} {calls : List IoCall} {results : List IoResult}
    (h : s.MayPolls half p out calls results p' out') :
    results.flatMap IoResult.bytes ++ s.unread.drop p' = s.unread.drop p := by
  induction h with
  | nil p out => rfl
  | cons first rest ih =>
      rw [List.flatMap_cons, List.append_assoc, ih]
      cases first with
      | read hread => exact hread.bytes
      | write out now buf => rfl
      | flush out now => rfl
      | shutdown out now => rfl

/-! ## What a stream does -/

/-- A socket after `q` bytes were taken off it: the same end, and what is left
comes when it came. -/
structure ReadOff (stream : TcpStream) (q : ℕ) (s : TcpStream) : Prop where
  closing : s.closing = stream.closing
  unread : s.unread = stream.unread.drop q
  arrival : ∀ k time, stream.arrival q ≤ time →
    (s.arrival k ≤ time ↔ stream.arrival (q + k) ≤ time)

theorem ReadOff.refl (stream : TcpStream) : ReadOff stream 0 stream := by
  refine ⟨rfl, rfl, ?_⟩
  intro k time _
  rw [Nat.zero_add]

theorem TcpStream.closing_of_read {s rest : TcpStream} {cap t : ℕ} {bytes : List UInt8}
    (h : s.read cap = .data t bytes rest) : rest.closing = s.closing := by
  unfold TcpStream.read at h
  split at h
  · cases h
    rfl
  · split at h <;> cases h

/-- A read takes some more off it. -/
theorem ReadOff.read {stream s s' : TcpStream} {q cap t : ℕ} {c : List UInt8}
    (h : ReadOff stream q s) (hread : s.read cap = .data t c s') (hc : c ≠ []) :
    ReadOff stream (q + c.length) s' := by
  have hpos := List.length_pos_iff.mpr hc
  have hunread := (TcpStream.unread_of_read hread).1
  refine ⟨(TcpStream.closing_of_read hread).trans h.closing, ?_, ?_⟩
  · rw [← List.drop_drop, ← h.unread, hunread, List.drop_left]
  · intro k time htime
    have hbefore : stream.arrival q ≤ time :=
      Nat.le_trans (TcpStream.arrivalIn_mono (Nat.le_add_right _ _) _) htime
    -- the bytes of the read itself are there
    have hready : t ≤ time :=
      ((TcpStream.arrival_le_iff hread hpos).mp ((h.arrival _ _ hbefore).mpr htime)).1
    rw [Nat.add_assoc, ← h.arrival (c.length + k) time hbefore,
      TcpStream.arrival_le_iff hread (by omega), Nat.add_sub_cancel_left]
    exact ⟨fun hle => ⟨hready, hle⟩, And.right⟩

/-- A read without room changes nothing. -/
theorem TcpStream.read_zero {s rest : TcpStream} {t : ℕ} {bytes : List UInt8}
    (h : s.read 0 = .data t bytes rest) : bytes = [] ∧ rest = s := by
  unfold TcpStream.read at h
  split at h
  · rename_i seg segs hincoming
    cases h
    refine ⟨List.take_zero, ?_⟩
    have hrest : seg.rest 0 = [seg] := dif_neg seg.nonempty
    rw [hrest, List.singleton_append, ← hincoming]
  · split at h <;> cases h

/-- The first byte comes with the next read. -/
theorem TcpStream.arrival_one {s rest : TcpStream} {cap t : ℕ} {bytes : List UInt8}
    (h : s.read cap = .data t bytes rest) : s.arrival 1 = t := by
  unfold TcpStream.read at h
  split at h
  · rename_i seg segs hincoming
    cases h
    have hpos := List.length_pos_iff.mpr seg.nonempty
    rw [TcpStream.arrival, hincoming, TcpStream.arrivalIn, if_neg Nat.one_ne_zero,
      Nat.sub_eq_zero_of_le hpos, TcpStream.arrivalIn_zero, Nat.max_zero]
  · split at h <;> cases h

section Inner

variable {stream s : TcpStream} {p now : ℕ}

theorem ReadOff.length_unread (h : ReadOff stream p s) :
    s.unread.length = stream.unread.length - p := by
  rw [h.unread, List.length_drop]

/-- When all bytes were delivered, a read of the inner socket waits for the end
or reports it. -/
theorem ReadOff.pollRead_end (h : ReadOff stream p s) (hp : p = stream.unread.length)
    (now cap : ℕ) :
    stream.MayRead p now cap (s.pollRead now cap).1 p ∧ (s.pollRead now cap).2 = s := by
  have hincoming : s.incoming = [] := by
    have hlen := h.length_unread
    cases hsegs : s.incoming with
    | nil => rfl
    | cons seg segs =>
        have hpos := List.length_pos_iff.mpr seg.nonempty
        rw [TcpStream.unread, hsegs, List.flatMap_cons, List.length_append] at hlen
        omega
  have hquiet : stream.Quiet p now ↔ match stream.closing with
      | .silent => True
      | .eof t | .failed t _ => now < t := by
    rw [TcpStream.Quiet, if_neg (by omega)]
  have hpoll : s.pollRead now cap = match stream.closing with
      | .silent => (.pending, s)
      | .eof t => if t ≤ now then (.ready (.ok []), s) else (.pending, s)
      | .failed t e => if t ≤ now then (.ready (.error e), s) else (.pending, s) := by
    rw [TcpStream.pollRead, TcpStream.read, hincoming, h.closing]
    cases stream.closing <;> rfl
  rw [hpoll]
  cases hclosing : stream.closing with
  | silent => exact ⟨.pending (hquiet.mpr (by rw [hclosing]; trivial)), rfl⟩
  | eof t =>
      dsimp only
      by_cases ht : t ≤ now
      · rw [if_pos ht]
        exact ⟨.eof hp hclosing ht, rfl⟩
      · rw [if_neg ht]
        exact ⟨.pending (hquiet.mpr (by rw [hclosing]; exact Nat.not_le.mp ht)), rfl⟩
  | failed t e =>
      dsimp only
      by_cases ht : t ≤ now
      · rw [if_pos ht]
        exact ⟨.failed hp hclosing ht, rfl⟩
      · rw [if_neg ht]
        exact ⟨.pending (hquiet.mpr (by rw [hclosing]; exact Nat.not_le.mp ht)), rfl⟩

/-- Before that it waits for the next byte or delivers some. -/
theorem ReadOff.pollRead_data (h : ReadOff stream p s) (hp : p < stream.unread.length)
    (harrived : stream.arrival p ≤ now) (cap : ℕ) :
    ∃ p', stream.MayRead p now cap (s.pollRead now cap).1 p' ∧
      ReadOff stream p' (s.pollRead now cap).2 ∧ p' ≤ stream.unread.length ∧
      stream.arrival p' ≤ now := by
  have hlen := h.length_unread
  have hne : s.unread ≠ [] := List.length_pos_iff.mp (by omega)
  rcases TcpStream.exists_read hne cap with ⟨t, c, rest, hread⟩
  rcases TcpStream.unread_of_read hread with ⟨hsplit, hroom, hsome⟩
  have hfirst : stream.arrival (p + 1) ≤ now ↔ t ≤ now := by
    rw [← h.arrival 1 now harrived, TcpStream.arrival_one hread]
  have hpoll : s.pollRead now cap =
      if t ≤ now then (.ready (.ok c), rest) else (.pending, s) := by
    rw [TcpStream.pollRead, hread]
  rw [hpoll]
  by_cases ht : t ≤ now
  · rw [if_pos ht]
    by_cases hc : c = []
    · -- there was no room
      have hcap : cap = 0 := by
        by_contra hpos
        exact hsome (Nat.pos_of_ne_zero hpos) hc
      subst hcap
      rw [hc, (TcpStream.read_zero hread).2]
      exact ⟨p, .data (n := 0) (Nat.le_refl 0) (.inr rfl) hp (hfirst.mpr ht), h,
        Nat.le_of_lt hp, harrived⟩
    · have hpos := List.length_pos_iff.mpr hc
      have hmax : max c.length 1 = c.length := Nat.max_eq_left hpos
      have hsent : p + c.length ≤ stream.unread.length := by
        rw [hsplit, List.length_append] at hlen
        omega
      have hall : stream.arrival (p + c.length) ≤ now := by
        rw [← h.arrival _ now harrived, TcpStream.arrival_le_iff hread hpos, Nat.sub_self,
          TcpStream.arrival, TcpStream.arrivalIn_zero]
        exact ⟨ht, Nat.zero_le _⟩
      have hbytes : (stream.unread.drop p).take c.length = c := by
        rw [← h.unread, hsplit, List.take_left]
      refine ⟨p + c.length, ?_, h.read hread hc, hsent, hall⟩
      have hmay : stream.MayRead p now cap
          (.ready (.ok ((stream.unread.drop p).take c.length))) (p + c.length) :=
        .data hroom (.inl hpos) (by rw [hmax]; exact hsent) (by rw [hmax]; exact hall)
      rwa [hbytes] at hmay
  · rw [if_neg ht]
    refine ⟨p, .pending ?_, h, Nat.le_of_lt hp, harrived⟩
    rw [TcpStream.Quiet, if_pos hp]
    exact Nat.not_le.mp (fun hle => ht (hfirst.mp hle))

end Inner

/-- A stream stands at byte `p` of a connection: its leftover bytes are the
next ones, they and those before them have arrived by `time`, and its socket
goes on behind them. -/
structure StandsAt (stream : TcpStream) (time p : ℕ) (st : ProxiedStream) : Prop where
  valid : st.Valid
  le : p + st.remaining.length ≤ stream.unread.length
  leftover : st.remaining = (stream.unread.drop p).take st.remaining.length
  arrived : stream.arrival (p + st.remaining.length) ≤ time
  inner : ReadOff stream (p + st.remaining.length) st.inner

/-- One `poll_read` of a stream is one that the connection allows. -/
theorem StandsAt.pollRead {stream : TcpStream} {time p now : ℕ} {st : ProxiedStream}
    (h : StandsAt stream time p st) (hnow : time ≤ now) (cap : ℕ) :
    ∃ result st' p', st.pollRead now cap = .ok (result, st') ∧
      stream.MayRead p now cap result p' ∧ StandsAt stream now p' st' := by
  rcases h with ⟨hvalid, hle, hleftover, harrived, hinner⟩
  by_cases hrem : st.remaining = []
  · rw [hrem, List.length_nil, Nat.add_zero] at hle harrived hinner
    have hread : ∃ p', stream.MayRead p now cap (st.inner.pollRead now cap).1 p' ∧
        ReadOff stream p' (st.inner.pollRead now cap).2 ∧ p' ≤ stream.unread.length ∧
        stream.arrival p' ≤ now := by
      rcases Nat.eq_or_lt_of_le hle with hend | hlt
      · rcases hinner.pollRead_end hend now cap with ⟨hmay, hsame⟩
        rw [hsame]
        exact ⟨p, hmay, hinner, hle, Nat.le_trans harrived hnow⟩
      · exact hinner.pollRead_data hlt (Nat.le_trans harrived hnow) cap
    rcases hread with ⟨p', hmay, hinner', hle', harrived'⟩
    refine ⟨_, _, p', ProxiedStream.pollRead_inner hvalid hrem now cap, hmay, ?_⟩
    -- the new stream has the old cursor
    have hrem' : ({ st with inner := (st.inner.pollRead now cap).2 } : ProxiedStream).remaining =
        [] := hrem
    refine ⟨hvalid, ?_, ?_, ?_, ?_⟩
    all_goals rw [hrem', List.length_nil]
    · exact hle'
    · exact List.take_zero.symm
    · exact harrived'
    · exact hinner'
  · have hpos := List.length_pos_iff.mpr hrem
    have hlen := st.length_remaining
    refine ⟨_, _, p + min st.remaining.length cap, ProxiedStream.pollRead_remaining hrem now cap,
      ?_, ?_⟩
    · have hbytes : (stream.unread.drop p).take (min st.remaining.length cap) =
          st.remaining.take cap := by
        rw [Nat.min_comm, ← List.take_take, ← hleftover]
      have hall : stream.arrival (p + max (min st.remaining.length cap) 1) ≤ now := by
        refine Nat.le_trans (TcpStream.arrivalIn_mono ?_ _) (Nat.le_trans harrived hnow)
        omega
      have hmay : stream.MayRead p now cap
          (.ready (.ok ((stream.unread.drop p).take (min st.remaining.length cap))))
          (p + min st.remaining.length cap) :=
        .data (Nat.min_le_right _ cap) (by omega) (by omega) hall
      rwa [hbytes] at hmay
    · generalize hm : min st.remaining.length cap = m
      have hrest : ({ st with leftover := ⟨st.leftover.data, st.leftover.position + m⟩ } :
          ProxiedStream).remaining = st.remaining.drop m := by
        rw [ProxiedStream.remaining, ProxiedStream.remaining, List.drop_drop]
      have hlast : p + m + (st.remaining.length - m) = p + st.remaining.length := by omega
      refine ⟨?_, ?_, ?_, ?_, ?_⟩
      · simp only [ProxiedStream.Valid] at hvalid ⊢
        omega
      all_goals rw [hrest, List.length_drop]
      · rw [hlast]
        exact hle
      · rw [← List.drop_drop, ← List.drop_take, ← hleftover]
      · rw [hlast]
        exact Nat.le_trans harrived hnow
      · rw [hlast]
        exact hinner

theorem StandsAt.later {stream : TcpStream} {time time' p : ℕ} {st : ProxiedStream}
    (h : StandsAt stream time p st) (hle : time ≤ time') : StandsAt stream time' p st :=
  ⟨h.valid, h.le, h.leftover, Nat.le_trans h.arrived hle, h.inner⟩

section Polls

variable {σ : Type} {half : WriteHalf σ} {stream : TcpStream}

/-- One call of any kind. -/
theorem StandsAt.poll {time p : ℕ} {st : ProxiedStream} (h : StandsAt stream time p st)
    {call : IoCall} (hnow : time ≤ call.now) (out : σ) :
    ∃ result st' out' p', st.poll half out call = .ok (result, st', out') ∧
      stream.MayPoll half p out call result p' out' ∧ StandsAt stream call.now p' st' := by
  cases call with
  | read now cap =>
      have hread : time ≤ now := hnow
      rcases h.pollRead hread cap with ⟨result, st', p', hpoll, hmay, h'⟩
      refine ⟨.read result, st', out, p', ?_, .read hmay, h'⟩
      rw [ProxiedStream.poll, hpoll]
      rfl
  | write now buf => exact ⟨_, st, _, p, rfl, .write p out now buf, h.later hnow⟩
  | flush now => exact ⟨_, st, _, p, rfl, .flush p out now, h.later hnow⟩
  | shutdown now => exact ⟨_, st, _, p, rfl, .shutdown p out now, h.later hnow⟩

/-- Any sequence of calls, one after the other. -/
theorem StandsAt.polls (calls : List IoCall) :
    ∀ {time p : ℕ} {st : ProxiedStream} (out : σ), StandsAt stream time p st →
      (time :: calls.map IoCall.now).Pairwise (· ≤ ·) →
      ∃ results out' p', st.polls half out calls = .ok (results, out') ∧
        stream.MayPolls half p out calls results p' out' := by
  induction calls with
  | nil =>
      intro time p st out _ _
      exact ⟨[], out, p, rfl, .nil p out⟩
  | cons call calls ih =>
      intro time p st out h htimes
      rw [List.map_cons, List.pairwise_cons] at htimes
      rcases h.poll (htimes.1 call.now (by simp)) out with
        ⟨result, st₁, out₁, p₁, hpoll, hmay, h₁⟩
      rcases ih out₁ h₁ htimes.2 with ⟨results, out₂, p₂, hpolls, hmays⟩
      refine ⟨result :: results, out₂, p₂, ?_, .cons hmay hmays⟩
      simp only [ProxiedStream.polls, hpoll, hpolls, Outcome.ok_bind]

end Polls

/-! ## Handshakes -/

section Accepted

variable {E : Type} {C : Crc32c} {config : ProxyProtocolConfig E} {peerAddr : SocketAddr}
  {env : Handshake} {stream : TcpStream} {st : ProxiedStream}

/-- How a stream was made: the bytes that were read, and the socket after
them. -/
theorem exists_readOff (h : accept C config env (.ok (stream, peerAddr)) = .ok st) :
    ∃ buf s n proxyInfo, ReadOff stream buf.length s ∧ buf ++ s.unread = stream.unread ∧
      n ≤ buf.length ∧ st = .new s (buf.drop n) proxyInfo peerAddr ∧
      HeaderLength C stream.unread st n := by
  rcases accept_eq_ok.mp h with ⟨-, rfl⟩ | ⟨-, hok⟩
  · exact ⟨[], stream, 0, none, .refl stream, rfl, Nat.le_refl _, rfl, rfl⟩
  · rcases exists_hasDeadline hok with ⟨deadline, henv⟩
    rw [readAndValidate_eq_feed henv] at hok
    rcases decided_of_ofFeed hok with ⟨r, buf, s, hfeed, hconclude⟩
    have hspec := feed_spec (timedSource deadline) (verdict C) config.maxHeaderSize stream []
    rw [hfeed] at hspec
    rcases verdict_eq_some.mp hspec.2 with ⟨hparse, -⟩
    have hoff : ReadOff stream buf.length s := by
      refine feed_keeps (P := fun buf s => ReadOff stream buf.length s) ?_ stream []
        (.refl stream) rfl hfeed
      intro buf s c s' hoff _ hread
      rcases timedSource_read.mp hread with ⟨t, -, hevent⟩
      rw [List.length_append]
      exact hoff.read hevent ((timedSource deadline).read_nonempty hread)
    rcases conclude_eq_ok.mp hconclude with ⟨info, n, rfl, -, hle, rfl⟩ | ⟨rfl, -, rfl⟩
    · refine ⟨buf, s, n, some info, hoff, hspec.1, hle, rfl, ?_⟩
      show parse C stream.unread = _
      rw [show stream.unread = buf ++ s.unread from hspec.1.symm,
        (parse_settles C).append (by simp [hparse]), hparse]
    · exact ⟨buf, s, 0, none, hoff, hspec.1, Nat.zero_le _, rfl, rfl⟩

/-- The bytes that the handshake has read. -/
def bytesRead (stream : TcpStream) (st : ProxiedStream) : ℕ :=
  stream.unread.length - st.inner.unread.length

/-- An accepted stream stands behind its header. -/
theorem standsAt_of_accept (h : accept C config env (.ok (stream, peerAddr)) = .ok st) {time : ℕ}
    (htime : stream.arrival (bytesRead stream st) ≤ time) :
    ∃ n, HeaderLength C stream.unread st n ∧ StandsAt stream time n st := by
  rcases exists_readOff h with ⟨buf, s, n, proxyInfo, hoff, hbytes, hn, rfl, hlength⟩
  have hread : bytesRead stream (.new s (buf.drop n) proxyInfo peerAddr) = buf.length := by
    have hinner : (ProxiedStream.new s (buf.drop n) proxyInfo peerAddr).inner = s := rfl
    rw [bytesRead, hinner, ← hbytes, List.length_append, Nat.add_sub_cancel]
  rw [hread] at htime
  have hremaining : (ProxiedStream.new s (buf.drop n) proxyInfo peerAddr).remaining =
      buf.drop n := rfl
  have hlast : n + (buf.length - n) = buf.length := Nat.add_sub_of_le hn
  refine ⟨n, hlength, ProxiedStream.valid_new _ _ _ _, ?_, ?_, ?_, ?_⟩
  all_goals rw [hremaining, List.length_drop]
  · rw [hlast, ← hbytes, List.length_append]
    exact Nat.le_add_right _ _
  · rw [← hbytes, List.drop_append_of_le_length hn, ← List.length_drop, List.take_left]
  · rw [hlast]
    exact htime
  · rw [hlast]
    exact hoff

/-- An accepted stream behaves as a socket does from which the header was read
and nothing else. From the time on when the bytes that the handshake has read
were there, every sequence of reads, writes, flushes and shutdowns on the
stream gives results that the peer's own socket may give behind the header,
call by call: reads deliver some of what has arrived, wait only if nothing has,
and report the end when the last byte was delivered; the rest goes to the
socket as it is. In all, the bytes behind the header are delivered in their
order, none of them lost or repeated. -/
theorem accepted_is_socket (h : accept C config env (.ok (stream, peerAddr)) = .ok st) {time : ℕ}
    (htime : stream.arrival (bytesRead stream st) ≤ time) :
    ∃ n, HeaderLength C stream.unread st n ∧
      ∀ {σ : Type} (half : WriteHalf σ) (out : σ) (calls : List IoCall),
        (time :: calls.map IoCall.now).Pairwise (· ≤ ·) →
        ∃ results out' p, st.polls half out calls = .ok (results, out') ∧
          stream.MayPolls half n out calls results p out' ∧
          results.flatMap IoResult.bytes ++ stream.unread.drop p = stream.unread.drop n := by
  rcases standsAt_of_accept h htime with ⟨n, hn, hstands⟩
  refine ⟨n, hn, ?_⟩
  intro σ half out calls htimes
  rcases hstands.polls calls out htimes with ⟨results, out', p, hpolls, hmay⟩
  exact ⟨results, out', p, hpolls, hmay, hmay.bytes⟩

/-- A LOCAL header in two segments, the second with a byte behind it, and a
third segment before the end of the stream. -/
theorem accepted_is_socket_local :
    let stream : TcpStream := ⟨[⟨5, v2Signature, by decide⟩, ⟨6, [0x20, 0, 0, 0, 0x47], by decide⟩,
      ⟨9, [0x45, 0x54], by decide⟩], .eof 9⟩
    ∃ st, accept .castagnoli ({} : ProxyProtocolConfig Empty) ⟨0, .granted 1, 10000000000⟩
        (.ok (stream, .v4 (.new 192 0 2 9) 4000)) = .ok st ∧
      ∀ {σ : Type} (half : WriteHalf σ) (out : σ) (calls : List IoCall),
        (6 :: calls.map IoCall.now).Pairwise (· ≤ ·) →
        ∃ results out' p, st.polls half out calls = .ok (results, out') ∧
          stream.MayPolls half 16 out calls results p out' ∧
          results.flatMap IoResult.bytes ++ stream.unread.drop p = [0x47, 0x45, 0x54] := by
  intro stream
  have haccept : accept .castagnoli ({} : ProxyProtocolConfig Empty)
      ⟨0, .granted 1, 10000000000⟩ (.ok (stream, .v4 (.new 192 0 2 9) 4000)) =
      .ok (.new ⟨[⟨9, [0x45, 0x54], by decide⟩], .eof 9⟩ [0x47]
        (some ⟨.v2, .local, none, none, none, {}⟩) (.v4 (.new 192 0 2 9) 4000)) := by
    decide +kernel
  have htime : stream.arrival 17 ≤ 6 := by decide
  rcases accepted_is_socket haccept htime with ⟨n, hn, hpolls⟩
  have hlength : n = 16 := by
    have hparse : parse .castagnoli stream.unread =
        .ok (⟨.v2, .local, none, none, none, {}⟩, 16) := by decide
    have hboth := hn.symm.trans hparse
    cases hboth
    rfl
  subst hlength
  exact ⟨_, haccept, hpolls⟩

end Accepted

end ProxyProtocol
