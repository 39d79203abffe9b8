import ProxyProtocol.Listener

/-! # Accepted connections

What holds of every stream that `accept` returns, whatever the peer sends and
however it arrives.

* `bytes_conserved`: the application gets what follows the header, all of it,
  once and in order.
* `trusted_header`: with a trusted set, only a checked header of a trusted
  peer decides on the client address.
-/

namespace ProxyProtocol

open Wire

variable {E : Type} {C : Crc32c} {config : ProxyProtocolConfig E} {peerAddr : SocketAddr}

/-! ## The application's bytes -/

/-- The number of bytes in front of the application's: the length of the
header, none without one. -/
def HeaderLength (C : Crc32c) (sent : List UInt8) (st : ProxiedStream) (n : ℕ) : Prop :=
  match st.proxyInfo with
  | some info => parse C sent = .ok (info, n)
  | none => n = 0

/-- A new stream has everything behind the header still to deliver. -/
theorem Produced.undelivered {required : Bool} {sent : List UInt8} {st : ProxiedStream}
    (h : Produced C config peerAddr required sent st) :
    st.Valid ∧ ∃ n, HeaderLength C sent st n ∧ st.undelivered = sent.drop n := by
  cases h with
  | @parsed buf stream info n bytes hparse check =>
      refine ⟨ProxiedStream.valid_new _ _ _ _, n, ?_, ?_⟩
      · -- the verdict on the bytes read is the verdict on all bytes sent
        rw [← bytes]
        show parse C _ = _
        rw [(parse_settles C).append (by simp [hparse]), hparse]
      · rw [ProxiedStream.undelivered_new, ← bytes,
          List.drop_append_of_le_length ((parse_settles C).le hparse)]
  | direct _ bytes => exact ⟨ProxiedStream.valid_new _ _ _ _, 0, rfl, bytes⟩

/-- No byte is lost, duplicated, reordered or altered: after any sequence of
reads of an accepted stream, what was delivered, what is left over and what the
socket still holds are together what follows the header; and a read with room
delivers something while leftover bytes remain. -/
theorem bytes_conserved {env : Handshake} {stream : TcpStream} {st : ProxiedStream}
    (h : accept C config env (.ok (stream, peerAddr)) = .ok st) :
    ∃ n, HeaderLength C stream.unread st n ∧
      ∀ calls : List ReadCall, ∃ delivered st', st.reads calls = .ok (delivered, st') ∧
        delivered ++ (st'.remaining ++ st'.inner.unread) = stream.unread.drop n ∧
        (st'.remaining ≠ [] → ∀ now cap, 0 < cap → ∃ bytes st'',
          st'.pollRead now cap = .ok (.ready (.ok bytes), st'') ∧ bytes ≠ []) := by
  obtain ⟨hvalid, n, hn, hdrop⟩ := (of_accept h).2.undelivered
  refine ⟨n, hn, ?_⟩
  intro calls
  obtain ⟨delivered, st', hreads, hvalid', hbytes, -⟩ := ProxiedStream.reads_spec calls hvalid
  refine ⟨delivered, st', hreads, hbytes.trans hdrop, ?_⟩
  intro hrem now cap hcap
  refine ⟨_, _, ProxiedStream.pollRead_remaining hrem now cap, ?_⟩
  simp only [ne_eq, List.take_eq_nil_iff, not_or]
  exact ⟨by omega, hrem⟩

/-- A LOCAL header and three bytes for the application, in three segments of
which the header ends inside the second. -/
theorem bytes_conserved_local :
    let stream : TcpStream :=
      ⟨[⟨5, [0x0D, 0x0A, 0x0D, 0x0A, 0x00, 0x0D, 0x0A, 0x51], by decide⟩,
        ⟨6, [0x55, 0x49, 0x54, 0x0A, 0x20, 0x00, 0x00, 0x00, 0x47], by decide⟩,
        ⟨9, [0x45, 0x54], by decide⟩], .eof 9⟩
    ∃ st, accept .castagnoli ({} : ProxyProtocolConfig Empty) ⟨0, .granted 1, 10000000000⟩
        (.ok (stream, .v4 (.new 192 0 2 9) 4000)) = .ok st ∧
      ∀ calls, ∃ delivered st', st.reads calls = .ok (delivered, st') ∧
        delivered ++ (st'.remaining ++ st'.inner.unread) = [0x47, 0x45, 0x54] := by
  intro stream
  have haccept : accept .castagnoli ({} : ProxyProtocolConfig Empty)
      ⟨0, .granted 1, 10000000000⟩ (.ok (stream, .v4 (.new 192 0 2 9) 4000)) =
      .ok (.new ⟨[⟨9, [0x45, 0x54], by decide⟩], .eof 9⟩ [0x47]
        (some ⟨.v2, .local, none, none, none, {}⟩) (.v4 (.new 192 0 2 9) 4000)) := by
    decide +kernel
  refine ⟨_, haccept, ?_⟩
  obtain ⟨n, hn, hall⟩ := bytes_conserved haccept
  have hlength : n = 16 := by
    have hparse : parse .castagnoli stream.unread =
        .ok (⟨.v2, .local, none, none, none, {}⟩, 16) := by decide
    have hboth := hn.symm.trans hparse
    cases hboth
    rfl
  intro calls
  obtain ⟨delivered, st', hreads, hbytes, -⟩ := hall calls
  refine ⟨delivered, st', hreads, ?_⟩
  rw [hbytes, hlength]
  rfl

/-! ## Trust -/

section Trust

variable {Net : Type} [IpNet Net]

/-- The policies with a trusted set: the others are rejected, or let through
unread. -/
def UsesTrusted (config : ProxyProtocolConfig E) (T : TrustedProxies Net) : Prop :=
  config.policy = T.evaluate ∨ config.policy = (MixedMode.mk T).evaluate

theorem accept_untrusted_rejected {T : TrustedProxies Net} (hpolicy : config.policy = T.evaluate)
    (huntrusted : T.contains peerAddr.ip = false) (env : Handshake) (stream : TcpStream) :
    accept C config env (.ok (stream, peerAddr)) = .err (.rejected peerAddr) := by
  simp only [accept, hpolicy, TrustedProxies.evaluate, huntrusted, Bool.false_eq_true, if_false]

theorem accept_untrusted_direct {T : TrustedProxies Net}
    (hpolicy : config.policy = (MixedMode.mk T).evaluate)
    (huntrusted : T.contains peerAddr.ip = false) (env : Handshake) (stream : TcpStream) :
    accept C config env (.ok (stream, peerAddr)) = .ok (.new stream [] none peerAddr) := by
  simp only [accept, hpolicy, MixedMode.evaluate, huntrusted, Bool.false_eq_true, if_false]

/-- A trusted peer has to send a header. -/
theorem policy_trusted {T : TrustedProxies Net} (hpolicy : UsesTrusted config T)
    (htrusted : T.contains peerAddr.ip = true) : config.policy peerAddr = .require := by
  rcases hpolicy with h | h
  · simp only [h, TrustedProxies.evaluate, htrusted, if_true]
  · simp only [h, MixedMode.evaluate, htrusted, if_true]

/-- Only a trusted peer's validated header can change the client address.
Untrusted peers are rejected, or get a stream whose metadata does not depend on
what they send; a stream of a trusted peer carries a header that was parsed
from the bytes read and passed the version check and the validator. -/
theorem trusted_header (T : TrustedProxies Net) :
    (config.policy = T.evaluate → T.contains peerAddr.ip = false → ∀ env stream,
      accept C config env (.ok (stream, peerAddr)) = .err (.rejected peerAddr)) ∧
    (config.policy = (MixedMode.mk T).evaluate → T.contains peerAddr.ip = false →
      (∀ env stream, ∃ st, accept C config env (.ok (stream, peerAddr)) = .ok st ∧
        st.proxyInfo = none ∧ st.peerAddr = peerAddr ∧ st.clientAddr = st.peerAddr) ∧
      ∀ env stream st env' stream' st', accept C config env (.ok (stream, peerAddr)) = .ok st →
        accept C config env' (.ok (stream', peerAddr)) = .ok st' →
        st.connectInfo = st'.connectInfo) ∧
    (UsesTrusted config T → ∀ env stream st,
      accept C config env (.ok (stream, peerAddr)) = .ok st →
      (T.contains peerAddr.ip = true → ∃ info buf n, st.proxyInfo = some info ∧
        buf ++ st.inner.unread = stream.unread ∧ parse C buf = .ok (info, n) ∧
        config.version.allows info.version = true ∧
        ∀ validate, config.validator = some validate → validate info peerAddr = .ok ()) ∧
      (st.clientAddr ≠ st.peerAddr → T.contains peerAddr.ip = true)) := by
  refine ⟨?_, ?_, ?_⟩
  · intro hpolicy huntrusted env stream
    exact accept_untrusted_rejected hpolicy huntrusted env stream
  · intro hpolicy huntrusted
    refine ⟨?_, ?_⟩
    · intro env stream
      exact ⟨_, accept_untrusted_direct hpolicy huntrusted env stream, rfl, rfl, rfl⟩
    · intro env stream st env' stream' st' h h'
      rw [accept_untrusted_direct hpolicy huntrusted] at h h'
      cases h
      cases h'
      rfl
  · intro hpolicy env stream st h
    refine ⟨?_, ?_⟩
    · intro htrusted
      have hproduced := (of_accept h).2
      rw [policy_trusted hpolicy htrusted] at hproduced
      cases hproduced with
      | parsed bytes hparse check =>
          exact ⟨_, _, _, rfl, bytes, hparse, (checkHeader_eq_ok.mp check).1,
            (checkHeader_eq_ok.mp check).2⟩
      -- without a header only where it is optional, which a trusted peer's is not
      | direct optional _ => cases optional
    · intro hclient
      by_contra huntrusted
      have hfalse := Bool.eq_false_of_not_eq_true huntrusted
      rcases hpolicy with hpolicy | hpolicy
      · rw [accept_untrusted_rejected hpolicy hfalse] at h
        cases h
      · rw [accept_untrusted_direct hpolicy hfalse] at h
        cases h
        exact hclient rfl

/-- A trusted network, a peer inside it that sends a header, and one outside
that sends the same bytes. -/
theorem trusted_header_network :
    let T : TrustedProxies Cidr := .withCidrs [] [⟨.v4 (.new 10 0 0 0), 8, by decide⟩]
    let stream : TcpStream :=
      ⟨[⟨2, v2Signature ++ [0x21, 0x11, 0, 12, 192, 0, 2, 1, 198, 51, 100, 7, 220, 4, 1, 187],
        by decide⟩], .eof 3⟩
    let env : Handshake := ⟨0, .granted 1, 10000000000⟩
    let inside : SocketAddr := .v4 (.new 10 1 2 3) 4000
    let outside : SocketAddr := .v4 (.new 192 0 2 9) 4000
    let strict : ProxyProtocolConfig Empty := { policy := T.evaluate }
    let mixed : ProxyProtocolConfig Empty := { policy := (MixedMode.mk T).evaluate }
    accept .castagnoli strict env (.ok (stream, outside)) = .err (.rejected outside) ∧
    (∃ st, accept .castagnoli mixed env (.ok (stream, outside)) = .ok st ∧
      st.clientAddr = outside) ∧
    (∃ st, accept .castagnoli mixed env (.ok (stream, inside)) = .ok st ∧
      st.clientAddr = .v4 (.new 192 0 2 1) 56324 ∧ T.contains inside.ip = true) := by
  intro T stream env inside outside strict mixed
  have hstrict := @trusted_header Empty .castagnoli strict outside Cidr _ T
  have hmixed := @trusted_header Empty .castagnoli mixed outside Cidr _ T
  have htrusted := @trusted_header Empty .castagnoli mixed inside Cidr _ T
  have haccept : accept .castagnoli mixed env (.ok (stream, inside)) =
      .ok (.new ⟨[], .eof 3⟩ [] (some ⟨.v2, .proxy, some ⟨.inet, .stream⟩,
        some (.inet (.v4 (.new 192 0 2 1) 56324)), some (.inet (.v4 (.new 198 51 100 7) 443)),
        {}⟩) inside) := by
    decide +kernel
  refine ⟨hstrict.1 rfl (by decide) env stream, ?_, _, haccept, rfl, ?_⟩
  · obtain ⟨st, hst, -, hpeer, hclient⟩ := (hmixed.2.1 rfl (by decide)).1 env stream
    exact ⟨st, hst, hclient.trans hpeer⟩
  · exact (htrusted.2.2 (.inr rfl) env stream _ haccept).2 (by decide)

end Trust

end ProxyProtocol
