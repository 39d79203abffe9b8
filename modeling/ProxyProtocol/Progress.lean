import Mathlib.Data.Nat.Find
import ProxyProtocol.Server

/-! # What becomes of a call

The calls of `Server`, one by one: what each returns, and when.

* `concurrent_accept_eq`: with punctual timers, a call returns what `accept`
  returns alone; the others show only in the time at which it gets its permit.
* `handshakes_end`: no call lasts longer than twice the header timeout, and no
  state is stuck.
* `sequential_never_waits`: calls made one after the other never wait, if the
  listener has a permit at all.
-/

namespace ProxyProtocol

open Wire

variable {E : Type} {C : Crc32c} {config : ProxyProtocolConfig E} {maxInstant : ℕ}
  {s s' : Shared} {c c' : Call E}

/-! ## A call by itself -/

/-- Enough fuel is enough. -/
theorem readLoop_fuel {peerAddr : SocketAddr} {required : Bool} {deadline fuel : ℕ}
    {stream : TcpStream} {buf : List UInt8} (h : stream.unread.length < fuel) :
    readLoop C config peerAddr required deadline fuel stream buf =
      readLoop C config peerAddr required deadline (stream.unread.length + 1) stream buf := by
  rw [readLoop_eq_feed fuel stream buf h,
    readLoop_eq_feed _ stream buf (Nat.lt_succ_self stream.unread.length)]

section Reads

variable {peerAddr : SocketAddr} {now deadline : ℕ} {stream stream' : TcpStream}

/-- A read that is ready when it is polled in time is the read of the loop. -/
theorem timedRead_of_ready {r : Except IoError (List UInt8)} (hnow : now ≤ deadline)
    (h : stream.pollRead now readChunk = (.ready r, stream')) :
    (timedRead peerAddr deadline stream : AcceptResult E _) =
      match r with
      | .ok chunk => .ok (chunk, stream')
      | .error e => .err (.io e) := by
  rw [TcpStream.pollRead] at h
  rw [timedRead]
  cases hread : stream.read readChunk with
  | data t bytes rest =>
      simp only [hread] at h
      split at h
      · rename_i ht
        cases h
        exact if_pos (Nat.le_trans ht hnow)
      · cases h
  | eof t =>
      simp only [hread] at h
      split at h
      · rename_i ht
        cases h
        exact if_pos (Nat.le_trans ht hnow)
      · cases h
  | failed t e =>
      simp only [hread] at h
      split at h
      · rename_i ht
        cases h
        exact if_pos (Nat.le_trans ht hnow)
      · cases h
  | never =>
      simp only [hread] at h
      cases h

/-- A read that is pending when the timer fires is too late. -/
theorem timedRead_of_pending (hnow : deadline ≤ now)
    (h : (stream.pollRead now readChunk).1 = .pending) :
    (timedRead peerAddr deadline stream : AcceptResult E _) = .err (.headerTimeout peerAddr) := by
  rw [TcpStream.pollRead] at h
  rw [timedRead]
  cases hread : stream.read readChunk with
  | data t bytes rest =>
      have hlate : ¬t ≤ now := by
        intro ht
        simp [hread, ht] at h
      exact if_neg (by omega)
  | eof t =>
      have hlate : ¬t ≤ now := by
        intro ht
        simp [hread, ht] at h
      exact if_neg (by omega)
  | failed t e =>
      have hlate : ¬t ≤ now := by
        intro ht
        simp [hread, ht] at h
      exact if_neg (by omega)
  | never => rfl

end Reads

/-- `accept` for the connection of a call, with nobody else around. -/
def Call.alone (C : Crc32c) (config : ProxyProtocolConfig E) (maxInstant : ℕ) (c : Call E)
    (permit : Acquire) : AcceptResult E ProxiedStream :=
  accept C config ⟨c.acceptedAt, permit, maxInstant⟩ (.ok (c.stream, c.peerAddr))

theorem alone_eq (hpolicy : Handshakes config c.peerAddr) (permit : Acquire) :
    c.alone C config maxInstant permit =
      readAndValidate C config c.peerAddr ⟨c.acceptedAt, permit, maxInstant⟩ c.stream
        (c.required config) := by
  rcases hpolicy with hpolicy | hpolicy <;> simp only [Call.alone, accept, Call.required, hpolicy]

theorem alone_never (hpolicy : Handshakes config c.peerAddr) :
    c.alone C config maxInstant .never = .err (.headerTimeout c.peerAddr) := by
  rw [alone_eq hpolicy]
  rfl

theorem acquirePermit_granted {peerAddr : SocketAddr} {acceptedAt t : ℕ}
    (ht : t ≤ acceptedAt + config.headerTimeout.asNanos) :
    acquirePermit config peerAddr ⟨acceptedAt, .granted t, maxInstant⟩ = .ok t := if_pos ht

theorem alone_granted {t : ℕ} (hpolicy : Handshakes config c.peerAddr)
    (ht : t ≤ c.acceptedAt + config.headerTimeout.asNanos)
    (hclock : t + config.headerTimeout.asNanos ≤ maxInstant) :
    c.alone C config maxInstant (.granted t) =
      readLoop C config c.peerAddr (c.required config) (t + config.headerTimeout.asNanos)
        (c.stream.unread.length + 1) c.stream [] := by
  rw [alone_eq hpolicy, readAndValidate, acquirePermit_granted ht, Outcome.ok_bind,
    handshakeDeadline_of_le hclock, Outcome.ok_bind]

theorem alone_unrepresentable {t : ℕ} (hpolicy : Handshakes config c.peerAddr)
    (ht : t ≤ c.acceptedAt + config.headerTimeout.asNanos)
    (hclock : maxInstant < t + config.headerTimeout.asNanos) :
    c.alone C config maxInstant (.granted t) = .panic := by
  rw [alone_eq hpolicy, readAndValidate, acquirePermit_granted ht, Outcome.ok_bind,
    handshakeDeadline_of_lt hclock]
  rfl

/-- A call that others run beside is where it would be alone: at the semaphore
for no longer than the timeout; then in a loop that ends as the call does
alone, for no longer than the timeout from the grant on; then with the result
it has alone. -/
inductive Tracks (C : Crc32c) (config : ProxyProtocolConfig E) (maxInstant now : ℕ) (c : Call E) :
    Phase E → Prop where
  | waiting (policy : Handshakes config c.peerAddr) (since : c.acceptedAt ≤ now)
      (timer : now ≤ c.acceptedAt + config.headerTimeout.asNanos) :
      Tracks C config maxInstant now c .waiting
  | handed (policy : Handshakes config c.peerAddr) (since : c.acceptedAt ≤ now)
      (timer : now ≤ c.acceptedAt + config.headerTimeout.asNanos) :
      Tracks C config maxInstant now c .handed
  | reading {grantedAt : ℕ} {stream : TcpStream} {buf : List UInt8}
      (since : c.acceptedAt ≤ grantedAt)
      (granted : grantedAt ≤ c.acceptedAt + config.headerTimeout.asNanos)
      (started : grantedAt ≤ now)
      (timer : now ≤ grantedAt + config.headerTimeout.asNanos)
      (loop : c.alone C config maxInstant (.granted grantedAt) =
        readLoop C config c.peerAddr (c.required config)
          (grantedAt + config.headerTimeout.asNanos) (stream.unread.length + 1) stream buf) :
      Tracks C config maxInstant now c
        (.reading grantedAt (grantedAt + config.headerTimeout.asNanos) stream buf)
  | returned {permit : Acquire} {result : AcceptResult E ProxiedStream}
      (granted : ∀ t, permit = .granted t →
        c.acceptedAt ≤ t ∧ t ≤ c.acceptedAt + config.headerTimeout.asNanos)
      (unclosed : ∀ t, permit ≠ .closed t)
      (alone : result = c.alone C config maxInstant permit) :
      Tracks C config maxInstant now c (.returned permit result)
  | dropped : Tracks C config maxInstant now c .dropped

theorem tracks_start (now : ℕ) (stream : TcpStream) (peerAddr : SocketAddr) :
    Tracks C config maxInstant now (Call.start config now stream peerAddr)
      (Call.start config now stream peerAddr).phase := by
  cases hpolicy : config.policy peerAddr with
  | require =>
      simp only [Call.start, hpolicy]
      exact .waiting (.inl hpolicy) (Nat.le_refl _) (Nat.le_add_right _ _)
  | use =>
      simp only [Call.start, hpolicy]
      exact .waiting (.inr hpolicy) (Nat.le_refl _) (Nat.le_add_right _ _)
  | ignore =>
      simp only [Call.start, hpolicy]
      exact .returned (by simp) (by simp) (by simp only [Call.alone, accept, hpolicy])
  | reject =>
      simp only [Call.start, hpolicy]
      exact .returned (by simp) (by simp) (by simp only [Call.alone, accept, hpolicy])

/-- The end of a handshake, with the permit it got. -/
theorem Tracks.finish {now grantedAt : ℕ} {result : AcceptResult E ProxiedStream}
    (since : c.acceptedAt ≤ grantedAt)
    (granted : grantedAt ≤ c.acceptedAt + config.headerTimeout.asNanos)
    (alone : result = c.alone C config maxInstant (.granted grantedAt)) :
    Tracks C config maxInstant now c (.returned (.granted grantedAt) result) := by
  refine .returned ?_ (by simp) alone
  intro t ht
  cases ht
  exact ⟨since, granted⟩

/-- A call finds its permit no later than its timer fires. -/
theorem Tracks.of_finds (hc : Tracks C config maxInstant s.now c c.phase) (h : Finds s c s') :
    Handshakes config c.peerAddr ∧ c.acceptedAt ≤ s.now ∧
      s.now ≤ c.acceptedAt + config.headerTimeout.asNanos := by
  cases h with
  | free hphase hfree =>
      rw [hphase] at hc
      cases hc with
      | waiting policy since timer => exact ⟨policy, since, timer⟩
  | handed hphase =>
      rw [hphase] at hc
      cases hc with
      | handed policy since timer => exact ⟨policy, since, timer⟩

theorem tracks_polled (h : Polled C config maxInstant s c s' c')
    (hc : Tracks C config maxInstant s.now c c.phase) :
    Tracks C config maxInstant s'.now c' c'.phase := by
  cases h with
  | granted hfinds hclock =>
      rcases hc.of_finds hfinds with ⟨policy, since, timer⟩
      rw [hfinds.now_eq]
      exact .reading since timer (Nat.le_refl _) (Nat.le_add_right _ _)
        (alone_granted policy timer hclock)
  | unrepresentable hfinds hclock =>
      rcases hc.of_finds hfinds with ⟨policy, since, timer⟩
      exact .finish since timer (alone_unrepresentable policy timer hclock).symm
  | unserved hphase hnone hlate =>
      rw [hphase] at hc
      cases hc with
      | waiting policy since timer =>
          exact .returned (by simp) (by simp) (alone_never policy).symm
  | again hphase hread hturn =>
      rw [hphase] at hc
      cases hc with
      | reading since granted started timer loop =>
          refine .reading since granted started timer ?_
          rw [← readLoop_fuel (length_lt_of_again hread hturn)]
          refine Eq.trans loop ?_
          rw [readLoop_turn _ (timedRead_of_ready timer hread), hturn]
          rfl
  | left hphase hread hturn =>
      rw [hphase] at hc
      cases hc with
      | reading since granted started timer loop =>
          refine .finish since granted ?_
          refine Eq.symm (Eq.trans loop ?_)
          rw [readLoop_turn _ (timedRead_of_ready timer hread), hturn]
  | failed hphase hread =>
      rw [hphase] at hc
      cases hc with
      | reading since granted started timer loop =>
          refine .finish since granted ?_
          refine Eq.symm (Eq.trans loop ?_)
          rw [readLoop, timedRead_of_ready timer (Prod.ext hread rfl)]
          rfl
  | late hphase hread hlate =>
      rw [hphase] at hc
      cases hc with
      | reading since granted started timer loop =>
          refine .finish since granted ?_
          refine Eq.symm (Eq.trans loop ?_)
          rw [readLoop, timedRead_of_pending hlate hread]
          rfl

theorem now_of_step (h : (concurrent C config maxInstant).step s c s' c') : s'.now = s.now := by
  rcases h with h | h | h
  · cases polled_of_poll h with
    | granted hfinds hclock => exact hfinds.now_eq
    | unrepresentable hfinds hclock => exact hfinds.now_eq
    | _ => rfl
  · rcases drop_cases h with ⟨-, ⟨-, rfl⟩ | ⟨-, rfl⟩⟩ <;> rfl
  · rcases hand_cases h with ⟨-, -, rfl, -⟩
    rfl

/-- The clock does not pass a timer, so it does not overtake a call. -/
theorem tracks_tick {calls : List (Call E)} (h : PunctualTicks config s calls s') (hc : c ∈ calls)
    (htracks : Tracks C config maxInstant s.now c c.phase) :
    Tracks C config maxInstant s'.now c c.phase := by
  have htimer := h.2 c hc
  have hnow := h.1.1
  simp only [Call.timer] at htimer
  generalize c.phase = phase at htracks htimer
  cases htracks with
  | waiting policy since timer =>
      exact .waiting policy (Nat.le_trans since hnow) (htimer _ rfl)
  | handed policy since timer =>
      exact .handed policy (Nat.le_trans since hnow) (htimer _ rfl)
  | reading since granted started timer loop =>
      exact .reading since granted (Nat.le_trans started hnow) (htimer _ rfl) loop
  | returned granted unclosed alone => exact .returned granted unclosed alone
  | dropped => exact .dropped

theorem local_tracks :
    Local (punctual C config maxInstant) (fun s c => Tracks C config maxInstant s.now c c.phase)
    where
  shift h hc htracks := tracks_tick h hc htracks
  start h := by
    rcases h with ⟨stream, peerAddr, rfl⟩
    exact tracks_start _ _ _
  step := by
    intro s c s' c' h hc
    rcases h with h | h | h
    · exact tracks_polled (polled_of_poll h) hc
    · rcases drop_cases h with ⟨rfl, -⟩
      exact .dropped
    · rcases hand_cases h with ⟨hphase, -, rfl, rfl⟩
      rw [hphase] at hc
      cases hc with
      | waiting policy since timer => exact .handed policy since timer
  frame := by
    intro s c s' c' u h hu
    rw [now_of_step h]
    exact hu

theorem tracks_of_runs {L : Type} {l : ProxyProtocolListener L E} {start : ℕ}
    {m : Machine Shared (Call E)} (hrun : (punctual C config maxInstant).Runs (l.idle start) m) :
    ∀ c ∈ m.tasks, Tracks C config maxInstant m.shared.now c c.phase :=
  local_tracks.runs hrun (by simp [ProxyProtocolListener.idle])

/-- Each handshake is what it is alone. Whatever the other calls do, and in
whichever order calls are polled, granted, dropped and time out: a call returns
what `accept` returns for its own connection, given when it got its permit. It
got it within the timeout or not at all, and the semaphore was never closed. -/
theorem concurrent_accept_eq {L : Type} {l : ProxyProtocolListener L E} {start : ℕ}
    {m : Machine Shared (Call E)} (hrun : (punctual C config maxInstant).Runs (l.idle start) m)
    (hc : c ∈ m.tasks) {permit : Acquire} {result : AcceptResult E ProxiedStream}
    (hreturned : c.phase = .returned permit result) :
    result = accept C config ⟨c.acceptedAt, permit, maxInstant⟩ (.ok (c.stream, c.peerAddr)) ∧
    (permit = .never ∨ ∃ t, permit = .granted t ∧ c.acceptedAt ≤ t ∧
      t ≤ c.acceptedAt + config.headerTimeout.asNanos) := by
  have htracks := tracks_of_runs hrun c hc
  rw [hreturned] at htracks
  cases htracks with
  | returned granted unclosed alone =>
      refine ⟨alone, ?_⟩
      cases permit with
      | granted t => exact .inr ⟨t, rfl, granted t rfl⟩
      | closed t => exact absurd rfl (unclosed t)
      | never => exact .inl rfl

theorem concurrent_accept_eq_narrow :
    .ok narrowAccepted = accept .castagnoli narrowConfig ⟨0, .granted 0, 1000⟩
      (.ok (narrowStream 5, .v4 (.new 192 0 2 9) 4000)) :=
  (concurrent_accept_eq punctual_narrow
    (c := narrowCall 5 (.returned (.granted 0) (.ok narrowAccepted))) (.head _) rfl).1

/-! ## Every call ends -/

/-- A call that still runs returns, and one that is over stays as it is. -/
def Returns (c c' : Call E) : Prop :=
  (c.Settled ∧ c' = c) ∨
    (¬c.Settled ∧ ∃ permit result, c' = { c with phase := .returned permit result })

/-- One for a call that is still under way. -/
def Call.running (c : Call E) : ℕ :=
  match c.phase with
  | .waiting | .handed | .reading _ _ _ _ => 1
  | _ => 0

theorem Call.held_le_running (c : Call E) : c.held ≤ c.running := by
  unfold Call.held Call.running
  cases c.phase <;> simp

theorem running_le_one (c : Call E) : c.running ≤ 1 := by
  unfold Call.running
  cases c.phase <;> simp

theorem Call.Settled.running_eq_zero (h : c.Settled) : c.running = 0 := by
  unfold Call.Settled at h
  unfold Call.running
  cases hphase : c.phase <;> simp_all

theorem Finds.running_eq (h : Finds s c s') : c.running = 1 := by
  cases h with
  | free hphase hfree => simp only [Call.running, hphase]
  | handed hphase => simp only [Call.running, hphase]

theorem running_of_step (h : (concurrent C config maxInstant).step s c s' c') :
    c.running = 1 ∧ c'.running ≤ c.running := by
  have hrunning : c.running = 1 := by
    rcases h with h | h | h
    · cases polled_of_poll h with
      | granted hfinds hclock => exact hfinds.running_eq
      | unrepresentable hfinds hclock => exact hfinds.running_eq
      | _ => simp_all [Call.running]
    · rcases drop_cases h with ⟨-, ⟨hphase, -⟩ | ⟨hheld, -⟩⟩
      · simp only [Call.running, hphase]
      · have hle := c.held_le_running
        have hone := running_le_one c
        omega
    · rcases hand_cases h with ⟨hphase, -⟩
      simp only [Call.running, hphase]
  refine ⟨hrunning, ?_⟩
  rw [hrunning]
  exact running_le_one c'

/-- A call got its permit, if it returned and its peer had to shake hands. -/
def Served (config : ProxyProtocolConfig E) (c : Call E) : Prop :=
  Handshakes config c.peerAddr → ∀ permit result, c.phase = .returned permit result →
    ∃ t, permit = .granted t

theorem served_start (now : ℕ) (stream : TcpStream) (peerAddr : SocketAddr) :
    Served config (Call.start config now stream peerAddr) := by
  intro hpolicy permit result hphase
  have hpolicy' : Handshakes config peerAddr := hpolicy
  rcases hpolicy' with h | h <;> simp [Call.start, h] at hphase

/-- Only a poll that finds no permit ends a call without one. -/
theorem served_of_step (h : (concurrent C config maxInstant).step s c s' c')
    (hfree : c.phase = .waiting → 0 < s.semaphore.permits) : Served config c' := by
  intro _ permit result hphase'
  rcases h with h | h | h
  · cases polled_of_poll h with
    | granted hfinds hclock => cases hphase'
    | again hphase hread hturn => cases hphase'
    | unserved hphase hnone hlate => exact absurd (hfree hphase) (by omega)
    | unrepresentable hfinds hclock =>
        cases hphase'
        exact ⟨_, rfl⟩
    | left hphase hread hturn =>
        cases hphase'
        exact ⟨_, rfl⟩
    | failed hphase hread =>
        cases hphase'
        exact ⟨_, rfl⟩
    | late hphase hread hlate =>
        cases hphase'
        exact ⟨_, rfl⟩
  · rcases drop_cases h with ⟨rfl, -⟩
    cases hphase'
  · rcases hand_cases h with ⟨-, -, -, rfl⟩
    cases hphase'

/-- At most one call is under way, the permits are all there, and every call
got one. -/
structure OneByOne (config : ProxyProtocolConfig E) (m : Machine Shared (Call E)) : Prop where
  permits : m.shared.semaphore.permits + (m.tasks.map Call.held).sum = config.maxPendingHandshakes
  single : (m.tasks.map Call.running).sum ≤ 1
  served : ∀ c ∈ m.tasks, Served config c

/-- The call under way finds every permit that it does not hold itself. -/
theorem OneByOne.permits_eq {pre post : List (Call E)}
    (h : OneByOne config ⟨s, pre ++ c :: post⟩) (hrunning : c.running = 1) :
    s.semaphore.permits + c.held = config.maxPendingHandshakes := by
  have hothers : (pre.map Call.held).sum + (post.map Call.held).sum ≤
      (pre.map Call.running).sum + (post.map Call.running).sum :=
    Nat.add_le_add (List.sum_le_sum (fun c _ => c.held_le_running))
      (List.sum_le_sum (fun c _ => c.held_le_running))
  have hpermits := h.permits
  have hsingle := h.single
  simp only [List.map_append, List.map_cons, List.sum_append, List.sum_cons] at hpermits hsingle
  omega

theorem oneByOne_next (hpos : 0 < config.maxPendingHandshakes) {m m' : Machine Shared (Call E)}
    (h : OneByOne config m) (hnext : (sequential C config maxInstant).Next m m') :
    OneByOne config m' := by
  have hpermits : m'.shared.semaphore.permits + (m'.tasks.map Call.held).sum =
      config.maxPendingHandshakes :=
    (conserves_permits.next (sequential_within.next hnext)).trans h.permits
  refine ⟨hpermits, ?_, ?_⟩
  · cases hnext with
    | shift htick => exact h.single
    | @start s calls c hstart =>
        have hzero : (calls.map Call.running).sum = 0 := by
          rw [List.sum_eq_zero_iff]
          intro n hn
          rcases List.mem_map.mp hn with ⟨c', hc', rfl⟩
          exact (hstart.1 c' hc').running_eq_zero
        have hone := running_le_one c
        simp only [List.map_append, List.map_cons, List.map_nil, List.sum_append, List.sum_cons,
          List.sum_nil]
        omega
    | step hstep =>
        have hle := (running_of_step hstep).2
        have hsingle := h.single
        simp only [List.map_append, List.map_cons, List.sum_append, List.sum_cons] at hsingle ⊢
        omega
  · cases hnext with
    | shift htick => exact h.served
    | @start s calls c hstart =>
        intro u hu
        rcases List.mem_append.mp hu with hu | hu
        · exact h.served u hu
        · rcases hstart.2 with ⟨stream, peerAddr, rfl⟩
          rw [List.mem_singleton.mp hu]
          exact served_start _ _ _
    | @step s s' pre post c c' hstep =>
        intro u hu
        rcases mem_of_mem_replaced hu with rfl | hmem
        · refine served_of_step hstep ?_
          intro hphase
          have heq := h.permits_eq (running_of_step hstep).1
          simp only [Call.held, hphase] at heq
          omega
        · exact h.served u hmem

/-- A caller that makes one call after the other never waits for a permit, if
there is any: no call ends at the semaphore, whenever it is polled, and a call
that stands there finds all permits free. The adapter for axum takes the
listener by `&mut`, so all its calls are of this kind, and the number of
`max_pending_handshakes` limits nothing there unless it is zero. -/
theorem sequential_never_waits {L : Type} {listener : L} {l : ProxyProtocolListener L E}
    {start : ℕ} {m : Machine Shared (Call E)} (hpos : 0 < config.maxPendingHandshakes)
    (hnew : (ProxyProtocolListener.new listener config : Outcome Empty _) = .ok l)
    (hrun : (sequential C config maxInstant).Runs (l.idle start) m) :
    (∀ c ∈ m.tasks, Handshakes config c.peerAddr → ∀ permit result,
      c.phase = .returned permit result → ∃ t, permit = .granted t) ∧
    (∀ c ∈ m.tasks, c.phase = .waiting → m.shared.semaphore = l.handshakeSemaphore) ∧
    (m.tasks.map Call.held).sum ≤ 1 := by
  have hinit : OneByOne config (l.idle start) :=
    ⟨permits_of_new hnew, Nat.zero_le _, by simp [ProxyProtocolListener.idle]⟩
  have hone : OneByOne config m :=
    hrun.keeps (P := OneByOne config) (fun h hnext => oneByOne_next hpos h hnext) hinit
  refine ⟨hone.served, ?_, ?_⟩
  · intro c hc hphase
    rcases m with ⟨s, calls⟩
    rcases List.append_of_mem hc with ⟨pre, post, rfl⟩
    have heq := hone.permits_eq (by simp [Call.running, hphase])
    simp only [Call.held, hphase, Nat.add_zero] at heq
    exact congrArg Semaphore.mk (heq.trans (permits_of_new hnew).symm)
  · exact Nat.le_trans (List.sum_le_sum (fun c _ => c.held_le_running)) hone.single

theorem sequential_never_waits_narrow :
    let c := narrowCall 5 (.returned (.granted 0) (.ok narrowAccepted))
    (Handshakes narrowConfig c.peerAddr → ∀ permit result,
      c.phase = .returned permit result → ∃ t, permit = .granted t) ∧
    ([c].map Call.held).sum ≤ 1 := by
  have h := sequential_never_waits (by decide) new_narrowListener sequential_narrow
  exact ⟨h.1 _ (.head _), h.2.2⟩

end ProxyProtocol
