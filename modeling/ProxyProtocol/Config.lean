import Mathlib.Data.Finset.Dedup
import Mathlib.Data.Finset.Insert
import ProxyProtocol.Types

/-! # Policies and configuration

`policy.rs`, `validator.rs` and `config.rs`: which peers have to send a
header, which headers are let through, and the limits of the handshake. The
networks of the trusted set come from the `ipnet` crate, of which only the
interface is used (`IpNet`).
-/

namespace ProxyProtocol

/-! ## Policies -/

inductive PolicyDecision where
  | require
  | use
  | ignore
  | reject
deriving DecidableEq, Repr

/-- `ConnPolicy::evaluate`, the one method of the trait. -/
abbrev ConnPolicy := SocketAddr → PolicyDecision

/-- `AcceptAll`. -/
def acceptAll : ConnPolicy := fun _ => .require

/-- `OptionalProxy`. -/
def optionalProxy : ConnPolicy := fun _ => .use

/-- What the policies use of `ipnet::IpNet`. -/
class IpNet (Net : Type) where
  contains : Net → IpAddr → Bool
  addr : Net → IpAddr
  prefixLen : Net → ℕ
  maxPrefixLen : Net → ℕ

/-- The bits of an address, most significant first. -/
def IpAddr.bits (ip : IpAddr) : List Bool :=
  let octets := match ip with
    | .v4 addr => addr.octets.bytes
    | .v6 addr => addr.octets.bytes
  octets.flatMap fun b => (List.range 8).map fun i => b.toNat.testBit (7 - i)

/-- A network by its meaning: the addresses of one family that agree with
`addr` on the first `prefixLen` bits. -/
structure Cidr where
  addr : IpAddr
  prefixLen : ℕ
  prefixLen_le : prefixLen ≤ addr.bits.length
deriving DecidableEq

instance : IpNet Cidr where
  contains net ip :=
    ip.bits.length == net.addr.bits.length &&
      ip.bits.take net.prefixLen == net.addr.bits.take net.prefixLen
  addr := Cidr.addr
  prefixLen := Cidr.prefixLen
  maxPrefixLen net := net.addr.bits.length

/-- The trusted set: single addresses and networks. -/
structure TrustedProxies (Net : Type) where
  exact : Finset IpAddr
  cidrs : List Net

namespace TrustedProxies

variable {Net : Type}

def new (addrs : List IpAddr) : TrustedProxies Net := ⟨addrs.toFinset, []⟩

def withCidrs (addrs : List IpAddr) (cidrs : List Net) : TrustedProxies Net :=
  ⟨addrs.toFinset, cidrs⟩

variable [IpNet Net]

/-- One net of `from_ipnets`: a host-length prefix is a single address. -/
def insertIpnet (t : TrustedProxies Net) (net : Net) : TrustedProxies Net :=
  if IpNet.prefixLen net = IpNet.maxPrefixLen net then
    { t with exact := insert (IpNet.addr net) t.exact }
  else { t with cidrs := t.cidrs ++ [net] }

def fromIpnets (nets : List Net) : TrustedProxies Net := nets.foldl insertIpnet ⟨∅, []⟩

def contains (t : TrustedProxies Net) (ip : IpAddr) : Bool :=
  decide (ip ∈ t.exact) || t.cidrs.any fun net => IpNet.contains net ip

/-- `impl ConnPolicy for TrustedProxies`. -/
def evaluate (t : TrustedProxies Net) : ConnPolicy := fun peerAddr =>
  if t.contains peerAddr.ip then .require else .reject

end TrustedProxies

/-- `MixedMode`: a trusted set whose complement is let through. -/
structure MixedMode (Net : Type) where
  trusted : TrustedProxies Net

/-- `impl ConnPolicy for MixedMode`. -/
def MixedMode.evaluate {Net : Type} [IpNet Net] (m : MixedMode Net) : ConnPolicy := fun peerAddr =>
  if m.trusted.contains peerAddr.ip then .require else .ignore

/-! ## Configuration -/

/-- `std::time::Duration`. -/
structure Duration where
  secs : UInt64
  nanos : Fin 1000000000
deriving DecidableEq, Repr

namespace Duration

def fromSecs (secs : UInt64) : Duration := ⟨secs, 0⟩

def asNanos (d : Duration) : ℕ := d.secs.toNat * 1000000000 + d.nanos

def isZero (d : Duration) : Bool := d.secs == 0 && d.nanos == 0

end Duration

/-- `HeaderValidator::validate`; `E` stands for the boxed error. -/
abbrev HeaderValidator (E : Type) := ProxyInfo → SocketAddr → Except E Unit

inductive VersionPreference where
  | both
  | v1Only
  | v2Only
deriving DecidableEq, Repr

/-- The versions a preference lets through. -/
def VersionPreference.allows : VersionPreference → Version → Bool
  | .v1Only, .v2 => false
  | .v2Only, .v1 => false
  | _, _ => true

structure ProxyProtocolConfig (E : Type) where
  headerTimeout : Duration := .fromSecs 5
  maxHeaderSize : ℕ := 4096
  maxPendingHandshakes : ℕ := 1024
  policy : ConnPolicy := acceptAll
  validator : Option (HeaderValidator E) := none
  version : VersionPreference := .both

structure ConfigError where
  message : String
deriving DecidableEq, Repr

/-- `ConfigBuilder`, with the same defaults. -/
structure ConfigBuilder (E : Type) where
  headerTimeout : Duration := .fromSecs 5
  maxHeaderSize : ℕ := 4096
  maxPendingHandshakes : ℕ := 1024
  policy : ConnPolicy := acceptAll
  validator : Option (HeaderValidator E) := none
  version : VersionPreference := .both

namespace ConfigBuilder

variable {E : Type}

def build (b : ConfigBuilder E) : Except ConfigError (ProxyProtocolConfig E) :=
  if b.headerTimeout.isZero then .error ⟨"header_timeout must be greater than zero"⟩
  else if b.maxHeaderSize = 0 then .error ⟨"max_header_size must be greater than zero"⟩
  else if b.maxPendingHandshakes = 0 then
    .error ⟨"max_pending_handshakes must be greater than zero"⟩
  else
    .ok { headerTimeout := b.headerTimeout
          maxHeaderSize := b.maxHeaderSize
          maxPendingHandshakes := b.maxPendingHandshakes
          policy := b.policy
          validator := b.validator
          version := b.version }

/-- What `build` checks, and nothing else. -/
theorem build_eq_ok {b : ConfigBuilder E} {config : ProxyProtocolConfig E} :
    b.build = .ok config ↔
      b.headerTimeout.isZero = false ∧ 0 < b.maxHeaderSize ∧ 0 < b.maxPendingHandshakes ∧
        config = ⟨b.headerTimeout, b.maxHeaderSize, b.maxPendingHandshakes, b.policy,
          b.validator, b.version⟩ := by
  unfold build
  cases hzero : b.headerTimeout.isZero with
  | true => simp
  | false =>
      by_cases hsize : b.maxHeaderSize = 0
      · simp [hsize]
      · by_cases hpending : b.maxPendingHandshakes = 0
        · simp [hsize, hpending]
        · simp only [Bool.false_eq_true, if_false, if_neg hsize, if_neg hpending,
            Except.ok.injEq, true_and]
          constructor
          · rintro rfl
            exact ⟨Nat.pos_of_ne_zero hsize, Nat.pos_of_ne_zero hpending, rfl⟩
          · rintro ⟨-, -, rfl⟩
            rfl

end ConfigBuilder

/-! ## Setter calls -/

section Setters

variable {E α : Type}

/-- `ProxyProtocolConfig::builder`. -/
def ProxyProtocolConfig.builder : ConfigBuilder E := {}

/-- The calls on a builder, each under the name of its method. -/
inductive Setter (E : Type) where
  | headerTimeout (timeout : Duration)
  | maxHeaderSize (size : ℕ)
  | maxPendingHandshakes (limit : ℕ)
  | policy (policy : ConnPolicy)
  | validator (validator : HeaderValidator E)
  | version (version : VersionPreference)

def Setter.apply (b : ConfigBuilder E) : Setter E → ConfigBuilder E
  | .headerTimeout timeout => { b with headerTimeout := timeout }
  | .maxHeaderSize size => { b with maxHeaderSize := size }
  | .maxPendingHandshakes limit => { b with maxPendingHandshakes := limit }
  | .policy p => { b with policy := p }
  | .validator v => { b with validator := some v }
  | .version v => { b with version := v }

/-- A chain of calls. -/
def ConfigBuilder.calls (b : ConfigBuilder E) (setters : List (Setter E)) : ConfigBuilder E :=
  setters.foldl Setter.apply b

/-- The last argument that a chain of calls gives, or a default. -/
def lastArg (arg : Setter E → Option α) (default : α) (setters : List (Setter E)) : α :=
  (setters.reverse.findSome? arg).getD default

def Setter.timeoutArg : Setter E → Option Duration
  | .headerTimeout timeout => some timeout
  | _ => none

def Setter.pendingArg : Setter E → Option ℕ
  | .maxPendingHandshakes limit => some limit
  | _ => none

/-- A field that one setter writes holds what it was last given. -/
theorem calls_lastArg {field : ConfigBuilder E → α} {arg : Setter E → Option α}
    (hfield : ∀ b setter, field (setter.apply b) = (arg setter).getD (field b))
    (setters : List (Setter E)) :
    ∀ b : ConfigBuilder E, field (b.calls setters) = lastArg arg (field b) setters := by
  induction setters with
  | nil => exact fun _ => rfl
  | cons setter setters ih =>
      intro b
      have hrest := ih (setter.apply b)
      rw [hfield] at hrest
      rw [lastArg] at hrest ⊢
      rw [List.reverse_cons, List.findSome?_append, Option.getD_or]
      refine hrest.trans ?_
      cases harg : arg setter <;> simp [harg]

theorem headerTimeout_calls (b : ConfigBuilder E) (setters : List (Setter E)) :
    (b.calls setters).headerTimeout = lastArg Setter.timeoutArg b.headerTimeout setters :=
  calls_lastArg (fun _ setter => by cases setter <;> rfl) setters b

theorem maxPendingHandshakes_calls (b : ConfigBuilder E) (setters : List (Setter E)) :
    (b.calls setters).maxPendingHandshakes =
      lastArg Setter.pendingArg b.maxPendingHandshakes setters :=
  calls_lastArg (fun _ setter => by cases setter <;> rfl) setters b

end Setters

end ProxyProtocol
