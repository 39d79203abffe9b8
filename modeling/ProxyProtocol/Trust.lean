import ProxyProtocol.Config

/-! # The trusted set

`from_ipnets` keeps host-length prefixes as single addresses and the other
networks as they are; `with_cidrs` keeps every network. Both trust the same
addresses, those some network covers.

* `IpNet.Lawful` is what the `ipnet` crate documents of its networks, and
  `Cidr` satisfies it.
* `contains_insertIpnet` is one round of the loop of `from_ipnets`,
  `contains_fromIpnets` the whole loop.
* `trusted_iff_covered`: the two ways to build a trusted set agree on every
  address, and the order and number of the networks do not matter.
-/

namespace ProxyProtocol

open Wire

/-! ## Addresses as bits -/

/-- The bits of a byte, most significant first. -/
def byteBits (b : UInt8) : List Bool := (List.range 8).map fun i => b.toNat.testBit (7 - i)

theorem length_byteBits (b : UInt8) : (byteBits b).length = 8 := by
  simp [byteBits]

theorem byteBits_inj {a b : UInt8} (h : byteBits a = byteBits b) : a = b := by
  apply UInt8.toNat_inj.mp
  apply Nat.eq_of_testBit_eq
  intro i
  by_cases hi : i < 8
  · have hbits := List.map_inj_left.mp h (7 - i) (List.mem_range.mpr (by omega))
    have hpos : 7 - (7 - i) = i := by omega
    rwa [hpos] at hbits
  · -- a byte has no bits beyond the eighth
    have hhigh : ∀ c : UInt8, c.toNat.testBit i = false := by
      intro c
      apply Nat.testBit_lt_two_pow
      calc c.toNat < 2 ^ 8 := c.toNat_lt
        _ ≤ 2 ^ i := Nat.pow_le_pow_right (by decide) (by omega)
    rw [hhigh a, hhigh b]

theorem flatMap_byteBits_inj {as bs : List UInt8} (hlen : as.length = bs.length)
    (h : as.flatMap byteBits = bs.flatMap byteBits) : as = bs := by
  induction as generalizing bs with
  | nil => exact (List.length_eq_zero_iff.mp hlen.symm).symm
  | cons a as ih =>
      cases bs with
      | nil => cases hlen
      | cons b bs =>
          -- eight bits are one byte, on both sides
          have hsplit := List.append_inj h (by rw [length_byteBits, length_byteBits])
          rw [byteBits_inj hsplit.1, ih (Nat.succ.inj hlen) hsplit.2]

/-- The bits of an array determine it. -/
theorem octets_eq_of_bits {n : ℕ} {a b : Octets n}
    (h : a.bytes.flatMap byteBits = b.bytes.flatMap byteBits) : a = b :=
  Octets.ext (flatMap_byteBits_inj (a.length_eq.trans b.length_eq.symm) h)

theorem length_octets_bits {n : ℕ} (o : Octets n) :
    (o.bytes.flatMap byteBits).length = 8 * n := by
  have hlen : ∀ bs : List UInt8, (bs.flatMap byteBits).length = 8 * bs.length := by
    intro bs
    induction bs with
    | nil => rfl
    | cons b bs ih =>
        rw [List.flatMap_cons, List.length_append, length_byteBits, ih, List.length_cons]
        omega
  rw [hlen, o.length_eq]

namespace IpAddr

theorem length_bits_v4 (a : Ipv4Addr) : (IpAddr.v4 a).bits.length = 32 :=
  length_octets_bits a.octets

theorem length_bits_v6 (a : Ipv6Addr) : (IpAddr.v6 a).bits.length = 128 :=
  length_octets_bits a.octets

/-- The number of bits tells the family. -/
theorem length_bits_eq_iff {a b : IpAddr} :
    a.bits.length = b.bits.length ↔ a.family = b.family := by
  cases a <;> cases b <;> simp [length_bits_v4, length_bits_v6, family]

/-- Within a family the bits determine the address. -/
theorem eq_of_bits {a b : IpAddr} (hfamily : a.family = b.family) (hbits : a.bits = b.bits) :
    a = b := by
  cases a with
  | v4 a =>
      cases b with
      | v4 b => exact congrArg (fun o => v4 ⟨o⟩) (octets_eq_of_bits hbits)
      | v6 b => cases hfamily
  | v6 a =>
      cases b with
      | v4 b => cases hfamily
      | v6 b => exact congrArg (fun o => v6 ⟨o⟩) (octets_eq_of_bits hbits)

end IpAddr

/-! ## Networks -/

section Networks

variable {Net : Type} [IpNet Net]

/-- An address that belongs to a network: it is of the network's family and
agrees with its address on the prefix. The host bits of the network's address
play no part. -/
def IpNet.Covers (net : Net) (ip : IpAddr) : Prop :=
  ip.family = (IpNet.addr net).family ∧
    ip.bits.take (IpNet.prefixLen net) = (IpNet.addr net).bits.take (IpNet.prefixLen net)

/-- The documented meaning of a network. -/
class IpNet.Lawful (Net : Type) [IpNet Net] : Prop where
  maxPrefixLen_eq : ∀ net : Net, IpNet.maxPrefixLen net = (IpNet.addr net).bits.length
  contains_iff : ∀ (net : Net) (ip : IpAddr), IpNet.contains net ip = true ↔ IpNet.Covers net ip

instance : IpNet.Lawful Cidr where
  maxPrefixLen_eq _ := rfl
  contains_iff net ip := by
    simp only [IpNet.contains, IpNet.Covers, Bool.and_eq_true, beq_iff_eq]
    exact and_congr_left' IpAddr.length_bits_eq_iff

variable [IpNet.Lawful Net]

/-- A host-length prefix covers its address only. -/
theorem IpNet.covers_of_host {net : Net} (hhost : IpNet.prefixLen net = IpNet.maxPrefixLen net)
    (ip : IpAddr) : IpNet.Covers net ip ↔ ip = IpNet.addr net := by
  unfold IpNet.Covers
  rw [hhost, IpNet.Lawful.maxPrefixLen_eq]
  constructor
  · intro ⟨hfamily, hbits⟩
    have hlen := IpAddr.length_bits_eq_iff.mpr hfamily
    rw [← hlen, List.take_length, hlen, List.take_length] at hbits
    exact IpAddr.eq_of_bits hfamily hbits
  · intro hip
    rw [hip]
    exact ⟨rfl, rfl⟩

namespace TrustedProxies

theorem contains_iff {t : TrustedProxies Net} {ip : IpAddr} :
    t.contains ip = true ↔ ip ∈ t.exact ∨ ∃ net ∈ t.cidrs, IpNet.Covers net ip := by
  simp only [contains, Bool.or_eq_true, decide_eq_true_eq, List.any_eq_true,
    IpNet.Lawful.contains_iff]

/-- One round of the loop: the new network's addresses are added, wherever
the network is kept. -/
theorem contains_insertIpnet {t : TrustedProxies Net} {net : Net} {ip : IpAddr} :
    (t.insertIpnet net).contains ip = true ↔ t.contains ip = true ∨ IpNet.Covers net ip := by
  rw [contains_iff, contains_iff, insertIpnet]
  split
  · -- kept as an address
    rename_i hhost
    rw [IpNet.covers_of_host hhost]
    simp only [Finset.mem_insert]
    constructor
    · intro h
      rcases h with (h | h) | h
      · exact .inr h
      · exact .inl (.inl h)
      · exact .inl (.inr h)
    · intro h
      rcases h with (h | h) | h
      · exact .inl (.inr h)
      · exact .inr h
      · exact .inl (.inl h)
  · -- kept as a network
    simp only [List.mem_append, List.mem_singleton, or_and_right, exists_or, exists_eq_left]
    exact or_assoc.symm

theorem contains_foldl_insertIpnet {nets : List Net} {ip : IpAddr} :
    ∀ {t : TrustedProxies Net}, (nets.foldl insertIpnet t).contains ip = true ↔
      t.contains ip = true ∨ ∃ net ∈ nets, IpNet.Covers net ip := by
  induction nets with
  | nil => simp
  | cons net nets ih =>
      intro t
      rw [List.foldl_cons, ih, contains_insertIpnet]
      simp only [List.mem_cons, or_and_right, exists_or, exists_eq_left]
      exact or_assoc

theorem contains_fromIpnets {nets : List Net} {ip : IpAddr} :
    (fromIpnets nets).contains ip = true ↔ ∃ net ∈ nets, IpNet.Covers net ip := by
  have hempty : (⟨∅, []⟩ : TrustedProxies Net).contains ip = false := by
    simp [contains]
  rw [fromIpnets, contains_foldl_insertIpnet, hempty]
  simp

theorem contains_withCidrs {nets : List Net} {ip : IpAddr} :
    (withCidrs [] nets).contains ip = true ↔ ∃ net ∈ nets, IpNet.Covers net ip := by
  rw [contains_iff]
  simp [withCidrs]

end TrustedProxies

/-- Splitting off the host prefixes does not change who is trusted: the
addresses covered by some network. In particular only the set of networks
counts. -/
theorem trusted_iff_covered (nets : List Net) (ip : IpAddr) :
    (TrustedProxies.fromIpnets nets).contains ip =
      (TrustedProxies.withCidrs [] nets).contains ip ∧
    ((TrustedProxies.fromIpnets nets).contains ip = true ↔
      ∃ net ∈ nets, IpNet.Covers net ip) ∧
    ((TrustedProxies.withCidrs [] nets).contains ip = true ↔
      ∃ net ∈ nets, IpNet.Covers net ip) ∧
    ∀ nets' : List Net, (∀ net, net ∈ nets' ↔ net ∈ nets) →
      (TrustedProxies.fromIpnets nets').contains ip =
        (TrustedProxies.fromIpnets nets).contains ip ∧
      (TrustedProxies.withCidrs [] nets').contains ip =
        (TrustedProxies.withCidrs [] nets).contains ip := by
  refine ⟨?_, TrustedProxies.contains_fromIpnets, TrustedProxies.contains_withCidrs, ?_⟩
  · rw [Bool.eq_iff_iff, TrustedProxies.contains_fromIpnets, TrustedProxies.contains_withCidrs]
  · intro nets' hsame
    constructor
    · rw [Bool.eq_iff_iff, TrustedProxies.contains_fromIpnets, TrustedProxies.contains_fromIpnets]
      simp only [hsame]
    · rw [Bool.eq_iff_iff, TrustedProxies.contains_withCidrs, TrustedProxies.contains_withCidrs]
      simp only [hsame]

/-- A network with host bits set, an IPv4 host twice, an IPv6 network: who is
trusted does not change when the copy goes and the rest is reversed. -/
theorem trusted_iff_covered_mixed :
    let office : Cidr := ⟨.v4 (.new 10 1 2 3), 8, by decide⟩
    let host : Cidr := ⟨.v4 (.new 192 0 2 7), 32, by decide⟩
    let lab : Cidr :=
      ⟨.v6 ⟨⟨[0x20, 0x01, 0x0D, 0xB8, 0, 0, 0, 0, 0, 0, 0, 0, 0, 0, 0, 1], rfl⟩⟩, 32,
        by rw [IpAddr.length_bits_v6]; decide⟩
    let trusted := TrustedProxies.fromIpnets [office, host, lab, host]
    trusted.contains (.v4 (.new 10 9 8 7)) = true ∧
    trusted.contains (.v4 (.new 192 0 2 7)) = true ∧
    trusted.contains (.v4 (.new 192 0 2 6)) =
      (TrustedProxies.withCidrs [] [office, host, lab, host]).contains (.v4 (.new 192 0 2 6)) ∧
    ∀ ip, (TrustedProxies.fromIpnets [lab, host, office]).contains ip = trusted.contains ip := by
  intro office host lab trusted
  have hall := trusted_iff_covered [office, host, lab, host]
  refine ⟨(hall _).2.1.mpr ⟨office, by simp, rfl, by decide⟩,
    (hall _).2.1.mpr ⟨host, by simp, rfl, by decide⟩, (hall _).1, ?_⟩
  intro ip
  refine ((hall ip).2.2.2 [lab, host, office] ?_).1
  intro net
  simp only [List.mem_cons, List.not_mem_nil, or_false]
  constructor
  · intro h
    rcases h with h | h | h
    · exact .inr (.inr (.inl h))
    · exact .inr (.inl h)
    · exact .inl h
  · intro h
    rcases h with h | h | h | h
    · exact .inr (.inr h)
    · exact .inr (.inl h)
    · exact .inl h
    · exact .inr (.inl h)

end Networks

end ProxyProtocol
