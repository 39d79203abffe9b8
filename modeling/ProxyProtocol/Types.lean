import ProxyProtocol.Lib.Tlv
import ProxyProtocol.Net

/-! # Header data and errors

The types of `types.rs` and `error.rs`: what a parsed header holds, and the
errors parsing and accepting report, each with the payload the source gives
it.
-/

namespace ProxyProtocol

open Wire

/-! ## Headers -/

/-- An address from a header: an IP and port, or a Unix socket path. -/
inductive ProxyAddress where
  | inet (addr : SocketAddr)
  | unix (path : List UInt8)
deriving DecidableEq, Repr

def ProxyAddress.asInet : ProxyAddress → Option SocketAddr
  | .inet addr => some addr
  | .unix _ => none

inductive Version where
  | v1
  | v2
deriving DecidableEq, Repr

inductive Command where
  | local
  | proxy
deriving DecidableEq, Repr

inductive AddressFamily where
  | inet
  | inet6
  | unix
deriving DecidableEq, Repr

def IpAddr.family : IpAddr → AddressFamily
  | .v4 _ => .inet
  | .v6 _ => .inet6

def SocketAddr.family (addr : SocketAddr) : AddressFamily := addr.ip.family

@[simp] theorem SocketAddr.family_new (ip : IpAddr) (port : UInt16) :
    (SocketAddr.new ip port).family = ip.family := by
  cases ip <;> rfl

inductive TransportProtocol where
  | stream
  | datagram
deriving DecidableEq, Repr

structure Transport where
  family : AddressFamily
  protocol : TransportProtocol
deriving DecidableEq, Repr

/-- The flag byte of the SSL TLV. -/
structure SslClientFlags where
  bits : UInt8
deriving DecidableEq, Repr

namespace SslClientFlags

def ssl : UInt8 := 0x01
def certConn : UInt8 := 0x02
def certSess : UInt8 := 0x04

/-- All defined bits. -/
def all : UInt8 := ssl ||| certConn ||| certSess

/-- `from_bits_truncate`: undefined bits are dropped. -/
def fromBitsTruncate (bits : UInt8) : SslClientFlags := ⟨bits &&& all⟩

end SslClientFlags

/-- The value of an SSL TLV: flags, verification result and sub-TLVs. -/
structure SslInfo where
  clientFlags : SslClientFlags := ⟨0⟩
  verified : Bool := false
  version : Option Str := none
  cipher : Option Str := none
  sigAlg : Option Str := none
  keyAlg : Option Str := none
  cn : Option Str := none
  group : Option Str := none
  sigScheme : Option Str := none
  clientCert : Option (List UInt8) := none
deriving DecidableEq, Repr

/-- TLV extensions: the typed ones, and every one in order in `raw`. -/
structure Tlvs where
  alpn : Option (List UInt8) := none
  authority : Option Str := none
  crc32c : Option UInt32 := none
  uniqueId : Option (List UInt8) := none
  netns : Option Str := none
  ssl : Option SslInfo := none
  raw : List Record := []
deriving DecidableEq, Repr

/-- A parsed header. -/
structure ProxyInfo where
  version : Version
  command : Command
  transport : Option Transport
  source : Option ProxyAddress
  destination : Option ProxyAddress
  tlvs : Tlvs
deriving DecidableEq, Repr

namespace ProxyInfo

def sourceInet (info : ProxyInfo) : Option SocketAddr := info.source.bind ProxyAddress.asInet

def destinationInet (info : ProxyInfo) : Option SocketAddr :=
  info.destination.bind ProxyAddress.asInet

end ProxyInfo

/-! ## Errors -/

inductive InvalidReason where
  | unsupportedVersion (nibble : UInt8)
  | unknownCommand (nibble : UInt8)
  | unknownFamily (nibble : UInt8)
  | unknownProtocol (nibble : UInt8)
  | v1TooLong
  | v1NotUtf8
  | v1InvalidFormat
  | v1UnknownTransport (transport : Str)
  | invalidIp (text : Str)
  | invalidPort (text : Str)
  | unspecWithProxy
  | payloadOverflow (len bufLen : ℕ)
  | malformedTlv (offset : ℕ)
deriving DecidableEq, Repr

inductive ParseError where
  | notProxyProtocol
  | incomplete
  | invalid (reason : InvalidReason)
  | crcMismatch (expected actual : UInt32)
deriving DecidableEq, Repr

/-- The bytes are there and are no header. -/
def ParseError.IsInvalid (e : ParseError) : Prop := ∃ reason, e = .invalid reason

theorem ParseError.IsInvalid.ne {e : ParseError} (h : e.IsInvalid) :
    e ≠ .incomplete ∧ e ≠ .notProxyProtocol := by
  obtain ⟨reason, rfl⟩ := h
  exact ⟨nofun, nofun⟩

/-- An I/O error of the socket layer: its kind and its text. -/
inductive IoErrorKind where
  | connectionReset
  | connectionAborted
  | connectionRefused
  | other
deriving DecidableEq, Repr

structure IoError where
  kind : IoErrorKind
  message : String
deriving DecidableEq, Repr

/-- Errors of `accept`. `E` is the error type of the configured validator. -/
inductive AcceptError (E : Type) where
  | io (error : IoError)
  | rejected (peer : SocketAddr)
  | headerTimeout (peer : SocketAddr)
  | emptyConnection (peer : SocketAddr)
  | parse (error : ParseError) (peer : SocketAddr)
  | validationFailed (error : E) (peer : SocketAddr)
  | versionMismatch (peer : SocketAddr)
deriving DecidableEq, Repr

/-- Results of the parser. -/
abbrev ParseResult (α : Type) := Outcome ParseError α

end ProxyProtocol
