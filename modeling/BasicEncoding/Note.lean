import BasicEncoding.Decimal.Shortest
import BasicEncoding.Header

/-! Notes: what operations tell an observer beside their results. No result depends on them. -/
namespace BasicEncoding

inductive Note where
  | header (header : Header) (depth : Nat)
  | depthRefused (depth : Nat) (limit : UInt64)
  | lengthRefused (count limit : UInt64)
  | subnormal (value : Binary64)
  | writing (octets : Nat)
  deriving DecidableEq, Repr

namespace Note

inductive Level where
  | trace
  | debug
  | warn
  deriving DecidableEq, Repr

def level : Note → Level
  | .header _ _ => .trace
  | .depthRefused _ _ | .lengthRefused _ _ | .writing _ => .debug
  | .subnormal _ => .warn

def text : Note → String
  | .header h depth => "BER header " ++ h.describe ++ " at depth " ++ toString depth
  | .depthRefused depth limit =>
    "Rejecting element at depth " ++ toString depth ++ " (limit " ++ toString limit.toNat ++ ")"
  | .lengthRefused count limit =>
    "Rejecting element with content length " ++ toString count.toNat ++ " (limit " ++
      toString limit.toNat ++ ")"
  | .subnormal x =>
    "Encoding subnormal REAL " ++ x.scientificText ++ "; exponent " ++ toString x.exponent ++
      " is outside the decodable range"
  | .writing n => "Writing BER element (" ++ toString n ++ " bytes)"

end Note

end BasicEncoding
