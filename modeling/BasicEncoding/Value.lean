import BasicEncoding.Binary64
import BasicEncoding.ObjectIdentifier

/-! Values of primitive elements. Octets serve for text as well: text is a reading of them, not a
kind of its own. -/
namespace BasicEncoding

inductive Value where
  | nothing
  | boolean (value : Bool)
  | integer (value : Int64)
  | octets (value : Octets)
  | real (value : Binary64)
  | oid (value : ObjectIdentifier)
  deriving DecidableEq, Repr

namespace Value

def ofText (text : String) : Value :=
  .octets (Text.Utf8.encode text)

def kind : Value → ValueKind
  | .nothing => .nothing
  | .boolean _ => .boolean
  | .integer _ => .integer
  | .octets _ => .octets
  | .real _ => .real
  | .oid _ => .oid

def isNothing (v : Value) : Bool :=
  v.kind = .nothing

/-- Equality of what is meant: reals are compared as numbers, so a NaN differs from itself. -/
def same : Value → Value → Bool
  | .real x, .real y => x.sameNumber y
  | v, w => v = w

def mismatch (v : Value) (expected : ValueKind) : Failure :=
  .typeMismatch expected v.kind

def asBoolean : Value → Except Failure Bool
  | .boolean b => .ok b
  | v => .error (v.mismatch .boolean)

def asInteger : Value → Except Failure Int64
  | .integer n => .ok n
  | v => .error (v.mismatch .integer)

def asOctets : Value → Except Failure Octets
  | .octets os => .ok os
  | v => .error (v.mismatch .octets)

def asReal : Value → Except Failure Binary64
  | .real x => .ok x
  | v => .error (v.mismatch .real)

def asOid : Value → Except Failure ObjectIdentifier
  | .oid o => .ok o
  | v => .error (v.mismatch .oid)

def asText (v : Value) : Except Failure String := do
  let os ← v.asOctets
  match Text.Utf8.decode os with
  | .ok text => .ok (String.ofList text)
  | .error fault => .error (.invalidData (.notUtf8 fault))

theorem same_self {v : Value} (h : ∀ x, v = .real x → x.isNaN = false) : v.same v = true := by
  cases v with
  | real x => simp [same, Binary64.sameNumber, h x rfl]
  | _ => simp [same]

end Value

end BasicEncoding
