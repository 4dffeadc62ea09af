import BasicEncoding.Identifier
import BasicEncoding.Universal
import BasicEncoding.Octets
import BasicEncoding.Text.Utf8

/-! What can go wrong, by cause, with one wording for each cause. A clean end of input and an
element cut short are different failures: a caller may read until the first and must report the
second. -/
namespace BasicEncoding

/-- The kind of an input or output fault. Only the named ones have a meaning here. -/
inductive FaultKind where
  | interrupted
  | unexpectedEnd
  | timedOut
  | writeZero
  | other (name : String)
  deriving DecidableEq, Repr

structure Fault where
  kind : FaultKind
  message : String
  deriving DecidableEq, Repr

inductive Defect where
  | tagNumberTooLarge
  | indefinitePrimitive
  | reservedLength
  | lengthTooWide (octets : Nat)
  | lengthOverflow
  | fieldEmpty
  | integerEmpty
  | integerTooWide (octets : Nat)
  | booleanWidth (octets : Nat)
  | contentNotEmpty (tag : UInt32) (octets : Nat)
  | realNotBinary (first : UInt8)
  | realScaled (first : UInt8)
  | realExponentLengthMissing
  | realExponentEmpty
  | realTooShort (octets exponentOctets : Nat)
  | realExponentRange (exponent : Int)
  | realMantissaZero
  | realMantissaTooWide
  | tooFewArcs (count : Nat)
  | firstArcRange (arc : UInt64)
  | secondArcRange (first second : UInt64)
  | arcSumTooLarge
  | dottedForm (text : String)
  | dottedArc (text : String)
  | noSubidentifiers
  | oidEmpty
  | subidentifierTooLarge
  | subidentifierUnfinished
  | valueOnConstructed (kind : ValueKind)
  | notUtf8 (fault : Text.Utf8.Fault)
  | markerNotClosed
  | childOverrun (context : String)
  | trailing (octets : Nat)
  | otherTag (expected : UInt32) (found : Identifier)
  deriving DecidableEq, Repr

namespace Defect

def message : Defect → String
  | .tagNumberTooLarge => "Tag number too large or invalid encoding"
  | .indefinitePrimitive => "Indefinite length on a primitive element"
  | .reservedLength => "Reserved length octet 0xFF"
  | .lengthTooWide n => "Length encoding too large: " ++ toString n ++ " bytes (max 8)"
  | .lengthOverflow => "Length value overflows"
  | .fieldEmpty => "Unexpected zero length for integer"
  | .integerEmpty => "Empty integer encoding"
  | .integerTooWide n => "Integer of " ++ toString n ++ " bytes exceeds the 64-bit range"
  | .booleanWidth n => "Invalid boolean length: " ++ toString n ++ " bytes (expected 1)"
  | .contentNotEmpty tag n =>
    (Universal.name? tag).getD "NULL" ++ " with " ++ toString n ++ " content bytes (expected 0)"
  | .realNotBinary first =>
    "Unsupported REAL encoding 0x" ++ Text.Hex.octet first ++ ": only binary encoding is supported"
  | .realScaled first =>
    "Unsupported REAL encoding 0x" ++ Text.Hex.octet first ++
      ": only base 2 without scaling is supported"
  | .realExponentLengthMissing => "Missing exponent length octet in REAL"
  | .realExponentEmpty => "Zero length exponent in REAL"
  | .realTooShort n e =>
    "Incorrect length for REAL: " ++ toString n ++ " content octets with a " ++ toString e ++
      " octet exponent"
  | .realExponentRange e =>
    "The exponent " ++ toString e ++ " of the REAL exceeds the expected range"
  | .realMantissaZero => "The mantissa of the REAL is zero"
  | .realMantissaTooWide => "The mantissa of the REAL exceeds double precision"
  | .tooFewArcs n => "Object identifier needs at least 2 arcs, got " ++ toString n
  | .firstArcRange a => "First OID arc must be 0, 1 or 2, got " ++ toString a.toNat
  | .secondArcRange a b =>
    "Second OID arc must be below 40 when the first is " ++ toString a.toNat ++ ", got " ++
      toString b.toNat
  | .arcSumTooLarge => "OID arc too large"
  | .dottedForm text => "Invalid OID format: " ++ text
  | .dottedArc text => "Invalid OID arc: " ++ text
  | .noSubidentifiers => "Empty object identifier"
  | .oidEmpty => "Empty object identifier encoding"
  | .subidentifierTooLarge => "OID component overflow"
  | .subidentifierUnfinished => "Object identifier ends inside a subidentifier"
  | .valueOnConstructed kind => "Constructed element cannot carry a " ++ kind.name ++ " value"
  | .notUtf8 fault => "String value is not UTF-8: " ++ fault.message
  | .markerNotClosed => "End-of-contents marker with nonzero length"
  | .childOverrun context =>
    "Child element overruns its parent's content (" ++ context ++ ")"
  | .trailing n => toString n ++ " trailing bytes after element"
  | .otherTag expected found =>
    "Expected " ++ (Universal.name? expected).getD "universal" ++ " tag, got " ++ found.describe

end Defect

inductive Failure where
  | input (fault : Fault)
  | endOfInput
  | truncated (context : String)
  | invalidData (defect : Defect)
  | typeMismatch (expected found : ValueKind)
  | notConstructed
  | depthLimit (limit : UInt64)
  | lengthLimit (count limit : UInt64)
  deriving DecidableEq, Repr

namespace Failure

def message : Failure → String
  | .input fault => "I/O error: " ++ fault.message
  | .endOfInput => "End of input"
  | .truncated context => "Unexpected end of input: " ++ context
  | .invalidData defect => "Invalid data: " ++ defect.message
  | .typeMismatch expected found =>
    "Value type mismatch: expected " ++ expected.name ++ ", found " ++ found.name
  | .notConstructed => "Element is not constructed"
  | .depthLimit limit => "Nesting depth exceeds limit of " ++ toString limit.toNat
  | .lengthLimit count limit =>
    "Content length " ++ toString count.toNat ++ " exceeds limit of " ++ toString limit.toNat

/-- Nothing was consumed for the element that was to be read. -/
def isEndOfInput : Failure → Bool
  | .endOfInput => true
  | _ => false

/-- The element was begun and the input ended before it did. -/
def isTruncated : Failure → Bool
  | .truncated _ => true
  | _ => false

/-- A fault met inside an element: an unexpected end is a truncation, everything else stays a
fault. -/
def ofFault (fault : Fault) (context : String) : Failure :=
  if fault.kind = .unexpectedEnd then .truncated context else .input fault

end Failure

end BasicEncoding
