import BasicEncoding.Attempt
import BasicEncoding.Parse.Element

/-! Cursors: elements taken one after another from octets at hand. A cursor moves past whatever was
taken, also when the element was refused. -/
namespace BasicEncoding

structure Cursor where
  limits : Limits
  total : Nat
  rest : Octets

namespace Cursor

def start (limits : Limits) (octets : Octets) : Cursor :=
  ⟨limits, octets.length, octets⟩

def remaining (c : Cursor) : Nat :=
  c.rest.length

def position (c : Cursor) : Nat :=
  c.total - c.remaining

def hasRemaining (c : Cursor) : Bool :=
  !c.rest.isEmpty

def next (c : Cursor) : Attempt Cursor Element :=
  let a := ((Parse.elementAt c.limits 0).run c.rest).atEnd
  { a with after := { c with rest := a.after } }

/-- Passes over the next element; gives the number of its octets. -/
def skip (c : Cursor) : Attempt Cursor Nat :=
  let a := c.next
  { a with result := a.result.map fun _ => a.after.position - c.position }

/-- The next element, provided that it is a universal primitive with the given tag. -/
def expect (c : Cursor) (tag : UInt32) : Attempt Cursor Element :=
  c.next.check fun e =>
    if e.identifier = .universal false tag then .ok e
    else .error (.invalidData (.otherTag tag e.identifier))

def boolean (c : Cursor) : Attempt Cursor Bool :=
  (c.expect Universal.boolean).check fun e => e.value.asBoolean

def integer (c : Cursor) : Attempt Cursor Int64 :=
  (c.expect Universal.integer).check fun e => e.value.asInteger

def octetString (c : Cursor) : Attempt Cursor Octets :=
  (c.expect Universal.octetString).check fun e => e.value.asOctets

def oid (c : Cursor) : Attempt Cursor ObjectIdentifier :=
  (c.expect Universal.objectIdentifier).check fun e => e.value.asOid

def real (c : Cursor) : Attempt Cursor Binary64 :=
  (c.expect Universal.real).check fun e => e.value.asReal

end Cursor

/-- The one element that octets hold under the default limits. Octets behind it are a defect. -/
def Element.decode (octets : Octets) : Attempt Cursor Element :=
  let a := (Cursor.start {} octets).next
  a.check fun e =>
    if a.after.rest.isEmpty then .ok e
    else .error (.invalidData (.trailing a.after.remaining))

end BasicEncoding
