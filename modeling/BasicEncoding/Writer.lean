import BasicEncoding.Element.Encode

/-! Writers: octets that grow element by element. The typed operations need no element to be built.
-/
namespace BasicEncoding

structure Writer where
  octets : Octets
  deriving DecidableEq, Repr

namespace Writer

def empty : Writer := ⟨[]⟩

def append (w : Writer) (more : Octets) : Writer :=
  ⟨w.octets ++ more⟩

def definite (w : Writer) (identifier : Identifier) (content : Octets) : Writer :=
  w.append (encodeDefinite identifier content)

/-- Opens an element; what is written next belongs to it until `endIndefinite`. -/
def beginIndefinite (w : Writer) (identifier : Identifier) : Writer :=
  w.append (Header.encode ⟨identifier, .indefinite⟩)

def endIndefinite (w : Writer) : Writer :=
  w.append endOfContents

def boolean (w : Writer) (value : Bool) : Writer :=
  w.definite (.universal false Universal.boolean) (Boolean.encode value)

def integer (w : Writer) (value : Int64) : Writer :=
  w.definite (.universal false Universal.integer) (Integer.encode value)

def enumerated (w : Writer) (value : Int64) : Writer :=
  w.definite (.universal false Universal.enumerated) (Integer.encode value)

def octetString (w : Writer) (value : Octets) : Writer :=
  w.definite (.universal false Universal.octetString) value

def null (w : Writer) : Writer :=
  w.definite (.universal false Universal.null) []

def oid (w : Writer) (value : ObjectIdentifier) : Writer :=
  w.definite (.universal false Universal.objectIdentifier) value.encode

def real (w : Writer) (value : Binary64) : Writer :=
  w.definite (.universal false Universal.real) (Real.encode value)

def sequence (w : Writer) (elements : Octets) : Writer :=
  w.definite (.universal true Universal.sequence) elements

def contextSpecific (w : Writer) (tag : UInt32) (content : Octets) (constructed : Bool) : Writer :=
  w.definite (.contextSpecific constructed tag) content

def element (w : Writer) (e : Element) : Writer :=
  w.append e.encode

end Writer

end BasicEncoding
