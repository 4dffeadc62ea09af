import BasicEncoding.Element
import BasicEncoding.Parse
import BasicEncoding.Value.Content

/-! Elements from octets. Contents of definite length are taken whole and then divided; contents of
open length are read child by child. Every element found keeps its octets as received. -/
namespace BasicEncoding

def rawAll (elements : List Element) : Octets :=
  elements.flatMap fun e => e.raw.getD []

namespace Parse

/-- Refuses an element beyond the depth limit: its first octet is taken, and no more. -/
def tooDeep (limits : Limits) (depth : Nat) : Parse Element :=
  ⟨fun
    | [] => ⟨.short .start, []⟩
    | _ :: rest =>
      ⟨.refused (.depthLimit limits.maxDepth) rest, [.depthRefused depth limits.maxDepth]⟩⟩

def primitive (identifier : Identifier) (contents : Octets) : Parse Element := do
  let value ← ofExcept (Value.decode identifier contents)
  return Element.bare ⟨identifier.tagClass, false, identifier.number⟩ value ""

def constructed (child : Parse Element) (identifier : Identifier) (contents : Octets) :
    Parse Element := do
  let children ← within contents child.untilEnd
  return Element.ofChildren identifier .definite children

def ofContents (child : Parse Element) (identifier : Identifier) (header contents : Octets) :
    Parse Element := do
  let e ← if identifier.constructed then constructed child identifier contents
    else primitive identifier contents
  return e.withRaw (header ++ contents)

/-- The element that an end-of-contents marker closes. -/
def closed (identifier : Identifier) (header : Octets) (children : List Element) : Element :=
  (Element.ofChildren identifier .indefinite children).withRaw
    (header ++ rawAll children ++ endOfContents)

def behindHeader (limits : Limits) (child : Parse Element) (header : Header) (octets : Octets) :
    Parse Element :=
  match header.length with
  | .indefinite => do
    let children ← child.untilMarker
    return closed header.identifier octets children
  | .definite count => do
    requireContentLength limits count
    let contents ← content count.toNat
    ofContents child header.identifier octets contents

/-- An element at a depth from which so many levels may be opened. -/
def element (limits : Limits) : Nat → Nat → Parse Element
  | 0, depth => tooDeep limits depth
  | levels + 1, depth => do
    let found ← header
    note (.header found.1 depth)
    behindHeader limits (element limits levels (depth + 1)) found.1 found.2

def elementAt (limits : Limits) (depth : Nat) : Parse Element :=
  element limits (limits.levelsFrom depth) depth

end Parse

/-- All elements in contents that are at hand in full, as children at a depth. -/
def readChildren (limits : Limits) (depth : Nat) (contents : Octets) : Reading (List Element) :=
  (Parse.within contents (Parse.elementAt limits depth).untilEnd).run []

end BasicEncoding
