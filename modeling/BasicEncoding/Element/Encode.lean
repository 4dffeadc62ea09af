import BasicEncoding.Element
import BasicEncoding.Header
import BasicEncoding.Value.Content

/-! Writing elements. All headers are the shortest. Only the identifier, the value, the children and
the framing of an element are read. -/
namespace BasicEncoding

def encodeDefinite (identifier : Identifier) (content : Octets) : Octets :=
  Header.encode ⟨identifier, .definite (UInt64.ofNat content.length)⟩ ++ content

namespace Element

mutual

/-- The octets of an element: its value if it is primitive, its children in its framing if not. -/
def encode : Element → Octets
  | ⟨identifier, value, children, framing, _, _⟩ =>
    if identifier.constructed then
      match framing with
      | .definite => encodeDefinite identifier (encodeAll children)
      | .indefinite =>
        Header.encode ⟨identifier, .indefinite⟩ ++ encodeAll children ++ endOfContents
    else encodeDefinite identifier value.encode

def encodeAll : List Element → Octets
  | [] => []
  | e :: es => encode e ++ encodeAll es

end

mutual

def notes : Element → List Note
  | ⟨identifier, value, children, _, _, _⟩ =>
    if identifier.constructed then notesAll children else value.notes

def notesAll : List Element → List Note
  | [] => []
  | e :: es => notes e ++ notesAll es

end

def cached (e : Element) : Element :=
  e.withRaw e.encode

theorem encodeAll_eq_flatMap (es : List Element) : encodeAll es = es.flatMap encode := by
  induction es with
  | nil => rfl
  | cons e es ih => rw [encodeAll, ih, List.flatMap_cons]

end Element

end BasicEncoding
