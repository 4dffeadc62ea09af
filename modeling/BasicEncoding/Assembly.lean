import BasicEncoding.Parse.Element

/-! Assemblies: an element put together an octet at a time. All that has been taken of an unfinished
element is here, so whoever supplies the octets may stop between any two of them. Elements of open
length are kept as a stack; contents of definite length are collected whole. -/
namespace BasicEncoding

namespace Assembly

/-- An element of open length whose marker has not come. Its children stand latest first. -/
structure Opened where
  identifier : Identifier
  header : Octets
  children : List Element

/-- What the next octet belongs to. Contents stand latest octet first, with the number still
missing; the marker is at its second octet. -/
inductive Phase where
  | header (scan : HeaderScan)
  | contents (identifier : Identifier) (header : Octets) (received : Octets) (missing : Nat)
  | marker

end Assembly

/-- The opened elements, innermost first, and the phase of the innermost. -/
structure Assembly where
  opened : List Assembly.Opened
  phase : Assembly.Phase

namespace Assembly

/-- Between two elements that no other contains. -/
def start : Assembly := ⟨[], .header .start⟩

def Opened.close (o : Opened) : Element :=
  Parse.closed o.identifier o.header o.children.reverse

/-- Some octet of an unfinished element has been taken. -/
def isBusy (a : Assembly) : Bool :=
  !a.opened.isEmpty ||
    match a.phase with
    | .header scan => !scan.isFresh
    | _ => true

/-- Where an end of the octets would leave the assembly. -/
def gap (a : Assembly) : Gap :=
  match a.phase with
  | .header scan => if scan.isFresh ∧ ¬a.opened.isEmpty then .marker else .header scan.stage
  | .contents _ _ received missing => .content (received.length + missing) received.length
  | .marker => .marker

/-- What an octet leads to: the assembly afterwards and, where an element ends or fails, the
result. A result leaves the assembly at its start. -/
structure Fed where
  after : Assembly
  result : Option (Except Failure Element) := none
  notes : List Note := []

def Fed.failed (failure : Failure) (notes : List Note) : Fed :=
  ⟨start, some (.error failure), notes⟩

/-- Puts a finished element into the innermost opened one; without one, it is the result. -/
def attach (opened : List Opened) (e : Element) (notes : List Note) : Fed :=
  match opened with
  | [] => ⟨start, some (.ok e), notes⟩
  | o :: rest => ⟨⟨{ o with children := e :: o.children } :: rest, .header .start⟩, none, notes⟩

def complete (limits : Limits) (opened : List Opened) (identifier : Identifier)
    (header contents : Octets) (notes : List Note) : Fed :=
  let child := Parse.elementAt limits (opened.length + 1)
  let r := (Parse.ofContents child identifier header contents).run []
  match r.outcome with
  | .done e _ => attach opened e (notes ++ r.notes)
  | .refused failure _ => .failed failure (notes ++ r.notes)
  | .short gap => .failed gap.failure (notes ++ r.notes)

def behindHeader (limits : Limits) (opened : List Opened) (header : Header) (octets : Octets) :
    Fed :=
  let met := [Note.header header opened.length]
  match header.length with
  | .indefinite => ⟨⟨⟨header.identifier, octets, []⟩ :: opened, .header .start⟩, none, met⟩
  | .definite count =>
    match limits.checkContentLength count with
    | .error failure => .failed failure (met ++ [.lengthRefused count limits.maxContentLength])
    | .ok () =>
      if count = 0 then complete limits opened header.identifier octets [] met
      else ⟨⟨opened, .contents header.identifier octets [] count.toNat⟩, none, met⟩

def feedHeader (limits : Limits) (opened : List Opened) (scan : HeaderScan) (octet : UInt8) :
    Fed :=
  match scan.push octet with
  | (.ok none, scan) => ⟨⟨opened, .header scan⟩, none, []⟩
  | (.ok (some header), scan) => behindHeader limits opened header scan.octets
  | (.error defect, _) => .failed (.invalidData defect) []

/-- One octet. A zero octet ahead of a child begins the marker; the depth of an element is checked
with its first octet. -/
def feed (limits : Limits) (a : Assembly) (octet : UInt8) : Fed :=
  match a.phase with
  | .contents identifier header received missing =>
    if missing ≤ 1 then
      complete limits a.opened identifier header (octet :: received).reverse []
    else
      ⟨⟨a.opened, .contents identifier header (octet :: received) (missing - 1)⟩, none, []⟩
  | .marker =>
    if octet ≠ 0 then .failed (.invalidData .markerNotClosed) []
    else
      match a.opened with
      | [] => ⟨start, none, []⟩
      | o :: rest => attach rest o.close []
  | .header scan =>
    if scan.isFresh then
      if octet = 0 ∧ ¬a.opened.isEmpty then ⟨⟨a.opened, .marker⟩, none, []⟩
      else
        match limits.checkDepth a.opened.length with
        | .error failure => .failed failure [.depthRefused a.opened.length limits.maxDepth]
        | .ok () => feedHeader limits a.opened scan octet
    else feedHeader limits a.opened scan octet

/-- Feeds octets up to the first result; gives those left over as well. The notes taken before
stand latest first. -/
def feedAll (limits : Limits) (a : Assembly) (before : List Note) : Octets → Fed × Octets
  | [] => (⟨a, none, before.reverse⟩, [])
  | octet :: rest =>
    let fed := feed limits a octet
    let before := fed.notes.reverse ++ before
    match fed.result with
    | none => feedAll limits fed.after before rest
    | some result => (⟨fed.after, some result, before.reverse⟩, rest)

end Assembly

end BasicEncoding
