import BasicEncoding.Cursor
import BasicEncoding.DataForm
import BasicEncoding.ObjectIdentifier.Dotted
import BasicEncoding.Proofs.Element.Caches
import BasicEncoding.Proofs.Element.Decoded
import BasicEncoding.Proofs.Intake.Found
import BasicEncoding.Proofs.ObjectIdentifier.RoundTrip

/-! Elements under everything that makes or changes them, short of loading their data form. Each
operation works on elements at hand; one that fails leaves them as they are. -/
namespace BasicEncoding

/-! ### Operations as data -/

inductive Origin where
  | arcs (arcs : List UInt64)
  | text (text : String)
  | subidentifiers (numbers : List UInt64)
  | content (content : Octets)
  | datum (datum : Datum)

def Origin.identifier? : Origin → Option ObjectIdentifier
  | .arcs as => (ObjectIdentifier.ofArcs as).toOption
  | .text t => (ObjectIdentifier.ofText t).toOption
  | .subidentifiers ns => (ObjectIdentifier.ofSubidentifiers ns).toOption
  | .content os => (ObjectIdentifier.decode os).toOption
  | .datum d => ObjectIdentifier.ofDatum? d

/-- A value that a constructor is given; it may be that of an element at hand. -/
inductive Operand where
  | nothing
  | boolean (value : Bool)
  | integer (value : Int64)
  | octets (value : Octets)
  | text (value : String)
  | real (value : Binary64)
  | oid (origin : Origin)
  | held (place : Nat)

def Operand.value? (held : List Element) : Operand → Option Value
  | .nothing => some .nothing
  | .boolean value => some (.boolean value)
  | .integer value => some (.integer value)
  | .octets value => some (.octets value)
  | .text value => some (.ofText value)
  | .real value => some (.real value)
  | .oid origin => origin.identifier?.map .oid
  | .held place => held[place]?.map Element.value

inductive Named where
  | boolean (value : Bool)
  | integer (value : Int64)
  | enumerated (value : Int64)
  | octetString (value : Octets)
  | string (value : String)
  | real (value : Binary64)
  | null
  | oid (origin : Origin)
  | sequence
  | set

def Named.element? (label : String) : Named → Option Element
  | .boolean value => some (.boolean value label)
  | .integer value => some (.integer value label)
  | .enumerated value => some (.enumerated value label)
  | .octetString value => some (.octetString value label)
  | .string value => some (.string value label)
  | .real value => some (.real value label)
  | .null => some (.null label)
  | .oid origin => origin.identifier?.map fun o => .oid o label
  | .sequence => some (.sequence label)
  | .set => some (.set label)

/-- What gives elements: the constructors, children of those at hand, and the readers. -/
inductive Making where
  | new (identifier : Identifier) (value : Operand) (label : String)
  | primitive (tagClass : TagClass) (tag : UInt32) (value : Operand) (label : String)
  | constructed (tagClass : TagClass) (tag : UInt32) (label : String)
  | named (name : Named) (label : String)
  | ofContent (identifier : Identifier) (content : Octets)
  | ofChildren (identifier : Identifier) (framing : Framing) (places : List Nat)
  | children (place : Nat)
  | read (limits : Limits) (source : Source)
  | intake (limits : Limits) (source : Source) (clock : Nat) (calls : List Intake.Call)
  | next (cursor : Cursor)
  | decode (octets : Octets)
  | readChildren (limits : Limits) (depth : Nat) (contents : Octets)

inductive Change where
  | framing (framing : Framing)
  | label (label : String)
  | raw (octets : Octets)
  | cache
  | append (child : Nat)

inductive Operation where
  | make (making : Making)
  | change (place : Nat) (change : Change)

def given {α : Type} : Except Failure α → List α
  | .ok value => [value]
  | .error _ => []

namespace Making

def elements (held : List Element) : Making → List Element
  | .new identifier value label =>
    (value.value? held).toList.flatMap fun v => given (Element.new identifier v label)
  | .primitive tagClass tag value label =>
    (value.value? held).toList.flatMap fun v => given (Element.primitive tagClass tag v label)
  | .constructed tagClass tag label => [.constructed tagClass tag label]
  | .named name label => (name.element? label).toList
  | .ofContent identifier content =>
    given ((Parse.primitive identifier content).run []).atEnd.result
  | .ofChildren identifier framing places =>
    [.ofChildren identifier framing (places.filterMap fun place => held[place]?)]
  | .children place => held[place]?.toList.flatMap fun e => (given e.children?).flatten
  | .read limits source => given (source.read limits).result
  | .intake limits source clock calls =>
    (Intake.reads calls { limits, source, clock }).flatMap fun answer => given answer.1
  | .next cursor => given cursor.next.result
  | .decode octets => given (Element.decode octets).result
  | .readChildren limits depth contents =>
    (given (BasicEncoding.readChildren limits depth contents).atEnd.result).flatten

end Making

/-- The element changed. An element that is given a child where there is none stays as it is. -/
def Change.apply (held : List Element) (e : Element) : Change → Except Failure Element
  | .framing f => .ok (e.withFraming f)
  | .label l => .ok (e.withLabel l)
  | .raw os => .ok (e.withRaw os)
  | .cache => .ok e.cached
  | .append child =>
    match held[child]? with
    | some c => e.append c
    | none => .ok e

namespace Operation

def perform (held : List Element) : Operation → List Element
  | .make m => held ++ m.elements held
  | .change place c =>
    match held[place]? with
    | none => held
    | some e =>
      match c.apply held e with
      | .ok changed => held.set place changed
      | .error _ => held

def performAll (held : List Element) (operations : List Operation) : List Element :=
  operations.foldl perform held

end Operation

/-! ### Well-formed elements -/

namespace Element

/-- A node that follows the rules of elements, with an object identifier that follows those of
object identifiers. -/
structure WellFormedNode (e : Element) : Prop extends e.Formed where
  arcs_valid : ∀ o, e.value = .oid o → ValidArcs o.arcs

def WellFormed (e : Element) : Prop :=
  e.AtNodes (fun _ n => n.WellFormedNode) 0

theorem Formed.wellFormedNode {e : Element} (h : e.Formed) : e.WellFormedNode :=
  ⟨h, fun o _ => o.valid⟩

theorem bare_wellFormed {identifier : Identifier} {value : Value}
    (h : check identifier value = .ok ()) (label : String) :
    (bare identifier value label).WellFormed :=
  .node (bare_formed h label).wellFormedNode nofun

theorem ofChildren_wellFormed (identifier : Identifier) (framing : Framing)
    {children : List Element} (h : ∀ c ∈ children, c.WellFormed) :
    (ofChildren identifier framing children).WellFormed := by
  have hformed : (ofChildren identifier framing children).Formed := ⟨fun _ => rfl, nofun, nofun⟩
  exact .node hformed.wellFormedNode fun c hc => (h c hc).anywhere 1

theorem WellFormed.child {e c : Element} (h : e.WellFormed) (hc : c ∈ e.children) :
    c.WellFormed :=
  (AtNodes.child h hc).anywhere 0

theorem wellFormed_of_derives {limits : Limits} {depth : Nat} {octets : Octets} {e : Element}
    (h : Derives limits depth octets e) : e.WellFormed := by
  have hread := (Parse.reads_elementAt limits depth).run_append h []
  exact ((nodes_read hread).mono fun _ _ hnode => hnode.formed.wellFormedNode).anywhere 0

/-- The value that contents are read as passes the check of the primitive it is put in. -/
theorem check_of_decode {identifier : Identifier} {contents : Octets} {value : Value}
    (h : Value.decode identifier contents = .ok value) :
    check ⟨identifier.tagClass, false, identifier.number⟩ value = .ok () := by
  rw [check_eq_ok_iff, if_neg Bool.false_ne_true]
  exact fun hclass => Value.decode_universal h hclass

end Element

/-! ### One operation -/

variable {held : List Element}

theorem mem_given {α : Type} {attempt : Except Failure α} {value : α}
    (h : value ∈ given attempt) : attempt = .ok value := by
  cases attempt with
  | error failure => cases h
  | ok found => rw [List.mem_singleton.mp h]

theorem Parse.primitive_eq_done {identifier : Identifier} {contents octets rest : Octets}
    {e : Element} (h : ((Parse.primitive identifier contents).run octets).outcome = .done e rest) :
    ∃ value, Value.decode identifier contents = .ok value ∧
      e = Element.bare ⟨identifier.tagClass, false, identifier.number⟩ value "" := by
  unfold Parse.primitive at h
  cases hdecode : Value.decode identifier contents with
  | error defect =>
      rw [hdecode] at h
      cases h
  | ok value =>
      rw [hdecode] at h
      cases h
      exact ⟨value, rfl, rfl⟩

theorem Element.mem_of_children? {e c : Element} {children : List Element}
    (h : e.children? = .ok children) (hc : c ∈ children) : c ∈ e.children := by
  unfold Element.children? at h
  split at h
  · cases h
    exact hc
  · cases h

theorem Named.element_wellFormed {label : String} {name : Named} {e : Element}
    (h : name.element? label = some e) : e.WellFormed := by
  cases name with
  | oid origin =>
      obtain ⟨o, -, rfl⟩ := Option.map_eq_some_iff.mp h
      exact Element.bare_wellFormed rfl label
  | _ =>
      cases h
      exact Element.bare_wellFormed rfl label

/-- Whatever is made is well formed, if the elements at hand are. -/
theorem Making.elements_wellFormed (hheld : ∀ e ∈ held, e.WellFormed) (m : Making) :
    ∀ e ∈ m.elements held, e.WellFormed := by
  intro e he
  cases m with
  | new identifier value label =>
      obtain ⟨v, -, hnew⟩ := List.mem_flatMap.mp he
      obtain ⟨hcheck, rfl⟩ := Element.new_eq_ok (mem_given hnew)
      exact Element.bare_wellFormed hcheck label
  | primitive tagClass tag value label =>
      obtain ⟨v, -, hnew⟩ := List.mem_flatMap.mp he
      obtain ⟨hcheck, rfl⟩ := Element.new_eq_ok (mem_given hnew)
      exact Element.bare_wellFormed hcheck label
  | constructed tagClass tag label =>
      rw [List.mem_singleton.mp he]
      exact Element.bare_wellFormed rfl label
  | named name label =>
      exact Named.element_wellFormed (Option.mem_toList.mp he)
  | ofContent identifier content =>
      have hdone := Reading.outcome_of_atEnd (mem_given he)
      obtain ⟨value, hdecode, rfl⟩ := Parse.primitive_eq_done hdone
      exact Element.bare_wellFormed (Element.check_of_decode hdecode) ""
  | ofChildren identifier framing places =>
      rw [List.mem_singleton.mp he]
      refine Element.ofChildren_wellFormed identifier framing fun c hc => ?_
      obtain ⟨place, -, hplace⟩ := List.mem_filterMap.mp hc
      exact hheld c (List.mem_of_getElem? hplace)
  | children place =>
      obtain ⟨parent, hparent, hchild⟩ := List.mem_flatMap.mp he
      obtain ⟨children, hgiven, hchild⟩ := List.mem_flatten.mp hchild
      have hplace := List.mem_of_getElem? (Option.mem_toList.mp hparent)
      exact (hheld parent hplace).child (Element.mem_of_children? (mem_given hgiven) hchild)
  | read limits source =>
      obtain ⟨taken, -, -, -, -, hderives⟩ := Source.exists_derives_of_read (mem_given he)
      exact Element.wellFormed_of_derives hderives
  | intake limits source clock calls =>
      obtain ⟨⟨result, count⟩, hanswer, hresult⟩ := List.mem_flatMap.mp he
      obtain rfl : result = .ok e := mem_given hresult
      obtain ⟨taken, hderives⟩ := Intake.exists_derives_of_reads hanswer
      exact Element.wellFormed_of_derives hderives
  | next cursor =>
      obtain ⟨taken, -, -, -, hderives⟩ := Cursor.exists_derives_of_next (mem_given he)
      exact Element.wellFormed_of_derives hderives
  | decode octets =>
      exact Element.wellFormed_of_derives (Element.derives_of_decode (mem_given he))
  | readChildren limits depth contents =>
      obtain ⟨children, hgiven, hchild⟩ := List.mem_flatten.mp he
      have hdone := Reading.outcome_of_atEnd (mem_given hgiven)
      obtain ⟨-, parts, -, rfl, hparts⟩ := readChildren_eq_done_iff.mp hdone
      obtain ⟨part, hpart, rfl⟩ := List.mem_map.mp hchild
      exact Element.wellFormed_of_derives (hparts part hpart)

theorem Change.apply_wellFormed (hheld : ∀ e ∈ held, e.WellFormed) {e changed : Element}
    (he : e.WellFormed) {c : Change} (h : c.apply held e = .ok changed) : changed.WellFormed := by
  have hformed : e.Formed := he.here.toFormed
  have hannotated : ∀ (framing : Framing) (raw : Option Octets) (label : String),
      ({ e with framing, raw, label } : Element).WellFormed := by
    intro framing raw label
    have hkept : ({ e with framing, raw, label } : Element).Formed :=
      ⟨hformed.no_value, hformed.no_children, hformed.kind_eq⟩
    exact .node hkept.wellFormedNode fun c hc => (he.child hc).anywhere 1
  cases c with
  | framing framing =>
      cases h
      exact hannotated framing e.raw e.label
  | label label =>
      cases h
      exact hannotated e.framing e.raw label
  | raw octets =>
      cases h
      exact hannotated e.framing (some octets) e.label
  | cache =>
      cases h
      exact hannotated e.framing (some e.encode) e.label
  | append child =>
      unfold Change.apply at h
      dsimp only at h
      split at h
      · next c hplace =>
        obtain ⟨hconstructed, rfl⟩ := Element.append_eq_ok h
        have hgrown : ({ e with children := e.children ++ [c] } : Element).Formed :=
          ⟨hformed.no_value, fun hprimitive => absurd hprimitive (ne_false_of_eq_true hconstructed),
            hformed.kind_eq⟩
        refine .node hgrown.wellFormedNode fun d hd => ?_
        rcases List.mem_append.mp hd with hd | hd
        · exact (he.child hd).anywhere 1
        · rw [List.mem_singleton.mp hd]
          exact (hheld c (List.mem_of_getElem? hplace)).anywhere 1
      · cases h
        exact he

theorem Operation.perform_wellFormed (hheld : ∀ e ∈ held, e.WellFormed) (operation : Operation) :
    ∀ e ∈ operation.perform held, e.WellFormed := by
  intro e he
  cases operation with
  | make making =>
      rcases List.mem_append.mp he with he | he
      · exact hheld e he
      · exact making.elements_wellFormed hheld e he
  | change place change =>
      unfold Operation.perform at he
      dsimp only at he
      split at he
      · exact hheld e he
      · next before hplace =>
        split at he
        · next changed hchanged =>
          rcases List.mem_or_eq_of_mem_set he with he | rfl
          · exact hheld e he
          · exact Change.apply_wellFormed hheld (hheld before (List.mem_of_getElem? hplace)) hchanged
        · exact hheld e he

/-! ### Any number of operations -/

namespace Element

/-- What is relied on without a test of its own: the check that the named constructors leave out
passes, there are two arcs ahead of those that are written one by one, and the number that the two
share fits a word. -/
structure Unfailing (e : Element) : Prop where
  checked : check e.identifier e.value = .ok ()
  arcs_eq : ∀ o, e.value = .oid o → ∃ first second, o.arcs = first :: second :: o.arcs.drop 2 ∧
    o.firstSubidentifier.toNat = 40 * first.toNat + second.toNat

theorem WellFormedNode.unfailing {e : Element} (h : e.WellFormedNode) : e.Unfailing := by
  refine ⟨?_, fun o hvalue => ?_⟩
  · rw [check_eq_ok_iff]
    split
    · next hc => exact h.no_value hc
    · next hc => exact h.kind_eq (eq_false_of_ne_true hc)
  · have harcs := h.arcs_valid o hvalue
    obtain ⟨arcs, valid⟩ := o
    dsimp only at harcs
    cases valid with
    | @intro first second rest _ _ _ =>
        exact ⟨first, second, rfl, ObjectIdentifier.toNat_firstSubidentifier harcs⟩

end Element

namespace Operation

/-- Operations on well-formed elements leave well-formed elements at hand, those they made and those
they failed to change among them. The check that a primitive is made without passes for all contents
that have a value, also where a reader goes on to refuse the element around it. -/
theorem performAll_keeps_wellFormed (operations : List Operation) (held : List Element)
    (hheld : ∀ e ∈ held, e.WellFormed) :
    (∀ e ∈ performAll held operations,
      e.WellFormed ∧ e.AtNodes (fun _ n => n.Unfailing) 0) ∧
    ∀ (identifier : Identifier) (contents : Octets) (value : Value),
      Value.decode identifier contents = .ok value →
      Element.check ⟨identifier.tagClass, false, identifier.number⟩ value = .ok () := by
  have hkept : ∀ e ∈ performAll held operations, e.WellFormed := by
    induction operations generalizing held with
    | nil => exact hheld
    | cons operation operations ih => exact ih _ (operation.perform_wellFormed hheld)
  refine ⟨fun e he => ⟨hkept e he, ?_⟩, fun _ _ _ h => Element.check_of_decode h⟩
  exact (hkept e he).mono fun _ _ hnode => hnode.unfailing

/-- Children for an identifier of a primitive, one child more, a child for a primitive, a value that
does not belong to its tag, and an intake that meets a fault inside an element. -/
def trial : List Operation :=
  [.make (.named (.oid (.subidentifiers [0xFFFFFFFFFFFFFFFF])) "largest"),
    .make (.ofChildren (.universal false Universal.sequence) .indefinite [0, 1]),
    .change 2 (.append 0),
    .change 0 (.append 1),
    .make (.new (.universal false Universal.integer) (.boolean true) ""),
    .make (.intake {} [.data [0x30, 0x80, 0x05], .fault ⟨.timedOut, "late"⟩, .data [0x06, 0x01, 0x50]]
      0 [.polls 1, .wait .endless])]

theorem trial_keeps_wellFormed :
    (performAll [Element.null ""] trial).map (fun e => e.children.length) = [0, 0, 3, 0] ∧
      ∀ e ∈ performAll [Element.null ""] trial, e.WellFormed := by
  have hheld : ∀ e ∈ [Element.null ""], e.WellFormed := by
    intro e he
    rw [List.mem_singleton.mp he]
    exact Element.bare_wellFormed rfl ""
  have hkept := (performAll_keeps_wellFormed trial [Element.null ""] hheld).1
  exact ⟨by decide +kernel, fun e he => (hkept e he).1⟩

end Operation

end BasicEncoding
