import BasicEncoding.Limits
import BasicEncoding.Proofs.Element.Nodes
import BasicEncoding.Proofs.Header.RoundTrip
import BasicEncoding.Proofs.Value.RoundTrip

/-! What makes the octets of a tree readable, node by node, and the tree that reading them gives. -/
namespace BasicEncoding.Element

/-- What the constructors make sure of: a value stands on primitive elements only, children on
constructed ones only, and universal primitives carry the kind of their tag. -/
structure Formed (e : Element) : Prop where
  no_value : e.identifier.constructed = true → e.value = .nothing
  no_children : e.identifier.constructed = false → e.children = []
  kind_eq : e.identifier.constructed = false → e.identifier.tagClass = .universal →
    e.value.kind = Universal.kind e.identifier.number

theorem bare_formed {identifier : Identifier} {value : Value}
    (h : check identifier value = .ok ()) (label : String) :
    (bare identifier value label).Formed := by
  rw [check_eq_ok_iff] at h
  refine ⟨?_, fun _ => rfl, ?_⟩
  · intro (hc : identifier.constructed = true)
    rwa [if_pos hc] at h
  · intro (hc : identifier.constructed = false)
    rwa [if_neg (ne_true_of_eq_false hc)] at h

theorem new_eq_ok {identifier : Identifier} {value : Value} {label : String} {e : Element}
    (h : new identifier value label = .ok e) :
    check identifier value = .ok () ∧ e = bare identifier value label := by
  unfold Element.new at h
  cases hcheck : check identifier value with
  | error failure =>
      rw [hcheck] at h
      cases h
  | ok _ =>
      rw [hcheck] at h
      exact ⟨rfl, (Except.ok.inj h).symm⟩

theorem append_eq_ok {e child grown : Element} (h : e.append child = .ok grown) :
    e.identifier.constructed = true ∧ grown = { e with children := e.children ++ [child] } := by
  unfold Element.append at h
  split at h
  · next hc => exact ⟨hc, (Except.ok.inj h).symm⟩
  · cases h

/-- Elements that the constructors give, and what is made of them by giving them children and
annotations. -/
inductive Built : Element → Prop
  | new {identifier : Identifier} {value : Value} {label : String} {e : Element}
      (h : new identifier value label = .ok e) : Built e
  | ofChildren (identifier : Identifier) (framing : Framing) {children : List Element}
      (h : ∀ c ∈ children, Built c) : Built (ofChildren identifier framing children)
  | append {e child grown : Element} (he : Built e) (hchild : Built child)
      (h : e.append child = .ok grown) : Built grown
  | annotate {e : Element} (he : Built e) (framing : Framing) (raw : Option Octets)
      (label : String) : Built { e with framing, raw, label }

theorem Built.bare {identifier : Identifier} {value : Value}
    (h : check identifier value = .ok ()) (label : String) :
    (Element.bare identifier value label).Built := by
  apply Built.new
  rw [Element.new, h]
  rfl

/-- Nothing malformed can be built, at any node. -/
theorem Built.formed {e : Element} (h : e.Built) (depth : Nat) :
    e.AtNodes (fun _ n => n.Formed) depth := by
  induction h generalizing depth with
  | new h =>
      obtain ⟨hcheck, rfl⟩ := new_eq_ok h
      exact .node (bare_formed hcheck _) nofun
  | ofChildren identifier framing _ ih =>
      exact .node ⟨fun _ => rfl, nofun, nofun⟩ fun c hc => ih c hc (depth + 1)
  | append _ _ h ih ihchild =>
      obtain ⟨hc, rfl⟩ := append_eq_ok h
      have hformed := (ih depth).here
      refine .node ⟨hformed.no_value, ?_, hformed.kind_eq⟩ ?_
      · intro hprimitive
        exact absurd hprimitive (ne_false_of_eq_true hc)
      · intro c hmem
        rcases List.mem_append.mp hmem with hmem | hmem
        · exact (ih depth).child hmem
        · rw [List.mem_singleton.mp hmem]
          exact ihchild (depth + 1)
  | annotate _ framing raw label ih =>
      have hformed := (ih depth).here
      exact .node ⟨hformed.no_value, hformed.no_children, hformed.kind_eq⟩
        fun c hc => (ih depth).child hc

def contents (e : Element) : Octets :=
  if e.identifier.constructed then encodeAll e.children else e.value.encode

def OctetsElsewhere (e : Element) : Prop :=
  e.identifier.constructed = false → e.identifier.tagClass ≠ .universal → e.value.kind = .octets

/-- The identifier of which the end-of-contents marker is the shortest spelling. -/
def marker : Identifier :=
  .universal false Universal.endOfContents

/-- No child can be mistaken for the end of the contents. -/
def MarkerFree (e : Element) : Prop :=
  e.usedFraming = .indefinite → ∀ c ∈ e.children, c.identifier ≠ marker

def LengthAllowed (limits : Limits) (e : Element) : Prop :=
  e.usedFraming = .definite → e.contents.length ≤ limits.maxContentLength.toNat

/-- A node that is accepted in its place, if it is not taken for something else there. -/
structure Accepted (limits : Limits) (depth : Nat) (e : Element) : Prop where
  formed : e.Formed
  octets_elsewhere : e.OctetsElsewhere
  readable : e.value.Readable
  depth_le : depth ≤ limits.maxDepth.toNat
  length_allowed : e.LengthAllowed limits

/-- A node whose octets give it back. -/
structure Returns (limits : Limits) (depth : Nat) (e : Element) : Prop
    extends e.Accepted limits depth where
  marker_free : e.MarkerFree

/-- A tree of which every node gives itself back, as an outermost element. -/
def Encodable (limits : Limits) (e : Element) : Prop :=
  e.AtNodes (Returns limits) 0

/-- What a built element has to meet besides, to give itself back. -/
theorem Built.encodable {limits : Limits} {e : Element} (h : e.Built)
    (hnodes : e.AtNodes (fun depth n => n.OctetsElsewhere ∧ n.value.Readable ∧ n.MarkerFree ∧
      depth ≤ limits.maxDepth.toNat ∧ n.LengthAllowed limits) 0) : e.Encodable limits := by
  refine ((h.formed 0).and hnodes).mono ?_
  rintro depth n ⟨hformed, helsewhere, hreadable, hmarker, hdepth, hlength⟩
  exact ⟨⟨hformed, helsewhere, hreadable, hdepth, hlength⟩, hmarker⟩

mutual

/-- The tree that reading gives: with its octets at every node, without labels, and with every zero
positive. -/
def received : Element → Element
  | ⟨identifier, value, children, framing, raw, label⟩ =>
    { identifier
      value := value.settled
      children := receivedAll children
      framing := if identifier.constructed then framing else .definite
      raw := some (encode ⟨identifier, value, children, framing, raw, label⟩)
      label := "" }

def receivedAll : List Element → List Element
  | [] => []
  | e :: es => received e :: receivedAll es

end

theorem receivedAll_eq_map (es : List Element) : receivedAll es = es.map received := by
  induction es with
  | nil => rfl
  | cons e es ih => rw [receivedAll, ih, List.map_cons]

theorem received_eq (e : Element) :
    e.received = ⟨e.identifier, e.value.settled, e.children.map received, e.usedFraming,
      some e.encode, ""⟩ := by
  cases e
  rw [received, receivedAll_eq_map]
  rfl

theorem mem_zip_map {f : Element → Element} {c d : Element} {es : List Element}
    (h : (d, c) ∈ (es.map f).zip es) : d = f c ∧ c ∈ es := by
  induction es with
  | nil => cases h
  | cons e es ih =>
      rw [List.map_cons, List.zip_cons_cons, List.mem_cons, Prod.mk.injEq] at h
      rcases h with ⟨rfl, rfl⟩ | h
      · exact ⟨rfl, List.mem_cons_self⟩
      · exact ⟨(ih h).1, List.mem_cons_of_mem e (ih h).2⟩

theorem received_nodeByNode {r : Element → Element → Prop} {p : Nat → Element → Prop}
    (hr : ∀ depth n, p depth n → r n.received n) {depth : Nat} {e : Element}
    (h : e.AtNodes p depth) : NodeByNode r e.received e := by
  induction h with
  | @node depth e here _ ih =>
      have hchildren : e.received.children = e.children.map received := by rw [received_eq]
      refine .node (hr depth e here) ?_ ?_
      · rw [hchildren, List.length_map]
      · intro d c hmem
        rw [hchildren] at hmem
        obtain ⟨rfl, hc⟩ := mem_zip_map hmem
        exact ih c hc

theorem usedFraming_eq_definite {e : Element} (h : e.identifier.constructed = false) :
    e.usedFraming = .definite := by
  rw [usedFraming, h]
  rfl

theorem constructed_of_indefinite {e : Element} (h : e.usedFraming = .indefinite) :
    e.identifier.constructed = true := by
  cases hc : e.identifier.constructed with
  | true => rfl
  | false =>
      rw [usedFraming_eq_definite hc] at h
      cases h

theorem encode_of_definite {e : Element} (h : e.usedFraming = .definite) :
    e.encode = encodeDefinite e.identifier e.contents := by
  obtain ⟨identifier, value, children, framing, raw, label⟩ := e
  unfold usedFraming at h
  unfold encode contents
  split
  · next hc =>
    rw [if_pos hc] at h
    cases h
    rfl
  · rfl

theorem encode_of_indefinite {e : Element} (h : e.usedFraming = .indefinite) :
    e.encode = Header.encode ⟨e.identifier, .indefinite⟩ ++ encodeAll e.children ++
      endOfContents := by
  have hc := constructed_of_indefinite h
  obtain ⟨identifier, value, children, framing, raw, label⟩ := e
  unfold usedFraming at h
  rw [if_pos hc] at h
  cases h
  rw [encode, if_pos hc]

theorem exists_encode_eq (e : Element) : ∃ rest, e.encode = e.identifier.encode ++ rest := by
  cases h : e.usedFraming with
  | definite =>
      rw [encode_of_definite h, encodeDefinite, Header.encode, List.append_assoc]
      exact ⟨_, rfl⟩
  | indefinite =>
      rw [encode_of_indefinite h, Header.encode, List.append_assoc, List.append_assoc]
      exact ⟨_, rfl⟩

/-- Only the identifier of the marker is spelled with a zero octet first. -/
theorem exists_encode_cons (e : Element) :
    ∃ octet rest, e.encode = octet :: rest ∧ (octet = 0 ↔ e.identifier = marker) := by
  obtain ⟨rest, hrest⟩ := exists_encode_eq e
  obtain ⟨octet, tail, hidentifier, hzero⟩ := Identifier.exists_encode_cons e.identifier
  refine ⟨octet, tail ++ rest, ?_, hzero⟩
  rw [hrest, hidentifier, List.cons_append]

end BasicEncoding.Element
