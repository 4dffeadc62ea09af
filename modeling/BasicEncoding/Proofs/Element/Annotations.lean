import BasicEncoding.Proofs.Element.Operations
import BasicEncoding.Proofs.Element.Survival
import Mathlib.Data.List.Forall2

/-! What writing goes by. Two elements that agree in identifier, framing and value at all nodes are
written in the same octets, whatever their labels and caches are. Nothing is asked of the elements
but this: values may stand on constructed ones and children on primitive ones. Two runs of changes
that differ in annotations only lead from elements that agree to elements that agree. -/
namespace BasicEncoding

theorem Real.encode_eq_of_sameNumber {x y : Binary64} (h : x.sameNumber y = true) :
    encode x = encode y := by
  simp only [Binary64.sameNumber, Bool.and_eq_true, Bool.or_eq_true, beq_iff_eq] at h
  obtain ⟨-, rfl | ⟨hx, hy⟩⟩ := h
  · rfl
  · rw [encode_of_isZero hx, encode_of_isZero hy]

namespace Value

variable {v w : Value}

/-- The same value or an equal one. A NaN is equal to none, and is the same as itself. -/
def Agrees (v w : Value) : Prop :=
  v = w ∨ v.same w = true

theorem Agrees.encode_eq (h : v.Agrees w) : v.encode = w.encode := by
  obtain rfl | hsame := h
  · rfl
  · obtain ⟨rfl, -⟩ | ⟨x, y, rfl, rfl, hnumber⟩ := same_cases hsame
    · rfl
    · exact Real.encode_eq_of_sameNumber hnumber

end Value

namespace Element

structure AgreesHere (e f : Element) : Prop where
  identifier_eq : e.identifier = f.identifier
  framing_eq : e.usedFraming = f.usedFraming
  value_agrees : e.value.Agrees f.value

def Agrees : Element → Element → Prop :=
  NodeByNode AgreesHere

variable {e f : Element} {es fs held held' : List Element}

theorem agrees_iff : e.Agrees f ↔ AgreesHere e f ∧ List.Forall₂ Agrees e.children f.children := by
  rw [List.forall₂_iff_zip]
  constructor
  · intro h
    exact ⟨h.here, h.count, fun hmem => h.child hmem⟩
  · rintro ⟨here, count, below⟩
    exact .node here count fun _ _ hmem => below hmem

mutual

theorem Agrees.refl : ∀ e : Element, e.Agrees e
  | ⟨_, _, children, _, _, _⟩ => agrees_iff.mpr ⟨⟨rfl, rfl, .inl rfl⟩, agrees_self children⟩

theorem agrees_self : ∀ es : List Element, List.Forall₂ Agrees es es
  | [] => .nil
  | e :: es => .cons (Agrees.refl e) (agrees_self es)

end

theorem agrees_of_same (h : e.same f = true) (hframing : SameFraming e f) : e.Agrees f := by
  induction hframing with
  | node here count _ ih =>
      obtain ⟨hidentifier, hvalue, -, hchildren⟩ := same_iff.mp h
      exact .node ⟨hidentifier, here, .inr hvalue⟩ count
        fun c d hmem => ih c d hmem (hchildren c d hmem)

theorem encodeAll_eq (h : List.Forall₂ (fun c d => c.encode = d.encode) es fs) :
    encodeAll es = encodeAll fs := by
  induction h with
  | nil => rfl
  | cons hfirst _ ih => rw [encodeAll, encodeAll, hfirst, ih]

theorem Agrees.encode_eq (h : e.Agrees f) : e.encode = f.encode := by
  induction h with
  | @node e f here count _ ih =>
      have hchildren : encodeAll e.children = encodeAll f.children :=
        encodeAll_eq (List.forall₂_iff_zip.mpr ⟨count, fun hmem => ih _ _ hmem⟩)
      have hidentifier := here.identifier_eq
      cases hframing : f.usedFraming with
      | definite =>
          have hcontents : e.contents = f.contents := by
            rw [contents, contents, hidentifier, hchildren, here.value_agrees.encode_eq]
          rw [encode_of_definite (here.framing_eq.trans hframing), encode_of_definite hframing,
            hidentifier, hcontents]
      | indefinite =>
          rw [encode_of_indefinite (here.framing_eq.trans hframing),
            encode_of_indefinite hframing, hidentifier, hchildren]

end Element

/-! ### One change -/

namespace Change

/-- Whether writing goes by what is changed. -/
def counts : Change → Bool
  | .framing _ | .append _ => true
  | .label _ | .raw _ | .cache => false

/-- The element behind a change. One that fails leaves it as it is. -/
def result (held : List Element) (e : Element) (c : Change) : Element :=
  match c.apply held e with
  | .ok changed => changed
  | .error _ => e

def newChildren (held : List Element) (identifier : Identifier) : Change → List Element
  | .append place => if identifier.constructed then held[place]?.toList else []
  | _ => []

def newFraming (framing : Framing) : Change → Framing
  | .framing f => f
  | _ => framing

variable {held held' : List Element} {e f : Element}

/-- All that a change does. -/
theorem result_eq (held : List Element) (e : Element) (c : Change) :
    ∃ raw label, c.result held e =
      { identifier := e.identifier
        value := e.value
        children := e.children ++ c.newChildren held e.identifier
        framing := c.newFraming e.framing
        raw, label } := by
  refine ⟨(c.result held e).raw, (c.result held e).label, ?_⟩
  obtain ⟨identifier, value, children, framing, raw, label⟩ := e
  cases c with
  | append place =>
      unfold result apply newChildren newFraming Element.append
      dsimp only
      cases hplace : held[place]? with
      | none => rw [Option.toList_none, ite_self, List.append_nil]
      | some child =>
          cases identifier.constructed with
          | true => rfl
          | false =>
              dsimp only
              rw [if_neg Bool.false_ne_true, if_neg Bool.false_ne_true, List.append_nil]
  | _ =>
      simp only [newChildren, List.append_nil]
      rfl

/-- A change of annotations leaves an element in agreement. -/
theorem result_annotated {c : Change} (hc : c.counts = false) (h : e.Agrees f) :
    (c.result held e).Agrees f := by
  obtain ⟨here, hchildren⟩ := Element.agrees_iff.mp h
  cases c with
  | label _ | raw _ | cache =>
      exact Element.agrees_iff.mpr
        ⟨⟨here.identifier_eq, here.framing_eq, here.value_agrees⟩, hchildren⟩
  | framing _ | append _ => cases hc

theorem getElem?_agrees (hheld : List.Forall₂ Element.Agrees held held') (place : Nat) :
    List.Forall₂ Element.Agrees held[place]?.toList held'[place]?.toList := by
  induction hheld generalizing place with
  | nil => exact .nil
  | cons hfirst _ ih =>
      cases place with
      | zero => exact .cons hfirst .nil
      | succ place => exact ih place

theorem newChildren_agrees (hheld : List.Forall₂ Element.Agrees held held')
    (identifier : Identifier) (c : Change) :
    List.Forall₂ Element.Agrees (c.newChildren held identifier)
      (c.newChildren held' identifier) := by
  cases c with
  | append place =>
      unfold newChildren
      dsimp only
      split
      · exact getElem?_agrees hheld place
      · exact .nil
  | _ => exact .nil

theorem result_agrees (hheld : List.Forall₂ Element.Agrees held held') (c : Change)
    (h : e.Agrees f) : (c.result held e).Agrees (c.result held' f) := by
  obtain ⟨here, hchildren⟩ := Element.agrees_iff.mp h
  obtain ⟨raw, label, he⟩ := result_eq held e c
  obtain ⟨raw', label', hf⟩ := result_eq held' f c
  rw [he, hf, Element.agrees_iff]
  refine ⟨⟨here.identifier_eq, ?_, here.value_agrees⟩, ?_⟩
  · have hframing := here.framing_eq
    unfold Element.usedFraming at hframing ⊢
    dsimp only
    rw [here.identifier_eq] at hframing ⊢
    split
    · next hc =>
      rw [if_pos hc, if_pos hc] at hframing
      rw [hframing]
    · rfl
  · have hnew := newChildren_agrees hheld f.identifier c
    rw [← here.identifier_eq] at hnew
    rw [← here.identifier_eq]
    exact List.rel_append hchildren hnew

end Change

/-! ### Any number of changes -/

namespace Element

def changed (held : List Element) (e : Element) (changes : List Change) : Element :=
  changes.foldl (Change.result held) e

variable {held held' : List Element} {e f : Element}

/-- All that changes do: children are put behind one another, and the last framing stays. -/
theorem changed_eq (held : List Element) (e : Element) (changes : List Change) :
    ∃ raw label, e.changed held changes =
      { identifier := e.identifier
        value := e.value
        children := e.children ++ changes.flatMap (Change.newChildren held e.identifier)
        framing := changes.foldl Change.newFraming e.framing
        raw, label } := by
  induction changes generalizing e with
  | nil =>
      rw [List.flatMap_nil, List.append_nil]
      cases e
      exact ⟨_, _, rfl⟩
  | cons c changes ih =>
      obtain ⟨raw, label, hfirst⟩ := Change.result_eq held e c
      rw [changed, List.foldl_cons, hfirst, List.flatMap_cons, ← List.append_assoc,
        List.foldl_cons]
      exact ih _

/-- Changes of elements in agreement leave them in agreement, also where those of annotations are
made to one of them only. -/
theorem changed_agrees (hheld : List.Forall₂ Agrees held held') (changes : List Change)
    (h : e.Agrees f) :
    (e.changed held changes).Agrees (f.changed held' (changes.filter Change.counts)) := by
  induction changes generalizing e f with
  | nil => exact h
  | cons c changes ih =>
      cases hc : c.counts with
      | true =>
          rw [List.filter_cons_of_pos hc]
          exact ih (Change.result_agrees hheld c h)
      | false =>
          rw [List.filter_cons_of_neg (ne_true_of_eq_false hc)]
          exact ih (Change.result_annotated hc h)

/-- Writing goes by identifiers, framings, values and children alone. Equal elements that are framed
in the same way are written in the same octets, whatever is annotated on them. Behind any changes the
octets are those of the identifier and the value there were, the children with those appended, and
the last framing; and two runs that differ in annotations alone, on the elements or among the changes,
end in the same octets. -/
theorem encode_goes_by_no_annotation :
    (∀ e f : Element, e.same f = true → SameFraming e f → e.encode = f.encode) ∧
    (∀ (held : List Element) (e : Element) (changes : List Change) (raw : Option Octets)
      (label : String), (e.changed held changes).encode =
        encode
          { identifier := e.identifier
            value := e.value
            children := e.children ++ changes.flatMap (Change.newChildren held e.identifier)
            framing := changes.foldl Change.newFraming e.framing
            raw, label }) ∧
    ∀ (held held' : List Element) (e f : Element) (changes changes' : List Change),
      List.Forall₂ Agrees held held' → e.Agrees f →
      changes.filter Change.counts = changes'.filter Change.counts →
      (e.changed held changes).encode = (f.changed held' changes').encode := by
  refine ⟨?_, ?_, ?_⟩
  · intro e f hsame hframing
    exact (agrees_of_same hsame hframing).encode_eq
  · intro held e changes raw label
    obtain ⟨raw', label', hchanged⟩ := changed_eq held e changes
    rw [hchanged]
    rfl
  · intro held held' e f changes changes' hheld h hcounts
    have hfirst := (changed_agrees hheld changes h).encode_eq
    have hsecond := (changed_agrees (agrees_self held') changes' (Agrees.refl f)).encode_eq
    rw [hfirst, hcounts, hsecond]

/-- A zero in open contents, with octets kept from before. As in loaded data, the constructed element
has a value and the primitive one a child. -/
def zeroWithin (zero : Binary64) (raw : Octets) : Element :=
  { ofChildren (.universal true Universal.sequence) .indefinite
      [{ (real zero "zero").withRaw raw with children := [null ""] }] with
    value := .boolean true, raw := some raw }

/-- Neither the sign of the zero nor the octets kept are written, and neither are those kept later. -/
theorem zeroWithin_encode :
    (zeroWithin .zero []).same (zeroWithin (.ofFields true 0 0) [0xAA]) = true ∧
      (zeroWithin .zero []).encode = (zeroWithin (.ofFields true 0 0) [0xAA]).encode ∧
      ((zeroWithin .zero []).changed [null ""] [.append 0]).encode =
        [0x30, 0x80, 0x09, 0x01, 0x43, 0x05, 0x00, 0x00, 0x00] ∧
      ((zeroWithin .zero []).changed [null ""] [.append 0]).encode =
        ((zeroWithin (.ofFields true 0 0) [0xAA]).changed [(null "").withRaw [0xBB]]
          [.cache, .append 0, .label "late", .raw [0xCC]]).encode := by
  obtain ⟨hequal, -, hruns⟩ := encode_goes_by_no_annotation
  have hsame : (zeroWithin .zero []).same (zeroWithin (.ofFields true 0 0) [0xAA]) = true := by
    decide
  have hframing : SameFraming (zeroWithin .zero []) (zeroWithin (.ofFields true 0 0) [0xAA]) := by
    refine .node rfl rfl fun c d hmem => ?_
    obtain ⟨rfl, rfl⟩ := Prod.mk.inj (List.mem_singleton.mp hmem)
    refine .node rfl rfl fun c d hmem => ?_
    obtain ⟨rfl, rfl⟩ := Prod.mk.inj (List.mem_singleton.mp hmem)
    exact .node rfl rfl nofun
  refine ⟨hsame, hequal _ _ hsame hframing, by decide, ?_⟩
  have hheld : List.Forall₂ Agrees [null ""] [(null "").withRaw [0xBB]] :=
    .cons (.node ⟨rfl, rfl, .inl rfl⟩ rfl nofun) .nil
  exact hruns _ _ _ _ _ _ hheld (agrees_of_same hsame hframing) rfl

end Element

end BasicEncoding
