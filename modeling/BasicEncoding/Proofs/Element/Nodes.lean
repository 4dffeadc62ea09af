import BasicEncoding.Element.Encode

/-! Statements on all nodes of a tree, and on matching nodes of two trees. A node is judged together
with its depth; two trees match where they have the same children counts throughout. -/
namespace BasicEncoding.Element

/-- A statement on nodes and their depths holds of an element at a depth and of all below it. -/
inductive AtNodes (p : Nat → Element → Prop) : Nat → Element → Prop
  | node {depth : Nat} {e : Element} (here : p depth e)
      (below : ∀ c ∈ e.children, AtNodes p (depth + 1) c) : AtNodes p depth e

namespace AtNodes

variable {p q r : Nat → Element → Prop} {depth : Nat} {e : Element}

theorem here (h : e.AtNodes p depth) : p depth e := by
  cases h with
  | node here _ => exact here

theorem child (h : e.AtNodes p depth) {c : Element} (hc : c ∈ e.children) :
    c.AtNodes p (depth + 1) := by
  cases h with
  | node _ below => exact below c hc

theorem mono (h : e.AtNodes p depth) (hpq : ∀ d n, p d n → q d n) : e.AtNodes q depth := by
  induction h with
  | node here _ ih => exact .node (hpq _ _ here) ih

theorem and (hp : e.AtNodes p depth) (hq : e.AtNodes q depth) :
    e.AtNodes (fun d n => p d n ∧ q d n) depth := by
  induction hp with
  | node here _ ih => exact .node ⟨here, hq.here⟩ fun c hc => ih c hc (hq.child hc)

theorem anywhere {p : Element → Prop} (h : e.AtNodes (fun _ n => p n) depth) (other : Nat) :
    e.AtNodes (fun _ n => p n) other := by
  induction h generalizing other with
  | node here _ ih => exact .node here fun c hc => ih c hc (other + 1)

theorem subtrees (h : e.AtNodes p depth) : e.AtNodes (fun d n => n.AtNodes p d) depth := by
  induction h with
  | node here below ih => exact .node (.node here below) ih

end AtNodes

/-- A relation holds between matching nodes of two trees. -/
inductive NodeByNode (r : Element → Element → Prop) : Element → Element → Prop
  | node {e f : Element} (here : r e f) (count : e.children.length = f.children.length)
      (below : ∀ c d, (c, d) ∈ e.children.zip f.children → NodeByNode r c d) : NodeByNode r e f

namespace NodeByNode

variable {r : Element → Element → Prop} {e f : Element}

theorem here (h : NodeByNode r e f) : r e f := by
  cases h with
  | node here _ _ => exact here

theorem count (h : NodeByNode r e f) : e.children.length = f.children.length := by
  cases h with
  | node _ count _ => exact count

theorem child (h : NodeByNode r e f) {c d : Element} (hmem : (c, d) ∈ e.children.zip f.children) :
    NodeByNode r c d := by
  cases h with
  | node _ _ below => exact below c d hmem

end NodeByNode

def SameFraming : Element → Element → Prop :=
  NodeByNode fun e f => e.usedFraming = f.usedFraming

theorem sameAll_iff {es fs : List Element} :
    sameAll es fs = true ↔ es.length = fs.length ∧ ∀ c d, (c, d) ∈ es.zip fs → c.same d = true := by
  induction es generalizing fs with
  | nil => cases fs <;> simp [sameAll]
  | cons e es ih =>
      cases fs with
      | nil => simp [sameAll]
      | cons f fs =>
          simp only [sameAll, Bool.and_eq_true, ih, List.length_cons, List.zip_cons_cons,
            List.mem_cons, Prod.mk.injEq]
          constructor
          · rintro ⟨hhead, hcount, htail⟩
            refine ⟨by omega, ?_⟩
            rintro c d (⟨rfl, rfl⟩ | hmem)
            · exact hhead
            · exact htail c d hmem
          · rintro ⟨hcount, hall⟩
            exact ⟨hall e f (.inl ⟨rfl, rfl⟩), by omega, fun c d hmem => hall c d (.inr hmem)⟩

theorem same_iff {e f : Element} :
    e.same f = true ↔ e.identifier = f.identifier ∧ e.value.same f.value = true ∧
      e.children.length = f.children.length ∧
      ∀ c d, (c, d) ∈ e.children.zip f.children → c.same d = true := by
  cases e
  cases f
  simp only [same, Bool.and_eq_true, decide_eq_true_eq, sameAll_iff, and_assoc]

theorem same_of_nodeByNode {e f : Element}
    (h : NodeByNode (fun e f => e.identifier = f.identifier ∧ e.value.same f.value = true) e f) :
    e.same f = true := by
  induction h with
  | node here count _ ih => exact same_iff.mpr ⟨here.1, here.2, count, ih⟩

end BasicEncoding.Element
