import BasicEncoding.Proofs.Element.Nodes
import BasicEncoding.Proofs.Parse.Outcome

/-! The grammar of elements. Octets derive an element at a depth; nothing here says how they are
read, apart from the header, which is what the header scan accepts. -/
namespace BasicEncoding

/-- Octets behind the last of which a scan has a header, and not before. -/
inductive HeaderScan.Accepts : HeaderScan → Octets → Header → Prop
  | last {s t : HeaderScan} {octet : UInt8} {header : Header}
      (pushed : s.push octet = (.ok (some header), t)) : Accepts s [octet] header
  | more {s t : HeaderScan} {octet : UInt8} {octets : Octets} {header : Header}
      (pushed : s.push octet = (.ok none, t)) (later : Accepts t octets header) :
      Accepts s (octet :: octets) header

/-- The octets of parts, back to back. A part is a value with the octets it stands for. -/
def joined {α : Type} (parts : List (Octets × α)) : Octets :=
  parts.flatMap Prod.fst

def values {α : Type} (parts : List (Octets × α)) : List α :=
  parts.map Prod.snd

/-- Octets that stand for an element at a depth. The contents of a constructed element are those of
its children, one after another; if no length is given, a marker follows them, and no child begins
as the marker does. -/
inductive Derives (limits : Limits) : Nat → Octets → Element → Prop
  | primitive {depth : Nat} {header contents : Octets} {identifier : Identifier} {count : UInt64}
      {value : Value}
      (depth_le : depth ≤ limits.maxDepth.toNat)
      (accepted : HeaderScan.start.Accepts header ⟨identifier, .definite count⟩)
      (form : identifier.constructed = false)
      (count_le : count ≤ limits.maxContentLength)
      (length_eq : contents.length = count.toNat)
      (decoded : Value.decode identifier contents = .ok value) :
      Derives limits depth (header ++ contents)
        { identifier, value, children := [], framing := .definite,
          raw := some (header ++ contents), label := "" }
  | definite {depth : Nat} {header : Octets} {identifier : Identifier} {count : UInt64}
      {parts : List (Octets × Element)}
      (depth_le : depth ≤ limits.maxDepth.toNat)
      (accepted : HeaderScan.start.Accepts header ⟨identifier, .definite count⟩)
      (form : identifier.constructed = true)
      (count_le : count ≤ limits.maxContentLength)
      (length_eq : (joined parts).length = count.toNat)
      (children : ∀ part ∈ parts, Derives limits (depth + 1) part.1 part.2) :
      Derives limits depth (header ++ joined parts)
        { identifier, value := .nothing, children := values parts, framing := .definite,
          raw := some (header ++ joined parts), label := "" }
  | indefinite {depth : Nat} {header : Octets} {identifier : Identifier}
      {parts : List (Octets × Element)}
      (depth_le : depth ≤ limits.maxDepth.toNat)
      (accepted : HeaderScan.start.Accepts header ⟨identifier, .indefinite⟩)
      (form : identifier.constructed = true)
      (children : ∀ part ∈ parts, Derives limits (depth + 1) part.1 part.2)
      (unmarked : ∀ part ∈ parts, part.1.head? ≠ some 0) :
      Derives limits depth (header ++ joined parts ++ endOfContents)
        { identifier, value := .nothing, children := values parts, framing := .indefinite,
          raw := some (header ++ joined parts ++ endOfContents), label := "" }

variable {limits : Limits} {depth : Nat} {octets : Octets} {e : Element}

theorem Derives.raw_eq (h : Derives limits depth octets e) : e.raw = some octets := by
  cases h <;> rfl

theorem Derives.depth_le (h : Derives limits depth octets e) : depth ≤ limits.maxDepth.toNat := by
  cases h <;> assumption

/-- Every node of a derived element is derived by the octets that it keeps. -/
theorem Derives.nodes (h : Derives limits depth octets e) :
    e.AtNodes (fun d n => ∃ raw, n.raw = some raw ∧ Derives limits d raw n) depth := by
  induction h with
  | primitive depth_le accepted form count_le length_eq decoded =>
      exact .node ⟨_, rfl, .primitive depth_le accepted form count_le length_eq decoded⟩ nofun
  | definite depth_le accepted form count_le length_eq children ih =>
      refine .node ⟨_, rfl, .definite depth_le accepted form count_le length_eq children⟩ ?_
      intro c hc
      obtain ⟨part, hpart, rfl⟩ := List.mem_map.mp hc
      exact ih part hpart
  | indefinite depth_le accepted form children unmarked ih =>
      refine .node ⟨_, rfl, .indefinite depth_le accepted form children unmarked⟩ ?_
      intro c hc
      obtain ⟨part, hpart, rfl⟩ := List.mem_map.mp hc
      exact ih part hpart

/-- The caches of children are the contents that they stand in. -/
theorem rawAll_values {parts : List (Octets × Element)}
    (h : ∀ part ∈ parts, Derives limits depth part.1 part.2) :
    rawAll (values parts) = joined parts := by
  induction parts with
  | nil => rfl
  | cons part parts ih =>
      have hfirst := (h part List.mem_cons_self).raw_eq
      have hothers := ih fun other hother => h other (List.mem_cons_of_mem part hother)
      change part.2.raw.getD [] ++ rawAll (values parts) = part.1 ++ joined parts
      rw [hfirst, hothers, Option.getD_some]

namespace Parse

variable {α : Type}

/-- A parse that gives a value exactly where octets in front stand for it, and leaves the others. -/
def Reads (p : Parse α) (stands : Octets → α → Prop) : Prop :=
  ∀ octets value rest, (p.run octets).outcome = .done value rest ↔
    ∃ taken, octets = taken ++ rest ∧ stands taken value

variable {p : Parse α} {stands : Octets → α → Prop}

theorem Reads.run_append (h : p.Reads stands) {taken : Octets} {value : α}
    (htaken : stands taken value) (rest : Octets) :
    (p.run (taken ++ rest)).outcome = .done value rest :=
  (h _ value rest).mpr ⟨taken, rfl, htaken⟩

theorem Reads.exists_cons (hp : p.Advances) (h : p.Reads stands) {taken : Octets} {value : α}
    (htaken : stands taken value) : ∃ octet tail, taken = octet :: tail := by
  have hless := hp _ _ _ (h.run_append htaken [])
  rw [List.append_nil] at hless
  exact List.exists_cons_of_length_pos hless

/-- Read to the end, parts stand one after another and nothing is left. -/
theorem Reads.untilEnd (hp : p.Advances) (h : p.Reads stands) {octets rest : Octets}
    {found : List α} :
    (p.untilEnd.run octets).outcome = .done found rest ↔
      rest = [] ∧ ∃ parts, octets = joined parts ∧ found = values parts ∧
        ∀ part ∈ parts, stands part.1 part.2 := by
  constructor
  · intro hdone
    induction hsize : octets.length using Nat.strongRecOn generalizing octets found with
    | ind size ih =>
        cases octets with
        | nil =>
            cases hdone
            exact ⟨rfl, [], rfl, rfl, List.forall_mem_nil _⟩
        | cons octet tail =>
            rw [untilEnd_cons hp, Outcome.andThen_cons_eq_done_iff] at hdone
            obtain ⟨first, behind, others, hfirst, hothers, rfl⟩ := hdone
            have hless := hp _ _ _ hfirst
            obtain ⟨taken, htaken, hstands⟩ := (h _ _ _).mp hfirst
            obtain ⟨hrest, parts, rfl, rfl, hparts⟩ := ih _ (by omega) hothers rfl
            refine ⟨hrest, (taken, first) :: parts, htaken, rfl, ?_⟩
            exact List.forall_mem_cons.mpr ⟨hstands, hparts⟩
  · rintro ⟨rfl, parts, rfl, rfl, hparts⟩
    induction parts with
    | nil => rfl
    | cons part parts ih =>
        obtain ⟨hfirst, hothers⟩ := List.forall_mem_cons.mp hparts
        obtain ⟨octet, tail, hcons⟩ := h.exists_cons hp hfirst
        have hrun := h.run_append hfirst (joined parts)
        change (p.untilEnd.run (part.1 ++ joined parts)).outcome =
          .done (part.2 :: values parts) []
        rw [hcons, List.cons_append] at hrun ⊢
        rw [untilEnd_cons hp, hrun]
        exact Outcome.map_eq_done_iff.mpr ⟨values parts, ih hothers, rfl⟩

theorem Reads.exists_unmarked (hp : p.Advances) (h : p.Reads stands) {octet : UInt8}
    {tail behind : Octets} {value : α} (hzero : octet ≠ 0)
    (hdone : (p.run (octet :: tail)).outcome = .done value behind) :
    ∃ taken, octet :: tail = taken ++ behind ∧ stands taken value ∧ taken.head? ≠ some 0 := by
  obtain ⟨taken, htaken, hstands⟩ := (h _ _ _).mp hdone
  refine ⟨taken, htaken, hstands, ?_⟩
  obtain ⟨first, others, hcons⟩ := h.exists_cons hp hstands
  rw [hcons, List.cons_append, List.cons.injEq] at htaken
  rw [hcons, List.head?_cons, ← htaken.1]
  exact fun hhead => hzero (Option.some.inj hhead)

theorem Reads.untilMarker_append (hp : p.Advances) (h : p.Reads stands) {taken : Octets}
    {value : α} (htaken : stands taken value) (hhead : taken.head? ≠ some 0) (rest : Octets) :
    (p.untilMarker.run (taken ++ rest)).outcome =
      (p.untilMarker.run rest).outcome.map (value :: ·) := by
  obtain ⟨octet, tail, hcons⟩ := h.exists_cons hp htaken
  have hzero : octet ≠ 0 := by
    rintro rfl
    exact hhead (by rw [hcons]; rfl)
  have hrun := h.run_append htaken rest
  rw [hcons, List.cons_append] at hrun ⊢
  rw [untilMarker_cons hp hzero, hrun]
  rfl

/-- Read up to a marker, they do so ahead of it, and none begins with the octet that announces
it. -/
theorem Reads.untilMarker (hp : p.Advances) (h : p.Reads stands) {octets rest : Octets}
    {found : List α} :
    (p.untilMarker.run octets).outcome = .done found rest ↔
      ∃ parts, octets = joined parts ++ (endOfContents ++ rest) ∧ found = values parts ∧
        (∀ part ∈ parts, stands part.1 part.2) ∧ ∀ part ∈ parts, part.1.head? ≠ some 0 := by
  constructor
  · intro hdone
    induction hsize : octets.length using Nat.strongRecOn generalizing octets found with
    | ind size ih =>
        cases octets with
        | nil => cases hdone
        | cons octet tail =>
            by_cases hzero : octet = 0
            · subst hzero
              rw [untilMarker_zero] at hdone
              cases tail with
              | nil => cases hdone
              | cons second tail =>
                  rw [behindZero] at hdone
                  split at hdone
                  · next hsecond =>
                    cases hdone
                    exact ⟨[], by rw [hsecond]; rfl, rfl, List.forall_mem_nil _, List.forall_mem_nil _⟩
                  · cases hdone
            · rw [untilMarker_cons hp hzero, Outcome.andThen_cons_eq_done_iff] at hdone
              obtain ⟨first, behind, others, hfirst, hothers, rfl⟩ := hdone
              have hless := hp _ _ _ hfirst
              obtain ⟨taken, htaken, hstands, hhead⟩ := h.exists_unmarked hp hzero hfirst
              obtain ⟨parts, rfl, rfl, hparts, hunmarked⟩ := ih _ (by omega) hothers rfl
              refine ⟨(taken, first) :: parts, ?_, rfl,
                List.forall_mem_cons.mpr ⟨hstands, hparts⟩,
                List.forall_mem_cons.mpr ⟨hhead, hunmarked⟩⟩
              rw [htaken, ← List.append_assoc]
              rfl
  · rintro ⟨parts, rfl, rfl, hparts, hunmarked⟩
    induction parts with
    | nil => exact untilMarker_zero (0 :: rest)
    | cons part parts ih =>
        obtain ⟨hfirst, hothers⟩ := List.forall_mem_cons.mp hparts
        obtain ⟨hhead, hheads⟩ := List.forall_mem_cons.mp hunmarked
        change (p.untilMarker.run (part.1 ++ joined parts ++ (endOfContents ++ rest))).outcome =
          .done (part.2 :: values parts) rest
        rw [List.append_assoc, h.untilMarker_append hp hfirst hhead]
        exact Outcome.map_eq_done_iff.mpr ⟨values parts, ih hothers hheads, rfl⟩

end Parse

end BasicEncoding
