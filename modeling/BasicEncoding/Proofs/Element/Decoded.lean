import BasicEncoding.Proofs.Element.Encodable
import BasicEncoding.Proofs.Parse.Outcome
import BasicEncoding.Proofs.Real.Range

/-! What is true of every node of a tree that was read, whatever the octets were. -/
namespace BasicEncoding

namespace Value

variable {identifier : Identifier} {contents : Octets} {v : Value}

theorem eq_ok_of_map {α : Type} {f : α → Value} {read : Except Defect α}
    (h : read.map f = .ok v) : ∃ a, read = .ok a ∧ v = f a := by
  cases read with
  | error defect => cases h
  | ok a => exact ⟨a, rfl, (Except.ok.inj h).symm⟩

theorem ofContent_ok {tag : UInt32} {kind : ValueKind} (h : ofContent tag contents kind = .ok v) :
    v.kind = kind ∧ ∀ x, v = .real x → x.isSubnormal = false := by
  cases kind with
  | nothing =>
      rw [ofContent] at h
      split at h
      · cases h
        exact ⟨rfl, nofun⟩
      · cases h
  | boolean =>
      obtain ⟨b, -, rfl⟩ := eq_ok_of_map h
      exact ⟨rfl, nofun⟩
  | integer =>
      obtain ⟨n, -, rfl⟩ := eq_ok_of_map h
      exact ⟨rfl, nofun⟩
  | octets =>
      cases h
      exact ⟨rfl, nofun⟩
  | real =>
      obtain ⟨x, hx, rfl⟩ := eq_ok_of_map h
      refine ⟨rfl, ?_⟩
      rintro _ ⟨⟩
      exact Real.decode_not_subnormal hx
  | oid =>
      obtain ⟨o, -, rfl⟩ := eq_ok_of_map h
      exact ⟨rfl, nofun⟩

theorem decode_universal (h : decode identifier contents = .ok v)
    (hclass : identifier.tagClass = .universal) :
    v.kind = Universal.kind identifier.number := by
  rw [decode, if_pos hclass] at h
  exact (ofContent_ok h).1

theorem decode_elsewhere (h : decode identifier contents = .ok v)
    (hclass : identifier.tagClass ≠ .universal) : v = .octets contents := by
  rw [decode, if_neg hclass] at h
  cases h
  rfl

theorem decode_not_subnormal (h : decode identifier contents = .ok v) :
    ∀ x, v = .real x → x.isSubnormal = false := by
  by_cases hclass : identifier.tagClass = .universal
  · rw [decode, if_pos hclass] at h
    exact (ofContent_ok h).2
  · rw [decode_elsewhere h hclass]
    nofun

end Value

namespace Parse

variable {α : Type} {p : Parse α}

theorem mem_untilEnd (hp : p.Advances) {octets rest : Octets} {values : List α}
    (h : (p.untilEnd.run octets).outcome = .done values rest) :
    ∀ v ∈ values, ∃ o r, (p.run o).outcome = .done v r := by
  induction hsize : octets.length using Nat.strongRecOn generalizing octets values with
  | ind size ih =>
      cases octets with
      | nil =>
          cases h
          exact nofun
      | cons octet tail =>
          rw [untilEnd_cons hp, Outcome.andThen_cons_eq_done_iff] at h
          obtain ⟨first, between, others, hfirst, hothers, rfl⟩ := h
          have hless := hp _ _ _ hfirst
          exact List.forall_mem_cons.mpr ⟨⟨_, _, hfirst⟩, ih _ (by omega) hothers rfl⟩

theorem mem_untilMarker (hp : p.Advances) {octets rest : Octets} {values : List α}
    (h : (p.untilMarker.run octets).outcome = .done values rest) :
    ∀ v ∈ values, ∃ o r, (p.run o).outcome = .done v r := by
  induction hsize : octets.length using Nat.strongRecOn generalizing octets values with
  | ind size ih =>
      cases octets with
      | nil => cases h
      | cons octet tail =>
          by_cases hzero : octet = 0
          · subst hzero
            rw [untilMarker_zero] at h
            rw [(behindZero_eq_done h).1]
            exact nofun
          · rw [untilMarker_cons hp hzero, Outcome.andThen_cons_eq_done_iff] at h
            obtain ⟨first, between, others, hfirst, hothers, rfl⟩ := h
            have hless := hp _ _ _ hfirst
            exact List.forall_mem_cons.mpr ⟨⟨_, _, hfirst⟩, ih _ (by omega) hothers rfl⟩

/-- An element that was read is a primitive with the value of its contents, or holds children that
were read a level deeper. -/
theorem element_cases {limits : Limits} {depth : Nat} (hdepth : depth ≤ limits.maxDepth.toNat)
    {octets rest : Octets} {e : Element}
    (h : ((elementAt limits depth).run octets).outcome = .done e rest) :
    (∃ identifier contents value raw, Value.decode identifier contents = .ok value ∧
      e = (Element.bare ⟨identifier.tagClass, false, identifier.number⟩ value "").withRaw raw) ∨
    ∃ identifier framing children raw,
      e = (Element.ofChildren identifier framing children).withRaw raw ∧
        ∀ c ∈ children, ∃ o r, ((elementAt limits (depth + 1)).run o).outcome = .done c r := by
  have hp := elementAt_advances limits (depth + 1)
  rw [outcome_elementAt hdepth, Outcome.andThen_eq_done_iff] at h
  obtain ⟨found, behind, -, h⟩ := h
  cases hlength : found.1.length with
  | indefinite =>
      rw [outcome_behindHeader_indefinite hlength] at h
      obtain ⟨children, hchildren, rfl⟩ := Outcome.map_eq_done_iff.mp h
      exact .inr ⟨_, _, children, _, rfl, mem_untilMarker hp hchildren⟩
  | definite count =>
      rw [outcome_behindHeader_definite hlength] at h
      obtain ⟨_, checked, -, h⟩ := Outcome.andThen_eq_done_iff.mp h
      obtain ⟨contents, last, -, h⟩ := Outcome.andThen_eq_done_iff.mp h
      have hresult := (Outcome.ended_eq_done_iff.mp h).1
      unfold contentsResult at hresult
      split at hresult
      · split at hresult
        · next children _ hchildren =>
          cases hresult
          exact .inr ⟨_, _, children, _, rfl, mem_untilEnd hp hchildren⟩
        · cases hresult
        · cases hresult
      · split at hresult
        · next value hvalue =>
          cases hresult
          exact .inl ⟨_, _, value, _, hvalue, rfl⟩
        · cases hresult

end Parse

namespace Element

variable {limits : Limits} {depth : Nat}

structure Read (limits : Limits) (depth : Nat) (e : Element) : Prop where
  formed : e.Formed
  octets_elsewhere : e.OctetsElsewhere
  not_subnormal : ∀ x, e.value = .real x → x.isSubnormal = false
  depth_le : depth ≤ limits.maxDepth.toNat

theorem read_ofChildren (hdepth : depth ≤ limits.maxDepth.toNat) (identifier : Identifier)
    (framing : Framing) (children : List Element) (raw : Octets) :
    ((ofChildren identifier framing children).withRaw raw).Read limits depth :=
  ⟨⟨fun _ => rfl, nofun, nofun⟩, nofun, nofun, hdepth⟩

theorem read_bare (hdepth : depth ≤ limits.maxDepth.toNat) {identifier : Identifier}
    {contents : Octets} {value : Value} (hvalue : Value.decode identifier contents = .ok value)
    (raw : Octets) :
    ((bare ⟨identifier.tagClass, false, identifier.number⟩ value "").withRaw raw).Read limits
      depth := by
  refine ⟨⟨nofun, fun _ => rfl, fun _ => Value.decode_universal hvalue⟩, ?_,
    Value.decode_not_subnormal hvalue, hdepth⟩
  intro _ hclass
  have hoctets := Value.decode_elsewhere hvalue hclass
  exact congrArg Value.kind hoctets

/-- A tree that was read at a depth was so at every node. -/
theorem nodes_read {octets rest : Octets} {e : Element}
    (h : ((Parse.elementAt limits depth).run octets).outcome = .done e rest) :
    e.AtNodes (Read limits) depth := by
  -- on the levels that are left: a child is read with one level less
  induction hlevels : limits.levelsFrom depth generalizing depth octets rest e with
  | zero =>
      rw [Parse.elementAt_of_lt (Limits.levelsFrom_eq_zero_iff.mp hlevels)] at h
      cases octets <;> cases h
  | succ levels ih =>
      have hdepth : depth ≤ limits.maxDepth.toNat := by
        unfold Limits.levelsFrom at hlevels
        omega
      have hnext : limits.levelsFrom (depth + 1) = levels := by
        rw [Limits.levelsFrom_succ, hlevels, Nat.add_sub_cancel]
      obtain ⟨identifier, contents, value, raw, hvalue, rfl⟩ |
        ⟨identifier, framing, children, raw, rfl, hchildren⟩ := Parse.element_cases hdepth h
      · exact .node (read_bare hdepth hvalue raw) nofun
      · refine .node (read_ofChildren hdepth identifier framing children raw) ?_
        intro c hc
        obtain ⟨o, r, hread⟩ := hchildren c hc
        exact ih hread hnext

end Element

end BasicEncoding
