import BasicEncoding.Proofs.Header.Answers

/-! Elements that are cut off. A reading runs short where the octets begin an element and stop
inside it: in a header, in contents of a stated length, or where a child of open contents or their
marker is to come, at any depth. Where they stop tells the gap. -/
namespace BasicEncoding

/-- Octets, at least one, that stop inside an element at a depth, and the gap that they stop in. -/
inductive Unfinished (limits : Limits) : Nat → Octets → Gap → Prop
  | header {depth : Nat} {octets : Octets} {scan : HeaderScan}
      (depth_le : depth ≤ limits.maxDepth.toNat) (some : octets ≠ [])
      (stands : HeaderScan.Stands octets scan) :
      Unfinished limits depth octets (.header scan.stage)
  | contents {depth : Nat} {header contents : Octets} {identifier : Identifier} {count : UInt64}
      (depth_le : depth ≤ limits.maxDepth.toNat)
      (accepted : HeaderScan.start.Accepts header ⟨identifier, .definite count⟩)
      (count_le : count ≤ limits.maxContentLength)
      (missing : contents.length < count.toNat) :
      Unfinished limits depth (header ++ contents) (.content count.toNat contents.length)
  | marker {depth : Nat} {header tail : Octets} {identifier : Identifier}
      {parts : List (Octets × Element)}
      (depth_le : depth ≤ limits.maxDepth.toNat)
      (accepted : HeaderScan.start.Accepts header ⟨identifier, .indefinite⟩)
      (children : ∀ part ∈ parts, Derives limits (depth + 1) part.1 part.2)
      (unmarked : ∀ part ∈ parts, part.1.head? ≠ some 0)
      (begun : tail = [] ∨ tail = [0]) :
      Unfinished limits depth (header ++ (joined parts ++ tail)) .marker
  | child {depth : Nat} {header octets : Octets} {identifier : Identifier}
      {parts : List (Octets × Element)} {gap : Gap}
      (depth_le : depth ≤ limits.maxDepth.toNat)
      (accepted : HeaderScan.start.Accepts header ⟨identifier, .indefinite⟩)
      (children : ∀ part ∈ parts, Derives limits (depth + 1) part.1 part.2)
      (unmarked : ∀ part ∈ parts, part.1.head? ≠ some 0)
      (unfinished : Unfinished limits (depth + 1) octets gap) (head : octets.head? ≠ some 0) :
      Unfinished limits depth (header ++ (joined parts ++ octets)) gap

variable {limits : Limits} {depth : Nat} {octets : Octets} {gap : Gap}

theorem Unfinished.depth_le (h : Unfinished limits depth octets gap) :
    depth ≤ limits.maxDepth.toNat := by
  cases h <;> assumption

theorem Unfinished.ne_nil (h : Unfinished limits depth octets gap) : octets ≠ [] := by
  cases h with
  | header _ some _ => exact some
  | contents _ accepted => exact List.append_ne_nil_of_left_ne_nil accepted.ne_nil _
  | marker _ accepted => exact List.append_ne_nil_of_left_ne_nil accepted.ne_nil _
  | child _ accepted => exact List.append_ne_nil_of_left_ne_nil accepted.ne_nil _

namespace Outcome

variable {α β : Type} {o : Outcome α}

theorem map_eq_short_iff {f : α → β} : o.map f = .short gap ↔ o = .short gap := by
  cases o with
  | done value rest => exact ⟨nofun, nofun⟩
  | refused failure rest => exact ⟨nofun, nofun⟩
  | short other => rw [map, short.injEq, short.injEq]

theorem andThen_eq_short_iff {next : α → Octets → Outcome β} :
    o.andThen next = .short gap ↔
      o = .short gap ∨ ∃ value rest, o = .done value rest ∧ next value rest = .short gap := by
  cases o with
  | done value rest =>
      constructor
      · intro h
        exact .inr ⟨value, rest, rfl, h⟩
      · rintro (⟨⟨⟩⟩ | ⟨_, _, ⟨⟩, h⟩)
        exact h
  | refused failure rest => exact ⟨nofun, nofun⟩
  | short other =>
      constructor
      · rintro ⟨⟩
        exact .inl rfl
      · rintro (⟨⟨⟩⟩ | ⟨_, _, ⟨⟩, _⟩)
        rfl

end Outcome

namespace Parse

theorem scanHeader_eq_short_iff {scan : HeaderScan} :
    (scanHeader scan octets).outcome = .short gap ↔
      ∃ last, scan.Leads octets last ∧ gap = .header last.stage := by
  constructor
  · intro hshort
    induction octets generalizing scan with
    | nil =>
        cases hshort
        exact ⟨scan, .nil scan, rfl⟩
    | cons octet rest ih =>
        unfold scanHeader at hshort
        split at hshort
        · next next hpush =>
          obtain ⟨last, hleads, rfl⟩ := ih hshort
          exact ⟨last, .cons hpush hleads, rfl⟩
        · cases hshort
        · cases hshort
  · rintro ⟨last, hleads, rfl⟩
    induction octets generalizing scan with
    | nil =>
        obtain ⟨-, rfl⟩ := hleads
        rfl
    | cons octet rest ih =>
        obtain ⟨next, hpush, hlater⟩ := hleads.exists_more
        rw [scanHeader_more hpush]
        exact ih hlater

theorem header_eq_short_iff :
    (header.run octets).outcome = .short gap ↔
      ∃ scan, HeaderScan.Stands octets scan ∧ gap = .header scan.stage := by
  refine scanHeader_eq_short_iff.trans ?_
  constructor
  · rintro ⟨last, ⟨hpending, rfl⟩, rfl⟩
    exact ⟨_, HeaderScan.stands_of_isPending hpending, rfl⟩
  · rintro ⟨scan, hstands, rfl⟩
    exact ⟨scan, hstands.leads, rfl⟩

section Loops

variable {α : Type} {p : Parse α} {stands : Octets → α → Prop}

/-- Octets in which open contents stop: behind whole parts with nothing more or half a marker, or
inside another part. -/
def Stops (p : Parse α) (stands : Octets → α → Prop) (octets : Octets) (gap : Gap) : Prop :=
  ∃ parts tail, octets = joined parts ++ tail ∧ (∀ part ∈ parts, stands part.1 part.2) ∧
    (∀ part ∈ parts, part.1.head? ≠ some 0) ∧
    ((tail = [] ∨ tail = [0]) ∧ gap = .marker ∨
      tail ≠ [] ∧ tail.head? ≠ some 0 ∧ (p.run tail).outcome = .short gap)

theorem stops_of_marker (h : octets = [] ∨ octets = [0]) : Stops p stands octets .marker :=
  ⟨[], octets, rfl, List.forall_mem_nil _, List.forall_mem_nil _, .inl ⟨h, rfl⟩⟩

theorem stops_of_short (hne : octets ≠ []) (hhead : octets.head? ≠ some 0)
    (h : (p.run octets).outcome = .short gap) : Stops p stands octets gap :=
  ⟨[], octets, rfl, List.forall_mem_nil _, List.forall_mem_nil _, .inr ⟨hne, hhead, h⟩⟩

theorem Stops.cons {value : α} {taken : Octets} (hstands : stands taken value)
    (hhead : taken.head? ≠ some 0) (h : Stops p stands octets gap) :
    Stops p stands (taken ++ octets) gap := by
  obtain ⟨parts, tail, rfl, hparts, hheads, hgap⟩ := h
  refine ⟨(taken, value) :: parts, tail, ?_, List.forall_mem_cons.mpr ⟨hstands, hparts⟩,
    List.forall_mem_cons.mpr ⟨hhead, hheads⟩, hgap⟩
  rw [← List.append_assoc]
  rfl

theorem Reads.stops_of_untilMarker (hp : p.Advances) (h : p.Reads stands)
    (hshort : (p.untilMarker.run octets).outcome = .short gap) : Stops p stands octets gap := by
  -- On the length, since a part may take any number of octets.
  induction hsize : octets.length using Nat.strongRecOn generalizing octets with
  | ind size ih =>
      cases octets with
      | nil =>
          cases hshort
          exact stops_of_marker (.inl rfl)
      | cons octet tail =>
          by_cases hzero : octet = 0
          · subst hzero
            rw [untilMarker_zero] at hshort
            cases tail with
            | nil =>
                cases hshort
                exact stops_of_marker (.inr rfl)
            | cons second tail =>
                rw [behindZero] at hshort
                split at hshort <;> cases hshort
          · rw [untilMarker_cons hp hzero] at hshort
            cases hfirst : (p.run (octet :: tail)).outcome with
            | refused failure rest =>
                rw [hfirst] at hshort
                cases hshort
            | short found =>
                rw [hfirst] at hshort
                cases hshort
                have hhead : (octet :: tail).head? ≠ some 0 := fun h => hzero (Option.some.inj h)
                exact stops_of_short (List.cons_ne_nil _ _) hhead hfirst
            | done first behind =>
                rw [hfirst] at hshort
                have hrest : (p.untilMarker.run behind).outcome = .short gap :=
                  Outcome.map_eq_short_iff.mp hshort
                have hless : behind.length < (octet :: tail).length := hp _ _ _ hfirst
                obtain ⟨taken, htaken, hstands, hhead⟩ := h.exists_unmarked hp hzero hfirst
                rw [htaken]
                exact (ih behind.length (hsize ▸ hless) hrest rfl).cons hstands hhead

theorem Reads.untilMarker_of_stops (hp : p.Advances) (h : p.Reads stands)
    (hstops : Stops p stands octets gap) : (p.untilMarker.run octets).outcome = .short gap := by
  obtain ⟨parts, tail, rfl, hparts, hunmarked, hgap⟩ := hstops
  induction parts with
  | nil =>
      rcases hgap with ⟨rfl | rfl, rfl⟩ | ⟨hne, hhead, hshort⟩
      · rfl
      · rfl
      · obtain ⟨octet, rest, rfl⟩ := List.exists_cons_of_ne_nil hne
        have hzero : octet ≠ 0 := fun h => hhead (congrArg some h)
        change (p.untilMarker.run (octet :: rest)).outcome = _
        rw [untilMarker_cons hp hzero, hshort]
        rfl
  | cons part parts ih =>
      obtain ⟨hfirst, hothers⟩ := List.forall_mem_cons.mp hparts
      obtain ⟨hhead, hheads⟩ := List.forall_mem_cons.mp hunmarked
      change (p.untilMarker.run (part.1 ++ joined parts ++ tail)).outcome = _
      rw [List.append_assoc, h.untilMarker_append hp hfirst hhead]
      exact Outcome.map_eq_short_iff.mpr (ih hothers hheads)

end Loops

theorem behindHeader_definite_short_iff {child : Parse Element} {header : Header} {seen : Octets}
    {count : UInt64} (h : header.length = .definite count) :
    ((behindHeader limits child header seen).run octets).outcome = .short gap ↔
      count ≤ limits.maxContentLength ∧ octets.length < count.toNat ∧
        gap = .content count.toNat octets.length := by
  rw [outcome_behindHeader_definite h, ← Limits.checkContentLength_eq_ok_iff]
  cases limits.checkContentLength count with
  | error failure => exact ⟨nofun, nofun⟩
  | ok checked =>
      change ((content count.toNat).run octets).outcome.andThen _ = _ ↔ _
      rw [outcome_content]
      split
      · next hless =>
        constructor
        · rintro ⟨⟩
          exact ⟨rfl, hless, rfl⟩
        · rintro ⟨-, -, rfl⟩
          rfl
      · next hmore =>
        refine iff_of_false ?_ fun h => hmore h.2.1
        intro h
        change Outcome.ended _ _ = _ at h
        unfold Outcome.ended at h
        split at h <;> cases h

theorem behindHeader_open_short_iff {header : Header} {seen : Octets}
    (h : header.length = .indefinite) :
    ((behindHeader limits (elementAt limits depth) header seen).run octets).outcome = .short gap ↔
      Stops (elementAt limits depth) (Derives limits depth) octets gap := by
  have hp := elementAt_advances limits depth
  have hreads := reads_elementAt limits depth
  rw [outcome_behindHeader_indefinite h, Outcome.map_eq_short_iff]
  exact ⟨hreads.stops_of_untilMarker hp, hreads.untilMarker_of_stops hp⟩

/-- A parse of octets runs short exactly where they stop inside an element. -/
theorem elementAt_eq_short_iff (limits : Limits) (depth : Nat) {octets : Octets} {gap : Gap}
    (hne : octets ≠ []) :
    ((elementAt limits depth).run octets).outcome = .short gap ↔
      Unfinished limits depth octets gap := by
  induction depth using depth_induction limits generalizing octets gap with
  | deep depth hdepth =>
      obtain ⟨octet, rest, rfl⟩ := List.exists_cons_of_ne_nil hne
      rw [elementAt_of_lt hdepth]
      refine ⟨nofun, fun h => ?_⟩
      exact absurd h.depth_le (Nat.not_le_of_lt hdepth)
  | level depth hdepth ih =>
      rw [outcome_elementAt hdepth, Outcome.andThen_eq_short_iff, header_eq_short_iff]
      constructor
      · rintro (⟨scan, hstands, rfl⟩ | ⟨⟨⟨identifier, length⟩, seen⟩, behind, hheader, hshort⟩)
        · exact .header hdepth hne hstands
        obtain ⟨rfl, haccepts⟩ := header_eq_done_iff.mp hheader
        cases length with
        | definite count =>
            obtain ⟨hcount, hless, rfl⟩ := (behindHeader_definite_short_iff rfl).mp hshort
            exact .contents hdepth haccepts hcount hless
        | indefinite =>
            obtain ⟨parts, tail, rfl, hparts, hunmarked, hgap⟩ :=
              (behindHeader_open_short_iff rfl).mp hshort
            rcases hgap with ⟨hbegun, rfl⟩ | ⟨htail, hhead, hinner⟩
            · exact .marker hdepth haccepts hparts hunmarked hbegun
            · exact .child hdepth haccepts hparts hunmarked ((ih htail).mp hinner) hhead
      · intro h
        cases h with
        | header _ _ stands => exact .inl ⟨_, stands, rfl⟩
        | contents _ accepted count_le missing =>
            refine .inr ⟨(_, _), _, header_eq_done_iff.mpr ⟨rfl, accepted⟩, ?_⟩
            exact (behindHeader_definite_short_iff rfl).mpr ⟨count_le, missing, rfl⟩
        | marker _ accepted children unmarked begun =>
            refine .inr ⟨(_, _), _, header_eq_done_iff.mpr ⟨rfl, accepted⟩, ?_⟩
            exact (behindHeader_open_short_iff rfl).mpr
              ⟨_, _, rfl, children, unmarked, .inl ⟨begun, rfl⟩⟩
        | child _ accepted children unmarked unfinished head =>
            have hinner := unfinished.ne_nil
            refine .inr ⟨(_, _), _, header_eq_done_iff.mpr ⟨rfl, accepted⟩, ?_⟩
            exact (behindHeader_open_short_iff rfl).mpr
              ⟨_, _, rfl, children, unmarked, .inr ⟨hinner, head, (ih hinner).mpr unfinished⟩⟩

end Parse

end BasicEncoding
