import BasicEncoding.Proofs.Element.Nodes
import BasicEncoding.Proofs.Grammar.Acceptance
import BasicEncoding.Proofs.Parse.Begun

/-! What limits do to a reading. They bound the depth of every node and the contents of those with a
length given, and a reading that is not refused by a limit comes to the same under any limits that
are no stricter. -/
namespace BasicEncoding

/-- Limits that are no stricter stand on the right. -/
instance : LE Limits :=
  ⟨fun l l' => l.maxDepth ≤ l'.maxDepth ∧ l.maxContentLength ≤ l'.maxContentLength⟩

def Failure.isLimit : Failure → Bool
  | .depthLimit _ => true
  | .lengthLimit _ _ => true
  | _ => false

def Limited {α : Type} (result : Except Failure α) : Prop :=
  ∃ failure, result = .error failure ∧ failure.isLimit

namespace Outcome

variable {α β : Type}

/-- A second outcome is the first, unless a limit refused that. -/
def Relaxes (o o' : Outcome α) : Prop :=
  (∃ failure rest, o = .refused failure rest ∧ failure.isLimit) ∨ o' = o

theorem Relaxes.refl (o : Outcome α) : o.Relaxes o :=
  .inr rfl

theorem Relaxes.andThen {o o' : Outcome α} {f f' : α → Octets → Outcome β} (h : o.Relaxes o')
    (hnext : ∀ value rest, o = .done value rest → (f value rest).Relaxes (f' value rest)) :
    (o.andThen f).Relaxes (o'.andThen f') := by
  rcases h with ⟨failure, rest, rfl, hlimit⟩ | rfl
  · exact .inl ⟨failure, rest, rfl, hlimit⟩
  · cases o' with
    | done value rest => exact hnext value rest rfl
    | refused failure rest => exact .refl _
    | short gap => exact .refl _

theorem Relaxes.map {o o' : Outcome α} (h : o.Relaxes o') (f : α → β) :
    (o.map f).Relaxes (o'.map f) := by
  rw [map_eq_andThen, map_eq_andThen]
  exact h.andThen fun _ _ _ => .refl _

theorem relaxes_ended {result result' : Except Failure α} (rest : Octets)
    (h : Limited result ∨ result' = result) : (ended result rest).Relaxes (ended result' rest) := by
  rcases h with ⟨failure, rfl, hlimit⟩ | rfl
  · exact .inl ⟨failure, rest, rfl, hlimit⟩
  · exact .refl _

end Outcome

namespace Parse

variable {α : Type} {p p' : Parse α} {c c' : Limits}

def Relaxes (p p' : Parse α) : Prop :=
  ∀ octets, (p.run octets).outcome.Relaxes (p'.run octets).outcome

theorem Relaxes.untilEnd (hp : p.Advances) (hp' : p'.Advances) (h : p.Relaxes p') :
    p.untilEnd.Relaxes p'.untilEnd := by
  intro octets
  induction hsize : octets.length using Nat.strongRecOn generalizing octets with
  | ind size ih =>
      cases octets with
      | nil => exact .refl _
      | cons octet tail =>
          rw [untilEnd_cons hp, untilEnd_cons hp']
          apply (h (octet :: tail)).andThen
          intro value rest hdone
          have hless := hp _ _ _ hdone
          exact (ih rest.length (by omega) rest rfl).map (value :: ·)

theorem Relaxes.untilMarker (hp : p.Advances) (hp' : p'.Advances) (h : p.Relaxes p') :
    p.untilMarker.Relaxes p'.untilMarker := by
  intro octets
  induction hsize : octets.length using Nat.strongRecOn generalizing octets with
  | ind size ih =>
      cases octets with
      | nil => exact .refl _
      | cons octet tail =>
          by_cases hzero : octet = 0
          · subst hzero
            rw [untilMarker_zero, untilMarker_zero]
            exact .refl _
          · rw [untilMarker_cons hp hzero, untilMarker_cons hp' hzero]
            apply (h (octet :: tail)).andThen
            intro value rest hdone
            have hless := hp _ _ _ hdone
            exact (ih rest.length (by omega) rest rfl).map (value :: ·)

theorem relaxes_checkContentLength (h : c ≤ c') (count : UInt64) :
    Limited (c.checkContentLength count) ∨
      c'.checkContentLength count = c.checkContentLength count := by
  by_cases hcount : count ≤ c.maxContentLength
  · have hlooser : count ≤ c'.maxContentLength := UInt64.le_trans hcount h.2
    rw [Limits.checkContentLength_eq_ok_iff.mpr hcount,
      Limits.checkContentLength_eq_ok_iff.mpr hlooser]
    exact .inr rfl
  · exact .inl ⟨_, if_pos (UInt64.not_le.mp hcount), rfl⟩

section Children

variable {child child' : Parse Element} (hp : child.Advances) (hp' : child'.Advances)
  (h : child.Relaxes child')
include hp hp' h

theorem relaxes_contentsResult (identifier : Identifier) (seen contents : Octets) :
    Limited (contentsResult child identifier seen contents) ∨
      contentsResult child' identifier seen contents =
        contentsResult child identifier seen contents := by
  unfold contentsResult
  split
  · rcases h.untilEnd hp hp' contents with ⟨failure, rest, hrefused, hlimit⟩ | hsame
    · rw [hrefused]
      exact .inl ⟨failure, rfl, hlimit⟩
    · rw [hsame]
      exact .inr rfl
  · exact .inr rfl

theorem relaxes_behindHeader (hlimits : c ≤ c') (header : Header) (seen : Octets) :
    (behindHeader c child header seen).Relaxes (behindHeader c' child' header seen) := by
  intro octets
  cases hlength : header.length with
  | indefinite =>
      rw [outcome_behindHeader_indefinite hlength, outcome_behindHeader_indefinite hlength]
      exact (h.untilMarker hp hp' octets).map _
  | definite count =>
      rw [outcome_behindHeader_definite hlength, outcome_behindHeader_definite hlength]
      apply (Outcome.relaxes_ended octets (relaxes_checkContentLength hlimits count)).andThen
      intro _ checked _
      apply (Outcome.Relaxes.refl _).andThen
      intro contents behind _
      exact Outcome.relaxes_ended behind (relaxes_contentsResult hp hp' h _ _ _)

end Children

/-- Elements at a depth come to what they do under other limits, unless a limit refuses them. -/
theorem relaxes_elementAt (h : c ≤ c') (depth : Nat) :
    (elementAt c depth).Relaxes (elementAt c' depth) := by
  induction depth using depth_induction c with
  | deep depth hdepth =>
      intro octets
      cases octets with
      | nil =>
          rw [elementAt_nil, elementAt_nil]
          exact .refl _
      | cons octet rest =>
          rw [elementAt_of_lt hdepth]
          exact .inl ⟨_, rest, rfl, rfl⟩
  | level depth hdepth ih =>
      intro octets
      have hlooser : depth ≤ c'.maxDepth.toNat :=
        Nat.le_trans hdepth (UInt64.le_iff_toNat_le.mp h.1)
      rw [outcome_elementAt hdepth, outcome_elementAt hlooser]
      apply (Outcome.Relaxes.refl _).andThen
      intro found behind _
      exact relaxes_behindHeader (elementAt_advances c _) (elementAt_advances c' _) ih h
        found.1 found.2 behind

end Parse

namespace Source

/-- A read that no limit refuses has the same result under limits that are no stricter, and takes
the same. -/
theorem read_relaxed {c c' : Limits} (h : c ≤ c') (s : Source) :
    Limited (s.read c).result ∨
      (s.read c').result = (s.read c).result ∧ (s.read c').after = (s.read c).after := by
  have hread := read_eq_resolve c s
  have hread' := read_eq_resolve c' s
  rcases Parse.relaxes_elementAt h 0 s.ahead with ⟨failure, rest, hrefused, hlimit⟩ | hsame
  · rw [hrefused] at hread
    exact .inl ⟨failure, (Prod.mk.inj hread).1, hlimit⟩
  · rw [hsame] at hread'
    exact .inr (Prod.mk.inj (hread'.trans hread.symm))

end Source

namespace Element

/-- A node within limits, at a depth and with as many contents as its length allows. -/
structure Within (limits : Limits) (depth : Nat) (e : Element) : Prop where
  depth_le : depth ≤ limits.maxDepth.toNat
  contents_le : e.framing = .definite → ∃ header contents count,
    e.raw = some (header ++ contents) ∧
      HeaderScan.start.Accepts header ⟨e.identifier, .definite count⟩ ∧
      contents.length = count.toNat ∧ count ≤ limits.maxContentLength

theorem within_of_derives {limits : Limits} {depth : Nat} {octets : Octets} {e : Element}
    (h : Derives limits depth octets e) : e.AtNodes (Within limits) depth := by
  refine h.nodes.mono ?_
  rintro d n ⟨raw, -, hnode⟩
  cases hnode with
  | @primitive _ header contents _ count _ depth_le accepted _ count_le length_eq _ =>
      exact ⟨depth_le, fun _ =>
        ⟨header, contents, count, rfl, accepted, length_eq, count_le⟩⟩
  | @definite _ header _ count parts depth_le accepted _ count_le length_eq _ =>
      exact ⟨depth_le, fun _ =>
        ⟨header, joined parts, count, rfl, accepted, length_eq, count_le⟩⟩
  | indefinite depth_le _ _ _ _ => exact ⟨depth_le, nofun⟩

end Element

end BasicEncoding
