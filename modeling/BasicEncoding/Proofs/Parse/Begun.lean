import BasicEncoding.Proofs.Parse.Prompt

/-! What a parse of an element comes to once an octet is there. It does not speak of the input: it
refuses the octets for what they are, or it runs short somewhere behind the first of them. -/
namespace BasicEncoding

/-- A failure that lies in the octets and in the limits, whatever may follow. -/
def Failure.Refusal : Failure → Prop
  | .invalidData _ | .depthLimit _ | .lengthLimit _ _ => True
  | _ => False

namespace Outcome

variable {α β : Type}

/-- An outcome that can be reached behind a first octet. -/
def Begun : Outcome α → Prop
  | .done _ _ => True
  | .refused failure _ => failure.Refusal
  | .short gap => gap ≠ .start

theorem Begun.andThen {o : Outcome α} {next : α → Octets → Outcome β} (h : o.Begun)
    (hnext : ∀ value rest, o = .done value rest → (next value rest).Begun) :
    (o.andThen next).Begun := by
  cases o with
  | done value rest => exact hnext value rest rfl
  | refused failure rest => exact h
  | short gap => exact h

theorem Begun.map {o : Outcome α} (h : o.Begun) (f : α → β) : (o.map f).Begun := by
  cases o with
  | done value rest => trivial
  | refused failure rest => exact h
  | short gap => exact h

theorem begun_ended {result : Except Failure α}
    (h : ∀ failure, result = .error failure → failure.Refusal) (rest : Octets) :
    (ended result rest).Begun := by
  cases result with
  | ok value => trivial
  | error failure => exact h failure rfl

end Outcome

namespace HeaderScan

variable {s t : HeaderScan} {octet : UInt8} {length : Option Length}

theorem stage_pushIdentifier (s : HeaderScan) (octet : UInt8) :
    (s.pushIdentifier octet).stage ≠ .identifier := by
  unfold pushIdentifier
  dsimp only
  split <;> exact nofun

theorem stage_pushTagNumber (hs : s.stage ≠ .identifier) (h : s.pushTagNumber octet = .ok t) :
    t.stage ≠ .identifier := by
  unfold pushTagNumber at h
  split at h
  · cases h
  · dsimp only at h
    cases h
    split
    · exact nofun
    · exact hs

theorem stage_pushLengthStart (hs : s.stage ≠ .identifier)
    (h : s.pushLengthStart octet = .ok (length, t)) : t.stage ≠ .identifier := by
  unfold pushLengthStart at h
  dsimp only at h
  repeat' split at h
  all_goals cases h
  all_goals first | exact hs | exact nofun

theorem stage_pushLengthOctet {remaining : Nat} (hs : s.stage ≠ .identifier)
    (h : s.pushLengthOctet remaining octet = .ok (length, t)) : t.stage ≠ .identifier := by
  unfold pushLengthOctet at h
  dsimp only at h
  repeat' split at h
  all_goals cases h
  all_goals first | exact hs | exact nofun

theorem stage_finish {pushed : Except Defect (Option Length × HeaderScan)}
    (hs : s.stage ≠ .identifier)
    (h : ∀ length t, pushed = .ok (length, t) → t.stage ≠ .identifier) :
    (push.finish s pushed).2.stage ≠ .identifier := by
  cases pushed with
  | error defect => exact hs
  | ok found => exact h found.1 found.2 rfl

theorem stage_push (s : HeaderScan) (octet : UInt8) : (s.push octet).2.stage ≠ .identifier := by
  unfold push
  dsimp only
  split
  · exact stage_pushIdentifier _ _
  · next hstage =>
    have hs : ({ s with seen := octet :: s.seen } : HeaderScan).stage ≠ .identifier := by
      rw [hstage]
      exact nofun
    split
    · next hok => exact stage_pushTagNumber hs hok
    · exact hs
  · next hstage =>
    have hs : ({ s with seen := octet :: s.seen } : HeaderScan).stage ≠ .identifier := by
      rw [hstage]
      exact nofun
    exact stage_finish hs fun _ _ hok => stage_pushLengthStart hs hok
  · next remaining hstage =>
    have hs : ({ s with seen := octet :: s.seen } : HeaderScan).stage ≠ .identifier := by
      rw [hstage]
      exact nofun
    exact stage_finish hs fun _ _ hok => stage_pushLengthOctet hs hok

end HeaderScan

namespace Parse

open Outcome

variable {child : Parse Element} {limits : Limits} {depth : Nat}

theorem begun_scanHeader {scan : HeaderScan} (h : scan.stage ≠ .identifier) (octets : Octets) :
    (scanHeader scan octets).outcome.Begun := by
  induction octets generalizing scan with
  | nil =>
      intro (hgap : Gap.header scan.stage = .header .identifier)
      exact h (Gap.header.inj hgap)
  | cons octet octets ih =>
      have hstage := HeaderScan.stage_push scan octet
      unfold scanHeader
      split
      · next next hpush =>
        rw [hpush] at hstage
        exact ih hstage
      · trivial
      · trivial

theorem begun_header (octet : UInt8) (octets : Octets) :
    (header.run (octet :: octets)).outcome.Begun :=
  begun_scanHeader (HeaderScan.stage_pushIdentifier _ octet) octets

/-- What a parse does that runs short ahead of a first octet only. -/
def Begins (p : Parse α) : Prop :=
  ∀ octet octets, (p.run (octet :: octets)).outcome.Begun

theorem Begins.untilEnd {p : Parse α} (hp : p.Advances) (h : p.Begins) (octets : Octets) :
    (p.untilEnd.run octets).outcome.Begun := by
  induction hsize : octets.length using Nat.strongRecOn generalizing octets with
  | ind size ih =>
      cases octets with
      | nil => trivial
      | cons octet tail =>
          rw [untilEnd_cons hp]
          apply (h octet tail).andThen
          intro value rest hdone
          have hless := hp _ _ _ hdone
          exact (ih rest.length (by omega) rest rfl).map _

theorem begun_behindZero (octets : Octets) : (behindZero octets : Outcome (List α)).Begun := by
  cases octets with
  | nil => exact nofun
  | cons octet tail =>
      rw [behindZero]
      split <;> trivial

theorem Begins.untilMarker {p : Parse α} (hp : p.Advances) (h : p.Begins) (octets : Octets) :
    (p.untilMarker.run octets).outcome.Begun := by
  induction hsize : octets.length using Nat.strongRecOn generalizing octets with
  | ind size ih =>
      cases octets with
      | nil => exact nofun
      | cons octet tail =>
          by_cases hzero : octet = 0
          · rw [hzero, untilMarker_zero]
            exact begun_behindZero tail
          · rw [untilMarker_cons hp hzero]
            apply (h octet tail).andThen
            intro value rest hdone
            have hless := hp _ _ _ hdone
            exact (ih rest.length (by omega) rest rfl).map _

theorem begun_content (count : Nat) (octets : Octets) :
    ((content count).run octets).outcome.Begun := by
  rw [outcome_content]
  split
  · exact nofun
  · trivial

theorem refusal_checkContentLength {count : UInt64} {failure : Failure}
    (h : limits.checkContentLength count = .error failure) : failure.Refusal := by
  unfold Limits.checkContentLength at h
  split at h
  · cases h
    trivial
  · cases h

theorem refusal_contentsResult (hp : child.Advances) (h : child.Begins) {identifier : Identifier}
    {octets contents : Octets} {failure : Failure}
    (hfailed : contentsResult child identifier octets contents = .error failure) :
    failure.Refusal := by
  have hchildren := h.untilEnd hp contents
  unfold contentsResult at hfailed
  split at hfailed
  · split at hfailed
    · cases hfailed
    · next failure' _ hrefused =>
      rw [hrefused] at hchildren
      cases hfailed
      exact hchildren
    · cases hfailed
      trivial
  · split at hfailed
    · cases hfailed
    · cases hfailed
      trivial

theorem Begins.behindHeader (hp : child.Advances) (h : child.Begins) (header : Header)
    (seen octets : Octets) :
    ((behindHeader limits child header seen).run octets).outcome.Begun := by
  cases hlength : header.length with
  | indefinite =>
      rw [outcome_behindHeader_indefinite hlength]
      exact (h.untilMarker hp octets).map _
  | definite count =>
      rw [outcome_behindHeader_definite hlength]
      apply (begun_ended (fun _ => refusal_checkContentLength) octets).andThen
      intro _ checked _
      apply (begun_content count.toNat checked).andThen
      intro contents behind _
      exact begun_ended (fun _ => refusal_contentsResult hp h) behind

/-- An element that is begun is given, refused for what it is, or cut short behind its first
octet. -/
theorem begins_elementAt (limits : Limits) (depth : Nat) : (elementAt limits depth).Begins := by
  induction depth using depth_induction limits with
  | deep depth hdepth =>
      rw [elementAt_of_lt hdepth]
      exact fun _ _ => trivial
  | level depth hdepth ih =>
      intro octet octets
      rw [outcome_elementAt hdepth]
      apply (begun_header octet octets).andThen
      intro found behind _
      exact ih.behindHeader (elementAt_advances limits _) found.1 found.2 behind

theorem elementAt_nil (limits : Limits) (depth : Nat) :
    ((elementAt limits depth).run []).outcome = .short .start := by
  by_cases hdepth : depth ≤ limits.maxDepth.toNat
  · rw [outcome_elementAt hdepth]
    rfl
  · rw [elementAt_of_lt (Nat.lt_of_not_le hdepth)]
    rfl

theorem refusal_elementAt {octets rest : Octets} {failure : Failure}
    (h : ((elementAt limits depth).run octets).outcome = .refused failure rest) :
    failure.Refusal := by
  cases octets with
  | nil =>
      rw [elementAt_nil] at h
      cases h
  | cons octet octets =>
      have hbegun := begins_elementAt limits depth octet octets
      rw [h] at hbegun
      exact hbegun

end Parse

end BasicEncoding
