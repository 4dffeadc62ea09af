import BasicEncoding.Parse.Element

/-! What a parse of an element comes to, one equation for each of its parts and without the notes.
The loops over children are told by what they do with the next octets: since every child takes at
least one octet, the bound on their repetitions does not show. -/
namespace BasicEncoding

namespace Outcome

variable {α β γ : Type}

/-- The end with a result that takes nothing more. -/
def ended (result : Except Failure α) (rest : Octets) : Outcome α :=
  match result with
  | .ok value => .done value rest
  | .error failure => .refused failure rest

theorem ended_inj {result result' : Except Failure α} {rest rest' : Octets}
    (h : ended result rest = ended result' rest') : result = result' ∧ rest = rest' := by
  cases result <;> cases result' <;> cases h <;> exact ⟨rfl, rfl⟩

theorem ended_ne_short {result : Except Failure α} {rest : Octets} {gap : Gap} :
    ended result rest ≠ .short gap := by
  cases result <;> exact nofun

theorem map_eq_andThen (f : α → β) (o : Outcome α) :
    o.map f = o.andThen fun value rest => .done (f value) rest := by
  cases o <;> rfl

theorem andThen_assoc (o : Outcome α) (f : α → Octets → Outcome β) (g : β → Octets → Outcome γ) :
    (o.andThen f).andThen g = o.andThen fun value rest => (f value rest).andThen g := by
  cases o <;> rfl

theorem andThen_congr {o : Outcome α} {f g : α → Octets → Outcome β}
    (h : ∀ value rest, o = .done value rest → f value rest = g value rest) :
    o.andThen f = o.andThen g := by
  cases o with
  | done value rest => exact h value rest rfl
  | refused failure rest => rfl
  | short gap => rfl

theorem ended_eq_done_iff {result : Except Failure α} {rest last : Octets} {value : α} :
    ended result rest = .done value last ↔ result = .ok value ∧ rest = last := by
  cases result with
  | ok found => rw [ended, done.injEq, Except.ok.injEq]
  | error failure => exact ⟨nofun, nofun⟩

theorem andThen_eq_done_iff {o : Outcome α} {f : α → Octets → Outcome β} {value : β}
    {rest : Octets} :
    o.andThen f = .done value rest ↔ ∃ v r, o = .done v r ∧ f v r = .done value rest := by
  constructor
  · intro h
    cases o with
    | done v r => exact ⟨v, r, rfl, h⟩
    | refused failure r => cases h
    | short gap => cases h
  · rintro ⟨v, r, rfl, h⟩
    exact h

theorem map_eq_done_iff {f : α → β} {o : Outcome α} {value : β} {rest : Octets} :
    o.map f = .done value rest ↔ ∃ v, o = .done v rest ∧ f v = value := by
  cases o with
  | done v r =>
      rw [map, done.injEq]
      constructor
      · rintro ⟨rfl, rfl⟩
        exact ⟨v, rfl, rfl⟩
      · rintro ⟨w, hw, rfl⟩
        cases hw
        exact ⟨rfl, rfl⟩
  | refused failure r => exact ⟨nofun, nofun⟩
  | short gap => exact ⟨nofun, nofun⟩

theorem andThen_cons_eq_done_iff {o : Outcome α} {more : Octets → Outcome (List α)}
    {values : List α} {rest : Octets} :
    (o.andThen fun value behind => (more behind).map (value :: ·)) = .done values rest ↔
      ∃ value behind others, o = .done value behind ∧ more behind = .done others rest ∧
        values = value :: others := by
  rw [andThen_eq_done_iff]
  constructor
  · rintro ⟨value, behind, hfirst, hmore⟩
    obtain ⟨others, hothers, rfl⟩ := map_eq_done_iff.mp hmore
    exact ⟨value, behind, others, hfirst, hothers, rfl⟩
  · rintro ⟨value, behind, others, hfirst, hothers, rfl⟩
    exact ⟨value, behind, hfirst, map_eq_done_iff.mpr ⟨others, hothers, rfl⟩⟩

end Outcome

namespace Parse

variable {α : Type} {child : Parse Element} {limits : Limits} {depth : Nat}

/-- A parse that does not end with a value before it took an octet. -/
def Advances (p : Parse α) : Prop :=
  ∀ octets value rest, (p.run octets).outcome = .done value rest → rest.length < octets.length

theorem scanHeader_length {scan : HeaderScan} {octets rest : Octets} {found : Header × Octets}
    (h : (scanHeader scan octets).outcome = .done found rest) : rest.length < octets.length := by
  induction octets generalizing scan with
  | nil => cases h
  | cons octet octets ih =>
      rw [List.length_cons]
      unfold scanHeader at h
      split at h
      · have hlater := ih h
        omega
      · cases h
        omega
      · cases h

theorem header_advances : Advances header :=
  fun _ _ _ h => scanHeader_length h

section Loops

variable {p : Parse α}

theorem repeatToEnd_step (n : Nat) (octet : UInt8) (tail : Octets) :
    (repeatToEnd p (n + 1) (octet :: tail)).outcome =
      (p.run (octet :: tail)).outcome.andThen fun value rest =>
        (repeatToEnd p n rest).outcome.map (value :: ·) := by
  rw [repeatToEnd, Reading.outcome_andThen]
  · rfl
  · exact nofun

/-- Any two bounds that cover the octets come to the same. -/
theorem repeatToEnd_bound (hp : p.Advances) {n m : Nat} {octets : Octets}
    (hn : octets.length ≤ n) (hm : octets.length ≤ m) :
    (repeatToEnd p n octets).outcome = (repeatToEnd p m octets).outcome := by
  induction n generalizing m octets with
  | zero =>
      have hnil : octets = [] := List.length_eq_zero_iff.mp (Nat.le_zero.mp hn)
      subst hnil
      cases m <;> rfl
  | succ n ih =>
      cases octets with
      | nil => cases m <;> rfl
      | cons octet tail =>
          cases m with
          | zero => exact absurd hm (Nat.not_succ_le_zero _)
          | succ m =>
              rw [repeatToEnd_step, repeatToEnd_step]
              apply Outcome.andThen_congr
              intro value rest hdone
              have hless := hp _ _ _ hdone
              rw [List.length_cons] at hn hm hless
              have hbound : (repeatToEnd p n rest).outcome = (repeatToEnd p m rest).outcome :=
                ih (by omega) (by omega)
              rw [hbound]

theorem untilEnd_cons (hp : p.Advances) (octet : UInt8) (tail : Octets) :
    (p.untilEnd.run (octet :: tail)).outcome =
      (p.run (octet :: tail)).outcome.andThen fun value rest =>
        (p.untilEnd.run rest).outcome.map (value :: ·) := by
  change (repeatToEnd p (tail.length + 1) (octet :: tail)).outcome = _
  rw [repeatToEnd_step]
  apply Outcome.andThen_congr
  intro value rest hdone
  have hless := hp _ _ _ hdone
  rw [List.length_cons] at hless
  have hbound : (repeatToEnd p tail.length rest).outcome = (p.untilEnd.run rest).outcome :=
    repeatToEnd_bound hp (by omega) (Nat.le_refl _)
  rw [hbound]

theorem repeatToMarker_step (n : Nat) {octet : UInt8} (h : octet ≠ 0) (tail : Octets) :
    (repeatToMarker p (n + 1) (octet :: tail)).outcome =
      (p.run (octet :: tail)).outcome.andThen fun value rest =>
        (repeatToMarker p n rest).outcome.map (value :: ·) := by
  rw [repeatToMarker, Reading.outcome_andThen]
  · rfl
  all_goals simp only [List.cons.injEq, reduceCtorEq, imp_false, h, implies_true,
    not_false_eq_true, false_and]

def behindZero : Octets → Outcome (List α)
  | [] => .short .marker
  | octet :: rest =>
    if octet = 0 then .done [] rest else .refused (.invalidData .markerNotClosed) rest

theorem repeatToMarker_zero (n : Nat) (tail : Octets) :
    (repeatToMarker p n (0 :: tail)).outcome = behindZero tail := by
  cases tail with
  | nil => cases n <;> rfl
  | cons octet rest =>
      by_cases hzero : octet = 0
      · subst hzero
        cases n <;> rfl
      · rw [behindZero, if_neg hzero, repeatToMarker]
        intro hcons
        exact hzero hcons

theorem repeatToMarker_bound (hp : p.Advances) {n m : Nat} {octets : Octets}
    (hn : octets.length ≤ n) (hm : octets.length ≤ m) :
    (repeatToMarker p n octets).outcome = (repeatToMarker p m octets).outcome := by
  induction n generalizing m octets with
  | zero =>
      have hnil : octets = [] := List.length_eq_zero_iff.mp (Nat.le_zero.mp hn)
      subst hnil
      cases m <;> rfl
  | succ n ih =>
      cases octets with
      | nil => cases m <;> rfl
      | cons octet tail =>
          by_cases hzero : octet = 0
          · subst hzero
            rw [repeatToMarker_zero, repeatToMarker_zero]
          · cases m with
            | zero => exact absurd hm (Nat.not_succ_le_zero _)
            | succ m =>
                rw [repeatToMarker_step n hzero, repeatToMarker_step m hzero]
                apply Outcome.andThen_congr
                intro value rest hdone
                have hless := hp _ _ _ hdone
                rw [List.length_cons] at hn hm hless
                have hbound : (repeatToMarker p n rest).outcome =
                    (repeatToMarker p m rest).outcome := ih (by omega) (by omega)
                rw [hbound]

theorem untilMarker_zero (tail : Octets) :
    (p.untilMarker.run (0 :: tail)).outcome = behindZero tail :=
  repeatToMarker_zero _ tail

theorem untilMarker_cons (hp : p.Advances) {octet : UInt8} (h : octet ≠ 0) (tail : Octets) :
    (p.untilMarker.run (octet :: tail)).outcome =
      (p.run (octet :: tail)).outcome.andThen fun value rest =>
        (p.untilMarker.run rest).outcome.map (value :: ·) := by
  change (repeatToMarker p (tail.length + 1) (octet :: tail)).outcome = _
  rw [repeatToMarker_step _ h]
  apply Outcome.andThen_congr
  intro value rest hdone
  have hless := hp _ _ _ hdone
  rw [List.length_cons] at hless
  have hbound : (repeatToMarker p tail.length rest).outcome = (p.untilMarker.run rest).outcome :=
    repeatToMarker_bound hp (by omega) (Nat.le_refl _)
  rw [hbound]

theorem behindZero_eq_done {tail rest : Octets} {values : List α}
    (h : behindZero tail = .done values rest) : values = [] ∧ rest.length < tail.length := by
  cases tail with
  | nil => cases h
  | cons octet tail =>
      by_cases hzero : octet = 0
      · rw [behindZero, if_pos hzero] at h
        cases h
        exact ⟨rfl, Nat.lt_succ_self _⟩
      · rw [behindZero, if_neg hzero] at h
        cases h

theorem untilMarker_advances (hp : p.Advances) : Advances p.untilMarker := by
  intro octets values rest h
  induction hsize : octets.length using Nat.strongRecOn generalizing octets values with
  | ind size ih =>
      cases octets with
      | nil => cases h
      | cons octet tail =>
          rw [List.length_cons] at hsize
          by_cases hzero : octet = 0
          · subst hzero
            rw [untilMarker_zero] at h
            have hless := (behindZero_eq_done h).2
            omega
          · rw [untilMarker_cons hp hzero, Outcome.andThen_cons_eq_done_iff] at h
            obtain ⟨value, between, others, hfirst, hothers, rfl⟩ := h
            have hless := hp _ _ _ hfirst
            rw [List.length_cons] at hless
            have hlater : rest.length < between.length := ih _ (by omega) _ _ hothers rfl
            omega

end Loops

section Parts

variable {identifier : Identifier} {octets contents rest : Octets}

def contentsResult (child : Parse Element) (identifier : Identifier) (octets contents : Octets) :
    Except Failure Element :=
  if identifier.constructed then
    match (child.untilEnd.run contents).outcome with
    | .done children _ =>
      .ok ((Element.ofChildren identifier .definite children).withRaw (octets ++ contents))
    | .refused failure _ => .error failure
    | .short gap => .error (.invalidData (.childOverrun gap.text))
  else
    match Value.decode identifier contents with
    | .ok value =>
      .ok ((Element.bare ⟨identifier.tagClass, false, identifier.number⟩ value "").withRaw
        (octets ++ contents))
    | .error defect => .error (.invalidData defect)

theorem outcome_ofContents :
    ((ofContents child identifier octets contents).run rest).outcome =
      .ended (contentsResult child identifier octets contents) rest := by
  unfold ofContents contentsResult
  split
  · simp only [run_bind, Reading.outcome_andThen, run_pure, constructed, within]
    cases (child.untilEnd.run contents).outcome <;> rfl
  · simp only [run_bind, Reading.outcome_andThen, run_pure, primitive]
    cases Value.decode identifier contents <;> rfl

theorem outcome_requireContentLength (count : UInt64) :
    ((requireContentLength limits count).run octets).outcome =
      .ended (limits.checkContentLength count) octets := by
  unfold requireContentLength require
  cases limits.checkContentLength count <;> rfl

theorem outcome_content (count : Nat) :
    ((content count).run octets).outcome =
      if octets.length < count then .short (.content count octets.length)
      else .done (octets.take count) (octets.drop count) := by
  unfold content
  dsimp only
  rw [List.length_take]
  by_cases h : octets.length < count
  · rw [if_pos h, Nat.min_eq_right (by omega), if_pos h]
  · rw [if_neg h, Nat.min_eq_left (by omega), if_neg (Nat.lt_irrefl count)]

theorem outcome_behindHeader_indefinite {header : Header} (h : header.length = .indefinite) :
    ((behindHeader limits child header octets).run rest).outcome =
      (child.untilMarker.run rest).outcome.map (closed header.identifier octets) := by
  rw [behindHeader, h, Outcome.map_eq_andThen]
  dsimp only
  rw [run_bind, Reading.outcome_andThen]
  rfl

theorem outcome_behindHeader_definite {header : Header} {count : UInt64}
    (h : header.length = .definite count) :
    ((behindHeader limits child header octets).run rest).outcome =
      (Outcome.ended (limits.checkContentLength count) rest).andThen fun _ rest =>
        ((content count.toNat).run rest).outcome.andThen fun contents rest =>
          .ended (contentsResult child header.identifier octets contents) rest := by
  rw [behindHeader, h]
  simp only [run_bind, Reading.outcome_andThen, outcome_requireContentLength, outcome_ofContents]

end Parts

section Levels

theorem element_advances (limits : Limits) (levels depth : Nat) :
    Advances (element limits levels depth) := by
  induction levels generalizing depth with
  | zero =>
      intro octets value rest h
      cases octets <;> cases h
  | succ levels ih =>
      intro octets value rest h
      rw [element, run_bind, Reading.outcome_andThen, Outcome.andThen_eq_done_iff] at h
      obtain ⟨found, behind, hheader, h⟩ := h
      have hless := header_advances _ _ _ hheader
      suffices hle : rest.length ≤ behind.length by omega
      rw [run_bind, run_note, Reading.outcome_andThen] at h
      change ((behindHeader limits (element limits levels (depth + 1)) found.1 found.2).run
        behind).outcome = _ at h
      cases hlength : found.1.length with
      | indefinite =>
          rw [outcome_behindHeader_indefinite hlength] at h
          obtain ⟨children, hchildren, rfl⟩ := Outcome.map_eq_done_iff.mp h
          exact Nat.le_of_lt (untilMarker_advances (ih (depth + 1)) _ _ _ hchildren)
      | definite count =>
          rw [outcome_behindHeader_definite hlength] at h
          obtain ⟨_, checked, hcheck, h⟩ := Outcome.andThen_eq_done_iff.mp h
          obtain ⟨contents, last, hcontents, h⟩ := Outcome.andThen_eq_done_iff.mp h
          have hlast := (Outcome.ended_eq_done_iff.mp h).2
          have hchecked := (Outcome.ended_eq_done_iff.mp hcheck).2
          rw [outcome_content] at hcontents
          split at hcontents
          · cases hcontents
          · cases hcontents
            rw [← hlast, ← hchecked, List.length_drop]
            exact Nat.sub_le _ _

theorem elementAt_advances (limits : Limits) (depth : Nat) : Advances (elementAt limits depth) :=
  element_advances limits _ depth

theorem outcome_elementAt (h : depth ≤ limits.maxDepth.toNat) (octets : Octets) :
    ((elementAt limits depth).run octets).outcome =
      (header.run octets).outcome.andThen fun found rest =>
        ((behindHeader limits (elementAt limits (depth + 1)) found.1 found.2).run rest).outcome := by
  obtain ⟨levels, hlevels⟩ : ∃ levels, limits.levelsFrom depth = levels + 1 :=
    ⟨limits.maxDepth.toNat - depth, by unfold Limits.levelsFrom; omega⟩
  have hnext : limits.levelsFrom (depth + 1) = levels := by
    rw [Limits.levelsFrom_succ, hlevels, Nat.add_sub_cancel]
  rw [elementAt, hlevels, element, elementAt, hnext]
  simp only [run_bind, Reading.outcome_andThen, run_note]
  rfl

theorem elementAt_of_lt (h : limits.maxDepth.toNat < depth) :
    elementAt limits depth = tooDeep limits depth := by
  rw [elementAt, Limits.levelsFrom_eq_zero_iff.mpr h, element]

end Levels

end Parse

end BasicEncoding
