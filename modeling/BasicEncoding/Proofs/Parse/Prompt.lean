import BasicEncoding.Proofs.Parse.Outcome

/-! What a parse takes decides what it comes to. The octets in front of a result give it with
anything behind them, and none of their beginnings gives one. A parse without a result is short of
octets. -/
namespace BasicEncoding

namespace Outcome

variable {α β : Type}

/-- Octets that decide a result: what follows them is left alone, and cut short anywhere they leave
the result open. -/
structure Decides (f : Octets → Outcome α) (taken : Octets) (result : Except Failure α) : Prop where
  whole : ∀ more, f (taken ++ more) = ended result more
  cut : ∀ part lost, taken = part ++ lost → lost ≠ [] → ∃ gap, f part = .short gap

/-- A result that is reached, if any, is decided by octets from the front. -/
def Prompt (f : Octets → Outcome α) (octets : Octets) : Prop :=
  ∀ result rest, f octets = ended result rest →
    ∃ taken, octets = taken ++ rest ∧ Decides f taken result

theorem exists_ended_or_short (o : Outcome α) :
    (∃ result rest, o = ended result rest) ∨ ∃ gap, o = .short gap := by
  cases o with
  | done value rest => exact .inl ⟨.ok value, rest, rfl⟩
  | refused failure rest => exact .inl ⟨.error failure, rest, rfl⟩
  | short gap => exact .inr ⟨gap, rfl⟩

theorem prompt_short {f : Octets → Outcome α} {octets : Octets} {gap : Gap}
    (h : f octets = .short gap) : Prompt f octets := by
  intro result rest hended
  rw [h] at hended
  cases result <;> cases hended

namespace Decides

variable {f g : Octets → Outcome α} {taken behind : Octets} {result : Except Failure α}

theorem nil (result : Except Failure α) : Decides (ended result) [] result := by
  refine ⟨fun _ => rfl, ?_⟩
  intro part lost h hlost
  exact absurd (List.append_eq_nil_iff.mp h.symm).2 hlost

theorem cons {octet : UInt8} (hstart : ∃ gap, f [] = .short gap)
    (hstep : ∀ octets, f (octet :: octets) = g octets) (h : Decides g taken result) :
    Decides f (octet :: taken) result := by
  constructor
  · intro more
    rw [List.cons_append, hstep, h.whole]
  · intro part lost htaken hlost
    cases part with
    | nil => exact hstart
    | cons first part =>
        rw [List.cons_append, List.cons.injEq] at htaken
        rw [← htaken.1, hstep]
        exact h.cut part lost htaken.2 hlost

theorem ne_nil (hstart : ∃ gap, f [] = .short gap) (h : Decides f taken result) : taken ≠ [] := by
  rintro rfl
  obtain ⟨gap, hgap⟩ := hstart
  have hwhole := h.whole []
  rw [List.append_nil, hgap] at hwhole
  cases result <;> cases hwhole

/-- The same parse as far as octets in front begin alike. -/
theorem congr {octet : UInt8} (hstart : ∃ gap, f [] = .short gap)
    (hsame : ∀ octets, f (octet :: octets) = g (octet :: octets))
    (h : Decides g (octet :: taken) result) : Decides f (octet :: taken) result := by
  constructor
  · intro more
    rw [List.cons_append, hsame, ← List.cons_append, h.whole]
  · intro part lost htaken hlost
    cases part with
    | nil => exact hstart
    | cons first part =>
        have hfirst : octet = first := (List.cons.inj htaken).1
        rw [← hfirst, hsame, hfirst]
        exact h.cut (first :: part) lost htaken hlost

variable {next : α → Octets → Outcome β}

theorem andThen_error {failure : Failure} (h : Decides f taken (.error failure)) :
    Decides (fun octets => (f octets).andThen next) taken (.error failure) := by
  constructor
  · intro more
    rw [h.whole]
    rfl
  · intro part lost htaken hlost
    obtain ⟨gap, hgap⟩ := h.cut part lost htaken hlost
    exact ⟨gap, by rw [hgap]; rfl⟩

/-- One after the other, what each of two decides decides both. -/
theorem andThen_ok {value : α} {result : Except Failure β} (h : Decides f taken (.ok value))
    (hnext : Decides (next value) behind result) :
    Decides (fun octets => (f octets).andThen next) (taken ++ behind) result := by
  have hwhole : ∀ more, (f (taken ++ more)).andThen next = next value more := by
    intro more
    rw [h.whole]
    rfl
  constructor
  · intro more
    rw [List.append_assoc, hwhole, hnext.whole]
  · intro part lost htaken hlost
    rcases List.append_eq_append_iff.mp htaken with ⟨more, rfl, hmore⟩ | ⟨more, hmore, rfl⟩
    · rw [hwhole]
      exact hnext.cut more lost hmore hlost
    · cases more with
      | nil =>
          rw [List.append_nil] at hmore
          rw [← hmore, ← List.append_nil taken, hwhole]
          exact hnext.cut [] behind rfl hlost
      | cons octet more =>
          obtain ⟨gap, hgap⟩ := h.cut part (octet :: more) hmore (List.cons_ne_nil _ _)
          exact ⟨gap, by rw [hgap]; rfl⟩

end Decides

variable {f : Octets → Outcome α} {next : α → Octets → Outcome β} {octets : Octets}

theorem prompt_ended (result : Except Failure α) (octets : Octets) :
    Prompt (ended result) octets := by
  intro result' rest h
  obtain ⟨rfl, rfl⟩ := ended_inj h
  exact ⟨[], rfl, .nil result⟩

theorem Prompt.andThen (h : Prompt f octets)
    (hnext : ∀ value rest, f octets = .done value rest → Prompt (next value) rest) :
    Prompt (fun octets => (f octets).andThen next) octets := by
  intro result rest hended
  dsimp only at hended
  cases hf : f octets with
  | short gap =>
      rw [hf] at hended
      cases result <;> cases hended
  | refused failure behind =>
      rw [hf] at hended
      have hsame : ended (.error failure) behind = ended result rest := hended
      obtain ⟨rfl, rfl⟩ := ended_inj hsame
      obtain ⟨taken, htaken, hdecides⟩ := h (.error failure) behind hf
      exact ⟨taken, htaken, hdecides.andThen_error⟩
  | done value behind =>
      rw [hf] at hended
      obtain ⟨taken, htaken, hdecides⟩ := h (.ok value) behind hf
      obtain ⟨more, hmore, hlater⟩ := hnext value behind hf result rest hended
      refine ⟨taken ++ more, ?_, hdecides.andThen_ok hlater⟩
      rw [htaken, hmore, List.append_assoc]

theorem Prompt.map (h : Prompt f octets) (g : α → β) :
    Prompt (fun octets => (f octets).map g) octets := by
  have hmap : (fun octets => (f octets).map g) = fun octets =>
      (f octets).andThen fun value => ended (.ok (g value)) := by
    funext octets
    exact map_eq_andThen g (f octets)
  rw [hmap]
  exact h.andThen fun value rest _ => prompt_ended _ rest

theorem Prompt.cons {f g : Octets → Outcome α} {octet : UInt8} (hstart : ∃ gap, f [] = .short gap)
    (hstep : ∀ octets, f (octet :: octets) = g octets) (h : Prompt g octets) :
    Prompt f (octet :: octets) := by
  intro result rest hended
  rw [hstep] at hended
  obtain ⟨taken, htaken, hdecides⟩ := h result rest hended
  exact ⟨octet :: taken, by rw [htaken, List.cons_append], hdecides.cons hstart hstep⟩

end Outcome

namespace Parse

open Outcome

variable {α : Type} {p : Parse α} {limits : Limits} {depth : Nat}

/-- A parse that needs an octet to begin with, and of which every result is decided by what was
taken. -/
structure Prompt (p : Parse α) : Prop where
  start : ∃ gap, (p.run []).outcome = .short gap
  prompt : ∀ octets, Outcome.Prompt (fun octets => (p.run octets).outcome) octets

theorem prompt_scanHeader (scan : HeaderScan) (octets : Octets) :
    Outcome.Prompt (fun octets => (scanHeader scan octets).outcome) octets := by
  induction octets generalizing scan with
  | nil => exact prompt_short rfl
  | cons octet octets ih =>
      rcases hpush : scan.push octet with ⟨defect | found, next⟩
      · refine .cons ⟨_, rfl⟩ (fun octets => ?_)
          (prompt_ended (.error (.invalidData defect)) octets)
        rw [scanHeader, hpush]
        rfl
      · cases found with
        | none =>
            refine .cons ⟨_, rfl⟩ (fun octets => ?_) (ih next)
            rw [scanHeader, hpush]
        | some header =>
            refine .cons ⟨_, rfl⟩ (fun octets => ?_)
              (prompt_ended (.ok (header, next.octets)) octets)
            rw [scanHeader, hpush]
            rfl

theorem prompt_content (count : Nat) (octets : Octets) :
    Outcome.Prompt (fun octets => ((content count).run octets).outcome) octets := by
  intro result rest hended
  dsimp only at hended
  rw [outcome_content] at hended
  split at hended
  · cases result <;> cases hended
  · next hlong =>
    have hsame : ended (.ok (octets.take count)) (octets.drop count) = ended result rest := hended
    obtain ⟨rfl, rfl⟩ := ended_inj hsame
    have hcount : (octets.take count).length = count :=
      List.length_take_of_le (Nat.le_of_not_lt hlong)
    refine ⟨octets.take count, (List.take_append_drop count octets).symm, ?_, ?_⟩
    · intro more
      have hrun := run_content_append (octets.take count) more
      rw [hcount] at hrun
      rw [hrun]
      rfl
    · intro part lost htaken hlost
      have hpos := List.length_pos_iff.mpr hlost
      have hlength := congrArg List.length htaken
      rw [hcount, List.length_append] at hlength
      rw [outcome_content, if_pos (by omega)]
      exact ⟨_, rfl⟩

theorem prompt_behindZero (octets : Octets) :
    Outcome.Prompt (behindZero : Octets → Outcome (List α)) octets := by
  cases octets with
  | nil => exact prompt_short rfl
  | cons octet octets =>
      by_cases hzero : octet = 0
      · exact .cons ⟨_, rfl⟩ (fun octets => if_pos hzero) (prompt_ended (.ok []) octets)
      · exact .cons ⟨_, rfl⟩ (fun octets => if_neg hzero)
          (prompt_ended (.error (.invalidData .markerNotClosed)) octets)

/-- Repeating a prompt parse up to a marker is prompt: every child is decided before the next one
is begun. -/
theorem Prompt.untilMarker (hp : p.Advances) (h : p.Prompt) (octets : Octets) :
    Outcome.Prompt (fun octets => (p.untilMarker.run octets).outcome) octets := by
  induction hsize : octets.length using Nat.strongRecOn generalizing octets with
  | ind size ih =>
      cases octets with
      | nil => exact prompt_short rfl
      | cons octet tail =>
          by_cases hzero : octet = 0
          · subst hzero
            exact .cons ⟨_, rfl⟩ untilMarker_zero (prompt_behindZero tail)
          · have hstep := untilMarker_cons hp hzero
            intro result rest hended
            dsimp only at hended
            rw [hstep] at hended
            have hnext : Outcome.Prompt (fun octets => (p.run octets).outcome.andThen
                fun value rest => (p.untilMarker.run rest).outcome.map (value :: ·))
                (octet :: tail) := by
              apply Outcome.Prompt.andThen (h.prompt _)
              intro value behind hdone
              have hless := hp _ _ _ hdone
              exact (ih behind.length (by omega) behind rfl).map (value :: ·)
            obtain ⟨taken, htaken, hdecides⟩ := hnext result rest hended
            obtain ⟨gap, hgap⟩ := h.start
            have hne := hdecides.ne_nil ⟨gap, by rw [hgap]; rfl⟩
            cases taken with
            | nil => exact absurd rfl hne
            | cons first taken =>
                obtain ⟨rfl, -⟩ := List.cons.inj htaken
                exact ⟨octet :: taken, htaken, hdecides.congr ⟨_, rfl⟩ hstep⟩

theorem prompt_tooDeep (limits : Limits) (depth : Nat) : (tooDeep limits depth).Prompt := by
  refine ⟨⟨_, rfl⟩, ?_⟩
  intro octets
  cases octets with
  | nil => exact prompt_short rfl
  | cons octet octets =>
      exact .cons ⟨_, rfl⟩ (fun _ => rfl)
        (prompt_ended (.error (.depthLimit limits.maxDepth)) octets)

theorem Prompt.behindHeader {child : Parse Element} (hp : child.Advances) (h : child.Prompt)
    (header : Header) (seen octets : Octets) :
    Outcome.Prompt
      (fun octets => ((behindHeader limits child header seen).run octets).outcome) octets := by
  cases hlength : header.length with
  | indefinite =>
      simp only [outcome_behindHeader_indefinite hlength]
      exact (h.untilMarker hp octets).map _
  | definite count =>
      simp only [outcome_behindHeader_definite hlength]
      apply Outcome.Prompt.andThen (prompt_ended _ octets)
      intro _ checked _
      apply Outcome.Prompt.andThen (prompt_content count.toNat checked)
      intro contents behind _
      exact prompt_ended _ behind

/-- What holds of elements beyond the depth limit, and of elements at a depth if it does a level
deeper, holds at every depth. -/
theorem depth_induction {motive : Nat → Prop} (limits : Limits)
    (deep : ∀ depth, limits.maxDepth.toNat < depth → motive depth)
    (level : ∀ depth, depth ≤ limits.maxDepth.toNat → motive (depth + 1) → motive depth)
    (depth : Nat) : motive depth := by
  induction hlevels : limits.levelsFrom depth generalizing depth with
  | zero => exact deep depth (Limits.levelsFrom_eq_zero_iff.mp hlevels)
  | succ levels ih =>
      apply level
      · unfold Limits.levelsFrom at hlevels
        omega
      · apply ih
        rw [Limits.levelsFrom_succ, hlevels, Nat.add_sub_cancel]

theorem prompt_elementAt (limits : Limits) (depth : Nat) : (elementAt limits depth).Prompt := by
  induction depth using depth_induction limits with
  | deep depth hdepth =>
      rw [elementAt_of_lt hdepth]
      exact prompt_tooDeep limits depth
  | level depth hdepth ih =>
      constructor
      · rw [outcome_elementAt hdepth]
        exact ⟨_, rfl⟩
      · intro octets
        simp only [outcome_elementAt hdepth]
        apply Outcome.Prompt.andThen (prompt_scanHeader .start octets)
        intro found behind _
        exact ih.behindHeader (elementAt_advances limits _) found.1 found.2 behind

end Parse

end BasicEncoding
