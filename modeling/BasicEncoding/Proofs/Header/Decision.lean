import BasicEncoding.Proofs.Header.Spelling

/-! When a header is decided. Zero groups in front of a tag number add nothing to it, so the bound on
the number does not stop them, and a scan goes on as long as they do. But for them, fifteen octets
decide every header. -/
namespace BasicEncoding
namespace HeaderScan

def isPending (s : HeaderScan) : Octets → Bool
  | [] => true
  | octet :: rest =>
    match s.push octet with
    | (.ok none, t) => t.isPending rest
    | _ => false

/-- A group of zeros with more groups behind it. -/
def paddingOctet : UInt8 := 0x80

def marksChain (octet : UInt8) : Bool :=
  octet.toNat % 32 = Identifier.chainMarker

/-- How many zero groups stand in front of the tag number. -/
def padding : Octets → Nat
  | [] => 0
  | octet :: rest =>
    if marksChain octet then (rest.takeWhile (· == paddingOctet)).length else 0

variable {s t : HeaderScan} {octet : UInt8} {octets rest : Octets}

theorem isPending_cons_of_more (h : s.push octet = (.ok none, t)) (rest : Octets) :
    s.isPending (octet :: rest) = t.isPending rest := by
  rw [isPending, h]

theorem exists_more_of_isPending (h : s.isPending (octet :: rest)) :
    ∃ t, s.push octet = (.ok none, t) ∧ t.isPending rest := by
  unfold isPending at h
  split at h
  · next t hpush => exact ⟨t, hpush, h⟩
  · cases h

/-! ### What one octet does in each stage -/

theorem finish_eq_none {pushed : Except Defect (Option Length × HeaderScan)}
    (h : push.finish s pushed = (.ok none, t)) : pushed = .ok (none, t) := by
  cases pushed with
  | error defect => cases h
  | ok found =>
      obtain ⟨length, u⟩ := found
      cases length with
      | none => cases h; rfl
      | some length => cases h

theorem more_identifier (hs : s.stage = .identifier) (h : s.push octet = (.ok none, t)) :
    marksChain octet ∧ t.stage = .tagNumber ∧ t.number = s.number ∨
      ¬marksChain octet ∧ t.stage = .lengthStart := by
  unfold push at h
  dsimp only at h
  rw [hs] at h
  obtain rfl := (Prod.mk.inj h).2
  simp only [marksChain, decide_eq_true_eq]
  unfold pushIdentifier
  dsimp only
  split
  · next hchain => exact .inl ⟨hchain, rfl, rfl⟩
  · next hshort => exact .inr ⟨hshort, rfl⟩

theorem more_tagNumber (hs : s.stage = .tagNumber) (h : s.push octet = (.ok none, t)) :
    s.number < numberBound ∧ (octet < 128 ∧ t.stage = .lengthStart ∨
      ¬octet < 128 ∧ t.stage = .tagNumber ∧
        t.number = s.number * 128 + octet.toNat % 128) := by
  unfold push at h
  dsimp only at h
  rw [hs] at h
  dsimp only at h
  split at h
  · next u hpush =>
    cases h
    unfold pushTagNumber at hpush
    split at hpush
    · cases hpush
    · next hroom =>
      refine ⟨Nat.not_le.mp hroom, ?_⟩
      cases hpush
      dsimp only
      split
      · next hlow => exact .inl ⟨hlow, rfl⟩
      · next hhigh => exact .inr ⟨hhigh, rfl, rfl⟩
  · cases h

theorem more_lengthStart (hs : s.stage = .lengthStart) (h : s.push octet = (.ok none, t)) :
    ∃ n, n < Length.maxOctets ∧ t.stage = .lengthOctets (n + 1) := by
  unfold push at h
  dsimp only at h
  rw [hs] at h
  have hpush := finish_eq_none h
  unfold pushLengthStart at hpush
  dsimp only at hpush
  repeat' split at hpush
  all_goals cases hpush
  next hsome _ hfew =>
    exact ⟨octet.toNat % 128 - 1, by omega, congrArg HeaderStage.lengthOctets (by omega)⟩

theorem more_lengthOctets {n : Nat} (hs : s.stage = .lengthOctets (n + 1))
    (h : s.push octet = (.ok none, t)) : ∃ m, n = m + 1 ∧ t.stage = .lengthOctets (m + 1) := by
  unfold push at h
  dsimp only at h
  rw [hs] at h
  have hpush := finish_eq_none h
  unfold pushLengthOctet at hpush
  dsimp only at hpush
  repeat' split at hpush
  all_goals cases hpush
  next hmore =>
    obtain ⟨m, rfl⟩ := Nat.exists_eq_succ_of_ne_zero (fun hn : n = 0 => hmore (congrArg _ hn))
    exact ⟨m, rfl, rfl⟩

/-! ### How long a stage can go on -/

theorem length_le_of_lengthOctets {n : Nat} (hs : s.stage = .lengthOctets (n + 1))
    (h : s.isPending octets) : octets.length ≤ n := by
  induction octets generalizing s n with
  | nil => exact Nat.zero_le _
  | cons octet rest ih =>
      obtain ⟨t, hpush, hrest⟩ := exists_more_of_isPending h
      obtain ⟨m, rfl, ht⟩ := more_lengthOctets hs hpush
      exact Nat.succ_le_succ (ih ht hrest)

theorem length_le_of_lengthStart (hs : s.stage = .lengthStart) (h : s.isPending octets) :
    octets.length ≤ Length.maxOctets := by
  cases octets with
  | nil => exact Nat.zero_le _
  | cons octet rest =>
      obtain ⟨t, hpush, hrest⟩ := exists_more_of_isPending h
      obtain ⟨n, hn, ht⟩ := more_lengthStart hs hpush
      exact Nat.succ_le_of_lt (Nat.lt_of_le_of_lt (length_le_of_lengthOctets ht hrest) hn)

/-- A tag number that is not zero grows by a place with each group, and its bound has four. -/
theorem length_le_of_place {k : Nat} (hk : k ≤ 4) (hplace : 128 ^ k ≤ s.number)
    (hs : s.stage = .tagNumber) (h : s.isPending octets) :
    octets.length ≤ (4 - k) + Length.maxOctets := by
  induction octets generalizing s k with
  | nil => exact Nat.zero_le _
  | cons octet rest ih =>
      obtain ⟨t, hpush, hrest⟩ := exists_more_of_isPending h
      obtain ⟨hroom, hnext⟩ := more_tagNumber hs hpush
      have hless : k < 4 := by
        rcases Nat.lt_or_eq_of_le hk with hless | rfl
        · exact hless
        · exact absurd hroom (Nat.not_lt.mpr (Nat.le_trans (by decide) hplace))
      rw [List.length_cons]
      rcases hnext with ⟨-, ht⟩ | ⟨-, ht, hnumber⟩
      · have hle := length_le_of_lengthStart ht hrest
        omega
      · have hplace : 128 ^ (k + 1) ≤ t.number := by
          rw [hnumber, Nat.pow_succ]
          omega
        have hle := ih hless hplace ht hrest
        omega

theorem length_le_of_chain (hnumber : s.number = 0) (hs : s.stage = .tagNumber)
    (h : s.isPending octets) :
    octets.length ≤ (octets.takeWhile (· == paddingOctet)).length + 13 := by
  have hmax : Length.maxOctets = 8 := rfl
  induction octets generalizing s with
  | nil => exact Nat.zero_le _
  | cons octet rest ih =>
      obtain ⟨t, hpush, hrest⟩ := exists_more_of_isPending h
      obtain ⟨-, hnext⟩ := more_tagNumber hs hpush
      rw [List.length_cons]
      rcases hnext with ⟨-, ht⟩ | ⟨hhigh, ht, hpushed⟩
      · have hle := length_le_of_lengthStart ht hrest
        omega
      · rw [hnumber, Nat.zero_mul, Nat.zero_add] at hpushed
        by_cases hzero : octet.toNat % 128 = 0
        · have hoctet : octet = paddingOctet :=
            Base128.eq_of_group hzero (iff_of_false hhigh (by decide))
          have hle := ih (hpushed.trans hzero) ht hrest
          have hmatch : (octet == paddingOctet) = true := beq_iff_eq.mpr hoctet
          rw [List.takeWhile_cons, if_pos hmatch, List.length_cons]
          omega
        · have hplace : 128 ^ 0 ≤ t.number := by
            rw [hpushed]
            exact Nat.pos_of_ne_zero hzero
          have hle := length_le_of_place (Nat.zero_le 4) hplace ht hrest
          omega

/-- Fourteen octets, and the padding, are the most that leave a header undecided. -/
theorem length_le_of_isPending (h : start.isPending octets) :
    octets.length ≤ padding octets + 14 := by
  have hmax : Length.maxOctets = 8 := rfl
  cases octets with
  | nil => exact Nat.zero_le _
  | cons octet rest =>
      obtain ⟨t, hpush, hrest⟩ := exists_more_of_isPending h
      rw [List.length_cons, padding]
      rcases more_identifier rfl hpush with ⟨hchain, ht, hnumber⟩ | ⟨-, ht⟩
      · have hle := length_le_of_chain hnumber ht hrest
        rw [if_pos hchain]
        omega
      · have hle := length_le_of_lengthStart ht hrest
        omega

/-! ### Padding -/

/-- Zero groups ahead of the number leave the scan as it was, but for the octets seen. -/
theorem isPending_padded (i : Identifier) (k : Nat) (seen rest : Octets) :
    (inTagNumber i 0 seen).isPending (List.replicate k paddingOctet ++ rest) =
      (inTagNumber i 0 (List.replicate k paddingOctet ++ seen)).isPending rest := by
  induction k generalizing seen with
  | zero => rfl
  | succ k ih =>
      rw [List.replicate_succ, List.cons_append,
        isPending_cons_of_more (push_inTagNumber i (by decide) seen paddingOctet)]
      refine (ih (paddingOctet :: seen)).trans ?_
      rw [List.append_cons, ← List.replicate_succ', List.replicate_succ]

theorem isPending_marked_padded {first : UInt8} (h : marksChain first) (k : Nat) :
    start.isPending (first :: List.replicate k paddingOctet) := by
  obtain ⟨i, low, hlow, rfl⟩ := exists_leadOctet first
  have hchain : low = Identifier.chainMarker := by
    rw [marksChain, decide_eq_true_eq, Identifier.low_leadOctet i hlow] at h
    exact h
  have hpadded := isPending_padded i k [i.leadOctet low] []
  rw [List.append_nil] at hpadded
  rw [isPending_cons_of_more (push_start_leadOctet i hlow), if_pos hchain, hpadded]
  rfl

theorem isPending_of_accepts {header : Header} (h : s.Accepts octets header) :
    s.isPending octets.dropLast := by
  induction h with
  | last _ => rfl
  | more pushed later ih =>
      rw [List.dropLast_cons_of_ne_nil later.ne_nil,
        isPending_cons_of_more pushed]
      exact ih

/-- The bound is met with every padding: the number needs five groups more and the length eight
octets behind their count. -/
theorem exists_accepts_of_padding (k : Nat) :
    ∃ octets header, padding octets = k ∧ octets.length = k + 15 ∧
      start.Accepts octets header ∧ start.isPending octets.dropLast := by
  suffices hexists : ∃ octets header, padding octets = k ∧ octets.length = k + 15 ∧
      start.Accepts octets header by
    obtain ⟨octets, header, hpadding, hlength, haccepts⟩ := hexists
    exact ⟨octets, header, hpadding, hlength, haccepts, isPending_of_accepts haccepts⟩
  refine ⟨0x1F :: (List.replicate k paddingOctet ++ [0x8F, 0xFF, 0xFF, 0xFF, 0x7F]) ++
    [0x88, 0, 0, 0, 0, 0, 0, 0, 0], ⟨.universal false 0xFFFFFFFF, .definite 0⟩, ?_, ?_, ?_⟩
  · have hpadding : ∀ octet ∈ List.replicate k paddingOctet,
        (octet == paddingOctet) = true :=
      fun octet hoctet => beq_iff_eq.mpr (List.eq_of_mem_replicate hoctet)
    rw [List.cons_append, List.append_assoc, padding, if_pos (by decide),
      List.takeWhile_append_of_pos hpadding, List.length_append, List.length_replicate]
    rfl
  · rw [List.length_append, List.length_cons, List.length_append, List.length_replicate]
    rfl
  · have hchain : Base128.IsChain [0x8F, 0xFF, 0xFF, 0xFF, 0x7F] :=
      .more (by decide) (.more (by decide) (.more (by decide) (.more (by decide)
        (.last (by decide)))))
    obtain ⟨hpadded, hvalue⟩ := hchain.padded k
    exact accepts_start.mpr ⟨_, _, rfl, .high hpadded (hvalue.trans (by decide)),
      @Length.Spelled.long [0, 0, 0, 0, 0, 0, 0, 0] nofun (by decide), nofun⟩

/-! ### Endless input -/

def firstOctets (input : Nat → UInt8) (n : Nat) : Octets :=
  (List.range n).map input

theorem firstOctets_succ (input : Nat → UInt8) (n : Nat) :
    firstOctets input (n + 1) = input 0 :: firstOctets (fun k => input (k + 1)) n := by
  rw [firstOctets, List.range_succ_eq_map, List.map_cons, List.map_map]
  rfl

@[simp] theorem length_firstOctets (input : Nat → UInt8) (n : Nat) :
    (firstOctets input n).length = n := by
  rw [firstOctets, List.length_map, List.length_range]

theorem length_takeWhile_le (input : Nat → UInt8) {k : Nat} (h : input k ≠ paddingOctet)
    (n : Nat) : ((firstOctets input n).takeWhile (· == paddingOctet)).length ≤ k := by
  induction k generalizing input n with
  | zero =>
      cases n with
      | zero => exact Nat.le_refl 0
      | succ n =>
          have hother : ¬(input 0 == paddingOctet) = true := fun heq => h (beq_iff_eq.mp heq)
          rw [firstOctets_succ, List.takeWhile_cons, if_neg hother]
          exact Nat.le_refl 0
  | succ k ih =>
      cases n with
      | zero => exact Nat.zero_le _
      | succ n =>
          rw [firstOctets_succ, List.takeWhile_cons]
          split
          · exact Nat.succ_le_succ (ih _ h n)
          · exact Nat.zero_le _

end HeaderScan

namespace Parse

theorem scanHeader_of_isPending {s : HeaderScan} {octets : Octets} (h : s.isPending octets) :
    ∃ stage, (scanHeader s octets).outcome = .short (.header stage) := by
  induction octets generalizing s with
  | nil => exact ⟨s.stage, rfl⟩
  | cons octet rest ih =>
      obtain ⟨t, hpush, hrest⟩ := HeaderScan.exists_more_of_isPending h
      rw [scanHeader_more hpush]
      exact ih hrest

/-- While its header is undecided, an element is neither found nor refused, whatever the limits. -/
theorem elementAt_of_isPending (limits : Limits) {octets : Octets}
    (h : HeaderScan.start.isPending octets) :
    ∃ stage, ((elementAt limits 0).run octets).outcome = .short (.header stage) := by
  obtain ⟨stage, hshort⟩ := scanHeader_of_isPending h
  refine ⟨stage, ?_⟩
  rw [outcome_elementAt (Nat.zero_le _)]
  change (scanHeader .start octets).outcome.andThen _ = _
  rw [hshort]
  rfl

end Parse

namespace HeaderScan

/-- A scan stays undecided for good on a chain of zero groups without end and on no other input. While
it is undecided, it has taken at most fourteen octets besides the zero groups in front of the tag
number, and there are no limits under which a reading is refused. -/
theorem undecided_forever_iff_padded (input : Nat → UInt8) :
    ((∀ n, start.isPending (firstOctets input n)) ↔
      marksChain (input 0) ∧ ∀ n, input (n + 1) = paddingOctet) ∧
    ∀ n, start.isPending (firstOctets input n) →
      n ≤ padding (firstOctets input n) + 14 ∧
      ∀ limits, ∃ stage,
        ((Parse.elementAt limits 0).run (firstOctets input n)).outcome =
          .short (.header stage) := by
  have hbound : ∀ n, start.isPending (firstOctets input n) →
      n ≤ padding (firstOctets input n) + 14 := by
    intro n hpending
    have hle := length_le_of_isPending hpending
    rwa [length_firstOctets] at hle
  refine ⟨⟨fun hall => ?_, ?_⟩,
    fun n hpending => ⟨hbound n hpending, fun limits => Parse.elementAt_of_isPending limits hpending⟩⟩
  · cases hmarker : marksChain (input 0) with
    | false =>
        have hle := hbound 15 (hall 15)
        rw [firstOctets_succ, padding, hmarker, if_neg Bool.false_ne_true] at hle
        omega
    | true =>
        refine ⟨rfl, fun k => ?_⟩
        by_cases hother : input (k + 1) = paddingOctet
        · exact hother
        · have hle := hbound (k + 14 + 1) (hall (k + 14 + 1))
          have hpadding := length_takeWhile_le (fun k => input (k + 1)) hother (k + 14)
          rw [firstOctets_succ, padding, if_pos hmarker] at hle
          omega
  · rintro ⟨hmarker, hpadded⟩ n
    cases n with
    | zero => rfl
    | succ n =>
        have hreplicate : firstOctets (fun k => input (k + 1)) n =
            List.replicate n paddingOctet := by
          refine List.eq_replicate_iff.mpr ⟨length_firstOctets _ n, fun octet hoctet => ?_⟩
          obtain ⟨k, -, rfl⟩ := List.mem_map.mp hoctet
          exact hpadded k
        rw [firstOctets_succ, hreplicate]
        exact isPending_marked_padded hmarker n

/-- Fifteen octets, all but the first of them zero groups, decide nothing. -/
theorem padded_chain_undecided :
    (0x1F :: List.replicate 14 0x80 : Octets).length = 15 ∧
      start.isPending (0x1F :: List.replicate 14 0x80) := by
  decide

end HeaderScan
end BasicEncoding
