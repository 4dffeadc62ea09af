import BasicEncoding.Proofs.Base128

/-! Numbers spelled in octets, in base 256 and as base-128 chains. Zero digits may stand in front, so
a number has a spelling of every length from the shortest on, and exactly one of each. -/
namespace BasicEncoding

theorem leading_eq {a b x y place : Nat} (hx : x < place) (hy : y < place)
    (h : a * place + x = b * place + y) : a = b ∧ x = y := by
  have hpos : 0 < place := Nat.zero_lt_of_lt hx
  have ha : (a * place + x) / place = a ∧ (a * place + x) % place = x :=
    (Nat.div_mod_unique hpos).mpr ⟨by rw [Nat.mul_comm, Nat.add_comm], hx⟩
  have hb : (a * place + x) / place = b ∧ (a * place + x) % place = y :=
    (Nat.div_mod_unique hpos).mpr ⟨by rw [h, Nat.mul_comm, Nat.add_comm], hy⟩
  exact ⟨ha.1.symm.trans hb.1, ha.2.symm.trans hb.2⟩

theorem log2_div_lt {v bits n : Nat} (hbits : 0 < bits) (hn : 0 < n) (h : v < 2 ^ (bits * n)) :
    v.log2 / bits < n := by
  rw [Nat.div_lt_iff_lt_mul hbits, Nat.mul_comm]
  by_cases hv : v = 0
  · rw [hv]
    exact Nat.mul_pos hbits hn
  · exact (Nat.log2_lt hv).mpr h

theorem eq_of_unsignedValue {a b : Octets} (hlength : a.length = b.length)
    (hvalue : unsignedValue a = unsignedValue b) : a = b := by
  induction a generalizing b with
  | nil => exact (List.length_eq_zero_iff.mp hlength.symm).symm
  | cons octet rest ih =>
      cases b with
      | nil => cases hlength
      | cons other others =>
          have hrest : rest.length = others.length := Nat.succ.inj hlength
          rw [unsignedValue_cons, unsignedValue_cons, hrest] at hvalue
          have hlow : unsignedValue rest < 256 ^ others.length := hrest ▸ unsignedValue_lt rest
          obtain ⟨hoctet, hbehind⟩ := leading_eq hlow (unsignedValue_lt others) hvalue
          rw [UInt8.toNat_inj.mp hoctet, ih hrest hbehind]

theorem unsignedValue_lowOctets_natCast (v n : Nat) :
    unsignedValue (lowOctets v n) = v % 256 ^ n := by
  have h := unsignedValue_lowOctets v n
  rw [← Int.ofNat_inj, h]
  rfl

namespace Base128

/-- Bit 8 is set on every octet but the last. -/
inductive IsChain : Octets → Prop
  | last {octet : UInt8} (low : octet < 128) : IsChain [octet]
  | more {octet : UInt8} {rest : Octets} (high : ¬octet < 128) (later : IsChain rest) :
      IsChain (octet :: rest)

/-- The number that low seven bits spell, shifted in behind another. -/
def valueFrom (number : Nat) (octets : Octets) : Nat :=
  octets.foldl (fun number octet => number * 128 + octet.toNat % 128) number

@[simp] theorem valueFrom_nil (number : Nat) : valueFrom number [] = number := rfl

@[simp] theorem valueFrom_cons (number : Nat) (octet : UInt8) (rest : Octets) :
    valueFrom number (octet :: rest) = valueFrom (number * 128 + octet.toNat % 128) rest := rfl

theorem valueFrom_eq (number : Nat) (octets : Octets) :
    valueFrom number octets = number * 128 ^ octets.length + valueFrom 0 octets := by
  induction octets generalizing number with
  | nil => simp
  | cons octet rest ih =>
      rw [valueFrom_cons, valueFrom_cons, ih, ih (0 * 128 + _), List.length_cons, Nat.pow_succ,
        Nat.zero_mul, Nat.zero_add, Nat.add_mul, Nat.mul_assoc, Nat.mul_comm 128, Nat.add_assoc]

theorem le_valueFrom (number : Nat) (octets : Octets) : number ≤ valueFrom number octets := by
  rw [valueFrom_eq]
  have hpos : 0 < 128 ^ octets.length := Nat.pow_pos (by decide)
  exact Nat.le_trans (Nat.le_mul_of_pos_right _ hpos) (Nat.le_add_right _ _)

theorem valueFrom_lt (octets : Octets) : valueFrom 0 octets < 128 ^ octets.length := by
  induction octets with
  | nil => exact Nat.one_pos
  | cons octet rest ih =>
      rw [valueFrom_cons, valueFrom_eq, List.length_cons, Nat.pow_succ]
      have hgroup : 0 * 128 + octet.toNat % 128 ≤ 127 := by omega
      have hle := Nat.mul_le_mul_right (128 ^ rest.length) hgroup
      omega

theorem eq_of_group {octet other : UInt8} (hgroup : octet.toNat % 128 = other.toNat % 128)
    (hmarked : octet < 128 ↔ other < 128) : octet = other := by
  have hoctet : octet.toNat < 256 := octet.toNat_lt
  have hother : other.toNat < 256 := other.toNat_lt
  rw [UInt8.lt_iff_toNat_lt, UInt8.lt_iff_toNat_lt] at hmarked
  change octet.toNat < 128 ↔ other.toNat < 128 at hmarked
  exact UInt8.toNat_inj.mp (by omega)

namespace IsChain

variable {octets others : Octets}

theorem ne_nil (h : IsChain octets) : octets ≠ [] := by
  cases h <;> exact List.cons_ne_nil _ _

/-- Chains of one length that spell one number are one chain. -/
theorem eq_of_valueFrom (h : IsChain octets) (hothers : IsChain others)
    (hlength : octets.length = others.length)
    (hvalue : valueFrom 0 octets = valueFrom 0 others) : octets = others := by
  induction h generalizing others with
  | @last octet low =>
      cases hothers with
      | @last other otherLow =>
          simp only [valueFrom_cons, valueFrom_nil, Nat.zero_mul, Nat.zero_add] at hvalue
          rw [eq_of_group hvalue (iff_of_true low otherLow)]
      | more _ later =>
          exact (later.ne_nil (List.length_eq_zero_iff.mp (Nat.succ.inj hlength).symm)).elim
  | @more octet rest high later ih =>
      cases hothers with
      | last _ =>
          exact (later.ne_nil (List.length_eq_zero_iff.mp (Nat.succ.inj hlength))).elim
      | @more other otherRest otherHigh otherLater =>
          have hrest : rest.length = otherRest.length := Nat.succ.inj hlength
          rw [valueFrom_cons, valueFrom_cons, valueFrom_eq, valueFrom_eq (0 * 128 + _), hrest,
            Nat.zero_mul, Nat.zero_add, Nat.zero_add] at hvalue
          have hlow : valueFrom 0 rest < 128 ^ otherRest.length := hrest ▸ valueFrom_lt rest
          obtain ⟨hgroup, hbehind⟩ := leading_eq hlow (valueFrom_lt otherRest) hvalue
          rw [eq_of_group hgroup (iff_of_false high otherHigh), ih otherLater hrest hbehind]

theorem mul_le_valueFrom (h : IsChain octets) (number : Nat) :
    number * 128 ≤ valueFrom number octets := by
  cases h with
  | last _ => exact Nat.le_trans (Nat.le_add_right _ _) (le_valueFrom _ _)
  | more _ _ => exact Nat.le_trans (Nat.le_add_right _ _) (le_valueFrom _ _)

/-- Zero groups in front make another chain for the same number. -/
theorem padded (h : IsChain octets) (n : Nat) :
    IsChain (List.replicate n 0x80 ++ octets) ∧
      valueFrom 0 (List.replicate n 0x80 ++ octets) = valueFrom 0 octets := by
  induction n with
  | zero => exact ⟨h, rfl⟩
  | succ n ih => exact ⟨.more (by decide) ih.1, ih.2⟩

end IsChain

theorem exists_chain_cons {octet : UInt8} {octets : Octets} {P : Octets → Octets → Prop} :
    (∃ chain rest, octet :: octets = chain ++ rest ∧ IsChain chain ∧ P chain rest) ↔
      if octet < 128 then P [octet] octets
      else ∃ chain rest, octets = chain ++ rest ∧ IsChain chain ∧ P (octet :: chain) rest := by
  constructor
  · rintro ⟨chain, rest, hoctets, hchain, hP⟩
    cases hchain with
    | last low =>
        cases hoctets
        rwa [if_pos low]
    | more high later =>
        cases hoctets
        rw [if_neg high]
        exact ⟨_, rest, rfl, later, hP⟩
  · intro h
    split at h
    · next low => exact ⟨[octet], octets, rfl, .last low, h⟩
    · next high =>
      obtain ⟨chain, rest, rfl, hchain, hP⟩ := h
      exact ⟨octet :: chain, rest, rfl, .more high hchain, hP⟩

theorem isChain_groups (v n : Nat) : IsChain (groups v (n + 1)) := by
  induction n with
  | zero =>
      obtain ⟨octet, hgroups, -, hlast⟩ := exists_group v 0
      rw [hgroups]
      exact .last (hlast.mpr rfl)
  | succ n ih =>
      obtain ⟨octet, hgroups, -, hlast⟩ := exists_group v (n + 1)
      rw [hgroups]
      exact .more (fun h => Nat.succ_ne_zero n (hlast.mp h)) ih

theorem isChain_chain (v : Nat) : IsChain (chain v) :=
  isChain_groups v (v.log2 / groupBits)

theorem valueFrom_groups (v n : Nat) : valueFrom (v / 128 ^ n) (groups v n) = v := by
  induction n with
  | zero =>
      rw [Nat.pow_zero, Nat.div_one]
      rfl
  | succ n ih =>
      obtain ⟨octet, hgroups, hpayload, -⟩ := exists_group v n
      rw [hgroups, valueFrom_cons, hpayload, group_push, ih]

theorem valueFrom_chain (v : Nat) : valueFrom 0 (chain v) = v := by
  have hvalue := valueFrom_groups v (groupCount v)
  rwa [Nat.div_eq_of_lt (lt_groupCount v)] at hvalue

/-- Any other chain for a number is longer than the one written for it. -/
theorem IsChain.eq_chain_or_longer {octets : Octets} (h : IsChain octets) :
    octets = chain (valueFrom 0 octets) ∨
      (chain (valueFrom 0 octets)).length < octets.length := by
  have hvalue : valueFrom 0 octets < 2 ^ (groupBits * octets.length) := by
    rw [Nat.pow_mul]
    exact valueFrom_lt octets
  have hcount : groupCount (valueFrom 0 octets) ≤ octets.length :=
    log2_div_lt (by decide) (List.length_pos_iff.mpr h.ne_nil) hvalue
  rw [length_chain]
  rcases Nat.eq_or_lt_of_le hcount with heq | hlt
  · refine .inl (h.eq_of_valueFrom (isChain_chain _) ?_ (valueFrom_chain _).symm)
    rw [length_chain, heq]
  · exact .inr hlt

end Base128

end BasicEncoding
