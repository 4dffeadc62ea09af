import BasicEncoding.Proofs.Real.OddPart

/-! The numbers that reading can give. None of them is subnormal: the least exponent that is read is
that of the least normal number. -/
namespace BasicEncoding.Real

open Binary64 (exponentBias)

theorem placed_lt {odd : Nat} (h : odd ≠ 0) (hfits : odd < 2 ^ 53) :
    odd * 2 ^ (52 - odd.log2) - 2 ^ 52 < 2 ^ 52 := by
  have hlog : odd.log2 < 53 := (Nat.log2_lt h).mpr hfits
  have hplace : (odd * 2 ^ (52 - odd.log2)).log2 = 52 := by
    rw [log2_mul_pow h]
    omega
  have hlt : odd * 2 ^ (52 - odd.log2) < 2 ^ ((odd * 2 ^ (52 - odd.log2)).log2 + 1) :=
    Nat.lt_log2_self
  rw [hplace] at hlt
  omega

theorem assemble_not_subnormal {negative : Bool} {exponent : Int} {mantissa : Nat} {x : Binary64}
    (h : assemble negative exponent mantissa = .ok x) : x.isSubnormal = false := by
  unfold assemble at h
  split at h
  · cases h
    split
    · rfl
    · cases negative <;> rfl
  · split at h
    · cases h
    · next hrange =>
      split at h
      · cases h
      · next hne =>
        dsimp only at h
        split at h
        · cases h
        · next hfits =>
          have hfraction := placed_lt (oddPart_ne_zero hne) (Nat.lt_of_not_le hfits)
          rw [exponentBias] at hrange h
          rw [← Except.ok.inj h]
          apply decide_eq_false
          rintro ⟨hfield, -⟩
          rw [Binary64.field_ofFields (by omega) hfraction] at hfield
          omega

theorem decodeFields_not_subnormal {negative : Bool} {total width : Nat} {fields : Octets}
    {x : Binary64} (h : decodeFields negative total width fields = .ok x) :
    x.isSubnormal = false := by
  unfold decodeFields at h
  split at h
  · cases h
  · cases hexponent : Integer.read true (fields.take width) with
    | error defect =>
        rw [hexponent] at h
        cases h
    | ok exponent =>
        cases hmantissa : Integer.read false (fields.drop width) with
        | error defect =>
            rw [hexponent, hmantissa] at h
            cases h
        | ok mantissa =>
            rw [hexponent, hmantissa] at h
            exact assemble_not_subnormal h

theorem decodeBinary_not_subnormal {first : UInt8} {rest : Octets} {x : Binary64}
    (h : decodeBinary first rest = .ok x) : x.isSubnormal = false := by
  unfold decodeBinary at h
  dsimp only at h
  split at h
  · cases h
  · split at h
    · split at h
      · cases h
      · split at h
        · cases h
        · exact decodeFields_not_subnormal h
    · exact decodeFields_not_subnormal h

theorem decode_not_subnormal {contents : Octets} {x : Binary64} (h : decode contents = .ok x) :
    x.isSubnormal = false := by
  cases contents with
  | nil =>
      cases h
      rfl
  | cons first rest =>
      rw [decode] at h
      by_cases hspecial : first = plusInfinity ∨ first = minusInfinity ∨ first = notANumber ∨
          first = zeroOctet
      · rcases hspecial with rfl | rfl | rfl | rfl
        all_goals
          cases h
          rfl
      · simp only [not_or] at hspecial
        obtain ⟨hplus, hminus, hnan, hzero⟩ := hspecial
        rw [if_neg hplus, if_neg hminus, if_neg hnan, if_neg hzero] at h
        split at h
        · cases h
        · exact decodeBinary_not_subnormal h

end BasicEncoding.Real
