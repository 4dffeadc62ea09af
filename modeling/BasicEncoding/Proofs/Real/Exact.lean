import BasicEncoding.Proofs.Integer.Accumulator
import BasicEncoding.Proofs.Real.Value

/-! Which contents in the binary form are read, and which word each of them gives. Octets are taken
apart into an exponent and a mantissa, these are read as the numbers they spell whatever their
length, and the word has exactly the number that sign, exponent and mantissa stand for. -/
namespace BasicEncoding.Real

open Binary64 (exponentBias sign)
open Integer (Fits)

/-- The exponent and the mantissa in the octets behind a first octet, which counts the octets of the
exponent itself or leaves this to an octet of its own. Neither is empty. -/
inductive Parts (first : UInt8) : Octets → Octets → Octets → Prop
  | counted {exponent mantissa : Octets} (form : first.toNat % 4 ≠ 3)
      (width : exponent.length = first.toNat % 4 + 1) (present : mantissa ≠ []) :
      Parts first (exponent ++ mantissa) exponent mantissa
  | announced {count : UInt8} {exponent mantissa : Octets} (form : first.toNat % 4 = 3)
      (width : exponent.length = count.toNat) (counts : exponent ≠ []) (present : mantissa ≠ []) :
      Parts first (count :: (exponent ++ mantissa)) exponent mantissa

/-- A number that is `odd` when all its factors 2 are out. -/
def HasOddPart (mantissa odd : Nat) : Prop :=
  odd % 2 = 1 ∧ ∃ place, mantissa = odd * 2 ^ place

/-- The exponent is the special one, or that of a normal number, and then a significand can hold the
mantissa. -/
def Representable (exponent : Int) (mantissa : Nat) : Prop :=
  exponent = 1024 ∨ (-1022 ≤ exponent ∧ exponent ≤ 1023 ∧ mantissa ≠ 0 ∧
    ∃ odd, HasOddPart mantissa odd ∧ odd < 2 ^ 53)

/-- An exponent and a mantissa that give a number: both of them are words, and a word has it. -/
structure Readable (exponent : Int) (mantissa : Nat) : Prop where
  exponent_fits : Fits exponent
  mantissa_fits : mantissa < 2 ^ 63
  representable : Representable exponent mantissa

/-- The word for a sign, an exponent and a mantissa. Nothing is rounded: a finite word has the very
number, with the leading one of the mantissa at place zero. -/
inductive Denotes (negative : Bool) (exponent : Int) (mantissa : Nat) : Binary64 → Prop
  | nan (special : exponent = 1024) (payload : mantissa ≠ 0) :
      Denotes negative exponent mantissa .nan
  | infinity (special : exponent = 1024) (empty : mantissa = 0) :
      Denotes negative exponent mantissa (.infinity negative)
  | number {x : Binary64} (normal : exponent ≠ 1024) (present : mantissa ≠ 0)
      (finite : x.isFinite)
      (exact : x.value = sign negative * (mantissa / 2 ^ mantissa.log2) * 2 ^ exponent) :
      Denotes negative exponent mantissa x

variable {negative : Bool} {exponent : Int} {mantissa odd : Nat} {x y : Binary64}

theorem Denotes.unique (hx : Denotes negative exponent mantissa x)
    (hy : Denotes negative exponent mantissa y) : x = y := by
  cases hx with
  | nan special payload =>
      cases hy with
      | nan => rfl
      | infinity _ empty => exact absurd empty payload
      | number normal => exact absurd special normal
  | infinity special empty =>
      cases hy with
      | nan _ payload => exact absurd empty payload
      | infinity => rfl
      | number normal => exact absurd special normal
  | number normal present _ exact_x =>
      cases hy with
      | nan special => exact absurd special normal
      | infinity special => exact absurd special normal
      | number _ _ _ exact_y =>
          apply Binary64.eq_of_value (exact_x.trans exact_y.symm)
          have hmantissa : (mantissa : ℚ) ≠ 0 := Nat.cast_ne_zero.mpr present
          have hsign := Binary64.sign_ne_zero negative
          rw [exact_x]
          positivity

theorem hasOddPart_iff (h : mantissa ≠ 0) : HasOddPart mantissa odd ↔ odd = oddPart mantissa := by
  constructor
  · rintro ⟨hodd, place, rfl⟩
    exact (oddPart_odd_mul_pow hodd place).symm
  · rintro rfl
    exact ⟨oddPart_odd h, exists_eq_oddPart_mul h⟩

theorem ratio_mul_pow (h : odd ≠ 0) (place : Nat) :
    ((odd * 2 ^ place : ℕ) : ℚ) / 2 ^ (odd * 2 ^ place).log2 = odd / 2 ^ odd.log2 := by
  rw [log2_mul_pow h, pow_add, Nat.cast_mul, Nat.cast_pow, Nat.cast_ofNat]
  exact mul_div_mul_right _ _ (pow_ne_zero _ two_ne_zero)

theorem ratio_oddPart (h : mantissa ≠ 0) :
    (mantissa : ℚ) / 2 ^ mantissa.log2 = oddPart mantissa / 2 ^ (oddPart mantissa).log2 := by
  obtain ⟨place, hplace⟩ := exists_eq_oddPart_mul h
  rw [← ratio_mul_pow (oddPart_ne_zero h) place, ← hplace]

theorem log2_placed (h : odd ≠ 0) (hfits : odd < 2 ^ 53) :
    (odd * 2 ^ (52 - odd.log2)).log2 = 52 := by
  have hlog : odd.log2 < 53 := (Nat.log2_lt h).mpr hfits
  rw [log2_mul_pow h]
  omega

/-- A mantissa in its place, less the leading one, is the fraction of its number. -/
theorem denotes_placed (hlow : -1022 ≤ exponent) (hhigh : exponent ≤ 1023) (h : mantissa ≠ 0)
    (hfits : oddPart mantissa < 2 ^ 53) :
    Denotes negative exponent mantissa
      (.ofFields negative (exponent + exponentBias).toNat
        (oddPart mantissa * 2 ^ (52 - (oddPart mantissa).log2) - 2 ^ 52)) := by
  have hodd : oddPart mantissa ≠ 0 := oddPart_ne_zero h
  have hlog := log2_placed hodd hfits
  have hratio := ratio_mul_pow hodd (52 - (oddPart mantissa).log2)
  have hne : oddPart mantissa * 2 ^ (52 - (oddPart mantissa).log2) ≠ 0 :=
    Nat.mul_ne_zero hodd (Nat.two_pow_pos _).ne'
  rw [hlog, ← ratio_oddPart h] at hratio
  generalize oddPart mantissa * 2 ^ (52 - (oddPart mantissa).log2) = placed at hlog hratio hne ⊢
  obtain ⟨hleading, hlt⟩ := (Nat.log2_eq_iff hne).mp hlog
  have hbias : ((exponent + exponentBias).toNat : ℤ) - exponentBias = exponent := by
    rw [exponentBias]
    omega
  have hfield : (exponent + exponentBias).toNat ≠ 0 ∧ (exponent + exponentBias).toNat < 2047 := by
    rw [exponentBias]
    omega
  have hfraction : placed - 2 ^ 52 < 2 ^ 52 := by omega
  refine .number (by omega) h ?_ ?_
  · apply decide_eq_true
    rw [Binary64.field_ofFields (by omega) hfraction]
    omega
  · rw [Binary64.value_ofFields hfield.1 (by omega) hfraction, hbias, Nat.add_sub_cancel' hleading,
      hratio]

theorem assemble_special (hspecial : exponent = 1024) :
    ∃ x, assemble negative exponent mantissa = .ok x ∧ Denotes negative exponent mantissa x := by
  have hassembled : assemble negative exponent mantissa =
      .ok (if mantissa ≠ 0 then .nan else .infinity negative) := if_pos hspecial
  refine ⟨_, hassembled, ?_⟩
  by_cases hempty : mantissa = 0
  · simp only [hempty, ne_eq, not_true_eq_false, if_false]
    exact .infinity hspecial rfl
  · simp only [hempty, ne_eq, not_false_eq_true, if_true]
    exact .nan hspecial hempty

theorem exists_assembled (h : Representable exponent mantissa) :
    ∃ x, assemble negative exponent mantissa = .ok x ∧ Denotes negative exponent mantissa x := by
  rcases h with hspecial | ⟨hlow, hhigh, hne, odd, hodd, hfits⟩
  · exact assemble_special hspecial
  · have hbias : -exponentBias < exponent := by
      rw [exponentBias]
      omega
    rw [(hasOddPart_iff hne).mp hodd] at hfits
    rw [assemble_normal negative hbias hhigh hne]
    exact ⟨_, if_neg (Nat.not_le.mpr hfits), denotes_placed hlow hhigh hne hfits⟩

theorem representable_of_assembled (h : assemble negative exponent mantissa = .ok x) :
    Representable exponent mantissa := by
  unfold assemble at h
  split at h
  · next hspecial => exact .inl hspecial
  · split at h
    · cases h
    · next hrange =>
      split at h
      · cases h
      · next hne =>
        dsimp only at h
        split at h
        · cases h
        · next hfits =>
          rw [exponentBias] at hrange
          have hodd : HasOddPart mantissa (oddPart mantissa) := (hasOddPart_iff hne).mpr rfl
          exact .inr ⟨by omega, by omega, hne, _, hodd, Nat.lt_of_not_le hfits⟩

/-- What is assembled is what is denoted. -/
theorem assemble_eq_ok_iff : assemble negative exponent mantissa = .ok x ↔
    Representable exponent mantissa ∧ Denotes negative exponent mantissa x := by
  constructor
  · intro h
    have hrepresentable := representable_of_assembled h
    obtain ⟨y, hy, hdenotes⟩ := exists_assembled hrepresentable
    cases h.symm.trans hy
    exact ⟨hrepresentable, hdenotes⟩
  · rintro ⟨hrepresentable, hdenotes⟩
    obtain ⟨y, hy, hmade⟩ := exists_assembled hrepresentable
    rw [hy, hdenotes.unique hmade]

variable {first : UInt8} {rest front behind : Octets} {total width : Nat}

theorem Parts.ne_nil (h : Parts first rest front behind) : front ≠ [] ∧ behind ≠ [] := by
  cases h with
  | counted form width present => exact ⟨List.ne_nil_of_length_eq_add_one width, present⟩
  | announced form width counts present => exact ⟨counts, present⟩

theorem decodeFields_append (h : behind ≠ []) :
    decodeFields negative total front.length (front ++ behind) = (do
      let exponent ← Integer.read true front
      let mantissa ← Integer.read false behind
      assemble negative exponent.toInt mantissa.toInt.toNat) := by
  have hlong : ¬(front ++ behind).length ≤ front.length := by
    have hpos := List.length_pos_iff.mpr h
    rw [List.length_append]
    omega
  rw [decodeFields, if_neg hlong, List.take_left, List.drop_left]

theorem decodeFields_of_fits (hfront : front ≠ []) (hbehind : behind ≠ [])
    (hexponent : Fits (signedValue front)) (hmantissa : unsignedValue behind < 2 ^ 63) :
    decodeFields negative total front.length (front ++ behind) =
      assemble negative (signedValue front) (unsignedValue behind) := by
  have hexponentword : (Int64.ofInt (signedValue front)).toInt = signedValue front :=
    Integer.toInt_ofInt_of_fits hexponent.1 hexponent.2
  have hmantissaword : (Int64.ofNat (unsignedValue behind)).toInt = unsignedValue behind :=
    Int64.toInt_ofNat_of_lt hmantissa
  have hreadfront : Integer.read true front = .ok (Int64.ofInt (signedValue front)) :=
    Integer.read_eq_ok_iff.mpr ⟨hfront, hexponentword⟩
  have hreadbehind : Integer.read false behind = .ok (Int64.ofNat (unsignedValue behind)) :=
    Integer.read_eq_ok_iff.mpr ⟨hbehind, hmantissaword⟩
  rw [decodeFields_append hbehind, hreadfront, hreadbehind]
  simp only [bind, Except.bind, hexponentword, hmantissaword, Int.toNat_natCast]

theorem fits_of_decodeFields (hbehind : behind ≠ [])
    (h : decodeFields negative total front.length (front ++ behind) = .ok x) :
    Fits (signedValue front) ∧ unsignedValue behind < 2 ^ 63 := by
  rw [decodeFields_append hbehind] at h
  cases hfront : Integer.read true front with
  | error defect =>
      rw [hfront] at h
      cases h
  | ok exponent =>
      cases hread : Integer.read false behind with
      | error defect =>
          rw [hfront, hread] at h
          cases h
      | ok mantissa =>
          have hexponent : exponent.toInt = signedValue front :=
            (Integer.read_eq_ok_iff.mp hfront).2
          have hmantissa : mantissa.toInt = unsignedValue behind :=
            (Integer.read_eq_ok_iff.mp hread).2
          have hlt := mantissa.toInt_lt
          exact ⟨hexponent ▸ ⟨exponent.le_toInt, exponent.toInt_lt⟩, by omega⟩

theorem exists_parts_of_decodeFields {fields : Octets}
    (h : decodeFields negative total width fields = .ok x) :
    ∃ front behind, fields = front ++ behind ∧ front.length = width ∧ behind ≠ [] := by
  unfold decodeFields at h
  split at h
  · cases h
  · next hlong =>
    refine ⟨fields.take width, fields.drop width, (List.take_append_drop width fields).symm, ?_, ?_⟩
    · exact List.length_take_of_le (by omega)
    · rw [ne_eq, List.drop_eq_nil_iff]
      exact hlong

theorem decode_eq_decodeBinary (h : 128 ≤ first) :
    decode (first :: rest) = decodeBinary first rest := by
  have hspecial : ∀ special : UInt8, special < 128 → first ≠ special := by
    rintro special hless rfl
    exact UInt8.not_lt.mpr h hless
  rw [decode, if_neg (hspecial _ (by decide)), if_neg (hspecial _ (by decide)),
    if_neg (hspecial _ (by decide)), if_neg (hspecial _ (by decide)), if_neg (UInt8.not_lt.mpr h)]

theorem decodeBinary_of_parts (hunscaled : first.toNat / 4 % 16 = 0)
    (h : Parts first rest front behind) :
    decodeBinary first rest = decodeFields (first.toNat / 64 % 2 = 1) (rest.length + 1) front.length
      (front ++ behind) := by
  unfold decodeBinary
  rw [if_neg (not_not.mpr hunscaled)]
  cases h with
  | counted form width present => rw [if_neg form, width]
  | @announced count _ _ form width counts present =>
      have hcount : count ≠ 0 := by
        rintro rfl
        exact counts (List.eq_nil_of_length_eq_zero width)
      rw [if_pos form, width]
      exact if_neg hcount

theorem exists_parts (h : decodeBinary first rest = .ok x) :
    first.toNat / 4 % 16 = 0 ∧ ∃ front behind, Parts first rest front behind := by
  unfold decodeBinary at h
  dsimp only at h
  split at h
  · cases h
  · next hunscaled =>
    refine ⟨not_not.mp hunscaled, ?_⟩
    split at h
    · next hform =>
      split at h
      · cases h
      · next count fields =>
        split at h
        · cases h
        · next hcount =>
          obtain ⟨front, behind, rfl, hwidth, hbehind⟩ := exists_parts_of_decodeFields h
          refine ⟨front, behind, .announced hform hwidth ?_ hbehind⟩
          rintro rfl
          exact hcount (UInt8.toNat_inj.mp hwidth.symm)
    · next hform =>
      obtain ⟨front, behind, rfl, hwidth, hbehind⟩ := exists_parts_of_decodeFields h
      exact ⟨front, behind, .counted hform hwidth hbehind⟩

/-- What is read of contents that can be taken apart. -/
theorem decodeBinary_eq_ok_iff (hunscaled : first.toNat / 4 % 16 = 0)
    (h : Parts first rest front behind) :
    decodeBinary first rest = .ok x ↔ Readable (signedValue front) (unsignedValue behind) ∧
      Denotes (first.toNat / 64 % 2 = 1) (signedValue front) (unsignedValue behind) x := by
  obtain ⟨hfront, hbehind⟩ := h.ne_nil
  rw [decodeBinary_of_parts hunscaled h]
  constructor
  · intro hread
    obtain ⟨hexponent, hmantissa⟩ := fits_of_decodeFields hbehind hread
    rw [decodeFields_of_fits hfront hbehind hexponent hmantissa] at hread
    obtain ⟨hrepresentable, hdenotes⟩ := assemble_eq_ok_iff.mp hread
    exact ⟨⟨hexponent, hmantissa, hrepresentable⟩, hdenotes⟩
  · rintro ⟨hreadable, hdenotes⟩
    rw [decodeFields_of_fits hfront hbehind hreadable.exponent_fits hreadable.mantissa_fits]
    exact assemble_eq_ok_iff.mpr ⟨hreadable.representable, hdenotes⟩

theorem decodeBinary_succeeds_iff : (∃ x, decodeBinary first rest = .ok x) ↔
    first.toNat / 4 % 16 = 0 ∧ ∃ front behind, Parts first rest front behind ∧
      Readable (signedValue front) (unsignedValue behind) := by
  constructor
  · rintro ⟨x, hread⟩
    obtain ⟨hunscaled, front, behind, hparts⟩ := exists_parts hread
    exact ⟨hunscaled, front, behind, hparts, ((decodeBinary_eq_ok_iff hunscaled hparts).mp hread).1⟩
  · rintro ⟨hunscaled, front, behind, hparts, hreadable⟩
    obtain ⟨x, -, hdenotes⟩ := exists_assembled hreadable.representable
    exact ⟨x, (decodeBinary_eq_ok_iff hunscaled hparts).mpr ⟨hreadable, hdenotes⟩⟩

/-- With the exponent of a normal number reading ends as the loops do. -/
theorem decodeBinary_by_loops (hunscaled : first.toNat / 4 % 16 = 0)
    (h : Parts first rest front behind) (hlow : -1022 ≤ signedValue front)
    (hhigh : signedValue front ≤ 1023) (hne : unsignedValue behind ≠ 0)
    (hword : unsignedValue behind < 2 ^ 63) :
    (∃ fraction, Normalizes (Int64.ofNat (unsignedValue behind)) (Int64.ofNat fraction) ∧
      decodeBinary first rest = .ok (.ofFields (first.toNat / 64 % 2 = 1)
        (signedValue front + 1023).toNat fraction)) ∨
    (TooWide (Int64.ofNat (unsignedValue behind)) ∧
      decodeBinary first rest = .error .realMantissaTooWide) := by
  obtain ⟨hfront, hbehind⟩ := h.ne_nil
  have hexponent : Fits (signedValue front) := by constructor <;> omega
  have hbias : -exponentBias < signedValue front := by
    rw [exponentBias]
    omega
  rw [decodeBinary_of_parts hunscaled h, decodeFields_of_fits hfront hbehind hexponent hword]
  exact assemble_by_loops _ hbias hhigh hne hword

/-- Contents in the binary form are read if they can be taken apart, are not scaled, and have a
readable exponent and a readable mantissa. The word has the number that they denote, and no other
word does. Everything else is refused. The loops that bring a mantissa to its place end for every
exponent of a normal number and every mantissa, and the word has the fraction they end with; they
end at a mantissa that is too wide where there is no such word. -/
theorem decode_binary_exact (first : UInt8) (rest : Octets) (h : 128 ≤ first) :
    ((∃ x, decode (first :: rest) = .ok x) ↔
      first.toNat / 4 % 16 = 0 ∧ ∃ front behind, Parts first rest front behind ∧
        Readable (signedValue front) (unsignedValue behind)) ∧
    (first.toNat / 4 % 16 = 0 → ∀ front behind, Parts first rest front behind →
      (∀ x, decode (first :: rest) = .ok x ↔
        Readable (signedValue front) (unsignedValue behind) ∧
          Denotes (first.toNat / 64 % 2 = 1) (signedValue front) (unsignedValue behind) x) ∧
      (-1022 ≤ signedValue front → signedValue front ≤ 1023 → unsignedValue behind ≠ 0 →
        unsignedValue behind < 2 ^ 63 →
        (∃ fraction, Normalizes (Int64.ofNat (unsignedValue behind)) (Int64.ofNat fraction) ∧
          decode (first :: rest) = .ok (.ofFields (first.toNat / 64 % 2 = 1)
            (signedValue front + 1023).toNat fraction)) ∨
        (TooWide (Int64.ofNat (unsignedValue behind)) ∧
          decode (first :: rest) = .error .realMantissaTooWide))) ∧
    (¬(first.toNat / 4 % 16 = 0 ∧ ∃ front behind, Parts first rest front behind ∧
        Readable (signedValue front) (unsignedValue behind)) →
      ∃ defect, decode (first :: rest) = .error defect) := by
  rw [decode_eq_decodeBinary h]
  refine ⟨decodeBinary_succeeds_iff, ?_, ?_⟩
  · intro hunscaled front behind hparts
    exact ⟨fun _ => decodeBinary_eq_ok_iff hunscaled hparts, decodeBinary_by_loops hunscaled hparts⟩
  · intro hrefused
    cases hread : decodeBinary first rest with
    | error defect => exact ⟨defect, rfl⟩
    | ok x => exact absurd (decodeBinary_succeeds_iff.mp ⟨x, hread⟩) hrefused

/-- An exponent with a count of its own and a mantissa, both with octets in front that carry
nothing. -/
theorem decode_minus_ten :
    ∃ x, decode [0xC3, 3, 0, 0, 3, 0, 0, 40] = .ok x ∧ x.isFinite ∧ x.value = -10 := by
  obtain ⟨hread, hapart, -⟩ := decode_binary_exact 0xC3 [3, 0, 0, 3, 0, 0, 40] (by decide)
  have hparts : Parts 0xC3 [3, 0, 0, 3, 0, 0, 40] [0, 0, 3] [0, 0, 40] :=
    @Parts.announced 0xC3 3 [0, 0, 3] [0, 0, 40] rfl rfl (by decide) (by decide)
  have hodd : HasOddPart 40 5 := ⟨rfl, 3, rfl⟩
  have hreadable : Readable 3 40 :=
    ⟨by constructor <;> decide, by decide, .inr ⟨by decide, by decide, by decide, 5, hodd, by decide⟩⟩
  obtain ⟨x, hx⟩ := hread.mpr ⟨by decide, _, _, hparts, hreadable⟩
  obtain ⟨-, hdenotes⟩ := ((hapart (by decide) _ _ hparts).1 x).mp hx
  refine ⟨x, hx, ?_⟩
  cases hdenotes with
  | nan special => exact absurd special (by decide)
  | infinity special => exact absurd special (by decide)
  | number normal present finite exact_x =>
      refine ⟨finite, exact_x.trans ?_⟩
      have hexponent : signedValue [0, 0, 3] = 3 := rfl
      have hmantissa : unsignedValue [0, 0, 40] = 40 := rfl
      have hlog : Nat.log2 40 = 5 := by decide
      have hnegative : (0xC3 : UInt8).toNat / 64 % 2 = 1 := rfl
      rw [hexponent, hmantissa, hlog]
      norm_num [sign, hnegative]

end BasicEncoding.Real
