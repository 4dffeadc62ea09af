import BasicEncoding.Proofs.Integer.RoundTrip
import BasicEncoding.Proofs.Real.Loops

/-! What becomes of a number that is written and read again. Normal numbers and infinities come back
bit for bit, zeros lose their sign and NaNs their payload. The exponent of a subnormal number is
below the range that can be read. -/
namespace BasicEncoding

namespace Binary64

variable {x : Binary64}

theorem significand_of_normal (h : x.field ≠ 0) : x.significand = 2 ^ 52 + x.fraction :=
  if_neg h

theorem significand_of_small (h : x.field = 0) : x.significand = x.fraction :=
  if_pos h

theorem significand_lt (x : Binary64) : x.significand < 2 ^ 53 := by
  have hfraction := x.fraction_lt
  unfold significand
  split <;> omega

theorem significand_ne_zero (h : x.isZero = false) : x.significand ≠ 0 := by
  have hzero : ¬(x.field = 0 ∧ x.fraction = 0) := of_decide_eq_false h
  unfold significand
  split <;> omega

theorem log2_significand (h : x.field ≠ 0) : x.significand.log2 = 52 := by
  have hfraction := x.fraction_lt
  rw [significand_of_normal h, Nat.log2_eq_iff (by omega)]
  omega

theorem exponent_of_normal (h : x.field ≠ 0) : x.exponent = x.field - 1023 := by
  rw [exponent, log2_significand h, scale, if_neg h, exponentBias, fractionBits]
  omega

theorem log2_lt_of_small (h : x.field = 0) (h0 : x.fraction ≠ 0) : x.significand.log2 < 52 := by
  rw [significand_of_small h, Nat.log2_lt h0]
  exact x.fraction_lt

theorem fraction_ne_zero (hfield : x.field = 0) (h0 : x.isZero = false) : x.fraction ≠ 0 := by
  intro hzero
  exact of_decide_eq_false h0 ⟨hfield, hzero⟩

theorem exponent_bounds (hfinite : x.field ≠ 2047) (h0 : x.isZero = false) :
    -1074 ≤ x.exponent ∧ x.exponent ≤ 1023 := by
  have hfield := x.field_lt
  by_cases hsmall : x.field = 0
  · have hlog := log2_lt_of_small hsmall (fraction_ne_zero hsmall h0)
    rw [exponent, scale, if_pos hsmall, subnormalExponent, exponentBias, fractionBits]
    omega
  · rw [exponent_of_normal hsmall]
    omega

end Binary64

namespace Real

open Binary64 (exponentBias)

/-- A first octet as written is read as the binary form with its sign and its exponent width. -/
theorem decode_firstOctet (negative : Bool) {width : Nat} (h : width = 1 ∨ width = 2)
    (fields : Octets) :
    decode (firstOctet negative width :: fields) =
      decodeFields negative (fields.length + 1) width fields := by
  rcases h with rfl | rfl <;> cases negative <;> rfl

theorem decodeFields_encode (negative : Bool) (total : Nat) (exponent mantissa : Int64)
    (h : 0 ≤ mantissa.toInt) :
    decodeFields negative total (Integer.encode exponent).length
      (Integer.encode exponent ++ Integer.encode mantissa) =
      assemble negative exponent.toInt mantissa.toInt.toNat := by
  have hlong : ¬(Integer.encode exponent ++ Integer.encode mantissa).length ≤
      (Integer.encode exponent).length := by
    have hpos := List.length_pos_iff.mpr (Integer.encode_ne_nil mantissa)
    rw [List.length_append]
    omega
  rw [decodeFields, if_neg hlong, List.take_left, List.drop_left, Integer.read_encode,
    Integer.read_unsigned_encode h]
  rfl

variable {x : Binary64}

theorem encode_of_number (hfinite : x.field ≠ 2047) (h0 : x.isZero = false) :
    encode x = firstOctet x.isNegative (Integer.encode (Int64.ofInt x.exponent)).length ::
      (Integer.encode (Int64.ofInt x.exponent) ++
        Integer.encode (Int64.ofNat (oddPart x.significand))) := by
  have hinf : x.isInfinite = false := decide_eq_false fun h => hfinite h.1
  have hnan : x.isNaN = false := decide_eq_false fun h => hfinite h.1
  rw [encode, hinf, hnan, h0]
  rfl

theorem toInt_oddPart_significand (x : Binary64) :
    (Int64.ofNat (oddPart x.significand)).toInt = oddPart x.significand := by
  have hle := oddPart_le x.significand
  have hlt := x.significand_lt
  exact Int64.toInt_ofNat_of_lt (by omega)

theorem toInt_exponent (hfinite : x.field ≠ 2047) (h0 : x.isZero = false) :
    (Int64.ofInt x.exponent).toInt = x.exponent := by
  obtain ⟨hlow, hhigh⟩ := Binary64.exponent_bounds hfinite h0
  exact Integer.toInt_ofInt_of_fits (by omega) (by omega)

theorem length_exponent (hfinite : x.field ≠ 2047) (h0 : x.isZero = false) :
    (Integer.encode (Int64.ofInt x.exponent)).length = 1 ∨
      (Integer.encode (Int64.ofInt x.exponent)).length = 2 := by
  obtain ⟨hlow, hhigh⟩ := Binary64.exponent_bounds hfinite h0
  have hplace : Integer.signedPlace (Int64.ofInt x.exponent).toInt ≤ 1 := by
    apply Integer.signedPlace_le
    rw [toInt_exponent hfinite h0]
    constructor <;> omega
  rw [Integer.length_encode]
  omega

/-- The contents of a number other than zero give back its sign, its exponent and the odd part of
its significand; what becomes of them is up to `assemble`. -/
theorem decode_encode_of_number (hfinite : x.field ≠ 2047) (h0 : x.isZero = false) :
    decode (encode x) = assemble x.isNegative x.exponent (oddPart x.significand) := by
  have hwidth := length_exponent hfinite h0
  have hexponent := toInt_exponent hfinite h0
  have hmantissa := toInt_oddPart_significand x
  rw [encode_of_number hfinite h0, decode_firstOctet _ hwidth,
    decodeFields_encode _ _ _ _ (by omega), hexponent, hmantissa, Int.toNat_natCast]

theorem oddPart_significand_mul (hfield : x.field ≠ 0) :
    oddPart x.significand * 2 ^ (52 - (oddPart x.significand).log2) = 2 ^ 52 + x.fraction := by
  have hsignificand := Binary64.significand_of_normal hfield
  have hne : x.significand ≠ 0 := by omega
  rw [← eq_oddPart_mul_of_log2 hne (Binary64.log2_significand hfield), hsignificand]

theorem decode_encode_normal (hfield : x.field ≠ 0) (hfinite : x.field ≠ 2047) :
    decode (encode x) = .ok x := by
  have h0 : x.isZero = false := decide_eq_false fun h => hfield h.1
  have hbound := x.field_lt
  have hexponent := Binary64.exponent_of_normal hfield
  have hne : x.significand ≠ 0 := Binary64.significand_ne_zero h0
  have hlt : oddPart x.significand < 2 ^ 53 :=
    Nat.lt_of_le_of_lt (oddPart_le _) x.significand_lt
  have hstored : (x.exponent + exponentBias).toNat = x.field := by
    rw [exponentBias]
    omega
  have hrange : -exponentBias < x.exponent ∧ x.exponent ≤ exponentBias := by
    rw [exponentBias]
    omega
  rw [decode_encode_of_number hfinite h0,
    assemble_normal _ hrange.1 hrange.2 (oddPart_ne_zero hne), oddPart_oddPart, if_neg (by omega),
    oddPart_significand_mul hfield, hstored, Nat.add_sub_cancel_left, Binary64.ofFields_fields]

theorem decode_encode_subnormal (hfield : x.field = 0) (hfraction : x.fraction ≠ 0) :
    decode (encode x) = .error (.realExponentRange x.exponent) := by
  have hfinite : x.field ≠ 2047 := by omega
  have h0 : x.isZero = false := decide_eq_false fun h => hfraction h.2
  have hlow : x.exponent ≤ -exponentBias := by
    have hlog := Binary64.log2_lt_of_small hfield hfraction
    rw [Binary64.exponent, Binary64.scale, if_pos hfield, Binary64.subnormalExponent,
      Binary64.fractionBits, exponentBias]
    omega
  have hspecial : x.exponent ≠ Binary64.specialExponent := by
    rw [Binary64.specialExponent]
    rw [exponentBias] at hlow ⊢
    omega
  rw [decode_encode_of_number hfinite h0, assemble, if_neg hspecial, if_pos (.inl hlow)]

theorem decode_encode_infinite (h : x.isInfinite = true) : decode (encode x) = .ok x := by
  have hfields : x.field = 2047 ∧ x.fraction = 0 := of_decide_eq_true h
  have hself : Binary64.infinity x.isNegative = x := by
    rw [Binary64.infinity, ← hfields.1, ← hfields.2, Binary64.ofFields_fields]
  rw [encode, if_pos h, ← hself]
  cases x.isNegative <;> rfl

theorem decode_encode_nan (h : x.isNaN = true) : decode (encode x) = .ok .nan := by
  have hinf : x.isInfinite = false := by
    have hfields : x.field = 2047 ∧ x.fraction ≠ 0 := of_decide_eq_true h
    exact decide_eq_false fun hzero => hfields.2 hzero.2
  rw [encode, hinf, h]
  rfl

theorem encode_of_isZero (h : x.isZero = true) : encode x = [zeroOctet] := by
  have hfields : x.field = 0 ∧ x.fraction = 0 := of_decide_eq_true h
  have hinf : x.isInfinite = false := decide_eq_false fun hspecial => by omega
  have hnan : x.isNaN = false := decide_eq_false fun hspecial => by omega
  rw [encode, hinf, hnan, h]
  rfl

theorem decode_encode_zero (h : x.isZero = true) : decode (encode x) = .ok .zero := by
  rw [encode_of_isZero h]
  rfl

theorem shifted_significand (h0 : x.isZero = false) :
    Shifted (oddPart x.significand) (2 ^ 63) x.significand := by
  have hlt := x.significand_lt
  exact ⟨Binary64.significand_ne_zero h0, by omega, rfl⟩

theorem exists_strips_significand (hfinite : x.field ≠ 2047) (h0 : x.isZero = false) :
    ∃ stripped, StripOctets (Int64.ofNat x.significand) (Int64.ofNat stripped) ∧
      stripped % 256 ≠ 0 ∧
      encode x = firstOctet x.isNegative (Integer.encode (Int64.ofInt x.exponent)).length ::
        (Integer.encode (Int64.ofInt x.exponent) ++
          Integer.encode (Int64.ofNat (oddPart stripped))) := by
  obtain ⟨stripped, hloop, hend, hlow⟩ := exists_stripOctets (shifted_significand h0)
  refine ⟨stripped, hloop, hlow, ?_⟩
  rw [hend.oddPart_eq]
  exact encode_of_number hfinite h0

theorem normalizes_significand (hfield : x.field ≠ 0) :
    Normalizes (Int64.ofNat (oddPart x.significand)) (Int64.ofNat x.fraction) := by
  have h0 : x.isZero = false := decide_eq_false fun h => hfield h.1
  have hne : x.significand ≠ 0 := Binary64.significand_ne_zero h0
  have hlt : oddPart x.significand < 2 ^ 53 :=
    Nat.lt_of_le_of_lt (oddPart_le _) x.significand_lt
  have hstart : Shifted (oddPart x.significand) (2 ^ 63) (oddPart x.significand) :=
    ⟨oddPart_ne_zero hne, by omega, oddPart_oddPart _⟩
  have hplaced : oddPart x.significand * 2 ^ (52 - (oddPart x.significand).log2) - 2 ^ 52 =
      x.fraction := by
    rw [oddPart_significand_mul hfield, Nat.add_sub_cancel_left]
  exact hplaced ▸ normalizes_of_fits hstart hlt

/-- What reading makes of every written word, by its class; the last case are the subnormal
numbers. On the way all loops end: stripping ends at a word whose odd part is written, and the
mantissa of a normal number is brought back to the fraction it came from. -/
theorem decode_encode_every_word (x : Binary64) :
    (decode (encode x) =
      if x.isNormal then .ok x
      else if x.isZero then .ok .zero
      else if x.isInfinite then .ok x
      else if x.isNaN then .ok .nan
      else .error (.realExponentRange x.exponent)) ∧
    (x.isFinite → !x.isZero →
      ∃ stripped, StripOctets (Int64.ofNat x.significand) (Int64.ofNat stripped) ∧
        stripped % 256 ≠ 0 ∧
        encode x = firstOctet x.isNegative (Integer.encode (Int64.ofInt x.exponent)).length ::
          (Integer.encode (Int64.ofInt x.exponent) ++
            Integer.encode (Int64.ofNat (oddPart stripped)))) ∧
    (x.isNormal →
      Normalizes (Int64.ofNat (oddPart x.significand)) (Int64.ofNat x.fraction)) := by
  refine ⟨?_, ?_, ?_⟩
  · by_cases hnormal : x.isNormal
    · have hfields : x.field ≠ 0 ∧ x.field ≠ 2047 := of_decide_eq_true hnormal
      rw [if_pos hnormal]
      exact decode_encode_normal hfields.1 hfields.2
    · rw [if_neg hnormal]
      split
      · next hzero => exact decode_encode_zero hzero
      · next hzero =>
        split
        · next hinf => exact decode_encode_infinite hinf
        · next hinf =>
          split
          · next hnan => exact decode_encode_nan hnan
          · next hnan =>
            have hsubnormal : x.field = 0 ∧ x.fraction ≠ 0 := by
              simp only [Binary64.isNormal, Binary64.isZero, Binary64.isInfinite,
                Binary64.isNaN, decide_eq_true_eq] at hnormal hzero hinf hnan
              omega
            exact decode_encode_subnormal hsubnormal.1 hsubnormal.2
  · intro hfinite hzero
    have hfield : x.field ≠ 2047 := of_decide_eq_true hfinite
    have h0 : x.isZero = false := (Bool.not_eq_true' _).mp hzero
    exact exists_strips_significand hfield h0
  · intro hnormal
    have hfields : x.field ≠ 0 ∧ x.field ≠ 2047 := of_decide_eq_true hnormal
    exact normalizes_significand hfields.1

/-- The least normal number comes back, and the loops bring its mantissa to an empty fraction. -/
theorem decode_encode_least_normal :
    decode (encode (.ofFields false 1 0)) = .ok (.ofFields false 1 0) ∧
      Normalizes (Int64.ofNat (oddPart (2 ^ 52))) (Int64.ofNat 0) := by
  obtain ⟨hread, -, hloops⟩ := decode_encode_every_word (.ofFields false 1 0)
  exact ⟨hread, hloops rfl⟩

end Real

end BasicEncoding
