import BasicEncoding.Proofs.Integer.Written
import BasicEncoding.Proofs.Real.RoundTrip

/-! The contents of a number as they are made of its bits. Exponent and mantissa are masked out and
shifted down, the mantissa is stripped by octets and then by bits, a start shift is looked for
twice, and the octets are written from there down. All this is done on words with a sign; it ends
for every number other than zero, and with nothing but the contents that are written. -/
namespace BasicEncoding

namespace Binary64

def word (x : Binary64) : Int64 :=
  x.bits.toInt64

def fieldWord (x : Binary64) : Int64 :=
  (x.word &&& exponentMask) >>> Int64.ofNat fractionBits

def fractionWord (x : Binary64) : Int64 :=
  x.word &&& fractionMask

theorem word_eq (x : Binary64) : x.word = Int64.ofNat x.bits.toNat := by
  apply Int64.toBitVec_inj.mp
  apply BitVec.eq_of_toNat_eq
  exact (Nat.mod_eq_of_lt x.bits.toNat_lt).symm

theorem fieldWord_eq (x : Binary64) : x.fieldWord = Int64.ofNat x.field := by
  have hmask : exponentMask = Int64.ofNat ((2 ^ 11 - 1) * 2 ^ 52) := rfl
  have hfield := x.field_lt
  have hshift : Int64.ofNat (x.field * 2 ^ 52) >>> 52 = Int64.ofNat (x.field * 2 ^ 52 / 2 ^ 52) :=
    word_shiftRight (by omega) 52
  rw [Nat.mul_div_cancel _ (Nat.two_pow_pos 52)] at hshift
  rw [fieldWord, word_eq, hmask, word_and, and_mul_pow, Nat.and_two_pow_sub_one_eq_mod]
  exact hshift

theorem fractionWord_eq (x : Binary64) : x.fractionWord = Int64.ofNat x.fraction := by
  have hmask : fractionMask = Int64.ofNat (2 ^ 52 - 1) := rfl
  rw [fractionWord, word_eq, hmask, word_and, Nat.and_two_pow_sub_one_eq_mod]
  rfl

theorem word_and_sign (x : Binary64) : x.word &&& signMask ≠ 0 ↔ x.isNegative = true := by
  have hmask : signMask = Int64.ofNat (1 * 2 ^ 63) := rfl
  have hbits := x.bits.toNat_lt
  rw [word_eq, hmask, word_and, and_mul_pow, Nat.and_one_is_mod, isNegative, decide_eq_true_eq]
  by_cases hsign : 2 ^ 63 ≤ x.bits.toNat
  · have hhigh : x.bits.toNat / 2 ^ 63 % 2 = 1 := by omega
    rw [hhigh]
    exact iff_of_true (by decide) hsign
  · have hlow : x.bits.toNat / 2 ^ 63 % 2 = 0 := by omega
    rw [hlow]
    exact iff_of_false (by decide) hsign

/-- Exponent and mantissa as the bits give them. The exponent of a normal number is stored, and its
leading one is not; a subnormal number has all its bits and the exponent of the highest of them. -/
inductive Taken (x : Binary64) : Int64 → Int64 → Prop
  | subnormal {place : Nat} (field_eq : x.fieldWord = 0) (place_lt : place < 64)
      (highest : x.fractionWord >>> Int64.ofNat place = 1) :
      Taken x (Int64.ofNat place + Int64.ofInt subnormalExponent) x.fractionWord
  | normal (field_ne : x.fieldWord ≠ 0) :
      Taken x (x.fieldWord - Int64.ofInt exponentBias) (x.fractionWord ||| leadingOne)

variable {x : Binary64} {place : Nat} {exponent mantissa : Int64}

/-- The place that a subnormal number is shifted to is the one of its highest bit. -/
theorem highest_iff (h0 : x.fraction ≠ 0) (hplace : place < 64) :
    x.fractionWord >>> Int64.ofNat place = 1 ↔ x.fraction.log2 = place := by
  have hfraction := x.fraction_lt
  have hle := Nat.div_le_self x.fraction (2 ^ place)
  have hone : (1 : Int64) = Int64.ofNat 1 := rfl
  rw [fractionWord_eq, word_shiftRight_place (by omega) hplace, hone,
    word_eq_iff (by omega) (by decide), Nat.log2_eq_iff h0,
    Nat.div_eq_iff (Nat.two_pow_pos place), Nat.pow_succ]
  omega

theorem fieldWord_eq_zero_iff (x : Binary64) : x.fieldWord = 0 ↔ x.field = 0 := by
  have hfield := x.field_lt
  rw [fieldWord_eq, word_eq_zero_iff (by omega)]

theorem words_of_small (hfield : x.field = 0) :
    Int64.ofInt x.exponent = Int64.ofNat x.fraction.log2 + Int64.ofInt subnormalExponent ∧
      Int64.ofNat x.significand = x.fractionWord := by
  constructor
  · rw [exponent, significand_of_small hfield, scale, if_pos hfield, Int64.ofInt_add,
      Int64.ofInt_eq_ofNat]
  · rw [significand_of_small hfield, fractionWord_eq]

theorem words_of_normal (hfield : x.field ≠ 0) :
    Int64.ofInt x.exponent = x.fieldWord - Int64.ofInt exponentBias ∧
      Int64.ofNat x.significand = x.fractionWord ||| leadingOne := by
  constructor
  · rw [exponent_of_normal hfield, Int64.ofInt_sub, Int64.ofInt_eq_ofNat, fieldWord_eq]
    rfl
  · have hleading : leadingOne = Int64.ofNat (2 ^ 52) := rfl
    have hjoin : 2 ^ 52 ||| x.fraction = 2 ^ 52 + x.fraction :=
      (Nat.two_pow_add_eq_or_of_lt x.fraction_lt 1).symm
    rw [significand_of_normal hfield, fractionWord_eq, hleading, word_or, Nat.or_comm, hjoin]

theorem taken_iff (h0 : x.isZero = false) : x.Taken exponent mantissa ↔
    exponent = Int64.ofInt x.exponent ∧ mantissa = Int64.ofNat x.significand := by
  constructor
  · intro h
    cases h with
    | subnormal field_eq place_lt highest =>
        have hfield : x.field = 0 := x.fieldWord_eq_zero_iff.mp field_eq
        have hplace := (highest_iff (fraction_ne_zero hfield h0) place_lt).mp highest
        obtain ⟨hexponent, hmantissa⟩ := words_of_small hfield
        rw [hexponent, hmantissa, hplace]
        exact ⟨rfl, rfl⟩
    | normal field_ne =>
        have hfield : x.field ≠ 0 := mt x.fieldWord_eq_zero_iff.mpr field_ne
        obtain ⟨hexponent, hmantissa⟩ := words_of_normal hfield
        exact ⟨hexponent.symm, hmantissa.symm⟩
  · rintro ⟨rfl, rfl⟩
    by_cases hfield : x.field = 0
    · have hfraction := fraction_ne_zero hfield h0
      have hplace : x.fraction.log2 < 64 := by
        have hlog : x.fraction.log2 < 52 := (Nat.log2_lt hfraction).mpr x.fraction_lt
        omega
      obtain ⟨hexponent, hmantissa⟩ := words_of_small hfield
      rw [hexponent, hmantissa]
      exact .subnormal (x.fieldWord_eq_zero_iff.mpr hfield) hplace
        ((highest_iff hfraction hplace).mpr rfl)
    · obtain ⟨hexponent, hmantissa⟩ := words_of_normal hfield
      rw [hexponent, hmantissa]
      exact .normal (mt x.fieldWord_eq_zero_iff.mp hfield)

end Binary64

namespace Real

open Binary64 (signMask)

/-- A word without its low clear bits, all of them taken off at once. -/
inductive DropsClear (word : Int64) : Int64 → Prop
  | drop {place : Nat} (place_lt : place < 64) (clear : word &&& Int64.ofNat (2 ^ place - 1) = 0)
      (lowest : word >>> Int64.ofNat place &&& 1 ≠ 0) :
      DropsClear word (word >>> Int64.ofNat place)

/-- The first octet as its bits are set one after another. -/
def startOctet (negative : Prop) [Decidable negative] (exponentWidth : Nat) : UInt8 :=
  0x80 ||| (if negative then 0x40 else 0) ||| UInt8.ofNat (exponentWidth - 1)

/-- The contents that the bits of a number are made into. Where a loop does not end there are
none. -/
inductive Makes (x : Binary64) : Octets → Prop
  | contents {exponent mantissa stripped odd : Int64} {exponentShift oddShift : Nat}
      {front behind : Octets} (taken : x.Taken exponent mantissa)
      (exponent_starts : Integer.Starts exponent true exponentShift)
      (strips : StripOctets mantissa stripped) (drops : DropsClear stripped odd)
      (odd_starts : Integer.Starts odd true oddShift)
      (exponent_written : Integer.Writes exponent exponentShift front)
      (odd_written : Integer.Writes odd oddShift behind) :
      Makes x (startOctet (x.word &&& signMask ≠ 0) (Integer.width exponentShift) ::
        (front ++ behind))

variable {x : Binary64} {m : Nat} {word : Int64} {octets : Octets}

theorem Loop.unique {again : Int64 → Prop} {step : Int64 → Int64} {first last other : Int64}
    (h : Loop again step first last) (h' : Loop again step first other) : last = other := by
  induction h with
  | stop hstop =>
      cases h' with
      | stop => rfl
      | turn hturn => exact absurd hturn hstop
  | turn hturn more ih =>
      cases h' with
      | stop hstop => exact absurd hturn hstop
      | turn _ more' => exact ih more'

theorem word_and_one_ne_zero_iff (hm : m < 2 ^ 63) : Int64.ofNat m &&& 1 ≠ 0 ↔ m % 2 = 1 := by
  have hlow : Int64.ofNat m &&& 1 = 0 ↔ m % 2 = 0 := word_and_low_eq_zero_iff hm 1
  rw [ne_eq, hlow]
  omega

theorem DropsClear.eq_oddPart (hm : m < 2 ^ 63) (h : DropsClear (Int64.ofNat m) word) :
    word = Int64.ofNat (oddPart m) := by
  cases h with
  | @drop place place_lt clear lowest =>
      have hle := Nat.div_le_self m (2 ^ place)
      rw [word_shiftRight_place hm place_lt] at lowest ⊢
      rw [word_and_one_ne_zero_iff (by omega)] at lowest
      rw [word_and_low_eq_zero_iff hm] at clear
      have hshift : m / 2 ^ place * 2 ^ place = m :=
        Nat.div_mul_cancel (Nat.dvd_of_mod_eq_zero clear)
      have hodd := oddPart_odd_mul_pow lowest place
      rw [hshift] at hodd
      rw [hodd]

theorem dropsClear_oddPart (hm : m < 2 ^ 63) (h0 : m ≠ 0) :
    DropsClear (Int64.ofNat m) (Int64.ofNat (oddPart m)) := by
  obtain ⟨place, hplace⟩ := exists_eq_oddPart_mul h0
  have hle := oddPart_le m
  have hpow : 2 ^ place ≤ m := by
    have hpos : 0 < oddPart m := Nat.pos_of_ne_zero (oddPart_ne_zero h0)
    rw [hplace]
    exact Nat.le_mul_of_pos_left _ hpos
  have hlt : place < 63 := (Nat.pow_lt_pow_iff_right (by decide)).mp (Nat.lt_of_le_of_lt hpow hm)
  have hquotient : m / 2 ^ place = oddPart m :=
    Nat.div_eq_of_eq_mul_left (Nat.two_pow_pos place) hplace
  have hshift := word_shiftRight_place hm (show place < 64 by omega)
  rw [hquotient] at hshift
  rw [← hshift]
  refine .drop (by omega) ?_ ?_
  · rw [word_and_low_eq_zero_iff hm, hplace]
    exact Nat.mul_mod_left _ _
  · rw [hshift, word_and_one_ne_zero_iff (by omega)]
    exact oddPart_odd h0

theorem startOctet_eq (x : Binary64) {width : Nat} (h : width = 1 ∨ width = 2) :
    startOctet (x.word &&& signMask ≠ 0) width = firstOctet x.isNegative width := by
  have hsign := x.word_and_sign
  rw [startOctet, firstOctet]
  simp only [hsign]
  rcases h with rfl | rfl <;> cases x.isNegative <;> rfl

/-- Every loop ends for a number other than zero, and with its contents alone. -/
theorem makes_iff (hfinite : x.field ≠ 2047) (h0 : x.isZero = false) :
    Makes x octets ↔ octets = encode x := by
  obtain ⟨last, hstrips, hend, -⟩ := exists_stripOctets (shifted_significand h0)
  have hoctet := startOctet_eq x (length_exponent hfinite h0)
  rw [encode_of_number hfinite h0]
  constructor
  · intro h
    cases h with
    | contents taken exponent_starts strips drops odd_starts exponent_written odd_written =>
        obtain ⟨rfl, rfl⟩ := (Binary64.taken_iff h0).mp taken
        obtain rfl := strips.unique hstrips
        obtain rfl := drops.eq_oddPart hend.lt_bound
        obtain rfl := Integer.starts_iff.mp exponent_starts
        obtain rfl := Integer.starts_iff.mp odd_starts
        obtain rfl := Integer.writes_iff.mp exponent_written
        obtain rfl := Integer.writes_iff.mp odd_written
        rw [hend.oddPart_eq, ← hoctet, Integer.length_encode_eq]
        rfl
  · rintro rfl
    have hdrops := dropsClear_oddPart hend.lt_bound hend.ne_zero
    rw [hend.oddPart_eq] at hdrops
    rw [← hoctet, Integer.length_encode_eq]
    exact .contents ((Binary64.taken_iff h0).mpr ⟨rfl, rfl⟩) (Integer.starts_iff.mpr rfl) hstrips
      hdrops (Integer.starts_iff.mpr rfl) (Integer.writes_iff.mpr rfl) (Integer.writes_iff.mpr rfl)

end Real

end BasicEncoding
