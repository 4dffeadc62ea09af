import BasicEncoding.Integer

/-! Reading an integer field is exact. The value that the octets spell is computed on unbounded
numbers first; the word read is that value where a word holds it, and nothing else is ever read. -/
namespace BasicEncoding.Integer

/-- The word with a value, for a field of so many octets; a value that no word has is refused. -/
def ofValue (octets : Nat) (value : Int) : Except Defect Int64 :=
  if -2 ^ 63 ≤ value ∧ value < 2 ^ 63 then .ok (Int64.ofInt value)
  else .error (.integerTooWide octets)

theorem ofValue_toInt (octets : Nat) (v : Int64) : ofValue octets v.toInt = .ok v := by
  have hlow : -2 ^ 63 ≤ v.toInt := v.le_toInt
  have hhigh : v.toInt < 2 ^ 63 := v.toInt_lt
  rw [ofValue, if_pos ⟨hlow, hhigh⟩, Int64.ofInt_toInt]

theorem toInt_ofInt_of_fits {value : Int} (hlow : -2 ^ 63 ≤ value) (hhigh : value < 2 ^ 63) :
    (Int64.ofInt value).toInt = value :=
  Int64.toInt_ofInt_of_le hlow hhigh

/-- The test before each shift: outside of it no further octet can be taken. -/
theorem outside_bound_iff {word : Int64} :
    (word < -shiftBound ∨ shiftBound ≤ word) ↔ word.toInt < -2 ^ 55 ∨ 2 ^ 55 ≤ word.toInt := by
  rw [Int64.lt_iff_toInt_lt, Int64.le_iff_toInt_le]
  exact Iff.rfl

theorem toInt_shift {word : Int64} {octet : UInt8} (hlow : -2 ^ 55 ≤ word.toInt)
    (hhigh : word.toInt < 2 ^ 55) :
    (word * 256 + Int64.ofNat octet.toNat).toInt = word.toInt * 256 + octet.toNat := by
  have hoctet : octet.toNat < 256 := octet.toNat_lt
  have hword : (Int64.ofNat octet.toNat).toInt = octet.toNat :=
    Int64.toInt_ofNat_of_lt (by omega)
  have hproduct : (word * 256).toInt = word.toInt * 256 := by
    rw [Int64.toInt_mul]
    exact Int.bmod_eq_of_le (by change _ ≤ word.toInt * 256; omega)
      (by change word.toInt * 256 < _; omega)
  rw [Int64.toInt_add, hword, hproduct]
  exact Int.bmod_eq_of_le (by omega) (by omega)

/-- A word beyond the bound spells a number that no word holds, whatever octets follow. -/
theorem not_fits_of_outside {word : Int} {count value : Nat} (hvalue : value < 256 ^ (count + 1))
    (h : word < -2 ^ 55 ∨ 2 ^ 55 ≤ word) :
    ¬(-2 ^ 63 ≤ word * 256 ^ (count + 1) + value ∧ word * 256 ^ (count + 1) + value < 2 ^ 63) := by
  have hunit : (1 : Int) ≤ 256 ^ count := Int.pow_pos (by decide)
  have hspan : (value : Int) < 256 ^ count * 256 := by
    have hcast : (value : Int) < (256 ^ (count + 1) : Nat) := Int.ofNat_lt.mpr hvalue
    rwa [Int.natCast_pow, Int.pow_succ] at hcast
  rw [Int.pow_succ 256 count]
  rintro ⟨hlow, hhigh⟩
  rcases h with hneg | hpos
  · have hword : word ≤ -2 ^ 55 - 1 := by omega
    have hscaled : word * (256 ^ count * 256) ≤ (-2 ^ 55 - 1) * (256 ^ count * 256) :=
      Int.mul_le_mul_of_nonneg_right hword (by omega)
    omega
  · have hscaled : 2 ^ 55 * (256 ^ count * 256) ≤ word * (256 ^ count * 256) :=
      Int.mul_le_mul_of_nonneg_right hpos (by omega)
    omega

theorem spelled_shift (word : Int) (octet : UInt8) (rest : Octets) :
    word * 256 ^ (octet :: rest).length + unsignedValue (octet :: rest) =
      (word * 256 + octet.toNat) * 256 ^ rest.length + unsignedValue rest := by
  rw [unsignedValue_cons, List.length_cons, Int.pow_succ, Int.natCast_add, Int.natCast_mul,
    Int.natCast_pow]
  grind

/-- Octets are shifted in without loss as long as the number spelled fits a word. -/
theorem accumulate_eq (octets : Nat) (word : Int64) (rest : Octets) :
    accumulate octets word rest =
      ofValue octets (word.toInt * 256 ^ rest.length + unsignedValue rest) := by
  induction rest generalizing word with
  | nil =>
      rw [accumulate, List.length_nil, Int.pow_zero, Int.mul_one, unsignedValue_nil]
      exact (Int.add_zero word.toInt ▸ ofValue_toInt octets word).symm
  | cons octet rest ih =>
      rw [accumulate]
      split
      · next h =>
        have hlong := not_fits_of_outside (unsignedValue_lt (octet :: rest)) (outside_bound_iff.mp h)
        rw [ofValue]
        exact (if_neg hlong).symm
      · next h =>
        have hin : ¬(word.toInt < -2 ^ 55 ∨ 2 ^ 55 ≤ word.toInt) := mt outside_bound_iff.mpr h
        rw [ih, toInt_shift (by omega) (by omega), spelled_shift]

theorem toInt_ofNat_octet (octet : UInt8) : (Int64.ofNat octet.toNat).toInt = octet.toNat := by
  have hoctet : octet.toNat < 256 := octet.toNat_lt
  exact Int64.toInt_ofNat_of_lt (by omega)

theorem read_signed {octets : Octets} (h : octets ≠ []) :
    read true octets = ofValue octets.length (signedValue octets) := by
  obtain ⟨first, rest, rfl⟩ := List.exists_cons_of_ne_nil h
  have hfirst : first.toNat < 256 := first.toNat_lt
  have hlead : (if true = true ∧ 128 ≤ first then Int64.ofNat first.toNat - 256
      else Int64.ofNat first.toNat).toInt =
      (first.toNat : Int) - if 128 ≤ first.toNat then 256 else 0 := by
    have hiff : (128 : UInt8) ≤ first ↔ 128 ≤ first.toNat := UInt8.le_iff_toNat_le
    have h256 : (256 : Int64).toInt = 256 := rfl
    by_cases hc : 128 ≤ first.toNat
    · rw [if_pos ⟨rfl, hiff.mpr hc⟩, if_pos hc, Int64.toInt_sub, toInt_ofNat_octet, h256]
      exact Int.bmod_eq_of_le (by omega) (by omega)
    · rw [if_neg (fun hn => hc (hiff.mp hn.2)), if_neg hc, toInt_ofNat_octet, Int.sub_zero]
  rw [read, accumulate_eq, hlead, signedValue, unsignedValue_cons, List.length_cons]
  congr 1
  rw [Int.natCast_add, Int.natCast_mul, Int.natCast_pow, Int.pow_succ]
  split <;> grind

theorem read_unsigned {octets : Octets} (h : octets ≠ []) :
    read false octets = ofValue octets.length (unsignedValue octets) := by
  obtain ⟨first, rest, rfl⟩ := List.exists_cons_of_ne_nil h
  rw [read, if_neg (fun hn => Bool.false_ne_true hn.1), accumulate_eq, toInt_ofNat_octet,
    unsignedValue_cons, List.length_cons, Int.natCast_add, Int.natCast_mul, Int.natCast_pow]
  rfl

end BasicEncoding.Integer
