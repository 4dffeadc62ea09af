import BasicEncoding.Proofs.Integer.Accumulator
import BasicEncoding.Proofs.Integer.Scan
import BasicEncoding.Proofs.Spelling

/-! The field written for a word is the only shortest one that is read as this word. Fields of one
length are told apart by what they spell, so it is enough that no shorter field spells the number:
the number of `n + 1` octets lies within `128 * 256 ^ n` of zero if they are read with a sign and
below `256 ^ (n + 1)` if not, and the start shift is the least that leaves this much room. -/
namespace BasicEncoding.Integer

variable {signed : Bool} {octets others : Octets} {v : Int64}

/-- Read as a word, and shorter than every other field that is. -/
structure OnlyShortest (signed : Bool) (v : Int64) (octets : Octets) : Prop where
  reads : read signed octets = .ok v
  shortest : ∀ others, read signed others = .ok v → others = octets ∨ octets.length < others.length

/-- Fields of one length that spell one number are one field. -/
theorem eq_of_spelled (hlength : octets.length = others.length)
    (h : spelled signed octets = spelled signed others) : octets = others := by
  have hsign : showsMinus signed octets = true ↔ showsMinus signed others = true := by
    rw [← spelled_neg_iff, ← spelled_neg_iff, h]
  apply eq_of_unsignedValue hlength
  rw [spelled_eq, spelled_eq, Bool.eq_iff_iff.mpr hsign, hlength] at h
  omega

theorem onlyShortest_of_le (hread : read signed octets = .ok v)
    (hle : ∀ others, read signed others = .ok v → octets.length ≤ others.length) :
    OnlyShortest signed v octets := by
  refine ⟨hread, ?_⟩
  intro others hothers
  rcases Nat.eq_or_lt_of_le (hle others hothers) with hlength | hlonger
  · left
    apply eq_of_spelled hlength.symm
    rw [← (read_eq_ok_iff.mp hothers).2, ← (read_eq_ok_iff.mp hread).2]
  · exact .inr hlonger

theorem Within.mono {scale n m : Nat} {v : Int} (h : Within scale n v) (hle : n ≤ m) :
    Within scale m v := by
  have hpower : (scale : Int) * 256 ^ n ≤ scale * 256 ^ m :=
    Int.mul_le_mul_of_nonneg_left (power_le hle) (Int.natCast_nonneg scale)
  obtain ⟨hlow, hhigh⟩ := h
  constructor <;> omega

theorem within_signedValue (first : UInt8) (rest : Octets) :
    Within 128 rest.length (signedValue (first :: rest)) := by
  have hfirst : first.toNat < 256 := first.toNat_lt
  have hlow := natCast_unsignedValue_lt rest
  rw [within_iff]
  have hquotient : signedValue (first :: rest) / 256 ^ rest.length =
      first.toNat - if 128 ≤ first.toNat then 256 else 0 := by
    have hsum : signedValue (first :: rest) = unsignedValue rest +
        (first.toNat - if 128 ≤ first.toNat then 256 else 0) * 256 ^ rest.length := by
      rw [signedValue, unsignedValue_cons, Int.natCast_add, Int.natCast_mul, Int.natCast_pow,
        Int.pow_succ]
      split <;> grind
    rw [hsum, Int.add_mul_ediv_right _ _ (Int.ne_of_gt (power_pos _)),
      Int.ediv_eq_zero_of_lt (Int.natCast_nonneg _) hlow, Int.zero_add]
  rw [hquotient]
  split <;> omega

theorem length_encode_le_of_read (h : read true octets = .ok v) :
    (encode v).length ≤ octets.length := by
  obtain ⟨hne, hspelled⟩ := read_eq_ok_iff.mp h
  obtain ⟨first, rest, rfl⟩ := List.exists_cons_of_ne_nil hne
  have hvalue : v.toInt = signedValue (first :: rest) := hspelled
  rw [length_encode, hvalue]
  exact Nat.succ_le_succ (signedPlace_le (within_signedValue first rest))

theorem length_encode_eq (v : Int64) : (encode v).length = width (startShift v true) := by
  rw [encode, octetsFrom, length_lowOctets]

theorem length_encode_le (v : Int64) : (encode v).length ≤ 8 := by
  have hlow := v.le_toInt
  have hhigh := v.toInt_lt
  have hword : Within 128 7 v.toInt := by constructor <;> omega
  rw [length_encode]
  exact Nat.succ_le_succ (signedPlace_le hword)

theorem encode_onlyShortest (v : Int64) : OnlyShortest true v (encode v) :=
  onlyShortest_of_le (read_encode v) fun _ => length_encode_le_of_read

theorem octetsFrom_unsigned (v : Int64) :
    octetsFrom v (startShift v false) = lowOctets v.toInt (topPlace v.toInt 7 + 1) := by
  have hshift : startShift v false = octetBits * topPlace v.toInt 7 := by
    simp [startShift, octetBits, topShift, wordBits]
  rw [hshift, octetsFrom_place]

theorem unsigned_onlyShortest (h : 0 ≤ v) :
    OnlyShortest false v (octetsFrom v (startShift v false)) := by
  have hpos : 0 ≤ v.toInt := Int64.le_iff_toInt_le.mp h
  have hroom : Within 1 (topPlace v.toInt 7 + 1) v.toInt := within_topPlace (within_word v)
  have hvalue : spelled false (octetsFrom v (startShift v false)) = v.toInt := by
    change (unsignedValue _ : Int) = _
    have hhigh := hroom.2
    rw [octetsFrom_unsigned, unsignedValue_lowOctets]
    exact Int.emod_eq_of_lt hpos (by omega)
  have hne : octetsFrom v (startShift v false) ≠ [] := by
    rw [octetsFrom_unsigned]
    exact List.cons_ne_nil _ _
  apply onlyShortest_of_le (read_eq_ok_iff.mpr ⟨hne, hvalue.symm⟩)
  intro others hothers
  obtain ⟨hothersne, hspelled⟩ := read_eq_ok_iff.mp hothers
  obtain ⟨first, rest, rfl⟩ := List.exists_cons_of_ne_nil hothersne
  have hspells : v.toInt = unsignedValue (first :: rest) := hspelled
  have hwithin : Within 1 (rest.length + 1) v.toInt := by
    have hlt := natCast_unsignedValue_lt (first :: rest)
    rw [List.length_cons] at hlt
    constructor <;> omega
  have hplace : topPlace v.toInt 7 ≤ rest.length :=
    topPlace_le (fun j hj => octetAt_eq_filler (hwithin.mono hj)) 7
  rw [octetsFrom_unsigned, length_lowOctets, List.length_cons]
  exact Nat.succ_le_succ hplace

/-- With a sign every word is written in one to eight octets, without one every word that is not
negative; either field is read back as the word and is the only shortest that is. The start shift
that tells its width is where the search on the word ends, and the search ends nowhere else. -/
theorem encode_only_shortest (v : Int64) :
    ((encode v).length = width (startShift v true) ∧ 1 ≤ (encode v).length ∧
      (encode v).length ≤ 8 ∧ OnlyShortest true v (encode v)) ∧
    (0 ≤ v → OnlyShortest false v (octetsFrom v (startShift v false))) ∧
    ∀ signed shift, Starts v signed shift ↔ shift = startShift v signed := by
  refine ⟨⟨length_encode_eq v, ?_, length_encode_le v, encode_onlyShortest v⟩,
    unsigned_onlyShortest, fun _ _ => starts_iff⟩
  exact List.length_pos_iff.mpr (encode_ne_nil v)

/-- A top bit that is no sign takes an octet of its own only where there is a sign. -/
example : encode 128 = [0x00, 0x80] ∧ octetsFrom 128 (startShift 128 false) = [0x80] := by decide

end BasicEncoding.Integer
