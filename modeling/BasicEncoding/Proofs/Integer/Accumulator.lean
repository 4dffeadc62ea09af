import BasicEncoding.Proofs.Integer.Exact
import BasicEncoding.Proofs.Words
import Mathlib.Data.List.Induction

/-! A field read octet by octet, on words that are shifted, joined and masked. The nine top bits of
an accumulator are compared with the sign of the field before each further octet, and this test is
exactly what keeps the shift from losing anything: every accumulator has the number that the octets
taken so far spell. -/
namespace BasicEncoding.Integer

/-- The nine top bits of a word, the sign bit among them. -/
def topBits : Int64 := allBits <<< 55

def showsMinus (signed : Bool) : Octets → Bool
  | [] => false
  | first :: _ => signed && 128 ≤ first

/-- The accumulator behind the first octet, which is extended by its sign. -/
def opening (signed : Bool) (first : UInt8) : Int64 :=
  if showsMinus signed [first] then allBits <<< 8 ||| Int64.ofNat first.toNat
  else Int64.ofNat first.toNat

/-- The accumulators of a field. Another octet is taken only where the top bits repeat the sign, so
octets that are refused have no accumulator. -/
inductive Accumulates (signed : Bool) : Octets → Int64 → Prop
  | first (octet : UInt8) : Accumulates signed [octet] (opening signed octet)
  | next {front : Octets} {word : Int64} (octet : UInt8) (before : Accumulates signed front word)
      (room : word &&& topBits = if showsMinus signed front then topBits else 0) :
      Accumulates signed (front ++ [octet]) (word <<< 8 ||| Int64.ofNat octet.toNat)

def spelled (signed : Bool) (octets : Octets) : Int :=
  if signed then signedValue octets else unsignedValue octets

def Fits (value : Int) : Prop :=
  -2 ^ 63 ≤ value ∧ value < 2 ^ 63

variable {signed : Bool} {octets front : Octets} {word : Int64}

theorem showsMinus_append (h : front ≠ []) (behind : Octets) :
    showsMinus signed (front ++ behind) = showsMinus signed front := by
  obtain ⟨first, rest, rfl⟩ := List.exists_cons_of_ne_nil h
  rfl

theorem spelled_eq (signed : Bool) (octets : Octets) :
    spelled signed octets =
      unsignedValue octets - if showsMinus signed octets then 256 ^ octets.length else 0 := by
  cases octets with
  | nil => cases signed <;> simp [spelled, signedValue, showsMinus]
  | cons first rest =>
      cases signed <;> simp [spelled, signedValue, showsMinus, UInt8.le_iff_toNat_le]

theorem spelled_append_octet (h : front ≠ []) (octet : UInt8) :
    spelled signed (front ++ [octet]) = spelled signed front * 256 + octet.toNat := by
  have hone : unsignedValue [octet] = octet.toNat := by simp [unsignedValue]
  rw [spelled_eq, spelled_eq, showsMinus_append h, unsignedValue_append, List.length_append, hone,
    List.length_singleton, Nat.pow_one, Int.pow_succ, Int.natCast_add, Int.natCast_mul]
  split <;> omega

theorem natCast_unsignedValue_lt (octets : Octets) :
    (unsignedValue octets : Int) < 256 ^ octets.length := by
  have hcast := Int.ofNat_lt.mpr (unsignedValue_lt octets)
  rwa [Int.natCast_pow] at hcast

theorem spelled_neg_iff (signed : Bool) (octets : Octets) :
    spelled signed octets < 0 ↔ showsMinus signed octets = true := by
  have hlt := natCast_unsignedValue_lt octets
  rw [spelled_eq]
  split
  · next hminus => exact iff_of_true (by omega) hminus
  · next hminus => exact iff_of_false (by omega) hminus

theorem word_and_topBits {n : Nat} (hn : n < 2 ^ 64) :
    Int64.ofNat n &&& topBits = Int64.ofNat (n / 2 ^ 55 * 2 ^ 55) := by
  have hmask : topBits = Int64.ofNat (511 * 2 ^ 55) := rfl
  have hfield : n / 2 ^ 55 &&& 511 = n / 2 ^ 55 := by
    have hmod := Nat.and_two_pow_sub_one_eq_mod (n / 2 ^ 55) 9
    rwa [Nat.mod_eq_of_lt (by omega)] at hmod
  rw [hmask, word_and, and_mul_pow, hfield]

theorem toInt_and_topBits (word : Int64) :
    (word &&& topBits).toInt = word.toInt / 2 ^ 55 * 2 ^ 55 := by
  obtain ⟨n, hn, rfl⟩ := exists_word word
  have hmasked : n / 2 ^ 55 * 2 ^ 55 < 2 ^ 64 := by omega
  rw [word_and_topBits hn, toInt_word hmasked, toInt_word hn]
  split <;> split <;> omega

/-- The top bits repeat the sign of a word exactly where the word is small enough to be shifted by
an octet. -/
theorem room_iff (hspelled : word.toInt = spelled signed front) :
    (word &&& topBits = if showsMinus signed front then topBits else 0) ↔
      -2 ^ 55 ≤ word.toInt ∧ word.toInt < 2 ^ 55 := by
  have hsign := spelled_neg_iff signed front
  have hmask := toInt_and_topBits word
  have hset : topBits.toInt = -2 ^ 55 := rfl
  have hclear : (0 : Int64).toInt = 0 := rfl
  rw [← Int64.toInt_inj, hmask]
  split
  · next hminus =>
    have hneg := hsign.mpr hminus
    omega
  · next hminus =>
    have hpos := mt hsign.mp hminus
    omega

theorem toInt_opening (octet : UInt8) :
    (opening signed octet).toInt = spelled signed [octet] := by
  have hoctet : octet.toNat < 256 := octet.toNat_lt
  have hsingle : spelled signed [octet] =
      octet.toNat - if showsMinus signed [octet] then 256 else 0 := by
    rw [spelled_eq]
    simp [unsignedValue]
  have hall : (allBits * 256).toInt = -256 := rfl
  rw [hsingle, opening]
  split
  · rw [word_shiftLeft_or, Int64.toInt_add, hall, toInt_ofNat_octet]
    exact Int.bmod_eq_of_le (by omega) (by omega)
  · rw [toInt_ofNat_octet, Int.sub_zero]

/-- No step wraps: every accumulator has the number spelled so far. -/
theorem Accumulates.toInt_eq (h : Accumulates signed octets word) :
    octets ≠ [] ∧ word.toInt = spelled signed octets := by
  induction h with
  | first octet => exact ⟨List.cons_ne_nil _ _, toInt_opening octet⟩
  | @next front word octet before room ih =>
      obtain ⟨hne, hspelled⟩ := ih
      obtain ⟨hlow, hhigh⟩ := (room_iff hspelled).mp room
      refine ⟨List.append_ne_nil_of_left_ne_nil hne _, ?_⟩
      rw [word_shiftLeft_or, toInt_shift hlow hhigh, hspelled, spelled_append_octet hne]

theorem accumulates_of_spelled (hne : octets ≠ []) (hspelled : word.toInt = spelled signed octets) :
    Accumulates signed octets word := by
  -- from the last octet to the first: what a word holds, it holds without the octet behind
  induction octets using List.reverseRecOn generalizing word with
  | nil => exact absurd rfl hne
  | append_singleton front octet ih =>
      by_cases hfront : front = []
      · subst hfront
        have hword : word = opening signed octet :=
          Int64.toInt_inj.mp (hspelled.trans (toInt_opening octet).symm)
        exact hword ▸ .first octet
      · have hlow := word.le_toInt
        have hhigh := word.toInt_lt
        have hoctet : octet.toNat < 256 := octet.toNat_lt
        rw [spelled_append_octet hfront] at hspelled
        have hheld : (Int64.ofInt (spelled signed front)).toInt = spelled signed front :=
          toInt_ofInt_of_fits (by omega) (by omega)
        have hroom := (room_iff hheld).mpr ⟨by omega, by omega⟩
        have hnext := Accumulates.next octet (ih hfront hheld) hroom
        have hword : word = Int64.ofInt (spelled signed front) <<< 8 ||| Int64.ofNat octet.toNat := by
          apply Int64.toInt_inj.mp
          rw [word_shiftLeft_or, toInt_shift (by omega) (by omega), hheld, hspelled]
        exact hword ▸ hnext

theorem read_eq (h : octets ≠ []) :
    read signed octets = ofValue octets.length (spelled signed octets) := by
  cases signed with
  | false => exact read_unsigned h
  | true => exact read_signed h

theorem read_eq_ok_iff : read signed octets = .ok word ↔
    octets ≠ [] ∧ word.toInt = spelled signed octets := by
  by_cases hne : octets = []
  · subst hne
    constructor
    · intro h
      cases h
    · intro h
      exact absurd rfl h.1
  · rw [read_eq hne, ofValue]
    split
    · next hfits =>
      have hback := toInt_ofInt_of_fits hfits.1 hfits.2
      constructor
      · intro h
        cases h
        exact ⟨hne, hback⟩
      · rintro ⟨-, hspelled⟩
        rw [← hspelled, Int64.ofInt_toInt]
    · next hfits =>
      constructor
      · intro h
        cases h
      · rintro ⟨-, hspelled⟩
        exact absurd (hspelled ▸ ⟨word.le_toInt, word.toInt_lt⟩) hfits

theorem read_refused (h : ¬(octets ≠ [] ∧ Fits (spelled signed octets))) :
    read signed octets =
      .error (if octets = [] then .fieldEmpty else .integerTooWide octets.length) := by
  by_cases hne : octets = []
  · subst hne
    rfl
  · rw [read_eq hne, ofValue, if_neg hne]
    exact if_neg fun hfits => h ⟨hne, hfits⟩

/-- Fields of any length are read as the number that they spell, if they are not empty and a word
has that number, and are refused otherwise. What is read is the last accumulator, and no accumulator
on the way is anything but the number of the octets taken so far. -/
theorem read_exact (signed : Bool) (octets : Octets) :
    ((∃ v, read signed octets = .ok v) ↔ octets ≠ [] ∧ Fits (spelled signed octets)) ∧
    (∀ v, read signed octets = .ok v → v.toInt = spelled signed octets) ∧
    (¬(octets ≠ [] ∧ Fits (spelled signed octets)) →
      read signed octets =
        .error (if octets = [] then .fieldEmpty else .integerTooWide octets.length)) ∧
    (∀ v, read signed octets = .ok v ↔ Accumulates signed octets v) ∧
    ∀ front word, Accumulates signed front word → word.toInt = spelled signed front := by
  refine ⟨⟨?_, ?_⟩, fun v h => (read_eq_ok_iff.mp h).2, read_refused, ?_,
    fun _ _ h => h.toInt_eq.2⟩
  · rintro ⟨v, h⟩
    obtain ⟨hne, hspelled⟩ := read_eq_ok_iff.mp h
    exact ⟨hne, hspelled ▸ ⟨v.le_toInt, v.toInt_lt⟩⟩
  · rintro ⟨hne, hlow, hhigh⟩
    exact ⟨_, read_eq_ok_iff.mpr ⟨hne, toInt_ofInt_of_fits hlow hhigh⟩⟩
  · intro v
    constructor
    · intro h
      obtain ⟨hne, hspelled⟩ := read_eq_ok_iff.mp h
      exact accumulates_of_spelled hne hspelled
    · intro h
      exact read_eq_ok_iff.mpr h.toInt_eq

/-- Two octets that only repeat the sign in front of the least word. -/
example : read true [0xFF, 0xFF, 0x80, 0, 0, 0, 0, 0, 0, 0] = .ok Int64.minValue := by decide

end BasicEncoding.Integer
