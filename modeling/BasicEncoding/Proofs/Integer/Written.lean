import BasicEncoding.Proofs.Integer.Shortest

/-! The octets of a field as they are written one after another: the word is shifted down and cut to
its low octet, from the start shift down to zero. This ends for every start shift. Of all fields
that spell the number of a word, whatever their length, only one is as short. -/
namespace BasicEncoding.Integer

def lowOctet (v : Int64) : UInt8 :=
  v.toUInt64.toUInt8

/-- While the shift is not below zero the octet there is written. -/
inductive Writes (v : Int64) : Int → Octets → Prop
  | stop {shift : Int} (h : ¬0 ≤ shift) : Writes v shift []
  | turn {shift : Int} {rest : Octets} (h : 0 ≤ shift) (more : Writes v (shift - octetBits) rest) :
      Writes v shift (lowOctet (v >>> Int64.ofInt shift) :: rest)

structure Minimal (n : Int) (octets : Octets) : Prop where
  ne_nil : octets ≠ []
  spells : signedValue octets = n
  shortest : ∀ others, others ≠ [] → signedValue others = n →
    others = octets ∨ octets.length < others.length

variable {v : Int64} {signed : Bool} {n : Nat} {shift : Int} {octets others : Octets}

theorem Writes.unique (h : Writes v shift octets) (h' : Writes v shift others) :
    octets = others := by
  induction h generalizing others with
  | stop hstop =>
      cases h' with
      | stop => rfl
      | turn hturn => exact absurd hturn hstop
  | turn hturn more ih =>
      cases h' with
      | stop hstop => exact absurd hturn hstop
      | turn _ more' => rw [ih more']

theorem lowOctet_eq (v : Int64) : lowOctet v = UInt8.ofNat (v.toInt % 256).toNat := by
  obtain ⟨m, hm, rfl⟩ := exists_word v
  rw [toInt_word_emod hm, Int.toNat_natCast]
  apply UInt8.toNat_inj.mp
  have hoctet : (lowOctet (Int64.ofNat m)).toNat = m % 2 ^ 64 % 2 ^ 8 := rfl
  rw [hoctet, UInt8.toNat_ofNat']
  omega

theorem lowOctet_shiftRight (v : Int64) (hn : n ≤ 7) :
    lowOctet (v >>> Int64.ofNat (octetBits * n)) = octetAt v.toInt n := by
  rw [lowOctet_eq, toInt_word_shiftRight v hn]
  rfl

theorem shift_pred (n : Nat) :
    ((octetBits * (n + 1) : Nat) - octetBits : Int) = (octetBits * n : Nat) := by
  rw [Nat.mul_succ]
  omega

theorem writes_lowOctets (v : Int64) (hn : n ≤ 8) :
    Writes v ((octetBits * n : Nat) - octetBits : Int) (lowOctets v.toInt n) := by
  induction n with
  | zero => exact .stop (by decide)
  | succ n ih =>
      have hword : Int64.ofInt (octetBits * n : Nat) = Int64.ofNat (octetBits * n) :=
        Int64.ofInt_eq_ofNat
      have hwritten := ih (Nat.le_of_succ_le hn)
      rw [shift_pred, lowOctets, ← lowOctet_shiftRight v (Nat.le_of_succ_le_succ hn), ← hword]
      exact .turn (Int.natCast_nonneg _) hwritten

theorem exists_startPlace (v : Int64) (signed : Bool) :
    ∃ place ≤ 7, startShift v signed = octetBits * place := by
  have hle := topPlace_le_start v.toInt 7
  rw [startShift_eq]
  split
  · next hbit =>
    have hbelow : topPlace v.toInt 7 ≠ 7 := by
      intro htop
      exact top_octet_shows_sign v (htop ▸ hbit.2)
    exact ⟨_, by omega, rfl⟩
  · exact ⟨_, hle, rfl⟩

/-- Writing ends with the octets of the field and with nothing else. -/
theorem writes_iff :
    Writes v (startShift v signed) octets ↔ octets = octetsFrom v (startShift v signed) := by
  have hwrites : Writes v (startShift v signed) (octetsFrom v (startShift v signed)) := by
    obtain ⟨place, hplace, hstart⟩ := exists_startPlace v signed
    have hwritten := writes_lowOctets v (Nat.succ_le_succ hplace)
    rw [shift_pred] at hwritten
    rw [hstart, octetsFrom_place]
    exact hwritten
  constructor
  · intro h
    exact h.unique hwrites
  · rintro rfl
    exact hwrites

theorem encode_minimal (v : Int64) : Minimal v.toInt (encode v) := by
  refine ⟨encode_ne_nil v, signedValue_encode v, ?_⟩
  intro others hne hspells
  have hread : read true others = .ok v := read_eq_ok_iff.mpr ⟨hne, hspells.symm⟩
  exact (encode_onlyShortest v).shortest others hread

/-- A number that shows its sign in `place + 1` octets is not spelled in more of them. -/
theorem Minimal.length_le {number : Int} {place : Nat} (h : Minimal number octets)
    (hwithin : Within 128 place number) : octets.length ≤ place + 1 := by
  have hne : lowOctets number (place + 1) ≠ [] := List.cons_ne_nil _ _
  have hlength := length_lowOctets number (place + 1)
  rcases h.shortest _ hne (signedValue_lowOctets hwithin) with hsame | hlonger
  · rw [← hsame]
    exact Nat.le_of_eq hlength
  · omega

end BasicEncoding.Integer
