import BasicEncoding.Proofs.Integer.RoundTrip
import BasicEncoding.Proofs.Words

/-! The start shift as it is looked for on a word. Octets are shifted down and masked, those that
only repeat the sign are skipped from the top, and one is added back where the top bit of what is
left would show the wrong sign. The search ends, and it ends at the start shift. -/
namespace BasicEncoding.Integer

def octetOf (v : Int64) (shift : Nat) : Int64 :=
  v >>> Int64.ofNat shift &&& 0xFF

def signOctet (v : Int64) : Int64 :=
  if v < 0 then 0xFF else 0x00

/-- While an octet above the lowest only repeats the sign, the next one is looked at. -/
inductive Skips (v : Int64) : Nat → Nat → Prop
  | stop {shift : Nat} (h : ¬(octetOf v shift = signOctet v ∧ 0 < shift)) : Skips v shift shift
  | turn {shift last : Nat} (h : octetOf v shift = signOctet v ∧ 0 < shift)
      (more : Skips v (shift - octetBits) last) : Skips v shift last

def Single (v : Int64) (signed : Bool) : Prop :=
  (-128 ≤ v ∧ v ≤ 127) ∧ (signed = true ∨ 0 ≤ v)

/-- The top bit of the octet shows the wrong sign, and there is another octet above. -/
def Misleads (v : Int64) (signed : Bool) (shift : Nat) : Prop :=
  signed = true ∧ shift < topShift ∧ (0 < v ↔ octetOf v shift &&& 0x80 ≠ 0)

inductive Starts (v : Int64) (signed : Bool) : Nat → Prop
  | single (h : Single v signed) : Starts v signed 0
  | skipped {shift : Nat} (h : ¬Single v signed) (skips : Skips v topShift shift)
      (shows : ¬Misleads v signed shift) : Starts v signed shift
  | added {shift : Nat} (h : ¬Single v signed) (skips : Skips v topShift shift)
      (hides : Misleads v signed shift) : Starts v signed (shift + octetBits)

variable {v : Int64} {signed : Bool} {n shift : Nat}

theorem Skips.unique {start first second : Nat} (h : Skips v start first)
    (h' : Skips v start second) : first = second := by
  induction h with
  | stop hstop =>
      cases h' with
      | stop => rfl
      | turn hturn => exact absurd hturn hstop
  | turn hturn more ih =>
      cases h' with
      | stop hstop => exact absurd hturn hstop
      | turn _ more' => exact ih more'

theorem Starts.unique {first second : Nat} (h : Starts v signed first)
    (h' : Starts v signed second) : first = second := by
  cases h with
  | single hsingle =>
      cases h' with
      | single => rfl
      | skipped hnot => exact absurd hsingle hnot
      | added hnot => exact absurd hsingle hnot
  | skipped hnot skips shows =>
      cases h' with
      | single hsingle => exact absurd hsingle hnot
      | skipped _ skips' => exact skips.unique skips'
      | added _ skips' hides => exact absurd (skips.unique skips' ▸ hides) shows
  | added hnot skips hides =>
      cases h' with
      | single hsingle => exact absurd hsingle hnot
      | skipped _ skips' shows => exact absurd (skips'.unique skips ▸ hides) shows
      | added _ skips' => rw [skips.unique skips']

theorem toInt_word_shiftRight (v : Int64) (hn : n ≤ 7) :
    (v >>> Int64.ofNat (octetBits * n)).toInt = v.toInt / 256 ^ n := by
  have hshift : ∀ k < 8, ((Int64.ofNat (octetBits * k)).toBitVec.smod 64).toNat = 8 * k := by decide
  have hpow : ((2 ^ (8 * n) : Nat) : Int) = 256 ^ n := by
    rw [Nat.pow_mul, Int.natCast_pow]
    rfl
  rw [← Int64.toInt_toBitVec, Int64.toBitVec_shiftRight, BitVec.toInt_sshiftRight',
    hshift n (by omega), Int.shiftRight_eq_div_pow, hpow, Int64.toInt_toBitVec]

theorem toInt_word_emod {m : Nat} (hm : m < 2 ^ 64) :
    (Int64.ofNat m).toInt % 256 = (m % 256 : Nat) := by
  rw [toInt_word hm]
  split <;> omega

theorem word_and_octet (v : Int64) : v &&& 0xFF = Int64.ofNat (v.toInt % 256).toNat := by
  obtain ⟨m, hm, rfl⟩ := exists_word v
  have hmask : Int64.ofNat m &&& 0xFF = Int64.ofNat (m &&& 2 ^ 8 - 1) := word_and m 255
  rw [hmask, Nat.and_two_pow_sub_one_eq_mod, toInt_word_emod hm]
  rfl

theorem octetOf_eq (v : Int64) (hn : n ≤ 7) :
    octetOf v (octetBits * n) = Int64.ofNat (octetAt v.toInt n).toNat := by
  have hoctet := toNat_octetAt v.toInt n
  rw [octetOf, word_and_octet, toInt_word_shiftRight v hn, ← hoctet]
  rfl

theorem octetOf_eq_signOctet_iff (hn : n ≤ 7) :
    octetOf v (octetBits * n) = signOctet v ↔ octetAt v.toInt n = filler v.toInt := by
  have hsign : signOctet v = Int64.ofNat (filler v.toInt).toNat := by
    have hneg : v < 0 ↔ v.toInt < 0 := Int64.lt_iff_toInt_lt
    simp only [signOctet, filler, hneg]
    split <;> rfl
  rw [octetOf_eq v hn, hsign, ← Int64.toInt_inj, toInt_ofNat_octet, toInt_ofNat_octet, Int.ofNat_inj,
    UInt8.toNat_inj]

theorem topBit_ne_zero_iff (hn : n ≤ 7) :
    octetOf v (octetBits * n) &&& 0x80 ≠ 0 ↔ 128 ≤ (octetAt v.toInt n).toNat := by
  have hoctet : (octetAt v.toInt n).toNat < 256 := UInt8.toNat_lt _
  rw [octetOf_eq v hn]
  generalize (octetAt v.toInt n).toNat = octet at hoctet ⊢
  have hmask : Int64.ofNat octet &&& 0x80 = Int64.ofNat (octet / 2 ^ 7 % 2 * 2 ^ 7) := by
    rw [← Nat.and_one_is_mod, ← and_mul_pow]
    exact word_and octet (1 * 2 ^ 7)
  rw [hmask, ne_eq, word_eq_zero_iff (by omega)]
  omega

theorem topPlace_le_start (v : Int) (n : Nat) : topPlace v n ≤ n := by
  induction n with
  | zero => exact Nat.le_refl 0
  | succ n ih =>
      rw [topPlace]
      split
      · exact Nat.le_succ_of_le ih
      · exact Nat.le_refl (n + 1)

/-- Skipping ends at the top place. -/
theorem skips_topPlace (v : Int64) (hn : n ≤ 7) :
    Skips v (octetBits * n) (octetBits * topPlace v.toInt n) := by
  induction n with
  | zero => exact .stop fun h => absurd h.2 (Nat.lt_irrefl 0)
  | succ n ih =>
      rw [topPlace]
      split
      · next hfiller =>
        have hrepeats := (octetOf_eq_signOctet_iff hn).mpr hfiller
        exact .turn ⟨hrepeats, Nat.succ_pos _⟩ (ih (Nat.le_of_succ_le hn))
      · next hfiller => exact .stop fun h => hfiller ((octetOf_eq_signOctet_iff hn).mp h.1)

theorem startShift_eq (v : Int64) (signed : Bool) :
    startShift v signed = octetBits * if signed = true ∧
      (128 ≤ (octetAt v.toInt (topPlace v.toInt 7)).toNat ↔ 0 ≤ v.toInt)
      then topPlace v.toInt 7 + 1 else topPlace v.toInt 7 := rfl

theorem top_octet_shows_sign (v : Int64) :
    ¬(128 ≤ (octetAt v.toInt 7).toNat ↔ 0 ≤ v.toInt) := by
  have hlow := v.le_toInt
  have hhigh := v.toInt_lt
  have hoctet := toNat_octetAt v.toInt 7
  omega

theorem startShift_of_single (h : Single v signed) : startShift v signed = 0 := by
  have hlow : -128 ≤ v.toInt := Int64.le_iff_toInt_le.mp h.1.1
  have hhigh : v.toInt ≤ 127 := Int64.le_iff_toInt_le.mp h.1.2
  have hplace : topPlace v.toInt 7 = 0 := by
    apply Nat.le_zero.mp
    apply topPlace_le
    intro j hj
    have hpow : (256 : Int) ^ 1 ≤ 256 ^ j := power_le hj
    apply octetAt_eq_filler
    constructor <;> omega
  have hoctet := toNat_octetAt v.toInt 0
  have hshows : ¬(128 ≤ (octetAt v.toInt 0).toNat ↔ 0 ≤ v.toInt) := by omega
  rw [startShift_eq, hplace, if_neg fun hbit => hshows hbit.2]
  rfl

theorem misleads_iff (h : ¬Single v signed) :
    Misleads v signed (octetBits * topPlace v.toInt 7) ↔ signed = true ∧
      (128 ≤ (octetAt v.toInt (topPlace v.toInt 7)).toNat ↔ 0 ≤ v.toInt) := by
  have hle := topPlace_le_start v.toInt 7
  have hpos : signed = true → (0 < v ↔ 0 ≤ v.toInt) := by
    intro hsigned
    have hne : v.toInt ≠ 0 := by
      intro hzero
      have hv : v = 0 := Int64.toInt_inj.mp hzero
      exact h ⟨by rw [hv]; decide, .inl hsigned⟩
    have hlt : 0 < v ↔ 0 < v.toInt := Int64.lt_iff_toInt_lt
    rw [hlt]
    omega
  constructor
  · rintro ⟨hsigned, -, hbit⟩
    rw [hpos hsigned, topBit_ne_zero_iff hle] at hbit
    exact ⟨hsigned, hbit.symm⟩
  · rintro ⟨hsigned, hbit⟩
    have hbelow : topPlace v.toInt 7 ≠ 7 := by
      intro htop
      exact top_octet_shows_sign v (htop ▸ hbit)
    have hshift : octetBits * topPlace v.toInt 7 < topShift := by
      rw [topShift, wordBits, octetBits]
      omega
    refine ⟨hsigned, hshift, ?_⟩
    rw [hpos hsigned, topBit_ne_zero_iff hle]
    exact hbit.symm

/-- The search ends at the start shift and nowhere else. -/
theorem starts_iff : Starts v signed shift ↔ shift = startShift v signed := by
  have hstarts : Starts v signed (startShift v signed) := by
    by_cases h : Single v signed
    · rw [startShift_of_single h]
      exact .single h
    · have hskips : Skips v topShift (octetBits * topPlace v.toInt 7) :=
        skips_topPlace v (Nat.le_refl 7)
      rw [startShift_eq]
      split
      · next hbit => exact .added h hskips ((misleads_iff h).mpr hbit)
      · next hbit => exact .skipped h hskips (mt (misleads_iff h).mp hbit)
  constructor
  · intro h
    exact h.unique hstarts
  · rintro rfl
    exact hstarts

end BasicEncoding.Integer
