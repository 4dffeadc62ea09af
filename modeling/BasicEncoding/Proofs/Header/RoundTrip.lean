import BasicEncoding.Parse
import BasicEncoding.Proofs.Base128

/-! Headers read back. A scan takes exactly the octets of a written header, whatever follows them,
and keeps those octets as received. -/
namespace BasicEncoding

namespace Identifier

def leadOctet (i : Identifier) (low : Nat) : UInt8 :=
  UInt8.ofNat (i.lead + low)

theorem toNat_leadOctet (i : Identifier) {low : Nat} (h : low < 32) :
    (i.leadOctet low).toNat = i.lead + low := by
  obtain ⟨tagClass, constructed, number⟩ := i
  rw [leadOctet, UInt8.toNat_ofNat']
  cases tagClass <;> cases constructed <;> simp [lead, TagClass.index] <;> omega

theorem low_leadOctet (i : Identifier) {low : Nat} (h : low < 32) :
    (i.leadOctet low).toNat % 32 = low := by
  rw [toNat_leadOctet i h, lead]
  split <;> omega

theorem constructed_leadOctet (i : Identifier) {low : Nat} (h : low < 32) :
    decide ((i.leadOctet low).toNat / 32 % 2 = 1) = i.constructed := by
  rw [toNat_leadOctet i h, lead]
  cases i.constructed <;> simp <;> omega

theorem ofOctet_leadOctet (i : Identifier) {low : Nat} (h : low < 32) :
    TagClass.ofOctet (i.leadOctet low) = i.tagClass := by
  have hindex : (i.leadOctet low).toNat / 64 = i.tagClass.index := by
    rw [toNat_leadOctet i h, lead]
    split <;> omega
  rw [TagClass.ofOctet, hindex]
  cases i.tagClass <;> rfl

theorem encode_eq (i : Identifier) :
    i.encode = if i.number.toNat ≤ 30 then [i.leadOctet i.number.toNat]
      else i.leadOctet 31 :: Base128.chain i.number.toNat := by
  simp only [encode, UInt32.le_iff_toNat_le]
  rfl

/-- The shortest identifier octets begin with zero for one identifier only. -/
theorem exists_encode_cons (i : Identifier) :
    ∃ octet rest, i.encode = octet :: rest ∧ (octet = 0 ↔ i = .universal false 0) := by
  have hlead : ∀ low, low < 32 → (i.leadOctet low = 0 ↔ i.lead + low = 0) := by
    intro low hlow
    rw [← UInt8.toNat_inj, toNat_leadOctet i hlow]
    exact Iff.rfl
  have hzero : i.lead + i.number.toNat = 0 ↔ i = .universal false 0 := by
    obtain ⟨tagClass, constructed, number⟩ := i
    cases tagClass <;> cases constructed <;>
      simp [lead, universal, TagClass.index, ← UInt32.toNat_inj]
  rw [encode_eq]
  split
  · next hshort =>
    exact ⟨_, _, rfl, (hlead _ (by omega)).trans hzero⟩
  · next hlong =>
    refine ⟨_, _, rfl, (hlead 31 (by omega)).trans ?_⟩
    rw [← hzero]
    omega

end Identifier

namespace HeaderScan

/-- The scan behind the identifier octets, which are those seen. -/
def behindIdentifier (i : Identifier) (number : Nat) (seen : Octets) : HeaderScan :=
  { stage := .lengthStart, tagClass := i.tagClass, constructed := i.constructed, number, seen }

def inTagNumber (i : Identifier) (number : Nat) (seen : Octets) : HeaderScan :=
  { behindIdentifier i number seen with stage := .tagNumber }

def inLength (i : Identifier) (seen : Octets) (length remaining : Nat) : HeaderScan :=
  { behindIdentifier i i.number.toNat seen with stage := .lengthOctets remaining, length }

theorem pushIdentifier_leadOctet (i : Identifier) {low : Nat} (h : low < 32) :
    ({ start with seen := [i.leadOctet low] } : HeaderScan).pushIdentifier (i.leadOctet low) =
      if low = 31 then inTagNumber i 0 [i.leadOctet low]
      else behindIdentifier i low [i.leadOctet low] := by
  simp only [pushIdentifier, i.low_leadOctet h, i.constructed_leadOctet h, i.ofOctet_leadOctet h]
  rfl

theorem header_behindIdentifier (i : Identifier) (seen : Octets) (length : Length) :
    (behindIdentifier i i.number.toNat seen).header length = ⟨i, length⟩ := by
  rw [header, behindIdentifier, UInt32.ofNat_toNat]

theorem push_inTagNumber (i : Identifier) {number : Nat} (h : number < numberBound)
    (seen : Octets) (octet : UInt8) :
    (inTagNumber i number seen).push octet = (.ok none,
      if octet < 128 then behindIdentifier i (number * 128 + octet.toNat % 128) (octet :: seen)
      else inTagNumber i (number * 128 + octet.toNat % 128) (octet :: seen)) := by
  have hpush : (inTagNumber i number (octet :: seen)).pushTagNumber octet =
      .ok (if octet < 128 then behindIdentifier i (number * 128 + octet.toNat % 128) (octet :: seen)
        else inTagNumber i (number * 128 + octet.toNat % 128) (octet :: seen)) :=
    if_neg (Nat.not_le_of_lt h)
  dsimp only [push, inTagNumber, behindIdentifier] at hpush ⊢
  rw [hpush]

end HeaderScan

namespace Parse
open HeaderScan

variable {s t : HeaderScan} {octet : UInt8}

theorem scanHeader_more (h : s.push octet = (.ok none, t)) (rest : Octets) :
    scanHeader s (octet :: rest) = scanHeader t rest := by
  rw [scanHeader, h]

theorem scanHeader_done {header : Header} (h : s.push octet = (.ok (some header), t))
    (rest : Octets) : scanHeader s (octet :: rest) = ⟨.done (header, t.octets) rest, []⟩ := by
  rw [scanHeader, h]

theorem reads_tagNumber (i : Identifier) :
    Base128.Reads (fun number seen rest => scanHeader (inTagNumber i number seen) rest)
      (fun number seen rest => scanHeader (behindIdentifier i number seen) rest) numberBound := by
  intro number seen octet rest hbound
  dsimp only
  rw [scanHeader_more (push_inTagNumber i hbound seen octet)]
  split <;> rfl

theorem scan_identifier (i : Identifier) (rest : Octets) :
    scanHeader start (i.encode ++ rest) =
      scanHeader (behindIdentifier i i.number.toNat i.encode.reverse) rest := by
  have hpush : ∀ low rest, low < 32 → scanHeader start (i.leadOctet low :: rest) =
      scanHeader (({ start with seen := [i.leadOctet low] } : HeaderScan).pushIdentifier
        (i.leadOctet low)) rest := fun _ _ _ => rfl
  rw [Identifier.encode_eq]
  split
  · next h =>
    rw [List.singleton_append, hpush _ _ (by omega), pushIdentifier_leadOctet i (by omega),
      if_neg (by omega)]
    rfl
  · next h =>
    have hnumber : i.number.toNat < numberBound * 128 := i.number.toNat_lt
    rw [List.cons_append, hpush _ _ (by omega), pushIdentifier_leadOctet i (by omega), if_pos rfl,
      Base128.read_chain (reads_tagNumber i) hnumber, List.reverse_cons]

end Parse

namespace Length

theorem toNat_octetAt_natCast (v n : Nat) : (octetAt v n).toNat = v / 256 ^ n % 256 := by
  have h := toNat_octetAt v n
  rw [← Int.ofNat_inj, h]
  rfl

theorem length_push (v n : Nat) : v / 256 ^ (n + 1) * 256 + v / 256 ^ n % 256 = v / 256 ^ n := by
  rw [Nat.pow_succ, ← Nat.div_div_eq_div_mul]
  omega

theorem push_lt_lengthBound (v : UInt64) (n : Nat) :
    v.toNat / 256 ^ (n + 1) < HeaderScan.lengthBound := by
  have hv : v.toNat / 256 < 2 ^ 56 := Nat.div_lt_of_lt_mul v.toNat_lt
  rw [Nat.pow_succ, Nat.mul_comm, ← Nat.div_div_eq_div_mul]
  exact Nat.lt_of_le_of_lt (Nat.div_le_self _ _) hv

theorem octetCount_le (count : UInt64) : octetCount count ≤ maxOctets := by
  have hlog : count.toNat.log2 < 64 := by
    by_cases h : count.toNat = 0
    · rw [h]; decide
    · exact (Nat.log2_lt h).mpr count.toNat_lt
  unfold octetCount maxOctets
  omega

theorem lt_octetCount (count : UInt64) : count.toNat < 256 ^ octetCount count := by
  have hlog : count.toNat < 2 ^ (count.toNat.log2 + 1) := Nat.lt_log2_self
  have hpow : (256 : Nat) ^ octetCount count = 2 ^ (8 * octetCount count) := by
    rw [Nat.pow_mul]
  have hle : 2 ^ (count.toNat.log2 + 1) ≤ 2 ^ (8 * octetCount count) := by
    apply Nat.pow_le_pow_right (by decide)
    unfold octetCount
    omega
  omega

end Length

namespace HeaderScan

theorem push_inLength (i : Identifier) {length : Nat} (h : length < lengthBound) (seen : Octets)
    (remaining : Nat) (octet : UInt8) :
    (inLength i seen length (remaining + 2)).push octet =
      (.ok none, inLength i (octet :: seen) (length * 256 + octet.toNat) (remaining + 1)) := by
  have hpush : (inLength i (octet :: seen) length (remaining + 2)).pushLengthOctet
      (remaining + 2) octet =
      .ok (none, inLength i (octet :: seen) (length * 256 + octet.toNat) (remaining + 1)) :=
    if_neg (Nat.not_le_of_lt h)
  change push.finish (inLength i (octet :: seen) length (remaining + 2))
    ((inLength i (octet :: seen) length (remaining + 2)).pushLengthOctet (remaining + 2) octet) = _
  rw [hpush]
  rfl

theorem push_inLength_last (i : Identifier) {length : Nat} (h : length < lengthBound)
    (seen : Octets) (octet : UInt8) :
    (inLength i seen length 1).push octet =
      (.ok (some ⟨i, .definite (UInt64.ofNat (length * 256 + octet.toNat))⟩),
        inLength i (octet :: seen) (length * 256 + octet.toNat) 1) := by
  have hpush : (inLength i (octet :: seen) length 1).pushLengthOctet 1 octet =
      .ok (some (.definite (UInt64.ofNat (length * 256 + octet.toNat))),
        inLength i (octet :: seen) (length * 256 + octet.toNat) 1) :=
    if_neg (Nat.not_le_of_lt h)
  change push.finish (inLength i (octet :: seen) length 1)
    ((inLength i (octet :: seen) length 1).pushLengthOctet 1 octet) = _
  rw [hpush, push.finish, Option.map_some, header, inLength, behindIdentifier, UInt32.ofNat_toNat]

theorem push_behindIdentifier_short (i : Identifier) (seen : Octets) {octet : UInt8}
    (h : octet.toNat < 128) :
    (behindIdentifier i i.number.toNat seen).push octet =
      (.ok (some ⟨i, .definite (UInt64.ofNat octet.toNat)⟩),
        behindIdentifier i i.number.toNat (octet :: seen)) := by
  have hpush : (behindIdentifier i i.number.toNat (octet :: seen)).pushLengthStart octet =
      .ok (some (.definite (UInt64.ofNat octet.toNat)),
        behindIdentifier i i.number.toNat (octet :: seen)) :=
    if_pos (UInt8.lt_iff_toNat_lt.mpr h)
  change push.finish (behindIdentifier i i.number.toNat (octet :: seen))
    ((behindIdentifier i i.number.toNat (octet :: seen)).pushLengthStart octet) = _
  rw [hpush, push.finish, Option.map_some, header_behindIdentifier]

theorem push_behindIdentifier_long (i : Identifier) (seen : Octets) {octet : UInt8} {n : Nat}
    (h : octet.toNat = 128 + (n + 1)) (hmax : n < Length.maxOctets) :
    (behindIdentifier i i.number.toNat seen).push octet =
      (.ok none, inLength i (octet :: seen) 0 (n + 1)) := by
  have hlong : Length.maxOctets = 8 := rfl
  have hcount : octet.toNat % 128 = n + 1 := by omega
  have hhigh : ¬ octet < 128 := by
    rw [UInt8.lt_iff_toNat_lt, h]
    exact Nat.not_lt.mpr (Nat.le_add_right 128 _)
  have hpush : (behindIdentifier i i.number.toNat (octet :: seen)).pushLengthStart octet =
      .ok (none, inLength i (octet :: seen) 0 (n + 1)) := by
    rw [pushLengthStart, if_neg hhigh, if_neg (by omega), if_neg (by omega), if_neg (by omega),
      hcount]
    rfl
  change push.finish (behindIdentifier i i.number.toNat (octet :: seen))
    ((behindIdentifier i i.number.toNat (octet :: seen)).pushLengthStart octet) = _
  rw [hpush]
  rfl

theorem push_behindIdentifier_open (i : Identifier) (seen : Octets) (h : i.constructed = true) :
    (behindIdentifier i i.number.toNat seen).push Length.openOctet =
      (.ok (some ⟨i, .indefinite⟩),
        behindIdentifier i i.number.toNat (Length.openOctet :: seen)) := by
  have hpush : (behindIdentifier i i.number.toNat (Length.openOctet :: seen)).pushLengthStart
      Length.openOctet = .ok (some .indefinite,
        behindIdentifier i i.number.toNat (Length.openOctet :: seen)) :=
    if_pos h
  change push.finish (behindIdentifier i i.number.toNat (Length.openOctet :: seen))
    ((behindIdentifier i i.number.toNat (Length.openOctet :: seen)).pushLengthStart
      Length.openOctet) = _
  rw [hpush, push.finish, Option.map_some, header_behindIdentifier]

end HeaderScan

namespace Parse
open HeaderScan

theorem scan_lengthOctets (i : Identifier) (v : UInt64) (n : Nat) (seen rest : Octets) :
    scanHeader (inLength i seen (v.toNat / 256 ^ (n + 1)) (n + 1))
        (lowOctets v.toNat (n + 1) ++ rest) =
      ⟨.done (⟨i, .definite v⟩, seen.reverse ++ lowOctets v.toNat (n + 1)) rest, []⟩ := by
  induction n generalizing seen with
  | zero =>
      have hpush := push_inLength_last i (Length.push_lt_lengthBound v 0) seen (octetAt v.toNat 0)
      rw [Length.toNat_octetAt_natCast, Length.length_push, Nat.pow_zero, Nat.div_one,
        UInt64.ofNat_toNat] at hpush
      rw [lowOctets, List.cons_append, scanHeader_done hpush]
      simp only [octets, inLength, behindIdentifier, List.reverse_cons, lowOctets, List.nil_append]
  | succ n ih =>
      have hpush := push_inLength i (Length.push_lt_lengthBound v (n + 1)) seen n
        (octetAt v.toNat (n + 1))
      rw [Length.toNat_octetAt_natCast, Length.length_push] at hpush
      rw [lowOctets, List.cons_append, scanHeader_more hpush, ih, List.reverse_cons,
        List.append_assoc]
      rfl

/-- Length octets end the header; only a constructed element may leave its length open. -/
theorem scan_length (i : Identifier) (l : Length) (h : l = .indefinite → i.constructed = true)
    (seen rest : Octets) :
    scanHeader (behindIdentifier i i.number.toNat seen) (l.encode ++ rest) =
      ⟨.done (⟨i, l⟩, seen.reverse ++ l.encode) rest, []⟩ := by
  cases l with
  | indefinite =>
      rw [Length.encode, List.singleton_append,
        scanHeader_done (push_behindIdentifier_open i seen (h rfl))]
      simp only [octets, behindIdentifier, List.reverse_cons]
  | definite count =>
      rw [Length.encode]
      split
      · next hshort =>
        have hcount : count.toNat < 128 := UInt64.lt_iff_toNat_lt.mp hshort
        have hoctet : (UInt8.ofNat count.toNat).toNat = count.toNat := by
          rw [UInt8.toNat_ofNat']
          omega
        have hpush := push_behindIdentifier_short i seen (hoctet.symm ▸ hcount)
        rw [hoctet, UInt64.ofNat_toNat] at hpush
        rw [List.singleton_append, scanHeader_done hpush]
        simp only [octets, behindIdentifier, List.reverse_cons]
      · next hlong =>
        obtain ⟨n, hn⟩ : ∃ n, Length.octetCount count = n + 1 := ⟨_, rfl⟩
        have hmax := Length.octetCount_le count
        have hfits := Length.lt_octetCount count
        have hlimit : Length.maxOctets = 8 := rfl
        rw [hn] at hmax hfits ⊢
        have hoctet : (UInt8.ofNat (128 + (n + 1))).toNat = 128 + (n + 1) := by
          rw [UInt8.toNat_ofNat']
          omega
        have hlengths := scan_lengthOctets i count n (UInt8.ofNat (128 + (n + 1)) :: seen) rest
        rw [Nat.div_eq_of_lt hfits, List.reverse_cons, List.append_assoc] at hlengths
        rw [List.cons_append, scanHeader_more (push_behindIdentifier_long i seen hoctet hmax)]
        exact hlengths

/-- A written header is read whole, and nothing behind it. -/
theorem run_header_encode (h : Header)
    (hopen : h.length = .indefinite → h.identifier.constructed = true) (rest : Octets) :
    header.run (h.encode ++ rest) = ⟨.done (h, h.encode) rest, []⟩ := by
  rw [Header.encode, List.append_assoc]
  change scanHeader start _ = _
  rw [scan_identifier, scan_length h.identifier h.length hopen, List.reverse_reverse]

end Parse

end BasicEncoding
