import BasicEncoding.Proofs.Grammar.Acceptance
import BasicEncoding.Proofs.Header.RoundTrip
import BasicEncoding.Proofs.Spelling

/-! The octets that a fresh header scan accepts. A tag number stands in the first octet or in a
chain behind it, a length in one octet or behind the count of its octets, and either may be padded
with zeros in front; what a header is written as is one of these spellings. -/
namespace BasicEncoding

namespace Identifier

inductive Spelled (i : Identifier) : Octets → Prop
  | short {low : Nat} (number : i.number.toNat = low) (lt : low < chainMarker) :
      Spelled i [i.leadOctet low]
  | high {chain : Octets} (isChain : Base128.IsChain chain)
      (number : Base128.valueFrom 0 chain = i.number.toNat) :
      Spelled i (i.leadOctet chainMarker :: chain)

end Identifier

namespace Length

inductive Spelled : Length → Octets → Prop
  | short {octet : UInt8} (low : octet < 128) :
      Spelled (.definite (UInt64.ofNat octet.toNat)) [octet]
  | long {octets : Octets} (some : octets ≠ []) (few : octets.length ≤ maxOctets) :
      Spelled (.definite (UInt64.ofNat (unsignedValue octets)))
        (UInt8.ofNat (128 + octets.length) :: octets)
  | indefinite : Spelled .indefinite [openOctet]

inductive Refused (i : Identifier) : UInt8 → Defect → Prop
  | openPrimitive (primitive : i.constructed = false) : Refused i openOctet .indefinitePrimitive
  | reserved : Refused i 0xFF .reservedLength
  | wide {count : Nat} (more : maxOctets < count) (less : count < 127) :
      Refused i (UInt8.ofNat (128 + count)) (.lengthTooWide count)

end Length

namespace HeaderScan

variable {s t : HeaderScan} {i : Identifier} {octet : UInt8} {octets seen : Octets}
  {header other : Header}

theorem not_accepts_nil : ¬s.Accepts [] header := nofun

theorem Accepts.ne_nil (h : s.Accepts octets header) : octets ≠ [] := by
  rintro rfl
  exact not_accepts_nil h

theorem accepts_cons_of_more (h : s.push octet = (.ok none, t)) :
    s.Accepts (octet :: octets) header ↔ t.Accepts octets header := by
  constructor
  · intro haccepts
    cases haccepts with
    | last pushed => rw [h] at pushed; cases pushed
    | more pushed later =>
        rw [h] at pushed
        cases pushed
        exact later
  · exact .more h

theorem accepts_cons_of_last (h : s.push octet = (.ok (some other), t)) :
    s.Accepts (octet :: octets) header ↔ octets = [] ∧ header = other := by
  constructor
  · intro haccepts
    cases haccepts with
    | last pushed =>
        rw [h] at pushed
        cases pushed
        exact ⟨rfl, rfl⟩
    | more pushed _ => rw [h] at pushed; cases pushed
  · rintro ⟨rfl, rfl⟩
    exact .last h

theorem not_accepts_cons {defect : Defect} (h : s.push octet = (.error defect, t)) :
    ¬s.Accepts (octet :: octets) header := by
  intro haccepts
  cases haccepts with
  | last pushed => rw [h] at pushed; cases pushed
  | more pushed _ => rw [h] at pushed; cases pushed

/-! ### The length -/

theorem accepts_inLength {n k length : Nat} (hlength : length < 256 ^ k)
    (hroom : k + (n + 1) ≤ Length.maxOctets) :
    (inLength i seen length (n + 1)).Accepts octets header ↔
      octets.length = n + 1 ∧ header = ⟨i, .definite (UInt64.ofNat
        (octets.foldl (fun value octet => value * 256 + octet.toNat) length))⟩ := by
  have hbound : ∀ {k length : Nat}, length < 256 ^ k → k ≤ 7 → length < lengthBound := by
    intro k length hlength hk
    exact Nat.lt_of_lt_of_le hlength (Nat.pow_le_pow_right (by decide) hk)
  have hmax : Length.maxOctets = 8 := rfl
  induction n generalizing k length octets seen with
  | zero =>
      cases octets with
      | nil => exact iff_of_false not_accepts_nil (fun h => nomatch h.1)
      | cons octet rest =>
          rw [accepts_cons_of_last (push_inLength_last i (hbound hlength (by omega)) seen octet)]
          constructor
          · rintro ⟨rfl, rfl⟩
            exact ⟨rfl, rfl⟩
          · rintro ⟨hone, rfl⟩
            obtain rfl : rest = [] := List.length_eq_zero_iff.mp (Nat.succ.inj hone)
            exact ⟨rfl, rfl⟩
  | succ n ih =>
      cases octets with
      | nil => exact iff_of_false not_accepts_nil (fun h => nomatch h.1)
      | cons octet rest =>
          have hnext : length * 256 + octet.toNat < 256 ^ (k + 1) := by
            have hoctet : octet.toNat < 256 := octet.toNat_lt
            rw [Nat.pow_succ]
            omega
          have hpush := push_inLength i (hbound hlength (by omega)) seen n octet
          rw [accepts_cons_of_more hpush, List.length_cons, Nat.succ_inj, List.foldl_cons]
          exact ih hnext (by omega)

theorem push_behindIdentifier_refused (seen : Octets) {defect : Defect}
    (h : Length.Refused i octet defect) :
    (behindIdentifier i i.number.toNat seen).push octet =
      (.error defect, behindIdentifier i i.number.toNat (octet :: seen)) := by
  suffices hrefused : (behindIdentifier i i.number.toNat (octet :: seen)).pushLengthStart octet =
      .error defect by
    change push.finish (behindIdentifier i i.number.toNat (octet :: seen))
      ((behindIdentifier i i.number.toNat (octet :: seen)).pushLengthStart octet) = _
    rw [hrefused]
    rfl
  cases h with
  | openPrimitive primitive =>
      have hkept : ¬(behindIdentifier i i.number.toNat
          (Length.openOctet :: seen)).constructed = true := by
        change ¬i.constructed = true
        rw [primitive]
        exact Bool.false_ne_true
      exact if_neg hkept
  | reserved => rfl
  | @wide count more less =>
      have hmax : Length.maxOctets = 8 := rfl
      have hoctet : (UInt8.ofNat (128 + count)).toNat = 128 + count := by
        rw [UInt8.toNat_ofNat']
        omega
      have hhigh : ¬UInt8.ofNat (128 + count) < 128 := by
        rw [UInt8.lt_iff_toNat_lt, hoctet]
        exact Nat.not_lt.mpr (Nat.le_add_right 128 _)
      have hcount : (128 + count) % 128 = count := by omega
      rw [pushLengthStart, if_neg hhigh, hoctet, hcount, if_neg (by omega), if_neg (by omega),
        if_pos more]

/-- What the first octet of a length can be. -/
theorem lengthOctet_cases (i : Identifier) (octet : UInt8) :
    octet.toNat < 128 ∨ (octet = Length.openOctet ∧ i.constructed = true) ∨
    (∃ n, n < Length.maxOctets ∧ octet.toNat = 128 + (n + 1)) ∨
    ∃ defect, Length.Refused i octet defect := by
  have hmax : Length.maxOctets = 8 := rfl
  have hoctet : octet.toNat < 256 := octet.toNat_lt
  rcases Nat.lt_trichotomy octet.toNat 128 with hlow | hopen | hlong
  · exact .inl hlow
  · obtain rfl : octet = Length.openOctet := UInt8.toNat_inj.mp hopen
    cases hform : i.constructed with
    | true => exact .inr (.inl ⟨rfl, rfl⟩)
    | false => exact .inr (.inr (.inr ⟨_, .openPrimitive hform⟩))
  · obtain ⟨n, hn⟩ : ∃ n, octet.toNat = 128 + (n + 1) := ⟨octet.toNat - 129, by omega⟩
    by_cases hfew : n < Length.maxOctets
    · exact .inr (.inr (.inl ⟨n, hfew, hn⟩))
    · obtain rfl : octet = UInt8.ofNat (128 + (n + 1)) := by rw [← hn, UInt8.ofNat_toNat]
      by_cases hreserved : n + 1 = 127
      · rw [hreserved]
        exact .inr (.inr (.inr ⟨_, .reserved⟩))
      · exact .inr (.inr (.inr ⟨_, .wide (by omega) (by omega)⟩))

theorem accepts_behindIdentifier :
    (behindIdentifier i i.number.toNat seen).Accepts octets header ↔
      header.identifier = i ∧ header.length.Spelled octets ∧
        (header.length = .indefinite → i.constructed = true) := by
  obtain ⟨identifier, length⟩ := header
  have hmax : Length.maxOctets = 8 := rfl
  constructor
  · intro haccepts
    cases octets with
    | nil => exact (not_accepts_nil haccepts).elim
    | cons octet rest =>
        rcases lengthOctet_cases i octet with
          hlow | ⟨rfl, hform⟩ | ⟨n, hfew, hn⟩ | ⟨defect, hrefused⟩
        · obtain ⟨rfl, ⟨⟩⟩ :=
            (accepts_cons_of_last (push_behindIdentifier_short i seen hlow)).mp haccepts
          exact ⟨rfl, .short (UInt8.lt_iff_toNat_lt.mpr hlow), nofun⟩
        · obtain ⟨rfl, ⟨⟩⟩ :=
            (accepts_cons_of_last (push_behindIdentifier_open i seen hform)).mp haccepts
          exact ⟨rfl, .indefinite, fun _ => hform⟩
        · rw [accepts_cons_of_more (push_behindIdentifier_long i seen hn hfew),
            accepts_inLength (Nat.pow_pos (n := 0) (by decide)) (by omega)] at haccepts
          obtain ⟨hcount, ⟨⟩⟩ := haccepts
          have hoctet : UInt8.ofNat (128 + rest.length) = octet := by
            rw [hcount, ← hn, UInt8.ofNat_toNat]
          have hsome : rest ≠ [] := List.ne_nil_of_length_eq_add_one hcount
          exact ⟨rfl, hoctet ▸ Length.Spelled.long hsome (by omega), nofun⟩
        · exact (not_accepts_cons (push_behindIdentifier_refused seen hrefused) haccepts).elim
  · rintro ⟨rfl, hspelled, hform⟩
    cases hspelled with
    | @short octet low =>
        have hlow : octet.toNat < 128 := UInt8.lt_iff_toNat_lt.mp low
        exact .last (push_behindIdentifier_short identifier seen hlow)
    | @long rest hsome hfew =>
        obtain ⟨n, hn⟩ : ∃ n, rest.length = n + 1 :=
          Nat.exists_eq_succ_of_ne_zero (fun h => hsome (List.length_eq_zero_iff.mp h))
        have hoctet : (UInt8.ofNat (128 + rest.length)).toNat = 128 + (n + 1) := by
          rw [UInt8.toNat_ofNat', hn]
          omega
        rw [accepts_cons_of_more (push_behindIdentifier_long identifier seen hoctet (by omega)),
          accepts_inLength (Nat.pow_pos (n := 0) (by decide)) (by omega)]
        exact ⟨hn, rfl⟩
    | indefinite => exact .last (push_behindIdentifier_open identifier seen (hform rfl))

/-! ### The identifier -/

/-- Another group is refused where the number has no room for it. -/
theorem push_inTagNumber_refused (i : Identifier) {number : Nat} (h : numberBound ≤ number)
    (seen : Octets) (octet : UInt8) :
    (inTagNumber i number seen).push octet =
      (.error .tagNumberTooLarge, inTagNumber i number (octet :: seen)) := by
  have hpush : (inTagNumber i number (octet :: seen)).pushTagNumber octet =
      .error .tagNumberTooLarge := if_pos h
  dsimp only [push, inTagNumber, behindIdentifier] at hpush ⊢
  rw [hpush]

/-- A chain ends the tag number if the number stays below `2 ^ 32`. -/
theorem accepts_inTagNumber {number : Nat} :
    (inTagNumber i number seen).Accepts octets header ↔
      ∃ chain rest, octets = chain ++ rest ∧ Base128.IsChain chain ∧
        Base128.valueFrom number chain < numberBound * 128 ∧
        (behindIdentifier i (Base128.valueFrom number chain) (chain.reverse ++ seen)).Accepts
          rest header := by
  induction octets generalizing number seen with
  | nil =>
      refine iff_of_false not_accepts_nil ?_
      rintro ⟨chain, rest, hoctets, hchain, -⟩
      exact hchain.ne_nil (List.append_eq_nil_iff.mp hoctets.symm).1
  | cons octet octets ih =>
      by_cases hroom : number < numberBound
      · have hpush := push_inTagNumber i hroom seen octet
        rw [Base128.exists_chain_cons]
        split at hpush
        · next hlow =>
          have hvalue : number * 128 + octet.toNat % 128 < numberBound * 128 := by omega
          rw [if_pos hlow, accepts_cons_of_more hpush]
          exact (and_iff_right hvalue).symm
        · next hhigh =>
          rw [if_neg hhigh, accepts_cons_of_more hpush, ih]
          simp only [Base128.valueFrom_cons, List.reverse_cons, List.append_assoc,
            List.singleton_append]
      · have hfull : numberBound ≤ number := Nat.not_lt.mp hroom
        refine iff_of_false (not_accepts_cons (push_inTagNumber_refused i hfull seen octet)) ?_
        rintro ⟨chain, rest, -, hchain, hvalue, -⟩
        have hgrown := hchain.mul_le_valueFrom number
        omega

theorem index_ofOctet (octet : UInt8) : (TagClass.ofOctet octet).index = octet.toNat / 64 := by
  have hoctet : octet.toNat < 256 := octet.toNat_lt
  have hclasses : octet.toNat / 64 = 0 ∨ octet.toNat / 64 = 1 ∨ octet.toNat / 64 = 2 ∨
      octet.toNat / 64 = 3 := by omega
  rcases hclasses with h | h | h | h <;> rw [TagClass.ofOctet, h] <;> rfl

theorem exists_leadOctet (octet : UInt8) :
    ∃ (i : Identifier) (low : Nat), low < 32 ∧ octet = i.leadOctet low := by
  have hoctet : octet.toNat < 256 := octet.toNat_lt
  refine ⟨⟨.ofOctet octet, octet.toNat / 32 % 2 = 1, 0⟩, octet.toNat % 32, by omega, ?_⟩
  rw [← UInt8.toNat_inj, Identifier.toNat_leadOctet _ (by omega), Identifier.lead, index_ofOctet]
  simp only [decide_eq_true_eq]
  split <;> omega

theorem push_start_leadOctet (i : Identifier) {low : Nat} (h : low < 32) :
    start.push (i.leadOctet low) = (.ok none,
      if low = Identifier.chainMarker then inTagNumber i 0 [i.leadOctet low]
      else behindIdentifier i low [i.leadOctet low]) :=
  congrArg (Prod.mk _) (pushIdentifier_leadOctet i h)

/-- Behind any number below `2 ^ 32`, whatever number the identifier came with. -/
theorem accepts_behindNumber {number : Nat} (h : number < numberBound * 128) :
    (behindIdentifier i number seen).Accepts octets header ↔
      header.identifier = { i with number := UInt32.ofNat number } ∧ header.length.Spelled octets ∧
        (header.length = .indefinite → i.constructed = true) := by
  have hnumber : (UInt32.ofNat number).toNat = number := Nat.mod_eq_of_lt h
  have haccepts := @accepts_behindIdentifier { i with number := UInt32.ofNat number } octets seen
    header
  dsimp only at haccepts
  rwa [hnumber] at haccepts

theorem accepts_short (i : Identifier) {low : Nat} (h : low < Identifier.chainMarker) :
    start.Accepts (i.leadOctet low :: octets) header ↔
      header.identifier = { i with number := UInt32.ofNat low } ∧ header.length.Spelled octets ∧
        (header.length = .indefinite → i.constructed = true) := by
  have hpush := push_start_leadOctet i (Nat.lt_succ_of_lt h)
  rw [if_neg (Nat.ne_of_lt h)] at hpush
  have hnumber : low < numberBound * 128 := Nat.lt_trans h (by decide)
  rw [accepts_cons_of_more hpush, accepts_behindNumber hnumber]

theorem accepts_high (i : Identifier) :
    start.Accepts (i.leadOctet Identifier.chainMarker :: octets) header ↔
      ∃ chain rest, octets = chain ++ rest ∧ Base128.IsChain chain ∧
        Base128.valueFrom 0 chain < numberBound * 128 ∧
        header.identifier = { i with number := UInt32.ofNat (Base128.valueFrom 0 chain) } ∧
        header.length.Spelled rest ∧
        (header.length = .indefinite → i.constructed = true) := by
  have hpush := push_start_leadOctet i (show Identifier.chainMarker < 32 by decide)
  rw [if_pos rfl] at hpush
  rw [accepts_cons_of_more hpush, accepts_inTagNumber]
  constructor
  · rintro ⟨chain, rest, hoctets, hchain, hvalue, haccepts⟩
    exact ⟨chain, rest, hoctets, hchain, hvalue, (accepts_behindNumber hvalue).mp haccepts⟩
  · rintro ⟨chain, rest, hoctets, hchain, hvalue, hspelled⟩
    exact ⟨chain, rest, hoctets, hchain, hvalue, (accepts_behindNumber hvalue).mpr hspelled⟩

/-- A fresh scan accepts the spellings of headers. Contents of open length belong to constructed
elements. -/
theorem accepts_start :
    start.Accepts octets header ↔
      ∃ identifier length, octets = identifier ++ length ∧
        header.identifier.Spelled identifier ∧ header.length.Spelled length ∧
        (header.length = .indefinite → header.identifier.constructed = true) := by
  obtain ⟨identifier, length⟩ := header
  dsimp only
  constructor
  · intro haccepts
    cases octets with
    | nil => exact (not_accepts_nil haccepts).elim
    | cons octet octets =>
        obtain ⟨i, low, hlow, rfl⟩ := exists_leadOctet octet
        by_cases hshort : low < Identifier.chainMarker
        · obtain ⟨rfl, hlength, hopen⟩ := (accepts_short i hshort).mp haccepts
          have hnumber : (UInt32.ofNat low).toNat = low :=
            Nat.mod_eq_of_lt (Nat.lt_trans hlow (by decide))
          exact ⟨[i.leadOctet low], octets, rfl, .short hnumber hshort, hlength, hopen⟩
        · obtain rfl : low = Identifier.chainMarker :=
            Nat.le_antisymm (Nat.le_of_lt_succ hlow) (Nat.not_lt.mp hshort)
          obtain ⟨chain, rest, rfl, hchain, hvalue, rfl, hlength, hopen⟩ :=
            (accepts_high i).mp haccepts
          exact ⟨i.leadOctet Identifier.chainMarker :: chain, rest, rfl,
            .high hchain (Nat.mod_eq_of_lt hvalue).symm, hlength, hopen⟩
  · rintro ⟨octets, rest, rfl, hidentifier, hlength, hopen⟩
    cases hidentifier with
    | short number lt =>
        refine (accepts_short identifier lt).mpr ⟨?_, hlength, hopen⟩
        rw [← number, UInt32.ofNat_toNat]
    | @high chain isChain number =>
        refine (accepts_high identifier).mpr ⟨chain, rest, rfl, isChain, ?_, ?_, hlength, hopen⟩
        · rw [number]
          exact identifier.number.toNat_lt
        · rw [number, UInt32.ofNat_toNat]

end HeaderScan

/-! ### The shortest spelling -/

theorem Identifier.Spelled.eq_encode_or_longer {i : Identifier} {octets : Octets}
    (h : i.Spelled octets) : octets = i.encode ∨ i.encode.length < octets.length := by
  have hmarker : chainMarker = 31 := rfl
  rw [encode_eq]
  cases h with
  | short number lt =>
      rw [← number] at lt ⊢
      exact .inl (if_pos (by omega)).symm
  | @high chain isChain number =>
      split
      · exact .inr (Nat.succ_lt_succ (List.length_pos_iff.mpr isChain.ne_nil))
      · rw [← number]
        rcases isChain.eq_chain_or_longer with heq | hlonger
        · exact .inl (congrArg (i.leadOctet 31 :: ·) heq)
        · exact .inr (Nat.succ_lt_succ hlonger)

theorem Length.Spelled.eq_encode_or_longer {l : Length} {octets : Octets} (h : l.Spelled octets) :
    octets = l.encode ∨ l.encode.length < octets.length := by
  cases h with
  | @short octet low =>
      have hoctet : octet.toNat < 128 := UInt8.lt_iff_toNat_lt.mp low
      have hcount : (UInt64.ofNat octet.toNat).toNat = octet.toNat :=
        Nat.mod_eq_of_lt (Nat.lt_trans hoctet (by decide))
      have hlow : UInt64.ofNat octet.toNat < 128 := by
        rw [UInt64.lt_iff_toNat_lt, hcount]
        exact hoctet
      rw [Length.encode, if_pos hlow, hcount, UInt8.ofNat_toNat]
      exact .inl rfl
  | @long octets some few =>
      have hvalue := unsignedValue_lt octets
      have hword : unsignedValue octets < 2 ^ 64 :=
        Nat.lt_of_lt_of_le hvalue (Nat.pow_le_pow_right (by decide) few)
      have hcount : (UInt64.ofNat (unsignedValue octets)).toNat = unsignedValue octets :=
        Nat.mod_eq_of_lt hword
      have hlength : 0 < octets.length := List.length_pos_iff.mpr some
      rw [Length.encode]
      split
      · exact .inr (Nat.succ_lt_succ hlength)
      · have hfits : octetCount (UInt64.ofNat (unsignedValue octets)) ≤ octets.length := by
          rw [octetCount, hcount]
          refine log2_div_lt (by decide) hlength ?_
          rw [Nat.pow_mul]
          exact hvalue
        rw [hcount, List.length_cons, length_lowOctets]
        rcases Nat.eq_or_lt_of_le hfits with heq | hlt
        · have hsame : octets = lowOctets (unsignedValue octets) octets.length := by
            apply eq_of_unsignedValue (length_lowOctets _ _).symm
            rw [unsignedValue_lowOctets_natCast, Nat.mod_eq_of_lt hvalue]
          rw [heq, ← hsame]
          exact .inl rfl
        · exact .inr (Nat.succ_lt_succ hlt)
  | indefinite => exact .inl rfl

theorem Identifier.Spelled.length_encode_le {i : Identifier} {octets : Octets}
    (h : i.Spelled octets) : i.encode.length ≤ octets.length := by
  rcases h.eq_encode_or_longer with rfl | hlonger
  · exact Nat.le_refl _
  · exact Nat.le_of_lt hlonger

theorem Length.Spelled.length_encode_le {l : Length} {octets : Octets} (h : l.Spelled octets) :
    l.encode.length ≤ octets.length := by
  rcases h.eq_encode_or_longer with rfl | hlonger
  · exact Nat.le_refl _
  · exact Nat.le_of_lt hlonger

theorem HeaderScan.Accepts.length_encode_le {header : Header} {octets : Octets}
    (h : HeaderScan.start.Accepts octets header) : header.encode.length ≤ octets.length := by
  obtain ⟨identifier, length, rfl, hidentifier, hlength, -⟩ := HeaderScan.accepts_start.mp h
  rw [Header.encode, List.length_append, List.length_append]
  exact Nat.add_le_add hidentifier.length_encode_le hlength.length_encode_le

namespace Header

/-- A fresh scan has the header behind the last octet it is written as and not before, and any other
octets that bring it to this header are more. -/
theorem encode_accepted_and_uniquely_shortest (h : Header)
    (hopen : h.length = .indefinite → h.identifier.constructed = true) :
    HeaderScan.start.Accepts h.encode h ∧
      ∀ octets, HeaderScan.start.Accepts octets h →
        octets = h.encode ∨ h.encode.length < octets.length := by
  constructor
  · have hread := Parse.run_header_encode h hopen []
    exact (Parse.header_eq_done_iff.mp (congrArg Reading.outcome hread)).2
  · intro octets haccepts
    obtain ⟨identifier, length, rfl, hidentifier, hlength, -⟩ :=
      HeaderScan.accepts_start.mp haccepts
    rw [encode, List.length_append, List.length_append]
    rcases hidentifier.eq_encode_or_longer with rfl | hidentifier
    · rcases hlength.eq_encode_or_longer with rfl | hlength
      · exact .inl rfl
      · exact .inr (Nat.add_lt_add_left hlength _)
    · have hle : h.length.encode.length ≤ length.length := by
        rcases hlength.eq_encode_or_longer with rfl | hlength
        · exact Nat.le_refl _
        · exact Nat.le_of_lt hlength
      exact .inr (Nat.add_lt_add_of_lt_of_le hidentifier hle)

/-- Tag number 128 in a chain of two groups, with contents of open length. A zero group may stand in
front of the chain and only makes the header longer. -/
theorem openPrivate_accepted_and_shortest :
    HeaderScan.start.Accepts [0xFF, 0x81, 0x00, 0x80] ⟨⟨.privateUse, true, 128⟩, .indefinite⟩ ∧
      HeaderScan.start.Accepts [0xFF, 0x80, 0x81, 0x00, 0x80]
        ⟨⟨.privateUse, true, 128⟩, .indefinite⟩ ∧
      ∀ octets, HeaderScan.start.Accepts octets ⟨⟨.privateUse, true, 128⟩, .indefinite⟩ →
        octets = [0xFF, 0x81, 0x00, 0x80] ∨ 4 < octets.length := by
  have hencode : (⟨⟨.privateUse, true, 128⟩, .indefinite⟩ : Header).encode =
      [0xFF, 0x81, 0x00, 0x80] := by decide +kernel
  have hall := encode_accepted_and_uniquely_shortest ⟨⟨.privateUse, true, 128⟩, .indefinite⟩
    (fun _ => rfl)
  rw [hencode] at hall
  exact ⟨hall.1, .more rfl (.more rfl (.more rfl (.more rfl (.last rfl)))), hall.2⟩

end Header

end BasicEncoding
