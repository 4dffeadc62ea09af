import BasicEncoding.Proofs.Header.Decision

/-! What a scan answers to each octet, up to its first header or defect. Octets are unfinished, a
header or malformed, and which of them they are is said here without the scan; the answers follow
that at every octet. What is answered behind a header or a defect is not looked at. -/
namespace BasicEncoding

/-- Groups that more groups follow, as long as the number they spell keeps 32 bits. -/
structure Base128.Growing (groups : Octets) : Prop where
  high : ∀ octet ∈ groups, ¬octet < 128
  bounded : Base128.valueFrom 0 groups < 2 ^ 32

namespace Header

/-- Octets that stand for a header. Contents of open length belong to constructed elements. -/
def Spelled (h : Header) (octets : Octets) : Prop :=
  ∃ identifier length, octets = identifier ++ length ∧ h.identifier.Spelled identifier ∧
    h.length.Spelled length ∧ (h.length = .indefinite → h.identifier.constructed = true)

/-- Octets of which the last is a defect, and no other. A tag number is one where it reaches 33
bits, whether or not its chain goes on. -/
inductive Malformed : Octets → Defect → Prop
  | number {i : Identifier} {groups : Octets} {octet : UInt8} (growing : Base128.Growing groups)
      (reached : 2 ^ 32 ≤ Base128.valueFrom 0 (groups ++ [octet])) :
      Malformed (i.leadOctet Identifier.chainMarker :: groups ++ [octet]) .tagNumberTooLarge
  | length {i : Identifier} {octets : Octets} {octet : UInt8} {defect : Defect}
      (identifier : i.Spelled octets) (refused : Length.Refused i octet defect) :
      Malformed (octets ++ [octet]) defect

/-- Octets that headers begin with. -/
inductive Unfinished : Octets → Prop
  | nil : Unfinished []
  | number (i : Identifier) {groups : Octets} (growing : Base128.Growing groups) :
      Unfinished (i.leadOctet Identifier.chainMarker :: groups)
  | identifier {i : Identifier} {octets : Octets} (spelled : i.Spelled octets) : Unfinished octets
  | length {i : Identifier} {octets rest : Octets} {count : Nat} (spelled : i.Spelled octets)
      (few : count ≤ Length.maxOctets) (missing : rest.length < count) :
      Unfinished (octets ++ UInt8.ofNat (128 + count) :: rest)

end Header

namespace Base128

variable {groups : Octets} {octet : UInt8}

theorem valueFrom_concat (number : Nat) (groups : Octets) (octet : UInt8) :
    valueFrom number (groups ++ [octet]) = valueFrom number groups * 128 + octet.toNat % 128 := by
  rw [valueFrom, List.foldl_append]
  rfl

theorem isChain_concat (h : ∀ octet ∈ groups, ¬octet < 128) (low : octet < 128) :
    IsChain (groups ++ [octet]) := by
  induction groups with
  | nil => exact .last low
  | cons first groups ih =>
      obtain ⟨hfirst, hgroups⟩ := List.forall_mem_cons.mp h
      exact .more hfirst (ih hgroups)

theorem growing_nil : Growing [] := ⟨List.forall_mem_nil _, by decide⟩

theorem Growing.concat (h : Growing groups) (high : ¬octet < 128)
    (bounded : valueFrom 0 (groups ++ [octet]) < 2 ^ 32) : Growing (groups ++ [octet]) := by
  refine ⟨fun other hother => ?_, bounded⟩
  rcases List.mem_append.mp hother with hgroups | hlast
  · exact h.high other hgroups
  · rw [List.mem_singleton.mp hlast]
    exact high

end Base128

namespace HeaderScan

def pushAll (s : HeaderScan) (octets : Octets) : HeaderScan :=
  octets.foldl (fun s octet => (s.push octet).2) s

/-- The last of these octets gets the answer, and the others leave the scan wanting more. -/
def Ends (s : HeaderScan) (octets : Octets) (answer : Except Defect (Option Header)) : Prop :=
  ∃ front last, octets = front ++ [last] ∧ s.isPending front ∧
    ((s.pushAll front).push last).1 = answer

def Leads (s : HeaderScan) (octets : Octets) (t : HeaderScan) : Prop :=
  s.isPending octets ∧ s.pushAll octets = t

variable {s t u : HeaderScan} {i : Identifier} {octet : UInt8} {octets rest : Octets}

theorem octets_pushAll (s : HeaderScan) (octets : Octets) :
    (s.pushAll octets).octets = s.octets ++ octets := by
  induction octets generalizing s with
  | nil => exact (List.append_nil _).symm
  | cons octet rest ih =>
      change ((s.push octet).2.pushAll rest).octets = _
      rw [ih, octets_push, List.append_assoc, List.singleton_append]

theorem Leads.nil (s : HeaderScan) : s.Leads [] s := ⟨rfl, rfl⟩

theorem Leads.cons (h : s.push octet = (.ok none, t)) (hrest : t.Leads rest u) :
    s.Leads (octet :: rest) u := by
  refine ⟨?_, ?_⟩
  · rw [isPending_cons_of_more h]
    exact hrest.1
  · change (s.push octet).2.pushAll rest = u
    rw [h]
    exact hrest.2

theorem Leads.exists_more (h : s.Leads (octet :: octets) t) :
    ∃ v, s.push octet = (.ok none, v) ∧ v.Leads octets t := by
  obtain ⟨hpending, hlast⟩ := h
  obtain ⟨v, hpush, hpending⟩ := exists_more_of_isPending hpending
  have hbehind : s.pushAll (octet :: octets) = (s.push octet).2.pushAll octets := rfl
  rw [hbehind, hpush] at hlast
  exact ⟨v, hpush, hpending, hlast⟩

theorem Leads.append (h : s.Leads octets t) (hrest : t.Leads rest u) :
    s.Leads (octets ++ rest) u := by
  induction octets generalizing s with
  | nil =>
      obtain ⟨-, rfl⟩ := h
      exact hrest
  | cons octet octets ih =>
      obtain ⟨v, hpush, hlater⟩ := h.exists_more
      exact .cons hpush (ih hlater)

/-- A header behind octets that lead to a scan is accepted with them. -/
theorem Leads.accepts {header : Header} (h : s.Leads octets t)
    (hpush : t.push octet = (.ok (some header), u)) : s.Accepts (octets ++ [octet]) header := by
  induction octets generalizing s with
  | nil =>
      obtain ⟨-, rfl⟩ := h
      exact .last hpush
  | cons first rest ih =>
      obtain ⟨v, hfirst, hlater⟩ := h.exists_more
      exact .more hfirst (ih hlater)

theorem Ends.cons {front : Octets} {answer : Except Defect (Option Header)}
    (hpush : s.push octet = (.ok none, t)) (h : t.Ends front answer) :
    s.Ends (octet :: front) answer := by
  obtain ⟨front, last, rfl, hpending, hanswer⟩ := h
  refine ⟨octet :: front, last, rfl, ?_, ?_⟩
  · rw [isPending_cons_of_more hpush]
    exact hpending
  · change (((s.push octet).2.pushAll front).push last).1 = answer
    rw [hpush]
    exact hanswer

theorem ends_singleton {answer : Except Defect (Option Header)}
    (hpush : s.push octet = (answer, t)) : s.Ends [octet] answer :=
  ⟨[], octet, rfl, rfl, congrArg Prod.fst hpush⟩

theorem Accepts.ends {header : Header} (h : s.Accepts octets header) :
    s.Ends octets (.ok (some header)) := by
  induction h with
  | last pushed => exact ends_singleton pushed
  | more pushed _ ih => exact ih.cons pushed

theorem isPending_or_ends (s : HeaderScan) (octets : Octets) :
    s.isPending octets ∨ ∃ front rest, octets = front ++ rest ∧
      ((∃ header, s.Ends front (.ok (some header))) ∨ ∃ defect, s.Ends front (.error defect)) := by
  induction octets generalizing s with
  | nil => exact .inl rfl
  | cons octet octets ih =>
      rcases hpush : s.push octet with ⟨defect | found, t⟩
      · exact .inr ⟨[octet], octets, rfl, .inr ⟨defect, ends_singleton hpush⟩⟩
      · cases found with
        | some header => exact .inr ⟨[octet], octets, rfl, .inl ⟨header, ends_singleton hpush⟩⟩
        | none =>
            rcases ih t with hpending | ⟨front, rest, rfl, ⟨header, hended⟩ | ⟨defect, hended⟩⟩
            · rw [isPending_cons_of_more hpush]
              exact .inl hpending
            · exact .inr ⟨octet :: front, rest, rfl, .inl ⟨header, hended.cons hpush⟩⟩
            · exact .inr ⟨octet :: front, rest, rfl, .inr ⟨defect, hended.cons hpush⟩⟩

/-! ### The scan behind unfinished octets -/

/-- The scan that unfinished octets lead to, told from the octets alone. -/
inductive Stands : Octets → HeaderScan → Prop
  | start : Stands [] start
  | number (i : Identifier) {groups : Octets} (growing : Base128.Growing groups) :
      Stands (i.leadOctet Identifier.chainMarker :: groups)
        (inTagNumber i (Base128.valueFrom 0 groups)
          (i.leadOctet Identifier.chainMarker :: groups).reverse)
  | identifier {i : Identifier} {octets : Octets} (spelled : i.Spelled octets) :
      Stands octets (behindIdentifier i i.number.toNat octets.reverse)
  | length {i : Identifier} {octets rest : Octets} {count : Nat} (spelled : i.Spelled octets)
      (few : count ≤ Length.maxOctets) (missing : rest.length < count) :
      Stands (octets ++ UInt8.ofNat (128 + count) :: rest)
        (inLength i (octets ++ UInt8.ofNat (128 + count) :: rest).reverse (unsignedValue rest)
          (count - rest.length))

theorem Stands.unfinished (h : Stands octets s) : Header.Unfinished octets := by
  cases h with
  | start => exact .nil
  | number i growing => exact .number i growing
  | identifier spelled => exact .identifier spelled
  | length spelled few missing => exact .length spelled few missing

theorem exists_stands (h : Header.Unfinished octets) : ∃ s, Stands octets s := by
  cases h with
  | nil => exact ⟨_, .start⟩
  | number i growing => exact ⟨_, .number i growing⟩
  | identifier spelled => exact ⟨_, .identifier spelled⟩
  | length spelled few missing => exact ⟨_, .length spelled few missing⟩

/-- What an octet can be answered, and what it says of the octets up to it. -/
inductive Answered (octets : Octets) : Except Defect (Option Header) × HeaderScan → Prop
  | more {t : HeaderScan} (stands : Stands octets t) : Answered octets (.ok none, t)
  | header {header : Header} {t : HeaderScan} (spelled : header.Spelled octets) :
      Answered octets (.ok (some header), t)
  | defect {defect : Defect} {t : HeaderScan} (malformed : Header.Malformed octets defect) :
      Answered octets (.error defect, t)

theorem push_start_answered (octet : UInt8) : Answered [octet] (start.push octet) := by
  obtain ⟨i, low, hlow, rfl⟩ := exists_leadOctet octet
  rw [push_start_leadOctet i hlow]
  refine .more ?_
  split
  · next hmarker =>
    rw [hmarker]
    exact .number i Base128.growing_nil
  · next hshort =>
    have hnumber : (UInt32.ofNat low).toNat = low :=
      Nat.mod_eq_of_lt (Nat.lt_trans hlow (by decide))
    have hmarker : Identifier.chainMarker = 31 := rfl
    have hstands := @Stands.identifier { i with number := UInt32.ofNat low } [i.leadOctet low]
      (.short hnumber (by omega))
    dsimp only at hstands
    rwa [hnumber] at hstands

theorem push_number_answered (i : Identifier) {groups : Octets}
    (growing : Base128.Growing groups) (octet : UInt8) :
    Answered (i.leadOctet Identifier.chainMarker :: groups ++ [octet])
      ((inTagNumber i (Base128.valueFrom 0 groups)
        (i.leadOctet Identifier.chainMarker :: groups).reverse).push octet) := by
  have hconcat := Base128.valueFrom_concat 0 groups octet
  have hbound : numberBound = 2 ^ 25 := rfl
  -- The scan looks at the number before it appends a group: 25 bits leave room for 7 more.
  by_cases hroom : Base128.valueFrom 0 groups < numberBound
  · have hvalue : Base128.valueFrom 0 (groups ++ [octet]) < 2 ^ 32 := by omega
    rw [push_inTagNumber i hroom, ← hconcat, ← List.reverse_concat]
    refine .more ?_
    split
    · next hlow =>
      have hnumber : (UInt32.ofNat (Base128.valueFrom 0 (groups ++ [octet]))).toNat =
          Base128.valueFrom 0 (groups ++ [octet]) := Nat.mod_eq_of_lt hvalue
      have hstands := @Stands.identifier
        { i with number := UInt32.ofNat (Base128.valueFrom 0 (groups ++ [octet])) }
        (i.leadOctet Identifier.chainMarker :: (groups ++ [octet]))
        (.high (Base128.isChain_concat growing.high hlow) hnumber.symm)
      dsimp only at hstands
      rwa [hnumber] at hstands
    · next hhigh => exact .number i (growing.concat hhigh hvalue)
  · rw [push_inTagNumber_refused i (Nat.not_lt.mp hroom)]
    exact .defect (.number growing (by omega))

theorem push_identifier_answered (spelled : i.Spelled octets) (octet : UInt8) :
    Answered (octets ++ [octet])
      ((behindIdentifier i i.number.toNat octets.reverse).push octet) := by
  rcases lengthOctet_cases i octet with
    hlow | ⟨rfl, hform⟩ | ⟨n, hfew, hn⟩ | ⟨defect, hrefused⟩
  · rw [push_behindIdentifier_short i _ hlow]
    exact .header ⟨octets, [octet], rfl, spelled, .short (UInt8.lt_iff_toNat_lt.mpr hlow), nofun⟩
  · rw [push_behindIdentifier_open i _ hform]
    exact .header ⟨octets, [Length.openOctet], rfl, spelled, .indefinite, fun _ => hform⟩
  · have hoctet : octet = UInt8.ofNat (128 + (n + 1)) := by rw [← hn, UInt8.ofNat_toNat]
    rw [push_behindIdentifier_long i _ hn hfew, ← List.reverse_concat, hoctet]
    exact .more (@Stands.length _ _ [] _ spelled hfew (Nat.succ_pos n))
  · rw [push_behindIdentifier_refused _ hrefused]
    exact .defect (.length spelled hrefused)

theorem push_length_answered {count : Nat} (spelled : i.Spelled octets)
    (few : count ≤ Length.maxOctets) (missing : rest.length < count) (octet : UInt8) :
    Answered (octets ++ UInt8.ofNat (128 + count) :: rest ++ [octet])
      ((inLength i (octets ++ UInt8.ofNat (128 + count) :: rest).reverse (unsignedValue rest)
        (count - rest.length)).push octet) := by
  have hmax : Length.maxOctets = 8 := rfl
  have hbound : unsignedValue rest < lengthBound :=
    Nat.lt_of_lt_of_le (unsignedValue_lt rest)
      (Nat.pow_le_pow_right (j := 7) (by decide) (by omega))
  have hconcat : unsignedValue (rest ++ [octet]) = unsignedValue rest * 256 + octet.toNat := by
    rw [unsignedValue_append, unsignedValue_cons]
    simp
  have hoctets : octets ++ UInt8.ofNat (128 + count) :: rest ++ [octet] =
      octets ++ UInt8.ofNat (128 + count) :: (rest ++ [octet]) := by
    rw [List.append_assoc, List.cons_append]
  obtain ⟨r, hr⟩ : ∃ r, count - rest.length = r + 1 := ⟨count - rest.length - 1, by omega⟩
  have hlength : (rest ++ [octet]).length = rest.length + 1 := by
    rw [List.length_append, List.length_singleton]
  rw [hr]
  cases r with
  | zero =>
      obtain rfl : count = (rest ++ [octet]).length := by omega
      rw [push_inLength_last i hbound, ← hconcat, hoctets]
      exact .header ⟨octets, _, rfl, spelled, .long (List.append_ne_nil_of_right_ne_nil _
        (List.cons_ne_nil _ _)) few, nofun⟩
  | succ r =>
      have hmissing : r + 1 = count - (rest ++ [octet]).length := by omega
      rw [push_inLength i hbound, ← hconcat, ← List.reverse_concat, hoctets, hmissing]
      exact .more (.length spelled few (by omega))

/-- A step: an octet behind unfinished octets is answered as the octets with it demand. -/
theorem Stands.push (h : Stands octets s) (octet : UInt8) :
    Answered (octets ++ [octet]) (s.push octet) := by
  cases h with
  | start => exact push_start_answered octet
  | number i growing => exact push_number_answered i growing octet
  | identifier spelled => exact push_identifier_answered spelled octet
  | length spelled few missing => exact push_length_answered spelled few missing octet

/-- A run: as long as nothing is decided, the scan stands where the octets say. -/
theorem Stands.append {front : Octets} (h : Stands front s) (hleads : s.Leads octets t) :
    Stands (front ++ octets) t := by
  induction octets generalizing front s with
  | nil =>
      obtain ⟨-, rfl⟩ := hleads
      rw [List.append_nil]
      exact h
  | cons octet rest ih =>
      obtain ⟨v, hpush, hlater⟩ := hleads.exists_more
      have hanswered := h.push octet
      rw [hpush] at hanswered
      rw [List.append_cons]
      cases hanswered with
      | more stands => exact ih stands hlater

theorem stands_of_isPending (h : start.isPending octets) : Stands octets (start.pushAll octets) :=
  Stands.start.append ⟨h, rfl⟩

/-! ### What unfinished octets lead to -/

theorem leads_inTagNumber {number : Nat} {groups : Octets}
    (high : ∀ octet ∈ groups, ¬octet < 128)
    (bounded : Base128.valueFrom number groups < numberBound * 128) (seen : Octets) :
    (inTagNumber i number seen).Leads groups
      (inTagNumber i (Base128.valueFrom number groups) (groups.reverse ++ seen)) := by
  induction groups generalizing number seen with
  | nil => exact .nil _
  | cons octet groups ih =>
      obtain ⟨hhigh, hgroups⟩ := List.forall_mem_cons.mp high
      rw [Base128.valueFrom_cons] at bounded ⊢
      have hroom : number < numberBound := by
        have hgrown := Base128.le_valueFrom (number * 128 + octet.toNat % 128) groups
        omega
      have hpush := push_inTagNumber i hroom seen octet
      rw [if_neg hhigh] at hpush
      rw [List.reverse_cons, List.append_assoc]
      exact .cons hpush (ih hgroups bounded _)

theorem leads_chain {number : Nat} {chain : Octets} (isChain : Base128.IsChain chain)
    (bounded : Base128.valueFrom number chain < numberBound * 128) (seen : Octets) :
    (inTagNumber i number seen).Leads chain
      (behindIdentifier i (Base128.valueFrom number chain) (chain.reverse ++ seen)) := by
  have hroom : number < numberBound := by
    have hgrown := isChain.mul_le_valueFrom number
    omega
  induction isChain generalizing number seen with
  | @last octet low =>
      have hpush := push_inTagNumber i hroom seen octet
      rw [if_pos low] at hpush
      exact .cons hpush (.nil _)
  | @more octet rest high later ih =>
      have hpush := push_inTagNumber i hroom seen octet
      rw [if_neg high] at hpush
      rw [Base128.valueFrom_cons] at bounded ⊢
      have hnext : number * 128 + octet.toNat % 128 < numberBound := by
        have hgrown := later.mul_le_valueFrom (number * 128 + octet.toNat % 128)
        omega
      rw [List.reverse_cons, List.append_assoc]
      exact .cons hpush (ih bounded _ hnext)

theorem leads_inLength {r k length : Nat} (hlength : length < 256 ^ k)
    (hroom : k + (rest.length + (r + 1)) ≤ Length.maxOctets) (seen : Octets) :
    (inLength i seen length (rest.length + (r + 1))).Leads rest
      (inLength i (rest.reverse ++ seen)
        (rest.foldl (fun value octet => value * 256 + octet.toNat) length) (r + 1)) := by
  have hmax : Length.maxOctets = 8 := rfl
  induction rest generalizing k length seen with
  | nil =>
      rw [List.length_nil, Nat.zero_add]
      exact .nil _
  | cons octet rest ih =>
      rw [List.length_cons] at hroom ⊢
      have hbound : length < lengthBound :=
        Nat.lt_of_lt_of_le hlength (Nat.pow_le_pow_right (j := 7) (by decide) (by omega))
      have hnext : length * 256 + octet.toNat < 256 ^ (k + 1) := by
        have hoctet : octet.toNat < 256 := octet.toNat_lt
        rw [Nat.pow_succ]
        omega
      have hpush := push_inLength i hbound seen (rest.length + r) octet
      have hmissing : rest.length + 1 + (r + 1) = rest.length + r + 2 := by omega
      rw [hmissing, List.reverse_cons, List.append_assoc, List.foldl_cons]
      exact .cons hpush (ih hnext (by omega) _)

theorem leads_identifier (spelled : i.Spelled octets) :
    start.Leads octets (behindIdentifier i i.number.toNat octets.reverse) := by
  have hmarker : Identifier.chainMarker = 31 := rfl
  cases spelled with
  | @short low number lt =>
      have hpush := push_start_leadOctet i (Nat.lt_succ_of_lt lt)
      rw [if_neg (Nat.ne_of_lt lt), ← number] at hpush
      rw [← number]
      exact .cons hpush (.nil _)
  | @high chain isChain number =>
      have hpush := push_start_leadOctet i (show Identifier.chainMarker < 32 by decide)
      rw [if_pos rfl] at hpush
      have hbounded : Base128.valueFrom 0 chain < numberBound * 128 := by
        rw [number]
        exact i.number.toNat_lt
      have hchain := leads_chain (i := i) isChain hbounded [i.leadOctet Identifier.chainMarker]
      rw [number] at hchain
      rw [List.reverse_cons]
      exact .cons hpush hchain

theorem Stands.leads (h : Stands octets s) : HeaderScan.start.Leads octets s := by
  cases h with
  | start => exact .nil _
  | identifier spelled => exact leads_identifier spelled
  | @number i groups growing =>
      have hpush := push_start_leadOctet i (show Identifier.chainMarker < 32 by decide)
      rw [if_pos rfl] at hpush
      rw [List.reverse_cons]
      exact .cons hpush (leads_inTagNumber growing.high growing.bounded _)
  | @length i octets rest count spelled few missing =>
      obtain ⟨r, rfl⟩ : ∃ r, count = rest.length + (r + 1) := ⟨count - rest.length - 1, by omega⟩
      have hmax : Length.maxOctets = 8 := rfl
      have hoctet : (UInt8.ofNat (128 + (rest.length + (r + 1)))).toNat =
          128 + (rest.length + r + 1) := by
        rw [UInt8.toNat_ofNat']
        omega
      have hpush := push_behindIdentifier_long i octets.reverse hoctet (by omega)
      have hrest := @leads_inLength i rest r 0 0 (by decide) (by omega)
        (UInt8.ofNat (128 + (rest.length + (r + 1))) :: octets.reverse)
      have hmissing : rest.length + (r + 1) - rest.length = r + 1 := Nat.add_sub_cancel_left _ _
      rw [hmissing, List.reverse_append, List.reverse_cons, List.append_assoc]
      exact (leads_identifier spelled).append (.cons hpush hrest)

theorem isPending_iff_unfinished : start.isPending octets ↔ Header.Unfinished octets := by
  constructor
  · intro h
    exact (stands_of_isPending h).unfinished
  · intro h
    obtain ⟨s, hstands⟩ := exists_stands h
    exact hstands.leads.1

theorem Stands.ends {defect : Defect} (h : Stands octets s)
    (hpush : s.push octet = (.error defect, t)) :
    HeaderScan.start.Ends (octets ++ [octet]) (.error defect) := by
  obtain ⟨hpending, hlast⟩ := h.leads
  exact ⟨octets, octet, rfl, hpending, by rw [hlast, hpush]⟩

theorem ends_of_malformed {defect : Defect} (h : Header.Malformed octets defect) :
    start.Ends octets (.error defect) := by
  cases h with
  | @number i groups octet growing reached =>
      have hfull : numberBound ≤ Base128.valueFrom 0 groups := by
        have hbound : numberBound = 2 ^ 25 := rfl
        rw [Base128.valueFrom_concat] at reached
        omega
      have hstands := Stands.number i growing
      exact hstands.ends (push_inTagNumber_refused i hfull _ octet)
  | length identifier refused =>
      have hstands := Stands.identifier identifier
      exact hstands.ends (push_behindIdentifier_refused _ refused)

/-- An answer is what the octets up to it demand. -/
theorem Ends.answered {answer : Except Defect (Option Header)} (h : start.Ends octets answer) :
    ∃ t, Answered octets (answer, t) := by
  obtain ⟨front, last, rfl, hpending, rfl⟩ := h
  exact ⟨_, (stands_of_isPending hpending).push last⟩

theorem ends_header_iff {header : Header} :
    start.Ends octets (.ok (some header)) ↔ header.Spelled octets := by
  constructor
  · intro h
    obtain ⟨t, hanswered⟩ := h.answered
    cases hanswered with
    | header spelled => exact spelled
  · intro h
    exact (accepts_start.mpr h).ends

theorem ends_defect_iff {defect : Defect} :
    start.Ends octets (.error defect) ↔ Header.Malformed octets defect := by
  constructor
  · intro h
    obtain ⟨t, hanswered⟩ := h.answered
    cases hanswered with
    | defect malformed => exact malformed
  · exact ends_of_malformed

/-- A fresh scan remembers all octets, wants more behind unfinished octets and no others, gives a
header with the last octet of its spelling and a defect with the octet that is one. Octets of any
number begin so, and no length is ever found too large for its octets. -/
theorem answers_follow_octets (octets : Octets) :
    (start.pushAll octets).octets = octets ∧
    (start.isPending octets ↔ Header.Unfinished octets) ∧
    (∀ header, start.Ends octets (.ok (some header)) ↔ header.Spelled octets) ∧
    (∀ defect, start.Ends octets (.error defect) ↔ Header.Malformed octets defect) ∧
    (Header.Unfinished octets ∨ ∃ front rest, octets = front ++ rest ∧
      ((∃ header : Header, header.Spelled front) ∨
        ∃ defect, Header.Malformed front defect)) ∧
    ¬start.Ends octets (.error .lengthOverflow) := by
  refine ⟨octets_pushAll start octets, isPending_iff_unfinished, fun _ => ends_header_iff,
    fun _ => ends_defect_iff, ?_, ?_⟩
  · rcases isPending_or_ends start octets with hpending | ⟨front, rest, hoctets, hended⟩
    · exact .inl (isPending_iff_unfinished.mp hpending)
    · simp only [ends_header_iff, ends_defect_iff] at hended
      exact .inr ⟨front, rest, hoctets, hended⟩
  · intro hoverflow
    cases ends_defect_iff.mp hoverflow with
    | length _ refused => cases refused

end HeaderScan

end BasicEncoding
