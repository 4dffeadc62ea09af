import BasicEncoding.Proofs.Chains
import BasicEncoding.Proofs.ObjectIdentifier.RoundTrip

/-! Which contents are object identifiers, which arcs they have, and which of them are what is
written. The accumulator is shared by all chains and checked before each group; on whole chains this
check is the bound on the number, since a group moves a number up by a factor of 128 and adds less
than that. -/
namespace BasicEncoding.ObjectIdentifier

open Base128 (IsChain Endless WellSpelled chains valueFrom zeroGroup)

/-- The arcs that numbers on the wire stand for; the first number stands for two. -/
def arcsOf : List Nat → List Nat
  | [] => []
  | first :: rest =>
    if first < 40 then 0 :: first :: rest
    else if first < 80 then 1 :: (first - 40) :: rest
    else 2 :: (first - 80) :: rest

/-- The numbers of all chains, without a bound. -/
def numbers (content : Octets) : List Nat :=
  (chains content).map (valueFrom 0)

variable {content front : Octets}

theorem numbers_append (h : IsChain front) (rest : Octets) :
    numbers (front ++ rest) = valueFrom 0 front :: numbers rest := by
  rw [numbers, Base128.chains_append h]
  rfl

/-- The check before a group fails exactly where the number would not have 64 bits. -/
theorem group_bound_iff (number : Nat) (octet : UInt8) :
    groupBound ≤ number ↔ ¬number * 128 + octet.toNat % 128 < 2 ^ 64 := by
  rw [groupBound]
  omega

/-- A number that is too large stays so with all groups behind it. -/
theorem valueFrom_not_lt {number : Nat} (h : groupBound ≤ number) (octet : UInt8) (rest : Octets) :
    ¬valueFrom number (octet :: rest) < 2 ^ 64 := by
  have hnext := (group_bound_iff number octet).mp h
  have hle := Base128.le_valueFrom (number * 128 + octet.toNat % 128) rest
  rw [Base128.valueFrom_cons]
  omega

theorem readChains_append (h : IsChain front) (number : Nat) (unfinished : Bool) (rest : Octets) :
    readChains number unfinished (front ++ rest) =
      if valueFrom number front < 2 ^ 64 then
        (readChains 0 false rest).map (UInt64.ofNat (valueFrom number front) :: ·)
      else .error .subidentifierTooLarge := by
  induction h generalizing number unfinished with
  | @last octet low =>
      rw [List.singleton_append, readChains, Base128.valueFrom_cons, Base128.valueFrom_nil]
      by_cases hbound : groupBound ≤ number
      · rw [if_pos hbound, if_neg ((group_bound_iff number octet).mp hbound)]
      · rw [if_neg hbound, if_pos (not_not.mp (mt (group_bound_iff number octet).mpr hbound))]
        exact if_pos low
  | @more octet behind high later ih =>
      rw [List.cons_append, readChains]
      by_cases hbound : groupBound ≤ number
      · rw [if_pos hbound, if_neg (valueFrom_not_lt hbound octet behind)]
      · rw [if_neg hbound]
        dsimp only
        rw [if_neg high, ih, Base128.valueFrom_cons]

/-- A run without an end is refused, either for its number or at its end. -/
theorem readChains_endless (number : Nat) (hnumber : number < 2 ^ 64) (octets : Octets)
    (h : ∀ octet ∈ octets, ¬octet < 128) :
    readChains number true octets =
      .error (if valueFrom number octets < 2 ^ 64 then .subidentifierUnfinished
        else .subidentifierTooLarge) := by
  induction octets generalizing number with
  | nil =>
      rw [Base128.valueFrom_nil, if_pos hnumber]
      rfl
  | cons octet rest ih =>
      obtain ⟨high, hrest⟩ := List.forall_mem_cons.mp h
      rw [readChains]
      by_cases hbound : groupBound ≤ number
      · rw [if_pos hbound, if_neg (valueFrom_not_lt hbound octet rest)]
      · have hnext := not_not.mp (mt (group_bound_iff number octet).mpr hbound)
        rw [if_neg hbound]
        dsimp only
        rw [if_neg high, ih _ hnext hrest, Base128.valueFrom_cons]

/-- Contents with nothing left over and all numbers in bounds are read as these numbers. -/
theorem readChains_of_wellSpelled (h : WellSpelled content) :
    readChains 0 false content = .ok ((numbers content).map UInt64.ofNat) := by
  induction content using Base128.chains_induction with
  | nil => rfl
  | append front rest hfront ih =>
      obtain ⟨hvalue, hrest⟩ := (Base128.wellSpelled_append_iff hfront).mp h
      rw [readChains_append hfront, if_pos hvalue, ih hrest, numbers_append hfront]
      rfl
  | endless octets hendless => exact absurd h (Base128.not_wellSpelled_of_endless hendless)

/-- All others are refused: for the first number that is too large, else for what is left over. -/
theorem readChains_of_not_wellSpelled (h : ¬WellSpelled content) :
    readChains 0 false content =
      .error (if ∀ number ∈ numbers content, number < 2 ^ 64 then .subidentifierUnfinished
        else .subidentifierTooLarge) := by
  induction content using Base128.chains_induction with
  | nil => exact absurd Base128.wellSpelled_nil h
  | append front rest hfront ih =>
      rw [Base128.wellSpelled_append_iff hfront] at h
      rw [readChains_append hfront, numbers_append hfront]
      simp only [List.forall_mem_cons]
      by_cases hvalue : valueFrom 0 front < 2 ^ 64
      · simp only [hvalue, true_and, if_true]
        rw [ih fun hrest => h ⟨hvalue, hrest⟩]
        rfl
      · simp only [hvalue, false_and, if_false]
  | endless octets hendless =>
      obtain ⟨octet, rest, rfl⟩ := List.exists_cons_of_ne_nil hendless.1
      have hnumbers : numbers (octet :: rest) = [valueFrom 0 (octet :: rest)] := by
        rw [numbers, Base128.chains_endless hendless]
        rfl
      have hsame : readChains 0 false (octet :: rest) = readChains 0 true (octet :: rest) := rfl
      rw [hsame, readChains_endless 0 (by decide) _ hendless.2, hnumbers]
      simp only [List.forall_mem_singleton]

theorem map_toNat_firstArcs (n : UInt64) (rest : List UInt64) :
    ((firstArcs n).1 :: (firstArcs n).2 :: rest).map UInt64.toNat =
      arcsOf ((n :: rest).map UInt64.toNat) := by
  have h40 : n < 40 ↔ n.toNat < 40 := UInt64.lt_iff_toNat_lt
  have h80 : n < 80 ↔ n.toNat < 80 := UInt64.lt_iff_toNat_lt
  simp only [firstArcs, arcsOf, List.map_cons, h40, h80]
  split
  · rfl
  · next hfirst =>
    split
    · have hle : (40 : UInt64) ≤ n := UInt64.not_lt.mp (mt h40.mp hfirst)
      rw [UInt64.toNat_sub_of_le _ _ hle]
      rfl
    · next hsecond =>
      have hle : (80 : UInt64) ≤ n := UInt64.not_lt.mp (mt h80.mp hsecond)
      rw [UInt64.toNat_sub_of_le _ _ hle]
      rfl

theorem sum_firstArcs (n : UInt64) : 40 * (firstArcs n).1 + (firstArcs n).2 = n := by
  unfold firstArcs
  split
  · rw [UInt64.mul_zero, UInt64.zero_add]
  · split
    · rw [UInt64.mul_one, UInt64.add_comm, UInt64.sub_add_cancel]
    · have h80 : (40 : UInt64) * 2 = 80 := rfl
      rw [h80, UInt64.add_comm, UInt64.sub_add_cancel]

theorem subidentifiers_of_arcs {o : ObjectIdentifier} {n : UInt64} {rest : List UInt64}
    (h : o.arcs = (firstArcs n).1 :: (firstArcs n).2 :: rest) : o.subidentifiers = n :: rest := by
  rw [subidentifiers, h]
  simp only [sum_firstArcs]

theorem map_toNat_numbers (h : WellSpelled content) :
    ((numbers content).map UInt64.ofNat).map UInt64.toNat = numbers content := by
  apply map_toNat_ofNat
  rw [numbers, List.forall_mem_map]
  exact h.bounded

theorem decode_of_wellSpelled (hne : content ≠ []) (h : WellSpelled content) :
    ∃ o, decode content = .ok o ∧ o.arcs.map UInt64.toNat = arcsOf (numbers content) ∧
      o.subidentifiers = (numbers content).map UInt64.ofNat := by
  have hnumbers : numbers content ≠ [] := by
    rw [numbers, chains]
    simpa using hne
  obtain ⟨n, rest, hcons⟩ := List.exists_cons_of_ne_nil
    (List.map_eq_nil_iff.not.mpr hnumbers : (numbers content).map UInt64.ofNat ≠ [])
  obtain ⟨o, hmade, harcs⟩ := ofSubidentifiers_cons n rest
  have hback := map_toNat_numbers h
  refine ⟨o, ?_, ?_, ?_⟩
  · rw [decode, List.isEmpty_eq_false_iff.mpr hne, readChains_of_wellSpelled h, hcons]
    exact hmade
  · rw [harcs, map_toNat_firstArcs, ← hcons, hback]
  · rw [subidentifiers_of_arcs harcs, hcons]

/-- Numbers that were read are written in the octets they were read from if no chain was padded,
and in fewer otherwise. -/
theorem written_numbers (h : WellSpelled content) :
    ((numbers content).flatMap Base128.chain = content ↔
      ∀ chain ∈ chains content, chain.head? ≠ some zeroGroup) ∧
    ((numbers content).flatMap Base128.chain).length ≤ content.length := by
  induction content using Base128.chains_induction with
  | nil => exact ⟨iff_of_true rfl nofun, Nat.le_refl _⟩
  | append front rest hfront ih =>
      obtain ⟨-, hrest⟩ := (Base128.wellSpelled_append_iff hfront).mp h
      obtain ⟨hsame, hlength⟩ := ih hrest
      rw [numbers_append hfront, List.flatMap_cons, Base128.chains_append hfront,
        List.forall_mem_cons, ← hfront.eq_chain_iff, ← hsame]
      constructor
      · constructor
        · intro heq
          have hcut := congrArg chains heq
          rw [Base128.chains_append (Base128.isChain_chain _), Base128.chains_append hfront] at hcut
          have hself := (List.cons.inj hcut).1
          rw [hself] at heq
          exact ⟨hself, List.append_cancel_left heq⟩
        · rintro ⟨hself, hothers⟩
          rw [hself, hothers]
      · have hfirst := hfront.length_chain_le
        rw [List.length_append, List.length_append]
        omega
  | endless octets hendless => exact absurd h (Base128.not_wellSpelled_of_endless hendless)

theorem encode_of_subidentifiers {o : ObjectIdentifier} (h : WellSpelled content)
    (hnumbers : o.subidentifiers = (numbers content).map UInt64.ofNat) :
    o.encode = (numbers content).flatMap Base128.chain := by
  rw [encode, hnumbers, ← List.flatMap_map UInt64.toNat Base128.chain, map_toNat_numbers h]

theorem decode_refused (h : ¬(content ≠ [] ∧ WellSpelled content)) :
    decode content = .error
      (if content = [] then .oidEmpty
        else if ∀ number ∈ numbers content, number < 2 ^ 64 then .subidentifierUnfinished
        else .subidentifierTooLarge) := by
  by_cases hne : content = []
  · subst hne
    rfl
  · have hnot : ¬WellSpelled content := fun hwell => h ⟨hne, hwell⟩
    rw [decode, List.isEmpty_eq_false_iff.mpr hne, readChains_of_not_wellSpelled hnot, if_neg hne]
    rfl

theorem decode_succeeds_iff :
    (∃ read, decode content = .ok read) ↔ content ≠ [] ∧ WellSpelled content := by
  constructor
  · rintro ⟨read, h⟩
    by_contra hnot
    rw [decode_refused hnot] at h
    cases h
  · rintro ⟨hne, hwell⟩
    obtain ⟨read, h, -⟩ := decode_of_wellSpelled hne hwell
    exact ⟨read, h⟩

theorem decode_ok {read : ObjectIdentifier} (h : decode content = .ok read) :
    read.arcs.map UInt64.toNat = arcsOf (numbers content) ∧
      (read.encode = content ↔ ∀ chain ∈ chains content, chain.head? ≠ some zeroGroup) ∧
      read.encode.length ≤ content.length := by
  obtain ⟨hne, hwell⟩ := decode_succeeds_iff.mp ⟨read, h⟩
  obtain ⟨made, hmade, harcs, hnumbers⟩ := decode_of_wellSpelled hne hwell
  cases h.symm.trans hmade
  rw [encode_of_subidentifiers hwell hnumbers]
  exact ⟨harcs, written_numbers hwell⟩

/-- An identifier is read back from its contents. Contents are an identifier if they are not empty,
nothing is left over behind the last chain and every number has 64 bits; its arcs are the numbers,
the first of them split in two. They are what is written for it if no chain is padded, and what is
written is never longer. All others are refused. -/
theorem decode_exact (o : ObjectIdentifier) (content : Octets) :
    decode o.encode = .ok o ∧
    ((∃ read, decode content = .ok read) ↔
      content ≠ [] ∧ (∀ last ∈ content.getLast?, last < 128) ∧
        ∀ number ∈ numbers content, number < 2 ^ 64) ∧
    (∀ read, decode content = .ok read →
      read.arcs.map UInt64.toNat = arcsOf (numbers content) ∧
      (read.encode = content ↔ ∀ chain ∈ chains content, chain.head? ≠ some zeroGroup) ∧
      read.encode.length ≤ content.length) ∧
    ((¬∃ read, decode content = .ok read) →
      decode content = .error
        (if content = [] then .oidEmpty
          else if ∀ number ∈ numbers content, number < 2 ^ 64 then .subidentifierUnfinished
          else .subidentifierTooLarge)) := by
  have hwell : WellSpelled content ↔ (∀ last ∈ content.getLast?, last < 128) ∧
      ∀ number ∈ numbers content, number < 2 ^ 64 := by
    rw [numbers, List.forall_mem_map]
    exact ⟨fun h => ⟨h.closed, h.bounded⟩, fun h => ⟨h.1, h.2⟩⟩
  rw [← hwell]
  refine ⟨decode_encode o, decode_succeeds_iff, fun _ => decode_ok, fun h => ?_⟩
  exact decode_refused (mt decode_succeeds_iff.mpr h)

end BasicEncoding.ObjectIdentifier
