import BasicEncoding.ObjectIdentifier.Content
import BasicEncoding.Proofs.Base128

/-! The contents of an object identifier read back: each subidentifier is one chain, and the first
one tells the first two arcs apart. -/
namespace BasicEncoding.ObjectIdentifier

theorem reads_chains :
    Base128.Reads (fun number seen rest => readChains number (!seen.isEmpty) rest)
      (fun number _ rest => (readChains 0 false rest).map (UInt64.ofNat number :: ·)) groupBound := by
  intro number seen octet rest hbound
  dsimp only
  rw [readChains, if_neg (Nat.not_le_of_lt hbound)]
  rfl

theorem readChains_chain (n : UInt64) (rest : Octets) :
    readChains 0 false (Base128.chain n.toNat ++ rest) =
      (readChains 0 false rest).map (n :: ·) := by
  have hread := Base128.read_chain reads_chains n.toNat_lt [] rest
  rwa [UInt64.ofNat_toNat] at hread

theorem readChains_flatMap (ns : List UInt64) :
    readChains 0 false (ns.flatMap fun n => Base128.chain n.toNat) = .ok ns := by
  induction ns with
  | nil => rfl
  | cons n ns ih =>
      rw [List.flatMap_cons, readChains_chain, ih]
      rfl

theorem map_toNat_ofNat {numbers : List Nat} (h : ∀ number ∈ numbers, number < 2 ^ 64) :
    (numbers.map UInt64.ofNat).map UInt64.toNat = numbers := by
  have hword : ∀ number ∈ numbers, (UInt64.toNat ∘ UInt64.ofNat) number = id number :=
    fun number hmem => UInt64.toNat_ofNat_of_lt' (h number hmem)
  rw [List.map_map, List.map_congr_left hword, List.map_id]

/-- The first subidentifier of a valid pair of arcs does not wrap. -/
theorem toNat_firstSubidentifier {first second : UInt64} {rest : List UInt64}
    (h : ValidArcs (first :: second :: rest)) :
    (40 * first + second).toNat = 40 * first.toNat + second.toNat := by
  obtain ⟨hfirst, _, hsum⟩ := h
  have hsmall : first.toNat ≤ 2 := UInt64.le_iff_toNat_le.mp hfirst
  have hproduct : (40 * first).toNat = 40 * first.toNat := by
    rw [UInt64.toNat_mul]
    exact Nat.mod_eq_of_lt (by change 40 * first.toNat < _; omega)
  rw [UInt64.toNat_add, hproduct]
  exact Nat.mod_eq_of_lt hsum

def firstArcs (n : UInt64) : UInt64 × UInt64 :=
  if n < 40 then (0, n) else if n < 80 then (1, n - 40) else (2, n - 80)

theorem ofSubidentifiers_cons (n : UInt64) (rest : List UInt64) :
    ∃ o, ofSubidentifiers (n :: rest) = .ok o ∧
      o.arcs = (firstArcs n).1 :: (firstArcs n).2 :: rest := by
  unfold ofSubidentifiers firstArcs
  dsimp only
  by_cases h0 : n < 40
  · rw [dif_pos h0, if_pos h0]
    exact ⟨_, rfl, rfl⟩
  · rw [dif_neg h0, if_neg h0]
    by_cases h1 : n < 80
    · rw [dif_pos h1, if_pos h1]
      exact ⟨_, rfl, rfl⟩
    · rw [dif_neg h1, if_neg h1]
      exact ⟨_, rfl, rfl⟩

theorem firstArcs_sum {first second : UInt64} {rest : List UInt64}
    (h : ValidArcs (first :: second :: rest)) : firstArcs (40 * first + second) = (first, second) := by
  have hvalue := toNat_firstSubidentifier h
  obtain ⟨hfirst, hsecond, -⟩ := h
  have hroot : first.toNat ≤ 2 := UInt64.le_iff_toNat_le.mp hfirst
  have hbelow : first.toNat < 2 → second.toNat < 40 := fun h =>
    UInt64.lt_iff_toNat_lt.mp (hsecond (UInt64.lt_iff_toNat_lt.mpr h))
  have h40 : 40 * first + second < 40 ↔ first.toNat = 0 := by
    rw [UInt64.lt_iff_toNat_lt, hvalue]
    change _ < 40 ↔ _
    omega
  have h80 : 40 * first + second < 80 ↔ first.toNat < 2 := by
    rw [UInt64.lt_iff_toNat_lt, hvalue]
    change _ < 80 ↔ _
    omega
  have hback : ∀ c : UInt64, c.toNat = 40 * first.toNat → 40 * first + second - c = second := by
    intro c hc
    apply UInt64.toNat_inj.mp
    rw [UInt64.toNat_sub_of_le _ _ (UInt64.le_iff_toNat_le.mpr (by omega)), hvalue]
    omega
  unfold firstArcs
  rcases (by omega : first.toNat = 0 ∨ first.toNat = 1 ∨ first.toNat = 2) with h | h | h
  · have heq : first = 0 := UInt64.toNat_inj.mp h
    rw [if_pos (h40.mpr h), heq, UInt64.mul_zero, UInt64.zero_add]
  · have heq : first = 1 := UInt64.toNat_inj.mp h
    rw [if_neg (mt h40.mp (by omega)), if_pos (h80.mpr (by omega)), hback 40 (by rw [h]; rfl), heq]
  · have heq : first = 2 := UInt64.toNat_inj.mp h
    rw [if_neg (mt h40.mp (by omega)), if_neg (mt h80.mp (by omega)), hback 80 (by rw [h]; rfl), heq]

theorem ofSubidentifiers_subidentifiers (o : ObjectIdentifier) :
    ofSubidentifiers o.subidentifiers = .ok o := by
  obtain ⟨arcs, valid⟩ := o
  obtain ⟨first, second, rest, rfl⟩ : ∃ first second rest, arcs = first :: second :: rest := by
    cases valid
    exact ⟨_, _, _, rfl⟩
  obtain ⟨back, hback, harcs⟩ := ofSubidentifiers_cons (40 * first + second) rest
  rw [firstArcs_sum valid] at harcs
  cases back
  cases harcs
  exact hback

theorem encode_ne_nil (o : ObjectIdentifier) : o.encode ≠ [] := by
  obtain ⟨arcs, valid⟩ := o
  cases valid
  intro h
  change Base128.chain _ ++ _ = [] at h
  exact Base128.chain_ne_nil _ (List.append_eq_nil_iff.mp h).1

theorem decode_encode (o : ObjectIdentifier) : decode o.encode = .ok o := by
  have hcons : o.encode.isEmpty = false := List.isEmpty_eq_false_iff.mpr (encode_ne_nil o)
  rw [decode, hcons, encode, readChains_flatMap]
  exact ofSubidentifiers_subidentifiers o

end BasicEncoding.ObjectIdentifier
