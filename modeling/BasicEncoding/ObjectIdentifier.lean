import BasicEncoding.Failure

/-! Object identifiers: sequences of arcs. The first two arcs share one number on the wire, which is
why they are bounded; an identifier carries the proof that they are. -/
namespace BasicEncoding

/-- At least two arcs, the first at most 2, the second below 40 under the first two roots, and a
sum that a word holds. -/
inductive ValidArcs : List UInt64 → Prop where
  | intro {first second : UInt64} {rest : List UInt64} (first_le : first ≤ 2)
      (second_lt : first < 2 → second < 40) (sum_lt : 40 * first.toNat + second.toNat < 2 ^ 64) :
      ValidArcs (first :: second :: rest)

structure ObjectIdentifier where
  arcs : List UInt64
  valid : ValidArcs arcs
  deriving DecidableEq, Repr

namespace ObjectIdentifier

/-- The identifier with the given arcs, or the first rule that they break. -/
def ofArcs : List UInt64 → Except Defect ObjectIdentifier
  | first :: second :: rest =>
    if hf : 2 < first then .error (.firstArcRange first)
    else if hs : first < 2 ∧ 40 ≤ second then .error (.secondArcRange first second)
    else if ht : 2 ^ 64 ≤ 40 * first.toNat + second.toNat then .error .arcSumTooLarge
    else .ok ⟨first :: second :: rest, .intro (UInt64.not_lt.mp hf)
      (fun h => UInt64.not_le.mp fun hle => hs ⟨h, hle⟩) (Nat.lt_of_not_le ht)⟩
  | arcs => .error (.tooFewArcs arcs.length)

/-- The numbers on the wire: the first two arcs in one, then the others. -/
def subidentifiers (o : ObjectIdentifier) : List UInt64 :=
  match o.arcs with
  | first :: second :: rest => (40 * first + second) :: rest
  | short => short

def firstSubidentifier (o : ObjectIdentifier) : UInt64 :=
  o.subidentifiers.headD 0

/-- The identifier with the given numbers on the wire. The first one stands for two arcs; every
number above 79 belongs to the third root. -/
def ofSubidentifiers : List UInt64 → Except Defect ObjectIdentifier
  | [] => .error .noSubidentifiers
  | first :: rest =>
    if h0 : first < 40 then
      .ok ⟨0 :: first :: rest, .intro (by decide) (fun _ => h0) (by
        have := first.toNat_lt
        simp
        omega)⟩
    else if h1 : first < 80 then
      .ok ⟨1 :: (first - 40) :: rest, .intro (by decide) (fun _ => by
        have h40 : (40 : UInt64) ≤ first := UInt64.not_lt.mp h0
        rw [UInt64.lt_iff_toNat_lt] at h1 ⊢
        rw [UInt64.toNat_sub_of_le _ _ h40]
        simp at h1 ⊢
        omega) (by
        have h40 : (40 : UInt64) ≤ first := UInt64.not_lt.mp h0
        have := first.toNat_lt
        rw [UInt64.toNat_sub_of_le _ _ h40]
        rw [UInt64.le_iff_toNat_le] at h40
        simp at h40 ⊢
        omega)⟩
    else
      .ok ⟨2 :: (first - 80) :: rest, .intro (by decide) (fun h => absurd h (by decide)) (by
        have h80 : (80 : UInt64) ≤ first := UInt64.not_lt.mp h1
        rw [UInt64.toNat_sub_of_le _ _ h80]
        have := first.toNat_lt
        rw [UInt64.le_iff_toNat_le] at h80
        simp at h80 ⊢
        omega)⟩

theorem ofArcs_eq_ok_iff {arcs : List UInt64} {o : ObjectIdentifier} :
    ofArcs arcs = .ok o ↔ o.arcs = arcs := by
  constructor
  · intro h
    unfold ofArcs at h
    split at h
    · split at h
      · cases h
      · split at h
        · cases h
        · split at h
          · cases h
          · cases h; rfl
    · cases h
  · intro h
    obtain ⟨given, valid⟩ := o
    subst h
    obtain ⟨hf, hs, ht⟩ := valid
    show ofArcs (_ :: _ :: _) = _
    rw [ofArcs, dif_neg (UInt64.not_lt.mpr hf), dif_neg fun h => UInt64.not_le.mpr (hs h.1) h.2,
      dif_neg (Nat.not_le_of_lt ht)]

end ObjectIdentifier

end BasicEncoding
