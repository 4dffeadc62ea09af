import BasicEncoding.Proofs.Parse.Outcome
import BasicEncoding.Source

/-! What a read takes from a source and what it leaves there. An outcome of a parse of the octets
ahead is resolved against the source: an end is put where the octets end, and a gap meets the next
break. -/
namespace BasicEncoding

namespace Source

theorem ahead_drop {n : Nat} {s : Source} (h : n ≤ s.ahead.length) :
    (s.drop n).ahead = s.ahead.drop n := by
  fun_induction drop n s with
  | case1 s => rfl
  | case2 n => rfl
  | case3 n octets s hlt =>
      rw [ahead, ahead, List.drop_append_of_le_length (Nat.le_of_lt hlt)]
  | case4 n octets s hle ih =>
      have hnil : octets.drop (n + 1) = [] := List.drop_eq_nil_of_le (by omega)
      have hahead : ahead (.data octets :: s) = octets ++ ahead s := rfl
      rw [hahead, List.length_append] at h
      rw [ih (by omega), hahead, List.drop_append, hnil, List.nil_append]
  | case5 n e s hdata ih =>
      cases e with
      | data octets => exact absurd rfl (hdata octets)
      | fault f =>
          by_cases hkind : f.kind = .interrupted
          · have hahead : ahead (.fault f :: s) = ahead s := if_pos hkind
            rw [hahead] at h ⊢
            exact ih h
          · have hahead : ahead (.fault f :: s) = [] := if_neg hkind
            rw [hahead] at h
            exact absurd h (Nat.not_succ_le_zero n)
      | close => exact absurd h (Nat.not_succ_le_zero n)
      | stall => exact ih h
      | delay span => exact ih h
      | due time => exact ih h

theorem drop_data {octets : Octets} {n : Nat} (h : octets.length ≤ n) (hn : n ≠ 0) (s : Source) :
    drop n (.data octets :: s) = s.drop (n - octets.length) := by
  obtain ⟨m, rfl⟩ := Nat.exists_eq_succ_of_ne_zero hn
  rw [drop, if_neg (Nat.not_lt.mpr h)]

/-- The source without what only makes a read wait. -/
def awake (s : Source) : Source :=
  s.filter fun
    | .stall | .delay _ | .due _ => false
    | .data _ | .fault _ | .close => true

/-- A fault that ends a read and is told from an end of input. -/
def EndsRead (f : Fault) : Prop :=
  f.kind ≠ .interrupted ∧ f.kind ≠ .unexpectedEnd

def Plain (s : Source) : Prop :=
  ∀ f, .fault f ∈ s → EndsRead f

theorem Plain.tail {event : Event} {s : Source} (h : Plain (event :: s)) : Plain s :=
  fun f hf => h f (List.mem_cons_of_mem event hf)

theorem Plain.cons {event : Event} {s : Source} (h : Plain s) (hevent : ∀ f, event ≠ .fault f) :
    Plain (event :: s) := by
  intro f hf
  rcases List.mem_cons.mp hf with heq | hf
  · exact absurd heq.symm (hevent f)
  · exact h f hf

theorem octetCount_awake (s : Source) : s.awake.octetCount = s.octetCount := by
  induction s with
  | nil => rfl
  | cons event s ih =>
      cases event with
      | data octets => exact congrArg (octets.length + ·) ih
      | _ => exact ih

theorem ahead_awake (s : Source) : s.awake.ahead = s.ahead := by
  induction s with
  | nil => rfl
  | cons event s ih =>
      cases event with
      | data octets => exact congrArg (octets ++ ·) ih
      | fault f =>
          change (if f.kind = .interrupted then ahead (awake s) else []) = ahead (.fault f :: s)
          rw [ih]
          rfl
      | close => rfl
      | stall => exact ih
      | delay span => exact ih
      | due time => exact ih

end Source

/-- The result of a read and the source it leaves. -/
def Outcome.resolve (o : Outcome Element) (s : Source) : Except Failure Element × Source :=
  match o with
  | .done e rest => (.ok e, s.drop (s.ahead.length - rest.length))
  | .refused failure rest => (.error failure, s.drop (s.ahead.length - rest.length))
  | .short gap =>
    match s.nextBreak with
    | (none, after) => (.error gap.failure, after)
    | (some fault, after) => (.error (gap.failureOn fault), after)

namespace Source

theorem read_eq_resolve (limits : Limits) (s : Source) :
    ((s.read limits).result, (s.read limits).after) =
      ((Parse.elementAt limits 0).run s.ahead).outcome.resolve s := by
  unfold read Outcome.resolve
  dsimp only
  cases ((Parse.elementAt limits 0).run s.ahead).outcome with
  | done e rest => rfl
  | refused failure rest => rfl
  | short gap =>
      rcases s.nextBreak with ⟨_ | fault, after⟩
      · rfl
      · rfl

theorem resolve_ended (result : Except Failure Element) (rest : Octets) (s : Source) :
    (Outcome.ended result rest).resolve s = (result, s.drop (s.ahead.length - rest.length)) := by
  cases result <;> rfl

/-- An outcome that is reached behind the octets of the first event is met behind that event. -/
theorem resolve_data {o : Outcome Element} {s : Source}
    (h : ∀ result rest, o = .ended result rest → rest.length < s.ahead.length) (octets : Octets) :
    o.resolve (.data octets :: s) = o.resolve s := by
  have hended : ∀ result rest, rest.length < s.ahead.length →
      (Outcome.ended result rest).resolve (.data octets :: s) =
        (Outcome.ended result rest).resolve s := by
    intro result rest hlt
    have hahead : ahead (.data octets :: s) = octets ++ ahead s := rfl
    rw [resolve_ended, resolve_ended, hahead, List.length_append,
      drop_data (by omega) (by omega)]
    congr 2
    omega
  cases o with
  | done e rest => exact hended (.ok e) rest (h (.ok e) rest rfl)
  | refused failure rest => exact hended (.error failure) rest (h (.error failure) rest rfl)
  | short gap => rfl

theorem resolve_within (result : Except Failure Element) {octets left : Octets} {octet : UInt8}
    {taken : Octets} (h : octets = octet :: taken ++ left) (s : Source) :
    (Outcome.ended result (left ++ ahead s)).resolve (.data octets :: s) =
      (result, if left.isEmpty then s else .data left :: s) := by
  have hahead : ahead (.data octets :: s) = octets ++ ahead s := rfl
  have hcount : (octets ++ ahead s).length - (left ++ ahead s).length = taken.length + 1 := by
    rw [h]
    simp only [List.length_append, List.length_cons]
    omega
  rw [resolve_ended, hahead, hcount, drop]
  cases left with
  | nil =>
      have hall : octets.length = taken.length + 1 := by
        rw [h, List.append_nil, List.length_cons]
      rw [if_neg (by omega), hall, Nat.sub_self, drop]
      rfl
  | cons first left =>
      have hpart : taken.length + 1 < octets.length := by
        rw [h]
        simp only [List.length_append, List.length_cons]
        omega
      have hleft : octets.drop (taken.length + 1) = first :: left := by
        rw [h]
        exact List.drop_left
      rw [if_pos hpart, hleft]
      rfl

variable {limits : Limits} {s : Source} {result : Except Failure Element} {rest : Octets}

theorem read_of_ended
    (h : ((Parse.elementAt limits 0).run s.ahead).outcome = .ended result rest) :
    (s.read limits).result = result ∧
      (s.read limits).after = s.drop (s.ahead.length - rest.length) := by
  have hread := read_eq_resolve limits s
  rw [h, resolve_ended, Prod.mk.injEq] at hread
  exact hread

theorem read_of_done {e : Element}
    (h : ((Parse.elementAt limits 0).run s.ahead).outcome = .done e rest) :
    (s.read limits).result = .ok e ∧
      (s.read limits).after = s.drop (s.ahead.length - rest.length) :=
  read_of_ended h

theorem read_takes {taken : Octets}
    (h : ((Parse.elementAt limits 0).run s.ahead).outcome = .ended result rest)
    (htaken : s.ahead = taken ++ rest) :
    (s.read limits).result = result ∧ (s.read limits).after = s.drop taken.length ∧
      (s.read limits).after.ahead = rest := by
  obtain ⟨hresult, hafter⟩ := read_of_ended h
  have hlength : s.ahead.length = taken.length + rest.length := by
    rw [htaken, List.length_append]
  rw [hlength, Nat.add_sub_cancel] at hafter
  have hle : taken.length ≤ s.ahead.length := by
    rw [hlength]
    exact Nat.le_add_right _ _
  refine ⟨hresult, hafter, ?_⟩
  rw [hafter, ahead_drop hle, htaken, List.drop_left]

end Source

end BasicEncoding
