import BasicEncoding.Failure

/-! Limits on what is read from sources that are not trusted. -/
namespace BasicEncoding

/-- The deepest nesting (the outermost element is at depth 0) and the longest definite content
that are accepted. -/
structure Limits where
  maxDepth : UInt64 := 64
  maxContentLength : UInt64 := 2147483647
  deriving DecidableEq, Repr

namespace Limits

/-- How many levels may still be opened at a depth, that depth included. -/
def levelsFrom (l : Limits) (depth : Nat) : Nat :=
  l.maxDepth.toNat + 1 - depth

def checkDepth (l : Limits) (depth : Nat) : Except Failure Unit :=
  if l.maxDepth.toNat < depth then .error (.depthLimit l.maxDepth) else .ok ()

def checkContentLength (l : Limits) (count : UInt64) : Except Failure Unit :=
  if l.maxContentLength < count then .error (.lengthLimit count l.maxContentLength) else .ok ()

theorem checkDepth_eq_ok_iff {l : Limits} {depth : Nat} :
    l.checkDepth depth = .ok () ↔ depth ≤ l.maxDepth.toNat := by
  unfold checkDepth
  split
  · next h => exact ⟨nofun, fun hle => absurd h (Nat.not_lt.mpr hle)⟩
  · next h => exact ⟨fun _ => Nat.not_lt.mp h, fun _ => rfl⟩

theorem checkContentLength_eq_ok_iff {l : Limits} {count : UInt64} :
    l.checkContentLength count = .ok () ↔ count ≤ l.maxContentLength := by
  unfold checkContentLength
  split
  · next h => exact ⟨nofun, fun hle => absurd h (UInt64.not_lt.mpr hle)⟩
  · next h => exact ⟨fun _ => UInt64.not_lt.mp h, fun _ => rfl⟩

/-- No level is left exactly where the depth check fails. -/
theorem levelsFrom_eq_zero_iff {l : Limits} {depth : Nat} :
    l.levelsFrom depth = 0 ↔ l.maxDepth.toNat < depth := by
  unfold levelsFrom
  omega

theorem levelsFrom_succ (l : Limits) (depth : Nat) :
    l.levelsFrom (depth + 1) = l.levelsFrom depth - 1 := by
  unfold levelsFrom
  omega

end Limits

end BasicEncoding
