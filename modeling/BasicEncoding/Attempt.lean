import BasicEncoding.Parse

/-! Attempts: operations on a state that may fail, where the state afterwards matters in either
case. -/
namespace BasicEncoding

/-- What an operation gives, the state it leaves, and what it notes. -/
structure Attempt (σ α : Type) where
  result : Except Failure α
  after : σ
  notes : List Note := []

namespace Attempt

variable {σ α β : Type}

def check (a : Attempt σ α) (f : α → Except Failure β) : Attempt σ β :=
  { a with result := a.result >>= f }

end Attempt

/-- A reading of octets with nothing behind them: running short means that the input ended. -/
def Reading.atEnd {α : Type} (r : Reading α) : Attempt Octets α :=
  match r.outcome with
  | .done value rest => ⟨.ok value, rest, r.notes⟩
  | .refused failure rest => ⟨.error failure, rest, r.notes⟩
  | .short gap => ⟨.error gap.failure, [], r.notes⟩

end BasicEncoding
