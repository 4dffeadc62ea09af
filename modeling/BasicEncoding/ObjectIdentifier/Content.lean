import BasicEncoding.ObjectIdentifier

/-! OBJECT IDENTIFIER contents: the subidentifiers as base-128 chains. Reading accepts padded
chains; writing never pads. -/
namespace BasicEncoding.ObjectIdentifier

def encode (o : ObjectIdentifier) : Octets :=
  o.subidentifiers.flatMap fun n => Base128.chain n.toNat

/-- A subidentifier takes another group only below this bound, so it stays below `2 ^ 64`. -/
def groupBound : Nat := 2 ^ 57

/-- The numbers that chains spell. `number` is the part read of the chain that is `unfinished`. -/
def readChains (number : Nat) (unfinished : Bool) : Octets → Except Defect (List UInt64)
  | [] => if unfinished then .error .subidentifierUnfinished else .ok []
  | octet :: rest =>
    if groupBound ≤ number then .error .subidentifierTooLarge
    else
      let number := number * 128 + octet.toNat % 128
      if octet < 128 then
        (readChains 0 false rest).map (UInt64.ofNat number :: ·)
      else
        readChains number true rest

def decode (content : Octets) : Except Defect ObjectIdentifier :=
  if content.isEmpty then .error .oidEmpty
  else readChains 0 false content >>= ofSubidentifiers

end BasicEncoding.ObjectIdentifier
