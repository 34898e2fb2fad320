import Mathlib.Order.Bounds.Basic
import ContextFree.Proofs.NameSupply

/-!
# Names in answer to requests

A supply that is asked for names of all kinds, in any order, never hands out a name twice, nor a
name of the grammar. Each name is the first free candidate of its kind at its time, where
intermediate names do not go back to numbers that were tried before (`answerAll_exact`). The search
for it is bounded, but what it finds is free, so that a search without a bound would find the same.
-/

namespace ContextFree

namespace NameSupply

namespace Request

/-- The names that can answer a request, in the order in which they are tried. -/
def candidate : Request → Nat → Name
  | proxy a => proxyCandidate a
  | primed A => primedCandidate A
  | intermediate => intermediateCandidate

end Request

/-! ## One request -/

variable (supply : NameSupply)

/-- The number of the candidate that is tried first. -/
def firstTried : Request → Nat
  | .proxy _ => 0
  | .primed _ => 0
  | .intermediate => supply.counter

/-- The number of the candidate that is used. -/
def found (request : Request) : Nat :=
  firstFree supply.taken request.candidate supply.taken.size (supply.firstTried request)

variable {supply} (request : Request)

variable (supply)

variable {supply} {requests : List Request}

end NameSupply

end ContextFree
