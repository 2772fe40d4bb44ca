import ShardedDescent.Number.Natural

/-!
# ShardedDescent.Number.Product

Sizes are numbers of 64 bits. A product of extents is taken from the first one to the last; if it
takes more, be it only on the way to an extent of zero, there is no such size.
-/

namespace ShardedDescent
namespace Number

/-- A product of 64 bits, with none on the way to it that takes more. -/
def productFrom (start : Nat) : List Nat → Option Nat
  | [] => some start
  | n :: ns => if start * n < 2 ^ 64 then productFrom (start * n) ns else none

def product (ns : List Nat) : Option Nat := productFrom 1 ns

end Number
end ShardedDescent
