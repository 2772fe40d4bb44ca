/-!
# ShardedDescent.Number.Natural

Powers of numbers and sums of natural numbers are those of the core library, also beside a library
that brings instances of its own.
-/

namespace ShardedDescent
namespace Number

@[default_instance 20000]
instance (priority := high) powNat {α : Type} [NatPow α] : Pow α Nat := instPowNat

instance (priority := high) zeroNat : Zero Nat := Zero.ofOfNat0

end Number
end ShardedDescent
