import ShardedDescent.Number.Shortest

/-!
# ShardedDescent.Number.Layout

Decimals as text: positionally, with at least one digit on both sides of the point, or with one
digit before the point and a signed exponent. Which of the two depends on where the leading digit
stands.
-/

namespace ShardedDescent
namespace Number

/-- Which decimals are written positionally. -/
structure DecimalLayout where
  /-- The least exponent of the leading digit that is written positionally. -/
  leastPositional : Int
  /-- The greatest exponent of the leading digit that is written positionally. -/
  greatestPositional : Int

namespace DecimalLayout

def digitsOf (n : Nat) : List Char := (toString n).toList

/-- The digits of a decimal with the point where its exponent puts it, and at least one digit on
both sides. -/
def positional (ds : List Char) (e : Int) : List Char :=
  if 0 ≤ e then ds ++ List.replicate e.toNat '0' ++ ['.', '0']
  else
    let places := (-e).toNat
    if places < ds.length then ds.take (ds.length - places) ++ '.' :: ds.drop (ds.length - places)
    else '0' :: '.' :: (List.replicate (places - ds.length) '0' ++ ds)

/-- The digits with the point after the first one, if there are more, and a signed exponent. -/
def scientific (ds : List Char) (leading : Int) : List Char :=
  let fraction :=
    match ds.drop 1 with
    | [] => []
    | rest => '.' :: rest
  ds.take 1 ++ fraction ++ 'e' :: (if 0 ≤ leading then '+' else '-') :: digitsOf leading.natAbs

/-- A decimal with a digit other than zero. -/
def write (l : DecimalLayout) (d : Decimal) : List Char :=
  let ds := digitsOf d.digits
  let leading := d.exponent + ds.length - 1
  if l.leastPositional ≤ leading ∧ leading ≤ l.greatestPositional then positional ds d.exponent
  else scientific ds leading

end DecimalLayout

end Number
end ShardedDescent
