import DocGraph.Decimal.Binary

/-!
# DocGraph.Decimal.Fixed

Doubles written with a fixed number of places.

* `fixed` — the exact value rounded to so many places, a half going to the even neighbour. Zeros
  keep their sign, and so does a negative number that rounds to zero.
-/

namespace DocGraph
namespace Decimal

/-- A natural number with at least `width` digits. -/
def padded (width n : Nat) : String :=
  let text := toString n
  String.ofList (List.replicate (width - text.length) '0') ++ text

/-- A double with `places` digits behind the point. -/
def fixed (places : Nat) (f : Float) : String :=
  match Binary.ofFloat f with
  | none => if f.isNaN then "NaN" else if f < 0 then "-inf" else "inf"
  | some b =>
    let scaled :=
      roundDiv (scaleUp b.mantissa b.exponent * powerOfTen places) (scaleDown b.exponent)
    (if b.negative then "-" else "") ++ toString (scaled / powerOfTen places) ++ "." ++
      padded places (scaled % powerOfTen places)

end Decimal
end DocGraph
