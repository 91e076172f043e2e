import DocGraph.Decimal.Binary

/-!
# DocGraph.Decimal.Shortest

The shortest decimal that reads back as the same double.

* `reads`    — whether a decimal lies in the interval of numbers that round to the double. Its
  ends belong to it when the mantissa is even.
* `grid?`    — the better of the two neighbours of the double on a grid of decimals.
* `shortest` — the first grid with a hit, from one digit up. Of two hits the nearer counts, and of
  two equally near ones the even.
* `Layout`   — where a written decimal changes to an exponent.
-/

namespace DocGraph
namespace Decimal

/-- A positive decimal `digits · 10 ^ exponent`. -/
structure Digits where
  digits : Nat
  exponent : Int
deriving DecidableEq

/-- Compare `a · 10 ^ e` with `m · 2 ^ q`. -/
def compareScaled (a : Nat) (e : Int) (m : Nat) (q : Int) : Ordering :=
  compare (a * powerOfTen e.toNat * scaleDown q) (scaleUp m q * powerOfTen (-e).toNat)

/-- Whether `a · 10 ^ e` rounds to the double. The ends of its interval are written with two more
binary places, so that they are integers. -/
def reads (b : Binary) (a : Nat) (e : Int) : Bool :=
  let low := compareScaled a e (4 * b.mantissa - (if b.lowEdge then 1 else 2)) (b.exponent - 2)
  let high := compareScaled a e (4 * b.mantissa + 2) (b.exponent - 2)
  if b.mantissa % 2 = 0 then low != .lt && high != .gt else low == .gt && high == .lt

/-- The largest multiple of `10 ^ e` that is not above the double. -/
def below (b : Binary) (e : Int) : Nat :=
  (scaleUp b.mantissa b.exponent * powerOfTen (-e).toNat) /
    (scaleDown b.exponent * powerOfTen e.toNat)

/-- The neighbour of the double among the multiples of `10 ^ e` that reads back, if one does. -/
def grid? (b : Binary) (e : Int) : Option Digits :=
  let low := below b e
  match reads b low e && low != 0, reads b (low + 1) e with
  | false, false => none
  | true, false => some ⟨low, e⟩
  | false, true => some ⟨low + 1, e⟩
  | true, true =>
    -- The middle between the neighbours, with one more binary place.
    match compareScaled (2 * low + 1) e (2 * b.mantissa) b.exponent with
    | .lt => some ⟨low + 1, e⟩
    | .gt => some ⟨low, e⟩
    | .eq => some ⟨low + low % 2, e⟩

/-- The exponent of the first digit of the double, at most one too large. -/
def leadingExponent (b : Binary) : Int :=
  let bits := (Nat.log2 b.mantissa : Int) + b.exponent
  bits * 30103 / 100000 + 1

/-- The first grid with a hit, from coarse to fine. Seventeen digits always suffice. -/
def search (b : Binary) : Nat → Int → Option Digits
  | 0, _ => none
  | n + 1, e => (grid? b e).or (search b n (e - 1))

/-- Digits without zeros at the end. -/
def Digits.trim : Nat → Digits → Digits
  | 0, d => d
  | n + 1, d => if d.digits % 10 = 0 then trim n ⟨d.digits / 10, d.exponent + 1⟩ else d

/-- The shortest decimal that rounds to a positive double. -/
def shortest (b : Binary) : Digits :=
  ((search b 20 (leadingExponent b)).getD ⟨0, 0⟩).trim 20

/-- How a decimal is laid out. -/
structure Layout where
  /-- The least exponent of the first digit that is written without an exponent. -/
  leastPlain : Int
  /-- The first exponent that is written with an exponent again. -/
  firstLarge : Int
  /-- The sign of an exponent that is not negative. -/
  positiveExponent : String

def zeros (n : Nat) : String := String.ofList (List.replicate n '0')

/-- A decimal as text. Without an exponent it keeps a digit behind its point. -/
def Layout.write (l : Layout) (d : Digits) : String :=
  let text := toString d.digits
  let point : Int := text.length + d.exponent
  if l.leastPlain < point && point ≤ l.firstLarge then
    if point ≤ 0 then "0." ++ zeros (-point).toNat ++ text
    else if point < text.length then
      String.ofList (text.toList.take point.toNat) ++ "." ++
        String.ofList (text.toList.drop point.toNat)
    else text ++ zeros (point - text.length).toNat ++ ".0"
  else
    let sign := if point - 1 < 0 then "" else l.positiveExponent
    let mark := sign ++ toString (point - 1)
    match text.toList with
    | [] => ""
    | [c] => c.toString ++ "e" ++ mark
    | c :: cs => c.toString ++ "." ++ String.ofList cs ++ "e" ++ mark

/-- A double as text; infinities and NaN have none. -/
def Layout.float? (l : Layout) (f : Float) : Option String :=
  (Binary.ofFloat f).map fun b =>
    (if b.negative then "-" else "") ++ (if b.mantissa = 0 then "0.0" else l.write (shortest b))

end Decimal
end DocGraph
