import DocGraph.Decimal.Shortest

/-!
# DocGraph.Number

Numbers of data formats: exact integers and doubles.

* `Number.Same`    — equal numbers. An integer never equals a double, and NaN equals itself.
* `Number.toFloat` — the double nearest to a number.
* `Number.layout`  — doubles in text are plain from `1e-5` up to `1e16`.
-/

namespace DocGraph

/-- An exact integer or a double. -/
inductive Number where
  | int (n : Int)
  | float (f : Float)

namespace Number

/-- Whether two numbers count as equal. -/
def same : Number → Number → Bool
  | int a, int b => a == b
  | float a, float b => a == b || (a.isNaN && b.isNaN)
  | _, _ => false

def toFloat : Number → Float
  | int n => if n < 0 then -(Decimal.ofDecimal n.natAbs 0) else Decimal.ofDecimal n.natAbs 0
  | float f => f

/-- Doubles are plain from `1e-5` up to `1e16` and have an exponent with its sign elsewhere. -/
def layout : Decimal.Layout := ⟨-5, 16, "+"⟩

/-- A number as text; infinities and NaN have none. -/
def text? : Number → Option String
  | int n => some (toString n)
  | float f => layout.float? f

end Number
end DocGraph
