/-!
# DocGraph.Text.Digit

Numbers as digits.

* `hexValue?` — the value of a hexadecimal digit.
* `natural?`  — the number of digits in a base of at most sixteen.
-/

namespace DocGraph
namespace Text

def hexValue? (c : Char) : Option Nat :=
  if '0' ≤ c && c ≤ '9' then some (c.toNat - 48)
  else if 'a' ≤ c && c ≤ 'f' then some (c.toNat - 87)
  else if 'A' ≤ c && c ≤ 'F' then some (c.toNat - 55)
  else none

/-- The number of digits, of which there must be one. -/
def natural? (base : Nat) (digits : List Char) : Option Nat := do
  if digits.isEmpty then none
  let values ← digits.mapM hexValue?
  if values.all (· < base) then return values.foldl (fun n v => n * base + v) 0 else none

end Text
end DocGraph
