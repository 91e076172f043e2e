import DocGraph.Text.Digit
import DocGraph.Yaml.Tag
import DocGraph.Yaml.Value

/-!
# DocGraph.Yaml.Scalar.Meaning

What texts stand for.

* `Meaning.int?`   — an integer, with a sign or not, in any of four bases.
* `Meaning.float?` — a finite number with a point or an exponent, or one of the special names.
* `Meaning.plain?` — the value of a text without quotes.
* `Meaning.scalar?` — the value of a text with a tag.

Integers have 64 bits. Those that need up to 128 bits have no value, and larger ones are doubles if
they are decimal.
-/

namespace DocGraph
namespace Yaml
namespace Meaning

def bool? (text : String) : Option Bool :=
  if ["true", "True", "TRUE"].contains text then some true
  else if ["false", "False", "FALSE"].contains text then some false
  else none

/-- The words for null. -/
def isNullWord (text : String) : Bool := ["~", "null", "Null", "NULL"].contains text

/-- Whether digits start with a zero that none of them needs. -/
def hasLeadingZero (digits : List Char) : Bool :=
  1 < digits.length && digits.head? == some '0' && digits.all Char.isDigit

/-- A text without its sign, and whether that is a minus. -/
def unsigned (cs : List Char) : Bool × List Char :=
  match cs with
  | '-' :: rest => (true, rest)
  | '+' :: rest => (false, rest)
  | cs => (false, cs)

/-- The number of digits behind the sign of their base. -/
def magnitude? (cs : List Char) : Option Nat :=
  match cs with
  | '0' :: 'x' :: rest => Text.natural? 16 rest
  | '0' :: 'o' :: rest => Text.natural? 8 rest
  | '0' :: 'b' :: rest => Text.natural? 2 rest
  | cs => if hasLeadingZero cs then none else Text.natural? 10 cs

/-- Whether a sum of a sign and a magnitude fits into so many bits. -/
def fits (bits : Nat) (negative : Bool) (m : Nat) : Bool :=
  if negative then m ≤ 1 <<< (bits - 1) else m < 1 <<< bits

/-- An integer of at most 128 bits; with more than 64 bits it has no value. -/
def int? (text : String) : Option (Option Int) :=
  let (negative, digits) := unsigned text.toList
  match magnitude? digits with
  | none => none
  | some m =>
    if fits 64 negative m then some (some (if negative then -(m : Int) else m))
    else if fits 128 negative m then some none
    else none

/-- The exponent behind digits, if it is written. -/
def exponent? (cs : List Char) : Option Int :=
  match cs with
  | [] => some 0
  | c :: rest =>
    if c = 'e' || c = 'E' then
      let (negative, digits) := unsigned rest
      if digits.all Char.isDigit then
        (Text.natural? 10 digits).map fun n => if negative then -(n : Int) else n
      else none
    else none

/-- A finite number with digits on at least one side of its point. -/
def decimal? (cs : List Char) : Option Float := do
  let (negative, cs) := unsigned cs
  let whole := cs.takeWhile Char.isDigit
  let rest := cs.drop whole.length
  let (places, rest) := match rest with
    | '.' :: r => (r.takeWhile Char.isDigit, r.dropWhile Char.isDigit)
    | r => ([], r)
  let m ← Text.natural? 10 (whole ++ places)
  let e ← exponent? rest
  let f := Decimal.ofDecimal m (e - places.length)
  if f.isFinite then return (if negative then -f else f) else none

/-- A double. There is at most one sign. -/
def float? (text : String) : Option Float :=
  if [".inf", ".Inf", ".INF", "+.inf", "+.Inf", "+.INF"].contains text then some (1.0 / 0.0)
  else if ["-.inf", "-.Inf", "-.INF"].contains text then some (-1.0 / 0.0)
  else if [".nan", ".NaN", ".NAN"].contains text then some (0.0 / 0.0)
  else decimal? text.toList

/-- The value of a text without quotes, unless it is an integer without one. -/
def plain? (text : String) : Option Value :=
  if text.isEmpty || isNullWord text then some .null
  else match bool? text, int? text with
    | some b, _ => some (.bool b)
    | none, some n => n.map fun n => .number (.int n)
    | none, none =>
      if hasLeadingZero (unsigned text.toList).2 then some (.text text)
      else match float? text with
        | some f => some (.number (.float f))
        | none => some (.text text)

/-- The value of a text under the local tags in front of it. -/
def untagged? (isPlain : Bool) (text : String) : Option Value :=
  if isPlain then plain? text else some (.text text)

/-- The value of a text with a tag. The tags of YAML force a type. -/
def scalar? (tag : Option Tag) (isPlain : Bool) (text : String) : Option Value :=
  match tag with
  | none => untagged? isPlain text
  | some (.named name) => (untagged? isPlain text).map (.tagged (Tag.label name))
  | some .bool => (bool? text).map .bool
  | some .int => (int? text).join.map fun n => .number (.int n)
  | some .float => (float? text).map fun f => .number (.float f)
  | some .null => if isNullWord text then some .null else none
  | some .other => some (.text text)

end Meaning
end Yaml
end DocGraph
