import DocGraph.Yaml.Value

/-!
# DocGraph.Yaml.Shown

Values as they are named in errors.

* `Value.shown` — the kind of a value with its content.
-/

namespace DocGraph
namespace Yaml

/-- Doubles in errors have no plus sign in their exponents. -/
def shownLayout : Decimal.Layout := ⟨-5, 16, ""⟩

/-- A number as it is named in errors. -/
def shownNumber (n : Number) : String :=
  match n with
  | .int n => toString n
  | .float f =>
    match shownLayout.float? f with
    | some s => s
    | none => if f.isNaN then ".nan" else if f < 0 then "-.inf" else ".inf"

/-- A character inside the quotes of a shown text. -/
def shownChar (c : Char) : List Char :=
  match c with
  | '"' => ['\\', '"']
  | '\\' => ['\\', '\\']
  | '\n' => ['\\', 'n']
  | '\r' => ['\\', 'r']
  | '\t' => ['\\', 't']
  | '\x00' => ['\\', '0']
  | c =>
    if c.toNat < 0x20 || (0x7F ≤ c.toNat && c.toNat < 0xA0) then
      "\\u\x7b".toList ++ Nat.toDigits 16 c.toNat ++ ['\x7d']
    else [c]

/-- A text in quotes. -/
def shownText (s : String) : String := String.ofList ('"' :: s.toList.flatMap shownChar ++ ['"'])

namespace Value

mutual

/-- The kind of a value with its content. -/
def shown : Value → String
  | null => "Null"
  | bool b => s!"Bool({b})"
  | number n => "Number(" ++ shownNumber n ++ ")"
  | text s => "String(" ++ shownText s ++ ")"
  | sequence items => "Sequence [" ++ ", ".intercalate (shownItems items) ++ "]"
  | mapping entries => "Mapping \x7b" ++ ", ".intercalate (shownEntries entries) ++ "\x7d"
  | tagged tag v => "TaggedValue \x7b tag: " ++ tag ++ ", value: " ++ shown v ++ " \x7d"

def shownItems : List Value → List String
  | [] => []
  | v :: vs => shown v :: shownItems vs

def shownEntries : List (Value × Value) → List String
  | [] => []
  | (k, v) :: es =>
    let key := match k with
      | bool b => toString b
      | number n => shownNumber n
      | text s => shownText s
      | k => shown k
    (key ++ ": " ++ shown v) :: shownEntries es

end

end Value
end Yaml
end DocGraph
