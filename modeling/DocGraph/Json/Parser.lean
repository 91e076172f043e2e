import DocGraph.Json.Basic
import DocGraph.Text.Digit

/-!
# DocGraph.Json.Parser

Reading JSON.

* `Json.parse?` — the value of a text, which holds nothing else but blanks around it.

Integers of at most 64 bits stay exact, all other numbers become doubles, and so does `-0`. A
surrogate must be one of a pair.
-/

namespace DocGraph
namespace Json

/-- Blanks between the tokens of JSON. -/
def isSpace (c : Char) : Bool := c == ' ' || c == '\n' || c == '\t' || c == '\r'

def skipSpace (cs : List Char) : List Char := cs.dropWhile isSpace

/-- The number of four hexadecimal digits. -/
def hex4? (a b c d : Char) : Option Nat := Text.natural? 16 [a, b, c, d]

/-- The character of a one-letter escape. -/
def simpleEscape? : Char → Option Char
  | '"' => some '"'
  | '\\' => some '\\'
  | '/' => some '/'
  | 'b' => some '\x08'
  | 'f' => some '\x0c'
  | 'n' => some '\n'
  | 'r' => some '\r'
  | 't' => some '\t'
  | _ => none

/-- What a code unit adds to a string after a high surrogate or after none. -/
inductive Unit16 where
  | char (c : Char)
  | high (unit : Nat)

def unit16? (pending : Option Nat) (u : Nat) : Option Unit16 :=
  match pending with
  | some h =>
    if 0xDC00 ≤ u && u < 0xE000 then
      some (.char (Char.ofNat (0x10000 + (h - 0xD800) * 0x400 + (u - 0xDC00))))
    else none
  | none =>
    if 0xD800 ≤ u && u < 0xDC00 then some (.high u)
    else if 0xDC00 ≤ u && u < 0xE000 then none
    else some (.char (Char.ofNat u))

/-- The rest of a string behind its first quote, and what follows it. -/
def string? (pending : Option Nat) : List Char → Option (List Char × List Char)
  | [] => none
  | '\\' :: 'u' :: a :: b :: c :: d :: cs => do
    match ← unit16? pending (← hex4? a b c d) with
    | .high u => string? (some u) cs
    | .char ch =>
      let (s, rest) ← string? none cs
      return (ch :: s, rest)
  | c :: cs =>
    if pending.isSome then none
    else if c = '"' then some ([], cs)
    else if c = '\\' then
      match cs with
      | [] => none
      | e :: cs => do
        let ch ← simpleEscape? e
        let (s, rest) ← string? none cs
        return (ch :: s, rest)
    else if c.toNat < 0x20 then none
    else do
      let (s, rest) ← string? none cs
      return (c :: s, rest)

/-- The number of decimal digits. -/
def digitsValue (cs : List Char) : Nat := cs.foldl (fun n c => n * 10 + (c.toNat - 48)) 0

/-- Digits at the start, of which there must be one. -/
def digits? (cs : List Char) : Option (List Char × List Char) :=
  let ds := cs.takeWhile Char.isDigit
  if ds.isEmpty then none else some (ds, cs.drop ds.length)

/-- The part behind a decimal point, if there is a point. -/
def fraction? : List Char → Option (List Char × List Char)
  | '.' :: cs => digits? cs
  | cs => some ([], cs)

/-- The exponent, if there is one. -/
def exponent? (cs : List Char) : Option (Option Int × List Char) :=
  match cs with
  | c :: r =>
    if c = 'e' || c = 'E' then
      let (negative, r) := match r with
        | '-' :: r => (true, r)
        | '+' :: r => (false, r)
        | r => (false, r)
      (digits? r).map fun (ds, rest) =>
        (some (if negative then -(digitsValue ds : Int) else digitsValue ds), rest)
    else some (none, cs)
  | [] => some (none, cs)

/-- Whether 64 bits hold an integer, with a sign or without. -/
def fitsWord (n : Int) : Bool := -9223372036854775808 ≤ n && n < 18446744073709551616

/-- A number at the start. -/
def number? (cs : List Char) : Option (Number × List Char) := do
  let (negative, cs) := match cs with
    | '-' :: r => (true, r)
    | r => (false, r)
  let (whole, cs) ← digits? cs
  if whole.head? = some '0' && whole.length != 1 then none
  let pointed := cs.head? = some '.'
  let (places, cs) ← fraction? cs
  let (power, cs) ← exponent? cs
  let m := digitsValue (whole ++ places)
  let n : Int := if negative then -(m : Int) else m
  if !pointed && power.isNone && !(negative && m = 0) && fitsWord n then
    return (.int n, cs)
  let f := Decimal.ofDecimal m (power.getD 0 - places.length)
  return (.float (if negative then -f else f), cs)

mutual

/-- A value at the start, with so many steps left. -/
def value? : Nat → List Char → Option (Json × List Char)
  | 0, _ => none
  | n + 1, cs =>
    match skipSpace cs with
    | 'n' :: 'u' :: 'l' :: 'l' :: r => some (null, r)
    | 't' :: 'r' :: 'u' :: 'e' :: r => some (bool true, r)
    | 'f' :: 'a' :: 'l' :: 's' :: 'e' :: r => some (bool false, r)
    | '"' :: r => (string? none r).map fun (s, rest) => (text (String.ofList s), rest)
    | '[' :: r =>
      match skipSpace r with
      | ']' :: r => some (array [], r)
      | r => (items? n r).map fun (l, rest) => (array l, rest)
    | '\x7b' :: r =>
      match skipSpace r with
      | '\x7d' :: r => some (object [], r)
      | r => (members? n r).map fun (l, rest) => (object l, rest)
    | r => (number? r).map fun (x, rest) => (number x, rest)

/-- The items of an array up to its bracket. -/
def items? : Nat → List Char → Option (List Json × List Char)
  | 0, _ => none
  | n + 1, cs => do
    let (j, cs) ← value? n cs
    match skipSpace cs with
    | ',' :: r => (items? n r).map fun (l, rest) => (j :: l, rest)
    | ']' :: r => some ([j], r)
    | _ => none

/-- The members of an object up to its brace. -/
def members? : Nat → List Char → Option (List (String × Json) × List Char)
  | 0, _ => none
  | n + 1, cs =>
    match skipSpace cs with
    | '"' :: r => do
      let (key, r) ← string? none r
      match skipSpace r with
      | ':' :: r =>
        let (j, r) ← value? n r
        match skipSpace r with
        | ',' :: r => (members? n r).map fun (l, rest) => ((String.ofList key, j) :: l, rest)
        | '\x7d' :: r => some ([(String.ofList key, j)], r)
        | _ => none
      | _ => none
    | _ => none

end

/-- The value of a text. Every two steps take a character, which bounds their number. -/
def parse? (s : String) : Option Json :=
  let cs := s.toList
  match value? (2 * cs.length + 2) cs with
  | some (j, rest) => if (skipSpace rest).isEmpty then some j else none
  | none => none

end Json
end DocGraph
