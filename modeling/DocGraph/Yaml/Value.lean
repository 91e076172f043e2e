import DocGraph.Json.Basic

/-!
# DocGraph.Yaml.Value

YAML values.

* `Yaml.Value`   — a value. Mappings keep the order of their entries, and any value can be a key.
* `Value.same`   — equal values, which cannot both be keys of one mapping.
* `Value.bare`   — the value below its tags.
* `Value.toJson?` — the value as JSON, if all its keys are scalars other than null.
-/

namespace DocGraph
namespace Yaml

inductive Value where
  | null
  | bool (b : Bool)
  | number (n : Number)
  | text (s : String)
  | sequence (items : List Value)
  | mapping (entries : List (Value × Value))
  /-- A value with a local tag, which is held with its exclamation mark. -/
  | tagged (tag : String) (value : Value)

instance : Inhabited Value := ⟨.null⟩

namespace Value

/-- The value below its tags. -/
def bare : Value → Value
  | tagged _ v => bare v
  | v => v

/-- The name of the kind of a value. -/
def isNull : Value → Bool
  | null => true
  | _ => false

mutual

/-- Whether two values are equal. The order of entries does not count. -/
def same : Value → Value → Bool
  | null, null => true
  | bool a, bool b => a == b
  | number a, number b => a.same b
  | text a, text b => a == b
  | sequence a, sequence b => sameItems a b
  | mapping a, mapping b => a.length == b.length && coveredBy a b
  | tagged s a, tagged t b => s == t && same a b
  | _, _ => false

def sameItems : List Value → List Value → Bool
  | [], [] => true
  | a :: as, b :: bs => same a b && sameItems as bs
  | _, _ => false

/-- Whether every entry occurs among others. -/
def coveredBy : List (Value × Value) → List (Value × Value) → Bool
  | [], _ => true
  | (k, v) :: es, others => others.any (fun e => same k e.1 && same v e.2) && coveredBy es others

end

/-- The value of a key in entries. -/
def find? (k : Value) (entries : List (Value × Value)) : Option Value :=
  (entries.find? fun e => same k e.1).map Prod.snd

/-- The text of a scalar as the name of a member. -/
def memberName? : Value → Option String
  | bool b => some (toString b)
  | number n => n.text?
  | text s => some s
  | _ => none

mutual

/-- The value as JSON. A tag becomes an object with one member. -/
def toJson? : Value → Option Json
  | null => some .null
  | bool b => some (.bool b)
  | number n => some (.number n)
  | text s => some (.text s)
  | sequence items => (itemsToJson? items).map .array
  | mapping entries => (entriesToJson? entries).map .object
  | tagged tag v => (toJson? v).map fun j => .object [(tag, j)]

def itemsToJson? : List Value → Option (List Json)
  | [] => some []
  | v :: vs => do return (← toJson? v) :: (← itemsToJson? vs)

def entriesToJson? : List (Value × Value) → Option (List (String × Json))
  | [] => some []
  | (k, v) :: es => do return (← memberName? k, ← toJson? v) :: (← entriesToJson? es)

end

end Value
end Yaml
end DocGraph
