import DocGraph.Ninja.Statement

/-!
# DocGraph.Ninja.Reader

Reading statements of Ninja files.

* `lex`        — the words and marks of a line. A dollar gives a dollar, a blank or a colon to a
  word; a bare blank or mark ends it.
* `head?`      — the first line of a statement, with its rule and paths.
* `binding?`   — an indented line with a variable.
* `statement?` — a statement with its variables.
* `default?`   — the paths of a `default` line.

References to variables are not resolved. A path with one is no word here, and a value stands for
its text.
-/

namespace DocGraph
namespace Ninja
namespace Reader

inductive Token where
  | word (text : List Char)
  | colon
  | bar
  | bars
deriving DecidableEq

/-- The word that ends here, if there is one. -/
def flush (w : List Char) : List Token := if w.isEmpty then [] else [.word w]

/-- The tokens of a line that continues the word `w`. -/
def lex (w : List Char) : List Char → Option (List Token)
  | [] => some (flush w)
  | '$' :: c :: cs => if c = '$' || c = ' ' || c = ':' then lex (w ++ [c]) cs else none
  | ' ' :: cs => (lex [] cs).map (flush w ++ ·)
  | ':' :: cs => (lex [] cs).map (flush w ++ .colon :: ·)
  | '|' :: '|' :: cs => (lex [] cs).map (flush w ++ .bars :: ·)
  | '|' :: cs => (lex [] cs).map (flush w ++ .bar :: ·)
  | c :: cs => if c = '$' || c = '\r' || c = '\n' then none else lex (w ++ [c]) cs

/-- The words at the start, and what follows them. -/
def words : List Token → List Path × List Token
  | .word w :: ts => (⟨String.ofList w⟩ :: (words ts).1, (words ts).2)
  | ts => ([], ts)

/-- The words behind a mark, and what follows them. There are none without the mark. -/
def behind (mark : Token) (ts : List Token) : List Path × List Token :=
  if ts.head? = some mark then words ts.tail else ([], ts)

/-- The characters of names of rules and variables. -/
def isNameChar (c : Char) : Bool := Text.isNameChar c || c == '-' || c == '.'

def isName (s : String) : Bool := !s.isEmpty && s.toList.all isNameChar

/-- The rule and the paths of a statement. -/
def ofTokens? (ts : List Token) : Option Statement :=
  match words ts with
  | (start :: outputs, ts) =>
    let (implicitOutputs, ts) := behind .bar ts
    match ts with
    | .colon :: ts =>
      match words ts with
      | (rule :: inputs, ts) =>
        let (implicit, ts) := behind .bar ts
        let (orderOnly, ts) := behind .bars ts
        if start.text = "build" ∧ outputs ≠ [] ∧ isName rule.text ∧ ts = [] then
          some { rule := rule.text, outputs, implicitOutputs, inputs, implicit, orderOnly }
        else none
      | _ => none
    | _ => none
  | _ => none

/-- The lines of a text, if each ends in a newline. -/
def lines? (text : String) : Option (List (List Char)) :=
  let ps := text.toList.splitOn '\n'
  if ps.getLast? = some [] then some ps.dropLast else none

/-- The first line of a statement. -/
def head? (text : String) : Option Statement := do
  ofTokens? (← lex [] (← (text.toList.splitOn '\n').head?))

/-- The variable of an indented line. -/
def binding? : List Char → Option (String × String)
  | ' ' :: ' ' :: line =>
    let key := String.ofList (line.takeWhile isNameChar)
    match line.dropWhile isNameChar with
    | ' ' :: '=' :: ' ' :: value => if isName key then some (key, String.ofList value) else none
    | _ => none
  | _ => none

/-- A statement with its variables, the last one of a name. -/
def statement? (text : String) : Option Statement := do
  let s ← head? text
  let vars := Table.ofPairs (← (← lines? text).tail.mapM binding?)
  return { s with
    pool := vars.get? "pool"
    depfile := vars.get? "depfile"
    vars := vars.filter fun e => e.1 ≠ "pool" && e.1 ≠ "depfile" }

/-- The paths of a line with targets. -/
def default? (text : String) : Option (List Path) := do
  match ← lines? text with
  | [line] =>
    match words (← lex [] line) with
    | (start :: targets, []) => if start.text = "default" then some targets else none
    | _ => none
  | _ => none

end Reader
end Ninja
end DocGraph
