import DocGraph.Text.Basic

/-!
# DocGraph.Latex.References

The files that a LaTeX source refers to.

* `Reference`  — a path as it is written, with the kind of file and the directory it is meant in.
* `references` — everything in `\input`, `\includegraphics`, `\bibliography` and `\import`, in this
  order and from the left. Arguments run over lines, up to the first closing brace that lets the
  whole command be read; arguments built from macros are not understood.
-/

namespace DocGraph
namespace Latex

/-- What a reference is to. -/
inductive Kind where
  | source
  | graphics
  | bibliography
deriving DecidableEq

/-- The extension of a file whose name has none. -/
def Kind.extension : Kind → String
  | source => ".tex"
  | graphics => ".pdf"
  | bibliography => ".bib"

/-- A path in a LaTeX source. -/
structure Reference where
  /-- The directory, as seen from the one that holds for the source. -/
  directory : String
  path : String
  kind : Kind
deriving DecidableEq

def skipBlanks (cs : List Char) : List Char := cs.dropWhile Text.isBlank

/-- All ways to cut a text at an occurrence of `c`, without that, from the left. -/
def cutsAt (c : Char) : List Char → List (List Char × List Char)
  | [] => []
  | a :: cs =>
    let later := (cutsAt c cs).map fun e => (a :: e.1, e.2)
    if a = c then ([], cs) :: later else later

/-- What follows an opening brace behind blanks. -/
def opened? (cs : List Char) : Option (List Char) :=
  match skipBlanks cs with
  | '\x7b' :: r => some r
  | _ => none

/-- An argument in braces up to the first closing one, and what follows it. -/
def argument? (cs : List Char) : Option (List Char × List Char) :=
  (opened? cs).bind fun r =>
    let body := r.takeWhile (· != '\x7d')
    if body.length < r.length then some (body, r.drop (body.length + 1)) else none

/-- An option in brackets and the argument behind it. The option ends where an argument follows. -/
def afterOption? (cs : List Char) : Option (List Char × List Char) :=
  match skipBlanks cs with
  | '[' :: r => (cutsAt ']' r).findSome? fun e => argument? e.2
  | _ => none

/-- Two arguments. The first one ends where the second follows. -/
def twoArguments? (cs : List Char) : Option ((List Char × List Char) × List Char) :=
  (opened? cs).bind fun r =>
    (cutsAt '\x7d' r).findSome? fun e => (argument? e.2).map fun a => ((e.1, a.1), a.2)

/-- The occurrences of a command that can be read, from the left. `rest` drops so many characters
of what is left of the text, which bounds the number of steps. -/
def occurrences {α : Type} (command : String) (read? : List Char → Option (α × List Char)) :
    Nat → List Char → List α
  | 0, _ => []
  | _, [] => []
  | n + 1, c :: cs =>
    match (command.toList.isPrefixOf? (c :: cs)).bind read? with
    | some (a, rest) => a :: occurrences command read? n rest
    | none => occurrences command read? n cs

/-- The occurrences of a command in a text. -/
def findAll {α : Type} (command : String) (read? : List Char → Option (α × List Char))
    (cs : List Char) : List α := occurrences command read? cs.length cs

/-- A reference in the directory of the source. -/
def plain (kind : Kind) (path : List Char) : Reference := ⟨".", String.ofList path, kind⟩

/-- All references of a LaTeX source. -/
def references (text : String) : List Reference :=
  let cs := text.toList
  (findAll "\\input" argument? cs).map (plain .source) ++
  (findAll "\\includegraphics" (fun cs => (afterOption? cs).or (argument? cs)) cs).map
    (plain .graphics) ++
  (findAll "\\bibliography" argument? cs).map (plain .bibliography) ++
  (findAll "\\import" twoArguments? cs).map fun a =>
    ⟨String.ofList a.1, String.ofList a.2, .source⟩

end Latex
end DocGraph
