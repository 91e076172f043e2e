import DocGraph.Builtin.Shape
import DocGraph.Decimal.Fixed
import DocGraph.Path.Normal

/-!
# DocGraph.Builtin.Document

Commands on finished documents: merging PDF files, adding pages for notes, several pages on a
sheet, filling templates in, and checking hyperlinks.
-/

namespace DocGraph
namespace Builtin

def pdfMerge : Command :=
  plainCommand "pdf_merge"
    [("pdf_merge", .ofCommand "${mutool} merge -o ${out} ${in} && rr-pdf-normalize ${out}")]
    fun _ inputs outputs => do
      if inputs.isEmpty then throw .nothingToMerge
      allWithEnding inputs ".pdf" "input files"
      let merged ← single outputs "output, the merged PDF file"
      discard (stem merged ".pdf" "output")
      return .ofStatement {
        rule := "pdf_merge"
        inputs := inputs
        outputs := [merged]
        vars := Table.ofPairs [("mutool", "mutool")] }

def pdfAddNotes : Command :=
  plainCommand "pdf_add_notes"
    [("pdf_add_notes", .ofCommand "rr-pdf-add-notes ${in} ${out} && rr-pdf-normalize ${out}")]
    fun _ inputs outputs => do
      if inputs.length != 2 then throw (.needsNotesPage inputs)
      allWithEnding inputs ".pdf" "input files"
      let result ← single outputs "output PDF file"
      discard (stem result ".pdf" "output")
      return .ofStatement { rule := "pdf_add_notes", inputs := inputs, outputs := [result] }

/-- Rows and columns of a sheet, and its lengths in millimetres. -/
structure Sheet where
  rows : Nat
  columns : Nat
  margin : Float
  width : Float
  height : Float

/-- A number of rows or columns, which fits into 32 bits. -/
def count? (v : Yaml.Value) : Option Nat :=
  match v.bare with
  | .number (.int n) => if 0 ≤ n && n < 4294967296 then some n.toNat else none
  | _ => none

def length? (v : Yaml.Value) : Option Float :=
  match v.bare with
  | .number n => some n.toFloat
  | _ => none

/-- The sheet of a list `[rows, columns, margin, width, height]`. -/
def Sheet.read? (arg : Yaml.Value) : Option Sheet :=
  match arg.bare with
  | .sequence [rows, columns, margin, width, height] => do
    return ⟨← count? rows, ← count? columns, ← length? margin, ← length? width, ← length? height⟩
  | _ => none

/-- A length as it stands in a build statement. -/
def millimetres (f : Float) : String := Decimal.fixed 3 f

def pdfNupAction (sheet : Sheet) : Action := fun _ inputs outputs => do
  let source ← single inputs "input PDF"
  discard (stem source ".pdf" "input file")
  let result ← single outputs "output PDF file"
  discard (stem result ".pdf" "output")
  if sheet.rows = 0 || sheet.columns = 0 then throw (.emptyGrid sheet.rows sheet.columns)
  return .ofStatement {
    rule := "pdf_nup"
    inputs := [source]
    outputs := [result]
    vars := Table.ofPairs [("nrow", toString sheet.rows), ("ncol", toString sheet.columns),
      ("margin", millimetres sheet.margin), ("width", millimetres sheet.width),
      ("height", millimetres sheet.height)] }

/-- Put several pages on a single sheet. -/
def pdfNup : Command where
  name := "pdf_nup"
  rules := Table.ofPairs [("pdf_nup", .ofCommand
    ("rr-pdf-nup ${in} ${nrow} ${ncol} ${margin} ${width} ${height} ${out} " ++
      "&& rr-pdf-normalize ${out}"))]
  action? arg := (Sheet.read? arg).map pdfNupAction

/-- Fill a template in with constants. The first input is the template, all others are the files
with the constants. -/
def render : Command :=
  plainCommand "render" [("render", .ofCommand "rr-render ${in} ${out}")]
    fun _ inputs outputs => do
      let output ← single outputs "output (file or directory)"
      match inputs with
      | [] => throw (.needsTemplate inputs)
      | [_] => throw (.needsConstants inputs)
      | template :: constants =>
        allWithEnding constants ".json" "constants file"
        let result :=
          if output.isDirLike then output.join ⟨template.fileName?.getD template.text⟩ else output
        return .ofStatement { rule := "render", inputs := inputs, outputs := [result] }

/-- Whether hyperlinks of a file can be checked. -/
def isDocument (p : Path) : Bool := p.extension? == some "md" || p.extension? == some "pdf"

/-- Check the hyperlinks in documents, with one log per input. -/
def checkHrefs : Command :=
  plainCommand "check_hrefs" [("check_hrefs", .ofCommand "rr-check-hrefs ${in} ${out}")]
    fun _ inputs outputs => do
      if let some p := inputs.find? fun p => !isDocument p then throw (.notDocument p)
      noOutputs outputs
      return ⟨inputs.map fun p => .build {
        rule := "check_hrefs"
        inputs := [p]
        outputs := [(Path.mk (p.text ++ "-check_hrefs.log")).hide] }, []⟩

end Builtin
end DocGraph
