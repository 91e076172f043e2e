import DocGraph.Builtin.Shape

/-!
# DocGraph.Builtin.Transform

Commands that run one shell command for every input.

* `Transform.destination` — where a result goes: into the output directory, to the only output, or
  beside the input with another extension.
* `Transform.all`         — copying, and the conversions between document formats.
-/

namespace DocGraph
namespace Builtin

/-- A command with one statement per input. -/
structure Transform where
  name : String
  command : String
  /-- The extension of results, without its dot. -/
  extension : Option String := none
  /-- The variable that names the tool, and the tool. -/
  tool : Option (String × String) := none

namespace Transform

/-- A path with the extension of results, if there is one. -/
def withNewExtension (t : Transform) (p : Path) : Path :=
  match t.extension with
  | some ext => p.withExtension ext
  | none => p

/-- Where the result of an input goes. -/
def destination (t : Transform) (source : Path) (output : Option Path) : Path :=
  match output with
  | some out =>
    if out.isDirLike then t.withNewExtension (out.join ⟨source.fileName?.getD source.text⟩)
    else out
  | none => t.withNewExtension source

def statement (t : Transform) (output : Option Path) (source : Path) : Statement where
  rule := t.name
  inputs := [source]
  outputs := [t.destination source output]
  vars := Table.ofPairs t.tool.toList

def action (t : Transform) : Action := fun _ inputs outputs => do
  if 1 < outputs.length then throw (.manyDestinations outputs)
  let output := outputs.head?
  if 1 < inputs.length && !(output.any Path.isDirLike) then throw (.needsDirectory inputs)
  if output.isNone && t.extension.isNone then throw .outputRequired
  return ⟨inputs.map fun p => .build (t.statement output p), []⟩

def toCommand (t : Transform) : Command :=
  plainCommand t.name [(t.name, .ofCommand t.command)] t.action

def copy : Transform where
  name := "copy"
  command := "cp ${in} ${out}"

def svgToPdf : Transform where
  name := "convert_svg_pdf"
  command := "${inkscape} ${in} -T --export-filename=${out} --export-type=pdf " ++
    "&& rr-pdf-normalize ${out}"
  extension := some "pdf"
  tool := some ("inkscape", "inkscape")

/-- The office suite writes into a directory, under a name of its own choice. -/
def odfToPdf : Transform where
  name := "convert_odf_pdf"
  command := "WORK=`mktemp -d --suffix=paperweave` " ++
    "&& ${libreoffice} --convert-to pdf ${in} --outdir $$WORK > /dev/null " ++
    "&& cp $$WORK/*.pdf ${out} && rm -r $$WORK"
  extension := some "pdf"
  tool := some ("libreoffice", "libreoffice")

def pdfToPng : Transform where
  name := "convert_pdf_png"
  command := "${mutool} draw -q -r 600 -o ${out} ${in}"
  extension := some "png"
  tool := some ("mutool", "mutool")

def markdownToPdf : Transform where
  name := "markdown_pdf"
  command := "rr-markdown-pdf ${in} ${out}"
  extension := some "pdf"

def pdfRaster : Transform where
  name := "pdf_raster"
  command := "${gs} -sDEVICE=pdfimage24 -dNOPAUSE -dBATCH -dSAFER -r150 -sOutputFile=${out} ${in}"
  tool := some ("gs", "gs")

def all : List Transform := [copy, svgToPdf, odfToPdf, pdfToPng, markdownToPdf, pdfRaster]

end Transform
end Builtin
end DocGraph
