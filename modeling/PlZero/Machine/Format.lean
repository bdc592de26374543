import PlZero.Files.Path
import PlZero.Machine.Artifact

/-! The formats of artifact files by name, and where the artifact of a source goes. -/

namespace PlZero.Machine.Artifact

open PlZero.Text PlZero.Files

/-- The name of the text form. -/
def textFormat : String := "text"

/-- The name of the binary form. -/
def binaryFormat : String := "cbor"

/-- Whether a name is that of a format. -/
def isFormat (format : String) : Bool :=
  format == textFormat || format == binaryFormat

/-- The extension of artifacts in a format. -/
def extensionOf (format : String) : String :=
  if format = textFormat then ".s"
  else if format = binaryFormat then ".bin"
  else ""

/-- A program in the binary form if the format names it, else in the text form. -/
def encode (format : String) (code : Code) : Bytes :=
  if format = binaryFormat then binary code else Text.encode (Assembly.render code)

/-- The path of the artifact of a source: next to it, or in a directory of its own. -/
def pathOf (source outputDir format : String) : String :=
  let beside := Path.withExtension source (extensionOf format)
  if outputDir = "" then beside else Path.join [outputDir, Path.base beside]

end PlZero.Machine.Artifact
