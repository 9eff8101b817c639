import ShapeGrammar.Command.Run
import ShapeGrammar.Png.Decoder

/-!
# The program

Reads the files that the arguments name, runs the command, and prints and writes what it reports.
-/
namespace ShapeGrammar

namespace Program

/-- What the bytes of a file hold. -/
def contentOf (bytes : ByteArray) : FileContent :=
  match Png.toGray? bytes with
  | some image => .gray image
  | none =>
    match String.fromUTF8? bytes with
    | some text => .text text
    | none => .unknown

/-- The bytes of a file that holds some content. -/
def bytesOf : FileContent → ByteArray
  | .text content => content.toUTF8
  | .gray image => Png.ofGray image
  | .color image => Png.ofColor image
  | .unknown => .empty

/-- The file at a path, if it can be read. -/
def readFile (path : String) : IO (Option (String × FileContent)) := do
  try
    return some (path, contentOf (← IO.FS.readBinFile path))
  catch _ => return none

/-- Whether a folder is at a path. -/
def isFolder (path : String) : IO Bool := do
  try
    (← IO.FS.realPath path).isDir
  catch _ => return false

/-- The paths that a path leads through, itself among them. -/
def stations (path : String) : List String :=
  let parts := Path.parts path
  (List.range (parts.length + 1)).map fun count => "/".intercalate (parts.take count)

/-- The places of the folders that paths lead through. -/
def foldersOn (paths : List String) : IO (List (List String)) := do
  return (← (paths.flatMap stations).filterM isFolder).map Path.place

/-- Runs the command of the arguments. -/
def run (words : List String) : IO UInt32 := do
  let files ← words.filterMapM readFile
  let folder := { Folder.ofList files with folders := ← foldersOn words }
  let setting : Command.Setting := ⟨⟨words⟩, folder, .ofNat (← IO.monoNanosNow)⟩
  let (code, report) := Command.run setting
  report.lines.forM fun line => IO.println line
  report.folders.forM fun path => IO.FS.createDirAll path
  report.files.forM fun (path, content) => IO.FS.writeBinFile path (bytesOf content)
  report.warnings.forM fun line => IO.eprintln line
  return code.toUInt32

end Program

end ShapeGrammar

/-- The program. -/
def main (words : List String) : IO UInt32 :=
  ShapeGrammar.Program.run words
