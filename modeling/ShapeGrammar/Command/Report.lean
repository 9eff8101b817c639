import ShapeGrammar.Command.Folder
import ShapeGrammar.Table

/-!
# Reports

What a command has said, made and written so far. A command that fails leaves the report of what it
did before.
-/
namespace ShapeGrammar

/-- Lines said, lines of warning, folders made and files written, each in order. -/
structure Report where
  lines : List String := []
  warnings : List String := []
  folders : List String := []
  files : List (String × FileContent) := []

/-- The files that came to be in a folder, by their places. -/
def Report.created (r : Report) (folder : Folder) : Table FileContent :=
  r.files.foldl (fun created (path, content) =>
    let place := Path.place path
    if Path.isInside place ∧ (folder.files.lookup place).isNone then
      created.insert ("/".intercalate place) content
    else created) .empty

/-- Why a command does not come to its end. -/
inductive Failure where
  /-- It was not called as it has to be. -/
  | usage
  | failed (message : String)
  deriving DecidableEq, Repr

/-- A command in the making: it adds to a report and may fail. -/
abbrev Command := ExceptT Failure (StateM Report)

namespace Command

def say (line : String) : Command Unit :=
  modify fun r => { r with lines := r.lines ++ [line] }

def warn (line : String) : Command Unit :=
  modify fun r => { r with warnings := r.warnings ++ [line] }

def fail {β : Type} (message : String) : Command β :=
  throw (.failed message)

/-- Goes on with a result, or fails with the message of an error. -/
def require {ε β : Type} (message : ε → String) : Except ε β → Command β
  | .ok x => pure x
  | .error e => fail (message e)

def ioMessage (e : FileError) : String :=
  "I/O error: " ++ e.message

def imageMessage (e : FileError) : String :=
  "Image error: " ++ e.message

/-- The message of an error in writing some content. -/
def writeMessage : FileContent → FileError → String
  | .text _ | .unknown => ioMessage
  | .gray _ | .color _ => imageMessage

/-- Takes note of a file written. -/
def note (path : String) (content : FileContent) : Command Unit :=
  modify fun r => { r with files := r.files ++ [(path, content)] }

/-- Writes a file in a folder. -/
def write (folder : Folder) (path : String) (content : FileContent) : Command Unit := do
  require (writeMessage content) (folder.allows path)
  note path content

/-- Writes a file in a folder, or warns that it cannot be written. -/
def tryWrite (folder : Folder) (path : String) (content : FileContent) : Command Unit :=
  match folder.allows path with
  | .ok () => note path content
  | .error e =>
    warn ("  Warning: could not write " ++ path ++ ": " ++ writeMessage content e)

end Command

end ShapeGrammar
