import ShapeGrammar.Command.Path
import ShapeGrammar.Image.Basic

/-!
# Folders

The files and folders a command finds, by their places, and the ways in which following a path to
one can fail. A path is followed as it is written: whatever a part of it is looked up in has to be
a folder, also where the part after it leads out of that folder again.
-/
namespace ShapeGrammar

/-- What a file holds. -/
inductive FileContent where
  | text (content : String)
  | gray (image : GrayImage)
  | color (image : RgbImage)
  /-- Bytes that are neither. -/
  | unknown

/-- Why a file or a folder cannot be opened or made. -/
inductive FileError where
  | missing
  | isFolder
  /-- A folder was needed where a file is. -/
  | throughFile
  | occupied
  | nameTooLong
  /-- Text was wanted. -/
  | notText
  /-- An image was wanted. -/
  | notImage
  deriving DecidableEq, Repr

def FileError.message : FileError → String
  | .missing => "No such file or directory (os error 2)"
  | .isFolder => "Is a directory (os error 21)"
  | .throughFile => "Not a directory (os error 20)"
  | .occupied => "File exists (os error 17)"
  | .nameTooLong => "File name too long (os error 36)"
  | .notText => "stream did not contain valid UTF-8"
  | .notImage => "the file is not an image"

/-- Files, and the places of folders besides those that the files lie in. -/
structure Folder where
  files : List (List String × FileContent)
  folders : List (List String) := []

namespace Folder

/-- The folder of some files. -/
def ofList (files : List (String × FileContent)) : Folder :=
  { files := files.map fun (path, content) => (Path.place path, content) }

/-- Whether a folder is at a place: the folder itself, those above it, and every folder on the way
to something that is there. -/
def isFolder (f : Folder) (place : List String) : Bool :=
  place.all (· == Path.above) || place == [Path.root]
    || f.folders.any (fun folder => place.isPrefixOf folder)
    || f.files.any fun (file, _) => place.length < file.length && place.isPrefixOf file

/-- Why a place is no folder. -/
def fault (f : Folder) (place : List String) : FileError :=
  if (f.files.lookup place).isSome then .throughFile else .missing

/-- Follows one part of a path from a place, which has to be a folder. -/
def step (f : Folder) (place : List String) (part : String) : Except FileError (List String) :=
  if f.isFolder place then
    if Path.longestName < part.utf8ByteSize then .error .nameTooLong
    else .ok (Path.next place part)
  else .error (f.fault place)

/-- Follows parts of a path one after the other. -/
def follow (f : Folder) (place : List String) (parts : List String) :
    Except FileError (List String) :=
  parts.foldlM f.step place

/-- The place at the end of a path. -/
def resolve (f : Folder) (path : String) : Except FileError (List String) :=
  if path = "" then .error .missing
  else if Path.longestPath < path.utf8ByteSize then .error .nameTooLong
  else f.follow (Path.origin path) (Path.parts path)

/-- The file at a path. -/
def find (f : Folder) (path : String) : Except FileError FileContent := do
  let place ← f.resolve path
  match f.files.lookup place with
  | some content => .ok content
  | none => .error (if f.isFolder place then .isFolder else .missing)

/-- The text at a path. -/
def text (f : Folder) (path : String) : Except FileError String := do
  match ← f.find path with
  | .text content => .ok content
  | _ => .error .notText

/-- The gray image at a path. -/
def image (f : Folder) (path : String) : Except FileError GrayImage := do
  match ← f.find path with
  | .gray image => .ok image
  | _ => .error .notImage

/-- Whether a file can be written at a path. -/
def allows (f : Folder) (path : String) : Except FileError Unit := do
  if f.isFolder (← f.resolve path) then .error .isFolder else .ok ()

/-- Makes the folder at the end of a path, if it is not there. -/
def makeLast (f : Folder) (origin parts : List String) : Except FileError Folder := do
  let place ← f.follow origin parts
  if f.isFolder place then .ok f
  else if (f.files.lookup place).isSome then .error .occupied
  else .ok { f with folders := place :: f.folders }

/-- Makes the folder at the end of a path, whose names are given last first. Where the way to it is
missing, the folders it stands in are made before. -/
def makeAll (f : Folder) (origin : List String) : List String → Except FileError Folder
  | [] => .ok f
  | last :: before =>
    match f.makeLast origin (last :: before).reverse with
    | .error .missing => do
      (← f.makeAll origin before).makeLast origin (last :: before).reverse
    | result => result

/-- The parts of a path without the separators at its end. -/
def trimmed (path : String) : List String :=
  ((Path.parts path).reverse.dropWhile (· == "")).reverse

/-- Makes a folder, with those it stands in, unless it is there. -/
def make (f : Folder) (path : String) : Except FileError Folder :=
  let origin := Path.origin path
  if path = "" then .ok f
  else if Path.longestPath < path.utf8ByteSize then .error .nameTooLong
  else
    match f.makeLast origin (trimmed path) with
    | .error .missing => do
      (← f.makeAll origin (Path.names path).reverse.tail).makeLast origin (trimmed path)
    | result => result

end Folder

end ShapeGrammar
