import Treewalk.Text.Pieces

/-!
# Folders

The files that a command can name, each with its path and its bytes.  A folder
is there if some file stands in it.
-/

namespace Treewalk

inductive FileFault where
  | missing
  | inFile
  | isFolder
  | other (text : String)
  deriving DecidableEq, Repr

namespace FileFault

def message : FileFault → String
  | .missing => "No such file or directory (os error 2)"
  | .inFile => "Not a directory (os error 20)"
  | .isFolder => "Is a directory (os error 21)"
  | .other text => text

def opened (fault : FileFault) : Bool := fault = .isFolder

end FileFault

abbrev Path := List (List Char)

/-- The steps of a path; a step to the same folder is none. -/
def Path.ofText (text : String) : Path :=
  (Text.pieces ['/'] text.toList).filter fun step => step ≠ [] ∧ step ≠ ['.']

structure Folder where
  files : List (String × List UInt8)

namespace Folder

def file? (f : Folder) (path : Path) : Option (List UInt8) :=
  f.files.findSome? fun file => if Path.ofText file.1 = path then some file.2 else none

def hasFolder (f : Folder) (path : Path) : Bool :=
  path.all (· = ['.', '.']) || f.files.any fun file => path.isPrefixOf (Path.ofText file.1)

def entersFile (f : Folder) (path : Path) : Bool :=
  (List.range path.length).any fun n => (f.file? (path.take n)).isSome

def read (f : Folder) (name : String) : Except FileFault (List UInt8) :=
  let path := Path.ofText name
  match f.file? path with
  | some bytes => if name.endsWith "/" then .error .inFile else .ok bytes
  | none =>
      if f.hasFolder path then .error .isFolder
      else if f.entersFile path then .error .inFile
      else .error .missing

end Folder

end Treewalk
