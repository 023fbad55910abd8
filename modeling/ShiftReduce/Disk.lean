/-! # Files

A disk answers every path with the bytes of a file, or says why there are none. A folder is a disk
given by its contents, with the rules by which a path finds its way.
-/

namespace ShiftReduce

inductive Disk.Fault where
  | missing
  | isDirectory
  | notDirectory
  | nameTooLong
  | denied
  /-- Anything else, in the words of the system. -/
  | other (reason : String)
deriving DecidableEq, Repr

def Disk.Fault.message : Disk.Fault → String
  | .missing => "No such file or directory"
  | .isDirectory => "Is a directory"
  | .notDirectory => "Not a directory"
  | .nameTooLong => "File name too long"
  | .denied => "Permission denied"
  | .other reason => reason

structure Disk where
  read : String → Except Disk.Fault (List UInt8)

/-- A file as it was found on a disk. -/
structure File where
  path : String
  bytes : Except Disk.Fault (List UInt8)

def Disk.file (d : Disk) (path : String) : File := ⟨path, d.read path⟩

/-- Whether a path holds the character with code zero, as no path of a file does. -/
def hasNul (path : String) : Bool := path.toList.contains (Char.ofNat 0)

/-! ## Paths -/

/-- The most bytes that a name can have. -/
def maxName : Nat := 255

/-- The most bytes that a path can have. -/
def maxPath : Nat := 4095

/-- The parts of a path between its slashes. -/
def splitPath : List Char → List (List Char)
  | [] => [[]]
  | c :: cs =>
    if c = '/' then [] :: splitPath cs
    else
      match splitPath cs with
      | p :: ps => (c :: p) :: ps
      | [] => [[c]]

/-- A path without empty parts and without parts that stay where they are. -/
def simplifyPath (path : String) : String :=
  let parts := (splitPath path.toList).filter fun p => !p.isEmpty && p != ['.']
  let root := if path.toList.head? = some '/' then ['/'] else []
  let simple := root ++ List.intercalate ['/'] parts
  if simple.isEmpty then "." else String.ofList simple

/-! ## Folders -/

inductive Folder.Entry where
  | file (bytes : List UInt8)
  | directory
deriving DecidableEq, Repr

/-- The entries of the working directory by name. Its directories are empty. -/
structure Folder where
  entries : List (String × Folder.Entry)
deriving DecidableEq, Repr

namespace Folder

/-- Where a path has led so far. Outside the folder nothing is known but the way back in. -/
inductive Place where
  | here
  | inside
  | outside (levels : Nat)
  | file (bytes : List UInt8)
deriving DecidableEq, Repr

/-- Follows one part of a path that is short enough. -/
def followName (f : Folder) (place : Place) (part : List Char) : Except Disk.Fault Place :=
  match place with
  | .file _ => .error .notDirectory
  | .here =>
    if part.isEmpty ∨ part = ['.'] then .ok .here
    else if part = ['.', '.'] then .ok (.outside 0)
    else
      match f.entries.lookup (String.ofList part) with
      | some (.file bytes) => .ok (.file bytes)
      | some .directory => .ok .inside
      | none => .error .missing
  | .inside =>
    if part.isEmpty ∨ part = ['.'] then .ok .inside
    else if part = ['.', '.'] then .ok .here
    else .error .missing
  | .outside n =>
    if part.isEmpty ∨ part = ['.'] then .ok (.outside n)
    else if part = ['.', '.'] then .ok (.outside (n + 1))
    else .error .missing

/-- Follows one part of a path. Only in a directory is a name looked at. -/
def follow (f : Folder) (place : Place) (part : List Char) : Except Disk.Fault Place :=
  match place with
  | .file _ => .error .notDirectory
  | place =>
    if maxName < (String.ofList part).utf8ByteSize then .error .nameTooLong
    else f.followName place part

def read (f : Folder) (path : String) : Except Disk.Fault (List UInt8) := do
  if path.isEmpty then throw .missing
  if maxPath < path.utf8ByteSize then throw .nameTooLong
  let start := if path.toList.head? = some '/' then Place.outside 0 else .here
  match ← (splitPath path.toList).foldlM f.follow start with
  | .file bytes => return bytes
  | _ => throw .isDirectory

def disk (f : Folder) : Disk := ⟨f.read⟩

end Folder

end ShiftReduce
