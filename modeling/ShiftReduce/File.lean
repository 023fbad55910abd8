import ShiftReduce.Failure
import ShiftReduce.Text.Blank

/-! # The texts of files -/

namespace ShiftReduce

/-- The text that was found under a path, with all its line ends alike. -/
def fileText (attempt : Attempt) (path : String) (found : Except Disk.Fault (List UInt8)) :
    Except Failure String :=
  let fail (reason : InputFault.Reason) : Except Failure String :=
    .error (.input ⟨attempt, path, reason, some path⟩)
  if hasNul path then .error (.value .nulInPath)
  else
    match found with
    | .error f => fail (.disk f)
    | .ok bytes =>
      let d := Text.Utf8.decode bytes
      match d.fault with
      | some f => fail (.bytes f)
      | none => .ok (String.ofList (Text.unifyNewlines d.chars))

namespace Table

def parse (text : String) (name : String := "<table>") (start : Int := 0) : Except Failure Table :=
  match ofText text name start with
  | .ok t => .ok t
  | .error f => .error (.ofTable name f)

/-- The text of a table file. Its path is simplified before it is followed. -/
def fileText (disk : Disk) (path : String) : Except Failure String :=
  ShiftReduce.fileText .readTable path (disk.read (simplifyPath path))

def load (disk : Disk) (path : String) : Except Failure Table :=
  match fileText disk path with
  | .ok text => parse text path
  | .error f => .error f

end Table

end ShiftReduce
