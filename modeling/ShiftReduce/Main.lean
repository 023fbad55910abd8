import ShiftReduce.Command.Run

/-! # The command line program -/

open ShiftReduce

/-- The number of an error of the system. Some of its calls give the number with the sign turned. -/
def errorNumber (code : UInt32) : Nat := (min code (0 - code)).toNat

/-- Why a file cannot be read. Two numbers tell directories from what is used like one. -/
def diskFault : IO.Error → Disk.Fault
  | .noFileOrDirectory .. => .missing
  | .permissionDenied .. => .denied
  | .inappropriateType _ code reason =>
    match errorNumber code with
    | 20 => .notDirectory
    | 21 => .isDirectory
    | _ => .other reason
  | .invalidArgument _ code reason =>
    if errorNumber code = 36 then .nameTooLong else .other reason
  | e => .other (toString e)

/-- The bytes of a file, or why they cannot be had. -/
def readPath (path : String) : IO (Except Disk.Fault (List UInt8)) := do
  try
    return .ok (← IO.FS.readBinFile path).toList
  catch e =>
    return .error (diskFault e)

/-- The paths that a command line reads. -/
def pathsOf (o : Command.Options) : List String :=
  o.file.toList ++ o.table.toList.map simplifyPath

def main (args : List String) : IO UInt32 := do
  let paths :=
    match Command.Options.ofArguments args with
    | .ok o => pathsOf o
    | .error _ => []
  let found ← paths.mapM fun path => return (path, ← readPath path)
  let disk : Disk := ⟨fun path => (found.lookup path).getD (.error .missing)⟩
  let (ending, t) := Command.run 1000000000000000000 disk args
  IO.print t.out
  IO.eprint t.err
  match ending with
  | .exit code => return code.toUInt32
  | .crashed f =>
    IO.eprintln f.message
    return 1
  | .unfinished => return 1
