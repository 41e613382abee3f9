import SS16.CommandLine.Run

/-!
# SS16.Main — the assembler as a program

Reads and writes real files; all decisions and all texts come from `SS16.CommandLine`.
-/

namespace SS16.CommandLine

/-- The file fault that an error of the file system stands for. -/
def fileFaultOf : IO.Error → FileFault
  | .inappropriateType _ code _ => if code = 20 then .notDirectory else .isDirectory
  | .invalidArgument _ _ _ => .nameTooLong
  | _ => .missing

/-- The files of the system that the program runs on. -/
def systemHost : Host IO where
  read path := do
    try
      return .ok (← IO.FS.readBinFile path)
    catch e => return .error (fileFaultOf e)
  write path content := do
    try
      IO.FS.writeBinFile path content
      return .ok ()
    catch e => return .error (fileFaultOf e)
  print s := IO.print s
  complain s := IO.eprint s

end SS16.CommandLine

def main (args : List String) : IO UInt32 :=
  return (← SS16.CommandLine.systemHost.run args).toUInt32
