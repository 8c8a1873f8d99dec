/-
  WasmPack.Main

  The command on a real system.
-/
import WasmPack.CommandLine.Run

namespace WasmPack

open CommandLine Files

/-- What the system complains about. -/
def toFileError : IO.Error → FileError
  | .noFileOrDirectory .. => .system .noEntry
  | .alreadyExists .. => .system .alreadyExists
  | e => .other (toString e)

/-- Work of the system. -/
abbrev SystemWork := EIO FileError

/-- Let the system work. -/
def onSystem (work : IO α) : SystemWork α := IO.toEIO toFileError work

instance : Host SystemWork where
  readFile path := onSystem do return (← IO.FS.readBinFile path).data
  readInput := onSystem do return (← (← IO.getStdin).readBinToEnd).data
  makeDirs path := onSystem (if path.isEmpty then return () else IO.FS.createDirAll path)
  writeFile path text := onSystem (IO.FS.writeFile path text)
  tell text := onSystem (IO.eprintln text)

/-- What was written, in words. -/
def describe (o : Options) (s : Pack.Summary) : String :=
  "wrote " ++ toString s.functions ++ " functions and " ++ toString s.tags ++ " tags to " ++ o.output

/-- Run the command, and give its exit code. -/
def execute (o : Options) : SystemWork UInt32 := do
  match ← CommandLine.run o with
  | .ok summary =>
    Host.tell (describe o summary)
    return 0
  | .error e =>
    Host.tell ("error: " ++ e.message)
    return 1

end WasmPack

open WasmPack in
/-- Run the command on the arguments of the process. -/
def main (arguments : List String) : IO UInt32 := do
  match CommandLine.Options.parse arguments with
  | .ok o => EIO.toIO (fun e => IO.userError e.message) (execute o)
  | .error .help => IO.println CommandLine.usage; return 0
  | .error .version => IO.println CommandLine.versionText; return 0
  | .error e =>
    IO.eprintln ("error: " ++ e.message)
    return 2
