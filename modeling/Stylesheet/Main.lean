import Stylesheet.Command

/-!
The command line: the name of a command and the path of a file.
-/

namespace Stylesheet

def readContents (path : String) : IO (Except ReadError String) := do
  try
    return decodeFile (← IO.FS.readBinFile path)
  catch
    | .noFileOrDirectory .. => return .error .notFound
    | e => return .error (.other (toString e))

/-- The command and the path that the arguments name. -/
def request? : List String → Option (Command × String)
  | [name, path] => (Command.ofName? name).map fun c => (c, path)
  | _ => none

end Stylesheet

open Stylesheet

def main (args : List String) : IO UInt32 := do
  match request? args with
  | some (command, path) =>
    let outcome := command.run path (← readContents path)
    IO.print outcome.stdout
    IO.eprint outcome.stderr
    return outcome.exit.toUInt32
  | none =>
    IO.eprintln "usage: (tokens | tree | check) PATH"
    return 2
