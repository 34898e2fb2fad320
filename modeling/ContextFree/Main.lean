import ContextFree.CommandLine

/-!
# The program
-/

namespace ContextFree.CommandLine

def usage : String := "usage: cnf [-s|--steps] [--summary] [-w|--words N] <grammar>"

def reason : IO.Error → ReadFailure
  | .noFileOrDirectory _ _ _ => .notFound
  | .permissionDenied _ _ _ => .denied
  | .inappropriateType _ code _ => if code = 21 then .isADirectory else .notADirectory
  | .invalidArgument _ _ _ => .nameTooLong
  | _ => .notText

def content (path : Text) : IO (Except ReadFailure Text) := do
  try
    let source ← IO.FS.readFile (String.ofList path)
    return .ok source.toList
  catch e => return .error (reason e)

end ContextFree.CommandLine

def main (args : List String) : IO UInt32 := do
  match ContextFree.Options.read? (args.map String.toList) with
  | none =>
    IO.eprintln ContextFree.CommandLine.usage
    return 1
  | some options =>
    let found ← ContextFree.CommandLine.content options.path
    let response := ContextFree.CommandLine.respond options found
    IO.print (String.ofList response.output)
    IO.eprint (String.ofList response.errors)
    return response.exitCode.toUInt32
