import OmegaGames.CommandLine

/-!
# The program

Reads the file, tells the time and prints.
-/
namespace OmegaGames.CommandLine

def errorText : IO.Error → String
  | .noFileOrDirectory .. => "No such file or directory (os error 2)"
  | .permissionDenied .. => "Permission denied (os error 13)"
  | .inappropriateType _ code details => s!"{details} (os error {code})"
  | e => toString e

def readSource (path : String) : IO (Except String String) := do
  try
    match String.fromUTF8? (← IO.FS.readBinFile path) with
    | some text => return .ok text
    | none => return .error "stream did not contain valid UTF-8"
  catch e => return .error (errorText e)

def fail (f : Failure) : IO UInt32 := do
  let r := Outcome.ofFailure [] f
  IO.eprintln (r.message.getD f.report)
  return r.code.toUInt32

def printTime (what : String) (start : Nat) : IO Unit := do
  IO.println s!"{what} took {(← IO.monoMsNow) - start}ms"

/-- Solves the game of a file and prints the winners. -/
def solveFile (a : Arguments) : IO UInt32 := do
  let start ← IO.monoMsNow
  match a.settings with
  | .error f => fail f
  | .ok o =>
    match prepare a o (← readSource a.path) with
    | .error f => fail f
    | .ok j =>
      printTime "Preprocessing" start
      if a.verbose then IO.eprintln s!"Solving {j.converted.ids.size} nodes"
      let start ← IO.monoMsNow
      match j.solve with
      | .error f => fail f
      | .ok r =>
        printTime "Solve" start
        let (lines, failure) := j.report r
        lines.forM fun line => IO.println line
        match failure with
        | some f => fail f
        | none => return 0

end OmegaGames.CommandLine

def main (args : List String) : IO UInt32 := do
  match OmegaGames.CommandLine.parse args with
  | .ok a => OmegaGames.CommandLine.solveFile a
  | .error .help =>
    IO.println OmegaGames.CommandLine.usage
    return 0
  | .error .usage =>
    IO.eprintln OmegaGames.CommandLine.usage
    return 2
