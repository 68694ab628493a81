import OmegaGames.Game.Message
import OmegaGames.Options
import OmegaGames.PgSolver.Conversion
import OmegaGames.PgSolver.Format
import OmegaGames.Text.Lines

/-!
# The command line

Solves a parity game from a file and reports the winner of every node. Arguments are a path, a solver
by name, options of the form `KEY=VALUE` and a flag for more output.
-/
namespace OmegaGames.CommandLine

structure Arguments where
  path : String
  solver : Option String
  options : List String
  verbose : Bool
deriving DecidableEq, Repr

inductive UsageError where
  | usage
  | help
deriving DecidableEq, Repr

/-! ## Arguments -/

structure Seen where
  paths : List String := []
  solver : Option String := none
  options : List String := []
  verbose : Bool := false
  /-- The flag whose value comes next. -/
  awaiting : Option String := none
  /-- Whether the flags have come to an end. -/
  closed : Bool := false

namespace Seen

def addPath (s : Seen) (path : String) : Except UsageError Seen :=
  if s.paths.isEmpty && path ≠ "" then .ok { s with paths := [path] } else .error .usage

def addVerbose (s : Seen) : Except UsageError Seen :=
  if s.verbose then .error .usage else .ok { s with verbose := true }

/-- A flag with a value. The solver is named at most once. -/
def addValue (s : Seen) (flag value : String) : Except UsageError Seen :=
  match flag with
  | "solver" => if s.solver.isNone then .ok { s with solver := some value } else .error .usage
  | "option" => .ok { s with options := s.options ++ [value] }
  | _ => .error .usage

/-- Flags of one letter, several of which may follow one hyphen. -/
def addShort (s : Seen) : List Char → Except UsageError Seen
  | [] => .ok s
  | 'v' :: cs => do (← s.addVerbose).addShort cs
  | 'h' :: _ => .error .help
  | _ :: _ => .error .usage

/-- A flag written out, with its value after an equals sign or still to come. -/
def addLong (s : Seen) (flag : List Char) : Except UsageError Seen :=
  match Text.splitOnce? '=' flag with
  | some (flag, value) => s.addValue (String.ofList flag) (String.ofList value)
  | none =>
    match String.ofList flag with
    | "verbose" => s.addVerbose
    | "help" => .error .help
    | "solver" => .ok { s with awaiting := some "solver" }
    | "option" => .ok { s with awaiting := some "option" }
    | _ => .error .usage

/-- A single hyphen is a value like any other word. -/
def looksLikeFlag (arg : String) : Bool := arg.toList.head? = some '-' && arg ≠ "-"

/-- Takes in the next argument. Two hyphens end the flags. -/
def add (s : Seen) (arg : String) : Except UsageError Seen :=
  match s.awaiting with
  | some flag =>
    if looksLikeFlag arg then .error .usage else { s with awaiting := none }.addValue flag arg
  | none =>
    if s.closed || !looksLikeFlag arg then s.addPath arg
    else if arg = "--" then .ok { s with closed := true }
    else match Text.stripStart? ['-', '-'] arg.toList with
      | some flag => s.addLong flag
      | none => s.addShort (arg.toList.drop 1)

end Seen

/-- Reads the arguments: exactly one path, and no flag without its value. -/
def parse (args : List String) : Except UsageError Arguments := do
  let s ← args.foldlM Seen.add {}
  match s.paths, s.awaiting with
  | [path], none => return ⟨path, s.solver, s.options, s.verbose⟩
  | _, _ => throw .usage

/-! ## Failures -/

inductive Failure where
  | badSolver (cause : OptionError)
  | noKeyValue (option : String)
  | badOption (option : String) (cause : OptionError)
  | unreadable (path cause : String)
  | syntaxError
  | conversion (cause : PgSolver.ConversionError)
  | solving (cause : SolveError Float)
  | unknownStart (id : Nat)

namespace Failure

def message : Failure → String
  | badSolver cause => cause.message
  | noKeyValue option => "Expected KEY=VALUE, got `" ++ option ++ "`"
  | badOption option _ => "Invalid option `" ++ option ++ "`"
  | unreadable path _ => "Failed to read " ++ path
  | syntaxError => "Failed to parse parity game file"
  | conversion cause => cause.message
  | solving cause => cause.message
  | unknownStart id => s!"Unknown start node {id}"

def cause? : Failure → Option String
  | badOption _ cause => some cause.message
  | unreadable _ cause => some cause
  | solving (.invalidGame cause) => some cause.message
  | _ => none

def indented (cause : String) : String :=
  String.intercalate "\n" ((Text.splitAll '\n' cause.toList).map fun l => "    " ++ String.ofList l)

/-- The report of a failure with its cause. -/
def report (f : Failure) : String :=
  match f.cause? with
  | some cause => "Error: " ++ f.message ++ "\n\nCaused by:\n" ++ indented cause
  | none => "Error: " ++ f.message

/-- Whether the failure is a lack of room rather than an error in the input. -/
def isCrash : Failure → Bool
  | conversion .capacity => true
  | solving .capacity => true
  | _ => false

end Failure

/-! ## Solving -/

/-- The options of the arguments; the named solver is set before them. -/
def Arguments.settings (a : Arguments) : Except Failure Options := do
  let o ← match a.solver with
    | some name => (({} : Options).set "solver" name).mapError .badSolver
    | none => .ok {}
  a.options.foldlM (fun o text =>
    match Text.splitOnce? '=' text.toList with
    | some (key, value) =>
      (o.set (String.ofList key) (String.ofList value)).mapError (.badOption text)
    | none => .error (.noKeyValue text)) o

structure Job where
  solver : QualitativeSolver
  start : Option Nat
  converted : PgSolver.Converted Float

/-- Reads the game. The content of the file is given, or why it cannot be read. -/
def prepare (a : Arguments) (o : Options) (content : Except String String) : Except Failure Job := do
  let source ← content.mapError (.unreadable a.path)
  match PgSolver.readGame? source with
  | none => throw .syntaxError
  | some f =>
    let converted ← f.toGame.mapError .conversion
    return ⟨o.qualitative, f.start, converted⟩

def Job.solve (j : Job) : Except Failure Regions :=
  (j.solver.solve j.converted.game ⟨false, .none⟩).mapError .solving

def regionText (c : PgSolver.Converted Float) (region : NodeSet) : String :=
  let ids := region.toList.filterMap fun v => c.ids[v]?
  String.intercalate " " ((ids.mergeSort (· ≤ ·)).map Nat.repr)

/-- The report on the regions, and what keeps it from being complete. -/
def Job.report (j : Job) (r : Regions) : List String × Option Failure :=
  let lines := ["Player 0 wins: " ++ regionText j.converted r.even,
    "Player 1 wins: " ++ regionText j.converted r.odd]
  match j.start with
  | none => (lines, none)
  | some id =>
    match j.converted.nodeOf? id with
    | none => (lines, some (.unknownStart id))
    | some v =>
      let winner := if r.even.contains v then 0 else 1
      (lines ++ [s!"Winner of node {id}: player {winner}"], none)

/-! ## Runs -/

def usage : String :=
  "Usage: omega-games [OPTIONS] <PATH>\n\nOptions:\n      --solver <SOLVER>\n      --option <KEY=VALUE>" ++
    "\n  -v, --verbose\n  -h, --help"

structure Outcome where
  code : Nat
  stdout : List String
  message : Option String
deriving DecidableEq, Repr

def Outcome.ofFailure (stdout : List String) (f : Failure) : Outcome :=
  if f.isCrash then ⟨101, stdout, none⟩ else ⟨1, stdout, some f.report⟩

/-- Runs the program. Wrong usage has exit code two. -/
def run (args : List String) (readFile : String → Except String String) : Outcome :=
  match parse args with
  | .error .usage => ⟨2, [], none⟩
  | .error .help => ⟨0, [], none⟩
  | .ok a =>
    let solved : Except Failure (Job × Regions) := do
      let o ← a.settings
      let j ← prepare a o (readFile a.path)
      return (j, ← j.solve)
    match solved with
    | .error f => .ofFailure [] f
    | .ok (j, r) =>
      match j.report r with
      | (lines, none) => ⟨0, lines, none⟩
      | (lines, some f) => .ofFailure lines f

end OmegaGames.CommandLine
