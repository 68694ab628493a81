import OmegaGames.Automaton.Hoa
import OmegaGames.Formula
import OmegaGames.Text.Utf8

/-!
# Automata from formulas

An outside program turns the text of a formula into an automaton. What it does when it is run is given
by a function, so that everything around it can be stated without running anything.
-/
namespace OmegaGames

structure ProgramOutput where
  status : Nat
  stdout : List UInt8
  stderr : List UInt8

/-- Runs a program with arguments; `none` if it cannot be started. -/
abbrev ProgramRunner := String → List String → Option ProgramOutput

inductive LtlToolError where
  | notStarted (command : String)
  | failed (command : String) (status : Nat) (stderr : String)
  | unreadable (command : String) (cause : HoaError)
  | unknownProposition (command name : String)
deriving DecidableEq, Repr

def LtlToolError.message : LtlToolError → String
  | notStarted command => "failed to run `" ++ command ++ "`"
  | failed command status stderr => "`" ++ command ++ s!"` exited with exit status: {status}: " ++ stderr
  | unreadable command _ => "`" ++ command ++ "` produced an unreadable automaton"
  | unknownProposition command name =>
    "`" ++ command ++ "` produced an automaton over unknown proposition `" ++ name ++ "`"

structure LtlTool where
  program : String := "ltl2tgba"
  /-- By default, ask for a deterministic automaton with a parity condition on its edges. -/
  args : List String := ["--low", "-Ht", "--deterministic", "--parity=min even"]
deriving DecidableEq, Repr

namespace LtlTool

def arguments (t : LtlTool) (r : Formula.Rendered) : List String := "-f" :: r.text :: t.args

def commandLine (t : LtlTool) (r : Formula.Rendered) : String :=
  t.args.foldl (fun line arg => line ++ " " ++ arg) (t.program ++ " -f '" ++ r.text ++ "'")

/-- The proposition that a name of the form `ap7` stands for. -/
def proposition? (r : Formula.Rendered) (name : String) : Option String := do
  let digits ← Text.stripStart? "ap".toList name.toList
  let i ← Text.readNumeral? Text.wordLimit digits
  r.propositions[i]?

/-- Gives the propositions of an automaton their names in the formula. -/
def restoreNames (command : String) (r : Formula.Rendered) (aps : List String) :
    Except LtlToolError (List String) :=
  aps.mapM fun ap =>
    match proposition? r ap with
    | some name => .ok name
    | none => .error (.unknownProposition command ap)

def automaton (t : LtlTool) (run : ProgramRunner) (f : Formula) : Except LtlToolError Description := do
  let r := f.render
  let command := t.commandLine r
  match run t.program (t.arguments r) with
  | none => throw (.notStarted command)
  | some out =>
    if out.status ≠ 0 then
      throw (.failed command out.status (String.ofList (Text.trim (Text.decodeLossy out.stderr))))
    match Hoa.read (String.ofList (Text.decodeLossy out.stdout)) with
    | .error e => throw (.unreadable command e)
    | .ok d => return { d with aps := ← restoreNames command r d.aps }

end LtlTool

end OmegaGames
