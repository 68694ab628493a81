import OmegaGames.PgSolver.Basic
import OmegaGames.Text.Reader

/-!
# The PGSolver format

A game is a header, an optional start node and a row for each node, every one closed by a semicolon. A
row holds the node's number, priority, owner and successors, an optional name in quotes and a comment.
A solution lists the winners of nodes.
-/
namespace OmegaGames.PgSolver

open Text

def number : Reader Nat := Reader.padded (Reader.number wordLimit)

def player : Reader Player := Reader.padded <|
  Reader.or (Reader.map (fun _ => .even) (Reader.char '0'))
    (Reader.map (fun _ => .odd) (Reader.char '1'))

def semicolon : Reader Char := Reader.padded (Reader.char ';')

def item (w : String) : Reader Nat :=
  Reader.before (Reader.after (Reader.padded (Reader.word w.toList)) number) semicolon

def successors : Reader (List Nat) := Reader.separated (Reader.padded (Reader.char ',')) number

def name : Reader String := Reader.padded <|
  Reader.map String.ofList (Reader.between '"' '"' (Reader.many (Reader.one (· != '"'))))

/-- The rest of a row: a comment without semicolon, and a semicolon. -/
def rowEnd : Reader Unit :=
  Reader.map (fun _ => ()) (Reader.both (Reader.many (Reader.one (· != ';'))) semicolon)

def row : Reader FileNode :=
  Reader.map (fun (id, priority, owner, successors, name) => ⟨id, priority, owner, successors, name⟩) <|
  Reader.both number <| Reader.both number <| Reader.both player <| Reader.both successors <|
  Reader.before (Reader.optional name) rowEnd

def game : Reader FileGame :=
  Reader.map (fun (maxId, start, nodes) => ⟨maxId, start, nodes⟩) <|
  Reader.both (item "parity") <| Reader.both (Reader.optional (item "start")) (Reader.many row)

def readGame? (source : String) : Option FileGame := Reader.whole game source.toList

def solutionRow : Reader (Nat × Player) := Reader.before (Reader.both number player) rowEnd

/-- Reads the winners of nodes; what follows them in a row is skipped. -/
def readSolution? (source : String) : Option (List (Nat × Player)) :=
  Reader.whole (Reader.after (item "paritysol") (Reader.many solutionRow)) source.toList

end OmegaGames.PgSolver
