import OmegaGames.Text.Blank

/-!
# Cutting text

Text is handled as a list of characters. Each function cuts it at the first place that fits.
-/
namespace OmegaGames.Text

def splitOnce? (c : Char) : List Char → Option (List Char × List Char)
  | [] => none
  | d :: ds =>
    if d = c then some ([], ds)
    else (splitOnce? c ds).map fun (before, after) => (d :: before, after)

/-- The parts between all occurrences of a character; always at least one. -/
def splitAll (c : Char) : List Char → List (List Char)
  | [] => [[]]
  | d :: ds =>
    if d = c then [] :: splitAll c ds
    else match splitAll c ds with
      | [] => [[d]]
      | part :: parts => (d :: part) :: parts

def stripStart? : List Char → List Char → Option (List Char)
  | [], cs => some cs
  | _ :: _, [] => none
  | p :: ps, c :: cs => if p = c then stripStart? ps cs else none

/-- What precedes a given last character. -/
def stripLast? (c : Char) (cs : List Char) : Option (List Char) :=
  if cs.getLast? = some c then some cs.dropLast else none

def words : List Char → List (List Char)
  | [] => []
  | c :: cs =>
    if isBlank c then words cs
    else match cs, words cs with
      | d :: _, w :: ws => if isBlank d then [c] :: w :: ws else (c :: w) :: ws
      | _, ws => [c] :: ws

/-- The lines without the blanks around them, numbered from one. -/
def numberedLines (cs : List Char) : List (Nat × List Char) :=
  ((splitAll '\n' cs).map trim).zipIdx.map fun (line, i) => (i + 1, line)

end OmegaGames.Text
