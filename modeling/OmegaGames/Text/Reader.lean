import OmegaGames.Text.Blank
import OmegaGames.Text.Numeral

/-!
# Readers

A reader takes a value off the front of a text or refuses it. Alternatives are tried in order and the
first that succeeds is final. Repetition is greedy; an attempt that fails takes nothing.
-/
namespace OmegaGames.Text

abbrev Reader (α : Type) := List Char → Option (α × List Char)

namespace Reader

variable {α β : Type}

def one (p : Char → Bool) : Reader Char
  | [] => none
  | c :: cs => if p c then some (c, cs) else none

def char (c : Char) : Reader Char := one (· = c)

def map (f : α → β) (r : Reader α) : Reader β := fun cs => (r cs).map fun (a, rest) => (f a, rest)

/-- Refuses what `f` refuses. -/
def filterMap (f : α → Option β) (r : Reader α) : Reader β := fun cs => do
  let (a, rest) ← r cs
  let b ← f a
  return (b, rest)

def both (r : Reader α) (s : Reader β) : Reader (α × β) := fun cs => do
  let (a, rest) ← r cs
  let (b, rest) ← s rest
  return ((a, b), rest)

def after (r : Reader α) (s : Reader β) : Reader β := map Prod.snd (both r s)

def before (r : Reader α) (s : Reader β) : Reader α := map Prod.fst (both r s)

def or (r s : Reader α) : Reader α := fun cs =>
  match r cs with
  | some x => some x
  | none => s cs

def optional (r : Reader α) : Reader (Option α) := fun cs =>
  match r cs with
  | some (a, rest) => some (some a, rest)
  | none => some (none, cs)

def between (opening closing : Char) (r : Reader α) : Reader α :=
  before (after (char opening) r) (char closing)

def padded (r : Reader α) : Reader α := fun cs =>
  (r (trimLeft cs)).map fun (a, rest) => (a, trimLeft rest)

def upTo (r : Reader α) : Nat → List Char → List α × List Char
  | 0, cs => ([], cs)
  | n + 1, cs =>
    match r cs with
    | none => ([], cs)
    | some (a, rest) =>
      let (as, rest) := upTo r n rest
      (a :: as, rest)

/-- As many repetitions as there are. A reader that takes a character each time is repeated no more
often than there are characters. -/
def many (r : Reader α) : Reader (List α) := fun cs => some (upTo r cs.length cs)

def manyOne (r : Reader α) : Reader (List α) := map (fun (a, as) => a :: as) (both r (many r))

/-- At least one value, with separators between them. -/
def separated (separator : Reader β) (r : Reader α) : Reader (List α) :=
  map (fun (a, as) => a :: as) (both r (many (after separator r)))

/-- A number in decimal digits without leading zeros. -/
def digits : Reader (List Char)
  | [] => none
  | c :: cs =>
    if c = '0' then some ([c], cs)
    else if isDigit c then some (c :: cs.takeWhile isDigit, cs.dropWhile isDigit)
    else none

def number (limit : Nat) : Reader Nat := filterMap (readDigits? limit) digits

def isWordStart (c : Char) : Bool := ('A' ≤ c && c ≤ 'Z') || ('a' ≤ c && c ≤ 'z') || c = '_'

def isWordPart (c : Char) : Bool := isWordStart c || isDigit c

/-- A whole word of letters, digits and underscores. -/
def word (w : List Char) : Reader Unit
  | [] => none
  | c :: cs =>
    if isWordStart c && (c :: cs.takeWhile isWordPart) = w then some ((), cs.dropWhile isWordPart)
    else none

def whole (r : Reader α) (cs : List Char) : Option α :=
  match r cs with
  | some (a, []) => some a
  | _ => none

end Reader

end OmegaGames.Text
