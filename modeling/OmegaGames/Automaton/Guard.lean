import OmegaGames.Text.Reader

/-!
# Guards

Boolean combinations of atomic propositions, which are named by their positions. In text, `!` binds
tighter than `&` and `&` tighter than `|`.
-/
namespace OmegaGames

/-- The truth values of propositions by position; those beyond the end are false. -/
abbrev Valuation := List Bool

inductive Guard where
  | always
  | never
  | ap (position : Nat)
  | not (guard : Guard)
  | and (guards : List Guard)
  | or (guards : List Guard)
deriving Repr, Inhabited

namespace Guard

mutual

def eval (v : Valuation) : Guard → Bool
  | always => true
  | never => false
  | ap n => v.getD n false
  | not g => !eval v g
  | and gs => evalAll v gs
  | or gs => evalAny v gs

def evalAll (v : Valuation) : List Guard → Bool
  | [] => true
  | g :: gs => eval v g && evalAll v gs

def evalAny (v : Valuation) : List Guard → Bool
  | [] => false
  | g :: gs => eval v g || evalAny v gs

end

mutual

def aps : Guard → List Nat
  | always => []
  | never => []
  | ap n => [n]
  | not g => aps g
  | and gs => apsOfAll gs
  | or gs => apsOfAll gs

def apsOfAll : List Guard → List Nat
  | [] => []
  | g :: gs => aps g ++ apsOfAll gs

end

/-- A combination of one guard is that guard. -/
def combine (f : List Guard → Guard) : List Guard → Guard
  | [g] => g
  | gs => f gs

open Text

/-- Reads a guard; the depth bounds the nesting of parentheses. -/
def reader : Nat → Reader Guard
  | 0 => fun _ => none
  | depth + 1 =>
    let atom : Reader Guard := Reader.padded <|
      Reader.or (Reader.map (fun _ => always) (Reader.char 't')) <|
      Reader.or (Reader.map (fun _ => never) (Reader.char 'f')) <|
      Reader.or (Reader.map ap (Reader.number wordLimit)) <|
      Reader.between '(' ')' (reader depth)
    let negation : Reader Guard := Reader.map (fun (marks, g) => marks.foldr (fun _ g => not g) g) <|
      Reader.both (Reader.many (Reader.padded (Reader.char '!'))) atom
    let conjunction : Reader Guard := Reader.map (combine and) <|
      Reader.separated (Reader.padded (Reader.char '&')) negation
    Reader.map (combine or) (Reader.separated (Reader.padded (Reader.char '|')) conjunction)

def read? (cs : List Char) : Option Guard := Reader.whole (reader (cs.length + 1)) cs

end Guard

end OmegaGames
