import OmegaGames.Text.Reader

/-!
# Acceptance conditions

A condition on the acceptance sets that a run visits infinitely often. `Inf(n)` asks for set `n` to be
among them, `Fin(n)` for it not to be.
-/
namespace OmegaGames

inductive Acceptance where
  | always
  | never
  | inf (set : Nat)
  | fin (set : Nat)
  | and (conditions : List Acceptance)
  | or (conditions : List Acceptance)
deriving Repr, Inhabited

namespace Acceptance

mutual

/-- Whether a run is accepted that visits exactly the sets in `visited` infinitely often. -/
def accepts (visited : Nat → Bool) : Acceptance → Bool
  | always => true
  | never => false
  | inf n => visited n
  | fin n => !visited n
  | and cs => acceptsAll visited cs
  | or cs => acceptsAny visited cs

def acceptsAll (visited : Nat → Bool) : List Acceptance → Bool
  | [] => true
  | c :: cs => accepts visited c && acceptsAll visited cs

def acceptsAny (visited : Nat → Bool) : List Acceptance → Bool
  | [] => false
  | c :: cs => accepts visited c || acceptsAny visited cs

end

mutual

def sets : Acceptance → List Nat
  | always => []
  | never => []
  | inf n => [n]
  | fin n => [n]
  | and cs => setsOfAll cs
  | or cs => setsOfAll cs

def setsOfAll : List Acceptance → List Nat
  | [] => []
  | c :: cs => sets c ++ setsOfAll cs

end

mutual

def text : Acceptance → List Char
  | always => ['t']
  | never => ['f']
  | inf n => "Inf(".toList ++ Nat.toDigits 10 n ++ [')']
  | fin n => "Fin(".toList ++ Nat.toDigits 10 n ++ [')']
  | and cs => ['('] ++ textOfAll '&' cs ++ [')']
  | or cs => ['('] ++ textOfAll '|' cs ++ [')']

def textOfAll (sign : Char) : List Acceptance → List Char
  | [] => []
  | [c] => text c
  | c :: cs => text c ++ [' ', sign, ' '] ++ textOfAll sign cs

end

/-- A combination of one condition is that condition. -/
def combine (f : List Acceptance → Acceptance) : List Acceptance → Acceptance
  | [c] => c
  | cs => f cs

open Text

def setReader : Reader Nat := Reader.between '(' ')' (Reader.padded (Reader.number halfWordLimit))

/-- Reads a condition; the depth bounds the nesting of parentheses. -/
def reader : Nat → Reader Acceptance
  | 0 => fun _ => none
  | depth + 1 =>
    let atom : Reader Acceptance := Reader.padded <|
      Reader.or (Reader.map inf (Reader.after (Reader.word "Inf".toList) setReader)) <|
      Reader.or (Reader.map fin (Reader.after (Reader.word "Fin".toList) setReader)) <|
      Reader.or (Reader.map (fun _ => always) (Reader.char 't')) <|
      Reader.or (Reader.map (fun _ => never) (Reader.char 'f')) <|
      Reader.between '(' ')' (reader depth)
    let conjunction : Reader Acceptance := Reader.map (combine and) <|
      Reader.separated (Reader.padded (Reader.char '&')) atom
    Reader.map (combine or) (Reader.separated (Reader.padded (Reader.char '|')) conjunction)

/-- Reads a whole text as the number of sets and a condition on them. -/
def read? (cs : List Char) : Option (Nat × Acceptance) :=
  Reader.whole (Reader.both (Reader.padded (Reader.number halfWordLimit)) (reader (cs.length + 1))) cs

end Acceptance

end OmegaGames
