import OmegaGames.Interner

/-!
# Temporal formulas

Formulas over named propositions and their text for a tool. The text has parentheses around
every operator and calls the propositions `ap0`, `ap1`, … in the order of their first occurrence.
-/
namespace OmegaGames

inductive UnaryOp where
  | not
  | next
  | eventually
  | globally
deriving DecidableEq, Repr

inductive BinaryOp where
  | and
  | or
  | iff
  | implies
  | strongUntil
  | release
deriving DecidableEq, Repr

inductive Formula where
  | true
  | false
  | prop (name : String)
  | unary (op : UnaryOp) (f : Formula)
  | binary (op : BinaryOp) (f g : Formula)
deriving DecidableEq, Repr, Inhabited

/-- The sign before an operand; words are followed by a space. -/
def UnaryOp.sign : UnaryOp → String
  | not => "!"
  | next => "X "
  | eventually => "F "
  | globally => "G "

def BinaryOp.sign : BinaryOp → String
  | and => "&"
  | or => "|"
  | iff => "<=>"
  | implies => "=>"
  | strongUntil => "U"
  | release => "R"

namespace Formula

/-- The text of a formula, given the propositions that occurred before it, and the propositions that
have occurred after it. -/
def write : Formula → Interner String → List Char × Interner String
  | true, t => ("true".toList, t)
  | false, t => ("false".toList, t)
  | prop name, t =>
    let (t, i, _) := t.intern name
    ("ap".toList ++ Nat.toDigits 10 i, t)
  | unary op f, t =>
    let (text, t) := write f t
    (['('] ++ op.sign.toList ++ text ++ [')'], t)
  | binary op f g, t =>
    let (left, t) := write f t
    let (right, t) := write g t
    (['('] ++ left ++ [' '] ++ op.sign.toList ++ [' '] ++ right ++ [')'], t)

/-- A formula in text; proposition `i` of the list is called `api`. -/
structure Rendered where
  text : String
  propositions : List String
deriving DecidableEq, Repr

def render (f : Formula) : Rendered :=
  let (text, t) := f.write {}
  ⟨String.ofList text, t.values.toList⟩

end Formula

end OmegaGames
