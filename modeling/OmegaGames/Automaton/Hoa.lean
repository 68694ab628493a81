import OmegaGames.Automaton.Description
import OmegaGames.Text.Alphanumeric
import OmegaGames.Text.Lines

/-!
# Automata in the Hanoi format

Reads the text of one automaton: header items line by line, then states with their edges. Only
explicit labels on edges, single targets and guards without aliases are supported.
-/
namespace OmegaGames

/-- What is wrong with a line, or with the automaton as a whole. -/
inductive HoaFault where
  | noHeaderItem
  | noVersion
  /-- The line does not follow the grammar of its tokens, guard or condition. -/
  | ungrammatical
  | noNumber (key : String)
  | noQuotedName
  | noStateCount
  | alternatingStart
  | noPropositionCount
  | noQuotedProposition
  | propositionCount (count : Nat)
  | aliasItem
  | unclosedBrace
  | invalidSet (word : String)
  | stateLabel
  | noStateNumber
  | strayEdge
  | implicitLabel
  | unclosedBracket
  | alternatingEdge
  | invalidTarget (text : String)
  | undeclaredProposition (ap : Nat)
  | stateOutOfRange (id : Nat)
  | setOutOfRange (set : Nat)
  /-- One more than the largest state mentioned is no word, and nothing comes of the text. -/
  | countOverflow
deriving DecidableEq, Repr

inductive HoaError where
  /-- The line is zero for faults of the automaton as a whole. -/
  | malformed (line : Nat) (fault : HoaFault)
  | missingItem (item : String)
  | aborted
  | unexpectedEnd
deriving DecidableEq, Repr

def HoaFault.message : HoaFault → String
  | noHeaderItem => "expected a header item"
  | noVersion => "expected `HOA:`"
  | ungrammatical => "invalid syntax"
  | noNumber key => "expected a number in `" ++ key ++ "`"
  | noQuotedName => "expected a quoted name"
  | noStateCount => "expected the number of states"
  | alternatingStart => "alternating initial states are not supported"
  | noPropositionCount => "expected the number of propositions"
  | noQuotedProposition => "expected a quoted proposition"
  | propositionCount count => s!"expected {count} propositions"
  | aliasItem => "aliases are not supported"
  | unclosedBrace => "expected '\x7d'"
  | invalidSet word => "invalid acceptance set `" ++ word ++ "`"
  | stateLabel => "state labels are not supported"
  | noStateNumber => "expected a state number"
  | strayEdge => "edge outside of a state"
  | implicitLabel => "implicit edge labels are not supported"
  | unclosedBracket => "expected ']'"
  | alternatingEdge => "alternating edges are not supported"
  | invalidTarget text => "invalid target `" ++ text ++ "`"
  | undeclaredProposition ap => s!"proposition {ap} is not declared"
  | stateOutOfRange id => s!"state {id} is out of range"
  | setOutOfRange set => s!"acceptance set {set} is out of range"
  | countOverflow => "the number of states overflows"

def HoaError.message : HoaError → String
  | malformed line fault => s!"line {line}: " ++ fault.message
  | missingItem item => "missing `" ++ item ++ "` header item"
  | aborted => "the producer aborted the automaton"
  | unexpectedEnd => "unexpected end of input, expected `--END--`"

namespace Hoa

open Text

/-! ## Tokens -/

inductive Token where
  | int (n : Nat)
  | str (s : String)
  | ident (s : String)
deriving DecidableEq, Repr

namespace Token

def text : Token → String
  | int n => n.repr
  | str s => s
  | ident s => s

/-- A character of a quoted text; a backslash takes the next character as it is. -/
def quotedChar : Reader Char :=
  Reader.or (Reader.after (Reader.char '\\') (Reader.one fun _ => true))
    (Reader.one fun c => c != '"' && c != '\\')

def quotedReader : Reader Token :=
  Reader.map (fun cs => str (String.ofList cs)) (Reader.between '"' '"' (Reader.many quotedChar))

def isIdentPart (c : Char) : Bool :=
  isAlphanumeric c || c = '_' || c = '-' || c = '@' || c = '.'

def ofWord (cs : List Char) : Token :=
  match readNumeral? wordLimit cs with
  | some n => int n
  | none => ident (String.ofList cs)

def wordReader : Reader Token := Reader.map ofWord (Reader.manyOne (Reader.one isIdentPart))

def readAll? (cs : List Char) : Option (List Token) :=
  Reader.whole (Reader.many (Reader.padded (Reader.or quotedReader wordReader))) cs

end Token

def ints (key : String) (ts : List Token) : Except HoaFault (List Nat) :=
  ts.mapM fun t => match t with
    | .int n => .ok n
    | _ => .error (.noNumber key)

/-! ## The header -/

/-- The header items read so far. -/
structure Header where
  name : Option String := none
  stateCount : Option Nat := none
  start : List Nat := []
  aps : List String := []
  accName : List String := []
  acceptance : Option (Nat × Acceptance) := none
  properties : List String := []
  other : List (String × String) := []

namespace Header

def readAps (ts : List Token) : Except HoaFault (List String) :=
  match ts with
  | .int count :: names => do
    let names ← names.mapM fun t => match t with
      | .str s => .ok s
      | _ => .error .noQuotedProposition
    if names.length = count then .ok names else .error (.propositionCount count)
  | _ => .error .noPropositionCount

def addTokens (h : Header) (key : String) (value : List Char) (ts : List Token) :
    Except HoaFault Header :=
  match key with
  | "name" =>
    match ts with
    | [.str s] => .ok { h with name := some s }
    | _ => .error .noQuotedName
  | "States" => do
    match ← ints key ts with
    | [n] => .ok { h with stateCount := some n }
    | _ => .error .noStateCount
  | "Start" => do
    if value.contains '&' then throw .alternatingStart
    return { h with start := h.start ++ (← ints key ts) }
  | "AP" => do return { h with aps := ← readAps ts }
  | "acc-name" => .ok { h with accName := ts.map Token.text }
  | "properties" => .ok { h with properties := h.properties ++ ts.map Token.text }
  | "Alias" => .error .aliasItem
  | _ => .ok { h with other := h.other ++ [(key, String.ofList value)] }

def add (h : Header) (key : String) (value : List Char) : Except HoaFault Header :=
  if key = "Acceptance" then
    match Acceptance.read? value with
    | some a => .ok { h with acceptance := some a }
    | none => .error .ungrammatical
  else
    match Token.readAll? value with
    | some ts => h.addTokens key value ts
    | none => .error .ungrammatical

end Header

abbrev NumberedLine := Nat × List Char

def splitItem (text : List Char) : Except HoaFault (String × List Char) :=
  match splitOnce? ':' text with
  | some (key, value) => .ok (String.ofList key, trim value)
  | none => .error .noHeaderItem

/-- Reads the header up to the start of the body. The first item gives the version, and its value does
not matter. -/
def readHeader : Bool → Header → List NumberedLine → Except HoaError (Header × List NumberedLine)
  | _, _, [] => .error .unexpectedEnd
  | started, h, (line, text) :: rest =>
    if text.isEmpty then readHeader started h rest
    else if text = "--BODY--".toList then .ok (h, rest)
    else if text = "--ABORT--".toList then .error .aborted
    else
      match splitItem text with
      | .error f => .error (.malformed line f)
      | .ok (key, value) =>
        if started then
          match h.add key value with
          | .error f => .error (.malformed line f)
          | .ok h => readHeader true h rest
        else if key = "HOA" then readHeader true h rest
        else .error (.malformed line .noVersion)

/-! ## The body -/

/-- The parts around the first opening brace outside of quotes. -/
def splitBrace? : Bool → List Char → Option (List Char × List Char)
  | _, [] => none
  | false, '\x7b' :: cs => some ([], cs)
  | true, '\\' :: c :: cs => (splitBrace? true cs).map fun (before, after) => ('\\' :: c :: before, after)
  | quoted, c :: cs =>
    (splitBrace? (if c = '"' then !quoted else quoted) cs).map fun (before, after) =>
      (c :: before, after)

def splitMarks (text : List Char) : Except HoaFault (List Char × List Nat) :=
  match splitBrace? false text with
  | none => .ok (trim text, [])
  | some (rest, after) => do
    match stripLast? '\x7d' (trimRight after) with
    | none => .error .unclosedBrace
    | some inside =>
      let marks ← (words inside).mapM fun w =>
        match readNumeral? halfWordLimit w with
        | some m => .ok m
        | none => .error (.invalidSet (String.ofList w))
      return (trim rest, sortMarks marks)

def readState (text : List Char) : Except HoaFault DescribedState := do
  let (rest, marks) ← splitMarks text
  if rest.head? = some '[' then throw .stateLabel
  match Token.readAll? rest with
  | none => throw .ungrammatical
  | some [.int id] => return ⟨id, none, marks, []⟩
  | some [.int id, .str name] => return ⟨id, some name, marks, []⟩
  | some _ => throw .noStateNumber

def readEdge (apCount : Nat) (text : List Char) : Except HoaFault DescribedEdge := do
  let some rest := stripStart? ['['] text | throw .implicitLabel
  let some (guardText, rest) := splitOnce? ']' rest | throw .unclosedBracket
  let some guard := Guard.read? guardText | throw .ungrammatical
  let (targetText, marks) ← splitMarks rest
  if targetText.contains '&' then throw .alternatingEdge
  let some target := readNumeral? wordLimit targetText
    | throw (.invalidTarget (String.ofList targetText))
  match guard.aps.max? with
  | some n => if apCount ≤ n then throw (.undeclaredProposition n)
  | none => pure ()
  return ⟨guard, target, marks⟩

/-- Adds an edge to the state described last, which comes first in the list. -/
def addEdge (apCount : Nat) (states : List DescribedState) (text : List Char) :
    Except HoaFault (List DescribedState) :=
  match states with
  | [] => .error .strayEdge
  | s :: rest => do
    let e ← readEdge apCount text
    return { s with edges := s.edges ++ [e] } :: rest

/-- Takes in a line of the body. The latest state comes first. -/
def addLine (apCount : Nat) (states : List DescribedState) (text : List Char) :
    Except HoaFault (List DescribedState) :=
  match stripStart? "State:".toList text with
  | some rest => do return (← readState rest) :: states
  | none => addEdge apCount states text

def readBody (apCount : Nat) : List DescribedState → List NumberedLine →
    Except HoaError (List DescribedState)
  | _, [] => .error .unexpectedEnd
  | states, (line, text) :: rest =>
    if text.isEmpty then readBody apCount states rest
    else if text = "--END--".toList then .ok states.reverse
    else if text = "--ABORT--".toList then .error .aborted
    else
      match addLine apCount states text with
      | .error f => .error (.malformed line f)
      | .ok states => readBody apCount states rest

/-! ## The automaton as a whole -/

/-- The number of states if the header does not give it: one more than the largest state mentioned. -/
def impliedStateCount (start : List Nat) (states : List DescribedState) : Except HoaFault Nat :=
  let mentioned := states.map (·.id) ++ states.flatMap (fun s => s.edges.map (·.target)) ++ start
  match mentioned.max? with
  | some n => if n + 1 < wordLimit then .ok (n + 1) else .error .countOverflow
  | none => .ok 0

def Header.countStates (h : Header) (states : List DescribedState) : Except HoaFault Nat :=
  match h.stateCount with
  | some n => .ok n
  | none => impliedStateCount h.start states

def Header.describe (h : Header) (condition : Nat × Acceptance) (stateCount : Nat)
    (states : List DescribedState) : Description where
  name := h.name
  stateCount := stateCount
  start := h.start
  aps := h.aps
  accName := h.accName
  acceptanceSets := condition.1
  acceptance := condition.2
  properties := h.properties
  other := h.other
  states := states

def rangeFault? (d : Description) : Option HoaFault :=
  let beyond (ids : List Nat) : Option HoaFault :=
    (ids.find? fun id => d.stateCount ≤ id).map .stateOutOfRange
  let marks := d.states.flatMap fun s => s.marks ++ s.edges.flatMap (·.marks)
  (beyond (d.states.map (·.id) ++ d.start)).or <|
  (beyond (d.states.flatMap fun s => s.edges.map (·.target))).or <|
  ((marks ++ d.acceptance.sets.max?.toList).find? fun m => d.acceptanceSets ≤ m).map .setOutOfRange

def assemble (h : Header) (condition : Nat × Acceptance) (states : List DescribedState) :
    Except HoaFault Description := do
  let stateCount ← h.countStates states
  match rangeFault? (h.describe condition stateCount states) with
  | some f => throw f
  | none => return h.describe condition stateCount states

def read (source : String) : Except HoaError Description := do
  let (h, rest) ← readHeader false {} (numberedLines source.toList)
  match h.acceptance with
  | none => throw (.missingItem "Acceptance")
  | some condition =>
    let states ← readBody h.aps.length [] rest
    (assemble h condition states).mapError (.malformed 0)

end Hoa

end OmegaGames
