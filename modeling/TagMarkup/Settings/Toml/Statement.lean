import TagMarkup.Settings.Toml.Draft
import TagMarkup.Settings.Toml.Scalar

/-! The statements of a TOML file: headers of tables, and keys with their values. What stands
between two brackets becomes one piece as soon as it is closed, so a statement is a row of pieces
without brackets. -/

namespace TagMarkup.Settings.Toml

/-- A lexeme, or what stood between two brackets: a value, or the keys of a header. -/
inductive Piece
  | lexeme (l : Lexeme)
  | value (item : Item)
  | header (keys : List Text)
  | next (keys : List Text)
  deriving DecidableEq, Repr

inductive Statement
  | header (keys : List Text)
  /-- The header of one more table of a series. -/
  | next (keys : List Text)
  | assign (keys : List Text) (item : Item)
  deriving DecidableEq, Repr

namespace Piece

def isMark (c : Char) (p : Piece) : Bool := p = .lexeme (.mark c)

def isBlank (p : Piece) : Bool := p.isMark ' ' || p.isMark '\t'

/-- A blank or the end of a line. -/
def isSpace (p : Piece) : Bool := p.isBlank || p.isMark '\n'

/-- The pieces without those at both ends that are left out. -/
def trim (leftOut : Piece → Bool) (ps : List Piece) : List Piece :=
  ((ps.dropWhile leftOut).reverse.dropWhile leftOut).reverse

def keyPart? (ps : List Piece) : Option Text :=
  match trim isBlank ps with
  | [.lexeme (.word t)] => if t.all isBare then some t else none
  | [.lexeme (.string t)] => some t
  | _ => none

/-- The parts of a key, which stand between points. -/
def keys? (ps : List Piece) : Option (List Text) := (ps.splitOnP (isMark '.')).mapM keyPart?

/-- What a lexeme adds to a value without quotes. -/
def plainText? : Piece → Option Text
  | .lexeme (.word t) => some t
  | .lexeme (.mark c) => some [c]
  | _ => none

/-- The value that pieces make. -/
def item? (ps : List Piece) : Option Item :=
  match trim isSpace ps with
  | [.value item] => some item
  | [.lexeme (.string t)] | [.lexeme (.block t)] => some (.scalar (.text t))
  | ps => do return .scalar (← scalar? (← ps.mapM plainText?).flatten)

/-- A key, an equals sign and a value. Between braces, lines may end on either side of the sign. -/
def assignment? (ps : List Piece) : Option (List Text × Item) :=
  match ps.span fun p => !p.isMark '=' with
  | (key, _ :: given) => do return (← keys? (trim isSpace key), ← item? given)
  | (_, []) => none

/-- The parts of a list between commas. A comma may stand after the last one too. -/
def parts (ps : List Piece) : List (List Piece) :=
  let all := (ps.splitOnP (isMark ',')).map (trim isSpace)
  if all.getLast? = some [] then all.dropLast else all

/-- The keys between the brackets of a header. -/
def header? : List Piece → Option Piece
  | [.header keys] => some (.next keys)
  | ps => (keys? ps).map .header

/-- The array that stands between brackets. -/
def array? (ps : List Piece) : Option Piece := do
  return .value (.array (.ofItems (← (parts ps).mapM item?)))

/-- The table that stands between braces. -/
def inline? (ps : List Piece) : Option Piece := do
  return .value (.table (← Draft.ofAssignments? (← (parts ps).mapM assignment?)))

end Piece

/-- The statement of a row of pieces, unless the row is blank. -/
def Statement.ofPieces? (ps : List Piece) : Option (List Statement) :=
  match Piece.trim Piece.isBlank ps with
  | [] => some []
  | [.header keys] => some [.header keys]
  | [.next keys] => some [.next keys]
  | ps => (Piece.assignment? ps).map fun (keys, item) => [.assign keys item]

/-- What an open bracket encloses. -/
inductive Bracket
  | header
  | array
  | inline
  deriving DecidableEq, Repr

namespace Bracket

def closer : Bracket → Char
  | header | array => ']'
  | inline => '\x7d'

def close? : Bracket → List Piece → Option Piece
  | header => Piece.header?
  | array => Piece.array?
  | inline => Piece.inline?

end Bracket

/-- The most brackets that may be open at once. -/
def bracketLimit : Nat := 80

/-- The pieces of a statement so far, backwards, and the brackets that are open with the pieces
before them, innermost first. -/
structure Row where
  pieces : List Piece
  opened : List (Bracket × List Piece)

namespace Row

def empty : Row := ⟨[], []⟩

/-- What a square bracket opens here: a header at the beginning of a statement, and otherwise an
array. -/
def square (row : Row) : Bracket :=
  match row.opened with
  | [] => if row.pieces.all Piece.isBlank then .header else .array
  | (.header, _) :: _ => .header
  | _ => .array

/-- The row inside one more bracket, unless too many are open. -/
def push? (row : Row) (b : Bracket) : Option Row :=
  if row.opened.length < bracketLimit then some ⟨[], (b, row.pieces) :: row.opened⟩ else none

def add (row : Row) (p : Piece) : Row := { row with pieces := p :: row.pieces }

/-- The innermost bracket is closed by `c`. -/
def close? (row : Row) (c : Char) : Option Row :=
  match row.opened with
  | [] => none
  | (b, before) :: outer =>
    if b.closer = c then
      (b.close? row.pieces.reverse).map fun p => ⟨p :: before, outer⟩
    else none

/-- The row after a lexeme, and the statement that the lexeme ends. -/
def next? (row : Row) (l : Lexeme) : Option (Row × List Statement) :=
  if l = .mark '[' then (row.push? row.square).map (·, [])
  else if l = .mark '\x7b' then (row.push? .inline).map (·, [])
  else if l = .mark ']' then (row.close? ']').map (·, [])
  else if l = .mark '\x7d' then (row.close? '\x7d').map (·, [])
  else if l = .mark '\n' ∧ row.opened.isEmpty then
    (Statement.ofPieces? row.pieces.reverse).map (empty, ·)
  else some (row.add (.lexeme l), [])

/-- The last statement of a file. -/
def finish? (row : Row) : Option (List Statement) :=
  if row.opened.isEmpty then Statement.ofPieces? row.pieces.reverse else none

end Row

/-- The statements that lexemes make, the first of which go on with a row. -/
def statements? (row : Row) : List Lexeme → Option (List Statement)
  | [] => row.finish?
  | l :: rest => do
    let (row, ended) ← row.next? l
    return ended ++ (← statements? row rest)

end TagMarkup.Settings.Toml
