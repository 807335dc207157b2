import TagMarkup.Text

/-! The lexemes of a TOML file: words, strings and marks. Blanks and the ends of lines are marks
too, since some of them matter; comments are left out. A file is read one character at a time, and
`Mode` is what the characters so far have begun. -/

namespace TagMarkup.Settings.Toml

/-- A string between single marks is a `string`, and one between triple marks a `block`. -/
inductive Lexeme
  | word (t : Text)
  | string (t : Text)
  | block (t : Text)
  | mark (c : Char)
  deriving DecidableEq, Repr

/-- A character of bare keys. -/
def isBare (c : Char) : Bool := c.isAlphanum || c = '_' || c = '-'

/-- A character of bare keys, truth values, numbers, dates and times. -/
def isWord (c : Char) : Bool := isBare c || c = '+' || c = ':'

def isBlank (c : Char) : Bool := c = ' ' || c = '\t'

/-- A character of the end of a line. -/
def isLineEnd (c : Char) : Bool := c = '\n' || c = '\r'

/-- A character that may not stand in strings and comments: a control other than the tab. -/
def isControl (c : Char) : Bool := (c.toNat < 0x20 && c ≠ '\t') || c.toNat = 0x7F

def hexDigit? (c : Char) : Option Nat :=
  if c.isDigit then some (c.toNat - '0'.toNat)
  else if 'a' ≤ c ∧ c ≤ 'f' then some (c.toNat - 'a'.toNat + 10)
  else if 'A' ≤ c ∧ c ≤ 'F' then some (c.toNat - 'A'.toNat + 10)
  else none

/-- The character that a letter after a backslash stands for. -/
def escape? : Char → Option Char
  | 'b' => some '\x08'
  | 't' => some '\t'
  | 'n' => some '\n'
  | 'f' => some '\x0c'
  | 'r' => some '\r'
  | 'e' => some '\x1b'
  | '"' => some '"'
  | '\\' => some '\\'
  | _ => none

/-- The number of digits of the code point that a letter after a backslash announces. -/
def codeDigits? : Char → Option Nat
  | 'x' => some 2
  | 'u' => some 4
  | 'U' => some 8
  | _ => none

def charOf? (n : Nat) : Option Char :=
  if h : n.isValidChar then some (Char.ofNatAux n h) else none

/-- How a string is written: with escapes between double quotes, or as it is between single
ones. -/
inductive Quote
  | escaping
  | literal
  deriving DecidableEq, Repr

def Quote.char : Quote → Char
  | escaping => '"'
  | literal => '\''

/-- Whether a string is on one line or a block. -/
inductive Extent
  | line
  | block
  deriving DecidableEq, Repr

/-- What the last characters have begun. The texts are those read so far, backwards. -/
inductive Mode
  | between
  | word (read : Text)
  | comment
  /-- One or two quotes, which may open a string or a block. -/
  | quotes (q : Quote) (two : Bool)
  /-- The beginning of a block, where the end of a line is left out. -/
  | blockStart (q : Quote)
  | inside (q : Quote) (e : Extent) (read : Text)
  /-- Quotes in a block, the last three of which end it if there are as many. -/
  | closing (q : Quote) (read : Text) (count : Nat)
  | escaped (e : Extent) (read : Text)
  | code (e : Extent) (read : Text) (left value : Nat)
  /-- Blanks and ends of lines after a backslash at the end of a line. -/
  | folded (read : Text) (ended : Bool)
  deriving DecidableEq, Repr

/-- The mode that a character begins outside words and strings, and the lexeme that it is. A
carriage return is no lexeme, since the end of the line comes right after it. -/
def begin? (c : Char) : Option (Mode × List Lexeme) :=
  if c = '\r' then some (.between, [])
  else if c = '#' then some (.comment, [])
  else if c = '"' then some (.quotes .escaping false, [])
  else if c = '\'' then some (.quotes .literal false, [])
  else if isWord c then some (.word [c], [])
  else if c ∈ [' ', '\t', '\n', '[', ']', '\x7b', '\x7d', '=', '.', ','] then
    some (.between, [.mark c])
  else none

/-- A lexeme that has ended, and the mode after it and one more character. -/
def endBefore? (l : Lexeme) (c : Char) : Option (Mode × List Lexeme) :=
  (begin? c).map fun (mode, ls) => (mode, l :: ls)

/-- The mode after one more character of a string. -/
def insideNext? (q : Quote) (e : Extent) (read : Text) (c : Char) : Option (Mode × List Lexeme) :=
  if c = q.char then
    match e with
    | .line => some (.between, [.string read.reverse])
    | .block => some (.closing q read 1, [])
  else if q = .escaping ∧ c = '\\' then some (.escaped e read, [])
  else if isControl c ∧ ¬ (e = .block ∧ isLineEnd c) then none
  else some (.inside q e (c :: read), [])

/-- The mode after one more character, and the lexemes that it completes. -/
def Mode.next? (mode : Mode) (c : Char) : Option (Mode × List Lexeme) :=
  match mode with
  | between => begin? c
  | word read => if isWord c then some (word (c :: read), []) else endBefore? (.word read.reverse) c
  | comment =>
    if isLineEnd c then begin? c
    else if isControl c then none
    else some (comment, [])
  | quotes q false => if c = q.char then some (quotes q true, []) else insideNext? q .line [] c
  | quotes q true => if c = q.char then some (blockStart q, []) else endBefore? (.string []) c
  | blockStart q =>
    if c = '\r' then some (blockStart q, [])
    else if c = '\n' then some (inside q .block [], [])
    else insideNext? q .block [] c
  | inside q e read => insideNext? q e read c
  | closing q read count =>
    if c = q.char ∧ count < 5 then some (closing q read (count + 1), [])
    else if 3 ≤ count then
      endBefore? (.block (List.replicate (count - 3) q.char ++ read).reverse) c
    else insideNext? q .block (List.replicate count q.char ++ read) c
  | escaped e read =>
    match codeDigits? c with
    | some digits => some (code e read digits 0, [])
    | none =>
      if e = .block ∧ (isBlank c ∨ isLineEnd c) then some (folded read (isLineEnd c), [])
      else (escape? c).map fun x => (inside .escaping e (x :: read), [])
  | code e read left value => do
    let value := value * 16 + (← hexDigit? c)
    if left ≤ 1 then return (inside .escaping e ((← charOf? value) :: read), [])
    else return (code e read (left - 1) value, [])
  | folded read ended =>
    if isBlank c then some (folded read ended, [])
    else if isLineEnd c then some (folded read true, [])
    else if ended then insideNext? .escaping .block read c
    else none

/-- The last lexeme of a file that may end in a mode. -/
def Mode.finish? : Mode → Option (List Lexeme)
  | between | comment => some []
  | word read => some [.word read.reverse]
  | quotes _ true => some [.string []]
  | closing q read count =>
    if 3 ≤ count then some [.block (List.replicate (count - 3) q.char ++ read).reverse] else none
  | _ => none

/-- The lexemes of the rest of a file. -/
def lexemesFrom? (mode : Mode) : Text → Option (List Lexeme)
  | [] => mode.finish?
  | c :: rest => do
    let (mode, ls) ← mode.next? c
    return ls ++ (← lexemesFrom? mode rest)

/-- Every carriage return stands before a line feed. -/
def returnsEndLines : Text → Bool
  | [] => true
  | c :: rest => (c ≠ '\r' || rest.head? = some '\n') && returnsEndLines rest

/-- The lexemes of a file, in front of which a byte order mark may stand. -/
def lexemes? (t : Text) : Option (List Lexeme) :=
  if returnsEndLines t then
    lexemesFrom? .between <|
      match t with
      | '\uFEFF' :: rest => rest
      | t => t
  else none

end TagMarkup.Settings.Toml
