import TagMarkup.Text.Quoted

/-! Tokens of tag markup and the faults that reading markup can meet. Positions are byte offsets
into the text that is read. -/

namespace TagMarkup

/-- What a separator ends: a group of values, or one value. -/
inductive Level
  | group
  | value
  deriving DecidableEq, Repr

inductive TokenKind
  | text
  | inlineOpen
  | blockOpen
  | blockClose
  | key
  | sep (level : Level)
  | close
  deriving DecidableEq, Repr

def TokenKind.isOpen : TokenKind → Bool
  | .inlineOpen | .blockOpen => true
  | _ => false

/-- A piece of a text: where it begins, how it reads, and how many tags it stands in. A token that
opens or closes a tag stands in that tag. -/
structure Token where
  kind : TokenKind
  start : Nat
  text : Text
  depth : Nat
  deriving DecidableEq, Repr

def Token.stop (t : Token) : Nat := t.start + t.text.bytes

/-- Why a text cannot be read. -/
inductive MarkupError
  | unclosedTag (position : Nat)
  | badKey (position : Nat) (found : Char)
  | strayBlockClose (position : Nat)
  | notOneTag (position : Nat) (found : Text)
  deriving DecidableEq, Repr

namespace MarkupError

def position : MarkupError → Nat
  | unclosedTag p | badKey p _ | strayBlockClose p | notOneTag p _ => p

def message : MarkupError → String
  | unclosedTag p => s!"Unterminated tag opened at position {p}"
  | badKey p c =>
    s!"Invalid character {String.ofList (Text.quotedSingle c)} in tag key at position {p}"
  | strayBlockClose p => s!"Block close at position {p} has no open block"
  | notOneTag p found =>
    s!"Expected a single tag, found {String.ofList found.quoted} at position {p}"

end MarkupError

end TagMarkup
