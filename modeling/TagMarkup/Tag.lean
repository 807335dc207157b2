import TagMarkup.Text

/-! Tags: what a tag says, and where it stands in a text. -/

namespace TagMarkup

inductive TagKind
  | inline
  | block
  deriving DecidableEq, Repr

/-- What a tag says: its key and its groups of values. A tag without separators has no groups. -/
structure Call where
  key : Text
  groups : List (List Text)
  deriving DecidableEq, Repr, Inhabited

namespace Call

def group? (c : Call) (i : Nat) : Option (List Text) := c.groups[i]?

/-- The first value of a group. -/
def value? (c : Call) (i : Nat) : Option Text := (c.group? i).bind List.head?

/-- The values of a group with `sep` between them, and nothing for a group that is not there. -/
def joined (c : Call) (i : Nat) (sep : Text) : Text :=
  match c.group? i with
  | some values => sep.intercalate values
  | none => []

def isPlain (c : Call) : Bool := c.groups.isEmpty

end Call

/-- A tag in a text, from the byte offset of its opener to the one right after its last closer. -/
structure Tag where
  kind : TagKind
  call : Call
  start : Nat
  stop : Nat
  deriving DecidableEq, Repr

end TagMarkup
