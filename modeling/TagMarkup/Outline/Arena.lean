import TagMarkup.Outline.Reading

/-! The nodes of an outline as they are stored while a text is read. A tag gets its node when it
opens. From then on its number is the place of the node, and the node around it has that number
among its children. What the tag says and where it ends are written into its node at the end. -/

namespace TagMarkup

namespace Node

/-- A tag right after its opener. -/
def opened (kind : TagKind) (start parent : Nat) (children : List Nat) : Node :=
  Outline.node ⟨kind, ⟨[], []⟩, start, start⟩ parent children

def addChild (number : Nat) (n : Node) : Node := { n with children := n.children ++ [number] }

def finish (stop : Nat) (call : Call) (n : Node) : Node :=
  { n with tag? := n.tag?.map fun tag => { tag with call, stop }, stop }

end Node

/-- Nodes that refer to each other by their numbers. -/
structure Arena where
  nodes : List Node
  deriving DecidableEq, Repr

namespace Arena

/-- The arena of a text that is `length` bytes long, in which no tag has opened. -/
def ofLength (length : Nat) : Arena := ⟨[(⟨length, .nil⟩ : Outline).root]⟩

/-- The greatest number that fits into a node. -/
def lastNumber : Nat := UInt32.size - 1

/-- The number of the next node. All nodes that are too many share the last one. -/
def nextNumber (a : Arena) : Nat := min a.nodes.length lastNumber

/-- The arena with a node for a tag that opens inside another node. -/
def alloc (kind : TagKind) (start parent : Nat) (a : Arena) : Arena :=
  ⟨(a.nodes ++ [Node.opened kind start parent []]).modify parent (Node.addChild a.nextNumber)⟩

/-- The arena after the end of a tag. -/
def finish (number stop : Nat) (call : Call) (a : Arena) : Arena :=
  ⟨a.nodes.modify number (Node.finish stop call)⟩

end Arena

/-- An arena that is being filled, with the open tags and their numbers, innermost first. The tags
that ended inside an open one are in the arena. -/
structure Filling where
  arena : Arena
  opened : List (Nat × Unclosed)
  deriving DecidableEq, Repr

namespace Filling

/-- The number of the innermost open tag, or of the whole text. -/
def around (s : Filling) : Nat :=
  match s.opened with
  | [] => 0
  | (number, _) :: _ => number

def push (kind : TagKind) (start : Nat) (s : Filling) : Filling :=
  ⟨s.arena.alloc kind start s.around, (s.arena.nextNumber, .opened kind start) :: s.opened⟩

/-- The innermost open tag changed, which does not show in the arena. -/
def modify (change : Unclosed → Unclosed) (s : Filling) : Filling :=
  match s.opened with
  | [] => s
  | (number, u) :: outer => { s with opened := (number, change u) :: outer }

/-- After a closer the innermost open tag ends, or the header of a block does. -/
def close (text : Text) (start stop : Nat) (s : Filling) : Filling :=
  match s.opened with
  | [] => s
  | (number, u) :: outer =>
    let u := if u.part = .values then u.endValue text start else u
    if u.kind = .block ∧ (u.part = .key ∨ u.part = .values) then
      { s with opened := (number, { u with part := .body, bodyAt := stop }) :: outer }
    else ⟨s.arena.finish number stop ⟨u.key, u.groups⟩, outer⟩

/-- One more token of the text. -/
def next (d : Delimiters) (text : Text) (s : Filling) (token : Token) : Filling :=
  match token.kind with
  | .text => s
  | .inlineOpen => s.push .inline token.start
  | .blockOpen => s.push .block token.start
  | .key => s.modify fun u => if u.part = .key then { u with key := token.text } else u
  | .sep level => s.modify (·.afterSep text level token.start token.stop)
  | .blockClose => s.modify (·.afterBody d text token.start)
  | .close => s.close text token.start token.stop

/-- What the tokens of the text have filled in. -/
def ofTokens (d : Delimiters) (text : Text) (tokens : List Token) : Filling :=
  tokens.foldl (next d text) ⟨.ofLength text.bytes, []⟩

end Filling

/-- The arena of a text that can be read as a whole. -/
def Arena.ofText (d : Delimiters) (text : Text) : Except MarkupError Arena :=
  (tokenize d text).map fun tokens => (Filling.ofTokens d text tokens).arena

end TagMarkup
