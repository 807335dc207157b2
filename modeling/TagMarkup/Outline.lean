import TagMarkup.Forest
import TagMarkup.Tag

/-! The outline of a text: the tags in it, in order and one inside another. The nodes of an
outline are the whole text, which has the number 0, and the tags, numbered from 1 in the order in
which they open. -/

namespace TagMarkup

/-- The tags of a text that is `length` bytes long. -/
structure Outline where
  length : Nat
  tags : Forest Tag
  deriving DecidableEq, Repr

/-- A node of an outline with the numbers of the nodes around and directly inside it. The whole
text is the node without a tag. -/
structure Node where
  tag? : Option Tag
  start : Nat
  stop : Nat
  parent? : Option Nat
  children : List Nat
  deriving DecidableEq, Repr

/-- What a node says. The whole text says nothing. -/
def Node.call (n : Node) : Call := (n.tag?.map Tag.call).getD ⟨[], []⟩

namespace Outline

def root (o : Outline) : Node :=
  { tag? := none, start := 0, stop := o.length, parent? := none, children := o.tags.numbers 1 }

def node (tag : Tag) (parent : Nat) (children : List Nat) : Node :=
  { tag? := some tag, start := tag.start, stop := tag.stop, parent? := some parent, children }

def nodes (o : Outline) : List Node :=
  o.root :: List.zipWith (fun tag (parent, children) => node tag parent children) o.tags.toList
    ((o.tags.parents 0 1).zip (o.tags.children 1))

def node? (o : Outline) (n : Nat) : Option Node := o.nodes[n]?

def size (o : Outline) : Nat := o.tags.size

/-- The number of the node at a path. The empty path leads to the whole text. -/
def number? (o : Outline) : Path → Option Nat
  | [] => some 0
  | i :: path => o.tags.number? 1 i path

def at? (o : Outline) (path : Path) : Option Node := (o.number? path).bind o.node?

def path? (o : Outline) : Nat → Option Path
  | 0 => some []
  | n + 1 => o.tags.path? 0 n

/-- The nodes directly inside a node. -/
def inside (o : Outline) (n : Nat) : List Node :=
  ((o.node? n).map fun node => node.children.filterMap o.node?).getD []

@[simp] theorem length_nodes (o : Outline) : o.nodes.length = o.size + 1 := by
  simp [nodes, size]

end Outline

end TagMarkup
