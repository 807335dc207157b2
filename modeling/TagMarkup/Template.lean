import TagMarkup.Fragments
import TagMarkup.Outline.Reading

/-! Templates: fragments of text that are read as one text, with the outline of its tags. -/

namespace TagMarkup

/-- Whether a template is one text or a list of fragments that are addressed one by one. -/
inductive Depth
  | single
  | fragments
  deriving DecidableEq, Repr

def Depth.toNat : Depth → Nat
  | single => 1
  | fragments => 2

/-- Why there is no template. -/
inductive TemplateError
  | delimiters (e : MarksFault)
  | markup (e : MarkupError)
  deriving DecidableEq, Repr

def TemplateError.message : TemplateError → String
  | delimiters e => s!"Configuration error: {e.message}"
  | markup e => s!"Syntax error: {e.message}"

/-- A text in fragments, its outline, and the path of the node in view. -/
structure Template where
  fragments : List Text
  depth : Depth
  delimiters : Delimiters
  outline : Outline
  view : Path
  outline_eq : Outline.ofText delimiters fragments.flatten = .ok outline

namespace Template

def text (t : Template) : Text := t.fragments.flatten

def read (fragments : List Text) (depth : Depth) (delimiters : Delimiters) :
    Except TemplateError Template :=
  match h : Outline.ofText delimiters fragments.flatten with
  | .ok outline => .ok { fragments, depth, delimiters, outline, view := [], outline_eq := h }
  | .error e => .error (.markup e)

theorem read_eq_ok {fragments : List Text} {depth : Depth} {d : Delimiters} {t : Template} :
    read fragments depth d = .ok t ↔
      t.fragments = fragments ∧ t.depth = depth ∧ t.delimiters = d ∧ t.view = [] := by
  obtain ⟨fragments', depth', d', outline, view, heq⟩ := t
  constructor
  · intro h
    unfold read at h
    split at h
    · cases h
      exact ⟨rfl, rfl, rfl, rfl⟩
    · cases h
  · rintro ⟨rfl, rfl, rfl, rfl⟩
    unfold read
    split
    · next outline' h =>
      cases h.symm.trans heq
      rfl
    · next e h => cases h.symm.trans heq

/-- A template whose delimiters have still to be checked. -/
def readWithMarks (fragments : List Text) (depth : Depth) (marks : Marks) :
    Except TemplateError Template :=
  match marks.check with
  | .ok delimiters => read fragments depth delimiters
  | .error e => .error (.delimiters e)

/-- A template of one text with the standard delimiters. -/
def ofText (text : Text) : Except TemplateError Template :=
  read [text] .single .standard

/-- A template of fragments with the standard delimiters. -/
def ofFragments (fragments : List Text) : Except TemplateError Template :=
  read fragments .fragments .standard

def focus (t : Template) (path : Path) : Template := { t with view := path }

def at? (t : Template) (path : Path) : Option Node := t.outline.at? path

def contains (t : Template) (path : Path) : Bool := (t.at? path).isSome

def call? (t : Template) (path : Path) : Option Call := (t.at? path).map Node.call

/-- Where a node begins: in the first and only text, at a byte offset. -/
def offsets? (t : Template) (path : Path) : Option (Nat × Nat) :=
  (t.at? path).map fun node => (0, node.start)

def current? (t : Template) : Option Node := t.at? t.view

/-- The offsets in the joined text at which the fragments begin and end. -/
def boundaries (t : Template) : List Nat := Fragments.boundaries 0 t.fragments

end Template

end TagMarkup
