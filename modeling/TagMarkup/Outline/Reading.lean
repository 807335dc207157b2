import TagMarkup.Outline
import TagMarkup.Tag.Splitting

/-! The outline of a text from its tokens. Every tag that is still open keeps what has been read
of it and the tags that ended inside it. The values of a tag are slices of the text between its
own separators, so a nested tag stands in them as it was written. -/

namespace TagMarkup

inductive Part
  | key
  | values
  | body
  | ending
  deriving DecidableEq, Repr

/-- A tag whose end has not been read: where its present value and its body begin, and the tags
inside it. -/
structure Unclosed where
  kind : TagKind
  start : Nat
  part : Part
  key : Text
  groups : List (List Text)
  valueAt : Nat
  bodyAt : Nat
  inner : Forest Tag
  deriving DecidableEq, Repr

namespace Unclosed

/-- A tag right after its opener. -/
def opened (kind : TagKind) (start : Nat) : Unclosed :=
  { kind, start, part := .key, key := [], groups := [], valueAt := 0, bodyAt := 0, inner := .nil }

/-- The groups with `value` at the end of the last one. -/
def addToLast (value : Text) : List (List Text) → List (List Text)
  | [] => []
  | [group] => [group ++ [value]]
  | group :: rest => group :: addToLast value rest

/-- The value that ends at `stop` belongs to the last group. -/
def endValue (text : Text) (u : Unclosed) (stop : Nat) : Unclosed :=
  { u with groups := addToLast (text.slice u.valueAt stop) u.groups }

def newGroup (u : Unclosed) : Unclosed := { u with groups := u.groups ++ [[]] }

/-- The tag after a separator of its own. -/
def afterSep (text : Text) (u : Unclosed) (level : Level) (start stop : Nat) : Unclosed :=
  let v :=
    if u.part = .key then { u with part := .values }.newGroup
    else
      match level with
      | .group => (u.endValue text start).newGroup
      | .value => u.endValue text start
  { v with valueAt := stop }

/-- The tag after its block close, when its body has been split into values. -/
def afterBody (d : Delimiters) (text : Text) (u : Unclosed) (start : Nat) : Unclosed :=
  { u with groups := u.groups ++ templateGroups d (text.slice u.bodyAt start), part := .ending }

def toTag (u : Unclosed) (stop : Nat) : Tag :=
  { kind := u.kind, call := ⟨u.key, u.groups⟩, start := u.start, stop }

end Unclosed

/-- The tags read so far: the open ones, innermost first, and the ones that ended outside all of
them. -/
structure Draft where
  opened : List Unclosed
  finished : Forest Tag
  deriving DecidableEq, Repr

namespace Draft

def empty : Draft := ⟨[], .nil⟩

def push (kind : TagKind) (start : Nat) (draft : Draft) : Draft :=
  { draft with opened := .opened kind start :: draft.opened }

/-- The draft with its innermost open tag changed. -/
def modify (change : Unclosed → Unclosed) (draft : Draft) : Draft :=
  match draft.opened with
  | [] => draft
  | u :: outer => { draft with opened := change u :: outer }

/-- The draft with a finished tag added where it ended. -/
def add (tree : Forest Tag) (draft : Draft) : Draft :=
  match draft.opened with
  | [] => { draft with finished := draft.finished ++ tree }
  | u :: outer => { draft with opened := { u with inner := u.inner ++ tree } :: outer }

@[simp] theorem add_nil (draft : Draft) : draft.add .nil = draft := by
  obtain ⟨opened, finished⟩ := draft
  cases opened <;> simp [add]

@[simp] theorem add_add (draft : Draft) (f g : Forest Tag) :
    (draft.add f).add g = draft.add (f ++ g) := by
  obtain ⟨opened, finished⟩ := draft
  cases opened <;> simp [add, Forest.append_assoc]

/-- The draft after a closer: the innermost open tag ends, or the header of a block does. -/
def close (text : Text) (start stop : Nat) (draft : Draft) : Draft :=
  match draft.opened with
  | [] => draft
  | u :: outer =>
    let u := if u.part = .values then u.endValue text start else u
    if u.kind = .block ∧ (u.part = .key ∨ u.part = .values) then
      { draft with opened := { u with part := .body, bodyAt := stop } :: outer }
    else add (.tree (u.toTag stop) u.inner) { draft with opened := outer }

/-- The draft after one more token of the text. -/
def next (d : Delimiters) (text : Text) (draft : Draft) (token : Token) : Draft :=
  match token.kind with
  | .text => draft
  | .inlineOpen => draft.push .inline token.start
  | .blockOpen => draft.push .block token.start
  | .key => draft.modify fun u => if u.part = .key then { u with key := token.text } else u
  | .sep level => draft.modify (·.afterSep text level token.start token.stop)
  | .blockClose => draft.modify (·.afterBody d text token.start)
  | .close => draft.close text token.start token.stop

/-- The draft after all tokens of the text. -/
def ofTokens (d : Delimiters) (text : Text) (tokens : List Token) : Draft :=
  tokens.foldl (next d text) empty

end Draft

/-- The outline of a text that can be read as a whole. -/
def Outline.ofText (d : Delimiters) (text : Text) : Except MarkupError Outline :=
  (tokenize d text).map fun tokens => ⟨text.bytes, (Draft.ofTokens d text tokens).finished⟩

/-- What came of a reading can be compared. -/
instance decidableEqResult {ε α : Type} [DecidableEq ε] [DecidableEq α] :
    DecidableEq (Except ε α)
  | .ok a, .ok b => decidable_of_iff (a = b) ⟨congrArg _, Except.ok.inj⟩
  | .error e, .error e' => decidable_of_iff (e = e') ⟨congrArg _, Except.error.inj⟩
  | .ok _, .error _ => .isFalse nofun
  | .error _, .ok _ => .isFalse nofun

end TagMarkup
