import TagMarkup.Tag
import TagMarkup.Tag.Splitting

/-! One tag read from a text of its own. The tokens outside nested tags drive the reading through
the parts of the tag; a token before the tag or after its end shows that the text is no single
tag. -/

namespace TagMarkup

/-- A tag as its text has it: the text between the first separator and the closer of the header,
when the tag has values, and for a block tag the text of its body. -/
structure SingleTag where
  key : Text
  header? : Option Text
  body? : Option Text
  text : Text
  deriving DecidableEq, Repr

namespace SingleTag

/-- Only a block tag has a body. -/
def kind (t : SingleTag) : TagKind := if t.body?.isSome then .block else .inline

/-- What the tag says, its values set apart as a filter wants them: first the groups of the header
and then those of the body. -/
def call (d : Delimiters) (splitting : SplitRule) (t : SingleTag) : Call :=
  let split := splitGroups d (splitting.cuts d)
  ⟨t.key, (t.header?.map split).getD [] ++ (t.body?.map split).getD []⟩

/-- How much of the tag has been read. -/
inductive Progress
  | start
  | header (kind : TagKind) (key : Text) (valuesAt? : Option Nat)
  | body (key : Text) (header? : Option Text) (bodyAt : Nat)
  | closing (key : Text) (header? : Option Text) (body : Text)
  | done (tag : SingleTag)

namespace Progress

/-- The progress after a token of the tag itself. -/
def next (text : Text) (p : Progress) (token : Token) : Progress :=
  match p, token.kind with
  | start, .inlineOpen => header .inline [] none
  | start, .blockOpen => header .block [] none
  | header kind _ none, .key => header kind token.text none
  | header kind key none, .sep _ => header kind key (some token.stop)
  | header .inline key valuesAt?, .close =>
    done ⟨key, valuesAt?.map (text.slice · token.start), none, text⟩
  | header .block key valuesAt?, .close =>
    body key (valuesAt?.map (text.slice · token.start)) token.stop
  | body key header? bodyAt, .blockClose => closing key header? (text.slice bodyAt token.start)
  | closing key header? inside, .close => done ⟨key, header?, some inside, text⟩
  | p, _ => p

/-- The progress after a token, or the token as the one that does not belong to the tag. -/
def step (text : Text) (p : Progress) (token : Token) : Except MarkupError Progress :=
  match p with
  | done _ => .error (.notOneTag token.start token.text)
  | start =>
    if token.kind.isOpen then .ok (start.next text token)
    else .error (.notOneTag token.start token.text)
  | p => if token.depth = 1 then .ok (p.next text token) else .ok p

end Progress

/-- The tag that a text consists of. A token that does not belong to it is found before a fault
further on. -/
def ofText (d : Delimiters) (text : Text) : Except MarkupError SingleTag := do
  let lexing := Lexing.ofText d text
  let progress ← lexing.tokens.foldlM (Progress.step text) .start
  match lexing.fault?, progress with
  | some e, _ => .error e
  | none, .done tag => .ok tag
  | none, _ => .error (.notOneTag 0 text)

end SingleTag

end TagMarkup
