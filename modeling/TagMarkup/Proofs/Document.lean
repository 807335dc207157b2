import TagMarkup.Proofs.Markup.Standard

/-! Documents: texts and tags, where the values of a tag are documents again. Printed with the
standard delimiters a document is a text, and its tags have their places in that text by the lengths
of what is printed before and inside them. -/

namespace TagMarkup

open Delimiters (standard)

/-- A text without the characters of the standard marks. -/
structure PlainText where
  text : Text
  plain : ∀ c ∈ text, c ≠ '[' ∧ c ≠ ']' ∧ c ≠ ':' ∧ c ≠ '|'

mutual

/-- Texts and tags, one behind the other. A block tag has at least one group in its body. -/
inductive Document
  | nil
  | text (t : PlainText) (rest : Document)
  | inline (key : Key) (groups : Document.Groups) (rest : Document)
  | block (key : Key) (header : Document.Groups) (body : Document.Group)
    (more : Document.Groups) (endKey : Key) (rest : Document)

/-- One value or more. -/
inductive Document.Group
  | last (value : Document)
  | more (value : Document) (rest : Document.Group)

inductive Document.Groups
  | nil
  | cons (group : Document.Group) (rest : Document.Groups)

end

namespace Document

mutual

def print : Document → Text
  | nil => []
  | text t rest => t.text ++ rest.print
  | inline key groups rest =>
    standard.opener ++ key.text ++ groups.print ++ standard.closer ++ rest.print
  | block key header body more endKey rest =>
    standard.blockOpener ++ key.text ++ header.print ++ standard.closer ++
      (body.print ++ more.print) ++
      standard.blockCloser ++ endKey.text ++ standard.closer ++ rest.print

def Group.print : Group → Text
  | .last value => value.print
  | .more value rest => value.print ++ standard.subSep ++ rest.print

/-- Every group with a separator in front of it. -/
def Groups.print : Groups → Text
  | .nil => []
  | .cons group rest => standard.sep ++ group.print ++ rest.print

end

/-- What the values of the group are printed as. -/
def Group.texts : Group → List Text
  | .last value => [value.print]
  | .more value rest => value.print :: rest.texts

def Groups.texts : Groups → List (List Text)
  | .nil => []
  | .cons group rest => group.texts :: rest.texts

mutual

/-- The tags of a document that is printed from a position of a text on. -/
def tags (position : Nat) : Document → Forest Tag
  | nil => .nil
  | text t rest => rest.tags (position + t.text.bytes)
  | inline key groups rest =>
    let groupsAt := position + standard.opener.bytes + key.text.bytes
    let stop := groupsAt + groups.print.bytes + standard.closer.bytes
    .cons ⟨.inline, ⟨key.text, groups.texts⟩, position, stop⟩ (groups.tags groupsAt)
      (rest.tags stop)
  | block key header body more endKey rest =>
    let headerAt := position + standard.blockOpener.bytes + key.text.bytes
    let bodyAt := headerAt + header.print.bytes + standard.closer.bytes
    let moreAt := bodyAt + body.print.bytes
    let stop := moreAt + more.print.bytes + standard.blockCloser.bytes + endKey.text.bytes +
      standard.closer.bytes
    .cons ⟨.block, ⟨key.text, header.texts ++ (body.texts :: more.texts)⟩, position, stop⟩
      (header.tags headerAt ++ (body.tags bodyAt ++ more.tags moreAt)) (rest.tags stop)

def Group.tags (position : Nat) : Group → Forest Tag
  | .last value => value.tags position
  | .more value rest =>
    value.tags position ++ rest.tags (position + value.print.bytes + standard.subSep.bytes)

def Groups.tags (position : Nat) : Groups → Forest Tag
  | .nil => .nil
  | .cons group rest =>
    let groupAt := position + standard.sep.bytes
    group.tags groupAt ++ rest.tags (groupAt + group.print.bytes)

end

end Document

end TagMarkup
