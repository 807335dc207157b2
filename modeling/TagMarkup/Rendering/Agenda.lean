import TagMarkup.Outline.Reading

/-! Agendas: the regions of a text that still need an answer, one inside another. -/

namespace TagMarkup

/-- What a region holds: a tag, with its path if it comes from the template, or an answer with
several tags, of which only the tags inside it are asked about. -/
inductive RegionKind
  | tag (path? : Option Path)
  | group
  deriving DecidableEq, Repr

/-- A region between two byte offsets of the text at the start of a pass. -/
structure Region where
  start : Nat
  stop : Nat
  kind : RegionKind
  deriving DecidableEq, Repr

abbrev Agenda := Forest Region

namespace Agenda

/-- The regions of the template's tags. `around` is the path of the tag around them, and `index`
the place of the first one among its siblings. -/
def ofTags (around : Path) (index : Nat) : Forest Tag → Agenda
  | .nil => .nil
  | .cons tag inner rest =>
    .cons ⟨tag.start, tag.stop, .tag (some (around ++ [index]))⟩
      (ofTags (around ++ [index]) 0 inner) (ofTags around (index + 1) rest)

def ofOutline (o : Outline) : Agenda := ofTags [] 0 o.tags

/-- The regions of the tags of an answer that stands at the offset `base`. -/
def ofAnswerTags (base : Nat) (tags : Forest Tag) : Agenda :=
  tags.map fun tag => ⟨base + tag.start, base + tag.stop, .tag none⟩

/-- What a pending answer at the offset `base` leaves to do: the tag that it is, or a group of the
tags in it. Text without tags leaves nothing, nor does text that cannot be read. -/
def ofAnswer (d : Delimiters) (base : Nat) (text : Text) : Agenda :=
  match Outline.ofText d text with
  | .error _ => .nil
  | .ok outline =>
    let regions := ofAnswerTags base outline.tags
    let stop := base + text.bytes
    match regions with
    | .nil => .nil
    | .cons region _ .nil =>
      if region.start = base ∧ region.stop = stop then regions
      else .tree ⟨base, stop, .group⟩ regions
    | _ => .tree ⟨base, stop, .group⟩ regions

end Agenda

end TagMarkup
