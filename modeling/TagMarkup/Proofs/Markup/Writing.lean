import TagMarkup.Proofs.Markup.Joining
import TagMarkup.Proofs.Markup.Tree
import TagMarkup.Proofs.Outline.Paths

/-! Tags written again from what they say. The outline of a text loses nothing of its tags: the
slice of the text that a tag stands in is made up of the key and the values of the tag, its
delimiters and, behind the body of a block tag, a second key, which is the only thing that a tag
does not say (`Outline.written_of_node?`). -/

namespace TagMarkup

/-- The header of a tag with the groups of values, which is empty if there are none. -/
def Delimiters.headerOf (d : Delimiters) (groups : List (List Text)) : Text :=
  if groups = [] then [] else d.sep ++ Groups.join d.sep d.subSep groups

/-- The text writes a tag of the kind that says as much. The groups of a block tag are those of its
header and, behind them, one or more of its body. -/
inductive Call.Written (d : Delimiters) : TagKind → Call → Text → Prop
  | inline (key : Text) (groups : List (List Text)) :
    Written d .inline ⟨key, groups⟩ (d.head .inline key (d.headerOf groups))
  | block (key : Text) (header body : List (List Text)) (endKey : Text) (hasBody : body ≠ [])
    (isKey : leadingKey (endKey ++ d.closer) = endKey) :
    Written d .block ⟨key, header ++ body⟩ (d.head .block key (d.headerOf header) ++
      (Groups.join d.sep d.subSep body ++ d.ending endKey))

namespace Markup

variable {d : Delimiters} {context : Context} {after : Text} {header one : Markup}
  {position : Nat} {tag : Tag} {inside : Forest Tag}

theorem IsHeader.headerOf_groups (h : header.IsHeader) :
    d.headerOf (header.groups d) = header.source d := by
  obtain ⟨hsource, hnone, hsome⟩ := h.join_groups (d := d)
  rw [hsource, Delimiters.headerOf]
  cases hvalues : header.values? d with
  | none =>
    rw [if_pos (hnone hvalues)]
    rfl
  | some values =>
    obtain ⟨hne, hjoin⟩ := hsome values hvalues
    rw [if_neg hne, hjoin]
    rfl

theorem IsTag.written (h : one.IsTag) (hvalid : Valid d context after one)
    (ht : one.tags d position = .tree tag inside) :
    tag.call.Written d tag.kind (one.source d) := by
  cases h with
  | inline key header =>
    cases hvalid with
    | inline heads _ _ =>
    cases ht
    have hwritten := Call.Written.inline (d := d) key (header.groups d)
    rw [heads.shape.headerOf_groups] at hwritten
    simpa [source] using hwritten
  | block key header body endKey =>
    cases hvalid with
    | block heads _ _ ending _ =>
    cases ht
    have hbody : templateGroups d (body.source d) ≠ [] := List.cons_ne_nil _ _
    have hwritten :=
      Call.Written.block (d := d) key (header.groups d) _ endKey hbody ending
    rw [heads.shape.headerOf_groups, join_templateGroups] at hwritten
    simpa [source] using hwritten

end Markup

namespace Outline

variable {d : Delimiters} {text : Text} {o : Outline} {n : Nat} {found : Node}

/-- Every node but the whole text is that of a tag, which a path leads to. -/
theorem exists_tag_of_node? (h : o.node? (n + 1) = some found) : ∃ i path tag inside,
    o.tags.find? i path = some (tag, inside) ∧ found.tag? = some tag ∧
      found.start = tag.start ∧ found.stop = tag.stop := by
  have hpath : (o.path? (n + 1)).isSome := by
    rw [isSome_path?, ← isSome_node?, h]
    rfl
  obtain ⟨path, hpath⟩ := Option.isSome_iff_exists.1 hpath
  have hnumber := path?_eq_some_iff.1 hpath
  cases path with
  | nil => cases hnumber
  | cons i path =>
    obtain ⟨tag, inside, hfind, -, hget, -⟩ := Forest.find?_of_number? hnumber
    obtain ⟨parent, children, hnode⟩ := node?_of_toList hget
    obtain rfl := Option.some.inj (hnode.symm.trans h)
    exact ⟨i, path, tag, inside, hfind, rfl, rfl, rfl⟩

/-- The slice of the text that a tag stands in can be written from what the tag says. -/
theorem written_of_node? (h : Outline.ofText d text = .ok o) (hn : o.node? (n + 1) = some found) :
    ∃ tag slice, found.tag? = some tag ∧ text.slice? found.start found.stop = some slice ∧
      tag.call.Written d tag.kind slice := by
  obtain ⟨i, path, tag, inside, hfind, htag, hstart, hstop⟩ := exists_tag_of_node? hn
  obtain ⟨m, hvalid, rfl, rfl⟩ := Markup.exists_of_outline h
  obtain ⟨one, hone, hvalid', hwithin, htags⟩ := hvalid.hasTag hfind
  refine ⟨tag, one.source d, htag, ?_, hone.written hvalid' htags⟩
  rw [hstart, hstop, hone.stop_eq htags]
  exact hwithin.slice?

theorem written_of_node?_block :
    let text : Text := "é[[#a::b||[[c::d]]::]]x::y[[/a]]".toList
    let groups : List (List Text) := [[['b'], "[[c::d]]".toList], [[]], [['x']], [['y']]]
    let outer : Tag := ⟨.block, ⟨['a'], groups⟩, 2, 33⟩
    let inner : Tag := ⟨.inline, ⟨['c'], [[['d']]]⟩, 11, 19⟩
    let o : Outline := ⟨33, .tree outer (.tree inner .nil)⟩
    Outline.ofText .standard text = .ok o ∧ o.node? 1 = some (node outer 0 [2]) ∧
      ∃ tag slice, (node outer 0 [2]).tag? = some tag ∧ text.slice? 2 33 = some slice ∧
        tag.call.Written .standard tag.kind slice := by
  intro text groups outer inner o
  have ho : Outline.ofText .standard text = .ok o := by decide +kernel
  have hn : o.node? (0 + 1) = some (node outer 0 [2]) := rfl
  exact ⟨ho, hn, written_of_node? ho hn⟩

end Outline

end TagMarkup
