import TagMarkup.Proofs.Markup.OneTag
import TagMarkup.Proofs.Markup.Standard
import TagMarkup.Proofs.Markup.Writing
import TagMarkup.Proofs.Tag.Excerpts
import TagMarkup.Proofs.Tag.Splitting

/-! The tags nested in a tag that is read alone. Its header was read among values and its body up
to a block close, but each of them can be read as a text of its own, too, and then has the same
tags. So the splitting finds these tags and keeps them, whatever the separators are: each of them
stands in just one of the values, as it is written (`SingleTag.keeps_nested`). -/

namespace TagMarkup

namespace Forest

universe u v

variable {α : Type u} {β : Type v} {lo hi : Nat} {f : Forest Tag} {tag : Tag}

theorem toList_map (t : α → β) (f : Forest α) : (f.map t).toList = f.toList.map t := by
  induction f with
  | nil => rfl
  | cons a inner rest ihi ihr => simp [map, toList, ihi, ihr]

theorem Nested.of_mem (h : f.Nested lo hi) (ht : tag ∈ f.toList) :
    lo ≤ tag.start ∧ tag.start < tag.stop ∧ tag.stop ≤ hi := by
  induction f generalizing lo hi with
  | nil => cases ht
  | cons first inner rest ihi ihr =>
    have hlt := h.start_lt_stop
    obtain ⟨hlo, hinner, hrest⟩ := h
    have hle := hrest.le
    simp only [toList, List.mem_cons, List.mem_append] at ht
    rcases ht with rfl | ht | ht
    · exact ⟨hlo, hlt, hle⟩
    · have hin := ihi hinner ht
      omega
    · have hin := ihr hrest ht
      omega

end Forest

/-- The separators of the cuts, with nothing for one that is missing. -/
def Cuts.mark (c : Cuts) (level : Level) : Text := (c.mark? level).getD []

theorem Cuts.markedBy_mark (c : Cuts) : c.MarkedBy c.mark := c.markedBy_getD fun _ => []

/-- The values of a text stand one behind another in it. -/
theorem excerpts_splitGroups (d : Delimiters) (c : Cuts) (e : Excerpt) :
    e.Parts (Groups.excerpts c.mark e.start (splitGroups d c e.text)) := by
  have hparts := Groups.excerpts_parts c.mark e.start (topLevelPieces d c e.text)
  rwa [topLevelPieces_text c.markedBy_mark] at hparts

/-- The tags of a text that is a part of another one, where they stand in that one. A text that
cannot be read has none. -/
def Excerpt.tags (d : Delimiters) (e : Excerpt) : List Tag :=
  match Outline.ofText d e.text with
  | .ok o => o.tags.toList.map (.shift e.start)
  | .error _ => []

namespace Markup

variable {d : Delimiters} {c : Cuts} {after : Text} {m header : Markup} {start : Nat} {tag : Tag}

theorem tags_freed (position : Nat) (m : Markup) :
    (m.freed d).tags d position = m.tags d position := by
  induction m generalizing position with
  | done => rfl
  | text t rest ih | sep level rest ih => rw [freed, tags_prepend, ih, tags]
  | inline key header rest _ ih => rw [freed, tags, tags, ih]
  | block key header body endKey rest _ _ ih => rw [freed, tags, tags, ih]

/-- If the opener begins in front of free text and what follows, it begins in front of the text
itself, unless there is none. -/
theorem Valid.opener_begins (h : Valid d .free after m) (hp : d.opener <+: m.source d ++ after) :
    m.source d = [] ∨ d.opener <+: m.source d := by
  refine h.free_induction (motive := fun m => d.opener <+: m.source d ++ after →
    m.source d = [] ∨ d.opener <+: m.source d) (fun _ => .inl rfl) ?text ?tag hp
  case text =>
    intro t rest nonempty ends _ _ hp
    rw [source, List.append_assoc] at hp
    exact absurd hp (ends.clear [] t rfl nonempty _ (List.mem_singleton_self _))
  case tag =>
    intro one rest hone _ _ _ _
    rw [source_append]
    exact .inr (hone.opener_begins.trans (List.prefix_append _ _))

/-- Free text is valid without what follows. -/
theorem Valid.alone (h : Valid d .free after m) : Valid d .free [] m := by
  refine h.free_induction (.done _ _) ?text ?tag
  case text =>
    intro t rest nonempty ends behind ih
    refine .text nonempty ?_ ih
    rw [List.append_nil]
    refine ends.cut fun mark hmark hp => ?_
    rw [List.mem_singleton.1 hmark] at hp ⊢
    exact behind.opener_begins hp
  case tag =>
    intro one rest hone hvalid _ ih
    exact (hone.valid hvalid).append ih

/-- Cut outside its tags, free text has each of them in one value. -/
theorem covers_freePieces (c : Cuts) (start : Nat) (m : Markup)
    (ht : tag ∈ (m.tags d start).toList) :
    Excerpt.Covers (Groups.excerpts c.mark start (Groups.ofPieces (m.freePieces d c)).toList)
      tag.start tag.stop := by
  -- a tag in front is kept, with those inside it
  have htag {one rest : Markup} {start : Nat} (hone : one.IsTag)
      (ht : tag ∈ ((one ++ rest).tags d start).toList)
      (ih : ∀ start, tag ∈ (rest.tags d start).toList → Excerpt.Covers
        (Groups.excerpts c.mark start (Groups.ofPieces (rest.freePieces d c)).toList)
        tag.start tag.stop) : Excerpt.Covers (Groups.excerpts c.mark start
          (Groups.ofPieces (.kept (one.source d) :: rest.freePieces d c)).toList)
        tag.start tag.stop := by
    rw [tags_append, Forest.toList_append] at ht
    rcases List.mem_append.1 ht with ht | ht
    · have hin := (tags_nested start one).of_mem ht
      obtain ⟨e, he, hstart, hstop⟩ :=
        Groups.covers_kept c.mark start (one.source d) (rest.freePieces d c)
      exact ⟨e, he, by omega, by omega⟩
    · refine Groups.covers_append [.kept (one.source d)] (ih _ ?_)
      simpa [Piece.text] using ht
  induction m generalizing start with
  | done => cases ht
  | text t rest ih =>
    refine Groups.covers_append (c.pieces t) (ih _ ?_)
    rwa [Cuts.pieces_text c.markedBy_mark]
  | sep level rest ih =>
    refine Groups.covers_append [.kept (d.sepOf level)] (ih _ ?_)
    simpa [tags, Piece.text] using ht
  | inline key header rest _ ih =>
    exact htag (.inline key header) (by simpa using ht) ih
  | block key header body endKey rest _ _ ih =>
    exact htag (.block key header body endKey) (by simpa using ht) ih

/-- The tags of a part that is valid markup are those of the markup. -/
theorem Valid.tags_excerpt (h : Valid d .free [] m) (start : Nat) :
    Excerpt.tags d ⟨start, m.source d⟩ = (m.tags d start).toList := by
  rw [Excerpt.tags, h.outline]
  show (m.tags d 0).toList.map (Tag.shift start) = _
  rw [← Forest.toList_map, ← tags_shift, Nat.add_zero]

/-- Every tag of a text that can be read alone stands in one of its values. -/
theorem Valid.covers (h : Valid d .free [] m) (c : Cuts)
    (ht : tag ∈ Excerpt.tags d ⟨start, m.source d⟩) :
    Excerpt.Covers (Groups.excerpts c.mark start (splitGroups d c (m.source d)))
      tag.start tag.stop := by
  rw [h.tags_excerpt] at ht
  rw [h.splitGroups_eq]
  exact covers_freePieces c start m ht

theorem Valid.exists_slice (h : Valid d .free [] m) (ht : tag ∈ (m.tags d 0).toList) :
    ∃ slice : Text, slice ≠ [] ∧ Excerpt.Contains ⟨0, m.source d⟩ ⟨tag.start, slice⟩ ∧
      tag.stop = tag.start + slice.bytes := by
  have hlt := ((tags_nested 0 m).of_mem ht).2.1
  obtain ⟨j, hj⟩ := List.mem_iff_getElem?.1 ht
  obtain ⟨parent, children, hnode⟩ := Outline.node?_of_toList (o := ⟨0, m.tags d 0⟩) hj
  obtain ⟨i, path, tag', inside, hfind, htag, -⟩ := Outline.exists_tag_of_node? hnode
  obtain rfl : tag = tag' := Option.some.inj htag
  obtain ⟨one, hone, -, hwithin, htags⟩ := h.hasTag hfind
  have hstop := hone.stop_eq htags
  exact ⟨one.source d, Text.bytes_pos.1 (by omega), hwithin.source, hstop⟩

theorem IsHeader.tags_eq (hshape : header.IsHeader) (h : Valid d .values after header)
    (hd : d.OpenerApart) (position : Nat) : (header.tags d position).toList =
      ((header.values? d).toList.map fun values => ⟨position + d.sep.bytes, values⟩).flatMap
        (Excerpt.tags d) := by
  match header, hshape with
  | .done, _ => rfl
  | .sep .group items, _ =>
    cases h with
    | sep _ behind =>
    have hitems := (behind.freed rfl hd).tags_excerpt (position + d.sep.bytes)
    rw [source_freed, tags_freed] at hitems
    simp [values?, hitems, tags, Delimiters.sepOf]

theorem IsHeader.exists_valid (hshape : header.IsHeader) (h : Valid d .values after header)
    (hd : d.OpenerApart) {values : Text} (hvalues : header.values? d = some values) :
    ∃ m, Valid d .free [] m ∧ m.source d = values := by
  match header, hshape with
  | .done, _ => cases hvalues
  | .sep .group items, _ =>
    cases hvalues
    cases h with
    | sep _ behind => exact ⟨items.freed d, behind.freed rfl hd, source_freed items⟩

end Markup

namespace SingleTag

/-- The header and the body of a tag, where they stand in its text. -/
def partExcerpts (d : Delimiters) (read : SingleTag) : List Excerpt :=
  (read.header?.toList.map fun header =>
      ⟨(d.openerOf read.kind).bytes + read.key.bytes + d.sep.bytes, header⟩) ++
    (read.body?.toList.map fun body =>
      ⟨(d.head read.kind read.key ((read.header?.map (d.sep ++ ·)).getD [])).bytes, body⟩)

/-- The values of a tag, where they stand in its text. -/
def valueExcerpts (d : Delimiters) (rule : SplitRule) (read : SingleTag) : List Excerpt :=
  (read.partExcerpts d).flatMap fun part =>
    Groups.excerpts (rule.cuts d).mark part.start (splitGroups d (rule.cuts d) part.text)

variable {d : Delimiters} {text : Text} {read : SingleTag} {tag : Tag} {inner : Forest Tag}
  {one : Markup}

theorem map_text_partExcerpts (d : Delimiters) (read : SingleTag) :
    (read.partExcerpts d).map Excerpt.text = read.parts := by
  simp [partExcerpts, parts, Function.comp_def]

theorem map_text_valueExcerpts (d : Delimiters) (rule : SplitRule) (read : SingleTag) :
    (read.valueExcerpts d rule).map Excerpt.text = (read.call d rule).groups.flatten := by
  rw [groups_call, ← map_text_partExcerpts d, valueExcerpts]
  induction read.partExcerpts d with
  | nil => rfl
  | cons part rest ih => simp [Groups.map_text_excerpts, ih]

/-- The parts of a tag stand in its text. -/
theorem Portrays.partExcerpts (h : read.Portrays d text tag) :
    Excerpt.Parts ⟨0, text⟩ (read.partExcerpts d) := by
  obtain ⟨ending, hending, htext⟩ := h.parts
  constructor
  · intro part hpart
    rcases List.mem_append.1 hpart with hpart | hpart
    · obtain ⟨header, hheader, rfl⟩ := List.mem_map.1 hpart
      rw [Option.mem_toList.1 hheader] at htext
      refine ⟨d.openerOf read.kind ++ (read.key ++ d.sep), d.closer ++ ending, ?_, ?_⟩
      · simp [htext]
      · simp [Nat.add_assoc]
    · obtain ⟨body, hbody, rfl⟩ := List.mem_map.1 hpart
      rw [Option.mem_toList.1 hbody] at hending
      obtain ⟨endKey, -, rfl⟩ := hending
      refine ⟨_, d.blockCloser ++ (endKey ++ d.closer), ?_, (Nat.zero_add _).symm⟩
      simp [htext, Delimiters.head]
  · refine List.pairwise_append.2 ⟨?_, ?_, ?_⟩
    · cases read.header? <;> simp
    · cases read.body? <;> simp
    · intro part hpart other hother
      obtain ⟨header, hheader, rfl⟩ := List.mem_map.1 hpart
      obtain ⟨body, hbody, rfl⟩ := List.mem_map.1 hother
      rw [Option.mem_toList.1 hheader]
      simp [Excerpt.stop, Delimiters.head]
      omega

/-- The parts of a tag are valid markup of their own, and have the tags that are nested in it. -/
theorem parts_of_isTag (hone : one.IsTag) (h : Markup.Valid d .free [] one)
    (hd : d.OpenerApart) (ht : one.tags d 0 = .tree tag inner)
    (hread : ofText d (one.source d) = .ok read) :
    (∀ part ∈ read.parts, ∃ m, Markup.Valid d .free [] m ∧ m.source d = part) ∧
      inner.toList = (read.partExcerpts d).flatMap (Excerpt.tags d) := by
  cases hone with
  | inline key header =>
    rw [h.single_inline] at hread
    cases hread
    cases ht
    cases h with
    | inline heads inside _ =>
    constructor
    · intro part hpart
      have hvalues : header.values? d = some part := by simpa [parts] using hpart
      exact heads.shape.exists_valid inside hd hvalues
    · rw [heads.shape.tags_eq inside hd]
      simp [partExcerpts, kind]
  | block key header body endKey =>
    rw [h.single_block] at hread
    cases hread
    cases ht
    cases h with
    | block heads inside within _ _ =>
    constructor
    · intro part hpart
      rcases List.mem_append.1 hpart with hpart | hpart
      · exact heads.shape.exists_valid inside hd (Option.mem_toList.1 hpart)
      · obtain rfl : part = body.source d := by simpa using hpart
        exact ⟨body, within.alone, rfl⟩
    · have hbody := within.alone.tags_excerpt (d.head .block key (header.source d)).bytes
      obtain ⟨hsource, -⟩ := heads.shape.join_groups (d := d)
      rw [Forest.toList_append, heads.shape.tags_eq inside hd, Nat.zero_add, Nat.zero_add, ← hbody,
        hsource]
      simp [partExcerpts, kind]

theorem exists_isTag_of_ofText (hread : ofText d text = .ok read) : ∃ (one : Markup) (tag : Tag)
    (inner : Forest Tag), one.IsTag ∧ Markup.Valid d .free [] one ∧ one.source d = text ∧
      one.tags d 0 = .tree tag inner := by
  obtain ⟨hfault, -⟩ := whole_of_ofText hread
  have htokenize : tokenize d text = .ok (Lexing.ofText d text).tokens := by
    rw [tokenize, Lexing.result, hfault]
  obtain ⟨m, hvalid, rfl, -⟩ := Markup.exists_of_tokenize htokenize
  obtain ⟨tag, inner, htags, hstart, hstop⟩ := hvalid.oneTag hread
  obtain ⟨one, hone, hvalid', hsource, htags'⟩ := hvalid.exists_isTag htags hstart hstop
  exact ⟨one, tag, inner, hone, hvalid', hsource, htags'⟩

/-- The header and the body of a tag can be read alone, and whatever the separators of its values
are, a tag that is nested in it is in one of them. -/
structure KeepsNested (read : SingleTag) (d : Delimiters) (rule : SplitRule) (text : Text) :
    Prop where
  /-- So neither of them is split as a text that cannot be read. -/
  reads : ∀ part ∈ read.parts, ∃ tokens, tokenize d part = .ok tokens
  parts : (read.partExcerpts d).map Excerpt.text = read.parts ∧
    Excerpt.Parts ⟨0, text⟩ (read.partExcerpts d)
  values : (read.valueExcerpts d rule).map Excerpt.text = (read.call d rule).groups.flatten ∧
    Excerpt.Parts ⟨0, text⟩ (read.valueExcerpts d rule)
  /-- The tags inside the tag are those of its header and its body. Each is the slice of the text
  that it stands in, and just one value holds this slice. -/
  nested : ∃ tag inner, Outline.ofText d text = .ok ⟨text.bytes, .tree tag inner⟩ ∧
    inner.toList = (read.partExcerpts d).flatMap (Excerpt.tags d) ∧
    ∀ tag ∈ inner.toList, ∃ slice, text.slice? tag.start tag.stop = some slice ∧
      ∃! i : Nat, ∃ value : Excerpt, (read.valueExcerpts d rule)[i]? = some value ∧
        value.Contains ⟨tag.start, slice⟩

theorem keepsNested_of_openerApart (hd : d.OpenerApart) (rule : SplitRule)
    (hread : ofText d text = .ok read) : read.KeepsNested d rule text := by
  obtain ⟨one, tag, inner, hone, hvalid, rfl, htags⟩ := exists_isTag_of_ofText hread
  have hparts := (portrays_of_isTag hone hvalid htags hread).partExcerpts
  have hvalues : Excerpt.Parts ⟨0, one.source d⟩ (read.valueExcerpts d rule) :=
    hparts.flatMap fun part _ => excerpts_splitGroups d (rule.cuts d) part
  obtain ⟨hreads, hinner⟩ := parts_of_isTag hone hvalid hd htags hread
  have houtline := hvalid.outline
  rw [htags] at houtline
  refine ⟨fun part hpart => ?_, ⟨map_text_partExcerpts d read, hparts⟩,
    ⟨map_text_valueExcerpts d rule read, hvalues⟩, tag, inner, houtline, hinner,
    fun nested hnested => ?_⟩
  · obtain ⟨m, hm, rfl⟩ := hreads part hpart
    exact ⟨_, hm.tokenize⟩
  · have hmem : nested ∈ (one.tags d 0).toList := by
      rw [htags]
      simp [Forest.tree, Forest.toList, hnested]
    obtain ⟨slice, hne, hcontains, hstop⟩ := hvalid.exists_slice hmem
    refine ⟨slice, ?_, hvalues.existsUnique_contains hcontains hne ?_⟩
    · rw [hstop]
      exact hcontains.slice?
    · -- the part that the tag is in has a value that the tag is in
      rw [hinner] at hnested
      obtain ⟨⟨start, part⟩, hpart, hnested⟩ := List.mem_flatMap.1 hnested
      have hpart' : part ∈ read.parts := by
        rw [← map_text_partExcerpts d]
        exact List.mem_map_of_mem hpart
      obtain ⟨m, hm, rfl⟩ := hreads part hpart'
      obtain ⟨value, hvalue, hfirst, hlast⟩ := hm.covers (rule.cuts d) hnested
      rw [hstop] at hlast
      exact ⟨value, List.mem_flatMap.2 ⟨_, hpart, hvalue⟩, hfirst, hlast⟩

/-- In a template with the standard delimiters no rule for the values of a tag cuts the tags that
are nested in it. -/
theorem keeps_nested (rule : SplitRule) (hread : ofText .standard text = .ok read) :
    read.KeepsNested .standard rule text :=
  keepsNested_of_openerApart Delimiters.standard_openerApart rule hread

theorem keeps_nested_brackets :
    let text : Text := "[[#a::é[y[[b::[z]]]]z[[c]][w[[/a]]".toList
    let rule : SplitRule := .custom (some ['[']) (some ['z'])
    let read : SingleTag := ⟨['a'], some "é[y[[b::[z]]".toList, some "z[[c]][w".toList, text⟩
    ofText .standard text = .ok read ∧ read.KeepsNested .standard rule text := by
  intro text rule read
  have hread : ofText .standard text = .ok read := by decide +kernel
  exact ⟨hread, keeps_nested rule hread⟩

end SingleTag

end TagMarkup
