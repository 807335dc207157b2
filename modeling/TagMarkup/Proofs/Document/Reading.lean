import TagMarkup.Proofs.Document

/-! Reading a document as it was printed. A document is markup, in which neighbouring texts are one
text. Inside of a tag that markup has the separators of the tag; in the body of a block they are
part of the text, and are found again when the body is split. -/

namespace TagMarkup

open Delimiters (standard)

theorem PlainText.spared (t : PlainText) (context : Context) : context.Spares t.text := by
  intro mark hmark c hc hmem
  obtain ⟨hopen, hclose, hsep, hsubSep⟩ := t.plain c hmem
  obtain ⟨r, rfl⟩ := Context.exists_role hmark
  cases r with
  | opener => exact hopen (Option.some.inj hc).symm
  | closer => exact hclose (Option.some.inj hc).symm
  | sep => exact hsep (Option.some.inj hc).symm
  | subSep => exact hsubSep (Option.some.inj hc).symm

namespace Document

open Markup

/-- A separator in front of markup. Only among the values of a tag is it more than text. -/
def separate (context : Context) (level : Level) (m : Markup) : Markup :=
  match context with
  | .values => .sep level m
  | .free => m.behind (standard.sepOf level)

mutual

/-- The document as markup, with the markup `m` behind it. -/
def markup (m : Markup) : Document → Markup
  | nil => m
  | text t rest => (rest.markup m).behind t.text
  | inline key groups rest => .inline key.text (groups.markup .values .done) (rest.markup m)
  | block key header body more endKey rest =>
    .block key.text (header.markup .values .done) (body.markup .free (more.markup .free .done))
      endKey.text (rest.markup m)

def Group.markup (context : Context) (m : Markup) : Group → Markup
  | .last value => value.markup m
  | .more value rest => value.markup (separate context .value (rest.markup context m))

def Groups.markup (context : Context) (m : Markup) : Groups → Markup
  | .nil => m
  | .cons group rest => separate context .group (group.markup context (rest.markup context m))

end

@[simp] theorem source_separate (context : Context) (level : Level) (m : Markup) :
    (separate context level m).source standard = standard.sepOf level ++ m.source standard := by
  cases context with
  | values => rfl
  | free => exact source_behind standard _ m

@[simp] theorem tags_separate (context : Context) (level : Level) (m : Markup) (position : Nat) :
    (separate context level m).tags standard position =
      m.tags standard (position + (standard.sepOf level).bytes) := by
  cases context with
  | values => rfl
  | free => exact tags_behind standard _ m position

mutual

@[simp] theorem source_markup (m : Markup) :
    (doc : Document) → (doc.markup m).source standard = doc.print ++ m.source standard
  | nil => rfl
  | text t rest => by
    simp [markup, print, source_markup m rest]
  | inline key groups rest => by
    simp [markup, print, source, Delimiters.head, Delimiters.openerOf,
      Groups.source_markup .values .done groups, source_markup m rest]
  | block key header body more endKey rest => by
    simp [markup, print, source, Delimiters.head, Delimiters.ending, Delimiters.openerOf,
      Groups.source_markup .values .done header, Groups.source_markup .free .done more,
      Group.source_markup .free (more.markup .free .done) body, source_markup m rest]

@[simp] theorem Group.source_markup (context : Context) (m : Markup) :
    (group : Group) → (group.markup context m).source standard = group.print ++ m.source standard
  | .last value => by
    simp [Group.markup, Group.print, Document.source_markup m value]
  | .more value rest => by
    simp [Group.markup, Group.print, Delimiters.sepOf,
      Document.source_markup (separate context .value (rest.markup context m)) value,
      Group.source_markup context m rest]

@[simp] theorem Groups.source_markup (context : Context) (m : Markup) :
    (groups : Groups) →
      (groups.markup context m).source standard = groups.print ++ m.source standard
  | .nil => rfl
  | .cons group rest => by
    simp [Groups.markup, Groups.print, Delimiters.sepOf,
      Group.source_markup context (rest.markup context m) group,
      Groups.source_markup context m rest]

end

/-! What the values are. A document is one value, and its own separators are those of the groups
around it. -/

theorem ofPieces_markup (m : Markup) : (doc : Document) →
    TagMarkup.Groups.ofPieces ((doc.markup m).pieces standard) =
      TagMarkup.Groups.ofPieces (.kept doc.print :: m.pieces standard)
  | nil => rfl
  | text t rest => by
    rw [markup, ofPieces_behind, TagMarkup.Groups.ofPieces_kept, ofPieces_markup m rest]
    simp [print]
  | inline key groups rest => by
    rw [markup, pieces, TagMarkup.Groups.ofPieces_kept, ofPieces_markup m rest]
    simp [print, source, Delimiters.head, Delimiters.openerOf]
  | block key header body more endKey rest => by
    rw [markup, pieces, TagMarkup.Groups.ofPieces_kept, ofPieces_markup m rest]
    simp [print, source, Delimiters.head, Delimiters.ending, Delimiters.openerOf]

theorem Group.ofPieces_markup {m : Markup} {behind : List (List Text)}
    (hm : TagMarkup.Groups.ofPieces (m.pieces standard) = ⟨[], [], behind⟩) : (group : Group) →
    (TagMarkup.Groups.ofPieces ((group.markup .values m).pieces standard)).toList =
      group.texts :: behind
  | .last value => by
    rw [Group.markup, Document.ofPieces_markup, TagMarkup.Groups.ofPieces_kept, hm]
    simp [TagMarkup.Groups.toList, Group.texts]
  | .more value rest => by
    have hrest := Group.ofPieces_markup hm rest
    simp only [TagMarkup.Groups.toList, List.cons.injEq] at hrest
    rw [Group.markup, Document.ofPieces_markup, separate, pieces]
    simp [TagMarkup.Groups.toList, Group.texts, hrest]

theorem Groups.ofPieces_markup : (groups : Groups) →
    TagMarkup.Groups.ofPieces ((groups.markup .values .done).pieces standard) =
      ⟨[], [], groups.texts⟩
  | .nil => rfl
  | .cons group rest => by
    rw [Groups.markup, separate, pieces, TagMarkup.Groups.ofPieces_cut_group,
      Group.ofPieces_markup (Groups.ofPieces_markup rest), Groups.texts]

theorem Groups.isHeader_markup : (groups : Groups) → (groups.markup .values .done).IsHeader
  | .nil => trivial
  | .cons _ _ => trivial

theorem valid_separate {context : Context} {after : Text} {m : Markup}
    (h : Valid standard context after m) (ha : Ends context after) (level : Level) :
    Valid standard context after (separate context level m) := by
  cases context with
  | values => exact .sep level h
  | free => exact h.behind (Context.spares_free (by cases level <;> decide)) ha

theorem ends_closer : Ends .values standard.closer :=
  .inr ⟨standard.closer, by simp [Context.marks], List.prefix_rfl⟩

theorem ends_blockCloser : Ends .free standard.blockCloser :=
  .inr ⟨standard.opener, by simp [Context.marks], List.prefix_append _ _⟩

theorem leadingKey_closer (key : Key) : leadingKey (key.text ++ standard.closer) = key.text :=
  key.leadingKey_append (by decide) (by decide) (by decide) _

mutual

theorem valid_markup {context : Context} {after : Text} {m : Markup}
    (ha : Ends context after) (h : Valid standard context after m) :
    (doc : Document) → Valid standard context after (doc.markup m)
  | nil => h
  | text t rest => (valid_markup ha h rest).behind (t.spared context) ha
  | inline key groups rest =>
    .inline (heads_standard .inline key groups.isHeader_markup)
      (Groups.valid_markup ends_closer (.done _ _) groups) (valid_markup ha h rest)
  | block key header body more endKey rest =>
    .block (heads_standard .block key header.isHeader_markup)
      (Groups.valid_markup ends_closer (.done _ _) header)
      (Group.valid_markup ends_blockCloser
        (Groups.valid_markup ends_blockCloser (.done _ _) more) body)
      (leadingKey_closer endKey) (valid_markup ha h rest)

theorem Group.valid_markup {context : Context} {after : Text} {m : Markup}
    (ha : Ends context after) (h : Valid standard context after m) :
    (group : Group) → Valid standard context after (group.markup context m)
  | .last value => Document.valid_markup ha h value
  | .more value rest =>
    Document.valid_markup ha (valid_separate (Group.valid_markup ha h rest) ha .value) value

theorem Groups.valid_markup {context : Context} {after : Text} {m : Markup}
    (ha : Ends context after) (h : Valid standard context after m) :
    (groups : Groups) → Valid standard context after (groups.markup context m)
  | .nil => h
  | .cons group rest =>
    valid_separate (Group.valid_markup ha (Groups.valid_markup ha h rest) group) ha .group

end

/-- The body of a block is split where the groups in it have their separators. -/
theorem templateGroups_body (body : Group) (more : Groups) :
    templateGroups standard (body.print ++ more.print) = body.texts :: more.texts := by
  have hmore : Valid standard .values [] (more.markup .values .done) :=
    Groups.valid_markup (.inl rfl) (.done _ _) more
  have hsplit := (Group.valid_markup (.inl rfl) hmore body).templateGroups_eq
    Delimiters.standard_openerApart
  rw [Group.ofPieces_markup more.ofPieces_markup] at hsplit
  simpa [source] using hsplit

mutual

theorem tags_markup (m : Markup) (position : Nat) : (doc : Document) →
    (doc.markup m).tags standard position =
      doc.tags position ++ m.tags standard (position + doc.print.bytes)
  | nil => rfl
  | text t rest => by
    simp [markup, tags, print, tags_markup m _ rest, Nat.add_assoc]
  | inline key groups rest => by
    have hgroups : (groups.markup .values .done).groups standard = groups.texts := by
      rw [Markup.groups, groups.ofPieces_markup]
    rw [markup, Markup.tags, hgroups, Groups.tags_markup, tags_markup m _ rest]
    simp [tags, print, source, Markup.tags, Delimiters.head, Delimiters.openerOf, Nat.add_assoc]
  | block key header body more endKey rest => by
    have hgroups : (header.markup .values .done).groups standard = header.texts := by
      rw [Markup.groups, header.ofPieces_markup]
    have hbody := templateGroups_body body more
    rw [markup, Markup.tags, hgroups, Groups.tags_markup, Group.tags_markup, Groups.tags_markup,
      tags_markup m _ rest]
    simp [tags, print, source, Markup.tags, Delimiters.head, Delimiters.ending,
      Delimiters.openerOf, hbody, Nat.add_assoc]

theorem Group.tags_markup (context : Context) (m : Markup) (position : Nat) : (group : Group) →
    (group.markup context m).tags standard position =
      group.tags position ++ m.tags standard (position + group.print.bytes)
  | .last value => Document.tags_markup m position value
  | .more value rest => by
    rw [Group.markup, Document.tags_markup, tags_separate, Group.tags_markup]
    simp [Group.tags, Group.print, Delimiters.sepOf, Forest.append_assoc, Nat.add_assoc]

theorem Groups.tags_markup (context : Context) (m : Markup) (position : Nat) : (groups : Groups) →
    (groups.markup context m).tags standard position =
      groups.tags position ++ m.tags standard (position + groups.print.bytes)
  | .nil => rfl
  | .cons group rest => by
    rw [Groups.markup, tags_separate, Group.tags_markup, Groups.tags_markup]
    simp [Groups.tags, Groups.print, Delimiters.sepOf, Forest.append_assoc, Nat.add_assoc]

end

/-- A document is read as it was printed. -/
theorem outline_print (doc : Document) :
    Outline.ofText standard doc.print = .ok ⟨doc.print.bytes, doc.tags 0⟩ := by
  have hread := (valid_markup (.inl rfl) (.done .free []) doc).outline
  rw [tags_markup, source_markup] at hread
  simpa [source, Markup.tags] using hread

end Document

end TagMarkup
