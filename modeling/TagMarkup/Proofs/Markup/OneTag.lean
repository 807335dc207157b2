import TagMarkup.Proofs.Markup.Joining
import TagMarkup.Proofs.Markup.Parts
import TagMarkup.Proofs.Markup.Tree
import TagMarkup.Proofs.Tag.Rejection
import TagMarkup.Rendering.Agenda

/-! One tag read from a text of its own against the outline of that text. The reading succeeds when
the outline has one outermost tag and it spans the text; then both say the same, and the header and
the body of the one are what the values of the other are taken from (`agrees_outline`). -/

namespace TagMarkup

variable {d : Delimiters} {text : Text} {o : Outline} {tag : Tag}

/-- There is one node in the whole text, a tag that spans it. -/
def Outline.OneTag (o : Outline) (text : Text) (tag : Tag) : Prop :=
  ∃ found, o.inside 0 = [found] ∧ found.tag? = some tag ∧ found.start = 0 ∧
    found.stop = text.bytes

theorem Outline.oneTag_iff : o.OneTag text tag ↔
    (∃ inner, o.tags = .tree tag inner) ∧ tag.start = 0 ∧ tag.stop = text.bytes := by
  have hplaces := o.places_tags
  have hinside : o.inside 0 = (o.tags.numbers 1).filterMap o.node? := rfl
  unfold OneTag
  rw [hinside]
  generalize o.tags = tags at hplaces ⊢
  cases tags with
  | nil => simp [Forest.numbers, Forest.tree]
  | cons first inner rest =>
    rw [Forest.numbers, List.filterMap_cons_some hplaces.head]
    constructor
    · rintro ⟨found, hfound, htag, hstart, hstop⟩
      obtain ⟨rfl, hrest⟩ := List.cons.inj hfound
      obtain rfl := Option.some.inj htag
      have hnil : rest = .nil := by
        apply Forest.numbers_eq_nil.1
        rw [List.eq_nil_iff_forall_not_mem]
        intro n hn
        obtain ⟨-, -, found, hnode, -⟩ := hplaces.behind.of_mem_numbers hn
        have hnone := List.filterMap_eq_nil_iff.1 hrest n hn
        rw [hnode] at hnone
        cases hnone
      subst hnil
      exact ⟨⟨inner, rfl⟩, hstart, hstop⟩
    · rintro ⟨⟨inner', heq⟩, hstart, hstop⟩
      cases heq
      exact ⟨_, rfl, rfl, hstart, hstop⟩

/-- A pending answer keeps the region of the tag that it is, if it is one, and has no other region
around the tags in it. -/
theorem Agenda.ofAnswer_eq_tag (h : Outline.ofText d text = .ok o) (base : Nat) :
    (∃ region inner, ofAnswer d base text = .tree region inner ∧ region.kind ≠ .group) ↔
      ∃ tag, o.OneTag text tag := by
  simp only [ofAnswer, h, ofAnswerTags, Outline.oneTag_iff]
  cases o.tags with
  | nil => simp [Forest.map, Forest.tree]
  | cons tag inner rest =>
    cases rest with
    | nil =>
      simp only [Forest.map]
      split
      · next hspan =>
        refine ⟨fun _ => ⟨tag, ⟨inner, rfl⟩, by omega, by omega⟩, fun _ => ⟨_, _, rfl, by simp⟩⟩
      · next hspan =>
        constructor
        · rintro ⟨region, inner', heq, hkind⟩
          cases heq
          exact absurd rfl hkind
        · rintro ⟨tag', ⟨inner', heq⟩, hstart, hstop⟩
          cases heq
          exact absurd ⟨by omega, by omega⟩ hspan
    | cons second inner' rest =>
      simp only [Forest.map]
      constructor
      · rintro ⟨region, inner, heq, hkind⟩
        cases heq
        exact absurd rfl hkind
      · rintro ⟨tag', ⟨inner, heq⟩, -⟩
        cases heq

namespace Markup

variable {m one : Markup} {inner : Forest Tag}

/-- Markup whose only outermost tag spans its text is nothing but that tag. -/
theorem Valid.exists_isTag (h : Valid d .free [] m) (ht : m.tags d 0 = .tree tag inner)
    (hstart : tag.start = 0) (hstop : tag.stop = (m.source d).bytes) :
    ∃ one : Markup, one.IsTag ∧ Valid d .free [] one ∧ one.source d = m.source d ∧
      one.tags d 0 = .tree tag inner := by
  refine h.free_induction (motive := fun m => m.tags d 0 = .tree tag inner →
    tag.stop = (m.source d).bytes → ∃ one : Markup, one.IsTag ∧ Valid d .free [] one ∧
      one.source d = m.source d ∧ one.tags d 0 = .tree tag inner) ?done ?text ?tag ht hstop
  case done =>
    intro ht
    cases ht
  case text =>
    intro t rest hne _ _ _ ht
    -- the tag is behind the text
    have hnested := tags_nested (d := d) (0 + t.bytes) rest
    rw [tags] at ht
    rw [ht] at hnested
    have hlo := hnested.1
    have hpos := Text.bytes_pos.2 hne
    omega
  case tag =>
    intro one rest hone hvalid _ _ ht hstop
    obtain ⟨first, inside, htags, -, hfirst⟩ := hone.tags_eq (d := d) 0
    rw [tags_append, htags] at ht
    obtain ⟨rfl, rfl, -⟩ : first = tag ∧ inside = inner ∧ rest.tags d _ = .nil := by
      simpa [Forest.tree] using ht
    have hnil : rest.source d = [] := by
      rw [source_append, Text.bytes_append] at hstop
      exact Text.bytes_eq_zero.1 (by omega)
    exact ⟨one, hone, hvalid, by rw [source_append, hnil, List.append_nil], htags⟩

/-- A text that is read as one tag has the outline of one tag. -/
theorem Valid.oneTag (h : Valid d .free [] m) {read : SingleTag}
    (hread : SingleTag.ofText d (m.source d) = .ok read) : ∃ tag inner,
      m.tags d 0 = .tree tag inner ∧ tag.start = 0 ∧ tag.stop = (m.source d).bytes := by
  obtain ⟨-, hwhole⟩ := SingleTag.whole_of_ofText hread
  rw [h.lexing.1] at hwhole
  have hshows := tokens_shows (d := d) 0 0 m
  have hnested := tags_nested (d := d) 0 m
  have htiles := tokenize_tiles h.tokenize
  generalize m.tokens d 0 0 = tokens at hwhole hshows htiles
  cases hwhole with
  | @intro opener closer inside kind opens level ends =>
    have hopen : opener.kind.isOpen = true := by rw [opens, Cursor.isOpen_openToken]
    obtain ⟨tag, htag, hspans⟩ := hshows.spans [] opener _ rfl hopen
    obtain ⟨inside', closer', rest', hbehind, hends, hstop⟩ := hspans.ends
    obtain rfl := Cursor.openToken_inj (opens.symm.trans hspans.kind)
    rw [level] at hends
    obtain ⟨-, rfl, -⟩ := ends.unique hends hbehind
    obtain ⟨hstart, -, hrest⟩ := htiles
    obtain ⟨mid, -, hcloser⟩ := Tiles.of_append hrest
    obtain ⟨-, -, hend⟩ := hcloser
    have hend : closer.stop = (m.source d).bytes := hend
    cases hm : m.tags d 0 with
    | nil =>
      rw [hm] at htag
      cases htag
    | cons first inner rest =>
      rw [hm] at htag hnested
      obtain rfl := Option.some.inj htag
      obtain ⟨-, -, hbehind⟩ := hnested
      have hnil : rest = .nil := by
        cases rest with
        | nil => rfl
        | cons second inner' rest' =>
          have hlt := hbehind.start_lt_stop
          have hle := hbehind.2.2.le
          have hlo := hbehind.1
          omega
      subst hnil
      exact ⟨first, inner, rfl, by rw [hspans.start, hstart], by rw [hstop, hend]⟩

end Markup

namespace SingleTag

/-- What stands behind the head of a tag: nothing, or the body of a block tag and what ends the tag,
with a key in front of the closer or without one. -/
def Ending (d : Delimiters) : Option Text → Text → Prop
  | none, ending => ending = []
  | some body, ending => ∃ endKey, leadingKey (endKey ++ d.closer) = endKey ∧
    ending = body ++ (d.blockCloser ++ (endKey ++ d.closer))

/-- The tag is the text part by part, and it is the tag of the outline: its header and its body are
what the values are taken from. -/
structure Portrays (read : SingleTag) (d : Delimiters) (text : Text) (tag : Tag) : Prop where
  kind : read.kind = tag.kind
  key : read.key = tag.call.key
  whole : read.text = text
  parts : ∃ ending, Ending d read.body? ending ∧
    text = d.openerOf read.kind ++ (read.key ++
      ((read.header?.map (d.sep ++ ·)).getD [] ++ (d.closer ++ ending)))
  /-- The groups of values are those of the header, if there is one, and those of the body. -/
  values : ∃ groups, tag.call.groups = groups ++ (read.body?.map (templateGroups d)).getD [] ∧
    (read.header? = none → groups = []) ∧ ∀ header, read.header? = some header →
      groups ≠ [] ∧ Groups.join d.sep d.subSep groups = header
  body : ∀ body, read.body? = some body →
    Groups.join d.sep d.subSep (templateGroups d body) = body

/-- A text read as one tag and its outline agree on whether it is one tag and what the tag says. -/
structure Agrees (d : Delimiters) (text : Text) : Prop where
  succeeds : (∃ read, ofText d text = .ok read) ↔
    ∃ o tag, Outline.ofText d text = .ok o ∧ o.OneTag text tag
  /-- So a pending answer that is one tag keeps the region of that tag. -/
  pending : ∀ base, (∃ read, ofText d text = .ok read) ↔ ∃ region inner,
    Agenda.ofAnswer d base text = .tree region inner ∧ region.kind ≠ .group
  portrays : ∀ read o tag, ofText d text = .ok read → Outline.ofText d text = .ok o →
    o.OneTag text tag → read.Portrays d text tag
  /-- A text that is no tag is refused at the first token outside the tag at its front, and before
  that with the fault that ends the reading. -/
  fails : ∀ e, ofText d text = .error e ↔
    (∃ token, FirstOutside (Lexing.ofText d text).tokens token ∧
      e = .notOneTag token.start token.text) ∨
    (∀ token, ¬ FirstOutside (Lexing.ofText d text).tokens token) ∧
      ((Lexing.ofText d text).fault? = some e ∨ text = [] ∧ e = .notOneTag 0 [])

theorem portrays_of_isTag {one : Markup} {read : SingleTag} {inner : Forest Tag}
    (hone : one.IsTag) (h : Markup.Valid d .free [] one) (ht : one.tags d 0 = .tree tag inner)
    (hread : ofText d (one.source d) = .ok read) : read.Portrays d (one.source d) tag := by
  cases hone with
  | inline key header =>
    rw [h.single_inline] at hread
    cases hread
    cases ht
    cases h with
    | inline heads inside =>
      obtain ⟨hsource, hgroups⟩ := heads.shape.join_groups (d := d)
      refine ⟨rfl, rfl, rfl, ⟨[], rfl, ?_⟩, ⟨header.groups d, ?_, hgroups⟩, ?_⟩
      · rw [← hsource]
        simp [Markup.source, Delimiters.head, kind]
      · exact (List.append_nil _).symm
      · intro body hbody
        cases hbody
  | block key header body endKey =>
    rw [h.single_block] at hread
    cases hread
    cases ht
    cases h with
    | block heads inside within ending =>
      obtain ⟨hsource, hgroups⟩ := heads.shape.join_groups (d := d)
      refine ⟨rfl, rfl, rfl, ⟨_, ⟨endKey, ending, rfl⟩, ?_⟩, ⟨header.groups d, rfl, hgroups⟩, ?_⟩
      · rw [← hsource]
        simp [Markup.source, Delimiters.head, Delimiters.ending, kind]
      · intro body' hbody
        cases hbody
        exact join_templateGroups d _

/-- A text is read as one tag just when its outline is one tag. -/
theorem agrees_outline (d : Delimiters) (text : Text) : Agrees d text := by
  have hone {o : Outline} {tag : Tag} (ho : Outline.ofText d text = .ok o)
      (hone : o.OneTag text tag) : ∃ read, ofText d text = .ok read ∧ read.Portrays d text tag := by
    obtain ⟨m, hvalid, rfl, rfl⟩ := Markup.exists_of_outline ho
    obtain ⟨⟨inner, htags⟩, hstart, hstop⟩ := Outline.oneTag_iff.1 hone
    obtain ⟨one, hisTag, hvalid', hsource, htags'⟩ := hvalid.exists_isTag htags hstart hstop
    obtain ⟨read, hread, -⟩ := hisTag.single hvalid' htags'
    rw [← hsource]
    exact ⟨read, hread, portrays_of_isTag hisTag hvalid' htags' hread⟩
  have hsucceeds : (∃ read, ofText d text = .ok read) ↔
      ∃ o tag, Outline.ofText d text = .ok o ∧ o.OneTag text tag := by
    constructor
    · rintro ⟨read, hread⟩
      obtain ⟨hfault, -⟩ := whole_of_ofText hread
      have htokenize : tokenize d text = .ok (Lexing.ofText d text).tokens := by
        rw [tokenize, Lexing.result, hfault]
      obtain ⟨m, hvalid, rfl, -⟩ := Markup.exists_of_tokenize htokenize
      obtain ⟨tag, inner, htags, hstart, hstop⟩ := hvalid.oneTag hread
      exact ⟨_, tag, hvalid.outline, Outline.oneTag_iff.2 ⟨⟨inner, htags⟩, hstart, hstop⟩⟩
    · rintro ⟨o, tag, ho, htag⟩
      obtain ⟨read, hread, -⟩ := hone ho htag
      exact ⟨read, hread⟩
  refine ⟨hsucceeds, fun base => ?_, fun read o tag hread ho htag => ?_, fun _ => ofText_eq_error⟩
  · rw [hsucceeds]
    cases ho : Outline.ofText d text with
    | error e => simp [Agenda.ofAnswer, ho, Forest.tree]
    | ok o =>
      rw [Agenda.ofAnswer_eq_tag ho base]
      constructor
      · rintro ⟨o', tag, ho', htag⟩
        cases ho'
        exact ⟨tag, htag⟩
      · rintro ⟨tag, htag⟩
        exact ⟨o, tag, rfl, htag⟩
  · obtain ⟨read', hread', hportrays⟩ := hone ho htag
    rw [hread] at hread'
    cases hread'
    exact hportrays

end SingleTag

end TagMarkup
