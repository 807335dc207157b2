import TagMarkup.Outline.Reading
import TagMarkup.Proofs.Lexing.Step
import TagMarkup.Proofs.Tag.Head
import TagMarkup.Proofs.Text.Until

/-! The structure of markup: texts, separators and tags, and in every tag its key, the values behind
the key, and for a block tag its body. The text, the tokens and the tags of markup follow from its
structure. Markup is valid when each part reads as what it is, and what is inside a tag does so
whatever stands around the tag: there `Valid` speaks of nothing behind the mark that ends it. -/

namespace TagMarkup

/-- A text, a separator or a tag, and the markup behind it. The header of a tag is what stands
between its key and its closer, and a block tag may have a key behind its body, too. -/
inductive Markup
  | done
  | text (t : Text) (rest : Markup)
  | sep (level : Level) (rest : Markup)
  | inline (key : Text) (header rest : Markup)
  | block (key : Text) (header body : Markup) (endKey : Text) (rest : Markup)
  deriving DecidableEq, Repr

/-- The text of the part of a tag that says its kind, its key and its values. -/
def Delimiters.head (d : Delimiters) (kind : TagKind) (key header : Text) : Text :=
  d.openerOf kind ++ (key ++ (header ++ d.closer))

/-- The text of a block tag behind its body. -/
def Delimiters.ending (d : Delimiters) (endKey : Text) : Text :=
  d.blockCloser ++ (endKey ++ d.closer)

namespace Markup

def append : Markup → Markup → Markup
  | done, m => m
  | text t rest, m => text t (rest.append m)
  | sep level rest, m => sep level (rest.append m)
  | inline key header rest, m => inline key header (rest.append m)
  | block key header body endKey rest, m => block key header body endKey (rest.append m)

instance : Append Markup := ⟨append⟩

variable (d : Delimiters)

/-- The text that the markup reads as. -/
def source : Markup → Text
  | done => []
  | text t rest => t ++ rest.source
  | sep level rest => d.sepOf level ++ rest.source
  | inline key header rest => d.head .inline key header.source ++ rest.source
  | block key header body endKey rest =>
    d.head .block key header.source ++ (body.source ++ (d.ending endKey ++ rest.source))

/-- The token of a key, if there is one. -/
def keyTokens (depth position : Nat) (key : Text) : List Token :=
  if key = [] then [] else [⟨.key, position, key, depth⟩]

/-- The tokens of the head of a tag, when `header` gives those of the header from a position on. -/
def headTokens (kind : TagKind) (depth position : Nat) (key header : Text)
    (headerTokens : Nat → List Token) : List Token :=
  let keyAt := position + (d.openerOf kind).bytes
  let headerAt := keyAt + key.bytes
  ⟨Cursor.openToken kind, position, d.openerOf kind, depth⟩ ::
    (keyTokens depth keyAt key ++
      (headerTokens headerAt ++ [⟨.close, headerAt + header.bytes, d.closer, depth⟩]))

def endingTokens (depth position : Nat) (endKey : Text) : List Token :=
  let keyAt := position + d.blockCloser.bytes
  ⟨.blockClose, position, d.blockCloser, depth⟩ ::
    (keyTokens depth keyAt endKey ++ [⟨.close, keyAt + endKey.bytes, d.closer, depth⟩])

/-- The tokens of markup that stands at a position inside `depth` tags. -/
def tokens (depth : Nat) : Nat → Markup → List Token
  | _, done => []
  | position, text t rest =>
    ⟨.text, position, t, depth⟩ :: rest.tokens depth (position + t.bytes)
  | position, sep level rest =>
    ⟨.sep level, position, d.sepOf level, depth⟩ ::
      rest.tokens depth (position + (d.sepOf level).bytes)
  | position, inline key header rest =>
    headTokens d .inline (depth + 1) position key (header.source d)
        (fun at' => header.tokens (depth + 1) at') ++
      rest.tokens depth (position + (d.head .inline key (header.source d)).bytes)
  | position, block key header body endKey rest =>
    let bodyAt := position + (d.head .block key (header.source d)).bytes
    let endingAt := bodyAt + (body.source d).bytes
    headTokens d .block (depth + 1) position key (header.source d)
        (fun at' => header.tokens (depth + 1) at') ++
      (body.tokens (depth + 1) bodyAt ++
        (endingTokens d (depth + 1) endingAt endKey ++
          rest.tokens depth (endingAt + (d.ending endKey).bytes)))

/-- The pieces that the markup cuts a text into: its own separators cut it, and a tag is kept. -/
def pieces : Markup → List Piece
  | done => []
  | text t rest => .kept t :: rest.pieces
  | sep level rest => .cut level :: rest.pieces
  | inline key header rest => .kept (d.head .inline key (header.source d)) :: rest.pieces
  | block key header body endKey rest =>
    .kept (d.head .block key (header.source d) ++ (body.source d ++ d.ending endKey)) ::
      rest.pieces

/-- The groups of values of a header. There is nothing in front of its first separator. -/
def groups (header : Markup) : List (List Text) := (Groups.ofPieces (header.pieces d)).groups

/-- The tags of markup that stands at a position. -/
def tags : Nat → Markup → Forest Tag
  | _, done => .nil
  | position, text t rest => rest.tags (position + t.bytes)
  | position, sep level rest => rest.tags (position + (d.sepOf level).bytes)
  | position, inline key header rest =>
    let headerAt := position + (d.openerOf .inline).bytes + key.bytes
    let stop := position + (d.head .inline key (header.source d)).bytes
    .cons ⟨.inline, ⟨key, header.groups d⟩, position, stop⟩ (header.tags headerAt) (rest.tags stop)
  | position, block key header body endKey rest =>
    let headerAt := position + (d.openerOf .block).bytes + key.bytes
    let bodyAt := position + (d.head .block key (header.source d)).bytes
    let stop := bodyAt + (body.source d).bytes + (d.ending endKey).bytes
    .cons ⟨.block, ⟨key, header.groups d ++ templateGroups d (body.source d)⟩, position, stop⟩
      (header.tags headerAt ++ body.tags bodyAt) (rest.tags stop)

/-- A header is empty, or begins with the separator of a group. -/
def IsHeader : Markup → Prop
  | done | sep .group _ => True
  | _ => False

/-- The head of a tag reads as such: no more of the key follows it, and a tag of the kind begins at
the opener. -/
structure Heads (kind : TagKind) (key : Text) (header : Markup) : Prop where
  shape : header.IsHeader
  ends : leadingKey (key ++ (header.source d ++ d.closer)) = key
  inline : kind = .inline → ¬ d.blockOpener <+: d.head kind key (header.source d) ∧
    ¬ d.blockCloser <+: d.head kind key (header.source d)

/-- Every part of the markup reads as what it is, when the markup stands in a context and `after`
follows. -/
inductive Valid (d : Delimiters) : Context → Text → Markup → Prop
  | done (context : Context) (after : Text) : Valid d context after done
  | text {context : Context} {after t : Text} {rest : Markup} (nonempty : t ≠ [])
    (ends : Text.Until (context.marks d) t (rest.source d ++ after))
    (behind : Valid d context after rest) : Valid d context after (text t rest)
  | sep {after : Text} {rest : Markup} (level : Level) (behind : Valid d .values after rest) :
    Valid d .values after (sep level rest)
  | inline {context : Context} {after key : Text} {header rest : Markup}
    (heads : Heads d .inline key header) (inside : Valid d .values d.closer header)
    (behind : Valid d context after rest) : Valid d context after (inline key header rest)
  | block {context : Context} {after key endKey : Text} {header body rest : Markup}
    (heads : Heads d .block key header) (inside : Valid d .values d.closer header)
    (within : Valid d .free d.blockCloser body) (ending : leadingKey (endKey ++ d.closer) = endKey)
    (behind : Valid d context after rest) :
    Valid d context after (block key header body endKey rest)

end Markup

section Locality

variable {d : Delimiters} {context : Context} {t s more : Text}

/-- A mark that begins in front of a text in which there is a whole mark ends in that text. -/
theorem Delimiters.begins_of_begins_append {r r' : Role} (hs : d.get r' <:+: s)
    (hr : d.get r <+: s ++ more) : d.get r <+: s := by
  rcases List.prefix_or_prefix_of_prefix hr (List.prefix_append s more) with h | h
  · exact h
  · by_cases heq : r' = r
    · subst heq
      have hlen : s.length ≤ (d.get r').length := h.length_le
      have hlen' : (d.get r').length ≤ s.length := hs.length_le
      exact (h.eq_of_length (by omega)).symm ▸ List.prefix_rfl
    · exact absurd (hs.trans h.isInfix) (d.wellFormed.apart r' r heq)

theorem Context.exists_role {m : Text} (h : m ∈ context.marks d) : ∃ r, d.get r = m := by
  cases context with
  | free =>
    rw [List.mem_singleton.1 h]
    exact ⟨.opener, rfl⟩
  | values =>
    simp only [marks, List.mem_cons, List.not_mem_nil, or_false] at h
    rcases h with rfl | rfl | rfl | rfl
    · exact ⟨.opener, rfl⟩
    · exact ⟨.closer, rfl⟩
    · exact ⟨.sep, rfl⟩
    · exact ⟨.subSep, rfl⟩

/-- What follows a whole mark does not decide on where a text before it ends. -/
theorem Context.until_append (hs : ∃ m ∈ context.marks d, m <:+: s) :
    Text.Until (context.marks d) t (s ++ more) ↔ Text.Until (context.marks d) t s := by
  obtain ⟨m', hm', hs⟩ := hs
  obtain ⟨r', rfl⟩ := exists_role hm'
  -- the marks in front of a text that goes on to `s` are the same with `more` behind it
  have hlocal (b : Text) {m : Text} (hm : m ∈ context.marks d) :
      m <+: b ++ (s ++ more) ↔ m <+: b ++ s := by
    obtain ⟨r, rfl⟩ := exists_role hm
    rw [← List.append_assoc]
    constructor
    · intro hp
      have hinfix : s <:+: b ++ s := (List.suffix_append b s).isInfix
      exact d.begins_of_begins_append (hs.trans hinfix) hp
    · exact fun hp => hp.trans (List.prefix_append _ _)
  have hnil : s ≠ [] := by
    rintro rfl
    exact d.wellFormed.nonempty r' (List.infix_nil.1 hs)
  constructor
  · rintro ⟨hclear, hended⟩
    refine ⟨fun a b hab hb m hm hp => hclear a b hab hb m hm ((hlocal b hm).2 hp), .inr ?_⟩
    obtain ⟨m, hm, hp⟩ := hended.resolve_left (by simp [hnil])
    exact ⟨m, hm, (hlocal [] hm).1 hp⟩
  · rintro ⟨hclear, hended⟩
    refine ⟨fun a b hab hb m hm hp => hclear a b hab hb m hm ((hlocal b hm).1 hp), .inr ?_⟩
    obtain ⟨m, hm, hp⟩ := hended.resolve_left hnil
    exact ⟨m, hm, (hlocal [] hm).2 hp⟩

end Locality

namespace Markup

variable {d : Delimiters} {context : Context} {m m' : Markup} {after more : Text}

@[simp] theorem done_append (m : Markup) : done ++ m = m := rfl

@[simp] theorem text_append (t : Text) (rest m : Markup) :
    text t rest ++ m = text t (rest ++ m) := rfl

@[simp] theorem sep_append (level : Level) (rest m : Markup) :
    sep level rest ++ m = sep level (rest ++ m) := rfl

@[simp] theorem inline_append (key : Text) (header rest m : Markup) :
    inline key header rest ++ m = inline key header (rest ++ m) := rfl

@[simp] theorem block_append (key : Text) (header body : Markup) (endKey : Text)
    (rest m : Markup) :
    block key header body endKey rest ++ m = block key header body endKey (rest ++ m) := rfl

@[simp] theorem source_append (m m' : Markup) : (m ++ m').source d = m.source d ++ m'.source d := by
  induction m with
  | done => rfl
  | text t rest ih | sep level rest ih => simp [source, ih]
  | inline key header rest _ ih => simp [source, ih]
  | block key header body endKey rest _ _ ih => simp [source, ih]

theorem tokens_append (depth position : Nat) (m m' : Markup) :
    (m ++ m').tokens d depth position =
      m.tokens d depth position ++ m'.tokens d depth (position + (m.source d).bytes) := by
  induction m generalizing position with
  | done => rfl
  | text t rest ih | sep level rest ih => simp [tokens, source, ih, Nat.add_assoc]
  | inline key header rest _ ih => simp [tokens, source, ih, Nat.add_assoc]
  | block key header body endKey rest _ _ ih => simp [tokens, source, ih, Nat.add_assoc]

theorem tags_append (position : Nat) (m m' : Markup) :
    (m ++ m').tags d position = m.tags d position ++ m'.tags d (position + (m.source d).bytes) := by
  induction m generalizing position with
  | done => rfl
  | text t rest ih | sep level rest ih => simp [tags, source, ih, Nat.add_assoc]
  | inline key header rest _ ih => simp [tags, source, ih, Nat.add_assoc]
  | block key header body endKey rest _ _ ih => simp [tags, source, ih, Nat.add_assoc]

@[simp] theorem pieces_append (m m' : Markup) : (m ++ m').pieces d = m.pieces d ++ m'.pieces d := by
  induction m with
  | done => rfl
  | text t rest ih | sep level rest ih => simp [pieces, ih]
  | inline key header rest _ ih => simp [pieces, ih]
  | block key header body endKey rest _ _ ih => simp [pieces, ih]

theorem Valid.append (h : Valid d context (m'.source d ++ after) m)
    (h' : Valid d context after m') : Valid d context after (m ++ m') := by
  generalize hafter : m'.source d ++ after = after' at h
  induction h with
  | done => exact h'
  | text nonempty ends _ ih =>
    rw [← hafter, ← List.append_assoc, ← source_append] at ends
    exact .text nonempty ends (ih h' hafter)
  | sep level _ ih => exact .sep level (ih h' hafter)
  | inline heads inside _ _ ih => exact .inline heads inside (ih h' hafter)
  | block heads inside within ending _ _ _ ih =>
    exact .block heads inside within ending (ih h' hafter)

theorem Valid.mono {after' : Text} (h : Valid d context after m)
    (ha : ∀ (t : Text) (rest : Markup), Text.Until (context.marks d) t (rest.source d ++ after) →
      Text.Until (context.marks d) t (rest.source d ++ after')) : Valid d context after' m := by
  induction h with
  | done context _ => exact .done context after'
  | text nonempty ends _ ih => exact .text nonempty (ha _ _ ends) (ih ha)
  | sep level _ ih => exact .sep level (ih ha)
  | inline heads inside _ _ ih => exact .inline heads inside (ih ha)
  | block heads inside within ending _ _ _ ih => exact .block heads inside within ending (ih ha)

/-- What follows a whole mark does not decide on how markup before it reads. -/
theorem Valid.append_after (ha : ∃ mark ∈ context.marks d, mark <:+: after) :
    Valid d context (after ++ more) m ↔ Valid d context after m := by
  have huntil (t : Text) (rest : Markup) :
      Text.Until (context.marks d) t (rest.source d ++ (after ++ more)) ↔
        Text.Until (context.marks d) t (rest.source d ++ after) := by
    obtain ⟨mark, hmem, hp⟩ := ha
    rw [← List.append_assoc]
    exact Context.until_append ⟨mark, hmem, hp.trans (List.suffix_append _ _).isInfix⟩
  constructor
  · exact fun h => h.mono fun t rest => (huntil t rest).1
  · exact fun h => h.mono fun t rest => (huntil t rest).2

theorem Valid.before_closer :
    Valid d .values (d.closer ++ more) m ↔ Valid d .values d.closer m :=
  append_after ⟨d.closer, by simp [Context.marks], List.infix_rfl⟩

theorem Valid.before_blockCloser :
    Valid d .free (d.blockCloser ++ more) m ↔ Valid d .free d.blockCloser m :=
  append_after ⟨d.opener, by simp [Context.marks], (List.prefix_append _ _).isInfix⟩

end Markup

end TagMarkup
