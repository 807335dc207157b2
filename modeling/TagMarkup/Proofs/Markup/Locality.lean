import TagMarkup.Proofs.Lexing.Tiling
import TagMarkup.Proofs.Markup.Outline
import TagMarkup.Proofs.Markup.Single

/-! The text of a tag read on its own. Wherever a tag stands in a text, the tokens and the tags of
its slice of the text are those that the whole text has there, except for where they stand, and the
slice is a single tag of the same kind with the same key. -/

namespace TagMarkup

namespace Forest

universe u

variable {α : Type u} {f g : Forest α} {i : Nat} {path : Path} {found : α × Forest α}

theorem find?_of_append (h : (f ++ g).find? i path = some found) :
    f.find? i path = some found ∨ ∃ j, g.find? j path = some found := by
  induction f generalizing i path with
  | nil => exact .inr ⟨i, h⟩
  | cons a inner rest _ ih =>
    cases i with
    | zero => cases path <;> exact .inl h
    | succ i => exact ih h

theorem map_append {β : Type u} (t : α → β) (f g : Forest α) :
    (f ++ g).map t = f.map t ++ g.map t := by
  induction f with
  | nil => rfl
  | cons a inner rest _ ih => simp only [cons_append, map, ih]

end Forest

/-- The token when the text that it stands in begins at the offset `start` and inside `depth` more
tags. -/
def Token.shift (start depth : Nat) (t : Token) : Token :=
  { t with start := start + t.start, depth := depth + t.depth }

/-- The tag when the text that it stands in begins at the offset `start`. -/
def Tag.shift (start : Nat) (t : Tag) : Tag :=
  { t with start := start + t.start, stop := start + t.stop }

theorem Tiles.shift {a b : Nat} {ts : List Token} (h : Tiles a ts b) (start depth : Nat) :
    Tiles (start + a) (ts.map (.shift start depth)) (start + b) := by
  induction ts generalizing a with
  | nil => exact congrArg (start + ·) h
  | cons token rest ih =>
    obtain ⟨rfl, hne, hrest⟩ := h
    refine ⟨rfl, hne, ?_⟩
    have := ih hrest
    rwa [show start + token.stop = (token.shift start depth).stop by
      simp [Token.stop, Token.shift, Nat.add_assoc]] at this

namespace Markup

variable {d : Delimiters} {context : Context} {after : Text} {m one inner : Markup}
  {start stop levels position i : Nat} {path : Path} {tag : Tag} {inside : Forest Tag}

theorem tokens_shift (start levels depth position : Nat) (m : Markup) :
    m.tokens d (levels + depth) (start + position) =
      (m.tokens d depth position).map (.shift start levels) := by
  have hkey (depth position : Nat) (key : Text) :
      keyTokens (levels + depth) (start + position) key =
        (keyTokens depth position key).map (.shift start levels) := by
    unfold keyTokens
    split <;> rfl
  induction m generalizing depth position with
  | done => rfl
  | text t rest ih | sep level rest ih => simp [tokens, Token.shift, ih, Nat.add_assoc]
  | inline key header rest ihh ihr =>
    simp [tokens, headTokens, hkey, Token.shift, ihh, ihr, Nat.add_assoc]
  | block key header body endKey rest ihh ihb ihr =>
    simp [tokens, headTokens, endingTokens, hkey, Token.shift, ihh, ihb, ihr, Nat.add_assoc]

theorem tags_shift (start position : Nat) (m : Markup) :
    m.tags d (start + position) = (m.tags d position).map (.shift start) := by
  induction m generalizing position with
  | done => rfl
  | text t rest ih | sep level rest ih => simp [tags, ih, Nat.add_assoc]
  | inline key header rest ihh ihr =>
    simp [tags, Forest.map, Tag.shift, ihh, ihr, Nat.add_assoc]
  | block key header body endKey rest ihh ihb ihr =>
    simp [tags, Forest.map, Forest.map_append, Tag.shift, ihh, ihb, ihr, Nat.add_assoc]

/-- The markup `inner` is a part of `m` that stands at the position `start`, inside `levels` tags
of `m`. -/
structure Within (d : Delimiters) (m : Markup) (position levels : Nat) (inner : Markup)
    (start : Nat) : Prop where
  source : ∃ front behind, m.source d = front ++ (inner.source d ++ behind) ∧
    start = position + front.bytes
  tokens : ∀ depth, inner.tokens d (depth + levels) start <:+: m.tokens d depth position

theorem Within.refl : Within d m position 0 m position :=
  ⟨⟨[], [], by simp, rfl⟩, fun _ => List.infix_rfl⟩

theorem Within.trans {m' : Markup} {levels' : Nat} (h : Within d m position levels m' start)
    (h' : Within d m' start levels' inner stop) :
    Within d m position (levels + levels') inner stop := by
  obtain ⟨⟨front, behind, hsource, rfl⟩, htokens⟩ := h
  obtain ⟨⟨front', behind', hsource', rfl⟩, htokens'⟩ := h'
  constructor
  · refine ⟨front ++ front', behind' ++ behind, ?_, by simp [Nat.add_assoc]⟩
    rw [hsource, hsource']
    simp
  · intro depth
    rw [← Nat.add_assoc]
    exact (htokens' (depth + levels)).trans (htokens depth)

theorem within_left (m m' : Markup) : Within d (m ++ m') position 0 m position := by
  refine ⟨⟨[], m'.source d, by simp, rfl⟩, fun depth => ?_⟩
  rw [tokens_append]
  exact (List.prefix_append _ _).isInfix

theorem within_right (m m' : Markup) :
    Within d (m ++ m') position 0 m' (position + (m.source d).bytes) := by
  refine ⟨⟨m.source d, [], by simp, rfl⟩, fun depth => ?_⟩
  rw [tokens_append]
  exact (List.suffix_append _ _).isInfix

theorem within_inline (key : Text) (header : Markup) :
    Within d (.inline key header .done) position 1 header
      (position + (d.openerOf .inline).bytes + key.bytes) := by
  constructor
  · refine ⟨d.openerOf .inline ++ key, d.closer, ?_, by simp [Nat.add_assoc]⟩
    simp [source, Delimiters.head]
  · intro depth
    simp only [tokens, headTokens, List.append_nil]
    refine List.infix_cons_iff.2 (.inr ?_)
    exact (List.prefix_append _ _).isInfix.trans (List.suffix_append _ _).isInfix

theorem within_header (key : Text) (header body : Markup) (endKey : Text) :
    Within d (.block key header body endKey .done) position 1 header
      (position + (d.openerOf .block).bytes + key.bytes) := by
  constructor
  · refine ⟨d.openerOf .block ++ key, d.closer ++ (body.source d ++ d.ending endKey), ?_, by
      simp [Nat.add_assoc]⟩
    simp [source, Delimiters.head]
  · intro depth
    simp only [tokens, headTokens, List.cons_append, List.append_assoc]
    refine List.infix_cons_iff.2 (.inr ?_)
    exact (List.prefix_append _ _).isInfix.trans (List.suffix_append _ _).isInfix

theorem within_body (key : Text) (header body : Markup) (endKey : Text) :
    Within d (.block key header body endKey .done) position 1 body
      (position + (d.head .block key (header.source d)).bytes) := by
  constructor
  · refine ⟨d.head .block key (header.source d), d.ending endKey, by simp [source], rfl⟩
  · intro depth
    simp only [tokens]
    exact (List.prefix_append _ _).isInfix.trans (List.suffix_append _ _).isInfix

/-- The markup is a tag with nothing behind it. -/
inductive IsTag : Markup → Prop
  | inline (key : Text) (header : Markup) : IsTag (.inline key header .done)
  | block (key : Text) (header body : Markup) (endKey : Text) :
    IsTag (.block key header body endKey .done)

/-- The tag, with those inside it, is all of a part of the markup that is inside `levels` tags and
is valid by itself. -/
def HasTag (d : Delimiters) (m : Markup) (position levels : Nat) (tag : Tag)
    (inside : Forest Tag) : Prop :=
  ∃ one, one.IsTag ∧ Valid d .free [] one ∧ Within d m position levels one tag.start ∧
    one.tags d tag.start = .tree tag inside

theorem HasTag.within {m' : Markup} {levels' : Nat} (h : HasTag d m' start levels' tag inside)
    (hw : Within d m position levels m' start) :
    HasTag d m position (levels' + levels) tag inside := by
  obtain ⟨one, hone, hvalid, hwithin, htags⟩ := h
  refine ⟨one, hone, hvalid, ?_, htags⟩
  rw [Nat.add_comm]
  exact hw.trans hwithin

theorem HasTag.append_left {m' : Markup} (h : HasTag d m position levels tag inside) :
    HasTag d (m ++ m') position levels tag inside :=
  h.within (within_left m m')

theorem HasTag.append_right {m' : Markup}
    (h : HasTag d m' (position + (m.source d).bytes) levels tag inside) :
    HasTag d (m ++ m') position levels tag inside :=
  h.within (within_right m m')

/-- A tag among those of valid markup is a part of it, and is valid by itself. -/
theorem Valid.hasTag (h : Valid d context after m)
    (hf : (m.tags d position).find? i path = some (tag, inside)) :
    HasTag d m position path.length tag inside := by
  induction h generalizing position i path with
  | done context after => cases hf
  | @text context after t rest nonempty ends _ ih =>
    exact .append_right (m := .text t .done) (by simpa [source] using ih hf)
  | @sep after rest level _ ih =>
    exact .append_right (m := .sep level .done) (by simpa [source] using ih hf)
  | @inline context after key header rest heads header_valid _ ihh ihr =>
    let first : Markup := .inline key header .done
    have hfirst : Valid d .free [] first := .inline heads header_valid (.done _ _)
    cases i with
    | succ i => exact .append_right (m := first) (by simpa [source, first] using ihr hf)
    | zero =>
      refine .append_left (m := first) ?_
      cases path with
      | nil =>
        cases hf
        exact ⟨first, .inline key header, hfirst, .refl, rfl⟩
      | cons j path => exact HasTag.within (ihh hf) (within_inline key header)
  | @block context after key endKey header body rest heads header_valid body_valid ending _
      ihh ihb ihr =>
    let first : Markup := .block key header body endKey .done
    have hfirst : Valid d .free [] first :=
      .block heads header_valid body_valid ending (.done _ _)
    cases i with
    | succ i =>
      exact .append_right (m := first) (by simpa [source, first, Nat.add_assoc] using ihr hf)
    | zero =>
      refine .append_left (m := first) ?_
      cases path with
      | nil =>
        cases hf
        exact ⟨first, .block key header body endKey, hfirst, .refl, rfl⟩
      | cons j path =>
        rcases Forest.find?_of_append hf with hf | ⟨j', hf⟩
        · exact HasTag.within (ihh hf) (within_header key header body endKey)
        · exact HasTag.within (ihb hf) (within_body key header body endKey)

theorem IsTag.stop_eq (h : one.IsTag) (ht : one.tags d position = .tree tag inside) :
    tag.stop = position + (one.source d).bytes := by
  cases h with
  | inline key header =>
    cases ht
    simp [source]
  | block key header body endKey =>
    cases ht
    simp [source, Nat.add_assoc]

theorem Within.slice? (h : Within d m 0 levels one start) :
    (m.source d).slice? start (start + (one.source d).bytes) = some (one.source d) := by
  obtain ⟨front, behind, hsource, hstart⟩ := h.source
  rw [hsource, Text.slice?_eq_some]
  exact ⟨front, behind, rfl, by omega, by omega⟩

theorem IsTag.tokens_ne_nil (h : one.IsTag) (depth position : Nat) :
    one.tokens d depth position ≠ [] := by
  cases h <;> simp [tokens, headTokens]

theorem IsTag.single (h : one.IsTag) (hvalid : Valid d .free [] one)
    (ht : one.tags d position = .tree tag inside) : ∃ read,
      SingleTag.ofText d (one.source d) = .ok read ∧ read.kind = tag.kind ∧
        read.key = tag.call.key := by
  cases h with
  | inline key header =>
    cases ht
    exact ⟨_, hvalid.single_inline, rfl, rfl⟩
  | block key header body endKey =>
    cases ht
    exact ⟨_, hvalid.single_block, rfl, rfl⟩

end Markup

open Markup

variable {d : Delimiters} {text : Text} {o : Outline} {i : Nat} {path : Path} {tag : Tag}
  {inside : Forest Tag}

theorem Markup.exists_of_outline (h : Outline.ofText d text = .ok o) :
    ∃ m, Valid d .free [] m ∧ m.source d = text ∧ o = ⟨text.bytes, m.tags d 0⟩ := by
  cases ht : tokenize d text with
  | error e =>
    rw [Outline.ofText, ht] at h
    cases h
  | ok tokens =>
    obtain ⟨m, hvalid, rfl, -⟩ := exists_of_tokenize ht
    rw [hvalid.outline] at h
    cases h
    exact ⟨m, hvalid, rfl, rfl⟩

/-- A tag of a text, with `around` other tags around it, reads in its slice of the text as it does
in the whole text. -/
structure Tag.ReadsAlone (d : Delimiters) (text : Text) (around : Nat) (tag : Tag)
    (inside : Forest Tag) (slice : Text) : Prop where
  sliced : text.slice? tag.start tag.stop = some slice
  /-- The tokens of the slice are those of the text within the span of the tag. -/
  tokens : ∃ tokens alone, tokenize d text = .ok tokens ∧ tokenize d slice = .ok alone ∧
    tokens.filter (fun token => tag.start ≤ token.start ∧ token.stop ≤ tag.stop) =
      alone.map (.shift tag.start around)
  /-- The outline of the slice is the tag with all that is inside it. -/
  outline : ∃ tree, Outline.ofText d slice = .ok ⟨slice.bytes, tree⟩ ∧
    tree.map (.shift tag.start) = .tree tag inside
  single : ∃ read, SingleTag.ofText d slice = .ok read ∧ read.kind = tag.kind ∧
    read.key = tag.call.key

/-- Every tag in the outline of a text reads alone. -/
theorem Outline.reads_alone (h : Outline.ofText d text = .ok o)
    (hf : o.tags.find? i path = some (tag, inside)) :
    ∃ slice, tag.ReadsAlone d text path.length inside slice := by
  obtain ⟨m, hvalid, rfl, rfl⟩ := exists_of_outline h
  obtain ⟨one, hone, hvalid', hwithin, htags⟩ := hvalid.hasTag hf
  have hstop := hone.stop_eq htags
  have halone := hvalid'.tokenize
  have hshift := tokens_shift (d := d) tag.start path.length 0 0 one
  have hinfix := hwithin.tokens 0
  rw [Nat.add_comm 0 path.length, ← Nat.add_zero tag.start, hshift] at hinfix
  have hpart := (tokenize_tiles halone).shift tag.start path.length
  rw [Nat.add_zero, ← hstop] at hpart
  refine ⟨one.source d, ?_, ⟨_, _, hvalid.tokenize, halone, ?_⟩, ⟨_, hvalid'.outline, ?_⟩, ?_⟩
  · rw [hstop]
    exact hwithin.slice?
  · exact (tokenize_tiles hvalid.tokenize).filter_eq hinfix hpart
      (by simpa using hone.tokens_ne_nil 0 0)
  · rw [← tags_shift, Nat.add_zero, htags]
  · exact hone.single hvalid' htags

theorem Outline.reads_alone_nested :
    let text := "é[[#a::[[b]]]]y[[/a]]".toList
    let inner : Tag := ⟨.inline, ⟨['b'], []⟩, 8, 13⟩
    ∃ o, Outline.ofText .standard text = .ok o ∧ o.tags.find? 0 [0] = some (inner, .nil) ∧
      ∃ slice, inner.ReadsAlone .standard text 1 .nil slice := by
  intro text inner
  let outer : Tag := ⟨.block, ⟨['a'], [["[[b]]".toList], [['y']]]⟩, 2, 22⟩
  let o : Outline := ⟨22, .tree outer (.tree inner .nil)⟩
  have ho : Outline.ofText .standard text = .ok o := by decide +kernel
  have hf : o.tags.find? 0 [0] = some (inner, .nil) := rfl
  exact ⟨o, ho, hf, Outline.reads_alone ho hf⟩

end TagMarkup
