import TagMarkup.Proofs.Markup.Standard
import TagMarkup.Proofs.Patchwork.Work
import TagMarkup.Rendering.Run

/-! Texts with tags in them that hold no tags, with the standard delimiters. What stands between the
brackets of such a tag may have separators in it. -/

namespace TagMarkup

open Delimiters (standard)

/-- A text in which no tag opens or ends. -/
structure Unbracketed where
  text : Text
  opens : '[' ∉ text
  closes : ']' ∉ text

/-- An inline tag without tags in it: its key, and what stands behind the first separator. -/
structure Leaf where
  key : Key
  values? : Option Unbracketed

namespace Leaf

def header (leaf : Leaf) : Text := (leaf.values?.map fun v => standard.sep ++ v.text).getD []

def source (leaf : Leaf) : Text := standard.head .inline leaf.key.text leaf.header

/-- What a filter sees of the tag. -/
def call (leaf : Leaf) : Call :=
  ⟨leaf.key.text, (leaf.values?.map fun v => templateGroups standard v.text).getD []⟩

end Leaf

/-- A text in which no tag opens, or a tag. -/
inductive Bit
  | text (t : Text) (plain : '[' ∉ t)
  | tag (leaf : Leaf)

namespace Bit

def source : Bit → Text
  | text t _ => t
  | tag leaf => leaf.source

/-- The bits as a patchwork, in which the first tag has the number `index`. -/
def patchwork (index : Nat) : List Bit → Patchwork
  | [] => .plain []
  | text t _ :: bits => .plain t ++ patchwork index bits
  | tag leaf :: bits =>
    .one (.tag (some [index])) (.plain leaf.source) ++ patchwork (index + 1) bits

@[simp] theorem text_patchwork (index : Nat) (bits : List Bit) :
    (patchwork index bits).text = bits.flatMap source := by
  induction bits generalizing index with
  | nil => rfl
  | cons bit bits ih => cases bit <;> simp [patchwork, source, ih]

theorem patchwork_append (index : Nat) (bits more : List Bit) : ∃ index',
    patchwork index (bits ++ more) = patchwork index bits ++ patchwork index' more := by
  induction bits generalizing index with
  | nil => exact ⟨index, (Patchwork.plain_nil_append _).symm⟩
  | cons bit bits ih =>
    cases bit with
    | text t plain =>
      obtain ⟨index', h⟩ := ih index
      exact ⟨index', by simp [patchwork, h, Patchwork.append_assoc]⟩
    | tag leaf =>
      obtain ⟨index', h⟩ := ih (index + 1)
      exact ⟨index', by simp [patchwork, h, Patchwork.append_assoc]⟩

end Bit

open Markup

/-- A separator does not begin at the end of a text and end in the closer. -/
theorem sepOf_prefix_of_closer {level : Level} {t : Text}
    (h : standard.sepOf level <+: t ++ standard.closer) : standard.sepOf level <+: t := by
  match t, level with
  | [], .group | [], .value => exact absurd h (by decide)
  | [c], .group | [c], .value =>
    obtain ⟨more, hmore⟩ := h
    cases hmore
  | c :: c' :: t, .group | c :: c' :: t, .value =>
    obtain ⟨more, hmore⟩ := h
    obtain ⟨hfirst, hmore⟩ := List.cons.inj hmore
    obtain ⟨hsecond, -⟩ := List.cons.inj hmore
    exact ⟨t, by rw [← hfirst, ← hsecond]; rfl⟩

/-- Where no separator begins in a text without brackets, no other mark does. -/
theorem clear_of_at?_eq_none {x : Char} {t : Text} (ho : '[' ≠ x) (hc : ']' ≠ x)
    (hat : (Cuts.ofDelimiters standard).at? (x :: t) = none) :
    ∀ mark ∈ Context.values.marks standard, ¬ mark <+: x :: (t ++ standard.closer) := by
  have hsep (level : Level) : ¬ standard.sepOf level <+: x :: (t ++ standard.closer) := by
    intro hp
    obtain ⟨s, hs⟩ := sepOf_prefix_of_closer (t := x :: t) hp
    rw [← hs, Cuts.ofDelimiters_at?_sep] at hat
    cases hat
  intro mark hmark
  simp only [Context.marks, List.mem_cons, List.not_mem_nil, or_false] at hmark
  rcases hmark with rfl | rfl | rfl | rfl
  · rintro ⟨s, hs⟩
    exact ho (List.cons.inj hs).1
  · rintro ⟨s, hs⟩
    exact hc (List.cons.inj hs).1
  · exact hsep .group
  · exact hsep .value

/-- A text without brackets is values and the separators between them. -/
theorem Unbracketed.exists_values (v : Unbracketed) :
    ∃ m, Valid standard .values standard.closer m ∧ m.source standard = v.text ∧
      ∀ position, m.tags standard position = .nil := by
  obtain ⟨t, ho, hc⟩ := v
  show ∃ m : Markup, _ ∧ m.source standard = t ∧ _
  fun_induction Cuts.pieces (Cuts.ofDelimiters standard) t with
  | case1 t level rest hat ih =>
    obtain ⟨mark, hmark, -, rfl⟩ := Cuts.at?_eq_some hat
    obtain rfl : standard.sepOf level = mark := by
      cases level <;> exact Option.some.inj hmark
    rw [List.mem_append, not_or] at ho hc
    obtain ⟨m, hvalid, hsource, htags⟩ := ih ho.2 hc.2
    exact ⟨.sep level m, .sep level hvalid, by rw [source, hsource], fun _ => htags _⟩
  | case2 => exact ⟨.done, .done _ _, rfl, fun _ => rfl⟩
  | case3 x rest hat ih =>
    -- the character goes in front of the text that follows, up to the next separator
    rw [List.mem_cons, not_or] at ho hc
    obtain ⟨m, hvalid, rfl, htags⟩ := ih ho.2 hc.2
    refine ⟨m.prepend [x], hvalid.prepend (by simp) ?_ (.inr ⟨standard.closer, ?_, ?_⟩), ?_, ?_⟩
    · intro a b hab hb
      obtain rfl : [x] = b := by
        rcases List.append_eq_singleton_iff.1 hab.symm with ⟨-, rfl⟩ | ⟨-, rfl⟩
        · rfl
        · exact absurd rfl hb
      exact clear_of_at?_eq_none ho.1 hc.1 hat
    · simp [Context.marks]
    · exact List.prefix_rfl
    · rw [source_prepend]
      rfl
    · intro position
      rw [tags_prepend, htags]

namespace Leaf

variable (leaf : Leaf)

theorem exists_header : ∃ header, Heads standard .inline leaf.key.text header ∧
    Valid standard .values standard.closer header ∧ header.source standard = leaf.header ∧
    header.values? standard = leaf.values?.map Unbracketed.text ∧
    ∀ position, header.tags standard position = .nil := by
  obtain ⟨key, values?⟩ := leaf
  cases values? with
  | none => exact ⟨.done, heads_standard _ key trivial, .done _ _, rfl, rfl, fun _ => rfl⟩
  | some v =>
    obtain ⟨m, hvalid, hsource, htags⟩ := v.exists_values
    refine ⟨.sep .group m, heads_standard _ key trivial, .sep _ hvalid, ?_, ?_, fun _ => htags _⟩
    · rw [Markup.source, hsource]
      rfl
    · rw [Markup.values?, hsource]
      rfl

/-- The tag, read alone. -/
theorem single : SingleTag.ofText standard leaf.source =
    .ok ⟨leaf.key.text, leaf.values?.map Unbracketed.text, none, leaf.source⟩ := by
  obtain ⟨header, hheads, hinside, hsource, hvalues, -⟩ := leaf.exists_header
  have hvalid : Valid standard .free [] (.inline leaf.key.text header .done) :=
    .inline hheads hinside (.done _ _)
  have hsingle := hvalid.single_inline
  rw [hvalues, Markup.source, Markup.source, List.append_nil, hsource] at hsingle
  exact hsingle

theorem call_single : SingleTag.call standard .template
    ⟨leaf.key.text, leaf.values?.map Unbracketed.text, none, leaf.source⟩ = leaf.call := by
  cases hv : leaf.values? <;> simp [SingleTag.call, call, SplitRule.cuts, templateGroups, hv]

end Leaf

namespace Bit

/-- A text of bits reads as them. -/
theorem exists_markup (bits : List Bit) : ∃ m, Valid standard .free [] m ∧
    m.source standard = bits.flatMap source ∧ ∀ index position,
      Agenda.ofTags [] index (m.tags standard position) =
        (patchwork index bits).agenda position := by
  induction bits with
  | nil => exact ⟨.done, .done _ _, rfl, fun _ _ => rfl⟩
  | cons bit bits ih =>
    obtain ⟨m, hvalid, hsource, hagenda⟩ := ih
    cases bit with
    | text t plain =>
      refine ⟨m.behind t, hvalid.behind (Context.spares_free plain) (.inl rfl), ?_, ?_⟩
      · rw [source_behind, hsource]
        rfl
      · intro index position
        rw [tags_behind, hagenda]
        simp [patchwork]
    | tag leaf =>
      obtain ⟨header, hheads, hinside, hheader, -, htags⟩ := leaf.exists_header
      refine ⟨.inline leaf.key.text header m, .inline hheads hinside hvalid, ?_, ?_⟩
      · rw [Markup.source, hheader, hsource]
        rfl
      · intro index position
        simp only [tags, htags, Agenda.ofTags, hagenda, hheader]
        simp [patchwork, Leaf.source, Forest.tree]

/-- A text of bits is a template, whose regions are their tags. -/
theorem exists_template {bits : List Bit} {fragments : List Text}
    (h : fragments.flatten = bits.flatMap source) (depth : Depth) :
    ∃ t, Template.read fragments depth standard = .ok t ∧
      (patchwork 0 bits).text = t.scene.text ∧
      (patchwork 0 bits).agenda 0 = t.scene.agenda := by
  obtain ⟨m, hvalid, hsource, hagenda⟩ := exists_markup bits
  have houtline := hvalid.outline
  rw [hsource, ← h] at houtline
  let t : Template := ⟨fragments, depth, standard, _, [], houtline⟩
  refine ⟨t, Template.read_eq_ok.2 ⟨rfl, rfl, rfl, rfl⟩, ?_, (hagenda 0 0).symm⟩
  rw [text_patchwork, ← h]
  rfl

end Bit

/-- A text in which no tag opens leaves nothing to do. -/
theorem Patchwork.ofAnswer_plain {t : Text} (h : '[' ∉ t) : ofAnswer standard t = plain t := by
  have houtline := (Markup.valid_plain h).outline
  rw [Markup.source_behind, Markup.tags_behind, Markup.source, List.append_nil] at houtline
  have hagenda : (ofAnswer standard t).agenda 0 = .nil := by
    rw [agenda_ofAnswer, Agenda.ofAnswer, houtline]
    rfl
  rw [eq_plain_of_isPlain (agenda_eq_nil.1 hagenda), text_ofAnswer]

end TagMarkup
