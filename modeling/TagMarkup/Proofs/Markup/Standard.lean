import TagMarkup.Proofs.Markup.Values

/-! Markup with the standard delimiters. Their marks begin with brackets, colons and bars, none of
which is part of a key, so a key ends where a mark begins, and a text without these characters is
text wherever it stands. -/

namespace TagMarkup

/-- A key, or nothing where a tag has no key: letters and underscores, the first of which may be a
percent sign instead, and then digits. -/
structure Key where
  text : Text
  shape : text = [] ∨ ∃ first letters digits, text = first :: (letters ++ digits) ∧
    (first = '%' ∨ isKeyLetter first = true) ∧ (∀ c ∈ letters, isKeyLetter c = true) ∧
      ∀ c ∈ digits, c.isDigit = true

/-- A key ends where a character follows that is no part of keys. -/
theorem Key.leadingKey_append (key : Key) {mark : Char} (hpercent : mark ≠ '%')
    (hletter : isKeyLetter mark = false) (hdigit : mark.isDigit = false) (t : Text) :
    leadingKey (key.text ++ mark :: t) = key.text := by
  rcases key.shape with hnil | ⟨first, letters, digits, htext, hfirst, hletters, hdigits⟩
  · simp [hnil, leadingKey, hpercent, hletter]
  · have hhead : (first = '%' || isKeyLetter first) = true := by simpa using hfirst
    have hstop : (digits ++ mark :: t).takeWhile isKeyLetter = [] := by
      cases digits with
      | nil => simp [hletter]
      | cons c digits => simp [isKeyLetter_of_isDigit (hdigits c List.mem_cons_self)]
    have hrest : (digits ++ mark :: t).dropWhile isKeyLetter = digits ++ mark :: t := by
      have hsplit := List.takeWhile_append_dropWhile (p := isKeyLetter) (l := digits ++ mark :: t)
      rwa [hstop] at hsplit
    have hmark : (mark :: t).takeWhile Char.isDigit = [] := by simp [hdigit]
    rw [htext, List.cons_append, leadingKey, if_pos hhead, List.append_assoc,
      List.takeWhile_append_of_pos hletters, List.dropWhile_append_of_pos hletters, hstop, hrest,
      List.takeWhile_append_of_pos hdigits, hmark, List.append_nil, List.append_nil]

/-- The key does not begin with a mark that tells the kind of a tag. -/
theorem Key.head?_ne (key : Key) {c : Char} (hc : c ∈ key.text.head?) : c ≠ '#' ∧ c ≠ '/' := by
  rcases key.shape with hnil | ⟨first, letters, digits, htext, hfirst, -, -⟩
  · simp [hnil] at hc
  · obtain rfl : first = c := by simpa [htext] using hc
    constructor
    · rintro rfl
      revert hfirst
      decide
    · rintro rfl
      revert hfirst
      decide

theorem Key.not_mem (key : Key) {c : Char} (hpercent : c ≠ '%') (hletter : isKeyLetter c = false)
    (hdigit : c.isDigit = false) : c ∉ key.text := by
  rcases key.shape with hnil | ⟨first, letters, digits, htext, hfirst, hletters, hdigits⟩
  · simp [hnil]
  · rw [htext]
    intro hmem
    rcases List.mem_cons.1 hmem with rfl | hmem
    · rcases hfirst with h | h
      · exact hpercent h
      · rw [hletter] at h
        cases h
    · rcases List.mem_append.1 hmem with h | h
      · have := hletters c h
        rw [hletter] at this
        cases this
      · have := hdigits c h
        rw [hdigit] at this
        cases this

/-- A mark does not begin in a text without its first character. -/
theorem Text.not_begins_of_head {mark t b s : Text} (hmark : mark ≠ []) (hb : b <:+ t)
    (hne : b ≠ []) (h : ∀ c ∈ mark.head?, c ∉ t) : ¬ mark <+: b ++ s := by
  rintro ⟨more, hmore⟩
  cases b with
  | nil => exact hne rfl
  | cons x b =>
    cases mark with
    | nil => exact hmark rfl
    | cons c mark =>
      obtain rfl : c = x := (List.cons.inj hmore).1
      exact h c rfl (hb.subset List.mem_cons_self)

open Delimiters (standard)

/-- None of the characters that the marks of a context begin with is in the text. -/
def Context.Spares (context : Context) (t : Text) : Prop :=
  ∀ mark ∈ context.marks standard, ∀ c ∈ mark.head?, c ∉ t

theorem Context.Spares.clear {context : Context} {t a b : Text} (h : context.Spares t)
    (hab : t = a ++ b) (hb : b ≠ []) (s : Text) :
    ∀ mark ∈ context.marks standard, ¬ mark <+: b ++ s := by
  intro mark hmark
  obtain ⟨r, rfl⟩ := exists_role hmark
  exact Text.not_begins_of_head (standard.wellFormed.nonempty r) (hab ▸ List.suffix_append a b) hb
    (h _ hmark)

theorem Context.spares_free {t : Text} (h : '[' ∉ t) : free.Spares t := by
  intro mark hmark c hc
  obtain rfl := List.mem_singleton.1 hmark
  obtain rfl : c = '[' := (Option.some.inj hc).symm
  exact h

namespace Markup

variable {kind : TagKind} {context : Context} {after : Text} {m header : Markup}

/-- A key with a header makes the head of a tag. -/
theorem heads_standard (kind : TagKind) (key : Key) (hshape : header.IsHeader) :
    Heads standard kind key.text header := by
  obtain ⟨mark, more, hmark, hnext⟩ : ∃ mark more, (mark = ':' ∨ mark = ']') ∧
      header.source standard ++ standard.closer = mark :: more := by
    match header, hshape with
    | .done, _ => exact ⟨']', _, .inr rfl, rfl⟩
    | .sep .group items, _ => exact ⟨':', _, .inl rfl, rfl⟩
  have hkey (s : Text) : leadingKey (key.text ++ mark :: s) = key.text := by
    rcases hmark with rfl | rfl
    · exact key.leadingKey_append (by decide) (by decide) (by decide) s
    · exact key.leadingKey_append (by decide) (by decide) (by decide) s
  -- the character behind the opener is the first one of the key, or a mark's
  have hbehind (c : Char) (hc : c = '#' ∨ c = '/') :
      ¬ standard.opener ++ [c] <+: standard.opener ++ (key.text ++ mark :: more) := by
    rw [List.prefix_append_right_inj]
    cases hk : key.text with
    | nil =>
      rintro ⟨s, hs⟩
      obtain rfl : c = mark := (List.cons.inj hs).1
      revert hc hmark
      rintro (rfl | rfl) (h | h) <;> cases h
    | cons x k =>
      rintro ⟨s, hs⟩
      obtain rfl : c = x := (List.cons.inj hs).1
      obtain ⟨hblock, hclose⟩ := key.head?_ne (c := c) (by simp [hk])
      exact hc.elim hblock hclose
  refine ⟨hshape, ?_, ?_⟩
  · rw [hnext]
    exact hkey more
  · rintro rfl
    rw [Delimiters.head, hnext]
    exact ⟨hbehind '#' (.inl rfl), hbehind '/' (.inr rfl)⟩

/-- Markup with a text in front of it, which may be empty. -/
def behind (t : Text) (m : Markup) : Markup := if t = [] then m else m.prepend t

@[simp] theorem source_behind (d : Delimiters) (t : Text) (m : Markup) :
    (m.behind t).source d = t ++ m.source d := by
  unfold behind
  split
  · next h => simp [h]
  · exact source_prepend t m

@[simp] theorem tags_prepend (d : Delimiters) (t : Text) (m : Markup) (position : Nat) :
    (m.prepend t).tags d position = m.tags d (position + t.bytes) := by
  cases m <;> simp [prepend, tags, Nat.add_assoc]

@[simp] theorem tags_behind (d : Delimiters) (t : Text) (m : Markup) (position : Nat) :
    (m.behind t).tags d position = m.tags d (position + t.bytes) := by
  unfold behind
  split
  · next h => simp [h]
  · exact tags_prepend d t m position

theorem ofPieces_prepend (d : Delimiters) (t : Text) (m : Markup) :
    Groups.ofPieces ((m.prepend t).pieces d) = Groups.ofPieces (.kept t :: m.pieces d) := by
  cases m <;> simp [prepend, pieces]

theorem ofPieces_behind (d : Delimiters) (t : Text) (m : Markup) :
    Groups.ofPieces ((m.behind t).pieces d) = Groups.ofPieces (.kept t :: m.pieces d) := by
  unfold behind
  split
  · next h => simp [h]
  · exact ofPieces_prepend d t m

/-- Behind the markup there is nothing, or a mark that ends a text. -/
def Ends (context : Context) (after : Text) : Prop :=
  after = [] ∨ ∃ mark ∈ context.marks standard, mark <+: after

theorem Valid.behind {t : Text} (h : Valid standard context after m) (ht : context.Spares t)
    (ha : Ends context after) : Valid standard context after (m.behind t) := by
  unfold Markup.behind
  split
  · exact h
  · next hne => exact h.prepend hne (fun a b hab hb => ht.clear hab hb _) ha

theorem valid_plain {t : Text} (h : '[' ∉ t) : Valid standard .free [] (done.behind t) :=
  (Valid.done _ _).behind (Context.spares_free h) (.inl rfl)

end Markup

/-- A text in which no tag opens is split at all of its separators. -/
theorem templateGroups_of_plain {t : Text} (h : '[' ∉ t) : templateGroups standard t =
    (Groups.ofPieces ((Cuts.ofDelimiters standard).pieces t)).toList := by
  have hsplit := (Markup.valid_plain h).splitGroups_eq (.ofDelimiters standard)
  have hpieces : (Markup.done.behind t).freePieces standard (.ofDelimiters standard) =
      (Cuts.ofDelimiters standard).pieces t := by
    unfold Markup.behind
    split
    · next ht => simp [ht, Markup.freePieces]
    · simp [Markup.prepend, Markup.freePieces]
  rw [Markup.source_behind, hpieces, Markup.source, List.append_nil] at hsplit
  exact hsplit

end TagMarkup
