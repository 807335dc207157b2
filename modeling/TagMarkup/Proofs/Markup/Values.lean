import TagMarkup.Proofs.Markup.Locality

/-! The values of a tag. In the outline they are what its own separators leave of its header. A tag
that is read alone has its header read once more, as free text in which separators are found
afterwards. Unless a separator ends with what the opener begins with, the tags in that text are
those among the values, and the tag has the same values either way (`Outline.call_of_slice`). -/

namespace TagMarkup

namespace Delimiters

variable {d : Delimiters} {level : Level}

/-- No separator ends with what the opener begins with. -/
def OpenerApart (d : Delimiters) : Prop :=
  ∀ level b, b ≠ [] → b <:+ d.sepOf level → ¬ b <+: d.opener

/-- It is enough that no separator holds the character that the opener begins with. -/
theorem OpenerApart.of_head (h : ∀ level, ∀ c ∈ d.opener.head?, c ∉ d.sepOf level) :
    d.OpenerApart := by
  rintro level b hb hsep ⟨more, hopener⟩
  cases b with
  | nil => exact hb rfl
  | cons c b =>
    have hhead : c ∈ d.opener.head? := by simp [← hopener]
    exact h level c hhead (hsep.subset List.mem_cons_self)

theorem standard_openerApart : standard.OpenerApart := by
  refine .of_head fun level c hc => ?_
  obtain rfl : c = '[' := (Option.some.inj hc).symm
  cases level <;> decide

theorem sepOf_ne_nil (d : Delimiters) (level : Level) : d.sepOf level ≠ [] := by
  cases level
  · exact d.sep_ne_nil
  · exact d.subSep_ne_nil

theorem opener_not_infix_sepOf (d : Delimiters) (level : Level) :
    ¬ d.opener <:+: d.sepOf level := by
  rw [d.sepOf_eq_get]
  exact d.wellFormed.apart .opener level.role (by cases level <;> decide)

/-- No tag opens in a separator, whatever follows it. -/
theorem OpenerApart.clear (h : d.OpenerApart) {a b : Text} (hab : d.sepOf level = a ++ b)
    (hb : b ≠ []) (s : Text) : ¬ d.opener <+: b ++ s := by
  have hsuffix : b <:+ d.sepOf level := hab ▸ List.suffix_append a b
  intro hp
  rcases List.prefix_or_prefix_of_prefix hp (List.prefix_append b s) with h' | h'
  · exact d.opener_not_infix_sepOf level (h'.isInfix.trans hsuffix.isInfix)
  · exact h level b hb hsuffix h'

end Delimiters

namespace Groups

variable {ps qs : List Piece}

/-- Characters that are kept one by one are kept like one text. -/
theorem ofPieces_kept_chars (t : Text) (ps : List Piece) :
    ofPieces (t.map (fun c => .kept [c]) ++ ps) = ofPieces (.kept t :: ps) := by
  induction t with
  | nil => rfl
  | cons c t ih => simp [ih]

theorem ofPieces_append_congr (rs : List Piece) (h : ofPieces ps = ofPieces qs) :
    ofPieces (rs ++ ps) = ofPieces (rs ++ qs) := by
  rw [ofPieces, List.foldr_append, ← ofPieces, h, ofPieces, ← List.foldr_append, ← ofPieces]

end Groups

namespace Cuts

variable {c : Cuts} {d : Delimiters} {t s : Text}

theorem pieces_of_at?_eq_some {rest : Text} {level : Level} (h : c.at? t = some (level, rest)) :
    c.pieces t = .cut level :: c.pieces rest := by
  rw [pieces]
  split
  · next h' =>
    rw [h] at h'
    cases h'
    rfl
  · next h' =>
    rw [h] at h'
    cases h'

theorem pieces_of_at?_eq_none {x : Char} (h : c.at? (x :: t) = none) :
    c.pieces (x :: t) = .kept [x] :: c.pieces t := by
  rw [pieces]
  split
  · next h' =>
    rw [h] at h'
    cases h'
  · rfl

@[simp] theorem pieces_nil (c : Cuts) : c.pieces [] = [] := by
  rw [pieces]
  split
  · next h =>
    obtain ⟨sep, -, hne, hsep⟩ := at?_eq_some h
    exact absurd (List.append_eq_nil_iff.1 hsep.symm).1 hne
  · rfl

/-- Nothing is cut in front of a text if no separator begins there. -/
theorem pieces_append (h : ∀ a b, t = a ++ b → b ≠ [] → c.at? (b ++ s) = none) :
    c.pieces (t ++ s) = t.map (fun x => .kept [x]) ++ c.pieces s := by
  induction t with
  | nil => rfl
  | cons x t ih =>
    have hfirst : c.at? (x :: (t ++ s)) = none := h [] (x :: t) rfl (by simp)
    have hrest := ih fun a b hab => h (x :: a) b (by rw [hab]; rfl)
    rw [List.cons_append, pieces_of_at?_eq_none hfirst, hrest]
    rfl

theorem ofDelimiters_at?_eq_none (h : ∀ level, ¬ d.sepOf level <+: t) :
    (ofDelimiters d).at? t = none := by
  cases hat : (ofDelimiters d).at? t with
  | none => rfl
  | some found =>
    obtain ⟨level, rest⟩ := found
    obtain ⟨sep, hmark, -, rfl⟩ := at?_eq_some hat
    have hsep : d.sepOf level = sep := by
      cases level <;> exact Option.some.inj hmark
    exact absurd (hsep ▸ List.prefix_append _ _) (h level)

theorem ofDelimiters_at?_sep (d : Delimiters) (level : Level) (s : Text) :
    (ofDelimiters d).at? (d.sepOf level ++ s) = some (level, s) := by
  cases level with
  | group => simp [at?, ofDelimiters, Delimiters.sepOf, Option.filter]
  | value =>
    -- the separator of groups comes first, but it does not begin one of values
    have hgroup : ¬ d.sep <+: d.subSep ++ s := by
      intro hp
      have hinfix : d.get .subSep <:+: d.subSep := List.infix_rfl
      have hsep : d.get .sep <+: d.subSep ++ s := hp
      have hwhole := d.begins_of_begins_append hinfix hsep
      exact d.wellFormed.apart .sep .subSep (by decide) hwhole.isInfix
    simp [at?, ofDelimiters, Delimiters.sepOf, Option.filter, hgroup]

end Cuts

/-- The pieces of a token when a text is cut outside its tags. -/
def Token.pieces (c : Cuts) (token : Token) : List Piece :=
  if token.depth = 0 ∧ token.kind = .text then c.pieces token.text else [.kept token.text]

theorem topLevelPieces_of_tokenize {d : Delimiters} {c : Cuts} {t : Text} {tokens : List Token}
    (h : tokenize d t = .ok tokens) : topLevelPieces d c t = tokens.flatMap (Token.pieces c) := by
  simp only [topLevelPieces, h]
  rfl

/-- Tokens inside of tags are kept. -/
theorem Groups.ofPieces_inside {c : Cuts} {tokens : List Token} (ps : List Piece)
    (h : ∀ token ∈ tokens, 0 < token.depth) :
    ofPieces (tokens.flatMap (Token.pieces c) ++ ps) =
      ofPieces (.kept (tokens.flatMap Token.text) :: ps) := by
  induction tokens with
  | nil => rfl
  | cons token tokens ih =>
    have hfirst : token.pieces c = [.kept token.text] := by
      have := h token List.mem_cons_self
      exact if_neg fun hc => by omega
    have hrest := ih fun token hmem => h token (List.mem_cons_of_mem _ hmem)
    simp only [List.flatMap_cons, hfirst, List.cons_append, List.nil_append, ofPieces_kept, hrest,
      List.append_assoc]

namespace Markup

variable {d : Delimiters} {c : Cuts} {context : Context} {after t : Text} {m header one : Markup}
  {position : Nat} {tag : Tag} {inside : Forest Tag}

theorem tokens_text (depth position : Nat) (m : Markup) :
    (m.tokens d depth position).flatMap Token.text = m.source d := by
  have hkey (depth position : Nat) (key : Text) :
      (keyTokens depth position key).flatMap Token.text = key := by
    unfold keyTokens
    split <;> simp_all
  induction m generalizing depth position with
  | done => rfl
  | text t rest ih | sep level rest ih => simp [tokens, source, ih]
  | inline key header rest ihh ihr =>
    simp [tokens, source, headTokens, Delimiters.head, hkey, ihh, ihr]
  | block key header body endKey rest ihh ihb ihr =>
    simp [tokens, source, headTokens, endingTokens, Delimiters.head, Delimiters.ending, hkey, ihh,
      ihb, ihr]

theorem IsTag.lt_depth (h : one.IsTag) {depth : Nat} {token : Token}
    (ht : token ∈ one.tokens d depth position) : depth < token.depth := by
  have hin {m : Markup} (position : Nat) (token : Token)
      (h : token ∈ m.tokens d (depth + 1) position) : depth + 1 ≤ token.depth := by
    rcases of_mem_tokens h with h | ⟨h, -⟩
    · omega
    · omega
  cases h with
  | inline key header =>
    rcases List.mem_append.1 ht with ht | ht
    · exact le_depth_of_mem_headTokens hin ht
    · cases ht
  | block key header body endKey =>
    simp only [tokens, List.mem_append, List.not_mem_nil, or_false] at ht
    rcases ht with ht | ht | ht
    · exact le_depth_of_mem_headTokens hin ht
    · exact hin _ _ ht
    · exact le_depth_of_mem_endingTokens ht

/-- The pieces of free text that is cut outside its tags. -/
def freePieces (d : Delimiters) (c : Cuts) : Markup → List Piece
  | done => []
  | text t rest => c.pieces t ++ rest.freePieces d c
  | sep level rest => .kept (d.sepOf level) :: rest.freePieces d c
  | inline key header rest =>
    .kept (source d (.inline key header .done)) :: rest.freePieces d c
  | block key header body endKey rest =>
    .kept (source d (.block key header body endKey .done)) :: rest.freePieces d c

theorem ofPieces_tokens (position : Nat) (m : Markup) :
    Groups.ofPieces ((m.tokens d 0 position).flatMap (Token.pieces c)) =
      Groups.ofPieces (m.freePieces d c) := by
  have htag {one : Markup} (hone : one.IsTag) (position : Nat) (ps : List Piece) :
      Groups.ofPieces ((one.tokens d 0 position).flatMap (Token.pieces c) ++ ps) =
        Groups.ofPieces (.kept (one.source d) :: ps) := by
    rw [Groups.ofPieces_inside ps fun token hmem => hone.lt_depth hmem, tokens_text]
  induction m generalizing position with
  | done => rfl
  | text t rest ih =>
    rw [tokens, List.flatMap_cons, freePieces]
    exact Groups.ofPieces_append_congr (c.pieces t) (ih _)
  | sep level rest ih =>
    rw [tokens, List.flatMap_cons, freePieces]
    exact Groups.ofPieces_append_congr [.kept (d.sepOf level)] (ih _)
  | inline key header rest _ ih =>
    have hsplit := tokens_append (d := d) 0 position (.inline key header .done) rest
    rw [inline_append, done_append] at hsplit
    rw [hsplit, List.flatMap_append, htag (.inline key header), freePieces]
    exact Groups.ofPieces_append_congr [.kept _] (ih _)
  | block key header body endKey rest _ _ ih =>
    have hsplit := tokens_append (d := d) 0 position (.block key header body endKey .done) rest
    rw [block_append, done_append] at hsplit
    rw [hsplit, List.flatMap_append, htag (.block key header body endKey), freePieces]
    exact Groups.ofPieces_append_congr [.kept _] (ih _)

/-- Free text is cut outside its tags. -/
theorem Valid.splitGroups_eq (h : Valid d .free [] m) (c : Cuts) :
    splitGroups d c (m.source d) = (Groups.ofPieces (m.freePieces d c)).toList := by
  rw [splitGroups, topLevelPieces_of_tokenize h.tokenize, ofPieces_tokens]

/-- The markup with a text in front of it, which makes one text with the text that begins it. -/
def prepend (t : Text) : Markup → Markup
  | text s rest => text (t ++ s) rest
  | m => text t m

/-- Markup among values as it reads in free text, where a separator is text. -/
def freed (d : Delimiters) : Markup → Markup
  | done => done
  | text t rest => (rest.freed d).prepend t
  | sep level rest => (rest.freed d).prepend (d.sepOf level)
  | inline key header rest => inline key header (rest.freed d)
  | block key header body endKey rest => block key header body endKey (rest.freed d)

@[simp] theorem source_prepend (t : Text) (m : Markup) :
    (m.prepend t).source d = t ++ m.source d := by
  cases m <;> simp [prepend, source]

@[simp] theorem source_freed (m : Markup) : (m.freed d).source d = m.source d := by
  induction m with
  | done => rfl
  | text t rest ih | sep level rest ih => simp [freed, source, ih]
  | inline key header rest _ ih => simp [freed, source, ih]
  | block key header body endKey rest _ _ ih => simp [freed, source, ih]

/-- A text in which no mark begins may stand in front of markup, if a mark or nothing follows. -/
theorem Valid.prepend (h : Valid d context after m) (ht : t ≠ [])
    (hclear : ∀ a b, t = a ++ b → b ≠ [] →
      ∀ mark ∈ context.marks d, ¬ mark <+: b ++ (m.source d ++ after))
    (ha : after = [] ∨ ∃ mark ∈ context.marks d, mark <+: after) :
    Valid d context after (m.prepend t) := by
  have hbefore {m : Markup} {mark : Text} (hmem : mark ∈ context.marks d)
      (hm : mark <+: m.source d) : ∃ mark ∈ context.marks d, mark <+: m.source d ++ after :=
    ⟨mark, hmem, hm.trans (List.prefix_append _ _)⟩
  have hopener : d.opener ∈ context.marks d := by cases context <;> simp [Context.marks]
  cases h with
  | done => exact .text ht ⟨hclear, ha⟩ (.done _ _)
  | text nonempty ends behind =>
    refine .text (by simp [ht]) (.append ?_ ends) behind
    simpa [source] using hclear
  | @sep _ rest level behind =>
    have hmem : d.sepOf level ∈ Context.marks d .values := by
      cases level <;> simp [Context.marks, Delimiters.sepOf]
    have hbegins : d.sepOf level <+: source d (.sep level rest) := List.prefix_append _ _
    exact .text ht ⟨hclear, .inr (hbefore hmem hbegins)⟩ (.sep level behind)
  | @inline _ _ key header rest heads inside behind =>
    have hbegins : d.opener <+: source d (.inline key header rest) := by
      simp [source, Delimiters.head, Delimiters.openerOf]
    exact .text ht ⟨hclear, .inr (hbefore hopener hbegins)⟩ (.inline heads inside behind)
  | @block _ _ key endKey header body rest heads inside within ending behind =>
    have hbegins : d.opener <+: source d (.block key header body endKey rest) := by
      simp [source, Delimiters.head, Delimiters.openerOf, Delimiters.blockOpener]
    exact .text ht ⟨hclear, .inr (hbefore hopener hbegins)⟩
      (.block heads inside within ending behind)

/-- If the opener is apart from the separators, markup among values is valid in free text, too. -/
theorem Valid.freed (h : Valid d context after m) (hc : context = .values) (hd : d.OpenerApart) :
    Valid d .free [] (m.freed d) := by
  -- in free text only the opener ends a text, and nothing follows here
  have hfront {m : Markup} {t : Text} (hm : Valid d .free [] m) (ht : t ≠ [])
      (hclear : ∀ a b, t = a ++ b → b ≠ [] → ¬ d.opener <+: b ++ m.source d) :
      Valid d .free [] (m.prepend t) := by
    refine hm.prepend ht (fun a b hab hb mark hmark => ?_) (.inl rfl)
    rw [List.mem_singleton.1 hmark, List.append_nil]
    exact hclear a b hab hb
  induction h with
  | done => exact .done _ _
  | @text context after t rest nonempty ends _ ih =>
    refine hfront (ih hc) nonempty fun a b hab hb => ?_
    rw [source_freed]
    exact ends.clear_of_append hab hb (by cases context <;> simp [Context.marks])
  | sep level _ ih =>
    exact hfront (ih hc) (d.sepOf_ne_nil level) fun a b hab hb => hd.clear hab hb _
  | inline heads inside _ _ ih => exact .inline heads inside (ih hc)
  | block heads inside within ending _ _ _ ih => exact .block heads inside within ending (ih hc)

/-- A text in front in which no separator begins is kept. -/
theorem ofPieces_prepend_text
    (hclear : ∀ a b, t = a ++ b → b ≠ [] → ∀ level, ¬ d.sepOf level <+: b ++ m.source d) :
    Groups.ofPieces ((m.prepend t).freePieces d (.ofDelimiters d)) =
      Groups.ofPieces (.kept t :: m.freePieces d (.ofDelimiters d)) := by
  have hpieces {s : Text} (hs : s <+: m.source d) : (Cuts.ofDelimiters d).pieces (t ++ s) =
      t.map (fun x => .kept [x]) ++ (Cuts.ofDelimiters d).pieces s := by
    refine Cuts.pieces_append fun a b hab hb => Cuts.ofDelimiters_at?_eq_none fun level hp => ?_
    exact hclear a b hab hb level (hp.trans ((List.prefix_append_right_inj b).2 hs))
  rw [← Groups.ofPieces_kept_chars]
  have halone := hpieces List.nil_prefix
  rw [List.append_nil, Cuts.pieces_nil, List.append_nil] at halone
  cases m with
  | text s rest =>
    have := hpieces (s := s) (by simp [source])
    simp only [prepend, freePieces, this, List.append_assoc]
  | _ => simp only [prepend, freePieces, halone]

/-- A separator in front cuts. -/
theorem freePieces_prepend_sep (level : Level) (m : Markup) :
    (m.prepend (d.sepOf level)).freePieces d (.ofDelimiters d) =
      .cut level :: m.freePieces d (.ofDelimiters d) := by
  have hcut (s : Text) : (Cuts.ofDelimiters d).pieces (d.sepOf level ++ s) =
      .cut level :: (Cuts.ofDelimiters d).pieces s :=
    Cuts.pieces_of_at?_eq_some (Cuts.ofDelimiters_at?_sep d level s)
  have halone := hcut []
  rw [List.append_nil, Cuts.pieces_nil] at halone
  cases m with
  | text s rest => simp only [prepend, freePieces, hcut, List.cons_append]
  | _ => simp only [prepend, freePieces, halone, List.cons_append, List.nil_append]

/-- Markup among values is cut where it has separators of its own, also when it is read as free
text. -/
theorem Valid.ofPieces_freed (h : Valid d context after m) (hc : context = .values) :
    Groups.ofPieces ((m.freed d).freePieces d (.ofDelimiters d)) =
      Groups.ofPieces (m.pieces d) := by
  induction h with
  | done => rfl
  | @text context after t rest _ ends _ ih =>
    rw [Markup.freed, ofPieces_prepend_text, pieces, Groups.ofPieces_kept, Groups.ofPieces_kept,
      ih hc]
    intro a b hab hb level
    have hmem : d.sepOf level ∈ context.marks d := by
      subst hc
      cases level <;> simp [Context.marks, Delimiters.sepOf]
    rw [source_freed]
    exact ends.clear_of_append hab hb hmem
  | sep level _ ih =>
    rw [Markup.freed, freePieces_prepend_sep, pieces]
    exact Groups.ofPieces_append_congr [.cut level] (ih hc)
  | @inline _ _ key header rest _ _ _ _ ih =>
    have hone : source d (.inline key header .done) = d.head .inline key (header.source d) := by
      simp [source]
    rw [Markup.freed, freePieces, pieces, hone]
    exact Groups.ofPieces_append_congr [.kept _] (ih hc)
  | @block _ _ key endKey header body rest _ _ _ _ _ _ _ ih =>
    have hone : source d (.block key header body endKey .done) =
        d.head .block key (header.source d) ++ (body.source d ++ d.ending endKey) := by
      simp [source]
    rw [Markup.freed, freePieces, pieces, hone]
    exact Groups.ofPieces_append_congr [.kept _] (ih hc)

theorem Valid.templateGroups_eq (h : Valid d .values after m) (hd : d.OpenerApart) :
    templateGroups d (m.source d) = (Groups.ofPieces (m.pieces d)).toList := by
  have hfreed := (h.freed rfl hd).splitGroups_eq (.ofDelimiters d)
  rw [source_freed, h.ofPieces_freed rfl] at hfreed
  exact hfreed

theorem IsHeader.groups_eq (hshape : header.IsHeader) (h : Valid d .values after header)
    (hd : d.OpenerApart) :
    ((header.values? d).map (templateGroups d)).getD [] = header.groups d := by
  match header, hshape with
  | .done, _ => rfl
  | .sep .group items, _ =>
    cases h with
    | sep _ behind =>
    have hitems := behind.templateGroups_eq hd
    simpa [values?, groups, pieces] using hitems

theorem IsTag.call_eq (h : one.IsTag) (hvalid : Valid d .free [] one) (hd : d.OpenerApart)
    (ht : one.tags d position = .tree tag inside) : ∃ read,
      SingleTag.ofText d (one.source d) = .ok read ∧ read.call d .template = tag.call := by
  cases h with
  | inline key header =>
    have hread := hvalid.single_inline
    cases hvalid with
    | inline heads hvalues _ =>
    cases ht
    refine ⟨_, hread, ?_⟩
    show Call.mk key (((header.values? d).map (templateGroups d)).getD [] ++ []) = _
    rw [heads.shape.groups_eq hvalues hd, List.append_nil]
  | block key header body endKey =>
    have hread := hvalid.single_block
    cases hvalid with
    | block heads hvalues _ _ _ =>
    cases ht
    refine ⟨_, hread, ?_⟩
    show Call.mk key (((header.values? d).map (templateGroups d)).getD [] ++
      templateGroups d (body.source d)) = _
    rw [heads.shape.groups_eq hvalues hd]

end Markup

/-- The tag can be read alone from its slice of the text, and then says what it says in the text. -/
def Tag.SaysAlone (d : Delimiters) (text : Text) (tag : Tag) : Prop :=
  ∃ slice read, text.slice? tag.start tag.stop = some slice ∧ SingleTag.ofText d slice = .ok read ∧
    read.call d .template = tag.call

/-- If the opener is apart from the separators, every tag of a text says the same read alone. -/
theorem Outline.call_of_slice {d : Delimiters} {text : Text} {o : Outline} {i : Nat} {path : Path}
    {tag : Tag} {inside : Forest Tag} (hd : d.OpenerApart) (h : Outline.ofText d text = .ok o)
    (hf : o.tags.find? i path = some (tag, inside)) : tag.SaysAlone d text := by
  obtain ⟨m, hvalid, rfl, rfl⟩ := Markup.exists_of_outline h
  obtain ⟨one, hone, hvalid', hwithin, htags⟩ := hvalid.hasTag hf
  obtain ⟨read, hread, hcall⟩ := hone.call_eq hvalid' hd htags
  refine ⟨one.source d, read, ?_, hread, hcall⟩
  rw [hone.stop_eq htags]
  exact hwithin.slice?

end TagMarkup
