import TagMarkup.Proofs.Markup.Locality
import TagMarkup.Proofs.Outline.Nesting
import TagMarkup.Proofs.Tag.Extent

/-! The nodes of an outline against the tokens of its text. There is one node for each token that
opens a tag, in their order; it ends with the closer of that tag, and its parent is the innermost
tag that is open where it begins (`Outline.mirrors_tokens`). -/

namespace TagMarkup

/-- The openers among the tokens are those of the tags, one for one and in order. -/
structure Shows (tokens : List Token) (tags : List Tag) : Prop where
  count : tokens.countP (·.kind.isOpen) = tags.length
  spans : ∀ before opener behind, tokens = before ++ opener :: behind → opener.kind.isOpen = true →
    ∃ tag, tags[before.countP (·.kind.isOpen)]? = some tag ∧ tag.Spans opener behind

namespace Shows

variable {ts us : List Token} {tags tags' : List Tag} {tag : Tag} {opener : Token}

theorem plain (h : ∀ token ∈ ts, token.kind.isOpen = false) : Shows ts [] := by
  refine ⟨?_, ?_⟩
  · rw [List.countP_eq_zero.2 fun token htoken => by simp [h token htoken]]
    rfl
  · rintro before opener behind rfl hopen
    rw [h opener (by simp)] at hopen
    cases hopen

theorem mark {token : Token} (h : token.kind.isOpen = false) : Shows [token] [] :=
  .plain (by simpa using h)

theorem append (h : Shows ts tags) (h' : Shows us tags') : Shows (ts ++ us) (tags ++ tags') := by
  refine ⟨by rw [List.countP_append, h.count, h'.count, List.length_append], ?_⟩
  intro before opener behind hsplit hopen
  rcases List.append_eq_append_iff.1 hsplit with ⟨front, rfl, hus⟩ | ⟨front, hts, hback⟩
  · -- the opener is one of the tokens behind
    obtain ⟨tag, htag, hspans⟩ := h'.spans front opener behind hus hopen
    refine ⟨tag, ?_, hspans⟩
    rw [List.countP_append, h.count, List.getElem?_append_right (Nat.le_add_right _ _),
      Nat.add_sub_cancel_left, htag]
  · cases front with
    | nil =>
      obtain ⟨tag, htag, hspans⟩ := h'.spans [] opener behind hback.symm hopen
      refine ⟨tag, ?_, hspans⟩
      rw [List.append_nil] at hts
      rw [← hts, h.count, List.getElem?_append_right (Nat.le_refl _), Nat.sub_self]
      exact htag
    | cons first front =>
      obtain ⟨rfl, rfl⟩ := List.cons.inj hback
      obtain ⟨tag, htag, hspans⟩ := h.spans before opener front hts hopen
      refine ⟨tag, ?_, hspans.append us⟩
      rw [List.getElem?_append_left (List.getElem?_eq_some_iff.1 htag).1, htag]

theorem opened (h : Shows ts tags) (hs : tag.Spans opener ts) :
    Shows (opener :: ts) (tag :: tags) := by
  have hopen : opener.kind.isOpen = true := by rw [hs.kind, Cursor.isOpen_openToken]
  refine ⟨by simp [hopen, h.count], ?_⟩
  intro before other behind hsplit hother
  cases before with
  | nil =>
    obtain ⟨rfl, rfl⟩ := List.cons.inj hsplit
    exact ⟨tag, rfl, hs⟩
  | cons first before =>
    obtain ⟨rfl, hts⟩ := List.cons.inj hsplit
    obtain ⟨found, hfound, hspans⟩ := h.spans before other behind hts hother
    refine ⟨found, ?_, hspans⟩
    rw [List.countP_cons_of_pos (by simpa using hopen), List.getElem?_cons_succ, hfound]

end Shows

namespace Markup

variable {d : Delimiters} {kind : TokenKind} {key : Text} {header m : Markup}

theorem kind_of_mem_keyTokens {depth position : Nat} {token : Token}
    (h : token ∈ keyTokens depth position key) : token.kind = .key := by
  unfold keyTokens at h
  split at h
  · cases h
  · rw [List.mem_singleton.1 h]

theorem keyTokens_lack (hk : kind ≠ .key) (depth position : Nat) (key : Text) :
    Lack kind depth (keyTokens depth position key) := by
  intro token htoken
  refine ⟨Nat.le_of_eq (depth_of_mem_keyTokens htoken).symm, fun _ => ?_⟩
  rw [kind_of_mem_keyTokens htoken]
  exact hk.symm

theorem keyTokens_shows (depth position : Nat) (key : Text) :
    Shows (keyTokens depth position key) [] :=
  .plain fun token htoken => by rw [kind_of_mem_keyTokens htoken]; rfl

/-- A mark that ends a part of a tag is not among the tokens of markup in that part. -/
theorem tokens_lack (hk : ∀ token : Token, token.IsContent → token.kind ≠ kind)
    (depth position : Nat) (m : Markup) : Lack kind depth (m.tokens d depth position) := by
  intro token htoken
  rcases of_mem_tokens htoken with hdepth | ⟨hdepth, hcontent⟩
  · exact ⟨by omega, fun hsame => by omega⟩
  · exact ⟨by omega, fun _ => hk token hcontent⟩

theorem tokens_lack_close (depth position : Nat) (m : Markup) :
    Lack .close depth (m.tokens d depth position) := by
  refine tokens_lack ?_ depth position m
  rintro token (htext | ⟨level, hsep⟩)
  · simp [htext]
  · simp [hsep]

theorem tokens_lack_blockClose (depth position : Nat) (m : Markup) :
    Lack .blockClose depth (m.tokens d depth position) := by
  refine tokens_lack ?_ depth position m
  rintro token (htext | ⟨level, hsep⟩)
  · simp [htext]
  · simp [hsep]

theorem tokens_shows (depth position : Nat) (m : Markup) :
    Shows (m.tokens d depth position) (m.tags d position).toList := by
  induction m generalizing depth position with
  | done => exact .plain (by simp [tokens])
  | text t rest ih => exact (Shows.mark rfl).append (ih _ _)
  | sep level rest ih => exact (Shows.mark rfl).append (ih _ _)
  | inline key header rest ihh ihr =>
    let keyAt := position + (d.openerOf .inline).bytes
    let headerAt := keyAt + key.bytes
    let close : Token :=
      ⟨.close, headerAt + (header.source d).bytes, d.closer, depth + 1⟩
    let opener : Token := ⟨.inlineOpen, position, d.openerOf .inline, depth + 1⟩
    let inside := keyTokens (depth + 1) keyAt key ++ header.tokens d (depth + 1) headerAt
    let tag : Tag := ⟨.inline, ⟨key, header.groups d⟩, position,
      position + (d.head .inline key (header.source d)).bytes⟩
    have hlack : Lack .close (depth + 1) inside :=
      (keyTokens_lack (by simp) _ _ _).append (tokens_lack_close _ _ _)
    have hstop : tag.stop = close.stop := by
      simp [tag, close, headerAt, keyAt, Token.stop, Delimiters.head, Nat.add_assoc]
    have hspans : tag.Spans opener (inside ++ [close]) :=
      ⟨rfl, rfl, inside, close, [], rfl, .inline hlack rfl rfl, hstop⟩
    have hinside : Shows inside (header.tags d headerAt).toList :=
      (keyTokens_shows _ _ _).append (ihh _ _)
    have htag := (hinside.append (.mark rfl)).opened hspans
    have hall := htag.append (ihr depth tag.stop)
    simpa [tokens, tags, headTokens, Forest.toList, Cursor.openToken, inside, opener, close, tag,
      keyAt, headerAt] using hall
  | block key header body endKey rest ihh ihb ihr =>
    let keyAt := position + (d.openerOf .block).bytes
    let headerAt := keyAt + key.bytes
    let bodyAt := position + (d.head .block key (header.source d)).bytes
    let endingAt := bodyAt + (body.source d).bytes
    let endKeyAt := endingAt + d.blockCloser.bytes
    let opener : Token := ⟨.blockOpen, position, d.openerOf .block, depth + 1⟩
    let headerClose : Token :=
      ⟨.close, headerAt + (header.source d).bytes, d.closer, depth + 1⟩
    let blockClose : Token := ⟨.blockClose, endingAt, d.blockCloser, depth + 1⟩
    let close : Token := ⟨.close, endKeyAt + endKey.bytes, d.closer, depth + 1⟩
    let front := keyTokens (depth + 1) keyAt key ++ (header.tokens d (depth + 1) headerAt ++
      headerClose :: body.tokens d (depth + 1) bodyAt)
    let ending := keyTokens (depth + 1) endKeyAt endKey
    let tag : Tag := ⟨.block, ⟨key, header.groups d ++ templateGroups d (body.source d)⟩, position,
      endingAt + (d.ending endKey).bytes⟩
    have hlack : Lack .blockClose (depth + 1) front :=
      (keyTokens_lack (by simp) _ _ _).append <| (tokens_lack_blockClose _ _ _).append <|
        .cons (Nat.le_refl _) (by simp [headerClose]) (tokens_lack_blockClose _ _ _)
    have hlackEnd : Lack .close (depth + 1) ending := keyTokens_lack (by simp) _ _ _
    have hstop : tag.stop = close.stop := by
      simp [tag, close, endKeyAt, Token.stop, Delimiters.ending, Nat.add_assoc]
    have hspans : tag.Spans opener (front ++ blockClose :: ending ++ [close]) :=
      ⟨rfl, rfl, _, close, [], rfl, .block hlack rfl rfl hlackEnd rfl rfl, hstop⟩
    have hfront : Shows front ((header.tags d headerAt).toList ++ (body.tags d bodyAt).toList) :=
      (keyTokens_shows _ _ _).append <| (ihh _ _).append <| (Shows.mark rfl).append (ihb _ _)
    have hending : Shows (blockClose :: ending) [] :=
      (Shows.mark rfl).append (keyTokens_shows _ _ _)
    have htag := ((hfront.append hending).append (.mark rfl)).opened hspans
    have hall := htag.append (ihr depth tag.stop)
    simpa [tokens, tags, headTokens, endingTokens, Forest.toList, Cursor.openToken, front, ending,
      opener, headerClose, blockClose, close, tag, keyAt, headerAt, bodyAt, endingAt, endKeyAt]
      using hall

theorem tags_nested (position : Nat) (m : Markup) :
    (m.tags d position).Nested position (position + (m.source d).bytes) := by
  have hcloser := Text.bytes_pos.2 d.closer_ne_nil
  have hopener (kind : TagKind) := Text.bytes_pos.2 (d.openerOf_ne_nil kind)
  have hhead (kind : TagKind) (key header : Text) : (d.head kind key header).bytes =
      (d.openerOf kind).bytes + key.bytes + header.bytes + d.closer.bytes := by
    simp [Delimiters.head, Nat.add_assoc]
  induction m generalizing position with
  | done => exact Nat.le_refl _
  | text t rest ih | sep level rest ih =>
    refine (ih _).mono (Nat.le_add_right _ _) ?_
    simp [source, Nat.add_assoc]
  | inline key header rest ihh ihr =>
    have hopen := hopener .inline
    have hbytes := hhead .inline key (header.source d)
    refine ⟨Nat.le_refl _, (ihh _).mono ?_ ?_, (ihr _).mono (Nat.le_refl _) ?_⟩
    · show position + 1 ≤ _
      omega
    · show _ ≤ position + (d.head .inline key (header.source d)).bytes - 1
      omega
    · simp [source, Nat.add_assoc]
  | block key header body endKey rest ihh ihb ihr =>
    have hopen := hopener .block
    have hbytes := hhead .block key (header.source d)
    have hending : (d.ending endKey).bytes =
        d.blockCloser.bytes + endKey.bytes + d.closer.bytes := by
      simp [Delimiters.ending, Nat.add_assoc]
    let bodyAt := position + (d.head .block key (header.source d)).bytes
    have hinside : (header.tags d (position + (d.openerOf .block).bytes + key.bytes) ++
        body.tags d bodyAt).Nested (position + 1) (bodyAt + (body.source d).bytes) := by
      refine .append ((ihh _).mono ?_ ?_) (ihb bodyAt)
      · omega
      · show _ ≤ position + (d.head .block key (header.source d)).bytes
        omega
    refine ⟨Nat.le_refl _, hinside.mono (Nat.le_refl _) ?_, (ihr _).mono (Nat.le_refl _) ?_⟩
    · show _ ≤ bodyAt + (body.source d).bytes + (d.ending endKey).bytes - 1
      omega
    · simp [source, Nat.add_assoc]

end Markup

/-- The node is a tag that has begun at a position of the text and has not ended there. -/
def Node.OpenAt (n : Node) (position : Nat) : Prop :=
  n.tag?.isSome = true ∧ n.start < position ∧ position < n.stop

namespace Outline

variable {d : Delimiters} {text : Text} {o : Outline}

/-- The outline tells the tags of a text as its tokens do. -/
structure Mirrors (o : Outline) (tokens : List Token) : Prop where
  /-- There are as many tags as tokens that open one. -/
  count : o.size = tokens.countP (·.kind.isOpen)
  /-- The tags have the numbers 1, 2, and so on in the order of their openers, and each of them ends
  with its own closer. -/
  spans : ∀ before opener behind, tokens = before ++ opener :: behind → opener.kind.isOpen = true →
    ∃ found tag, o.node? (before.countP (·.kind.isOpen) + 1) = some found ∧
      found.tag? = some tag ∧ found.start = tag.start ∧ found.stop = tag.stop ∧
      tag.Spans opener behind
  /-- The parent of a tag is the innermost tag that is open where it begins, or the whole text if
  none is. -/
  parent : ∀ n found, 0 < n → o.node? n = some found →
    ∃ p outer, found.parent? = some p ∧ o.node? p = some outer ∧
      (p = 0 ∨ outer.OpenAt found.start) ∧
      ∀ k other, o.node? k = some other → other.OpenAt found.start → k ≤ p
  /-- The nodes inside a node are those that have it as parent. -/
  inside : ∀ n outer k, o.node? n = some outer →
    (k ∈ outer.children ↔ ∃ found, o.node? k = some found ∧ found.parent? = some n)
  /-- Siblings stand one behind another. -/
  ordered : ∀ n, (o.inside n).Pairwise fun one other => one.stop ≤ other.start
  /-- A node stands within its parent, and strictly so if that is a tag. -/
  within : ∀ n outer, o.node? n = some outer → ∀ found ∈ o.inside n,
    found.start < found.stop ∧ outer.start ≤ found.start ∧ found.stop ≤ outer.stop ∧
      (outer.tag?.isSome = true → outer.start < found.start ∧ found.stop < outer.stop)
  /-- A walk from the whole text visits the nodes in the order of their numbers. -/
  walk : o.Walks [0] (List.range (o.size + 1))

theorem node?_zero (o : Outline) : o.node? 0 = some o.root := rfl

theorem le_size_of_node? {n : Nat} {found : Node} (h : o.node? n = some found) : n ≤ o.size := by
  have hlt := (List.getElem?_eq_some_iff.1 h).1
  rw [length_nodes] at hlt
  omega

/-- The number of a tag's node: its place among all tags, counted from 1. -/
theorem node?_of_toList {j : Nat} {tag : Tag} (h : o.tags.toList[j]? = some tag) :
    ∃ parent children, o.node? (j + 1) = some (node tag parent children) := by
  have hlt : j < (o.tags.children 1).length := by
    rw [Forest.length_children, ← Forest.length_toList]
    exact (List.getElem?_eq_some_iff.1 h).1
  obtain ⟨parent, hnode⟩ := node?_succ h (List.getElem?_eq_getElem hlt)
  exact ⟨parent, _, hnode⟩

section Nested

variable (hn : o.tags.Nested 0 o.length)
include hn

/-- What is inside a node is a forest again, and stands within the node. -/
theorem places_inside {n : Nat} {outer : Node} (houter : o.node? n = some outer) :
    ∃ inner, outer.children = inner.numbers (n + 1) ∧ o.Places n (n + 1) inner ∧
      inner.Nested outer.start outer.stop ∧
      (outer.tag?.isSome = true → inner.Nested (outer.start + 1) (outer.stop - 1)) := by
  cases n with
  | zero =>
    obtain rfl := Option.some.inj (o.node?_zero.symm.trans houter)
    exact ⟨o.tags, rfl, o.places_tags, hn, fun h => by cases h⟩
  | succ n =>
    have hle := le_size_of_node? houter
    unfold size at hle
    obtain ⟨tag, parent, inner, hnode, hplaces, hnested, -, hlt, -⟩ :=
      o.places_tags.node hn (Nat.succ_pos n) (by omega)
    obtain rfl := Option.some.inj (hnode.symm.trans houter)
    refine ⟨inner, rfl, hplaces, hnested.mono (Nat.le_succ _) ?_, fun _ => hnested⟩
    exact Nat.sub_le _ _

theorem mem_children_iff {n : Nat} {outer : Node} (houter : o.node? n = some outer) (k : Nat) :
    k ∈ outer.children ↔ ∃ found, o.node? k = some found ∧ found.parent? = some n := by
  constructor
  · intro hk
    obtain ⟨inner, hchildren, hplaces, -⟩ := places_inside hn houter
    rw [hchildren] at hk
    exact (hplaces.of_mem_numbers hk).2.2
  · rintro ⟨found, hfound, hparent⟩
    cases k with
    | zero =>
      obtain rfl := Option.some.inj (o.node?_zero.symm.trans hfound)
      cases hparent
    | succ k =>
      have hle := le_size_of_node? hfound
      unfold size at hle
      obtain ⟨p, hp, hplace, -⟩ :=
        o.places_tags.parent hn Nat.zero_lt_one (Nat.succ_pos k) (by omega) hfound
      obtain rfl := Option.some.inj (hparent.symm.trans hp)
      rcases hplace with ⟨rfl, hmem⟩ | ⟨-, -, other, hother, hmem, -⟩
      · obtain rfl := Option.some.inj (o.node?_zero.symm.trans houter)
        exact hmem
      · obtain rfl := Option.some.inj (hother.symm.trans houter)
        exact hmem

theorem ordered_inside (n : Nat) :
    (o.inside n).Pairwise fun one other => one.stop ≤ other.start := by
  cases hnode : o.node? n with
  | none => simp [inside, hnode]
  | some outer =>
    obtain ⟨inner, hchildren, hplaces, hnested, -⟩ := places_inside hn hnode
    have hordered := hplaces.ordered hnested
    simpa [inside, hnode, hchildren] using hordered

theorem within_outer {n : Nat} {outer found : Node} (houter : o.node? n = some outer)
    (hfound : found ∈ o.inside n) :
    found.start < found.stop ∧ outer.start ≤ found.start ∧ found.stop ≤ outer.stop ∧
      (outer.tag?.isSome = true → outer.start < found.start ∧ found.stop < outer.stop) := by
  obtain ⟨inner, hchildren, hplaces, hnested, hstrict⟩ := places_inside hn houter
  simp only [inside, houter, hchildren, Option.map_some, Option.getD_some] at hfound
  obtain ⟨k, hk, hfound⟩ := List.mem_filterMap.1 hfound
  obtain ⟨hfirst, hlast, -⟩ := hplaces.of_mem_numbers hk
  obtain ⟨-, hstart, hlt, hstop⟩ := hplaces.bounds hnested hfirst hlast hfound
  refine ⟨hlt, hstart, hstop, fun htag => ?_⟩
  obtain ⟨-, hstart, -, hstop⟩ := hplaces.bounds (hstrict htag) hfirst hlast hfound
  omega

theorem parent_innermost {n : Nat} {found : Node} (hpos : 0 < n) (hfound : o.node? n = some found) :
    ∃ p outer, found.parent? = some p ∧ o.node? p = some outer ∧
      (p = 0 ∨ outer.OpenAt found.start) ∧
      ∀ k other, o.node? k = some other → other.OpenAt found.start → k ≤ p := by
  have hplaces := o.places_tags
  have hsize (k : Nat) (other : Node) (hother : o.node? k = some other) : k < 1 + o.tags.size := by
    have hle := le_size_of_node? hother
    unfold size at hle
    omega
  obtain ⟨p, hp, hplace, hbetween⟩ :=
    hplaces.parent hn Nat.zero_lt_one hpos (hsize _ _ hfound) hfound
  have hstart := (hplaces.bounds hn hpos (hsize _ _ hfound) hfound).2.2.1
  have hinnermost (k : Nat) (other : Node) (hother : o.node? k = some other)
      (hopen : other.OpenAt found.start) : k ≤ p := by
    obtain ⟨-, hbegun, hended⟩ := hopen
    apply Nat.le_of_not_lt
    intro hpk
    by_cases hkn : k < n
    · have hstop := hbetween k other (by omega) hpk hkn hother
      omega
    by_cases heq : k = n
    · subst heq
      obtain rfl := Option.some.inj (hother.symm.trans hfound)
      omega
    · have hlater := hplaces.start_lt hn hpos (by omega) (hsize _ _ hother) hfound hother
      omega
  rcases hplace with ⟨rfl, -⟩ | ⟨hfirst, hlt, outer, houter, -, hbegun, hended⟩
  · exact ⟨0, o.root, hp, rfl, .inl rfl, hinnermost⟩
  · have htag := (hplaces.bounds hn hfirst (hsize _ _ houter) houter).1
    exact ⟨p, outer, hp, houter, .inr ⟨htag, hbegun, by omega⟩, hinnermost⟩

end Nested

theorem walks_all (o : Outline) : o.Walks [0] (List.range (o.size + 1)) := by
  have hwalk := Walks.visit o.node?_zero (o.places_tags.walks .done)
  rw [List.append_nil] at hwalk
  rwa [List.range_eq_range', List.range'_succ]

/-- The outline of a text has one node for each tag, numbered in the order of the openers, from the
opener to the closer of the tag and inside the innermost tag that is open there. No tag is left
unfinished. -/
theorem mirrors_tokens (h : Outline.ofText d text = .ok o) :
    ∃ tokens, tokenize d text = .ok tokens ∧ (Draft.ofTokens d text tokens).opened = [] ∧
      o.length = text.bytes ∧ o.Mirrors tokens := by
  obtain ⟨m, hvalid, rfl, rfl⟩ := Markup.exists_of_outline h
  have hdraft : Draft.ofTokens d (m.source d) (m.tokens d 0 0) = Draft.empty.add (m.tags d 0) := by
    simpa [Draft.ofTokens] using hvalid.adds.2 rfl [] [] 0 .empty
  have hshows := Markup.tokens_shows (d := d) 0 0 m
  have hn := Markup.tags_nested (d := d) 0 m
  rw [Nat.zero_add] at hn
  refine ⟨_, hvalid.tokenize, by rw [hdraft]; rfl, rfl, ?_⟩
  exact {
    count := by rw [hshows.count, Forest.length_toList]; rfl
    spans := fun before opener behind hsplit hopen => by
      obtain ⟨tag, htag, hspans⟩ := hshows.spans before opener behind hsplit hopen
      obtain ⟨parent, children, hnode⟩ := node?_of_toList (o := ⟨_, m.tags d 0⟩) htag
      exact ⟨_, tag, hnode, rfl, rfl, rfl, hspans⟩
    parent := fun n found hpos hfound => parent_innermost hn hpos hfound
    inside := fun n outer k houter => mem_children_iff hn houter k
    ordered := ordered_inside hn
    within := fun n outer houter found hfound => within_outer hn houter hfound
    walk := walks_all _ }

theorem mirrors_tokens_nested :
    let text : Text := "é[[#a::[[b]]]]y[[/a]]".toList
    let inner : Tag := ⟨.inline, ⟨['b'], []⟩, 8, 13⟩
    let outer : Tag := ⟨.block, ⟨['a'], [["[[b]]".toList], [['y']]]⟩, 2, 22⟩
    let o : Outline := ⟨22, .tree outer (.tree inner .nil)⟩
    Outline.ofText .standard text = .ok o ∧ ∃ tokens, tokenize .standard text = .ok tokens ∧
      (Draft.ofTokens .standard text tokens).opened = [] ∧ o.length = text.bytes ∧
      o.Mirrors tokens := by
  intro text inner outer o
  have ho : Outline.ofText .standard text = .ok o := by decide +kernel
  exact ⟨ho, mirrors_tokens ho⟩

end Outline

end TagMarkup
