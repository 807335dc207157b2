import Mathlib.Data.Finset.Card
import TagMarkup.Proofs.Markup.Values

/-! When a tag says the same read alone as in the outline of a text, for all texts: exactly when no
separator ends with what the opener begins with (`Delimiters.openerApart_iff`). If one does, there
is a header in which that separator and the text behind it hold an opener. Among the values the
separator is read first, and it is the only one. In free text a tag seems to open there that cannot
be read, so the header is split at every separator, also at one inside a tag. -/

namespace TagMarkup

/-- The piece is a separator. -/
def Piece.isCut : Piece → Bool
  | kept _ => false
  | cut _ => true

/-- There is one value more than there are separators. -/
theorem Groups.length_values (ps : List Piece) :
    (ofPieces ps).toList.flatten.length = ps.countP Piece.isCut + 1 := by
  have hlist (g : Groups) :
      g.toList.flatten.length = g.values.length + g.groups.flatten.length + 1 := by
    simp only [toList, List.flatten_cons, List.length_append, List.length_cons]
    omega
  induction ps with
  | nil => rfl
  | cons p ps ih =>
    rw [hlist] at ih
    cases p with
    | kept t =>
      rw [hlist, List.countP_cons_of_neg (by simp [Piece.isCut])]
      exact ih
    | cut level =>
      rw [hlist, List.countP_cons_of_pos rfl, ← ih]
      cases level with
      | value =>
        simp only [ofPieces_cut_value, List.length_cons]
        omega
      | group => simp [hlist]

/-- A text that holds the separator of groups is cut somewhere. -/
theorem Cuts.countP_pieces_pos {d : Delimiters} {t : Text} (h : d.sep <:+: t) :
    0 < ((ofDelimiters d).pieces t).countP Piece.isCut := by
  induction t with
  | nil => exact absurd (List.infix_nil.1 h) d.sep_ne_nil
  | cons x t ih =>
    cases hat : (ofDelimiters d).at? (x :: t) with
    | some found =>
      rw [pieces_of_at?_eq_some hat]
      simp [Piece.isCut]
    | none =>
      have hrest : d.sep <:+: t := by
        refine (List.infix_cons_iff.1 h).resolve_left ?_
        rintro ⟨s, hs⟩
        have hsep := ofDelimiters_at?_sep d .group s
        rw [Delimiters.sepOf, hs, hat] at hsep
        cases hsep
      rw [pieces_of_at?_eq_none hat, List.countP_cons]
      exact Nat.lt_add_right _ (ih hrest)

/-- If some end of a text has a property, there is a longest one that has it. -/
theorem Text.exists_longest_suffix {P : Text → Prop} {t b : Text} (hb : b <:+ t) (hP : P b) :
    ∃ x y, t = x ++ y ∧ P y ∧ ∀ a b, x = a ++ b → b ≠ [] → ¬ P (b ++ y) := by
  induction t with
  | nil =>
    obtain rfl := List.suffix_nil.1 hb
    refine ⟨[], [], rfl, hP, fun a b hab hne => ?_⟩
    exact absurd (List.append_eq_nil_iff.1 hab.symm).2 hne
  | cons c t ih =>
    by_cases hwhole : P (c :: t)
    · refine ⟨[], c :: t, rfl, hwhole, fun a b hab hne => ?_⟩
      exact absurd (List.append_eq_nil_iff.1 hab.symm).2 hne
    · have hsuffix : b <:+ t := by
        refine (List.suffix_cons_iff.1 hb).resolve_left ?_
        rintro rfl
        exact hwhole hP
      obtain ⟨x, y, rfl, hy, hlongest⟩ := ih hsuffix
      refine ⟨c :: x, y, rfl, hy, fun a b hab hne => ?_⟩
      cases a with
      | nil =>
        obtain rfl : c :: x = b := hab
        exact hwhole
      | cons c' a => exact hlongest a b (List.cons.inj hab).2 hne

namespace Delimiters

variable {d : Delimiters} {level : Level} {x y z t : Text} {c : Char}

/-- A separator ends with `y`, which the opener begins with, and with no longer text of the kind. -/
structure Overlap (d : Delimiters) (level : Level) (x y z : Text) : Prop where
  sep : d.sepOf level = x ++ y
  opener : d.opener = y ++ z
  nonempty : y ≠ []
  longest : ∀ a b, x = a ++ b → b ≠ [] → ¬ b ++ y <+: d.opener

theorem exists_overlap (h : ¬ d.OpenerApart) : ∃ level x y z, d.Overlap level x y z := by
  simp only [OpenerApart, not_forall, not_not] at h
  obtain ⟨level, b, hb, hsep, hopener⟩ := h
  obtain ⟨x, y, hxy, ⟨hne, z, hz⟩, hlongest⟩ := Text.exists_longest_suffix
    (P := fun b => b ≠ [] ∧ b <+: d.opener) hsep ⟨hb, hopener⟩
  refine ⟨level, x, y, z, hxy, hz.symm, hne, fun a b hab hb hp => ?_⟩
  exact hlongest a b hab hb ⟨by simp [hb], hp⟩

theorem Overlap.front_ne_nil (h : d.Overlap level x y z) : x ≠ [] := by
  rintro rfl
  have hsep : d.get level.role <+: d.opener := by
    rw [← d.sepOf_eq_get, h.sep, h.opener]
    exact List.prefix_append _ _
  exact d.wellFormed.apart level.role .opener (by cases level <;> decide) hsep.isInfix

/-- The rest of the opener holds no mark. -/
theorem Overlap.not_infix (h : d.Overlap level x y z) (r : Role) : ¬ d.get r <:+: z := by
  have hz : z <:+: d.opener := h.opener ▸ (List.suffix_append y z).isInfix
  intro hr
  by_cases heq : r = .opener
  · subst heq
    have hle : d.opener.length ≤ z.length := hr.length_le
    have hpos := List.length_pos_iff.2 h.nonempty
    rw [h.opener, List.length_append] at hle
    omega
  · exact d.wellFormed.apart r .opener heq (hr.trans hz)

/-- No tag opens in the separator before the overlap. -/
theorem Overlap.until_opener (h : d.Overlap level x y z) (t : Text) :
    Text.Until [d.opener] x (d.opener ++ t) := by
  constructor
  · intro a b hab hb mark hmark hp
    rw [List.mem_singleton.1 hmark] at hp
    have hwhole : b ++ y <+: b ++ (d.opener ++ t) := by
      rw [h.opener, List.append_assoc]
      exact (List.prefix_append_right_inj b).2 (List.prefix_append _ _)
    rcases List.prefix_or_prefix_of_prefix hp hwhole with hin | hout
    · have hsep : b ++ y <:+ d.sepOf level := by
        rw [h.sep, hab, List.append_assoc]
        exact List.suffix_append _ _
      exact d.opener_not_infix_sepOf level (hin.isInfix.trans hsep.isInfix)
    · exact h.longest a b hab hb hout
  · exact .inr ⟨d.opener, List.mem_singleton_self _, List.prefix_append _ _⟩

/-- The character neither begins nor ends a mark, begins no key, and is not what tells the kind of a
tag. -/
structure Foreign (d : Delimiters) (c : Char) : Prop where
  first : ∀ r t, ¬ d.get r <+: c :: t
  last : ∀ r t, d.get r ≠ t ++ [c]
  key : ∀ t, leadingKey (c :: t) = []
  kind : c ≠ '#' ∧ c ≠ '/'

/-- Nine characters, of which no more than eight can begin or end one of the four marks. -/
def signs : Finset Char := {'!', '$', '&', '(', ')', '*', '+', ',', '-'}

theorem signs_plain : ∀ c ∈ signs, (c = '%' || isKeyLetter c) = false ∧ c ≠ '#' ∧ c ≠ '/' := by
  intro c hc
  simp only [signs, Finset.mem_insert, Finset.mem_singleton] at hc
  rcases hc with rfl | rfl | rfl | rfl | rfl | rfl | rfl | rfl | rfl <;> decide

theorem exists_foreign (d : Delimiters) : ∃ c, d.Foreign c := by
  let bounds := Role.all.flatMap fun r =>
    [(d.get r).head (d.wellFormed.nonempty r), (d.get r).getLast (d.wellFormed.nonempty r)]
  have hcard : bounds.toFinset.card < signs.card := by
    have hbounds : bounds.toFinset.card ≤ 8 := List.toFinset_card_le bounds
    have hsigns : signs.card = 9 := by decide
    omega
  obtain ⟨c, hsign, hbound⟩ := Finset.exists_mem_notMem_of_card_lt_card hcard
  have hne (r : Role) : c ≠ (d.get r).head (d.wellFormed.nonempty r) ∧
      c ≠ (d.get r).getLast (d.wellFormed.nonempty r) := by
    constructor
    · rintro rfl
      exact hbound (List.mem_toFinset.2 (List.mem_flatMap.2 ⟨r, r.mem_all, by simp⟩))
    · rintro rfl
      exact hbound (List.mem_toFinset.2 (List.mem_flatMap.2 ⟨r, r.mem_all, by simp⟩))
  obtain ⟨hkey, hkind⟩ := signs_plain c hsign
  refine ⟨c, fun r t hp => (hne r).1 ?_, fun r t heq => (hne r).2 ?_, fun t => ?_, hkind⟩
  · obtain ⟨s, hs⟩ := hp
    have hhead := congrArg List.head? hs
    rw [List.head?_append_of_ne_nil _ (d.wellFormed.nonempty r),
      List.head?_eq_some_head (d.wellFormed.nonempty r)] at hhead
    exact (Option.some.inj hhead).symm
  · simp [heq]
  · simp [leadingKey, hkey]

/-- No mark begins in the rest of an opener with enough foreign characters behind it. -/
theorem Overlap.clear (h : d.Overlap level x y z) (hc : d.Foreign c) {n : Nat}
    (hn : ∀ r, (d.get r).length ≤ n) {a b : Text} (hab : z ++ List.replicate n c = a ++ b)
    (hb : b ≠ []) (r : Role) (s : Text) : ¬ d.get r <+: b ++ s := by
  intro hp
  rcases List.append_eq_append_iff.1 hab with ⟨a', rfl, hrep⟩ | ⟨z', rfl, rfl⟩
  · -- `b` begins with the character
    cases b with
    | nil => exact hb rfl
    | cons c' b =>
      have hmem : c' ∈ List.replicate n c := by simp [hrep]
      rw [List.eq_of_mem_replicate hmem] at hp
      exact hc.first r _ hp
  · -- a mark that begins in `z` would end in it, or with the character
    rw [List.append_assoc] at hp
    rcases List.prefix_or_prefix_of_prefix hp (List.prefix_append z' _) with hin | ⟨m, hm⟩
    · exact h.not_infix r (hin.isInfix.trans (List.suffix_append a z').isInfix)
    · rw [← hm, List.prefix_append_right_inj] at hp
      have hlen : m.length ≤ n := by
        have := hn r
        rw [← hm, List.length_append] at this
        omega
      have hrep : m <+: List.replicate n c :=
        List.prefix_of_prefix_length_le hp (List.prefix_append _ _) (by simpa using hlen)
      obtain ⟨-, hm'⟩ := List.prefix_replicate_iff.1 hrep
      rcases List.eq_nil_or_concat' m with rfl | ⟨m', c', rfl⟩
      · rw [List.append_nil] at hm
        exact h.not_infix r (hm ▸ (List.suffix_append a z').isInfix)
      · have hmem : c' ∈ m' ++ [c'] := by simp
        rw [hm'] at hmem
        obtain rfl := List.eq_of_mem_replicate hmem
        exact hc.last r (z' ++ m') (by rw [← hm, List.append_assoc])

/-- Behind the overlap a tag seems to open in free text, but has no key. -/
theorem Overlap.unread (h : d.Overlap level x y z) (hc : d.Foreign c) (t : Text) :
    ∃ e, tokenize d (x ++ (d.opener ++ c :: t)) = .error e := by
  let behind : Cursor := ⟨0 + x.bytes, d.opener ++ c :: t, []⟩
  have hfree : Cursor.context? [] = some .free := rfl
  have htext : Cursor.Yields d ⟨0, x ++ (d.opener ++ c :: t), []⟩ _ behind :=
    Markup.text_yields hfree h.front_ne_nil (h.until_opener (c :: t)) 0
  have hkind (mark : Char) (hmark : c ≠ mark) : ¬ d.opener ++ [mark] <+: d.opener ++ c :: t := by
    rw [List.prefix_append_right_inj, List.cons_prefix_cons]
    exact fun hp => hmark hp.1.symm
  have hopens : behind.opens? d = some .inline :=
    Cursor.opens?_eq_inline (hkind '#' hc.kind.1) (List.prefix_append _ _)
  have hopen := Cursor.Yields.token (d.openerOf_ne_nil .inline)
    (Cursor.step_opening (c := behind) rfl hopens (hkind '/' hc.kind.2))
  let inTag : Cursor :=
    ⟨0 + x.bytes + d.opener.bytes, c :: t, [⟨.inlineKey false, 0 + x.bytes⟩]⟩
  have hbad : inTag.step d = .error inTag.badKey :=
    Cursor.step_badKey rfl rfl (.inr (hc.key t)) (fun _ => hc.first .sep t) (hc.first .closer t)
  have hfault := (htext.trans hopen).fault
  have herror := Lexing.ofCursor_error (c := inTag) (by simp [inTag]) hbad
  refine ⟨inTag.badKey, ?_⟩
  have hread : (Lexing.ofText d (x ++ (d.opener ++ c :: t))).fault? = some inTag.badKey :=
    hfault.trans (congrArg Lexing.fault? herror)
  rw [tokenize, Lexing.result, hread]

/-- A tag with values has its key read when its separator does not go on with it. -/
theorem heads_of_leadingKey {key more : Text} {s : Char} (hsep : d.sep = s :: more)
    (hkey : ∀ t, leadingKey (key ++ s :: t) = key)
    (hkind : ∀ c ∈ (key ++ [s]).head?, c ≠ '#' ∧ c ≠ '/') (rest : Markup) :
    Markup.Heads d .inline key (.sep .group rest) := by
  have hsource : Markup.source d (.sep .group rest) = s :: (more ++ rest.source d) := by
    simp [Markup.source, sepOf, hsep]
  have hfirst (mark : Char) (hmark : ∀ c ∈ (key ++ [s]).head?, c ≠ mark) :
      ¬ d.opener ++ [mark] <+: d.head .inline key (Markup.source d (.sep .group rest)) := by
    rw [hsource, head, openerOf, List.prefix_append_right_inj]
    cases key with
    | nil => simpa using fun h : mark = s => hmark s (by simp) h.symm
    | cons k key => simpa using fun h : mark = k => hmark k (by simp) h.symm
  refine ⟨trivial, ?_, fun _ => ⟨?_, ?_⟩⟩
  · rw [hsource]
    exact hkey _
  · exact hfirst '#' fun c hc => (hkind c hc).1
  · exact hfirst '/' fun c hc => (hkind c hc).2

/-- There is a key that no separator goes on with. -/
theorem exists_heads (d : Delimiters) :
    ∃ key, ∀ rest, Markup.Heads d .inline key (.sep .group rest) := by
  obtain ⟨s, more, hsep⟩ := List.exists_cons_of_ne_nil d.sep_ne_nil
  by_cases hs : s.isDigit = true
  · -- a digit begins no key
    have hne (c : Char) (hc : c.isDigit = false) : s ≠ c := by
      rintro rfl
      rw [hs] at hc
      cases hc
    refine ⟨[], heads_of_leadingKey hsep (fun t => ?_) ?_⟩
    · simp [leadingKey, hne '%' rfl, isKeyLetter_of_isDigit hs]
    · simpa using ⟨hne '#' rfl, hne '/' rfl⟩
  · -- nothing but a digit goes on with a key behind its digits
    refine ⟨['a', '0'], heads_of_leadingKey hsep (fun t => ?_) (by simp)⟩
    have hletter : isKeyLetter 'a' = true ∧ isKeyLetter '0' = false := by decide
    simp [leadingKey, hletter, hs]

end Delimiters

namespace Markup

variable {d : Delimiters} {level : Level} {x y z key : Text} {c : Char} {n : Nat}

/-- Values with one separator between them. The second one goes on to a tag whose header is a
separator. -/
def seam (level : Level) (filler key : Text) : Markup :=
  .sep level (.text filler (.inline key (.sep .group .done) .done))

theorem source_seam (d : Delimiters) (level : Level) (filler key : Text) : ∃ front behind,
    (seam level filler key).source d =
      d.sepOf level ++ (filler ++ (front ++ (d.sep ++ behind))) := by
  refine ⟨d.opener ++ key, d.closer, ?_⟩
  simp [seam, source, Delimiters.head, Delimiters.openerOf, Delimiters.sepOf]

theorem valid_seam (h : d.Overlap level x y z) (hc : d.Foreign c)
    (hn : ∀ r, (d.get r).length ≤ n) (hkey : Heads d .inline key (.sep .group .done)) :
    Valid d .values d.closer (seam level (z ++ List.replicate n c) key) := by
  have hpos : 0 < n := Nat.lt_of_lt_of_le (List.length_pos_iff.2 d.opener_ne_nil) (hn .opener)
  have htag (after : Text) :
      Valid d .values after (.inline key (.sep .group .done) .done) :=
    .inline hkey (.sep .group (.done _ _)) (.done _ _)
  refine .sep level (.text ?_ ⟨?_, ?_⟩ (htag _))
  · simp [Nat.ne_of_gt hpos]
  · intro a b hab hb mark hmark
    obtain ⟨r, rfl⟩ := Context.exists_role hmark
    exact h.clear hc hn hab hb r _
  · refine .inr ⟨d.opener, by simp [Context.marks], ?_⟩
    simp [source, Delimiters.head, Delimiters.openerOf]

/-- Read alone, the values are split at every separator. -/
theorem templateGroups_seam (h : d.Overlap level x y z) (hc : d.Foreign c) (hn : 0 < n)
    (key : Text) :
    2 < (templateGroups d
      ((seam level (z ++ List.replicate n c) key).source d)).flatten.length := by
  obtain ⟨front, behind, hsource⟩ := source_seam d level (z ++ List.replicate n c) key
  obtain ⟨k, rfl⟩ := Nat.exists_eq_succ_of_ne_zero (Nat.ne_of_gt hn)
  let rest := z ++ (c :: List.replicate k c ++ (front ++ (d.sep ++ behind)))
  have hsep : (seam level (z ++ List.replicate (k + 1) c) key).source d =
      d.sepOf level ++ rest := by
    rw [hsource]
    simp [rest, List.replicate_succ]
  have hoverlap : d.sepOf level ++ rest =
      x ++ (d.opener ++ c :: (List.replicate k c ++ (front ++ (d.sep ++ behind)))) := by
    simp [h.sep, h.opener, rest]
  obtain ⟨e, he⟩ := h.unread hc (List.replicate k c ++ (front ++ (d.sep ++ behind)))
  have hblind : topLevelPieces d (.ofDelimiters d) (d.sepOf level ++ rest) =
      .cut level :: (Cuts.ofDelimiters d).pieces rest := by
    rw [topLevelPieces, hoverlap, he, ← hoverlap]
    exact Cuts.pieces_of_at?_eq_some (Cuts.ofDelimiters_at?_sep d level rest)
  have hinner : d.sep <:+: rest :=
    ⟨z ++ (c :: List.replicate k c ++ front), behind, by simp [rest]⟩
  have hpos := Cuts.countP_pieces_pos hinner
  rw [hsep, templateGroups, splitGroups, hblind, Groups.length_values,
    List.countP_cons_of_pos rfl]
  omega

end Markup

/-- Where a separator ends with what the opener begins with, some tag does not say the same alone.
-/
theorem Delimiters.exists_not_saysAlone {d : Delimiters} (h : ¬ d.OpenerApart) :
    ∃ text o tag inside, Outline.ofText d text = .ok o ∧
      o.tags.find? 0 [] = some (tag, inside) ∧ ¬ tag.SaysAlone d text := by
  obtain ⟨level, x, y, z, hoverlap⟩ := exists_overlap h
  obtain ⟨c, hc⟩ := d.exists_foreign
  obtain ⟨key, hkey⟩ := d.exists_heads
  let n := d.opener.length + d.closer.length + d.sep.length + d.subSep.length
  have hn (r : Role) : (d.get r).length ≤ n := by
    cases r <;> simp only [Marks.get, n] <;> omega
  have hpos : 0 < n := Nat.lt_of_lt_of_le (List.length_pos_iff.2 d.opener_ne_nil) (hn .opener)
  let items := Markup.seam level (z ++ List.replicate n c) key
  let one : Markup := .inline key (.sep .group items) .done
  have hvalid : Markup.Valid d .free [] one :=
    .inline (hkey items) (.sep .group (Markup.valid_seam hoverlap hc hn (hkey .done))) (.done _ _)
  let tag : Tag := ⟨.inline, ⟨key, Markup.groups d (.sep .group items)⟩, 0, (one.source d).bytes⟩
  obtain ⟨inside, htags⟩ : ∃ inside, one.tags d 0 = .tree tag inside := by
    simp only [one, tag, Markup.tags, Markup.source, Nat.zero_add, List.append_nil]
    exact ⟨_, rfl⟩
  refine ⟨one.source d, _, tag, inside, hvalid.outline, ?_, ?_⟩
  · rw [htags]
    rfl
  rintro ⟨slice, read, hslice, hread, hcall⟩
  have hwhole : (one.source d).slice? 0 (one.source d).bytes = some (one.source d) :=
    Text.slice?_eq_some.2 ⟨[], [], by simp, rfl, by simp⟩
  cases hwhole.symm.trans hslice
  cases hvalid.single_inline.symm.trans hread
  have hgroups : templateGroups d (items.source d) = Markup.groups d (.sep .group items) := by
    have hsame := congrArg Call.groups hcall
    simpa [SingleTag.call, SplitRule.cuts, templateGroups, Markup.values?, tag] using hsame
  have hlt := Markup.templateGroups_seam hoverlap hc hpos key
  have heq : (Markup.groups d (.sep .group items)).flatten.length = 2 :=
    Groups.length_values (items.pieces d)
  rw [← heq, ← hgroups] at hlt
  exact Nat.lt_irrefl _ hlt

/-- Every tag of every text says the same read alone exactly if no separator ends with what the
opener begins with. -/
theorem Delimiters.openerApart_iff (d : Delimiters) :
    d.OpenerApart ↔ ∀ text o, Outline.ofText d text = .ok o → ∀ i path tag inside,
      o.tags.find? i path = some (tag, inside) → tag.SaysAlone d text := by
  constructor
  · intro h text o ho i path tag inside hf
    exact Outline.call_of_slice h ho hf
  · intro h
    by_contra hd
    obtain ⟨text, o, tag, inside, ho, hf, hnot⟩ := exists_not_saysAlone hd
    exact hnot (h text o ho 0 [] tag inside hf)

/-- The separator of groups ends with what the opener begins with. In the header, read as free text,
a tag opens at the overlap, while the tree has three values and no tag there. -/
theorem not_saysAlone_overlapping :
    ∃ d : Delimiters, d.toMarks =
        ⟨"[[".toList, "]]".toList, ":[".toList, "b]".toList⟩ ∧
      ∃ o tag read, Outline.ofText d "[[k:[a:[[b]]c]]".toList = .ok o ∧
        o.tags.find? 0 [] = some (tag, .nil) ∧
        tag.call = ⟨"k".toList, [["a".toList], ["[".toList, "]c".toList]]⟩ ∧
        SingleTag.ofText d "[[k:[a:[[b]]c]]".toList = .ok read ∧
        read.call d .template = ⟨"k".toList, [["a:[[b]]c".toList]]⟩ ∧
        ¬ tag.SaysAlone d "[[k:[a:[[b]]c]]".toList := by
  let marks : Marks := ⟨"[[".toList, "]]".toList, ":[".toList, "b]".toList⟩
  let d : Delimiters := ⟨marks, Marks.fault?_eq_none.1 (by decide)⟩
  let text : Text := "[[k:[a:[[b]]c]]".toList
  let tag : Tag := ⟨.inline, ⟨['k'], [[['a']], [['['], [']', 'c']]]⟩, 0, 15⟩
  let read : SingleTag := ⟨['k'], some "a:[[b]]c".toList, none, text⟩
  have ho : Outline.ofText d text = .ok ⟨15, .tree tag .nil⟩ := by decide +kernel
  have hread : SingleTag.ofText d text = .ok read := by decide +kernel
  have hcall : read.call d .template = ⟨['k'], [["a:[[b]]c".toList]]⟩ := by decide +kernel
  refine ⟨d, rfl, _, tag, read, ho, rfl, rfl, hread, hcall, ?_⟩
  rintro ⟨slice, read', hslice, hread', hcall'⟩
  have hwhole : text.slice? 0 15 = some text := by decide +kernel
  cases hwhole.symm.trans hslice
  cases hread.symm.trans hread'
  rw [hcall] at hcall'
  cases hcall'

end TagMarkup
