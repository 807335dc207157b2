import TagMarkup.Proofs.Lexing.Move
import TagMarkup.Tag.Single

/-! The head of a tag: its opener, its key and the mark after the key. A text with such a head is
read as a tag of that kind with that key, if it is a single tag at all, whatever comes after the
head (`Headed.kind_key`). -/

namespace TagMarkup

/-- What a run of characters is does not depend on the text behind the character after it. -/
theorem takeWhile_stable {p : Char → Bool} {k : Text} {x : Char} {s : Text}
    (h : ((k ++ x :: s).takeWhile p).length ≤ k.length) (t : Text) :
    (k ++ x :: t).takeWhile p = (k ++ x :: s).takeWhile p ∧
      ∃ rest, (k ++ x :: s).dropWhile p = rest ++ x :: s ∧
        (k ++ x :: t).dropWhile p = rest ++ x :: t := by
  induction k with
  | nil =>
    cases hx : p x with
    | true => simp [hx] at h
    | false => exact ⟨by simp [hx], [], by simp [hx], by simp [hx]⟩
  | cons a k ih =>
    cases ha : p a with
    | true =>
      obtain ⟨ht, rest, hs, hd⟩ := ih (by simpa [ha] using h)
      exact ⟨by simp [ha, ht], rest, by simp [ha, hs], by simp [ha, hd]⟩
    | false => exact ⟨by simp [ha], a :: k, by simp [ha], by simp [ha]⟩

theorem isKeyLetter_of_isDigit {c : Char} (h : c.isDigit = true) : isKeyLetter c = false := by
  have hupper : c.isUpper = decide (c.val ≥ 'A'.val ∧ c.val ≤ 'Z'.val) := rfl
  have hlower : c.isLower = (decide (c.val ≥ 'a'.val) && decide (c.val ≤ 'z'.val)) := rfl
  have hletter : c.isAlpha = false := by
    show (c.isUpper || c.isLower) = false
    rw [hupper, hlower]
    simp only [Char.isDigit, UInt32.le_iff_toNat_le, ge_iff_le, Bool.and_eq_true,
      decide_eq_true_eq, Bool.or_eq_false_iff, Bool.and_eq_false_iff, decide_eq_false_iff_not,
      Char.reduceVal, UInt32.reduceToNat] at h ⊢
    omega
  have hne : c ≠ '_' := by
    rintro rfl
    cases h
  simp [isKeyLetter, hletter, hne]

/-- A key ends at the same place whatever follows the character after it. -/
theorem leadingKey_stable {key : Text} {x : Char} {s : Text}
    (h : leadingKey (key ++ x :: s) = key) (t : Text) : leadingKey (key ++ x :: t) = key := by
  cases key with
  | nil =>
    simp only [List.nil_append, leadingKey] at h ⊢
    split
    · next hx => simp [hx] at h
    · rfl
  | cons c k =>
    simp only [List.cons_append, leadingKey] at h ⊢
    split at h
    · next hc =>
      have hk := List.cons.inj h |>.2
      have hlen := congrArg List.length hk
      rw [List.length_append] at hlen
      obtain ⟨ht, rest, hs, hd⟩ :=
        takeWhile_stable (p := isKeyLetter) (k := k) (x := x) (s := s) (by omega) t
      have hrest := congrArg List.length
        (List.takeWhile_append_dropWhile (p := isKeyLetter) (l := k ++ x :: s))
      simp only [hs, List.length_append, List.length_cons] at hrest
      rw [hs] at hk hlen
      obtain ⟨ht', -⟩ := takeWhile_stable (p := Char.isDigit) (k := rest) (x := x) (s := s)
        (by omega) t
      rw [if_pos hc, ht, hd, ht', hk]
    · cases h

/-- A key that ends before a mark ends there whatever stands behind the mark. -/
theorem leadingKey_append {key mark : Text} (hm : mark ≠ []) (s t : Text)
    (h : leadingKey (key ++ (mark ++ s)) = key) : leadingKey (key ++ (mark ++ t)) = key := by
  cases mark with
  | nil => exact absurd rfl hm
  | cons x mark => exact leadingKey_stable h _

/-- The text begins as a tag of a kind with a key does: with the opener, the key if there is one,
and a mark after it. No more of the key follows, and the opener of an inline tag is not that of a
block. -/
def Headed (d : Delimiters) (kind : TagKind) (key text : Text) : Prop :=
  ∃ mark, (mark = d.sep ∨ mark = d.closer) ∧ leadingKey (key ++ mark) = key ∧
    (kind = .inline → ¬ d.blockOpener <+: d.openerOf kind ++ (key ++ mark)) ∧
    d.openerOf kind ++ (key ++ mark) <+: text

variable {d : Delimiters} {kind : TagKind} {key text : Text}

theorem Headed.ne_nil (h : Headed d kind key text) : text ≠ [] := by
  obtain ⟨mark, -, -, -, hp⟩ := h
  rintro rfl
  have := List.prefix_nil.1 hp
  simp [d.openerOf_ne_nil] at this

theorem Headed.mono {more : Text} (h : Headed d kind key text) (hm : text <+: more) :
    Headed d kind key more := by
  obtain ⟨mark, hmark, hkey, hkind, hp⟩ := h
  exact ⟨mark, hmark, hkey, hkind, hp.trans hm⟩

theorem Headed.opens (h : Headed d kind key text) :
    ∃ rest, text = d.openerOf kind ++ rest ∧ leadingKey rest = key ∧
      (Cursor.ofText text).opens? d = some kind := by
  obtain ⟨mark, hmark, hkey, hkind, more, rfl⟩ := h
  have hne : mark ≠ [] := by
    rcases hmark with rfl | rfl
    · exact d.sep_ne_nil
    · exact d.closer_ne_nil
  refine ⟨key ++ (mark ++ more), by simp, leadingKey_append hne [] more (by simpa using hkey), ?_⟩
  unfold Cursor.opens?
  simp only [Cursor.sees_iff, Cursor.ofText]
  cases kind with
  | block => rw [if_pos (by simp [Delimiters.openerOf])]
  | inline =>
    rw [if_neg, if_pos (by simp [Delimiters.openerOf])]
    intro hb
    -- a block opener at the front would lie within the head, which is longer than an opener
    refine hkind rfl (List.prefix_of_prefix_length_le hb (List.prefix_append _ more) ?_)
    have := List.length_pos_iff.2 hne
    simp only [Delimiters.blockOpener, Delimiters.openerOf, List.length_append,
      List.length_singleton]
    omega

namespace SingleTag.Progress

/-- What has been read is a tag of the kind with the key, past its key. -/
def Says (kind : TagKind) (key : Text) : Progress → Prop
  | start => False
  | header k x valuesAt? => k = kind ∧ x = key ∧ valuesAt? ≠ none
  | body x _ _ | closing x _ _ => kind = .block ∧ x = key
  | done tag => tag.kind = kind ∧ tag.key = key

theorem Says.next {p : Progress} (h : p.Says kind key) (token : Token) :
    (p.next text token).Says kind key := by
  cases p with
  | start => exact h.elim
  | header k x valuesAt? =>
    obtain ⟨rfl, rfl, hv⟩ := h
    obtain ⟨at', rfl⟩ := Option.ne_none_iff_exists'.1 hv
    unfold Progress.next
    split <;> simp_all [Says, SingleTag.kind]
  | body x header? bodyAt =>
    obtain ⟨rfl, rfl⟩ := h
    unfold Progress.next
    split <;> simp_all [Says]
  | closing x header? body =>
    obtain ⟨rfl, rfl⟩ := h
    unfold Progress.next
    split <;> simp_all [Says, SingleTag.kind]
  | done tag =>
    unfold Progress.next
    split <;> simp_all [Says]

theorem Says.step {p q : Progress} {token : Token} (h : p.Says kind key)
    (hs : p.step text token = .ok q) : q.Says kind key := by
  unfold Progress.step at hs
  split at hs
  · cases hs
  · exact h.elim
  · split at hs
    · cases hs; exact h.next token
    · cases hs; exact h

theorem Says.foldlM {p q : Progress} {tokens : List Token} (h : p.Says kind key)
    (hs : tokens.foldlM (Progress.step text) p = .ok q) : q.Says kind key := by
  induction tokens generalizing p with
  | nil => cases hs; exact h
  | cons token tokens ih =>
    rw [List.foldlM_cons] at hs
    cases hp : p.step text token with
    | error e => rw [hp] at hs; cases hs
    | ok p' =>
      rw [hp] at hs
      exact ih (h.step hp) hs

end SingleTag.Progress

namespace SingleTag

/-- Reading on from a cursor ends with the tag. -/
def ReadsTo (d : Delimiters) (text : Text) (c : Cursor) (p : Progress) (tag : SingleTag) : Prop :=
  (Lexing.ofCursor d c).tokens.foldlM (Progress.step text) p = .ok (.done tag)

theorem readsTo_of_ofText {tag : SingleTag} (h : ofText d text = .ok tag) :
    ReadsTo d text (.ofText text) .start tag := by
  unfold ofText at h
  simp only [bind, Except.bind] at h
  split at h
  · cases h
  next p hp =>
  split at h
  · cases h
  · cases h; exact hp
  · cases h

variable {c : Cursor} {p : Progress} {tag : SingleTag}

/-- Unless the tag has ended, there is a next token, and reading goes on behind it. -/
theorem ReadsTo.step (h : ReadsTo d text c p tag) (hp : ∀ t, p ≠ .done t) :
    ∃ next q, c.Moves d next ∧ c.Advances next ∧ p.step text next.1 = .ok q ∧
      ReadsTo d text next.2 q tag := by
  unfold ReadsTo at h
  rw [Lexing.ofCursor] at h
  split at h
  · cases h; exact absurd rfl (hp tag)
  next hr =>
  split at h
  · cases h; exact absurd rfl (hp tag)
  next next hs =>
  simp only [Lexing.tokens, List.map_cons, List.foldlM_cons] at h
  cases hq : p.step text next.1 with
  | error e => rw [hq] at h; cases h
  | ok q =>
    rw [hq] at h
    exact ⟨next, q, Cursor.step_move hs, Cursor.step_advances hr hs, hq, h⟩

theorem ReadsTo.kind_key (h : ReadsTo d text c p tag) (hp : p.Says kind key) :
    tag.kind = kind ∧ tag.key = key := hp.foldlM h

theorem ReadsTo.opening (h : ReadsTo d text (.ofText text) .start tag)
    (ho : (Cursor.ofText text).opens? d = some kind) {rest : Text}
    (ht : text = d.openerOf kind ++ rest) :
    ∃ c : Cursor, c.rest = rest ∧ c.opened = [⟨Cursor.firstStage kind, 0⟩] ∧
      ReadsTo d text c (.header kind [] none) tag := by
  obtain ⟨⟨⟨k, start, lexeme, depth⟩, ⟨position, rest', opened⟩⟩, q, hm, ha, hq, hr⟩ :=
    h.step (by simp)
  have hrest := ha.rest
  simp only [Cursor.ofText] at hrest
  cases hm with
  | text => simp [Progress.step, TokenKind.isOpen] at hq
  | opening k' _ hk reads =>
    subst reads
    rw [ho, Option.some.injEq] at hk
    subst hk
    have hq' : q = .header kind [] none := by
      cases kind <;>
        simpa [Progress.step, Progress.next, TokenKind.isOpen, Cursor.openToken, eq_comm] using hq
    rw [ht] at hrest
    exact ⟨_, List.append_cancel_left hrest, rfl, hq' ▸ hr⟩
  | key opened _ => cases opened
  | sep _ opened => cases opened
  | headerEnd opened => cases opened
  | bodyEnd opened => cases opened
  | tagEnd opened => cases opened

/-- Where the key of a tag may stand, the next token is the key, or it ends the part of the tag
that says its kind and its key. -/
theorem ReadsTo.key_or_says {stage : Stage} {openedAt : Nat} {x : Text}
    (h : ReadsTo d text c (.header stage.kind x none) tag) (ho : c.opened = [⟨stage, openedAt⟩])
    (hs : stage.part = .key) :
    (stage.named = false ∧ ∃ (c' : Cursor) (stage' : Stage), c'.opened = [⟨stage', openedAt⟩] ∧
      stage'.kind = stage.kind ∧ stage'.part = .key ∧ stage'.named = true ∧
      ReadsTo d text c' (.header stage.kind (leadingKey c.rest) none) tag) ∨
    ((stage.named = true ∨ leadingKey c.rest = []) ∧ tag.kind = stage.kind ∧ tag.key = x) := by
  obtain ⟨⟨⟨k, start, lexeme, depth⟩, ⟨position, rest', opened⟩⟩, q, hm, -, hq, hr⟩ :=
    h.step (by simp)
  cases hm with
  | text _ free =>
    have hpart := Stage.part_of_holdsTags (free ⟨stage, openedAt⟩ (by simp [ho]))
    simp [hs] at hpart
  | opening _ free =>
    have hpart := Stage.part_of_holdsTags (free ⟨stage, openedAt⟩ (by simp [ho]))
    simp [hs] at hpart
  | key ho' keyed reads =>
    rw [ho] at ho'
    cases ho'
    left
    subst reads
    simp only [Progress.step, Progress.next, ho, List.length_singleton, if_true] at hq
    cases hq
    cases stage with
    | inlineKey named =>
      cases named <;> cases keyed
      exact ⟨rfl, _, .inlineKey true, rfl, rfl, rfl, rfl, hr⟩
    | blockKey named =>
      cases named <;> cases keyed
      exact ⟨rfl, _, .blockKey true, rfl, rfl, rfl, rfl, hr⟩
    | _ => cases hs
  | sep level ho' after keyRead =>
    rw [ho] at ho'
    cases ho'
    refine .inr ⟨keyRead, hr.kind_key ?_⟩
    simp only [Progress.step, Progress.next, ho, List.length_singleton, if_true] at hq
    cases hq
    exact ⟨rfl, rfl, by simp⟩
  | headerEnd ho' inHeader keyRead =>
    rw [ho] at ho'
    cases ho'
    refine .inr ⟨keyRead, hr.kind_key ?_⟩
    cases stage with
    | blockKey named =>
      simp only [Progress.step, Progress.next, Stage.kind, ho, List.length_singleton,
        if_true] at hq
      cases hq
      exact ⟨rfl, rfl⟩
    | inlineKey named => cases inHeader
    | _ => cases hs
  | bodyEnd ho' inBody =>
    rw [ho] at ho'
    cases ho'
    simp only at inBody
    rw [inBody] at hs
    cases hs
  | tagEnd ho' pastHeader _ keyRead =>
    rw [ho] at ho'
    cases ho'
    refine .inr ⟨keyRead, hr.kind_key ?_⟩
    cases stage with
    | inlineKey named =>
      simp only [Progress.step, Progress.next, Stage.kind, ho, List.length_singleton,
        if_true] at hq
      cases hq
      exact ⟨rfl, rfl⟩
    | blockKey named => cases pastHeader
    | _ => cases hs

end SingleTag

/-- A single tag read from a headed text has the kind and the key of the head. -/
theorem Headed.kind_key {tag : SingleTag} (h : Headed d kind key text)
    (ht : SingleTag.ofText d text = .ok tag) : tag.kind = kind ∧ tag.key = key := by
  obtain ⟨rest, hrest, hkey, hopens⟩ := h.opens
  obtain ⟨c, hc, ho, hr⟩ := (SingleTag.readsTo_of_ofText ht).opening hopens hrest
  have hkind : (Cursor.firstStage kind).kind = kind := by cases kind <;> rfl
  have hpart : (Cursor.firstStage kind).part = .key := by cases kind <;> rfl
  have hnamed : (Cursor.firstStage kind).named = false := by cases kind <;> rfl
  rw [← hkind] at hr ⊢
  rcases hr.key_or_says ho hpart with ⟨-, c', stage', ho', hk', hp', hn', hr'⟩ | ⟨hn, hsays⟩
  · rw [← hk'] at hr' ⊢
    rcases hr'.key_or_says ho' hp' with ⟨hn, -⟩ | ⟨-, hsays⟩
    · rw [hn'] at hn; cases hn
    · rwa [hc, hkey] at hsays
  · rw [hnamed, hc, hkey] at hn
    simpa [hn.resolve_left (by simp)] using hsays

end TagMarkup
