import TagMarkup.Proofs.Lexing.Step
import TagMarkup.Proofs.Lexing.Tiling
import TagMarkup.Proofs.Text.Boundary
import TagMarkup.Proofs.Text.Until

/-! Which part of a text its tokens cover, whether it can be read as a whole or not. They cover it
from the front to the fault that ended the reading, or to the end, without gaps, and the reading has
ended after no more steps than the text has bytes and one. A token of text is as long as it can be:
no mark of its context begins in it, and the next token is not text, too (`ofText_covers`). -/

namespace TagMarkup

namespace Cursor

variable {d : Delimiters} {c : Cursor} {context : Context} {next : Token × Cursor}

/-- Where a mark of the context begins, the next token is not text. -/
theorem not_text_of_begins {m : Text} (hc : context? c.opened = some context)
    (hm : m ∈ context.marks d) (hp : m <+: c.rest) (h : c.step d = .ok next) :
    next.1.kind ≠ .text := by
  by_cases hopener : d.opener <+: c.rest
  · by_cases hblock : d.blockCloser <+: c.rest
    · -- a block is closed here, if there is one
      cases hopened : c.opened with
      | nil =>
        rw [step_strayBlockClose (.inl hopened) hblock] at h
        cases h
      | cons tag outer =>
        cases context with
        | values =>
          rw [step_strayBlockClose (.inr hc) hblock] at h
          cases h
        | free =>
          have hbody : tag.stage = .body := by
            rw [hopened] at hc
            obtain ⟨stage, openedAt⟩ := tag
            cases stage <;> cases hc
            rfl
          rw [step_bodyEnd hopened hbody hblock] at h
          cases h
          simp [advance]
    · obtain ⟨kind, hkind⟩ : ∃ kind, c.opens? d = some kind :=
        Option.ne_none_iff_exists'.1 fun hnone => opens?_eq_none.1 hnone hopener
      rw [step_opening hc hkind hblock] at h
      cases h
      cases kind <;> simp [advance, openToken]
  · cases context with
    | free =>
      rw [List.mem_singleton.1 hm] at hp
      exact absurd hp hopener
    | values =>
      simp only [Context.marks, List.mem_cons, List.not_mem_nil, or_false] at hm
      have hsep (level : Level) (hl : d.sepOf level <+: c.rest) : next.1.kind ≠ .text := by
        rw [step_valueSep level hc hl] at h
        cases h
        simp [advance]
      rcases hm with rfl | rfl | rfl | rfl
      · exact absurd hp hopener
      · cases hopened : c.opened with
        | nil =>
          rw [hopened] at hc
          cases hc
        | cons tag outer =>
          rw [hopened] at hc
          have hstage : tag.stage ≠ .body ∧ tag.stage.named = true := by
            obtain ⟨stage, openedAt⟩ := tag
            cases stage <;> cases hc <;> exact ⟨by simp, rfl⟩
          rw [step_close hopened hstage.1 (.inl hstage.2) hp] at h
          cases h
          simp [advance]
      · exact hsep .group hp
      · exact hsep .value hp

/-- A token of text stands in a context and goes on to the next mark of it. -/
theorem step_eq_text (hr : c.rest ≠ []) (h : c.step d = .ok next) (hk : next.1.kind = .text) :
    ∃ context, context? next.2.opened = some context ∧
      Text.Until (context.marks d) next.1.text next.2.rest := by
  have hmove := step_move h
  have hfree : ∀ tag ∈ c.opened.head?, tag.stage.holdsTags = true := by
    unfold Moves at hmove
    rw [hk] at hmove
    generalize next.1.text = lexeme at hmove
    generalize next.1.depth = depth at hmove
    generalize next.2.opened = opened at hmove
    generalize hkind : TokenKind.text = kind at hmove
    cases hmove with
    | text lexeme free => exact free
    | opening kind => cases kind <;> cases hkind
    | key | sep | headerEnd | bodyEnd | tagEnd => cases hkind
  obtain ⟨context, hc⟩ : ∃ context, context? c.opened = some context := by
    cases hopened : c.opened with
    | nil => exact ⟨.free, rfl⟩
    | cons tag outer =>
      have hholds := hfree tag (by rw [hopened]; rfl)
      obtain ⟨stage, openedAt⟩ := tag
      cases stage with
      | inlineValues | blockValues => exact ⟨.values, rfl⟩
      | body => exact ⟨.free, rfl⟩
      | inlineKey | blockKey | closing => cases hholds
  have hmarks : ∀ m ∈ context.marks d, ¬ m <+: c.rest := by
    intro m hm hp
    exact not_text_of_begins hc hm hp h hk
  rw [step_text hc hr hmarks] at h
  cases h
  refine ⟨context, hc, ?_⟩
  have huntil := Text.Until.of_splitBefore (context.marks d) c.rest
  have hsplit := Text.splitBefore_append (context.marks d) c.rest
  have hrest : c.rest.drop (Text.splitBefore (context.marks d) c.rest).1.length =
      (Text.splitBefore (context.marks d) c.rest).2 := by
    have hdrop := congrArg (List.drop (Text.splitBefore (context.marks d) c.rest).1.length) hsplit
    rw [List.drop_left] at hdrop
    exact hdrop.symm
  show Text.Until (context.marks d) _ (c.rest.drop _)
  rw [hrest]
  exact huntil

end Cursor

namespace Lexing

variable {d : Delimiters} {c : Cursor} {t : Text}

/-- The reading from a cursor on, if it ends within a number of steps. Its last step finds the end
of the text or a fault. -/
def within (d : Delimiters) : Nat → Cursor → Option Lexing
  | 0, _ => none
  | steps + 1, c =>
    if c.rest = [] then some ⟨[], c.opened.head?.map fun tag => .unclosedTag tag.openedAt⟩
    else
      match c.step d with
      | .error e => some ⟨[], some e⟩
      | .ok next =>
        (within d steps next.2).map fun more => ⟨next :: more.steps, more.fault?⟩

/-- Each step but the last one takes at least one byte off the unread text. -/
theorem within_eq {steps : Nat} (h : c.rest.bytes < steps) :
    within d steps c = some (ofCursor d c) := by
  induction steps generalizing c with
  | zero => omega
  | succ steps ih =>
    rw [within]
    by_cases hr : c.rest = []
    · rw [if_pos hr, ofCursor_end hr]
    · rw [if_neg hr]
      cases hs : c.step d with
      | error e => rw [ofCursor_error hr hs]
      | ok next =>
        have hadvances := Cursor.step_advances hr hs
        have hpos := Text.bytes_pos.2 hadvances.nonempty
        have hbytes : next.1.text.bytes + next.2.rest.bytes = c.rest.bytes := by
          rw [← hadvances.rest, Text.bytes_append]
        have hmore := ih (c := next.2) (by omega)
        simp only [hmore, Option.map_some]
        rw [ofCursor_ok hr hs]

/-- The text from the first token on is the lexemes of all tokens and what is left unread, where
every lexeme stands in front of what its step left. -/
theorem ofCursor_stands (c : Cursor) (before : Text) (hc : before.bytes = c.position) :
    ∀ next ∈ (ofCursor d c).steps, ∃ front,
      before ++ c.rest = front ++ (next.1.text ++ next.2.rest) ∧ front.bytes = next.1.start := by
  fun_induction ofCursor d c generalizing before with
  | case1 => simp
  | case2 => simp
  | case3 c hr first hs more ih =>
    have hadvances := Cursor.step_advances hr hs
    intro next hnext
    rcases List.mem_cons.1 hnext with rfl | hnext
    · refine ⟨before, by rw [hadvances.rest], ?_⟩
      rw [hc, hadvances.start]
    · have hbefore : (before ++ first.1.text).bytes = first.2.position := by
        rw [Text.bytes_append, hc, hadvances.position, Token.stop, hadvances.start]
      obtain ⟨front, htext, hstart⟩ := ih (before ++ first.1.text) hbefore next hnext
      refine ⟨front, ?_, hstart⟩
      rw [← htext, ← hadvances.rest, List.append_assoc]

/-- The token behind a text is not text, too. -/
theorem not_text_behind_text (c : Cursor) : ∀ before first second after,
    (ofCursor d c).tokens = before ++ first :: second :: after →
      first.kind = .text → second.kind ≠ .text := by
  fun_induction ofCursor d c with
  | case1 => simp [tokens]
  | case2 => simp [tokens]
  | case3 c hr next hs more ih =>
    intro before first second after h htext
    have hcons : next.1 :: more.tokens = before ++ first :: second :: after := h
    cases before with
    | cons token before => exact ih before first second after (List.cons.inj hcons).2 htext
    | nil =>
      obtain ⟨rfl, hmore⟩ := List.cons.inj hcons
      obtain ⟨context, hc, huntil⟩ := Cursor.step_eq_text hr hs htext
      by_cases hend : next.2.rest = []
      · simp [more, tokens, ofCursor_end hend] at hmore
      · -- a mark of the context begins behind the text
        obtain ⟨m, hm, hp⟩ := huntil.ended.resolve_left hend
        cases hs' : next.2.step d with
        | error e => simp [more, tokens, ofCursor_error hend hs'] at hmore
        | ok next' =>
          have hfirst : next'.1 = second := by
            simp only [more, tokens, ofCursor_ok hend hs', List.map_cons] at hmore
            exact (List.cons.inj hmore).1
          rw [← hfirst]
          exact Cursor.not_text_of_begins hc hm hp hs'

theorem ofCursor_texts (c : Cursor) : ∀ next ∈ (ofCursor d c).steps, next.1.kind = .text →
    ∃ context, Cursor.context? next.2.opened = some context ∧
      Text.Until (context.marks d) next.1.text next.2.rest := by
  fun_induction ofCursor d c with
  | case1 => simp
  | case2 => simp
  | case3 c hr first hs more ih =>
    intro next hnext htext
    rcases List.mem_cons.1 hnext with rfl | hnext
    · exact Cursor.step_eq_text hr hs htext
    · exact ih next hnext htext

/-- A reading of the text `t` covers it from the front to where it ended. -/
structure Covers (l : Lexing) (d : Delimiters) (t : Text) : Prop where
  /-- The lexemes make up the text that was read, without gaps. -/
  whole : ∃ unread, t = l.lexemes ++ unread ∧ Tiles 0 l.tokens l.lexemes.bytes ∧
    Leaves l.lexemes.bytes unread l.fault?
  /-- Every token is the part of the text between its ends, which are boundaries of the text. -/
  slices : ∀ token ∈ l.tokens, t.slice? token.start token.stop = some token.text ∧
    t.Boundary token.start ∧ t.Boundary token.stop
  /-- No two texts are adjacent. -/
  apart : ∀ before first second after, l.tokens = before ++ first :: second :: after →
    first.kind = .text → second.kind ≠ .text
  /-- No mark of its context begins in a text. -/
  maximal : ∀ next ∈ l.steps, next.1.kind = .text → ∃ context front behind,
    Cursor.context? next.2.opened = some context ∧
      t = front ++ (next.1.text ++ behind) ∧ front.bytes = next.1.start ∧
      ∀ a b, next.1.text = a ++ b → b ≠ [] → ∀ m ∈ context.marks d, ¬ m <+: b ++ behind

/-- Reading a text token by token ends after at most as many steps as the text has bytes, and one
more, and it covers the text: all of it, if it can be read or a tag is not closed, and otherwise the
text in front of the fault. -/
theorem ofText_covers (d : Delimiters) (t : Text) :
    within d (t.bytes + 1) (.ofText t) = some (ofText d t) ∧ (ofText d t).Covers d t ∧
      ∀ tokens, tokenize d t = .ok tokens → (tokens.map Token.text).flatten = t := by
  have hstands := ofCursor_stands (d := d) (.ofText t) [] rfl
  obtain ⟨unread, htext, htiles, hleaves⟩ := ofCursor_lexemes (d := d) (.ofText t)
  have hzero : (Cursor.ofText t).position = 0 := rfl
  rw [hzero, Nat.zero_add] at htiles hleaves
  refine ⟨within_eq (Nat.lt_succ_self _), ⟨⟨unread, htext, htiles, hleaves⟩, ?_, ?_, ?_⟩, ?_⟩
  · intro token htoken
    obtain ⟨next, hnext, rfl⟩ := List.mem_map.1 htoken
    obtain ⟨front, hsplit, hstart⟩ := hstands next hnext
    have hsplit : t = front ++ (next.1.text ++ next.2.rest) := hsplit
    refine ⟨Text.slice?_eq_some.2 ⟨front, next.2.rest, hsplit, hstart, ?_⟩, ?_, ?_⟩
    · rw [hstart]
      rfl
    · exact Text.boundary_iff.2 ⟨front, _, hsplit, hstart⟩
    · refine Text.boundary_iff.2 ⟨front ++ next.1.text, next.2.rest, ?_, ?_⟩
      · rw [hsplit, List.append_assoc]
      · rw [Text.bytes_append, hstart]
        rfl
  · intro before first second after htokens hfirst
    exact not_text_behind_text (.ofText t) before first second after htokens hfirst
  · intro next hnext hkind
    obtain ⟨context, hc, huntil⟩ := ofCursor_texts (.ofText t) next hnext hkind
    obtain ⟨front, hsplit, hstart⟩ := hstands next hnext
    exact ⟨context, front, next.2.rest, hc, hsplit, hstart, huntil.clear⟩
  · intro tokens htokens
    rw [← (lexing_of_tokenize htokens).1]
    exact lexemes_of_tokenize htokens

end Lexing

end TagMarkup
