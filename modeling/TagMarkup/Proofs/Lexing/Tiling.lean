import TagMarkup.Token.Lexing

/-! The tokens of a text cover it from the front to the fault that ended the reading, or to the end,
one after another (`ofCursor_lexemes`). Tokens that cover a part of it are exactly those that lie
within that part. -/

namespace TagMarkup

/-- None of the tokens is empty, and they follow each other from one position to another. -/
def Tiles : Nat → List Token → Nat → Prop
  | start, [], stop => start = stop
  | start, token :: rest, stop => token.start = start ∧ token.text ≠ [] ∧ Tiles token.stop rest stop

namespace Tiles

variable {a b c e : Nat} {token : Token} {ts us vs : List Token}

theorem start_lt_stop (h : token.text ≠ []) : token.start < token.stop := by
  have := Text.bytes_pos.2 h
  unfold Token.stop
  omega

theorem le (h : Tiles a ts b) : a ≤ b := by
  induction ts generalizing a with
  | nil => exact Nat.le_of_eq h
  | cons token rest ih =>
    obtain ⟨rfl, hne, hrest⟩ := h
    have := start_lt_stop hne
    have := ih hrest
    omega

theorem of_append (h : Tiles a (ts ++ us) b) : ∃ c, Tiles a ts c ∧ Tiles c us b := by
  induction ts generalizing a with
  | nil => exact ⟨a, rfl, h⟩
  | cons token rest ih =>
    obtain ⟨hstart, hne, hrest⟩ := h
    obtain ⟨c, hts, hus⟩ := ih hrest
    exact ⟨c, ⟨hstart, hne, hts⟩, hus⟩

theorem of_mem (h : Tiles a ts b) (hm : token ∈ ts) :
    a ≤ token.start ∧ token.start < token.stop ∧ token.stop ≤ b := by
  induction ts generalizing a with
  | nil => cases hm
  | cons first rest ih =>
    obtain ⟨rfl, hne, hrest⟩ := h
    have hlt := start_lt_stop hne
    rcases List.mem_cons.1 hm with rfl | hm
    · exact ⟨Nat.le_refl _, hlt, hrest.le⟩
    · obtain ⟨hlo, hmid, hhi⟩ := ih hrest hm
      exact ⟨by omega, hmid, hhi⟩

/-- The same tokens cover only one part of a text. -/
theorem unique (h : Tiles a us b) (h' : Tiles c us e) (hne : us ≠ []) : a = c ∧ b = e := by
  induction us generalizing a c with
  | nil => exact absurd rfl hne
  | cons token rest ih =>
    obtain ⟨rfl, -, hrest⟩ := h
    obtain ⟨rfl, -, hrest'⟩ := h'
    refine ⟨rfl, ?_⟩
    cases rest with
    | nil => exact hrest.symm.trans hrest'
    | cons next rest => exact (ih hrest hrest' (by simp)).2

/-- Among tokens that cover a text, those that cover a part of it are those within that part. -/
theorem filter_eq (h : Tiles a ts b) (hus : us <:+: ts) (hpart : Tiles c us e) (hne : us ≠ []) :
    ts.filter (fun token => c ≤ token.start ∧ token.stop ≤ e) = us := by
  obtain ⟨before, after, rfl⟩ := hus
  obtain ⟨e', hfront, hafter⟩ := of_append h
  obtain ⟨c', hbefore, hmiddle⟩ := of_append hfront
  obtain ⟨rfl, rfl⟩ := hmiddle.unique hpart hne
  have hnone : before.filter (fun token => c' ≤ token.start ∧ token.stop ≤ e') = [] := by
    rw [List.filter_eq_nil_iff]
    intro token hm
    have := hbefore.of_mem hm
    simp only [decide_eq_true_eq]
    omega
  have hall : us.filter (fun token => c' ≤ token.start ∧ token.stop ≤ e') = us := by
    rw [List.filter_eq_self]
    intro token hm
    have := hmiddle.of_mem hm
    simp only [decide_eq_true_eq]
    omega
  have hnone' : after.filter (fun token => c' ≤ token.start ∧ token.stop ≤ e') = [] := by
    rw [List.filter_eq_nil_iff]
    intro token hm
    have := hafter.of_mem hm
    simp only [decide_eq_true_eq]
    omega
  rw [List.filter_append, List.filter_append, hnone, hall, hnone', List.nil_append,
    List.append_nil]

end Tiles

namespace Cursor

variable {d : Delimiters} {c : Cursor} {e : MarkupError}

theorem stepKey_error {named : Bool} {keyed values : Stage}
    (h : c.stepKey d named keyed values = .error e) : e = c.badKey := by
  unfold stepKey at h
  split at h
  · cases h
  · split at h
    · cases h
    · split at h
      · cases h
      · exact (Except.error.inj h).symm

theorem stepClosing_error {named : Bool} (h : c.stepClosing d named = .error e) :
    e = c.badKey := by
  unfold stepClosing at h
  split at h
  · cases h
  · split at h
    · cases h
    · exact (Except.error.inj h).symm

theorem stepValues_error (h : c.stepValues d = .error e) : e = .strayBlockClose c.position := by
  unfold stepValues at h
  split at h
  · exact (Except.error.inj h).symm
  · cases h

/-- A fault of a step is a key or a block close that cannot stand where the cursor is. -/
theorem step_error (h : c.step d = .error e) : e = c.badKey ∨ e = .strayBlockClose c.position := by
  unfold step at h
  split at h
  · split at h
    · exact .inr (Except.error.inj h).symm
    · cases h
  · split at h
    · exact .inl (stepKey_error h)
    · exact .inl (stepKey_error h)
    · exact .inr (stepValues_error h)
    · exact .inr (stepValues_error h)
    · split at h
      · cases h
      · cases h
    · exact .inl (stepClosing_error h)

end Cursor

namespace Lexing

variable {d : Delimiters} {t : Text}

/-- The lexemes of all tokens, one after another. -/
def lexemes (l : Lexing) : Text := (l.tokens.map Token.text).flatten

/-- What the reading left unread when it ended: nothing, or the text from the position of the fault
on. -/
def Leaves (stop : Nat) (unread : Text) : Option MarkupError → Prop
  | none | some (.unclosedTag _) => unread = []
  | some (.badKey position _) | some (.strayBlockClose position) =>
    unread ≠ [] ∧ position = stop
  | some (.notOneTag _ _) => False

theorem ofCursor_lexemes (c : Cursor) : ∃ unread,
    c.rest = (ofCursor d c).lexemes ++ unread ∧
      Tiles c.position (ofCursor d c).tokens (c.position + (ofCursor d c).lexemes.bytes) ∧
      Leaves (c.position + (ofCursor d c).lexemes.bytes) unread (ofCursor d c).fault? := by
  fun_induction ofCursor d c with
  | case1 c hr =>
    refine ⟨[], by simp [lexemes, tokens, hr], rfl, ?_⟩
    cases c.opened.head? with
    | none => rfl
    | some tag => rfl
  | case2 c hr e hs =>
    refine ⟨c.rest, by simp [lexemes, tokens], rfl, ?_⟩
    rcases Cursor.step_error hs with rfl | rfl
    · exact ⟨hr, rfl⟩
    · exact ⟨hr, rfl⟩
  | case3 c hr next hs more ih =>
    have hadvances := Cursor.step_advances hr hs
    obtain ⟨unread, hrest, htiles, hleaves⟩ := ih
    have hstop : next.2.position + more.lexemes.bytes =
        c.position + (next.1.text ++ more.lexemes).bytes := by
      rw [hadvances.position, Token.stop, hadvances.start, Text.bytes_append, Nat.add_assoc]
    rw [hstop] at htiles hleaves
    rw [hadvances.position] at htiles
    refine ⟨unread, ?_, ⟨hadvances.start, hadvances.nonempty, htiles⟩, hleaves⟩
    show c.rest = (next.1.text ++ more.lexemes) ++ unread
    rw [← hadvances.rest, hrest, List.append_assoc]

end Lexing

section Tokenize

open Lexing

variable {d : Delimiters} {t : Text} {tokens : List Token}

theorem lexing_of_tokenize (h : tokenize d t = .ok tokens) :
    (ofText d t).tokens = tokens ∧ (ofText d t).fault? = none := by
  unfold tokenize result at h
  split at h
  · cases h
  · next hfault =>
    cases h
    exact ⟨rfl, hfault⟩

theorem lexemes_of_tokenize (h : tokenize d t = .ok tokens) : (ofText d t).lexemes = t := by
  obtain ⟨unread, htext, -, hleaves⟩ := ofCursor_lexemes (d := d) (.ofText t)
  have hfault : (ofCursor d (.ofText t)).fault? = none := (lexing_of_tokenize h).2
  rw [hfault] at hleaves
  have hunread : unread = [] := hleaves
  rw [hunread, List.append_nil] at htext
  exact htext.symm

theorem tokenize_tiles (h : tokenize d t = .ok tokens) : Tiles 0 tokens t.bytes := by
  obtain ⟨-, -, htiles, -⟩ := ofCursor_lexemes (d := d) (.ofText t)
  have hlexemes : (ofCursor d (.ofText t)).lexemes = t := lexemes_of_tokenize h
  have htokens : (ofCursor d (.ofText t)).tokens = tokens := (lexing_of_tokenize h).1
  rw [hlexemes, htokens] at htiles
  simpa [Cursor.ofText] using htiles

end Tokenize

end TagMarkup
