import Mathlib.Data.List.Forall2
import TagMarkup.Proofs.Lexing.Step
import TagMarkup.Proofs.Lexing.Tiling
import TagMarkup.Proofs.Text.Boundary

/-! The draft of an outline beside the reader of the tokens. Each of the two keeps the open tags for
itself, the reader with their stages and the draft with their parts. At every token of a text,
whether the text can be read to its end or not, they are the same tags, read as far
(`Draft.InStep`), and the draft has a place for the token (`Draft.Takes`). No token makes the draft
lose a tag (`Draft.openers_ofTokens`), so when the text can be read, all of them have ended. -/

namespace TagMarkup

/-- The kind of the tag that a token opens, and where it opens. -/
def Token.opener? (token : Token) : Option (TagKind × Nat) :=
  match token.kind with
  | .inlineOpen => some (.inline, token.start)
  | .blockOpen => some (.block, token.start)
  | _ => none

def Tag.opener (tag : Tag) : TagKind × Nat := (tag.kind, tag.start)

namespace Unclosed

/-- The openers of the tag and of the tags that have ended inside it. -/
def openers (u : Unclosed) : List (TagKind × Nat) :=
  (u.kind, u.start) :: u.inner.toList.map Tag.opener

/-- The value that ends at `stop` is a part of the text, and there is a group for it. -/
structure EndsValue (text : Text) (u : Unclosed) (stop : Nat) : Prop where
  grouped : u.groups ≠ []
  le : u.valueAt ≤ stop
  slice : ∃ value, text.slice? u.valueAt stop = some value

/-- The body that ends at `stop` is a part of the text. -/
structure EndsBody (text : Text) (u : Unclosed) (stop : Nat) : Prop where
  le : u.bodyAt ≤ stop
  slice : ∃ body, text.slice? u.bodyAt stop = some body

/-- The innermost open tag has been read as far as the token needs. -/
def Takes (text : Text) (u : Unclosed) (token : Token) : Prop :=
  match token.kind with
  | .text | .inlineOpen | .blockOpen => u.part = .values ∨ u.part = .body
  | .key => u.part = .key ∨ u.part = .ending
  | .sep level =>
    u.part = .key ∧ level = .group ∨ u.part = .values ∧ u.EndsValue text token.start
  | .blockClose => u.part = .body ∧ u.EndsBody text token.start
  | .close => u.part ≠ .body ∧ (u.part = .values → u.EndsValue text token.start)

/-- A tag that is open in the draft is the one that is open for the reader, and both have read it as
far. Its present value and its body begin no later than at `position`, and a tag among its values
has a group for them. -/
structure Follows (text : Text) (position : Nat) (u : Unclosed) (tag : OpenTag) : Prop where
  kind : u.kind = tag.stage.kind
  part : u.part = tag.stage.part
  start : u.start = tag.openedAt
  valueAt : u.valueAt ≤ position ∧ text.Boundary u.valueAt
  bodyAt : u.bodyAt ≤ position ∧ text.Boundary u.bodyAt
  grouped : u.part = .values → u.groups ≠ []

variable {text : Text} {position start stop : Nat} {u : Unclosed} {tag : OpenTag} {stage : Stage}

theorem addToLast_ne_nil {value : Text} {groups : List (List Text)} (h : groups ≠ []) :
    addToLast value groups ≠ [] := by
  match groups, h with
  | [_], _ => simp [addToLast]
  | _ :: _ :: _, _ => simp [addToLast]

/-- After a separator the tag is among its values, the next of which begins behind the separator.
Apart from that only its groups change, and there is one for the next value. -/
theorem afterSep_eq (text : Text) (h : u.part = .key ∨ u.part = .values) (level : Level)
    (start stop : Nat) :
    ∃ groups, u.afterSep text level start stop =
        { u with groups, part := .values, valueAt := stop } ∧
      ((u.part = .values → u.groups ≠ []) → groups ≠ []) := by
  by_cases hkey : u.part = .key
  · refine ⟨u.groups ++ [[]], ?_, fun _ => by simp⟩
    simp [afterSep, hkey, newGroup]
  · have hvalues := h.resolve_left hkey
    cases level with
    | group =>
      refine ⟨addToLast (text.slice u.valueAt start) u.groups ++ [[]], ?_, fun _ => by simp⟩
      simp [afterSep, hvalues, newGroup, endValue]
    | value =>
      refine ⟨addToLast (text.slice u.valueAt start) u.groups, ?_,
        fun hgroups => addToLast_ne_nil (hgroups hvalues)⟩
      simp [afterSep, hvalues, endValue]

namespace Follows

theorem mono (h : u.Follows text start tag) (hle : start ≤ stop) : u.Follows text stop tag := by
  obtain ⟨hvalue, hvalueCut⟩ := h.valueAt
  obtain ⟨hbody, hbodyCut⟩ := h.bodyAt
  exact { h with
    valueAt := ⟨by omega, hvalueCut⟩
    bodyAt := ⟨by omega, hbodyCut⟩ }

theorem opened (text : Text) (position : Nat) (kind : TagKind) (start : Nat) :
    (Unclosed.opened kind start).Follows text position ⟨Cursor.firstStage kind, start⟩ := by
  have hzero : text.Boundary 0 := Text.boundary_append [] text
  cases kind with
  | inline => exact ⟨rfl, rfl, rfl, ⟨Nat.zero_le _, hzero⟩, ⟨Nat.zero_le _, hzero⟩, nofun⟩
  | block => exact ⟨rfl, rfl, rfl, ⟨Nat.zero_le _, hzero⟩, ⟨Nat.zero_le _, hzero⟩, nofun⟩

theorem inner (h : u.Follows text position tag) (inner : Forest Tag) :
    { u with inner }.Follows text position tag :=
  ⟨h.kind, h.part, h.start, h.valueAt, h.bodyAt, h.grouped⟩

theorem key (h : u.Follows text position tag) (keyed : tag.stage.keyed? = some stage)
    (key : Text) : { u with key }.Follows text position { tag with stage } := by
  obtain ⟨hkind, hpart, -, -, -⟩ := Stage.of_keyed? keyed
  exact ⟨h.kind.trans hkind.symm, h.part.trans hpart.symm, h.start, h.valueAt, h.bodyAt, h.grouped⟩

theorem sep {level : Level} (h : u.Follows text start tag)
    (after : tag.stage.afterSep? level = some stage) (hle : start ≤ stop)
    (hcut : text.Boundary stop) :
    (u.afterSep text level start stop).Follows text stop { tag with stage } := by
  obtain ⟨hkind, hvalues, -, hpart, -⟩ := Stage.of_afterSep? after
  rw [← h.part] at hpart
  obtain ⟨groups, heq, hgroups⟩ := afterSep_eq text hpart level start stop
  rw [heq]
  exact ⟨h.kind.trans hkind.symm, hvalues.symm, h.start, ⟨Nat.le_refl _, hcut⟩,
    (h.mono hle).bodyAt, fun _ => hgroups h.grouped⟩

theorem headerEnd (h : u.Follows text start tag) (inHeader : tag.stage.inHeader = true)
    (hle : start ≤ stop) (hcut : text.Boundary stop) (groups : List (List Text)) :
    { u with groups, part := .body, bodyAt := stop }.Follows text stop
      { tag with stage := .body } := by
  obtain ⟨hkind, -⟩ := Stage.of_inHeader inHeader
  exact ⟨h.kind.trans hkind, rfl, h.start, (h.mono hle).valueAt, ⟨Nat.le_refl _, hcut⟩, nofun⟩

theorem bodyEnd (d : Delimiters) (h : u.Follows text start tag) (inBody : tag.stage = .body) :
    (u.afterBody d text start).Follows text start { tag with stage := .closing false } := by
  have hkind : u.kind = .block := by rw [h.kind, inBody]; rfl
  exact ⟨hkind, rfl, h.start, h.valueAt, h.bodyAt, nofun⟩

/-- Where the tag is among its values, one that ends here is a part of the text. -/
theorem endsValue (h : u.Follows text position tag) (hcut : text.Boundary position)
    (hpart : u.part = .values) : u.EndsValue text position :=
  ⟨h.grouped hpart, h.valueAt.1, h.valueAt.2.exists_slice hcut h.valueAt.1⟩

theorem endsBody (h : u.Follows text position tag) (hcut : text.Boundary position) :
    u.EndsBody text position :=
  ⟨h.bodyAt.1, h.bodyAt.2.exists_slice hcut h.bodyAt.1⟩

end Follows

end Unclosed

namespace Draft

variable {d : Delimiters} {text : Text}

/-- The openers of all tags of the draft, which are those that have ended and those that are
open. -/
def openers (draft : Draft) : List (TagKind × Nat) :=
  draft.finished.toList.map Tag.opener ++ draft.opened.reverse.flatMap Unclosed.openers

/-- The draft has a place for the token: outside of all tags only texts and openers may stand. -/
def Takes (text : Text) (draft : Draft) (token : Token) : Prop :=
  match draft.opened with
  | [] => token.kind = .text ∨ token.kind.isOpen = true
  | u :: _ => u.Takes text token

/-- A closer ends the innermost tag, or the header of a block tag, after the value before it. -/
theorem close_cons (u : Unclosed) (us : List Unclosed) (finished : Forest Tag) (text : Text)
    (start stop : Nat) :
    ∃ groups, Draft.close text start stop ⟨u :: us, finished⟩ =
      if u.kind = .block ∧ (u.part = .key ∨ u.part = .values) then
        ⟨{ u with groups, part := .body, bodyAt := stop } :: us, finished⟩
      else Draft.add (.tree ({ u with groups }.toTag stop) u.inner) ⟨us, finished⟩ := by
  by_cases hp : u.part = .values
  · refine ⟨Unclosed.addToLast (text.slice u.valueAt start) u.groups, ?_⟩
    simp [Draft.close, hp, Unclosed.endValue]
  · refine ⟨u.groups, ?_⟩
    simp [Draft.close, hp]

theorem openers_modify {change : Unclosed → Unclosed}
    (h : ∀ u, (change u).openers = u.openers) (draft : Draft) :
    (draft.modify change).openers = draft.openers := by
  obtain ⟨opened, finished⟩ := draft
  cases opened with
  | nil => rfl
  | cons u us => simp [modify, openers, h]

theorem openers_add (draft : Draft) (f : Forest Tag) :
    (draft.add f).openers = draft.openers ++ f.toList.map Tag.opener := by
  obtain ⟨opened, finished⟩ := draft
  cases opened with
  | nil => simp [add, openers]
  | cons u us => simp [add, openers, Unclosed.openers]

theorem openers_close (text : Text) (start stop : Nat) (draft : Draft) :
    (draft.close text start stop).openers = draft.openers := by
  obtain ⟨opened, finished⟩ := draft
  cases opened with
  | nil => rfl
  | cons u us =>
    obtain ⟨groups, heq⟩ := close_cons u us finished text start stop
    rw [heq]
    split
    · simp [openers, Unclosed.openers]
    · rw [openers_add]
      simp [openers, Unclosed.openers, Forest.tree, Forest.toList, Tag.opener, Unclosed.toTag]

theorem openers_next (d : Delimiters) (text : Text) (draft : Draft) (token : Token) :
    (draft.next d text token).openers = draft.openers ++ token.opener?.toList := by
  obtain ⟨kind, start, lexeme, depth⟩ := token
  cases kind with
  | text => simp [next, Token.opener?]
  | inlineOpen | blockOpen =>
    simp [next, push, openers, Token.opener?, Unclosed.openers, Unclosed.opened, Forest.toList]
  | key =>
    refine (openers_modify (fun u => ?_) draft).trans (List.append_nil _).symm
    split <;> rfl
  | sep level =>
    refine (openers_modify (fun u => ?_) draft).trans (List.append_nil _).symm
    unfold Unclosed.afterSep
    split
    · rfl
    · cases level <;> rfl
  | blockClose =>
    refine (openers_modify (fun u => ?_) draft).trans (List.append_nil _).symm
    rfl
  | close => exact (openers_close _ _ _ draft).trans (List.append_nil _).symm

theorem openers_foldl (d : Delimiters) (text : Text) (tokens : List Token) (draft : Draft) :
    (tokens.foldl (next d text) draft).openers =
      draft.openers ++ tokens.filterMap Token.opener? := by
  induction tokens generalizing draft with
  | nil => simp
  | cons token tokens ih =>
    rw [List.foldl_cons, ih, openers_next, List.append_assoc]
    cases h : token.opener? with
    | none => rw [List.filterMap_cons_none h]; rfl
    | some opener => rw [List.filterMap_cons_some h]; rfl

/-- The tags of the draft are those that the tokens have opened, in their order. -/
theorem openers_ofTokens (d : Delimiters) (text : Text) (tokens : List Token) :
    (ofTokens d text tokens).openers = tokens.filterMap Token.opener? :=
  openers_foldl d text tokens .empty

theorem ofTokens_concat (d : Delimiters) (text : Text) (tokens : List Token) (token : Token) :
    ofTokens d text (tokens ++ [token]) = (ofTokens d text tokens).next d text token := by
  simp [ofTokens]

/-- The cursor stands behind the tokens `read` of the text, and inside the tags that are open in the
draft of these tokens. -/
structure InStep (d : Delimiters) (text : Text) (read : List Token) (c : Cursor) : Prop where
  place : ∃ front, text = front ++ c.rest ∧ front.bytes = c.position
  frames : List.Forall₂ (Unclosed.Follows text c.position) (ofTokens d text read).opened c.opened

section Move

variable {position start depth : Nat} {rest lexeme : Text} {kind : TokenKind} {draft : Draft}
  {opened after : List OpenTag}

theorem takes_of_move (h : List.Forall₂ (Unclosed.Follows text position) draft.opened opened)
    (hm : Cursor.Move d ⟨position, rest, opened⟩ kind lexeme depth after)
    (hcut : text.Boundary position) : draft.Takes text ⟨kind, position, lexeme, depth⟩ := by
  obtain ⟨us, finished⟩ := draft
  cases hm with
  | text _ free =>
    cases h with
    | nil => exact .inl rfl
    | cons top outer =>
      have hpart := Stage.part_of_holdsTags (free _ rfl)
      rwa [← top.part] at hpart
  | opening kind free =>
    cases h with
    | nil => exact .inr (by cases kind <;> rfl)
    | cons top outer =>
      have hpart := Stage.part_of_holdsTags (free _ rfl)
      rw [← top.part] at hpart
      cases kind <;> exact hpart
  | key ho keyed =>
    subst ho
    cases h with
    | cons top outer =>
      have hpart := Stage.part_of_keyed? keyed
      rwa [← top.part] at hpart
  | sep level ho hafter =>
    subst ho
    cases h with
    | cons top outer =>
      obtain ⟨-, -, -, hpart, hlevel⟩ := Stage.of_afterSep? hafter
      rw [← top.part] at hpart hlevel
      rcases hpart with hkey | hvalues
      · exact .inl ⟨hkey, hlevel hkey⟩
      · exact .inr ⟨hvalues, top.endsValue hcut hvalues⟩
  | headerEnd ho inHeader =>
    subst ho
    cases h with
    | cons top outer =>
      obtain ⟨-, hpart⟩ := Stage.of_inHeader inHeader
      rw [← top.part] at hpart
      refine ⟨fun hbody => ?_, top.endsValue hcut⟩
      rw [hbody] at hpart
      simp at hpart
  | bodyEnd ho inBody =>
    subst ho
    cases h with
    | cons top outer =>
      have hpart := top.part
      rw [inBody] at hpart
      exact ⟨hpart, top.endsBody hcut⟩
  | tagEnd ho _ pastBody =>
    subst ho
    cases h with
    | cons top outer =>
      have hpart := Stage.part_ne_body pastBody
      rw [← top.part] at hpart
      exact ⟨hpart, top.endsValue hcut⟩

theorem frames_of_move (h : List.Forall₂ (Unclosed.Follows text position) draft.opened opened)
    (hm : Cursor.Move d ⟨position, rest, opened⟩ kind lexeme depth after)
    (hcut : text.Boundary (position + lexeme.bytes)) :
    List.Forall₂ (Unclosed.Follows text (position + lexeme.bytes))
      (draft.next d text ⟨kind, position, lexeme, depth⟩).opened after := by
  obtain ⟨us, finished⟩ := draft
  have hle : position ≤ position + lexeme.bytes := Nat.le_add_right _ _
  have hmono {us : List Unclosed} {tags : List OpenTag}
      (h : List.Forall₂ (Unclosed.Follows text position) us tags) :
      List.Forall₂ (Unclosed.Follows text (position + lexeme.bytes)) us tags :=
    h.imp fun _ _ hfollows => hfollows.mono hle
  cases hm with
  | text => exact hmono h
  | opening kind =>
    cases kind <;> exact .cons (.opened text _ _ position) (hmono h)
  | key ho keyed =>
    subst ho
    cases h with
    | @cons u _ us _ top outer =>
      refine .cons ?_ (hmono outer)
      show (if u.part = .key then { u with key := lexeme } else u).Follows _ _ _
      split
      · exact (top.key keyed lexeme).mono hle
      · exact (top.key keyed u.key).mono hle
  | sep level ho hafter =>
    subst ho
    cases h with
    | cons top outer => exact .cons (top.sep hafter hle hcut) (hmono outer)
  | headerEnd ho inHeader =>
    subst ho
    cases h with
    | @cons u _ us _ top outer =>
      obtain ⟨groups, heq⟩ := close_cons u us finished text position (position + lexeme.bytes)
      rw [if_pos (by rw [top.kind, top.part]; exact Stage.of_inHeader inHeader)] at heq
      simp only [next, Token.stop, heq]
      exact .cons (top.headerEnd inHeader hle hcut groups) (hmono outer)
  | bodyEnd ho inBody =>
    subst ho
    cases h with
    | cons top outer => exact .cons ((top.bodyEnd d inBody).mono hle) (hmono outer)
  | tagEnd ho pastHeader =>
    subst ho
    cases h with
    | @cons u _ us _ top outer =>
      obtain ⟨groups, heq⟩ := close_cons u us finished text position (position + lexeme.bytes)
      rw [if_neg (by rw [top.kind, top.part]; exact Stage.not_inHeader pastHeader)] at heq
      simp only [next, Token.stop, heq]
      -- the tag that ended stands in the one around it, if there is one
      cases outer with
      | nil => exact .nil
      | cons around others => exact .cons ((around.mono hle).inner _) (hmono others)

end Move

namespace InStep

variable {read : List Token} {c : Cursor} {next : Token × Cursor}

theorem start (d : Delimiters) (text : Text) : InStep d text [] (.ofText text) :=
  ⟨⟨[], rfl, rfl⟩, .nil⟩

/-- The draft has a place for the next token, and keeps step. -/
theorem step (h : InStep d text read c) (hm : c.Moves d next) (ha : c.Advances next) :
    (ofTokens d text read).Takes text next.1 ∧ InStep d text (read ++ [next.1]) next.2 := by
  obtain ⟨⟨kind, start, lexeme, depth⟩, ⟨position, rest, opened⟩⟩ := next
  obtain ⟨⟨front, htext, hfront⟩, hframes⟩ := h
  obtain ⟨hstart, hrest, -, hposition⟩ := ha
  simp only [Token.stop] at hstart hrest hposition
  subst hstart hposition
  have htext' : text = (front ++ lexeme) ++ rest := by
    rw [htext, ← hrest, List.append_assoc]
  have hfront' : (front ++ lexeme).bytes = c.position + lexeme.bytes := by
    rw [Text.bytes_append, hfront]
  have hcut : text.Boundary c.position := Text.boundary_iff.2 ⟨front, c.rest, htext, hfront⟩
  have hcut' : text.Boundary (c.position + lexeme.bytes) :=
    Text.boundary_iff.2 ⟨front ++ lexeme, rest, htext', hfront'⟩
  refine ⟨takes_of_move hframes hm hcut, ⟨front ++ lexeme, htext', hfront'⟩, ?_⟩
  rw [ofTokens_concat]
  exact frames_of_move hframes hm hcut'

/-- The first steps of a reading lead to a cursor from which the others follow. -/
theorem reach {before after : List (Token × Cursor)} (h : InStep d text read c)
    (hsteps : (Lexing.ofCursor d c).steps = before ++ after) :
    ∃ c', InStep d text (read ++ before.map Prod.fst) c' ∧
      (Lexing.ofCursor d c').steps = after ∧
      (Lexing.ofCursor d c').fault? = (Lexing.ofCursor d c).fault? := by
  induction before generalizing read c with
  | nil => exact ⟨c, by simpa using h, hsteps, rfl⟩
  | cons next before ih =>
    obtain ⟨hr, hs, hmore, hfault⟩ := Lexing.ofCursor_of_steps hsteps
    obtain ⟨-, hnext⟩ := h.step (Cursor.step_move hs) (Cursor.step_advances hr hs)
    obtain ⟨c', hc', hafter, hfault'⟩ := ih hnext hmore
    exact ⟨c', by simpa using hc', hafter, hfault'.trans hfault⟩

end InStep

/-- When a text has been read to its end, no tag is open. -/
theorem opened_ofTokens {tokens : List Token} (h : tokenize d text = .ok tokens) :
    (ofTokens d text tokens).opened = [] := by
  obtain ⟨hread, hfault⟩ := lexing_of_tokenize h
  have hread : (Lexing.ofCursor d (.ofText text)).steps.map Prod.fst = tokens := hread
  obtain ⟨c, hc, hend, hfault'⟩ := (InStep.start d text).reach (List.append_nil _).symm
  have hopened := Lexing.ofCursor_of_steps_nil hend (hfault'.trans hfault)
  have hframes := hc.frames
  rwa [List.nil_append, hread, hopened, List.forall₂_nil_right_iff] at hframes

/-- At every token of a text the draft has a place for it, and after it the same tags are open in
the draft and for the reader, tag by tag. When the text can be read, the tags that have ended are
all that opened. -/
theorem ofTokens_inStep (d : Delimiters) (text : Text) :
    (∀ before next after, (Lexing.ofText d text).steps = before ++ next :: after →
      let read := before.map Prod.fst
      (ofTokens d text read).Takes text next.1 ∧
        (ofTokens d text (read ++ [next.1])).opened.length = next.2.opened.length ∧
        InStep d text (read ++ [next.1]) next.2) ∧
    ∀ tokens, tokenize d text = .ok tokens →
      (ofTokens d text tokens).opened = [] ∧
        (ofTokens d text tokens).finished.toList.map Tag.opener =
          tokens.filterMap Token.opener? := by
  refine ⟨fun before next after hsteps => ?_, fun tokens htokens => ?_⟩
  · obtain ⟨c, hc, hafter, -⟩ := (InStep.start d text).reach hsteps
    rw [List.nil_append] at hc
    obtain ⟨hr, hs, -⟩ := Lexing.ofCursor_of_steps hafter
    obtain ⟨htakes, hnext⟩ := hc.step (Cursor.step_move hs) (Cursor.step_advances hr hs)
    exact ⟨htakes, hnext.frames.length_eq, hnext⟩
  · have hopened := opened_ofTokens htokens
    have hopeners := openers_ofTokens d text tokens
    rw [openers, hopened] at hopeners
    exact ⟨hopened, by simpa using hopeners⟩

/-- A value is suspended by the body of a block, in which the text ends. -/
example :
    let text : Text := "[[a::é[[#c]]d".toList
    let draft := Draft.ofTokens .standard text (Lexing.ofText .standard text).tokens
    draft.opened.map (fun u => (u.kind, u.part, u.valueAt, u.bodyAt)) =
      [(.block, .body, 0, 13), (.inline, .values, 5, 0)] := by decide +kernel

end Draft

end TagMarkup
