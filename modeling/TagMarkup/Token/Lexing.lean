import TagMarkup.Delimiters
import TagMarkup.Token

/-! Markup read token by token. The reader stands at a position of the text, inside the tags that
are open there, and `Cursor.step` takes one token off the unread text. Each token is at least one
character long (`step_rest_length`), so reading a whole text ends. -/

namespace TagMarkup

/-- How far a tag that is still open has been read. A key can be given once, before the values and
again after the block close. -/
inductive Stage
  | inlineKey (named : Bool)
  | inlineValues
  | blockKey (named : Bool)
  | blockValues
  | body
  | closing (named : Bool)
  deriving DecidableEq, Repr

/-- A tag that is still open, and the position at which it was opened. -/
structure OpenTag where
  stage : Stage
  openedAt : Nat
  deriving DecidableEq, Repr

/-- A place in a text: the position, the unread text, and the open tags, innermost first. -/
structure Cursor where
  position : Nat
  rest : Text
  opened : List OpenTag
  deriving DecidableEq, Repr

/-- A letter or an underscore. -/
def isKeyLetter (c : Char) : Bool := c.isAlpha || c = '_'

/-- The key at the front of a text: letters and underscores, the first of which may be a percent
sign instead, and then digits. -/
def leadingKey : Text → Text
  | [] => []
  | c :: rest =>
    if c = '%' || isKeyLetter c then
      c :: (rest.takeWhile isKeyLetter ++ (rest.dropWhile isKeyLetter).takeWhile Char.isDigit)
    else []

namespace Cursor

def ofText (t : Text) : Cursor := ⟨0, t, []⟩

def setStage (c : Cursor) (stage : Stage) : Cursor :=
  match c.opened with
  | [] => c
  | tag :: outer => { c with opened := { tag with stage } :: outer }

def pop (c : Cursor) : Cursor := { c with opened := c.opened.tail }

/-- A tag opens here. -/
def push (c : Cursor) (stage : Stage) : Cursor :=
  { c with opened := ⟨stage, c.position⟩ :: c.opened }

/-- The first characters of the unread text as a token, and the cursor after them. -/
def take (c : Cursor) (kind : TokenKind) (lexeme : Text) : Token × Cursor :=
  (⟨kind, c.position, lexeme, c.opened.length⟩,
    { c with position := c.position + lexeme.bytes, rest := c.rest.drop lexeme.length })

def sees (c : Cursor) (mark : Text) : Bool := mark.isPrefixOf c.rest

/-- A tag that opens here. -/
def open? (d : Delimiters) (c : Cursor) : Option (Token × Cursor) :=
  if c.sees d.blockOpener then some ((c.push (.blockKey false)).take .blockOpen d.blockOpener)
  else if c.sees d.opener then some ((c.push (.inlineKey false)).take .inlineOpen d.opener)
  else none

/-- The closing mark. It ends the innermost tag, or the header of a block tag. -/
def close (d : Delimiters) (c : Cursor) : Token × Cursor :=
  let next := c.take .close d.closer
  match c.opened with
  | ⟨.blockKey _, _⟩ :: _ | ⟨.blockValues, _⟩ :: _ => (next.1, next.2.setStage .body)
  | _ => (next.1, next.2.pop)

/-- The characters before the next of `marks`, at least one character. -/
def run (marks : List Text) (c : Cursor) : Token × Cursor :=
  match c.rest with
  | [] => c.take .text []
  | x :: rest => c.take .text (x :: (Text.splitBefore marks rest).1)

/-- The key of the innermost tag, when there is one to read and none has been read. -/
def key? (c : Cursor) (named : Bool) (stage : Stage) : Option (Token × Cursor) :=
  if named || (leadingKey c.rest).isEmpty then none
  else
    let next := c.take .key (leadingKey c.rest)
    some (next.1, next.2.setStage stage)

/-- Nothing that may follow a key stands here. -/
def badKey (c : Cursor) : MarkupError := .badKey c.position (c.rest.headD '\x00')

/-- One token outside all tags or in the body of a block. -/
def stepFree (d : Delimiters) (c : Cursor) : Token × Cursor :=
  (c.open? d).getD (c.run [d.opener])

/-- One token where a tag has a key or no more than one: `values` is the stage after it. -/
def stepKey (d : Delimiters) (c : Cursor) (named : Bool) (keyed values : Stage) :
    Except MarkupError (Token × Cursor) :=
  match c.key? named keyed with
  | some next => .ok next
  | none =>
    if c.sees d.sep then
      let next := c.take (.sep .group) d.sep
      .ok (next.1, next.2.setStage values)
    else if c.sees d.closer then .ok (c.close d)
    else .error c.badKey

/-- One token among the values of a tag. -/
def stepValues (d : Delimiters) (c : Cursor) : Except MarkupError (Token × Cursor) :=
  if c.sees d.blockCloser then .error (.strayBlockClose c.position)
  else
    .ok <|
      match c.open? d with
      | some next => next
      | none =>
        if c.sees d.closer then c.close d
        else if c.sees d.sep then c.take (.sep .group) d.sep
        else if c.sees d.subSep then c.take (.sep .value) d.subSep
        else c.run [d.opener, d.closer, d.sep, d.subSep]

/-- One token after the block close of a tag. -/
def stepClosing (d : Delimiters) (c : Cursor) (named : Bool) :
    Except MarkupError (Token × Cursor) :=
  match c.key? named (.closing true) with
  | some next => .ok next
  | none => if c.sees d.closer then .ok (c.close d) else .error c.badKey

/-- One token off the front of the unread text, or why there is none. -/
def step (d : Delimiters) (c : Cursor) : Except MarkupError (Token × Cursor) :=
  match c.opened with
  | [] =>
    if c.sees d.blockCloser then .error (.strayBlockClose c.position) else .ok (c.stepFree d)
  | tag :: _ =>
    match tag.stage with
    | .inlineKey named => c.stepKey d named (.inlineKey true) .inlineValues
    | .blockKey named => c.stepKey d named (.blockKey true) .blockValues
    | .inlineValues | .blockValues => c.stepValues d
    | .body =>
      if c.sees d.blockCloser then
        let next := c.take .blockClose d.blockCloser
        .ok (next.1, next.2.setStage (.closing false))
      else .ok (c.stepFree d)
    | .closing named => c.stepClosing d named

/-- A token taken at a cursor and the cursor after it: the token is the front of the unread text
and not empty, and the rest is left to read. -/
structure Advances (c : Cursor) (next : Token × Cursor) : Prop where
  start : next.1.start = c.position
  rest : next.1.text ++ next.2.rest = c.rest
  nonempty : next.1.text ≠ []
  position : next.2.position = next.1.stop

theorem Advances.length_lt {c : Cursor} {next : Token × Cursor} (h : c.Advances next) :
    next.2.rest.length < c.rest.length := by
  have := List.length_pos_iff.2 h.nonempty
  rw [← h.rest, List.length_append]
  omega

theorem Advances.ofOpened {c : Cursor} {next : Token × Cursor} (opened : List OpenTag)
    (h : c.Advances next) : c.Advances (next.1, { next.2 with opened }) :=
  ⟨h.start, h.rest, h.nonempty, h.position⟩

theorem Advances.setStage {c : Cursor} {next : Token × Cursor} (stage : Stage)
    (h : c.Advances next) : c.Advances (next.1, next.2.setStage stage) := by
  unfold Cursor.setStage
  split
  · exact h
  · exact h.ofOpened _

theorem Advances.pop {c : Cursor} {next : Token × Cursor} (h : c.Advances next) :
    c.Advances (next.1, next.2.pop) := h.ofOpened _

theorem Advances.ofPush {c : Cursor} {next : Token × Cursor} {stage : Stage}
    (h : (c.push stage).Advances next) : c.Advances next :=
  ⟨h.start, h.rest, h.nonempty, h.position⟩

theorem take_advances {c : Cursor} (kind : TokenKind) {lexeme : Text} (h : lexeme <+: c.rest)
    (hne : lexeme ≠ []) : c.Advances (c.take kind lexeme) := by
  obtain ⟨more, hm⟩ := h
  exact ⟨rfl, by simp [take, ← hm], hne, rfl⟩

theorem sees_iff {c : Cursor} {mark : Text} : c.sees mark = true ↔ mark <+: c.rest :=
  List.isPrefixOf_iff_prefix

theorem open?_advances {d : Delimiters} {c : Cursor} {next : Token × Cursor}
    (h : c.open? d = some next) : c.Advances next := by
  unfold open? at h
  split at h
  · next hs =>
    cases h
    exact (take_advances (c := c.push _) _ (sees_iff.1 hs)
      (by simp [Delimiters.blockOpener])).ofPush
  · split at h
    · next hs =>
      cases h
      exact (take_advances (c := c.push _) _ (sees_iff.1 hs) d.opener_ne_nil).ofPush
    · cases h

theorem close_advances {d : Delimiters} {c : Cursor} (h : c.sees d.closer = true) :
    c.Advances (c.close d) := by
  have := take_advances (c := c) .close (sees_iff.1 h) d.closer_ne_nil
  unfold close
  split
  · exact this.setStage _
  · exact this.setStage _
  · exact this.pop

theorem run_advances {c : Cursor} (marks : List Text) (h : c.rest ≠ []) :
    c.Advances (c.run marks) := by
  unfold run
  split
  · next hr => exact absurd hr h
  · next x rest hr =>
    refine take_advances _ ?_ (by simp)
    rw [hr]
    exact List.prefix_cons_inj x |>.2 ⟨_, Text.splitBefore_append marks rest⟩

theorem leadingKey_isPrefix (t : Text) : leadingKey t <+: t := by
  unfold leadingKey
  split
  · exact List.prefix_rfl
  · next c rest =>
    split
    · refine List.prefix_cons_inj c |>.2 ⟨(rest.dropWhile isKeyLetter).dropWhile Char.isDigit, ?_⟩
      rw [List.append_assoc, List.takeWhile_append_dropWhile, List.takeWhile_append_dropWhile]
    · exact List.nil_prefix

theorem key?_advances {c : Cursor} {named : Bool} {stage : Stage} {next : Token × Cursor}
    (h : c.key? named stage = some next) : c.Advances next := by
  unfold key? at h
  split at h
  · cases h
  · next hk =>
    cases h
    exact (take_advances _ (leadingKey_isPrefix _) (by simp_all)).setStage _

theorem stepFree_advances (d : Delimiters) {c : Cursor} (h : c.rest ≠ []) :
    c.Advances (c.stepFree d) := by
  unfold stepFree
  cases ho : c.open? d with
  | none => exact run_advances _ h
  | some next => exact open?_advances ho

theorem stepKey_advances {d : Delimiters} {c : Cursor} {named : Bool} {keyed values : Stage}
    {next : Token × Cursor} (h : c.stepKey d named keyed values = .ok next) :
    c.Advances next := by
  unfold stepKey at h
  split at h
  · next hk => cases h; exact key?_advances hk
  · split at h
    · next hs =>
      cases h
      exact (take_advances _ (sees_iff.1 hs) d.sep_ne_nil).setStage _
    · split at h
      · next hs => cases h; exact close_advances hs
      · cases h

theorem stepValues_advances {d : Delimiters} {c : Cursor} {next : Token × Cursor}
    (hr : c.rest ≠ []) (h : c.stepValues d = .ok next) : c.Advances next := by
  unfold stepValues at h
  split at h
  · cases h
  · rw [Except.ok.injEq] at h
    subst h
    split
    · next ho => exact open?_advances ho
    · split
      · next hs => exact close_advances hs
      · split
        · next hs => exact take_advances _ (sees_iff.1 hs) d.sep_ne_nil
        · split
          · next hs => exact take_advances _ (sees_iff.1 hs) d.subSep_ne_nil
          · exact run_advances _ hr

theorem stepClosing_advances {d : Delimiters} {c : Cursor} {named : Bool} {next : Token × Cursor}
    (h : c.stepClosing d named = .ok next) : c.Advances next := by
  unfold stepClosing at h
  split at h
  · next hk => cases h; exact key?_advances hk
  · split at h
    · next hs => cases h; exact close_advances hs
    · cases h

theorem step_advances {d : Delimiters} {c : Cursor} {next : Token × Cursor} (hr : c.rest ≠ [])
    (h : c.step d = .ok next) : c.Advances next := by
  unfold step at h
  split at h
  · split at h
    · cases h
    · cases h; exact stepFree_advances d hr
  · split at h
    · exact stepKey_advances h
    · exact stepKey_advances h
    · exact stepValues_advances hr h
    · exact stepValues_advances hr h
    · split at h
      · next hs =>
        cases h
        exact (take_advances _ (sees_iff.1 hs) (by simp [Delimiters.blockCloser])).setStage _
      · cases h; exact stepFree_advances d hr
    · exact stepClosing_advances h

end Cursor

/-- What reading a text token by token gives: every token with the cursor after it, and the fault
that ended the reading, if one did. -/
structure Lexing where
  steps : List (Token × Cursor)
  fault? : Option MarkupError
  deriving DecidableEq, Repr

namespace Lexing

/-- Reads on from a cursor to the end of the text or the first fault. A tag that is open at the
end of the text is a fault. -/
def ofCursor (d : Delimiters) (c : Cursor) : Lexing :=
  if _ : c.rest = [] then ⟨[], c.opened.head?.map fun tag => .unclosedTag tag.openedAt⟩
  else
    match _ : c.step d with
    | .error e => ⟨[], some e⟩
    | .ok next =>
      let more := ofCursor d next.2
      ⟨next :: more.steps, more.fault?⟩
termination_by c.rest.length
decreasing_by exact (Cursor.step_advances ‹_› ‹_›).length_lt

def ofText (d : Delimiters) (t : Text) : Lexing := ofCursor d (.ofText t)

def tokens (l : Lexing) : List Token := l.steps.map Prod.fst

def result (l : Lexing) : Except MarkupError (List Token) :=
  match l.fault? with
  | some e => .error e
  | none => .ok l.tokens

end Lexing

def tokenize (d : Delimiters) (t : Text) : Except MarkupError (List Token) :=
  (Lexing.ofText d t).result

end TagMarkup
