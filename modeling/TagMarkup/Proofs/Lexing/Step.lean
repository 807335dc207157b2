import TagMarkup.Proofs.Lexing.Move

/-! What the next token is. At any place of a text at most one mark begins, so what stands there and
the stage of the innermost tag decide on the step: one lemma for each kind of token and of fault. -/

namespace TagMarkup

/-- The role of the separator of a level. -/
def Level.role : Level → Role
  | group => .sep
  | value => .subSep

namespace Delimiters

variable {d : Delimiters} {t : Text}

/-- At most one mark begins at a place. -/
theorem role_eq_of_begins {r s : Role} (hr : d.get r <+: t) (hs : d.get s <+: t) : r = s := by
  by_cases heq : r = s
  · exact heq
  rcases List.prefix_or_prefix_of_prefix hr hs with h | h
  · exact absurd h.isInfix (d.wellFormed.apart r s heq)
  · exact absurd h.isInfix (d.wellFormed.apart s r (Ne.symm heq))

theorem not_begins_of_ne {r s : Role} (hr : d.get r <+: t) (hne : r ≠ s) : ¬ d.get s <+: t :=
  fun hs => hne (role_eq_of_begins hr hs)

theorem opener_prefix_of_blockOpener (h : d.blockOpener <+: t) : d.opener <+: t :=
  (List.prefix_append d.opener ['#']).trans h

theorem opener_prefix_of_blockCloser (h : d.blockCloser <+: t) : d.opener <+: t :=
  (List.prefix_append d.opener ['/']).trans h

theorem sepOf_eq_get (d : Delimiters) (level : Level) : d.sepOf level = d.get level.role := by
  cases level <;> rfl

/-- No tag opens where a block is closed. -/
theorem not_blockOpener_of_blockCloser (h : d.blockCloser <+: t) : ¬ d.blockOpener <+: t := by
  obtain ⟨a, rfl⟩ := h
  rintro ⟨b, hb⟩
  simp [blockOpener, blockCloser] at hb

end Delimiters

/-- Where text and tags may stand: in free text, which the body of a block is too, or among the
values of a tag. -/
inductive Context
  | free
  | values
  deriving DecidableEq, Repr

/-- The marks that end a text. -/
def Context.marks (d : Delimiters) : Context → List Text
  | free => [d.opener]
  | values => [d.opener, d.closer, d.sep, d.subSep]

def Stage.context? : Stage → Option Context
  | inlineValues | blockValues => some .values
  | body => some .free
  | _ => none

namespace Cursor

/-- The context of a cursor inside the open tags. -/
def context? : List OpenTag → Option Context
  | [] => some .free
  | tag :: _ => tag.stage.context?

/-- A token off the front of the unread text, and the cursor after it inside the tags `opened`. -/
def advance (c : Cursor) (kind : TokenKind) (lexeme : Text) (depth : Nat)
    (opened : List OpenTag) : Token × Cursor :=
  (⟨kind, c.position, lexeme, depth⟩,
    ⟨c.position + lexeme.bytes, c.rest.drop lexeme.length, opened⟩)

variable {d : Delimiters} {c : Cursor} {context : Context}

theorem sees_eq_false {mark : Text} : c.sees mark = false ↔ ¬ mark <+: c.rest := by
  rw [← sees_iff, Bool.not_eq_true]

theorem opens?_eq_none : c.opens? d = none ↔ ¬ d.opener <+: c.rest := by
  constructor
  · intro h ho
    unfold opens? at h
    rw [sees_iff.2 ho] at h
    split at h <;> cases h
  · intro h
    have hb : ¬ d.blockOpener <+: c.rest := fun hb => h (d.opener_prefix_of_blockOpener hb)
    rw [opens?, sees_eq_false.2 hb, sees_eq_false.2 h]
    rfl

theorem opens?_eq_inline (hb : ¬ d.blockOpener <+: c.rest) (h : d.opener <+: c.rest) :
    c.opens? d = some .inline := by
  rw [opens?, sees_eq_false.2 hb, sees_iff.2 h]
  rfl

theorem opens?_eq_block (h : d.blockOpener <+: c.rest) : c.opens? d = some .block := by
  rw [opens?, sees_iff.2 h]
  rfl

theorem step_opening {kind : TagKind} (hc : context? c.opened = some context)
    (ho : c.opens? d = some kind) (hb : ¬ d.blockCloser <+: c.rest) :
    c.step d = .ok (c.advance (openToken kind) (d.openerOf kind) (c.opened.length + 1)
      (⟨firstStage kind, c.position⟩ :: c.opened)) := by
  have hopen : c.open? d = some (c.advance (openToken kind) (d.openerOf kind)
      (c.opened.length + 1) (⟨firstStage kind, c.position⟩ :: c.opened)) := by
    rw [c.open?_eq d, ho]
    rfl
  have hs := sees_eq_false.2 hb
  unfold step
  split
  · simp [hs, stepFree, hopen]
  · next tag outer hopened =>
    rw [hopened] at hc
    obtain ⟨stage, openedAt⟩ := tag
    cases stage with
    | inlineValues | blockValues => simp [stepValues, hs, hopen]
    | body => simp [hs, stepFree, hopen]
    | inlineKey | blockKey | closing => cases hc

/-- A text begins where no mark of the context does, and goes on to the next one. -/
theorem step_text (hc : context? c.opened = some context) (hr : c.rest ≠ [])
    (hm : ∀ m ∈ context.marks d, ¬ m <+: c.rest) :
    c.step d = .ok (c.advance .text (Text.splitBefore (context.marks d) c.rest).1
      c.opened.length c.opened) := by
  have hopener : ¬ d.opener <+: c.rest := hm _ (by cases context <;> simp [Context.marks])
  have hopen : c.open? d = none := by
    rw [c.open?_eq d, opens?_eq_none.2 hopener]
    rfl
  have hblock := sees_eq_false.2 fun h => hopener (d.opener_prefix_of_blockCloser h)
  have hrun : c.run (context.marks d) =
      c.take .text (Text.splitBefore (context.marks d) c.rest).1 := by
    have hnone : Text.beginsAny (context.marks d) c.rest = false := by
      rw [Bool.eq_false_iff, ne_eq, Text.beginsAny_eq_true]
      rintro ⟨m, hmem, hp⟩
      exact hm m hmem hp
    unfold run
    split
    · next h => exact absurd h hr
    · next x rest h =>
      rw [h] at hnone
      rw [h, Text.splitBefore, hnone]
      rfl
  show c.step d = .ok (c.take .text _)
  rw [← hrun]
  unfold step
  split
  · next hopened =>
    rw [hopened] at hc
    cases hc
    simp [hblock, stepFree, hopen, Context.marks]
  · next tag outer hopened =>
    rw [hopened] at hc
    obtain ⟨stage, openedAt⟩ := tag
    cases stage with
    | body =>
      cases hc
      simp [hblock, stepFree, hopen, Context.marks]
    | inlineValues | blockValues =>
      cases hc
      have hsees (m : Text) (hmem : m ∈ Context.marks d .values) : c.sees m = false :=
        sees_eq_false.2 (hm m hmem)
      simp [stepValues, hblock, hopen, hsees d.closer (by simp [Context.marks]),
        hsees d.sep (by simp [Context.marks]), hsees d.subSep (by simp [Context.marks]),
        Context.marks]
    | inlineKey | blockKey | closing => cases hc

/-- Outside of all tags and among values there is no block to close. -/
theorem step_strayBlockClose (hc : c.opened = [] ∨ context? c.opened = some .values)
    (hb : d.blockCloser <+: c.rest) : c.step d = .error (.strayBlockClose c.position) := by
  have hs := sees_iff.2 hb
  unfold step
  split
  · simp [hs]
  · next tag outer hopened =>
    rw [hopened] at hc
    obtain ⟨stage, openedAt⟩ := tag
    cases stage with
    | inlineValues | blockValues => simp [stepValues, hs]
    | inlineKey | blockKey | body | closing => simp [context?, Stage.context?] at hc

/-- The stage behind the key of a tag. -/
def keyStage : TagKind → Stage
  | .inline => .inlineKey true
  | .block => .blockKey true

/-- The stage of a tag behind the first separator. -/
def valuesStage : TagKind → Stage
  | .inline => .inlineValues
  | .block => .blockValues

/-- The open tags behind the header of a tag that opened at `openedAt`. -/
def behindHeader (kind : TagKind) (openedAt : Nat) (opened : List OpenTag) : List OpenTag :=
  match kind with
  | .inline => opened
  | .block => ⟨.body, openedAt⟩ :: opened

section InTag

variable {o : OpenTag} {outer : List OpenTag} {stage : Stage}

theorem step_bodyEnd (ho : c.opened = o :: outer) (hs : o.stage = .body)
    (hb : d.blockCloser <+: c.rest) :
    c.step d = .ok (c.advance .blockClose d.blockCloser c.opened.length
      ({ o with stage := .closing false } :: outer)) := by
  obtain ⟨stage, openedAt⟩ := o
  cases hs
  simp [step, ho, sees_iff.2 hb, setStage, take, advance]

theorem key?_eq_some (stage : Stage) {named : Bool} (ho : c.opened = o :: outer)
    (hn : named = false) (hk : leadingKey c.rest ≠ []) :
    c.key? named stage = some (c.advance .key (leadingKey c.rest) c.opened.length
      ({ o with stage } :: outer)) := by
  have he : (leadingKey c.rest).isEmpty = false := by simpa using hk
  simp [key?, hn, he, setStage, take, advance, ho]

theorem step_key (ho : c.opened = o :: outer) (hs : o.stage.keyed? = some stage)
    (hk : leadingKey c.rest ≠ []) :
    c.step d = .ok (c.advance .key (leadingKey c.rest) c.opened.length
      ({ o with stage } :: outer)) := by
  have hkey := key?_eq_some stage ho rfl hk
  obtain ⟨stage', openedAt⟩ := o
  cases stage' with
  | inlineKey named | blockKey named =>
    cases named <;> cases hs
    simp only [step, ho, stepKey] at hkey ⊢
    rw [hkey]
  | closing named =>
    cases named <;> cases hs
    simp only [step, ho, stepClosing] at hkey ⊢
    rw [hkey]
  | _ => cases hs

theorem key?_of_keyRead {named : Bool} (h : named = true ∨ leadingKey c.rest = []) :
    c.key? named stage = none := by
  rcases h with h | h <;> simp [key?, h]

/-- Where a mark other than the opener begins, no tag does. -/
theorem open?_eq_none {r : Role} (h : d.get r <+: c.rest) (hr : r ≠ .opener) :
    c.open? d = none ∧ c.sees d.blockCloser = false := by
  have ho : ¬ d.opener <+: c.rest := d.not_begins_of_ne (s := .opener) h hr
  refine ⟨?_, sees_eq_false.2 fun hb => ho (d.opener_prefix_of_blockCloser hb)⟩
  rw [c.open?_eq d, opens?_eq_none.2 ho]
  rfl

theorem step_sep (level : Level) (ho : c.opened = o :: outer)
    (hs : o.stage.afterSep? level = some stage)
    (keyRead : o.stage.named = true ∨ leadingKey c.rest = [])
    (hsep : d.sepOf level <+: c.rest) :
    c.step d = .ok (c.advance (.sep level) (d.sepOf level) c.opened.length
      ({ o with stage } :: outer)) := by
  have hrole := hsep
  rw [d.sepOf_eq_get] at hrole
  obtain ⟨hopen, hblock⟩ := open?_eq_none hrole (by cases level <;> decide)
  have hcloser : c.sees d.closer = false :=
    sees_eq_false.2 (d.not_begins_of_ne (s := .closer) hrole (by cases level <;> decide))
  have hsees := sees_iff.2 hsep
  obtain ⟨stage', openedAt⟩ := o
  cases stage' with
  | inlineKey named | blockKey named =>
    have hkey (stage : Stage) : c.key? named stage = none := key?_of_keyRead keyRead
    cases level <;> cases hs
    have hsees : c.sees d.sep = true := hsees
    simp [step, ho, stepKey, hkey, hsees, setStage, take, advance, Delimiters.sepOf]
  | inlineValues | blockValues =>
    cases level with
    | group =>
      cases hs
      have hsees : c.sees d.sep = true := hsees
      simp [step, ho, stepValues, hblock, hopen, hcloser, hsees, take, advance, Delimiters.sepOf]
    | value =>
      cases hs
      have hgroup : c.sees d.sep = false :=
        sees_eq_false.2 (d.not_begins_of_ne (s := .sep) hrole (by decide))
      have hsees : c.sees d.subSep = true := hsees
      simp [step, ho, stepValues, hblock, hopen, hcloser, hgroup, hsees, take, advance,
        Delimiters.sepOf]
  | _ => cases level <;> cases hs

theorem step_valueSep (level : Level) (hc : context? c.opened = some .values)
    (hsep : d.sepOf level <+: c.rest) :
    c.step d = .ok (c.advance (.sep level) (d.sepOf level) c.opened.length c.opened) := by
  obtain ⟨position, rest, opened⟩ := c
  cases opened with
  | nil => cases hc
  | cons o outer =>
    obtain ⟨stage, openedAt⟩ := o
    cases stage with
    | inlineValues => exact step_sep level rfl (by cases level <;> rfl) (.inl rfl) hsep
    | blockValues => exact step_sep level rfl (by cases level <;> rfl) (.inl rfl) hsep
    | _ => cases hc

/-- The tags that are open after a closer: the header of a block ends, or the tag. -/
def closed (o : OpenTag) (outer : List OpenTag) : List OpenTag :=
  if o.stage.inHeader then { o with stage := .body } :: outer else outer

theorem close_eq (ho : c.opened = o :: outer) :
    c.close d = c.advance .close d.closer c.opened.length (closed o outer) := by
  obtain ⟨stage, openedAt⟩ := o
  unfold close
  cases stage <;> simp [ho, setStage, pop, take, advance, closed, Stage.inHeader]

theorem step_close (ho : c.opened = o :: outer) (hs : o.stage ≠ .body)
    (keyRead : o.stage.named = true ∨ leadingKey c.rest = []) (hcloser : d.closer <+: c.rest) :
    c.step d = .ok (c.advance .close d.closer c.opened.length (closed o outer)) := by
  obtain ⟨hopen, hblock⟩ := open?_eq_none (r := .closer) hcloser (by decide)
  have hsep : c.sees d.sep = false :=
    sees_eq_false.2 (d.not_begins_of_ne (r := .closer) (s := .sep) hcloser (by decide))
  have hsees := sees_iff.2 hcloser
  rw [← close_eq ho]
  obtain ⟨stage, openedAt⟩ := o
  cases stage with
  | inlineKey named | blockKey named =>
    have hkey (stage : Stage) : c.key? named stage = none := key?_of_keyRead keyRead
    simp [step, ho, stepKey, hkey, hsep, hsees]
  | inlineValues | blockValues => simp [step, ho, stepValues, hblock, hopen, hsees]
  | closing named =>
    have hkey (stage : Stage) : c.key? named stage = none := key?_of_keyRead keyRead
    simp [step, ho, stepClosing, hkey, hsees]
  | body => exact absurd rfl hs

theorem keyed?_firstStage (kind : TagKind) : (firstStage kind).keyed? = some (keyStage kind) := by
  cases kind <;> rfl

theorem named_keyStage (kind : TagKind) : (keyStage kind).named = true := by
  cases kind <;> rfl

theorem context?_keyStage (kind : TagKind) : (keyStage kind).context? = none := by
  cases kind <;> rfl

theorem context?_valuesStage (kind : TagKind) : (valuesStage kind).context? = some .values := by
  cases kind <;> rfl

theorem afterSep?_keyStage (kind : TagKind) :
    (keyStage kind).afterSep? .group = some (valuesStage kind) := by
  cases kind <;> rfl

theorem step_keyStage_close {kind : TagKind} {openedAt : Nat}
    (ho : c.opened = ⟨keyStage kind, openedAt⟩ :: outer) (hcloser : d.closer <+: c.rest) :
    c.step d = .ok (c.advance .close d.closer c.opened.length
      (behindHeader kind openedAt outer)) := by
  have hstep := step_close ho (by cases kind <;> simp [keyStage]) (.inl (named_keyStage kind))
    hcloser
  rw [hstep]
  cases kind <;> rfl

theorem step_valuesStage_close {kind : TagKind} {openedAt : Nat}
    (ho : c.opened = ⟨valuesStage kind, openedAt⟩ :: outer) (hcloser : d.closer <+: c.rest) :
    c.step d = .ok (c.advance .close d.closer c.opened.length
      (behindHeader kind openedAt outer)) := by
  have hstep := step_close ho (by cases kind <;> simp [valuesStage])
    (.inl (by cases kind <;> rfl)) hcloser
  rw [hstep]
  cases kind <;> rfl

/-- Behind a key only a mark may stand: the closer, or the separator of a key that has values. -/
theorem step_badKey (ho : c.opened = o :: outer) (hs : o.stage.context? = none)
    (keyRead : o.stage.named = true ∨ leadingKey c.rest = [])
    (hsep : o.stage.part = .key → ¬ d.sep <+: c.rest) (hcloser : ¬ d.closer <+: c.rest) :
    c.step d = .error c.badKey := by
  have hsees := sees_eq_false.2 hcloser
  obtain ⟨stage, openedAt⟩ := o
  cases stage with
  | inlineKey named | blockKey named =>
    have hkey (stage : Stage) : c.key? named stage = none := key?_of_keyRead keyRead
    simp [step, ho, stepKey, hkey, sees_eq_false.2 (hsep rfl), hsees]
  | closing named =>
    have hkey (stage : Stage) : c.key? named stage = none := key?_of_keyRead keyRead
    simp [step, ho, stepClosing, hkey, hsees]
  | _ => cases hs

end InTag

end Cursor

namespace Lexing

variable {d : Delimiters} {c : Cursor}

theorem ofCursor_end (h : c.rest = []) :
    ofCursor d c = ⟨[], c.opened.head?.map fun tag => .unclosedTag tag.openedAt⟩ := by
  rw [ofCursor, dif_pos h]

theorem ofCursor_error {e : MarkupError} (hr : c.rest ≠ []) (h : c.step d = .error e) :
    ofCursor d c = ⟨[], some e⟩ := by
  rw [ofCursor, dif_neg hr]
  split
  · next h' => rw [h] at h'; cases h'; rfl
  · next h' => rw [h] at h'; cases h'

theorem ofCursor_ok {next : Token × Cursor} (hr : c.rest ≠ []) (h : c.step d = .ok next) :
    ofCursor d c = ⟨next :: (ofCursor d next.2).steps, (ofCursor d next.2).fault?⟩ := by
  rw [ofCursor, dif_neg hr]
  split
  · next h' => rw [h] at h'; cases h'
  · next h' => rw [h] at h'; cases h'; rfl

/-- The first step of a reading, and what is read after it. -/
theorem ofCursor_of_steps {next : Token × Cursor} {more : List (Token × Cursor)}
    (h : (ofCursor d c).steps = next :: more) :
    c.rest ≠ [] ∧ c.step d = .ok next ∧ (ofCursor d next.2).steps = more ∧
      (ofCursor d next.2).fault? = (ofCursor d c).fault? := by
  by_cases hr : c.rest = []
  · rw [ofCursor_end hr] at h
    cases h
  cases hs : c.step d with
  | error e =>
    rw [ofCursor_error hr hs] at h
    cases h
  | ok first =>
    rw [ofCursor_ok hr hs] at h ⊢
    cases h
    exact ⟨hr, rfl, rfl, rfl⟩

/-- A reading without further steps or a fault is at the end of the text, outside of all tags. -/
theorem ofCursor_of_steps_nil (h : (ofCursor d c).steps = []) (hf : (ofCursor d c).fault? = none) :
    c.opened = [] := by
  by_cases hr : c.rest = []
  · rw [ofCursor_end hr] at hf
    simpa using hf
  cases hs : c.step d with
  | error e =>
    rw [ofCursor_error hr hs] at hf
    cases hf
  | ok first =>
    rw [ofCursor_ok hr hs] at h
    cases h

end Lexing

namespace Cursor

/-- Reading token by token from `c` gives `tokens` first and goes on as it does from `c'`. -/
structure Yields (d : Delimiters) (c : Cursor) (tokens : List Token) (c' : Cursor) : Prop where
  tokens : (Lexing.ofCursor d c).tokens = tokens ++ (Lexing.ofCursor d c').tokens
  fault : (Lexing.ofCursor d c).fault? = (Lexing.ofCursor d c').fault?

namespace Yields

variable {d : Delimiters} {c c' c'' : Cursor} {tokens tokens' : List Token} {next : Token × Cursor}

theorem refl : c.Yields d [] c := ⟨rfl, rfl⟩

theorem symm (h : c.Yields d [] c') : c'.Yields d [] c := ⟨h.tokens.symm, h.fault.symm⟩

theorem trans (h : c.Yields d tokens c') (h' : c'.Yields d tokens' c'') :
    c.Yields d (tokens ++ tokens') c'' :=
  ⟨by rw [h.tokens, h'.tokens, List.append_assoc], h.fault.trans h'.fault⟩

theorem step (hr : c.rest ≠ []) (h : c.step d = .ok next) : c.Yields d [next.1] next.2 := by
  have hok := Lexing.ofCursor_ok hr h
  constructor
  · rw [hok]
    rfl
  · rw [hok]

/-- Where the next step is the same, so are all further ones. -/
theorem of_step_eq (hr : c.rest ≠ []) (hr' : c'.rest ≠ []) (h : c.step d = c'.step d) :
    c.Yields d [] c' := by
  cases hs : c'.step d with
  | error e =>
    have heq := (Lexing.ofCursor_error hr (h.trans hs)).trans (Lexing.ofCursor_error hr' hs).symm
    exact ⟨by rw [heq]; rfl, by rw [heq]⟩
  | ok next =>
    have heq := (Lexing.ofCursor_ok hr (h.trans hs)).trans (Lexing.ofCursor_ok hr' hs).symm
    exact ⟨by rw [heq]; rfl, by rw [heq]⟩

/-- A key that has not been read makes no difference where none stands. -/
theorem keyed {tag : OpenTag} {outer : List OpenTag} {stage : Stage} {position : Nat}
    {rest : Text} (hs : tag.stage.keyed? = some stage) (hk : leadingKey rest = []) :
    Yields d ⟨position, rest, { tag with stage } :: outer⟩ [] ⟨position, rest, tag :: outer⟩ := by
  by_cases hr : rest = []
  · have hend := (Lexing.ofCursor_end (d := d) (c := ⟨position, rest, tag :: outer⟩) hr)
    have hend' := (Lexing.ofCursor_end (d := d)
      (c := ⟨position, rest, { tag with stage } :: outer⟩) hr)
    exact ⟨by rw [hend, hend']; rfl, by rw [hend, hend']; rfl⟩
  refine of_step_eq hr hr ?_
  obtain ⟨stage', openedAt⟩ := tag
  cases stage' with
  | inlineKey named | blockKey named =>
    cases named <;> cases hs
    simp [Cursor.step, Cursor.stepKey, Cursor.key?, hk, Cursor.close, Cursor.setStage,
      Cursor.take, Cursor.pop, Cursor.sees, Cursor.badKey]
  | closing named =>
    cases named <;> cases hs
    simp [Cursor.step, Cursor.stepClosing, Cursor.key?, hk, Cursor.close, Cursor.take,
      Cursor.pop, Cursor.sees, Cursor.badKey]
  | _ => cases hs

end Yields

end Cursor

end TagMarkup
