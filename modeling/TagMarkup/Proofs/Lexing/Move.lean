import TagMarkup.Outline.Reading

/-! What a step of the reader can do. A stage says what kind of tag is open and what may come next
in it, and `Cursor.Move` has one rule for each kind of token: where it may stand, how it reads, and
which tags are open after it. Every step is such a move (`Cursor.step_move`). -/

namespace TagMarkup

namespace Stage

/-- The kind of a tag that has been read as far as this stage. -/
def kind : Stage → TagKind
  | inlineKey _ | inlineValues => .inline
  | blockKey _ | blockValues | body | closing _ => .block

/-- The part of the tag that is being read. -/
def part : Stage → Part
  | inlineKey _ | blockKey _ => .key
  | inlineValues | blockValues => .values
  | body => .body
  | closing _ => .ending

/-- Tags and text may stand here. -/
def holdsTags : Stage → Bool
  | inlineValues | blockValues | body => true
  | _ => false

/-- The header of a block tag is being read. -/
def inHeader : Stage → Bool
  | blockKey _ | blockValues => true
  | _ => false

/-- No key is to come at this stage. -/
def named : Stage → Bool
  | inlineKey named | blockKey named | closing named => named
  | _ => true

/-- The stage after a key. -/
def keyed? : Stage → Option Stage
  | inlineKey false => some (inlineKey true)
  | blockKey false => some (blockKey true)
  | closing false => some (closing true)
  | _ => none

/-- The stage after a separator of a level. Only a group can begin right after the key. -/
def afterSep? : Stage → Level → Option Stage
  | inlineKey _, .group | inlineValues, _ => some inlineValues
  | blockKey _, .group | blockValues, _ => some blockValues
  | _, _ => none

theorem of_inHeader {stage : Stage} (h : stage.inHeader = true) :
    stage.kind = .block ∧ (stage.part = .key ∨ stage.part = .values) := by
  cases stage <;> cases h <;> simp [part, kind]

theorem not_inHeader {stage : Stage} (h : stage.inHeader = false) :
    ¬ (stage.kind = .block ∧ (stage.part = .key ∨ stage.part = .values)) := by
  cases stage <;> cases h <;> simp [part, kind]

theorem part_of_holdsTags {stage : Stage} (h : stage.holdsTags = true) :
    stage.part = .values ∨ stage.part = .body := by
  cases stage <;> cases h <;> simp [part]

theorem part_ne_body {stage : Stage} (h : stage ≠ body) : stage.part ≠ .body := by
  cases stage with
  | body => exact absurd rfl h
  | _ => simp [part]

theorem part_of_keyed? {stage after : Stage} (h : stage.keyed? = some after) :
    stage.part = .key ∨ stage.part = .ending := by
  cases stage with
  | inlineKey | blockKey | closing => simp [part]
  | _ => cases h

theorem of_keyed? {stage after : Stage} (h : stage.keyed? = some after) :
    after.kind = stage.kind ∧ after.part = stage.part ∧ after.inHeader = stage.inHeader ∧
      stage.named = false ∧ after.named = true := by
  cases stage with
  | inlineKey named | blockKey named | closing named =>
    cases named <;> cases h
    exact ⟨rfl, rfl, rfl, rfl, rfl⟩
  | _ => cases h

theorem of_afterSep? {stage after : Stage} {level : Level}
    (h : stage.afterSep? level = some after) :
    after.kind = stage.kind ∧ after.part = .values ∧ after.inHeader = stage.inHeader ∧
      (stage.part = .key ∨ stage.part = .values) ∧ (stage.part = .key → level = .group) := by
  cases stage <;> cases level <;> cases h <;> simp [part, kind, inHeader]

end Stage

/-- What opens a tag of a kind. -/
def Delimiters.openerOf (d : Delimiters) : TagKind → Text
  | .inline => d.opener
  | .block => d.blockOpener

/-- The separator of a level. -/
def Delimiters.sepOf (d : Delimiters) : Level → Text
  | .group => d.sep
  | .value => d.subSep

theorem Delimiters.openerOf_ne_nil (d : Delimiters) (kind : TagKind) : d.openerOf kind ≠ [] := by
  cases kind
  · exact d.opener_ne_nil
  · simp [openerOf, blockOpener]

namespace Cursor

/-- The kind of the tag that opens here, if one does. -/
def opens? (d : Delimiters) (c : Cursor) : Option TagKind :=
  if c.sees d.blockOpener then some .block
  else if c.sees d.opener then some .inline
  else none

/-- The stage of a tag right after its opener. -/
def firstStage : TagKind → Stage
  | .inline => .inlineKey false
  | .block => .blockKey false

/-- What begins a tag of a kind, as a token. -/
def openToken : TagKind → TokenKind
  | .inline => .inlineOpen
  | .block => .blockOpen

/-- One step of the reader: the kind, the text and the depth of the token, and the tags open after
it. -/
inductive Move (d : Delimiters) (c : Cursor) : TokenKind → Text → Nat → List OpenTag → Prop
  | text (lexeme : Text) (free : ∀ tag ∈ c.opened.head?, tag.stage.holdsTags = true) :
      Move d c .text lexeme c.opened.length c.opened
  | opening (kind : TagKind) {lexeme : Text}
      (free : ∀ tag ∈ c.opened.head?, tag.stage.holdsTags = true)
      (opens : c.opens? d = some kind) (reads : d.openerOf kind = lexeme) :
      Move d c (openToken kind) lexeme (c.opened.length + 1)
        (⟨firstStage kind, c.position⟩ :: c.opened)
  | key {tag : OpenTag} {outer : List OpenTag} {stage : Stage} {lexeme : Text}
      (opened : c.opened = tag :: outer) (keyed : tag.stage.keyed? = some stage)
      (reads : leadingKey c.rest = lexeme) :
      Move d c .key lexeme c.opened.length ({ tag with stage } :: outer)
  | sep {tag : OpenTag} {outer : List OpenTag} {stage : Stage} {lexeme : Text} (level : Level)
      (opened : c.opened = tag :: outer) (after : tag.stage.afterSep? level = some stage)
      (keyRead : tag.stage.named = true ∨ leadingKey c.rest = []) (reads : d.sepOf level = lexeme) :
      Move d c (.sep level) lexeme c.opened.length ({ tag with stage } :: outer)
  | headerEnd {tag : OpenTag} {outer : List OpenTag} {lexeme : Text}
      (opened : c.opened = tag :: outer) (inHeader : tag.stage.inHeader = true)
      (keyRead : tag.stage.named = true ∨ leadingKey c.rest = []) (reads : d.closer = lexeme) :
      Move d c .close lexeme c.opened.length ({ tag with stage := .body } :: outer)
  | bodyEnd {tag : OpenTag} {outer : List OpenTag} {lexeme : Text}
      (opened : c.opened = tag :: outer) (inBody : tag.stage = .body)
      (reads : d.blockCloser = lexeme) :
      Move d c .blockClose lexeme c.opened.length
        ({ tag with stage := .closing false } :: outer)
  | tagEnd {tag : OpenTag} {outer : List OpenTag} {lexeme : Text}
      (opened : c.opened = tag :: outer) (pastHeader : tag.stage.inHeader = false)
      (pastBody : tag.stage ≠ .body)
      (keyRead : tag.stage.named = true ∨ leadingKey c.rest = []) (reads : d.closer = lexeme) :
      Move d c .close lexeme c.opened.length outer

variable {d : Delimiters} {c : Cursor} {next : Token × Cursor}

/-- The step is a move. -/
abbrev Moves (d : Delimiters) (c : Cursor) (next : Token × Cursor) : Prop :=
  c.Move d next.1.kind next.1.text next.1.depth next.2.opened

theorem open?_eq (d : Delimiters) (c : Cursor) :
    c.open? d = (c.opens? d).map fun kind =>
      (c.push (firstStage kind)).take (openToken kind) (d.openerOf kind) := by
  unfold open? opens?
  split
  · rfl
  · split <;> rfl

theorem open?_move (free : ∀ tag ∈ c.opened.head?, tag.stage.holdsTags = true)
    (h : c.open? d = some next) : c.Moves d next := by
  rw [open?_eq, Option.map_eq_some_iff] at h
  obtain ⟨kind, hk, rfl⟩ := h
  exact .opening kind free hk rfl

theorem run_move (marks : List Text)
    (free : ∀ tag ∈ c.opened.head?, tag.stage.holdsTags = true) : c.Moves d (c.run marks) := by
  unfold run
  split
  · exact .text _ free
  · exact .text _ free

theorem close_move {tag : OpenTag} {outer : List OpenTag} (opened : c.opened = tag :: outer)
    (pastBody : tag.stage ≠ .body)
    (keyRead : tag.stage.named = true ∨ leadingKey c.rest = []) : c.Moves d (c.close d) := by
  obtain ⟨stage, openedAt⟩ := tag
  unfold Moves close
  simp only [opened]
  cases stage with
  | blockKey named | blockValues =>
    simpa [setStage, take, opened] using Move.headerEnd opened rfl keyRead rfl
  | inlineKey named | inlineValues | closing named =>
    simpa [pop, take, opened] using Move.tagEnd opened rfl (by simp) keyRead rfl
  | body => exact absurd rfl pastBody

theorem key?_move {tag : OpenTag} {outer : List OpenTag} {named : Bool} {stage : Stage}
    (opened : c.opened = tag :: outer)
    (keyed : named = false → tag.stage.keyed? = some stage)
    (h : c.key? named stage = some next) : c.Moves d next := by
  unfold key? at h
  split at h
  · cases h
  · next hk =>
    cases h
    have hn : named = false := by simp_all
    simpa [Moves, setStage, take, opened] using Move.key (d := d) opened (keyed hn) rfl

theorem key?_eq_none {named : Bool} {stage : Stage} (h : c.key? named stage = none) :
    named = true ∨ leadingKey c.rest = [] := by
  unfold key? at h
  split at h
  · next hk => simpa using hk
  · cases h

theorem stepFree_move (free : ∀ tag ∈ c.opened.head?, tag.stage.holdsTags = true) :
    c.Moves d (c.stepFree d) := by
  unfold stepFree
  cases ho : c.open? d with
  | none => exact run_move _ free
  | some next => exact open?_move free ho

theorem stepKey_move {tag : OpenTag} {outer : List OpenTag} {keyed values : Stage}
    (opened : c.opened = tag :: outer) (hkey : tag.stage.part = .key)
    (hkeyed : tag.stage.named = false → tag.stage.keyed? = some keyed)
    (hvalues : tag.stage.afterSep? .group = some values)
    (h : c.stepKey d tag.stage.named keyed values = .ok next) : c.Moves d next := by
  unfold stepKey at h
  split at h
  · next hk => cases h; exact key?_move opened hkeyed hk
  · next hk =>
    have keyRead := key?_eq_none hk
    split at h
    · cases h
      simpa [Moves, setStage, take, opened, Delimiters.sepOf] using
        Move.sep .group opened hvalues keyRead rfl
    · split at h
      · cases h
        exact close_move opened (by rintro hb; simp [hb, Stage.part] at hkey) keyRead
      · cases h

theorem stepValues_move {tag : OpenTag} {outer : List OpenTag}
    (opened : c.opened = tag :: outer) (hvalues : tag.stage.part = .values)
    (h : c.stepValues d = .ok next) : c.Moves d next := by
  obtain ⟨stage, openedAt⟩ := tag
  have free : ∀ tag ∈ c.opened.head?, tag.stage.holdsTags = true := by
    rw [opened]
    rintro tag ⟨⟩
    cases stage <;> simp_all [Stage.part, Stage.holdsTags]
  have keyRead : stage.named = true := by cases stage <;> simp_all [Stage.part, Stage.named]
  have after (level : Level) : stage.afterSep? level = some stage := by
    cases stage <;> simp_all [Stage.part, Stage.afterSep?]
  unfold stepValues at h
  split at h
  · cases h
  rw [Except.ok.injEq] at h
  subst h
  split
  · next ho => exact open?_move free ho
  split
  · exact close_move opened (by rintro rfl; simp [Stage.part] at hvalues) (.inl keyRead)
  split
  · have := Move.sep (d := d) .group opened (after .group) (.inl keyRead) rfl
    rwa [← opened] at this
  split
  · have := Move.sep (d := d) .value opened (after .value) (.inl keyRead) rfl
    rwa [← opened] at this
  · exact run_move _ free

theorem stepClosing_move {tag : OpenTag} {outer : List OpenTag} {named : Bool}
    (opened : c.opened = tag :: outer) (hstage : tag.stage = .closing named)
    (h : c.stepClosing d named = .ok next) : c.Moves d next := by
  unfold stepClosing at h
  split at h
  · next hk =>
    cases h
    exact key?_move opened (by rintro rfl; simp [hstage, Stage.keyed?]) hk
  · next hk =>
    split at h
    · cases h
      refine close_move opened (by simp [hstage]) ?_
      simpa [hstage, Stage.named] using key?_eq_none hk
    · cases h

theorem step_move (h : c.step d = .ok next) : c.Moves d next := by
  unfold step at h
  split at h
  · next ho =>
    split at h
    · cases h
    · cases h; exact stepFree_move (by simp [ho])
  · next tag outer ho =>
    obtain ⟨stage, openedAt⟩ := tag
    cases stage with
    | inlineKey named =>
      exact stepKey_move ho rfl (by rintro ⟨⟩; rfl) rfl h
    | blockKey named =>
      exact stepKey_move ho rfl (by rintro ⟨⟩; rfl) rfl h
    | inlineValues | blockValues => exact stepValues_move ho rfl h
    | body =>
      simp only at h
      split at h
      · cases h
        simpa [Moves, setStage, take, ho] using Move.bodyEnd (d := d) ho rfl rfl
      · cases h
        exact stepFree_move (by rw [ho]; rintro tag ⟨⟩; rfl)
    | closing named => exact stepClosing_move ho rfl h

end Cursor

end TagMarkup
