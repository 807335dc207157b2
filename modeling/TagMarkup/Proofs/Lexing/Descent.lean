import TagMarkup.Proofs.Lexing.Step
import TagMarkup.Proofs.Text.Until

/-! Markup read by recursive descent. There is no stack of stages: a tag is read by a call of its
own, which reads its key, its values and its body in turn, and the tags in them by further calls.

* Free text is texts and tags; it goes on to the end of the text or to a block close.
* Values are texts, tags and separators; they go on to the end of the text, to a closer or to a
  block close.
* A tag is its opener, a key or none, a separator with values behind it or none, and a closer. In a
  block tag free text follows, then the block close, a key or none, and a closer.

A text goes on to the next mark that ends it in its context. Reading token by token agrees with
reading by descent (`agrees_descent`). -/

namespace TagMarkup

namespace Descent

/-- A position in a text and the unread text behind it. -/
structure Point where
  position : Nat
  rest : Text

/-- The tokens that were read, and either the point behind them, where fewer than `n` characters are
unread, or the fault that ended the reading. -/
structure Reading (n : Nat) where
  tokens : List Token
  stop : Except MarkupError { p : Point // p.rest.length < n }

namespace Reading

def here (p : Point) : Reading (p.rest.length + 1) := ⟨[], .ok ⟨p, Nat.lt_succ_self _⟩⟩

def fault {n : Nat} (e : MarkupError) : Reading n := ⟨[], .error e⟩

def loose {n : Nat} (r : Reading n) : Reading (n + 1) :=
  ⟨r.tokens, r.stop.map fun ⟨p, h⟩ => ⟨p, Nat.lt_succ_of_lt h⟩⟩

/-- Reading goes on where it stopped. -/
def andThen {n : Nat} (r : Reading n)
    (more : (p : Point) → p.rest.length < n → Reading (p.rest.length + 1)) : Reading n :=
  match r.stop with
  | .error e => ⟨r.tokens, .error e⟩
  | .ok ⟨p, h⟩ =>
    let next := more p h
    ⟨r.tokens ++ next.tokens, next.stop.map fun ⟨q, hq⟩ => ⟨q, Nat.lt_of_lt_of_le hq h⟩⟩

end Reading

/-- The front of the unread text as a token. -/
def token (kind : TokenKind) (depth : Nat) (lexeme : Text) (p : Point) (h : lexeme <+: p.rest)
    (ne : lexeme ≠ []) : Reading p.rest.length :=
  ⟨[⟨kind, p.position, lexeme, depth⟩],
    .ok ⟨⟨p.position + lexeme.bytes, p.rest.drop lexeme.length⟩, by
      have := List.length_pos_iff.2 ne
      have := h.length_le
      simp only [List.length_drop]
      omega⟩⟩

/-- The key that stands here, if one does. -/
def key (depth : Nat) (p : Point) : Reading (p.rest.length + 1) :=
  if h : leadingKey p.rest = [] then .here p
  else (token .key depth (leadingKey p.rest) p (Cursor.leadingKey_isPrefix _) h).loose

/-- A mark of the tag that opened at `openedAt`. It is a fault if the text ends here, or if
something else stands here. -/
def mark (kind : TokenKind) (lexeme : Text) (ne : lexeme ≠ []) (openedAt depth : Nat)
    (otherwise : Point → MarkupError) (p : Point) : Reading (p.rest.length + 1) :=
  if p.rest = [] then .fault (.unclosedTag openedAt)
  else if h : lexeme <+: p.rest then (token kind depth lexeme p h ne).loose
  else .fault (otherwise p)

/-- Nothing that may follow a key stands here. -/
def badKey (p : Point) : MarkupError := .badKey p.position (p.rest.headD '\x00')

def strayBlockClose (p : Point) : MarkupError := .strayBlockClose p.position

theorem blockCloser_ne_nil (d : Delimiters) : d.blockCloser ≠ [] := by
  simp [Delimiters.blockCloser]

mutual

/-- Texts and tags, and among values separators, as far as they go. Tokens outside of the tags stand
in `depth` tags. -/
def many (d : Delimiters) (context : Context) (depth : Nat) (p : Point) :
    Reading (p.rest.length + 1) :=
  if d.blockCloser <+: p.rest then .here p
  else if h : d.blockOpener <+: p.rest then
    ((tag d .block (depth + 1) p h).andThen fun q _ => many d context depth q).loose
  else if h : d.opener <+: p.rest then
    ((tag d .inline (depth + 1) p h).andThen fun q _ => many d context depth q).loose
  else if h : context = .values ∧ d.sep <+: p.rest then
    ((token (.sep .group) depth d.sep p h.2 d.sep_ne_nil).andThen fun q _ =>
      many d context depth q).loose
  else if h : context = .values ∧ d.subSep <+: p.rest then
    ((token (.sep .value) depth d.subSep p h.2 d.subSep_ne_nil).andThen fun q _ =>
      many d context depth q).loose
  else
    let lexeme := (Text.splitBefore (context.marks d) p.rest).1
    if h : lexeme ≠ [] then
      ((token .text depth lexeme p ⟨_, Text.splitBefore_append _ _⟩ h).andThen fun q _ =>
        many d context depth q).loose
    else .here p
termination_by (p.rest.length, 1)

/-- A tag, all of whose own tokens stand in `depth` tags, itself among them. -/
def tag (d : Delimiters) (kind : TagKind) (depth : Nat) (p : Point)
    (h : d.openerOf kind <+: p.rest) : Reading p.rest.length :=
  (token (Cursor.openToken kind) depth (d.openerOf kind) p h (d.openerOf_ne_nil kind)).andThen
    fun q _ =>
  (key depth q).andThen fun q _ =>
  (header d p.position depth q).andThen fun q _ =>
  match kind with
  | .inline => .here q
  | .block => body d p.position depth q
termination_by (p.rest.length, 0)

/-- What is behind the key of a tag that opened at `openedAt`: values or none, and the closer. -/
def header (d : Delimiters) (openedAt depth : Nat) (p : Point) : Reading (p.rest.length + 1) :=
  if hs : d.sep <+: p.rest then
    ((token (.sep .group) depth d.sep p hs d.sep_ne_nil).andThen fun q _ =>
      (many d .values depth q).andThen fun q _ =>
      mark .close d.closer d.closer_ne_nil openedAt depth strayBlockClose q).loose
  else mark .close d.closer d.closer_ne_nil openedAt depth badKey p
termination_by (p.rest.length, 0)

/-- What is behind the header of a block tag: its body, the block close, a key or none, and the
closer. -/
def body (d : Delimiters) (openedAt depth : Nat) (p : Point) : Reading (p.rest.length + 1) :=
  (many d .free depth p).andThen fun q _ =>
  (mark .blockClose d.blockCloser (blockCloser_ne_nil d) openedAt depth strayBlockClose q).andThen
    fun q _ =>
  (key depth q).andThen fun q _ =>
  mark .close d.closer d.closer_ne_nil openedAt depth badKey q
termination_by (p.rest.length, 2)

end

/-- A whole text is free text. A block close in it has no block to close. -/
def ofText (d : Delimiters) (t : Text) : List Token × Except MarkupError Unit :=
  let r := many d .free 0 ⟨0, t⟩
  (r.tokens, match r.stop with
    | .error e => .error e
    | .ok p => if p.1.rest = [] then .ok () else .error (strayBlockClose p))

end Descent

namespace Descent

variable {d : Delimiters} {c : Cursor} {p : Point} {opened opened' : List OpenTag} {n : Nat}
  {post post' : Point → Prop}

def Point.inside (p : Point) (opened : List OpenTag) : Cursor := ⟨p.position, p.rest, opened⟩

/-- Reading token by token from `c` on gives the tokens of the reading `r` first. It ends with them
at the fault of `r`, or goes on inside the tags `opened` at the point where `r` stops, which is as
`post` says. -/
def Matches (d : Delimiters) (c : Cursor) (opened : List OpenTag) (post : Point → Prop)
    (r : Reading n) : Prop :=
  match r.stop with
  | .error e => (Lexing.ofCursor d c).tokens = r.tokens ∧ (Lexing.ofCursor d c).fault? = some e
  | .ok ⟨p, _⟩ => c.Yields d r.tokens (p.inside opened) ∧ post p

theorem Matches.here (h : post p) : Matches d (p.inside opened) opened post (.here p) :=
  ⟨.refl, h⟩

theorem Matches.fault {e : MarkupError} (h : Lexing.ofCursor d c = ⟨[], some e⟩) :
    Matches d c opened post (.fault e : Reading n) := by
  show (Lexing.ofCursor d c).tokens = [] ∧ (Lexing.ofCursor d c).fault? = some e
  rw [h]
  exact ⟨rfl, rfl⟩

theorem Matches.loose {r : Reading n} (h : Matches d c opened post r) :
    Matches d c opened post r.loose := by
  obtain ⟨tokens, e | ⟨p, hp⟩⟩ := r
  · exact h
  · exact h

theorem Matches.andThen {r : Reading n}
    {more : (p : Point) → p.rest.length < n → Reading (p.rest.length + 1)}
    (h : Matches d c opened post r)
    (hm : ∀ p hp, post p → Matches d (p.inside opened) opened' post' (more p hp)) :
    Matches d c opened' post' (r.andThen more) := by
  obtain ⟨tokens, e | ⟨p, hp⟩⟩ := r
  · exact h
  · obtain ⟨hyields, hpost⟩ := h
    have hnext := hm p hp hpost
    unfold Matches Reading.andThen
    unfold Matches at hnext
    simp only
    generalize more p hp = next at hnext ⊢
    obtain ⟨tokens', e | ⟨q, hq⟩⟩ := next
    · exact ⟨by rw [hyields.tokens, hnext.1], by rw [hyields.fault, hnext.2]⟩
    · exact ⟨hyields.trans hnext.1, hnext.2⟩

theorem Matches.token {kind : TokenKind} {depth : Nat} {lexeme : Text} {h : lexeme <+: p.rest}
    {ne : lexeme ≠ []}
    (hs : (p.inside opened).step d = .ok ((p.inside opened).advance kind lexeme depth opened')) :
    Matches d (p.inside opened) opened' (fun _ => True) (token kind depth lexeme p h ne) := by
  have hr : p.rest ≠ [] := by
    intro hr
    rw [hr] at h
    exact ne (List.prefix_nil.1 h)
  exact ⟨.step hr hs, trivial⟩

section InTag

variable {o : OpenTag} {outer : List OpenTag} {stage : Stage}

theorem key_matches (hs : o.stage.keyed? = some stage) :
    Matches d (p.inside (o :: outer)) ({ o with stage } :: outer) (fun _ => True)
      (key (outer.length + 1) p) := by
  unfold key
  split
  · next hk => exact ⟨(Cursor.Yields.keyed hs hk).symm, trivial⟩
  · next hk => exact .loose (.token (Cursor.step_key rfl hs hk))

theorem mark_matches {kind : TokenKind} {lexeme : Text} {ne : lexeme ≠ []} {depth : Nat}
    {otherwise : Point → MarkupError}
    (hs : lexeme <+: p.rest → (p.inside (o :: outer)).step d =
      .ok ((p.inside (o :: outer)).advance kind lexeme depth opened'))
    (he : p.rest ≠ [] → ¬ lexeme <+: p.rest →
      (p.inside (o :: outer)).step d = .error (otherwise p)) :
    Matches d (p.inside (o :: outer)) opened' (fun _ => True)
      (mark kind lexeme ne o.openedAt depth otherwise p) := by
  unfold mark
  split
  · next hr => exact .fault (Lexing.ofCursor_end hr)
  · next hr =>
    split
    · next hl => exact .loose (.token (hs hl))
    · next hl => exact .fault (Lexing.ofCursor_error hr (he hr hl))

end InTag

/-- Nothing more can be read in the context: the text ends, a block is closed, or the values are at
their end. -/
def Ended (d : Delimiters) (context : Context) (p : Point) : Prop :=
  p.rest = [] ∨ d.blockCloser <+: p.rest ∨ context = .values ∧ d.closer <+: p.rest

/-- All that is shorter than `n` characters is read as it is token by token. -/
def MatchesBelow (d : Delimiters) (n : Nat) : Prop :=
  ∀ (p : Point) (context : Context) (opened : List OpenTag), p.rest.length < n →
    Cursor.context? opened = some context →
      Matches d (p.inside opened) opened (Ended d context) (many d context opened.length p)

theorem header_matches (kind : TagKind) (openedAt : Nat) (hmany : MatchesBelow d p.rest.length) :
    Matches d (p.inside (⟨Cursor.keyStage kind, openedAt⟩ :: opened))
      (Cursor.behindHeader kind openedAt opened) (fun _ => True)
      (header d openedAt (opened.length + 1) p) := by
  have hnamed := Cursor.named_keyStage kind
  rw [header]
  split
  · next hsep =>
    let values : OpenTag := ⟨Cursor.valuesStage kind, openedAt⟩
    have hcontext : Cursor.context? (values :: opened) = some .values :=
      Cursor.context?_valuesStage kind
    refine .loose ?_
    refine (Matches.token (Cursor.step_sep .group rfl (Cursor.afterSep?_keyStage kind)
      (.inl hnamed) hsep)).andThen fun q hq _ => ?_
    refine (hmany q .values (values :: opened) hq hcontext).andThen fun q _ hended => ?_
    refine mark_matches (o := values) (fun hcloser => ?_) fun hr hcloser => ?_
    · exact Cursor.step_valuesStage_close rfl hcloser
    · have hblock : d.blockCloser <+: q.rest := by
        rcases hended with h | h | h
        · exact absurd h hr
        · exact h
        · exact absurd h.2 hcloser
      exact Cursor.step_strayBlockClose (.inr hcontext) hblock
  · next hsep =>
    refine mark_matches (o := ⟨Cursor.keyStage kind, openedAt⟩) (fun hcloser => ?_)
      fun _ hcloser => ?_
    · exact Cursor.step_keyStage_close rfl hcloser
    · exact Cursor.step_badKey rfl (Cursor.context?_keyStage kind) (.inl hnamed) (fun _ => hsep)
        hcloser

theorem body_matches (openedAt : Nat) (hmany : MatchesBelow d (p.rest.length + 1)) :
    Matches d (p.inside (⟨.body, openedAt⟩ :: opened)) opened (fun _ => True)
      (body d openedAt (opened.length + 1) p) := by
  rw [body]
  refine (hmany p .free _ (Nat.lt_succ_self _) rfl).andThen fun q _ hended => ?_
  have hclose : Matches d (q.inside (⟨.body, openedAt⟩ :: opened))
      (⟨.closing false, openedAt⟩ :: opened) (fun _ => True)
      (mark .blockClose d.blockCloser (blockCloser_ne_nil d) openedAt (opened.length + 1)
        strayBlockClose q) := by
    refine mark_matches (o := ⟨.body, openedAt⟩) (fun hblock => ?_) fun hr hblock => ?_
    · exact Cursor.step_bodyEnd (o := ⟨.body, openedAt⟩) rfl rfl hblock
    · rcases hended with h | h | h
      · exact absurd h hr
      · exact absurd h hblock
      · cases h.1
  refine hclose.andThen fun q _ _ => ?_
  refine (key_matches (o := ⟨.closing false, openedAt⟩) rfl).andThen fun q _ _ => ?_
  refine mark_matches (o := ⟨.closing true, openedAt⟩) (fun hcloser => ?_) fun _ hcloser => ?_
  · exact Cursor.step_close (o := ⟨.closing true, openedAt⟩) rfl (by simp) (.inl rfl) hcloser
  · exact Cursor.step_badKey (o := ⟨.closing true, openedAt⟩) rfl rfl (.inl rfl) nofun hcloser

theorem tag_matches {kind : TagKind} {context : Context} {h : d.openerOf kind <+: p.rest}
    (hc : Cursor.context? opened = some context) (ho : (p.inside opened).opens? d = some kind)
    (hb : ¬ d.blockCloser <+: p.rest) (hmany : MatchesBelow d p.rest.length) :
    Matches d (p.inside opened) opened (fun _ => True) (tag d kind (opened.length + 1) p h) := by
  have hbelow (q : Point) (n : Nat) (hq : q.rest.length < p.rest.length)
      (hn : n ≤ q.rest.length + 1) : MatchesBelow d n := fun q' context inside hq' =>
    hmany q' context inside (by omega)
  rw [tag]
  refine (Matches.token (Cursor.step_opening hc ho hb)).andThen fun q hq _ => ?_
  refine (key_matches (Cursor.keyed?_firstStage kind)).andThen fun q hq' _ => ?_
  refine (header_matches kind p.position (hbelow q _ (by omega) (by omega))).andThen
    fun q hq'' _ => ?_
  cases kind with
  | inline => exact .here trivial
  | block => exact body_matches p.position (hbelow q _ (by omega) (by omega))

/-- Where a mark of the context begins that opens no tag and is no separator of values, nothing more
can be read. -/
theorem ended_of_begins {context : Context} {m : Text} (hm : m ∈ context.marks d)
    (hp : m <+: p.rest) (hopener : ¬ d.opener <+: p.rest)
    (hsep : ¬ (context = .values ∧ d.sep <+: p.rest))
    (hsubSep : ¬ (context = .values ∧ d.subSep <+: p.rest)) : Ended d context p := by
  cases context with
  | free =>
    rw [List.mem_singleton.1 hm] at hp
    exact absurd hp hopener
  | values =>
    simp only [Context.marks, List.mem_cons, List.not_mem_nil, or_false] at hm
    rcases hm with rfl | rfl | rfl | rfl
    · exact absurd hp hopener
    · exact .inr (.inr ⟨rfl, hp⟩)
    · exact absurd ⟨rfl, hp⟩ hsep
    · exact absurd ⟨rfl, hp⟩ hsubSep

theorem matchesBelow (d : Delimiters) (n : Nat) : MatchesBelow d n := by
  induction n with
  | zero => exact fun p _ _ hlt => absurd hlt (Nat.not_lt_zero _)
  | succ n ih =>
  intro p context opened hlt hc
  have hbelow : MatchesBelow d p.rest.length := fun q context inside hq =>
    ih q context inside (by omega)
  -- whatever is read here, reading goes on behind it in the same context
  have hmore {post : Point → Prop} {r : Reading p.rest.length}
      (h : Matches d (p.inside opened) opened post r) :
      Matches d (p.inside opened) opened (Ended d context)
        (r.andThen fun q _ => many d context opened.length q).loose :=
    .loose (h.andThen fun q hq _ => hbelow q context opened hq hc)
  rw [many]
  split
  · next hblock => exact .here (.inr (.inl hblock))
  next hblock =>
  split
  · next h => exact hmore (tag_matches hc (Cursor.opens?_eq_block h) hblock hbelow)
  next hblockOpener =>
  split
  · next h => exact hmore (tag_matches hc (Cursor.opens?_eq_inline hblockOpener h) hblock hbelow)
  next hopener =>
  split
  · next h =>
    obtain ⟨rfl, hsep⟩ := h
    exact hmore (.token (Cursor.step_valueSep .group hc hsep))
  next hsep =>
  split
  · next h =>
    obtain ⟨rfl, hsubSep⟩ := h
    exact hmore (.token (Cursor.step_valueSep .value hc hsubSep))
  next hsubSep =>
  simp only
  split
  · next hlexeme =>
    have hr : p.rest ≠ [] := by
      intro hr
      rw [hr] at hlexeme
      exact hlexeme rfl
    have hmarks (m : Text) (hm : m ∈ context.marks d) : ¬ m <+: p.rest :=
      Text.not_begins_of_splitBefore hlexeme hm
    exact hmore (.token (Cursor.step_text hc hr hmarks))
  · next hlexeme =>
    refine .here ?_
    by_cases hr : p.rest = []
    · exact .inl hr
    · obtain ⟨m, hm, hp⟩ := Text.exists_begins_of_splitBefore (Decidable.not_not.1 hlexeme) hr
      exact ended_of_begins hm hp hopener hsep hsubSep

/-- A text ends, or goes on with a block close in free text. -/
theorem Ended.free (h : Ended d .free p) : p.rest = [] ∨ d.blockCloser <+: p.rest := by
  rcases h with h | h | h
  · exact .inl h
  · exact .inr h
  · cases h.1

theorem ofText_matches (d : Delimiters) (t : Text) :
    (Lexing.ofText d t).tokens = (ofText d t).1 ∧
      match (ofText d t).2 with
      | .ok () => (Lexing.ofText d t).fault? = none
      | .error e => (Lexing.ofText d t).fault? = some e := by
  have h := matchesBelow d (t.length + 1) ⟨0, t⟩ .free [] (Nat.lt_succ_self _) rfl
  unfold Matches at h
  unfold ofText
  generalize many d .free 0 ⟨0, t⟩ = r at h ⊢
  obtain ⟨tokens, e | ⟨p, hp⟩⟩ := r
  · exact h
  obtain ⟨⟨htokens, hfault⟩, hended⟩ := h
  by_cases hr : p.rest = []
  · rw [Lexing.ofCursor_end (c := p.inside []) hr] at htokens hfault
    simp only [if_pos hr]
    exact ⟨htokens.trans (List.append_nil _), hfault⟩
  · have hblock : d.blockCloser <+: p.rest := hended.free.resolve_left hr
    have hstop := Lexing.ofCursor_error (c := p.inside []) hr
      (Cursor.step_strayBlockClose (.inl rfl) hblock)
    rw [hstop] at htokens hfault
    simp only [if_neg hr]
    exact ⟨htokens.trans (List.append_nil _), hfault⟩

theorem tokenize_eq_ok {t : Text} {tokens : List Token} :
    tokenize d t = .ok tokens ↔ ofText d t = (tokens, .ok ()) := by
  obtain ⟨htokens, hfault⟩ := ofText_matches d t
  unfold tokenize Lexing.result
  generalize ofText d t = read at htokens hfault ⊢
  obtain ⟨tokens', e | u⟩ := read
  · have hfault : (Lexing.ofText d t).fault? = some e := hfault
    simp [hfault]
  · have hfault : (Lexing.ofText d t).fault? = none := hfault
    simp [hfault, htokens]

theorem tokenize_eq_error {t : Text} {e : MarkupError} :
    tokenize d t = .error e ↔ (ofText d t).2 = .error e := by
  obtain ⟨-, hfault⟩ := ofText_matches d t
  unfold tokenize Lexing.result
  generalize ofText d t = read at hfault ⊢
  obtain ⟨tokens', e' | u⟩ := read
  · have hfault : (Lexing.ofText d t).fault? = some e' := hfault
    simp [hfault]
  · have hfault : (Lexing.ofText d t).fault? = none := hfault
    simp [hfault]

end Descent

/-- Reading token by token agrees with reading by descent. Before the text ends or a fault is met,
both read the same tokens, with the same depths; the text can be read as a whole just where reading
by descent takes all of it, and otherwise both meet the same fault at the same position. -/
theorem Lexing.agrees_descent (d : Delimiters) (t : Text) :
    (ofText d t).tokens = (Descent.ofText d t).1 ∧
      (∀ tokens, tokenize d t = .ok tokens ↔ Descent.ofText d t = (tokens, .ok ())) ∧
      ∀ e, tokenize d t = .error e ↔ (Descent.ofText d t).2 = .error e :=
  ⟨(Descent.ofText_matches d t).1, fun _ => Descent.tokenize_eq_ok,
    fun _ => Descent.tokenize_eq_error⟩

end TagMarkup
