import TagMarkup.Proofs.Lexing.Step
import TagMarkup.Proofs.Lexing.Tiling
import TagMarkup.Proofs.Tag.Extent
import TagMarkup.Tag.Single

/-! Which texts are not read as one tag. The reading of a tag keeps no stack, but as long as it goes
on its progress fits the stage of the outermost tag that is open (`Tracks`). So it is stopped by the
first token outside the tag at the front, in a text that can be read to its end and in one that
cannot. -/

namespace TagMarkup

namespace SingleTag

/-- The mark that is still to come as long as the tag's first part is read: the header of an inline
tag, or the header and the body of a block tag. -/
def endMark : TagKind → TokenKind
  | .inline => .close
  | .block => .blockClose

/-- The progress of a tag that is open, at a stage and behind the tokens `inside`. -/
inductive Reached : Stage → List Token → Progress → Prop
  | header {stage : Stage} {inside : List Token} {kind : TagKind} (sameKind : stage.kind = kind)
    (part : stage.part = .key ∨ stage.part = .values) (lack : Lack (endMark kind) 1 inside)
    (key : Text) (valuesAt? : Option Nat) : Reached stage inside (.header kind key valuesAt?)
  | body {inside : List Token} (lack : Lack .blockClose 1 inside) (key : Text)
    (header? : Option Text) (bodyAt : Nat) : Reached .body inside (.body key header? bodyAt)
  | closing {named : Bool} {front ending : List Token} {blockCloser : Token}
    (lack : Lack .blockClose 1 front)
    (closesBody : blockCloser.kind = .blockClose ∧ blockCloser.depth = 1)
    (lackEnd : Lack .close 1 ending) (key : Text) (header? : Option Text) (body : Text) :
    Reached (.closing named) (front ++ blockCloser :: ending) (.closing key header? body)

/-- The progress behind tokens that are all in the tag at the front, and the tags that are open
there. -/
inductive Tracks : List Token → List OpenTag → Progress → Prop
  | start : Tracks [] [] .start
  | within {opener : Token} {inside : List Token} (inner : List OpenTag) {tag : OpenTag}
    {p : Progress} (opens : opener.kind = Cursor.openToken tag.stage.kind)
    (level : opener.depth = 1) (reached : Reached tag.stage inside p) :
    Tracks (opener :: inside) (inner ++ [tag]) p
  | done {tokens : List Token} (whole : WholeTag tokens) (tag : SingleTag) :
    Tracks tokens [] (.done tag)

section Step

variable {d : Delimiters} {c : Cursor} {next : Token × Cursor} {text : Text} {p : Progress}
  {inside before : List Token} {stage : Stage} {tag : OpenTag} {inner : List OpenTag}

theorem Reached.step_eq (h : Reached stage inside p) (token : Token) :
    p.step text token = if token.depth = 1 then .ok (p.next text token) else .ok p := by
  cases h <;> rfl

/-- A token of a tag inside does not change the progress. -/
theorem Reached.concat (h : Reached stage inside p) {token : Token} (hd : 1 < token.depth) :
    Reached stage (inside ++ [token]) p := by
  have hlevel : 1 ≤ token.depth := by omega
  have hne {kind : TokenKind} (heq : token.depth = 1) : token.kind ≠ kind := by omega
  cases h with
  | header sameKind part lack => exact .header sameKind part (lack.concat hlevel hne) _ _
  | body lack => exact .body (lack.concat hlevel hne) _ _ _
  | closing lack closesBody lackEnd =>
    rw [List.append_assoc, List.cons_append]
    exact .closing lack closesBody (lackEnd.concat hlevel hne) _ _ _

/-- A step inside of another tag leaves the outermost one alone. -/
theorem move_inside (hm : c.Moves d next) (hi : inner ≠ []) (ho : c.opened = inner ++ [tag]) :
    1 < next.1.depth ∧ ∃ inner', next.2.opened = inner' ++ [tag] := by
  obtain ⟨top, others, rfl⟩ := List.exists_cons_of_ne_nil hi
  have hlength : c.opened.length = others.length + 2 := by simp [ho]
  have htop {first : OpenTag} {outer : List OpenTag} (h : c.opened = first :: outer) :
      outer = others ++ [tag] := by
    rw [ho] at h
    exact (List.cons.inj h).2.symm
  obtain ⟨⟨kind, start, lexeme, depth⟩, ⟨position, rest, opened⟩⟩ := next
  cases hm with
  | text =>
    show 1 < c.opened.length ∧ _
    exact ⟨by omega, top :: others, ho⟩
  | opening kind =>
    show 1 < c.opened.length + 1 ∧ _
    exact ⟨by omega, _ :: top :: others, by rw [ho]; rfl⟩
  | key opened | sep level opened | headerEnd opened | bodyEnd opened =>
    show 1 < c.opened.length ∧ _
    exact ⟨by omega, _ :: others, by rw [htop opened]; rfl⟩
  | tagEnd opened =>
    show 1 < c.opened.length ∧ _
    exact ⟨by omega, others, htop opened⟩

/-- A token that ends no part of the tag leaves it in the part that is read, or begins its
values. -/
theorem Reached.stay {stage' : Stage} {token : Token} (h : Reached stage inside p)
    (level : token.depth = 1) (hclose : token.kind ≠ .close) (hblock : token.kind ≠ .blockClose)
    (sameKind : stage'.kind = stage.kind)
    (part : stage'.part = stage.part ∨
      (stage.part = .key ∨ stage.part = .values) ∧ stage'.part = .values) :
    Reached stage' (inside ++ [token]) (p.next text token) := by
  have hlevel : 1 ≤ token.depth := by omega
  cases h with
  | @header _ _ kind heq hpart lack key valuesAt? =>
    have hend : token.kind ≠ endMark kind := by
      cases kind
      · exact hclose
      · exact hblock
    have hpart' : stage'.part = .key ∨ stage'.part = .values := by
      rcases part with hsame | ⟨-, hvalues⟩
      · rwa [hsame]
      · exact .inr hvalues
    obtain ⟨key', valuesAt', hnext⟩ : ∃ key' valuesAt',
        (Progress.header kind key valuesAt?).next text token = .header kind key' valuesAt' := by
      unfold Progress.next
      split <;> simp_all
    rw [hnext]
    exact .header (sameKind.trans heq) hpart' (lack.concat hlevel fun _ => hend) _ _
  | @body _ lack key header? bodyAt =>
    obtain rfl : stage' = .body := by
      rcases part with hsame | ⟨hpart, -⟩
      · cases stage' <;> cases hsame
        rfl
      · rcases hpart with hpart | hpart <;> cases hpart
    have hnext : (Progress.body key header? bodyAt).next text token = .body key header? bodyAt := by
      unfold Progress.next
      split <;> simp_all
    rw [hnext]
    exact .body (lack.concat hlevel fun _ => hblock) _ _ _
  | @closing named _ _ _ lack closesBody lackEnd key header? body =>
    obtain ⟨named', rfl⟩ : ∃ named', stage' = .closing named' := by
      rcases part with hsame | ⟨hpart, -⟩
      · cases stage' <;> cases hsame
        exact ⟨_, rfl⟩
      · rcases hpart with hpart | hpart <;> cases hpart
    have hnext : (Progress.closing key header? body).next text token =
        .closing key header? body := by
      unfold Progress.next
      split <;> simp_all
    rw [hnext, List.append_assoc, List.cons_append]
    exact .closing lack closesBody (lackEnd.concat hlevel fun _ => hclose) _ _ _

/-- A step in the outermost tag and in no other one takes its progress further, or ends it. -/
theorem Reached.move {opener : Token} (h : Reached tag.stage inside p)
    (opens : opener.kind = Cursor.openToken tag.stage.kind) (level : opener.depth = 1)
    (hm : c.Moves d next) (ho : c.opened = [tag]) :
    ∃ q, p.step text next.1 = .ok q ∧ Tracks (opener :: (inside ++ [next.1])) next.2.opened q := by
  obtain ⟨stage, openedAt⟩ := tag
  have hlength : c.opened.length = 1 := by simp [ho]
  have hone {first : OpenTag} {outer : List OpenTag} (h : c.opened = first :: outer) :
      first = ⟨stage, openedAt⟩ ∧ outer = [] := by
    rw [ho] at h
    obtain ⟨htag, houter⟩ := List.cons.inj h
    exact ⟨htag.symm, houter.symm⟩
  -- the tag stays open
  have hopen {stage' : Stage} {token : Token} {q : Progress} (hkind : stage'.kind = stage.kind)
      (hr : Reached stage' (inside ++ [token]) q) :
      Tracks (opener :: (inside ++ [token])) [⟨stage', openedAt⟩] q := by
    rw [← hkind] at opens
    exact .within [] opens level hr
  have hnext (hd : next.1.depth = 1) : p.step text next.1 = .ok (p.next text next.1) := by
    rw [h.step_eq, if_pos hd]
  unfold Cursor.Moves at hm
  generalize hk : next.1.kind = kind at hm
  generalize hd : next.1.depth = depth at hm
  generalize next.1.text = lexeme at hm
  generalize next.2.opened = opened at hm
  cases hm with
  | text =>
    rw [hlength] at hd
    refine ⟨_, hnext hd, ?_⟩
    rw [ho]
    apply hopen rfl
    exact h.stay hd (by simp [hk]) (by simp [hk]) rfl (.inl rfl)
  | opening =>
    have hdeeper : 1 < next.1.depth := by omega
    refine ⟨p, by rw [h.step_eq, if_neg (by omega)], ?_⟩
    rw [ho]
    exact .within [_] opens level (h.concat hdeeper)
  | key opened keyed =>
    rw [hlength] at hd
    obtain ⟨rfl, rfl⟩ := hone opened
    obtain ⟨hkind, hpart, -⟩ := Stage.of_keyed? keyed
    refine ⟨_, hnext hd, hopen hkind ?_⟩
    exact h.stay hd (by simp [hk]) (by simp [hk]) hkind (.inl hpart)
  | sep level' opened after =>
    rw [hlength] at hd
    obtain ⟨rfl, rfl⟩ := hone opened
    obtain ⟨hkind, hvalues, -, hpart, -⟩ := Stage.of_afterSep? after
    refine ⟨_, hnext hd, hopen hkind ?_⟩
    exact h.stay hd (by simp [hk]) (by simp [hk]) hkind (.inr ⟨hpart, hvalues⟩)
  | headerEnd opened inHeader =>
    rw [hlength] at hd
    obtain ⟨rfl, rfl⟩ := hone opened
    obtain ⟨hkind, -⟩ := Stage.of_inHeader inHeader
    refine ⟨_, hnext hd, hopen hkind.symm ?_⟩
    cases h with
    | header sameKind _ lack =>
      obtain rfl := hkind.symm.trans sameKind
      simp only [Progress.next, hk]
      exact .body (lack.concat (Nat.le_of_eq hd.symm) fun _ => by simp [hk, endMark]) _ _ _
    | body => cases inHeader
    | closing => cases inHeader
  | bodyEnd opened inBody =>
    rw [hlength] at hd
    obtain ⟨rfl, rfl⟩ := hone opened
    obtain rfl : stage = .body := inBody
    refine ⟨_, hnext hd, hopen rfl ?_⟩
    cases h with
    | header _ part => rcases part with part | part <;> cases part
    | body lack =>
      simp only [Progress.next, hk]
      exact .closing lack ⟨hk, hd⟩ .nil _ _ _
  | tagEnd opened pastHeader pastBody =>
    rw [hlength] at hd
    obtain ⟨rfl, rfl⟩ := hone opened
    refine ⟨_, hnext hd, ?_⟩
    cases h with
    | @header _ _ kind sameKind part lack =>
      cases kind with
      | inline =>
        rw [sameKind] at opens
        simp only [Progress.next, hk]
        exact .done (.intro .inline opens level (.inline lack hk hd)) _
      | block => exact absurd ⟨sameKind, part⟩ (Stage.not_inHeader pastHeader)
    | body => exact absurd rfl pastBody
    | closing lack closesBody lackEnd =>
      simp only [Progress.next, hk]
      exact .done (.intro .block opens level
        (.block lack closesBody.1 closesBody.2 lackEnd hk hd)) _

/-- A step takes the progress further, or its token is the first one outside the tag. -/
theorem Tracks.step (h : Tracks before c.opened p) (text : Text) (hm : c.Moves d next) :
    (∃ q, p.step text next.1 = .ok q ∧ Tracks (before ++ [next.1]) next.2.opened q) ∨
      p.step text next.1 = .error (.notOneTag next.1.start next.1.text) ∧
        ∀ after, FirstOutside (before ++ next.1 :: after) next.1 := by
  generalize ho : c.opened = opened at h
  cases h with
  | start =>
    unfold Cursor.Moves at hm
    generalize hk : next.1.kind = kind at hm
    generalize hd : next.1.depth = depth at hm
    generalize hl : next.1.text = lexeme at hm
    generalize next.2.opened = opened at hm
    have hnone {first : OpenTag} {outer : List OpenTag} (h : c.opened = first :: outer) :
        False := by
      rw [ho] at h
      cases h
    cases hm with
    | text =>
      right
      refine ⟨by simp [Progress.step, hk, hl, TokenKind.isOpen], fun after => ?_⟩
      exact .front (by rw [hk]; rfl) after
    | opening kind =>
      left
      rw [ho] at hd ⊢
      refine ⟨.header kind [] none, ?_, ?_⟩
      · cases kind <;> simp [Progress.step, Progress.next, hk, TokenKind.isOpen, Cursor.openToken]
      · refine .within [] ?_ hd (.header ?_ (.inl ?_) .nil _ _)
        · rw [hk]
          cases kind <;> rfl
        · cases kind <;> rfl
        · cases kind <;> rfl
    | key opened => exact (hnone opened).elim
    | sep _ opened => exact (hnone opened).elim
    | headerEnd opened => exact (hnone opened).elim
    | bodyEnd opened => exact (hnone opened).elim
    | tagEnd opened => exact (hnone opened).elim
  | @within opener inside inner tag p opens level reached =>
    left
    by_cases hi : inner = []
    · subst hi
      exact reached.move opens level hm ho
    · obtain ⟨hdepth, inner', ho'⟩ := move_inside hm hi ho
      refine ⟨p, by rw [reached.step_eq, if_neg (by omega)], ?_⟩
      rw [ho']
      exact .within inner' opens level (reached.concat hdepth)
  | done whole tag => exact .inr ⟨rfl, fun after => .behind whole _ after⟩

/-- Reading on behind tokens of the tag, the progress fits to the end of what can be read, or the
reading is stopped by the first token outside the tag. -/
theorem Tracks.ofCursor (d : Delimiters) (text : Text) (c : Cursor) :
    ∀ before p, Tracks before c.opened p →
      (∃ opened q, (Lexing.ofCursor d c).tokens.foldlM (Progress.step text) p = .ok q ∧
        Tracks (before ++ (Lexing.ofCursor d c).tokens) opened q ∧
        ((Lexing.ofCursor d c).fault? = none → opened = [])) ∨
      ∃ token, (Lexing.ofCursor d c).tokens.foldlM (Progress.step text) p =
          .error (.notOneTag token.start token.text) ∧
        FirstOutside (before ++ (Lexing.ofCursor d c).tokens) token := by
  fun_induction Lexing.ofCursor d c with
  | case1 c hr =>
    intro before p h
    refine .inl ⟨c.opened, p, rfl, by simpa [Lexing.tokens] using h, ?_⟩
    cases c.opened <;> simp
  | case2 c hr e hs =>
    intro before p h
    exact .inl ⟨c.opened, p, rfl, by simpa [Lexing.tokens] using h, by simp⟩
  | case3 c hr next hs more ih =>
    intro before p h
    have htokens : Lexing.tokens ⟨next :: more.steps, more.fault?⟩ = next.1 :: more.tokens := rfl
    rw [htokens, List.foldlM_cons]
    rcases h.step text (Cursor.step_move hs) with ⟨q, hq, hnext⟩ | ⟨herror, houtside⟩
    · have hmore := ih _ q hnext
      rw [List.append_assoc, List.singleton_append] at hmore
      rw [hq]
      exact hmore
    · rw [herror]
      exact .inr ⟨next.1, rfl, houtside _⟩

end Step

theorem Reached.not_ended {stage : Stage} {inside rest : List Token} {closer : Token} {p : Progress}
    (h : Reached stage (inside ++ closer :: rest) p) : ¬ ClosedBy 1 stage.kind inside closer := by
  intro ends
  generalize htokens : inside ++ closer :: rest = tokens at h
  generalize hkind : stage.kind = kind at ends
  cases h with
  | header sameKind part lack =>
    subst htokens
    obtain rfl := hkind.symm.trans sameKind
    cases ends with
    | inline _ closes level => exact (lack closer (by simp)).2 level closes
    | block _ closesBody bodyLevel => exact (lack _ (by simp)).2 bodyLevel closesBody
  | body lack =>
    subst htokens
    subst hkind
    cases ends with
    | block _ closesBody bodyLevel => exact (lack _ (by simp)).2 bodyLevel closesBody
  | closing lack closesBody lackEnd =>
    subst hkind
    cases ends with
    | block lack' closesBody' bodyLevel' _ closes level =>
      simp only [List.append_assoc, List.cons_append] at htokens
      obtain ⟨-, -, rfl⟩ :=
        lack'.split_unique lack ⟨closesBody', bodyLevel'⟩ closesBody htokens
      exact (lackEnd closer (by simp)).2 level closes

/-- As long as the progress fits, all tokens are in the tag. -/
theorem Tracks.not_outside {tokens : List Token} {opened : List OpenTag} {p : Progress}
    {token : Token} (h : Tracks tokens opened p) : ¬ FirstOutside tokens token := by
  intro houtside
  generalize htokens : tokens = ts at h
  cases h with
  | start => cases houtside <;> simp at htokens
  | @within opener inside inner tag p opens level reached =>
    cases houtside with
    | front noTag after =>
      obtain ⟨rfl, -⟩ := List.cons.inj htokens
      rw [opens, Cursor.isOpen_openToken] at noTag
      cases noTag
    | behind whole _ after =>
      cases whole with
      | @intro opener' closer inside' kind opens' level' ends =>
        simp only [List.cons_append, List.append_assoc, List.cons.injEq] at htokens
        obtain ⟨rfl, rfl⟩ := htokens
        obtain rfl := Cursor.openToken_inj (opens'.symm.trans opens)
        exact reached.not_ended ends
  | done whole tag =>
    cases houtside with
    | front noTag after =>
      cases whole with
      | intro kind opens =>
        obtain ⟨rfl, -⟩ := List.cons.inj htokens
        rw [opens, Cursor.isOpen_openToken] at noTag
        cases noTag
    | behind whole' _ after =>
      obtain ⟨-, hrest⟩ := whole'.unique whole (htokens.trans (List.append_nil _).symm)
      cases hrest

section OfText

variable {d : Delimiters} {text : Text}

/-- What may come of reading a text as one tag, for the tokens and the fault of the text. -/
inductive Outcome (text : Text) : List Token → Option MarkupError →
    Except MarkupError SingleTag → Prop
  | whole {tokens : List Token} (whole : WholeTag tokens) (tag : SingleTag) :
    Outcome text tokens none (.ok tag)
  | empty (empty : text = []) : Outcome text [] none (.error (.notOneTag 0 text))
  | outside {tokens : List Token} {token : Token} (outside : FirstOutside tokens token)
    (fault? : Option MarkupError) :
    Outcome text tokens fault? (.error (.notOneTag token.start token.text))
  | fault {tokens : List Token} (inside : ∀ token, ¬ FirstOutside tokens token) (e : MarkupError) :
    Outcome text tokens (some e) (.error e)

theorem outcome (d : Delimiters) (text : Text) :
    Outcome text (Lexing.ofText d text).tokens (Lexing.ofText d text).fault? (ofText d text) := by
  have hread := Tracks.ofCursor d text (.ofText text) [] .start .start
  rw [← Lexing.ofText, List.nil_append] at hread
  have hlexemes (h : (Lexing.ofText d text).fault? = none) :
      ((Lexing.ofText d text).tokens.map Token.text).flatten = text :=
    lexemes_of_tokenize (by rw [tokenize, Lexing.result, h])
  simp only [ofText, bind, Except.bind]
  generalize (Lexing.ofText d text).tokens = tokens at hread hlexemes ⊢
  generalize (Lexing.ofText d text).fault? = fault? at hread hlexemes ⊢
  rcases hread with ⟨opened, q, hfold, htracks, hend⟩ | ⟨token, hfold, houtside⟩
  · rw [hfold]
    cases fault? with
    | some e => exact .fault (fun _ => htracks.not_outside) e
    | none =>
      obtain rfl := hend rfl
      generalize hopened : ([] : List OpenTag) = opened at htracks
      cases htracks with
      | start => exact .empty (hlexemes rfl).symm
      | within => simp at hopened
      | done whole tag => exact .whole whole tag
  · rw [hfold]
    exact .outside houtside fault?

/-- A text that is read as one tag can be read to its end, and its tokens are those of the tag. -/
theorem whole_of_ofText {tag : SingleTag} (h : ofText d text = .ok tag) :
    (Lexing.ofText d text).fault? = none ∧ WholeTag (Lexing.ofText d text).tokens := by
  have houtcome := outcome d text
  rw [h] at houtcome
  generalize (Lexing.ofText d text).tokens = tokens at houtcome ⊢
  generalize (Lexing.ofText d text).fault? = fault? at houtcome ⊢
  cases houtcome with
  | whole whole => exact ⟨rfl, whole⟩

/-- A text that is not read as one tag is refused at its first token outside the tag, or else with
the fault that ends its reading. Without either there is nothing in the text. -/
theorem ofText_eq_error {e : MarkupError} :
    ofText d text = .error e ↔
      (∃ token, FirstOutside (Lexing.ofText d text).tokens token ∧
        e = .notOneTag token.start token.text) ∨
      (∀ token, ¬ FirstOutside (Lexing.ofText d text).tokens token) ∧
        ((Lexing.ofText d text).fault? = some e ∨ text = [] ∧ e = .notOneTag 0 []) := by
  have houtcome := outcome d text
  have hempty (h : text = []) : (Lexing.ofText d text).tokens = [] ∧
      (Lexing.ofText d text).fault? = none := by
    subst h
    rw [Lexing.ofText, Lexing.ofCursor_end rfl]
    exact ⟨rfl, rfl⟩
  generalize ofText d text = result at houtcome ⊢
  generalize (Lexing.ofText d text).tokens = tokens at houtcome hempty ⊢
  generalize (Lexing.ofText d text).fault? = fault? at houtcome hempty ⊢
  cases houtcome with
  | whole whole tag =>
    have hinside (token : Token) : ¬ FirstOutside tokens token :=
      (Tracks.done whole tag).not_outside
    constructor
    · intro h
      cases h
    · rintro (⟨token, houtside, -⟩ | ⟨-, hfault | ⟨hnil, -⟩⟩)
      · exact absurd houtside (hinside token)
      · cases hfault
      · rw [(hempty hnil).1] at whole
        cases whole
  | empty hnil =>
    have hinside (token : Token) : ¬ FirstOutside [] token := Tracks.start.not_outside
    subst hnil
    constructor
    · intro h
      cases h
      exact .inr ⟨hinside, .inr ⟨rfl, rfl⟩⟩
    · rintro (⟨token, houtside, -⟩ | ⟨-, hfault | ⟨-, rfl⟩⟩)
      · exact absurd houtside (hinside token)
      · cases hfault
      · rfl
  | outside houtside fault? =>
    constructor
    · intro h
      cases h
      exact .inl ⟨_, houtside, rfl⟩
    · rintro (⟨other, hother, rfl⟩ | ⟨hinside, -⟩)
      · rw [hother.unique houtside]
      · exact absurd houtside (hinside _)
  | fault hinside e' =>
    constructor
    · intro h
      cases h
      exact .inr ⟨hinside, .inl rfl⟩
    · rintro (⟨token, houtside, -⟩ | ⟨-, hfault | ⟨hnil, -⟩⟩)
      · exact absurd houtside (hinside token)
      · rw [Option.some.inj hfault]
      · cases (hempty hnil).2

end OfText

end SingleTag

end TagMarkup
