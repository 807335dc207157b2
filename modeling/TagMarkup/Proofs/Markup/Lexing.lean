import TagMarkup.Proofs.Markup

/-! Valid markup is read as what it is: reading its text token by token gives its tokens, whatever
stands around it. -/

namespace TagMarkup

namespace Cursor

variable {d : Delimiters} {position : Nat} {more : Text} {opened opened' : List OpenTag}

theorem Yields.token {kind : TokenKind} {lexeme : Text} {depth : Nat} (hne : lexeme ≠ [])
    (h : Cursor.step d ⟨position, lexeme ++ more, opened⟩ =
      .ok (Cursor.advance ⟨position, lexeme ++ more, opened⟩ kind lexeme depth opened')) :
    Yields d ⟨position, lexeme ++ more, opened⟩ [⟨kind, position, lexeme, depth⟩]
      ⟨position + lexeme.bytes, more, opened'⟩ := by
  have hstep := Yields.step (by simp [hne]) h
  simpa [advance] using hstep

end Cursor

namespace Markup

open Cursor (Yields keyStage valuesStage behindHeader)

variable {d : Delimiters} {context : Context} {kind : TagKind} {m header : Markup}
  {key after more : Text} {position : Nat} {opened : List OpenTag}

theorem key_yields (o : OpenTag) {stage : Stage} (hs : o.stage.keyed? = some stage)
    (hk : leadingKey (key ++ more) = key) (position : Nat) (outer : List OpenTag) :
    Yields d ⟨position, key ++ more, o :: outer⟩ (keyTokens (outer.length + 1) position key)
      ⟨position + key.bytes, more, { o with stage } :: outer⟩ := by
  unfold keyTokens
  by_cases hne : key = []
  · subst hne
    rw [if_pos rfl]
    exact (Yields.keyed hs hk).symm
  · rw [if_neg hne]
    refine .token hne ?_
    have hstep := Cursor.step_key (d := d) (c := ⟨position, key ++ more, o :: outer⟩) rfl hs
      (by simpa [hk] using hne)
    simpa [hk] using hstep

theorem IsHeader.begins (h : header.IsHeader) (more : Text) :
    d.closer <+: header.source d ++ (d.closer ++ more) ∨
      d.sepOf .group <+: header.source d ++ (d.closer ++ more) := by
  match header, h with
  | .done, _ => exact .inl (List.prefix_append _ _)
  | .sep .group items, _ => exact .inr (by simp [source])

/-- In front of a header, and of the closer behind it, a tag may as well be among its values. -/
theorem header_yields (hshape : header.IsHeader) (kind : TagKind) (position openedAt : Nat)
    (more : Text) (outer : List OpenTag) :
    Yields d ⟨position, header.source d ++ (d.closer ++ more), ⟨keyStage kind, openedAt⟩ :: outer⟩
      [] ⟨position, header.source d ++ (d.closer ++ more),
        ⟨valuesStage kind, openedAt⟩ :: outer⟩ := by
  let rest := header.source d ++ (d.closer ++ more)
  have hne : rest ≠ [] := by simp [rest, d.closer_ne_nil]
  let behindKey : Cursor := ⟨position, rest, ⟨keyStage kind, openedAt⟩ :: outer⟩
  let among : Cursor := ⟨position, rest, ⟨valuesStage kind, openedAt⟩ :: outer⟩
  have hstep : behindKey.step d = among.step d := by
    rcases hshape.begins more with hcloser | hsep
    · have hkey := Cursor.step_keyStage_close (c := behindKey) rfl hcloser
      have hvalues := Cursor.step_valuesStage_close (c := among) rfl hcloser
      exact hkey.trans hvalues.symm
    · have hkey := Cursor.step_sep (c := behindKey) .group rfl (Cursor.afterSep?_keyStage kind)
        (.inl (Cursor.named_keyStage kind)) hsep
      have hvalues := Cursor.step_valueSep (c := among) .group (Cursor.context?_valuesStage kind)
        hsep
      exact hkey.trans hvalues.symm
  exact .of_step_eq hne hne hstep

theorem Heads.opens (h : Heads d kind key header) (position : Nat) (more : Text)
    (opened : List OpenTag) :
    Cursor.opens? d ⟨position, d.head kind key (header.source d) ++ more, opened⟩ = some kind ∧
      ¬ d.blockCloser <+: d.head kind key (header.source d) ++ more := by
  have hopener : d.openerOf kind <+: d.head kind key (header.source d) ++ more := by
    simp [Delimiters.head]
  cases kind with
  | block =>
    have hclose (hb : d.blockCloser <+: _) := d.not_blockOpener_of_blockCloser hb hopener
    exact ⟨Cursor.opens?_eq_block hopener, hclose⟩
  | inline =>
    obtain ⟨hblock, hclose⟩ := h.inline rfl
    -- these marks are not longer than the head, as the closer is not empty
    have hshort (mark : Text) (hlen : mark.length = d.opener.length + 1)
        (hp : mark <+: d.head .inline key (header.source d) ++ more) :
        mark <+: d.head .inline key (header.source d) := by
      refine List.prefix_of_prefix_length_le hp (List.prefix_append _ _) ?_
      have := List.length_pos_iff.2 d.closer_ne_nil
      simp only [Delimiters.head, Delimiters.openerOf, List.length_append]
      omega
    constructor
    · exact Cursor.opens?_eq_inline
        (fun hb => hblock (hshort _ (by simp [Delimiters.blockOpener]) hb)) hopener
    · exact fun hb => hclose (hshort _ (by simp [Delimiters.blockCloser]) hb)

theorem Heads.yields (h : Heads d kind key header) (hc : Cursor.context? opened = some context)
    (position : Nat) (more : Text)
    (hi : ∀ opened position, Cursor.context? opened = some .values →
      Yields d ⟨position, header.source d ++ (d.closer ++ more), opened⟩
        (header.tokens d opened.length position)
        ⟨position + (header.source d).bytes, d.closer ++ more, opened⟩) :
    Yields d ⟨position, d.head kind key (header.source d) ++ more, opened⟩
      (headTokens d kind (opened.length + 1) position key (header.source d)
        fun at' => header.tokens d (opened.length + 1) at')
      ⟨position + (d.head kind key (header.source d)).bytes, more,
        behindHeader kind position opened⟩ := by
  obtain ⟨hopens, hblock⟩ := h.opens position more opened
  simp only [Delimiters.head, List.append_assoc] at hopens hblock ⊢
  have hopen := Yields.token (d.openerOf_ne_nil kind) (Cursor.step_opening hc hopens hblock)
  have hkey : leadingKey (key ++ (header.source d ++ (d.closer ++ more))) = key := by
    have hne : header.source d ++ d.closer ≠ [] := by simp [d.closer_ne_nil]
    simpa using leadingKey_append hne [] more (by simpa using h.ends)
  have hkeyed := key_yields (d := d) ⟨Cursor.firstStage kind, position⟩
    (Cursor.keyed?_firstStage kind) hkey (position + (d.openerOf kind).bytes) opened
  have hheader := (header_yields (d := d) h.shape kind
    (position + (d.openerOf kind).bytes + key.bytes) position more opened).trans
    (hi (⟨valuesStage kind, position⟩ :: opened) _ (Cursor.context?_valuesStage kind))
  have hclose := Yields.token (d := d) d.closer_ne_nil (Cursor.step_valuesStage_close
    (c := ⟨position + (d.openerOf kind).bytes + key.bytes + (header.source d).bytes,
      d.closer ++ more, ⟨valuesStage kind, position⟩ :: opened⟩) rfl (List.prefix_append _ _))
  have hall := (hopen.trans hkeyed).trans (hheader.trans hclose)
  simpa [headTokens, Nat.add_assoc] using hall

theorem ending_yields {endKey : Text} (hk : leadingKey (endKey ++ d.closer) = endKey)
    (position openedAt : Nat) (more : Text) (opened : List OpenTag) :
    Yields d ⟨position, d.ending endKey ++ more, ⟨.body, openedAt⟩ :: opened⟩
      (endingTokens d (opened.length + 1) position endKey)
      ⟨position + (d.ending endKey).bytes, more, opened⟩ := by
  simp only [Delimiters.ending, List.append_assoc]
  have hne : d.blockCloser ≠ [] := by simp [Delimiters.blockCloser]
  have hblock := Yields.token (d := d) hne (Cursor.step_bodyEnd
    (c := ⟨position, d.blockCloser ++ (endKey ++ (d.closer ++ more)), ⟨.body, openedAt⟩ :: opened⟩)
    rfl rfl (List.prefix_append _ _))
  have hkey : leadingKey (endKey ++ (d.closer ++ more)) = endKey :=
    leadingKey_append d.closer_ne_nil [] more (by simpa using hk)
  have hkeyed := key_yields (d := d) ⟨.closing false, openedAt⟩ rfl hkey
    (position + d.blockCloser.bytes) opened
  have hclose := Yields.token (d := d) d.closer_ne_nil (Cursor.step_close
    (c := ⟨position + d.blockCloser.bytes + endKey.bytes, d.closer ++ more,
      ⟨.closing true, openedAt⟩ :: opened⟩) rfl (by simp) (.inl rfl) (List.prefix_append _ _))
  have hall := (hblock.trans hkeyed).trans hclose
  simpa [endingTokens, Cursor.closed, Stage.inHeader, Nat.add_assoc] using hall

theorem text_yields {t : Text} (hc : Cursor.context? opened = some context) (hne : t ≠ [])
    (ht : Text.Until (context.marks d) t more) (position : Nat) :
    Yields d ⟨position, t ++ more, opened⟩ [⟨.text, position, t, opened.length⟩]
      ⟨position + t.bytes, more, opened⟩ := by
  have hstep := Cursor.step_text (d := d) (c := ⟨position, t ++ more, opened⟩) hc (by simp [hne])
    (ht.clear [] t rfl hne)
  rw [ht.splitBefore_eq] at hstep
  exact .token hne hstep

/-- Valid markup is read as its tokens, inside whatever tags it stands. -/
theorem Valid.yields (h : Valid d context after m) (opened : List OpenTag) (position : Nat)
    (hc : Cursor.context? opened = some context) :
    Yields d ⟨position, m.source d ++ after, opened⟩ (m.tokens d opened.length position)
      ⟨position + (m.source d).bytes, after, opened⟩ := by
  induction m generalizing context after opened position with
  | done => exact .refl
  | text t rest ih =>
    cases h with
    | text nonempty ends behind =>
    have htext := text_yields hc nonempty ends position
    have hall := htext.trans (ih behind opened _ hc)
    simpa [source, tokens, Nat.add_assoc] using hall
  | sep level rest ih =>
    cases h with
    | sep _ behind =>
    have hne : d.sepOf level ≠ [] := by
      cases level
      · exact d.sep_ne_nil
      · exact d.subSep_ne_nil
    have hsep := Yields.token hne (Cursor.step_valueSep
      (c := ⟨position, d.sepOf level ++ (rest.source d ++ after), opened⟩) level hc
      (List.prefix_append _ _))
    have hall := hsep.trans (ih behind opened _ hc)
    simpa [source, tokens, Nat.add_assoc] using hall
  | inline key header rest ihh ihr =>
    cases h with
    | inline heads inside behind =>
    have hhead := heads.yields hc position (rest.source d ++ after)
      fun opened position hvalues => ihh (Valid.before_closer.2 inside) opened position hvalues
    have hall := hhead.trans (ihr behind opened _ hc)
    simpa [source, tokens, behindHeader, Nat.add_assoc] using hall
  | block key header body endKey rest ihh ihb ihr =>
    cases h with
    | block heads inside within ending behind =>
    have hhead := heads.yields hc position
      (body.source d ++ (d.ending endKey ++ (rest.source d ++ after)))
      fun opened position hvalues => ihh (Valid.before_closer.2 inside) opened position hvalues
    have hwithin : Valid d .free (d.ending endKey ++ (rest.source d ++ after)) body := by
      simp only [Delimiters.ending, List.append_assoc]
      exact Valid.before_blockCloser.2 within
    have hbody := ihb hwithin (⟨.body, position⟩ :: opened)
      (position + (d.head .block key (header.source d)).bytes) rfl
    have hending := ending_yields ending
      (position + (d.head .block key (header.source d)).bytes + (body.source d).bytes) position
      (rest.source d ++ after) opened
    have hall := ((hhead.trans hbody).trans hending).trans (ihr behind opened _ hc)
    simpa [source, tokens, behindHeader, Nat.add_assoc] using hall

theorem Valid.lexing (h : Valid d .free [] m) :
    (Lexing.ofText d (m.source d)).tokens = m.tokens d 0 0 ∧
      (Lexing.ofText d (m.source d)).fault? = none := by
  have hyields := h.yields [] 0 rfl
  have hend : Lexing.ofCursor d ⟨0 + (m.source d).bytes, [], []⟩ = ⟨[], none⟩ :=
    Lexing.ofCursor_end rfl
  have htokens := hyields.tokens
  have hfault := hyields.fault
  rw [hend, List.append_nil] at htokens hfault
  exact ⟨htokens.trans (List.append_nil _), hfault⟩

theorem Valid.tokenize (h : Valid d .free [] m) :
    tokenize d (m.source d) = .ok (m.tokens d 0 0) := by
  obtain ⟨htokens, hfault⟩ := h.lexing
  rw [TagMarkup.tokenize, Lexing.result, hfault, htokens]

end Markup

end TagMarkup
