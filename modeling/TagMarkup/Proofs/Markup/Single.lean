import TagMarkup.Proofs.Markup.Reading

/-! A single tag of valid markup, read from its text: the parts of the tag are those of the
markup. -/

namespace TagMarkup

/-- What may stand outside of all tags or among values: a text or a separator. -/
def Token.IsContent (t : Token) : Prop := t.kind = .text ∨ ∃ level, t.kind = .sep level

namespace SingleTag.Progress

variable {text : Text} {p q r : Progress} {tokens tokens' : List Token}

theorem foldlM_trans (h : tokens.foldlM (step text) p = .ok q)
    (h' : tokens'.foldlM (step text) q = .ok r) :
    (tokens ++ tokens').foldlM (step text) p = .ok r := by
  rw [List.foldlM_append, h]
  exact h'

/-- In the middle of a tag, tokens of the tags inside it change nothing. Nor do those in its values
or its body. -/
theorem foldlM_idle (hp : ∀ token : Token, token.IsContent → p.next text token = p)
    (hstart : p ≠ start) (hdone : ∀ tag, p ≠ done tag)
    (ht : ∀ token ∈ tokens, token.depth = 1 → token.IsContent) :
    tokens.foldlM (step text) p = .ok p := by
  induction tokens with
  | nil => rfl
  | cons token tokens ih =>
    have hstep : p.step text token = .ok p := by
      unfold step
      split
      · next tag => exact absurd rfl (hdone tag)
      · exact absurd rfl hstart
      · split
        · next hdepth => rw [hp token (ht token List.mem_cons_self hdepth)]
        · rfl
    rw [List.foldlM_cons, hstep]
    exact ih fun token hmem => ht token (List.mem_cons_of_mem _ hmem)

/-- The progress behind the head of a tag: an inline tag is done, and the body of a block tag
begins. -/
def afterHead (text : Text) (kind : TagKind) (key : Text) (values? : Option Text) (stop : Nat) :
    Progress :=
  match kind with
  | .inline => done ⟨key, values?, none, text⟩
  | .block => body key values? stop

end SingleTag.Progress

namespace Markup

open SingleTag (Progress)

variable {d : Delimiters} {kind : TagKind} {key : Text} {header m : Markup}

theorem depth_of_mem_keyTokens {depth position : Nat} {token : Token}
    (h : token ∈ keyTokens depth position key) : token.depth = depth := by
  unfold keyTokens at h
  split at h
  · cases h
  · rw [List.mem_singleton.1 h]

theorem le_depth_of_mem_headTokens {depth position : Nat} {token : Token}
    {headerTokens : Nat → List Token}
    (hi : ∀ position, ∀ token ∈ headerTokens position, depth ≤ token.depth)
    (h : token ∈ headTokens d kind depth position key (header.source d) headerTokens) :
    depth ≤ token.depth := by
  simp only [headTokens, List.mem_cons, List.mem_append, List.not_mem_nil, or_false] at h
  rcases h with rfl | h | h | rfl
  · exact Nat.le_refl _
  · exact Nat.le_of_eq (depth_of_mem_keyTokens h).symm
  · exact hi _ token h
  · exact Nat.le_refl _

theorem le_depth_of_mem_endingTokens {depth position : Nat} {token : Token} {endKey : Text}
    (h : token ∈ endingTokens d depth position endKey) : depth ≤ token.depth := by
  simp only [endingTokens, List.mem_cons, List.mem_append, List.not_mem_nil, or_false] at h
  rcases h with rfl | h | rfl
  · exact Nat.le_refl _
  · exact Nat.le_of_eq (depth_of_mem_keyTokens h).symm
  · exact Nat.le_refl _

/-- A token of markup inside `depth` tags stands in more of them, or is a text or a separator. -/
theorem of_mem_tokens {depth position : Nat} {token : Token}
    (h : token ∈ m.tokens d depth position) :
    depth < token.depth ∨ token.depth = depth ∧ token.IsContent := by
  have hle {m : Markup} {depth : Nat}
      (ih : ∀ {depth position : Nat} {token : Token}, token ∈ m.tokens d depth position →
        depth < token.depth ∨ token.depth = depth ∧ token.IsContent) :
      ∀ position, ∀ token ∈ m.tokens d depth position, depth ≤ token.depth := by
    intro position token hmem
    rcases ih hmem with h | h
    · omega
    · omega
  induction m generalizing depth position token with
  | done => cases h
  | text t rest ih =>
    rcases List.mem_cons.1 h with rfl | h
    · exact .inr ⟨rfl, .inl rfl⟩
    · exact ih h
  | sep level rest ih =>
    rcases List.mem_cons.1 h with rfl | h
    · exact .inr ⟨rfl, .inr ⟨level, rfl⟩⟩
    · exact ih h
  | inline key header rest ihh ihr =>
    rcases List.mem_append.1 h with h | h
    · exact .inl (le_depth_of_mem_headTokens (hle ihh) h)
    · exact ihr h
  | block key header body endKey rest ihh ihb ihr =>
    simp only [tokens, List.mem_append] at h
    rcases h with h | h | h | h
    · exact .inl (le_depth_of_mem_headTokens (hle ihh) h)
    · exact .inl (hle ihb _ _ h)
    · exact .inl (le_depth_of_mem_endingTokens h)
    · exact ihr h

/-- The text of the values of a header. -/
def values? (d : Delimiters) : Markup → Option Text
  | sep _ items => some (items.source d)
  | _ => none

theorem keyTokens_foldlM (text : Text) (kind : TagKind) (position : Nat) (key : Text) :
    (keyTokens 1 position key).foldlM (Progress.step text) (.header kind [] none) =
      .ok (.header kind key none) := by
  unfold keyTokens
  by_cases hk : key = []
  · simp [hk, pure, Except.pure]
  · simp [hk, Progress.step, Progress.next, pure, Except.pure, bind, Except.bind]

theorem tokens_foldlM_idle {text : Text} {p : Progress} (position : Nat)
    (hp : ∀ token : Token, token.IsContent → p.next text token = p) (hstart : p ≠ .start)
    (hdone : ∀ tag, p ≠ .done tag) :
    (m.tokens d 1 position).foldlM (Progress.step text) p = .ok p := by
  refine Progress.foldlM_idle hp hstart hdone fun token hmem hdepth => ?_
  rcases of_mem_tokens hmem with h | ⟨-, h⟩
  · omega
  · exact h

theorem header_foldlM (hshape : header.IsHeader) (kind : TagKind) (key before tail : Text) :
    let text := before ++ (header.source d ++ (d.closer ++ tail))
    let close : Token := ⟨.close, (before ++ header.source d).bytes, d.closer, 1⟩
    (header.tokens d 1 before.bytes ++ [close]).foldlM (Progress.step text)
        (.header kind key none) = .ok (.afterHead text kind key (header.values? d) close.stop) := by
  match header, hshape with
  | .done, _ => cases kind <;> rfl
  | .sep .group items, _ =>
    intro text close
    let valuesAt := before.bytes + d.sep.bytes
    have hslice : text.slice valuesAt close.start = items.source d := by
      have := Text.slice_append (before ++ d.sep) (items.source d) (d.closer ++ tail)
      simpa [text, source, Delimiters.sepOf, valuesAt, close, Nat.add_assoc] using this
    have hsep : Progress.step text (.header kind key none)
        ⟨.sep .group, before.bytes, d.sepOf .group, 1⟩ =
          .ok (.header kind key (some valuesAt)) := rfl
    have hitems : (items.tokens d 1 valuesAt).foldlM (Progress.step text)
        (.header kind key (some valuesAt)) = .ok (.header kind key (some valuesAt)) := by
      refine tokens_foldlM_idle valuesAt ?_ (by simp) (by simp)
      rintro token (hk | ⟨level, hk⟩)
      · simp [Progress.next, hk]
      · simp [Progress.next, hk]
    have hclose : Progress.step text (.header kind key (some valuesAt)) close =
        .ok (.afterHead text kind key (some (items.source d)) close.stop) := by
      cases kind <;> simp [Progress.step, Progress.next, Progress.afterHead, close, ← hslice]
    rw [tokens, List.cons_append, List.foldlM_cons, hsep]
    refine Progress.foldlM_trans hitems ?_
    rw [List.foldlM_cons, hclose]
    rfl

theorem Heads.foldlM (h : Heads d kind key header) (tail : Text) :
    let text := d.head kind key (header.source d) ++ tail
    (headTokens d kind 1 0 key (header.source d) fun at' => header.tokens d 1 at').foldlM
      (Progress.step text) .start =
        .ok (.afterHead text kind key (header.values? d)
          (d.head kind key (header.source d)).bytes) := by
  intro text
  have hopen : Progress.step text .start ⟨Cursor.openToken kind, 0, d.openerOf kind, 1⟩ =
      .ok (.header kind [] none) := by
    cases kind <;> rfl
  have hheader := header_foldlM (d := d) h.shape kind key (d.openerOf kind ++ key) tail
  rw [headTokens, List.foldlM_cons, hopen]
  refine Progress.foldlM_trans (keyTokens_foldlM text kind _ key) ?_
  simpa [text, Delimiters.head, Token.stop, Nat.add_assoc] using hheader

theorem endingTokens_foldlM (header? : Option Text) (key body endKey : Text) (before : Text) :
    let text := before ++ (body ++ d.ending endKey)
    (endingTokens d 1 (before ++ body).bytes endKey).foldlM (Progress.step text)
      (.body key header? before.bytes) = .ok (.done ⟨key, header?, some body, text⟩) := by
  intro text
  have hslice : text.slice before.bytes (before ++ body).bytes = body := by
    have := Text.slice_append before body (d.ending endKey)
    simpa [text] using this
  have hblock : Progress.step text (.body key header? before.bytes)
      ⟨.blockClose, (before ++ body).bytes, d.blockCloser, 1⟩ =
        .ok (.closing key header? body) := by
    simp only [Progress.step, Progress.next, if_true, hslice]
  have hkey (position : Nat) : (keyTokens 1 position endKey).foldlM (Progress.step text)
      (.closing key header? body) = .ok (.closing key header? body) := by
    unfold keyTokens
    split <;> rfl
  rw [endingTokens, List.foldlM_cons, hblock]
  exact Progress.foldlM_trans (hkey _) rfl

theorem Valid.single_of_foldlM {tag : SingleTag} (h : Valid d .free [] m)
    (hfold : (m.tokens d 0 0).foldlM (Progress.step (m.source d)) .start = .ok (.done tag)) :
    SingleTag.ofText d (m.source d) = .ok tag := by
  obtain ⟨htokens, hfault⟩ := h.lexing
  unfold SingleTag.ofText
  simp only [htokens, hfold, hfault, bind, Except.bind]

theorem Valid.single_inline (h : Valid d .free [] (.inline key header .done)) :
    SingleTag.ofText d (source d (.inline key header .done)) =
      .ok ⟨key, header.values? d, none, source d (.inline key header .done)⟩ := by
  refine h.single_of_foldlM ?_
  cases h with
  | inline heads inside behind =>
  have hfold := heads.foldlM []
  simpa [tokens, source, Progress.afterHead] using hfold

theorem Valid.single_block {body : Markup} {endKey : Text}
    (h : Valid d .free [] (.block key header body endKey .done)) :
    SingleTag.ofText d (source d (.block key header body endKey .done)) =
      .ok ⟨key, header.values? d, some (body.source d),
        source d (.block key header body endKey .done)⟩ := by
  refine h.single_of_foldlM ?_
  cases h with
  | block heads inside within ending behind =>
  let head := d.head .block key (header.source d)
  have hsource : source d (.block key header body endKey .done) =
      head ++ (body.source d ++ d.ending endKey) := by
    simp [source, head]
  have hhead := heads.foldlM (body.source d ++ d.ending endKey)
  have hbody : (body.tokens d 1 head.bytes).foldlM
      (Progress.step (head ++ (body.source d ++ d.ending endKey)))
      (.body key (header.values? d) head.bytes) =
        .ok (.body key (header.values? d) head.bytes) := by
    refine tokens_foldlM_idle _ ?_ (by simp) (by simp)
    rintro token (hk | ⟨level, hk⟩)
    · simp [Progress.next, hk]
    · simp [Progress.next, hk]
  have hending := endingTokens_foldlM (d := d) (header.values? d) key (body.source d) endKey head
  rw [hsource]
  have hall := Progress.foldlM_trans hhead (Progress.foldlM_trans hbody hending)
  simpa [tokens, head] using hall

end Markup

end TagMarkup
