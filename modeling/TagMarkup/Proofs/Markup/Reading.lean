import TagMarkup.Proofs.Lexing.Descent
import TagMarkup.Proofs.Markup.Lexing

/-! Every text that can be read is the text of valid markup. Reading by descent takes the markup off
the front of a text part by part, and none of the parts depends on more of the text behind it than
the mark that ends it. -/

namespace TagMarkup

open Markup

namespace Descent

variable {d : Delimiters} {p q : Point} {n : Nat}

/-- Where the reading stops, if it does, is as `post` says. -/
def Reading.Stops (r : Reading n) (post : Point → Prop) : Prop :=
  ∀ q h, r.stop = .ok ⟨q, h⟩ → post q

namespace Reading.Stops

variable {post post' : Point → Prop}

theorem here (h : post p) : (Reading.here p).Stops post := by
  rintro q _ ⟨⟩
  exact h

theorem fault (e : MarkupError) : (.fault e : Reading n).Stops post := nofun

theorem loose {r : Reading n} (h : r.Stops post) : r.loose.Stops post := by
  intro q hq heq
  obtain ⟨tokens, e | ⟨p, hp⟩⟩ := r
  · cases heq
  · cases heq
    exact h _ _ rfl

theorem mono {r : Reading n} (h : r.Stops post) (hp : ∀ q, post q → post' q) : r.Stops post' :=
  fun q hq heq => hp q (h q hq heq)

theorem andThen {r : Reading n}
    {more : (p : Point) → p.rest.length < n → Reading (p.rest.length + 1)} (h : r.Stops post)
    (hm : ∀ p hp, post p → (more p hp).Stops post') : (r.andThen more).Stops post' := by
  intro q hq heq
  obtain ⟨tokens, e | ⟨p, hp⟩⟩ := r
  · cases heq
  · have hnext := hm p hp (h p hp rfl)
    unfold Reading.andThen at heq
    simp only at heq
    generalize more p hp = next at hnext heq
    obtain ⟨tokens', e | ⟨q', hq'⟩⟩ := next
    · cases heq
    · cases heq
      exact hnext _ _ rfl

end Reading.Stops

theorem token_stops {kind : TokenKind} {depth : Nat} {lexeme : Text} {h : lexeme <+: p.rest}
    {ne : lexeme ≠ []} :
    (token kind depth lexeme p h ne).Stops fun q => p.rest = lexeme ++ q.rest := by
  rintro q _ ⟨⟩
  exact (List.prefix_iff_eq_append.1 h).symm

theorem key_stops {depth : Nat} :
    (key depth p).Stops fun q => p.rest = leadingKey p.rest ++ q.rest := by
  unfold key
  split
  · next hk =>
    refine .here ?_
    rw [hk]
    rfl
  · exact token_stops.loose

theorem mark_stops {kind : TokenKind} {lexeme : Text} {ne : lexeme ≠ []} {openedAt depth : Nat}
    {otherwise : Point → MarkupError} :
    (mark kind lexeme ne openedAt depth otherwise p).Stops fun q => p.rest = lexeme ++ q.rest := by
  unfold mark
  split
  · exact .fault _
  · split
    · exact token_stops.loose
    · exact .fault _

/-- Where fewer than `n` characters are unread, what is read is valid markup. -/
def MarkupBelow (d : Delimiters) (n : Nat) : Prop :=
  ∀ (p : Point) (context : Context) (depth : Nat), p.rest.length < n →
    (many d context depth p).Stops fun q =>
      ∃ m, Valid d context q.rest m ∧ p.rest = m.source d ++ q.rest

section InTag

variable {openedAt depth : Nat}

theorem header_stops (hmany : MarkupBelow d p.rest.length) :
    (header d openedAt depth p).Stops fun q => ∃ header : Markup, header.IsHeader ∧
      Valid d .values d.closer header ∧ p.rest = header.source d ++ (d.closer ++ q.rest) := by
  rw [header]
  split
  · next hsep =>
    refine .loose (token_stops.andThen fun q hq hp => ?_)
    refine (hmany q .values depth hq).andThen fun q' _ hitems => ?_
    obtain ⟨items, hvalid, hq⟩ := hitems
    refine mark_stops.mono fun q'' hq' => ?_
    rw [hq'] at hvalid hq
    refine ⟨.sep .group items, trivial, .sep .group (Valid.before_closer.1 hvalid), ?_⟩
    simp [source, Delimiters.sepOf, hp, hq]
  · next hsep =>
    refine mark_stops.mono fun q hq => ?_
    exact ⟨.done, trivial, .done _ _, hq⟩

theorem body_stops (hmany : MarkupBelow d (p.rest.length + 1)) :
    (body d openedAt depth p).Stops fun q => ∃ (body : Markup) (endKey : Text),
      Valid d .free d.blockCloser body ∧ leadingKey (endKey ++ d.closer) = endKey ∧
        p.rest = body.source d ++ (d.ending endKey ++ q.rest) := by
  rw [body]
  refine (hmany p .free depth (Nat.lt_succ_self _)).andThen fun q₁ _ hbody => ?_
  obtain ⟨body, hvalid, hp⟩ := hbody
  refine mark_stops.andThen fun q₂ _ hblock => ?_
  refine key_stops.andThen fun q₃ _ hkey => ?_
  refine mark_stops.mono fun q hclose => ?_
  generalize hk : leadingKey q₂.rest = endKey at hkey
  have hends : leadingKey (endKey ++ d.closer) = endKey := by
    rw [hkey, hclose] at hk
    simpa using leadingKey_append d.closer_ne_nil q.rest [] hk
  rw [hblock] at hvalid
  refine ⟨body, endKey, Valid.before_blockCloser.1 hvalid, hends, ?_⟩
  simp only [hp, hblock, hkey, hclose, Delimiters.ending, List.append_assoc]

theorem tag_stops {kind : TagKind} {h : d.openerOf kind <+: p.rest}
    (hblock : kind = .inline → ¬ d.blockOpener <+: p.rest) (hclose : ¬ d.blockCloser <+: p.rest)
    (hmany : MarkupBelow d p.rest.length) :
    (tag d kind depth p h).Stops fun q => ∃ m, (∀ context after, Valid d context after m) ∧
      p.rest = m.source d ++ q.rest := by
  have hbelow {n : Nat} (hn : n ≤ p.rest.length) : MarkupBelow d n := fun q context depth hq =>
    hmany q context depth (by omega)
  rw [tag]
  refine token_stops.andThen fun q₁ hq₁ hopen => ?_
  refine key_stops.andThen fun q₂ hq₂ hkey => ?_
  refine (header_stops (hbelow (by omega))).andThen fun q₃ hq₃ hheader => ?_
  obtain ⟨header, hshape, hinside, hq⟩ := hheader
  generalize hk : leadingKey q₁.rest = key at hkey
  have hhead : p.rest = d.head kind key (header.source d) ++ q₃.rest := by
    simp only [hopen, hkey, hq, Delimiters.head, List.append_assoc]
  have hheads : Heads d kind key header := by
    refine ⟨hshape, ?_, fun hkind => ⟨fun hp => ?_, fun hp => ?_⟩⟩
    · have hne : header.source d ++ d.closer ≠ [] := by simp [d.closer_ne_nil]
      rw [hkey, hq] at hk
      simpa using leadingKey_append hne q₃.rest [] (by simpa using hk)
    · exact hblock hkind (hhead ▸ hp.trans (List.prefix_append _ _))
    · exact hclose (hhead ▸ hp.trans (List.prefix_append _ _))
  cases kind with
  | inline =>
    refine .here ⟨.inline key header .done, ?_, ?_⟩
    · exact fun context after => .inline hheads hinside (.done context after)
    · simp [source, hhead]
  | block =>
    refine (body_stops (hbelow (by omega))).mono fun q hbody => ?_
    obtain ⟨body, endKey, hwithin, hending, hq⟩ := hbody
    refine ⟨.block key header body endKey .done, ?_, ?_⟩
    · exact fun context after => .block hheads hinside hwithin hending (.done context after)
    · simp [source, hhead, hq]

end InTag

theorem markupBelow (d : Delimiters) (n : Nat) : MarkupBelow d n := by
  induction n with
  | zero => exact fun p _ _ hlt => absurd hlt (Nat.not_lt_zero _)
  | succ n ih =>
  intro p context depth hlt
  have hbelow : MarkupBelow d p.rest.length := fun q context depth hq =>
    ih q context depth (by omega)
  let Read (q : Point) : Prop := ∃ m, Valid d context q.rest m ∧ p.rest = m.source d ++ q.rest
  have hdone : (Reading.here p).Stops Read := .here ⟨.done, .done _ _, rfl⟩
  -- whatever is read here, the markup that is read behind it follows
  have hmore {r : Reading p.rest.length} (hr : r.Stops Read) :
      (r.andThen fun q _ => many d context depth q).loose.Stops Read := by
    refine .loose (hr.andThen fun q hq hread => ?_)
    obtain ⟨m, hvalid, hp⟩ := hread
    refine (hbelow q context depth hq).mono fun q' hrest => ?_
    obtain ⟨m', hvalid', hq'⟩ := hrest
    rw [hq'] at hvalid
    exact ⟨m ++ m', hvalid.append hvalid', by simp [hp, hq']⟩
  have htag {kind : TagKind} {h : d.openerOf kind <+: p.rest}
      (hblock : kind = .inline → ¬ d.blockOpener <+: p.rest) (hclose : ¬ d.blockCloser <+: p.rest) :
      (tag d kind (depth + 1) p h).Stops Read := by
    refine (tag_stops hblock hclose hbelow).mono fun q hread => ?_
    obtain ⟨m, hm, hp⟩ := hread
    exact ⟨m, hm context q.rest, hp⟩
  have hsep (level : Level) {kind : TokenKind} {h : d.sepOf level <+: p.rest}
      {ne : d.sepOf level ≠ []} (hc : context = .values) :
      (token kind depth (d.sepOf level) p h ne).Stops Read := by
    refine token_stops.mono fun q hp => ⟨.sep level .done, ?_, by simp [source, hp]⟩
    subst hc
    exact .sep level (.done _ _)
  rw [many]
  split
  · exact hdone
  next hclose =>
  split
  · exact hmore (htag (fun hkind => by cases hkind) hclose)
  next hblock =>
  split
  · exact hmore (htag (fun _ => hblock) hclose)
  split
  · next h => exact hmore (hsep .group h.1)
  split
  · next h => exact hmore (hsep .value h.1)
  simp only
  split
  · next hlexeme =>
    refine hmore (token_stops.mono fun q hp => ⟨.text _ .done, ?_, by simpa [source] using hp⟩)
    refine .text hlexeme ?_ (.done _ _)
    have hends := Text.Until.of_splitBefore (context.marks d) p.rest
    have hrest : (Text.splitBefore (context.marks d) p.rest).2 = q.rest := by
      have hsplit := Text.splitBefore_append (context.marks d) p.rest
      exact List.append_cancel_left (hsplit.trans hp)
    rwa [hrest] at hends
  · exact hdone

end Descent

/-- A text that can be read is the text of valid markup, and its tokens are those of the markup. -/
theorem Markup.exists_of_tokenize {d : Delimiters} {t : Text} {tokens : List Token}
    (h : tokenize d t = .ok tokens) :
    ∃ m, Valid d .free [] m ∧ m.source d = t ∧ m.tokens d 0 0 = tokens := by
  have hread := Descent.tokenize_eq_ok.1 h
  have hstops := Descent.markupBelow d (t.length + 1) ⟨0, t⟩ .free 0 (Nat.lt_succ_self _)
  have hstop := congrArg Prod.snd hread
  unfold Descent.ofText at hstop
  generalize Descent.many d .free 0 ⟨0, t⟩ = r at hstop hstops
  obtain ⟨tokens', e | ⟨q, hq⟩⟩ := r
  · cases hstop
  · obtain ⟨m, hvalid, ht⟩ := hstops q hq rfl
    have hrest : q.rest = [] := by
      by_cases hr : q.rest = []
      · exact hr
      · simp [hr] at hstop
    rw [hrest] at hvalid ht
    have hsource : m.source d = t := by simpa using ht.symm
    have htokens := hvalid.tokenize
    rw [hsource, h] at htokens
    exact ⟨m, hvalid, hsource, (Except.ok.inj htokens).symm⟩

end TagMarkup
