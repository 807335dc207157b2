import TagMarkup.Proofs.Lexing.Move

/-! From the opener of a tag to the closer that ends it. The depth of a token says which tags it
stands in, so the tokens alone show which closer ends a tag: the next one of the tag's own depth
behind its opener, and for a block tag behind its block close. -/

namespace TagMarkup

/-- The tokens stand in at least `depth` tags, and none that stands in just as many is of the
kind. -/
def Lack (kind : TokenKind) (depth : Nat) (tokens : List Token) : Prop :=
  ∀ token ∈ tokens, depth ≤ token.depth ∧ (token.depth = depth → token.kind ≠ kind)

/-- Behind the opener of a tag of the kind, whose own tokens stand in `depth` tags, there are the
tokens `inside`, and then `closer` ends the tag. -/
inductive ClosedBy (depth : Nat) : TagKind → List Token → Token → Prop
  | inline {inside : List Token} {closer : Token} (lack : Lack .close depth inside)
    (closes : closer.kind = .close) (level : closer.depth = depth) :
    ClosedBy depth .inline inside closer
  | block {front ending : List Token} {blockCloser closer : Token}
    (lack : Lack .blockClose depth front) (closesBody : blockCloser.kind = .blockClose)
    (bodyLevel : blockCloser.depth = depth) (lackEnd : Lack .close depth ending)
    (closes : closer.kind = .close) (level : closer.depth = depth) :
    ClosedBy depth .block (front ++ blockCloser :: ending) closer

/-- The tag begins with the opener and ends with the closer with which the tokens behind end it. -/
structure Tag.Spans (tag : Tag) (opener : Token) (behind : List Token) : Prop where
  kind : opener.kind = Cursor.openToken tag.kind
  start : tag.start = opener.start
  ends : ∃ inside closer rest, behind = inside ++ closer :: rest ∧
    ClosedBy opener.depth tag.kind inside closer ∧ tag.stop = closer.stop

/-- The tokens are those of a tag that stands in no other one, from its opener to its closer. -/
inductive WholeTag : List Token → Prop
  | intro {opener closer : Token} {inside : List Token} (kind : TagKind)
    (opens : opener.kind = Cursor.openToken kind) (level : opener.depth = 1)
    (ends : ClosedBy 1 kind inside closer) : WholeTag (opener :: (inside ++ [closer]))

/-- The first of the tokens that is not one of the tag that they begin with. -/
inductive FirstOutside : List Token → Token → Prop
  | front {token : Token} (noTag : token.kind.isOpen = false) (after : List Token) :
    FirstOutside (token :: after) token
  | behind {tag : List Token} (whole : WholeTag tag) (token : Token) (after : List Token) :
    FirstOutside (tag ++ token :: after) token

namespace Lack

variable {kind : TokenKind} {depth : Nat} {ts us vs ws : List Token} {token other : Token}

theorem nil : Lack kind depth [] := fun _ h => by cases h

theorem append (h : Lack kind depth ts) (h' : Lack kind depth us) : Lack kind depth (ts ++ us) := by
  intro token htoken
  rcases List.mem_append.1 htoken with htoken | htoken
  · exact h token htoken
  · exact h' token htoken

theorem cons (level : depth ≤ token.depth) (hk : token.depth = depth → token.kind ≠ kind)
    (h : Lack kind depth ts) : Lack kind depth (token :: ts) := by
  intro other hother
  rcases List.mem_cons.1 hother with rfl | hother
  · exact ⟨level, hk⟩
  · exact h other hother

theorem concat (h : Lack kind depth ts) (level : depth ≤ token.depth)
    (hk : token.depth = depth → token.kind ≠ kind) : Lack kind depth (ts ++ [token]) :=
  h.append (.cons level hk .nil)

/-- The first token of the kind and the depth is the only one that the tokens before it lack. -/
theorem split_unique (hts : Lack kind depth ts) (hus : Lack kind depth us)
    (ht : token.kind = kind ∧ token.depth = depth) (ho : other.kind = kind ∧ other.depth = depth)
    (h : ts ++ token :: vs = us ++ other :: ws) : ts = us ∧ token = other ∧ vs = ws := by
  induction ts generalizing us with
  | nil =>
    cases us with
    | nil =>
      obtain ⟨htoken, hrest⟩ := List.cons.inj h
      exact ⟨rfl, htoken, hrest⟩
    | cons first us =>
      obtain ⟨rfl, -⟩ := List.cons.inj h
      exact absurd ht.1 ((hus token List.mem_cons_self).2 ht.2)
  | cons first ts ih =>
    cases us with
    | nil =>
      obtain ⟨rfl, -⟩ := List.cons.inj h
      exact absurd ho.1 ((hts first List.mem_cons_self).2 ho.2)
    | cons first' us =>
      obtain ⟨rfl, hrest⟩ := List.cons.inj h
      obtain ⟨rfl, htoken, hmore⟩ := ih (fun t hmem => hts t (List.mem_cons_of_mem _ hmem))
        (fun t hmem => hus t (List.mem_cons_of_mem _ hmem)) hrest
      exact ⟨rfl, htoken, hmore⟩

end Lack

/-- Only one closer ends a tag. -/
theorem ClosedBy.unique {depth : Nat} {kind : TagKind} {inside inside' rest rest' : List Token}
    {closer closer' : Token} (h : ClosedBy depth kind inside closer)
    (h' : ClosedBy depth kind inside' closer')
    (heq : inside ++ closer :: rest = inside' ++ closer' :: rest') :
    inside = inside' ∧ closer = closer' ∧ rest = rest' := by
  cases h with
  | inline lack closes level =>
    cases h' with
    | inline lack' closes' level' =>
      exact lack.split_unique lack' ⟨closes, level⟩ ⟨closes', level'⟩ heq
  | block lack closesBody bodyLevel lackEnd closes level =>
    cases h' with
    | block lack' closesBody' bodyLevel' lackEnd' closes' level' =>
      simp only [List.append_assoc, List.cons_append] at heq
      obtain ⟨rfl, rfl, hending⟩ :=
        lack.split_unique lack' ⟨closesBody, bodyLevel⟩ ⟨closesBody', bodyLevel'⟩ heq
      obtain ⟨rfl, hcloser, hrest⟩ :=
        lackEnd.split_unique lackEnd' ⟨closes, level⟩ ⟨closes', level'⟩ hending
      exact ⟨rfl, hcloser, hrest⟩

theorem Cursor.openToken_inj {kind kind' : TagKind}
    (h : Cursor.openToken kind = Cursor.openToken kind') : kind = kind' := by
  cases kind <;> cases kind' <;> first | rfl | cases h

theorem Cursor.isOpen_openToken (kind : TagKind) : (Cursor.openToken kind).isOpen = true := by
  cases kind <;> rfl

/-- A tag and what follows it begin with no other tag. -/
theorem WholeTag.unique {ts us rest rest' : List Token} (h : WholeTag ts) (h' : WholeTag us)
    (heq : ts ++ rest = us ++ rest') : ts = us ∧ rest = rest' := by
  cases h with
  | intro kind opens level ends =>
    cases h' with
    | intro kind' opens' level' ends' =>
      simp only [List.cons_append, List.append_assoc, List.cons.injEq] at heq
      obtain ⟨rfl, hbehind⟩ := heq
      obtain rfl := Cursor.openToken_inj (opens.symm.trans opens')
      obtain ⟨rfl, rfl, hrest⟩ := ends.unique ends' hbehind
      exact ⟨rfl, hrest⟩

theorem FirstOutside.unique {tokens : List Token} {token other : Token}
    (h : FirstOutside tokens token) (h' : FirstOutside tokens other) : token = other := by
  have hopen {tag after rest : List Token} {first : Token} (whole : WholeTag tag)
      (heq : tag ++ after = first :: rest) : first.kind.isOpen = true := by
    cases whole with
    | intro kind opens =>
      obtain ⟨rfl, -⟩ := List.cons.inj heq
      rw [opens, Cursor.isOpen_openToken]
  generalize htokens : tokens = ts at h'
  cases h with
  | front noTag after =>
    cases h' with
    | front noTag' after' => exact (List.cons.inj htokens).1
    | behind whole' _ after' =>
      rw [hopen whole' htokens.symm] at noTag
      cases noTag
  | behind whole _ after =>
    cases h' with
    | front noTag' after' =>
      rw [hopen whole htokens] at noTag'
      cases noTag'
    | behind whole' _ after' => exact (List.cons.inj (whole.unique whole' htokens).2).1

theorem Tag.Spans.append {tag : Tag} {opener : Token} {behind : List Token}
    (h : tag.Spans opener behind) (more : List Token) : tag.Spans opener (behind ++ more) := by
  obtain ⟨inside, closer, rest, hbehind, hends, hstop⟩ := h.ends
  refine ⟨h.kind, h.start, inside, closer, rest ++ more, ?_, hends, hstop⟩
  rw [hbehind, List.append_assoc, List.cons_append]

end TagMarkup
