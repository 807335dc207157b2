import TagMarkup.Fragments
import TagMarkup.Proofs.Markup.Locality
import TagMarkup.Proofs.Text.Boundary

/-! The text of valid markup in parts. Where no tag is cut, each part is the text of valid markup of
its own, and the tags of the parts are those of the whole (`exists_parts`). -/

namespace TagMarkup

namespace Markup

variable {d : Delimiters} {context context' : Context} {after after' a b : Text} {m one : Markup}
  {position : Nat}

theorem IsTag.valid (h : one.IsTag) (hvalid : Valid d context after one) :
    Valid d context' after' one := by
  cases h with
  | inline key header =>
    cases hvalid with
    | inline heads inside _ => exact .inline heads inside (.done _ _)
  | block key header body endKey =>
    cases hvalid with
    | block heads inside within ending _ => exact .block heads inside within ending (.done _ _)

theorem IsTag.opener_begins (h : one.IsTag) : d.opener <+: one.source d := by
  cases h with
  | inline key header => simp [source, Delimiters.head, Delimiters.openerOf]
  | block key header body endKey =>
    simp [source, Delimiters.head, Delimiters.openerOf, Delimiters.blockOpener]

theorem IsTag.tags_eq (h : one.IsTag) (position : Nat) : ∃ tag inside,
    one.tags d position = .tree tag inside ∧ tag.start = position ∧
      tag.stop = position + (one.source d).bytes := by
  cases h with
  | inline key header => exact ⟨_, _, rfl, rfl, (IsTag.inline key header).stop_eq rfl⟩
  | block key header body endKey =>
    exact ⟨_, _, rfl, rfl, (IsTag.block key header body endKey).stop_eq rfl⟩

/-- In free text a text stands in front of the rest, or a tag. -/
@[elab_as_elim] theorem Valid.free_induction {motive : Markup → Prop} (h : Valid d .free after m)
    (done : motive .done)
    (text : ∀ (t : Text) (rest : Markup), t ≠ [] →
      Text.Until [d.opener] t (rest.source d ++ after) → Valid d .free after rest →
      motive rest → motive (.text t rest))
    (tag : ∀ one rest, one.IsTag → Valid d .free [] one → Valid d .free after rest →
      motive rest → motive (one ++ rest)) : motive m := by
  generalize hc : Context.free = context at h
  induction h with
  | done => exact done
  | text nonempty ends behind ih =>
    subst hc
    exact text _ _ nonempty ends behind (ih text tag rfl)
  | sep => cases hc
  | @inline _ _ key header rest heads inside behind _ ih =>
    subst hc
    exact tag (.inline key header .done) rest (.inline key header)
      (.inline heads inside (.done _ _)) behind (ih text tag rfl)
  | @block _ _ key endKey header body rest heads inside within ending behind _ _ ih =>
    subst hc
    exact tag (.block key header body endKey .done) rest (.block key header body endKey)
      (.block heads inside within ending (.done _ _)) behind (ih text tag rfl)

/-- Free text in which no tag opens is valid markup. -/
theorem exists_of_until {t : Text} (h : Text.Until [d.opener] t []) :
    ∃ m, Valid d .free [] m ∧ m.source d = t ∧ ∀ position, m.tags d position = .nil := by
  by_cases ht : t = []
  · exact ⟨.done, .done _ _, ht.symm, fun _ => rfl⟩
  · exact ⟨.text t .done, .text ht h (.done _ _), by simp [source], fun _ => rfl⟩

/-- Valid markup in two parts, when the text of the first one is `a`. -/
structure Cut (d : Delimiters) (position : Nat) (m : Markup) (a b : Text) (front back : Markup) :
    Prop where
  front_valid : Valid d .free [] front
  back_valid : Valid d .free [] back
  front_source : front.source d = a
  back_source : back.source d = b
  tags : m.tags d position = front.tags d position ++ back.tags d (position + a.bytes)

theorem Cut.start (h : Valid d .free [] m) (position : Nat) :
    Cut d position m [] (m.source d) .done m :=
  ⟨.done _ _, h, rfl, rfl, rfl⟩

section Cuts

variable {t : Text} {rest front back : Markup}

theorem Cut.behind_text (h : Cut d (position + t.bytes) rest a b front back) (nonempty : t ≠ [])
    (ends : Text.Until [d.opener] t a) :
    Cut d position (.text t rest) (t ++ a) b (.text t front) back := by
  refine ⟨.text nonempty ?_ h.front_valid, h.back_valid, ?_, h.back_source, ?_⟩
  · rwa [h.front_source, List.append_nil]
  · rw [source, h.front_source]
  · simpa [Markup.tags, Nat.add_assoc] using h.tags

theorem Cut.in_text (nonempty : t ≠ [])
    (ends : Text.Until [d.opener] (a ++ t) (rest.source d)) (behind : Valid d .free [] rest)
    (position : Nat) :
    ∃ front, Cut d position (.text (a ++ t) rest) a (t ++ rest.source d) front (.text t rest) := by
  obtain ⟨front, hvalid, hsource, htags⟩ := exists_of_until ends.front
  refine ⟨front, hvalid, .text nonempty ?_ behind, hsource, rfl, ?_⟩
  · rw [List.append_nil]
    exact ends.back
  · simp [Markup.tags, htags, Nat.add_assoc]

theorem Cut.behind_tag (h : Cut d (position + (one.source d).bytes) rest a b front back)
    (hone : one.IsTag) (hvalid : Valid d .free [] one) :
    Cut d position (one ++ rest) (one.source d ++ a) b (one ++ front) back := by
  refine ⟨(hone.valid hvalid).append h.front_valid, h.back_valid, ?_, h.back_source, ?_⟩
  · rw [source_append, h.front_source]
  · rw [tags_append, tags_append, h.tags, Forest.append_assoc, Text.bytes_append, Nat.add_assoc]

end Cuts

/-- Where valid markup is cut but none of its tags, it is in two parts. If it begins with a tag,
then so does the first part, unless there is nothing in it. -/
theorem Valid.exists_cut (h : Valid d .free [] m) (b : Text) :
    ∀ (a : Text) (position : Nat), m.source d = a ++ b →
      (∀ tag ∈ (m.tags d position).toList,
        ¬ (tag.start < position + a.bytes ∧ position + a.bytes < tag.stop)) →
      (∃ front back, Cut d position m a b front back) ∧
        (d.opener <+: m.source d → a = [] ∨ d.opener <+: a) := by
  refine h.free_induction ?done ?text ?tag
  case done =>
    intro a position hab _
    obtain ⟨rfl, rfl⟩ := List.append_eq_nil_iff.1 hab.symm
    exact ⟨⟨_, _, .start (.done _ _) position⟩, fun _ => .inl rfl⟩
  case text =>
    intro t rest nonempty ends behind ih a position hab hcross
    rw [List.append_nil] at ends
    have hfirst : ¬ d.opener <+: source d (.text t rest) :=
      ends.clear [] t rfl nonempty d.opener (List.mem_singleton_self _)
    refine ⟨?_, fun h => absurd h hfirst⟩
    rw [source] at hab
    by_cases hle : t.bytes ≤ a.bytes
    · -- the cut is behind the text, and a tag that ends the text is behind the cut or not cut
      obtain ⟨a', rfl, hrest⟩ := Text.exists_append_of_le hab hle
      obtain ⟨⟨front, back, hcut⟩, hopen⟩ := ih a' (position + t.bytes) hrest
        (by simpa [tags, Nat.add_assoc] using hcross)
      have ends' : Text.Until [d.opener] t a' := by
        rw [hrest] at ends hopen
        refine ends.cut fun mark hm hp => ?_
        rw [List.mem_singleton.1 hm] at hp ⊢
        exact hopen hp
      exact ⟨_, _, hcut.behind_text nonempty ends'⟩
    · -- the cut is in the text
      obtain ⟨t', rfl, rfl⟩ := Text.exists_append_of_le hab.symm (by omega)
      have ht' : t' ≠ [] := by
        rintro rfl
        simp at hle
      obtain ⟨front, hcut⟩ := Cut.in_text ht' ends behind position
      exact ⟨_, _, hcut⟩
  case tag =>
    intro one rest hone hvalid behind ih a position hab hcross
    obtain ⟨tag, inside, htags, hstart, hstop⟩ := hone.tags_eq (d := d) position
    have hopen : d.opener <+: one.source d := hone.opener_begins
    by_cases ha : a = []
    · subst ha
      obtain rfl : (one ++ rest).source d = b := hab
      exact ⟨⟨_, _, .start ((hone.valid hvalid).append behind) position⟩, fun _ => .inl rfl⟩
    · -- the tag is not cut, so the cut is behind it
      have hle : (one.source d).bytes ≤ a.bytes := by
        have hpos := Text.bytes_pos.2 ha
        have := hcross tag (by simp [tags_append, htags, Forest.tree, Forest.toList])
        omega
      rw [source_append] at hab
      obtain ⟨a', rfl, hrest⟩ := Text.exists_append_of_le hab hle
      obtain ⟨⟨front, back, hcut⟩, -⟩ := ih a' (position + (one.source d).bytes) hrest (by
        intro tag htag
        have := hcross tag (by rw [tags_append]; simp [htag])
        simpa [Nat.add_assoc] using this)
      exact ⟨⟨_, _, hcut.behind_tag hone hvalid⟩,
        fun _ => .inr (hopen.trans (List.prefix_append _ _))⟩

/-- The tags of markup in parts, the first of which stands at a position. -/
def tagsOfParts (d : Delimiters) : Nat → List Markup → Forest Tag
  | _, [] => .nil
  | position, m :: ms =>
    m.tags d position ++ tagsOfParts d (position + (m.source d).bytes) ms

/-- Where none of its tags crosses a boundary, valid markup is in parts that have the texts between
the boundaries. -/
theorem Valid.exists_parts (h : Valid d .free [] m) (f : Text) (fs : List Text) (position : Nat)
    (hsource : m.source d = (f :: fs).flatten)
    (hcross : ∀ tag ∈ (m.tags d position).toList, ∀ n ∈ Fragments.boundaries position (f :: fs),
      ¬ (tag.start < n ∧ n < tag.stop)) :
    ∃ ms : List Markup, (∀ m ∈ ms, Valid d .free [] m) ∧ ms.map (source d) = f :: fs ∧
      m.tags d position = tagsOfParts d position ms := by
  induction fs generalizing f m position with
  | nil => exact ⟨[m], by simpa using h, by simpa using hsource, by simp [tagsOfParts]⟩
  | cons g fs ih =>
    obtain ⟨⟨front, back, hcut⟩, -⟩ := h.exists_cut (g :: fs).flatten f position
      (by simpa using hsource) fun tag htag => hcross tag htag _ (by simp [Fragments.boundaries])
    have hback : ∀ tag ∈ (back.tags d (position + f.bytes)).toList,
        ∀ n ∈ Fragments.boundaries (position + f.bytes) (g :: fs),
          ¬ (tag.start < n ∧ n < tag.stop) := by
      intro tag htag n hn
      refine hcross tag ?_ n (List.mem_cons_of_mem _ hn)
      rw [hcut.tags, Forest.toList_append]
      exact List.mem_append_right _ htag
    obtain ⟨ms, hvalid, hsources, htags⟩ := ih hcut.back_valid g (position + f.bytes)
      hcut.back_source hback
    refine ⟨front :: ms, ?_, by rw [List.map_cons, hcut.front_source, hsources], ?_⟩
    · intro one hone
      rcases List.mem_cons.1 hone with rfl | hone
      · exact hcut.front_valid
      · exact hvalid one hone
    · rw [hcut.tags, htags, tagsOfParts, hcut.front_source]

end Markup

end TagMarkup
