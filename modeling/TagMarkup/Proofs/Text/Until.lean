import TagMarkup.Text.Search

/-! A text that goes on to the next mark. This is what `splitBefore` splits off, and the property is
kept where the text is cut. -/

namespace TagMarkup.Text

/-- The text `t` goes on to the first place where one of `marks` begins, and `s` is what follows. -/
structure Until (marks : List Text) (t s : Text) : Prop where
  clear : ∀ a b, t = a ++ b → b ≠ [] → ∀ m ∈ marks, ¬ m <+: b ++ s
  ended : s = [] ∨ ∃ m ∈ marks, m <+: s

namespace Until

variable {marks : List Text} {a b s t more : Text}

theorem splitBefore_eq (h : Until marks t s) : splitBefore marks (t ++ s) = (t, s) := by
  obtain ⟨hclear, hended⟩ := h
  induction t with
  | nil =>
    rcases hended with rfl | hm
    · rfl
    · cases s with
      | nil => rfl
      | cons c s => rw [List.nil_append, splitBefore, if_pos (beginsAny_eq_true.2 hm)]
  | cons c t ih =>
    have hnone : ¬ beginsAny marks (c :: (t ++ s)) = true := by
      rw [beginsAny_eq_true]
      rintro ⟨m, hm, hp⟩
      exact hclear [] (c :: t) rfl (by simp) m hm hp
    have hrest := ih fun a b hab => hclear (c :: a) b (by rw [hab]; rfl)
    rw [List.cons_append, splitBefore, if_neg hnone, hrest]

theorem of_splitBefore (marks : List Text) (t : Text) :
    Until marks (splitBefore marks t).1 (splitBefore marks t).2 := by
  constructor
  case clear =>
    intro a b hab hb m hm hp
    have hnone := not_beginsAny_of_splitBefore hab hb
    rw [beginsAny_eq_true.2 ⟨m, hm, hp⟩] at hnone
    cases hnone
  case ended =>
    by_cases hs : (splitBefore marks t).2 = []
    · exact .inl hs
    · exact .inr (beginsAny_eq_true.1 (beginsAny_splitBefore hs))

theorem append (ht : ∀ a b, t = a ++ b → b ≠ [] → ∀ m ∈ marks, ¬ m <+: b ++ (s ++ more))
    (hs : Until marks s more) : Until marks (t ++ s) more := by
  refine ⟨fun a b hab hb m hm => ?_, hs.ended⟩
  rcases List.append_eq_append_iff.1 hab with ⟨a', rfl, rfl⟩ | ⟨b', rfl, rfl⟩
  · exact hs.clear a' b rfl hb m hm
  · by_cases hb' : b' = []
    · subst hb'
      exact hs.clear [] s rfl hb m hm
    · rw [List.append_assoc]
      exact ht a b' rfl hb' m hm

theorem front (h : Until marks (a ++ b) s) : Until marks a [] := by
  refine ⟨fun x y hxy hy m hm hp => ?_, .inl rfl⟩
  refine h.clear x (y ++ b) (by simp [hxy]) (by simp [hy]) m hm (hp.trans ?_)
  simp

theorem back (h : Until marks (a ++ b) s) : Until marks b s := by
  refine ⟨fun x y hxy hy m hm => ?_, h.ended⟩
  exact h.clear (a ++ x) y (by simp [hxy]) hy m hm

/-- No mark begins in the text if only a part of what follows is left. -/
theorem clear_of_append (h : Until marks t (s ++ b)) {x y m : Text} (hxy : t = x ++ y)
    (hy : y ≠ []) (hm : m ∈ marks) : ¬ m <+: y ++ s := by
  intro hp
  refine h.clear x y hxy hy m hm (hp.trans ?_)
  rw [← List.append_assoc]
  exact List.prefix_append _ _

/-- Less may follow, if the mark that follows is not cut. -/
theorem cut (h : Until marks t (a ++ b)) (hm : ∀ m ∈ marks, m <+: a ++ b → a = [] ∨ m <+: a) :
    Until marks t a := by
  constructor
  · intro x y hxy hy m hmem
    exact h.clear_of_append hxy hy hmem
  · rcases h.ended with hnil | ⟨m, hmem, hp⟩
    · exact .inl (List.append_eq_nil_iff.1 hnil).1
    · rcases hm m hmem hp with hnil | hp
      · exact .inl hnil
      · exact .inr ⟨m, hmem, hp⟩

end Until

/-- No mark begins in front of a text that goes on to the next one. -/
theorem not_begins_of_splitBefore {marks : List Text} {t m : Text}
    (h : (splitBefore marks t).1 ≠ []) (hm : m ∈ marks) : ¬ m <+: t := by
  have hclear := (Until.of_splitBefore marks t).clear [] _ rfl h m hm
  rwa [splitBefore_append] at hclear

/-- Where there is no text in front of the next mark, that mark begins. -/
theorem exists_begins_of_splitBefore {marks : List Text} {t : Text}
    (h : (splitBefore marks t).1 = []) (ht : t ≠ []) : ∃ m ∈ marks, m <+: t := by
  have hended := (Until.of_splitBefore marks t).ended
  have hsplit := splitBefore_append marks t
  rw [h, List.nil_append] at hsplit
  rw [hsplit] at hended
  exact hended.resolve_left ht

end TagMarkup.Text
