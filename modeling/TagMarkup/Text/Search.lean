import TagMarkup.Text

/-! Where one text begins inside another. `splitBefore` finds the longest beginning of a text in
which no mark begins: nothing is lost, no mark begins in the part before the split, and one begins
right after it unless the text is used up. -/

namespace TagMarkup.Text

/-- Some mark begins at the front of the text. -/
def beginsAny (marks : List Text) (t : Text) : Bool := marks.any (·.isPrefixOf t)

theorem beginsAny_eq_true {marks : List Text} {t : Text} :
    beginsAny marks t = true ↔ ∃ m ∈ marks, m <+: t := by
  simp [beginsAny]

/-- The text split before the first place where a mark begins. -/
def splitBefore (marks : List Text) : Text → Text × Text
  | [] => ([], [])
  | c :: rest =>
    if beginsAny marks (c :: rest) then ([], c :: rest)
    else (c :: (splitBefore marks rest).1, (splitBefore marks rest).2)

theorem splitBefore_append (marks : List Text) (t : Text) :
    (splitBefore marks t).1 ++ (splitBefore marks t).2 = t := by
  fun_induction splitBefore marks t with
  | case1 => rfl
  | case2 => rfl
  | case3 c rest _ ih => simp [ih]

/-- No mark begins before the split. -/
theorem not_beginsAny_of_splitBefore {marks : List Text} {t a b : Text}
    (h : (splitBefore marks t).1 = a ++ b) (hb : b ≠ []) :
    beginsAny marks (b ++ (splitBefore marks t).2) = false := by
  fun_induction splitBefore marks t generalizing a with
  | case1 => simp_all
  | case2 => simp_all
  | case3 c rest hc ih =>
    cases a with
    | nil =>
      rw [List.nil_append] at h
      rw [← h, List.cons_append, splitBefore_append]
      simpa using hc
    | cons x a =>
      simp only [List.cons_append, List.cons.injEq] at h
      exact ih h.2

/-- A mark begins at the split unless the text has been used up. -/
theorem beginsAny_splitBefore {marks : List Text} {t : Text}
    (h : (splitBefore marks t).2 ≠ []) : beginsAny marks (splitBefore marks t).2 = true := by
  fun_induction splitBefore marks t with
  | case1 => simp at h
  | case2 c rest hc => exact hc
  | case3 c rest _ ih => exact ih h

/-- The first text occurs somewhere in the second. -/
def occursIn (s : Text) : Text → Bool
  | [] => s.isEmpty
  | c :: rest => s.isPrefixOf (c :: rest) || occursIn s rest

theorem occursIn_iff {s t : Text} : occursIn s t = true ↔ s <:+: t := by
  induction t with
  | nil => simp [occursIn]
  | cons c rest ih =>
    simp [occursIn, ih, List.infix_cons_iff]

/-- A text that occurs in one that is not longer is that text. -/
theorem eq_of_infix {s t : Text} (h : s <:+: t) (hb : bytes t ≤ bytes s) : s = t := by
  obtain ⟨a, b, rfl⟩ := h
  simp only [bytes_append] at hb
  have ha : a = [] := bytes_eq_zero.1 (by omega)
  have hb : b = [] := bytes_eq_zero.1 (by omega)
  simp [ha, hb]

end TagMarkup.Text
