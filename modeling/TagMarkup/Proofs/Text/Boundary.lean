import TagMarkup.Text

/-! The boundaries of a text: the byte offsets at which a character begins or the text ends. They
are the offsets at which the text can be cut, and those outside a part of the text stay boundaries
when that part is replaced. -/

namespace TagMarkup.Text

/-- The text can be cut at byte offset `n`. -/
def Boundary (t : Text) (n : Nat) : Prop := (t.cut? n).isSome = true

instance (t : Text) (n : Nat) : Decidable (t.Boundary n) :=
  inferInstanceAs (Decidable ((t.cut? n).isSome = true))

theorem boundary_iff {t : Text} {n : Nat} : t.Boundary n ↔ ∃ a b, t = a ++ b ∧ a.bytes = n := by
  constructor
  · intro h
    obtain ⟨⟨a, b⟩, hab⟩ := Option.isSome_iff_exists.1 h
    exact ⟨a, b, cut?_eq_some.1 hab⟩
  · rintro ⟨a, b, h⟩
    exact Option.isSome_iff_exists.2 ⟨(a, b), cut?_eq_some.2 h⟩

theorem boundary_append (a b : Text) : (a ++ b).Boundary a.bytes :=
  boundary_iff.2 ⟨a, b, rfl, rfl⟩

theorem Boundary.le_bytes {t : Text} {n : Nat} (h : t.Boundary n) : n ≤ t.bytes := by
  obtain ⟨a, b, rfl, rfl⟩ := boundary_iff.1 h
  simp

/-- Of two beginnings of one text, the shorter one is a beginning of the longer one. -/
theorem exists_append_of_le {a b c d : Text} (h : a ++ b = c ++ d) (hb : a.bytes ≤ c.bytes) :
    ∃ m, c = a ++ m ∧ b = m ++ d := by
  obtain ⟨m, hc, hbd⟩ | ⟨m, ha, hd⟩ := List.append_eq_append_iff.1 h
  · exact ⟨m, hc, hbd⟩
  · have hm : m = [] := by
      rw [ha, bytes_append] at hb
      exact bytes_eq_zero.1 (by omega)
    subst hm
    exact ⟨[], by simpa using ha.symm, by simpa using hd.symm⟩

/-- A boundary inside a part of the text cuts that part in two. -/
theorem Boundary.split {a m b : Text} {n : Nat} (h : (a ++ (m ++ b)).Boundary n)
    (hlo : a.bytes ≤ n) (hhi : n ≤ a.bytes + m.bytes) :
    ∃ x y, m = x ++ y ∧ n = a.bytes + x.bytes := by
  obtain ⟨c, d, hcd, rfl⟩ := boundary_iff.1 h
  obtain ⟨x, rfl, hx⟩ := exists_append_of_le hcd hlo
  rw [bytes_append] at hhi ⊢
  obtain ⟨y, rfl, -⟩ := exists_append_of_le hx.symm (by omega)
  exact ⟨x, y, rfl, rfl⟩

/-- Between two boundaries in order there is a part of the text. -/
theorem Boundary.exists_slice {t : Text} {start stop : Nat} (h : t.Boundary start)
    (h' : t.Boundary stop) (hle : start ≤ stop) : ∃ m, t.slice? start stop = some m := by
  obtain ⟨x, y, rfl, rfl⟩ := boundary_iff.1 h
  have hhi := h'.le_bytes
  rw [bytes_append] at hhi
  have hstop : (x ++ (y ++ [])).Boundary stop := by simpa using h'
  obtain ⟨m, z, rfl, rfl⟩ := hstop.split hle hhi
  exact ⟨m, slice?_eq_some.2 ⟨x, z, rfl, rfl, rfl⟩⟩

/-- A boundary before a part of the text stays one when the part is replaced. -/
theorem Boundary.before {a b c : Text} {n : Nat} (h : (a ++ b).Boundary n) (hn : n ≤ a.bytes) :
    (a ++ c).Boundary n := by
  obtain ⟨x, y, hxy, rfl⟩ := boundary_iff.1 h
  obtain ⟨m, rfl, -⟩ := exists_append_of_le hxy.symm hn
  exact boundary_iff.2 ⟨x, m ++ c, by simp, rfl⟩

/-- A boundary after a part of the text moves with the text behind that part. -/
theorem Boundary.after {a b c : Text} {n : Nat} (h : (a ++ b).Boundary n) (hn : a.bytes ≤ n) :
    (c ++ b).Boundary (c.bytes + (n - a.bytes)) := by
  obtain ⟨x, y, hxy, rfl⟩ := boundary_iff.1 h
  obtain ⟨m, rfl, rfl⟩ := exists_append_of_le hxy hn
  exact boundary_iff.2 ⟨c ++ m, y, by simp, by simp⟩

end TagMarkup.Text
