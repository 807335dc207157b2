/-! Text as a list of characters, measured in the bytes of its UTF-8 form. A byte offset cuts a
text only where a character begins: `cut?`, `slice?` and `replace?` refuse every other offset, and
the lemmas after each of them say exactly which parts of the text they give. -/

namespace TagMarkup

abbrev Text := List Char

namespace Text

/-- The length of the UTF-8 form. -/
def bytes : Text → Nat
  | [] => 0
  | c :: rest => c.utf8Size + bytes rest

@[simp] theorem bytes_nil : bytes [] = 0 := rfl

@[simp] theorem bytes_cons (c : Char) (t : Text) : bytes (c :: t) = c.utf8Size + bytes t := rfl

@[simp] theorem bytes_append (s t : Text) : bytes (s ++ t) = bytes s + bytes t := by
  induction s with
  | nil => simp
  | cons c s ih => simp [ih, Nat.add_assoc]

theorem bytes_eq_zero {t : Text} : bytes t = 0 ↔ t = [] := by
  cases t with
  | nil => simp
  | cons c t => simp [Nat.ne_of_gt (Char.utf8Size_pos c)]

theorem bytes_pos {t : Text} : 0 < bytes t ↔ t ≠ [] := by
  rw [Nat.pos_iff_ne_zero, Ne, bytes_eq_zero]

/-- The text before and after byte offset `n`, when a character begins there or the text ends. -/
def cut? : Text → Nat → Option (Text × Text)
  | t, 0 => some ([], t)
  | [], _ + 1 => none
  | c :: rest, n + 1 =>
    if c.utf8Size ≤ n + 1 then
      (cut? rest (n + 1 - c.utf8Size)).map fun (before, after) => (c :: before, after)
    else none

theorem cut?_append (a b : Text) : cut? (a ++ b) a.bytes = some (a, b) := by
  induction a with
  | nil => simp [cut?]
  | cons c a ih =>
    have hc := Char.utf8Size_pos c
    obtain ⟨n, hn⟩ : ∃ n, c.utf8Size + bytes a = n + 1 := ⟨c.utf8Size + bytes a - 1, by omega⟩
    simp only [List.cons_append, bytes_cons, hn, cut?]
    rw [if_pos (by omega), ← hn, Nat.add_sub_cancel_left, ih]
    rfl

theorem cut?_eq_some {t a b : Text} {n : Nat} :
    cut? t n = some (a, b) ↔ t = a ++ b ∧ a.bytes = n := by
  refine ⟨fun h => ?_, fun ⟨ht, hn⟩ => by rw [ht, ← hn, cut?_append]⟩
  fun_induction cut? t n generalizing a with
  | case1 t => simp_all
  | case2 => simp at h
  | case3 c rest n hc ih =>
    obtain ⟨⟨x, y⟩, hxy, he⟩ := Option.map_eq_some_iff.1 h
    simp only [Prod.mk.injEq] at he
    obtain ⟨rfl, rfl⟩ := he
    obtain ⟨rfl, hn⟩ := ih hxy
    exact ⟨rfl, by simp only [bytes_cons, hn]; omega⟩
  | case4 => simp at h

/-- The text from byte offset `start` up to `stop`, when both cut it and are in order. -/
def slice? (t : Text) (start stop : Nat) : Option Text :=
  if start ≤ stop then
    (t.cut? start).bind fun (_, rest) => (rest.cut? (stop - start)).map Prod.fst
  else none

theorem slice?_eq_some {t m : Text} {start stop : Nat} :
    t.slice? start stop = some m ↔
      ∃ a b, t = a ++ (m ++ b) ∧ a.bytes = start ∧ a.bytes + m.bytes = stop := by
  constructor
  · intro h
    unfold slice? at h
    split at h
    · obtain ⟨⟨a, rest⟩, ha, h⟩ := Option.bind_eq_some_iff.1 h
      obtain ⟨⟨x, b⟩, hm, rfl⟩ := Option.map_eq_some_iff.1 h
      obtain ⟨rfl, rfl⟩ := cut?_eq_some.1 ha
      obtain ⟨rfl, hx⟩ := cut?_eq_some.1 hm
      exact ⟨a, b, rfl, rfl, by simp only [hx]; omega⟩
    · simp at h
  · rintro ⟨a, b, rfl, rfl, rfl⟩
    rw [slice?, if_pos (Nat.le_add_right _ _), cut?_append, Nat.add_sub_cancel_left,
      Option.bind_some]
    simp only [cut?_append, Option.map_some]

/-- The text from `start` up to `stop`, empty when these offsets do not cut it. -/
def slice (t : Text) (start stop : Nat) : Text := (t.slice? start stop).getD []

theorem slice_append (a m b : Text) :
    slice (a ++ (m ++ b)) a.bytes (a.bytes + m.bytes) = m := by
  rw [slice, slice?_eq_some.2 ⟨a, b, rfl, rfl, rfl⟩, Option.getD_some]

/-- The text with the part from `start` up to `stop` replaced by `new`. -/
def replace? (t : Text) (start stop : Nat) (new : Text) : Option Text :=
  if start ≤ stop then
    (t.cut? start).bind fun (before, rest) =>
      (rest.cut? (stop - start)).map fun (_, after) => before ++ (new ++ after)
  else none

theorem replace?_append (a m b new : Text) :
    replace? (a ++ (m ++ b)) a.bytes (a.bytes + m.bytes) new = some (a ++ (new ++ b)) := by
  rw [replace?, if_pos (Nat.le_add_right _ _), cut?_append, Nat.add_sub_cancel_left,
    Option.bind_some]
  simp only [cut?_append, Option.map_some]

end Text

end TagMarkup
