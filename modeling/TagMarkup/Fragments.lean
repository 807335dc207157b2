import TagMarkup.Text

/-! A text cut into fragments at boundaries: the offset 0, the end of every fragment, and so the
end of the text. The boundaries move along when a part of the text is replaced. -/

namespace TagMarkup.Fragments

/-- The boundaries of fragments of which the first begins at `position`. -/
def boundaries (position : Nat) : List Text → List Nat
  | [] => [position]
  | f :: rest => position :: boundaries (position + f.bytes) rest

/-- The parts of a text between neighbouring boundaries. -/
def cut (t : Text) : List Nat → List Text
  | a :: b :: rest => t.slice a b :: cut t (b :: rest)
  | _ => []

/-- Where a position ends up when the bytes from `start` to `stop` give way to `added` bytes. A
position inside the replaced part moves to the end of the new part. -/
def move (start stop added position : Nat) : Nat :=
  if position ≤ start then position
  else if stop ≤ position then position - (stop - start) + added
  else start + added

@[simp] theorem length_boundaries (position : Nat) (fs : List Text) :
    (boundaries position fs).length = fs.length + 1 := by
  induction fs generalizing position with
  | nil => rfl
  | cons f rest ih => simp [boundaries, ih]

theorem length_cut (t : Text) (bs : List Nat) : (cut t bs).length = bs.length - 1 := by
  induction bs with
  | nil => rfl
  | cons a bs ih =>
    cases bs with
    | nil => rfl
    | cons b bs => simpa [cut] using ih

/-- Cutting the joined text at the boundaries of the fragments gives the fragments. -/
theorem cut_boundaries (before : Text) (fs : List Text) :
    cut (before ++ fs.flatten) (boundaries before.bytes fs) = fs := by
  induction fs generalizing before with
  | nil => rfl
  | cons f rest ih =>
    have hs := Text.slice_append before f rest.flatten
    have hr := ih (before ++ f)
    simp only [Text.bytes_append, List.append_assoc] at hr
    cases rest with
    | nil => simpa [boundaries, cut] using hs
    | cons g rest =>
      simp only [boundaries, cut, List.flatten_cons] at hr hs ⊢
      rw [hs, hr]

end TagMarkup.Fragments
