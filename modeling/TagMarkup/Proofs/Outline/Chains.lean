import Mathlib.Algebra.GroupWithZero.Nat
import Mathlib.Data.List.Infix
import TagMarkup.Proofs.Outline

/-! The chains of tags in an outline. A chain leads from an outermost tag into the tags one inside
another, to one that has no tags in it, so its tags are those around a leaf and the leaf itself. The
delay of a forest is the most that the delays of the tags on a chain add up to. -/

namespace TagMarkup

namespace Forest

universe u

variable {α : Type u}

/-- The chains of the trees in a forest, as the paths of their trees, when `around` is the path
around the forest and `index` the place of its first tree. -/
def chains (around : Path) (index : Nat) : Forest α → List (List Path)
  | nil => []
  | cons _ inner rest =>
    let path := around ++ [index]
    let below := inner.chains path 0
    (if below.isEmpty then [[path]] else below.map (path :: ·)) ++ rest.chains around (index + 1)

/-- The most that the delays of the trees on a chain add up to. -/
def delay (k : Path → Nat) (around : Path) (index : Nat) (f : Forest α) : Nat :=
  ((f.chains around index).map fun chain => (chain.map k).sum).foldr max 0

theorem chains_eq_nil {around : Path} {index : Nat} {f : Forest α} :
    f.chains around index = [] ↔ f = nil := by
  cases f with
  | nil => simp [chains]
  | cons a inner rest =>
    simp only [chains, List.append_eq_nil_iff, reduceCtorEq, iff_false, not_and]
    intro hfirst
    split at hfirst
    · cases hfirst
    · next hbelow => simp_all

theorem foldr_max_append (xs ys : List Nat) :
    (xs ++ ys).foldr max 0 = max (xs.foldr max 0) (ys.foldr max 0) := by
  induction xs with
  | nil => simp
  | cons x xs ih => simp only [List.cons_append, List.foldr_cons, ih, Nat.max_assoc]

theorem foldr_max_add (n : Nat) {xs : List Nat} (h : xs ≠ []) :
    (xs.map (n + ·)).foldr max 0 = n + xs.foldr max 0 := by
  induction xs with
  | nil => exact absurd rfl h
  | cons x xs ih =>
    cases xs with
    | nil => simp
    | cons y xs =>
      rw [List.map_cons, List.foldr_cons, ih (by simp), List.foldr_cons, Nat.add_max_add_left]
      rfl

@[simp] theorem delay_nil (k : Path → Nat) (around : Path) (index : Nat) :
    (nil : Forest α).delay k around index = 0 := rfl

@[simp] theorem delay_cons (k : Path → Nat) (around : Path) (index : Nat) (a : α)
    (inner rest : Forest α) : (cons a inner rest).delay k around index =
      max (k (around ++ [index]) + inner.delay k (around ++ [index]) 0)
        (rest.delay k around (index + 1)) := by
  rw [delay, chains, List.map_append, foldr_max_append]
  congr 1
  by_cases h : inner = nil
  · subst h
    simp [chains]
  · have hne : inner.chains (around ++ [index]) 0 ≠ [] := fun hnil => h (chains_eq_nil.1 hnil)
    rw [if_neg (by simpa using hne), delay, ← foldr_max_add _ (by simpa using hne)]
    simp [Function.comp_def]

end Forest

namespace Outline

/-- The chains of all tags of an outline. -/
def chains (o : Outline) : List (List Path) := o.tags.chains [] 0

/-- The most that the delays of the tags on a chain add up to, and nothing if there are no tags. -/
def delay (o : Outline) (k : Path → Nat) : Nat :=
  (o.chains.map fun chain => (chain.map k).sum).foldr max 0

end Outline

end TagMarkup
