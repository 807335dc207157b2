import TagMarkup.Outline

/-! The nodes of an outline by path: the node at a path is that of the tag that the path leads to
through the forest. -/

namespace TagMarkup

namespace Forest

universe u

variable {α : Type u}

theorem numbers_eq_nil {f : Forest α} {first : Nat} : f.numbers first = [] ↔ f = nil := by
  cases f <;> simp [numbers]

theorem find?_of_number? {f : Forest α} {first i n : Nat} {path : Path}
    (h : f.number? first i path = some n) :
    ∃ a inside, f.find? i path = some (a, inside) ∧ first ≤ n ∧ f.toList[n - first]? = some a ∧
      (f.children first)[n - first]? = some (inside.numbers (n + 1)) := by
  induction f generalizing first i path with
  | nil => cases h
  | cons a inner rest ihi ihr =>
    cases i with
    | zero =>
      cases path with
      | nil =>
        obtain rfl : first = n := Option.some.inj h
        exact ⟨a, inner, rfl, Nat.le_refl _, by simp [toList], by simp [children]⟩
      | cons j path =>
        obtain ⟨b, inside, hfind, hle, hget, hchildren⟩ := ihi h
        have hlt : n - (first + 1) < inner.toList.length := (List.getElem?_eq_some_iff.1 hget).1
        have hlt' : n - (first + 1) < (inner.children (first + 1)).length :=
          (List.getElem?_eq_some_iff.1 hchildren).1
        have hn : n - first = n - (first + 1) + 1 := by omega
        refine ⟨b, inside, hfind, by omega, ?_, ?_⟩
        · rw [toList, hn, List.getElem?_cons_succ, List.getElem?_append_left hlt, hget]
        · rw [children, hn, List.getElem?_cons_succ, List.getElem?_append_left hlt', hchildren]
    | succ i =>
      obtain ⟨b, inside, hfind, hle, hget, hchildren⟩ := ihr h
      have hn : n - first = inner.size + (n - (first + 1 + inner.size)) + 1 := by omega
      refine ⟨b, inside, hfind, by omega, ?_, ?_⟩
      · rw [toList, hn, List.getElem?_cons_succ, List.getElem?_append_right (by simp),
          length_toList, Nat.add_sub_cancel_left, hget]
      · rw [children, hn, List.getElem?_cons_succ, List.getElem?_append_right (by simp),
          length_children, Nat.add_sub_cancel_left, hchildren]

theorem number?_eq_none {f : Forest α} {first i : Nat} {path : Path}
    (h : f.number? first i path = none) : f.find? i path = none := by
  induction f generalizing first i path with
  | nil => rfl
  | cons a inner rest ihi ihr =>
    cases i with
    | zero =>
      cases path with
      | nil => cases h
      | cons j path => exact ihi h
    | succ i => exact ihr h

end Forest

namespace Outline

theorem node?_succ {o : Outline} {n : Nat} {tag : Tag} {children : List Nat}
    (h : o.tags.toList[n]? = some tag) (hc : (o.tags.children 1)[n]? = some children) :
    ∃ parent, o.node? (n + 1) = some (node tag parent children) := by
  have hlt : n < o.tags.size := by
    rw [← Forest.length_toList]
    exact (List.getElem?_eq_some_iff.1 h).1
  have hparents : n < (o.tags.parents 0 1).length := by rwa [Forest.length_parents]
  have hzip : ((o.tags.parents 0 1).zip (o.tags.children 1))[n]? =
      some ((o.tags.parents 0 1)[n], children) := by
    rw [List.getElem?_zip_eq_some]
    exact ⟨List.getElem?_eq_getElem hparents, hc⟩
  refine ⟨(o.tags.parents 0 1)[n], ?_⟩
  rw [node?, nodes, List.getElem?_cons_succ, List.getElem?_zipWith_eq_some]
  exact ⟨tag, _, h, hzip, rfl⟩

/-- The node at a path is that of the tag that the path leads to. -/
theorem at?_cons (o : Outline) (i : Nat) (path : Path) :
    match o.tags.find? i path with
    | some (tag, inside) => ∃ parent first,
        o.at? (i :: path) = some (node tag parent (inside.numbers first))
    | none => o.at? (i :: path) = none := by
  have hat : o.at? (i :: path) = (o.tags.number? 1 i path).bind o.node? := rfl
  rw [hat]
  cases hn : o.tags.number? 1 i path with
  | none => rw [Forest.number?_eq_none hn]; rfl
  | some n =>
    obtain ⟨tag, inside, hfind, hle, hget, hchildren⟩ := Forest.find?_of_number? hn
    obtain ⟨parent, hnode⟩ := node?_succ hget hchildren
    rw [hfind]
    rw [Nat.sub_add_cancel hle] at hnode
    exact ⟨parent, n + 1, hnode⟩

end Outline

end TagMarkup
