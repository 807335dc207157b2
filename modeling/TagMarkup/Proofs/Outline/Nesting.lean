import TagMarkup.Proofs.Outline

/-! How the nodes of an outline are numbered and nested. The nodes from a number on are those of a
forest (`Places`), so what the numbers of the nodes around and inside a node say is read off the
forest by induction. In a forest of tags that stand inside and behind each other, the node around a
tag is the innermost tag that is open where the tag begins. -/

namespace TagMarkup

/-- The tags stand between the offsets `lo` and `hi`, one behind another, and those in a tag stand
behind its first byte and in front of its last one. -/
def Forest.Nested (lo hi : Nat) : Forest Tag → Prop
  | .nil => lo ≤ hi
  | .cons tag inner rest =>
    lo ≤ tag.start ∧ inner.Nested (tag.start + 1) (tag.stop - 1) ∧ rest.Nested tag.stop hi

namespace Forest.Nested

variable {lo lo' hi hi' mid : Nat} {f g : Forest Tag} {tag : Tag}

theorem le (h : f.Nested lo hi) : lo ≤ hi := by
  induction f generalizing lo hi with
  | nil => exact h
  | cons tag inner rest ihi ihr =>
    obtain ⟨hlo, hinner, hrest⟩ := h
    have hin := ihi hinner
    have hhi := ihr hrest
    omega

theorem start_lt_stop {inner rest : Forest Tag} (h : (cons tag inner rest).Nested lo hi) :
    tag.start < tag.stop := by
  have hin := h.2.1.le
  omega

theorem mono (h : f.Nested lo hi) (hlo : lo' ≤ lo) (hhi : hi ≤ hi') : f.Nested lo' hi' := by
  induction f generalizing lo lo' with
  | nil =>
    have hle : lo ≤ hi := h
    show lo' ≤ hi'
    omega
  | cons tag inner rest _ ih =>
    obtain ⟨hfront, hinner, hrest⟩ := h
    exact ⟨by omega, hinner, ih hrest (Nat.le_refl _)⟩

theorem append (h : f.Nested lo mid) (h' : g.Nested mid hi) : (f ++ g).Nested lo hi := by
  induction f generalizing lo with
  | nil => exact h'.mono h (Nat.le_refl _)
  | cons tag inner rest _ ih =>
    obtain ⟨hlo, hinner, hrest⟩ := h
    exact ⟨hlo, hinner, ih hrest⟩

end Forest.Nested

namespace Outline

/-- The nodes of the outline from the number `first` on are those of the forest, which stands in the
node `around`. -/
def Places (o : Outline) (around first : Nat) (f : Forest Tag) : Prop :=
  ∀ j tag parent children, f.toList[j]? = some tag → (f.parents around first)[j]? = some parent →
    (f.children first)[j]? = some children →
      o.node? (first + j) = some (node tag parent children)

/-- A walk through the outline: it visits the first of the nodes with the numbers that are left to
visit, then the nodes inside it, and then the others. -/
inductive Walks (o : Outline) : List Nat → List Nat → Prop
  | done : Walks o [] []
  | visit {n : Nat} {found : Node} {left visited : List Nat} (isNode : o.node? n = some found)
    (more : Walks o (found.children ++ left) visited) : Walks o (n :: left) (n :: visited)

variable {o : Outline} {around first lo hi : Nat} {tag : Tag} {inner rest f : Forest Tag}

theorem places_tags (o : Outline) : o.Places 0 1 o.tags := by
  intro j tag parent children htag hparent hchildren
  have hzip : ((o.tags.parents 0 1).zip (o.tags.children 1))[j]? = some (parent, children) :=
    List.getElem?_zip_eq_some.2 ⟨hparent, hchildren⟩
  rw [Nat.add_comm, node?, nodes, List.getElem?_cons_succ, List.getElem?_zipWith_eq_some]
  exact ⟨tag, _, htag, hzip, rfl⟩

namespace Places

theorem head (h : o.Places around first (.cons tag inner rest)) :
    o.node? first = some (node tag around (inner.numbers (first + 1))) :=
  h 0 tag around _ rfl rfl rfl

theorem inside (h : o.Places around first (.cons tag inner rest)) :
    o.Places first (first + 1) inner := by
  intro j other parent children hother hparent hchildren
  have hlt : j < inner.size := by
    rw [← Forest.length_toList]
    exact (List.getElem?_eq_some_iff.1 hother).1
  have hnode := h (j + 1) other parent children ?_ ?_ ?_
  · rwa [← Nat.add_assoc, Nat.add_right_comm] at hnode
  · rw [Forest.toList, List.getElem?_cons_succ, List.getElem?_append_left (by simpa using hlt),
      hother]
  · rw [Forest.parents, List.getElem?_cons_succ, List.getElem?_append_left (by simpa using hlt),
      hparent]
  · rw [Forest.children, List.getElem?_cons_succ, List.getElem?_append_left (by simpa using hlt),
      hchildren]

theorem behind (h : o.Places around first (.cons tag inner rest)) :
    o.Places around (first + 1 + inner.size) rest := by
  intro j other parent children hother hparent hchildren
  have hnode := h (inner.size + j + 1) other parent children ?_ ?_ ?_
  · rwa [show first + (inner.size + j + 1) = first + 1 + inner.size + j by omega] at hnode
  · rw [Forest.toList, List.getElem?_cons_succ, List.getElem?_append_right (by simp),
      Forest.length_toList, Nat.add_sub_cancel_left, hother]
  · rw [Forest.parents, List.getElem?_cons_succ, List.getElem?_append_right (by simp),
      Forest.length_parents, Nat.add_sub_cancel_left, hparent]
  · rw [Forest.children, List.getElem?_cons_succ, List.getElem?_append_right (by simp),
      Forest.length_children, Nat.add_sub_cancel_left, hchildren]

/-- A walk that comes to the outermost trees of a forest visits all of it in the order of its
numbers. -/
theorem walks (h : o.Places around first f) {left visited : List Nat} (hw : o.Walks left visited) :
    o.Walks (f.numbers first ++ left) (List.range' first f.size ++ visited) := by
  induction f generalizing around first left visited with
  | nil => exact hw
  | cons tag inner rest ihi ihr =>
    have hrest := ihr h.behind hw
    have hinner := ihi h.inside hrest
    have hall := Walks.visit h.head hinner
    have hrange : List.range' first (inner.size + rest.size + 1) =
        first :: (List.range' (first + 1) inner.size ++
          List.range' (first + 1 + inner.size) rest.size) := by
      rw [List.range'_succ, List.range'_append_1]
    rw [Forest.size, hrange]
    simpa only [Forest.numbers, List.cons_append, List.append_assoc] using hall

/-- The node with a number, the nodes inside it, and the part of the text that they stand in. -/
theorem node (h : o.Places around first f) (hn : f.Nested lo hi) {n : Nat} (hfirst : first ≤ n)
    (hlast : n < first + f.size) : ∃ tag parent inner,
      o.node? n = some (Outline.node tag parent (inner.numbers (n + 1))) ∧
        o.Places n (n + 1) inner ∧ inner.Nested (tag.start + 1) (tag.stop - 1) ∧
        lo ≤ tag.start ∧ tag.start < tag.stop ∧ tag.stop ≤ hi := by
  induction f generalizing around first lo hi with
  | nil =>
    rw [Forest.size] at hlast
    omega
  | cons tag inner rest ihi ihr =>
    have hlt := hn.start_lt_stop
    obtain ⟨hlo, hinner, hrest⟩ := hn
    have hle := hrest.le
    rw [Forest.size] at hlast
    by_cases hhead : n = first
    · subst hhead
      exact ⟨tag, around, inner, h.head, h.inside, hinner, hlo, hlt, hle⟩
    by_cases hin : n < first + 1 + inner.size
    · obtain ⟨other, parent, g, hnode, hplaces, hnested, hstart, hmid, hstop⟩ :=
        ihi h.inside hinner (by omega) hin
      exact ⟨other, parent, g, hnode, hplaces, hnested, by omega, hmid, by omega⟩
    · obtain ⟨other, parent, g, hnode, hplaces, hnested, hstart, hmid, hstop⟩ :=
        ihr h.behind hrest (by omega) (by omega)
      exact ⟨other, parent, g, hnode, hplaces, hnested, by omega, hmid, hstop⟩

theorem bounds (h : o.Places around first f) (hn : f.Nested lo hi) {n : Nat} {found : Node}
    (hfirst : first ≤ n) (hlast : n < first + f.size) (hfound : o.node? n = some found) :
    found.tag?.isSome ∧ lo ≤ found.start ∧ found.start < found.stop ∧ found.stop ≤ hi := by
  obtain ⟨tag, parent, inner, hnode, -, -, hstart, hlt, hstop⟩ := h.node hn hfirst hlast
  obtain rfl := Option.some.inj (hnode.symm.trans hfound)
  exact ⟨rfl, hstart, hlt, hstop⟩

/-- The numbers of the tags follow the order in which they begin. -/
theorem start_lt (h : o.Places around first f) (hn : f.Nested lo hi) {k n : Nat} {one other : Node}
    (hk : first ≤ k) (hlt : k < n) (hlast : n < first + f.size) (hone : o.node? k = some one)
    (hother : o.node? n = some other) : one.start < other.start := by
  induction f generalizing around first lo hi with
  | nil =>
    rw [Forest.size] at hlast
    omega
  | cons tag inner rest ihi ihr =>
    have htag := hn.start_lt_stop
    obtain ⟨-, hinner, hrest⟩ := hn
    rw [Forest.size] at hlast
    by_cases hin : n < first + 1 + inner.size
    · by_cases hhead : k = first
      · subst hhead
        obtain rfl := Option.some.inj (h.head.symm.trans hone)
        exact (h.inside.bounds hinner (by omega) hin hother).2.1
      · exact ihi h.inside hinner (by omega) hin
    by_cases hbehind : first + 1 + inner.size ≤ k
    · exact ihr h.behind hrest hbehind (by omega)
    -- the first tag ends in between
    have hstop := (h.behind.bounds hrest (by omega) (by omega) hother).2.1
    by_cases hhead : k = first
    · subst hhead
      obtain rfl := Option.some.inj (h.head.symm.trans hone)
      show tag.start < other.start
      omega
    · have hbounds := h.inside.bounds hinner (by omega) (by omega) hone
      omega

/-- The outermost trees have the node around the forest as parent. -/
theorem of_mem_numbers (h : o.Places around first f) {n : Nat} (hn : n ∈ f.numbers first) :
    first ≤ n ∧ n < first + f.size ∧
      ∃ found, o.node? n = some found ∧ found.parent? = some around := by
  induction f generalizing first with
  | nil => cases hn
  | cons tag inner rest _ ih =>
    rw [Forest.size]
    rcases List.mem_cons.1 hn with rfl | hn
    · exact ⟨Nat.le_refl _, by omega, _, h.head, rfl⟩
    · obtain ⟨hfirst, hlast, hfound⟩ := ih h.behind hn
      exact ⟨by omega, by omega, hfound⟩

/-- The outermost trees stand one behind another. -/
theorem ordered (h : o.Places around first f) (hn : f.Nested lo hi) :
    ((f.numbers first).filterMap o.node?).Pairwise fun one other => one.stop ≤ other.start := by
  induction f generalizing first lo with
  | nil => exact .nil
  | cons tag inner rest _ ih =>
    obtain ⟨-, -, hrest⟩ := hn
    rw [Forest.numbers, List.filterMap_cons_some h.head, List.pairwise_cons]
    refine ⟨fun other hother => ?_, ih h.behind hrest⟩
    obtain ⟨n, hn, hfound⟩ := List.mem_filterMap.1 hother
    obtain ⟨hfirst, hlast, -⟩ := h.behind.of_mem_numbers hn
    exact (h.behind.bounds hrest hfirst hlast hfound).2.1

/-- The node around a tag is the one around the forest, or one of it that encloses the tag. The
nodes between the two end in front of the tag. -/
theorem parent (h : o.Places around first f) (hn : f.Nested lo hi) (ha : around < first) {n : Nat}
    {found : Node} (hfirst : first ≤ n) (hlast : n < first + f.size)
    (hfound : o.node? n = some found) : ∃ p, found.parent? = some p ∧
      (p = around ∧ n ∈ f.numbers first ∨ first ≤ p ∧ p < n ∧ ∃ outer, o.node? p = some outer ∧
        n ∈ outer.children ∧ outer.start < found.start ∧ found.stop < outer.stop) ∧
      ∀ k other, first ≤ k → p < k → k < n → o.node? k = some other →
        other.stop ≤ found.start := by
  induction f generalizing around first lo hi with
  | nil =>
    rw [Forest.size] at hlast
    omega
  | cons tag inner rest ihi ihr =>
    have hlt := hn.start_lt_stop
    obtain ⟨hlo, hinner, hrest⟩ := hn
    rw [Forest.size] at hlast
    by_cases hhead : n = first
    · subst hhead
      obtain rfl := Option.some.inj (h.head.symm.trans hfound)
      exact ⟨around, rfl, .inl ⟨rfl, List.mem_cons_self⟩, fun k other _ _ _ _ => by omega⟩
    by_cases hin : n < first + 1 + inner.size
    · -- inside the first tree, which encloses what is outermost there
      obtain ⟨-, hstart, -, hstop⟩ := h.inside.bounds hinner (by omega) hin hfound
      obtain ⟨p, hp, hplace, hbetween⟩ :=
        ihi h.inside hinner (Nat.lt_succ_self _) (by omega) hin
      have hle : first ≤ p := by
        rcases hplace with ⟨rfl, -⟩ | ⟨hle, -⟩
        · exact Nat.le_refl _
        · omega
      refine ⟨p, hp, .inr ?_, ?_⟩
      · rcases hplace with ⟨rfl, hmem⟩ | ⟨-, hlt, henclosed⟩
        · refine ⟨hle, by omega, _, h.head, hmem, ?_, ?_⟩
          · show tag.start < found.start
            omega
          · show found.stop < tag.stop
            omega
        · exact ⟨hle, hlt, henclosed⟩
      · intro k other hk hpk hkn hother
        exact hbetween k other (by omega) hpk hkn hother
    · -- behind the first tree, all of which ends there
      have hrestLo := (h.behind.bounds hrest (by omega) (by omega) hfound).2.1
      obtain ⟨p, hp, hplace, hbetween⟩ := ihr h.behind hrest (by omega) (by omega) (by omega)
      refine ⟨p, hp, ?_, ?_⟩
      · rcases hplace with ⟨rfl, hmem⟩ | ⟨hle, hlt, henclosed⟩
        · exact .inl ⟨rfl, List.mem_cons_of_mem _ hmem⟩
        · exact .inr ⟨by omega, hlt, henclosed⟩
      · intro k other hk hpk hkn hother
        by_cases hkhead : k = first
        · subst hkhead
          obtain rfl := Option.some.inj (h.head.symm.trans hother)
          exact hrestLo
        by_cases hkin : k < first + 1 + inner.size
        · have hstop := (h.inside.bounds hinner (by omega) hkin hother).2.2.2
          omega
        · exact hbetween k other (by omega) hpk hkn hother

end Places

end Outline

end TagMarkup
